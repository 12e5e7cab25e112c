import MacroBridge.Proofs.Json.Reads
import MacroBridge.Wire.Message

/-!
The types that travel are read back from their encodings.
-/
namespace MacroBridge
open Json

namespace Wire

variable {cap : Nat}

theorem object_complete {ms : List (String × List Piece)} (h : ∀ m ∈ ms, Complete .value m.2) :
    Complete .value (object ms) := by
  have hentries : ∀ e ∈ ms.map entryOf, Complete (.entry .object) e := fun e he => by
    obtain ⟨m, hm, rfl⟩ := List.mem_map.mp he
    exact (h m hm).member m.1
  exact Container.complete_pieces hentries

theorem array_complete {items : List (List Piece)} (h : ∀ ps ∈ items, Complete .value ps) :
    Complete .value (array items) :=
  Container.complete_pieces (c := .array) fun ps hps => (h ps hps).element

theorem head_object (ms : List (String × List Piece)) :
    (bytes (object ms)).head? = some (byte '\x7b') := by
  have hpieces : object ms = Container.object.pieces (ms.map entryOf) := rfl
  rw [hpieces, Container.bytes_pieces]
  rfl

theorem nesting_object_pos (ms : List (String × List Piece)) : 0 < nestingFrom 0 (object ms) := by
  have h := le_nestingFrom 1 (ms.flatMap (fun m => .key m.1 :: m.2) ++ [.closeObject])
  exact Nat.lt_of_lt_of_le h (Nat.le_max_right _ _)

/-! ### Leaves -/

theorem reads_tokenId (cap : Nat) (id : TokenId) : Reads cap decoder (pieces id) id := by
  have hbound : id.toNat ≤ 4294967295 := Nat.le_of_lt_succ id.toNat_lt
  have h := (reads_natural cap hbound).map Nat.toUInt32
  rwa [show id.toNat.toUInt32 = id from UInt32.ofNat_toNat] at h

theorem reads_bracket (cap : Nat) (b : Bracket) : Reads cap decoder (pieces b) b := by
  cases b <;> exact reads_bare cap rfl

theorem reads_spacing (cap : Nat) (s : Spacing) : Reads cap decoder (pieces s) s := by
  cases s <;> exact reads_bare cap rfl

theorem reads_delimiter (cap : Nat) (d : Delimiter) : Reads cap decoder (pieces d) d := by
  refine reads_record (r := (some d.id, some d.bracket)) ?_ rfl (Nat.le_succ cap)
  exact .field rfl rfl (reads_tokenId cap d.id)
    (.field rfl rfl (reads_bracket cap d.bracket) (.nil _))

theorem reads_textAndId {α : Type} (cap : Nat) (make : String → TokenId → α) (text : String)
    (id : TokenId) :
    Reads cap (textAndId make) (object [("text", [.string text]), ("id", pieces id)])
      (make text id) := by
  refine reads_record (r := (some text, some id)) ?_ rfl (Nat.le_succ cap)
  exact .field rfl rfl (reads_string cap text) (.field rfl rfl (reads_tokenId cap id) (.nil _))

theorem reads_literal (cap : Nat) (l : Literal) : Reads cap decoder (pieces l) l :=
  reads_textAndId cap Literal.mk l.text l.id

theorem reads_ident (cap : Nat) (i : Ident) : Reads cap decoder (pieces i) i :=
  reads_textAndId cap Ident.mk i.text i.id

theorem reads_char (cap : Nat) (c : Char) :
    Reads cap Decoder.char [.string (String.singleton c)] c :=
  (reads_string cap (String.singleton c)).refine (by simp)

theorem reads_punct (cap : Nat) (p : Punct) : Reads cap decoder (pieces p) p := by
  refine reads_record (r := (some p.char, some p.spacing, some p.id)) ?_ rfl (Nat.le_succ cap)
  exact .field rfl rfl (reads_char cap p.char) (.field rfl rfl (reads_spacing cap p.spacing)
    (.field rfl rfl (reads_tokenId cap p.id) (.nil _)))

theorem reads_leaf (cap : Nat) (l : Leaf) : Reads cap decoder (pieces l) l := by
  cases l with
  | literal l =>
    exact reads_carrying rfl ((reads_literal cap l).map Leaf.literal) (Nat.le_succ cap)
  | punct p => exact reads_carrying rfl ((reads_punct cap p).map Leaf.punct) (Nat.le_succ cap)
  | ident i => exact reads_carrying rfl ((reads_ident cap i).map Leaf.ident) (Nat.le_succ cap)

/-! ### Trees -/

/-- A value that is an object, or none, where there may be none. -/
theorem reads_option {α : Type} [Wire α] (h : ∀ a : α, Reads cap decoder (pieces a) a)
    (ho : ∀ a : α, ∃ ms, pieces a = object ms) (a : Option α) :
    Reads cap decoder (pieces a) a := by
  cases a with
  | none => exact reads_none cap decoder
  | some a =>
    obtain ⟨ms, hms⟩ := ho a
    refine (h a).some ?_
    rw [hms, head_object]
    exact fun h => absurd (Option.some.inj h) (by decide)

theorem reads_optionDelimiter (cap : Nat) (d : Option Delimiter) :
    Reads cap decoder (pieces d) d :=
  reads_option (reads_delimiter cap) (fun _ => ⟨_, rfl⟩) d

/-- A group as an object. -/
def groupPieces (d : Option Delimiter) (cs : List TokenTree) : List Piece :=
  object [("delimiter", pieces d), ("token_trees", array (cs.map pieces))]

theorem pieces_leaf (l : Leaf) : pieces (TokenTree.leaf l) = tagged "Leaf" (pieces l) := by
  simp [pieces, visitPieces]

theorem flatMap_visits (cs : List TokenTree) :
    (cs.flatMap TokenTree.visits).flatMap visitPieces = (cs.map pieces).flatten := by
  rw [List.flatMap_assoc, List.flatMap_def]
  rfl

theorem pieces_group (d : Option Delimiter) (cs : List TokenTree) :
    pieces (TokenTree.group d cs) = tagged "Subtree" (groupPieces d cs) := by
  have hvisits : pieces (TokenTree.group d cs) =
      (TokenTree.group d cs).visits.flatMap visitPieces := rfl
  rw [hvisits, TokenTree.visits_group, List.flatMap_append, List.flatMap_cons, flatMap_visits]
  simp [visitPieces, groupStart, groupEnd, groupPieces, tagged, object, array]

theorem pieces_subtree (s : Subtree) : pieces s = groupPieces s.delimiter s.children := by
  have hvisits : pieces s = groupStart s.delimiter ++
      ((TokenTree.visitsAllOnto [] s.children).reverse.flatMap visitPieces ++ groupEnd) := rfl
  rw [hvisits, TokenTree.reverse_visitsAllOnto, flatMap_visits]
  simp [groupStart, groupEnd, groupPieces, object, array]

mutual

theorem complete_tree (t : TokenTree) : Complete .value (pieces t) := by
  cases t with
  | leaf l =>
    rw [pieces_leaf]
    exact object_complete (by simpa using (reads_leaf 0 l).complete)
  | group d cs =>
    have hgroup : Complete .value (groupPieces d cs) := object_complete (by
      simpa using ⟨(reads_optionDelimiter 0 d).complete, array_complete (complete_trees cs)⟩)
    rw [pieces_group]
    exact object_complete (by simpa using hgroup)

theorem complete_trees (cs : List TokenTree) : ∀ ps ∈ cs.map pieces, Complete .value ps := by
  cases cs with
  | nil => simp
  | cons c cs => exact List.forall_mem_cons.mpr ⟨complete_tree c, complete_trees cs⟩

end

theorem reads_group {child : Decoder TokenTree} {cs : List TokenTree}
    (h : ∀ c ∈ cs, Reads cap child (pieces c) c) (d : Option Delimiter) :
    Reads cap (groupDecoder child) (groupPieces d cs) ⟨d, cs⟩ := by
  refine reads_record (r := (some d, some cs)) ?_ rfl (Nat.le_succ cap)
  exact .field rfl rfl (reads_optionDelimiter cap d)
    (.field rfl rfl (reads_list h (Nat.le_succ cap)) (.nil _))

/-- With as many levels as containers, the containers are used up first. -/
theorem reads_tree (levels : Nat) (t : TokenTree) :
    Reads levels (treeDecoder levels) (pieces t) t := by
  induction levels generalizing t with
  | zero =>
    refine ⟨complete_tree t, fun limits u hn _ _ => ?_⟩
    have hopen : 0 < nestingFrom 0 (pieces t) := by
      cases t with
      | leaf l =>
        rw [pieces_leaf]
        exact nesting_object_pos _
      | group d cs =>
        rw [pieces_group]
        exact nesting_object_pos _
    rw [if_neg (by omega)]
    rfl
  | succ levels ih =>
    cases t with
    | leaf l =>
      rw [pieces_leaf]
      exact reads_carrying rfl ((reads_leaf levels l).map TokenTree.leaf) (Nat.le_refl _)
    | group d cs =>
      rw [pieces_group]
      exact reads_carrying rfl ((reads_group (fun c _ => ih c) d).map Subtree.toTree)
        (Nat.le_refl _)

theorem reads_subtree (s : Subtree) : Reads maxNesting decoder (pieces s) s := by
  rw [pieces_subtree]
  exact reads_group (fun c _ => reads_tree maxNesting c) s.delimiter

theorem reads_optionSubtree (s : Option Subtree) : Reads maxNesting decoder (pieces s) s :=
  reads_option reads_subtree (fun s => ⟨_, pieces_subtree s⟩) s

/-! ### Requests and responses -/

theorem reads_macroKind (cap : Nat) (k : MacroKind) : Reads cap decoder (pieces k) k := by
  cases k <;> exact reads_bare cap rfl

theorem reads_errorCode (cap : Nat) (c : ErrorCode) : Reads cap decoder (pieces c) c := by
  cases c <;> exact reads_bare cap rfl

theorem reads_listTask (cap : Nat) (t : ListTask) : Reads cap decoder (pieces t) t := by
  refine reads_record (r := some t.lib) ?_ rfl (Nat.le_succ cap)
  exact .field rfl rfl (reads_string cap t.lib) (.nil _)

/-- A macro among those of a library. -/
def macroPieces (m : String × MacroKind) : List Piece := array [[.string m.1], pieces m.2]

theorem reads_listResult (cap : Nat) (r : ListResult) : Reads cap decoder (pieces r) r := by
  refine reads_record (r := some r.macros) ?_ rfl (Nat.le_succ cap)
  refine .field rfl rfl (reads_list (fun m _ => ?_) (Nat.le_succ cap)) (.nil _)
  exact reads_pair (reads_string cap m.1) (reads_macroKind cap m.2) (Nat.le_succ cap)

theorem reads_expansionTask (t : ExpansionTask) : Reads maxNesting decoder (pieces t) t := by
  refine reads_record (r := (some t.body, some t.name, some t.attributes, some t.lib)) ?_
    rfl (Nat.le_succ _)
  exact .field rfl rfl (reads_subtree t.body) (.field rfl rfl (reads_string _ t.name)
    (.field rfl rfl (reads_optionSubtree t.attributes)
      (.field rfl rfl (reads_string _ t.lib) (.nil _))))

theorem reads_expansionResult (r : ExpansionResult) : Reads maxNesting decoder (pieces r) r := by
  refine reads_record (r := some r.expansion) ?_ rfl (Nat.le_succ _)
  exact .field rfl rfl (reads_subtree r.expansion) (.nil _)

theorem reads_reportedError (cap : Nat) (e : ReportedError) : Reads cap decoder (pieces e) e := by
  refine reads_record (r := (some e.code, some e.message)) ?_ rfl (Nat.le_succ cap)
  exact .field rfl rfl (reads_errorCode cap e.code)
    (.field rfl rfl (reads_string cap e.message) (.nil _))

theorem reads_request (r : Request) : Reads maxNesting decoder (pieces r) r := by
  cases r with
  | listMacros t =>
    exact reads_carrying rfl ((reads_listTask _ t).map Request.listMacros) (Nat.le_succ _)
  | expand t =>
    exact reads_carrying rfl ((reads_expansionTask t).map Request.expand) (Nat.le_succ _)

theorem reads_response (r : Response) : Reads maxNesting decoder (pieces r) r := by
  cases r with
  | error e =>
    exact reads_carrying rfl ((reads_reportedError _ e).map Response.error) (Nat.le_succ _)
  | macros r =>
    exact reads_carrying rfl ((reads_listResult _ r).map Response.macros) (Nat.le_succ _)
  | expansion r =>
    exact reads_carrying rfl ((reads_expansionResult r).map Response.expansion) (Nat.le_succ _)

end Wire

end MacroBridge
