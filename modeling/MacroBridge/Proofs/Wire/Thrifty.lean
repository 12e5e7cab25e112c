import MacroBridge.Proofs.Json.Yields
import MacroBridge.Proofs.Wire.Reads

/-!
No value needs more containers for its encoding than were open around and in the text that it was
read from, whichever of its spellings that was.
-/
namespace MacroBridge
open Json Json.Decoder

namespace Wire
variable {n : Nat}

/-! ### What encodings need -/

theorem nestingFrom_flatten_le_iff {entries : List (List Piece)} (h : ∀ e ∈ entries, Balanced e) :
    nestingFrom 0 entries.flatten ≤ n ↔ ∀ e ∈ entries, nestingFrom 0 e ≤ n := by
  induction entries with
  | nil => exact iff_of_true (Nat.zero_le n) (by simp)
  | cons e entries ih =>
    obtain ⟨he, hes⟩ := List.forall_mem_cons.mp h
    rw [nestingFrom_flatten_cons he, Nat.max_le, ih hes, List.forall_mem_cons]

/-- An object needs one level around its members. -/
theorem nesting_object_le_iff {ms : List (String × List Piece)}
    (h : ∀ m ∈ ms, Complete .value m.2) :
    nestingFrom 0 (object ms) ≤ n + 1 ↔ ∀ m ∈ ms, nestingFrom 0 m.2 ≤ n := by
  have hentries : ∀ e ∈ ms.map entryOf, Complete (.entry .object) e :=
    List.forall_mem_map.mpr fun m hm => (h m hm).member m.1
  rw [show object ms = Container.object.pieces (ms.map entryOf) from
    rfl, Container.nesting_pieces hentries, Nat.add_le_add_iff_right,
    nestingFrom_flatten_le_iff fun e he => (hentries e he).balanced, List.forall_mem_map]
  simp only [entryOf, nestingFrom_key]

/-- An array needs one level around its elements. -/
theorem nesting_array_le_iff {items : List (List Piece)} (h : ∀ ps ∈ items, Complete .value ps) :
    nestingFrom 0 (array items) ≤ n + 1 ↔ ∀ ps ∈ items, nestingFrom 0 ps ≤ n := by
  have hentries : ∀ e ∈ items, Complete (.entry .array) e := fun ps hps => (h ps hps).element
  rw [show array items = Container.array.pieces items from rfl, Container.nesting_pieces hentries,
    Nat.add_le_add_iff_right, nestingFrom_flatten_le_iff fun e he => (hentries e he).balanced]

theorem nesting_tagged_le_iff {name : String} {ps : List Piece} (h : Complete .value ps) :
    nestingFrom 0 (tagged name ps) ≤ n + 1 ↔ nestingFrom 0 ps ≤ n := by
  rw [tagged, nesting_object_le_iff (by simpa using h)]
  simp

/-- The array of its children takes the level that the delimiter of a group takes, so the delimiter
adds nothing. -/
theorem nesting_group_le_iff {d : Option Delimiter} {cs : List TokenTree} :
    nestingFrom 0 (groupPieces d cs) ≤ n + 1 ↔ nestingFrom 0 (array (cs.map pieces)) ≤ n := by
  have harray : Complete .value (array (cs.map pieces)) := array_complete (complete_trees cs)
  have hd : nestingFrom 0 (pieces d) ≤ 1 := by
    cases d with
    | none => exact Nat.zero_le 1
    | some d => exact Nat.le_refl 1
  have hcs : 1 ≤ nestingFrom 0 (array (cs.map pieces)) :=
    Nat.le_trans (le_nestingFrom 1 _) (Nat.le_max_right _ _)
  rw [groupPieces, nesting_object_le_iff
    (by simpa using ⟨(reads_optionDelimiter 0 d).complete, harray⟩), List.forall_mem_cons,
    List.forall_mem_singleton]
  exact ⟨And.right, fun h => ⟨Nat.le_trans hd (Nat.le_trans hcs h), h⟩⟩

/-- A task needs one level around each of the trees that it carries. -/
theorem nesting_task_le_iff {t : ExpansionTask} :
    nesting t ≤ n + 1 ↔ nesting t.body ≤ n ∧ nesting t.attributes ≤ n := by
  have hflat (text : String) : nestingFrom 0 [.string text] ≤ n := Nat.zero_le n
  have hms : ∀ m ∈ [("macro_body", pieces t.body), ("macro_name", [.string t.name]),
      ("attributes", pieces t.attributes), ("lib", [.string t.lib])], Complete .value m.2 := by
    simpa using ⟨(reads_subtree t.body).complete, complete_string t.name,
      (reads_optionSubtree t.attributes).complete, complete_string t.lib⟩
  refine (nesting_object_le_iff hms).trans ?_
  simp [hflat, nesting]

theorem nesting_result_le_iff {r : ExpansionResult} :
    nesting r ≤ n + 1 ↔ nesting r.expansion ≤ n := by
  refine (nesting_object_le_iff (by simpa using (reads_subtree r.expansion).complete)).trans ?_
  simp [nesting]

/-! ### Trees -/

/-- A decoder whose values are encoded within the levels that were left when they were read. -/
def Thrifty {α : Type} [Wire α] (d : Decoder α) : Prop := d.Yields fun n a => nesting a ≤ n

/-- A record of which every encoding is one flat object. -/
theorem thrifty_record {α σ : Type} [Wire α] {fields : List (Decoder.Field σ)} {start : σ}
    {finish : σ → Option α} (h : ∀ a : α, nesting a = 1) :
    Thrifty (record fields start finish) := by
  refine yields_record (I := fun _ _ => True) (fun _ => trivial)
    (fun _ _ _ _ _ _ _ _ _ => trivial) ?_
  intro n x a _ _
  rw [h]
  exact Nat.le_add_left 1 n

theorem thrifty_textAndId {α : Type} [Wire α] (make : String → TokenId → α)
    (h : ∀ a : α, nesting a = 1) : Thrifty (textAndId make) := thrifty_record h

theorem thrifty_punct : Thrifty (decoder : Decoder Punct) := thrifty_record fun _ => rfl

/-- The cases of a sum, each encoded under its name with one level around the value that it
carries. -/
def ThriftyCases {α : Type} [Wire α] (cases : List (String × Case α)) : Prop :=
  CasesYield (fun n a => nesting a ≤ n) cases

theorem thriftyCases_nil {α : Type} [Wire α] : ThriftyCases ([] : List (String × Case α)) :=
  casesYield_nil _

theorem ThriftyCases.carrying {α β : Type} [Wire α] [Wire β] {d : Decoder α} {f : α → β}
    {name : String} {cases : List (String × Case β)} (h : Thrifty d)
    (hc : ∀ a : α, Complete .value (pieces a)) (hf : ∀ a, pieces (f a) = tagged name (pieces a))
    (hs : ThriftyCases cases) : ThriftyCases ((name, .carrying (d.map f)) :: cases) := by
  refine CasesYield.carrying (.map (h.mono fun n a ha => ?_)) hs
  rw [nesting, hf]
  exact (nesting_tagged_le_iff (hc a)).mpr ha

theorem thrifty_oneOf {α : Type} [Wire α] {cases : List (String × Case α)}
    (h : ThriftyCases cases) : Thrifty (oneOf cases) := yields_oneOf h

theorem thrifty_leaf : Thrifty (decoder : Decoder Leaf) := by
  have hliteral : Thrifty (decoder : Decoder Literal) := thrifty_textAndId _ fun _ => rfl
  have hident : Thrifty (decoder : Decoder Ident) := thrifty_textAndId _ fun _ => rfl
  exact thrifty_oneOf (.carrying hliteral (fun l => (reads_literal 0 l).complete) (fun _ => rfl)
    (.carrying thrifty_punct (fun p => (reads_punct 0 p).complete) (fun _ => rfl)
      (.carrying hident (fun i => (reads_ident 0 i).complete) (fun _ => rfl) thriftyCases_nil)))

theorem thrifty_groupDecoder {child : Decoder TokenTree} (h : Thrifty child) :
    Thrifty (groupDecoder child) := by
  have hchildren : (Decoder.list child).Yields fun n cs =>
      nestingFrom 0 (array (cs.map pieces)) ≤ n :=
    h.list fun n cs hcs => (nesting_array_le_iff (complete_trees cs)).mpr
      (List.forall_mem_map.mpr hcs)
  refine yields_record (I := Stored (·.2) fun n cs => nestingFrom 0 (array (cs.map pieces)) ≤ n)
    (fun n cs hcs => by simp at hcs)
    (List.forall_mem_cons.mpr ⟨?_, List.forall_mem_singleton.mpr ?_⟩) ?_
  · exact keeps_beside fun _ _ => rfl
  · exact keeps_stored hchildren fun _ _ => rfl
  · rintro n r s hr hs
    obtain ⟨cs, hcs, hs⟩ := Option.bind_eq_some_iff.mp hs
    obtain rfl := Option.some.inj hs
    rw [nesting, pieces_subtree]
    exact nesting_group_le_iff.mpr (hr cs hcs)

theorem thrifty_treeDecoder (levels : Nat) : Thrifty (treeDecoder levels) := by
  induction levels with
  | zero => exact yields_never _
  | succ levels ih =>
    exact thrifty_oneOf (.carrying thrifty_leaf (fun l => (reads_leaf 0 l).complete) pieces_leaf
      (.carrying (thrifty_groupDecoder ih) (fun s => (reads_subtree s).complete)
        (fun s => by rw [Subtree.toTree, pieces_group, pieces_subtree]) thriftyCases_nil))

theorem thrifty_subtree : Thrifty (decoder : Decoder Subtree) :=
  thrifty_groupDecoder (thrifty_treeDecoder _)

theorem thrifty_optionSubtree : Thrifty (decoder : Decoder (Option Subtree)) :=
  thrifty_subtree.option (fun n => Nat.zero_le n)

/-! ### Requests and responses -/

theorem thrifty_listTask : Thrifty (decoder : Decoder ListTask) := thrifty_record fun _ => rfl

theorem thrifty_reportedError : Thrifty (decoder : Decoder ReportedError) :=
  thrifty_record fun _ => rfl

theorem complete_macro (m : String × MacroKind) : Complete .value (macroPieces m) :=
  array_complete (by simpa using ⟨complete_string m.1, (reads_macroKind 0 m.2).complete⟩)

theorem thrifty_listResult : Thrifty (decoder : Decoder ListResult) := by
  have hcomplete (ms : List (String × MacroKind)) : ∀ ps ∈ ms.map macroPieces,
      Complete .value ps :=
    List.forall_mem_map.mpr fun m _ => complete_macro m
  have hpair : (pair string decoder).Yields fun n m => nestingFrom 0 (macroPieces m) ≤ n :=
    ((yields_any _).mono fun n m _ => Nat.le_add_left 1 n).container
  have hmacros : (Decoder.list (pair string decoder)).Yields fun n ms =>
      nestingFrom 0 (array (ms.map macroPieces)) ≤ n :=
    hpair.list fun n ms hms =>
      (nesting_array_le_iff (hcomplete ms)).mpr (List.forall_mem_map.mpr hms)
  refine yields_single (hmacros.mono fun n ms hms => ?_)
  have hobject : ∀ m ∈ [("macros", array (ms.map macroPieces))], Complete .value m.2 := by
    simpa using array_complete (hcomplete ms)
  exact (nesting_object_le_iff hobject).mpr (by simpa using hms)

theorem thrifty_expansionTask : Thrifty (decoder : Decoder ExpansionTask) := by
  refine yields_record (I := fun n r => Stored (·.1) (fun n body => nesting body ≤ n) n r ∧
    Stored (·.2.2.1) (fun n attributes => nesting attributes ≤ n) n r) (fun n => by
      simp [Stored]) ?_ ?_
  · refine List.forall_mem_cons.mpr ⟨?_,
      List.forall_mem_cons.mpr ⟨?_,
        List.forall_mem_cons.mpr ⟨?_, List.forall_mem_singleton.mpr ?_⟩⟩⟩
    · exact .and (keeps_stored thrifty_subtree (by simp)) (keeps_beside (by simp))
    · exact .and (keeps_beside (by simp)) (keeps_beside (by simp))
    · exact .and (keeps_beside (by simp)) (keeps_stored thrifty_optionSubtree (by simp))
    · exact .and (keeps_beside (by simp)) (keeps_beside (by simp))
  · rintro n ⟨body, name, attributes, lib⟩ t ⟨hbody, hattributes⟩ ht
    obtain ⟨body, rfl, ht⟩ := Option.bind_eq_some_iff.mp ht
    obtain ⟨name, rfl, ht⟩ := Option.bind_eq_some_iff.mp ht
    obtain ⟨lib, rfl, ht⟩ := Option.bind_eq_some_iff.mp ht
    obtain rfl := Option.some.inj ht
    refine nesting_task_le_iff.mpr ⟨hbody body rfl, ?_⟩
    cases attributes with
    | none => exact Nat.zero_le n
    | some attributes => exact hattributes attributes rfl

theorem thrifty_expansionResult : Thrifty (decoder : Decoder ExpansionResult) :=
  yields_single (thrifty_subtree.mono fun _ _ => nesting_result_le_iff.mpr)

theorem thrifty_request : Thrifty (decoder : Decoder Request) :=
  thrifty_oneOf (.carrying thrifty_listTask (fun t => (reads_listTask 0 t).complete) (fun _ => rfl)
    (.carrying thrifty_expansionTask (fun t => (reads_expansionTask t).complete)
      (fun _ => rfl) thriftyCases_nil))

theorem thrifty_response : Thrifty (decoder : Decoder Response) :=
  thrifty_oneOf (.carrying thrifty_reportedError (fun e => (reads_reportedError 0 e).complete)
    (fun _ => rfl) (.carrying thrifty_listResult (fun r => (reads_listResult 0 r).complete)
      (fun _ => rfl) (.carrying thrifty_expansionResult
        (fun r => (reads_expansionResult r).complete) (fun _ => rfl) thriftyCases_nil)))

end Wire

end MacroBridge
