import MacroBridge.Proofs.Json.Distinct
import MacroBridge.Proofs.Wire.Reads

/-!
Different values have different encodings, and none begins with another. Trees may be of any depth
here, also of one that no decoder allows.
-/
namespace MacroBridge
open Json

/-- Whether a value is known from any pieces that begin with its own. -/
def Json.Known {α : Type} (f : α → List Piece) (a : α) : Prop :=
  ∀ ⦃b s t⦄, f a ++ s = f b ++ t → a = b ∧ s = t

namespace Wire

variable {α β : Type} {f : α → List Piece} {g : β → List Piece} {a b : α} {as bs : List α}
  {name : String}
  {ps : List Piece} {ms ns : List (String × List Piece)} {s t : List Piece}

theorem known_one {f : α → Piece} (hf : Function.Injective f) (a : α) :
    Known (fun a => [f a]) a := by
  intro b s t h
  obtain ⟨hab, rfl⟩ := List.cons.inj h
  exact ⟨hf hab, rfl⟩

/-! ### Objects and arrays -/

theorem object_nil_unique (h : object [] ++ s = object [] ++ t) : s = t :=
  List.append_cancel_left h

/-- The first member of an object ends where the others begin. -/
theorem object_cons_unique (ha : Known f a)
    (h : object ((name, f a) :: ms) ++ s = object ((name, f b) :: ns) ++ t) :
    a = b ∧ object ms ++ s = object ns ++ t := by
  simp only [object, List.flatMap_cons, List.cons_append, List.append_assoc] at h ⊢
  obtain ⟨rfl, hrest⟩ := ha (List.cons.inj (List.cons.inj h).2).2
  exact ⟨rfl, congrArg (List.cons _) hrest⟩

theorem object_name_unique {m n : String} {qs : List Piece}
    (h : object ((m, ps) :: ms) ++ s = object ((n, qs) :: ns) ++ t) : m = n := by
  simp only [object, List.flatMap_cons, List.cons_append, List.append_assoc] at h
  exact Piece.key.inj (List.cons.inj (List.cons.inj h).2).1

theorem tagged_unique (ha : Known f a) (h : tagged name (f a) ++ s = tagged name (f b) ++ t) :
    a = b ∧ s = t := by
  obtain ⟨rfl, hrest⟩ := object_cons_unique ha h
  exact ⟨rfl, object_nil_unique hrest⟩

/-- The case of a sum is known from its name. -/
theorem tagged_name_unique {m n : String} {ps qs : List Piece}
    (h : tagged m ps ++ s = tagged n qs ++ t) : m = n :=
  object_name_unique h

/-- Whether pieces can stand in an array: what closes it is not the first of them. -/
def CanBeElement (ps : List Piece) : Prop := ∀ s t, ps ++ s ≠ .closeArray :: t

theorem elements_unique (hf : ∀ a, CanBeElement (f a)) (h : ∀ a ∈ as, Known f a)
    (heq : (as.map f).flatten ++ .closeArray :: s = (bs.map f).flatten ++ .closeArray :: t) :
    as = bs ∧ s = t := by
  -- Where one array ends and the other goes on, an element would begin with the bracket.
  induction as generalizing bs with
  | nil =>
    cases bs with
    | nil => exact ⟨rfl, (List.cons.inj heq).2⟩
    | cons b bs =>
      rw [List.map_cons, List.flatten_cons, List.append_assoc] at heq
      exact absurd heq.symm (hf b _ _)
  | cons a as ih =>
    cases bs with
    | nil =>
      rw [List.map_cons, List.flatten_cons, List.append_assoc] at heq
      exact absurd heq (hf a _ _)
    | cons b bs =>
      obtain ⟨ha, has⟩ := List.forall_mem_cons.mp h
      rw [List.map_cons, List.map_cons, List.flatten_cons, List.flatten_cons, List.append_assoc,
        List.append_assoc] at heq
      obtain ⟨rfl, hrest⟩ := ha heq
      obtain ⟨rfl, rfl⟩ := ih has hrest
      exact ⟨rfl, rfl⟩

theorem known_array (hf : ∀ a, CanBeElement (f a)) (h : ∀ a ∈ as, Known f a) :
    Known (fun as => array (as.map f)) as := by
  intro bs s t heq
  simp only [array, List.cons_append, List.append_assoc] at heq
  exact elements_unique hf h (List.cons.inj heq).2

/-! ### Leaves -/

theorem known_string (text : String) : Known (fun text => [.string text]) text :=
  known_one (fun _ _ => Piece.string.inj) text

theorem known_names {name : α → String} (h : Function.Injective name) (a : α) :
    Known (fun a => [.string (name a)]) a :=
  known_one (fun _ _ hab => h (Piece.string.inj hab)) a

theorem known_tokenId (id : TokenId) : Known pieces id :=
  known_one (fun _ _ h => UInt32.toNat_inj.mp (Piece.natural.inj h)) id

theorem known_bracket (b : Bracket) : Known pieces b :=
  known_names (by rintro (_ | _) (_ | _) <;> decide) b

theorem known_spacing (s : Spacing) : Known pieces s :=
  known_names (by rintro (_ | _) (_ | _) <;> decide) s

theorem known_char (c : Char) : Known (fun c => [.string (String.singleton c)]) c :=
  known_names (fun c d h => by simpa using congrArg String.toList h) c

theorem known_delimiter (d : Delimiter) : Known pieces d := by
  obtain ⟨id, bracket⟩ := d
  rintro ⟨id', bracket'⟩ s t h
  obtain ⟨rfl, hkind⟩ := object_cons_unique (known_tokenId id) h
  obtain ⟨rfl, hend⟩ := object_cons_unique (known_bracket bracket) hkind
  exact ⟨rfl, object_nil_unique hend⟩

theorem textAndId_unique {text text' : String} {id id' : TokenId}
    (h : object [("text", [.string text]), ("id", pieces id)] ++ s =
      object [("text", [.string text']), ("id", pieces id')] ++ t) : text = text' ∧
        id = id' ∧ s = t := by
  obtain ⟨rfl, hid⟩ := object_cons_unique (known_string text) h
  obtain ⟨rfl, hend⟩ := object_cons_unique (known_tokenId id) hid
  exact ⟨rfl, rfl, object_nil_unique hend⟩

theorem known_literal (l : Literal) : Known pieces l := by
  obtain ⟨text, id⟩ := l
  rintro ⟨text', id'⟩ s t h
  obtain ⟨rfl, rfl, hrest⟩ := textAndId_unique h
  exact ⟨rfl, hrest⟩

theorem known_ident (i : Ident) : Known pieces i := by
  obtain ⟨text, id⟩ := i
  rintro ⟨text', id'⟩ s t h
  obtain ⟨rfl, rfl, hrest⟩ := textAndId_unique h
  exact ⟨rfl, hrest⟩

theorem known_punct (p : Punct) : Known pieces p := by
  obtain ⟨c, spacing, id⟩ := p
  rintro ⟨c', spacing', id'⟩ s t h
  obtain ⟨rfl, hspacing⟩ := object_cons_unique (known_char c) h
  obtain ⟨rfl, hid⟩ := object_cons_unique (known_spacing spacing) hspacing
  obtain ⟨rfl, hend⟩ := object_cons_unique (known_tokenId id) hid
  exact ⟨rfl, object_nil_unique hend⟩

theorem known_leaf (l : Leaf) : Known pieces l := by
  intro m s t h
  cases l with
  | literal l =>
    cases m with
    | literal m =>
      obtain ⟨rfl, hrest⟩ := tagged_unique (known_literal l) h
      exact ⟨rfl, hrest⟩
    | _ => exact absurd (tagged_name_unique h) (by decide)
  | punct p =>
    cases m with
    | punct q =>
      obtain ⟨rfl, hrest⟩ := tagged_unique (known_punct p) h
      exact ⟨rfl, hrest⟩
    | _ => exact absurd (tagged_name_unique h) (by decide)
  | ident i =>
    cases m with
    | ident j =>
      obtain ⟨rfl, hrest⟩ := tagged_unique (known_ident i) h
      exact ⟨rfl, hrest⟩
    | _ => exact absurd (tagged_name_unique h) (by decide)

/-! ### Trees -/

/-- A value that is an object, or none, where there may be none. -/
theorem known_option [Wire α] (h : ∀ a : α, Known pieces a)
    (ho : ∀ a : α, ∃ ms, pieces a = object ms) (a : Option α) : Known pieces a := by
  have hnull (a : α) (s t : List Piece) : pieces a ++ s ≠ .null :: t := by
    obtain ⟨ms, hms⟩ := ho a
    rw [hms]
    exact fun h => absurd (List.cons.inj h).1 (by simp)
  intro b s t heq
  cases a with
  | none =>
    cases b with
    | none => exact ⟨rfl, (List.cons.inj heq).2⟩
    | some b => exact absurd heq.symm (hnull b t s)
  | some a =>
    cases b with
    | none => exact absurd heq (hnull a s t)
    | some b =>
      obtain ⟨rfl, hrest⟩ := h a heq
      exact ⟨rfl, hrest⟩

theorem canBeElement_object (ms : List (String × List Piece)) : CanBeElement (object ms) :=
  fun _ _ h => absurd (List.cons.inj h).1 (by simp)

theorem canBeElement_tree (t : TokenTree) : CanBeElement (pieces t) := by
  cases t with
  | leaf l =>
    rw [pieces_leaf]
    exact canBeElement_object _
  | group d cs =>
    rw [pieces_group]
    exact canBeElement_object _

theorem known_group {cs : List TokenTree} (h : ∀ c ∈ cs, Known pieces c) (d : Option Delimiter) :
    Known (fun g : Option Delimiter × List TokenTree => groupPieces g.1 g.2) (d, cs) := by
  rintro ⟨d', cs'⟩ s t heq
  have hd := known_option known_delimiter (fun _ => ⟨_, rfl⟩) d
  obtain ⟨rfl, htrees⟩ := object_cons_unique hd heq
  obtain ⟨rfl, hend⟩ := object_cons_unique (known_array canBeElement_tree h) htrees
  exact ⟨rfl, object_nil_unique hend⟩

mutual

theorem known_tree (t : TokenTree) : Known pieces t := by
  intro u r r' h
  cases t with
  | leaf l =>
    cases u with
    | leaf m =>
      rw [pieces_leaf, pieces_leaf] at h
      obtain ⟨rfl, hrest⟩ := tagged_unique (known_leaf l) h
      exact ⟨rfl, hrest⟩
    | group d cs =>
      rw [pieces_leaf, pieces_group] at h
      exact absurd (tagged_name_unique h) (by decide)
  | group d cs =>
    cases u with
    | leaf m =>
      rw [pieces_leaf, pieces_group] at h
      exact absurd (tagged_name_unique h) (by decide)
    | group d' cs' =>
      rw [pieces_group, pieces_group] at h
      obtain ⟨hgroup, hrest⟩ := tagged_unique (b := (d', cs')) (known_group (known_trees cs) d) h
      obtain ⟨rfl, rfl⟩ := Prod.mk.inj hgroup
      exact ⟨rfl, hrest⟩

theorem known_trees (cs : List TokenTree) : ∀ c ∈ cs, Known pieces c := by
  cases cs with
  | nil => simp
  | cons c cs => exact List.forall_mem_cons.mpr ⟨known_tree c, known_trees cs⟩

end

theorem known_subtree (s : Subtree) : Known pieces s := by
  obtain ⟨d, cs⟩ := s
  rintro ⟨d', cs'⟩ r r' h
  rw [pieces_subtree, pieces_subtree] at h
  obtain ⟨hgroup, hrest⟩ := known_group (fun c _ => known_tree c) d (b := (d', cs')) h
  obtain ⟨rfl, rfl⟩ := Prod.mk.inj hgroup
  exact ⟨rfl, hrest⟩

/-! ### Requests and responses -/

theorem known_macroKind (k : MacroKind) : Known pieces k :=
  known_names (by rintro (_ | _ | _) (_ | _ | _) <;> decide) k

theorem known_errorCode (c : ErrorCode) : Known pieces c :=
  known_names (by rintro (_ | _) (_ | _) <;> decide) c

theorem known_listTask (t : ListTask) : Known pieces t := by
  obtain ⟨lib⟩ := t
  rintro ⟨lib'⟩ s t h
  obtain ⟨rfl, hend⟩ := object_cons_unique (known_string lib) h
  exact ⟨rfl, object_nil_unique hend⟩

theorem known_macro (m : String × MacroKind) : Known macroPieces m := by
  obtain ⟨name, kind⟩ := m
  rintro ⟨name', kind'⟩ s t h
  obtain ⟨rfl, hkind⟩ := known_string name (List.cons.inj h).2
  obtain ⟨rfl, hend⟩ := known_macroKind kind hkind
  exact ⟨rfl, (List.cons.inj hend).2⟩

theorem known_listResult (r : ListResult) : Known pieces r := by
  obtain ⟨macros⟩ := r
  rintro ⟨macros'⟩ s t h
  have helement (m : String × MacroKind) : CanBeElement (macroPieces m) :=
    fun _ _ h => absurd (List.cons.inj h).1 (by simp)
  obtain ⟨rfl, hend⟩ := object_cons_unique (known_array helement fun m _ => known_macro m) h
  exact ⟨rfl, object_nil_unique hend⟩

theorem known_expansionTask (t : ExpansionTask) : Known pieces t := by
  obtain ⟨body, name, attributes, lib⟩ := t
  rintro ⟨body', name', attributes', lib'⟩ s t h
  have hattributes := known_option known_subtree (fun s => ⟨_, pieces_subtree s⟩) attributes
  obtain ⟨rfl, hname⟩ := object_cons_unique (known_subtree body) h
  obtain ⟨rfl, hrest⟩ := object_cons_unique (known_string name) hname
  obtain ⟨rfl, hlib⟩ := object_cons_unique hattributes hrest
  obtain ⟨rfl, hend⟩ := object_cons_unique (known_string lib) hlib
  exact ⟨rfl, object_nil_unique hend⟩

theorem known_expansionResult (r : ExpansionResult) : Known pieces r := by
  obtain ⟨expansion⟩ := r
  rintro ⟨expansion'⟩ s t h
  obtain ⟨rfl, hend⟩ := object_cons_unique (known_subtree expansion) h
  exact ⟨rfl, object_nil_unique hend⟩

theorem known_reportedError (e : ReportedError) : Known pieces e := by
  obtain ⟨code, message⟩ := e
  rintro ⟨code', message'⟩ s t h
  obtain ⟨rfl, hmessage⟩ := object_cons_unique (known_errorCode code) h
  obtain ⟨rfl, hend⟩ := object_cons_unique (known_string message) hmessage
  exact ⟨rfl, object_nil_unique hend⟩

theorem known_request (r : Request) : Known pieces r := by
  intro r' s t h
  cases r with
  | listMacros task =>
    cases r' with
    | listMacros task' =>
      obtain ⟨rfl, hrest⟩ := tagged_unique (known_listTask task) h
      exact ⟨rfl, hrest⟩
    | expand _ => exact absurd (tagged_name_unique h) (by decide)
  | expand task =>
    cases r' with
    | listMacros _ => exact absurd (tagged_name_unique h) (by decide)
    | expand task' =>
      obtain ⟨rfl, hrest⟩ := tagged_unique (known_expansionTask task) h
      exact ⟨rfl, hrest⟩

theorem known_response (r : Response) : Known pieces r := by
  intro r' s t h
  cases r with
  | error e =>
    cases r' with
    | error e' =>
      obtain ⟨rfl, hrest⟩ := tagged_unique (known_reportedError e) h
      exact ⟨rfl, hrest⟩
    | _ => exact absurd (tagged_name_unique h) (by decide)
  | macros m =>
    cases r' with
    | macros m' =>
      obtain ⟨rfl, hrest⟩ := tagged_unique (known_listResult m) h
      exact ⟨rfl, hrest⟩
    | _ => exact absurd (tagged_name_unique h) (by decide)
  | expansion x =>
    cases r' with
    | expansion x' =>
      obtain ⟨rfl, hrest⟩ := tagged_unique (known_expansionResult x) h
      exact ⟨rfl, hrest⟩
    | _ => exact absurd (tagged_name_unique h) (by decide)

end Wire

end MacroBridge
