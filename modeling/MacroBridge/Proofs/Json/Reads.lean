import MacroBridge.Proofs.Json.Compact
import MacroBridge.Proofs.Json.Members
import MacroBridge.Wire.Basic

/-!
Decoders that read back what is written. A value comes back exactly if its containers fit in the
limits, and is malformed if they do not.
-/
namespace MacroBridge.Json
open Utf8 (encode)

/-- A decoder reads the text of `ps` as `a` if at most `cap` levels are left and those suffice, and
rejects it if they do not. -/
structure Reads {α : Type} (cap : Nat) (d : Decoder α) (ps : List Piece) (a : α) : Prop where
  complete : Complete .value ps
  reads (limits : Limits) {t : List UInt8} (hn : limits.nesting ≤ cap)
    (hi : (bytes ps).length ≤ limits.items) (ht : Apart t) :
    d limits (bytes ps ++ t) =
      if nestingFrom 0 ps ≤ limits.nesting then .ok (a, t) else .error .malformed

variable {α β σ : Type} {cap cap' : Nat} {d : Decoder α} {ps : List Piece} {a : α}

namespace Reads

theorem map (h : Reads cap d ps a) (f : α → β) : Reads cap (d.map f) ps (f a) where
  complete := h.complete
  reads limits _ hn hi ht := by
    rw [Decoder.map, h.reads limits hn hi ht]
    split_ifs <;> rfl

theorem refine (h : Reads cap d ps a) {f : α → Option β} {b : β} (hf : f a = some b) :
    Reads cap (d.refine f) ps b where
  complete := h.complete
  reads limits _ hn hi ht := by
    rw [Decoder.refine, h.reads limits hn hi ht]
    split_ifs
    · simp only [bind, Except.bind, hf]
      rfl
    · rfl

end Reads

/-! ### Values without parts -/

theorem bytes_string (text : String) :
    bytes [.string text] = byte '"' :: (encode (text.toList.flatMap quoteChar) ++ [byte '"']) := by
  rw [← encode_quote]
  simp [bytes, bytesFrom, Piece.write, Style.before]

theorem bytes_natural (n : Nat) : bytes [.natural n] = encode (Nat.toDigits 10 n) := by
  simp [bytes, bytesFrom, Piece.write, Style.before]

theorem isSpace_digit {b : UInt8} (h : isDigit b = true) : isSpace b = false ∧ b ≠ byte ']' := by
  have hne {c : Char} (hc : isDigit (byte c) = false) : b ≠ byte c := by
    rintro rfl
    simp [h] at hc
  refine ⟨?_, hne (by decide)⟩
  simp [isSpace, hne (c := ' ') (by decide), hne (c := '\t') (by decide),
    hne (c := '\n') (by decide), hne (c := '\r') (by decide)]

/-- A value without containers fits in all limits. -/
theorem reads_flat (cap : Nat) (hc : Complete .value ps) (hflat : nestingFrom 0 ps = 0)
    (h : ∀ limits t, Apart t → d limits (bytes ps ++ t) = .ok (a, t)) : Reads cap d ps a where
  complete := hc
  reads limits t _ _ ht := by rw [if_pos (by omega), h limits t ht]

theorem reads_string (cap : Nat) (text : String) :
    Reads cap Decoder.string [.string text] text := by
  refine reads_flat cap (complete_string text) rfl fun limits t _ => ?_
  have hs := skipSpace_cons (b := byte '"') (by decide)
    (encode (text.toList.flatMap quoteChar) ++ byte '"' :: t)
  rw [bytes_string, List.cons_append, List.append_assoc, List.singleton_append]
  exact Decoder.string_eq_ok_iff.mpr ⟨_, hs, stringText_quoted text t⟩

theorem reads_natural (cap : Nat) {n bound : Nat} (h : n ≤ bound) :
    Reads cap (Decoder.natural bound) [.natural n] n := by
  refine reads_flat cap (complete_natural n) rfl fun limits t ht => ?_
  obtain ⟨hnumber, b, s, hs, hb⟩ := number_toDigits n ht
  rw [bytes_natural]
  rw [hs, List.cons_append] at hnumber ⊢
  exact Decoder.natural_eq_ok_iff.mpr
    ⟨b, s ++ t, skipSpace_cons (isSpace_digit hb).1 _, .inr hb, hnumber, h⟩

theorem reads_none (cap : Nat) (d : Decoder α) : Reads cap (Decoder.option d) [.null] none := by
  refine reads_flat cap complete_null rfl fun limits t _ => ?_
  have hnull : bytes [.null] = byte 'n' :: "ull".toList.map byte := by decide
  rw [hnull]
  exact Decoder.option_eq_ok_iff.mpr (.inl ⟨rfl, skipSpace_cons (by decide) _⟩)

/-! ### First bytes -/

/-- A value starts with no white space and not with what closes an array. -/
theorem head_of_isValue {w : List UInt8} (h : IsValue w) :
    ∃ b s, w = b :: s ∧ isSpace b = false ∧ b ≠ byte ']' := by
  have hnumber {w f e : List UInt8} (hw : Numeral.Whole w) :
      ∃ b s, w ++ f ++ e = b :: s ∧ isSpace b = false ∧ b ≠ byte ']' := by
    cases hw with
    | zero => exact ⟨_, _, rfl, isSpace_digit (by decide)⟩
    | digits hb => exact ⟨_, _, rfl, isSpace_digit hb⟩
  cases h with
  | scalar hs =>
    cases hs with
    | null => exact ⟨_, _, rfl, by decide, by decide⟩
    | true => exact ⟨_, _, rfl, by decide, by decide⟩
    | false => exact ⟨_, _, rfl, by decide, by decide⟩
    | natural hw => exact hnumber hw
    | negative => exact ⟨_, _, rfl, by decide, by decide⟩
  | string => exact ⟨_, _, rfl, by decide, by decide⟩
  | empty => exact ⟨_, _, rfl, Container.isSpace_first _, by rename_i c _ _; cases c <;> decide⟩
  | filled =>
    exact ⟨_, _, rfl, Container.isSpace_first _, by rename_i c _ _ _ _ _ _; cases c <;> decide⟩

theorem Reads.some (h : Reads cap d ps a) (hne : (bytes ps).head? ≠ some (byte 'n')) :
    Reads cap (Decoder.option d) ps (some a) where
  complete := h.complete
  reads limits t hn hi ht := by
    obtain ⟨b, s, hs, hb, -⟩ := head_of_isValue h.complete.spells
    have hd := (h.map Option.some).reads limits hn hi ht
    rw [hs, List.cons_append] at hd ⊢
    rw [Decoder.option, skipSpace_cons hb]
    simp only
    rw [if_neg (by simpa [hs] using hne), hd]

theorem apart_byte {c : Char} (hc : c ∈ [',', '\x7d', ']', '\n']) (t : List UInt8) :
    Apart (byte c :: t) := by
  rintro b ⟨⟩
  simp only [List.mem_cons, List.not_mem_nil, or_false] at hc
  rcases hc with rfl | rfl | rfl | rfl
  all_goals decide

theorem apart_last (c : Container) (t : List UInt8) : Apart (byte c.last :: t) := by
  cases c
  · exact apart_byte (by decide) t
  · exact apart_byte (by decide) t

variable {c : Container} {entries : List (List Piece)}

/-- What follows an entry goes on with no number. -/
theorem apart_tail (h : ∀ e ∈ entries, Complete (.entry c) e) (t : List UInt8) :
    Apart (bytesFrom .afterItem (entries.flatten ++ [c.closePiece]) ++ t) := by
  cases entries with
  | nil =>
    rw [List.flatten_nil, List.nil_append, Container.bytesFrom_close]
    exact apart_last c _
  | cons e entries =>
    rw [List.flatten_cons, List.append_assoc, (h e (by simp)).bytes_eq]
    exact apart_byte (by decide) _

/-- A text that shows its end is settled behind white space and in front of all that does not go on
with a number. -/
theorem Reads.decodeFirst_behind (h : Reads maxNesting d ps a)
    (hopen : (bytes ps).head?.any showsItsEnd = true) {p t : List UInt8} (hp : Blank p)
    (ht : Apart t) : decodeFirst d (p ++ (bytes ps ++ t)) =
      if nestingFrom 0 ps ≤ maxNesting then .value a t else .malformed := by
  have hitems : (bytes ps).length ≤ (limitsFor (p ++ (bytes ps ++ t))).items := by
    simp only [limitsFor, List.length_append]
    omega
  have hread := h.reads (limitsFor (p ++ (bytes ps ++ t))) (Nat.le_refl _) hitems ht
  obtain ⟨b, u, hb, hspace, -⟩ := head_of_isValue h.complete.spells
  have hshows : showsItsEnd b = true := by simpa [hb] using hopen
  have hskip := skipSpace_blank_append hp (bytes ps ++ t)
  rw [hb, List.cons_append, skipSpace_cons hspace] at hskip
  rw [hb, List.cons_append] at hread ⊢
  by_cases hfits : nestingFrom 0 ps ≤ maxNesting
  · rw [if_pos hfits]
    simp [decodeFirst, hskip, hread.trans (if_pos hfits), hshows]
  · rw [if_neg hfits]
    simp [decodeFirst, hskip, hread.trans (if_neg hfits)]

theorem Reads.decodeFirst_eq (h : Reads maxNesting d ps a)
    (hopen : (bytes ps).head?.any showsItsEnd = true) {t : List UInt8} (ht : Apart t) :
    decodeFirst d (bytes ps ++ t) =
      if nestingFrom 0 ps ≤ maxNesting then .value a t else .malformed := by
  simpa using h.decodeFirst_behind hopen blank_nil ht

/-! ### Containers -/

/-- Where the first entry and where the others of a container stand. -/
def placeOf (isFirst : Bool) : Place := if isFirst then .opened else .afterItem

@[simp] theorem placeOf_true : placeOf true = .opened := rfl

@[simp] theorem placeOf_false : placeOf false = .afterItem := rfl

/-- A container is read if its body is, and takes one level. -/
theorem container_reads (h : ∀ e ∈ entries, Complete (.entry c) e) {body : Decoder α}
    {limits : Limits} {t : List UInt8} (hbody : ∀ n, limits.nesting = n + 1 →
      body ⟨n, limits.items⟩ (bytesFrom .opened (entries.flatten ++ [c.closePiece]) ++ t) =
        if nestingFrom 0 entries.flatten ≤ n then .ok (a, byte c.last :: t)
          else .error .malformed) :
    Decoder.container c.first c.last body limits (bytes (c.pieces entries) ++ t) =
      if nestingFrom 0 (c.pieces entries) ≤ limits.nesting then .ok (a, t)
        else .error .malformed := by
  rw [Container.nesting_pieces h, Container.bytes_pieces, List.cons_append, Decoder.container,
    skipSpace_cons c.isSpace_first]
  simp only [↓reduceIte]
  cases hl : limits.nesting with
  | zero => simp
  | succ n =>
    simp only [hbody n hl, Nat.add_le_add_iff_right]
    split_ifs
    · have hclose := Decoder.close_eq_ok_iff (u := ()).mpr (skipSpace_cons c.isSpace_last t)
      simp only [bind, Except.bind, hclose]
      rfl
    · rfl

theorem bytesFrom_entry {e : List Piece} (he : Complete (.entry c) e) (place : Place)
    (t : List UInt8) : bytesFrom place ((e :: entries).flatten ++ [c.closePiece]) ++ t =
      comma place ++ (bytes e ++
        (bytesFrom .afterItem (entries.flatten ++ [c.closePiece]) ++ t)) := by
  rw [List.flatten_cons, List.append_assoc, he.bytes_eq, List.append_assoc, List.append_assoc]

theorem bytesFrom_last (c : Container) (place : Place) (t : List UInt8) :
    bytesFrom place (([] : List (List Piece)).flatten ++ [c.closePiece]) ++ t =
      byte c.last :: t := by
  rw [List.flatten_nil, List.nil_append, Container.bytesFrom_close]
  rfl

theorem nestingFrom_flatten_nil : nestingFrom 0 ([] : List (List Piece)).flatten = 0 := rfl

theorem nestingFrom_flatten_cons {e : List Piece} (he : Balanced e) (entries : List (List Piece)) :
    nestingFrom 0 (e :: entries).flatten =
      max (nestingFrom 0 e) (nestingFrom 0 entries.flatten) := by
  rw [List.flatten_cons, he, Nat.zero_add]

/-- An entry takes its own bytes and leaves fewer for those behind it. -/
theorem length_bytesFrom_entry {e : List Piece} (he : Complete (.entry c) e) (hne : bytes e ≠ [])
    (place : Place) (entries : List (List Piece)) :
    (bytes e).length + (bytesFrom .afterItem (entries.flatten ++ [c.closePiece])).length ≤
        (bytesFrom place ((e :: entries).flatten ++ [c.closePiece])).length ∧
        0 < (bytes e).length := by
  rw [List.flatten_cons, List.append_assoc, he.bytes_eq]
  simp only [List.length_append]
  exact ⟨by omega, List.length_pos_iff.mpr hne⟩

theorem length_body (c : Container) (entries : List (List Piece)) :
    (bytesFrom .opened (entries.flatten ++ [c.closePiece])).length <
    (bytes (c.pieces entries)).length := by
  rw [Container.bytes_pieces, List.length_cons]
  omega

/-! ### Arrays -/

theorem nextElement_last (isFirst : Bool) (t : List UInt8) :
    Decoder.nextElement isFirst (byte ']' :: t) = .ok none := by
  rw [Decoder.nextElement, skipSpace_cons (by decide)]
  rfl

theorem nextElement_bytes (h : Complete .value ps) (isFirst : Bool) (t : List UInt8) :
    Decoder.nextElement isFirst (comma (placeOf isFirst) ++ (bytes ps ++ t)) =
      .ok (some (bytes ps ++ t)) := by
  obtain ⟨b, s, hs, hb, hne⟩ := head_of_isValue h.spells
  rw [hs, List.cons_append]
  cases isFirst with
  | true =>
    rw [Decoder.nextElement, show comma (placeOf true) = [] from rfl, List.nil_append,
      skipSpace_cons hb]
    simp [hne]
  | false =>
    have hcomma : byte ',' ≠ byte ']' := by decide
    rw [Decoder.nextElement, show comma (placeOf false) = [byte ','] from rfl,
      List.singleton_append, skipSpace_cons (by decide)]
    simp [hcomma, hne, skipSpace_cons hb]

variable {f : α → List Piece} {as : List α}

theorem complete_elements (h : ∀ a ∈ as, Reads cap d (f a) a) :
    ∀ e ∈ as.map f, Complete (.entry .array) e := by
  intro e he
  obtain ⟨a, ha, rfl⟩ := List.mem_map.mp he
  exact (h a ha).complete.element

/-- The elements of an array are read one by one, up to the first that does not fit. -/
theorem elements_reads (h : ∀ a ∈ as, Reads cap d (f a) a) {limits : Limits}
    (hn : limits.nesting ≤ cap) {items : Nat} (hle : items ≤ limits.items) (isFirst : Bool)
    (done : List α) (t : List UInt8)
    (hi : (bytesFrom (placeOf isFirst)
      ((as.map f).flatten ++ [Container.array.closePiece])).length ≤ items) :
    Decoder.elements d limits items isFirst done
        (bytesFrom (placeOf isFirst) ((as.map f).flatten ++ [Container.array.closePiece]) ++ t) =
      if nestingFrom 0 (as.map f).flatten ≤ limits.nesting then
        .ok (done.reverse ++ as, byte ']' :: t)
      else .error .malformed := by
  induction as generalizing items isFirst done with
  | nil =>
    rw [List.map_nil] at hi ⊢
    have hbytes := bytesFrom_last .array (placeOf isFirst) t
    have hpos : 0 < items := by
      have := congrArg List.length (bytesFrom_last .array (placeOf isFirst) [])
      simp only [List.append_nil, List.length_singleton] at this
      omega
    obtain ⟨items, rfl⟩ : ∃ k, items = k + 1 := ⟨items - 1, by omega⟩
    rw [hbytes, nestingFrom_flatten_nil, if_pos (Nat.zero_le _), Decoder.elements,
      show byte Container.array.last = byte ']' from rfl, nextElement_last]
    simp [bind, Except.bind, pure, Except.pure]
  | cons a as ih =>
    have ha := h a (by simp)
    have has : ∀ x ∈ as, Reads cap d (f x) x := fun x hx => h x (by simp [hx])
    have hentries := complete_elements has
    have hne : bytes (f a) ≠ [] := by
      obtain ⟨b, s, hs, -⟩ := head_of_isValue ha.complete.spells
      simp [hs]
    rw [List.map_cons] at hi ⊢
    obtain ⟨hlen, hpos⟩ :=
      length_bytesFrom_entry ha.complete.element hne (placeOf isFirst) (as.map f)
    obtain ⟨items, rfl⟩ : ∃ k, items = k + 1 := ⟨items - 1, by omega⟩
    rw [bytesFrom_entry ha.complete.element, nestingFrom_flatten_cons ha.complete.balanced,
      Decoder.elements, nextElement_bytes ha.complete]
    simp only [bind, Except.bind]
    rw [ha.reads limits hn (by omega) (apart_tail hentries t)]
    by_cases hfits : nestingFrom 0 (f a) ≤ limits.nesting
    · rw [if_pos hfits]
      simp only [Nat.max_le, hfits, true_and]
      have hrest : (bytesFrom .afterItem
          ((as.map f).flatten ++ [Container.array.closePiece])).length ≤ items := by
        omega
      refine (ih has (by omega) false (a :: done) hrest).trans ?_
      rw [List.reverse_cons, List.append_assoc, List.singleton_append]
    · rw [if_neg hfits, if_neg (by omega)]

/-- An array is read if its elements are. -/
theorem reads_list (h : ∀ a ∈ as, Reads cap d (f a) a) (hc : cap' ≤ cap + 1) :
    Reads cap' (Decoder.list d) (Wire.array (as.map f)) as where
  complete := Container.complete_pieces (c := .array) (complete_elements h)
  reads limits t hn hi ht := by
    refine container_reads (c := .array) (complete_elements h) fun n hl => ?_
    have hlen := Nat.lt_of_lt_of_le (length_body .array (as.map f)) hi
    exact elements_reads h (by simp only; omega) (Nat.le_refl _) true [] t (Nat.le_of_lt hlen)

theorem element_reads (h : Reads cap d ps a) (limits : Limits) {t : List UInt8}
    (hn : limits.nesting ≤ cap) (hi : (bytes ps).length ≤ limits.items) (ht : Apart t)
    (isFirst : Bool) :
    Decoder.element isFirst d limits (comma (placeOf isFirst) ++ (bytes ps ++ t)) =
      if nestingFrom 0 ps ≤ limits.nesting then .ok (a, t) else .error .malformed := by
  rw [Decoder.element, nextElement_bytes h.complete]
  exact h.reads limits hn hi ht

/-- An array of two is read if both are. -/
theorem reads_pair {db : Decoder β} {qs : List Piece} {b : β} (ha : Reads cap d ps a)
    (hb : Reads cap db qs b) (hc : cap' ≤ cap + 1) :
    Reads cap' (Decoder.pair d db) (Wire.array [ps, qs]) (a, b) := by
  have hentries : ∀ e ∈ [ps, qs], Complete (.entry .array) e := by
    simpa using ⟨ha.complete.element, hb.complete.element⟩
  have hsecond : ∀ e ∈ [qs], Complete (.entry .array) e := by simpa using hb.complete.element
  refine ⟨Container.complete_pieces (c := .array) hentries, fun limits t hn hi _ => ?_⟩
  refine container_reads (c := .array) hentries fun n hl => ?_
  have hlen := Nat.lt_of_lt_of_le (length_body .array [ps, qs]) hi
  have hne {ps : List Piece} (h : Complete .value ps) : bytes ps ≠ [] := by
    obtain ⟨x, s, hs, -⟩ := head_of_isValue h.spells
    simp [hs]
  have hps := (length_bytesFrom_entry ha.complete.element (hne ha.complete) .opened [qs]).1
  have hqs := (length_bytesFrom_entry hb.complete.element (hne hb.complete) .afterItem []).1
  have hfirst := element_reads ha ⟨n, limits.items⟩ (by simp only; omega) (by simp only; omega)
    (apart_tail hsecond t) true
  have hnext := element_reads hb ⟨n, limits.items⟩ (by simp only; omega) (by simp only; omega)
    (apart_last .array t) false
  rw [placeOf_true] at hfirst
  rw [placeOf_false] at hnext
  rw [bytesFrom_entry ha.complete.element, nestingFrom_flatten_cons ha.complete.balanced,
    nestingFrom_flatten_cons hb.complete.balanced, nestingFrom_flatten_nil]
  simp only [bind, Except.bind]
  rw [hfirst]
  by_cases hfits : nestingFrom 0 ps ≤ n
  · rw [if_pos hfits]
    simp only
    rw [bytesFrom_entry hb.complete.element, bytesFrom_last, hnext]
    by_cases hfits' : nestingFrom 0 qs ≤ n
    · rw [if_pos hfits', if_pos (Nat.max_le.mpr ⟨hfits, Nat.max_le.mpr ⟨hfits', Nat.zero_le n⟩⟩)]
      rfl
    · rw [if_neg hfits', if_neg (by omega)]
  · rw [if_neg hfits, if_neg (by omega)]

/-! ### Objects -/

theorem nextKey_last (isFirst : Bool) (isWrong : String → Bool) (t : List UInt8) :
    Decoder.nextKey isFirst isWrong (byte '\x7d' :: t) = .ok none :=
  Decoder.nextKey_none_iff.mpr ⟨t, skipSpace_cons (by decide) t⟩

theorem bytes_member (h : Complete .value ps) (name : String) : bytes (.key name :: ps) =
    byte '"' :: (encode (name.toList.flatMap quoteChar) ++ byte '"' :: byte ':' :: bytes ps) := by
  have hps : bytesFrom .afterKey ps = bytes ps := by
    simpa [comma, bytesFrom] using h.bytes_eq .afterKey []
  rw [bytes, bytes_key, hps, encode_quote]
  simp [comma]

theorem nextKey_bytes (h : Complete .value ps) {isWrong : String → Bool} {name : String}
    (hw : isWrong name = false) (isFirst : Bool) (t : List UInt8) :
    Decoder.nextKey isFirst isWrong (comma (placeOf isFirst) ++ (bytes (.key name :: ps) ++ t)) =
      .ok (some (name, bytes ps ++ t)) := by
  have hquote (s : List UInt8) : skipSpace (byte '"' :: s) = byte '"' :: s :=
    skipSpace_cons (by decide) s
  have hcomma (s : List UInt8) : skipSpace (byte ',' :: s) = byte ',' :: s :=
    skipSpace_cons (by decide) s
  have hcolon (s : List UInt8) : skipSpace (byte ':' :: s) = byte ':' :: s :=
    skipSpace_cons (by decide) s
  rw [bytes_member h, List.cons_append, List.append_assoc, List.cons_append, List.cons_append]
  refine Decoder.nextKey_some_iff.mpr ⟨_, _, ?_, stringText_quoted name _, hw, hcolon _⟩
  cases isFirst with
  | true => exact hquote _
  | false => exact ⟨_, hcomma _, hquote _⟩

/-- The members with which a record goes from one state to another: each is that of a field that
has not been read. -/
inductive Fills (cap : Nat) (fields : List (Decoder.Field σ)) :
    σ → List (String × List Piece) → σ → Prop
  | nil (r : σ) : Fills cap fields r [] r
  | cons {r r' r'' : σ} {name : String} {ps : List Piece} {ms : List (String × List Piece)}
      {f : Decoder.Field σ} (hf : Decoder.findField fields name = some f) (hr : f.isRead r = false)
      (h : Reads cap (f.read r) ps r') (hs : Fills cap fields r' ms r'') :
      Fills cap fields r ((name, ps) :: ms) r''

/-- A member as an entry of an object. -/
def entryOf (m : String × List Piece) : List Piece := .key m.1 :: m.2

variable {fields : List (Decoder.Field σ)} {r r' : σ} {ms : List (String × List Piece)}

theorem Fills.complete (h : Fills cap fields r ms r') :
    ∀ e ∈ ms.map entryOf, Complete (.entry .object) e := by
  induction h with
  | nil => simp
  | cons _ _ h _ ih => exact List.forall_mem_cons.mpr ⟨h.complete.member _, ih⟩

/-- A field that has not been stored yet is read and stored. -/
theorem Fills.field {get : σ → Option β} {put : σ → β → σ} {db : Decoder β} {b : β} {name : String}
    (hf : Decoder.findField fields name = some (Decoder.field name get put db)) (hr : get r = none)
    (h : Reads cap db ps b) (hs : Fills cap fields (put r b) ms r') :
    Fills cap fields r ((name, ps) :: ms) r' := by
  have hread : (Decoder.field name get put db).isRead r = (get r).isSome := rfl
  refine .cons hf ?_ (h.map (put r)) hs
  rw [hread, hr]
  rfl

theorem nestingFrom_key (name : String) (ps : List Piece) :
    nestingFrom 0 (.key name :: ps) = nestingFrom 0 ps := by
  simp [nestingFrom]

/-- The members of an object are read one by one, up to the first that does not fit. -/
theorem members_reads (h : Fills cap fields r ms r') {limits : Limits} (hn : limits.nesting ≤ cap)
    {items : Nat} (hle : items ≤ limits.items) (isFirst : Bool) (t : List UInt8)
    (hi : (bytesFrom (placeOf isFirst)
      ((ms.map entryOf).flatten ++ [Container.object.closePiece])).length ≤
      items) :
    Decoder.members fields limits items isFirst r
        (bytesFrom (placeOf isFirst)
          ((ms.map entryOf).flatten ++ [Container.object.closePiece]) ++ t) =
      if nestingFrom 0 (ms.map entryOf).flatten ≤ limits.nesting then .ok (r', byte '\x7d' :: t)
      else .error .malformed := by
  induction h generalizing items isFirst with
  | nil r =>
    rw [List.map_nil] at hi ⊢
    have hbytes := bytesFrom_last .object (placeOf isFirst) t
    have hpos : 0 < items := by
      have := congrArg List.length (bytesFrom_last .object (placeOf isFirst) [])
      simp only [List.append_nil, List.length_singleton] at this
      omega
    obtain ⟨items, rfl⟩ : ∃ k, items = k + 1 := ⟨items - 1, by omega⟩
    rw [hbytes, nestingFrom_flatten_nil, if_pos (Nat.zero_le _), Decoder.members,
      show byte Container.object.last = byte '\x7d' from rfl, nextKey_last]
    simp [bind, Except.bind, pure, Except.pure]
  | @cons r r' r'' name ps ms f hf hr h hs ih =>
    have hentries := hs.complete
    have hentry : Complete (.entry .object) (entryOf (name, ps)) := h.complete.member name
    have hbytes : bytes (entryOf (name, ps)) = _ := bytes_member h.complete name
    have hwrong : ((Decoder.findField fields name).any (·.isRead r)) = false := by
      rw [hf]
      exact hr
    rw [List.map_cons] at hi ⊢
    obtain ⟨hlen, hpos⟩ :=
      length_bytesFrom_entry hentry (by simp [hbytes]) (placeOf isFirst) (ms.map entryOf)
    have hshort : (bytes ps).length ≤ (bytes (entryOf (name, ps))).length := by
      rw [hbytes]
      simp only [List.length_cons, List.length_append]
      omega
    obtain ⟨items, rfl⟩ : ∃ k, items = k + 1 := ⟨items - 1, by omega⟩
    rw [bytesFrom_entry hentry, nestingFrom_flatten_cons hentry.balanced, entryOf, nestingFrom_key,
      Decoder.members, nextKey_bytes h.complete hwrong]
    simp only [bind, Except.bind, hf]
    rw [h.reads limits hn (by omega) (apart_tail hentries t)]
    by_cases hfits : nestingFrom 0 ps ≤ limits.nesting
    · rw [if_pos hfits]
      simp only [Nat.max_le, hfits, true_and]
      exact ih (by omega) false (by simp only [placeOf, Bool.false_eq_true, ↓reduceIte]; omega)
    · rw [if_neg hfits, if_neg (by omega)]

/-- A record is read from the object of its fields. -/
theorem reads_record {start : σ} {finish : σ → Option α} (h : Fills cap fields start ms r)
    (hfinish : finish r = some a) (hc : cap' ≤ cap + 1) :
    Reads cap' (Decoder.record fields start finish) (Wire.object ms) a := by
  have hpieces : Wire.object ms = Container.object.pieces (ms.map entryOf) := rfl
  have hobject : Reads cap' (fun limits s =>
      if (skipSpace s).head? = some (byte '[') then
        Decoder.container '[' ']'
          (fun limits s => Decoder.ordered false limits fields true start s) limits s
      else
        Decoder.container '\x7b' '\x7d'
          (fun limits s => Decoder.members fields limits limits.items true start s) limits s)
      (Wire.object ms) r := by
    rw [hpieces]
    refine ⟨Container.complete_pieces h.complete, fun limits t hn hi _ => ?_⟩
    have hhead : (skipSpace (bytes (Container.object.pieces (ms.map entryOf)) ++ t)).head? ≠
        some (byte '[') := by
      rw [Container.bytes_pieces, List.cons_append, skipSpace_cons (Container.isSpace_first _),
        List.head?_cons]
      exact fun h => absurd (Option.some.inj h) (by decide)
    rw [if_neg hhead]
    refine container_reads (c := .object) h.complete fun n hl => ?_
    have hlen := Nat.lt_of_lt_of_le (length_body .object (ms.map entryOf)) hi
    exact members_reads h (by simp only; omega) (Nat.le_refl _) true t (Nat.le_of_lt hlen)
  exact hobject.refine hfinish

/-! ### Sums -/

variable {cases : List (String × Decoder.Case α)} {name : String}

/-- The case of a sum without a value is read from its name. -/
theorem reads_bare (cap : Nat) (h : cases.lookup name = some (.bare a)) :
    Reads cap (Decoder.oneOf cases) [.string name] a := by
  refine reads_flat cap (complete_string name) rfl fun limits t _ => ?_
  have hs := skipSpace_cons (b := byte '"') (by decide)
    (encode (name.toList.flatMap quoteChar) ++ byte '"' :: t)
  rw [bytes_string, List.cons_append, List.append_assoc, List.singleton_append]
  exact Decoder.oneOf_eq_ok_iff.mpr (.inr ⟨_, name, hs, stringText_quoted name t, h⟩)

/-- The case of a sum with a value is read from the object with its name as the only key. -/
theorem reads_carrying (hl : cases.lookup name = some (.carrying d)) (h : Reads cap d ps a)
    (hc : cap' ≤ cap + 1) : Reads cap' (Decoder.oneOf cases) (Wire.tagged name ps) a := by
  have hentry : Complete (.entry .object) (entryOf (name, ps)) := h.complete.member name
  have hentries : ∀ e ∈ [entryOf (name, ps)], Complete (.entry .object) e := by simpa using hentry
  have hpieces : Wire.tagged name ps = Container.object.pieces [entryOf (name, ps)] := rfl
  have hbytes : bytes (entryOf (name, ps)) = _ := bytes_member h.complete name
  rw [hpieces]
  refine ⟨Container.complete_pieces hentries, fun limits t hn hi _ => ?_⟩
  have hlen := Nat.lt_of_lt_of_le (length_body .object [entryOf (name, ps)]) hi
  have hps := (length_bytesFrom_entry hentry (by simp [hbytes]) .opened []).1
  rw [hbytes] at hps
  simp only [List.length_cons, List.length_append] at hps
  have hopen : Decoder.oneOf cases limits
      (bytes (Container.object.pieces [entryOf (name, ps)]) ++ t) =
      Decoder.container '\x7b' '\x7d' (Decoder.caseBody cases) limits
        (bytes (Container.object.pieces [entryOf (name, ps)]) ++ t) := by
    rw [Container.bytes_pieces, List.cons_append, Decoder.oneOf,
      skipSpace_cons (Container.isSpace_first _)]
    exact if_pos rfl
  rw [hopen]
  refine container_reads (c := .object) hentries fun n hl' => ?_
  have hstring (s : List UInt8) : Decoder.string ⟨n, limits.items⟩
      (byte '"' :: (encode (name.toList.flatMap quoteChar) ++ byte '"' :: s)) = .ok (name, s) :=
    Decoder.string_eq_ok_iff.mpr ⟨_, skipSpace_cons (by decide) _, stringText_quoted name s⟩
  have hcolon (s : List UInt8) : Decoder.close ':' (byte ':' :: s) = .ok ((), s) :=
    Decoder.close_eq_ok_iff.mpr (skipSpace_cons (by decide) s)
  have hread := h.reads ⟨n, limits.items⟩ (by simp only; omega) (by simp only; omega)
    (apart_last .object t)
  rw [bytesFrom_entry hentry, bytesFrom_last, hbytes, show comma .opened = [] from
    rfl, List.nil_append, List.cons_append, List.append_assoc, List.cons_append, List.cons_append]
  rw [Decoder.caseBody, hstring]
  simp only [bind, Except.bind, hl, hcolon, Decoder.Case.payload, hread]
  have hnesting : nestingFrom 0 [entryOf (name, ps)].flatten = nestingFrom 0 ps := by
    rw [nestingFrom_flatten_cons hentry.balanced, nestingFrom_flatten_nil, entryOf,
      nestingFrom_key, Nat.max_zero]
  rw [hnesting]

end MacroBridge.Json
