import MacroBridge.Json.Decoder

/-!
The grammar of JSON texts, as bytes. Strings may hold any bytes from the space on, so that every
text that a decoder passes over is in the grammar.
-/
namespace MacroBridge.Json

/-- White space of any length. -/
def Blank (s : List UInt8) : Prop := ∀ b ∈ s, isSpace b = true

/-- The two forms of a value that hold others. -/
inductive Container
  | array
  | object
  deriving DecidableEq

namespace Container

def first : Container → Char
  | array => '['
  | object => '\x7b'

def last : Container → Char
  | array => ']'
  | object => '\x7d'

theorem isSpace_first (c : Container) : isSpace (byte c.first) = false := by cases c <;> decide

theorem isSpace_last (c : Container) : isSpace (byte c.last) = false := by cases c <;> decide

end Container

/-- Whether a byte closes a container. -/
def closes (b : UInt8) : Bool := b == byte '\x7d' || b == byte ']'

theorem closes_iff {b : UInt8} : closes b = true ↔ ∃ c : Container, b = byte c.last := by
  simp only [closes, Bool.or_eq_true, beq_iff_eq]
  constructor
  · rintro (rfl | rfl)
    · exact ⟨.object, rfl⟩
    · exact ⟨.array, rfl⟩
  · rintro ⟨c, rfl⟩
    cases c with
    | array => exact .inr rfl
    | object => exact .inl rfl

theorem closes_of_isSpace {b : UInt8} (h : isSpace b = true) : closes b = false := by
  cases hc : closes b with
  | false => rfl
  | true =>
    obtain ⟨c, rfl⟩ := closes_iff.mp hc
    simp [Container.isSpace_last c] at h

/-- At least one digit. -/
def Digits (s : List UInt8) : Prop := s ≠ [] ∧ ∀ b ∈ s, isDigit b = true

namespace Numeral

/-- The part before the point. A zero stands alone. -/
inductive Whole : List UInt8 → Prop
  | zero : Whole [byte '0']
  | digits {b : UInt8} {s : List UInt8} (hb : isDigit b = true) (hz : b ≠ byte '0')
      (hs : ∀ b ∈ s, isDigit b = true) : Whole (b :: s)

inductive Fraction : List UInt8 → Prop
  | none : Fraction []
  | some {s : List UInt8} (hs : Digits s) : Fraction (byte '.' :: s)

inductive Exponent : List UInt8 → Prop
  | none : Exponent []
  | plain {e : UInt8} {s : List UInt8} (he : e = byte 'e' ∨ e = byte 'E') (hs : Digits s) :
      Exponent (e :: s)
  | signed {e sign : UInt8} {s : List UInt8} (he : e = byte 'e' ∨ e = byte 'E')
      (hsign : sign = byte '+' ∨ sign = byte '-') (hs : Digits s) : Exponent (e :: sign :: s)

end Numeral

/-- Numbers and words, the values without a last byte of their own. -/
inductive Scalar : List UInt8 → Prop
  | null : Scalar ("null".toList.map byte)
  | true : Scalar ("true".toList.map byte)
  | false : Scalar ("false".toList.map byte)
  | natural {w f e : List UInt8} (hw : Numeral.Whole w) (hf : Numeral.Fraction f)
      (he : Numeral.Exponent e) : Scalar (w ++ f ++ e)
  | negative {w f e : List UInt8} (hw : Numeral.Whole w) (hf : Numeral.Fraction f)
      (he : Numeral.Exponent e) : Scalar (byte '-' :: (w ++ f ++ e))

/-- A string after its opening quote, through the closing one. -/
inductive StringTail : List UInt8 → Prop
  | close : StringTail [byte '"']
  | plain {b : UInt8} {s : List UInt8} (hq : b ≠ byte '"') (hc : ¬ b < 0x20) (hb : b ≠ byte '\\')
      (hs : StringTail s) : StringTail (b :: s)
  | escape {e : UInt8} {s : List UInt8} (he : (simpleEscape e).isSome) (hs : StringTail s) :
      StringTail (byte '\\' :: e :: s)
  | unicode {a b c d : UInt8} {s : List UInt8} (h : (hexFour a b c d).isSome) (hs : StringTail s) :
      StringTail (byte '\\' :: byte 'u' :: a :: b :: c :: d :: s)

/-- The parts of a text that hold values: a value, what a container holds between its commas, and
what follows one of these up to the end of the container. -/
inductive Phrase
  | value
  | entry (c : Container)
  | tail (c : Container)

/-- The texts of a phrase, which start with no white space unless they are a tail. -/
inductive Spells : Phrase → List UInt8 → Prop
  | scalar {w : List UInt8} (h : Scalar w) : Spells .value w
  | string {s : List UInt8} (h : StringTail s) : Spells .value (byte '"' :: s)
  | empty {c : Container} {p : List UInt8} (hp : Blank p) :
      Spells .value (byte c.first :: (p ++ [byte c.last]))
  | filled {c : Container} {p w s : List UInt8} (hp : Blank p) (hw : Spells (.entry c) w)
      (hs : Spells (.tail c) s) : Spells .value (byte c.first :: (p ++ (w ++ s)))
  | element {w : List UInt8} (h : Spells .value w) : Spells (.entry .array) w
  | member {k p q w : List UInt8} (hk : StringTail k) (hp : Blank p) (hq : Blank q)
      (hw : Spells .value w) :
        Spells (.entry .object) (byte '"' :: (k ++ (p ++ byte ':' :: (q ++ w))))
  | done {c : Container} {p : List UInt8} (hp : Blank p) : Spells (.tail c) (p ++ [byte c.last])
  | more {c : Container} {p q w s : List UInt8} (hp : Blank p) (hq : Blank q)
      (hw : Spells (.entry c) w) (hs : Spells (.tail c) s) :
      Spells (.tail c) (p ++ byte ',' :: (q ++ (w ++ s)))

/-- A JSON text without white space around it. -/
abbrev IsValue (w : List UInt8) : Prop := Spells .value w

@[simp] theorem blank_nil : Blank [] := by simp [Blank]

theorem blank_singleton {b : UInt8} : Blank [b] ↔ isSpace b = true := by simp [Blank]

theorem blank_append {p q : List UInt8} : Blank (p ++ q) ↔ Blank p ∧ Blank q := by
  simp [Blank, or_imp, forall_and]

theorem Blank.append {p q : List UInt8} (hp : Blank p) (hq : Blank q) : Blank (p ++ q) :=
  blank_append.mpr ⟨hp, hq⟩

/-! ### White space -/

theorem skipSpace_blank_append {p : List UInt8} (hp : Blank p) (s : List UInt8) :
    skipSpace (p ++ s) = skipSpace s := by
  induction p with
  | nil => rfl
  | cons b p ih =>
    have hb : isSpace b = true := hp b (by simp)
    have ih := ih fun x hx => hp x (by simp [hx])
    simpa [skipSpace, hb] using ih

theorem skipSpace_cons {b : UInt8} (hb : isSpace b = false) (s : List UInt8) :
    skipSpace (b :: s) = b :: s := by
  simp [skipSpace, hb]

theorem skipSpace_blank_cons {p : List UInt8} (hp : Blank p) {b : UInt8} (hb : isSpace b = false)
    (s : List UInt8) : skipSpace (p ++ b :: s) = b :: s := by
  rw [skipSpace_blank_append hp, skipSpace_cons hb]

theorem skipSpace_eq_nil_iff {s : List UInt8} : skipSpace s = [] ↔ Blank s := by
  induction s with
  | nil => simp [skipSpace]
  | cons b s ih =>
    simp only [skipSpace, Blank] at ih ⊢
    by_cases hb : isSpace b = true
    · simp [hb, ih]
    · simp [hb]

/-- White space ends at the first byte that is none. -/
theorem skipSpace_eq_cons_iff {s r : List UInt8} {b : UInt8} :
    skipSpace s = b :: r ↔ ∃ p, Blank p ∧ isSpace b = false ∧ s = p ++ b :: r := by
  constructor
  · intro h
    refine ⟨s.takeWhile isSpace, fun x hx => ?_, ?_, ?_⟩
    · exact List.all_eq_true.mp List.all_takeWhile x hx
    · have hd := List.head?_dropWhile_not isSpace s
      rw [show s.dropWhile isSpace = b :: r from h] at hd
      simpa using hd
    · rw [← h]
      exact (List.takeWhile_append_dropWhile).symm
  · rintro ⟨p, hp, hb, rfl⟩
    exact skipSpace_blank_cons hp hb r

theorem skipSpace_append {s r : List UInt8} {b : UInt8} (h : skipSpace s = b :: r)
    (t : List UInt8) : skipSpace (s ++ t) = b :: (r ++ t) := by
  obtain ⟨p, hp, hb, rfl⟩ := skipSpace_eq_cons_iff.mp h
  exact skipSpace_eq_cons_iff.mpr ⟨p, hp, hb, by simp⟩

end MacroBridge.Json
