import MacroBridge.Framing.Boundary
import MacroBridge.Proofs.Json.Grammar
import Mathlib.Tactic.Common

/-!
What the scan makes of JSON texts. Over a value inside a container it passes without a stop; a
value of its own that is a container or a string makes it stop at its last byte and nowhere before.
-/
namespace MacroBridge
open Json (byte isSpace isDigit showsItsEnd Blank Container Phrase Spells IsValue
  Scalar StringTail)

namespace Boundary

/-- The state after some bytes, whether or not the scan would have stopped at one of them. -/
def after (b : Boundary) (s : List UInt8) : Boundary := s.foldl (fun b x => (b.step x).1) b

/-- Whether the scan stops at none of some bytes. -/
def Quiet (b : Boundary) : List UInt8 → Prop
  | [] => True
  | x :: s => (b.step x).2 = false ∧ (b.step x).1.Quiet s

@[simp] theorem after_nil (b : Boundary) : b.after [] = b := rfl

@[simp] theorem after_cons (b : Boundary) (x : UInt8) (s : List UInt8) :
    b.after (x :: s) = (b.step x).1.after s := rfl

theorem after_append (b : Boundary) (s t : List UInt8) :
    b.after (s ++ t) = (b.after s).after t := by
  simp [after]

theorem quiet_append {b : Boundary} {s t : List UInt8} :
    b.Quiet (s ++ t) ↔ b.Quiet s ∧ (b.after s).Quiet t := by
  induction s generalizing b with
  | nil => simp [Quiet]
  | cons x s ih => simp [Quiet, ih, and_assoc]

theorem scan_append {b : Boundary} {s : List UInt8} (h : b.Quiet s) (t : List UInt8) :
    b.scan (s ++ t) = (b.after s).scan t := by
  induction s generalizing b with
  | nil => rfl
  | cons x s ih =>
    obtain ⟨hx, hs⟩ := h
    rw [List.cons_append, scan, after_cons, ← ih hs]
    rcases hb : b.step x with ⟨b', stop⟩
    rw [hb] at hx
    simp only at hx
    subst hx
    rfl

theorem scan_quiet {b : Boundary} {s : List UInt8} (h : b.Quiet s) :
    b.scan s = (b.after s, false) := by
  simpa [scan] using scan_append h []

/-- The scan stops at `x`. -/
theorem scan_stop {b : Boundary} {s : List UInt8} {x : UInt8} (h : b.Quiet s)
    (hx : ((b.after s).step x).2 = true) (t : List UInt8) :
    b.scan (s ++ x :: t) = (b.after (s ++ [x]), true) := by
  rw [scan_append h, scan, after_append]
  rcases hb : (b.after s).step x with ⟨b', stop⟩
  rw [hb] at hx
  simp only at hx
  subst hx
  simp [hb]

/-- Where the scan stands when `n` more bytes have changed nothing else. -/
def past (b : Boundary) (n : Nat) : Boundary := { b with scanned := b.scanned + n }

@[simp] theorem past_zero (b : Boundary) : b.past 0 = b := rfl

@[simp] theorem past_past (b : Boundary) (m n : Nat) : (b.past m).past n = b.past (m + n) := by
  simp [past, Nat.add_assoc]

/-- The scan goes over some bytes without a stop and is then as before. -/
structure Passes (b : Boundary) (s : List UInt8) : Prop where
  quiet : b.Quiet s
  after_eq : b.after s = b.past s.length

theorem passes_nil (b : Boundary) : b.Passes [] := ⟨trivial, rfl⟩

theorem passes_append {b : Boundary} {s t : List UInt8} (hs : b.Passes s)
    (ht : (b.past s.length).Passes t) : b.Passes (s ++ t) := by
  constructor
  · exact quiet_append.mpr ⟨hs.quiet, by rw [hs.after_eq]; exact ht.quiet⟩
  · rw [after_append, hs.after_eq, ht.after_eq, past_past, List.length_append]

theorem passes_cons {b : Boundary} {x : UInt8} {s : List UInt8} (hx : b.step x = (b.past 1, false))
    (hs : (b.past 1).Passes s) : b.Passes (x :: s) := by
  have h : b.Passes [x] := ⟨by simp [Quiet, hx], by simp [hx]⟩
  exact passes_append h hs

/-- A byte that is neither bracket nor quote nor white space. -/
def Plain (x : UInt8) : Prop :=
  isSpace x = false ∧ x ≠ byte '\x7b' ∧ x ≠ byte '[' ∧ x ≠ byte '\x7d' ∧
    x ≠ byte ']' ∧ x ≠ byte '"'

/-- Outside strings. -/
structure Outside (b : Boundary) : Prop where
  inString : b.inString = false
  escaped : b.escaped = false

/-- Within a container and outside strings. -/
structure Inside (b : Boundary) : Prop extends Outside b where
  started : b.started = true
  depth : 0 < b.depth

theorem Outside.past {b : Boundary} (h : b.Outside) (n : Nat) : (b.past n).Outside :=
  ⟨h.inString, h.escaped⟩

theorem Inside.past {b : Boundary} (h : b.Inside) (n : Nat) : (b.past n).Inside :=
  ⟨h.toOutside.past n, h.started, h.depth⟩

theorem step_space {b : Boundary} (h : b.Outside) {x : UInt8} (hx : isSpace x = true) :
    b.step x = (b.past 1, false) := by
  simp [step, past, h.inString, hx]

theorem step_plain {b : Boundary} (h : b.Inside) {x : UInt8} (hx : Plain x) :
    b.step x = (b.past 1, false) := by
  obtain ⟨hs, ho, ha, hc, he, hq⟩ := hx
  have hd : b.depth ≠ 0 := by have := h.depth; omega
  have hb : b = { b with started := true } := by rw [← h.started]
  simp only [step, Boundary.past, h.inString, hs, ho, ha, hc, he, hq, decide_false, Bool.or_self,
    Bool.false_eq_true, ↓reduceIte]
  rw [hb]
  simp [hd]

/-- Opens a container. -/
def opened (b : Boundary) : Boundary := { b.past 1 with started := true, depth := b.depth + 1 }

theorem Outside.opened {b : Boundary} (h : b.Outside) : b.opened.Inside :=
  ⟨⟨h.inString, h.escaped⟩, rfl, Nat.succ_pos _⟩

theorem step_first {b : Boundary} (h : b.Outside) (c : Container) :
    b.step (byte c.first) = (b.opened, false) := by
  have hs : isSpace (byte c.first) = false := c.isSpace_first
  have hc : (decide (byte c.first = byte '\x7b') || decide (byte c.first = byte '[')) = true := by
    cases c <;> decide
  simp [step, opened, past, h.inString, hs, hc]

theorem step_last {b : Boundary} (h : b.Outside) (c : Container) :
    b.step (byte c.last) = ({ b.past 1 with depth := b.depth - 1 }, b.depth - 1 == 0) := by
  have hs : isSpace (byte c.last) = false := c.isSpace_last
  have ho : (decide (byte c.last = byte '\x7b') || decide (byte c.last = byte '[')) = false := by
    cases c <;> decide
  have hc : (decide (byte c.last = byte '\x7d') || decide (byte c.last = byte ']')) = true := by
    cases c <;> decide
  simp [step, past, h.inString, hs, ho, hc]

/-- Within a string and not behind a backslash. -/
structure Quoted (b : Boundary) : Prop where
  inString : b.inString = true
  escaped : b.escaped = false

theorem Quoted.past {b : Boundary} (h : b.Quoted) (n : Nat) : (b.past n).Quoted :=
  ⟨h.inString, h.escaped⟩

/-- Opens a string. -/
def quoted (b : Boundary) : Boundary := { b.past 1 with started := true, inString := true }

theorem Outside.quoted {b : Boundary} (h : b.Outside) : b.quoted.Quoted := ⟨rfl, h.escaped⟩

theorem step_openQuote {b : Boundary} (h : b.Outside) :
    b.step (byte '"') = (b.quoted, false) := by
  have hs : isSpace (byte '"') = false := by decide
  have ho : byte '"' ≠ byte '\x7b' ∧ byte '"' ≠ byte '[' ∧ byte '"' ≠ byte '\x7d' ∧
      byte '"' ≠ byte ']' := by
    decide
  simp [step, quoted, past, h.inString, hs, ho]

theorem step_closeQuote {b : Boundary} (h : b.Quoted) :
    b.step (byte '"') = ({ b.past 1 with inString := false }, b.depth == 0) := by
  have hq : byte '"' ≠ byte '\\' := by decide
  simp [step, past, h.inString, h.escaped, hq]

theorem step_quoted {b : Boundary} (h : b.Quoted) {x : UInt8} (hq : x ≠ byte '"')
    (hb : x ≠ byte '\\') : b.step x = (b.past 1, false) := by
  simp [step, past, h.inString, h.escaped, hq, hb]

theorem passes_escape {b : Boundary} (h : b.Quoted) (x : UInt8) : b.Passes [byte '\\', x] := by
  have h₁ : b.step (byte '\\') = ({ b.past 1 with escaped := true }, false) := by
    simp [step, past, h.inString, h.escaped]
  have h₂ : ({ b.past 1 with escaped := true } : Boundary).step x = (b.past 2, false) := by
    simp [step, past, h.inString, h.escaped]
  exact ⟨by simp [Quiet, h₁, h₂], by simp [h₁, h₂]⟩

/-! ### Scalars and strings -/

theorem plain_digit {x : UInt8} (hx : isDigit x = true) : Plain x := by
  have digit {c : Char} (hc : isDigit (byte c) = false) : x ≠ byte c := by
    rintro rfl
    simp [hx] at hc
  refine ⟨?_, digit (by decide), digit (by decide), digit (by decide), digit (by decide),
    digit (by decide)⟩
  simp only [isSpace, Bool.or_eq_false_iff, beq_eq_false_iff_ne]
  exact ⟨⟨⟨digit (by decide), digit (by decide)⟩, digit (by decide)⟩, digit (by decide)⟩

theorem plain_of_digits {s : List UInt8} (hs : ∀ x ∈ s, isDigit x = true) : ∀ x ∈ s, Plain x :=
  fun x hx => plain_digit (hs x hx)

instance (x : UInt8) : Decidable (Plain x) := inferInstanceAs (Decidable (_ ∧ _))

theorem plain_byte {c : Char} (hc : c ∈ "nulltrefas.eE+-0".toList) : Plain (byte c) := by
  have hall : "nulltrefas.eE+-0".toList.all (fun c => decide (Plain (byte c))) = true := by decide
  simpa using List.all_eq_true.mp hall c hc

theorem plain_whole {w : List UInt8} (h : Json.Numeral.Whole w) : ∀ x ∈ w, Plain x := by
  cases h with
  | zero => simpa using plain_byte (c := '0') (by decide)
  | digits hb _ hs => simpa using ⟨plain_digit hb, plain_of_digits hs⟩

theorem plain_fraction {f : List UInt8} (h : Json.Numeral.Fraction f) : ∀ x ∈ f, Plain x := by
  cases h with
  | none => simp
  | some hs => simpa using ⟨plain_byte (c := '.') (by decide), plain_of_digits hs.2⟩

theorem plain_exponent {e : List UInt8} (h : Json.Numeral.Exponent e) : ∀ x ∈ e, Plain x := by
  have he {x : UInt8} (hx : x = byte 'e' ∨ x = byte 'E') : Plain x := by
    rcases hx with rfl | rfl
    · exact plain_byte (by decide)
    · exact plain_byte (by decide)
  cases h with
  | none => simp
  | plain hx hs => simpa using ⟨he hx, plain_of_digits hs.2⟩
  | @signed e sign s hx hsign hs =>
    have : Plain sign := by
      rcases hsign with rfl | rfl
      · exact plain_byte (c := '+') (by decide)
      · exact plain_byte (c := '-') (by decide)
    simpa using ⟨he hx, this, plain_of_digits hs.2⟩

theorem plain_scalar {w : List UInt8} (h : Scalar w) : ∀ x ∈ w, Plain x := by
  have hn {w f e : List UInt8} (hw : Json.Numeral.Whole w) (hf : Json.Numeral.Fraction f)
      (he : Json.Numeral.Exponent e) : ∀ x ∈ w ++ f ++ e, Plain x := by
    simp only [List.mem_append]
    rintro x ((hx | hx) | hx)
    · exact plain_whole hw x hx
    · exact plain_fraction hf x hx
    · exact plain_exponent he x hx
  cases h with
  | null => simpa using ⟨plain_byte (by decide), plain_byte (by decide), plain_byte (by decide)⟩
  | true =>
    simpa using ⟨plain_byte (by decide), plain_byte (by decide), plain_byte (by decide),
      plain_byte (by decide)⟩
  | false =>
    simpa using ⟨plain_byte (by decide), plain_byte (by decide), plain_byte (by decide),
      plain_byte (by decide), plain_byte (by decide)⟩
  | natural hw hf he => exact hn hw hf he
  | negative hw hf he =>
    intro x hx
    rcases List.mem_cons.mp hx with rfl | hx
    · exact plain_byte (by decide)
    · exact hn hw hf he x hx

theorem scalar_hides_end {w : List UInt8} (h : Scalar w) : w.head?.any showsItsEnd = false := by
  cases w with
  | nil => rfl
  | cons x w =>
    obtain ⟨-, ha, hb, -, -, hq⟩ := plain_scalar h x (by simp)
    simp [showsItsEnd, ha, hb, hq]

theorem passes_plain {s : List UInt8} (hs : ∀ x ∈ s, Plain x) {b : Boundary} (h : b.Inside) :
    b.Passes s := by
  induction s generalizing b with
  | nil => exact passes_nil b
  | cons x s ih =>
    exact passes_cons (step_plain h (hs x (by simp)))
      (ih (fun y hy => hs y (by simp [hy])) (h.past 1))

theorem passes_blank {p : List UInt8} (hp : Blank p) {b : Boundary} (h : b.Outside) :
    b.Passes p := by
  induction p generalizing b with
  | nil => exact passes_nil b
  | cons x p ih =>
    exact passes_cons (step_space h (hp x (by simp)))
      (ih (fun y hy => hp y (by simp [hy])) (h.past 1))

theorem hexFour_isSome {x y z w : UInt8} (h : (Json.hexFour x y z w).isSome) :
    (Json.hexValue x).isSome ∧ (Json.hexValue y).isSome ∧ (Json.hexValue z).isSome ∧
      (Json.hexValue w).isSome := by
  obtain ⟨n, hn⟩ := Option.isSome_iff_exists.mp h
  simp only [Json.hexFour, Option.bind_eq_bind, Option.bind_eq_some_iff] at hn
  obtain ⟨x', hx, y', hy, z', hz, w', hw, -⟩ := hn
  simp [hx, hy, hz, hw]

/-- A byte of a hexadecimal number in a string does not end it. -/
theorem hexValue_quoted {x : UInt8} (hx : (Json.hexValue x).isSome) :
    x ≠ byte '"' ∧ x ≠ byte '\\' := by
  constructor
  · rintro rfl
    exact absurd hx (by decide)
  · rintro rfl
    exact absurd hx (by decide)

/-- All of a string but its closing quote is passed. -/
theorem passes_stringTail {k : List UInt8} (hk : StringTail k) :
    ∃ k', k = k' ++ [byte '"'] ∧ ∀ b : Boundary, b.Quoted → b.Passes k' := by
  induction hk with
  | close => exact ⟨[], rfl, fun b _ => passes_nil b⟩
  | @plain x s hq _ hb _ ih =>
    obtain ⟨k', rfl, ih⟩ := ih
    exact ⟨x :: k', rfl, fun b h => passes_cons (step_quoted h hq hb) (ih _ (h.past 1))⟩
  | @escape e s _ _ ih =>
    obtain ⟨k', rfl, ih⟩ := ih
    exact ⟨[byte '\\', e] ++ k', rfl,
      fun b h => passes_append (passes_escape h e) (ih _ (h.past 2))⟩
  | @unicode x y z w s hh _ ih =>
    obtain ⟨k', rfl, ih⟩ := ih
    refine ⟨[byte '\\', byte 'u'] ++ (x :: y :: z :: w :: k'), rfl, fun b h => ?_⟩
    obtain ⟨hx, hy, hz, hw⟩ := hexFour_isSome hh
    have step {x : UInt8} (hx : (Json.hexValue x).isSome) {b : Boundary} (h : b.Quoted) :
        b.step x = (b.past 1, false) := step_quoted h (hexValue_quoted hx).1 (hexValue_quoted hx).2
    refine passes_append (passes_escape h _) ?_
    have h := h.past 2
    refine passes_cons (step hx h) (passes_cons (step hy (h.past 1)) ?_)
    refine passes_cons (step hz ((h.past 1).past 1))
      (passes_cons (step hw (((h.past 1).past 1).past 1)) ?_)
    exact ih _ ((((h.past 1).past 1).past 1).past 1)

/-! ### Containers -/

/-- Whether the scan goes over a text in any container. -/
def Harmless (s : List UInt8) : Prop := ∀ b : Boundary, b.Inside → b.Passes s

theorem Harmless.append {s t : List UInt8} (hs : Harmless s) (ht : Harmless t) :
    Harmless (s ++ t) :=
  fun b h => passes_append (hs b h) (ht _ (h.past _))

theorem harmless_plain {x : UInt8} (hx : Plain x) : Harmless [x] :=
  fun _ h => passes_plain (by simpa using hx) h

theorem harmless_blank {p : List UInt8} (hp : Blank p) : Harmless p :=
  fun _ h => passes_blank hp h.toOutside

/-- The scan of a container up to its last byte. -/
theorem quiet_container {b : Boundary} (h : b.Outside) (c : Container) {s : List UInt8}
    (hs : Harmless s) :
    b.Quiet (byte c.first :: s) ∧ b.after (byte c.first :: s) = b.opened.past s.length := by
  have hp := hs _ h.opened
  simp only [Quiet, after_cons, step_first h, true_and]
  exact ⟨hp.quiet, hp.after_eq⟩

/-- The scan of a string up to its closing quote. -/
theorem quiet_string {b : Boundary} (h : b.Outside) {k : List UInt8}
    (hk : ∀ b : Boundary, b.Quoted → b.Passes k) :
    b.Quiet (byte '"' :: k) ∧ b.after (byte '"' :: k) = b.quoted.past k.length := by
  have hp := hk _ h.quoted
  simp only [Quiet, after_cons, step_openQuote h, true_and]
  exact ⟨hp.quiet, hp.after_eq⟩

/-- A text passes if all but its last byte is scanned without a stop and that byte leads back. -/
theorem passes_of_last {b b' : Boundary} {s : List UInt8} {x : UInt8}
    (h : b.Quiet s ∧ b.after s = b') (hx : b'.step x = (b.past (s.length + 1), false)) :
    b.Passes (s ++ [x]) := by
  obtain ⟨hs, rfl⟩ := h
  constructor
  · exact quiet_append.mpr ⟨hs, by simp [Quiet, hx]⟩
  · rw [after_append, after_cons, hx, after_nil, List.length_append, List.length_singleton]

theorem harmless_string {k : List UInt8} (hk : StringTail k) : Harmless (byte '"' :: k) := by
  obtain ⟨k', rfl, hk'⟩ := passes_stringTail hk
  intro b h
  have hd : (b.depth == 0) = false := by simpa using Nat.pos_iff_ne_zero.mp h.depth
  refine passes_of_last (quiet_string h.toOutside hk') ?_
  rw [step_closeQuote (h.toOutside.quoted.past k'.length)]
  simp only [past, quoted, hd, List.length_cons, ← h.inString, ← h.started,
    Prod.mk.injEq, and_true]
  congr 1
  omega

theorem harmless_container {s : List UInt8} (c : Container) (hs : Harmless s) :
    Harmless (byte c.first :: (s ++ [byte c.last])) := by
  intro b h
  have hd : (b.depth == 0) = false := by simpa using Nat.pos_iff_ne_zero.mp h.depth
  refine passes_of_last (quiet_container h.toOutside c hs) ?_
  rw [step_last (h.toOutside.opened.toOutside.past s.length)]
  simp only [past, opened, hd, List.length_cons, ← h.started, Nat.add_sub_cancel,
    Prod.mk.injEq, and_true]
  congr 1
  omega

/-- What the scan makes of a phrase within a container. -/
def Scanned : Phrase → List UInt8 → Prop
  | .value, w => Harmless w
  | .entry _, w => Harmless w
  | .tail c, s => ∃ s', s = s' ++ [byte c.last] ∧ Harmless s'

theorem spells_scanned {k : Phrase} {w : List UInt8} (h : Spells k w) : Scanned k w := by
  induction h with
  | scalar h => exact fun b hb => passes_plain (plain_scalar h) hb
  | string h => exact harmless_string h
  | @empty c p hp => exact harmless_container c (harmless_blank hp)
  | @filled c p w s hp _ _ hw hs =>
    obtain ⟨s', rfl, hs⟩ := hs
    simpa [Scanned] using harmless_container c ((harmless_blank hp).append (Harmless.append hw hs))
  | element _ hw => exact hw
  | @member k p q w hk hp hq _ hw =>
    have hc : Harmless [byte ':'] := harmless_plain (by simp only [Plain]; decide)
    simpa [Scanned] using (harmless_string hk).append
      ((harmless_blank hp).append (hc.append ((harmless_blank hq).append hw)))
  | done hp => exact ⟨_, rfl, harmless_blank hp⟩
  | @more c p q w s hp hq _ _ hw hs =>
    obtain ⟨s', rfl, hs⟩ := hs
    have hc : Harmless [byte ','] := harmless_plain (by simp only [Plain]; decide)
    refine ⟨p ++ byte ',' :: (q ++ (w ++ s')), by simp, ?_⟩
    simpa using (harmless_blank hp).append
      (hc.append ((harmless_blank hq).append (Harmless.append hw hs)))

/-- A value that shows its end, outside any container: the scan stops at its last byte and nowhere
before. -/
theorem scan_value {w : List UInt8} (hw : IsValue w) (he : w.head?.any showsItsEnd = true) :
    ∃ w' x, w = w' ++ [x] ∧ ∀ b : Boundary, b.Outside → b.depth = 0 →
      b.Quiet w' ∧ ((b.after w').step x).2 = true := by
  have top {c : Container} {s : List UInt8} (hs : Harmless s) (b : Boundary) (h : b.Outside)
      (hd : b.depth = 0) : b.Quiet (byte c.first :: s) ∧
        ((b.after (byte c.first :: s)).step (byte c.last)).2 = true := by
    obtain ⟨hq, ha⟩ := quiet_container h c hs
    refine ⟨hq, ?_⟩
    rw [ha, step_last (h.opened.toOutside.past s.length)]
    simp [past, opened, hd]
  cases hw with
  | scalar h => exact absurd he (by simp [scalar_hides_end h])
  | @string k hk =>
    obtain ⟨k', rfl, hk'⟩ := passes_stringTail hk
    refine ⟨byte '"' :: k', byte '"', rfl, fun b h hd => ?_⟩
    obtain ⟨hq, ha⟩ := quiet_string h hk'
    refine ⟨hq, ?_⟩
    rw [ha, step_closeQuote (h.quoted.past k'.length)]
    simp [past, quoted, hd]
  | @empty c p hp => exact ⟨byte c.first :: p, byte c.last, rfl, top (harmless_blank hp)⟩
  | @filled c p w s hp hw hs =>
    obtain ⟨s', rfl, hs'⟩ := spells_scanned hs
    refine ⟨byte c.first :: (p ++ (w ++ s')), byte c.last, by simp, top ?_⟩
    exact (harmless_blank hp).append (Harmless.append (spells_scanned hw) hs')

/-! ### What the scan has seen -/

theorem scanned_step (b : Boundary) (x : UInt8) : (b.step x).1.scanned = b.scanned + 1 := by
  unfold step
  dsimp only
  split_ifs <;> rfl

@[simp] theorem scanned_after (b : Boundary) (s : List UInt8) :
    (b.after s).scanned = b.scanned + s.length := by
  induction s generalizing b with
  | nil => rfl
  | cons x s ih =>
    rw [after_cons, ih, scanned_step, List.length_cons]
    omega

theorem started_step {b : Boundary} (h : b.started = true) (x : UInt8) :
    (b.step x).1.started = true := by
  unfold step
  dsimp only
  split_ifs <;> first | rfl | exact h

theorem started_after {b : Boundary} (h : b.started = true) (s : List UInt8) :
    (b.after s).started = true := by
  induction s generalizing b with
  | nil => exact h
  | cons x s ih => exact ih (started_step h x)

theorem started_of_showsItsEnd {b : Boundary} (h : b.Outside) {x : UInt8}
    (hx : showsItsEnd x = true) (s : List UInt8) : (b.after (x :: s)).started = true := by
  rw [after_cons]
  refine started_after ?_ s
  simp only [showsItsEnd, Bool.or_eq_true, beq_iff_eq] at hx
  rcases hx with (rfl | rfl) | rfl
  · rw [show byte '[' = byte Container.array.first from rfl, step_first h]
    rfl
  · rw [show byte '\x7b' = byte Container.object.first from rfl, step_first h]
    rfl
  · rw [step_openQuote h]
    rfl

end Boundary

end MacroBridge
