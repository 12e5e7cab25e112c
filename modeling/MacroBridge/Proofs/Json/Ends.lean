import MacroBridge.Proofs.Framing.Boundary
import MacroBridge.Proofs.Json.Scan

/-!
The scanners on bytes that a closing bracket ends. Numbers and words are over there, so that more
bytes change nothing. A string may still be open; then the bytes are the inside of a string for the
boundary scan too, unless they end within a Unicode escape that is broken already.
-/
namespace MacroBridge.Json
open Boundary (Plain plain_digit plain_byte)

variable {α β : Type} {s r : List UInt8} {b : UInt8}

/-- Bytes that a closing bracket ends, if there are any. -/
def Ends (s : List UInt8) : Prop := ∀ b ∈ s.getLast?, closes b = true

theorem Ends.of_append {w : List UInt8} (h : Ends (w ++ r)) : Ends r := by
  intro x hx
  apply h x
  rw [List.getLast?_append, hx]
  rfl

/-- Whether a closing bracket stands among some bytes. -/
def Stops (s : List UInt8) : Prop := ∃ b ∈ s, closes b = true

theorem Ends.stops (h : Ends s) (hs : s ≠ []) : Stops s :=
  ⟨s.getLast hs, List.getLast_mem hs, h _ (List.getLast?_eq_some_getLast hs)⟩

theorem not_stops_nil : ¬ Stops [] := by simp [Stops]

theorem Stops.tail (h : Stops (b :: s)) (hb : closes b = false) : Stops s := by
  obtain ⟨x, hx, hc⟩ := h
  rcases List.mem_cons.mp hx with rfl | hx
  · rw [hb] at hc
    simp at hc
  · exact ⟨x, hx, hc⟩

theorem closes_plain (h : Plain b) : closes b = false := by
  obtain ⟨-, -, -, hc, he, -⟩ := h
  simp [closes, hc, he]

theorem closes_byte {c : Char} (hc : c ∈ "nulltrefas.eE+-0".toList) : closes (byte c) = false :=
  closes_plain (plain_byte hc)

/-! ### Numbers and words -/

/-- What a scanner gives when more bytes stand behind those that it leaves. -/
def extend (t : List UInt8) (o : Except Fault (α × List UInt8)) : Except Fault (α × List UInt8) :=
  o.map fun p => (p.1, p.2 ++ t)

/-- A scanner comes to a result in front of a closing bracket, whatever follows. -/
structure Resolves (f : List UInt8 → Except Fault (α × List UInt8)) (s : List UInt8) : Prop where
  append (t : List UInt8) : f (s ++ t) = extend t (f s)
  decided : f s ≠ .error .incomplete
  stops {a : α} {r : List UInt8} (h : f s = .ok (a, r)) : Stops r

section
variable {f : List UInt8 → Except Fault (α × List UInt8)}

theorem resolves_ok (a : α) (h : ∀ t, f (s ++ t) = .ok (a, r ++ t)) (hr : Stops r) :
    Resolves f s := by
  have hs : f s = .ok (a, r) := by simpa using h []
  constructor
  · intro t
    rw [h, hs]
    rfl
  · rw [hs]
    simp
  · intro a' r' hr'
    rw [hs] at hr'
    obtain ⟨-, rfl⟩ := Prod.mk.inj (Except.ok.inj hr')
    exact hr

theorem resolves_malformed (h : ∀ t, f (s ++ t) = .error .malformed) : Resolves f s := by
  have hs : f s = .error .malformed := by simpa using h []
  constructor
  · intro t
    rw [h, hs]
    rfl
  · simp [hs]
  · simp [hs]

/-- What is resolved from `r` on is so for a scanner that comes to `r`. -/
theorem Resolves.of_eq {g : List UInt8 → Except Fault (α × List UInt8)} (hg : Resolves g r)
    (h : ∀ t, f (s ++ t) = g (r ++ t)) : Resolves f s := by
  have hs : f s = g r := by simpa using h []
  constructor
  · intro t
    rw [h, hg.append, hs]
  · rw [hs]
    exact hg.decided
  · intro a r' hr'
    exact hg.stops (hs ▸ hr')

theorem Resolves.ne_incomplete (h : Resolves f s) (t : List UInt8) :
    f (s ++ t) ≠ .error .incomplete := by
  intro hi
  have happend := h.append t
  rw [hi] at happend
  cases hs : f s with
  | error e =>
    rw [hs] at happend
    exact h.decided (hs.trans happend.symm)
  | ok p => simp [hs, extend, Except.map] at happend

theorem Resolves.bind {g : α → List UInt8 → Except Fault (β × List UInt8)} (hf : Resolves f s)
    (hg : ∀ a r, Stops r → Resolves (g a) r) :
    Resolves (fun s => f s >>= fun p => g p.1 p.2) s := by
  have happend := hf.append
  cases hs : f s with
  | error e =>
    have he : e = .malformed := by
      cases e with
      | incomplete => exact absurd hs hf.decided
      | malformed => rfl
    apply resolves_malformed
    intro t
    rw [happend, hs, he]
    rfl
  | ok p =>
    apply (hg p.1 p.2 (hf.stops hs)).of_eq
    intro t
    rw [happend, hs]
    rfl

end

theorem resolves_digits (h : Stops s) (n : Nat) :
    Stops (digits n s).2 ∧ ∀ t, digits n (s ++ t) = ((digits n s).1, (digits n s).2 ++ t) := by
  have hs : Stops (digits n s).2 := by
    induction s generalizing n with
    | nil => exact absurd h not_stops_nil
    | cons b s ih =>
      rw [digits]
      split_ifs with hb
      · exact ih (h.tail (closes_plain (plain_digit hb))) _
      · exact h
  refine ⟨hs, digits_append ?_⟩
  intro hnil
  rw [hnil] at hs
  exact not_stops_nil hs

theorem resolves_someDigits (h : Stops s) : Resolves someDigits s := by
  cases s with
  | nil => exact absurd h not_stops_nil
  | cons b s =>
    by_cases hb : isDigit b = true
    · obtain ⟨hs, happend⟩ := resolves_digits (h.tail (closes_plain (plain_digit hb))) 0
      refine resolves_ok () (fun t => ?_) hs
      simp [someDigits, hb, happend]
    · apply resolves_malformed
      simp [someDigits, hb]

theorem resolves_exponentDigits (h : Stops s) : Resolves exponentDigits s := by
  cases s with
  | nil => exact absurd h not_stops_nil
  | cons b s =>
    by_cases hb : b = byte '+' ∨ b = byte '-'
    · have hc : closes b = false := by
        rcases hb with rfl | rfl
        · exact closes_byte (by decide)
        · exact closes_byte (by decide)
      apply (resolves_someDigits (h.tail hc)).of_eq
      simp [exponentDigits, hb]
    · apply (resolves_someDigits h).of_eq
      simp [exponentDigits, hb]

theorem resolves_exponent (h : Stops s) (n : Number) : Resolves (exponent n) s := by
  cases s with
  | nil => exact absurd h not_stops_nil
  | cons b s =>
    by_cases hb : b = byte 'e' ∨ b = byte 'E'
    · have hc : closes b = false := by
        rcases hb with rfl | rfl
        · exact closes_byte (by decide)
        · exact closes_byte (by decide)
      apply ((resolves_exponentDigits (h.tail hc)).bind (g := fun _ r =>
        .ok (Number.other, r)) ?_).of_eq
      · intro t
        simp only [List.cons_append, exponent, Bool.or_eq_true, decide_eq_true_eq, hb, ↓reduceIte]
        cases exponentDigits (s ++ t) with
        | error e => rfl
        | ok p => rfl
      · intro _ r hr
        exact resolves_ok _ (fun _ => rfl) hr
    · refine resolves_ok n (fun t => ?_) h
      simp [exponent, hb]

theorem resolves_fraction (h : Stops s) (n : Number) : Resolves (fraction n) s := by
  cases s with
  | nil => exact absurd h not_stops_nil
  | cons b s =>
    by_cases hb : b = byte '.'
    · have hc : closes b = false := hb ▸ closes_byte (by decide)
      apply ((resolves_someDigits (h.tail hc)).bind fun _ r hr =>
        resolves_exponent hr .other).of_eq
      intro t
      simp only [List.cons_append, fraction, hb, ↓reduceIte]
      cases someDigits (s ++ t) with
      | error e => rfl
      | ok p => rfl
    · apply (resolves_exponent h n).of_eq
      simp [fraction, hb]

theorem resolves_unsigned (h : Stops s) (sign : Nat → Number) : Resolves (unsigned sign) s := by
  cases s with
  | nil => exact absurd h not_stops_nil
  | cons b s =>
    by_cases hz : b = byte '0'
    · have hs : Stops s := h.tail (hz ▸ closes_byte (by decide))
      obtain ⟨x, s', rfl⟩ : ∃ x s', s = x :: s' :=
        List.exists_cons_of_ne_nil fun hnil => not_stops_nil (hnil ▸ hs)
      by_cases hx : isDigit x = true
      · apply resolves_malformed
        simp [unsigned, hz, hx]
      · apply (resolves_fraction hs (sign 0)).of_eq
        simp [unsigned, hz, hx]
    · by_cases hb : isDigit b = true
      · obtain ⟨hs, happend⟩ := resolves_digits h 0
        apply (resolves_fraction hs (sign (digits 0 (b :: s)).1)).of_eq
        intro t
        rw [List.cons_append, unsigned, if_neg hz, if_pos hb, ← List.cons_append, happend]
      · apply resolves_malformed
        simp [unsigned, hz, hb]

theorem resolves_number (h : Stops s) : Resolves number s := by
  cases s with
  | nil => exact absurd h not_stops_nil
  | cons b s =>
    by_cases hb : b = byte '-'
    · apply (resolves_unsigned (h.tail (hb ▸ closes_byte (by decide))) fun _ => .other).of_eq
      simp [number, hb]
    · apply (resolves_unsigned h .natural).of_eq
      simp [number, hb]

theorem resolves_expect {w : List UInt8} (hw : ∀ b ∈ w, closes b = false) (h : Stops s) :
    Resolves (expect w) s := by
  induction w generalizing s with
  | nil => exact resolves_ok _ (fun _ => rfl) h
  | cons x w ih =>
    obtain ⟨b, s, rfl⟩ : ∃ b s', s = b :: s' := List.exists_cons_of_ne_nil fun hnil =>
      not_stops_nil (hnil ▸ h)
    by_cases hb : b = x
    · have hs := h.tail (hb ▸ hw x List.mem_cons_self)
      apply (ih (fun y hy => hw y (List.mem_cons_of_mem _ hy)) hs).of_eq
      simp [expect, hb]
    · apply resolves_malformed
      simp [expect, hb]

theorem resolves_expectText (word : String)
    (hw : word.toList.all (fun c => !closes (byte c)) = true) (h : Stops s) :
    Resolves (expectText word) s := by
  apply resolves_expect _ h
  intro b hb
  obtain ⟨c, hc, rfl⟩ := List.mem_map.mp hb
  simpa using List.all_eq_true.mp hw c hc

/-- A value that is passed over and is neither a container nor a string. -/
theorem resolves_skipScalar (h : Stops s) (b : UInt8) :
    Resolves (fun s => (skipScalar b s).map fun r => ((), r)) s := by
  have hrest {γ : Type} {f : List UInt8 → Except Fault (γ × List UInt8)} (hf : Resolves f s)
      (heq : ∀ s, skipScalar b s = (f s).map Prod.snd) :
      Resolves (fun s => (skipScalar b s).map fun r => ((), r)) s := by
    apply (hf.bind (g := fun _ r => .ok ((), r)) fun _ r hr =>
      resolves_ok _ (fun _ => rfl) hr).of_eq
    intro t
    rw [heq]
    cases f (s ++ t) with
    | error e => rfl
    | ok p => rfl
  by_cases hn : b = byte 'n'
  · exact hrest (resolves_expectText "null" (by decide) h) fun s => by rw [skipScalar, if_pos hn]
  by_cases ht : b = byte 't'
  · exact hrest (resolves_expectText "true" (by decide) h) fun s => by
      rw [skipScalar, if_neg hn, if_pos ht]
  by_cases hf : b = byte 'f'
  · exact hrest (resolves_expectText "false" (by decide) h) fun s => by
      rw [skipScalar, if_neg hn, if_neg ht, if_pos hf]
  by_cases hd : b = byte '-' ∨ isDigit b = true
  · apply hrest (resolves_number h)
    intro s
    simp [skipScalar, hn, ht, hf, hd]
  · apply resolves_malformed
    intro t
    simp [skipScalar, hn, ht, hf, hd, Except.map]

/-! ### Strings -/

/-- The inside of a string that has not been closed. -/
inductive StringPart : List UInt8 → Prop
  | nil : StringPart []
  | plain {b : UInt8} {s : List UInt8} (hq : b ≠ byte '"') (hb : b ≠ byte '\\')
      (hs : StringPart s) :
      StringPart (b :: s)
  | backslash : StringPart [byte '\\']
  | escape {e : UInt8} {s : List UInt8} (hs : StringPart s) : StringPart (byte '\\' :: e :: s)

theorem StringPart.quiet (h : StringPart s) {b : Boundary} (hb : b.Quoted) : b.Quiet s := by
  induction h generalizing b with
  | nil => trivial
  | plain hq hs _ ih =>
    have hstep := Boundary.step_quoted hb hq hs
    rw [Boundary.Quiet, hstep]
    exact ⟨rfl, ih (hb.past 1)⟩
  | backslash => exact (Boundary.quiet_append.mp (Boundary.passes_escape hb 0).quiet).1
  | @escape e s _ ih =>
    have hp := Boundary.passes_escape hb e
    apply Boundary.quiet_append (s := [byte '\\', e]).mpr
    rw [hp.after_eq]
    exact ⟨hp.quiet, ih (hb.past 2)⟩

/-- Hexadecimal digits stand in a string as themselves. -/
theorem StringPart.hex {x : List UInt8} (hx : ∀ b ∈ x, (hexValue b).isSome) (hs : StringPart s) :
    StringPart (x ++ s) := by
  induction x with
  | nil => exact hs
  | cons b x ih =>
    obtain ⟨hq, hb⟩ := Boundary.hexValue_quoted (hx b List.mem_cons_self)
    exact .plain hq hb (ih fun y hy => hx y (List.mem_cons_of_mem _ hy))

/-- Bytes that end within a Unicode escape, `k` short of four behind its mark, with one that is no
digit among them. -/
def BrokenEscape (k : Nat) (s : List UInt8) : Prop :=
  0 < k ∧ ∃ u x, s = u ++ byte '\\' :: byte 'u' :: x ∧ x.length + k = 4 ∧
    ∃ b ∈ x, hexValue b = none

theorem BrokenEscape.behind {k : Nat} (h : BrokenEscape k s) (w : List UInt8) :
    BrokenEscape k (w ++ s) := by
  obtain ⟨hk, u, x, rfl, hx⟩ := h
  exact ⟨hk, w ++ u, x, (List.append_assoc w u _).symm, hx⟩

/-- The fault of a scanner that wants `k` bytes before it looks at any of them, and finds them
wrong then. -/
def shortOf (k : Nat) (t : List UInt8) : Fault := if t.length < k then .incomplete else .malformed

theorem StringPart.unicode {a b c d : UInt8} (h : (hexFour a b c d).isSome) (hs : StringPart s) :
    StringPart (byte '\\' :: byte 'u' :: a :: b :: c :: d :: s) := by
  obtain ⟨ha, hb, hc, hd⟩ := Boundary.hexFour_isSome h
  exact .escape (.hex (x := [a, b, c, d]) (by simp [ha, hb, hc, hd]) hs)

/-- Four bytes the first of which are those of a broken escape are no hexadecimal number. -/
theorem hexFour_broken {x t : List UInt8} (hx : x.length < 4) (hbad : ∃ b ∈ x, hexValue b = none)
    {a b c d : UInt8} (h : x ++ t = a :: b :: c :: d :: s) : hexFour a b c d = none := by
  obtain ⟨y, hy, hnone⟩ := hbad
  have hmem : y ∈ [a, b, c, d] := by
    have hpre : x <+: [a, b, c, d] := by
      apply List.prefix_of_prefix_length_le ⟨t, h⟩ ⟨s, rfl⟩
      simp only [List.length_cons, List.length_nil]
      omega
    exact hpre.subset hy
  rw [← Option.not_isSome_iff_eq_none]
  intro hsome
  obtain ⟨ha, hb, hc, hd⟩ := Boundary.hexFour_isSome hsome
  have hall : ∀ z ∈ [a, b, c, d], (hexValue z).isSome := by simp [ha, hb, hc, hd]
  have := hall y hmem
  rw [hnone] at this
  simp at this

/-- How a scanner of strings fails: for good, or within the string, or within a broken escape. -/
inductive StringFails (f : List UInt8 → Except Fault α) (s : List UInt8) : Prop
  | malformed (h : ∀ t, f (s ++ t) = .error .malformed)
  | part (h : f s = .error .incomplete) (hs : StringPart s)
  | broken (k : Nat) (hs : BrokenEscape k s) (more : ∀ t, f (s ++ t) = .error (shortOf k t))

theorem StringFails.behind {f g : List UInt8 → Except Fault α} (h : StringFails g s)
    {w : List UInt8} (hw : StringPart s → StringPart (w ++ s)) (hfg : ∀ t, f (w ++ t) = g t) :
    StringFails f (w ++ s) := by
  cases h with
  | malformed h => exact .malformed fun t => by rw [List.append_assoc, hfg, h]
  | part h hs => exact .part (by rw [hfg, h]) (hw hs)
  | broken k hs more => exact .broken k (hs.behind w) fun t => by rw [List.append_assoc, hfg, more]

/-- A scanner that wants four more bytes behind the mark of an escape. -/
theorem stringFails_unicode {f : List UInt8 → Except Fault α} {w x : List UInt8}
    (hshort : ∀ x : List UInt8, x.length < 4 →
      f (w ++ byte '\\' :: byte 'u' :: x) = .error .incomplete)
    (hnone : ∀ a b c d s, hexFour a b c d = none →
      f (w ++ byte '\\' :: byte 'u' :: a :: b :: c :: d :: s) = .error .malformed)
    (hw : ∀ s, StringPart s → StringPart (w ++ s)) (hx : x.length < 4) :
    StringFails f (w ++ byte '\\' :: byte 'u' :: x) := by
  by_cases hbad : ∃ b ∈ x, hexValue b = none
  · refine .broken (4 - x.length) ⟨by omega, w, x, rfl, by omega, hbad⟩ fun t => ?_
    rw [List.append_assoc, List.cons_append, List.cons_append]
    by_cases ht : t.length < 4 - x.length
    · rw [shortOf, if_pos ht]
      apply hshort
      rw [List.length_append]
      omega
    · rw [shortOf, if_neg ht]
      match hxt : x ++ t with
      | a :: b :: c :: d :: s => exact hnone a b c d s (hexFour_broken hx hbad hxt)
      | [] | [_] | [_, _] | [_, _, _] =>
        have hlen := congrArg List.length hxt
        simp only [List.length_append, List.length_cons, List.length_nil] at hlen
        omega
  · refine .part (hshort x hx) (hw _ (.escape ?_))
    have hpart := StringPart.hex (x := x) (s := []) (fun b hb => ?_) .nil
    · rwa [List.append_nil] at hpart
    · rw [Option.isSome_iff_ne_none]
      exact fun hnone => hbad ⟨b, hb, hnone⟩

theorem length_lt_four {x : List UInt8} (h : ∀ a b c d s, x = a :: b :: c :: d :: s → False) :
    x.length < 4 := by
  match x with
  | [] | [_] | [_, _] | [_, _, _] => simp
  | a :: b :: c :: d :: s => exact (h a b c d s rfl).elim

theorem stringBytes_short (done : List UInt8) {x : List UInt8} (hx : x.length < 4) :
    stringBytes done (byte '\\' :: byte 'u' :: x) = .error .incomplete := by
  match x with
  | [] | [_] | [_, _] | [_, _, _] => rfl
  | a :: b :: c :: d :: s =>
    simp only [List.length_cons] at hx
    omega

theorem stringBytes_notHex (done : List UInt8) {a b c d : UInt8} (h : hexFour a b c d = none)
    (s : List UInt8) :
    stringBytes done (byte '\\' :: byte 'u' :: a :: b :: c :: d :: s) = .error .malformed := by
  rw [stringBytes.eq_def]
  simp [show byte '\\' ≠ byte '"' by decide, show ¬ byte '\\' < 0x20 by decide, h]

/-- Behind a high surrogate a string goes on with a mark and four more digits. -/
theorem stringBytes_high {a b c d : UInt8} {n : Nat} (h : hexFour a b c d = some n)
    (hl : isLowSurrogate n = false) (hh : isHighSurrogate n = true) (done : List UInt8) :
    (∀ x : List UInt8, x.length < 4 →
      stringBytes done (byte '\\' :: byte 'u' :: a :: b :: c :: d :: byte '\\' :: byte 'u' :: x) =
        .error .incomplete) ∧
    ∀ a' b' c' d' s, hexFour a' b' c' d' = none →
      stringBytes done
        (byte '\\' :: byte 'u' :: a :: b :: c :: d :: byte '\\' :: byte 'u' :: a' :: b' ::
          c' :: d' :: s) =
          .error .malformed := by
  have hq : byte '\\' ≠ byte '"' := by decide
  have hc : ¬ byte '\\' < 0x20 := by decide
  constructor
  · intro x hx
    match x with
    | [] | [_] | [_, _] | [_, _, _] =>
      rw [stringBytes.eq_def]
      simp [hq, hc, h, hl, hh]
    | _ :: _ :: _ :: _ :: s =>
      simp only [List.length_cons] at hx
      omega
  · intro a' b' c' d' s hnone
    rw [stringBytes.eq_def]
    simp [hq, hc, h, hl, hh, hnone]

theorem stringBytes_fails {done : List UInt8} {e : Fault} (h : stringBytes done s = .error e) :
    StringFails (stringBytes done) s := by
  fun_induction stringBytes done s with
  | case1 => exact .part (by rw [stringBytes]) .nil
  | case4 done => exact .part rfl .backslash
  | case7 done a b c d n hn hl hh =>
    refine .part ?_ (.unicode (by simp [hn]) .nil)
    rw [stringBytes.eq_def]
    simp [*]
  | case8 done a b c d n hn hl hh =>
    refine .part ?_ (.unicode (by simp [hn]) .backslash)
    rw [stringBytes.eq_def]
    simp [*]
  | case10 done a b c d n hn hl hh a' b' c' d' s m hm hl' _ _ ih =>
    rw [Bool.not_eq_true] at hl
    apply (ih h).behind (w := byte '\\' :: byte 'u' :: a :: b :: c :: d ::
      byte '\\' :: byte 'u' :: a' :: b' :: c' :: [d'])
    · intro hs
      exact .unicode (by simp [hn]) (.unicode (by simp [hm]) hs)
    · exact stringBytes_pair hn hl hh hm hl' done
  | case12 done a b c d n hn hl hh x hx =>
    rw [Bool.not_eq_true] at hl
    obtain ⟨hshort, hnone⟩ := stringBytes_high hn hl hh done
    exact stringFails_unicode (w := byte '\\' :: byte 'u' :: a :: b :: c :: [d]) hshort hnone
      (fun _ hs => .unicode (by simp [hn]) hs) (length_lt_four hx)
  | case15 done a b c d s n hn hl hh _ _ ih =>
    rw [Bool.not_eq_true] at hl hh
    apply (ih h).behind (w := byte '\\' :: byte 'u' :: a :: b :: c :: [d])
    · exact fun hs => .unicode (by simp [hn]) hs
    · exact stringBytes_unicode hn hl hh done
  | case16 done x hx =>
    exact stringFails_unicode (w := []) (fun _ => stringBytes_short done)
      (fun _ _ _ _ s h => stringBytes_notHex done h s) (fun _ => id) (length_lt_four hx)
  | case17 done e s _ x he _ _ ih =>
    apply (ih h).behind (w := byte '\\' :: [e])
    · exact .escape
    · exact stringBytes_escape he done
  | case19 done b s hq hc hb ih =>
    apply (ih h).behind (w := [b])
    · exact .plain hq hb
    · exact stringBytes_plain hq hc hb done
  | _ =>
    first
    | refine .malformed fun t => ?_
      rw [stringBytes.eq_def]
      simp [*]
      done
    | simp at h

theorem skipString_short {x : List UInt8} (hx : x.length < 4) :
    skipString (byte '\\' :: byte 'u' :: x) = .error .incomplete := by
  match x with
  | [] | [_] | [_, _] | [_, _, _] => rfl
  | a :: b :: c :: d :: s =>
    simp only [List.length_cons] at hx
    omega

theorem skipString_notHex {a b c d : UInt8} (h : hexFour a b c d = none) (s : List UInt8) :
    skipString (byte '\\' :: byte 'u' :: a :: b :: c :: d :: s) = .error .malformed := by
  rw [skipString.eq_def]
  simp [show byte '\\' ≠ byte '"' by decide, show ¬ byte '\\' < 0x20 by decide, h]

theorem skipString_fails {e : Fault} (h : skipString s = .error e) : StringFails skipString s := by
  fun_induction skipString s with
  | case1 => exact .part (by rw [skipString]) .nil
  | case4 => exact .part rfl .backslash
  | case6 a b c d s n hn _ _ ih =>
    apply (ih h).behind (w := byte '\\' :: byte 'u' :: a :: b :: c :: [d])
    · exact fun hs => .unicode (by simp [hn]) hs
    · intro t
      rw [List.cons_append, skipString.eq_def]
      simp [*]
  | case7 x hx =>
    exact stringFails_unicode (w := []) (fun _ => skipString_short)
      (fun _ _ _ _ s h => skipString_notHex h s) (fun _ => id) (length_lt_four hx)
  | case8 e s hu x he _ _ ih =>
    apply (ih h).behind (w := byte '\\' :: [e])
    · exact .escape
    · intro t
      rw [List.cons_append, skipString.eq_def]
      simp [*]
  | case10 b s hq hc hb ih =>
    apply (ih h).behind (w := [b])
    · exact .plain hq hb
    · intro t
      rw [List.cons_append, skipString.eq_def]
      simp [*]
  | _ =>
    first
    | refine .malformed fun t => ?_
      rw [List.cons_append, skipString.eq_def]
      simp [*]
      done
    | simp at h

/-- A text fails where its bytes do, or for good when they are no text. -/
theorem stringText_fails {e : Fault} (h : stringText s = .error e) : StringFails stringText s := by
  cases hs : stringBytes [] s with
  | error e' =>
    cases stringBytes_fails hs with
    | malformed h => exact .malformed fun t => by rw [stringText, h]
    | part h hs => exact .part (by rw [stringText, h]) hs
    | broken k hs more => exact .broken k hs fun t => by rw [stringText, more]
  | ok p =>
    obtain ⟨k, -, rfl, hk⟩ := stringBytes_spells hs
    rw [stringText, hs] at h
    cases hd : Utf8.decode p.1 with
    | error f =>
      refine .malformed fun t => ?_
      rw [List.append_assoc, stringText, hk]
      simp only [hd]
    | ok chars => simp [hd] at h

end MacroBridge.Json
