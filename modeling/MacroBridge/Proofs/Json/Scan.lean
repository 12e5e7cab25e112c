import MacroBridge.Proofs.Json.Grammar
import Mathlib.Tactic.Common

/-!
The scanners below the decoders: what they take is a text of the grammar, and bytes that arrive
behind it do not change what they take. A number has no last byte of its own, so for it some byte
must already stand behind.
-/
namespace MacroBridge.Json

theorem bind_eq_ok {ε α β : Type} {x : Except ε α} {f : α → Except ε β} {b : β} :
    (x >>= f) = .ok b ↔ ∃ a, x = .ok a ∧ f a = .ok b := by
  cases x <;> simp [bind, Except.bind]

theorem expect_eq_ok_iff {w s r : List UInt8} {u : Unit} :
    expect w s = .ok (u, r) ↔ s = w ++ r := by
  induction w generalizing s with
  | nil => simp [expect]
  | cons b w ih =>
    cases s with
    | nil => simp [expect]
    | cons x s =>
      by_cases hx : x = b
      · simp [expect, hx, ih]
      · simp [expect, hx]

theorem expectText_eq_ok_iff {word : String} {s r : List UInt8} {u : Unit} :
    expectText word s = .ok (u, r) ↔ s = word.toList.map byte ++ r := expect_eq_ok_iff

/-! ### Numbers -/

theorem digits_spells (n : Nat) (s : List UInt8) :
    ∃ ds, (∀ b ∈ ds, isDigit b = true) ∧ s = ds ++ (digits n s).2 := by
  induction s generalizing n with
  | nil => exact ⟨[], by simp, rfl⟩
  | cons b s ih =>
    by_cases hb : isDigit b = true
    · obtain ⟨ds, hds, hs⟩ := ih (n * 10 + (b - byte '0').toNat)
      refine ⟨b :: ds, by simpa [hb] using hds, ?_⟩
      simp only [digits, hb, ↓reduceIte, List.cons_append]
      rw [← hs]
    · exact ⟨[], by simp, by simp [digits, hb]⟩

theorem digits_append {n : Nat} {s : List UInt8} (h : (digits n s).2 ≠ []) (t : List UInt8) :
    digits n (s ++ t) = ((digits n s).1, (digits n s).2 ++ t) := by
  induction s generalizing n with
  | nil => simp [digits] at h
  | cons b s ih =>
    by_cases hb : isDigit b = true
    · simp only [digits, hb, ↓reduceIte, List.cons_append] at h ⊢
      exact ih h
    · simp [digits, hb]

theorem someDigits_spells {s r : List UInt8} {u : Unit} (h : someDigits s = .ok (u, r)) :
    ∃ ds, Digits ds ∧ s = ds ++ r := by
  cases s with
  | nil => simp [someDigits] at h
  | cons b s =>
    by_cases hb : isDigit b = true
    · obtain ⟨ds, hds, hs⟩ := digits_spells 0 s
      simp only [someDigits, hb, ↓reduceIte, Except.ok.injEq, Prod.mk.injEq, true_and] at h
      refine ⟨b :: ds, ⟨by simp, by simpa [hb] using hds⟩, ?_⟩
      rw [← h, List.cons_append, ← hs]
    · simp [someDigits, hb] at h

theorem someDigits_append {s r : List UInt8} {u : Unit}
    (h : someDigits s = .ok (u, r)) (hr : r ≠ []) (t : List UInt8) :
    someDigits (s ++ t) = .ok (u, r ++ t) := by
  cases s with
  | nil => simp [someDigits] at h
  | cons b s =>
    by_cases hb : isDigit b = true
    · simp only [someDigits, hb, ↓reduceIte, Except.ok.injEq, Prod.mk.injEq, true_and] at h
      rw [← h] at hr ⊢
      simp [someDigits, hb, digits_append hr]
    · simp [someDigits, hb] at h

theorem exponent_spells {n m : Number} {s r : List UInt8} (h : exponent n s = .ok (m, r)) :
    ∃ e, Numeral.Exponent e ∧ s = e ++ r := by
  cases s with
  | nil =>
    simp only [exponent, Except.ok.injEq, Prod.mk.injEq] at h
    exact ⟨[], .none, by simp [← h.2]⟩
  | cons b s =>
    by_cases he : b = byte 'e' ∨ b = byte 'E'
    · simp only [exponent, decide_eq_true_eq, Bool.or_eq_true, he, ↓reduceIte] at h
      cases hd : exponentDigits s with
      | error => simp [hd] at h
      | ok p =>
        simp only [hd, Except.ok.injEq, Prod.mk.injEq] at h
        cases s with
        | nil => simp [exponentDigits] at hd
        | cons x s =>
          by_cases hx : x = byte '+' ∨ x = byte '-'
          · simp only [exponentDigits, decide_eq_true_eq, Bool.or_eq_true, hx, ↓reduceIte] at hd
            obtain ⟨ds, hds, rfl⟩ := someDigits_spells hd
            exact ⟨b :: x :: ds, .signed he hx hds, by simp [h.2]⟩
          · simp only [exponentDigits, decide_eq_true_eq, Bool.or_eq_true, hx, ↓reduceIte] at hd
            obtain ⟨ds, hds, hs⟩ := someDigits_spells hd
            exact ⟨b :: ds, .plain he hds, by simp [hs, h.2]⟩
    · simp only [exponent, decide_eq_true_eq, Bool.or_eq_true, he, ↓reduceIte, Except.ok.injEq,
        Prod.mk.injEq] at h
      exact ⟨[], .none, by simp [← h.2]⟩

theorem exponent_append {n m : Number} {s r : List UInt8}
    (h : exponent n s = .ok (m, r)) (hr : r ≠ []) (t : List UInt8) :
    exponent n (s ++ t) = .ok (m, r ++ t) := by
  cases s with
  | nil =>
    simp only [exponent, Except.ok.injEq, Prod.mk.injEq] at h
    exact absurd h.2.symm hr
  | cons b s =>
    by_cases he : b = byte 'e' ∨ b = byte 'E'
    · simp only [exponent, decide_eq_true_eq, Bool.or_eq_true, he, ↓reduceIte,
        List.cons_append] at h ⊢
      cases hd : exponentDigits s with
      | error => simp [hd] at h
      | ok p =>
        simp only [hd, Except.ok.injEq, Prod.mk.injEq] at h
        have hp : exponentDigits (s ++ t) = .ok (p.1, p.2 ++ t) := by
          cases s with
          | nil => simp [exponentDigits] at hd
          | cons x s =>
            by_cases hx : x = byte '+' ∨ x = byte '-' <;>
              simp only [exponentDigits, decide_eq_true_eq, Bool.or_eq_true, hx, ↓reduceIte,
                List.cons_append] at hd ⊢
            · exact someDigits_append hd (by simpa [h.2] using hr) t
            · exact someDigits_append hd (by simpa [h.2] using hr) t
        simp [hp, h]
    · simp only [exponent, decide_eq_true_eq, Bool.or_eq_true, he, ↓reduceIte, Except.ok.injEq,
        Prod.mk.injEq, List.cons_append] at h ⊢
      exact ⟨h.1, by simp [← h.2]⟩

theorem fraction_spells {n m : Number} {s r : List UInt8} (h : fraction n s = .ok (m, r)) :
    ∃ f e, Numeral.Fraction f ∧ Numeral.Exponent e ∧ s = f ++ e ++ r := by
  cases s with
  | nil =>
    simp only [fraction, Except.ok.injEq, Prod.mk.injEq] at h
    exact ⟨[], [], .none, .none, by simp [← h.2]⟩
  | cons b s =>
    by_cases hb : b = byte '.'
    · simp only [fraction, hb, ↓reduceIte] at h
      cases hd : someDigits s with
      | error => simp [hd] at h
      | ok p =>
        simp only [hd] at h
        obtain ⟨ds, hds, rfl⟩ := someDigits_spells hd
        obtain ⟨e, he, hp⟩ := exponent_spells h
        exact ⟨byte '.' :: ds, e, .some hds, he, by simp [hb, hp]⟩
    · simp only [fraction, hb, ↓reduceIte] at h
      obtain ⟨e, he, hs⟩ := exponent_spells h
      exact ⟨[], e, .none, he, by simp [hs]⟩

theorem fraction_append {n m : Number} {s r : List UInt8}
    (h : fraction n s = .ok (m, r)) (hr : r ≠ []) (t : List UInt8) :
    fraction n (s ++ t) = .ok (m, r ++ t) := by
  cases s with
  | nil =>
    simp only [fraction, Except.ok.injEq, Prod.mk.injEq] at h
    exact absurd h.2.symm hr
  | cons b s =>
    by_cases hb : b = byte '.'
    · simp only [fraction, hb, ↓reduceIte, List.cons_append] at h ⊢
      cases hd : someDigits s with
      | error => simp [hd] at h
      | ok p =>
        simp only [hd] at h
        -- the exponent would take nothing from an empty rest
        have hp : p.2 ≠ [] := by
          intro hn
          simp only [hn, exponent, Except.ok.injEq, Prod.mk.injEq] at h
          exact hr h.2.symm
        simp [someDigits_append hd hp, exponent_append h hr]
    · simp only [fraction, hb, ↓reduceIte, List.cons_append] at h ⊢
      exact exponent_append h hr t

theorem unsigned_spells {sign : Nat → Number} {m : Number} {s r : List UInt8}
    (h : unsigned sign s = .ok (m, r)) :
    ∃ w f e, Numeral.Whole w ∧ Numeral.Fraction f ∧ Numeral.Exponent e ∧ s = w ++ f ++ e ++ r := by
  cases s with
  | nil => simp [unsigned] at h
  | cons b s =>
    by_cases hz : b = byte '0'
    · simp only [unsigned, hz, ↓reduceIte] at h
      split at h
      · simp at h
      · obtain ⟨f, e, hf, he, rfl⟩ := fraction_spells h
        exact ⟨[byte '0'], f, e, .zero, hf, he, by simp [hz]⟩
    · by_cases hb : isDigit b = true
      · simp only [unsigned, hz, hb, ↓reduceIte, digits] at h
        obtain ⟨ds, hds, hs⟩ := digits_spells (0 * 10 + (b - byte '0').toNat) s
        obtain ⟨f, e, hf, he, hr⟩ := fraction_spells h
        exact ⟨b :: ds, f, e, .digits hb hz hds, hf, he, by rw [hs, hr]; simp⟩
      · simp [unsigned, hz, hb] at h

theorem unsigned_append {sign : Nat → Number} {m : Number} {s r : List UInt8}
    (h : unsigned sign s = .ok (m, r)) (hr : r ≠ []) (t : List UInt8) :
    unsigned sign (s ++ t) = .ok (m, r ++ t) := by
  cases s with
  | nil => simp [unsigned] at h
  | cons b s =>
    by_cases hz : b = byte '0'
    · simp only [unsigned, hz, ↓reduceIte, List.cons_append] at h ⊢
      cases s with
      | nil =>
        simp only [List.head?_nil, Option.any_none, Bool.false_eq_true, ↓reduceIte, fraction,
          Except.ok.injEq, Prod.mk.injEq] at h
        exact absurd h.2.symm hr
      | cons x s =>
        split at h
        · simp at h
        · next hx =>
          have := fraction_append h hr t
          simp_all
    · by_cases hb : isDigit b = true
      · simp only [unsigned, hz, hb, ↓reduceIte, digits, List.cons_append] at h ⊢
        have hd : (digits (0 * 10 + (b - byte '0').toNat) s).2 ≠ [] := by
          intro hn
          simp only [hn, fraction, Except.ok.injEq, Prod.mk.injEq] at h
          exact hr h.2.symm
        rw [digits_append hd]
        exact fraction_append h hr t
      · simp [unsigned, hz, hb] at h

theorem number_spells {n : Number} {s r : List UInt8} (h : number s = .ok (n, r)) :
    ∃ w, Scalar w ∧ s = w ++ r := by
  cases s with
  | nil => simp [number] at h
  | cons b s =>
    by_cases hb : b = byte '-'
    · simp only [number, hb, ↓reduceIte] at h
      obtain ⟨w, f, e, hw, hf, he, rfl⟩ := unsigned_spells h
      exact ⟨_, .negative hw hf he, by simp [hb]⟩
    · simp only [number, hb, ↓reduceIte] at h
      obtain ⟨w, f, e, hw, hf, he, hs⟩ := unsigned_spells h
      exact ⟨_, .natural hw hf he, hs⟩

theorem number_append {n : Number} {s r : List UInt8} (h : number s = .ok (n, r)) (hr : r ≠ [])
    (t : List UInt8) : number (s ++ t) = .ok (n, r ++ t) := by
  cases s with
  | nil => simp [number] at h
  | cons b s =>
    by_cases hb : b = byte '-' <;> simp only [number, hb, ↓reduceIte, List.cons_append] at h ⊢
    · exact unsigned_append h hr t
    · exact unsigned_append h hr t

/-! ### Strings -/

/-! What one item of a string adds to the bytes read. -/

theorem stringBytes_quote (done s : List UInt8) :
    stringBytes done (byte '"' :: s) = .ok (done.reverse, s) := by
  rw [stringBytes.eq_def]
  simp

theorem stringBytes_plain {b : UInt8} (hq : b ≠ byte '"') (hc : ¬ b < 0x20) (hb : b ≠ byte '\\')
    (done s : List UInt8) : stringBytes done (b :: s) = stringBytes (b :: done) s := by
  rw [stringBytes.eq_def]
  simp [hq, hc, hb]

theorem stringBytes_escape {e x : UInt8} (he : simpleEscape e = some x) (done s : List UInt8) :
    stringBytes done (byte '\\' :: e :: s) = stringBytes (x :: done) s := by
  have hu : e ≠ byte 'u' := by
    rintro rfl
    exact absurd he (by rw [show simpleEscape (byte 'u') = none by decide]; simp)
  rw [stringBytes.eq_def]
  simp [show byte '\\' ≠ byte '"' by decide, show ¬ byte '\\' < 0x20 by decide, hu, he]

theorem stringBytes_unicode {a b c d : UInt8} {n : Nat} (h : hexFour a b c d = some n)
    (hl : isLowSurrogate n = false) (hh : isHighSurrogate n = false) (done s : List UInt8) :
    stringBytes done (byte '\\' :: byte 'u' :: a :: b :: c :: d :: s) =
      stringBytes (pushCode n done) s := by
  rw [stringBytes.eq_def]
  simp [show byte '\\' ≠ byte '"' by decide, show ¬ byte '\\' < 0x20 by decide, h, hl, hh]

theorem stringBytes_pair {a b c d a' b' c' d' : UInt8} {n m : Nat} (h : hexFour a b c d = some n)
    (hl : isLowSurrogate n = false) (hh : isHighSurrogate n = true)
    (h' : hexFour a' b' c' d' = some m) (hl' : isLowSurrogate m = true) (done s : List UInt8) :
    stringBytes done (byte '\\' :: byte 'u' :: a :: b :: c :: d ::
        byte '\\' :: byte 'u' :: a' :: b' :: c' :: d' :: s) =
      stringBytes (pushCode (0x10000 + (n - 0xD800) * 0x400 + (m - 0xDC00)) done) s := by
  rw [stringBytes.eq_def]
  simp [show byte '\\' ≠ byte '"' by decide, show ¬ byte '\\' < 0x20 by decide, h, hl, hh, h', hl']

/-- A string that is read ends at its closing quote, so what follows does not matter. -/
theorem stringBytes_spells {done s bytes r : List UInt8}
    (h : stringBytes done s = .ok (bytes, r)) :
    ∃ k, StringTail k ∧ s = k ++ r ∧ ∀ t, stringBytes done (k ++ t) = .ok (bytes, t) := by
  fun_induction stringBytes done s with
  | case2 done s =>
    simp only [Except.ok.injEq, Prod.mk.injEq] at h
    refine ⟨[byte '"'], .close, by simp [h.2], fun t => ?_⟩
    rw [List.singleton_append, stringBytes_quote, h.1]
  | case10 done a b c d n hn hl hh a' b' c' d' s m hm hl' _ _ ih =>
    obtain ⟨k, hk, rfl, ht⟩ := ih h
    rw [Bool.not_eq_true] at hl
    refine ⟨_, .unicode (by simp [hn]) (.unicode (by simp [hm]) hk), rfl, fun t => ?_⟩
    exact (stringBytes_pair hn hl hh hm hl' done (k ++ t)).trans (ht t)
  | case15 done a b c d s n hn hl hh _ _ ih =>
    obtain ⟨k, hk, rfl, ht⟩ := ih h
    rw [Bool.not_eq_true] at hl hh
    refine ⟨_, .unicode (by simp [hn]) hk, rfl, fun t => ?_⟩
    exact (stringBytes_unicode hn hl hh done (k ++ t)).trans (ht t)
  | case17 done e s _ x he _ _ ih =>
    obtain ⟨k, hk, rfl, ht⟩ := ih h
    refine ⟨_, .escape (by simp [he]) hk, rfl, fun t => ?_⟩
    exact (stringBytes_escape he done (k ++ t)).trans (ht t)
  | case19 done b s hq hc hb ih =>
    obtain ⟨k, hk, rfl, ht⟩ := ih h
    refine ⟨_, .plain hq hc hb hk, rfl, fun t => ?_⟩
    exact (stringBytes_plain hq hc hb done (k ++ t)).trans (ht t)
  | _ => simp at h

theorem stringText_spells {s r : List UInt8} {text : String} (h : stringText s = .ok (text, r)) :
    ∃ k, StringTail k ∧ s = k ++ r ∧ ∀ t, stringText (k ++ t) = .ok (text, t) := by
  unfold stringText at h
  cases hs : stringBytes [] s with
  | error e => simp [hs] at h
  | ok p =>
    obtain ⟨k, hk, rfl, ht⟩ := stringBytes_spells hs
    cases hd : Utf8.decode p.1 with
    | error e => simp [hs, hd] at h
    | ok chars =>
      simp only [hs, hd, Except.ok.injEq, Prod.mk.injEq] at h
      exact ⟨k, hk, by rw [h.2], fun t => by simp [stringText, ht, hd, h.1]⟩

theorem skipString_append {k : List UInt8} (hk : StringTail k) (t : List UInt8) :
    skipString (k ++ t) = .ok t := by
  have hq : byte '\\' ≠ byte '"' := by decide
  have hc : ¬ byte '\\' < 0x20 := by decide
  induction hk with
  | close => rw [skipString.eq_def]; simp
  | plain hq hc hb _ ih => rw [skipString.eq_def]; simp [hq, hc, hb, ih]
  | @escape e s he _ ih =>
    have hu : e ≠ byte 'u' := by
      rintro rfl
      exact absurd he (by decide)
    obtain ⟨x, hx⟩ := Option.isSome_iff_exists.mp he
    rw [skipString.eq_def]
    simp [hq, hc, hu, hx, ih]
  | unicode h _ ih =>
    obtain ⟨n, hn⟩ := Option.isSome_iff_exists.mp h
    rw [skipString.eq_def]
    simp [hq, hc, hn, ih]

theorem skipString_spells {s r : List UInt8} (h : skipString s = .ok r) :
    ∃ k, StringTail k ∧ s = k ++ r := by
  fun_induction skipString s with
  | case2 s =>
    simp only [Except.ok.injEq] at h
    exact ⟨[byte '"'], .close, by simp [h]⟩
  | case6 a b c d s n hn _ _ ih =>
    obtain ⟨k, hk, rfl⟩ := ih h
    exact ⟨_, .unicode (by simp [hn]) hk, rfl⟩
  | case8 e s _ x he _ _ ih =>
    obtain ⟨k, hk, rfl⟩ := ih h
    exact ⟨_, .escape (by simp [he]) hk, rfl⟩
  | case10 b s hq hc hb ih =>
    obtain ⟨k, hk, rfl⟩ := ih h
    exact ⟨_, .plain hq hc hb hk, rfl⟩
  | _ => simp at h

/-! ### Values that are passed over -/

theorem map_snd_eq_ok_iff {α : Type} {x : Except Fault (α × List UInt8)} {r : List UInt8} :
    x.map Prod.snd = .ok r ↔ ∃ a, x = .ok (a, r) := by
  cases x with
  | error e => simp [Except.map]
  | ok p => simp [Except.map, Prod.ext_iff]

theorem skipScalar_spells {b : UInt8} {s r : List UInt8} (h : skipScalar b s = .ok r) :
    ∃ w, Scalar w ∧ s = w ++ r := by
  unfold skipScalar at h
  dsimp only at h
  split_ifs at h with hn ht hf hd <;> obtain ⟨a, ha⟩ := map_snd_eq_ok_iff.mp h
  · exact ⟨_, .null, expectText_eq_ok_iff.mp ha⟩
  · exact ⟨_, .true, expectText_eq_ok_iff.mp ha⟩
  · exact ⟨_, .false, expectText_eq_ok_iff.mp ha⟩
  · exact number_spells ha

theorem skipScalar_append {b : UInt8} {s r : List UInt8} (h : skipScalar b s = .ok r) (hr : r ≠ [])
    (t : List UInt8) : skipScalar b (s ++ t) = .ok (r ++ t) := by
  unfold skipScalar at h ⊢
  dsimp only at h ⊢
  split_ifs at h ⊢ with hn ht hf hd <;> obtain ⟨a, ha⟩ := map_snd_eq_ok_iff.mp h
  · rw [expectText_eq_ok_iff] at ha
    exact map_snd_eq_ok_iff.mpr ⟨(), expectText_eq_ok_iff.mpr (by simp [ha])⟩
  · rw [expectText_eq_ok_iff] at ha
    exact map_snd_eq_ok_iff.mpr ⟨(), expectText_eq_ok_iff.mpr (by simp [ha])⟩
  · rw [expectText_eq_ok_iff] at ha
    exact map_snd_eq_ok_iff.mpr ⟨(), expectText_eq_ok_iff.mpr (by simp [ha])⟩
  · exact map_snd_eq_ok_iff.mpr ⟨a, number_append ha hr t⟩

end MacroBridge.Json
