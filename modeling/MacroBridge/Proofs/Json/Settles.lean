import MacroBridge.Proofs.Json.Ends
import MacroBridge.Proofs.Json.Skip

/-!
What a decoder makes of bytes that a closing bracket ends, and of these with more behind them. It
comes to the same value or the same fault, or it waits within a value that the boundary scan is
within too. The exception is a broken Unicode escape with fewer than four bytes behind its mark:
the decoder waits there, and no more bytes mend it.
-/
namespace MacroBridge.Json
open Boundary (Harmless Outside Inside)

variable {α β : Type} {P P' : List UInt8 → Prop} {K K' : Boundary → Prop}
  {s r w : List UInt8} {b : UInt8}

/-- A decoder or a loop of one: `n` items for each loop of the values that it holds, `m` for the
loop itself. -/
abbrev Run (α : Type) := (n m : Nat) → List UInt8 → Except Fault (α × List UInt8)

variable {run : Run α} {run' : Run β}

/-- Limits on items that the bytes do not reach. -/
def Ample (n m : Nat) (s : List UInt8) : Prop := s.length < n ∧ s.length < m

theorem Ample.of_append {n m : Nat} (h : Ample n m (w ++ s)) : Ample n m s := by
  simp only [Ample, List.length_append] at h ⊢
  omega

/-- The four ways to end on `s`. Of a value, `P` holds of the bytes taken; where the decoder waits,
the boundary scan stops nowhere in `s` from any state of `K`. -/
inductive Settles (P : List UInt8 → Prop) (K : Boundary → Prop) (run : Run α) (s : List UInt8) :
    Prop
  | value (a : α) (w r : List UInt8) (hs : s = w ++ r) (hw : P w)
      (more : ∀ t n m, Ample n m (s ++ t) → run n m (s ++ t) = .ok (a, r ++ t))
  | malformed (more : ∀ t n m, Ample n m (s ++ t) → run n m (s ++ t) = .error .malformed)
  | waiting (h : ∀ n m, Ample n m s → run n m s = .error .incomplete)
      (quiet : ∀ b, K b → b.Quiet s)
  | broken (k : Nat) (hs : BrokenEscape k s)
      (more : ∀ t n m, Ample n m (s ++ t) → run n m (s ++ t) = .error (shortOf k t))

/-- A run that comes to `r` with nothing decided is settled where one from `r` on is. -/
theorem Settles.behind_map (h : Settles P' K' run' r) (f : β → α) (hP : ∀ v, P' v → P (w ++ v))
    (hK : ∀ b, K b → b.Quiet w ∧ K' (b.after w))
    (hrun : ∀ t n m, Ample n m (w ++ (r ++ t)) → ∃ n' m', Ample n' m' (r ++ t) ∧
      run n m (w ++ (r ++ t)) = (run' n' m' (r ++ t)).map fun p => (f p.1, p.2)) :
        Settles P K run (w ++ r) := by
  have hnil (n m : Nat) (hn : Ample n m (w ++ r)) : ∃ n' m', Ample n' m' r ∧
      run n m (w ++ r) = (run' n' m' r).map fun p => (f p.1, p.2) := by
    have := hrun [] n m
    rw [List.append_nil] at this
    exact this hn
  cases h with
  | value a v r hs hv more =>
    refine .value (f a) (w ++ v) r (by rw [hs, List.append_assoc]) (hP v hv) fun t n m hn => ?_
    rw [List.append_assoc] at hn ⊢
    obtain ⟨n', m', hn', hr⟩ := hrun t n m hn
    rw [hr, more t n' m' hn']
    rfl
  | malformed more =>
    refine .malformed fun t n m hn => ?_
    rw [List.append_assoc] at hn ⊢
    obtain ⟨n', m', hn', hr⟩ := hrun t n m hn
    rw [hr, more t n' m' hn']
    rfl
  | waiting h quiet =>
    refine .waiting (fun n m hn => ?_) fun b hb => ?_
    · obtain ⟨n', m', hn', hr⟩ := hnil n m hn
      rw [hr, h n' m' hn']
      rfl
    · obtain ⟨hq, hb'⟩ := hK b hb
      exact Boundary.quiet_append.mpr ⟨hq, quiet _ hb'⟩
  | broken k hs more =>
    refine .broken k (hs.behind w) fun t n m hn => ?_
    rw [List.append_assoc] at hn ⊢
    obtain ⟨n', m', hn', hr⟩ := hrun t n m hn
    rw [hr, more t n' m' hn']
    rfl

theorem Settles.behind {run' : Run α} (h : Settles P' K' run' r) (hP : ∀ v, P' v → P (w ++ v))
    (hK : ∀ b, K b → b.Quiet w ∧ K' (b.after w))
    (hrun : ∀ t n m, Ample n m (w ++ (r ++ t)) → ∃ n' m', Ample n' m' (r ++ t) ∧
      run n m (w ++ (r ++ t)) = run' n' m' (r ++ t)) : Settles P K run (w ++ r) := by
  apply h.behind_map id hP hK
  intro t n m hn
  obtain ⟨n', m', hn', hr⟩ := hrun t n m hn
  refine ⟨n', m', hn', ?_⟩
  rw [hr]
  cases run' n' m' (r ++ t) with
  | error e => rfl
  | ok p => rfl

/-- A run that begins with another one fails where that fails. -/
theorem Settles.bind (h : Settles P' K' run' s) (hK : ∀ b, K b → K' b)
    (herr : ∀ t n m e, Ample n m (s ++ t) → run' n m (s ++ t) = .error e →
      run n m (s ++ t) = .error e)
    (hok : ∀ a w r, s = w ++ r → P' w →
      (∀ t n m, Ample n m (s ++ t) → run' n m (s ++ t) = .ok (a, r ++ t)) →
      Settles P K run s) : Settles P K run s := by
  have hnil (n m : Nat) (e : Fault) (hn : Ample n m s) (h : run' n m s = .error e) :
      run n m s = .error e := by
    have := herr [] n m e
    rw [List.append_nil] at this
    exact this hn h
  cases h with
  | value a w r hs hw more => exact hok a w r hs hw more
  | malformed more => exact .malformed fun t n m hn => herr t n m _ hn (more t n m hn)
  | waiting h quiet =>
    exact .waiting (fun n m hn => hnil n m _ hn (h n m hn)) fun b hb => quiet b (hK b hb)
  | broken k hs more => exact .broken k hs fun t n m hn => herr t n m _ hn (more t n m hn)

theorem Settles.congr {run' : Run α} (h : Settles P K run' s)
    (hrun : ∀ t n m, run n m (s ++ t) = run' n m (s ++ t)) : Settles P K run s := by
  apply h.bind (fun _ hb => hb)
  · intro t n m e _ he
    rw [hrun, he]
  · intro a w r hs hw more
    exact .value a w r hs hw fun t n m hn => by rw [hrun, more t n m hn]

theorem Settles.mono (h : Settles P' K' run s) (hP : ∀ w, P' w → P w) (hK : ∀ b, K b → K' b) :
    Settles P K run s := by
  apply h.bind hK
  · exact fun _ _ _ _ _ => id
  · exact fun a w r hs hw more => .value a w r hs (hP w hw) more

/-- A loop that may take as many items as any other. -/
theorem Settles.diagonal (h : Settles P K run s) : Settles P K (fun n _ => run n n) s :=
  h.behind (w := []) (fun _ hv => hv) (fun _ hb => ⟨trivial, hb⟩) fun _ n _ hn =>
    ⟨n, n, ⟨hn.1, hn.1⟩, rfl⟩

theorem settles_malformed (h : ∀ t n m, run n m (s ++ t) = .error .malformed) :
    Settles P K run s :=
  .malformed fun t n m _ => h t n m

/-- A run that takes nothing and is done. -/
theorem settles_done (a : α) (hP : P []) (h : ∀ t n m, run n m (s ++ t) = .ok (a, s ++ t)) :
    Settles P K run s :=
  .value a [] s rfl hP fun t n m _ => h t n m

/-! ### White space -/

/-- States of the scan that white space does not change but for the number of bytes seen. -/
structure Steadfast (K : Boundary → Prop) : Prop where
  outside {b : Boundary} (h : K b) : b.Outside
  past {b : Boundary} (h : K b) (n : Nat) : K (b.past n)

theorem steadfast_outside : Steadfast Outside := ⟨id, fun h n => h.past n⟩

theorem Steadfast.blank (hK : Steadfast K) {p : List UInt8} (hp : Blank p)
    {b : Boundary} (hb : K b) : b.Quiet p ∧ K (b.after p) := by
  have h := Boundary.passes_blank hp (hK.outside hb)
  rw [h.after_eq]
  exact ⟨h.quiet, hK.past hb _⟩

/-- A run that begins with white space waits within it, and else is settled from the first byte
behind it on. -/
theorem settles_peek (hK : Steadfast K) (hP : ∀ p v, Blank p → P v → P (p ++ v))
    (hskip : ∀ n m t, run n m t = run n m (skipSpace t))
    (hnil : ∀ n m, Ample n m [] → run n m [] = .error .incomplete)
    (h : ∀ p b r, Blank p → isSpace b = false → s = p ++ b :: r → Settles P K run (b :: r)) :
    Settles P K run s := by
  cases hs : skipSpace s with
  | nil =>
    refine .waiting (fun n m hn => ?_) fun b hb => ?_
    · rw [hskip, hs, hnil n m ⟨Nat.zero_lt_of_lt hn.1, Nat.zero_lt_of_lt hn.2⟩]
    · exact (hK.blank (skipSpace_eq_nil_iff.mp hs) hb).1
  | cons b r =>
    obtain ⟨p, hp, hb, rfl⟩ := skipSpace_eq_cons_iff.mp hs
    apply (h p b r hp hb rfl).behind (fun v => hP p v hp) (fun _ => hK.blank hp)
    intro t n m hn
    exact ⟨n, m, hn.of_append, by rw [hskip, skipSpace_blank_append hp, ← hskip]⟩

theorem skipSpace_idem (s : List UInt8) : skipSpace (skipSpace s) = skipSpace s := by
  cases hs : skipSpace s with
  | nil => rfl
  | cons b r =>
    obtain ⟨-, -, hb, -⟩ := skipSpace_eq_cons_iff.mp hs
    exact skipSpace_cons hb r

theorem harmless_behind {p v : List UInt8} (hp : Blank p) (hv : Harmless v) : Harmless (p ++ v) :=
  (Boundary.harmless_blank hp).append hv

theorem harmless_nil : Harmless [] := fun b _ => Boundary.passes_nil b

theorem harmless_enters (h : Harmless w) {b : Boundary} (hb : b.Inside) :
    b.Quiet w ∧ (b.after w).Inside := by
  have hp := h b hb
  rw [hp.after_eq]
  exact ⟨hp.quiet, hb.past _⟩

/-- The bytes of a value: there are some, and a scan within a container passes over them. -/
structure Solid (w : List UInt8) : Prop where
  harmless : Harmless w
  ne_nil : w ≠ []

theorem solid_behind {p v : List UInt8} (hp : Blank p) (hv : Solid v) : Solid (p ++ v) :=
  ⟨harmless_behind hp hv.harmless, List.append_ne_nil_of_right_ne_nil p hv.ne_nil⟩

theorem whole_ne_nil (h : Numeral.Whole w) : w ≠ [] := by
  cases h <;> simp

theorem value_ne_nil (h : IsValue w) : w ≠ [] := by
  cases h with
  | scalar h =>
    cases h with
    | natural hw _ _ => simp [whole_ne_nil hw]
    | _ => simp
  | _ => simp

theorem solid_value (h : IsValue w) : Solid w := ⟨Boundary.spells_scanned h, value_ne_nil h⟩

/-! ### Scanners -/

theorem Resolves.settles {f : List UInt8 → Except Fault (α × List UInt8)} (hf : Resolves f s)
    (hs : ∀ a r, f s = .ok (a, r) → ∃ w, P w ∧ s = w ++ r) : Settles P K (fun _ _ => f) s := by
  have happend := hf.append
  cases h : f s with
  | error e =>
    have he : e = .malformed := by
      cases e with
      | incomplete => exact absurd h hf.decided
      | malformed => rfl
    apply settles_malformed
    intro t _ _
    rw [happend, h, he]
    rfl
  | ok p =>
    obtain ⟨a, r⟩ := p
    obtain ⟨w, hw, hwr⟩ := hs a r h
    refine .value a w r hwr hw fun t _ _ _ => ?_
    rw [happend, h]
    rfl

/-- A string that fails behind its opening quote. -/
theorem StringFails.settles {f : List UInt8 → Except Fault β} (h : StringFails f s)
    (hrun : ∀ t n m e, Ample n m (byte '"' :: t) → f t = .error e →
      run n m (byte '"' :: t) = .error e) :
    Settles P Outside run (byte '"' :: s) := by
  cases h with
  | malformed h => exact .malformed fun t n m hn => hrun _ n m _ hn (h t)
  | part h hs =>
    refine .waiting (fun n m hn => hrun _ n m _ hn h) fun b hb => ?_
    rw [Boundary.Quiet, Boundary.step_openQuote hb]
    exact ⟨rfl, hs.quiet hb.quoted⟩
  | broken k hs more =>
    exact .broken k (hs.behind [byte '"']) fun t n m hn => hrun _ n m _ hn (more t)

/-- A string that `run` reads behind its opening quote. -/
theorem settles_text {run : Run String} (hrun : ∀ n m t, run n m (byte '"' :: t) = stringText t) :
    Settles Solid Outside run (byte '"' :: s) := by
  cases h : stringText s with
  | ok p =>
    obtain ⟨text, r⟩ := p
    obtain ⟨k, hk, rfl, ht⟩ := stringText_spells h
    refine .value text (byte '"' :: k) r rfl ⟨Boundary.harmless_string hk, List.cons_ne_nil _ _⟩
      fun t n m _ => ?_
    rw [List.cons_append, hrun, List.append_assoc, ht]
  | error e =>
    apply (stringText_fails h).settles
    intro t n m e _ he
    rw [hrun, he]

/-- A byte that stands for itself. -/
theorem settles_close (c : Char) :
    Settles (fun w => ∃ p, Blank p ∧ w = p ++ [byte c]) Outside
      (fun _ _ => Decoder.close c) s := by
  apply settles_peek steadfast_outside
  · rintro p _ hp ⟨q, hq, rfl⟩
    exact ⟨p ++ q, hp.append hq, (List.append_assoc p q _).symm⟩
  · intro _ _ t
    simp only [Decoder.close, skipSpace_idem]
  · intro _ _ _
    rfl
  · intro p b r _ hb _
    by_cases hbc : b = byte c
    · refine .value () [b] r rfl ⟨[], blank_nil, by simp [hbc]⟩ fun t _ _ _ => ?_
      rw [List.cons_append, Decoder.close, skipSpace_cons hb]
      simp [hbc]
    · apply settles_malformed
      intro t _ _
      simp [Decoder.close, skipSpace_cons hb, hbc]

end MacroBridge.Json
