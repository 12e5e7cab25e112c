import MacroBridge.Proofs.Json.Steady.Elements

/-!
The pass over a value of no interest is settled on bytes that a closing bracket ends. Where it
waits it is as deep in containers as the boundary scan.
-/
namespace MacroBridge.Json
open Boundary (Harmless Outside Inside)
open Decoder (harmless_byte)

variable {P : List UInt8 → Prop} {K : Boundary → Prop} {s r : List UInt8} {c : Container}
  {fs : List UInt8}
  {l : List Container} {n : Nat}

/-- Within more than `l` containers. -/
structure Deep (l : Nat) (b : Boundary) : Prop extends Inside b where
  below : l < b.depth

theorem steadfast_deep (l : Nat) : Steadfast (Deep l) :=
  ⟨fun h => h.toOutside, fun h n => ⟨h.toInside.past n, h.below⟩⟩

theorem Harmless.deep {w : List UInt8} (hw : Harmless w) {l : Nat} {b : Boundary} (hb : Deep l b) :
    b.Quiet w ∧ Deep l (b.after w) := by
  have hp := hw b hb.toInside
  rw [hp.after_eq]
  exact ⟨hp.quiet, (steadfast_deep l).past hb _⟩

/-- Behind the opening byte of a container. -/
theorem deep_first {b : Boundary} {l : Nat} (hb : Deep l b) (c : Container) :
    b.Quiet [byte c.first] ∧ Deep (l + 1) (b.after [byte c.first]) := by
  rw [Boundary.Quiet, Boundary.after_cons, Boundary.step_first hb.toOutside]
  exact ⟨⟨rfl, trivial⟩, hb.toOutside.opened, Nat.succ_lt_succ hb.below⟩

/-- Behind the closing byte of a container that stands in another one. -/
theorem deep_last {b : Boundary} {l : Nat} (hb : Deep (l + 1) b) (c : Container) :
    b.Quiet [byte c.last] ∧ Deep l (b.after [byte c.last]) := by
  have hdepth := hb.below
  rw [Boundary.Quiet, Boundary.after_cons, Boundary.step_last hb.toOutside]
  refine ⟨⟨?_, trivial⟩, ⟨⟨hb.inString, hb.escaped⟩, hb.started, ?_⟩, ?_⟩
  · simp only [beq_eq_false_iff_ne]
    omega
  · exact Nat.sub_pos_of_lt (by omega)
  · exact Nat.lt_sub_of_add_lt hdepth

/-! ### Steps of the loop from a byte that is no white space -/

theorem skip_skipSpace (n : Nat) (mode : SkipMode) (h : mode ≠ .after ∨ fs ≠ []) (s : List UInt8) :
    skip n mode fs s = skip n mode fs (skipSpace s) := by
  cases n with
  | zero => simp only [skip]
  | succ n =>
    cases mode with
    | value => simp only [skip, skipSpace_idem]
    | key => simp only [skip, skipSpace_idem]
    | after =>
      cases fs with
      | nil => simp at h
      | cons close fs => simp only [skip, skipSpace_idem]

theorem skip_nil (mode : SkipMode) (h : mode ≠ .after ∨ fs ≠ []) :
    skip (n + 1) mode fs [] = .error .incomplete := by
  cases mode with
  | value => rfl
  | key => rfl
  | after =>
    cases fs with
    | nil => simp at h
    | cons close fs => rfl

theorem skip_comma (s : List UInt8) :
    skip (n + 1) .after (byte c.last :: fs) (byte ',' :: s) =
      skip n c.skipMode (byte c.last :: fs) s := by
  rw [skip, skipSpace_cons (by decide)]
  simp only [↓reduceIte, skipMode_last]

theorem skip_last (s : List UInt8) :
    skip (n + 1) .after (byte c.last :: fs) (byte c.last :: s) = skip n .after fs s := by
  rw [skip, skipSpace_cons c.isSpace_last]
  have hc : byte c.last ≠ byte ',' := by cases c <;> decide
  simp [hc]

theorem skip_after_other {b : UInt8} (hb : isSpace b = false) (hc : b ≠ byte ',')
    (hl : b ≠ byte c.last) (s : List UInt8) :
    skip (n + 1) .after (byte c.last :: fs) (b :: s) = .error .malformed := by
  rw [skip, skipSpace_cons hb]
  simp [hc, hl]

theorem skip_key (s : List UInt8) : skip (n + 1) .key fs (byte '"' :: s) =
    skipString s >>= fun r => Decoder.close ':' r >>= fun p => skip n .value fs p.2 := by
  rw [skip, skipSpace_cons (by decide)]
  simp only [↓reduceIte]
  cases skipString s with
  | error e => rfl
  | ok r =>
    simp only [bind, Except.bind, Decoder.close]
    cases skipSpace r with
    | nil => rfl
    | cons b r => by_cases hb : b = byte ':' <;> simp [hb]

theorem skip_key_other {b : UInt8} (hb : isSpace b = false) (hq : b ≠ byte '"') (s : List UInt8) :
    skip (n + 1) .key fs (b :: s) = .error .malformed := by
  rw [skip, skipSpace_cons hb]
  simp [hq]

theorem skip_first (s : List UInt8) : skip (n + 1) .value fs (byte c.first :: s) =
    match skipSpace s with
    | [] => .error .incomplete
    | b :: r =>
      if b = byte c.last then skip n .after fs r
        else skip n c.skipMode (byte c.last :: fs) (b :: r) := by
  have ho : byte c.first = byte '[' ∨ byte c.first = byte '\x7b' := opens_iff.mpr ⟨c, rfl⟩
  cases hs : skipSpace s with
  | nil =>
    simp only [skip, skipSpace_cons c.isSpace_first, Bool.or_eq_true, decide_eq_true_eq, ho,
      ↓reduceIte, hs]
  | cons b r =>
    simp only [skip, skipSpace_cons c.isSpace_first, Bool.or_eq_true, decide_eq_true_eq, ho,
      ↓reduceIte, hs, last_of_first, skipMode_first]

theorem skip_string (s : List UInt8) : skip (n + 1) .value fs (byte '"' :: s) =
    skipString s >>= fun r => skip n .after fs r := by
  rw [skip, skipSpace_cons (by decide)]
  simp only [show byte '"' ≠ byte '[' by decide, show byte '"' ≠ byte '\x7b' by
    decide, decide_false, Bool.or_self, Bool.false_eq_true, ↓reduceIte]
  cases skipString s with
  | error e => rfl
  | ok r => rfl

theorem skip_scalar {b : UInt8} (hb : isSpace b = false) (ho : ¬ ∃ c : Container, b = byte c.first)
    (hq : b ≠ byte '"') (s : List UInt8) : skip (n + 1) .value fs (b :: s) =
      skipScalar b (b :: s) >>= fun r => skip n .after fs r := by
  rw [← opens_iff, not_or] at ho
  rw [skip, skipSpace_cons hb]
  simp only [ho, decide_false, Bool.or_self, Bool.false_eq_true, ↓reduceIte, hq]
  cases skipScalar b (b :: s) with
  | error e => rfl
  | ok r => rfl

/-! ### The pass -/

/-- The pass over a value as a run. -/
def skipRun (mode : SkipMode) (l : List Container) : Run Unit :=
  fun n _ s => (skip n mode (frames l) s).map fun r => ((), r)

/-- The pass from where it stands is settled on fewer than `k` bytes. -/
def SettledBelow (k : Nat) : Prop :=
  ∀ mode (l : List Container) {r : List UInt8}, r.length < k → Ends r →
  Settles (fun _ => True) (Deep l.length) (skipRun mode l) r

variable {mode mode' : SkipMode} {l' : List Container} {w : List UInt8} {b : UInt8}

theorem Ample.exists_succ {n m : Nat} (h : Ample n m s) : ∃ k, n = k + 1 :=
  ⟨n - 1, by have := h.1; omega⟩

/-- A step of the loop over some bytes. -/
theorem settles_step (hw : w ≠ [])
    (h : ∀ n t, skip (n + 1) mode (frames l) (w ++ (r ++ t)) = skip n mode' (frames l') (r ++ t))
    (hK : ∀ b, Deep l.length b → b.Quiet w ∧ Deep l'.length (b.after w))
    (hr : Settles (fun _ => True) (Deep l'.length) (skipRun mode' l') r) :
    Settles (fun _ => True) (Deep l.length) (skipRun mode l) (w ++ r) := by
  apply hr.behind (fun _ _ => trivial) hK
  intro t n m hn
  obtain ⟨k, rfl⟩ := hn.exists_succ
  have hpos := List.length_pos_iff.mpr hw
  simp only [Ample, List.length_append] at hn ⊢
  exact ⟨k, m, ⟨by omega, by omega⟩, by simp only [skipRun, h]⟩

/-- A step of the loop that passes over a string or a scalar first. -/
theorem settles_first {first : List UInt8 → Except Fault (Unit × List UInt8)} (rest : Run Unit)
    (hfirst : Settles Solid Outside (fun _ _ => first) s) (hs : Ends s)
    (heq : ∀ n m t, skipRun mode l (n + 1) m (s ++ t) = first (s ++ t) >>= fun p => rest n m p.2)
    (hrest : ∀ r, Ends r → r.length < s.length → Settles (fun _ => True) (Deep l.length) rest r) :
    Settles (fun _ => True) (Deep l.length) (skipRun mode l) s := by
  apply hfirst.bind (fun _ hb => hb.toOutside)
  · intro t n m e hn he
    obtain ⟨k, rfl⟩ := hn.exists_succ
    rw [heq, he]
    rfl
  · rintro a w r rfl ⟨hw, hne⟩ more
    have hpos := List.length_pos_iff.mpr hne
    apply (hrest r hs.of_append (by rw [List.length_append]; omega)).behind (fun _ _ => trivial)
      (fun b hb => Harmless.deep hw hb)
    intro t n m hn
    have hok := more t n m (by rwa [List.append_assoc])
    obtain ⟨k, rfl⟩ := hn.exists_succ
    refine ⟨k, m, ?_, ?_⟩
    · simp only [Ample, List.length_append] at hn ⊢
      omega
    · rw [← List.append_assoc, heq, hok]
      rfl

theorem settles_after (ih : SettledBelow (b :: r).length) (hr : Ends (b :: r))
    (hb : isSpace b = false) :
    Settles (fun _ => True) (Deep (c :: l).length) (skipRun .after (c :: l)) (b :: r) := by
  have hlt : r.length < (b :: r).length := Nat.lt_succ_self _
  have hend : Ends r := hr.of_append (w := [b])
  by_cases hc : b = byte ','
  · subst hc
    exact settles_step (w := [byte ',']) (List.cons_ne_nil _ _) (fun _ t => skip_comma (r ++ t))
      (fun _ => Harmless.deep (harmless_byte (.inl rfl))) (ih c.skipMode (c :: l) hlt hend)
  by_cases hl : b = byte c.last
  · subst hl
    exact settles_step (w := [byte c.last]) (List.cons_ne_nil _ _) (fun _ t => skip_last (r ++ t))
      (fun _ hb => deep_last hb c) (ih .after l hlt hend)
  · refine .malformed fun t n m hn => ?_
    obtain ⟨k, rfl⟩ := hn.exists_succ
    simp only [skipRun, List.cons_append, frames, List.map_cons, skip_after_other hb hc hl]
    rfl

/-- The pass over a string with both its quotes. -/
def skipQuoted (s : List UInt8) : Except Fault (Unit × List UInt8) :=
  (skipString s.tail).map fun r => ((), r)

theorem settles_skipQuoted (s : List UInt8) :
    Settles Solid Outside (fun _ _ => skipQuoted) (byte '"' :: s) := by
  cases h : skipString s with
  | ok r =>
    obtain ⟨k, hk, rfl⟩ := skipString_spells h
    refine .value () (byte '"' :: k) r rfl ⟨Boundary.harmless_string hk, List.cons_ne_nil _ _⟩
      fun t _ _ _ => ?_
    rw [skipQuoted, List.cons_append, List.tail_cons, List.append_assoc, skipString_append hk]
    rfl
  | error e =>
    apply (skipString_fails h).settles
    intro t _ _ e _ he
    rw [skipQuoted, List.tail_cons, he]
    rfl

theorem settles_key (ih : SettledBelow (b :: r).length) (hr : Ends (b :: r))
    (hb : isSpace b = false) :
    Settles (fun _ => True) (Deep l.length) (skipRun .key l) (b :: r) := by
  by_cases hq : b = byte '"'
  · subst hq
    apply settles_first (fun n m s => Decoder.close ':' s >>= fun p => skipRun .value l n m p.2)
      (settles_skipQuoted r) hr
    · intro n m t
      simp only [skipRun, List.cons_append, skip_key, skipQuoted, List.tail_cons]
      cases skipString (r ++ t) with
      | error e => rfl
      | ok r' =>
        simp only [bind, Except.bind, Except.map]
        cases Decoder.close ':' r' with
        | error e => rfl
        | ok p => rfl
    · intro r' hr' hlt
      apply (settles_close ':').bind (fun _ hb => hb.toOutside)
      · intro t n m e _ he
        simp only [he]
        rfl
      · rintro _ _ v rfl ⟨p, hp, rfl⟩ more
        have hcolon := harmless_behind hp (harmless_byte (c := ':') (.inr rfl))
        apply (ih .value l _ hr'.of_append).behind (fun _ _ => trivial)
          (fun b hb => Harmless.deep hcolon hb)
        · intro t n m hn
          have hok := more t n m (by rwa [List.append_assoc])
          refine ⟨n, m, hn.of_append, ?_⟩
          rw [List.append_assoc] at hok
          simp only [hok]
          rfl
        · simp only [List.length_append] at hlt
          omega
  · refine .malformed fun t n m hn => ?_
    obtain ⟨k, rfl⟩ := hn.exists_succ
    simp only [skipRun, List.cons_append, skip_key_other hb hq]
    rfl

theorem settles_opened (ih : SettledBelow (byte c.first :: r).length)
    (hr : Ends (byte c.first :: r)) :
    Settles (fun _ => True) (Deep l.length) (skipRun .value l) (byte c.first :: r) := by
  have hopened {q : List UInt8} (hq : Blank q) {b : Boundary} (hb : Deep l.length b) :
      b.Quiet (byte c.first :: q) ∧ Deep (l.length + 1) (b.after (byte c.first :: q)) := by
    obtain ⟨hquiet, hdeep⟩ := deep_first hb c
    obtain ⟨hquiet', hdeep'⟩ := (steadfast_deep _).blank hq hdeep
    exact ⟨Boundary.quiet_append.mpr ⟨hquiet, hquiet'⟩, hdeep'⟩
  cases hs : skipSpace r with
  | nil =>
    refine .waiting (fun n m hn => ?_) fun b hb => (hopened (skipSpace_eq_nil_iff.mp hs) hb).1
    obtain ⟨k, rfl⟩ := hn.exists_succ
    simp only [skipRun, skip_first, hs]
    rfl
  | cons x r' =>
    obtain ⟨q, hq, hx, rfl⟩ := skipSpace_eq_cons_iff.mp hs
    by_cases hl : x = byte c.last
    · subst hl
      have hsplit : byte c.first :: (q ++ byte c.last :: r') =
          (byte c.first :: q ++ [byte c.last]) ++ r' := by simp
      rw [hsplit] at hr ih ⊢
      have hlt : r'.length < (byte c.first :: q ++ [byte c.last] ++ r').length := by
        simp only [List.length_append, List.length_cons]
        omega
      apply settles_step (by simp) _ _ (ih .after l hlt hr.of_append)
      · intro n t
        simp only [List.append_assoc, List.cons_append, List.nil_append, skip_first,
          skipSpace_blank_cons hq c.isSpace_last, ↓reduceIte]
      · intro b hb
        obtain ⟨hquiet, hdeep⟩ := hopened hq hb
        obtain ⟨hquiet', hdeep'⟩ := deep_last hdeep c
        rw [Boundary.quiet_append, Boundary.after_append]
        exact ⟨⟨hquiet, hquiet'⟩, hdeep'⟩
    · have hsplit : byte c.first :: (q ++ x :: r') = (byte c.first :: q) ++ x :: r' := rfl
      rw [hsplit] at hr ih ⊢
      have hlt : (x :: r').length < (byte c.first :: q ++ x :: r').length := by
        simp only [List.length_append, List.length_cons]
        omega
      apply settles_step (by simp) _ (fun _ => hopened hq)
        (ih c.skipMode (c :: l) hlt hr.of_append)
      intro n t
      simp only [List.cons_append, skip_first, skipSpace_blank_cons hq hx, if_neg hl]
      rfl

theorem settles_value (ih : SettledBelow (b :: r).length) (hr : Ends (b :: r))
    (hb : isSpace b = false) :
    Settles (fun _ => True) (Deep l.length) (skipRun .value l) (b :: r) := by
  by_cases ho : ∃ c : Container, b = byte c.first
  · obtain ⟨c, rfl⟩ := ho
    exact settles_opened ih hr
  have hrest (r' : List UInt8) (hr' : Ends r') (hlt : r'.length < (b :: r).length) :=
    ih .after l hlt hr'
  by_cases hq : b = byte '"'
  · subst hq
    apply settles_first (skipRun .after l) (settles_skipQuoted r) hr _ hrest
    intro n m t
    simp only [skipRun, List.cons_append, skip_string, skipQuoted, List.tail_cons]
    cases skipString (r ++ t) with
    | error e => rfl
    | ok r' => rfl
  · have hscalar : Settles Solid Outside
        (fun _ _ s => (skipScalar b s).map fun r => ((), r)) (b :: r) := by
      apply (resolves_skipScalar (hr.stops (List.cons_ne_nil b r)) b).settles
      intro _ r' hr'
      cases hs : skipScalar b (b :: r) with
      | error e => simp [hs, Except.map] at hr'
      | ok z =>
        obtain ⟨w, hw, hwz⟩ := skipScalar_spells hs
        simp only [hs, Except.map, Except.ok.injEq, Prod.mk.injEq, true_and] at hr'
        exact ⟨w, solid_value (.scalar hw), hr' ▸ hwz⟩
    apply settles_first (skipRun .after l) hscalar hr _ hrest
    intro n m t
    simp only [skipRun, List.cons_append, skip_scalar hb ho hq]
    cases skipScalar b (b :: (r ++ t)) with
    | error e => rfl
    | ok r' => rfl

theorem settles_skipRun (mode : SkipMode) (l : List Container) (hs : Ends s) :
    Settles (fun _ => True) (Deep l.length) (skipRun mode l) s := by
  induction hk : s.length using Nat.strongRecOn generalizing s mode l with
  | ind k ih =>
    have hpeek (h : mode ≠ .after ∨ frames l ≠ []) (hnext : ∀ b r, SettledBelow (b :: r).length →
        Ends (b :: r) →
        isSpace b = false → Settles (fun _ => True) (Deep l.length) (skipRun mode l) (b :: r)) :
        Settles (fun _ => True) (Deep l.length) (skipRun mode l) s := by
      apply settles_peek (steadfast_deep _) (fun _ _ _ _ => trivial)
      · intro n m t
        simp only [skipRun, skip_skipSpace n mode h t]
      · intro n m hn
        obtain ⟨i, rfl⟩ := hn.exists_succ
        rw [skipRun, skip_nil mode h]
        rfl
      · intro p b r _ hb hsplit
        apply hnext b r _ (hsplit ▸ hs).of_append hb
        intro mode' l' r' hlt hr'
        apply ih r'.length _ mode' l' hr' rfl
        rw [← hk, hsplit, List.length_append]
        omega
    cases mode with
    | value => exact hpeek (.inl (by simp)) fun b r => settles_value
    | key => exact hpeek (.inl (by simp)) fun b r => settles_key
    | after =>
      cases l with
      | cons c l => exact hpeek (.inr (by simp [frames])) fun b r => settles_after
      | nil =>
        refine .value () [] s rfl trivial fun t n m hn => ?_
        obtain ⟨i, rfl⟩ := hn.exists_succ
        rfl

/-- The pass over one value. -/
theorem settles_skip (hs : Ends s) : Settles Solid Inside (skipRun .value []) s := by
  apply (settles_skipRun .value [] hs).bind
  · exact fun b hb => ⟨hb, hb.depth⟩
  · exact fun _ _ _ _ _ => id
  · rintro a w r rfl - more
    refine .value a w r rfl ?_ more
    have hok := more [] ((w ++ r).length + 1) ((w ++ r).length + 1) (by simp [Ample])
    rw [List.append_nil, List.append_nil, skipRun] at hok
    cases h : skip ((w ++ r).length + 1) .value (frames []) (w ++ r) with
    | error e =>
      rw [h] at hok
      simp [Except.map] at hok
    | ok z =>
      simp only [h, Except.map, Except.ok.injEq, Prod.mk.injEq, true_and] at hok
      obtain ⟨u, ⟨p, v, x, hp, hv, rfl, rfl⟩, hu⟩ := skip_spells (l := []) h
      rw [hok, List.append_nil, List.append_cancel_right_eq] at hu
      rw [hu]
      exact solid_behind hp (solid_value hv)

end MacroBridge.Json
