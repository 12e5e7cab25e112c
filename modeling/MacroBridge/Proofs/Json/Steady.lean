import MacroBridge.Proofs.Json.Lawful
import MacroBridge.Proofs.Json.Settles

/-!
Decoders of single values and of containers are settled on bytes that a closing bracket ends.
-/
namespace MacroBridge.Json.Decoder
open Boundary (Harmless Outside Inside)

variable {α β : Type} {P : List UInt8 → Prop} {K : Boundary → Prop} {s : List UInt8} {b : UInt8}
  {d : Decoder α}

/-- Runs of a decoder at one level of nesting. -/
def within (d : Decoder α) (nesting : Nat) : Run α := fun n _ => d ⟨nesting, n⟩

/-- A decoder that is settled on all bytes that a closing bracket ends, whatever the scan has seen
before. -/
def Steady (d : Decoder α) : Prop :=
  ∀ nesting {s : List UInt8}, Ends s → Settles Solid Outside (d.within nesting) s

/-- One for what stands in a container, where the scan is within it too. -/
def SteadyInside (d : Decoder α) : Prop :=
  ∀ nesting {s : List UInt8}, Ends s → Settles Harmless Inside (d.within nesting) s

/-- A decoder is steady if it is so from the first byte of a value on. -/
theorem steady_of_peek (hskip : ∀ l t, d l t = d l (skipSpace t))
    (hnil : ∀ l, d l [] = .error .incomplete) (h : ∀ nesting b r, isSpace b = false →
      Ends (b :: r) → Settles Solid Outside (d.within nesting) (b :: r)) :
    d.Steady := by
  intro nesting s hs
  apply settles_peek steadfast_outside fun p v hp hv => solid_behind hp hv
  · exact fun n _ t => hskip ⟨nesting, n⟩ t
  · exact fun n _ _ => hnil ⟨nesting, n⟩
  · intro p b r _ hb hpr
    exact h nesting b r hb (hpr ▸ hs).of_append

/-! ### Values of other types -/

theorem settles_map {nesting : Nat} (h : Settles P K (d.within nesting) s) (f : α → β) :
    Settles P K ((d.map f).within nesting) s := by
  apply h.behind_map (w := []) f (fun _ hv => hv) (fun _ hb => ⟨trivial, hb⟩)
  intro t n m hn
  refine ⟨n, m, hn, ?_⟩
  simp only [within, Decoder.map, List.nil_append]
  cases d ⟨nesting, n⟩ (s ++ t) with
  | error e => rfl
  | ok p => rfl

theorem settles_refine {nesting : Nat} (h : Settles P K (d.within nesting) s) (f : α → Option β) :
    Settles P K ((d.refine f).within nesting) s := by
  apply h.bind (fun _ hb => hb)
  · intro t n m e _ he
    simp only [within] at he
    simp only [within, Decoder.refine, he]
    rfl
  · intro a w r hs hw more
    simp only [within] at more
    cases hf : f a with
    | none =>
      refine .malformed fun t n m hn => ?_
      simp only [within, Decoder.refine, more t n m hn]
      simp [bind, Except.bind, hf, throw, throwThe, MonadExceptOf.throw]
    | some b =>
      refine .value b w r hs hw fun t n m hn => ?_
      simp only [within, Decoder.refine, more t n m hn]
      simp [bind, Except.bind, hf, pure, Except.pure]

theorem Steady.map (h : d.Steady) (f : α → β) : (d.map f).Steady :=
  fun nesting _ hs => settles_map (h nesting hs) f

theorem Steady.refine (h : d.Steady) (f : α → Option β) : (d.refine f).Steady :=
  fun nesting _ hs => settles_refine (h nesting hs) f

theorem steady_never : (never : Decoder α).Steady :=
  fun _ _ _ => settles_malformed fun _ _ _ => rfl

theorem Steady.inside (h : d.Steady) : d.SteadyInside := fun nesting _ hs => 
  (h nesting hs).mono (fun _ hw => hw.harmless) fun _ hb => hb.toOutside

/-- One decoder and then another one, which may depend on the first value. -/
theorem SteadyInside.andThen {f : α → Decoder β} (hd : d.SteadyInside)
    (hf : ∀ a, (f a).SteadyInside) :
    SteadyInside fun limits s => d limits s >>= fun p => f p.1 limits p.2 := by
  intro nesting s hs
  apply (hd nesting hs).bind (fun _ hb => hb)
  · intro t n m e _ he
    simp only [within] at he
    simp only [within, he]
    rfl
  · rintro a w r rfl hw more
    apply (hf a nesting hs.of_append).behind (fun v hv => Boundary.Harmless.append hw hv)
      (fun b hb => harmless_enters hw hb)
    intro t n m hn
    have hok := more t n m (by rwa [List.append_assoc])
    rw [List.append_assoc] at hok
    simp only [within] at hok
    exact ⟨n, m, hn.of_append, by simp only [within, hok]; rfl⟩

theorem SteadyInside.congr {d' : Decoder α} (h : d.SteadyInside)
    (heq : ∀ limits s, d' limits s = d limits s) :
    d'.SteadyInside := fun nesting _ hs => (h nesting hs).congr fun _ n _ => heq ⟨nesting, n⟩ _

theorem steadyInside_done (a : α) : SteadyInside fun _ s => .ok (a, s) :=
  fun _ _ _ => settles_done a harmless_nil fun _ _ _ => rfl

/-! ### Simple decoders -/

/-- A value of the wrong type is settled where its own type is. -/
theorem settles_reject {run : Run α} (hs : Ends (b :: s))
    (hrun : ∀ t n m, run n m (b :: t) = .error (reject b t)) : Settles P Outside run (b :: s) := by
  by_cases hb : b = byte '"'
  · subst hb
    have htext : Settles Solid Outside (fun _ _ t => stringText t.tail) (byte '"' :: s) :=
      settles_text fun _ _ _ => rfl
    apply htext.bind (fun _ h => h)
    · intro t n m e _ he
      rw [List.cons_append] at he ⊢
      rw [hrun, reject, if_pos rfl]
      simp only [List.tail_cons] at he
      rw [he]
    · intro _ _ _ _ _ more
      refine .malformed fun t n m hn => ?_
      have hok := more t n m hn
      rw [List.cons_append] at hok ⊢
      simp only [List.tail_cons] at hok
      rw [hrun, reject, if_pos rfl, hok]
  · have hscalar := resolves_skipScalar (hs.stops (List.cons_ne_nil b s)) b
    apply settles_malformed
    intro t n m
    have hne := hscalar.ne_incomplete t
    rw [List.cons_append] at hne ⊢
    rw [hrun, reject, if_neg hb]
    cases hr : skipScalar b (b :: (s ++ t)) with
    | ok r => rfl
    | error e =>
      cases e with
      | malformed => rfl
      | incomplete => simp [hr, Except.map] at hne

theorem steady_natural (bound : Nat) : (natural bound).Steady := by
  apply steady_of_peek
  · intro l t
    simp only [natural, skipSpace_idem]
  · intro l
    rfl
  · intro nesting b r hb hr
    by_cases hd : b = byte '-' ∨ isDigit b = true
    · have hnumber : Settles Solid Outside (fun _ _ => number) (b :: r) := by
        apply (resolves_number (hr.stops (List.cons_ne_nil b r))).settles
        intro n z hz
        obtain ⟨w, hw, hwz⟩ := number_spells hz
        exact ⟨w, solid_value (.scalar hw), hwz⟩
      apply hnumber.bind (fun _ h => h)
      · intro t n m e _ he
        rw [List.cons_append] at he ⊢
        simp [within, natural, skipSpace_cons hb, hd, he]
      · intro k w z hz hw more
        have hnumber (t : List UInt8) (n m : Nat) (hn : Ample n m (b :: r ++ t)) :
            number (b :: (r ++ t)) = .ok (k, z ++ t) := more t n m hn
        cases k with
        | other =>
          refine .malformed fun t n m hn => ?_
          simp [within, natural, skipSpace_cons hb, hd, hnumber t n m hn]
        | natural k =>
          by_cases hk : k ≤ bound
          · refine .value k w z hz hw fun t n m hn => ?_
            simp [within, natural, skipSpace_cons hb, hd, hnumber t n m hn, hk]
          · refine .malformed fun t n m hn => ?_
            simp [within, natural, skipSpace_cons hb, hd, hnumber t n m hn, hk]
    · apply settles_reject hr
      intro t n m
      simp [within, natural, skipSpace_cons hb, hd]

theorem steady_string : string.Steady := by
  apply steady_of_peek
  · intro l t
    simp only [string, skipSpace_idem]
  · intro l
    rfl
  · intro nesting b r hb hr
    by_cases hq : b = byte '"'
    · subst hq
      apply settles_text
      intro n m t
      simp [within, string, skipSpace_cons hb]
    · apply settles_reject hr
      intro t n m
      simp [within, string, skipSpace_cons hb, hq]

theorem steady_char : char.Steady := steady_string.refine _

theorem harmless_plains {w : List UInt8} (hw : ∀ x ∈ w, Boundary.Plain x) : Harmless w :=
  fun _ hb => Boundary.passes_plain hw hb

theorem plain_null : ∀ x ∈ byte 'n' :: "ull".toList.map byte, Boundary.Plain x := by
  rw [← null_word]
  exact Boundary.plain_scalar .null

theorem settles_null {run : Run α} (a : α) (hs : Ends (byte 'n' :: s))
    (hrun : ∀ t n m, run n m (byte 'n' :: t) = (expectText "ull" t).map fun p => (a, p.2)) :
    Settles Solid K run (byte 'n' :: s) := by
  have hstops : Stops s := (hs.stops (List.cons_ne_nil _ s)).tail (closes_byte (by decide))
  have hword : Resolves (fun t => (expectText "ull" t.tail).map fun p => (a, p.2))
      (byte 'n' :: s) := by
    apply ((resolves_expectText "ull" (by decide) hstops).bind
      (g := fun _ r => .ok (a, r)) fun _ r hr => resolves_ok a (fun _ => rfl) hr).of_eq
    intro t
    simp only [List.cons_append, List.tail_cons]
    cases expectText "ull" (s ++ t) with
    | error e => rfl
    | ok p => rfl
  apply (hword.settles ?_).congr (fun t n m => hrun (s ++ t) n m)
  intro a' r hr
  simp only [List.tail_cons] at hr
  cases he : expectText "ull" s with
  | error e => simp [he, Except.map] at hr
  | ok p =>
    simp only [he, Except.map, Except.ok.injEq, Prod.mk.injEq] at hr
    rw [expectText_eq_ok_iff] at he
    exact ⟨_, ⟨harmless_plains plain_null, List.cons_ne_nil _ _⟩,
      by rw [he, hr.2, List.cons_append]⟩

theorem steady_null : null.Steady := by
  apply steady_of_peek
  · intro l t
    simp only [null, skipSpace_idem]
  · intro l
    rfl
  · intro nesting b r hb hr
    by_cases hn : b = byte 'n'
    · subst hn
      apply settles_null () hr
      intro t n m
      simp only [within, null, skipSpace_cons hb, ↓reduceIte]
      cases expectText "ull" t with
      | error e => rfl
      | ok p => rfl
    · apply settles_reject hr
      intro t n m
      simp [within, null, skipSpace_cons hb, hn]

theorem Steady.option (h : d.Steady) : d.option.Steady := by
  apply steady_of_peek
  · intro l t
    simp only [Decoder.option, skipSpace_idem]
  · intro l
    rfl
  · intro nesting b r hb hr
    by_cases hn : b = byte 'n'
    · subst hn
      apply settles_null none hr
      intro t n m
      simp only [within, Decoder.option, skipSpace_cons hb, ↓reduceIte]
      cases expectText "ull" t with
      | error e => rfl
      | ok p => rfl
    · apply ((h.map some) nesting hr).congr
      intro t n m
      simp [within, Decoder.option, skipSpace_cons hb, hn]

/-! ### Containers -/

/-- What a decoder reads up to the closing bracket of its container. -/
def closed (c : Container) (body : Decoder α) : Decoder α := fun limits s => do
  let (a, s) ← body limits s
  let (_, s) ← close c.last s
  return (a, s)

theorem SteadyInside.closed {body : Decoder α} (h : body.SteadyInside) (c : Container)
    (nesting : Nat) (hs : Ends s) :
    Settles (fun w => ∃ v, Harmless v ∧
      w = v ++ [byte c.last]) Inside ((body.closed c).within nesting) s := by
  apply (h nesting hs).bind (fun _ hb => hb)
  · intro t n m e _ he
    simp only [within] at he
    simp only [within, Decoder.closed, he]
    rfl
  · rintro a w r rfl hw more
    apply (settles_close (s := r) c.last).behind_map (fun _ => a)
    · rintro _ ⟨p, hp, rfl⟩
      exact ⟨w ++ p, Boundary.Harmless.append hw (Boundary.harmless_blank hp),
        (List.append_assoc w p _).symm⟩
    · intro b hb
      obtain ⟨hq, hb'⟩ := harmless_enters hw hb
      exact ⟨hq, hb'.toOutside⟩
    · intro t n m hn
      refine ⟨n, m, hn.of_append, ?_⟩
      have hok := more t n m (by rwa [List.append_assoc])
      rw [List.append_assoc] at hok
      simp only [within] at hok
      simp only [within, Decoder.closed, hok]
      cases hc : close c.last (r ++ t) with
      | error e => simp [bind, Except.bind, hc, Except.map]
      | ok p => simp [bind, Except.bind, hc, Except.map, pure, Except.pure]

theorem steady_container {c : Container} {body : Decoder α} (h : body.SteadyInside) :
    (container c.first c.last body).Steady := by
  apply steady_of_peek
  · intro l t
    simp only [container, skipSpace_idem]
  · intro l
    rfl
  · intro nesting b r hb hr
    by_cases hf : b = byte c.first
    · subst hf
      cases nesting with
      | zero =>
        apply settles_malformed
        intro t n m
        simp [within, container, skipSpace_cons hb]
      | succ nesting =>
        apply (h.closed c nesting (hr.of_append (w := [byte c.first]))).behind
          (w := [byte c.first])
        · rintro _ ⟨v, hv, rfl⟩
          exact ⟨Boundary.harmless_container c hv, List.cons_ne_nil _ _⟩
        · intro b hb
          rw [Boundary.Quiet, Boundary.after_cons, Boundary.step_first hb]
          exact ⟨⟨rfl, trivial⟩, hb.opened⟩
        · intro t n m hn
          refine ⟨n, m, hn.of_append, ?_⟩
          simp only [within, List.singleton_append, container, skipSpace_cons hb, ↓reduceIte]
          rfl
    · apply settles_reject hr
      intro t n m
      simp [within, container, skipSpace_cons hb, hf]

end MacroBridge.Json.Decoder
