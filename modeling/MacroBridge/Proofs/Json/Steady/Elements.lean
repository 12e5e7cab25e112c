import MacroBridge.Proofs.Json.Steady

/-!
Decoders of arrays are settled on bytes that a closing bracket ends.
-/
namespace MacroBridge.Json.Decoder
open Boundary (Harmless Outside Inside)

variable {α β σ : Type} {s : List UInt8} {d : Decoder α}

theorem harmless_byte {c : Char} (hc : c = ',' ∨ c = ':') : Harmless [byte c] := by
  apply Boundary.harmless_plain
  rcases hc with rfl | rfl
  · simp only [Boundary.Plain]
    decide
  · simp only [Boundary.Plain]
    decide

/-! ### The next element -/

/-- Whether there is an element, and what stands from it on or else from the end of the array
on. -/
def atElement (isFirst : Bool) (s : List UInt8) : Except Fault (Option Unit × List UInt8) :=
  (nextElement isFirst s).map fun o => (o.map fun _ => (), o.getD s)

theorem settles_atElement (isFirst : Bool) (s : List UInt8) :
    Settles Harmless Inside (fun _ _ => atElement isFirst) s := by
  cases hs : skipSpace s with
  | nil =>
    have hb := skipSpace_eq_nil_iff.mp hs
    refine .waiting (fun _ _ _ => ?_) fun b h => (Boundary.harmless_blank hb b h).quiet
    simp [atElement, nextElement, hs, Except.map]
  | cons x r =>
    obtain ⟨p, hp, -, rfl⟩ := skipSpace_eq_cons_iff.mp hs
    have happend (t : List UInt8) : skipSpace (p ++ x :: r ++ t) = x :: (r ++ t) :=
      skipSpace_append hs t
    by_cases hx : x = byte ']'
    · apply settles_done none harmless_nil
      intro t _ _
      rw [atElement, nextElement, happend]
      simp [hx, Except.map]
    cases isFirst with
    | true =>
      refine .value (some ()) p (x :: r) rfl (Boundary.harmless_blank hp) fun t _ _ _ => ?_
      rw [atElement, nextElement, happend]
      simp [hx, Except.map]
    | false =>
      by_cases hc : x = byte ','
      · subst hc
        have hcomma {q : List UInt8} (hq : Blank q) : Harmless (p ++ byte ',' :: q) :=
          harmless_behind hp ((harmless_byte (.inl rfl)).append (Boundary.harmless_blank hq))
        cases hr : skipSpace r with
        | nil =>
          refine .waiting (fun _ _ _ => ?_) fun b h =>
            (hcomma (skipSpace_eq_nil_iff.mp hr) b h).quiet
          simp [atElement, nextElement, hs, hr, hx, Except.map]
        | cons y r' =>
          obtain ⟨q, hq, -, rfl⟩ := skipSpace_eq_cons_iff.mp hr
          have happend' (t : List UInt8) : skipSpace (q ++ y :: r' ++ t) = y :: (r' ++ t) :=
            skipSpace_append hr t
          by_cases hy : y = byte ']'
          · apply settles_malformed
            intro t _ _
            rw [atElement, nextElement, happend]
            simp only [hx, Bool.false_eq_true, ↓reduceIte, happend']
            rw [if_pos hy]
            rfl
          · refine .value (some ()) (p ++ byte ',' :: q) (y :: r') (by simp)
              (hcomma hq) fun t _ _ _ => ?_
            rw [atElement, nextElement, happend]
            simp only [hx, Bool.false_eq_true, ↓reduceIte, happend', hy]
            rfl
      · apply settles_malformed
        intro t _ _
        rw [atElement, nextElement, happend]
        simp [hx, hc, Except.map]

theorem atElement_eq {isFirst : Bool}
    {f : Option Unit × List UInt8 → Except Fault (α × List UInt8)}
    {g : Option (List UInt8) → Except Fault (α × List UInt8)} (hnone : g none = f (none, s))
    (hsome : ∀ r, g (some r) = f (some (), r)) :
    nextElement isFirst s >>= g = atElement isFirst s >>= f := by
  rw [atElement]
  cases nextElement isFirst s with
  | error e => rfl
  | ok o =>
    cases o with
    | none => exact hnone
    | some r => exact hsome r

/-! ### Elements of one type -/

/-- A decoder that is settled in a container and takes some bytes. -/
def SteadyItem (d : Decoder α) : Prop :=
  ∀ nesting {s : List UInt8}, Ends s → Settles Solid Inside (d.within nesting) s

theorem Steady.item (h : d.Steady) : d.SteadyItem :=
  fun nesting _ hs => (h nesting hs).mono (fun _ hw => hw) fun _ hb => hb.toOutside

/-- What a loop does with a value and with what is behind it. -/
def thenLoop (d : Decoder α) (nesting : Nat) (loop : α → Run β) : Run β := fun n m s => do
  let (a, s) ← d ⟨nesting, n⟩ s
  loop a n (m - 1) s

theorem settles_thenLoop (hd : d.SteadyItem) (hs : Ends s) (nesting : Nat) (loop : α → Run β)
    (hloop : ∀ a r, Ends r → r.length < s.length → Settles Harmless Inside (loop a) r) :
    Settles Harmless Inside (thenLoop d nesting loop) s := by
  apply (hd nesting hs).bind (fun _ hb => hb)
  · intro t n m e _ he
    simp only [within] at he
    simp only [thenLoop, he]
    rfl
  · rintro a w r rfl hw more
    have hlt : r.length < (w ++ r).length := by
      rw [List.length_append]
      exact Nat.lt_add_of_pos_left (List.length_pos_iff.mpr hw.ne_nil)
    apply (hloop a r hs.of_append hlt).behind (fun v hv => Boundary.Harmless.append hw.harmless hv)
      (fun b hb => harmless_enters hw.harmless hb)
    intro t n m hn
    refine ⟨n, m - 1, ?_, ?_⟩
    · simp only [Ample, List.length_append] at hn hlt ⊢
      omega
    · have hok := more t n m (by rwa [List.append_assoc])
      rw [List.append_assoc] at hok
      simp only [within] at hok
      simp only [thenLoop, hok]
      rfl

/-- One turn of a loop: the next item, if there is one, and what is behind it. -/
def turn {ι : Type} (nesting : Nat) (last : β) (item : ι → Decoder σ) (loop : σ → Run β) :
    Option ι → Run β
  | none => fun _ _ s => .ok (last, s)
  | some i => thenLoop (item i) nesting loop

/-- A loop that finds its items by `next` and collects them in a state. -/
theorem settles_loop {ι : Type} (nesting : Nat) (loop : Bool → σ → Run β) {finish : σ → β}
    {next : Bool → σ → List UInt8 → Except Fault (Option ι × List UInt8)}
    {item : σ → ι → Decoder σ}
    (hnext : ∀ isFirst x s, Settles Harmless Inside (fun _ _ => next isFirst x) s)
    (hitem : ∀ x i, (item x i).SteadyItem) (hloop : ∀ isFirst x n m s, 0 < m →
      loop isFirst x n m s = next isFirst x s >>= fun p =>
      turn nesting (finish x) (item x) (loop false) p.1 n m p.2)
    (hs : Ends s) (isFirst : Bool) (x : σ) : Settles Harmless Inside (loop isFirst x) s := by
  induction hk : s.length using Nat.strongRecOn generalizing s isFirst x with
  | ind k ih =>
    apply (hnext isFirst x s).bind (fun _ hb => hb)
    · intro t n m e hn he
      rw [hloop _ _ _ _ _ (Nat.zero_lt_of_lt hn.2), he]
      rfl
    · rintro o w r rfl hw more
      cases o with
      | none =>
        refine .value (finish x) w r rfl hw fun t n m hn => ?_
        rw [hloop _ _ _ _ _ (Nat.zero_lt_of_lt hn.2), more t n m hn]
        rfl
      | some i =>
        have hrest := settles_thenLoop (hitem x i) hs.of_append nesting (loop false)
          fun y r' hr' hlt => by
          apply ih r'.length _ hr' false y rfl
          rw [← hk, List.length_append]
          omega
        apply hrest.behind (fun v hv => Boundary.Harmless.append hw hv)
          (fun b hb => harmless_enters hw hb)
        intro t n m hn
        refine ⟨n, m, hn.of_append, ?_⟩
        rw [hloop _ _ _ _ _ (Nat.zero_lt_of_lt hn.2), ← List.append_assoc,
          more t n m (by rwa [List.append_assoc])]
        rfl

theorem elements_eq (nesting n : Nat) {m : Nat} (hm : 0 < m) (isFirst : Bool) (done : List α)
    (s : List UInt8) : elements d ⟨nesting, n⟩ m isFirst done s = atElement isFirst s >>= fun p =>
      turn nesting done.reverse (fun _ => d.map fun a => a :: done)
        (fun done n m => elements d ⟨nesting, n⟩ m false done) p.1 n m p.2 := by
  obtain ⟨m, rfl⟩ : ∃ k, m = k + 1 := ⟨m - 1, by omega⟩
  rw [elements]
  apply atElement_eq
  · rfl
  · intro r
    simp only [turn, thenLoop, Decoder.map]
    cases d ⟨nesting, n⟩ r with
    | error e => rfl
    | ok p => rfl

theorem Steady.list (hd : d.Steady) : (list d).Steady := by
  apply steady_container (c := .array)
  intro nesting s hs
  have hloop := settles_loop nesting
    (fun isFirst done n m => elements d ⟨nesting, n⟩ m isFirst done)
    (fun isFirst (_ : List α) s => settles_atElement isFirst s)
    (fun done _ => (hd.map fun a => a :: done).item)
    (fun isFirst done n m s hm => elements_eq nesting n hm isFirst done s) hs true []
  exact hloop.diagonal

/-! ### Elements each of its own type -/

theorem steadyInside_atElement (isFirst : Bool) : SteadyInside fun _ => atElement isFirst :=
  fun _ s _ => settles_atElement isFirst s

theorem Steady.element (hd : d.Steady) (isFirst : Bool) : (element isFirst d).SteadyInside := by
  apply ((steadyInside_atElement isFirst).andThen (f := fun o =>
    if o.isSome then d else never) ?_).congr
  · intro limits s
    apply atElement_eq
    · rfl
    · intro r
      rfl
  · intro o
    cases o with
    | none => exact steady_never.inside
    | some _ => exact hd.inside

theorem Steady.pair {da : Decoder α} {db : Decoder β} (ha : da.Steady) (hb : db.Steady) :
    (pair da db).Steady := by
  apply steady_container (c := .array)
  apply ((ha.element true).andThen (f := fun a =>
    (Decoder.element false db).map fun b => (a, b)) ?_).congr
  · intro limits s
    rfl
  · intro a nesting s hs
    exact settles_map (hb.element false nesting hs) _

/-- Fields that are settled whatever has been read before them. -/
def SteadyFields (fields : List (Field σ)) : Prop := ∀ f ∈ fields, ∀ r, (f.read r).Steady

theorem steadyFields_nil : SteadyFields ([] : List (Field σ)) := by simp [SteadyFields]

theorem SteadyFields.cons {f : Field σ} {fields : List (Field σ)} (hf : ∀ r, (f.read r).Steady)
    (h : SteadyFields fields) : SteadyFields (f :: fields) := List.forall_mem_cons.mpr ⟨hf, h⟩

theorem steadyInside_ordered {fields : List (Field σ)} (hf : SteadyFields fields)
    (mayEnd isFirst : Bool) (r : σ) :
    SteadyInside fun limits => ordered mayEnd limits fields isFirst r := by
  induction fields generalizing isFirst r with
  | nil => exact steadyInside_done r
  | cons f fields ih =>
    have hrest : SteadyInside fun limits s =>
        f.read r limits s >>= fun p => ordered mayEnd limits fields false p.1 p.2 :=
      ((hf f List.mem_cons_self r).inside).andThen fun r' =>
        ih (fun g hg => hf g (List.mem_cons_of_mem f hg)) false r'
    apply ((steadyInside_atElement isFirst).andThen (f := fun o limits s =>
      if o.isSome then f.read r limits s >>= fun p => ordered mayEnd limits fields false p.1 p.2
      else if mayEnd then .ok (r, s) else .error .malformed) ?_).congr
    · intro limits s
      apply atElement_eq
      · rfl
      · intro r
        rfl
    · intro o
      cases o with
      | some _ => exact hrest
      | none =>
        cases mayEnd with
        | true => exact steadyInside_done r
        | false => exact steady_never.inside

end MacroBridge.Json.Decoder
