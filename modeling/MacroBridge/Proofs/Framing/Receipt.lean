import MacroBridge.Proofs.Framing.Poll

/-!
What a call to read a message takes from a stream of any bytes, for messages that all show their
own end.
-/
namespace MacroBridge
open Json (Blank byte isSpace showsItsEnd decodeFirst limitsFor skipSpace skipSpace_append
  skipSpace_blank_append
  skipSpace_blank_cons skipSpace_eq_nil_iff)
open Event (carried)

namespace Event

theorem carried_append (s t : List Event) : carried (s ++ t) = carried s ++ carried t := by
  induction s with
  | nil => rfl
  | cons e s ih => cases e <;> simp [carried, ih]

end Event

/-- Whether a decoder knows by its first byte every value that does not show its end, and rejects
it. -/
def Json.Decoder.Opens {α : Type} (d : Json.Decoder α) : Prop :=
  ∀ limits b s, isSpace b = false → showsItsEnd b = false → d limits (b :: s) = .error .malformed

theorem Json.Decoder.opens_oneOf {α : Type} (cases : List (String × Json.Decoder.Case α)) :
    (Json.Decoder.oneOf cases).Opens := by
  intro limits b s hs hb
  simp only [showsItsEnd, Bool.or_eq_false_iff, beq_eq_false_iff_ne] at hb
  simp [Json.Decoder.oneOf, Json.skipSpace_cons hs, hb]

/-- The first value of some bytes is that of any longer ones, also behind white space. -/
theorem decodeFirst_extend {α : Type} {d : Json.Decoder α} (hd : d.Lawful) (ho : d.Opens)
    {s t : List UInt8} {a : α} (h : decodeFirst d s = .value a t) {p : List UInt8} (hp : Blank p)
    (more : List UInt8) : decodeFirst d (p ++ (s ++ more)) = .value a (t ++ more) := by
  cases hs : skipSpace s with
  | nil => simp [decodeFirst, hs] at h
  | cons b u =>
    obtain ⟨q, hq, hb, rfl⟩ := Json.skipSpace_eq_cons_iff.mp hs
    have hshows : showsItsEnd b = true := by
      by_contra hno
      simp [decodeFirst, hs, ho _ b u hb (by simpa using hno)] at h
    simp only [decodeFirst, hs, hshows, Bool.true_or, ↓reduceIte] at h
    split at h
    · simp at h
    · simp at h
    · next a' rest hok =>
      obtain ⟨rfl, rfl⟩ := Json.Attempt.value.inj h
      have hend : Json.EndSeen (b :: u) rest :=
        .inr (by simpa [Json.skipSpace_cons hb] using hshows)
      have hlimits : (limitsFor (q ++ b :: u)).Le (limitsFor (p ++ (q ++ b :: u ++ more))) := by
        constructor
        · exact Nat.le_refl _
        · simp only [limitsFor, List.length_append]
          omega
      have hmore := hd.append hok hlimits hend more
      have hskip : skipSpace (p ++ (q ++ b :: u ++ more)) = b :: (u ++ more) := by
        rw [skipSpace_blank_append hp, skipSpace_append hs]
      rw [List.cons_append] at hmore
      simp only [decodeFirst, hskip, hmore, hshows, Bool.true_or, ↓reduceIte]

theorem decodeFirst_behind {α : Type} {d : Json.Decoder α} (hd : d.Lawful) (ho : d.Opens)
    {s t : List UInt8} {a : α} (h : decodeFirst d s = .value a t) {p : List UInt8} (hp : Blank p) :
    decodeFirst d (p ++ s) = .value a t := by
  simpa using decodeFirst_extend hd ho h hp []

theorem decodeFirst_eq_blank {α : Type} {d : Json.Decoder α} {s : List UInt8}
    (h : decodeFirst d s = .blank) : Blank s := by
  refine skipSpace_eq_nil_iff.mp ?_
  cases hs : skipSpace s with
  | nil => rfl
  | cons b u =>
    simp only [decodeFirst, hs] at h
    split at h
    · simp at h
    · simp at h
    · split at h <;> simp at h

namespace Boundary

theorem started_scan {b : Boundary} (h : b.started = true) (s : List UInt8) :
    (b.scan s).1.started = true := by
  induction s generalizing b with
  | nil => exact h
  | cons x s ih =>
    have hx := started_step h x
    rw [scan]
    split
    · next b' hb => rwa [hb] at hx
    · next b' hb =>
      rw [hb] at hx
      exact ih hx

/-- A byte that is no white space starts a value, unless it closes a container. -/
theorem step_unstarted {b : Boundary} (h : b.Outside) (hd : b.depth = 0) {x : UInt8}
    (hx : isSpace x = false) :
    (b.step x).1.started = true ∨ showsItsEnd x = false ∧ (b.step x).2 = true := by
  unfold step
  dsimp only
  rw [h.inString, hx, hd]
  simp only [Bool.false_eq_true, ↓reduceIte]
  split_ifs with ho hc hq
  · exact .inl rfl
  · right
    refine ⟨?_, rfl⟩
    simp only [Bool.or_eq_true, decide_eq_true_eq] at hc
    rcases hc with rfl | rfl
    · decide
    · decide
  · exact .inl rfl
  · exact .inl rfl

/-- A scan that has not started a value has seen nothing but white space, or stops at a closing
bracket. -/
theorem scan_unstarted {b : Boundary} (h : b.Outside) (hd : b.depth = 0) {s : List UInt8}
    (hs : (b.scan s).1.started = false) :
    Blank s ∧ (b.scan s).2 = false ∨ (b.scan s).2 = true ∧
      ∃ p x t, s = p ++ x :: t ∧ Blank p ∧ isSpace x = false ∧ showsItsEnd x = false := by
  induction s generalizing b with
  | nil => exact .inl ⟨Json.blank_nil, rfl⟩
  | cons x s ih =>
    by_cases hx : isSpace x = true
    · rw [scan, step_space h hx] at hs ⊢
      rcases ih (h.past 1) hd hs with ⟨hb, hstop⟩ | ⟨hstop, p, y, t, rfl, hp, hy, hshows⟩
      · exact .inl ⟨List.forall_mem_cons.mpr ⟨hx, hb⟩, hstop⟩
      · exact .inr ⟨hstop, x :: p, y, t, rfl, List.forall_mem_cons.mpr ⟨hx, hp⟩, hy, hshows⟩
    · have hx : isSpace x = false := by simpa using hx
      rcases step_unstarted h hd hx with hstart | ⟨hshows, hstop⟩
      · rw [scan] at hs
        split at hs
        · next b' hb =>
          rw [hb] at hstart
          exact absurd hstart (Bool.eq_false_iff.mp hs)
        · next b' hb =>
          rw [hb] at hstart
          simp [started_scan hstart] at hs
      · refine .inr ⟨?_, [], x, s, rfl, Json.blank_nil, hx, hshows⟩
        rw [scan]
        split
        · rfl
        · next b' hb =>
          rw [hb] at hstop
          simp at hstop

end Boundary

namespace Reader
variable {α : Type} [Wire α] {r r' : Reader} {a : α}

/-- Whether the scan of the buffer has started a value, if it has started at all. -/
def Tracks (r : Reader) : Prop := r.boundary = {} ∨ r.boundary.started = true

theorem Tracks.feed (h : r.Tracks) (bytes : List UInt8) : (r.feed bytes).Tracks := h

/-- A value comes from the front of the buffer, whatever will follow, and the rest stays there for
a new scan. -/
theorem poll_eq_value (hd : (Wire.decoder (α := α)).Lawful) (ho : (Wire.decoder (α := α)).Opens)
    (h : r.poll α = (.value a, r')) (more : List UInt8) :
    decodeFirst Wire.decoder (r.buffer ++ more) = .value a (r'.buffer ++ more) ∧
    r'.boundary = {} := by
  unfold poll at h
  split at h
  · split at h
    · simp at h
    · next a' rest ha =>
      obtain ⟨h₁, rfl⟩ := Prod.mk.inj h
      obtain rfl := Poll.value.inj h₁
      exact ⟨decodeFirst_extend hd ho ha Json.blank_nil more, rfl⟩
    · simp at h
    · simp at h
  · simp at h

/-- Without a value only white space is lost. -/
theorem poll_eq_more (ho : (Wire.decoder (α := α)).Opens) (hr : r.Tracks)
    (h : r.poll α = (.more, r')) : r'.Tracks ∧ ∃ p, Blank p ∧ r.buffer = p ++ r'.buffer := by
  have hstarted {b : Boundary} {stop : Bool} (hb : r.boundary.advance r.buffer = (b, stop)) :
      b.started = true ∨ Blank r.buffer ∧ stop = false ∨
        stop = true ∧ decodeFirst (Wire.decoder (α := α)) r.buffer = .malformed := by
    cases hbs : b.started with
    | true => exact .inl rfl
    | false =>
      right
      rcases hr with hr | hr
      · have hscan : ({} : Boundary).scan r.buffer = (b, stop) := by
          rw [← hb, Boundary.advance, hr]
          rfl
        rcases Boundary.scan_unstarted outside_empty rfl (by rw [hscan]; exact hbs) with
          ⟨hblank, hstop⟩ | ⟨hstop, p, x, t, hs, hp, hx, hshows⟩
        · rw [hscan] at hstop
          exact .inl ⟨hblank, hstop⟩
        · rw [hscan] at hstop
          refine .inr ⟨hstop, ?_⟩
          simp [decodeFirst, hs, skipSpace_blank_cons hp hx, ho _ x t hx hshows]
      · have := Boundary.started_scan hr (r.buffer.drop r.boundary.scanned)
        rw [show r.boundary.scan (r.buffer.drop r.boundary.scanned) =
          (b, stop) from hb, hbs] at this
        simp at this
  unfold poll at h
  split at h
  · next b hb =>
    split at h
    · next hblank =>
      obtain ⟨-, rfl⟩ := Prod.mk.inj h
      exact ⟨.inl rfl, r.buffer, decodeFirst_eq_blank hblank, by simp⟩
    · simp at h
    · next hinc =>
      obtain ⟨-, rfl⟩ := Prod.mk.inj h
      refine ⟨.inr ?_, [], Json.blank_nil, rfl⟩
      rcases hstarted hb with hs | ⟨-, hs⟩ | ⟨-, hs⟩
      · exact hs
      · simp at hs
      · rw [hs] at hinc
        simp at hinc
    · simp at h
  · next b hb =>
    obtain ⟨-, rfl⟩ := Prod.mk.inj h
    cases hbs : b.started with
    | true => exact ⟨.inr hbs, [], Json.blank_nil, rfl⟩
    | false =>
      rcases hstarted hb with hs | ⟨hblank, -⟩ | ⟨hs, -⟩
      · exact absurd hs (Bool.eq_false_iff.mp hbs)
      · exact ⟨.inl rfl, r.buffer, hblank, by simp⟩
      · simp at hs

/-- Where waiting takes a message from, if it finds one. -/
theorem await_eq_value (hd : (Wire.decoder (α := α)).Lawful) (ho : (Wire.decoder (α := α)).Opens)
    (hr : r.Tracks) {isOpen : Bool} {budget : Option Nat} {stream left : List Event}
    (h : r.await α isOpen budget stream = ⟨.value a, r', left⟩) (more : List UInt8) :
    decodeFirst Wire.decoder (r.buffer ++ (carried stream ++ more)) =
      .value a (r'.buffer ++ (carried left ++ more)) ∧ r'.boundary = {} := by
  have hforever (budget : Option Nat) : waitForever budget ≠ .value a := by
    cases budget <;> simp [waitForever]
  induction stream generalizing r budget with
  | nil =>
    have ho := (Receipt.mk.inj h).1
    split at ho
    · exact absurd ho (hforever budget)
    · simp at ho
  | cons e stream ih =>
    cases e with
    | bytes bs =>
      have hb : r.buffer ++ (carried (.bytes bs :: stream) ++ more) =
          (r.feed bs).buffer ++ (carried stream ++ more) := by
        simp [carried, Reader.feed]
      rw [hb]
      rw [await] at h
      split at h
      · next a' r'' hp =>
        obtain ⟨h₁, rfl, rfl⟩ := Receipt.mk.inj h
        obtain rfl := Outcome.value.inj h₁
        exact poll_eq_value hd ho hp _
      · simp at h
      · next r'' hp =>
        obtain ⟨hr', p, hblank, hbuffer⟩ := poll_eq_more ho (hr.feed bs) hp
        obtain ⟨hv, ht⟩ := ih hr' h
        refine ⟨?_, ht⟩
        rw [hbuffer, List.append_assoc]
        exact decodeFirst_behind hd ho hv hblank
    | ended => simp [await] at h
    | failed kind => simp [await] at h
    | delay n =>
      cases budget with
      | none => exact ih hr h
      | some limit =>
        rw [await] at h
        split at h
        · simp at h
        · exact ih hr h
    | silence =>
      rw [await] at h
      exact absurd (Receipt.mk.inj h).1 (hforever budget)

/-- A message that has been read is the first value of all that had come and was still to come, and
what is behind it is left for the next. -/
theorem read_eq_value (hd : (Wire.decoder (α := α)).Lawful) (ho : (Wire.decoder (α := α)).Opens)
    (hr : r.Tracks) {isOpen : Bool} {budget : Option Nat} {stream left : List Event}
    (h : r.read α isOpen budget stream = ⟨.value a, r', left⟩) (more : List UInt8) :
    decodeFirst Wire.decoder (r.buffer ++ (carried stream ++ more)) =
      .value a (r'.buffer ++ (carried left ++ more)) ∧ r'.boundary = {} := by
  rw [read] at h
  split at h
  · next a' r'' hp =>
    obtain ⟨h₁, rfl, rfl⟩ := Receipt.mk.inj h
    obtain rfl := Outcome.value.inj h₁
    exact poll_eq_value hd ho hp _
  · simp at h
  · next r'' hp =>
    obtain ⟨hr', p, hblank, hbuffer⟩ := poll_eq_more ho hr hp
    obtain ⟨hv, ht⟩ := await_eq_value hd ho hr' h more
    refine ⟨?_, ht⟩
    rw [hbuffer, List.append_assoc]
    exact decodeFirst_behind hd ho hv hblank

end Reader

end MacroBridge
