import Mathlib
import MacroBridge.Proofs.Framing.Poll
import MacroBridge.Proofs.Wire.Steady

/-!
What a new reader makes of bytes that begin with a brace and arrive cut into pieces. The outcome
can depend on the cut only where the scan first stops behind the beginning of a broken Unicode
escape.
-/
namespace MacroBridge
open Json (byte closes Ends Attempt BrokenEscape shortOf decodeFirst limitsFor
  showsItsEnd maxNesting)

namespace Boundary
variable {b : Boundary} {s t : List UInt8} {x : UInt8}

theorem quiet_or_stops (b : Boundary) (s : List UInt8) :
    b.Quiet s ∨ ∃ w x t, s = w ++ x :: t ∧ b.Quiet w ∧ ((b.after w).step x).2 = true := by
  induction s generalizing b with
  | nil => exact .inl trivial
  | cons x s ih =>
    cases hx : (b.step x).2 with
    | true => exact .inr ⟨[], x, s, rfl, trivial, hx⟩
    | false =>
      rcases ih (b.step x).1 with hq | ⟨w, y, t, rfl, hw, hy⟩
      · exact .inl ⟨hx, hq⟩
      · exact .inr ⟨x :: w, y, t, rfl, ⟨hx, hw⟩, hy⟩

/-- Within a container the scan stops at closing brackets only, and stays there until it stops. -/
theorem step_deep (h : 0 < b.depth) (x : UInt8) :
    ((b.step x).2 = true → closes x = true) ∧ ((b.step x).2 = false → 0 < (b.step x).1.depth) := by
  have hd : b.depth ≠ 0 := Nat.ne_of_gt h
  unfold step
  dsimp only
  split_ifs with _ _ _ _ _ _ hc
  · simp [h]
  · simp [h]
  · simp [h, hd]
  · simp [h]
  · simp [h]
  · simp
  · refine ⟨fun _ => by simpa [closes] using hc, fun hs => ?_⟩
    simp only [beq_eq_false_iff_ne] at hs
    exact Nat.pos_of_ne_zero hs
  · simp [h]
  · simp [h, hd]

theorem depth_after_quiet (h : 0 < b.depth) (hs : b.Quiet s) : 0 < (b.after s).depth := by
  induction s generalizing b with
  | nil => exact h
  | cons x s ih => exact ih ((step_deep h x).2 hs.1) hs.2

/-- Bytes at the end of which a scan from the start stops first. -/
def Stopped (front : List UInt8) : Prop :=
  ∃ w x, front = w ++ [x] ∧ ({} : Boundary).Quiet w ∧ ((({} : Boundary).after w).step x).2 = true

theorem Stopped.scan_eq {front : List UInt8} (h : Stopped front) (t : List UInt8) :
    ({} : Boundary).scan (front ++ t) = (({} : Boundary).after front, true) := by
  obtain ⟨w, x, rfl, hw, hx⟩ := h
  rw [List.append_assoc]
  exact scan_stop hw hx t

theorem Stopped.not_quiet {front : List UInt8} (h : Stopped front) :
    ¬ ({} : Boundary).Quiet front := by
  intro hq
  have hscan := h.scan_eq []
  rw [List.append_nil, scan_quiet hq] at hscan
  simp at hscan

/-- Of bytes that begin with a brace the scan stops nowhere, or first at a closing bracket. -/
theorem stopped_of_brace (s : List UInt8) : ({} : Boundary).Quiet (byte '\x7b' :: s) ∨
    ∃ front t, byte '\x7b' :: s = byte '\x7b' :: front ++ t ∧ Stopped (byte '\x7b' :: front) ∧
      Ends (byte '\x7b' :: front) := by
  have hopen : ({} : Boundary).step (byte '\x7b') = (({} : Boundary).opened, false) :=
    step_first ⟨rfl, rfl⟩ .object
  rcases quiet_or_stops ({} : Boundary).opened s with hq | ⟨w, x, t, rfl, hw, hx⟩
  · left
    rw [Quiet, hopen]
    exact ⟨rfl, hq⟩
  · refine .inr ⟨w ++ [x], t, by simp, ⟨byte '\x7b' :: w, x, rfl, ?_, ?_⟩, ?_⟩
    · rw [Quiet, hopen]
      exact ⟨rfl, hw⟩
    · rwa [after_cons, hopen]
    · intro y hy
      rw [← List.cons_append, List.getLast?_concat, Option.mem_some] at hy
      rw [← hy]
      exact (step_deep (depth_after_quiet (Nat.succ_pos 0) hw) x).1 hx

end Boundary

open Boundary (Stopped)

/-! ### Decoding behind the first stop -/

/-- The first value of bytes that begin with a brace, from the answer of its decoder. -/
def Json.Attempt.ofAnswer {α : Type} : Except Json.Fault (α × List UInt8) → Attempt α
  | .error .incomplete => .incomplete
  | .error .malformed => .malformed
  | .ok (a, r) => .value a r

theorem Json.decodeFirst_brace {α : Type} (d : Json.Decoder α) (s : List UInt8) :
    decodeFirst d (byte '\x7b' :: s) =
      .ofAnswer (d (limitsFor (byte '\x7b' :: s)) (byte '\x7b' :: s)) := by
  have hb : showsItsEnd (byte '\x7b') = true := by decide
  rw [decodeFirst, Json.skipSpace_cons (by decide)]
  simp only [hb, Bool.true_or, ↓reduceIte]
  cases d (limitsFor (byte '\x7b' :: s)) (byte '\x7b' :: s) with
  | error e => cases e <;> rfl
  | ok p => rfl

/-- A decoder that wants `k` bytes behind `front` and then rejects them. -/
def Breaks {α : Type} (d : Json.Decoder α) (front : List UInt8) (k : Nat) : Prop :=
  ∀ t, decodeFirst d (front ++ t) = .ofAnswer (.error (shortOf k t))

section
variable {α : Type} {d : Json.Decoder α} {front t : List UInt8} {k : Nat}

theorem Breaks.short (h : Breaks d front k) (ht : t.length < k) :
    decodeFirst d (front ++ t) = .incomplete := by
  rw [h t, shortOf, if_pos ht]
  rfl

theorem Breaks.enough (h : Breaks d front k) (ht : k ≤ t.length) :
    decodeFirst d (front ++ t) = .malformed := by
  rw [h t, shortOf, if_neg (Nat.not_lt.mpr ht)]
  rfl

end

/-- What a decoder makes of `front`, and of it with anything behind it. -/
inductive Settled {α : Type} (d : Json.Decoder α) (front : List UInt8) : Prop
  | value (a : α) (r : List UInt8) (h : ∀ t, decodeFirst d (front ++ t) = .value a (r ++ t))
  | malformed (h : ∀ t, decodeFirst d (front ++ t) = .malformed)
  | broken (k : Nat) (hf : BrokenEscape k front) (h : Breaks d front k)

/-- At the first stop a decoder has all that it needs, but for a broken escape. -/
theorem Json.Decoder.Steady.settled {α : Type} {d : Json.Decoder α} (hd : d.Steady)
    {front : List UInt8} (hs : Stopped (byte '\x7b' :: front)) (he : Ends (byte '\x7b' :: front)) :
    Settled d (byte '\x7b' :: front) := by
  have hrun (t : List UInt8) : decodeFirst d (byte '\x7b' :: front ++ t) =
      .ofAnswer (d.within maxNesting ((byte '\x7b' :: front ++ t).length + 1)
        ((byte '\x7b' :: front ++ t).length + 1) (byte '\x7b' :: front ++ t)) :=
    Json.decodeFirst_brace d (front ++ t)
  have hample (t : List UInt8) : Json.Ample ((byte '\x7b' :: front ++ t).length + 1)
      ((byte '\x7b' :: front ++ t).length + 1) (byte '\x7b' :: front ++ t) :=
        ⟨Nat.lt_succ_self _, Nat.lt_succ_self _⟩
  cases hd maxNesting he with
  | value a w r _ _ more => exact .value a r fun t => by rw [hrun, more t _ _ (hample t)]; rfl
  | malformed more => exact .malformed fun t => by rw [hrun, more t _ _ (hample t)]; rfl
  | waiting _ quiet => exact absurd (quiet _ ⟨rfl, rfl⟩) hs.not_quiet
  | broken k hk more => exact .broken k hk fun t => by rw [hrun, more t _ _ (hample t)]

namespace Reader
variable {α : Type} [Wire α] {r : Reader} {front near far seen s t u : List UInt8} {k : Nat}
  {pieces : List (List UInt8)}

/-! ### Up to the first stop -/

/-- While the scan has not stopped the reader waits and keeps what it has. -/
theorem poll_quiet (α : Type) [Wire α] (h : r.Sound) (hq : ({} : Boundary).Quiet r.buffer)
    (hb : r.buffer = [] ∨ ∃ s, r.buffer = byte '\x7b' :: s) :
    ∃ r', r.poll α = (.more, r') ∧ r'.Sound ∧ r'.buffer = r.buffer := by
  rcases hb with hb | ⟨s, hb⟩
  · refine ⟨{}, poll_blank h ?_, sound_fresh [], hb.symm⟩
    rw [hb]
    exact Json.blank_nil
  · have hstarted : (({} : Boundary).after r.buffer).started = true := by
      rw [hb]
      exact Boundary.started_of_showsItsEnd outside_empty (by decide) s
    refine ⟨{ r with boundary := ({} : Boundary).after r.buffer }, ?_,
      ⟨r.buffer, [], by simp, rfl, hq⟩, rfl⟩
    simp [poll, h.advance_eq, Boundary.scan_quiet hq, hstarted]

/-- The front of bytes that begin with a brace. -/
theorem eq_nil_or_brace (h : r.buffer ++ t = byte '\x7b' :: s) :
    r.buffer = [] ∨ ∃ s, r.buffer = byte '\x7b' :: s := by
  cases hb : r.buffer with
  | nil => exact .inl rfl
  | cons x v =>
    rw [hb] at h
    exact .inr ⟨v, by rw [(List.cons.inj h).1]⟩

/-- Without a stop the stream ends before there is a message. -/
theorem read_quiet (h : r.Sound) (hq : ({} : Boundary).Quiet (byte '\x7b' :: s))
    (hb : r.buffer ++ pieces.flatten = byte '\x7b' :: s) :
    (r.read α false none (pieces.map .bytes)).outcome = .failed .unexpectedEof := by
  induction pieces generalizing r with
  | nil =>
    rw [List.flatten_nil, List.append_nil] at hb
    obtain ⟨r', hp, -, -⟩ := poll_quiet α h (hb ▸ hq) (.inr ⟨s, hb⟩)
    rw [read, hp]
    rfl
  | cons bs pieces ih =>
    rw [← hb, Boundary.quiet_append] at hq
    obtain ⟨r', hp, hr', hbuffer⟩ := poll_quiet α h hq.1 (eq_nil_or_brace hb)
    rw [read, hp]
    simp only [List.map_cons, await_bytes]
    apply ih (hr'.feed bs)
    simpa [Reader.feed, hbuffer] using hb

/-- The reader comes to the first stop with some bytes behind it. -/
theorem read_reaches (h : r.Sound) (hs : Stopped (byte '\x7b' :: front))
    (hb : r.buffer ++ pieces.flatten = byte '\x7b' :: front ++ t) :
    ∃ (r' : Reader) (t' : List UInt8) (rest : List (List UInt8)), r'.Sound ∧
      r'.buffer = byte '\x7b' :: front ++ t' ∧ t' ++ rest.flatten = t ∧
      r.read α false none (pieces.map .bytes) = r'.read α false none (rest.map .bytes) := by
  induction pieces generalizing r with
  | nil =>
    rw [List.flatten_nil, List.append_nil] at hb
    exact ⟨r, t, [], h, hb, List.append_nil t, rfl⟩
  | cons bs pieces ih =>
    have hfront := eq_nil_or_brace hb
    rcases List.append_eq_append_iff.mp hb with ⟨q, hq, hrest⟩ | ⟨q, hq, hrest⟩
    · by_cases hnil : q = []
      · rw [hnil, List.append_nil] at hq
        rw [hnil, List.nil_append] at hrest
        exact ⟨r, [], bs :: pieces, h, by rw [List.append_nil, hq], hrest, rfl⟩
      · have hquiet : ({} : Boundary).Quiet r.buffer := by
          obtain ⟨w, x, hw, hquiet, -⟩ := hs
          obtain ⟨q', y, rfl⟩ := List.eq_nil_or_concat q |>.resolve_left hnil
          rw [hw, List.concat_eq_append, ← List.append_assoc] at hq
          rw [(List.append_inj' hq rfl).1, Boundary.quiet_append] at hquiet
          exact hquiet.1
        obtain ⟨r', hp, hr', hbuffer⟩ := poll_quiet α h hquiet hfront
        obtain ⟨r'', t', rest, hr'', hb'', ht, hread⟩ :=
          ih (hr'.feed bs) (by simpa [Reader.feed, hbuffer] using hb)
        refine ⟨r'', t', rest, hr'', hb'', ht, ?_⟩
        rw [← hread, read, hp]
        simp only [List.map_cons, await_bytes]
    · exact ⟨r, q, bs :: pieces, h, hq, hrest.symm, rfl⟩

/-- At a stop the reader looks for a value at the front of its buffer. -/
theorem poll_stopped {b : Boundary} (h : r.boundary.advance r.buffer = (b, true)) :
    r.poll α = match decodeFirst (Wire.decoder (α := α)) r.buffer with
      | .blank => (.more, {})
      | .value a rest => (.value a, { buffer := rest })
      | .incomplete => (.more, { r with boundary := b })
      | .malformed => (.malformed, { r with boundary := b }) := by
  cases hd : decodeFirst (Wire.decoder (α := α)) r.buffer with
  | blank | value | incomplete | malformed => simp only [poll, h, hd]

theorem Sound.advance_front (h : r.Sound) (hs : Stopped front) (hb : r.buffer = front ++ t) :
    r.boundary.advance r.buffer = (({} : Boundary).after front, true) := by
  rw [h.advance_eq, hb, hs.scan_eq]

/-! ### Behind a broken escape -/

/-- Whether no scan that goes on behind `front` stops in `t` once it has seen `k` bytes of it. -/
def Calm (front : List UInt8) (k : Nat) (t : List UInt8) : Prop :=
  ∃ near far, t = near ++ far ∧ near.length < k ∧ (({} : Boundary).after (front ++ near)).Quiet far

theorem calm_of_short (h : t.length < k) : Calm front k t :=
  ⟨t, [], (List.append_nil t).symm, h, trivial⟩

theorem Calm.append (h : Calm front k seen)
    (hq : (({} : Boundary).after (front ++ seen)).Quiet far) : Calm front k (seen ++ far) := by
  obtain ⟨near, far', rfl, hlt, hq'⟩ := h
  refine ⟨near, far' ++ far, List.append_assoc near far' far, hlt,
    Boundary.quiet_append.mpr ⟨hq', ?_⟩⟩
  rwa [← Boundary.after_append, List.append_assoc]

/-- A reader that has scanned `seen` behind the first stop, and has `u` behind that. -/
structure Late (front seen u : List UInt8) (r : Reader) : Prop where
  boundary : r.boundary = ({} : Boundary).after (front ++ seen)
  buffer : r.buffer = front ++ (seen ++ u)

theorem Late.advance_eq (h : r.Late front seen u) :
    r.boundary.advance r.buffer = (({} : Boundary).after (front ++ seen)).scan u := by
  rw [Boundary.advance, h.boundary, h.buffer, Boundary.scanned_after, ← List.append_assoc]
  simp

theorem Late.feed (h : r.Late front seen u) (bs : List UInt8) :
    (r.feed bs).Late front seen (u ++ bs) :=
  ⟨h.boundary, by simp [Reader.feed, h.buffer]⟩

theorem started_front (seen : List UInt8) :
    (({} : Boundary).after (byte '\x7b' :: front ++ seen)).started = true :=
  Boundary.started_of_showsItsEnd outside_empty (by decide) (front ++ seen)

theorem Late.poll_quiet (α : Type) [Wire α] (h : r.Late (byte '\x7b' :: front) seen u)
    (hq : (({} : Boundary).after (byte '\x7b' :: front ++ seen)).Quiet u) :
    ∃ r', r.poll α = (.more, r') ∧ r'.Late (byte '\x7b' :: front) (seen ++ u) [] := by
  refine ⟨{ r with boundary := ({} : Boundary).after (byte '\x7b' :: front ++ (seen ++ u)) }, ?_,
    rfl, ?_⟩
  · rw [poll, h.advance_eq, Boundary.scan_quiet hq, ← Boundary.after_append, List.append_assoc]
    simp only [started_front, ↓reduceIte]
  · rw [List.append_nil]
    exact h.buffer

theorem Late.poll_stop (hd : Breaks (Wire.decoder (α := α)) front k) {w v : List UInt8} {x : UInt8}
    (h : r.Late front seen (w ++ x :: v)) (hw : (({} : Boundary).after (front ++ seen)).Quiet w)
    (hx : (((({} : Boundary).after (front ++ seen)).after w).step x).2 = true) :
    (k ≤ (seen ++ (w ++ x :: v)).length ∧ ∃ r', r.poll α = (.malformed, r')) ∨
      (seen ++ (w ++ x :: v)).length < k ∧ ∃ r', r.poll α = (.more, r') ∧
        r'.Late front (seen ++ (w ++ [x])) v := by
  have hscan : r.boundary.advance r.buffer =
      (({} : Boundary).after (front ++ (seen ++ (w ++ [x]))), true) := by
    rw [h.advance_eq, Boundary.scan_stop hw hx v, ← Boundary.after_append, List.append_assoc]
  rcases Nat.lt_or_ge (seen ++ (w ++ x :: v)).length k with hlt | hge
  · refine .inr ⟨hlt, { r with boundary := ({} : Boundary).after (front ++ (seen ++ (w ++ [x]))) },
      ?_, rfl, ?_⟩
    · rw [poll_stopped hscan, h.buffer, hd.short hlt]
    · simp [h.buffer]
  · refine .inl ⟨hge, { r with
      boundary := ({} : Boundary).after (front ++ (seen ++ (w ++ [x]))) }, ?_⟩
    rw [poll_stopped hscan, h.buffer, hd.enough hge]

/-- Behind a broken escape the bytes are rejected or the stream ends; it does only if the rest is
calm. -/
theorem Late.read (hd : Breaks (Wire.decoder (α := α)) (byte '\x7b' :: front) k)
    (h : r.Late (byte '\x7b' :: front) seen u) (hc : Calm (byte '\x7b' :: front) k seen)
    (ht : seen ++ u ++ pieces.flatten = t) :
    ((r.read α false none (pieces.map .bytes)).outcome = .failed .decode ∧ k ≤ t.length) ∨
      ((r.read α false none (pieces.map .bytes)).outcome = .failed .unexpectedEof ∧
        Calm (byte '\x7b' :: front) k t) := by
  induction pieces generalizing r seen u with
  | nil =>
    rw [List.flatten_nil, List.append_nil] at ht
    subst ht
    rw [Reader.read]
    rcases Boundary.quiet_or_stops (({} : Boundary).after (byte '\x7b' :: front ++ seen)) u with
      hq | ⟨w, x, v, rfl, hw, hx⟩
    · obtain ⟨r', hp, -⟩ := h.poll_quiet α hq
      rw [hp]
      exact .inr ⟨rfl, hc.append hq⟩
    · rcases h.poll_stop hd hw hx with ⟨hge, r', hp⟩ | ⟨hlt, r', hp, -⟩
      · rw [hp]
        exact .inl ⟨rfl, hge⟩
      · rw [hp]
        exact .inr ⟨rfl, calm_of_short hlt⟩
  | cons bs pieces ih =>
    rw [Reader.read]
    rcases Boundary.quiet_or_stops (({} : Boundary).after (byte '\x7b' :: front ++ seen)) u with
      hq | ⟨w, x, v, rfl, hw, hx⟩
    · obtain ⟨r', hp, hr'⟩ := h.poll_quiet α hq
      rw [hp]
      simp only [List.map_cons, await_bytes]
      exact ih (hr'.feed bs) (hc.append hq) (by simpa using ht)
    · rcases h.poll_stop hd hw hx with ⟨hge, r', hp⟩ | ⟨hlt, r', hp, hr'⟩
      · rw [hp]
        refine .inl ⟨rfl, ?_⟩
        rw [← ht, List.length_append]
        omega
      · rw [hp]
        simp only [List.map_cons, await_bytes]
        apply ih (hr'.feed bs) (calm_of_short ?_) (by simpa using ht)
        simp only [List.length_append, List.length_cons] at hlt ⊢
        simp only [List.length_nil]
        omega

/-- The escape is seen whole, or the stream ends. -/
theorem read_front (hd : Breaks (Wire.decoder (α := α)) (byte '\x7b' :: front) k) (hk : 0 < k)
    (hs : Stopped (byte '\x7b' :: front)) (hb : r.Sound)
    (hbuffer : r.buffer = byte '\x7b' :: front ++ u) (ht : u ++ pieces.flatten = t) :
    ((r.read α false none (pieces.map .bytes)).outcome = .failed .decode ∧ k ≤ t.length) ∨
      ((r.read α false none (pieces.map .bytes)).outcome = .failed .unexpectedEof ∧
        Calm (byte '\x7b' :: front) k t) := by
  rw [read, poll_stopped (hb.advance_front hs hbuffer), hbuffer]
  rcases Nat.lt_or_ge u.length k with hlt | hge
  · rw [hd.short hlt]
    cases pieces with
    | nil =>
      rw [List.flatten_nil, List.append_nil] at ht
      exact .inr ⟨rfl, ht ▸ calm_of_short hlt⟩
    | cons bs pieces =>
      have hlate : ({ r with boundary := ({} : Boundary).after (byte '\x7b' :: front) }
        : Reader).Late
          (byte '\x7b' :: front) [] u := ⟨by rw [List.append_nil], hbuffer⟩
      simp only [List.map_cons, await_bytes, ← hbuffer]
      exact (hlate.feed bs).read hd (calm_of_short hk) (by simpa using ht)
  · rw [hd.enough hge]
    refine .inl ⟨rfl, ?_⟩
    rw [← ht, List.length_append]
    omega

/-! ### Cuts -/

/-- Pieces into which some bytes are cut, none of them empty. -/
structure Cut (s : List UInt8) (pieces : List (List UInt8)) : Prop where
  flatten : pieces.flatten = s
  filled : [] ∉ pieces

/-- How the first call on a new reader ends when the bytes come in these pieces and then the stream
ends. -/
def firstOutcome (α : Type) [Wire α] (pieces : List (List UInt8)) : Outcome α :=
  (({} : Reader).read α false none (pieces.map .bytes)).outcome

/-- The scan first stops behind the beginning of a broken escape, and no longer where the bytes
that the escape lacks have come. The decoder may have met a fault before the escape, so this alone
does not make the cut matter. -/
def Stalls (s : List UInt8) : Prop :=
  ∃ front t k, s = front ++ t ∧ Stopped front ∧ BrokenEscape k front ∧ k ≤ t.length ∧
    Calm front k t

theorem read_fresh (bs : List UInt8) (stream : List Event) :
    ({} : Reader).read α false none (.bytes bs :: stream) =
    (({} : Reader).feed bs).read α false none stream := by
  rw [read, poll_blank (sound_fresh []) Json.blank_nil, ← await_bytes]

/-- In one piece the escape is seen whole. -/
theorem firstOutcome_whole (hd : Breaks (Wire.decoder (α := α)) front k) (hs : Stopped front)
    (ht : k ≤ t.length) : firstOutcome α [front ++ t] = .failed .decode := by
  have hb : (({} : Reader).feed (front ++ t)).buffer = front ++ t := rfl
  have hscan := ((sound_fresh []).feed (front ++ t)).advance_front hs hb
  rw [firstOutcome, List.map_singleton, read_fresh, read, poll_stopped hscan, hb, hd.enough ht]

theorem Late.poll_one (hd : Breaks (Wire.decoder (α := α)) (byte '\x7b' :: front) k) {x : UInt8}
    (h : r.Late (byte '\x7b' :: front) seen [x]) (hlt : (seen ++ [x]).length < k) :
    ∃ r', r.poll α = (.more, r') ∧ r'.Late (byte '\x7b' :: front) (seen ++ [x]) [] := by
  cases hx : ((({} : Boundary).after (byte '\x7b' :: front ++ seen)).step x).2 with
  | false => exact h.poll_quiet α ⟨hx, trivial⟩
  | true =>
    rcases h.poll_stop (w := []) hd trivial hx with ⟨hge, -⟩ | ⟨-, hmore⟩
    · exact absurd hlt (Nat.not_lt.mpr hge)
    · exact hmore

/-- Bytes that come one by one are all scanned. -/
theorem Late.await_bytewise (hd : Breaks (Wire.decoder (α := α)) (byte '\x7b' :: front) k)
    (h : r.Late (byte '\x7b' :: front) seen []) (near : List UInt8)
    (hlt : (seen ++ near).length < k) (stream : List Event) :
    ∃ r' : Reader, r'.Late (byte '\x7b' :: front) (seen ++ near) [] ∧
      r.await α false none (near.map (fun x => .bytes [x]) ++ stream) =
        r'.await α false none stream := by
  induction near generalizing r seen with
  | nil => exact ⟨r, by rwa [List.append_nil], rfl⟩
  | cons x near ih =>
    have hone : (seen ++ [x]).length < k := by
      simp only [List.length_append, List.length_cons, List.length_nil] at hlt ⊢
      omega
    obtain ⟨r', hp, hr'⟩ := (h.feed [x]).poll_one hd hone
    obtain ⟨r'', hr'', hawait⟩ := ih hr' (by simpa using hlt)
    refine ⟨r'', by simpa using hr'', ?_⟩
    rw [List.map_cons, List.cons_append, await_bytes, Reader.read, hp]
    exact hawait

theorem cut_bytewise (hf : front ≠ []) (hfar : far ≠ []) :
    Cut (front ++ (near ++ far)) (front :: (near.map (fun x => [x]) ++ [far])) where
  flatten := by
    rw [List.flatten_cons, List.flatten_append, List.flatten_singleton, ← List.flatMap_def,
      List.flatMap_singleton']
  filled := by simp [hf.symm, hfar.symm]

/-- One by one, and then the calm rest in one piece, the bytes never show the escape whole. -/
theorem firstOutcome_bytewise (hd : Breaks (Wire.decoder (α := α)) (byte '\x7b' :: front) k)
    (hs : Stopped (byte '\x7b' :: front)) (hlt : near.length < k)
    (hq : (({} : Boundary).after (byte '\x7b' :: front ++ near)).Quiet far) :
    firstOutcome α ((byte '\x7b' :: front) :: (near.map (fun x => [x]) ++ [far])) =
      .failed .unexpectedEof := by
  have hb : (({} : Reader).feed (byte '\x7b' :: front)).buffer = byte '\x7b' :: front ++ [] :=
    (List.append_nil _).symm
  have hscan := ((sound_fresh []).feed (byte '\x7b' :: front)).advance_front hs hb
  have hlate : Late (byte '\x7b' :: front) [] []
      ⟨byte '\x7b' :: front ++ [], ({} : Boundary).after (byte '\x7b' :: front)⟩ :=
        ⟨by rw [List.append_nil], rfl⟩
  obtain ⟨r', hr', hawait⟩ := hlate.await_bytewise hd near hlt [.bytes far]
  obtain ⟨r'', hp, -⟩ := (hr'.feed far).poll_quiet α hq
  have hevents : ((near.map fun x => [x]) ++ [far]).map Event.bytes =
      near.map (fun x => .bytes [x]) ++ [.bytes far] := by simp
  rw [firstOutcome, List.map_cons, hevents, read_fresh, read, poll_stopped hscan, hb,
    hd.short (t := []) (Nat.zero_lt_of_lt hlt)]
  simp only [hawait, await_bytes, read, hp]
  rfl

end Reader

open Reader (Cut Stalls Calm firstOutcome)

/-- The first message of bytes that begin with a brace. Either all cuts give the same outcome, or
the bytes stall, each cut gives one of two faults, and each of these comes from some cut. -/
theorem firstOutcome_cut (type : MessageType) {s : List UInt8}
    (hs : s.head? = some (byte '\x7b')) :
    (∃ outcome, ∀ pieces, Cut s pieces → firstOutcome type.Value pieces = outcome) ∨
      Stalls s ∧
        (∃ pieces, Cut s pieces ∧ firstOutcome type.Value pieces = .failed .decode) ∧
        (∃ pieces, Cut s pieces ∧ firstOutcome type.Value pieces = .failed .unexpectedEof) ∧
        ∀ pieces, Cut s pieces → firstOutcome type.Value pieces = .failed .decode ∨
          firstOutcome type.Value pieces = .failed .unexpectedEof := by
  obtain ⟨v, rfl⟩ : ∃ v, s = byte '\x7b' :: v := by
    cases s with
    | nil => simp at hs
    | cons x v => exact ⟨v, by rw [Option.some.inj hs]⟩
  rcases Boundary.stopped_of_brace v with hq | ⟨front, t, hv, hstop, hend⟩
  · refine .inl ⟨.failed .unexpectedEof, fun pieces hc => ?_⟩
    exact Reader.read_quiet (Reader.sound_fresh []) hq hc.flatten
  rw [hv]
  have hreach {pieces : List (List UInt8)} (hc : Cut (byte '\x7b' :: front ++ t) pieces) :=
    Reader.read_reaches (α := type.Value) (Reader.sound_fresh []) hstop hc.flatten
  cases type.steady.settled hstop hend with
  | value a r h =>
    refine .inl ⟨.value a, fun pieces hc => ?_⟩
    obtain ⟨r', t', rest, hr', hb, -, hread⟩ := hreach hc
    rw [firstOutcome, hread, Reader.read,
      Reader.poll_stopped (hr'.advance_front hstop hb), hb, h t']
  | malformed h =>
    refine .inl ⟨.failed .decode, fun pieces hc => ?_⟩
    obtain ⟨r', t', rest, hr', hb, -, hread⟩ := hreach hc
    rw [firstOutcome, hread, Reader.read,
      Reader.poll_stopped (hr'.advance_front hstop hb), hb, h t']
  | broken k hk hd =>
    have hcases (pieces : List (List UInt8)) (hc : Cut (byte '\x7b' :: front ++ t) pieces) :
        (firstOutcome type.Value pieces = .failed .decode ∧ k ≤ t.length) ∨
          (firstOutcome type.Value pieces = .failed .unexpectedEof ∧
            Calm (byte '\x7b' :: front) k t) := by
      obtain ⟨r', t', rest, hr', hb, ht, hread⟩ := hreach hc
      rw [firstOutcome, hread]
      exact Reader.read_front hd hk.1 hstop hr' hb ht
    by_cases hlong : k ≤ t.length
    · by_cases hcalm : Calm (byte '\x7b' :: front) k t
      · right
        refine ⟨⟨_, t, k, rfl, hstop, hk, hlong, hcalm⟩, ?_, ?_, fun pieces hc => ?_⟩
        · refine ⟨_, ⟨List.flatten_singleton, ?_⟩, Reader.firstOutcome_whole hd hstop hlong⟩
          simp
        · obtain ⟨near, far, rfl, hlt, hquiet⟩ := hcalm
          have hfar : far ≠ [] := by
            rintro rfl
            rw [List.append_nil] at hlong
            exact absurd hlt (Nat.not_lt.mpr hlong)
          exact ⟨_, Reader.cut_bytewise (List.cons_ne_nil _ _) hfar,
            Reader.firstOutcome_bytewise hd hstop hlt hquiet⟩
        · exact (hcases pieces hc).imp And.left And.left
      · refine .inl ⟨.failed .decode, fun pieces hc => ?_⟩
        rcases hcases pieces hc with ⟨h, -⟩ | ⟨-, h⟩
        · exact h
        · exact absurd h hcalm
    · refine .inl ⟨.failed .unexpectedEof, fun pieces hc => ?_⟩
      rcases hcases pieces hc with ⟨-, h⟩ | ⟨h, -⟩
      · exact absurd h hlong
      · exact h

/-- A reply with a Unicode escape that three wrong bytes stand behind, and its newline. -/
def brokenReply : List UInt8 := "\x7b\"Error\":\x7b\"code\":\"\\u\"\x7d\x7d".toList.map byte

theorem firstOutcome_cut_brokenReply : (brokenReply ++ [byte '\n']).head? = some (byte '\x7b') ∧
    ((∃ outcome, ∀ pieces, Cut (brokenReply ++ [byte '\n']) pieces →
      firstOutcome Response pieces = outcome) ∨
      Stalls (brokenReply ++ [byte '\n']) ∧
        (∃ pieces, Cut (brokenReply ++ [byte '\n']) pieces ∧
          firstOutcome Response pieces = .failed .decode) ∧
        (∃ pieces, Cut (brokenReply ++ [byte '\n']) pieces ∧
          firstOutcome Response pieces = .failed .unexpectedEof) ∧
        ∀ pieces, Cut (brokenReply ++ [byte '\n']) pieces →
          firstOutcome Response pieces = .failed .decode ∨
          firstOutcome Response pieces = .failed .unexpectedEof) :=
  ⟨by decide, firstOutcome_cut .response (by decide)⟩

set_option maxRecDepth 4000 in
/-- The reply with its newline is rejected, and still awaited at the end of the stream if the
newline comes by itself. -/
theorem brokenReply_outcomes : (brokenReply ++ [byte '\n']).head? = some (byte '\x7b') ∧
    Cut (brokenReply ++ [byte '\n']) [brokenReply ++ [byte '\n']] ∧
    Cut (brokenReply ++ [byte '\n']) [brokenReply, [byte '\n']] ∧
    firstOutcome Response [brokenReply ++ [byte '\n']] = .failed .decode ∧
    firstOutcome Response [brokenReply, [byte '\n']] = .failed .unexpectedEof := by
  refine ⟨by decide, ⟨by decide, by decide⟩, ⟨by decide, by decide⟩, ?_, ?_⟩
  · cbv
  · cbv

end MacroBridge
