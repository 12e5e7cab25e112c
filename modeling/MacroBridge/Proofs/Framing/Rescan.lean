import MacroBridge.Proofs.Framing.Exact

/-!
The state of the scan between calls. Whatever has been read, and however the calls have ended, it
is the state of a scan from the start of the buffer, so that nothing depends on where a call has
stopped, and no byte of a buffer is looked at twice.

What is looked at is seen in a reader with a log, which is the reader once the log is left out.
-/
namespace MacroBridge
open Json (byte decodeFirst)

namespace Boundary
variable {b : Boundary} {s t u v : List UInt8} {x : UInt8} {k : Nat}

theorem called_append (b : Boundary) (earlier later : List (List UInt8)) :
    b.called (earlier ++ later) = (b.called earlier).called later := by
  simp [called]

theorem called_cons (b : Boundary) (s : List UInt8) (buffers : List (List UInt8)) :
    b.called (s :: buffers) = (b.advance s).1.called buffers := rfl

/-- The scan leaves the state behind all that it has looked at. -/
theorem scan_eq (b : Boundary) (s : List UInt8) :
    b.Quiet s ∧ b.scan s = (b.after s, false) ∨
      ∃ w x t, s = w ++ x :: t ∧ b.scan s = (b.after (w ++ [x]), true) := by
  rcases quiet_or_stops b s with hq | ⟨w, x, t, rfl, hq, hx⟩
  · exact .inl ⟨hq, scan_quiet hq⟩
  · exact .inr ⟨w, x, t, rfl, scan_stop hq hx t⟩

/-- Calls with the same bytes again and again come to the end of them, however often the scan
stops. -/
theorem called_replicate (h : v.length < k) :
    (({} : Boundary).after u).called (List.replicate k (u ++ v)) =
    ({} : Boundary).after (u ++ v) := by
  induction k generalizing u v with
  | zero => exact absurd h (Nat.not_lt_zero _)
  | succ k ih =>
    rw [List.replicate_succ, called_cons, advance_after]
    rcases scan_eq (({} : Boundary).after u) v with ⟨-, hscan⟩ | ⟨w, x, t, rfl, hscan⟩
    · rw [hscan, ← after_append]
      cases k with
      | zero => rfl
      | succ k => simpa using ih (u := u ++ v) (v := []) (Nat.succ_pos k)
    · have hlen : t.length < k := by
        simp only [List.length_append, List.length_cons] at h
        omega
      rw [hscan, ← after_append]
      simpa using ih (u := u ++ (w ++ [x])) (v := t) hlen

/-- A scan from the start that goes on behind each stop comes to the same answer as one that has
already seen a part of the buffer. -/
theorem exists_called_advance (u v : List UInt8) : ∃ k,
    (({} : Boundary).called (List.replicate k (u ++ v))).advance (u ++ v) =
      (({} : Boundary).after u).advance (u ++ v) := by
  -- Of what has been seen, the last byte is given back; the call that looks at it again is one
  -- more if it stops there.
  induction u using List.reverseRecOn generalizing v with
  | nil => exact ⟨0, rfl⟩
  | append_singleton u x ih =>
    obtain ⟨k, hk⟩ := ih (x :: v)
    have hs : u ++ [x] ++ v = u ++ x :: v := List.append_assoc u [x] v
    have hnext : ((({} : Boundary).after u).step x).1 = ({} : Boundary).after (u ++ [x]) := by
      rw [after_append]
      rfl
    rw [advance_after, scan] at hk
    cases hx : (({} : Boundary).after u).step x with
    | mk b stop =>
      rw [hx] at hk hnext
      cases stop with
      | true =>
        refine ⟨k + 1, ?_⟩
        rw [hs, List.replicate_succ', called_append, called_cons, hk, ← hnext]
        rfl
      | false =>
        refine ⟨k, ?_⟩
        rw [hs, hk, ← hs, advance_after, ← hnext]

/-- The scan with the positions of the bytes that it looks at. -/
def scanLogged (b : Boundary) : List UInt8 → (Boundary × Bool) × List Nat
  | [] => ((b, false), [])
  | x :: s =>
      match b.step x with
      | (next, true) => ((next, true), [b.scanned])
      | (next, false) =>
          let behind := next.scanLogged s
          (behind.1, b.scanned :: behind.2)

@[simp] theorem scanLogged_value (b : Boundary) (s : List UInt8) :
    (b.scanLogged s).1 = b.scan s := by
  fun_induction scanLogged b s with
  | case1 b => rfl
  | case2 b x s next hx => rw [scan, hx]
  | case3 b x s next hx behind ih => rw [scan, hx, ih]

/-- The scan looks at a first part of the bytes, one after the other, and leaves the state behind
them. -/
theorem scanLogged_eq (b : Boundary) (s : List UInt8) : ∃ u v, s = u ++ v ∧
    (b.scanLogged s).1.1 = b.after u ∧ (b.scanLogged s).2 = List.range' b.scanned u.length := by
  fun_induction scanLogged b s with
  | case1 b => exact ⟨[], [], rfl, rfl, rfl⟩
  | case2 b x s next hx =>
    have hnext : next = (b.step x).1 := by rw [hx]
    exact ⟨[x], s, rfl, hnext, rfl⟩
  | case3 b x s next hx behind ih =>
    obtain ⟨u, v, hs, hscan, hlog⟩ := ih
    have hnext : next = (b.step x).1 := by rw [hx]
    have hscanned : next.scanned = b.scanned + 1 := by rw [hnext, scanned_step]
    refine ⟨x :: u, v, by rw [hs, List.cons_append], by rw [after_cons, ← hnext, hscan], ?_⟩
    rw [hlog, hscanned, List.length_cons, List.range'_succ]

/-- The scan of what has not been scanned yet, with the positions that it looks at. -/
def advanceLogged (b : Boundary) (buffer : List UInt8) : (Boundary × Bool) × List Nat :=
  b.scanLogged (buffer.drop b.scanned)

@[simp] theorem advanceLogged_value (b : Boundary) (buffer : List UInt8) :
    (b.advanceLogged buffer).1 = b.advance buffer := b.scanLogged_value _

end Boundary

/-! ### Calls -/

namespace Reader
variable {r : Reader}

/-- Whether the state of the scan is that of a scan of a first part of the buffer, which may have
stopped in it. -/
def Described (r : Reader) : Prop :=
  ∃ s u, r.buffer = s ++ u ∧ r.boundary = ({} : Boundary).after s

theorem described_of_fresh (h : r.boundary = {}) : r.Described := ⟨[], r.buffer, rfl, h⟩

namespace Described

theorem scanned_le (h : r.Described) : r.boundary.scanned ≤ r.buffer.length := by
  obtain ⟨s, u, hb, hs⟩ := h
  rw [hb, hs, Boundary.scanned_after, List.length_append, Nat.zero_add]
  exact Nat.le_add_right _ _

theorem boundary_eq (h : r.Described) :
    r.boundary = ({} : Boundary).after (r.buffer.take r.boundary.scanned) := by
  obtain ⟨s, u, hb, hs⟩ := h
  have hscanned : r.boundary.scanned = s.length := by rw [hs, Boundary.scanned_after, Nat.zero_add]
  rw [hscanned, hb, List.take_left, hs]

theorem feed (h : r.Described) (bytes : List UInt8) : (r.feed bytes).Described := by
  obtain ⟨s, u, hb, hs⟩ := h
  exact ⟨s, u ++ bytes, by simp [Reader.feed, hb], hs⟩

/-- A look at the buffer scans on behind the bytes that have been scanned. -/
theorem advance (h : r.Described) : ∃ s u, r.buffer = s ++ u ∧
    (r.boundary.advanceLogged r.buffer).1.1 = ({} : Boundary).after s ∧
    List.range r.boundary.scanned ++ (r.boundary.advanceLogged r.buffer).2 =
      List.range s.length := by
  obtain ⟨s, u, hb, hs⟩ := h
  have hscanned : r.boundary.scanned = s.length := by rw [hs, Boundary.scanned_after, Nat.zero_add]
  obtain ⟨w, v, rfl, hscan, hlog⟩ := r.boundary.scanLogged_eq u
  rw [Boundary.advanceLogged, hscanned, hb, List.drop_left, hscan, hlog, hscanned]
  refine ⟨s ++ w, v, (List.append_assoc s w v).symm, ?_, ?_⟩
  · rw [hs, Boundary.after_append]
  · rw [List.length_append, List.range_add, List.range'_eq_map_range]

end Described

end Reader

/-- A reader with a log of what its scans have looked at: the number of the buffer and the position
in it. -/
structure Watch where
  reader : Reader := {}
  /-- How many buffers have been put in the place of others. -/
  renewals : Nat := 0
  log : List (Nat × Nat) := []

namespace Watch

def feed (w : Watch) (bytes : List UInt8) : Watch := { w with reader := w.reader.feed bytes }

/-- More positions of the present buffer in the log. -/
def looked (w : Watch) (positions : List Nat) : Watch :=
  { w with log := w.log ++ positions.map (w.renewals, ·) }

/-- Another state of the scan, over the same buffer. -/
def keep (w : Watch) (b : Boundary) : Watch :=
  { w with reader := { w.reader with boundary := b } }

/-- Another buffer in the place of the present one. -/
def renew (w : Watch) (buffer : List UInt8) : Watch :=
  { w with reader := { buffer }, renewals := w.renewals + 1 }

/-- A look at the buffer of a reader, with the log. -/
def poll (α : Type) [Wire α] (w : Watch) : Reader.Poll α × Watch :=
  let scan := w.reader.boundary.advanceLogged w.reader.buffer
  let w := w.looked scan.2
  match scan.1 with
  | (b, true) =>
      match decodeFirst (Wire.decoder (α := α)) w.reader.buffer with
      | .blank => (.more, w.renew [])
      | .value a rest => (.value a, w.renew rest)
      | .incomplete => (.more, w.keep b)
      | .malformed => (.malformed, w.keep b)
  | (b, false) => (.more, if b.started then w.keep b else w.renew [])

/-- The end of a call, with the log. -/
structure Receipt (α : Type) where
  outcome : Reader.Outcome α
  watch : Watch
  stream : List Event

/-- The end of the call without the log. -/
def Receipt.plain {α : Type} (receipt : Receipt α) : Reader.Receipt α :=
  ⟨receipt.outcome, receipt.watch.reader, receipt.stream⟩

/-- The wait for a message, with the log. -/
def await (α : Type) [Wire α] (isOpen : Bool) (budget : Option Nat) (w : Watch) :
    List Event → Receipt α
  | [] => ⟨if isOpen then Reader.waitForever budget else .failed .unexpectedEof, w, []⟩
  | .bytes bs :: stream =>
      match (w.feed bs).poll α with
      | (.value a, w) => ⟨.value a, w, stream⟩
      | (.malformed, w) => ⟨.failed .decode, w, stream⟩
      | (.more, w) => await α isOpen budget w stream
  | .ended :: stream => ⟨.failed .unexpectedEof, w, stream⟩
  | .failed kind :: stream => ⟨.failed (.io kind), w, stream⟩
  | .delay n :: stream =>
      match budget with
      | none => await α isOpen none w stream
      | some left =>
          if left < n then ⟨.expired, w, .delay (n - left) :: stream⟩
          else await α isOpen (some (left - n)) w stream
  | .silence :: stream => ⟨Reader.waitForever budget, w, .silence :: stream⟩

/-- A call to read a message, with the log. -/
def read (α : Type) [Wire α] (isOpen : Bool) (budget : Option Nat) (w : Watch)
    (stream : List Event) : Receipt α :=
  match w.poll α with
  | (.value a, w) => ⟨.value a, w, stream⟩
  | (.malformed, w) => ⟨.failed .decode, w, stream⟩
  | (.more, w) => w.await α isOpen budget stream

/-! ### The log changes nothing -/

variable {α : Type} [Wire α] {w : Watch}

theorem plain_poll (w : Watch) : ((w.poll α).1, (w.poll α).2.reader) = w.reader.poll α := by
  rw [poll, Reader.poll, Boundary.advanceLogged_value]
  rcases w.reader.boundary.advance w.reader.buffer with ⟨b, stop⟩
  cases stop with
  | true =>
    dsimp only [looked]
    cases decodeFirst (Wire.decoder (α := α)) w.reader.buffer <;> rfl
  | false =>
    dsimp only
    split_ifs <;> rfl

theorem plain_await (isOpen : Bool) (budget : Option Nat) (w : Watch) (stream : List Event) :
    (w.await α isOpen budget stream).plain = w.reader.await α isOpen budget stream := by
  induction stream generalizing budget w with
  | nil => rfl
  | cons e stream ih =>
    cases e with
    | bytes bs =>
      have hplain := (w.feed bs).plain_poll (α := α)
      rw [await, Reader.await, show w.reader.feed bs = (w.feed bs).reader from rfl, ← hplain]
      rcases (w.feed bs).poll α with ⟨outcome, w'⟩
      cases outcome with
      | value | malformed => rfl
      | more => exact ih budget w'
    | delay n =>
      cases budget with
      | none => exact ih none w
      | some left =>
        rw [await, Reader.await]
        split_ifs
        · rfl
        · exact ih _ w
    | ended | failed | silence => rfl

theorem plain_read (isOpen : Bool) (budget : Option Nat) (w : Watch) (stream : List Event) :
    (w.read α isOpen budget stream).plain = w.reader.read α isOpen budget stream := by
  rw [read, Reader.read, ← plain_poll]
  rcases w.poll α with ⟨outcome, w'⟩
  cases outcome with
  | value | malformed => rfl
  | more => exact plain_await isOpen budget w' stream

/-! ### What the log holds -/

/-- Whatever a look at the buffer finds, its positions go into the log, and then the state of the
scan is kept or there is a new buffer. -/
theorem poll_cases (w : Watch) :
    let kept := (w.looked (w.reader.boundary.advanceLogged w.reader.buffer).2).keep
      (w.reader.boundary.advanceLogged w.reader.buffer).1.1
    (w.poll α).2 = kept ∨ ∃ buffer, (w.poll α).2 = kept.renew buffer := by
  intro kept
  rw [poll]
  rcases hscan : (w.reader.boundary.advanceLogged w.reader.buffer).1 with ⟨b, stop⟩
  have hkept : kept = (w.looked (w.reader.boundary.advanceLogged w.reader.buffer).2).keep b := by
    simp only [kept, hscan]
  cases stop with
  | true =>
    dsimp only [looked]
    cases decodeFirst (Wire.decoder (α := α)) w.reader.buffer with
    | blank => exact .inr ⟨[], by rw [hkept]; rfl⟩
    | value a rest => exact .inr ⟨rest, by rw [hkept]; rfl⟩
    | incomplete | malformed => exact .inl hkept.symm
  | false =>
    dsimp only
    split_ifs
    · exact .inl hkept.symm
    · exact .inr ⟨[], by rw [hkept]; rfl⟩

/-- The state of the scan is that of the buffer, and the log has each scanned position of the
present buffer once, in their order, behind what it has of other buffers. -/
structure Sound (w : Watch) : Prop where
  described : w.reader.Described
  log : ∃ old, w.log = old ++ (List.range w.reader.boundary.scanned).map (w.renewals, ·) ∧
    (∀ e ∈ old, e.1 < w.renewals) ∧ old.Nodup

namespace Sound

theorem nodup (h : w.Sound) : w.log.Nodup := by
  obtain ⟨old, hlog, hold, hnodup⟩ := h.log
  have hpositions : ((List.range w.reader.boundary.scanned).map (w.renewals, ·)).Nodup :=
    List.nodup_range.map fun i j hij => (Prod.mk.inj hij).2
  rw [hlog]
  refine List.nodup_append.mpr ⟨hnodup, hpositions, ?_⟩
  rintro e he _ hmem rfl
  obtain ⟨i, -, rfl⟩ := List.mem_map.mp hmem
  exact absurd (hold _ he) (Nat.lt_irrefl w.renewals)

theorem fresh : ({} : Watch).Sound :=
  ⟨Reader.described_of_fresh rfl, [], rfl, by simp, List.nodup_nil⟩

theorem feed (h : w.Sound) (bytes : List UInt8) : (w.feed bytes).Sound :=
  ⟨h.described.feed bytes, h.log⟩

theorem kept (h : w.Sound) : ((w.looked (w.reader.boundary.advanceLogged w.reader.buffer).2).keep
    (w.reader.boundary.advanceLogged w.reader.buffer).1.1).Sound := by
  obtain ⟨s, u, hb, hs, hrange⟩ := h.described.advance
  obtain ⟨old, hlog, hold, hnodup⟩ := h.log
  refine ⟨⟨s, u, hb, hs⟩, old, ?_, hold, hnodup⟩
  have hscanned : (({} : Boundary).after s).scanned = s.length := by
    rw [Boundary.scanned_after, Nat.zero_add]
  simp only [keep, looked, hs, hscanned, ← hrange, hlog, List.map_append, List.append_assoc]

/-- With a new buffer all positions so far become those of old ones. -/
theorem renew (h : w.Sound) (buffer : List UInt8) : (w.renew buffer).Sound := by
  obtain ⟨old, hlog, hold, -⟩ := h.log
  refine ⟨Reader.described_of_fresh rfl, w.log, by simp [Watch.renew], ?_, h.nodup⟩
  rw [hlog, List.forall_mem_append]
  exact ⟨fun e he => Nat.lt_succ_of_lt (hold e he), by simp [Watch.renew]⟩

theorem poll (h : w.Sound) : (w.poll α).2.Sound := by
  obtain hkept | ⟨buffer, hrenewed⟩ := w.poll_cases (α := α)
  · rw [hkept]
    exact h.kept
  · rw [hrenewed]
    exact h.kept.renew buffer

theorem await (h : w.Sound) (isOpen : Bool) (budget : Option Nat) (stream : List Event) :
    (w.await α isOpen budget stream).watch.Sound := by
  induction stream generalizing budget w with
  | nil => exact h
  | cons e stream ih =>
    cases e with
    | bytes bs =>
      have hnext := (h.feed bs).poll (α := α)
      rw [Watch.await]
      rcases hp : (w.feed bs).poll α with ⟨outcome, w'⟩
      rw [hp] at hnext
      cases outcome with
      | value | malformed => exact hnext
      | more => exact ih hnext budget
    | delay n =>
      cases budget with
      | none => exact ih h none
      | some left =>
        rw [Watch.await]
        split_ifs
        · exact h
        · exact ih h _
    | ended | failed | silence => exact h

theorem read (h : w.Sound) (isOpen : Bool) (budget : Option Nat) (stream : List Event) :
    (w.read α isOpen budget stream).watch.Sound := by
  have hnext := h.poll (α := α)
  rw [Watch.read]
  rcases hp : w.poll α with ⟨outcome, w'⟩
  rw [hp] at hnext
  cases outcome with
  | value | malformed => exact hnext
  | more => exact hnext.await isOpen budget stream

end Sound

end Watch

/-- A call to read a message of any type from any stream. -/
structure ReadCall where
  α : Type
  [wire : Wire α]
  isOpen : Bool
  budget : Option Nat
  stream : List Event

attribute [instance] ReadCall.wire

/-- A new reader after calls to read messages. -/
def Reader.behind (calls : List ReadCall) : Reader :=
  calls.foldl (fun r call => (r.read call.α call.isOpen call.budget call.stream).reader) {}

/-- A new reader after calls to read messages, with its log. -/
def Watch.behind (calls : List ReadCall) : Watch :=
  calls.foldl (fun w call => (w.read call.α call.isOpen call.budget call.stream).watch) {}

theorem Watch.reader_behind (calls : List ReadCall) :
    (Watch.behind calls).reader = Reader.behind calls := by
  unfold Watch.behind Reader.behind
  suffices ∀ w : Watch,
      (calls.foldl (fun w call =>
        (w.read call.α call.isOpen call.budget call.stream).watch) w).reader =
        calls.foldl (fun r call => (r.read call.α call.isOpen call.budget call.stream).reader)
          w.reader from this {}
  induction calls with
  | nil => exact fun _ => rfl
  | cons call calls ih =>
    intro w
    rw [List.foldl_cons, List.foldl_cons, ih, ← w.plain_read call.isOpen]
    rfl

theorem Watch.sound_behind (calls : List ReadCall) : (Watch.behind calls).Sound := by
  unfold Watch.behind
  suffices ∀ w : Watch, w.Sound →
      (calls.foldl (fun w call =>
        (w.read call.α call.isOpen call.budget call.stream).watch) w).Sound from
    this {} Sound.fresh
  induction calls with
  | nil => exact fun _ h => h
  | cons call calls ih => exact fun w h => ih _ (h.read call.isOpen call.budget call.stream)

/-- What the state of a reader's scan says about its buffer. -/
structure Reader.Faithful (r : Reader) : Prop where
  scanned_le : r.boundary.scanned ≤ r.buffer.length
  /-- It is the state behind the bytes that have been scanned, at however many of them the scan has
  stopped. -/
  boundary_eq : r.boundary = ({} : Boundary).after (r.buffer.take r.boundary.scanned)
  /-- Calls from the start with these bytes, again and again, end in the same state. -/
  rescanned : ({} : Boundary).called
    (List.replicate (r.boundary.scanned + 1) (r.buffer.take r.boundary.scanned)) =
    r.boundary
  /-- The next answer is one that calls from the start come to. -/
  resumed (more : List UInt8) : ∃ k,
    (({} : Boundary).called (List.replicate k (r.buffer ++ more))).advance (r.buffer ++ more) =
      r.boundary.advance (r.buffer ++ more)

theorem Reader.Described.faithful {r : Reader} (h : r.Described) : r.Faithful where
  scanned_le := h.scanned_le
  boundary_eq := h.boundary_eq
  rescanned := by
    have hlen : (r.buffer.take r.boundary.scanned).length < r.boundary.scanned + 1 :=
      Nat.lt_succ_of_le (List.length_take_le _ _)
    conv_rhs => rw [h.boundary_eq]
    exact Boundary.called_replicate (u := []) hlen
  resumed more := by
    obtain ⟨s, u, hb, hs⟩ := h
    rw [hb, hs, List.append_assoc]
    exact Boundary.exists_called_advance s (u ++ more)

/-- After any calls, however they have ended, the state of the scan is that of the buffer, and no
byte has been looked at twice in one buffer. -/
theorem scan_faithful (calls : List ReadCall) : (Reader.behind calls).Faithful ∧
    (Watch.behind calls).reader = Reader.behind calls ∧ (Watch.behind calls).log.Nodup := by
  have hreader := Watch.reader_behind calls
  have h := Watch.sound_behind calls
  exact ⟨hreader ▸ h.described.faithful, hreader, h.nodup⟩

end MacroBridge
