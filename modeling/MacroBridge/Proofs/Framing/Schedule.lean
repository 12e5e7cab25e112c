import MacroBridge.Proofs.Framing.Poll
import MacroBridge.Proofs.Wire.Lawful

/-!
What calls to read a message are to give for a stream that carries messages: each message with the
item that has its last byte, and an error for each failing read.
-/
namespace MacroBridge
open Json (Blank blank_append)

namespace Event

/-- What a failing read and a read of no bytes come to. -/
def fault? : Event → Option CodecError
  | .ended => some .unexpectedEof
  | .failed kind => some (.io kind)
  | _ => none

/-- What is left behind the item with byte number `n`, counted from one. -/
def behind : Nat → List Event → List Event
  | 0, stream => stream
  | _ + 1, [] => []
  | n + 1, .bytes bs :: stream => behind (n + 1 - bs.length) stream
  | n + 1, _ :: stream => behind (n + 1) stream

end Event

open Event (carried behind)

def faults (stream : List Event) : List CodecError := stream.filterMap Event.fault?

/-- A message on a stream and the white space before it. -/
structure Frame where
  gap : List UInt8
  type : MessageType
  value : type.Value
  text : List UInt8
  blank : Blank gap
  decodes : Decodes Wire.decoder text value

/-- All bytes of a frame. -/
def Frame.bytes (f : Frame) : List UInt8 := f.gap ++ f.text

def layout (frames : List Frame) : List UInt8 := frames.flatMap Frame.bytes

@[simp] theorem layout_nil : layout [] = [] := rfl

@[simp] theorem layout_cons (f : Frame) (fs : List Frame) :
    layout (f :: fs) = f.bytes ++ layout fs := rfl

/-- How one call to read a message ended, and what it left of the stream. -/
structure Reading where
  type : MessageType
  outcome : Reader.Outcome type.Value
  left : List Event

namespace Reading

def isValue (c : Reading) : Bool :=
  match c.outcome with
  | .value _ => true
  | _ => false

def fault? (c : Reading) : Option CodecError :=
  match c.outcome with
  | .failed e => some e
  | _ => none

end Reading

/-- The reading of a frame. -/
def Frame.reading (f : Frame) (left : List Event) : Reading := ⟨f.type, .value f.value, left⟩

/-- What a stream has left after some calls. -/
def leftAfter (stream : List Event) : List Reading → List Event
  | [] => stream
  | c :: cs => leftAfter c.left cs

/-- The readings of frames that start at byte `start`, when `ready` bytes have come before the
stream. -/
def arrivals (ready : Nat) (stream : List Event) : (start : Nat) → List Frame → List Reading
  | _, [] => []
  | start, f :: fs =>
      f.reading (behind (start + f.bytes.length - ready) stream) ::
        arrivals ready stream (start + f.bytes.length) fs

/-- The type of the next message. -/
def nextType (last : MessageType) (frames : List Frame) : MessageType :=
  (frames.map Frame.type).headD last

/-- Whether the next frame is not complete with `n` bytes. -/
def Waits (n : Nat) (frames : List Frame) : Prop := ∀ f ∈ frames.head?, n < f.bytes.length

/-- The readings up to the end of a stream when `ready` bytes have come before it, and the frames
that are not complete then. -/
inductive Schedule (last : MessageType) :
    Nat → List Frame → List Event → List Reading → List Frame → Prop
  | value {ready : Nat} {f : Frame} {fs : List Frame} {stream : List Event} {cs : List Reading}
      {rest : List Frame} (h : f.bytes.length ≤ ready)
      (hs : Schedule last (ready - f.bytes.length) fs stream cs rest) :
      Schedule last ready (f :: fs) stream (f.reading stream :: cs) rest
  | bytes {ready : Nat} {frames : List Frame} {bs : List UInt8} {stream : List Event}
      {cs : List Reading} {rest : List Frame} (h : Waits ready frames)
      (hs : Schedule last (ready + bs.length) frames stream cs rest) :
      Schedule last ready frames (.bytes bs :: stream) cs rest
  | fault {ready : Nat} {frames : List Frame} {e : Event} {error : CodecError}
      {stream : List Event} {cs : List Reading} {rest : List Frame} (h : Waits ready frames)
      (he : e.fault? = some error) (hs : Schedule last ready frames stream cs rest) :
      Schedule last ready frames (e :: stream)
        (⟨nextType last frames, .failed error, stream⟩ :: cs) rest
  | delay {ready : Nat} {frames : List Frame} {n : Nat} {stream : List Event} {cs : List Reading}
      {rest : List Frame} (h : Waits ready frames)
      (hs : Schedule last ready frames stream cs rest) :
      Schedule last ready frames (.delay n :: stream) cs rest
  | spent {ready : Nat} {frames : List Frame} (h : Waits ready frames) :
      Schedule last ready frames [] [] frames

/-- Every stream that does not fall silent has a schedule. -/
theorem exists_schedule (last : MessageType) {stream : List Event} (hs : Event.silence ∉ stream)
    (ready : Nat) (frames : List Frame) :
    ∃ cs rest, Schedule last ready frames stream cs rest := by
  induction stream generalizing ready frames with
  | nil =>
    induction frames generalizing ready with
    | nil => exact ⟨[], [], .spent (by simp [Waits])⟩
    | cons f fs ih =>
      by_cases h : f.bytes.length ≤ ready
      · obtain ⟨cs, rest, hc⟩ := ih (ready - f.bytes.length)
        exact ⟨_, rest, .value h hc⟩
      · exact ⟨[], f :: fs, .spent (by simpa [Waits] using h)⟩
  | cons e stream ih =>
    have ih := ih fun h => hs (List.mem_cons_of_mem _ h)
    have waiting {ready : Nat} {frames : List Frame} (h : Waits ready frames) :
        ∃ cs rest, Schedule last ready frames (e :: stream) cs rest := by
      cases e with
      | bytes bs =>
        obtain ⟨cs, rest, hc⟩ := ih (ready + bs.length) frames
        exact ⟨cs, rest, .bytes h hc⟩
      | ended =>
        obtain ⟨cs, rest, hc⟩ := ih ready frames
        exact ⟨_, rest, .fault h rfl hc⟩
      | failed kind =>
        obtain ⟨cs, rest, hc⟩ := ih ready frames
        exact ⟨_, rest, .fault h rfl hc⟩
      | delay n =>
        obtain ⟨cs, rest, hc⟩ := ih ready frames
        exact ⟨cs, rest, .delay h hc⟩
      | silence => exact absurd List.mem_cons_self hs
    induction frames generalizing ready with
    | nil => exact waiting (by simp [Waits])
    | cons f fs ihf =>
      by_cases h : f.bytes.length ≤ ready
      · obtain ⟨cs, rest, hc⟩ := ihf (ready - f.bytes.length)
        exact ⟨_, rest, .value h hc⟩
      · exact waiting (by simpa [Waits] using h)

/-! ### What a schedule holds -/

theorem carried_fault {e : Event} {error : CodecError} (he : e.fault? = some error)
    (stream : List Event) : carried (e :: stream) = carried stream := by
  cases e with
  | bytes bs => simp [Event.fault?] at he
  | delay n => simp [Event.fault?] at he
  | silence => simp [Event.fault?] at he
  | ended => rfl
  | failed kind => rfl

theorem behind_zero (stream : List Event) : behind 0 stream = stream := by
  cases stream <;> rfl

theorem behind_bytes {n : Nat} (hn : 0 < n) (bs : List UInt8) (stream : List Event) :
    behind n (.bytes bs :: stream) = behind (n - bs.length) stream := by
  obtain ⟨n, rfl⟩ := Nat.exists_eq_succ_of_ne_zero (Nat.ne_of_gt hn)
  rfl

theorem behind_delay {n : Nat} (hn : 0 < n) (millis : Nat) (stream : List Event) :
    behind n (.delay millis :: stream) = behind n stream := by
  obtain ⟨n, rfl⟩ := Nat.exists_eq_succ_of_ne_zero (Nat.ne_of_gt hn)
  rfl

theorem behind_fault {n : Nat} (hn : 0 < n) {e : Event} {error : CodecError}
    (he : e.fault? = some error) (stream : List Event) :
    behind n (e :: stream) = behind n stream := by
  obtain ⟨n, rfl⟩ := Nat.exists_eq_succ_of_ne_zero (Nat.ne_of_gt hn)
  cases e with
  | bytes bs => simp [Event.fault?] at he
  | delay n => simp [Event.fault?] at he
  | silence => simp [Event.fault?] at he
  | ended => rfl
  | failed kind => rfl

/-- Readings keep their places when bytes pass from the stream to those that have come before
it. -/
theorem arrivals_congr {ready ready' : Nat} {stream stream' : List Event}
    (h : ∀ n, ready < n → behind (n - ready) stream = behind (n - ready') stream') {start : Nat}
    {frames : List Frame} (hw : ∀ f ∈ frames.head?, ready < start + f.bytes.length) :
    arrivals ready stream start frames = arrivals ready' stream' start frames := by
  induction frames generalizing start with
  | nil => rfl
  | cons f fs ih =>
    have hf : ready < start + f.bytes.length := hw f rfl
    rw [arrivals, arrivals, h _ hf, ih]
    intro g _
    omega

theorem arrivals_shift (ready start k : Nat) (stream : List Event) (frames : List Frame) :
    arrivals (ready + k) stream (start + k) frames = arrivals ready stream start frames := by
  induction frames generalizing start with
  | nil => rfl
  | cons f fs ih =>
    rw [arrivals, arrivals, show start + k + f.bytes.length =
      start + f.bytes.length + k by omega, ih, Nat.add_sub_add_right]

theorem Waits.of_append {n : Nat} {done rest : List Frame} (h : Waits n (done ++ rest)) :
    Waits n done := by
  cases done with
  | nil => simp [Waits]
  | cons f fs => exact h

theorem waits_append {n : Nat} {done rest : List Frame} (h : Waits n (done ++ rest))
    (hd : (layout done).length ≤ n) : done = [] := by
  cases done with
  | nil => rfl
  | cons f fs =>
    have := h f rfl
    simp only [layout_cons, List.length_append] at hd
    omega

/-- A schedule has one reading for each frame that is complete, in order and in its place. -/
theorem Schedule.filter_isValue {last : MessageType} {ready : Nat} {frames : List Frame}
    {stream : List Event} {cs : List Reading} {left : List Frame}
    (h : Schedule last ready frames stream cs left) {done rest : List Frame}
    (hf : frames = done ++ rest) (hd : (layout done).length ≤ ready + (carried stream).length)
    (hr : ∀ f ∈ rest.head?, ready + (carried stream).length <
      (layout done).length + f.bytes.length) :
    cs.filter Reading.isValue = arrivals ready stream 0 done ∧ left = rest := by
  induction h generalizing done with
  | @value ready f fs stream cs left h _ ih =>
    cases done with
    | nil =>
      obtain rfl : f :: fs = rest := hf
      have := hr f rfl
      simp only [layout_nil, List.length_nil] at this
      omega
    | cons g done =>
      obtain ⟨rfl, rfl⟩ := List.cons.inj hf
      simp only [layout_cons, List.length_append] at hd hr
      obtain ⟨hc, rfl⟩ := ih rfl (by omega) fun g hg => by have := hr g hg; omega
      refine ⟨?_, rfl⟩
      have hs := arrivals_shift (ready - f.bytes.length) 0 f.bytes.length stream done
      rw [Nat.sub_add_cancel h] at hs
      rw [List.filter_cons_of_pos rfl, hc, arrivals, hs, Nat.zero_add, Nat.sub_eq_zero_of_le h,
        behind_zero]
  | @bytes ready frames bs stream cs left h _ ih =>
    have hlen : ready + (carried (.bytes bs :: stream)).length =
        ready + bs.length + (carried stream).length := by
      simp only [carried, List.length_append]
      omega
    rw [hlen] at hd hr
    obtain ⟨hc, rfl⟩ := ih hf hd hr
    refine ⟨?_, rfl⟩
    rw [hc]
    symm
    refine arrivals_congr (fun n hn => ?_) fun f hfd => ?_
    · rw [behind_bytes (by omega), Nat.sub_sub]
    · have := (hf ▸ h).of_append f hfd
      omega
  | @fault ready frames e error stream cs left h he _ ih =>
    rw [carried_fault he] at hd hr
    obtain ⟨hc, rfl⟩ := ih hf hd hr
    refine ⟨?_, rfl⟩
    rw [List.filter_cons_of_neg (by simp [Reading.isValue]), hc]
    symm
    refine arrivals_congr (fun n hn => behind_fault (by omega) he stream) fun f hfd => ?_
    have := (hf ▸ h).of_append f hfd
    omega
  | @delay ready frames n stream cs left h _ ih =>
    obtain ⟨hc, rfl⟩ := ih hf hd hr
    refine ⟨?_, rfl⟩
    rw [hc]
    symm
    refine arrivals_congr (fun n hn => ?_) fun f hfd => ?_
    · exact behind_delay (by omega) _ stream
    · have := (hf ▸ h).of_append f hfd
      omega
  | @spent ready frames h =>
    obtain rfl := waits_append (hf ▸ h) (by simpa [carried] using hd)
    exact ⟨rfl, hf⟩

/-- A schedule has one error for each failing read. -/
theorem Schedule.filterMap_fault {last : MessageType} {ready : Nat} {frames : List Frame}
    {stream : List Event} {cs : List Reading} {left : List Frame}
    (h : Schedule last ready frames stream cs left) :
    cs.filterMap Reading.fault? = faults stream := by
  induction h with
  | value _ _ ih => exact (List.filterMap_cons_none rfl).trans ih
  | bytes _ _ ih => exact ih.trans (List.filterMap_cons_none rfl).symm
  | @fault ready frames e error stream cs rest _ he _ ih =>
    have hc : Reading.fault? ⟨nextType last frames, .failed error, stream⟩ = some error := rfl
    rw [List.filterMap_cons_some hc, ih, faults, faults, List.filterMap_cons_some he]
  | delay _ _ ih => exact ih.trans (List.filterMap_cons_none rfl).symm
  | spent => rfl

/-- A schedule has no other readings, and none for a message that cannot be decoded. -/
theorem Schedule.isValue_or_fault {last : MessageType} {ready : Nat} {frames : List Frame}
    {stream : List Event} {cs : List Reading} {left : List Frame}
    (h : Schedule last ready frames stream cs left) :
    ∀ c ∈ cs, c.isValue = true ∨ ∃ error, c.fault? = some error ∧ error ≠ .decode := by
  induction h with
  | value _ _ ih => exact List.forall_mem_cons.mpr ⟨.inl rfl, ih⟩
  | bytes _ _ ih => exact ih
  | @fault ready frames e error stream cs rest _ he _ ih =>
    refine List.forall_mem_cons.mpr ⟨.inr ⟨error, rfl, ?_⟩, ih⟩
    rintro rfl
    cases e <;> simp [Event.fault?] at he
  | delay _ _ ih => exact ih
  | spent => simp

theorem length_arrivals (ready start : Nat) (stream : List Event) (frames : List Frame) :
    (arrivals ready stream start frames).length = frames.length := by
  induction frames generalizing start with
  | nil => rfl
  | cons f fs ih => rw [arrivals, List.length_cons, List.length_cons, ih]

theorem arrivals_prefix (ready start : Nat) (stream : List Event) (done rest : List Frame) :
    arrivals ready stream start done <+: arrivals ready stream start (done ++ rest) := by
  induction done generalizing start with
  | nil => exact List.nil_prefix
  | cons f fs ih => exact List.cons_prefix_cons.mpr ⟨rfl, ih _⟩

/-- Values and errors are all there is. -/
theorem length_eq_values_add_faults {cs : List Reading}
    (h : ∀ c ∈ cs, c.isValue = true ∨ ∃ error, c.fault? = some error ∧ error ≠ .decode) :
    cs.length = (cs.filter Reading.isValue).length + (cs.filterMap Reading.fault?).length := by
  induction cs with
  | nil => rfl
  | cons c cs ih =>
    obtain ⟨hc, hcs⟩ := List.forall_mem_cons.mp h
    have ih := ih hcs
    rcases c with ⟨type, outcome, left⟩
    cases outcome with
    | value a =>
      rw [List.filter_cons_of_pos rfl, List.filterMap_cons_none rfl, List.length_cons,
        List.length_cons]
      omega
    | failed e =>
      have he : Reading.fault? ⟨type, .failed e, left⟩ = some e := rfl
      rw [List.filter_cons_of_neg (by simp [Reading.isValue]), List.filterMap_cons_some he,
        List.length_cons, List.length_cons]
      omega
    | expired => simp [Reading.isValue, Reading.fault?] at hc
    | stuck => simp [Reading.isValue, Reading.fault?] at hc

/-- Some of the first frames are complete with `n` bytes, and the next one is not. -/
theorem exists_complete (n : Nat) (frames : List Frame) :
    ∃ done rest, frames = done ++ rest ∧ (layout done).length ≤ n ∧
      ∀ f ∈ rest.head?, n < (layout done).length + f.bytes.length := by
  induction frames generalizing n with
  | nil => exact ⟨[], [], rfl, by simp, by simp⟩
  | cons f fs ih =>
    by_cases h : f.bytes.length ≤ n
    · obtain ⟨done, rest, hf, hd, hr⟩ := ih (n - f.bytes.length)
      refine ⟨f :: done, rest, by rw [hf, List.cons_append], ?_, fun g hg => ?_⟩
      · rw [layout_cons, List.length_append]
        omega
      · have := hr g hg
        rw [layout_cons, List.length_append]
        omega
    · exact ⟨[], f :: fs, rfl, by simp, by simpa using h⟩

/-- The readings of `n` calls by a schedule: calls at the end of the stream find no message. -/
def readings (n : Nat) (cs : List Reading) (type : MessageType) : List Reading :=
  cs.take n ++ List.replicate (n - cs.length) ⟨type, .failed .unexpectedEof, []⟩

@[simp] theorem readings_zero (cs : List Reading) (type : MessageType) :
    readings 0 cs type = [] := by
  simp [readings]

@[simp] theorem readings_cons (n : Nat) (c : Reading) (cs : List Reading) (type : MessageType) :
    readings (n + 1) (c :: cs) type = c :: readings n cs type := by
  simp [readings]

theorem readings_nil (n : Nat) (type : MessageType) :
    readings n [] type = List.replicate n ⟨type, .failed .unexpectedEof, []⟩ := by
  simp [readings]

theorem readings_of_le {n : Nat} {cs : List Reading} (h : cs.length ≤ n) (type : MessageType) :
    readings n cs type = cs ++
      List.replicate (n - cs.length) ⟨type, .failed .unexpectedEof, []⟩ := by
  rw [readings, List.take_of_length_le h]

theorem length_readings (n : Nat) (cs : List Reading) (type : MessageType) :
    (readings n cs type).length = n := by
  simp only [readings, List.length_append, List.length_take, List.length_replicate]
  omega

/-- An item that is no failing read adds nothing to what calls have read. -/
theorem reached_cons {e : Event} (he : e.fault? = none) {stream : List Event} {cs : List Reading}
    (h : ∃ read m, stream = read ++ leftAfter stream cs ∧
      cs.filterMap Reading.fault? = faults read ++ List.replicate m .unexpectedEof ∧
      (0 < m → leftAfter stream cs = [])) :
    ∃ read m, e :: stream = read ++ leftAfter (e :: stream) cs ∧
      cs.filterMap Reading.fault? = faults read ++ List.replicate m .unexpectedEof ∧
      (0 < m → leftAfter (e :: stream) cs = []) := by
  cases cs with
  | nil => exact ⟨[], 0, rfl, rfl, by simp⟩
  | cons c cs =>
    obtain ⟨read, m, hs, hf, hm⟩ := h
    refine ⟨e :: read, m, congrArg (e :: ·) hs, ?_, hm⟩
    rw [hf, faults, faults, List.filterMap_cons_none he]

/-- The calls read a first part of the stream and find one error for each failing read in it. Those
that find the end of the stream do so once it is used up. -/
theorem Schedule.reached {last : MessageType} {ready : Nat} {frames : List Frame}
    {stream : List Event} {cs : List Reading} {left : List Frame}
    (h : Schedule last ready frames stream cs left) (type : MessageType) (n : Nat) :
    ∃ read m, stream = read ++ leftAfter stream (readings n cs type) ∧
      (readings n cs type).filterMap Reading.fault? = faults read ++
      List.replicate m .unexpectedEof ∧
      (0 < m → leftAfter stream (readings n cs type) = []) := by
  induction h generalizing n with
  | @value ready f fs stream cs left _ _ ih =>
    cases n with
    | zero => exact ⟨[], 0, by simp [leftAfter], by simp [faults], by simp⟩
    | succ n =>
      obtain ⟨read, m, hs, hf, hm⟩ := ih n
      rw [readings_cons]
      exact ⟨read, m, hs, (List.filterMap_cons_none rfl).trans hf, hm⟩
  | @bytes ready frames bs stream cs left _ _ ih => exact reached_cons rfl (ih n)
  | @fault ready frames e error stream cs left _ he _ ih =>
    cases n with
    | zero => exact ⟨[], 0, by simp [leftAfter], by simp [faults], by simp⟩
    | succ n =>
      obtain ⟨read, m, hs, hf, hm⟩ := ih n
      rw [readings_cons]
      refine ⟨e :: read, m, congrArg (e :: ·) hs, ?_, hm⟩
      have hc : Reading.fault? ⟨nextType last frames, .failed error, stream⟩ = some error := rfl
      rw [List.filterMap_cons_some hc, hf, faults, faults, List.filterMap_cons_some he,
        List.cons_append]
  | @delay ready frames n stream cs left _ _ ih => exact reached_cons rfl (ih _)
  | @spent ready frames _ =>
    have hl (k : Nat) :
        leftAfter [] (List.replicate k ⟨type, .failed .unexpectedEof, []⟩) = [] := by
      induction k with
      | zero => rfl
      | succ k ih => exact ih
    rw [readings_nil, hl]
    exact ⟨[], n, rfl, List.filterMap_replicate_of_some rfl, fun _ => rfl⟩

end MacroBridge
