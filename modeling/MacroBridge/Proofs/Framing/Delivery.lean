import MacroBridge.Proofs.Framing.Schedule
import MacroBridge.Proofs.Wire.Reads

/-!
The contract of the reader: whatever the cuts and the failing reads of a stream, its messages come
out one by one, each as soon as its last byte is there.
-/
namespace MacroBridge
open Json (Blank byte isSpace blank_append)
open Event (carried behind)

/-- At most `n` calls in a row, the messages being of the given types and any later ones of the
type `last`. A message is asked for again after an error. A call that does not return is the
last. -/
def Reader.calls : (n : Nat) → (types : List MessageType) → (last : MessageType) →
    Reader → List Event →
    List Reading
  | 0, _, _, _, _ => []
  | n + 1, types, last, r, stream =>
      let type := types.headD last
      match r.read type.Value false none stream with
      | ⟨.value a, r, stream⟩ => ⟨type, .value a, stream⟩ :: calls n types.tail last r stream
      | ⟨.failed e, r, stream⟩ => ⟨type, .failed e, stream⟩ :: calls n types last r stream
      | ⟨outcome, _, stream⟩ => [⟨type, outcome, stream⟩]

variable {last : MessageType} {frames rest : List Frame} {stream : List Event} {cs : List Reading}
  {r : Reader} {dropped tail lost : List UInt8}

/-- A reader, the white space it has dropped and what is left of the stream hold frames that have
not been read yet. -/
structure Holds (tail lost : List UInt8) (r : Reader) (dropped : List UInt8) (frames : List Frame)
    (stream : List Event) : Prop where
  sound : r.Sound
  blank : Blank dropped
  layout_eq : dropped ++ (r.buffer ++ (carried stream ++ lost)) = layout frames ++ tail

/-- White space at the front of a frame is part of its gap. -/
theorem Frame.blank_split (f : Frame) {p s t : List UInt8} (hp : Blank p)
    (h : p ++ s = f.bytes ++ t) : ∃ q, f.gap = p ++ q ∧ s = q ++ (f.text ++ t) := by
  rw [Frame.bytes, List.append_assoc] at h
  exact MacroBridge.blank_split f.decodes.opens hp h

/-- A frame that is complete in the buffer is taken. -/
theorem Holds.poll_value {f : Frame} {fs : List Frame}
    (h : Holds tail lost r dropped (f :: fs) stream)
    (hf : f.bytes.length ≤ dropped.length + r.buffer.length) :
    ∃ t, r.poll f.type.Value = (.value f.value, { buffer := t }) ∧
      Holds tail lost { buffer := t } [] fs stream ∧
      t.length = dropped.length + r.buffer.length - f.bytes.length := by
  have hl := h.layout_eq
  rw [layout_cons, List.append_assoc] at hl
  obtain ⟨q, hgap, hs⟩ := f.blank_split h.blank hl
  have hlen : f.bytes.length = dropped.length + (q.length + f.text.length) := by
    simp [Frame.bytes, hgap]
  have hq : Blank q := (blank_append.mp (hgap ▸ f.blank)).2
  rw [← List.append_assoc q] at hs
  obtain ⟨t, hb⟩ : q ++ f.text <+: r.buffer := by
    refine List.prefix_of_prefix_length_le ⟨_, hs.symm⟩ ⟨_, rfl⟩ ?_
    rw [List.length_append]
    omega
  rw [← hb, List.append_assoc _ t, List.append_cancel_left_eq] at hs
  refine ⟨t, ?_, ⟨Reader.sound_fresh t, Json.blank_nil, hs⟩, ?_⟩
  · exact Reader.poll_value h.sound f.type.lawful hq f.decodes (by rw [← hb, List.append_assoc])
  · rw [← hb, List.length_append, List.length_append]
    omega

/-- The buffer keeps a frame that is not complete, but no white space alone. -/
theorem Holds.poll_more (h : Holds tail lost r dropped frames stream) (htail : Blank tail)
    (hw : Waits (dropped.length + r.buffer.length) frames) (last : MessageType) :
    ∃ r' dropped', r.poll (nextType last frames).Value = (.more, r') ∧
      Holds tail lost r' dropped' frames stream ∧
      dropped'.length + r'.buffer.length = dropped.length + r.buffer.length := by
  have hl := h.layout_eq
  cases frames with
  | nil =>
    have hb : Blank r.buffer := by
      intro b hb
      refine htail b ?_
      rw [layout_nil, List.nil_append] at hl
      simp [← hl, hb]
    refine ⟨{}, dropped ++ r.buffer, Reader.poll_blank h.sound hb,
      ⟨Reader.sound_fresh [], h.blank.append hb, ?_⟩, ?_⟩
    · simpa using hl
    · simp
  | cons f fs =>
    have hf := hw f rfl
    rw [layout_cons, List.append_assoc] at hl
    obtain ⟨q, hgap, hs⟩ := f.blank_split h.blank hl
    have hq : Blank q := (blank_append.mp (hgap ▸ f.blank)).2
    have hclosed : Closed f.text := f.decodes.closed f.type.lawful
    rcases Reader.whole_or_more (nextType last (f :: fs)).Value h.sound hq hclosed hs with
      ⟨u, hu, -⟩ | ⟨r', dropped', hp, hsound, hd, hb⟩
    · have hlen := congrArg List.length hu
      simp only [Frame.bytes, hgap, List.length_append] at hf hlen
      omega
    · refine ⟨r', dropped ++ dropped', hp, ⟨hsound, h.blank.append hd, ?_⟩, ?_⟩
      · rw [List.append_assoc, ← List.append_assoc dropped', hb, h.layout_eq]
      · rw [← hb, List.length_append, List.length_append, Nat.add_assoc]

theorem Holds.feed {bs : List UInt8} (h : Holds tail lost r dropped frames (.bytes bs :: stream)) :
    Holds tail lost (r.feed bs) dropped frames stream :=
  ⟨h.sound.feed bs, h.blank, by simpa [Reader.feed, carried] using h.layout_eq⟩

theorem Holds.of_carried_eq {stream' : List Event} (h : Holds tail lost r dropped frames stream)
    (hs : carried stream = carried stream') : Holds tail lost r dropped frames stream' :=
  ⟨h.sound, h.blank, hs ▸ h.layout_eq⟩

/-! ### Single calls -/

section calls
variable {type : MessageType} {r' : Reader}

theorem calls_value {types : List MessageType} {a : type.Value}
    (h : r.poll type.Value = (.value a, r')) (n : Nat) :
    Reader.calls (n + 1) (type :: types) last r stream =
      ⟨type, .value a, stream⟩ :: Reader.calls n types last r' stream := by
  have hread : r.read type.Value false none stream = ⟨.value a, r', stream⟩ := by
    simp [Reader.read, h]
  change r.read ((type :: types).headD last).Value false none stream = _ at hread
  simp only [Reader.calls, hread]
  rfl

variable (h : r.poll (nextType last frames).Value = (.more, r'))
include h

theorem calls_bytes (n : Nat) (bs : List UInt8) :
    Reader.calls (n + 1) (frames.map Frame.type) last r (.bytes bs :: stream) =
      Reader.calls (n + 1) (frames.map Frame.type) last (r'.feed bs) stream := by
  have hread : r.read (nextType last frames).Value false none (.bytes bs :: stream) =
      (r'.feed bs).read (nextType last frames).Value false none stream := by
    simp only [Reader.read, h]
    rfl
  unfold nextType at hread
  simp only [Reader.calls, hread]

theorem calls_delay (n millis : Nat) :
    Reader.calls (n + 1) (frames.map Frame.type) last r (.delay millis :: stream) =
      Reader.calls (n + 1) (frames.map Frame.type) last r stream := by
  have hread : r.read (nextType last frames).Value false none (.delay millis :: stream) =
      r.read (nextType last frames).Value false none stream := by
    simp only [Reader.read, h]
    rfl
  unfold nextType at hread
  simp only [Reader.calls, hread]

theorem calls_fault {e : Event} {error : CodecError} (he : e.fault? = some error) (n : Nat) :
    Reader.calls (n + 1) (frames.map Frame.type) last r (e :: stream) =
      ⟨nextType last frames, .failed error, stream⟩ ::
        Reader.calls n (frames.map Frame.type) last r' stream := by
  have hread : r.read (nextType last frames).Value false none (e :: stream) =
      ⟨.failed error, r', stream⟩ := by
    simp only [Reader.read, h]
    cases e with
    | bytes bs => simp [Event.fault?] at he
    | delay n => simp [Event.fault?] at he
    | silence => simp [Event.fault?] at he
    | ended => rw [← Option.some.inj he, Reader.await]
    | failed kind => rw [← Option.some.inj he, Reader.await]
  unfold nextType at hread ⊢
  simp only [Reader.calls, hread]

theorem calls_nil (n : Nat) :
    Reader.calls (n + 1) (frames.map Frame.type) last r [] =
      ⟨nextType last frames, .failed .unexpectedEof, []⟩ ::
        Reader.calls n (frames.map Frame.type) last r' [] := by
  have hread : r.read (nextType last frames).Value false none [] =
      ⟨.failed .unexpectedEof, r', []⟩ := by
    simp [Reader.read, h, Reader.await]
  unfold nextType at hread ⊢
  simp only [Reader.calls, hread]

end calls

/-! ### Runs -/

/-- The calls give what the schedule says. -/
theorem calls_eq_readings {ready : Nat} (hs : Schedule last ready frames stream cs rest)
    (htail : Blank tail) (h : Holds tail lost r dropped frames stream)
    (hready : dropped.length + r.buffer.length = ready) (n : Nat) :
    Reader.calls n (frames.map Frame.type) last r stream = readings n cs (nextType last rest) := by
  induction hs generalizing r dropped n with
  | @value ready f fs stream cs rest hf _ ih =>
    cases n with
    | zero => rw [Reader.calls, readings_zero]
    | succ n =>
      obtain ⟨t, hp, ht, hlen⟩ := h.poll_value (hready ▸ hf)
      rw [List.map_cons, calls_value hp, readings_cons, ih ht (by simp [hlen, hready])]
      rfl
  | @bytes ready frames bs stream cs rest hw _ ih =>
    cases n with
    | zero => rw [Reader.calls, readings_zero]
    | succ n =>
      obtain ⟨r', dropped', hp, h', hlen⟩ := h.poll_more htail (hready ▸ hw) last
      rw [calls_bytes hp]
      refine ih h'.feed ?_ (n + 1)
      simp only [Reader.feed, List.length_append]
      omega
  | @fault ready frames e error stream cs rest hw he _ ih =>
    cases n with
    | zero => rw [Reader.calls, readings_zero]
    | succ n =>
      obtain ⟨r', dropped', hp, h', hlen⟩ := h.poll_more htail (hready ▸ hw) last
      rw [calls_fault hp he, readings_cons]
      rw [ih (h'.of_carried_eq (carried_fault he stream)) (hlen.trans hready)]
  | @delay ready frames millis stream cs rest hw _ ih =>
    cases n with
    | zero => rw [Reader.calls, readings_zero]
    | succ n =>
      obtain ⟨r', dropped', hp, h', hlen⟩ := h.poll_more htail (hready ▸ hw) last
      rw [calls_delay hp]
      exact ih (h.of_carried_eq rfl) hready (n + 1)
  | @spent ready frames hw =>
    rw [readings_nil]
    induction n generalizing r dropped with
    | zero => rfl
    | succ n ih =>
      obtain ⟨r', dropped', hp, h', hlen⟩ := h.poll_more htail (hready ▸ hw) last
      rw [calls_nil hp, ih h' (hlen.trans hready), List.replicate_succ]

/-- The contract of the reader, for any frames and any stream that carries them or a first part of
them, however it is cut and wherever reads fail. All `n` calls return, none with a message that
cannot be decoded. The values are those of the frames in order, and each leaves the stream behind
the item with its last byte. The errors are those of the failing reads, and one for each call that
finds the stream used up. Once there have been calls for all frames that are complete and all
failing reads, any later one finds the end. -/
theorem calls_deliver_frames (frames : List Frame) (htail : Blank tail)
    (hsilent : Event.silence ∉ stream) (hcarried : carried stream ++ lost = layout frames ++ tail)
    (last : MessageType) (n : Nat) :
    let cs := Reader.calls n (frames.map Frame.type) last {} stream
    cs.length = n ∧
    (∀ c ∈ cs, c.isValue = true ∨ ∃ error, c.fault? = some error ∧ error ≠ .decode) ∧
    cs.filter Reading.isValue <+: arrivals 0 stream 0 frames ∧
    (∃ read m, stream = read ++ leftAfter stream cs ∧
      cs.filterMap Reading.fault? = faults read ++ List.replicate m .unexpectedEof ∧
      (0 < m → leftAfter stream cs = [])) ∧
    ∀ done rest k, frames = done ++ rest → (layout done).length ≤ (carried stream).length →
      (∀ f ∈ rest.head?, (carried stream).length < (layout done).length + f.bytes.length) →
      k = done.length + (faults stream).length → k ≤ n →
      (cs.take k).filter Reading.isValue = arrivals 0 stream 0 done ∧
      (cs.take k).filterMap Reading.fault? = faults stream ∧
      cs.drop k = List.replicate (n - k) ⟨nextType last rest, .failed .unexpectedEof, []⟩ := by
  obtain ⟨cs, rest, hs⟩ := exists_schedule last hsilent 0 frames
  have hholds : Holds tail lost {} [] frames stream :=
    ⟨Reader.sound_fresh [], Json.blank_nil, hcarried⟩
  have hvalues {done rest' : List Frame} (hf : frames = done ++ rest')
      (hd : (layout done).length ≤ (carried stream).length)
      (hr : ∀ f ∈ rest'.head?, (carried stream).length < (layout done).length + f.bytes.length) :=
    hs.filter_isValue hf (by rwa [Nat.zero_add]) (by simpa only [Nat.zero_add] using hr)
  have hall := hs.isValue_or_fault
  intro all
  have heq : all = readings n cs (nextType last rest) := calls_eq_readings hs htail hholds rfl n
  rw [heq]
  refine ⟨length_readings n cs _, fun c hc => ?_, ?_, hs.reached _ n,
    fun done rest' k hf hd hr hk hn => ?_⟩
  · rcases List.mem_append.mp hc with hc | hc
    · exact hall c (List.mem_of_mem_take hc)
    · rw [List.eq_of_mem_replicate hc]
      exact .inr ⟨.unexpectedEof, rfl, by simp⟩
  · obtain ⟨done, rest', hf, hd, hr⟩ := exists_complete (carried stream).length frames
    have hnone : (List.replicate (n - cs.length)
        (⟨nextType last rest, .failed .unexpectedEof, []⟩ : Reading)).filter Reading.isValue =
          [] := by
      rw [List.filter_replicate_of_neg (by simp [Reading.isValue])]
    rw [readings, List.filter_append, hnone, List.append_nil]
    refine ((List.take_prefix n cs).filter _).trans ?_
    rw [(hvalues hf hd hr).1, hf]
    exact arrivals_prefix 0 0 stream done rest'
  · obtain ⟨hc, rfl⟩ := hvalues hf hd hr
    obtain rfl : cs.length = k := by
      rw [length_eq_values_add_faults hall, hc, hs.filterMap_fault, length_arrivals, hk]
    rw [readings_of_le hn, List.take_left, List.drop_left]
    exact ⟨hc, hs.filterMap_fault, rfl⟩

theorem decodes_brace : Decodes Wire.decoder ("\"Brace\"".toList.map byte) Bracket.brace := by
  have hbytes : "\"Brace\"".toList.map byte = Json.bytes (Wire.pieces Bracket.brace) ++ [] := by
    decide
  have happart : Json.Apart [] := by simp [Json.Apart]
  refine ⟨by decide, ?_⟩
  rw [hbytes, (Wire.reads_bracket Json.maxNesting .brace).decodeFirst_eq (by decide) happart]
  exact if_pos (by decide)

/-- A kind of bracket behind a space. -/
def braceFrame : Frame where
  gap := [byte ' ']
  type := .bracket
  value := .brace
  text := "\"Brace\"".toList.map byte
  blank := Json.blank_singleton.mpr (by decide)
  decodes := decodes_brace

/-- The frame in two pieces with a failing read between them and one behind them. -/
def braceStream : List Event :=
  [.bytes (" \"Bra".toList.map byte), .failed .connectionReset,
    .bytes ("ce\"\n".toList.map byte), .ended]

theorem calls_deliver_brace :
    Blank [byte '\n'] ∧ Event.silence ∉ braceStream ∧
    carried braceStream ++ [] = layout [braceFrame] ++ [byte '\n'] ∧
    let cs := Reader.calls 5 [.bracket] .request {} braceStream
    (cs.take 3).filter Reading.isValue = [⟨.bracket, .value .brace, [.ended]⟩] ∧
    (cs.take 3).filterMap Reading.fault? = [.io .connectionReset, .unexpectedEof] ∧
    cs.drop 3 = List.replicate 2 ⟨.request, .failed .unexpectedEof, []⟩ := by
  have htail : Blank [byte '\n'] := Json.blank_singleton.mpr (by decide)
  have hsilent : Event.silence ∉ braceStream := by decide
  have hcarried : carried braceStream ++ [] = layout [braceFrame] ++ [byte '\n'] := by decide
  refine ⟨htail, hsilent, hcarried, ?_⟩
  have h := (calls_deliver_frames [braceFrame] htail hsilent hcarried .request 5).2.2.2.2
  exact h [braceFrame] [] 3 rfl (by decide) (by simp) rfl (by decide)

end MacroBridge
