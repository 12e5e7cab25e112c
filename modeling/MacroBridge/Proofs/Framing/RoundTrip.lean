import MacroBridge.Proofs.Framing.Depth
import MacroBridge.Proofs.Framing.Poll
import MacroBridge.Proofs.Session.Exchange
import MacroBridge.Proofs.Wire.Reads

/-!
A message that is written and then read. It comes back if no more than 127 of its containers are
open at once, and is rejected as soon as it is complete if there are more.
-/
namespace MacroBridge
open Json (Reads Apart bytes byte maxNesting showsItsEnd)

namespace Reader
variable {α : Type} [Wire α] {r : Reader}

/-- What a message is read as. -/
def verdict (v : α) : Outcome α :=
  if Wire.nesting v ≤ maxNesting then .value v else .failed .decode

/-- A value whose encoding shows its own end and is read by its decoder. -/
structure Readable (v : α) : Prop where
  reads : Reads maxNesting Wire.decoder (Wire.pieces v) v
  opens : (bytes (Wire.pieces v)).head?.any showsItsEnd = true

namespace Readable
variable {v : α} {t : List UInt8}

theorem closed (h : Readable v) : Closed (bytes (Wire.pieces v)) :=
  ⟨h.reads.complete.spells, h.opens⟩

/-- The message is settled once all of it is in the buffer. -/
theorem poll_whole (h : Readable v) (hr : r.Sound) (ht : Apart t)
    (hb : r.buffer = bytes (Wire.pieces v) ++ t) :
    ∃ r', (Wire.nesting v ≤ maxNesting ∧ r.poll α = (.value v, r')) ∨
      (¬ Wire.nesting v ≤ maxNesting ∧ r.poll α = (.malformed, r')) := by
  obtain ⟨b, hscan⟩ := hr.advance_closed (p := []) Json.blank_nil h.closed hb
  simp only [poll, hscan]
  rw [hb, h.reads.decodeFirst_eq h.opens ht, ← Wire.nesting]
  by_cases hfits : Wire.nesting v ≤ maxNesting
  · exact ⟨_, .inl ⟨hfits, by rw [if_pos hfits]⟩⟩
  · exact ⟨_, .inr ⟨hfits, by rw [if_neg hfits]⟩⟩

/-- The message is awaited while a part of it is missing. -/
theorem poll_more (h : Readable v) (hr : r.Sound) (ht : t ≠ [])
    (hb : bytes (Wire.pieces v) = r.buffer ++ t) :
    ∃ r', r.poll α = (.more, r') ∧ r'.Sound ∧ r'.buffer = r.buffer := by
  by_cases hempty : r.buffer = []
  · exact ⟨{}, poll_blank hr (by simp [hempty]), sound_fresh [], hempty.symm⟩
  · exact poll_part α hr (p := []) Json.blank_nil (hb ▸ h.closed) hempty ht rfl

/-- The message is settled by the read that brings its last byte, or before the newline behind
it. -/
theorem await_eq (h : Readable v) (isOpen : Bool) (budget : Option Nat)
    (chunks : List (List UInt8)) (stream : List Event) (hr : r.Sound) (ht : t ≠ [])
    (hb : bytes (Wire.pieces v) = r.buffer ++ t) (hc : r.buffer ++ chunks.flatten = Wire.line v) :
    ∃ r' left, r.await α isOpen budget (chunks.map .bytes ++ stream) =
      ⟨verdict v, r', left ++ stream⟩ := by
  rw [Wire.line_eq] at hc
  induction chunks generalizing r t with
  | nil =>
    have hlen := congrArg List.length hc
    rw [hb] at hlen
    simp only [List.flatten_nil, List.length_append, List.length_nil,
      List.length_singleton] at hlen
    omega
  | cons bs chunks ih =>
    have hfeed : (r.feed bs).buffer ++ chunks.flatten = bytes (Wire.pieces v) ++ [byte '\n'] := by
      simpa [Reader.feed] using hc
    have hwhole {u : List UInt8} (hu : (r.feed bs).buffer = bytes (Wire.pieces v) ++ u)
        (ha : Apart u) :
        ∃ r' left, r.await α isOpen budget (.bytes bs :: (chunks.map .bytes ++ stream)) =
          ⟨verdict v, r', left ++ stream⟩ := by
      rw [await]
      obtain ⟨r', ⟨hfits, hp⟩ | ⟨hfits, hp⟩⟩ := h.poll_whole (hr.feed bs) ha hu
      · exact ⟨r', chunks.map .bytes, by simp only [hp, verdict, if_pos hfits]⟩
      · exact ⟨r', chunks.map .bytes, by simp only [hp, verdict, if_neg hfits]⟩
    rcases List.append_eq_append_iff.mp hfeed with ⟨u, hu, hrest⟩ | ⟨u, hu, hnl⟩
    · by_cases hend : u = []
      · exact hwhole (u := []) (by simp [hu, hend]) (by simp [Apart])
      · obtain ⟨r', hp, hr', hb'⟩ := h.poll_more (hr.feed bs) hend hu
        obtain ⟨r'', left, hawait⟩ := ih hr' hend (by rw [hb', hu]) (by rw [hb', hfeed])
        exact ⟨r'', left, by rw [List.map_cons, List.cons_append, await, hp]; exact hawait⟩
    · refine hwhole hu ?_
      cases u with
      | nil => simp [Apart]
      | cons b u =>
        obtain ⟨rfl, -⟩ := List.cons.inj hnl
        exact Json.apart_byte (by decide) u

theorem read_eq (h : Readable v) (isOpen : Bool) (budget : Option Nat) {chunks : List (List UInt8)}
    (hc : chunks.flatten = Wire.line v) (stream : List Event) :
    ∃ r' left, ({} : Reader).read α isOpen budget (chunks.map .bytes ++ stream) =
      ⟨verdict v, r', left ++ stream⟩ := by
  have hne : bytes (Wire.pieces v) ≠ [] := by
    obtain ⟨b, u, hb, -⟩ := Decodes.eq_cons_of_opens h.opens
    simp [hb]
  rw [read, poll_blank (sound_fresh []) Json.blank_nil]
  exact h.await_eq isOpen budget chunks stream (sound_fresh []) hne rfl (by simpa using hc)

end Readable

theorem opens_object (ms : List (String × List Json.Piece)) :
    (bytes (Wire.object ms)).head?.any showsItsEnd = true := by
  rw [Wire.head_object]
  decide

theorem readable_subtree (v : Subtree) : Readable v where
  reads := Wire.reads_subtree v
  opens := by
    rw [Wire.pieces_subtree]
    exact opens_object _

theorem readable_request (v : Request) : Readable v where
  reads := Wire.reads_request v
  opens := by cases v <;> exact opens_object _

theorem readable_response (v : Response) : Readable v where
  reads := Wire.reads_response v
  opens := by cases v <;> exact opens_object _

end Reader

/-- The types with messages of their own. -/
inductive MessageType.IsEnvelope : MessageType → Prop
  | subtree : IsEnvelope .subtree
  | request : IsEnvelope .request
  | response : IsEnvelope .response

/-- A message that was written in full is read, from any cut of the bytes that were taken, as
itself if at most 127 of its containers are open at once. Otherwise it is rejected. Neither waits
for anything behind it. -/
theorem read_written {type : MessageType} (ht : type.IsEnvelope) (v : type.Value) (l : Link)
    (budget : Option Nat) {left : Option Nat}
    (hw : (l.write (Wire.line v) budget).progress = .done left) {chunks : List (List UInt8)}
    (hc : chunks.flatten = (l.write (Wire.line v) budget).taken) (isOpen : Bool)
    (limit : Option Nat) (stream : List Event) : Boundary.deepest (Wire.line v) = Wire.nesting v ∧
    ∃ r unread, ({} : Reader).read type.Value isOpen limit (chunks.map .bytes ++ stream) =
      ⟨if Wire.nesting v ≤ 127 then .value v else .failed .decode, r, unread ++ stream⟩ := by
  refine ⟨deepest_line v, ?_⟩
  obtain ⟨htaken, -⟩ := (l.write_spec (Wire.line v) budget).2 left hw
  rw [htaken] at hc
  cases ht with
  | subtree => exact (Reader.readable_subtree v).read_eq isOpen limit hc stream
  | request => exact (Reader.readable_request v).read_eq isOpen limit hc stream
  | response => exact (Reader.readable_response v).read_eq isOpen limit hc stream

/-- A request for the macros of a library, read from its bytes in one piece. -/
theorem read_written_listMacros :
    Boundary.deepest (Wire.line (Request.listMacros ⟨"libm.so"⟩)) = 2 ∧
    ∃ r unread, ({} : Reader).read Request false none
      [.bytes (Wire.line (Request.listMacros ⟨"libm.so"⟩))] =
      ⟨.value (.listMacros ⟨"libm.so"⟩), r, unread⟩ := by
  have hw : (Link.closed.write (Wire.line (Request.listMacros ⟨"libm.so"⟩)) none).progress =
      .done none := rfl
  have hc : [Wire.line (Request.listMacros ⟨"libm.so"⟩)].flatten =
      (Link.closed.write (Wire.line (Request.listMacros ⟨"libm.so"⟩)) none).taken :=
        List.append_nil _
  obtain ⟨hdeepest, r, unread, h⟩ := read_written .request _ Link.closed none hw hc false none []
  exact ⟨hdeepest, r, unread ++ [], h⟩

end MacroBridge
