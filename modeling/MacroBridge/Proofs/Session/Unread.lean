import MacroBridge.Proofs.Session.Shared

/-!
What a client has not yet read of what its server has sent.
-/
namespace MacroBridge
open Json (Apart Blank byte isSpace showsItsEnd)

variable {r : Reader} {ahead tail : List UInt8} {owed : List Reply}

/-- All that a server sends for some lines. -/
def Reply.stream (owed : List Reply) : List UInt8 := owed.flatMap Reply.bytes

namespace Reply

@[simp] theorem stream_nil : stream [] = [] := rfl

@[simp] theorem stream_cons (reply : Reply) (owed : List Reply) :
    stream (reply :: owed) = reply.gap ++ (reply.text ++ stream owed) := by
  simp [stream, bytes]

@[simp] theorem stream_append (owed more : List Reply) :
    stream (owed ++ more) = stream owed ++ stream more := by
  simp [stream]

/-- White space in front of a reply. -/
def behind (reply : Reply) {tail : List UInt8} (h : Blank tail) : Reply :=
  { reply with gap := tail ++ reply.gap, blank := h.append reply.blank }

/-- White space and what opens a text go on with no number. -/
theorem apart_of_head {s : List UInt8}
    (h : ∀ b ∈ s.head?, isSpace b = true ∨ showsItsEnd b = true) : Apart s := by
  intro b hb
  have hb := h b hb
  simp only [isSpace, showsItsEnd, Bool.or_eq_true, beq_iff_eq] at hb
  rcases hb with (((rfl | rfl) | rfl) | rfl) | (rfl | rfl) | rfl
  all_goals decide

theorem head_stream (owed : List Reply) (h : Blank tail) :
    ∀ b ∈ (stream owed ++ tail).head?, isSpace b = true ∨ showsItsEnd b = true := by
  intro b hb
  cases owed with
  | nil => exact .inl (h b (List.mem_of_mem_head? hb))
  | cons reply owed =>
    obtain ⟨x, t, ht, hx⟩ := Decodes.eq_cons_of_opens reply.closed.opens
    cases hg : reply.gap with
    | nil =>
      simp only [stream_cons, hg, ht, List.nil_append, List.cons_append, List.head?_cons,
        Option.mem_some_iff] at hb
      exact .inr (hb ▸ hx)
    | cons y gap =>
      simp only [stream_cons, hg, List.cons_append, List.head?_cons, Option.mem_some_iff] at hb
      exact .inl (reply.blank b (by simp [hg, hb]))

end Reply

/-- The buffer of a reader and the bytes on their way to it hold replies, behind white space that
the reader has dropped. -/
structure Unread (r : Reader) (ahead : List UInt8) (owed : List Reply) : Prop where
  sound : r.Sound
  layout : ∃ dropped tail, Blank dropped ∧ Blank tail ∧
    dropped ++ (r.buffer ++ ahead) = Reply.stream owed ++ tail

namespace Unread

theorem fresh : Unread {} [] [] :=
  ⟨Reader.sound_fresh [], [], [], Json.blank_nil, Json.blank_nil, rfl⟩

theorem feed {bs : List UInt8} (h : Unread r (bs ++ ahead) owed) :
    Unread (r.feed bs) ahead owed := by
  obtain ⟨dropped, tail, hd, ht, hl⟩ := h.layout
  exact ⟨h.sound.feed bs, dropped, tail, hd, ht, by simpa [Reader.feed] using hl⟩

theorem pad {bs : List UInt8} (h : Unread r ahead owed) (hb : Blank bs) :
    Unread r (ahead ++ bs) owed := by
  obtain ⟨dropped, tail, hd, ht, hl⟩ := h.layout
  refine ⟨h.sound, dropped, tail ++ bs, hd, ht.append hb, ?_⟩
  rw [← List.append_assoc r.buffer, ← List.append_assoc, hl, List.append_assoc]

/-- A reply that is sent is the last one to be read, behind the white space that has been sent
before it. -/
theorem answer (h : Unread r ahead owed) (reply : Reply) :
    ∃ reply' : Reply, reply'.response = reply.response ∧
      Unread r (ahead ++ reply.bytes) (owed ++ [reply']) := by
  obtain ⟨dropped, tail, hd, ht, hl⟩ := h.layout
  refine ⟨reply.behind ht, rfl, h.sound, dropped, [], hd, Json.blank_nil, ?_⟩
  rw [← List.append_assoc r.buffer, ← List.append_assoc, hl]
  simp [Reply.behind, Reply.bytes]

/-- With no reply on its way there is only white space. -/
theorem blank (h : Unread r ahead []) : Blank (r.buffer ++ ahead) := by
  obtain ⟨dropped, tail, -, ht, hl⟩ := h.layout
  intro b hb
  refine ht b ?_
  rw [Reply.stream_nil, List.nil_append] at hl
  exact hl ▸ List.mem_append_right dropped hb

/-- What a look at the buffer can give: the first of the replies, a rejection of it, or nothing
yet. -/
inductive Looked (ahead : List UInt8) (owed : List Reply) : Reader.Poll Response → Reader → Prop
  | value {reply : Reply} {rest : List Reply} {r' : Reader} (first : owed = reply :: rest)
      (unread : Unread r' ahead rest) : Looked ahead owed (.value reply.response) r'
  | malformed {r' : Reader} : Looked ahead owed .malformed r'
  | more {r' : Reader} (unread : Unread r' ahead owed) : Looked ahead owed .more r'

theorem looked (h : Unread r ahead owed) :
    Looked ahead owed (r.poll Response).1 (r.poll Response).2 := by
  obtain ⟨dropped, tail, hd, ht, hl⟩ := h.layout
  cases owed with
  | nil =>
    have hblank : Blank r.buffer := (Json.blank_append.mp h.blank).1
    rw [Reader.poll_blank h.sound hblank]
    exact .more ⟨Reader.sound_fresh [], dropped ++ r.buffer, tail, hd.append hblank,
      ht, by simpa using hl⟩
  | cons reply rest =>
    rw [Reply.stream_cons, List.append_assoc, List.append_assoc] at hl
    obtain ⟨q, hgap, hs⟩ := blank_split reply.closed.opens hd hl
    have hq : Blank q := (Json.blank_append.mp (hgap ▸ reply.blank)).2
    rcases Reader.whole_or_more Response h.sound hq reply.closed hs with
      ⟨u, hb, hrest⟩ | ⟨r', dropped', hpoll, hr', hd', hb⟩
    · -- Behind the reply stands the next one or white space, so a number in it would be over.
      have hapart : Apart u := by
        refine Reply.apart_of_head fun b hmem => Reply.head_stream rest ht b ?_
        rw [hrest, List.head?_append, Option.mem_def.mp hmem]
        rfl
      obtain ⟨b, hscan⟩ := h.sound.advance_closed hq reply.closed hb
      rcases reply.settled q u hq hapart with hv | hm
      · have hpoll : r.poll Response = (.value reply.response, { buffer := u }) := by
          simp only [Reader.poll, hscan]
          rw [hb, hv]
        rw [hpoll]
        exact .value rfl ⟨Reader.sound_fresh u, [], tail, Json.blank_nil, ht, hrest.symm⟩
      · have hpoll : (r.poll Response).1 = .malformed := by
          simp only [Reader.poll, hscan]
          rw [hb, hm]
        rw [hpoll]
        exact .malformed
    · -- A part of the reply is to come, and only white space was dropped.
      rw [hpoll]
      refine .more ⟨hr', dropped ++ dropped', tail, hd.append hd', ht, ?_⟩
      rw [List.append_assoc, ← List.append_assoc dropped', hb, hs, Reply.stream_cons, hgap]
      simp

end Unread

end MacroBridge
