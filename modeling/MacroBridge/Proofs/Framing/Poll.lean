import MacroBridge.Framing.Reader
import MacroBridge.Proofs.Framing.Boundary
import MacroBridge.Proofs.Json.Lawful

/-!
What a reader makes of a buffer that holds a message or a part of one.
-/
namespace MacroBridge
open Json (Blank isSpace showsItsEnd decodeFirst limitsFor Limits EndSeen skipSpace skipSpace_cons
  skipSpace_blank_append skipSpace_eq_nil_iff)

/-- All bytes of a script. -/
def Event.carried : List Event → List UInt8
  | [] => []
  | .bytes bs :: stream => bs ++ carried stream
  | _ :: stream => carried stream

/-- A JSON text that shows its own end. -/
structure Closed (text : List UInt8) : Prop where
  isValue : Json.IsValue text
  opens : text.head?.any showsItsEnd = true

/-- A text that a decoder takes as a whole and that shows its own end. -/
structure Decodes {α : Type} (d : Json.Decoder α) (text : List UInt8) (a : α) : Prop where
  opens : text.head?.any showsItsEnd = true
  decodes : decodeFirst d text = .value a []

namespace Decodes
variable {α : Type} {d : Json.Decoder α} {text : List UInt8} {a : α}

theorem eq_cons_of_opens {text : List UInt8} (h : text.head?.any showsItsEnd = true) :
    ∃ b t, text = b :: t ∧ showsItsEnd b = true := by
  cases text with
  | nil => exact absurd h (by simp)
  | cons b t => exact ⟨b, t, rfl, by simpa using h⟩

theorem isSpace_of_showsItsEnd {b : UInt8} (h : showsItsEnd b = true) : isSpace b = false := by
  simp only [showsItsEnd, Bool.or_eq_true, beq_iff_eq] at h
  rcases h with (rfl | rfl) | rfl
  · decide
  · decide
  · decide

theorem eq_cons (h : Decodes d text a) : ∃ b t, text = b :: t ∧ showsItsEnd b = true :=
  eq_cons_of_opens h.opens

theorem skipSpace_eq (h : Decodes d text a) (t : List UInt8) :
    skipSpace (text ++ t) = text ++ t := by
  obtain ⟨b, u, rfl, hb⟩ := h.eq_cons
  exact skipSpace_cons (isSpace_of_showsItsEnd hb) _

theorem decoder_eq (h : Decodes d text a) : d (limitsFor text) text = .ok (a, []) := by
  have hd := h.decodes
  obtain ⟨b, u, rfl, hb⟩ := h.eq_cons
  simp only [decodeFirst, skipSpace_cons (isSpace_of_showsItsEnd hb), hb, Bool.true_or,
    ↓reduceIte] at hd
  split at hd
  · simp at hd
  · simp at hd
  · next a' rest ho =>
    simp only [Json.Attempt.value.injEq] at hd
    rw [ho, hd.1, hd.2]

theorem isValue (h : Decodes d text a) (hd : d.Lawful) : Json.IsValue text := by
  obtain ⟨p, w, hp, hw, ht⟩ := hd.spells h.decoder_eq
  obtain ⟨b, u, rfl, hb⟩ := h.eq_cons
  cases p with
  | nil =>
    rw [List.append_nil, List.nil_append] at ht
    exact ht ▸ hw
  | cons x p =>
    have hx : isSpace x = true := hp x (by simp)
    obtain ⟨rfl, -⟩ := List.cons.inj ht
    simp [isSpace_of_showsItsEnd hb] at hx

theorem closed (h : Decodes d text a) (hd : d.Lawful) : Closed text := ⟨h.isValue hd, h.opens⟩

/-- The text is decoded in the same way with white space before it and anything behind it. -/
theorem decodeFirst_eq (h : Decodes d text a) (hd : d.Lawful) {p : List UInt8} (hp : Blank p)
    (t : List UInt8) : decodeFirst d (p ++ (text ++ t)) = .value a t := by
  have hlimits : (limitsFor text).Le (limitsFor (p ++ (text ++ t))) := by
    constructor
    · exact Nat.le_refl _
    · simp only [limitsFor, List.length_append]
      omega
  have hend : EndSeen text [] := by
    have hs := h.skipSpace_eq []
    rw [List.append_nil] at hs
    right
    rw [hs]
    exact h.opens
  have ho := hd.append h.decoder_eq hlimits hend t
  have hs : skipSpace (p ++ (text ++ t)) = text ++ t := by
    rw [skipSpace_blank_append hp, h.skipSpace_eq]
  obtain ⟨b, u, rfl, hb⟩ := h.eq_cons
  rw [List.cons_append] at ho hs
  simp [decodeFirst, hs, ho, hb]

end Decodes

/-- White space in front of a text that stands behind a gap is part of the gap. -/
theorem blank_split {gap text p s t : List UInt8} (ht : text.head?.any showsItsEnd = true)
    (hp : Blank p) (h : p ++ s = gap ++ (text ++ t)) :
    ∃ q, gap = p ++ q ∧ s = q ++ (text ++ t) := by
  rcases List.append_eq_append_iff.mp h with ⟨q, hq, hs⟩ | ⟨q, hq, hs⟩
  · exact ⟨q, hq, hs⟩
  · obtain ⟨b, u, hb, hshows⟩ := Decodes.eq_cons_of_opens ht
    cases q with
    | nil => exact ⟨[], by simpa using hq.symm, by simpa using hs.symm⟩
    | cons x q =>
      have hx : isSpace x = true := hp x (by simp [hq])
      rw [hb] at hs
      obtain ⟨rfl, -⟩ := List.cons.inj hs
      simp [Decodes.isSpace_of_showsItsEnd hshows] at hx

namespace Reader
variable {α : Type} [Wire α] {r : Reader}

/-- Whether the boundary is that of a part of the buffer in which the scan has not stopped. -/
def Sound (r : Reader) : Prop :=
  ∃ s u, r.buffer = s ++ u ∧ r.boundary = ({} : Boundary).after s ∧ ({} : Boundary).Quiet s

theorem sound_fresh (buffer : List UInt8) : Sound { buffer := buffer } :=
  ⟨[], buffer, rfl, rfl, trivial⟩

theorem Sound.feed (h : r.Sound) (bytes : List UInt8) : (r.feed bytes).Sound := by
  obtain ⟨s, u, hb, hr, hq⟩ := h
  exact ⟨s, u ++ bytes, by simp [Reader.feed, hb], hr, hq⟩

/-- The scan goes on as if it had seen all of the buffer at once. -/
theorem Sound.advance_eq (h : r.Sound) :
    r.boundary.advance r.buffer = ({} : Boundary).scan r.buffer := by
  obtain ⟨s, u, hb, hr, hq⟩ := h
  rw [Boundary.advance, hr, hb, Boundary.scanned_after, Boundary.scan_append hq]
  simp

/-- A wait that gets bytes goes on as a call with these in the buffer. -/
theorem await_bytes (isOpen : Bool) (budget : Option Nat) (r : Reader) (bs : List UInt8)
    (stream : List Event) :
    r.await α isOpen budget (.bytes bs :: stream) = (r.feed bs).read α isOpen budget stream := by
  rw [await, read]

theorem outside_empty : ({} : Boundary).Outside := ⟨rfl, rfl⟩

/-- White space alone is dropped. -/
theorem poll_blank (h : r.Sound) (hb : Blank r.buffer) : r.poll α = (.more, {}) := by
  have hp := Boundary.passes_blank hb outside_empty
  simp only [poll, h.advance_eq, Boundary.scan_quiet hp.quiet, hp.after_eq]
  rfl

variable {p text t : List UInt8} {a : α}

/-- The scan stops at the end of a text in the buffer. -/
theorem Sound.advance_closed (h : r.Sound) (hp : Blank p) (ht : Closed text)
    (hb : r.buffer = p ++ (text ++ t)) : ∃ b, r.boundary.advance r.buffer = (b, true) := by
  obtain ⟨w, x, hw, hs⟩ := Boundary.scan_value ht.isValue ht.opens
  have hblank := Boundary.passes_blank hp outside_empty
  obtain ⟨hq, hx⟩ := hs _ (outside_empty.past p.length) rfl
  have hquiet : ({} : Boundary).Quiet (p ++ w) := by
    rw [Boundary.quiet_append, hblank.after_eq]
    exact ⟨hblank.quiet, hq⟩
  refine ⟨({} : Boundary).after (p ++ w ++ [x]), ?_⟩
  rw [h.advance_eq, hb, hw, show p ++ (w ++ [x] ++ t) = (p ++ w) ++ x :: t by simp]
  refine Boundary.scan_stop hquiet ?_ t
  rw [Boundary.after_append, hblank.after_eq]
  exact hx

/-- A message in the buffer is taken from it. -/
theorem poll_value (h : r.Sound) (hd : (Wire.decoder (α := α)).Lawful) (hp : Blank p)
    (ht : Decodes Wire.decoder text a) (hb : r.buffer = p ++ (text ++ t)) :
    r.poll α = (.value a, { buffer := t }) := by
  obtain ⟨b, hscan⟩ := h.advance_closed hp (ht.closed hd) hb
  simp only [poll, hscan]
  rw [hb, ht.decodeFirst_eq hd hp t]

variable (α) in
/-- A part of a text stays in the buffer. -/
theorem poll_part (h : r.Sound) (hp : Blank p) (ht : Closed (text ++ t)) (htext : text ≠ [])
    (hrest : t ≠ []) (hb : r.buffer = p ++ text) :
    ∃ r', r.poll α = (.more, r') ∧ r'.Sound ∧ r'.buffer = r.buffer := by
  obtain ⟨w, x, hw, hs⟩ := Boundary.scan_value ht.isValue ht.opens
  have hblank := Boundary.passes_blank hp outside_empty
  obtain ⟨u, rfl⟩ : ∃ u, w = text ++ u := by
    obtain ⟨u, y, rfl⟩ := List.eq_nil_or_concat t |>.resolve_left hrest
    rw [List.concat_eq_append, ← List.append_assoc] at hw
    exact ⟨u, (List.append_inj' hw rfl).1.symm⟩
  obtain ⟨hq, -⟩ := hs _ (outside_empty.past p.length) rfl
  have hquiet : ({} : Boundary).Quiet r.buffer := by
    rw [hb, Boundary.quiet_append, hblank.after_eq]
    exact ⟨hblank.quiet, (Boundary.quiet_append.mp hq).1⟩
  have hstarted : (({} : Boundary).after r.buffer).started = true := by
    obtain ⟨b, v, hv, hshows⟩ := Decodes.eq_cons_of_opens ht.opens
    obtain ⟨y, v', rfl⟩ := List.exists_cons_of_ne_nil htext
    obtain ⟨rfl, -⟩ := List.cons.inj hv
    rw [hb, Boundary.after_append, hblank.after_eq]
    exact Boundary.started_of_showsItsEnd (outside_empty.past _) hshows v'
  refine ⟨{ r with boundary := ({} : Boundary).after r.buffer }, ?_, ?_, rfl⟩
  · simp [poll, h.advance_eq, Boundary.scan_quiet hquiet, hstarted]
  · exact ⟨r.buffer, [], by simp, rfl, hquiet⟩

variable (α) in
/-- Either all of the next text is in the buffer, or the reader waits and drops white space at
most. -/
theorem whole_or_more {ahead : List UInt8} (h : r.Sound) (hp : Blank p) (ht : Closed text)
    (hb : r.buffer ++ ahead = p ++ (text ++ t)) :
    (∃ u, r.buffer = p ++ (text ++ u) ∧ t = u ++ ahead) ∨
      ∃ r' dropped, r.poll α = (.more, r') ∧ r'.Sound ∧ Blank dropped ∧
        dropped ++ r'.buffer = r.buffer := by
  have hblank (hb : Blank r.buffer) :
      ∃ r' dropped, r.poll α = (.more, r') ∧ r'.Sound ∧ Blank dropped ∧
        dropped ++ r'.buffer = r.buffer :=
    ⟨{}, r.buffer, poll_blank h hb, sound_fresh [], hb, List.append_nil _⟩
  rcases List.append_eq_append_iff.mp hb with ⟨q, hq, -⟩ | ⟨u, hu, hrest⟩
  · exact .inr (hblank fun b hmem => hp b (by simp [hq, hmem]))
  rcases List.append_eq_append_iff.mp hrest with ⟨v, rfl, hahead⟩ | ⟨v, hv, -⟩
  · exact .inl ⟨v, hu, hahead⟩
  by_cases hempty : u = []
  · exact .inr (hblank (by simpa [hu, hempty] using hp))
  by_cases hwhole : v = []
  · refine .inl ⟨[], ?_, ?_⟩
    · rw [hu, hv, hwhole, List.append_nil, List.append_nil]
    · simpa [hv, hwhole] using hrest
  · obtain ⟨r', hpoll, hr', hb'⟩ := poll_part α h hp (hv ▸ ht) hempty hwhole hu
    exact .inr ⟨r', [], hpoll, hr', Json.blank_nil, hb'⟩

end Reader

end MacroBridge
