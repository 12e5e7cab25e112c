import MacroBridge.Proofs.Framing.Poll

/-!
Reads that never return. There is no limit on their time, and the stream goes silent before the
text of a message has come.
-/
namespace MacroBridge
open Json (Blank)
open Event (carried)

/-- Whether a reader that waits goes on when it meets the event: bytes have come, or a pause. -/
def Event.Passes : Event → Prop
  | bytes _ | delay _ => True
  | _ => False

/-- A stream from which nothing comes and that is not at its end either. -/
def Event.Silent (isOpen : Bool) : List Event → Prop
  | [] => isOpen = true
  | e :: _ => e = .silence

namespace Reader
variable {α : Type} [Wire α] {r : Reader} {isOpen : Bool} {budget : Option Nat}
  {stream heard silent : List Event} {p text t : List UInt8} {a : α}

omit [Wire α] in
theorem waitForever_stuck (h : (waitForever budget : Outcome α) = .stuck) : budget = none := by
  cases budget with
  | none => rfl
  | some left => cases h

/-- A wait without end meets bytes and pauses, and then silence. -/
theorem await_stuck (h : (r.await α isOpen budget stream).outcome = .stuck) :
    budget = none ∧ ∃ heard silent, stream = heard ++ silent ∧ (∀ e ∈ heard, e.Passes) ∧
      Event.Silent isOpen silent := by
  induction stream generalizing r budget with
  | nil =>
    simp only [await] at h
    split at h
    · next hopen => exact ⟨waitForever_stuck h, [], [], rfl, by simp, hopen⟩
    · cases h
  | cons e stream ih =>
    cases e with
    | bytes bs =>
      simp only [await] at h
      split at h
      · cases h
      · cases h
      · obtain ⟨hb, heard, silent, rfl, hp, hs⟩ := ih h
        exact ⟨hb, _ :: heard, silent, rfl, List.forall_mem_cons.mpr ⟨trivial, hp⟩, hs⟩
    | ended => cases h
    | failed kind => cases h
    | delay n =>
      cases budget with
      | none =>
        obtain ⟨hb, heard, silent, rfl, hp, hs⟩ := ih h
        exact ⟨hb, _ :: heard, silent, rfl, List.forall_mem_cons.mpr ⟨trivial, hp⟩, hs⟩
      | some left =>
        simp only [await] at h
        split at h
        · cases h
        · exact absurd (ih h).1 (by simp)
    | silence => exact ⟨waitForever_stuck h, [], _, rfl, by simp, rfl⟩

/-- A message whose text comes while the reader waits is returned. -/
theorem await_finds (hd : (Wire.decoder (α := α)).Lawful) (h : r.Sound) (hp : Blank p)
    (ht : Decodes Wire.decoder text a) (hb : r.buffer ++ carried heard = p ++ (text ++ t))
    (hpart : ∀ u, r.buffer ≠ p ++ (text ++ u)) (hpass : ∀ e ∈ heard, e.Passes) :
    (r.await α isOpen none (heard ++ silent)).outcome = .value a := by
  induction heard generalizing r p with
  | nil => exact absurd (by simpa [carried] using hb) (hpart t)
  | cons e heard ih =>
    obtain ⟨he, hrest⟩ := List.forall_mem_cons.mp hpass
    cases e with
    | bytes bs =>
      have hfeed : (r.feed bs).buffer ++ carried heard = p ++ (text ++ t) := by
        simpa [Reader.feed, carried] using hb
      rw [List.cons_append, await_bytes, read]
      by_cases hwhole : ∃ u, (r.feed bs).buffer = p ++ (text ++ u)
      · obtain ⟨u, hu⟩ := hwhole
        rw [poll_value (h.feed bs) hd hp ht hu]
      · rcases whole_or_more α (h.feed bs) hp (ht.closed hd) hfeed with
          ⟨u, hu, -⟩ | ⟨r', dropped, hmore, hr', hdrop, hbuffer⟩
        · exact absurd ⟨u, hu⟩ hwhole
        -- White space that was dropped stood in front of the text.
        · rw [← hbuffer, List.append_assoc] at hfeed
          obtain ⟨q, rfl, hq⟩ := blank_split ht.opens hdrop hfeed
          rw [hmore]
          refine ih hr' (Json.blank_append.mp hp).2 hq (fun u hu => hwhole ⟨u, ?_⟩) hrest
          rw [← hbuffer, hu, List.append_assoc]
    | delay n => exact ih h hp hb hpart hrest
    | ended => exact he.elim
    | failed kind => exact he.elim
    | silence => exact he.elim

/-- A read without end has no limit. The stream goes silent, and what has come by then does not
begin with the text of a message. -/
theorem read_stuck (hd : (Wire.decoder (α := α)).Lawful) (h : r.Sound)
    (hs : (r.read α isOpen budget stream).outcome = .stuck) :
    budget = none ∧ ∃ heard silent, stream = heard ++ silent ∧ (∀ e ∈ heard, e.Passes) ∧
      Event.Silent isOpen silent ∧
        ∀ p text (a : α) t, Blank p → Decodes Wire.decoder text a →
          r.buffer ++ carried heard ≠ p ++ (text ++ t) := by
  rw [read] at hs
  split at hs
  · cases hs
  · cases hs
  · next r' hmore =>
    obtain ⟨rfl, heard, silent, rfl, hpass, hsilent⟩ := await_stuck hs
    refine ⟨rfl, heard, silent, rfl, hpass, hsilent, fun p text a t hp ht hb => ?_⟩
    have hpart (u : List UInt8) : r.buffer ≠ p ++ (text ++ u) := by
      intro hu
      simp [poll_value h hd hp ht hu] at hmore
    rcases whole_or_more α h hp (ht.closed hd) hb with
      ⟨u, hu, -⟩ | ⟨r'', dropped, hmore', hr, hdrop, hbuffer⟩
    · exact hpart u hu
    · obtain rfl : r'' = r' := (Prod.mk.inj (hmore'.symm.trans hmore)).2
      rw [← hbuffer, List.append_assoc] at hb
      obtain ⟨q, rfl, hq⟩ := blank_split ht.opens hdrop hb
      have hfound : (r''.await α isOpen none (heard ++ silent)).outcome = .value a :=
        await_finds hd hr (Json.blank_append.mp hp).2 ht hq
          (fun u hu => hpart u (by rw [← hbuffer, hu, List.append_assoc])) hpass
      exact absurd (hfound.symm.trans hs) (by simp)

end Reader

end MacroBridge
