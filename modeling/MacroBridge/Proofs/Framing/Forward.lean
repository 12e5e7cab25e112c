import Mathlib
import MacroBridge.Proofs.Framing.RoundTrip
import MacroBridge.Proofs.Wire.Thrifty

/-!
Messages that are sent on. Whatever was accepted can be written again and comes back as it is, and
so does a request with a tree that was accepted as an expansion.
-/
namespace MacroBridge
open Json (byte decodeFirst maxNesting)

/-! ### Deliveries that succeed -/

/-- A delivery in which every call takes some bytes at once and the flush succeeds at once. -/
structure Delivery.Obliging (d : Delivery) : Prop where
  writes : ∀ reply ∈ d.writes, ∃ n, reply = .took (n + 1)
  flushTime : d.flushTime = some 0
  flushFault : d.flushFault = none

theorem Delivery.writeAll_obliging {replies : List WriteReply}
    (h : ∀ reply ∈ replies, ∃ n, reply = .took (n + 1)) (budget : Option Nat)
    (message : List UInt8) : writeAll budget message replies = (message, .done budget) := by
  induction replies generalizing message with
  | nil => rfl
  | cons reply replies ih =>
    obtain ⟨⟨n, rfl⟩, hs⟩ := List.forall_mem_cons.mp h
    cases message with
    | nil => rfl
    | cons b message =>
      simp only [writeAll, ih hs]
      rw [List.take_append_drop]

theorem Link.write_obliging {l : Link} {message : List UInt8}
    (h : (l.peer.deliver l.taken message).Obliging) (budget : Option Nat) :
    (l.write message budget).progress = .done budget := by
  have hwait : Progress.wait budget (some 0) = .done budget := by
    cases budget <;> simp [Progress.wait]
  simp only [write, Delivery.writeAll_obliging h.writes, h.flushTime, hwait, h.flushFault]

/-! ### Values that were read -/

namespace Reader
variable {α : Type} [Wire α] {r r' : Reader} {a : α}

/-- A value is always decoded from the front of some bytes. -/
theorem decoded_of_poll (h : r.poll α = (.value a, r')) :
    ∃ s rest, decodeFirst Wire.decoder s = .value a rest := by
  unfold poll at h
  split at h
  · split at h
    · simp at h
    · next a' rest ha =>
      obtain rfl := Poll.value.inj (Prod.mk.inj h).1
      exact ⟨_, _, ha⟩
    · simp at h
    · simp at h
  · simp at h

theorem decoded_of_await {isOpen : Bool} {budget : Option Nat} {stream : List Event}
    (h : (r.await α isOpen budget stream).outcome = .value a) :
    ∃ s rest, decodeFirst Wire.decoder s = .value a rest := by
  have hforever (budget : Option Nat) : waitForever budget ≠ .value a := by
    cases budget <;> simp [waitForever]
  induction stream generalizing r budget with
  | nil => cases isOpen <;> simp [await, hforever] at h
  | cons e stream ih =>
    cases e with
    | bytes bs =>
      rw [await] at h
      split at h
      · next a' r' hp =>
        obtain rfl := Outcome.value.inj h
        exact decoded_of_poll hp
      · simp at h
      · exact ih h
    | ended => simp [await] at h
    | failed kind => simp [await] at h
    | delay n =>
      cases budget with
      | none => exact ih h
      | some left =>
        rw [await] at h
        split at h
        · simp at h
        · exact ih h
    | silence => exact absurd h (hforever budget)

theorem decoded_of_read {isOpen : Bool} {budget : Option Nat} {stream : List Event}
    (h : (r.read α isOpen budget stream).outcome = .value a) :
    ∃ s rest, decodeFirst Wire.decoder s = .value a rest := by
  rw [read] at h
  split at h
  · next a' r' hp =>
    obtain rfl := Outcome.value.inj h
    exact decoded_of_poll hp
  · simp at h
  · exact decoded_of_await h

/-- No value comes from a message that would not be accepted if it were written by itself. -/
theorem nesting_le_of_read (ht : Wire.Thrifty (Wire.decoder (α := α))) {isOpen : Bool}
    {budget : Option Nat} {stream : List Event}
    (h : (r.read α isOpen budget stream).outcome = .value a) : Wire.nesting a ≤ maxNesting := by
  obtain ⟨s, rest, hd⟩ := decoded_of_read h
  unfold decodeFirst at hd
  split at hd
  · simp at hd
  · split at hd
    · simp at hd
    · simp at hd
    · next ha =>
      split_ifs at hd
      obtain ⟨rfl, -⟩ := Json.Attempt.value.inj hd
      exact ht ha

end Reader

/-! ### Messages that come back -/

namespace MessageType.IsEnvelope
variable {type : MessageType}

theorem readable (h : type.IsEnvelope) (v : type.Value) : Reader.Readable v := by
  cases h with
  | subtree => exact Reader.readable_subtree v
  | request => exact Reader.readable_request v
  | response => exact Reader.readable_response v

theorem thrifty (h : type.IsEnvelope) : Wire.Thrifty (Wire.decoder (α := type.Value)) := by
  cases h with
  | subtree => exact Wire.thrifty_subtree
  | request => exact Wire.thrifty_request
  | response => exact Wire.thrifty_response

end MessageType.IsEnvelope

/-- A value that can be written and comes back: over any link that takes it, and to a new reader
from any cut of what the link took, whatever follows. -/
structure Returns {α : Type} [Wire α] (v : α) : Prop where
  written (l : Link) (budget : Option Nat) (h : (l.peer.deliver l.taken (Wire.line v)).Obliging) :
    (l.write (Wire.line v) budget).progress = .done budget
  read (l : Link) (budget left : Option Nat)
    (hw : (l.write (Wire.line v) budget).progress = .done left) (chunks : List (List UInt8))
    (hc : chunks.flatten = (l.write (Wire.line v) budget).taken) (isOpen : Bool)
    (limit : Option Nat) (stream : List Event) :
    ∃ r unread, ({} : Reader).read α isOpen limit (chunks.map .bytes ++ stream) =
      ⟨.value v, r, unread ++ stream⟩

theorem obliging_closed (message : List UInt8) :
    (Link.closed.peer.deliver Link.closed.taken message).Obliging where
  writes := by simp [Link.closed, Link.ofScript, Peer.ofScript]
  flushTime := rfl
  flushFault := rfl

/-- Depth is all that can keep a value from coming back. -/
theorem Reader.Readable.returns_iff {α : Type} [Wire α] {v : α} (h : Reader.Readable v) :
    Returns v ↔ Wire.nesting v ≤ maxNesting := by
  constructor
  · intro hv
    have hw := hv.written Link.closed none (obliging_closed _)
    have htaken := ((Link.closed.write_spec (Wire.line v) none).2 none hw).1
    have hwhole : [Wire.line v].flatten = Wire.line v := by simp
    have hc : [Wire.line v].flatten = (Link.closed.write (Wire.line v) none).taken := by
      rw [hwhole, htaken]
    obtain ⟨r, unread, hread⟩ := hv.read Link.closed none none hw [Wire.line v] hc false none []
    obtain ⟨r', left, hverdict⟩ := h.read_eq false none hwhole []
    by_contra hdeep
    rw [hverdict, verdict, if_neg hdeep] at hread
    simp at hread
  · intro hfits
    refine ⟨fun l budget h => Link.write_obliging h budget,
      fun l budget left hw chunks hc isOpen limit stream => ?_⟩
    rw [((l.write_spec (Wire.line v) budget).2 left hw).1] at hc
    obtain ⟨r, unread, hread⟩ := h.read_eq isOpen limit hc stream
    exact ⟨r, unread, by rw [hread, verdict, if_pos hfits]⟩

/-- A request needs two levels around the trees that it carries. -/
theorem nesting_expand_le_iff {task : ExpansionTask} {n : Nat} :
    Wire.nesting (Request.expand task) ≤ n + 2 ↔
    Wire.nesting task.body ≤ n ∧ ∀ tree, task.attributes = some tree → Wire.nesting tree ≤ n := by
  have hattributes : Wire.nesting task.attributes ≤ n ↔
      ∀ tree, task.attributes = some tree → Wire.nesting tree ≤ n := by
    cases task.attributes with
    | none => exact iff_of_true (Nat.zero_le n) (by simp)
    | some tree => simp [Wire.nesting, Wire.pieces]
  rw [← hattributes, ← Wire.nesting_task_le_iff]
  exact Wire.nesting_tagged_le_iff (Wire.reads_expansionTask task).complete

/-- An expansion stands as deep in its response as a tree in a request. -/
theorem nesting_expansion_le_iff {result : ExpansionResult} {n : Nat} :
    Wire.nesting (Response.expansion result) ≤ n + 2 ↔ Wire.nesting result.expansion ≤ n :=
  (Wire.nesting_tagged_le_iff (Wire.reads_expansionResult result).complete).trans
    Wire.nesting_result_le_iff

/-- Every message that was accepted, in any of its spellings, can be sent on and comes back. An
expansion that was accepted is at most 125 levels deep, and so it never keeps a request that
carries it from coming back. -/
theorem accepted_returns :
    (∀ {type : MessageType}, type.IsEnvelope → ∀ (r : Reader) (isOpen : Bool) (budget : Option Nat)
      (stream : List Event) (v : type.Value),
      (r.read type.Value isOpen budget stream).outcome = .value v →
        Returns v) ∧
    ∀ (r : Reader) (isOpen : Bool) (budget : Option Nat) (stream : List Event)
      (result : ExpansionResult),
      (r.read Response isOpen budget stream).outcome = .value (.expansion result) →
        Wire.nesting result.expansion ≤ 125 ∧
        ∀ task : ExpansionTask,
          (Returns (Request.expand { task with body := result.expansion }) ↔
            ∀ tree, task.attributes = some tree → Wire.nesting tree ≤ 125) ∧
          (Returns (Request.expand { task with attributes := some result.expansion }) ↔
            Wire.nesting task.body ≤ 125) := by
  constructor
  · intro type ht r isOpen budget stream v h
    exact (ht.readable v).returns_iff.mpr (Reader.nesting_le_of_read ht.thrifty h)
  · intro r isOpen budget stream result h
    have hexpansion : Wire.nesting result.expansion ≤ 125 :=
      nesting_expansion_le_iff.mp (Reader.nesting_le_of_read Wire.thrifty_response h)
    have hreturns (task : ExpansionTask) : Returns (Request.expand task) ↔
        Wire.nesting task.body ≤ 125 ∧
        ∀ tree, task.attributes = some tree → Wire.nesting tree ≤ 125 :=
      (Reader.readable_request _).returns_iff.trans nesting_expand_le_iff
    refine ⟨hexpansion, fun task => ⟨?_, ?_⟩⟩
    · rw [hreturns]
      exact and_iff_right hexpansion
    · rw [hreturns]
      refine and_iff_left fun tree ht => ?_
      obtain rfl := Option.some.inj ht
      exact hexpansion

/-- A response with an array for a structure, an object for a bare name, an escape, a field of no
interest and no delimiter. -/
def oddReply : List UInt8 :=
  ("\x7b\"ExpansionMacro\":[\x7b\"x\":[[]],\"token_trees\":[\x7b\"Leaf\":\x7b\"Punct\":" ++
    "[\"\\u002b\",\x7b\"Alone\":null\x7d,7]\x7d\x7d]\x7d]\x7d").toList.map byte

/-- The tree that it carries. -/
def oddTree : Subtree := ⟨none, [.leaf (.punct ⟨'+', .alone, 7⟩)]⟩

set_option maxRecDepth 4000 in
theorem accepted_returns_oddReply :
    (({} : Reader).read Response false none [.bytes oddReply]).outcome =
    .value (.expansion ⟨oddTree⟩) ∧
    Returns (Response.expansion ⟨oddTree⟩) ∧
    Returns (Request.expand ⟨oddTree, "plus", some oddTree, "libm.so"⟩) := by
  have hread : (({} : Reader).read Response false none [.bytes oddReply]).outcome =
      .value (.expansion ⟨oddTree⟩) := by cbv
  obtain ⟨hfits, hcarried⟩ := accepted_returns.2 {} false none [.bytes oddReply] ⟨oddTree⟩ hread
  refine ⟨hread, accepted_returns.1 .response {} false none [.bytes oddReply] _ hread, ?_⟩
  refine (hcarried ⟨oddTree, "plus", some oddTree, "libm.so"⟩).1.mpr fun tree ht => ?_
  obtain rfl := Option.some.inj ht
  exact hfits

end MacroBridge
