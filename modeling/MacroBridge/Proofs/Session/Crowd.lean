import MacroBridge.Proofs.Session.Lock
import MacroBridge.Proofs.Session.Unread

/-!
Callers that give up. A call that is dropped where it waits leaves the queue, or gives the lock of
the channel back with its exchange as far as it has come, and the channel is not marked. Responses
still come in the order in which the server sends them, each to the next call that reads one.
-/
namespace MacroBridge

/-- The points of an exchange at which a call waits for the streams. -/
inductive Phase.Waits : Phase → Prop
  | writing (rest : List UInt8) : Waits (writing rest)
  | reading : Waits reading

theorem Phase.Waits.exchanges {p : Phase} (h : p.Waits) : p.Exchanges := by
  cases h with
  | writing rest => exact exchanges_writing rest
  | reading => exact exchanges_reading

/-- A call that was given up, and the bytes that it had written. -/
structure Leaver (ι : Type) where
  caller : ι
  sent : List UInt8

/-- A client that callers share, and the calls that were given up. -/
structure Crowd (ι : Type) where
  shared : Shared ι := {}
  left : List (Leaver ι) := []

namespace Shared
variable {ι : Type} {request : ι → Request OsPath} {limit : Option Duration}
  {s s' : Shared ι} {i : ι}

/-! ### The order of responses -/

/-- The responses of the calls that have returned one, in the order in which they have returned. -/
def responses (s : Shared ι) : List Response := s.past.filterMap fun p => p.result.toOption

/-- Responses are given out in the order in which the server has sent them. While the channel is in
use, the others are to be read. -/
structure InOrder (s : Shared ι) : Prop where
  first : s.responses <+: s.served.map Prod.snd
  unread : s.broken = false → ∃ owed : List Reply,
    s.served.map Prod.snd = s.responses ++ owed.map Reply.response ∧
      Unread s.reader s.downstream owed

theorem inOrder_fresh : InOrder ({} : Shared ι) := ⟨List.prefix_rfl, fun _ => ⟨[], rfl, .fresh⟩⟩

/-- A failed call returns no response. -/
theorem responses_error [DecidableEq ι] (s : Shared ι) (i : ι) (e : ServerError) :
    (s.finish i (.error e)).responses = s.responses := by
  simp [responses, finish, move, Except.toOption]

theorem responses_ok [DecidableEq ι] (s : Shared ι) (i : ι) (response : Response) :
    (s.finish i (.ok response)).responses = s.responses ++ [response] := by
  simp [responses, finish, move, Except.toOption]

namespace InOrder
variable [DecidableEq ι]

/-- A call that fails for its path leaves everything to the calls behind it. -/
theorem reject (h : s.InOrder) (i : ι) : (s.finish i (.error (.codec .encode))).InOrder where
  first := responses_error s i _ ▸ h.first
  unread hb := responses_error s i (.codec .encode) ▸ h.unread ((finish_encode s i).symm.trans hb)

/-- A call that fails in its exchange ends the use of the channel. -/
theorem fail {e : ServerError} {reader : Reader} (h : s.InOrder)
    (hb : (s.finish i (.error e)).broken = true) :
    InOrder { s.finish i (.error e) with reader } := by
  refine ⟨?_, fun hno => ?_⟩
  · exact responses_error s i e ▸ h.first
  · exact absurd (hb.symm.trans hno) (by simp)

theorem step (h : s.InOrder) (hl : s.Locked request) (hs : Step request limit s s') :
    s'.InOrder := by
  cases hs with
  | call hi => exact ⟨h.first, h.unread⟩
  | acquire hi free usable encodes => exact ⟨h.first, h.unread⟩
  | @reject i hi free usable unencodable => exact h.reject i
  | refuse hi free broken => exact h.fail (by simp [finish, broken])
  | write hi hne => exact ⟨h.first, h.unread⟩
  | flush hi => exact ⟨h.first, h.unread⟩
  | @found i response reader hi hp =>
    obtain ⟨owed, hserved, hunread⟩ := h.unread (hl.exchanges (i := i) (by simp [hi])).2.1
    have hlook := hunread.looked
    rw [hp] at hlook
    cases hlook with
    | @value reply rest _ first unread =>
      have hall : s.served.map Prod.snd = s.responses ++ [reply.response] ++
          rest.map Reply.response := by
        rw [hserved, first, List.map_cons, List.append_assoc, List.singleton_append]
      have hresponses := responses_ok s i reply.response
      exact ⟨⟨_, (hresponses ▸ hall).symm⟩, fun _ => ⟨rest, hresponses ▸ hall, unread⟩⟩
  | garbled hi hp => exact h.fail (finish_broken _ _ (.codec (by simp)))
  | @wanting i reader hi hp =>
    refine ⟨h.first, fun hb => ?_⟩
    obtain ⟨owed, hserved, hunread⟩ := h.unread hb
    have hlook := hunread.looked
    rw [hp] at hlook
    cases hlook with
    | more unread => exact ⟨owed, hserved, unread⟩
  | @receive i bs rest hi ahead hne fits =>
    refine ⟨h.first, fun hb => ?_⟩
    obtain ⟨owed, hserved, hunread⟩ := h.unread hb
    exact ⟨owed, hserved, (ahead ▸ hunread).feed⟩
  | fail he => exact h.fail (finish_broken _ _ he.exchanges.2)
  | arrive ahead => exact ⟨h.first, h.unread⟩
  | @answer line rest reply whole ahead =>
    refine ⟨?_, fun hb => ?_⟩
    · exact h.first.trans (by simp)
    · obtain ⟨owed, hserved, hunread⟩ := h.unread hb
      obtain ⟨reply', hresponse, unread⟩ := hunread.answer reply
      refine ⟨owed ++ [reply'], ?_, unread⟩
      change (s.served ++ [(line, reply.response)]).map Prod.snd =
        s.responses ++ (owed ++ [reply']).map Reply.response
      rw [List.map_append, hserved, List.map_append, List.append_assoc, List.map_singleton,
        List.map_singleton, hresponse]
  | pad blank =>
    refine ⟨h.first, fun hb => ?_⟩
    obtain ⟨owed, hserved, hunread⟩ := h.unread hb
    exact ⟨owed, hserved, hunread.pad blank⟩

end InOrder

/-! ### Failures -/

/-- A call that has failed has left the channel marked, unless its request has no encoding. -/
def Marked (s : Shared ι) : Prop :=
  ∀ p ∈ s.past, ∀ e, p.result = .error e → e ≠ .codec .encode → s.broken = true

theorem marked_fresh : Marked ({} : Shared ι) := by simp [Marked]

namespace Marked
variable [DecidableEq ι]

theorem finish {result : Except ServerError Response} {reader : Reader} (h : s.Marked)
    (hr : ∀ e, result = .error e → e ≠ .codec .encode → (s.finish i result).broken = true) :
    Marked { s.finish i result with reader } := by
  intro p hp e he hne
  rcases List.mem_append.mp hp with hp | hp
  · simp [Shared.finish, h p hp e he hne]
  · rw [List.mem_singleton.mp hp] at he
    exact hr e he hne

theorem step (h : s.Marked) (hs : Step request limit s s') : s'.Marked := by
  cases hs with
  | call hi => exact h
  | acquire hi free usable encodes => exact h
  | reject hi free usable unencodable =>
    exact h.finish fun e he hne => absurd (Except.error.inj he).symm hne
  | refuse hi free broken => exact h.finish fun e _ _ => by simp [Shared.finish, broken]
  | write hi hne => exact h
  | flush hi => exact h
  | found hi hp => exact h.finish fun e he _ => by cases he
  | garbled hi hp => exact h.finish fun e _ _ => finish_broken _ _ (.codec (by simp))
  | wanting hi hp => exact h
  | receive hi ahead hne fits => exact h
  | fail he => exact h.finish fun e _ _ => finish_broken _ _ he.exchanges.2
  | arrive ahead => exact h
  | answer reply whole ahead => exact h
  | pad blank => exact h

end Marked

/-! ### The end of the stream -/

/-- What the holder of the lock has written is the last that was written. -/
theorem suffix_step [DecidableEq ι] (h : s.written <:+ s.stream) (hs : Step request limit s s') :
    s'.written <:+ s'.stream := by
  cases hs with
  | call hi => exact h
  | acquire hi free usable encodes => exact h
  | reject hi free usable unencodable => exact List.nil_suffix
  | refuse hi free broken => exact List.nil_suffix
  | write hi hne =>
    obtain ⟨before, hb⟩ := h
    refine ⟨before, ?_⟩
    simp only [stream, move, ← List.append_assoc] at hb ⊢
    rw [hb]
  | flush hi => exact h
  | found hi hp => exact List.nil_suffix
  | garbled hi hp => exact List.nil_suffix
  | wanting hi hp => exact h
  | receive hi ahead hne fits => exact h
  | fail he => exact List.nil_suffix
  | arrive ahead => simpa [stream, ahead] using h
  | answer reply whole ahead => simpa [stream, ahead] using h
  | pad blank => exact h

end Shared

/-! ### Crowds -/

namespace Crowd
open Shared (Late Locked InOrder Marked)

variable {ι : Type} {request : ι → Request OsPath} {limit : Option Duration}
  {c c' : Crowd ι} {i : ι}

/-- What holds at every step. -/
structure Sound (request : ι → Request OsPath) (c : Crowd ι) : Prop where
  locked : c.shared.Locked request
  inOrder : c.shared.InOrder
  marked : c.shared.Marked
  last : c.shared.written <:+ c.shared.stream
  gone : ∀ q ∈ c.left, c.shared.phase q.caller = .absent

namespace Sound

theorem fresh : Sound request ({} : Crowd ι) :=
  ⟨Shared.locked_fresh, Shared.inOrder_fresh, Shared.marked_fresh, List.nil_suffix, by simp⟩

theorem not_left (h : c.Sound request) (hi : c.shared.phase i ≠ .absent) :
    ∀ q ∈ c.left, q.caller ≠ i := by
  rintro q hq rfl
  exact hi (h.gone q hq)

theorem broken_of_error {e : ServerError} (h : c.Sound request)
    (hi : c.shared.phase i = .returned (.error e)) (he : e ≠ .codec .encode) :
    c.shared.broken = true := by
  obtain ⟨sent, hmem⟩ := (h.locked.callers.returned_iff i _).mp hi
  exact h.marked _ hmem e rfl he

end Sound

variable [DecidableEq ι]

section
variable (request limit)

/-- One step of those who share the client, or a call that is given up. -/
inductive Step : Crowd ι → Crowd ι → Prop
  | goOn {c : Crowd ι} {s : Shared ι} (h : Shared.Step request limit c.shared s)
      (gone : ∀ q ∈ c.left, s.phase q.caller = .absent) : Step c { c with shared := s }
  | leaveQueue {c : Crowd ι} {i : ι} (h : c.shared.phase i = .queued) :
      Step c ⟨c.shared.move i .absent, c.left ++ [⟨i, []⟩]⟩
  /-- What has been written stays written, and what has been read stays with the client. -/
  | leaveExchange {c : Crowd ι} {i : ι} (h : (c.shared.phase i).Waits) :
      Step c ⟨{ c.shared.move i .absent with holder := none, written := [] },
        c.left ++ [⟨i, c.shared.written⟩]⟩

/-- Any number of steps. -/
def Steps : Crowd ι → Crowd ι → Prop := Relation.ReflTransGen (Step request limit)

/-- The states of a new client, its callers and its server. -/
def Reachable (c : Crowd ι) : Prop := Steps request limit {} c

end

theorem Step.left_subset (h : Step request limit c c') : c.left ⊆ c'.left := by
  cases h with
  | goOn h gone => exact List.Subset.refl _
  | leaveQueue h => exact List.subset_append_left _ _
  | leaveExchange h => exact List.subset_append_left _ _

namespace Sound

theorem gone_leave (h : c.Sound request) (i : ι) (sent : List UInt8) :
    ∀ q ∈ c.left ++ [⟨i, sent⟩], Function.update c.shared.phase i .absent q.caller = .absent := by
  intro q hq
  by_cases hi : q.caller = i
  · rw [hi, Function.update_self]
  · rw [Function.update_of_ne hi]
    rcases List.mem_append.mp hq with hq | hq
    · exact h.gone q hq
    · exact absurd (congrArg Leaver.caller (List.mem_singleton.mp hq)) hi

theorem step (h : c.Sound request) (hs : Step request limit c c') : c'.Sound request := by
  cases hs with
  | goOn hstep gone =>
    have hlast := Shared.suffix_step h.last hstep
    exact ⟨h.locked.step hstep, h.inOrder.step h.locked hstep, h.marked.step hstep, hlast, gone⟩
  | @leaveQueue i hi =>
    have horder := h.inOrder
    exact ⟨h.locked.queue (.inr hi) (.inl rfl), ⟨horder.first, horder.unread⟩, h.marked, h.last,
      h.gone_leave i []⟩
  | @leaveExchange i hi =>
    have horder := h.inOrder
    exact ⟨h.locked.leave hi.exchanges, ⟨horder.first, horder.unread⟩, h.marked, List.nil_suffix,
      h.gone_leave i _⟩

theorem steps (h : c.Sound request) (hs : Steps request limit c c') : c'.Sound request := by
  induction hs with
  | refl => exact h
  | tail _ hstep ih => exact ih.step hstep

theorem of_reachable (h : Reachable request limit c) : c.Sound request := fresh.steps h

/-! ### Broken channels -/

/-- Leaving a broken channel does not mend it. -/
theorem step_broken (h : c.Sound request) (hb : c.shared.broken = true)
    (hs : Step request limit c c') (hi : Late (c.shared.phase i)) :
    c'.shared.broken = true ∧ Late (c'.shared.phase i) := by
  have hleave {j : ι} : Late (Function.update c.shared.phase j .absent i) := by
    by_cases hij : i = j
    · rw [hij, Function.update_self]
      exact .absent
    · rwa [Function.update_of_ne hij]
  cases hs with
  | goOn hstep gone => exact h.locked.step_broken hb hstep hi
  | leaveQueue hj => exact ⟨hb, hleave⟩
  | leaveExchange hj => exact ⟨hb, hleave⟩

theorem steps_broken (h : c.Sound request) (hb : c.shared.broken = true)
    (hs : Steps request limit c c') (hi : Late (c.shared.phase i)) :
    c'.shared.broken = true ∧ Late (c'.shared.phase i) := by
  induction hs with
  | refl => exact ⟨hb, hi⟩
  | tail hsteps hstep ih => exact (h.steps hsteps).step_broken ih.1 hstep ih.2

/-- A caller that stays is refused by its own next steps. -/
theorem exists_refused (h : c.Sound request) (hb : c.shared.broken = true)
    (hi : Late (c.shared.phase i)) (hl : ∀ q ∈ c.left, q.caller ≠ i) :
    ∃ c', Steps request limit c c' ∧ c'.shared.phase i = .returned (.error .broken) := by
  have hfree := h.locked.free hb
  have hgone {p : Phase} : ∀ q ∈ c.left,
      Function.update c.shared.phase i p q.caller = .absent := by
    intro q hq
    rw [Function.update_of_ne (hl q hq), h.gone q hq]
  have hrefused {s : Shared ι} (hq : s.phase i = .queued) (free : s.holder = none)
      (broken : s.broken = true)
      (gone : ∀ q ∈ c.left, (s.finish i (.error .broken)).phase q.caller = .absent) :
      Step request limit { c with shared := s } { c with shared := s.finish i (.error .broken) } :=
    .goOn (.refuse hq free broken) gone
  cases hp : c.shared.phase i with
  | absent =>
    refine ⟨_, .head (.goOn (.call hp) hgone) (.single (hrefused ?_ hfree hb ?_)), ?_⟩
    · simp [Shared.move]
    · simpa [Shared.finish, Shared.move] using hgone
    · simp [Shared.finish, Shared.move]
  | queued => exact ⟨_, .single (hrefused hp hfree hb hgone), by simp [Shared.finish, Shared.move]⟩
  | returned result =>
    rw [hp] at hi
    cases hi
    exact ⟨c, .refl, hp⟩
  | writing rest => rw [hp] at hi; cases hi
  | looking => rw [hp] at hi; cases hi
  | reading => rw [hp] at hi; cases hi

end Sound

end Crowd

end MacroBridge
