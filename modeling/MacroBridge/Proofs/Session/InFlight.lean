import MacroBridge.Proofs.Session.Lock
import MacroBridge.Proofs.Session.Unread

/-!
One exchange at a time. Whatever the callers, the server and the bytes between them do next, the
bytes that are on their way belong to one exchange, until a failure ends the use of the channel.
-/
namespace MacroBridge
open Json (Blank)

variable {ι : Type} {request : ι → Request OsPath} {limit : Option Duration}

namespace Past

/-- A call that was answered. -/
def answered (request : ι → Request OsPath) (a : ι × Response) : Past ι :=
  ⟨a.1, .ok a.2, (request a.1).line⟩

/-- A call whose request has no encoding. -/
def unencodable (i : ι) : Past ι := ⟨i, .error (.codec .encode), []⟩

/-- A call that found the channel broken. -/
def refused (i : ι) : Past ι := ⟨i, .error .broken, []⟩

theorem filter_isAnswered_eq_nil {past : List (Past ι)}
    (h : ∀ p ∈ past, ∃ e, p.result = .error e) : past.filter isAnswered = [] := by
  refine List.filter_eq_nil_iff.mpr fun p hp => ?_
  obtain ⟨e, he⟩ := h p hp
  simp [isAnswered, he, Except.toBool]

end Past

/-- Calls that have left a channel in use, and those of them that were answered. The requests of
the others have no encoding. -/
inductive Orderly (request : ι → Request OsPath) : List (Past ι) → List (ι × Response) → Prop
  | nil : Orderly request [] []
  | answered {past : List (Past ι)} {answered : List (ι × Response)} {a : ι × Response}
      (h : Orderly request past answered) (encodes : (request a.1).Encodes) :
      Orderly request (past ++ [Past.answered request a]) (answered ++ [a])
  | unencodable {past : List (Past ι)} {answered : List (ι × Response)} {i : ι}
      (h : Orderly request past answered) (unencodable : ¬ (request i).Encodes) :
      Orderly request (past ++ [Past.unencodable i]) answered

namespace Orderly
variable {past : List (Past ι)} {answered : List (ι × Response)}

theorem mem (h : Orderly request past answered) : ∀ p ∈ past,
    (∃ a ∈ answered, p = Past.answered request a ∧ (request a.1).Encodes) ∨
      p = Past.unencodable p.caller ∧ ¬ (request p.caller).Encodes := by
  induction h with
  | nil => simp
  | @answered past answered a h encodes ih =>
    intro p hp
    rcases List.mem_append.mp hp with hp | hp
    · exact (ih p hp).imp_left fun ⟨b, hb, heq⟩ => ⟨b, List.mem_append_left _ hb, heq⟩
    · exact .inl ⟨a, by simp, List.mem_singleton.mp hp, encodes⟩
  | @unencodable past answered i h hi ih =>
    intro p hp
    rcases List.mem_append.mp hp with hp | hp
    · exact ih p hp
    · obtain rfl := List.mem_singleton.mp hp
      exact .inr ⟨rfl, hi⟩

theorem filter_eq (h : Orderly request past answered) :
    past.filter Past.isAnswered = answered.map (Past.answered request) := by
  induction h with
  | nil => rfl
  | answered h encodes ih => simp [ih, Past.isAnswered, Past.answered, Except.toBool]
  | unencodable h hi ih => simp [ih, Past.isAnswered, Past.unencodable, Except.toBool]

theorem sent_eq (h : Orderly request past answered) :
    past.flatMap Past.sent = answered.flatMap fun a => (request a.1).line := by
  induction h with
  | nil => rfl
  | answered h encodes ih => simp [ih, Past.answered]
  | unencodable h hi ih => simp [ih, Past.unencodable]

end Orderly

namespace Shared

/-! ### Bytes -/

/-- The bytes in both directions while the channel is in use. All calls that have returned are
answered, but for those whose requests have no encoding. What the server has answered besides, and
what it has not answered, is the current request as far as it is written, and the replies to that
are to be read. -/
structure InStep (request : ι → Request OsPath) (s : Shared ι) (answered : List (ι × Response))
    (owed : List (List UInt8 × Reply)) : Prop where
  usable : s.broken = false
  orderly : Orderly request s.past answered
  served_eq : s.served = answered.map (fun a => ((request a.1).line, a.2)) ++
    owed.map fun o => (o.1, o.2.response)
  lines : ∀ o ∈ owed, IsLine o.1
  stream_eq : owed.flatMap Prod.fst ++ (s.pending ++ s.upstream) = s.written
  unread : Unread s.reader s.downstream (owed.map Prod.snd)

/-- The bytes and the calls once the streams have failed in a call. -/
structure Stopped (request : ι → Request OsPath) (s : Shared ι) (answered : List (ι × Response))
    (failed : Past ι) (refused : List ι) (extra : List (List UInt8 × Response)) : Prop where
  broken : s.broken = true
  free : s.holder = none
  past_eq : ∃ before, Orderly request before answered ∧
    s.past = before ++ failed :: refused.map Past.refused
  fails : ∃ e, failed.result = .error e ∧ e.IsTransport
  encodes : (request failed.caller).Encodes
  sent_initial : failed.sent <+: (request failed.caller).line
  served_eq : s.served = answered.map (fun a => ((request a.1).line, a.2)) ++ extra
  stream_eq : extra.flatMap Prod.fst ++ (s.pending ++ s.upstream) = failed.sent

/-- What holds at every step. -/
structure Sound (request : ι → Request OsPath) (s : Shared ι) : Prop extends Locked request s where
  tally : (∃ answered owed, InStep request s answered owed) ∨
    ∃ answered failed refused extra, Stopped request s answered failed refused extra

variable {s s' : Shared ι} {i : ι}

theorem sound_fresh : Sound request ({} : Shared ι) :=
  ⟨locked_fresh, .inl ⟨[], [], rfl, .nil, rfl, by simp, rfl, .fresh⟩⟩

namespace Sound

theorem inStep (h : s.Sound request) (hb : s.broken = false) :
    ∃ answered owed, InStep request s answered owed := by
  rcases h.tally with ht | ⟨answered, failed, refused, extra, ht⟩
  · exact ht
  · have := ht.broken
    rw [hb] at this
    simp at this

theorem stopped (h : s.Sound request) (hb : s.broken = true) :
    ∃ answered failed refused extra, Stopped request s answered failed refused extra := by
  rcases h.tally with ⟨answered, owed, ht⟩ | ht
  · have := ht.usable
    rw [hb] at this
    simp at this
  · exact ht

/-- The bytes of the exchange that a caller is in. -/
theorem inExchange (h : s.Sound request) (hi : (s.phase i).Exchanges) :
    ∃ answered owed, InStep request s answered owed := h.inStep (h.exchanges hi).2.1

end Sound

/-! ### Steps -/

namespace InStep
variable {answered : List (ι × Response)} {owed : List (List UInt8 × Reply)}

/-- The first reply is to the request that has been written. -/
theorem line_eq {line own : List UInt8} {reply : Reply} {rest : List (List UInt8 × Reply)}
    (h : InStep request s answered ((line, reply) :: rest)) (ho : IsLine own)
    (hw : s.written = own) :
    line = own ∧ rest.flatMap Prod.fst ++ (s.pending ++ s.upstream) = [] := by
  have hs := h.stream_eq
  rw [List.flatMap_cons, List.append_assoc, hw] at hs
  exact (h.lines (line, reply) (by simp)).append_inj ho (t := []) (by simpa using hs)

variable [DecidableEq ι]

/-- The response that is found is the one to the request of the caller. -/
theorem found {reader : Reader} {response : Response} (h : InStep request s answered owed)
    (hi : (request i).Encodes) (hw : s.written = (request i).line)
    (hp : s.reader.poll Response = (.value response, reader)) :
    ∃ owed', InStep request { s.finish i (.ok response) with reader }
      (answered ++ [(i, response)]) owed' := by
  have hlook := h.unread.looked
  rw [hp] at hlook
  cases hlook with
  | @value reply rest _ first unread =>
    obtain ⟨⟨line, reply'⟩, owed', rfl, hreply, hrest⟩ := List.map_eq_cons_iff.mp first
    obtain rfl : reply' = reply := hreply
    -- The holder has written one line, so the line that was answered is that one.
    obtain ⟨rfl, hs⟩ := h.line_eq hi.isLine hw
    refine ⟨owed', ?_, ?_, ?_, fun o ho => h.lines o (by simp [ho]), hs, hrest ▸ unread⟩
    · simpa [finish] using h.usable
    · have horderly := h.orderly.answered (a := (i, reply'.response)) hi
      rwa [Past.answered, ← hw] at horderly
    · simp [finish, move, h.served_eq]

/-- A call whose request has no encoding leaves the bytes as they are. -/
theorem reject (h : InStep request s answered owed) (hi : ¬ (request i).Encodes)
    (hw : s.written = []) :
    InStep request (s.finish i (.error (.codec .encode))) answered owed where
  usable := (finish_encode s i).trans h.usable
  orderly := by
    have horderly := h.orderly.unencodable hi
    rwa [Past.unencodable, ← hw] at horderly
  served_eq := h.served_eq
  lines := h.lines
  stream_eq := h.stream_eq.trans hw
  unread := h.unread

/-- A failure of the streams in the current call ends the use of the channel. -/
theorem fail {e : ServerError} (h : InStep request s answered owed) (he : e.IsTransport)
    (hi : (request i).Encodes) (hw : s.written <+: (request i).line) :
    Stopped request (s.finish i (.error e)) answered ⟨i, .error e, s.written⟩ []
      (owed.map fun o => (o.1, o.2.response)) where
  broken := finish_broken s i he
  free := rfl
  past_eq := ⟨s.past, h.orderly, rfl⟩
  fails := ⟨e, rfl, he⟩
  encodes := hi
  sent_initial := hw
  served_eq := h.served_eq
  stream_eq := by
    rw [List.flatMap_map]
    exact h.stream_eq

end InStep

/-- A call that comes later finds the channel broken. -/
theorem Stopped.refuse [DecidableEq ι] {answered : List (ι × Response)} {failed : Past ι}
    {refused : List ι} {extra : List (List UInt8 × Response)}
    (h : Stopped request s answered failed refused extra) (hw : s.holder = none → s.written = []) :
    Stopped request (s.finish i (.error .broken)) answered failed (refused ++ [i]) extra where
  broken := by simp [finish, h.broken]
  free := rfl
  past_eq := by
    obtain ⟨before, horderly, hpast⟩ := h.past_eq
    exact ⟨before, horderly, by simp [finish, hpast, hw h.free, Past.refused]⟩
  fails := h.fails
  encodes := h.encodes
  sent_initial := h.sent_initial
  served_eq := h.served_eq
  stream_eq := h.stream_eq

namespace Sound

/-- A step outside the callers. -/
theorem outside {upstream pending downstream : List UInt8} {served : List (List UInt8 × Response)}
    (h : s.Sound request)
    (ht : ∀ answered owed, InStep request s answered owed →
      ∃ owed', InStep request { s with upstream, pending, served, downstream } answered owed')
    (ht' : ∀ answered failed refused extra, Stopped request s answered failed refused extra →
      ∃ extra', Stopped request { s with upstream, pending, served, downstream } answered failed
        refused extra') :
    Sound request { s with upstream, pending, served, downstream } := by
  refine ⟨⟨h.callers, h.idle, h.writes⟩, ?_⟩
  rcases h.tally with ⟨answered, owed, hin⟩ | ⟨answered, failed, refused, extra, hst⟩
  · exact .inl ⟨_, ht _ _ hin⟩
  · exact .inr ⟨_, _, _, ht' _ _ _ _ hst⟩

variable [DecidableEq ι]

/-- A call that fails in its exchange. -/
theorem fail {e : ServerError} {reader : Reader} (h : s.Sound request) (hi : (s.phase i).Exchanges)
    (he : e.IsTransport) : Sound request { s.finish i (.error e) with reader } := by
  obtain ⟨answered, owed, ht⟩ := h.inExchange hi
  obtain ⟨-, -, hencodes, hline⟩ := h.exchanges hi
  have hs := ht.fail he hencodes ⟨_, hline⟩
  refine ⟨h.finish_exchange hi (.error e) reader, .inr ?_⟩
  exact ⟨_, _, _, _, hs.broken, hs.free, hs.past_eq, hs.fails, hs.encodes, hs.sent_initial,
    hs.served_eq, hs.stream_eq⟩

theorem step (h : s.Sound request) (hs : Step request limit s s') : s'.Sound request := by
  have hl := h.toLocked.step hs
  cases hs with
  | call hi =>
    refine ⟨hl, ?_⟩
    rcases h.tally with ⟨answered, owed, ht⟩ | ⟨answered, failed, refused, extra, ht⟩
    · exact .inl ⟨_, _, ht.usable, ht.orderly, ht.served_eq, ht.lines, ht.stream_eq, ht.unread⟩
    · exact .inr ⟨_, _, _, _, ht.broken, ht.free, ht.past_eq, ht.fails, ht.encodes,
        ht.sent_initial, ht.served_eq, ht.stream_eq⟩
  | acquire hi free usable encodes =>
    obtain ⟨answered, owed, ht⟩ := h.inStep usable
    refine ⟨hl, .inl ⟨answered, owed, ?_⟩⟩
    exact ⟨usable, ht.orderly, ht.served_eq, ht.lines, ht.stream_eq, ht.unread⟩
  | @reject i hi free usable unencodable =>
    obtain ⟨answered, owed, ht⟩ := h.inStep usable
    exact ⟨hl, .inl ⟨answered, owed, ht.reject unencodable (h.idle free)⟩⟩
  | @refuse i hi free broken =>
    obtain ⟨answered, failed, refused, extra, ht⟩ := h.stopped broken
    exact ⟨hl, .inr ⟨answered, failed, refused ++ [i], extra, ht.refuse h.idle⟩⟩
  | @write i bs rest hi hne =>
    obtain ⟨answered, owed, ht⟩ := h.inExchange (i := i) (by simp [hi])
    refine ⟨hl, .inl ⟨_, _, ht.usable, ht.orderly, ht.served_eq, ht.lines, ?_, ht.unread⟩⟩
    simp [move, ← ht.stream_eq]
  | @flush i hi =>
    obtain ⟨answered, owed, ht⟩ := h.inExchange (i := i) (by simp [hi])
    refine ⟨hl, .inl ⟨answered, owed, ?_⟩⟩
    exact ⟨ht.usable, ht.orderly, ht.served_eq, ht.lines, ht.stream_eq, ht.unread⟩
  | @found i response reader hi hp =>
    obtain ⟨answered, owed, ht⟩ := h.inExchange (i := i) (by simp [hi])
    have hw := h.wrote (i := i) (by simp [hi]) (by simp [hi])
    have hencodes := (h.exchanges (i := i) (by simp [hi])).2.2.1
    exact ⟨hl, .inl ⟨_, ht.found hencodes hw hp⟩⟩
  | @garbled i reader hi hp => exact h.fail (by simp [hi]) (.codec (by simp))
  | @wanting i reader hi hp =>
    obtain ⟨answered, owed, ht⟩ := h.inExchange (i := i) (by simp [hi])
    have hlook := ht.unread.looked
    rw [hp] at hlook
    cases hlook with
    | more unread =>
      refine ⟨hl, .inl ⟨answered, owed, ?_⟩⟩
      exact ⟨ht.usable, ht.orderly, ht.served_eq, ht.lines, ht.stream_eq, unread⟩
  | @receive i bs rest hi ahead hne fits =>
    obtain ⟨answered, owed, ht⟩ := h.inExchange (i := i) (by simp [hi])
    refine ⟨hl, .inl ⟨answered, owed, ?_⟩⟩
    exact ⟨ht.usable, ht.orderly, ht.served_eq, ht.lines, ht.stream_eq, (ahead ▸ ht.unread).feed⟩
  | @fail i e he => exact h.fail he.exchanges.1 he.exchanges.2
  | @arrive bs rest ahead =>
    refine h.outside (fun answered owed ht => ⟨owed, ?_⟩)
      (fun answered failed refused extra ht => ⟨extra, ?_⟩)
    · refine ⟨ht.usable, ht.orderly, ht.served_eq, ht.lines, ?_, ht.unread⟩
      simp [← ht.stream_eq, ahead]
    · refine ⟨ht.broken, ht.free, ht.past_eq, ht.fails, ht.encodes, ht.sent_initial,
        ht.served_eq, ?_⟩
      simp [← ht.stream_eq, ahead]
  | @answer line rest reply whole ahead =>
    refine h.outside (fun answered owed ht => ?_) (fun answered failed refused extra ht => ?_)
    -- The white space that was sent before the reply is read with it.
    · obtain ⟨reply', hresponse, unread⟩ := ht.unread.answer reply
      refine ⟨owed ++ [(line, reply')], ht.usable, ht.orderly, ?_, ?_, ?_, by simpa using unread⟩
      · simp [ht.served_eq, hresponse]
      · intro o ho
        rcases List.mem_append.mp ho with ho | ho
        · exact ht.lines o ho
        · rw [List.mem_singleton.mp ho]
          exact whole
      · simp [← ht.stream_eq, ahead]
    · refine ⟨extra ++ [(line, reply.response)], ht.broken, ht.free, ht.past_eq, ht.fails,
        ht.encodes, ht.sent_initial, ?_, ?_⟩
      · simp [ht.served_eq]
      · simp [← ht.stream_eq, ahead]
  | @pad bs hb =>
    refine h.outside (fun answered owed ht => ⟨owed, ?_⟩)
      (fun answered failed refused extra ht => ⟨extra, ?_⟩)
    · exact ⟨ht.usable, ht.orderly, ht.served_eq, ht.lines, ht.stream_eq, ht.unread.pad hb⟩
    · exact ⟨ht.broken, ht.free, ht.past_eq, ht.fails, ht.encodes, ht.sent_initial,
        ht.served_eq, ht.stream_eq⟩

theorem steps (h : s.Sound request) (hs : Steps request limit s s') : s'.Sound request := by
  induction hs with
  | refl => exact h
  | tail _ hstep ih => exact ih.step hstep

theorem of_reachable (h : Reachable request limit s) : s.Sound request := sound_fresh.steps h

end Sound

/-! ### The history of the channel -/

/-- The calls that have returned, the lines that the server has answered and the bytes that it was
sent all begin with the answered calls. The rest of the calls have failed, and the rest of the
bytes is a first part of one more request. -/
structure History (request : ι → Request OsPath) (s : Shared ι) (answered : List (ι × Response))
    (rest : List (Past ι)) (extra : List (List UInt8 × Response)) (part : List UInt8) : Prop where
  past_eq : ∃ before, Orderly request before answered ∧ s.past = before ++ rest
  served_eq : s.served = answered.map (fun a => ((request a.1).line, a.2)) ++ extra
  failures : ∀ p ∈ rest, ∃ e, p.result = .error e ∧ e ≠ .codec .encode ∧
    ((request p.caller).Encodes ∨ e = .broken)
  stream_eq : s.stream = answered.flatMap (fun a => (request a.1).line) ++ part
  part_initial : part = [] ∨ ∃ i, part <+: (request i).line ∧
    ((s.phase i).Exchanges ∨ ∃ e, e.IsTransport ∧ s.phase i = .returned (.error e))

theorem Sound.exists_history (h : s.Sound request) :
    ∃ answered rest extra part, History request s answered rest extra part := by
  rcases h.tally with ⟨answered, owed, ht⟩ | ⟨answered, failed, refused, extra, ht⟩
  · refine ⟨answered, [], owed.map fun o => (o.1, o.2.response), s.written, ?_⟩
    refine ⟨⟨s.past, ht.orderly, (List.append_nil _).symm⟩, ht.served_eq, by simp, ?_, ?_⟩
    · simp [stream, ht.served_eq, ← ht.stream_eq, List.flatMap_map]
    · cases hold : s.holder with
      | none => exact .inl (h.idle hold)
      | some i =>
        exact .inr ⟨i, ⟨_, (h.writes i hold).2.2⟩, .inl ((h.callers.holder_iff i).mp hold)⟩
  · obtain ⟨e, he, htransport⟩ := ht.fails
    obtain ⟨before, horderly, hpast⟩ := ht.past_eq
    refine ⟨answered, _, extra, failed.sent, ⟨⟨before, horderly, hpast⟩, ht.served_eq, ?_, ?_, ?_⟩⟩
    · intro p hp
      rcases List.mem_cons.mp hp with rfl | hp
      · exact ⟨e, he, htransport.ne_encode, .inl ht.encodes⟩
      · obtain ⟨j, -, rfl⟩ := List.mem_map.mp hp
        exact ⟨.broken, rfl, by simp, .inr rfl⟩
    · simp [stream, ht.served_eq, ← ht.stream_eq, List.flatMap_map]
    · refine .inr ⟨failed.caller, ht.sent_initial, .inr ⟨e, htransport, ?_⟩⟩
      refine (h.callers.returned_iff _ _).mpr ⟨failed.sent, ?_⟩
      simp [hpast, ← he]

section history
variable {answered : List (ι × Response)} {rest : List (Past ι)}
  {extra : List (List UInt8 × Response)}
  {part : List UInt8}

theorem History.answered_eq (hh : History request s answered rest extra part) :
    s.answered = answered.map (Past.answered request) := by
  obtain ⟨before, horderly, hpast⟩ := hh.past_eq
  have hrest : rest.filter Past.isAnswered = [] :=
    Past.filter_isAnswered_eq_nil fun p hp => (hh.failures p hp).imp fun e he => he.1
  rw [Shared.answered, hpast, List.filter_append, horderly.filter_eq, hrest, List.append_nil]

/-- The callers that have got a response are those of the answered calls. -/
theorem History.mem_iff (hh : History request s answered rest extra part) (h : s.Sound request)
    (response : Response) : (i, response) ∈ answered ↔ s.phase i = .returned (.ok response) := by
  have hmem_answered (sent : List UInt8) : ⟨i, .ok response, sent⟩ ∈ s.past ↔
      ⟨i, .ok response, sent⟩ ∈ s.answered := by
    simp [Shared.answered, Past.isAnswered, Except.toBool]
  simp only [h.callers.returned_iff, hmem_answered, hh.answered_eq, List.mem_map]
  constructor
  · intro hmem
    exact ⟨_, _, hmem, rfl⟩
  · rintro ⟨sent, a, ha, heq⟩
    obtain ⟨rfl, hok, -⟩ := Past.mk.inj heq
    obtain rfl := Except.ok.inj hok
    exact ha

/-- The response of a call is the one to the line that the call has written. -/
theorem History.paired (hh : History request s answered rest extra part) {response : Response}
    (hmem : (i, response) ∈ answered) :
    ∃ k : Nat, s.answered[k]? = some (Past.answered request (i, response)) ∧
      s.served[k]? = some ((request i).line, response) := by
  obtain ⟨k, hk⟩ := List.mem_iff_getElem?.mp hmem
  have hlt := (List.getElem?_eq_some_iff.mp hk).1
  refine ⟨k, ?_, ?_⟩
  · rw [hh.answered_eq, List.getElem?_map, hk]
    rfl
  · rw [hh.served_eq, List.getElem?_append_left (by simpa using hlt), List.getElem?_map, hk]
    rfl

/-- The callers that have got a response are the ones whose requests were sent as a whole. -/
theorem History.whole_requests (hh : History request s answered rest extra part)
    (h : s.Sound request) :
    s.stream = (answered.map Prod.fst).flatMap (fun i => (request i).line) ++ part ∧
      (answered.map Prod.fst).Nodup ∧
      ∀ i, i ∈ answered.map Prod.fst ↔ ∃ response, s.phase i = .returned (.ok response) := by
  have honce : (s.answered.map Past.caller).Nodup :=
    h.callers.once.sublist (List.filter_sublist.map _)
  rw [hh.answered_eq, List.map_map] at honce
  refine ⟨?_, honce, fun i => ?_⟩
  · rw [hh.stream_eq, List.flatMap_map]
  · rw [List.mem_map]
    constructor
    · rintro ⟨⟨j, response⟩, hmem, rfl⟩
      exact ⟨response, (hh.mem_iff h response).mp hmem⟩
    · rintro ⟨response, hi⟩
      exact ⟨(i, response), (hh.mem_iff h response).mpr hi, rfl⟩

/-- A call that has returned was answered, or its request has no encoding, or it has failed in
another way. -/
theorem History.mem_past (hh : History request s answered rest extra part) {p : Past ι}
    (hp : p ∈ s.past) : (∃ a ∈ answered, p = Past.answered request a ∧ (request a.1).Encodes) ∨
      (p = Past.unencodable p.caller ∧ ¬ (request p.caller).Encodes) ∨
      ∃ e, p.result = .error e ∧ e ≠ .codec .encode ∧
        ((request p.caller).Encodes ∨ e = .broken) := by
  obtain ⟨before, horderly, hpast⟩ := hh.past_eq
  rw [hpast] at hp
  rcases List.mem_append.mp hp with hp | hp
  · exact (horderly.mem p hp).imp_right .inl
  · exact .inr (.inr (hh.failures p hp))

end history

/-- A call whose request has no encoding has written nothing, and only such a call fails in this
way. -/
theorem Sound.sent_of_encode (h : s.Sound request) {p : Past ι} (hp : p ∈ s.past)
    (he : p.result = .error (.codec .encode)) : p.sent = [] ∧ ¬ (request p.caller).Encodes := by
  obtain ⟨answered, rest, extra, part, hh⟩ := h.exists_history
  rcases hh.mem_past hp with ⟨a, -, rfl, -⟩ | ⟨heq, hi⟩ | ⟨e, heq, hne, -⟩
  · cases he
  · exact ⟨heq ▸ rfl, hi⟩
  · exact absurd (Except.error.inj (heq.symm.trans he)) hne

/-- A caller whose request has no encoding is never in an exchange, and gets one of two errors. -/
theorem Sound.unencodable (h : s.Sound request) (hi : ¬ (request i).Encodes) :
    ¬ (s.phase i).Exchanges ∧ ∀ result, s.phase i = .returned result →
      result = .error (.codec .encode) ∨ result = .error .broken := by
  refine ⟨fun hex => hi (h.exchanges hex).2.2.1, fun result hr => ?_⟩
  obtain ⟨sent, hp⟩ := (h.callers.returned_iff i result).mp hr
  obtain ⟨answered, rest, extra, part, hh⟩ := h.exists_history
  rcases hh.mem_past hp with ⟨a, -, heq, hencodes⟩ | ⟨heq, -⟩ | ⟨e, heq, -, hencodes | rfl⟩
  · obtain ⟨rfl, -, -⟩ := Past.mk.inj heq
    exact absurd hencodes hi
  · exact .inl (Past.mk.inj heq).2.1
  · exact absurd hencodes hi
  · exact .inr heq

/-- Between exchanges nothing is on its way and nothing is left to be read but white space. -/
theorem Sound.settled (h : s.Sound request) (hfree : s.holder = none) (hb : s.broken = false) :
    s.upstream = [] ∧ s.pending = [] ∧ Blank (s.reader.buffer ++ s.downstream) ∧
      s.stream = s.past.flatMap Past.sent ∧ s.answered.map Past.sent = s.served.map Prod.fst ∧
      s.answered.map Past.result = s.served.map (fun q => .ok q.2) ∧
      ∀ p ∈ s.past, p ∈ s.answered ∨
        p = Past.unencodable p.caller ∧ ¬ (request p.caller).Encodes := by
  obtain ⟨answered, owed, ht⟩ := h.inStep hb
  have hstream := ht.stream_eq
  rw [h.idle hfree, List.append_eq_nil_iff, List.append_eq_nil_iff,
    List.flatMap_eq_nil_iff] at hstream
  obtain ⟨howed, hpending, hupstream⟩ := hstream
  -- A reply that is owed would be owed for a line, and no line is empty.
  obtain rfl : owed = [] :=
    List.eq_nil_iff_forall_not_mem.mpr fun o ho => (ht.lines o ho).ne_nil (howed o ho)
  have hanswered : s.answered = answered.map (Past.answered request) := ht.orderly.filter_eq
  refine ⟨hupstream, hpending, ht.unread.blank, ?_, ?_, ?_, fun p hp => ?_⟩
  · simp [stream, hupstream, hpending, ht.orderly.sent_eq, ht.served_eq, List.flatMap_map]
  · simp [hanswered, ht.served_eq, Past.answered]
  · simp [hanswered, ht.served_eq, Past.answered]
  · refine (ht.orderly.mem p hp).imp_left ?_
    rintro ⟨a, ha, rfl, -⟩
    rw [hanswered]
    exact List.mem_map_of_mem ha

/-! ### Broken channels -/

/-- The channel is broken once a call has failed, unless its request has no encoding. -/
theorem Sound.broken_of_error {e : ServerError} (h : s.Sound request)
    (hi : s.phase i = .returned (.error e)) (he : e ≠ .codec .encode) : s.broken = true := by
  obtain ⟨sent, hmem⟩ := (h.callers.returned_iff i _).mp hi
  rcases h.tally with ⟨answered, owed, ht⟩ | ⟨answered, failed, refused, extra, ht⟩
  · rcases ht.orderly.mem _ hmem with ⟨a, -, heq, -⟩ | ⟨heq, -⟩
    · simp [Past.answered] at heq
    · exact absurd (Except.error.inj (Past.mk.inj heq).2.1) he
  · exact ht.broken

/-- The channel is broken exactly if the streams have failed in a call. -/
theorem Sound.broken_iff (h : s.Sound request) :
    s.broken = true ↔ ∃ i e, ServerError.IsTransport e ∧ s.phase i = .returned (.error e) := by
  constructor
  · intro hb
    obtain ⟨answered, failed, refused, extra, ht⟩ := h.stopped hb
    obtain ⟨e, he, htransport⟩ := ht.fails
    obtain ⟨before, -, hpast⟩ := ht.past_eq
    refine ⟨failed.caller, e, htransport, (h.callers.returned_iff _ _).mpr ⟨failed.sent, ?_⟩⟩
    simp [hpast, ← he]
  · rintro ⟨i, e, htransport, hi⟩
    exact h.broken_of_error hi htransport.ne_encode

variable [DecidableEq ι]

theorem Sound.steps_broken (h : s.Sound request) (hb : s.broken = true)
    (hs : Steps request limit s s') (hi : Late (s.phase i)) :
    s'.broken = true ∧ Late (s'.phase i) := by
  induction hs with
  | refl => exact ⟨hb, hi⟩
  | tail hsteps hstep ih => exact (h.steps hsteps).toLocked.step_broken ih.1 hstep ih.2

theorem Sound.exists_refused (h : s.Sound request) (hb : s.broken = true) (hi : Late (s.phase i)) :
    ∃ s', Steps request limit s s' ∧ s'.phase i = .returned (.error .broken) :=
  h.toLocked.exists_refused hb hi

end Shared

end MacroBridge
