import Mathlib
import MacroBridge.Proofs.Session.Serial

/-!
Callers of one client each get the response to their own request, in every run of the callers, the
server and the bytes between them.
-/
namespace MacroBridge
open Json (Blank)

namespace Shared
variable {ι : Type} [DecidableEq ι] {request : ι → Request OsPath} {limit : Option Duration}

/-- Single flight, at every state that any number of callers reach with a server that sends one
response for each line, whatever the order of the steps, the pieces in which bytes move, the
timeouts and the failures.

A call that returns a response returns the one that the server has sent for the line of that call.
No two callers are in an exchange, and what the server was sent are the whole requests of the
answered calls and then a first part of one more. While nobody holds the lock of a channel in use,
all that was written is answered, all answers are read, and a call that has returned without one
had a request with no encoding. The channel is broken exactly if the streams have failed in a call,
and once a call has failed in this way, or has found the channel broken, so do the callers that
have not had the lock. A call whose request has no encoding writes nothing, and fails for that or
finds the channel broken. The calls that have returned are calls of the client one after the
other. -/
theorem single_flight {s : Shared ι} (h : Reachable request limit s) :
    (∀ i response, s.phase i = .returned (.ok response) →
      ∃ k : Nat, s.answered[k]? = some (Past.answered request (i, response)) ∧
        s.served[k]? = some ((request i).line, response)) ∧
    (∀ i result, s.phase i = .returned result ↔ ∃ sent, ⟨i, result, sent⟩ ∈ s.past) ∧
    (s.past.map Past.caller).Nodup ∧
    (∀ i j, (s.phase i).Exchanges → (s.phase j).Exchanges → i = j) ∧
    (∃ (whole : List ι) (part : List UInt8),
      s.stream = whole.flatMap (fun i => (request i).line) ++ part ∧ whole.Nodup ∧
      (∀ i, i ∈ whole ↔ ∃ response, s.phase i = .returned (.ok response)) ∧
      (part = [] ∨ ∃ i, part <+: (request i).line ∧
        ((s.phase i).Exchanges ∨ ∃ e, e.IsTransport ∧ s.phase i = .returned (.error e)))) ∧
    (s.holder = none → s.broken = false →
      s.upstream = [] ∧ s.pending = [] ∧ Blank (s.reader.buffer ++ s.downstream) ∧
        s.stream = s.past.flatMap Past.sent ∧ s.answered.map Past.sent = s.served.map Prod.fst ∧
        s.answered.map Past.result = s.served.map (fun q => .ok q.2) ∧
        ∀ p ∈ s.past, p ∈ s.answered ∨
          p = Past.unencodable p.caller ∧ ¬ (request p.caller).Encodes) ∧
    (s.broken = true ↔ ∃ i e, ServerError.IsTransport e ∧ s.phase i = .returned (.error e)) ∧
    (∀ j e, s.phase j = .returned (.error e) → e ≠ .codec .encode →
      ∀ s', Steps request limit s s' →
      ∀ i, s.phase i = .absent ∨ s.phase i = .queued →
        (∀ result, s'.phase i = .returned result → result = .error .broken) ∧
        ¬ (s'.phase i).Exchanges ∧
          ∃ s'', Steps request limit s' s'' ∧ s''.phase i = .returned (.error .broken)) ∧
    ((∀ p ∈ s.past, p.result = .error (.codec .encode) →
      p.sent = [] ∧ ¬ (request p.caller).Encodes) ∧
      ∀ i, ¬ (request i).Encodes → ¬ (s.phase i).Exchanges ∧ ∀ result,
        s.phase i = .returned result →
        result = .error (.codec .encode) ∨ result = .error .broken) ∧
    (∃ link c, Client.Serves request { link, limit } s.past c ∧
      (s.holder = none → c.reader = s.reader ∧ c.broken = s.broken)) := by
  have hs := Sound.of_reachable h
  obtain ⟨answered, rest, extra, part, hh⟩ := hs.exists_history
  obtain ⟨hstream, honce, hwhole⟩ := hh.whole_requests hs
  refine ⟨fun i response hi => hh.paired ((hh.mem_iff hs response).mpr hi),
    hs.callers.returned_iff, hs.callers.once, ?_,
    ⟨_, part, hstream, honce, hwhole, hh.part_initial⟩, hs.settled, hs.broken_iff, ?_,
    ⟨fun p => hs.sent_of_encode, fun i => hs.unencodable⟩, ?_⟩
  · intro i j hi hj
    exact Option.some.inj ((hs.exchanges hi).1.symm.trans (hs.exchanges hj).1)
  · intro j e hj he s' hsteps i hi
    have hlate : Late (s.phase i) := by
      rcases hi with hi | hi
      · exact hi ▸ .absent
      · exact hi ▸ .queued
    obtain ⟨hb', hlate'⟩ := hs.steps_broken (hs.broken_of_error hj he) hsteps hlate
    refine ⟨fun result => hlate'.eq_broken, hlate'.not_exchanges, ?_⟩
    exact (hs.steps hsteps).exists_refused hb' hlate'
  · cases Replayed.of_reachable h with
    | inUse deliveries taken r₀ length_eq serves usable free busy =>
      exact ⟨_, _, serves [], fun hfree => ⟨free hfree, usable.symm⟩⟩
    | stopped deliveries c serves reader_eq broken_eq broken free =>
      exact ⟨_, c, serves, fun _ => ⟨reader_eq, broken_eq⟩⟩

/-- Requests for the macros of a library. The path of the fourth caller is no text. -/
def libRequest : Nat → Request OsPath
  | 3 => .listMacros ⟨⟨[0xFF]⟩⟩
  | _ => (Request.listMacros ⟨"libm.so"⟩).given

def noMacros : Response := .macros ⟨[]⟩

/-- The first caller is answered while the second one waits. The fourth one fails with its path and
leaves the channel in use. The second one has written a part of its request when its time is over,
and then the third one comes. -/
theorem exists_timeout : ∃ s : Shared Nat, Reachable libRequest (some ⟨50⟩) s ∧
    s.phase 0 = .returned (.ok noMacros) ∧ s.phase 3 = .returned (.error (.codec .encode)) ∧
    s.phase 1 = .returned (.error (.timeout ⟨50⟩)) ∧ s.phase 2 = .queued := by
  have hempty : ({} : Reader).poll Response = (.more, {}) :=
    Reader.poll_blank (Reader.sound_fresh []) Json.blank_nil
  have hencodes : (Request.listMacros ⟨"libm.so"⟩).given.Encodes := Request.encodes_given _
  have hpart : (libRequest 1).line.take 5 ≠ [] := by
    have htext : (libRequest 1).text? = some (.listMacros ⟨"libm.so"⟩) := Request.text?_given _
    rw [Request.line_eq htext]
    decide
  obtain ⟨r, ⟨-, hfound⟩ | ⟨hdeep, -⟩⟩ := (Reader.readable_response noMacros).poll_whole
    ((Reader.sound_fresh []).feed (Reply.ofResponse noMacros).bytes) (t := [])
    (by simp [Json.Apart]) (List.append_nil _).symm
  · exact ⟨_, .head (.call (i := 0) rfl) <|
      .head (.call (i := 1) rfl) <|
      .head (.acquire (i := 0) rfl rfl rfl hencodes) <|
      .head (.write (i := 0) (congrArg Phase.writing (List.append_nil _).symm)
        hencodes.isLine.ne_nil) <|
      .head (.flush (i := 0) rfl) <|
      .head (.wanting (i := 0) rfl hempty) <|
      .head (.arrive (List.append_nil _).symm) <|
      .head (.answer (.ofResponse noMacros) hencodes.isLine (List.append_nil _).symm) <|
      .head (.receive (i := 0) rfl (List.append_nil _).symm (by decide) (by decide)) <|
      .head (.found (i := 0) rfl hfound) <|
      .head (.call (i := 3) rfl) <|
      .head (.reject (i := 3) rfl rfl rfl (Request.not_encodes (by decide))) <|
      .head (.acquire (i := 1) rfl rfl rfl hencodes) <|
      .head (.write (i := 1) (congrArg Phase.writing (List.take_append_drop 5 _).symm) hpart) <|
      .head (.fail (i := 1) (.writeTimeout _ rfl)) <|
      .head (.call (i := 2) rfl) .refl, rfl, rfl, rfl, rfl⟩
  · exact absurd (by decide) hdeep

theorem single_flight_timeout : ∃ s : Shared Nat, Reachable libRequest (some ⟨50⟩) s ∧
    (∃ k : Nat, s.answered[k]? = some (Past.answered libRequest (0, noMacros)) ∧
      s.served[k]? = some ((libRequest 0).line, noMacros)) ∧
    s.phase 3 = .returned (.error (.codec .encode)) ∧
    s.phase 1 = .returned (.error (.timeout ⟨50⟩)) ∧
    ∀ s', Steps libRequest (some ⟨50⟩) s s' →
      (∀ result, s'.phase 2 = .returned result → result = .error .broken) ∧
        ∃ s'', Steps libRequest (some ⟨50⟩) s' s'' ∧ s''.phase 2 = .returned (.error .broken) := by
  obtain ⟨s, h, hfirst, hrejected, hsecond, hthird⟩ := exists_timeout
  obtain ⟨hpaired, -, -, -, -, -, -, hlate, -⟩ := single_flight h
  refine ⟨s, h, hpaired 0 noMacros hfirst, hrejected, hsecond, fun s' hsteps => ?_⟩
  obtain ⟨hbroken, -, hrefused⟩ := hlate 1 _ hsecond (by simp) s' hsteps 2 (.inr hthird)
  exact ⟨hbroken, hrefused⟩

end Shared

end MacroBridge
