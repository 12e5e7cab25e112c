import Mathlib
import MacroBridge.Proofs.Session.InFlight
import MacroBridge.Proofs.Session.Shadow

/-!
What a call that is given up does to the calls after it. Nothing, as long as it had not written
anything. A call that had written a part of its request leaves the channel out of step, and the
next one takes its response or goes on with its line.
-/
namespace MacroBridge

/-- A write takes all that is left to write. -/
theorem Shared.Step.write_all {ι : Type} [DecidableEq ι] {request : ι → Request OsPath}
    {limit : Option Duration} {s : Shared ι} {i : ι} {bs : List UInt8}
    (h : s.phase i = .writing bs) (hne : bs ≠ []) : Shared.Step request limit s
      { s.move i (.writing []) with written := s.written ++ bs, upstream := s.upstream ++ bs } :=
  .write (h.trans (congrArg Phase.writing (List.append_nil bs).symm)) hne

namespace Crowd
variable {ι : Type} [DecidableEq ι] {request : ι → Request OsPath} {limit : Option Duration}

/-! ### Runs -/

section steps
variable {s s' : Shared ι} {q : Leaver ι}

/-- A step while nobody has left. -/
theorem Step.together (h : Shared.Step request limit s s') : Step request limit ⟨s, []⟩ ⟨s', []⟩ :=
  .goOn h (by simp)

/-- A step behind a call that was given up. -/
theorem Step.behind (h : Shared.Step request limit s s') (gone : s'.phase q.caller = .absent) :
    Step request limit ⟨s, [q]⟩ ⟨s', [q]⟩ := .goOn h (List.forall_mem_singleton.mpr gone)

end steps

theorem poll_fresh : ({} : Reader).poll Response = (.more, {}) :=
  Reader.poll_blank (Reader.sound_fresh []) Json.blank_nil

/-- A response that is all of the buffer is found. -/
theorem poll_response {response : Response} (hdeep : Wire.nesting response ≤ Json.maxNesting) :
    ∃ r, (({} : Reader).feed (Reply.ofResponse response).bytes).poll Response =
      (.value response, r) := by
  obtain ⟨r, ⟨-, hfound⟩ | ⟨hnot, -⟩⟩ := (Reader.readable_response response).poll_whole
    ((Reader.sound_fresh []).feed (Reply.ofResponse response).bytes) (t := [])
    (by simp [Json.Apart]) (List.append_nil _).symm
  · exact ⟨r, hfound⟩
  · exact absurd hdeep hnot

theorem bytes_response_ne_nil (response : Response) : (Reply.ofResponse response).bytes ≠ [] := by
  obtain ⟨b, u, hb, -⟩ := Decodes.eq_cons_of_opens (Reply.ofResponse response).closed.opens
  simp [Reply.bytes, hb]

/-- Wherever a caller leaves its exchange, another one can write its request directly behind what
it has written. -/
theorem Sound.exists_behind {c : Crowd ι} {i j : ι} (h : c.Sound request)
    (hi : (c.shared.phase i).Waits) (hj : c.shared.phase j = .absent)
    (hl : ∀ q ∈ c.left, q.caller ≠ j) (hencodes : (request j).Encodes) :
    ∃ c', Steps request limit c c' ∧ c'.left = c.left ++ [⟨i, c.shared.written⟩] ∧
      c'.shared.broken = false ∧
      c'.shared.stream = c.shared.stream ++ (request j).line ∧ (c'.shared.phase j).Exchanges := by
  have hij : i ≠ j := by
    rintro rfl
    simpa [hj] using hi.exchanges
  have husable := (h.locked.exchanges hi.exchanges).2.1
  have hgone (p : Phase) : ∀ q ∈ c.left ++ [⟨i, c.shared.written⟩],
      Function.update (Function.update c.shared.phase i .absent) j p q.caller = .absent := by
    intro q hq
    have hne : q.caller ≠ j := by
      rcases List.mem_append.mp hq with hq | hq
      · exact hl q hq
      · rwa [List.mem_singleton.mp hq]
    rw [Function.update_of_ne hne]
    exact h.gone_leave i _ q hq
  refine ⟨_, .head (.leaveExchange hi) <|
    .head (.goOn (.call (i := j) ?_) (hgone _)) <|
    .head (.goOn (.acquire (i := j) ?_ rfl husable hencodes) ?_) <|
    .head (.goOn (Shared.Step.write_all (i := j) ?_ hencodes.isLine.ne_nil) ?_) .refl, rfl,
    husable, ?_, ?_⟩
  · simp [Shared.move, Function.update_of_ne hij.symm, hj]
  · simp [Shared.move]
  · simpa [Shared.move] using hgone _
  · simp [Shared.move]
  · simpa [Shared.move] using hgone _
  · simp [Shared.stream, Shared.move]
  · simp [Shared.move]

section runs
variable {request : Nat → Request OsPath} (hencodes : ∀ k, (request k).Encodes)
  (limit : Option Duration)
include hencodes

/-- The first caller gets the lock and leaves before its first byte. The second one gets its
response. -/
theorem exists_left_idle (response : Response) (hdeep : Wire.nesting response ≤ Json.maxNesting)
    (hfits : (Reply.ofResponse response).bytes.length ≤ Event.readSize) :
    ∃ c, Reachable request limit c ∧ c.left = [⟨0, []⟩] ∧
      c.shared.phase 1 = .returned (.ok response) := by
  obtain ⟨r, hfound⟩ := poll_response hdeep
  exact ⟨_, .head (.together (.call (i := 0) rfl)) <|
    .head (.together (.acquire (i := 0) rfl rfl rfl (hencodes 0))) <|
    .head (.leaveExchange (i := 0) (.writing _)) <|
    .head (.behind (.call (i := 1) rfl) rfl) <|
    .head (.behind (.acquire (i := 1) rfl rfl rfl (hencodes 1)) rfl) <|
    .head (.behind (Shared.Step.write_all (i := 1) rfl (hencodes _).isLine.ne_nil) rfl) <|
    .head (.behind (.flush (i := 1) rfl) rfl) <|
    .head (.behind (.wanting (i := 1) rfl poll_fresh) rfl) <|
    .head (.behind (.arrive (List.append_nil _).symm) rfl) <|
    .head (.behind (.answer (.ofResponse response) (hencodes 1).isLine (List.append_nil _).symm)
      rfl) <|
    .head (.behind (.receive (i := 1) rfl (List.append_nil _).symm (bytes_response_ne_nil response)
      hfits) rfl) <|
    .head (.behind (.found (i := 1) rfl hfound) rfl) .refl, rfl, rfl⟩

/-- The first caller has written its request and leaves while it waits for the response. The second
one sends its own request and returns that response. -/
theorem exists_stray_response (first second : Response)
    (hdeep : Wire.nesting first ≤ Json.maxNesting)
    (hfits : (Reply.ofResponse first).bytes.length ≤ Event.readSize) :
    ∃ c, Reachable request limit c ∧ c.left = [⟨0, (request 0).line⟩] ∧ c.shared.broken = false ∧
      c.shared.served = [((request 0).line, first), ((request 1).line, second)] ∧
      c.shared.phase 1 = .returned (.ok first) := by
  obtain ⟨r, hfound⟩ := poll_response hdeep
  exact ⟨_, .head (.together (.call (i := 0) rfl)) <|
    .head (.together (.acquire (i := 0) rfl rfl rfl (hencodes 0))) <|
    .head (.together (Shared.Step.write_all (i := 0) rfl (hencodes _).isLine.ne_nil)) <|
    .head (.together (.flush (i := 0) rfl)) <|
    .head (.together (.wanting (i := 0) rfl poll_fresh)) <|
    .head (.leaveExchange (i := 0) .reading) <|
    .head (.behind (.call (i := 1) rfl) rfl) <|
    .head (.behind (.acquire (i := 1) rfl rfl rfl (hencodes 1)) rfl) <|
    .head (.behind (Shared.Step.write_all (i := 1) rfl (hencodes _).isLine.ne_nil) rfl) <|
    .head (.behind (.flush (i := 1) rfl) rfl) <|
    .head (.behind (.arrive (List.append_nil _).symm) rfl) <|
    .head (.behind (.answer (.ofResponse first) (hencodes 0).isLine rfl) rfl) <|
    .head (.behind (.answer (.ofResponse second) (hencodes 1).isLine (List.append_nil _).symm)
      rfl) <|
    .head (.behind (.wanting (i := 1) rfl poll_fresh) rfl) <|
    .head (.behind (.receive (i := 1) rfl rfl (bytes_response_ne_nil first) hfits) rfl) <|
    .head (.behind (.found (i := 1) rfl hfound) rfl) .refl, rfl, rfl, rfl, rfl⟩

/-- The first caller leaves with a part of its request written. The second one writes its own
request behind it. -/
theorem exists_joined_line {n : Nat} (hpart : (request 0).line.take n ≠ []) :
    ∃ c, Reachable request limit c ∧ c.left = [⟨0, (request 0).line.take n⟩] ∧
      c.shared.broken = false ∧
      c.shared.stream = (request 0).line.take n ++ (request 1).line ∧
      (c.shared.phase 1).Exchanges := by
  have hwritten : ∃ c, Reachable request limit c ∧ c.left = [] ∧ (c.shared.phase 0).Waits ∧
      c.shared.phase 1 = .absent ∧ c.shared.written = (request 0).line.take n ∧
      c.shared.stream = (request 0).line.take n :=
    ⟨_, .head (.together (.call (i := 0) rfl)) <|
      .head (.together (.acquire (i := 0) rfl rfl rfl (hencodes 0))) <|
      .head (.together (.write (i := 0) (congrArg Phase.writing (List.take_append_drop n _).symm)
        hpart)) .refl,
      rfl, .writing _, rfl, rfl, rfl⟩
  obtain ⟨c, h, hleft, hwaits, habsent, hwritten, hstream⟩ := hwritten
  obtain ⟨c', hsteps, hleft', hbroken, hstream', hexchanges⟩ :=
    (Sound.of_reachable h).exists_behind hwaits habsent (by simp [hleft]) (hencodes 1)
  refine ⟨c', h.trans hsteps, ?_, hbroken, ?_, hexchanges⟩
  · rw [hleft', hleft, hwritten, List.nil_append]
  · rw [hstream', hstream]

end runs

/-! ### Calls that are given up -/

/-- Callers that give up, at every state that any number of callers reach with a server that sends
one response for each line.

Responses are given out in the order in which the server has sent them, and no two callers are in
an exchange. Once a call has failed in transport, or has found the channel broken, so do the
callers that have not had the lock. As long as no call was given up with a byte of its request
written, a call that returns a response returns the one that the server has sent for the line of
that call, and what the server was sent are the whole requests of the answered calls and then a
first part of one more, none of them the request of a call that was given up. A call that is given
up where it waits in its exchange does not mark the channel: whatever it has written is the last of
the stream, and another call writes its own request directly behind. -/
theorem abandoned_calls {c : Crowd ι} (h : Reachable request limit c) :
    c.shared.responses <+: c.shared.served.map Prod.snd ∧
    (∀ i j, (c.shared.phase i).Exchanges → (c.shared.phase j).Exchanges → i = j) ∧
    (∀ j e, c.shared.phase j = .returned (.error e) → e ≠ .codec .encode →
      ∀ c', Steps request limit c c' →
      ∀ i, c.shared.phase i = .absent ∨ c.shared.phase i = .queued →
        (∀ result, c'.shared.phase i = .returned result → result = .error .broken) ∧
          ¬ (c'.shared.phase i).Exchanges ∧
          ((∀ q ∈ c'.left, q.caller ≠ i) →
            ∃ c'', Steps request limit c' c'' ∧ c''.shared.phase i = .returned (.error .broken))) ∧
    ((∀ q ∈ c.left, q.sent = []) →
      (∀ i response, c.shared.phase i = .returned (.ok response) →
        ∃ k : Nat, c.shared.answered[k]? = some (Past.answered request (i, response)) ∧
          c.shared.served[k]? = some ((request i).line, response)) ∧
      ∃ (whole : List ι) (part : List UInt8),
        c.shared.stream = whole.flatMap (fun i => (request i).line) ++ part ∧ whole.Nodup ∧
        (∀ i, i ∈ whole ↔ ∃ response, c.shared.phase i = .returned (.ok response)) ∧
        (part = [] ∨ ∃ i, part <+: (request i).line ∧
          ((c.shared.phase i).Exchanges ∨ ∃ e, e.IsTransport ∧
            c.shared.phase i = .returned (.error e)))) ∧
    (∀ i j, (c.shared.phase i).Waits → c.shared.phase j = .absent → (∀ q ∈ c.left, q.caller ≠ j) →
      (request j).Encodes →
      ∃ c' before, Steps request limit c c' ∧ c'.left = c.left ++ [⟨i, c.shared.written⟩] ∧
        c'.shared.broken = false ∧ (c'.shared.phase j).Exchanges ∧
        c'.shared.stream = before ++ c.shared.written ++ (request j).line) := by
  have hs := Sound.of_reachable h
  refine ⟨hs.inOrder.first, fun i j hi hj => ?_,
    fun j e hj he c' hsteps i hi => ?_, fun hnothing => ?_, fun i j hi hj hl hencodes => ?_⟩
  · exact Option.some.inj ((hs.locked.exchanges hi).1.symm.trans (hs.locked.exchanges hj).1)
  · have hlate : Shared.Late (c.shared.phase i) := by
      rcases hi with hi | hi
      · exact hi ▸ .absent
      · exact hi ▸ .queued
    obtain ⟨hb', hlate'⟩ := hs.steps_broken (hs.broken_of_error hj he) hsteps hlate
    exact ⟨fun result => hlate'.eq_broken, hlate'.not_exchanges,
      (hs.steps hsteps).exists_refused hb' hlate'⟩
  · -- The shadow has the same calls and the same bytes, and nobody has left it.
    have hshadow := Shared.Sound.of_reachable (simulation h hnothing)
    obtain ⟨answered, rest, extra, part, hh⟩ := hshadow.exists_history
    obtain ⟨hstream, honce, hwhole⟩ := hh.whole_requests hshadow
    refine ⟨fun i response hi => ?_, answered.map Prod.fst, part, hstream, honce, fun i => ?_, ?_⟩
    · exact hh.paired ((hh.mem_iff hshadow response).mpr ((hs.shadow_returned i _).mpr hi))
    · exact (hwhole i).trans (exists_congr fun response => hs.shadow_returned i _)
    · refine hh.part_initial.imp_right fun ⟨i, hpart, hphase⟩ => ⟨i, hpart, ?_⟩
      exact hphase.imp exchanges_of_shadow fun ⟨e, htransport, he⟩ =>
        ⟨e, htransport, (hs.shadow_returned i _).mp he⟩
  · obtain ⟨before, hbefore⟩ := hs.last
    obtain ⟨c', hsteps, hleft, hbroken, hstream, hexchanges⟩ := hs.exists_behind hi hj hl hencodes
    exact ⟨c', before, hsteps, hleft, hbroken, hexchanges, hbefore ▸ hstream⟩

/-- Requests for the macros of two libraries. -/
def twoLibs (k : Nat) : Request OsPath :=
  (Request.listMacros ⟨if k = 0 then "liba.so" else "libb.so"⟩).given

theorem encodes_twoLibs (k : Nat) : (twoLibs k).Encodes := Request.encodes_given _

def emptyList : Response := .macros ⟨[]⟩

def boom : Response := .error ⟨.expansionError, "boom"⟩

theorem abandoned_calls_idle : ∃ c, Reachable twoLibs none c ∧ c.left = [⟨0, []⟩] ∧
    ∃ k : Nat, c.shared.answered[k]? = some (Past.answered twoLibs (1, boom)) ∧
      c.shared.served[k]? = some ((twoLibs 1).line, boom) := by
  obtain ⟨c, h, hleft, hreturned⟩ :=
    exists_left_idle encodes_twoLibs none boom (by decide) (by decide)
  obtain ⟨-, -, -, hpaired, -⟩ := abandoned_calls h
  exact ⟨c, h, hleft, (hpaired (by simp [hleft])).1 1 boom hreturned⟩

/-- A caller returns the response to a request that was given up, though the server has sent
another one for its own, and a caller writes its request on the line of one that was given up. -/
theorem abandoned_calls_half_way :
    (∃ c, Reachable twoLibs none c ∧ c.left = [⟨0, (twoLibs 0).line⟩] ∧ c.shared.broken = false ∧
      c.shared.served = [((twoLibs 0).line, emptyList), ((twoLibs 1).line, boom)] ∧
      c.shared.phase 1 = .returned (.ok emptyList)) ∧
    (∃ c, Reachable twoLibs none c ∧ c.left = [⟨0, (twoLibs 0).line.take 5⟩] ∧
      c.shared.broken = false ∧
      c.shared.stream = (twoLibs 0).line.take 5 ++ (twoLibs 1).line ∧
      (c.shared.phase 1).Exchanges) ∧
    (twoLibs 0).line ≠ (twoLibs 1).line ∧ emptyList ≠ boom :=
  ⟨exists_stray_response encodes_twoLibs none emptyList boom (by decide) (by decide),
    exists_joined_line encodes_twoLibs none (by decide), by decide, by decide⟩

end Crowd

end MacroBridge
