import MacroBridge.Proofs.Session.Exchange

/-!
The law of a session: a client is answered for a while, then at most one of its calls fails or
never returns, and every call behind a failure finds the channel broken. The bytes of the two
streams are used up in step with the answers.
-/
namespace MacroBridge
open Json (decodeFirst)
open Event (carried)

/-- What a client may be asked for, of a library whose path is a text. -/
inductive Ask
  | expand (task : ExpansionTask)
  | listMacros (lib : String)

/-- The result of a call. -/
inductive Answer
  | expansion (result : Except ServerError (Except ReportedError Subtree))
  | macros (result : Except ServerError (Except ReportedError (List (String × MacroKind))))

def Answer.error? : Answer → Option ServerError
  | expansion (.error e) => some e
  | macros (.error e) => some e
  | _ => none

namespace Ask

def request : Ask → Request
  | expand task => .expand task
  | listMacros lib => .listMacros ⟨lib⟩

/-- The request as the caller makes it. -/
def given (a : Ask) : Request OsPath := a.request.given

/-- The bytes of the request on the wire. -/
def line (a : Ask) : List UInt8 := Wire.line a.request

/-- What the caller makes of the response. -/
def answer (a : Ask) (r : Except ServerError Response) : Answer :=
  match a with
  | expand _ => .expansion (r >>= Client.asExpansion a.given)
  | listMacros _ => .macros (r >>= Client.asMacros a.given)

/-- The only error behind a response is that it does not answer the request. -/
theorem error_of_response (a : Ask) (response : Response) :
    ∀ e ∈ (a.answer (.ok response)).error?, e = .unexpectedResponse a.given response := by
  cases a with
  | expand task =>
    cases response <;> simp [answer, Answer.error?, bind, Except.bind, Client.asExpansion]
  | listMacros lib =>
    cases response <;> simp [answer, Answer.error?, bind, Except.bind, Client.asMacros]

end Ask

namespace Client

/-- Calls the method for what is asked. -/
def ask (c : Client) : Ask → Call Answer
  | .expand task => (c.expand { task with lib := .ofText task.lib }).map .expansion
  | .listMacros lib => (c.listMacros (.ofText lib)).map .macros

theorem Call.map_map {α β γ : Type} (g : β → γ) (f : α → β) (call : Call α) :
    (call.map f).map g = call.map (g ∘ f) := by
  simp [Call.map, Option.map_map]

theorem ask_eq (c : Client) (a : Ask) : c.ask a = (c.send a.given).map a.answer := by
  cases a with
  | expand task => exact Call.map_map _ _ _
  | listMacros lib => exact Call.map_map _ _ _

end Client

/-- One call of a session: what was asked, the answer, `none` if the call never returns, the bytes
sent during it and the client after it. -/
structure Turn where
  ask : Ask
  answer : Option Answer
  sent : List UInt8
  client : Client

/-- Calls one after the other, up to one that never returns. -/
def Client.run (c : Client) : List Ask → List Turn
  | [] => []
  | a :: asks =>
      let call := c.ask a
      ⟨a, call.result, call.sent, call.client⟩ ::
        match call.result with
        | some _ => call.client.run asks
        | none => []

/-- All that a peer writes as it takes messages. -/
def Peer.replies (p : Peer) (taken : List (List UInt8)) : List (List UInt8) → List Event
  | [] => []
  | m :: ms => (p.deliver taken m).replies.flatMap Event.reads ++ p.replies (taken ++ [m]) ms

/-- All bytes that can be read on a connection while the requests of a session are taken. -/
def Link.incomingBytes (l : Link) (asks : List Ask) : List UInt8 :=
  carried (l.incoming ++ l.peer.replies l.taken (asks.map Ask.line))

/-- The first `n` responses that stand one behind the other in `s`, as far as there are any. -/
def responses : Nat → List UInt8 → List Response
  | 0, _ => []
  | n + 1, s =>
      match decodeFirst Wire.decoder s with
      | .value response rest => response :: responses n rest
      | _ => []

/-- The calls of a client from the first one on that is not answered. It fails, and after that
nothing is sent or read any more, or it never returns. Then no limit is set, and the line never
gets through or the server goes silent with no response to be read. -/
inductive SessionEnd (c : Client) : List Ask → List Turn → Prop
  | complete : SessionEnd c [] []
  | failed {a : Ask} {asks : List Ask} {e : ServerError} {sent : List UInt8} {c' : Client}
      (transport : e.IsTransport) (sent_initial : sent <+: a.line) :
      SessionEnd c (a :: asks) (⟨a, some (a.answer (.error e)), sent, c'⟩ ::
        asks.map fun a => ⟨a, some (a.answer (.error .broken)), [], c'⟩)
  | stuck {a : Ask} {asks : List Ask} {sent : List UInt8} {c' : Client}
      (unlimited : c.limit = none) (hangs : c.Hangs a.line sent) :
      SessionEnd c (a :: asks) [⟨a, none, sent, c'⟩]

/-- A broken channel is never used again. -/
theorem Client.run_of_broken {c : Client} (h : c.broken = true) (asks : List Ask) :
    c.run asks = asks.map fun a => ⟨a, some (a.answer (.error .broken)), [], c⟩ := by
  induction asks with
  | nil => rfl
  | cons a asks ih => simp [run, ask_eq, send_of_broken h, Call.map, ih]

theorem Client.Hangs.sent_initial {c : Client} {line sent : List UInt8} (h : c.Hangs line sent) :
    sent <+: line := by
  cases h with
  | untaken h =>
    cases h with
    | write writes_eq passes room whole left => exact ⟨_, whole.symm⟩
    | flush h => exact List.prefix_rfl
  | unanswered => exact List.prefix_rfl

namespace SessionEnd
variable {c : Client} {asks : List Ask} {turns : List Turn}

/-- The bytes sent from the first call on that is not answered. -/
theorem sent (h : SessionEnd c asks turns) :
    turns.flatMap Turn.sent <+: (asks.head?.map Ask.line).getD [] := by
  cases h with
  | complete => exact List.prefix_rfl
  | @failed a asks e sent c' _ hs =>
    have hnil : (asks.map fun a =>
        (⟨a, some (a.answer (.error .broken)), [], c'⟩ : Turn)).flatMap Turn.sent = [] := by
      simp [List.flatMap_eq_nil_iff]
    simpa [hnil] using hs
  | stuck unlimited hangs => simpa using hangs.sent_initial

/-- With a limit every call returns. -/
theorem returns (h : SessionEnd c asks turns) (hlimit : c.limit ≠ none) :
    ∀ t ∈ turns, t.answer ≠ none := by
  cases h with
  | complete => simp
  | failed transport hs => simp
  | stuck unlimited hangs => exact absurd unlimited hlimit

end SessionEnd

/-- The client that some calls have left behind. -/
def Client.behind (c : Client) (turns : List Turn) : Client :=
  (turns.getLast?.map Turn.client).getD c

theorem Client.behind_cons (c : Client) (t : Turn) (turns : List Turn) :
    c.behind (t :: turns) = t.client.behind turns := by
  rw [behind, List.getLast?_cons, Option.map_some, Option.getD_some, behind]
  cases turns.getLast? <;> rfl

namespace Client

/-- How the calls of a client in use go: those that are answered, with their responses, and those
behind them. -/
structure Course (c : Client) (asks done left : List Ask) (answered rest : List Turn)
    (rs : List Response) : Prop where
  asks_eq : asks = done ++ left
  run_eq : c.run asks = answered ++ rest
  length_eq : rs.length = done.length
  responses_eq : rs = responses done.length (c.reader.buffer ++ c.link.incomingBytes asks)
  ask_eq : answered.map Turn.ask = done
  answer_eq : answered.map Turn.answer = List.zipWith (fun a r => some (a.answer (.ok r))) done rs
  answers : ∀ t ∈ answered, ∃ r, t.answer = some (t.ask.answer (.ok r))
  sent_eq : answered.map Turn.sent = done.map Ask.line
  limit_eq : (c.behind answered).limit = c.limit
  peer_eq : (c.behind answered).link.peer = c.link.peer
  taken_eq : (c.behind answered).link.taken = c.link.taken ++ done.map Ask.line
  ending : SessionEnd (c.behind answered) left rest

/-- No call is answered. -/
theorem course_none {c : Client} {asks : List Ask} (h : SessionEnd c asks (c.run asks)) :
    c.Course asks [] asks [] (c.run asks) [] where
  asks_eq := rfl
  run_eq := rfl
  length_eq := rfl
  responses_eq := rfl
  ask_eq := rfl
  answer_eq := rfl
  answers := by simp
  sent_eq := rfl
  limit_eq := rfl
  peer_eq := rfl
  taken_eq := (List.append_nil _).symm
  ending := h

/-- One call is answered, and then the others go their course. -/
theorem Course.cons {c c' : Client} {a : Ask} {asks done left : List Ask}
    {answered rest : List Turn} {rs : List Response} {response : Response}
    (h : c'.Course asks done left answered rest rs)
    (hsend : c.send a.given = ⟨some (.ok response), a.line, c'⟩) (limit : c'.limit = c.limit)
    (peer : c'.link.peer = c.link.peer) (taken : c'.link.taken = c.link.taken ++ [a.line])
    (next : decodeFirst Wire.decoder (c.reader.buffer ++ c.link.incomingBytes (a :: asks)) =
      .value response (c'.reader.buffer ++ c'.link.incomingBytes asks)) :
    c.Course (a :: asks) (a :: done) left
      (⟨a, some (a.answer (.ok response)), a.line, c'⟩ :: answered) rest (response :: rs) where
  asks_eq := by rw [h.asks_eq, List.cons_append]
  run_eq := by
    rw [run, Client.ask_eq, hsend, List.cons_append, ← h.run_eq]
    rfl
  length_eq := by rw [List.length_cons, List.length_cons, h.length_eq]
  responses_eq := by
    rw [List.length_cons, responses, next]
    exact congrArg (response :: ·) h.responses_eq
  ask_eq := by rw [List.map_cons, h.ask_eq]
  answer_eq := by
    rw [List.map_cons, h.answer_eq]
    rfl
  answers := List.forall_mem_cons.mpr ⟨⟨response, rfl⟩, h.answers⟩
  sent_eq := by
    rw [List.map_cons, h.sent_eq]
    rfl
  limit_eq := by rw [behind_cons, h.limit_eq, limit]
  peer_eq := by rw [behind_cons, h.peer_eq, peer]
  taken_eq := by
    rw [behind_cons, h.taken_eq, taken, List.append_assoc, List.map_cons, List.singleton_append]
  ending := by
    rw [behind_cons]
    exact h.ending

/-- Every run from a client in use takes such a course. -/
theorem exists_course {c : Client} (h : c.Live) (asks : List Ask) :
    ∃ done left answered rest rs, c.Course asks done left answered rest rs := by
  induction asks generalizing c with
  | nil => exact ⟨_, _, _, _, _, course_none .complete⟩
  | cons a asks ih =>
    have hsend := send_exchanged h a.request
    cases hcall : c.send a.request.given with
    | mk result sent c' =>
    have hrun : c.run (a :: asks) = ⟨a, result.map a.answer, sent, c'⟩ ::
        match result with
        | some _ => c'.run asks
        | none => [] := by
      rw [run, Client.ask_eq, Ask.given, hcall]
      cases result <;> rfl
    rw [hcall] at hsend
    cases hsend with
    | @answered response _ live limit peer taken next =>
      obtain ⟨done, left, answered, rest, rs, hcourse⟩ := ih live
      refine ⟨_, _, _, _, _, hcourse.cons hcall limit peer taken ?_⟩
      have hn := next (carried (c'.link.peer.replies c'.link.taken (asks.map Ask.line)))
      simpa only [Link.incomingBytes, List.map_cons, Peer.replies, peer, taken,
        Event.carried_append, List.append_assoc, Ask.line] using hn
    | @failed e _ _ transport hprefix broken =>
      refine ⟨_, _, _, _, _, course_none ?_⟩
      rw [hrun]
      simp only [Option.map_some, run_of_broken broken]
      exact .failed transport hprefix
    | stuck unlimited hangs =>
      refine ⟨_, _, _, _, _, course_none ?_⟩
      rw [hrun]
      exact .stuck unlimited hangs

end Client

/-- The law of a session of a new client, for any behaviour of its streams and any calls. The calls
that are answered come first. They have sent their requests whole and in order, and the responses
behind them are the first values of all bytes that were to be read. Their answers have no error but
that of a response of another form. Then there is at most one call that fails by the streams or
never returns. It has sent a first part of its request, and after a failure each call finds the
channel broken and leaves the client as it is. A call never returns only where no limit is set and
its line never gets through or the server goes silent without a response. -/
theorem session_law (link : Link) (limit : Option Duration) (asks : List Ask) :
    let client : Client := { link, limit }
    let turns := client.run asks
    ∃ done left answered rest rs, asks = done ++ left ∧ turns = answered ++ rest ∧
      answered.map Turn.ask = done ∧
      rs.length = done.length ∧ rs = responses done.length (link.incomingBytes asks) ∧
      answered.map Turn.answer = List.zipWith (fun a r => some (a.answer (.ok r))) done rs ∧
      (∀ t ∈ answered, ∃ answer, t.answer = some answer ∧
        ∀ e ∈ answer.error?, ∃ request response, e = .unexpectedResponse request response) ∧
      (client.behind answered).limit = limit ∧ (client.behind answered).link.peer = link.peer ∧
      (client.behind answered).link.taken = link.taken ++ done.map Ask.line ∧
      SessionEnd (client.behind answered) left rest ∧
      (∃ part, turns.flatMap Turn.sent = done.flatMap Ask.line ++ part ∧
        part <+: (left.head?.map Ask.line).getD []) := by
  intro client turns
  obtain ⟨done, left, answered, rest, rs, h⟩ := Client.exists_course (c := client) ⟨rfl, rfl⟩ asks
  refine ⟨done, left, answered, rest, rs, h.asks_eq, h.run_eq, h.ask_eq, h.length_eq,
    h.responses_eq, h.answer_eq, ?_, h.limit_eq, h.peer_eq, h.taken_eq, h.ending,
    rest.flatMap Turn.sent, ?_, h.ending.sent⟩
  · intro t ht
    obtain ⟨response, hr⟩ := h.answers t ht
    exact ⟨_, hr, fun e he => ⟨_, _, t.ask.error_of_response response e he⟩⟩
  · rw [show turns = answered ++ rest from h.run_eq, List.flatMap_append,
      List.flatMap_def, h.sent_eq, ← List.flatMap_def]

/-- A server that has sent one response before it is asked for any, and then goes silent. -/
def quietLink : Link :=
  { peer := .ofScript [], incoming := [.bytes (Wire.line (Response.macros ⟨[]⟩)), .silence] }

def libAsk : Ask := .listMacros "libm.so"

set_option maxRecDepth 8000 in
/-- With a limit no call of a session hangs. The second one takes too long here, and the third one
is refused. -/
theorem session_law_timeout :
    let client : Client := { link := quietLink, limit := some ⟨50⟩ }
    let turns := client.run [libAsk, libAsk, libAsk]
    (∀ t ∈ turns, t.answer ≠ none) ∧ turns.map Turn.answer =
      [some (.macros (.ok (.ok []))), some (.macros (.error (.timeout ⟨50⟩))),
        some (.macros (.error .broken))] := by
  intro client turns
  obtain ⟨_, _, answered, rest, _, -, hturns, -, -, -, -, hanswers, hlimit, -, -, hend, -⟩ :=
    session_law quietLink (some ⟨50⟩) [libAsk, libAsk, libAsk]
  refine ⟨fun t ht => ?_, by cbv⟩
  rw [show turns = answered ++ rest from hturns, List.mem_append] at ht
  rcases ht with ht | ht
  · obtain ⟨answer, hanswer, -⟩ := hanswers t ht
    simp [hanswer]
  · exact hend.returns (by simp [hlimit]) t ht

end MacroBridge
