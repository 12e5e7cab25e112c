import MacroBridge.Session.Error
import MacroBridge.Session.Link
import MacroBridge.Wire.Message

/-!
The client of an expansion server. One request is on its way at a time: its response is read before
the next request is written. A failure that may leave the two sides out of step marks the channel
broken, and a broken channel is never used again.
-/
namespace MacroBridge

structure Client where
  link : Link
  reader : Reader := {}
  broken : Bool := false
  /-- Limit on one exchange of a request for its response. -/
  limit : Option Duration := none

namespace Client

/-- What became of a call: its result, `none` if it never returns, the bytes that the server took
during the call, and the client after it. -/
structure Call (α : Type) where
  result : Option α
  sent : List UInt8
  client : Client

def Call.map {α β : Type} (f : α → β) (c : Call α) : Call β := ⟨c.result.map f, c.sent, c.client⟩

/-- Marks the channel after a failed exchange. -/
def failed (c : Client) (e : ServerError) : Client :=
  { c with broken := c.broken || e.breaksChannel }

/-- The end of a call that has failed. -/
def fail (c : Client) (sent : List UInt8) (e : ServerError) : Call (Except ServerError Response) :=
  ⟨some (.error e), sent, c.failed e⟩

/-- The error of an exchange that has taken too long. -/
def timeout (c : Client) : ServerError := .timeout (c.limit.getD ⟨0⟩)

/-- Writes a line and reads the response to it, over a channel that is not broken. -/
def converse (c : Client) (line : List UInt8) : Call (Except ServerError Response) :=
  let written := c.link.write line (c.limit.map (·.millis))
  let c := { c with link := written.link }
  match written.progress with
  | .failed kind => c.fail written.taken (.codec (.io kind))
  | .expired => c.fail written.taken c.timeout
  | .stuck => ⟨none, written.taken, c⟩
  | .done budget =>
      let receipt := c.reader.read Response c.link.isOpen budget c.link.incoming
      let link := { c.link with incoming := receipt.stream }
      let c := { c with reader := receipt.reader, link }
      match receipt.outcome with
      | .value response => ⟨some (.ok response), written.taken, c⟩
      | .failed e => c.fail written.taken (.codec e)
      | .expired => c.fail written.taken c.timeout
      | .stuck => ⟨none, written.taken, c⟩

/-- Exchanges a request for its response, over a channel that is not broken. A request without an
encoding fails before anything of it is written, and leaves the channel in use. -/
def exchange (c : Client) (request : Request OsPath) : Call (Except ServerError Response) :=
  match request.text? with
  | none => c.fail [] (.codec .encode)
  | some message => c.converse (Wire.line message)

/-- Sends one request. -/
def send (c : Client) (request : Request OsPath) : Call (Except ServerError Response) :=
  if c.broken then ⟨some (.error .broken), [], c⟩ else c.exchange request

/-- A response as the answer to an expansion: the tree, or the error that the server reports. -/
def asExpansion (request : Request OsPath) :
    Response → Except ServerError (Except ReportedError Subtree)
  | .expansion r => .ok (.ok r.expansion)
  | .error e => .ok (.error e)
  | response => .error (.unexpectedResponse request response)

/-- A response as the answer to a listing. -/
def asMacros (request : Request OsPath) :
    Response → Except ServerError (Except ReportedError (List (String × MacroKind)))
  | .macros r => .ok (.ok r.macros)
  | .error e => .ok (.error e)
  | response => .error (.unexpectedResponse request response)

/-- Expands one macro call. -/
def expand (c : Client) (task : ExpansionTask OsPath) :
    Call (Except ServerError (Except ReportedError Subtree)) :=
  let request := Request.expand task
  (c.send request).map (· >>= asExpansion request)

/-- Lists the macros of a library. -/
def listMacros (c : Client) (lib : OsPath) :
    Call (Except ServerError (Except ReportedError (List (String × MacroKind)))) :=
  let request := Request.listMacros ⟨lib⟩
  (c.send request).map (· >>= asMacros request)

def withLimit (c : Client) (limit : Option Duration) : Client := { c with limit }

end Client

end MacroBridge
