import MacroBridge.Process.Run
import MacroBridge.Server.Config
import MacroBridge.Session.Client

/-!
Servers that run as processes of their own. Whatever a process does takes it a moment, so that
nothing is there to be read right when it has been started or written to.
-/
namespace MacroBridge

/-- How a process has ended. -/
inductive ExitStatus
  | code (n : Nat)
  | signal (n : Nat)
  deriving DecidableEq, Repr

/-- A running server: its command, and the variables of the program that has started it. -/
structure ServerProcess where
  command : Command
  inherited : List (String × String) := []

namespace ServerProcess

/-- The least time in milliseconds that a process takes to react. -/
def reaction : Nat := 1

/-- What the process has done once it has taken some messages. -/
def trace (p : ServerProcess) (taken : List (List UInt8)) (inputIsComplete : Bool) : Trace :=
  p.command.trace p.inherited taken.flatten inputIsComplete

/-- What a client meets on the output of a process. -/
def event : Act → Event
  | .wrote bytes => .bytes bytes
  | .paused millis => .delay millis
  | .closedOutput => .ended

def peer (p : ServerProcess) : Peer where
  deliver taken message :=
    let before := p.trace taken false
    let after := p.trace (taken ++ [message]) false
    { replies := .delay reaction :: (after.acts.drop before.acts.length).map event }
  isOpen taken := (p.trace taken false).isOpen

/-- Starts a process, and a client that talks to it. -/
def start (config : ServerConfig) (inherited : List (String × String)) :
    Except ServerError (ServerProcess × Client) :=
  let command := config.command
  match command.startFault with
  | some kind => .error (.spawn command.text kind)
  | none =>
      let p : ServerProcess := { command, inherited }
      let greeting := .delay reaction :: (p.trace [] false).acts.map event
      let link : Link := { peer := p.peer, incoming := greeting.flatMap Event.reads }
      .ok (p, { link, limit := config.timeout })

/-- The number of the signal that ends a process when it writes and nobody is there to read. -/
def brokenPipeSignal : Nat := 13

/-- The number of the signal that always ends a process. -/
def killSignal : Nat := 9

/-- How a process ends that still has things to do, nobody reads its output, and it has a limited
time. What it writes before any time has passed was already on its way. -/
def endAfter (ending : Ending) : (elapsed left : Nat) → List Event → ExitStatus
  | elapsed, left, .bytes _ :: events =>
      if elapsed = 0 then endAfter ending elapsed left events else .signal brokenPipeSignal
  | elapsed, left, .delay n :: events =>
      if left < n then .signal killSignal else endAfter ending (elapsed + n) (left - n) events
  | elapsed, left, _ :: events => endAfter ending elapsed left events
  | _, _, [] =>
      match ending with
      | .exited status => .code status
      | .killed number => .signal number
      | .waiting | .endless => .signal killSignal

/-- Closes both streams and waits for the process to end, which it is made to do after `grace`. -/
def shutdown (p : ServerProcess) (l : Link) (grace : Duration) : ExitStatus :=
  let open' := p.trace l.taken false
  let closed := p.trace l.taken true
  let reactionTime := if open'.isRunning then [Event.delay reaction] else []
  let late := (closed.acts.drop open'.acts.length).map event
  endAfter closed.ending 0 grace.millis (l.incoming ++ reactionTime ++ late)

end ServerProcess

end MacroBridge
