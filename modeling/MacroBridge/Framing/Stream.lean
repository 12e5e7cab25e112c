/-!
Byte streams as scripts: what the successive reads and writes of one side meet. Time is virtual and
passes only where a script waits.
-/
namespace MacroBridge

/-- Why an operation of the system failed. -/
inductive IoKind
  | notFound
  | permissionDenied
  | connectionReset
  | brokenPipe
  | invalidInput
  | timedOut
  | writeZero
  | interrupted
  | unexpectedEof
  | other
  deriving DecidableEq, Repr

def IoKind.name : IoKind → String
  | notFound => "NotFound"
  | permissionDenied => "PermissionDenied"
  | connectionReset => "ConnectionReset"
  | brokenPipe => "BrokenPipe"
  | invalidInput => "InvalidInput"
  | timedOut => "TimedOut"
  | writeZero => "WriteZero"
  | interrupted => "Interrupted"
  | unexpectedEof => "UnexpectedEof"
  | other => "Other"

/-- What a reader meets next. -/
inductive Event
  | bytes (bytes : List UInt8)
  /-- A read of no bytes. More may follow on the same stream. -/
  | ended
  | failed (kind : IoKind)
  /-- Nothing can be read until the clock has moved on. -/
  | delay (millis : Nat)
  /-- Nothing can ever be read again. -/
  | silence
  deriving DecidableEq, Repr

namespace Event

/-- The most bytes that one read takes. -/
def readSize : Nat := 65536

/-- Cuts bytes into pieces that one read each can take; no bytes give no piece. -/
def chunks (bytes : List UInt8) : List Event :=
  match bytes with
  | [] => []
  | b :: bs => .bytes (b :: bs.take (readSize - 1)) :: chunks (bs.drop (readSize - 1))
  termination_by bytes.length
  decreasing_by simp only [List.length_drop, List.length_cons]; omega

/-- The reads in which an item of a script is met. -/
def reads : Event → List Event
  | .bytes bs => chunks bs
  | e => [e]

end Event

/-- What one write call does with the bytes it is offered. -/
inductive WriteReply
  | took (limit : Nat)
  | refused (kind : IoKind)
  /-- It waits until the clock has moved on. -/
  | delay (millis : Nat)
  /-- It never returns. -/
  | silence
  deriving DecidableEq, Repr

/-- How one message is taken: the replies to its write calls, how long its flush takes, `none` for
ever, whether its flush fails, and what can be read once it has been flushed. When the replies run
out, a call takes all bytes. -/
structure Delivery where
  writes : List WriteReply := []
  flushTime : Option Nat := some 0
  flushFault : Option IoKind := none
  replies : List Event := []
  deriving DecidableEq, Repr

/-- How an operation ends for which only some time may pass. -/
inductive Progress
  /-- It succeeds, and `left` is the time that may still pass. -/
  | done (left : Option Nat)
  | failed (kind : IoKind)
  /-- The time limit has passed. -/
  | expired
  /-- There is no time limit, and it never ends. -/
  | stuck
  deriving DecidableEq, Repr

/-- Waits for `millis`, or for ever. -/
def Progress.wait : (budget : Option Nat) → (millis : Option Nat) → Progress
  | none, some _ => done none
  | none, none => stuck
  | some left, some n => if left < n then expired else done (some (left - n))
  | some _, none => expired

namespace Delivery

/-- Writes `bytes` call by call, and gives those taken and how it ended. -/
def writeAll (budget : Option Nat) (bytes : List UInt8) : List WriteReply → List UInt8 × Progress
  | [] => (bytes, .done budget)
  | reply :: replies =>
      match bytes with
      | [] => ([], .done budget)
      | _ =>
          match reply with
          | .refused kind => ([], .failed kind)
          | .took 0 => ([], .failed .writeZero)
          | .took n =>
              let (taken, progress) := writeAll budget (bytes.drop n) replies
              (bytes.take n ++ taken, progress)
          | .delay n =>
              match Progress.wait budget (some n) with
              | .done budget => writeAll budget bytes replies
              | progress => ([], progress)
          | .silence => ([], Progress.wait budget none)

end Delivery

end MacroBridge
