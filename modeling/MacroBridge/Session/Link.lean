import MacroBridge.Framing.Stream

/-! The two streams that connect a client to its server. -/
namespace MacroBridge

/-- Who is at the other end, as a function of the messages that it has taken. -/
structure Peer where
  /-- How it takes the next message. -/
  deliver : (taken : List (List UInt8)) → (message : List UInt8) → Delivery
  /-- Whether it may still write once all that it has written is read. -/
  isOpen : (taken : List (List UInt8)) → Bool

/-- A peer that takes successive messages as a script says, and all later ones without an
answer. -/
def Peer.ofScript (deliveries : List Delivery) : Peer where
  deliver taken _ := deliveries.getD taken.length {}
  isOpen _ := false

/-- A connection: the peer, the messages that it has taken, and what can be read from it. A message
counts as taken once it has been flushed, also if the flush fails. -/
structure Link where
  peer : Peer
  taken : List (List UInt8) := []
  incoming : List Event := []

namespace Link

/-- A connection to a peer that follows a script, after a greeting. -/
def ofScript (deliveries : List Delivery) (greeting : List Event := []) : Link :=
  { peer := .ofScript deliveries, incoming := greeting.flatMap Event.reads }

/-- A connection that takes everything and is at its end for reading. -/
def closed : Link := ofScript []

/-- Whether the peer may still write once all incoming events are used up. -/
def isOpen (l : Link) : Bool := l.peer.isOpen l.taken

/-- What came of writing one message: the bytes the peer took, and how it ended. -/
structure Written where
  taken : List UInt8
  progress : Progress
  link : Link

/-- Why a message could not be written. -/
def Written.fault (w : Written) : Option IoKind :=
  match w.progress with
  | .failed kind => some kind
  | _ => none

/-- Writes and flushes one message. -/
def write (l : Link) (message : List UInt8) (budget : Option Nat := none) : Written :=
  let delivery := l.peer.deliver l.taken message
  match Delivery.writeAll budget message delivery.writes with
  | (bytes, .done budget) =>
      match Progress.wait budget delivery.flushTime with
      | .done budget =>
          let l := { l with taken := l.taken ++ [message] }
          match delivery.flushFault with
          | some kind => ⟨bytes, .failed kind, l⟩
          | none =>
              ⟨bytes, .done budget, { l with
                incoming := l.incoming ++ delivery.replies.flatMap Event.reads }⟩
      | progress => ⟨bytes, progress, l⟩
  | (bytes, progress) => ⟨bytes, progress, l⟩

end Link

end MacroBridge
