import MacroBridge.Framing.Boundary
import MacroBridge.Framing.Stream
import MacroBridge.Wire.Basic

/-!
Reading messages one at a time from a byte stream. Messages need nothing between them; bytes behind
one are kept for the next.
-/
namespace MacroBridge

/-- Why a message could not be written or read. -/
inductive CodecError
  /-- The message has no encoding. Nothing of it is written. -/
  | encode
  | decode
  | io (kind : IoKind)
  | unexpectedEof
  deriving DecidableEq, Repr

def CodecError.message : CodecError → String
  | encode => "failed to encode message"
  | decode => "failed to decode message"
  | io _ => "message stream failed"
  | unexpectedEof => "message stream ended before a complete message"

/-- Bytes received and not yet used, and how far they have been scanned. -/
structure Reader where
  buffer : List UInt8 := []
  boundary : Boundary := {}
  deriving DecidableEq, Repr

namespace Reader

/-- What the buffer holds. -/
inductive Poll (α : Type)
  | value (a : α)
  | malformed
  | more

/-- Decodes the first value of the buffer if it may be complete. White space alone is dropped. -/
def poll (α : Type) [Wire α] (r : Reader) : Poll α × Reader :=
  match r.boundary.advance r.buffer with
  | (b, true) =>
      match Json.decodeFirst (Wire.decoder (α := α)) r.buffer with
      | .blank => (.more, {})
      | .value a rest => (.value a, { buffer := rest })
      | .incomplete => (.more, { r with boundary := b })
      | .malformed => (.malformed, { r with boundary := b })
  | (b, false) => (.more, if b.started then { r with boundary := b } else {})

/-- Adds received bytes to the buffer. -/
def feed (r : Reader) (bytes : List UInt8) : Reader := { r with buffer := r.buffer ++ bytes }

/-- How a call to read a message ends. -/
inductive Outcome (α : Type)
  | value (a : α)
  | failed (error : CodecError)
  /-- The time limit has passed. -/
  | expired
  /-- There is no time limit and nothing will ever come. -/
  | stuck

/-- The end of a call, with the reader and the stream as it leaves them. -/
structure Receipt (α : Type) where
  outcome : Outcome α
  reader : Reader
  stream : List Event

/-- What waiting without end comes to. -/
def waitForever {α : Type} (budget : Option Nat) : Outcome α :=
  match budget with
  | some _ => .expired
  | none => .stuck

/-- Takes reads from the stream until a message is complete. `budget` is the time that may still
pass; an open stream is silent where its script ends, any other is at its end. -/
def await (α : Type) [Wire α] (isOpen : Bool) (budget : Option Nat) (r : Reader) :
    List Event → Receipt α
  | [] => ⟨if isOpen then waitForever budget else .failed .unexpectedEof, r, []⟩
  | .bytes bs :: stream =>
      match (r.feed bs).poll α with
      | (.value a, r) => ⟨.value a, r, stream⟩
      | (.malformed, r) => ⟨.failed .decode, r, stream⟩
      | (.more, r) => await α isOpen budget r stream
  | .ended :: stream => ⟨.failed .unexpectedEof, r, stream⟩
  | .failed kind :: stream => ⟨.failed (.io kind), r, stream⟩
  | .delay n :: stream =>
      match budget with
      | none => await α isOpen none r stream
      | some left =>
          if left < n then ⟨.expired, r, .delay (n - left) :: stream⟩
          else await α isOpen (some (left - n)) r stream
  | .silence :: stream => ⟨waitForever budget, r, .silence :: stream⟩

/-- Reads one message. -/
def read (α : Type) [Wire α] (isOpen : Bool) (budget : Option Nat) (r : Reader)
    (stream : List Event) : Receipt α :=
  match r.poll α with
  | (.value a, r) => ⟨.value a, r, stream⟩
  | (.malformed, r) => ⟨.failed .decode, r, stream⟩
  | (.more, r) => r.await α isOpen budget stream

/-- The first message of bytes that all arrive and are followed by the end of the stream. -/
def first (α : Type) [Wire α] (bytes : List UInt8) : Except CodecError α :=
  match (({} : Reader).read α false none (Event.reads (.bytes bytes))).outcome with
  | .value a => .ok a
  | .failed e => .error e
  | .expired | .stuck => .error .unexpectedEof

end Reader

end MacroBridge
