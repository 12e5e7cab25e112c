import MacroBridge.Json.Decoder

/-!
Finding where the first JSON value of a growing buffer may end, one byte at a time.
-/
namespace MacroBridge
open Json (byte isSpace)

/-- State of the scan: how many bytes it has seen, how many brackets are open, and whether it is
inside a string and behind a backslash there. -/
structure Boundary where
  scanned : Nat := 0
  depth : Nat := 0
  started : Bool := false
  inString : Bool := false
  escaped : Bool := false
  deriving DecidableEq, Repr

namespace Boundary

/-- The state after one byte, and whether a value may be complete there. Numbers and words have no
last byte of their own, so each of their bytes may be it. -/
def step (b : Boundary) (x : UInt8) : Boundary × Bool :=
  let b := { b with scanned := b.scanned + 1 }
  if b.inString then
    if b.escaped then ({ b with escaped := false }, false)
    else if x = byte '\\' then ({ b with escaped := true }, false)
    else if x = byte '"' then ({ b with inString := false }, b.depth == 0)
    else (b, false)
  else if isSpace x then (b, false)
  else if x = byte '\x7b' || x = byte '[' then
    ({ b with started := true, depth := b.depth + 1 }, false)
  else if x = byte '\x7d' || x = byte ']' then
    ({ b with depth := b.depth - 1 }, b.depth - 1 == 0)
  else if x = byte '"' then ({ b with started := true, inString := true }, false)
  else ({ b with started := true }, b.depth == 0)

/-- Scans until a value may be complete or the bytes are used up. -/
def scan (b : Boundary) : List UInt8 → Boundary × Bool
  | [] => (b, false)
  | x :: s =>
      match b.step x with
      | (b, true) => (b, true)
      | (b, false) => b.scan s

/-- Scans the bytes of `buffer` that have not been scanned yet. -/
def advance (b : Boundary) (buffer : List UInt8) : Boundary × Bool :=
  b.scan (buffer.drop b.scanned)

end Boundary

end MacroBridge
