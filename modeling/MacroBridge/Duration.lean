/-! Spans of time in whole milliseconds, and their text in the largest fitting unit. -/
namespace MacroBridge

structure Duration where
  millis : Nat
  deriving DecidableEq, Repr

namespace Duration

def ofSeconds (n : Nat) : Duration := ⟨n * 1000⟩

/-- The three digits of a number of milliseconds below 1000, without zeros at the end. -/
def fractionDigits (millis : Nat) : List Char :=
  let digit (n : Nat) : Char := Char.ofNat ('0'.toNat + n % 10)
  let digits := [digit (millis / 100), digit (millis / 10), digit millis]
  (digits.reverse.dropWhile (· == '0')).reverse

/-- Seconds with a decimal fraction from one second on, milliseconds below, and `0ns` for
nothing. -/
def text (d : Duration) : String :=
  if d.millis = 0 then "0ns"
  else if d.millis < 1000 then toString d.millis ++ "ms"
  else
    let fraction := fractionDigits (d.millis % 1000)
    let whole := toString (d.millis / 1000)
    if fraction.isEmpty then whole ++ "s" else whole ++ "." ++ String.ofList fraction ++ "s"

end Duration

end MacroBridge
