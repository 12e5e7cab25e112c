/-! Scanners: what they read from the front of a text, or that they refuse it. -/
namespace MacroBridge

abbrev Scan := StateT (List Char) Option

namespace Scan

def peek : Scan (Option Char) := do return (← get).head?

def next : Scan Char := do
  let c :: s ← get | failure
  set s
  return c

/-- Reads `word` if it comes next, and tells whether it did. -/
def accept (word : List Char) : Scan Bool := do
  let s ← get
  let isNext := word.isPrefixOf s
  if isNext then set (s.drop word.length)
  return isNext

def expect (word : List Char) : Scan Unit := do guard (← accept word)

/-- Reads the longest run of characters of a class. -/
def run (isMember : Char → Bool) : Scan (List Char) := do
  let (read, rest) := (← get).span isMember
  set rest
  return read

/-- Repeats a step that may hand over a state to the next one. -/
def repeatAtMost {σ α : Type} (step : σ → Scan (σ ⊕ α)) : (times : Nat) → σ → Scan α
  | 0, _ => failure
  | times + 1, state => do
      match ← step state with
      | .inl state => repeatAtMost step times state
      | .inr a => return a

/-- Repeats a step of which each, but the last, reads something. -/
def iterate {σ α : Type} (step : σ → Scan (σ ⊕ α)) (state : σ) : Scan α := do
  repeatAtMost step ((← get).length + 1) state

end Scan

end MacroBridge
