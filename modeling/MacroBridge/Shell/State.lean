import MacroBridge.Process.Trace
import MacroBridge.Shell.Syntax

/-! What a running shell knows, and its dealings with the outside. -/
namespace MacroBridge.Shell

/-- Why the commands that follow are not run. -/
inductive Halt
  | ended (ending : Ending)
  | breaking (levels : Nat)
  | continuing (levels : Nat)
  | returning (status : Nat)
  deriving DecidableEq, Repr

/-- What a descriptor leads to. -/
inductive Channel
  | input
  | output
  /-- Takes everything, and is at its end for reading. -/
  | nothing
  /-- The text that an enclosing expansion collects. -/
  | collected
  | document (rest : List Char)
  deriving DecidableEq, Repr

structure State where
  scriptName : List Char := "sh".toList
  parameters : List (List Char) := []
  bindings : List (List Char × List Char) := []
  functions : List (List Char × Command) := []
  /-- What is to be done at a signal, or at the end for the signal 0. -/
  traps : List (Nat × List Char) := []
  status : Nat := 0
  exitsOnFailure : Bool := false
  descriptors : List (Nat × Channel) := [(0, .input), (1, .output), (2, .nothing)]
  input : List Char := []
  inputIsComplete : Bool := false
  /-- The last act first. -/
  acts : List Act := []
  /-- The last character first. -/
  collected : List Char := []
  /-- How many shells have started this one as a part of themselves. -/
  depth : Nat := 0

abbrev Run := ExceptT Halt (StateM State)

namespace Run

/-- What a process says its own number is. -/
def processId : Nat := 7

def byteText (s : String) : List Char := s.toUTF8.toList.map fun b => Char.ofNat b.toNat

def toBytes (s : List Char) : List UInt8 := s.map (·.toNat.toUInt8)

def act (a : Act) : Run Unit := modify fun s => { s with acts := a :: s.acts }

def setStatus (n : Nat) : Run Unit := modify fun s => { s with status := n }

def lookup? (name : List Char) : Run (Option (List Char)) := do return (← get).bindings.lookup name

def setVariable (name value : List Char) : Run Unit :=
  modify fun s => { s with bindings := (name, value) :: s.bindings.filter (·.1 != name) }

def dropVariable (name : List Char) : Run Unit :=
  modify fun s => { s with bindings := s.bindings.filter (·.1 != name) }

/-! ### Input and output -/

def channel? (fd : Nat) : Run (Option Channel) := do return (← get).descriptors.lookup fd

/-- Sets a descriptor, or closes it. -/
def setChannel (fd : Nat) (c : Option Channel) : Run Unit :=
  modify fun s =>
    let others := s.descriptors.filter (·.1 != fd)
    { s with descriptors := match c with
      | some c => (fd, c) :: others
      | none => others }

/-- Writes to a descriptor, and tells whether it is open. -/
def write (fd : Nat) (text : List Char) : Run Bool := do
  match ← channel? fd with
  | none => return false
  | some .output =>
      if !text.isEmpty then act (.wrote (toBytes text))
      return true
  | some .collected =>
      modify fun s => { s with collected := text.reverse ++ s.collected }
      return true
  | some _ => return true

/-- Takes from a descriptor what comes up to the first character that `isLast` holds for, with that
character if it is there. Input that has not come to its end is waited for. -/
def readTo (fd : Nat) (isLast : Char → Bool) : Run (List Char × Bool) := do
  let split (s : List Char) : List Char × Bool × List Char :=
    match s.span (!isLast ·) with
    | (text, c :: rest) => (text ++ [c], true, rest)
    | (text, []) => (text, false, [])
  match ← channel? fd with
  | some .input =>
      let s ← get
      let (text, isWhole, rest) := split s.input
      if !isWhole && !s.inputIsComplete then throw (.ended .waiting)
      set { s with input := rest }
      return (text, isWhole)
  | some (.document whole) =>
      let (text, isWhole, rest) := split whole
      setChannel fd (some (.document rest))
      return (text, isWhole)
  | _ => return ([], false)

/-- Notices that nothing leads to the output any more. -/
def checkOutput : Run Unit := do
  let s ← get
  if s.depth = 0 && !s.descriptors.any (·.2 == .output) && !s.acts.contains .closedOutput then
    act .closedOutput

def exit {α : Type} (status : Nat) : Run α := throw (.ended (.exited (status % 256)))

end Run

end MacroBridge.Shell
