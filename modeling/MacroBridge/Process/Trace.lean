/-! What a running program does as far as its surroundings notice. -/
namespace MacroBridge

/-- One thing that a program does, in the order of time. -/
inductive Act
  | wrote (bytes : List UInt8)
  | paused (millis : Nat)
  /-- Its output has come to its end, though it goes on running. -/
  | closedOutput
  deriving DecidableEq, Repr

/-- Where a program stands after its last act. -/
inductive Ending
  /-- It waits for input. -/
  | waiting
  /-- It runs on without doing anything. -/
  | endless
  | exited (status : Nat)
  | killed (signal : Nat)
  deriving DecidableEq, Repr

structure Trace where
  acts : List Act
  ending : Ending
  deriving DecidableEq, Repr

namespace Trace

def isRunning (t : Trace) : Bool :=
  match t.ending with
  | .waiting | .endless => true
  | .exited _ | .killed _ => false

/-- Whether the output may still grow. -/
def isOpen (t : Trace) : Bool := t.isRunning && !t.acts.contains .closedOutput

end Trace

end MacroBridge
