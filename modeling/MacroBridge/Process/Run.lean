import MacroBridge.Process.Command
import MacroBridge.Shell.Interpreter

/-! Running commands. -/
namespace MacroBridge

namespace Command

/-- What a command does on the input that it has been given so far. `inherited` are the variables
of the program that starts it. -/
def trace (c : Command) (inherited : List (String × String)) (input : List UInt8)
    (inputIsComplete : Bool) : Trace :=
  let bindings := c.environment.foldl
    (fun env v => setVariable v.1 v.2 env) inherited
  let words := c.arguments.map Shell.Run.byteText
  let isShell := (standardProgram c.program).any (["sh", "dash", "bash"].contains ·)
  let body := if isShell then Shell.Run.shell Shell.Run.maxSteps words
    else Shell.Run.program Shell.Run.maxSteps c.program words
  Shell.Run.trace body
    { scriptName := Shell.Run.byteText c.program
      bindings := bindings.map fun v => (Shell.Run.byteText v.1, Shell.Run.byteText v.2)
      input := input.map fun b => Char.ofNat b.toNat
      inputIsComplete }

end Command

end MacroBridge
