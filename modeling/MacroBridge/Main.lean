import MacroBridge.Cli.Run

/-!
The command line tool. It takes a picture of the files that its arguments name and of its input,
and runs on that picture.
-/
namespace MacroBridge.Cli

/-- What stands at a path, if anything. -/
def lookAt (path : String) : IO (List (String × FileEntry)) := do
  try
    let bytes ← IO.FS.readBinFile path
    return [(path, .file bytes.toList)]
  catch
    | .inappropriateType .. => return [(path, .directory)]
    | _ => return []

def lookAround (arguments : List String) : IO Surroundings := do
  let preset ← IO.getEnv configVariable
  let workingDirectory := (← IO.currentDir).toString
  let environment := (preset.map fun value => (configVariable, value)).toList
  match Invocation.ofArguments preset arguments with
  | .error _ => return { files := { workingDirectory }, environment }
  | .ok i =>
      let entries ← (i.paths.flatMap Path.onTheWay).mapM lookAt
      let input ←
        if i.paths.any isStandardInput then do pure (← (← IO.getStdin).readBinToEnd).toList
        else pure []
      return { files := { workingDirectory, entries := entries.flatten }, input, environment }

end MacroBridge.Cli

open MacroBridge in
def main (arguments : List String) : IO UInt32 := do
  match Cli.run arguments (← Cli.lookAround arguments) with
  | none => return 1
  | some outcome =>
      (← IO.getStdout).putStr (String.ofList outcome.output)
      if let some message := outcome.error then
        (← IO.getStderr).putStrLn ("ERROR " ++ Cli.target ++ ": " ++ String.ofList message)
      return outcome.code.toUInt32
