import MacroBridge.Cli.Arguments
import MacroBridge.Cli.Log
import MacroBridge.Config
import MacroBridge.Server.Process
import MacroBridge.Session.Expander
import MacroBridge.Tree.Display
import MacroBridge.Wire.Tree

/-! What the command line tool does with its arguments. -/
namespace MacroBridge.Cli

/-- What the tool finds when it starts. -/
structure Surroundings where
  files : Files := {}
  input : List UInt8 := []
  environment : List (String × String) := []

/-- Why a run fails. -/
inductive Failure
  | config (error : ConfigError)
  | unreadable (path : String) (reason : String)
  | server (error : ServerError)
  | reported (error : ReportedError)
  | notExpanded (name lib : String)

def Failure.message : Failure → String
  | config e => e.message
  | unreadable path reason => "failed to read " ++ path ++ ": " ++ reason
  | server e => e.message
  | reported e => "proc-macro server reported " ++ e.text
  | notExpanded name lib => "failed to expand " ++ name ++ " from " ++ lib

/-- Name under which the tool logs. -/
def target : String := "expando"

def versionText : String := "expando 0.1.0\n"

/-- The environment variable that may hold the path of the configuration. -/
def configVariable : String := "EXPANDO_CONFIG"

/-- Time that a server has to end by itself. -/
def grace : Duration := .ofSeconds 5

/-- Whether a path stands for the standard input. -/
def isStandardInput (path : String) : Bool :=
  Path.components path == ["-"] && !path.startsWith "./"

/-- The text at a path. Standard input can be read once and is empty after that. -/
def readInput (s : Surroundings) (path : String) : Except Failure (List Char × Surroundings) :=
  if isStandardInput path then
    match Utf8.decode s.input with
    | .ok text => .ok (text, { s with input := [] })
    | .error e => .error (.unreadable path e.message)
  else
    match s.files.readText path with
    | .ok text => .ok (text, s)
    | .error e => .error (.unreadable path e.message)

def loadConfig (s : Surroundings) (path : Option String) : Except Failure Config :=
  (match path with
  | some path => Config.load s.files path
  | none => Config.loadOrDefault s.files s.files.workingDirectory).mapError .config

def readTree (s : Surroundings) (c : Config) (file : String) : Except Failure Subtree := do
  let (source, _) ← readInput s file
  return Subtree.ofSource source c.parser

/-- Starts the configured server. -/
def connect (s : Surroundings) (c : Config) : Except Failure Client := do
  let (_, client) ← (ServerProcess.start c.server s.environment).mapError .server
  return client

/-- The line for a macro in a listing. -/
def listed (m : String × MacroKind) : List Char := (m.1 ++ "\t" ++ m.2.text ++ "\n").toList

/-- Output of an action, `none` if the server never answers. -/
def perform (s : Surroundings) (c : Config) : Action → Except Failure (Option (List Char))
  | .tree file => do
      return some ((← readTree s c file).outline.toList ++ ['\n'])
  | .json file => do
      return some (Wire.prettyText (← readTree s c file) ++ ['\n'])
  | .expand lib name attributes file => do
      let (body, s) ← readInput s file
      let attributes ← match attributes with
        | some path => do pure (some (← readInput s path).1)
        | none => pure none
      let client ← connect s c
      match ((Expander.mk client c.parser).expandSource body attributes name
        (.ofText lib)).result with
      | none => return none
      | some none => throw (.notExpanded name lib)
      | some (some (.error e)) => throw (.reported e)
      | some (some (.ok tree)) =>
          return some (tree.sourceText ++ '\n' :: tree.outline.toList ++ ['\n'])
  | .list lib => do
      let client ← connect s c
      match (client.listMacros (.ofText lib)).result with
      | none => return none
      | some (.error e) => throw (.server e)
      | some (.ok (.error e)) => throw (.reported e)
      | some (.ok (.ok macros)) => return some (macros.flatMap listed)

/-- The paths that a run may look at. -/
def Invocation.paths (i : Invocation) : List String :=
  let config := i.config.getD Config.fileName
  let inputs := match i.action with
    | .tree file | .json file => [file]
    | .expand _ _ attributes file => file :: attributes.toList
    | .list _ => []
  [config, Path.join config Config.fileName] ++ inputs

/-- How a run ends: the exit code, the output, and the message that is logged as an error. -/
structure Outcome where
  code : Nat
  output : List Char := []
  error : Option (List Char) := none
  deriving DecidableEq, Repr

/-- Runs the tool. There is no outcome if a server never answers. -/
def run (arguments : List String) (s : Surroundings) : Option Outcome :=
  match Invocation.ofArguments (s.environment.lookup configVariable) arguments with
  | .error .version => some { code := 0, output := versionText.toList }
  | .error e => some { code := e.exitCode }
  | .ok i =>
      match loadConfig s i.config >>= fun c => perform s c i.action with
      | .ok output => output.map fun text => { code := 0, output := text }
      | .error e =>
          let message := printable e.message.toList
          some { code := 1, error := if showsErrors i.log target then some message else none }

end MacroBridge.Cli
