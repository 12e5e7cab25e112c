/-!
The arguments of the command line. Options may stand before or after the subcommand where they are
known to both; a value that is given as an argument of its own is checked once the next argument
shows that it is complete.
-/
namespace MacroBridge.Cli

inductive Action
  | tree (file : String)
  | json (file : String)
  | expand (lib name : String) (attributes : Option String) (file : String)
  | list (lib : String)
  deriving DecidableEq, Repr

structure Invocation where
  action : Action
  config : Option String
  log : String
  deriving DecidableEq, Repr

/-- Why arguments give no invocation. Help and the version are asked for; all else is a mistake. -/
inductive UsageError
  | help
  | version
  | noArguments
  | missingSubcommand
  | invalidSubcommand
  | unknownArgument
  | missingArgument
  | invalidValue
  | repeatedArgument
  | needlessValue
  deriving DecidableEq, Repr

def UsageError.exitCode : UsageError → Nat
  | help | version => 0
  | _ => 2

/-- Options that take a value. -/
inductive Setting
  | config
  | log
  | lib
  | name
  | attributes
  deriving DecidableEq, Repr

def Setting.flag : Setting → String
  | config => "config"
  | log => "log"
  | lib => "lib"
  | name => "name"
  | attributes => "attr"

/-- Whether a value is a path, which is never empty. -/
def Setting.isPath : Setting → Bool
  | config | lib | attributes => true
  | log | name => false

inductive Subcommand
  | tree
  | json
  | expand
  | list
  deriving DecidableEq, Repr

namespace Subcommand

def named : List (String × Subcommand) :=
  [("tree", tree), ("json", json), ("expand", expand), ("list", list)]

def ofName (name : String) : Option Subcommand := named.lookup name

end Subcommand

/-- What may stand on one level: before the subcommand, or after it. -/
structure Scope where
  settings : List Setting
  takesFile : Bool
  isOuter : Bool

namespace Scope

def outer : Scope := ⟨[.config, .log], false, true⟩

def ofSubcommand : Subcommand → Scope
  | .tree | .json => ⟨[.config, .log], true, false⟩
  | .expand => ⟨[.config, .log, .lib, .name, .attributes], true, false⟩
  | .list => ⟨[.config, .log, .lib], false, false⟩

/-- Whether an argument names a subcommand, which it can only do on the outer level. -/
def isSubcommand (s : Scope) (argument : String) : Bool :=
  s.isOuter && (argument == "help" || (Subcommand.ofName argument).isSome)

def setting? (s : Scope) (flag : String) : Option Setting := s.settings.find? (·.flag == flag)

end Scope

/-- An argument that is read and not yet checked. -/
inductive Pending
  /-- An option whose value may come next. -/
  | unvalued (s : Setting)
  | valued (s : Setting) (value : String)
  | file (path : String)
  deriving DecidableEq, Repr

/-- What has been read on one level. -/
structure Level where
  values : List (Setting × String) := []
  file : Option String := none
  pending : Option Pending := none
  /-- All further arguments are values. -/
  isEscaped : Bool := false

namespace Level

def value? (l : Level) (s : Setting) : Option String := l.values.lookup s

/-- Adds the value of an option, which may stand once on a level. -/
def addValue (l : Level) (s : Setting) (value : String) : Except UsageError Level :=
  if (l.value? s).isSome then .error .repeatedArgument
  else if s.isPath && value.isEmpty then .error .invalidValue
  else .ok { l with values := l.values ++ [(s, value)] }

/-- Checks the pending argument. -/
def settle (l : Level) : Except UsageError Level :=
  let l' := { l with pending := none }
  match l.pending with
  | none => .ok l'
  | some (.unvalued _) => .error .invalidValue
  | some (.valued s value) => l'.addValue s value
  | some (.file path) =>
    if path.isEmpty then .error .invalidValue else .ok { l' with file := path }

/-- Adds an argument that is neither an option nor the value of one. -/
def addFree (scope : Scope) (l : Level) (argument : String) : Except UsageError Level :=
  let hasFile := l.file.isSome || (match l.pending with
    | some (.file _) => true
    | _ => false)
  if scope.takesFile && !hasFile then do
    return { ← l.settle with pending := some (.file argument) }
  else if scope.isOuter && !(l.isEscaped && scope.isSubcommand argument) then
    .error .invalidSubcommand
  else .error .unknownArgument

/-- Adds an option written with two dashes, with the value behind an equals sign if there is
one. -/
def addLong (scope : Scope) (l : Level) (flag : String) (attached : Option String) :
    Except UsageError Level :=
  match scope.setting? flag with
  | some s => do
      let l ← l.settle
      match attached with
      | some value => l.addValue s value
      | none => return { l with pending := some (.unvalued s) }
  | none =>
      let request : Option UsageError :=
        if flag = "help" then some .help
        else if flag = "version" && scope.isOuter then some .version
        else none
      match request, attached with
      | none, _ => .error .unknownArgument
      | some _, some _ => .error .needlessValue
      | some e, none => do
          let _ ← l.settle
          throw e

/-- Adds options written with one dash. The first one decides. -/
def addShort (scope : Scope) (l : Level) (letters : List Char) : Except UsageError Level :=
  match letters with
  | 'h' :: _ => do
      let _ ← l.settle
      throw .help
  | 'V' :: _ =>
      if scope.isOuter then do
        let _ ← l.settle
        throw .version
      else .error .unknownArgument
  | _ => .error .unknownArgument

/-- Splits `flag=value` at its first equals sign. -/
def splitFlag (s : List Char) : String × Option String :=
  match s.span (· != '=') with
  | (flag, []) => (String.ofList flag, none)
  | (flag, _ :: value) => (String.ofList flag, some (String.ofList value))

def add (scope : Scope) (l : Level) (argument : String) : Except UsageError Level :=
  if l.isEscaped then l.addFree scope argument
  else
    match argument.toList with
    | ['-', '-'] => .ok { l with isEscaped := true }
    | '-' :: '-' :: s =>
        let (flag, attached) := splitFlag s
        l.addLong scope flag attached
    | '-' :: c :: s => l.addShort scope (c :: s)
    | _ =>
        match l.pending with
        | some (.unvalued s) => .ok { l with pending := some (.valued s argument) }
        | _ => l.addFree scope argument

/-- Whether an argument would be the value of an option. -/
def awaitsValue (l : Level) : Bool :=
  match l.pending with
  | some (.unvalued _) => true
  | _ => false

/-- Reads arguments up to a subcommand, which is left with those after it. -/
def read (scope : Scope) (l : Level) : List String → Except UsageError (Level × List String)
  | [] => .ok (l, [])
  | argument :: arguments =>
      if scope.isSubcommand argument && !l.isEscaped && !l.awaitsValue then
        .ok (l, argument :: arguments)
      else do read scope (← l.add scope argument) arguments

/-- Checks the path that the environment gives where no argument does. -/
def checkVariable (l : Level) (preset : Option String) : Except UsageError Unit :=
  if (l.value? .config).isNone && preset == some "" then .error .invalidValue else .ok ()

end Level

/-- What stands after the subcommand for help. -/
def helpOn : List String → UsageError
  | [] => .help
  | [name] => if Scope.outer.isSubcommand name then .help else .invalidSubcommand
  | _ => .invalidSubcommand

/-- The action of a subcommand, with all that it needs. -/
def Action.ofLevel (c : Subcommand) (l : Level) : Option Action :=
  match c with
  | .tree => l.file.map .tree
  | .json => l.file.map .json
  | .expand => do
      return .expand (← l.value? .lib) (← l.value? .name) (l.value? .attributes) (← l.file)
  | .list => (l.value? .lib).map .list

namespace Invocation

def defaultLog : String := "info"

/-- Reads arguments. `preset` is the configuration path that the environment gives. A value after
the subcommand counts before one in front of it, and any argument before the environment. -/
def ofArguments (preset : Option String) (arguments : List String) :
    Except UsageError Invocation := do
  let (outer, rest) ← ({} : Level).read .outer arguments
  match rest with
  | [] =>
      let outer ← outer.settle
      outer.checkVariable preset
      throw (if outer.values.isEmpty && preset.isNone then .noArguments else .missingSubcommand)
  | name :: rest =>
      let some c := Subcommand.ofName name | throw (helpOn rest)
      let (inner, _) ← ({} : Level).read (.ofSubcommand c) rest
      let inner ← inner.settle
      inner.checkVariable preset
      let some action := Action.ofLevel c inner | throw .missingArgument
      let outer ← outer.settle
      outer.checkVariable preset
      let chosen (s : Setting) : Option String := inner.value? s <|> outer.value? s
      return { action, config := chosen .config <|> preset, log := (chosen .log).getD defaultLog }

end Invocation

end MacroBridge.Cli
