import MacroBridge.Duration
import MacroBridge.Json.Decoder
import MacroBridge.Process.Command
import MacroBridge.Toml.Value

/-! How an expansion server is started, as a value and as read from JSON and TOML. -/
namespace MacroBridge

structure ServerConfig where
  program : String := "rustup"
  arguments : List String := ["run", "nightly", "rust-analyzer", "proc-macro"]
  environment : List (String × String) := []
  /-- Limit in seconds on one exchange of a request for its response. -/
  timeoutSeconds : Option Nat := none
  deriving DecidableEq, Repr

namespace ServerConfig

def command (c : ServerConfig) : Command :=
  (Command.mk c.program [] []).withArguments c.arguments |>.withVariables c.environment

def timeout (c : ServerConfig) : Option Duration := c.timeoutSeconds.map Duration.ofSeconds

/-- The largest number of seconds that can be given. -/
def maxSeconds : Nat := 18446744073709551615

/-! ### JSON -/

/-- The fields that have been read, with the defaults for the others. -/
structure Draft where
  program : Option String := none
  arguments : Option (List String) := none
  environment : Option (List (String × String)) := none
  timeoutSeconds : Option (Option Nat) := none

def Draft.finish (d : Draft) : ServerConfig :=
  let default : ServerConfig := {}
  { program := d.program.getD default.program
    arguments := d.arguments.getD default.arguments
    environment := (d.environment.getD default.environment).foldl
      (fun env v => Command.setVariable v.1 v.2 env) []
    timeoutSeconds := d.timeoutSeconds.getD default.timeoutSeconds }

open Json.Decoder in
/-- Every field may be missing, also from the end of an array. Of two variables of one name the
last counts. -/
def decoder : Json.Decoder ServerConfig :=
  record (σ := Draft)
    [field "program" (·.program) (fun d p => { d with program := some p }) string,
     field "args" (·.arguments) (fun d args => { d with arguments := some args }) (list string),
     field "env" (·.environment) (fun d env => { d with environment := some env }) (object string),
     field "timeout_secs" (·.timeoutSeconds) (fun d n => { d with timeoutSeconds := some n })
       (option (natural maxSeconds))]
    {} (fun d => some d.finish) true

/-! ### TOML -/

open Toml in
/-- The members of a record: those of a table, or the elements of an array in the order of
`names`. -/
def members (names : List String) : Toml.Value → Option Entries
  | .array items => some (names.zip items)
  | .tables items => some (names.zip (items.map (.table .header ·)))
  | v => v.asTable

def tomlString : Toml.Value → Option String
  | .string s => some s
  | _ => none

def tomlStrings : Toml.Value → Option (List String)
  | .array items => items.mapM tomlString
  | _ => none

def tomlVariables (v : Toml.Value) : Option (List (String × String)) := do
  (← v.asTable).mapM fun e => do return (e.1, ← tomlString e.2)

def tomlSeconds : Toml.Value → Option Nat
  | .integer n => if 0 ≤ n && n ≤ maxSeconds then some n.toNat else none
  | _ => none

/-- A field of a record: the default if it is missing, and no record if it is of another type. -/
def member {α : Type} (es : Toml.Entries) (name : String) (read : Toml.Value → Option α)
    (default : α) : Option α :=
  match es.lookup name with
  | none => some default
  | some v => read v

def ofToml (v : Toml.Value) : Option ServerConfig := do
  let es ← members ["program", "args", "env", "timeout_secs"] v
  let default : ServerConfig := {}
  return { program := ← member es "program" tomlString default.program
           arguments := ← member es "args" tomlStrings default.arguments
           environment := ← member es "env" tomlVariables default.environment
           timeoutSeconds := ← member es "timeout_secs" (fun v => some <$> tomlSeconds v)
             default.timeoutSeconds }

end ServerConfig

end MacroBridge
