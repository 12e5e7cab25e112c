import MacroBridge.Files
import MacroBridge.Server.Config
import MacroBridge.Text.Utf8
import MacroBridge.Toml.Document
import MacroBridge.Tree.Builder

/-! The configuration file. -/
namespace MacroBridge

structure Config where
  server : ServerConfig := {}
  parser : ParseOptions := {}
  deriving DecidableEq, Repr

/-- Why there is no configuration. -/
inductive ConfigError
  | notFound (path : String)
  | unreadable (path : String) (fault : FileFault)
  | malformed (path : String)
  deriving DecidableEq, Repr

/-- The message up to where the fault in the text of a malformed file would be described. -/
def ConfigError.message : ConfigError → String
  | notFound path => "config file not found at: " ++ path
  | unreadable path fault => "failed to read config file " ++ path ++ ": " ++ fault.message
  | malformed path => "failed to parse config file " ++ path

/-- The text of a file. -/
def Files.readText (fs : Files) (path : String) : Except FileFault (List Char) := do
  (Utf8.decode (← fs.read path)).mapError fun _ => .notText

namespace Config

def fileName : String := "expando.toml"

def parserOfToml (v : Toml.Value) : Option ParseOptions := do
  let es ← ServerConfig.members ["collapse_single_group"] v
  let collapse ← ServerConfig.member es "collapse_single_group"
    (fun | .boolean b => some b | _ => none) ({} : ParseOptions).collapseSingleGroup
  return { collapseSingleGroup := collapse }

def ofToml (es : Toml.Entries) : Option Config := do
  let server ← ServerConfig.member es "server" ServerConfig.ofToml {}
  let parser ← ServerConfig.member es "parser" parserOfToml {}
  return { server, parser }

/-- The configuration that a text writes. -/
def ofText (text : List Char) : Option Config := do ofToml (← Toml.parse text)

def loadFile (fs : Files) (path : String) : Except ConfigError Config := do
  let text ← (fs.readText path).mapError (.unreadable path)
  match ofText text with
  | some c => return c
  | none => throw (.malformed path)

/-- Loads the file at a path, or the file of the usual name in the directory there. -/
def load (fs : Files) (path : String) : Except ConfigError Config :=
  let path := if fs.isDirectory path then Path.join path fileName else path
  if fs.exists? path then loadFile fs path else .error (.notFound path)

/-- Loads the file of the usual name in a directory, if there is one. -/
def loadOrDefault (fs : Files) (directory : String) : Except ConfigError Config :=
  let path := Path.join directory fileName
  if fs.exists? path then loadFile fs path else .ok {}

end Config

end MacroBridge
