import MacroBridge.Text.Utf8
import MacroBridge.Tree.Basic

/-!
Requests to a macro expansion server and its responses. On the wire the path of a library is a
text; a caller may ask for a library at any path of its system.
-/
namespace MacroBridge

/-- A path as the system has it: bytes that need not be text. -/
structure OsPath where
  bytes : List UInt8
  deriving DecidableEq, Repr

namespace OsPath

def ofText (text : String) : OsPath := ⟨Utf8.encode text.toList⟩

/-- The path as a text, if it is one. -/
def text? (p : OsPath) : Option String := (Utf8.decode p.bytes).toOption.map String.ofList

end OsPath

inductive MacroKind
  | customDerive
  | functionLike
  | attr
  deriving DecidableEq, Repr

def MacroKind.text : MacroKind → String
  | customDerive => "derive"
  | functionLike => "function-like"
  | attr => "attribute"

structure ListTask (Path : Type := String) where
  lib : Path
  deriving DecidableEq, Repr

structure ListResult where
  macros : List (String × MacroKind)
  deriving DecidableEq, Repr

structure ExpansionTask (Path : Type := String) where
  /-- Input of the macro call: the item for derives and attributes, else the call's body. -/
  body : Subtree
  /-- Name of the derived trait or of the macro. -/
  name : String
  /-- Arguments of an attribute macro. -/
  attributes : Option Subtree
  lib : Path
  deriving DecidableEq, Repr

structure ExpansionResult where
  expansion : Subtree
  deriving DecidableEq, Repr

inductive ErrorCode
  | serverErrorEnd
  | expansionError
  deriving DecidableEq, Repr

def ErrorCode.text : ErrorCode → String
  | serverErrorEnd => "ServerErrorEnd"
  | expansionError => "ExpansionError"

/-- A failure that the server itself reports, as opposed to a failure to talk to it. -/
structure ReportedError where
  code : ErrorCode
  message : String
  deriving DecidableEq, Repr

def ReportedError.text (e : ReportedError) : String := e.code.text ++ ": " ++ e.message

inductive Request (Path : Type := String)
  | listMacros (task : ListTask Path)
  | expand (task : ExpansionTask Path)
  deriving DecidableEq, Repr

inductive Response
  | error (error : ReportedError)
  | macros (result : ListResult)
  | expansion (result : ExpansionResult)
  deriving DecidableEq, Repr

namespace Request
variable {Path Path' : Type}

/-- Name of a request's form, on the wire and in messages. -/
def name : Request Path → String
  | listMacros _ => "ListMacro"
  | expand _ => "ExpansionMacro"

def lib : Request Path → Path
  | listMacros task => task.lib
  | expand task => task.lib

/-- The same request for a library at another path. -/
def withLib (lib : Path') : Request Path → Request Path'
  | listMacros _ => listMacros ⟨lib⟩
  | expand task => expand { task with lib }

/-- The request that a caller makes for a library whose path is a text. -/
def given (r : Request) : Request OsPath := r.withLib (.ofText r.lib)

/-- The request as it goes on the wire. There is none if the path is no text. -/
def text? (r : Request OsPath) : Option Request := r.lib.text?.map (r.withLib ·)

end Request

/-- Name of a response's form, on the wire and in messages. -/
def Response.name : Response → String
  | error _ => "Error"
  | macros _ => "ListMacro"
  | expansion _ => "ExpansionMacro"

end MacroBridge
