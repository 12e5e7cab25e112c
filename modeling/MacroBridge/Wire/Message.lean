import MacroBridge.Message
import MacroBridge.Wire.Tree

/-! Requests and responses on the wire. -/
namespace MacroBridge
open Json Decoder

namespace Wire

def macroKindName : MacroKind → String
  | .customDerive => "CustomDerive"
  | .functionLike => "FuncLike"
  | .attr => "Attr"

instance : Wire MacroKind :=
  ofNames [("CustomDerive", .customDerive), ("FuncLike", .functionLike),
    ("Attr", .attr)] macroKindName

instance : Wire ErrorCode :=
  ofNames [("ServerErrorEnd", .serverErrorEnd), ("ExpansionError", .expansionError)] ErrorCode.text

instance : Wire ListTask where
  pieces t := object [("lib", [.string t.lib])]
  decoder :=
    record (σ := Option String) [field "lib" id (fun _ lib => some lib) string] none
      fun r => do return ⟨← r⟩

instance : Wire ListResult where
  pieces r := object
    [("macros", array (r.macros.map fun m => array [[.string m.1], pieces m.2]))]
  decoder :=
    record (σ := Option (List (String × MacroKind)))
      [field "macros" id (fun _ macros => some macros) (list (pair string decoder))] none
      fun r => do return ⟨← r⟩

instance : Wire ExpansionTask where
  pieces t := object
    [("macro_body", pieces t.body), ("macro_name", [.string t.name]),
     ("attributes", pieces t.attributes), ("lib", [.string t.lib])]
  decoder :=
    record (σ := Option Subtree × Option String × Option (Option Subtree) × Option String)
      [field "macro_body" (·.1) (fun r body => (some body, r.2)) decoder,
       field "macro_name" (·.2.1) (fun r name => (r.1, some name, r.2.2)) string,
       field "attributes" (·.2.2.1)
         (fun r attributes => (r.1, r.2.1, some attributes, r.2.2.2)) decoder,
       field "lib" (·.2.2.2) (fun r lib => (r.1, r.2.1, r.2.2.1, some lib)) string]
      (none, none, none, none)
      fun r => do return ⟨← r.1, ← r.2.1, r.2.2.1.getD none, ← r.2.2.2⟩

instance : Wire ExpansionResult where
  pieces r := object [("expansion", pieces r.expansion)]
  decoder :=
    record (σ := Option Subtree) [field "expansion" id (fun _ tree => some tree) decoder] none
      fun r => do return ⟨← r⟩

instance : Wire ReportedError where
  pieces e := object [("code", pieces e.code), ("message", [.string e.message])]
  decoder :=
    record (σ := Option ErrorCode × Option String)
      [field "code" (·.1) (fun r code => (some code, r.2)) decoder,
       field "message" (·.2) (fun r message => (r.1, some message)) string]
      (none, none)
      fun r => do return ⟨← r.1, ← r.2⟩

instance : Wire Request where
  pieces
    | .listMacros t => tagged "ListMacro" (pieces t)
    | .expand t => tagged "ExpansionMacro" (pieces t)
  decoder := oneOf
    [("ListMacro", .carrying (decoder.map Request.listMacros)),
     ("ExpansionMacro", .carrying (decoder.map Request.expand))]

instance : Wire Response where
  pieces
    | .error e => tagged "Error" (pieces e)
    | .macros r => tagged "ListMacro" (pieces r)
    | .expansion r => tagged "ExpansionMacro" (pieces r)
  decoder := oneOf
    [("Error", .carrying (decoder.map Response.error)),
     ("ListMacro", .carrying (decoder.map Response.macros)),
     ("ExpansionMacro", .carrying (decoder.map Response.expansion))]

end Wire

end MacroBridge
