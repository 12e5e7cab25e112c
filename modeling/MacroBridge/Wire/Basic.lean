import MacroBridge.Json.Decoder
import MacroBridge.Json.Piece

/-! Types whose values travel as JSON. -/
namespace MacroBridge

class Wire (α : Type) where
  pieces : α → List Json.Piece
  decoder : Json.Decoder α

namespace Wire
variable {α : Type}

/-- The compact encoding of a value. -/
def text [Wire α] (a : α) : List Char := Json.render .compact (pieces a)

def prettyText [Wire α] (a : α) : List Char := Json.render .pretty (pieces a)

/-- A value as one message: its encoding and a newline. -/
def line [Wire α] (a : α) : List UInt8 := Utf8.encode (text a) ++ [Json.byte '\n']

/-- The greatest number of containers open at once in the encoding of a value. -/
def nesting [Wire α] (a : α) : Nat := Json.nestingFrom 0 (pieces a)

/-- An object with the given members in order. -/
def object (members : List (String × List Json.Piece)) : List Json.Piece :=
  .openObject :: members.flatMap (fun m => .key m.1 :: m.2) ++ [.closeObject]

def array (items : List (List Json.Piece)) : List Json.Piece :=
  .openArray :: items.flatten ++ [.closeArray]

/-- A case of a sum type with its value. -/
def tagged (name : String) (value : List Json.Piece) : List Json.Piece := object [(name, value)]

instance [Wire α] : Wire (Option α) where
  pieces
    | none => [.null]
    | some a => pieces a
  decoder := .option decoder

/-- An encoding of finitely many names. -/
@[reducible] def ofNames (names : List (String × α)) (name : α → String) : Wire α where
  pieces a := [.string (name a)]
  decoder := .oneOf (names.map fun n => (n.1, .bare n.2))

end Wire

end MacroBridge
