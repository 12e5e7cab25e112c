/-!
Writing JSON. A value is a flat list of pieces, so that values of any size and depth are written in
one pass; a style says where line breaks and spaces go.
-/
namespace MacroBridge.Json

inductive Piece
  | openObject
  | closeObject
  | openArray
  | closeArray
  | key (name : String)
  | string (text : String)
  | natural (n : Nat)
  | null
  deriving DecidableEq, Repr

inductive Style
  | compact
  | pretty
  deriving DecidableEq, Repr

/-- What has just been written. -/
inductive Place
  | start
  | opened
  | afterKey
  | afterItem
  deriving DecidableEq, Repr

def hexDigit (n : Nat) : Char := "0123456789abcdef".toList.getD n '0'

/-- A character inside a string: quotes, backslashes and the characters below the space are
escaped. -/
def quoteChar (c : Char) : List Char :=
  if c = '"' then ['\\', '"']
  else if c = '\\' then ['\\', '\\']
  else if c = '\n' then ['\\', 'n']
  else if c = '\r' then ['\\', 'r']
  else if c = '\t' then ['\\', 't']
  else if c = '\x08' then ['\\', 'b']
  else if c = '\x0c' then ['\\', 'f']
  else if c.toNat < 0x20 then
    ['\\', 'u', '0', '0', hexDigit (c.toNat / 16), hexDigit (c.toNat % 16)]
  else [c]

def quote (s : List Char) : List Char := '"' :: s.flatMap quoteChar ++ ['"']

/-- Line break and indentation at a depth. -/
def Style.gap (style : Style) (depth : Nat) : List Char :=
  match style with
  | .compact => []
  | .pretty => '\n' :: List.replicate (2 * depth) ' '

/-- What separates an item from what stands before it. -/
def Style.before (style : Style) (depth : Nat) : Place → List Char
  | .start | .afterKey => []
  | .opened => style.gap depth
  | .afterItem => ',' :: style.gap depth

def Style.colon : Style → List Char
  | .compact => [':']
  | .pretty => [':', ' ']

/-- What comes before the bracket that closes a container at `depth`. -/
def Style.beforeClose (style : Style) (depth : Nat) : Place → List Char
  | .opened => []
  | _ => style.gap depth

namespace Piece

/-- The text of a piece at a depth and place, and the depth and place after it. -/
def write (style : Style) (depth : Nat) (place : Place) : Piece → List Char × Nat × Place
  | openObject => (style.before depth place ++ ['\x7b'], depth + 1, .opened)
  | openArray => (style.before depth place ++ ['['], depth + 1, .opened)
  | closeObject => (style.beforeClose (depth - 1) place ++ ['\x7d'], depth - 1, .afterItem)
  | closeArray => (style.beforeClose (depth - 1) place ++ [']'], depth - 1, .afterItem)
  | key name =>
      (style.before depth place ++ quote name.toList ++ style.colon, depth, .afterKey)
  | string text => (style.before depth place ++ quote text.toList, depth, .afterItem)
  | natural n => (style.before depth place ++ Nat.toDigits 10 n, depth, .afterItem)
  | null => (style.before depth place ++ ['n', 'u', 'l', 'l'], depth, .afterItem)

end Piece

/-- The text of pieces behind the characters of `done`, last first. -/
def renderOnto (style : Style) (depth : Nat) (place : Place) (done : List Char) :
    List Piece → List Char
  | [] => done
  | p :: ps =>
      let (text, depth', place') := p.write style depth place
      renderOnto style depth' place' (text.reverseAux done) ps

def render (style : Style) (ps : List Piece) : List Char :=
  (renderOnto style 0 .start [] ps).reverse

/-- The greatest number of containers that are open at once in `ps`, which starts inside
`depth`. -/
def nestingFrom (depth : Nat) : List Piece → Nat
  | [] => depth
  | .openObject :: ps | .openArray :: ps => max depth (nestingFrom (depth + 1) ps)
  | .closeObject :: ps | .closeArray :: ps => max depth (nestingFrom (depth - 1) ps)
  | _ :: ps => max depth (nestingFrom depth ps)

end MacroBridge.Json
