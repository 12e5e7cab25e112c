import MacroBridge.Tree.Visit
import MacroBridge.Wire.Basic

/-! Token trees on the wire. -/
namespace MacroBridge
open Json Decoder

namespace Wire

instance : Wire TokenId where
  pieces id := [.natural id.toNat]
  decoder := (natural 4294967295).map Nat.toUInt32

def bracketName : Bracket → String
  | .paren => "Parenthesis"
  | .brace => "Brace"
  | .square => "Bracket"

instance : Wire Bracket :=
  ofNames [("Parenthesis", .paren), ("Brace", .brace), ("Bracket", .square)] bracketName

def spacingName : Spacing → String
  | .alone => "Alone"
  | .joint => "Joint"

instance : Wire Spacing := ofNames [("Alone", .alone), ("Joint", .joint)] spacingName

instance : Wire Delimiter where
  pieces d := object [("id", pieces d.id), ("kind", pieces d.bracket)]
  decoder :=
    record (σ := Option TokenId × Option Bracket)
      [field "id" (·.1) (fun r id => (some id, r.2)) decoder,
       field "kind" (·.2) (fun r kind => (r.1, some kind)) decoder]
      (none, none)
      fun r => do return ⟨← r.1, ← r.2⟩

/-- The members `text` and `id` that literals and identifiers share. -/
def textAndId {α : Type} (make : String → TokenId → α) : Decoder α :=
  record (σ := Option String × Option TokenId)
    [field "text" (·.1) (fun r text => (some text, r.2)) string,
     field "id" (·.2) (fun r id => (r.1, some id)) decoder]
    (none, none)
    fun r => do return make (← r.1) (← r.2)

instance : Wire Literal where
  pieces l := object [("text", [.string l.text]), ("id", pieces l.id)]
  decoder := textAndId .mk

instance : Wire Ident where
  pieces i := object [("text", [.string i.text]), ("id", pieces i.id)]
  decoder := textAndId .mk

instance : Wire Punct where
  pieces p := object
    [("char", [.string (String.singleton p.char)]), ("spacing", pieces p.spacing),
      ("id", pieces p.id)]
  decoder :=
    record (σ := Option Char × Option Spacing × Option TokenId)
      [field "char" (·.1) (fun r c => (some c, r.2)) char,
       field "spacing" (·.2.1) (fun r spacing => (r.1, some spacing, r.2.2)) decoder,
       field "id" (·.2.2) (fun r id => (r.1, r.2.1, some id)) decoder]
      (none, none, none)
      fun r => do return ⟨← r.1, ← r.2.1, ← r.2.2⟩

instance : Wire Leaf where
  pieces
    | .literal l => tagged "Literal" (pieces l)
    | .punct p => tagged "Punct" (pieces p)
    | .ident i => tagged "Ident" (pieces i)
  decoder := oneOf
    [("Literal", .carrying (decoder.map Leaf.literal)),
     ("Punct", .carrying (decoder.map Leaf.punct)),
     ("Ident", .carrying (decoder.map Leaf.ident))]

/-- What stands in front of the children of a group. -/
def groupStart (d : Option Delimiter) : List Piece :=
  [.openObject, .key "delimiter"] ++ pieces d ++ [.key "token_trees", .openArray]

def groupEnd : List Piece := [.closeArray, .closeObject]

/-- What a station of the walk through a tree among others writes. -/
def visitPieces : Visit → List Piece
  | .enter d => [.openObject, .key "Subtree"] ++ groupStart d
  | .leaf l => tagged "Leaf" (pieces l)
  | .leave _ => groupEnd ++ [.closeObject]

/-- A group whose children `child` decodes. -/
def groupDecoder (child : Decoder TokenTree) : Decoder Subtree :=
  record (σ := Option (Option Delimiter) × Option (List TokenTree))
    [field "delimiter" (·.1) (fun r d => (some d, r.2)) decoder,
     field "token_trees" (·.2) (fun r cs => (r.1, some cs)) (list child)]
    (none, none)
    fun r => do return ⟨r.1.getD none, ← r.2⟩

/-- Trees at most `levels` deep. Every level opens three containers, so `maxNesting` levels are
never used up before the containers are. -/
def treeDecoder : (levels : Nat) → Decoder TokenTree
  | 0 => never
  | levels + 1 => oneOf
      [("Leaf", .carrying (decoder.map TokenTree.leaf)),
       ("Subtree", .carrying ((groupDecoder (treeDecoder levels)).map Subtree.toTree))]

instance : Wire TokenTree where
  pieces t := t.visits.flatMap visitPieces
  decoder := treeDecoder maxNesting

instance : Wire Subtree where
  pieces s := groupStart s.delimiter
    ++ ((TokenTree.visitsAllOnto [] s.children).reverse.flatMap visitPieces ++ groupEnd)
  decoder := groupDecoder (treeDecoder maxNesting)

end Wire

end MacroBridge
