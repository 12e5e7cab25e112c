import MacroBridge.Tree.Visit

/-! Token trees as text: source text that reads back, and an indented outline with one node a
line. -/
namespace MacroBridge

namespace Spacing

def text : Spacing → String
  | alone => "alone"
  | joint => "joint"

end Spacing

namespace Leaf

/-- The characters of a leaf, without anything around them. -/
def chars : Leaf → List Char
  | literal l => l.text.toList
  | punct p => [p.char]
  | ident i => i.text.toList

/-- A leaf in source text: a space follows an identifier, and a punct that stands alone. -/
def sourceText : Leaf → List Char
  | literal l => l.text.toList
  | punct p => if p.spacing = .alone then [p.char, ' '] else [p.char]
  | ident i => i.text.toList ++ [' ']

def outline : Leaf → String
  | literal l => "LITERAL " ++ l.text ++ " " ++ toString l.id
  | punct p =>
    "PUNCH   " ++ String.singleton p.char ++ " [" ++ p.spacing.text ++ "] " ++ toString p.id
  | ident i => "IDENT   " ++ i.text ++ " " ++ toString i.id

end Leaf

namespace Visit

def sourceText : Visit → List Char
  | enter (some d) => [d.bracket.openChar]
  | enter none => []
  | leaf l => l.sourceText
  | leave (some d) => [d.bracket.closeChar]
  | leave none => []

end Visit

/-- First line of a group in an outline; a root without delimiter shows as `$`. -/
def Delimiter.outline : Option Delimiter → String
  | none => "SUBTREE $"
  | some d =>
    "SUBTREE " ++ String.ofList [d.bracket.openChar, d.bracket.closeChar] ++ " " ++ toString d.id

namespace Subtree

/-- Source text of a tree. Brackets, texts and spacing read back from it. -/
def sourceText (s : Subtree) : List Char := s.visits.flatMap Visit.sourceText

/-- Lines of an outline with the depth of each. -/
def outlineLines : (depth : Nat) → List Visit → List (Nat × String)
  | _, [] => []
  | depth, .enter d :: vs => (depth, Delimiter.outline d) :: outlineLines (depth + 1) vs
  | depth, .leaf l :: vs => (depth, l.outline) :: outlineLines depth vs
  | depth, .leave _ :: vs => outlineLines (depth - 1) vs

def indentedLine (line : Nat × String) : String := "".pushn ' ' (2 * line.1) ++ line.2

/-- One line for each node, two spaces for each level. -/
def outline (s : Subtree) : String :=
  String.intercalate "\n" ((outlineLines 0 s.visits).map indentedLine)

end Subtree

end MacroBridge
