import MacroBridge.Shell.Glob

/-! Expanded words, and the fields that they are split into. -/
namespace MacroBridge.Shell

/-- A piece of an expanded word. -/
inductive Piece
  | text (isQuoted : Bool) (s : List Char)
  /-- What an unquoted expansion gives. -/
  | value (s : List Char)
  /-- The border between two parameters. -/
  | border
  deriving DecidableEq, Repr

namespace Piece

/-- The text of a word that is not split. -/
def plain (pieces : List Piece) : List Char :=
  pieces.flatMap fun
    | text _ s | value s => s
    | border => [' ']

/-- The characters of a word that is a pattern. -/
def marks (pieces : List Piece) : List Mark :=
  pieces.flatMap fun
    | text isQuoted s => s.map (·, isQuoted)
    | value s => s.map (·, false)
    | border => [(' ', false)]

end Piece

def isFieldSpace (c : Char) : Bool := c == ' ' || c == '\t' || c == '\n'

/-- Fields being put together: those that are complete, and the one at hand, all backwards. -/
structure Fields where
  done : List (List Char) := []
  current : Option (List Char) := none

namespace Fields

def finish (f : Fields) : Fields :=
  match f.current with
  | some s => ⟨s.reverse :: f.done, none⟩
  | none => f

def push (f : Fields) (s : List Char) : Fields :=
  { f with current := some (s.reverse ++ f.current.getD []) }

/-- Adds text in which separators end a field. White space alone makes no empty field. -/
def pushSplit (separators : List Char) (f : Fields) (s : List Char) : Fields :=
  s.foldl (fun f c =>
    if separators.contains c then
      if isFieldSpace c then f.finish else (f.push []).finish
    else f.push [c]) f

def add (separators : List Char) (f : Fields) : Piece → Fields
  | .text _ s => f.push s
  | .value s => f.pushSplit separators s
  | .border => f.finish

end Fields

/-- The fields of an expanded word. -/
def fieldsOf (separators : List Char) (pieces : List Piece) : List (List Char) :=
  (pieces.foldl (Fields.add separators) {}).finish.done.reverse

/-- Shares a line of input among `count` names, the last of which gets all that is left. -/
def shareLine (separators : List Char) : (count : Nat) → List Char → List (List Char)
  | 0, _ => []
  | 1, s =>
      let isSpace (c : Char) : Bool := separators.contains c && isFieldSpace c
      [((s.dropWhile isSpace).reverse.dropWhile isSpace).reverse]
  | n + 1, s =>
      let isSpace (c : Char) : Bool := separators.contains c && isFieldSpace c
      let s := s.dropWhile isSpace
      let field := s.takeWhile (!separators.contains ·)
      let rest := (s.drop field.length).dropWhile isSpace
      let rest := match rest with
        | c :: t => if separators.contains c then t else rest
        | [] => []
      field :: shareLine separators n rest

end MacroBridge.Shell
