import MacroBridge.Shell.Syntax

/-! Patterns of the shell, and the parts of a value that they match. -/
namespace MacroBridge.Shell

/-- A character, and whether it stands for itself in a pattern. -/
abbrev Mark := Char × Bool

inductive GlobItem
  | char (c : Char)
  | one
  | many
  | set (isNegated : Bool) (ranges : List (Char × Char))
  deriving DecidableEq, Repr

namespace GlobItem

def matchesChar (c : Char) : GlobItem → Bool
  | char d => c = d
  | one => true
  | many => false
  | set isNegated ranges => (ranges.any fun r => r.1 ≤ c && c ≤ r.2) != isNegated

/-- The ranges of a set up to its closing bracket, which stands for itself in the first place. -/
def ranges : (isFirst : Bool) → List Mark → Option (List (Char × Char) × List Mark)
  | _, [] => none
  | isFirst, (c, isLiteral) :: s =>
      if c = ']' && !isLiteral && !isFirst then some ([], s)
      else
        match _ : s with
        | ('-', false) :: (d, dLiteral) :: t =>
            if d = ']' && !dLiteral then (ranges false s).map fun r => ((c, c) :: r.1, r.2)
            else (ranges false t).map fun r => ((c, d) :: r.1, r.2)
        | _ => (ranges false s).map fun r => ((c, c) :: r.1, r.2)
  termination_by _ s => s.length
  decreasing_by all_goals (simp_all <;> omega)

/-- The items of a pattern. A bracket that is never closed stands for itself. -/
def parse : (size : Nat) → List Mark → List GlobItem
  | 0, _ | _, [] => []
  | n + 1, (c, true) :: s => char c :: parse n s
  | n + 1, ('*', _) :: s => many :: parse n s
  | n + 1, ('?', _) :: s => one :: parse n s
  | n + 1, ('[', _) :: s =>
      let (isNegated, body) := match s with
        | ('!', false) :: t | ('^', false) :: t => (true, t)
        | t => (false, t)
      match ranges true body with
      | some (rs, rest) => set isNegated rs :: parse n rest
      | none => char '[' :: parse n s
  | n + 1, (c, _) :: s => char c :: parse n s

def ofMarks (s : List Mark) : List GlobItem := parse s.length s

end GlobItem

/-- A pattern and those that remain of it if runs at its front match nothing. -/
def withoutRuns : List GlobItem → List (List GlobItem)
  | .many :: p => (.many :: p) :: withoutRuns p
  | p => [p]

/-- What remains of patterns after one character. -/
def afterChar (c : Char) (ps : List (List GlobItem)) : List (List GlobItem) :=
  (ps.flatMap fun p =>
    match p with
    | .many :: q => withoutRuns (.many :: q)
    | item :: q => if item.matchesChar c then withoutRuns q else []
    | [] => []).eraseDups

/-- Lengths of the beginnings of a text that a pattern matches, in increasing order. -/
def matchLengths (p : List GlobItem) (s : List Char) : List Nat :=
  go (withoutRuns p) 0 s
where
  go (ps : List (List GlobItem)) (n : Nat) : List Char → List Nat
    | [] => if ps.contains [] then [n] else []
    | c :: s =>
        let later := if ps.isEmpty then [] else go (afterChar c ps) (n + 1) s
        if ps.contains [] then n :: later else later

def globMatches (p : List GlobItem) (s : List Char) : Bool := (matchLengths p s).contains s.length

/-- A text without the part of it that a pattern matches at one of its ends. -/
def Trim.apply (t : Trim) (p : List GlobItem) (s : List Char) : List Char :=
  let lengths := if t.fromFront then matchLengths p s else matchLengths p.reverse s.reverse
  match if t.longest then lengths.getLast? else lengths.head? with
  | none => s
  | some n => if t.fromFront then s.drop n else s.take (s.length - n)

end MacroBridge.Shell
