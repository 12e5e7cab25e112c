import MacroBridge.Text.NameChar

/-!
Regular expressions over characters: what a pattern matches, and the longest prefix of a text that
it matches, found with partial derivatives.
-/
namespace MacroBridge

inductive CharSet
  | exactly (c : Char)
  | range (lo hi : Char)
  | except (excluded : List Char)
  | nameStart
  | nameContinue
  | union (a b : CharSet)
  deriving DecidableEq

namespace CharSet

def contains : CharSet → Char → Bool
  | exactly a, c => c == a
  | range lo hi, c => lo ≤ c && c ≤ hi
  | except excluded, c => !excluded.contains c
  | nameStart, c => isNameStart c
  | nameContinue, c => isNameContinue c
  | union a b, c => a.contains c || b.contains c

end CharSet

inductive Pattern
  | never
  | done
  | one (set : CharSet)
  | seq (p q : Pattern)
  | alt (p q : Pattern)
  | star (p : Pattern)
  deriving DecidableEq

namespace Pattern

/-- The texts of a pattern. -/
inductive Matches : Pattern → List Char → Prop
  | done : Matches done []
  | one {set : CharSet} {c : Char} (h : set.contains c = true) : Matches (one set) [c]
  | seq {p q : Pattern} {s t : List Char} (hp : Matches p s) (hq : Matches q t) :
      Matches (seq p q) (s ++ t)
  | altLeft {p q : Pattern} {s : List Char} (h : Matches p s) : Matches (alt p q) s
  | altRight {p q : Pattern} {s : List Char} (h : Matches q s) : Matches (alt p q) s
  | starNil {p : Pattern} : Matches (star p) []
  | starCons {p : Pattern} {s t : List Char} (hp : Matches p s) (ht : Matches (star p) t) :
      Matches (star p) (s ++ t)

/-- Whether the empty text matches. -/
def nullable : Pattern → Bool
  | never => false
  | done => true
  | one _ => false
  | seq p q => p.nullable && q.nullable
  | alt p q => p.nullable || q.nullable
  | star _ => true

/-- `p` followed by `q`, without a finished first half. -/
def andThen (p q : Pattern) : Pattern :=
  if p = done then q else seq p q

/-- The union of two lists of patterns, repetitions left out. -/
def join (ps qs : List Pattern) : List Pattern :=
  ps.foldr List.insert qs

/-- Partial derivatives: patterns that together match every `s` for which `c :: s` matches. -/
def derivatives (c : Char) : Pattern → List Pattern
  | never => []
  | done => []
  | one set => if set.contains c then [done] else []
  | seq p q =>
      let left := (p.derivatives c).map (andThen · q)
      if p.nullable then join left (q.derivatives c) else left
  | alt p q => join (p.derivatives c) (q.derivatives c)
  | star p => (p.derivatives c).map (andThen · (star p))

/-- One character further in a set of alternatives. -/
def step (c : Char) (ps : List Pattern) : List Pattern :=
  ps.foldr (fun p rest => join (p.derivatives c) rest) []

/-- Follows the alternatives `ps` through a text of which `n` characters are behind, remembering
the last length at which one of them was complete. -/
def follow (ps : List Pattern) (n : Nat) (best : Option Nat) : List Char → Option Nat
  | [] => best
  | c :: s =>
      match step c ps with
      | [] => best
      | ps' => follow ps' (n + 1) (if ps'.any nullable then some (n + 1) else best) s

/-- The length of the longest prefix that matches. -/
def longest (p : Pattern) (s : List Char) : Option Nat :=
  follow [p] 0 (if p.nullable then some 0 else none) s

def opt (p : Pattern) : Pattern := alt p done

def plus (p : Pattern) : Pattern := seq p (star p)

def char (c : Char) : Pattern := one (.exactly c)

/-- Exactly the given characters. -/
def literal : List Char → Pattern
  | [] => done
  | [c] => char c
  | c :: cs => seq (char c) (literal cs)

def oneOf (cs : List Char) : Pattern :=
  cs.foldr (fun c p => alt (char c) p) never

/-- Any one of several patterns. -/
def choice (ps : List Pattern) : Pattern :=
  ps.foldr alt never

/-- Several patterns in turn. -/
def chain : List Pattern → Pattern
  | [] => done
  | [p] => p
  | p :: ps => seq p (chain ps)

end Pattern

end MacroBridge
