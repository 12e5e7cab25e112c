import MacroBridge.Text.Utf8
import MacroBridge.Token.Grammar

/-!
Cutting a source text into raw tokens, from the rules of the grammar. Every character of the source
is in exactly one token.
-/
namespace MacroBridge

structure Token where
  kind : Kind
  text : List Char
  deriving DecidableEq, Repr

namespace Token

def byteLength (t : Token) : Nat := Utf8.byteLength t.text

/-- The texts of tokens, one after the other. -/
def sourceOf (ts : List Token) : List Char := ts.flatMap text

end Token

namespace Lexer

/-- Characters up to the end of a block comment that is already open `depth + 1` times, counted
onto `n`; comments nest, and one that is not closed takes the whole text. -/
def commentLength : (depth n : Nat) → List Char → Nat
  | _, n, [] => n
  | _, n, [_] => n + 1
  | depth, n, c :: d :: s =>
      if c = '/' ∧ d = '*' then commentLength (depth + 1) (n + 2) s
      else if c = '*' ∧ d = '/' then
        match depth with
        | 0 => n + 2
        | depth + 1 => commentLength depth (n + 2) s
      else commentLength depth (n + 1) (d :: s)

/-- Whether a quote followed by `count` hashes stands first. -/
def atTerminator (count : Nat) (s : List Char) : Bool :=
  ('"' :: List.replicate count '#').isPrefixOf s

/-- Characters through the first quote followed by `count` hashes, counted onto `n`; without one,
all. -/
def rawStringLength (count : Nat) : (n : Nat) → List Char → Nat
  | n, [] => n
  | n, c :: s =>
      if atTerminator count (c :: s) then n + 1 + count else rawStringLength count (n + 1) s

/-- Length of what a token takes after its opening. -/
def tailLength (tail : Tail) (opening rest : List Char) : Nat :=
  match tail with
  | .plain => 0
  | .comment => commentLength 0 0 rest
  | .rawString => rawStringLength (opening.count '#') 0 rest

/-- The rule with the longest match, the earliest of those with the same length. -/
def winner (rules : List Rule) (s : List Char) : Option (Rule × Nat) :=
  rules.foldl (fun best r =>
    match r.pattern.longest s, best with
    | none, _ => best
    | some n, none => some (r, n)
    | some n, some (_, m) => if m < n then some (r, n) else best) none

/-- A character that no identifier goes on with, though its first byte in UTF-8 begins one that
does. -/
def isForeign (c : Char) : Bool :=
  let n := c.toNat
  128 ≤ n && !isNameContinue c &&
    !((0xE000 ≤ n && n < 0xF000) || (0x40000 ≤ n && n < 0xC0000) || 0x100000 ≤ n)

/-- A quote and a single name character are no lifetime when a foreign character follows them. -/
def isBrokenLifetime (kind : Kind) (text rest : List Char) : Bool :=
  kind = .lifetime && text.length = 2 && (rest.head?.any isForeign)

/-- Kind and length of the first token. -/
def first (s : List Char) : Kind × Nat :=
  match winner Grammar.rules s with
  | none => (.unknown, 1)
  | some (rule, n) =>
      let opening := s.take n
      let rest := s.drop n
      if isBrokenLifetime rule.kind opening rest then (.unknown, n)
      else (rule.kind, n + tailLength rule.tail opening rest)

/-- Cuts `s` into tokens in front of which those of `done` stand, last first. -/
def cut (done : List Token) : List Char → List Token
  | [] => done.reverse
  | c :: s =>
      let (kind, n) := first (c :: s)
      cut (⟨kind, c :: s.take (n - 1)⟩ :: done) (s.drop (n - 1))
  termination_by s => s.length
  decreasing_by simp only [List.length_drop, List.length_cons]; omega

end Lexer

/-- The raw tokens of a source text. -/
def tokenize (source : List Char) : List Token := Lexer.cut [] source

/-- Tokens with the byte offsets at which they start and end. -/
def Token.withRanges : (offset : Nat) → List Token → List (Token × Nat × Nat)
  | _, [] => []
  | offset, t :: ts =>
      let stop := offset + t.byteLength
      (t, offset, stop) :: Token.withRanges stop ts

end MacroBridge
