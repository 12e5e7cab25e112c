import MacroBridge.Token.Lexer

/-!
A position in the tokens of a source. Moving skips trivia, which a look at the raw tokens ahead
still shows.
-/
namespace MacroBridge

/-- The tokens from the current one on, their text, and the byte offset of the first. -/
structure Cursor where
  tokens : List Token
  rest : List Char
  offset : Nat
  rest_eq : rest = Token.sourceOf tokens

namespace Cursor

/-- Leaves the first token behind, whatever its kind. -/
def dropFirst (c : Cursor) : Cursor :=
  match h : c.tokens with
  | [] => c
  | t :: ts =>
      { tokens := ts
        rest := c.rest.drop t.text.length
        offset := c.offset + t.byteLength
        rest_eq := by simp [c.rest_eq, h, Token.sourceOf] }

theorem length_dropFirst (c : Cursor) : c.dropFirst.tokens.length = c.tokens.length - 1 := by
  unfold dropFirst
  split <;> simp_all

/-- Kind of the current token, `none` at the end. -/
def current (c : Cursor) : Option Kind := c.tokens.head?.map Token.kind

def atTrivia (c : Cursor) : Bool := c.current.any Kind.isTrivia

theorem tokens_ne_nil_of_atTrivia {c : Cursor} (h : c.atTrivia = true) : c.tokens ≠ [] := by
  intro hn
  simp [atTrivia, current, hn] at h

/-- Moves to the first token that is not trivia. -/
def skipTrivia (c : Cursor) : Cursor :=
  if c.atTrivia then c.dropFirst.skipTrivia else c
  termination_by c.tokens.length
  decreasing_by
    rename_i h
    have := List.length_pos_iff.mpr (tokens_ne_nil_of_atTrivia h)
    rw [length_dropFirst]; omega

theorem length_skipTrivia_le (c : Cursor) : c.skipTrivia.tokens.length ≤ c.tokens.length := by
  fun_induction skipTrivia c with
  | case1 c h ih => rw [length_dropFirst] at ih; omega
  | case2 => omega

/-- A cursor on the first token of `source` that is not trivia. -/
def ofSource (source : List Char) : Cursor :=
  let tokens := tokenize source
  (Cursor.mk tokens (Token.sourceOf tokens) 0 rfl).skipTrivia

/-- Text of the current token, empty at the end. -/
def currentText (c : Cursor) : List Char :=
  match c.tokens with
  | [] => []
  | t :: _ => t.text

/-- Kind of the raw token `n` places after the current one. -/
def lookahead (c : Cursor) (n : Nat) : Option Kind := c.tokens[n]?.map Token.kind

/-- Moves past the current token and any trivia after it. -/
def bump (c : Cursor) : Cursor :=
  match c.tokens with
  | [] => c
  | _ :: _ => c.dropFirst.skipTrivia

theorem length_bump_le (c : Cursor) : c.bump.tokens.length ≤ c.tokens.length - 1 := by
  unfold bump
  split
  · simp_all
  · exact Nat.le_trans (length_skipTrivia_le _) (Nat.le_of_eq (length_dropFirst _))

theorem length_bump_lt {c : Cursor} (h : c.tokens ≠ []) :
    c.bump.tokens.length < c.tokens.length := by
  have := length_bump_le c
  have := List.length_pos_iff.mpr h
  omega

/-- Bumps `n` times. -/
def bumpTimes : Nat → Cursor → Cursor
  | 0, c => c
  | n + 1, c => bumpTimes n c.bump

/-- Byte offset at which the current token ends. -/
def currentStop (c : Cursor) : Nat := c.offset + Utf8.byteLength c.currentText

/-- Moves to the token that ends at byte `stop` or after it, or to the end. -/
def advanceTo (stop : Nat) (c : Cursor) : Cursor :=
  if c.tokens.isEmpty then c
  else if c.currentStop < stop then c.bump.advanceTo stop
  else c
  termination_by c.tokens.length
  decreasing_by
    rename_i h _
    exact length_bump_lt (by simpa using h)

theorem length_advanceTo_le (stop : Nat) (c : Cursor) :
    (c.advanceTo stop).tokens.length ≤ c.tokens.length := by
  fun_induction advanceTo stop c with
  | case1 => omega
  | case2 c _ _ ih => have := length_bump_le c; omega
  | case3 => omega

end Cursor

end MacroBridge
