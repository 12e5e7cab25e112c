import MacroBridge.Text.Alphanumeric
import MacroBridge.Token.Grammar

/-!
Numbers with a decimal point. The lexer cuts `1.2` into three tokens, as it does in the field
access `x.0.1`; here a text is read again with the point as part of the number.
-/
namespace MacroBridge.Fraction
open Pattern Grammar

/-- Digits, a point, digits, and an exponent and suffix if there are any. -/
def full : Pattern := chain [digits, char '.', digits, opt exponent, opt suffix]

/-- Digits and a point. -/
def trailing : Pattern := chain [digits, char '.']

/-- Whether a character after `1.` belongs with the point: `1..2` is a range, `1.foo()` a call. -/
def continuesPoint (c : Char) : Bool := c == '.' || c == '_' || isAlphanumeric c

/-- Length of the number with a point that `s` starts with. Its characters are all ASCII, so this
is a count of bytes too. -/
def length (s : List Char) : Option Nat :=
  match full.longest s with
  | some n => some n
  | none =>
      match trailing.longest s with
      | some n => if (s.drop n).head?.any continuesPoint then none else some n
      | none => none

end MacroBridge.Fraction
