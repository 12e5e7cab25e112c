import MacroBridge.Pattern
import MacroBridge.Token.Kind

/-!
The lexical grammar: one rule for each form of token. The longest match wins, and of two rules that
match the same length the earlier one in the list.

`declared` holds the forms that are tokens of the language. `malformed` holds the broken forms that
are kept together as one token of unknown kind instead of falling apart into characters.
-/
namespace MacroBridge

/-- What a token takes after the part that its pattern matches. -/
inductive Tail
  | plain
  | comment
  | rawString
  deriving DecidableEq, Repr

structure Rule where
  kind : Kind
  pattern : Pattern
  tail : Tail := .plain

namespace Grammar
open Pattern

def digit : CharSet := .range '0' '9'

def letter : CharSet := .union (.range 'a' 'z') (.range 'A' 'Z')

def hexDigit : CharSet := .union digit (.union (.range 'a' 'f') (.range 'A' 'F'))

def anyChar : CharSet := .except []

def notNewline : CharSet := .except ['\n']

/-- Digits with underscores between or after them. -/
def digits : Pattern := .seq (one digit) (star (one (.union digit (.exactly '_'))))

/-- A letter or underscore and any such or digits after it, as in `u8` or `xFF`. -/
def suffix : Pattern :=
  .seq (one (.union letter (.exactly '_')))
    (star (one (.union letter (.union digit (.exactly '_')))))

def exponent : Pattern :=
  chain [oneOf ['e', 'E'], opt (oneOf ['+', '-']), digits]

/-- An identifier: a name start or underscore, then name characters. -/
def name : Pattern :=
  .seq (one (.union .nameStart (.exactly '_'))) (star (one .nameContinue))

def anyCharEscape : Pattern := .seq (char '\\') (one notNewline)

def byteEscape : Pattern := chain [literal ['\\', 'x'], one hexDigit, one hexDigit]

def unicodeDigits : Pattern :=
  .seq (literal ['\\', 'u', '\x7b']) (plus (one (.union hexDigit (.exactly '_'))))

def unicodeEscape : Pattern := .seq unicodeDigits (char '\x7d')

/-- A character between single quotes that is written as itself. -/
def quotedChar : Pattern := one (.except ['\'', '\\', '\n'])

def quote : Pattern := char '"'

/-- Characters of a string up to its closing quote; a backslash takes the next character along. -/
def stringItems : Pattern :=
  star (alt (one (.except ['"', '\\'])) (.seq (char '\\') (one anyChar)))

def stringAfter (pre : List Char) : Pattern := chain [literal pre, quote, stringItems, quote]

def hashes : Pattern := star (char '#')

def rawStringOpening (pre : List Char) : Pattern := chain [literal pre, hashes, quote]

def operators : List (List Char) :=
  [[';'], [','], ['.'], ['.', '.'], ['.', '.', '.'], ['.', '.', '='], ['@'], ['#'], ['~'], ['?'],
   [':'], [':', ':'], ['$'], ['='], ['=', '='], ['=', '>'], ['!'], ['!', '='], ['<'], ['<', '='],
   ['<', '<'], ['<', '<', '='], ['>'], ['>', '='], ['>', '>'], ['>', '>', '='], ['-'], ['-', '='],
   ['-', '>'], ['&'], ['&', '&'], ['&', '='], ['|'], ['|', '|'], ['|', '='], ['+'], ['+', '='],
   ['*'], ['*', '='], ['/'], ['/', '='], ['^'], ['^', '='], ['%'], ['%', '=']]

def bracketRule (kind : Bracket → Kind) (text : Bracket → Char) (b : Bracket) : Rule :=
  { kind := kind b, pattern := char (text b) }

def declared : List Rule :=
  [{ kind := .whitespace, pattern := plus (oneOf [' ', '\t', '\r', '\n', '\x0c', '\x0b']) },
   { kind := .lineComment, pattern := .seq (literal ['/', '/']) (star (one notNewline)) },
   { kind := .blockComment, pattern := literal ['/', '*'], tail := .comment },
   { kind := .ident, pattern := name },
   { kind := .ident, pattern := .seq (literal ['r', '#']) name },
   { kind := .lifetime, pattern := .seq (char '\'') name },
   { kind := .floatNumber, pattern := chain [digits, exponent, opt suffix] },
   { kind := .intNumber, pattern := .seq digits (opt suffix) },
   { kind := .char, pattern := chain
      [char '\'', choice [quotedChar, anyCharEscape, byteEscape, unicodeEscape], char '\''] },
   { kind := .byte, pattern := chain
      [literal ['b', '\''], choice [quotedChar, anyCharEscape, byteEscape], char '\''] },
   { kind := .str, pattern := stringAfter [] },
   { kind := .byteStr, pattern := stringAfter ['b'] },
   { kind := .cStr, pattern := stringAfter ['c'] },
   { kind := .rawStr, pattern := rawStringOpening ['r'], tail := .rawString },
   { kind := .rawByteStr, pattern := rawStringOpening ['b', 'r'], tail := .rawString },
   { kind := .rawCStr, pattern := rawStringOpening ['c', 'r'], tail := .rawString },
   bracketRule .opening Bracket.openChar .paren,
   bracketRule .closing Bracket.closeChar .paren,
   bracketRule .opening Bracket.openChar .brace,
   bracketRule .closing Bracket.closeChar .brace,
   bracketRule .opening Bracket.openChar .square,
   bracketRule .closing Bracket.closeChar .square,
   { kind := .punct, pattern := choice (operators.map literal) },
   { kind := .unknown, pattern := one notNewline }]

/-- Broken forms: a string without its closing quote, the opening of a raw string without its
quote, and a Unicode escape that no character literal completes. -/
def malformed : List Rule :=
  [{ kind := .unknown,
     pattern := chain [opt (oneOf ['b', 'c']), quote, stringItems] },
   { kind := .unknown, pattern := .seq (literal ['r', '#']) (plus (char '#')) },
   { kind := .unknown, pattern := chain [oneOf ['b', 'c'], char 'r', plus (char '#')] },
   { kind := .unknown, pattern := .seq (char '\'') unicodeDigits }]

def rules : List Rule := declared ++ malformed

end Grammar

end MacroBridge
