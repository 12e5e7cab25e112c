/-! The three bracket pairs that group tokens. -/
namespace MacroBridge

inductive Bracket
  | paren
  | brace
  | square
  deriving DecidableEq, Repr

namespace Bracket

def openChar : Bracket → Char
  | paren => '('
  | brace => '{'
  | square => '['

def closeChar : Bracket → Char
  | paren => ')'
  | brace => '}'
  | square => ']'

end Bracket

end MacroBridge
