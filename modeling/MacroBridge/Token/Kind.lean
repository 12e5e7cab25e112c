import MacroBridge.Bracket

/-! Kinds of raw tokens, whitespace and comments included. -/
namespace MacroBridge

inductive Kind
  | whitespace
  | lineComment
  | blockComment
  | ident
  | lifetime
  | intNumber
  | floatNumber
  | char
  | byte
  | str
  | byteStr
  | cStr
  | rawStr
  | rawByteStr
  | rawCStr
  | opening (bracket : Bracket)
  | closing (bracket : Bracket)
  | punct
  | unknown
  deriving DecidableEq, Repr

namespace Kind

/-- Tokens that separate others and mean nothing themselves. -/
def isTrivia : Kind → Bool
  | whitespace | lineComment | blockComment => true
  | _ => false

def isLiteral : Kind → Bool
  | intNumber | floatNumber | char | byte | str | byteStr | cStr | rawStr | rawByteStr
  | rawCStr => true
  | _ => false

/-- Identifiers, raw identifiers and keywords. -/
def isIdent : Kind → Bool
  | ident => true
  | _ => false

def isOpening : Kind → Bool
  | opening _ => true
  | _ => false

/-- The kind that closes an opening bracket. -/
def closer : Kind → Option Kind
  | opening b => some (closing b)
  | _ => none

end Kind

end MacroBridge
