/-! Integer expressions of the shell. -/
namespace MacroBridge.Shell.Arithmetic

inductive Token
  | number (n : Int)
  | name (s : List Char)
  | operator (s : List Char)
  deriving DecidableEq, Repr

def operators : List (List Char) :=
  ["&&", "||", "==", "!=", "<=", ">=", "<", ">", "+", "-", "*", "/", "%", "(", ")",
    "!"].map String.toList

/-- The tokens of an expression. -/
def tokens : (size : Nat) → List Char → Option (List Token)
  | _, [] => some []
  | 0, _ => none
  | n + 1, c :: s =>
      if c.isWhitespace then tokens n s
      else if c.isDigit then
        let digits := (c :: s).takeWhile Char.isDigit
        let value := digits.foldl (fun v d => v * 10 + (d.toNat - '0'.toNat)) 0
        (tokens n ((c :: s).drop digits.length)).map (.number value :: ·)
      else if c.isAlpha || c == '_' then
        let name := (c :: s).takeWhile fun d => d.isAlphanum || d == '_'
        (tokens n ((c :: s).drop name.length)).map (.name name :: ·)
      else do
        let operator ← operators.find? (·.isPrefixOf (c :: s))
        (tokens n ((c :: s).drop operator.length)).map (.operator operator :: ·)

/-- How strongly a binary operator binds. -/
def strength (operator : List Char) : Option Nat :=
  [("||", 1), ("&&", 2), ("==", 3), ("!=", 3), ("<", 4), ("<=", 4), (">", 4), (">=", 4), ("+", 5),
   ("-", 5), ("*", 6), ("/", 6), ("%", 6)].lookup (String.ofList operator)

def ofBool (b : Bool) : Int := if b then 1 else 0

def apply (operator : String) (a b : Int) : Option Int :=
  match operator with
  | "+" => some (a + b)
  | "-" => some (a - b)
  | "*" => some (a * b)
  | "/" => if b = 0 then none else some (a.tdiv b)
  | "%" => if b = 0 then none else some (a.tmod b)
  | "==" => some (ofBool (a = b))
  | "!=" => some (ofBool (a ≠ b))
  | "<" => some (ofBool (a < b))
  | "<=" => some (ofBool (a ≤ b))
  | ">" => some (ofBool (a > b))
  | ">=" => some (ofBool (a ≥ b))
  | "&&" => some (ofBool (a ≠ 0 && b ≠ 0))
  | "||" => some (ofBool (a ≠ 0 || b ≠ 0))
  | _ => none

mutual

/-- The value of an operand at the front, and what follows it. -/
def operand (value : List Char → Option Int) :
    (fuel : Nat) → List Token → Option (Int × List Token)
  | 0, _ => none
  | n + 1, .operator ['-'] :: s => do
      let (a, s) ← operand value n s
      return (-a, s)
  | n + 1, .operator ['+'] :: s => operand value n s
  | n + 1, .operator ['!'] :: s => do
      let (a, s) ← operand value n s
      return (ofBool (a = 0), s)
  | n + 1, .operator ['('] :: s => do
      let (a, s) ← expression value n 1 s
      match s with
      | .operator [')'] :: s => return (a, s)
      | _ => failure
  | _, .number a :: s => some (a, s)
  | _, .name x :: s => do return (← value x, s)
  | _, _ => none

/-- The value of an expression at the front whose operators bind at least as strongly as
`least`. -/
def expression (value : List Char → Option Int) :
    (fuel : Nat) → (least : Nat) → List Token → Option (Int × List Token)
  | 0, _, _ => none
  | n + 1, least, s => do
      let (a, s) ← operand value n s
      continued value n least a s

/-- The value of an expression whose first operand has the value `a`. -/
def continued (value : List Char → Option Int) :
    (fuel : Nat) → (least : Nat) → Int → List Token → Option (Int × List Token)
  | 0, _, _, _ => none
  | n + 1, least, a, s =>
      match s with
      | .operator o :: t =>
          match strength o with
          | some k =>
              if least ≤ k then do
                let (b, t) ← expression value n (k + 1) t
                continued value n least (← apply (String.ofList o) a b) t
              else some (a, s)
          | none => some (a, s)
      | _ => some (a, s)

end

/-- The value of a whole expression, in which an empty text is zero. -/
def evaluate (value : List Char → Option Int) (s : List Char) : Option Int := do
  let ts ← tokens s.length s
  if ts.isEmpty then return 0
  match ← expression value (4 * ts.length + 4) 1 ts with
  | (a, []) => return a
  | _ => failure

end MacroBridge.Shell.Arithmetic
