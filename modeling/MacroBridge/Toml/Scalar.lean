import MacroBridge.Toml.Value

/-! Values written as one word: booleans, numbers, dates and times. -/
namespace MacroBridge.Toml

def digitValue (c : Char) : Option Nat :=
  if c.isDigit then some (c.toNat - '0'.toNat)
  else if 'a' ≤ c && c ≤ 'f' then some (c.toNat - 'a'.toNat + 10)
  else if 'A' ≤ c && c ≤ 'F' then some (c.toNat - 'A'.toNat + 10)
  else none

/-- The number that digits of a base write. -/
def ofDigits (base : Nat) (digits : List Char) : Option Nat :=
  digits.foldlM (fun n c => do
    let d ← digitValue c
    if d < base then some (n * base + d) else none) 0

/-- A digit string without the underscores that stand between two of its digits. -/
def ungroup : List Char → Option (List Char)
  | [] => none
  | c :: '_' :: s => if (digitValue c).isSome then (ungroup s).map (c :: ·) else none
  | [c] => if (digitValue c).isSome then some [c] else none
  | c :: s => if (digitValue c).isSome then (ungroup s).map (c :: ·) else none

def grouped (base : Nat) (s : List Char) : Option Nat := do ofDigits base (← ungroup s)

/-- A decimal number, which starts with no zero that could be left out. -/
def decimal (s : List Char) : Option Nat :=
  match s with
  | '0' :: _ :: _ => none
  | s => grouped 10 s

/-- The sign in front of a number and what follows it. -/
def splitSign : List Char → Bool × List Char
  | '-' :: s => (true, s)
  | '+' :: s => (false, s)
  | s => (false, s)

def integer (s : List Char) : Option Int :=
  match s with
  | '0' :: 'x' :: digits => (grouped 16 digits).map Int.ofNat
  | '0' :: 'o' :: digits => (grouped 8 digits).map Int.ofNat
  | '0' :: 'b' :: digits => (grouped 2 digits).map Int.ofNat
  | s =>
      let (isNegative, digits) := splitSign s
      (decimal digits).map fun n => if isNegative then -(n : Int) else n

/-- Whether a word is a number with a fraction, an exponent or both, or one of the two that have no
digits. -/
def isFloat (s : List Char) : Bool :=
  let (_, s) := splitSign s
  if s == ['i', 'n', 'f'] || s == ['n', 'a', 'n'] then true
  else
    let isMarker (c : Char) : Bool := c == 'e' || c == 'E'
    let (mantissa, exponent) := s.span (!isMarker ·)
    let (whole, fraction) := mantissa.span (· != '.')
    let areDigits (s : List Char) : Bool := (grouped 10 s).isSome
    (decimal whole).isSome && (fraction.isEmpty || areDigits fraction.tail) &&
      (exponent.isEmpty || areDigits (splitSign exponent.tail).2) &&
      !(fraction.isEmpty && exponent.isEmpty)

/-! ### Dates and times -/

def daysIn (year month : Nat) : Nat :=
  if month == 2 then
    if year % 4 == 0 && (year % 100 != 0 || year % 400 == 0) then 29 else 28
  else if [4, 6, 9, 11].contains month then 30
  else 31

/-- A date and what follows it. -/
def splitDate : List Char → Option (List Char × List Char)
  | y₁ :: y₂ :: y₃ :: y₄ :: '-' :: m₁ :: m₂ :: '-' :: d₁ :: d₂ :: s => do
      let year ← ofDigits 10 [y₁, y₂, y₃, y₄]
      let month ← ofDigits 10 [m₁, m₂]
      let day ← ofDigits 10 [d₁, d₂]
      guard (1 ≤ month && month ≤ 12 && 1 ≤ day && day ≤ daysIn year month)
      return ([y₁, y₂, y₃, y₄, '-', m₁, m₂, '-', d₁, d₂], s)
  | _ => none

/-- The fraction of a second up to its last digit that matters, and what follows it. -/
def splitFraction : List Char → Option (List Char × List Char)
  | '.' :: s => do
      let (digits, s) := s.span Char.isDigit
      guard !digits.isEmpty
      let shown := ((digits.take 9).reverse.dropWhile (· == '0')).reverse
      return (if shown.isEmpty then [] else '.' :: shown, s)
  | s => some ([], s)

/-- A time of day and what follows it. -/
def splitTime : List Char → Option (List Char × List Char)
  | h₁ :: h₂ :: ':' :: m₁ :: m₂ :: ':' :: s₁ :: s₂ :: s => do
      let hour ← ofDigits 10 [h₁, h₂]
      let minute ← ofDigits 10 [m₁, m₂]
      let second ← ofDigits 10 [s₁, s₂]
      guard (hour ≤ 23 && minute ≤ 59 && second ≤ 60)
      let (fraction, s) ← splitFraction s
      return ([h₁, h₂, ':', m₁, m₂, ':', s₁, s₂] ++ fraction, s)
  | _ => none

/-- The distance of a clock from universal time. -/
def offset : List Char → Option (List Char)
  | [] => some []
  | ['z'] | ['Z'] => some ['Z']
  | [sign, h₁, h₂, ':', m₁, m₂] => do
      let hour ← ofDigits 10 [h₁, h₂]
      let minute ← ofDigits 10 [m₁, m₂]
      guard ((sign == '+' || sign == '-') && hour ≤ 23 && minute ≤ 59)
      return [sign, h₁, h₂, ':', m₁, m₂]
  | _ => none

/-- The usual spelling of a date, a time, or a date with a time and perhaps an offset. -/
def moment (s : List Char) : Option (List Char) :=
  match splitDate s with
  | some (date, []) => some date
  | some (date, separator :: s) => do
      guard ([' ', 't', 'T'].contains separator)
      let (time, s) ← splitTime s
      return date ++ 'T' :: time ++ (← offset s)
  | none => do
      let (time, s) ← splitTime s
      guard s.isEmpty
      return time

/-- Whether a number is in the range of the integers of 128 bits, with or without a sign. -/
def isRepresentable (n : Int) : Bool :=
  -170141183460469231731687303715884105728 ≤ n && n ≤ 340282366920938463463374607431768211455

/-- The value that a word stands for. -/
def scalar (s : List Char) : Option Value :=
  if s == ['t', 'r', 'u', 'e'] then some (.boolean true)
  else if s == ['f', 'a', 'l', 's', 'e'] then some (.boolean false)
  else
    match integer s with
    | some n => if isRepresentable n then some (.integer n) else none
    | none =>
        if isFloat s then some .float
        else (moment s).map fun text => .moment (String.ofList text)

end MacroBridge.Toml
