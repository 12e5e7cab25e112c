/-! Escapes and formats of the shell's own output commands. -/
namespace MacroBridge.Shell

def isOctal (c : Char) : Bool := '0' ≤ c && c ≤ '7'

def ofOctal (digits : List Char) : Char :=
  Char.ofNat (digits.foldl (fun n c => n * 8 + (c.toNat - '0'.toNat)) 0 % 256)

def simpleEscapes : List (Char × Char) :=
  [('\\', '\\'), ('a', '\x07'), ('b', '\x08'), ('f', '\x0c'), ('n', '\n'),
    ('r', '\r'), ('t', '\t'),
   ('v', '\x0b')]

/-- The character of an escape, whose backslash has been read, and what follows it. A backslash in
front of any other character stands for itself. -/
def escape (s : List Char) : Char × List Char :=
  let digits := (s.take 3).takeWhile isOctal
  if !digits.isEmpty then (ofOctal digits, s.drop digits.length)
  else
    match s with
    | c :: t =>
        match simpleEscapes.lookup c with
        | some d => (d, t)
        | none => ('\\', s)
    | [] => ('\\', [])

/-- Replaces escapes in a text, and tells whether one of them ends all output. Octal codes start
with an extra zero. -/
def unescape : (size : Nat) → List Char → List Char × Bool
  | _, [] => ([], false)
  | 0, s => (s, false)
  | _, '\\' :: 'c' :: _ => ([], true)
  | n + 1, '\\' :: '0' :: s =>
      let digits := (s.take 3).takeWhile isOctal
      let (rest, isLast) := unescape n (s.drop digits.length)
      (ofOctal digits :: rest, isLast)
  | n + 1, '\\' :: s =>
      let (c, s) := escape s
      let (rest, isLast) := unescape n s
      (c :: rest, isLast)
  | n + 1, c :: s =>
      let (rest, isLast) := unescape n s
      (c :: rest, isLast)

/-- Output of `echo`. -/
def echoed (words : List (List Char)) : List Char :=
  let (words, hasBreak) := match words with
    | ['-', 'n'] :: ws => (ws, false)
    | ws => (ws, true)
  let text := List.intercalate [' '] words
  let (shown, isLast) := unescape text.length text
  if hasBreak && !isLast then shown ++ ['\n'] else shown

/-- A number as written in decimal. -/
def number (s : List Char) : Option Int :=
  let digits (s : List Char) : Option Int :=
    if !s.isEmpty && s.all Char.isDigit then
      some (s.foldl (fun n c => n * 10 + (c.toNat - '0'.toNat : Nat)) 0)
    else none
  match s.dropWhile Char.isWhitespace with
  | '-' :: t => (digits t).map (- ·)
  | '+' :: t => digits t
  | t => digits t

/-- How a conversion is set: flags, least width, and precision. -/
structure Layout where
  isLeft : Bool := false
  hasZeros : Bool := false
  width : Nat := 0
  precision : Option Nat := none

namespace Layout

def digitsOf (s : List Char) : Nat := s.foldl (fun n c => n * 10 + (c.toNat - '0'.toNat)) 0

/-- Reads flags, width and precision. -/
def read (s : List Char) : Layout × List Char :=
  let flags := s.takeWhile ['-', '+', ' ', '#', '0'].contains
  let s := s.drop flags.length
  let width := s.takeWhile Char.isDigit
  let s := s.drop width.length
  let (precision, s) := match s with
    | '.' :: t =>
        let digits := t.takeWhile Char.isDigit
        (some (digitsOf digits), t.drop digits.length)
    | t => (none, t)
  (⟨flags.contains '-', flags.contains '0', digitsOf width, precision⟩, s)

def pad (l : Layout) (s : List Char) : List Char :=
  let missing := l.width - s.length
  if l.isLeft then s ++ List.replicate missing ' ' else List.replicate missing ' ' ++ s

def text (l : Layout) (s : List Char) : List Char :=
  l.pad (match l.precision with
    | some n => s.take n
    | none => s)

def integer (l : Layout) (base : Nat) (isUpper : Bool) (n : Int) : List Char :=
  let digits := Nat.toDigits base n.natAbs
  let digits := if isUpper then digits.map Char.toUpper else digits
  let sign := if n < 0 then ['-'] else []
  let least := match l.precision with
    | some n => n
    | none => if l.hasZeros && !l.isLeft then l.width - sign.length else 0
  l.pad (sign ++ List.replicate (least - digits.length) '0' ++ digits)

end Layout

/-- What a run over a format gives. -/
structure Printed where
  /-- The last character first. -/
  text : List Char := []
  arguments : List (List Char)
  /-- Every number was well-formed. -/
  isSound : Bool := true
  /-- Some conversion has taken an argument. -/
  hasTaken : Bool := false
  isLast : Bool := false

/-- Runs over a format once. Missing arguments are empty, or zero. -/
def printOnce : (size : Nat) → (format : List Char) → Printed → Printed
  | 0, _, p | _, [], p => p
  | n + 1, '\\' :: s, p =>
      let (c, s) := escape s
      printOnce n s { p with text := c :: p.text }
  | n + 1, '%' :: '%' :: s, p => printOnce n s { p with text := '%' :: p.text }
  | n + 1, '%' :: s, p =>
      let (layout, s) := Layout.read s
      let argument := p.arguments.headD []
      let p' := { p with arguments := p.arguments.tail, hasTaken := true }
      let numeral (base : Nat) (isUpper : Bool) : Printed :=
        let value := if argument.isEmpty then some 0 else number argument
        { p' with
          text := (layout.integer base isUpper (value.getD 0)).reverse ++ p.text
          isSound := p.isSound && value.isSome }
      match s with
      | 's' :: s => printOnce n s { p' with text := (layout.text argument).reverse ++ p.text }
      | 'c' :: s =>
        printOnce n s { p' with text := (layout.pad (argument.take 1)).reverse ++ p.text }
      | 'b' :: s =>
          let (shown, isLast) := unescape argument.length argument
          let p' := { p' with text := (layout.text shown).reverse ++ p.text }
          if isLast then { p' with isLast := true } else printOnce n s p'
      | 'd' :: s | 'i' :: s | 'u' :: s => printOnce n s (numeral 10 false)
      | 'x' :: s => printOnce n s (numeral 16 false)
      | 'X' :: s => printOnce n s (numeral 16 true)
      | 'o' :: s => printOnce n s (numeral 8 false)
      | _ => { p with isSound := false, isLast := true }
  | n + 1, c :: s, p => printOnce n s { p with text := c :: p.text }

/-- Runs over a format until it has taken all arguments. -/
def printRounds (format : List Char) : (rounds : Nat) → Printed → Printed
  | 0, p => p
  | n + 1, p =>
      let p := printOnce format.length format { p with hasTaken := false }
      if p.isLast || !p.hasTaken || p.arguments.isEmpty then p else printRounds format n p

/-- Output of `printf`, and whether all went well. -/
def printed (format : List Char) (arguments : List (List Char)) : List Char × Bool :=
  let p := printRounds format (arguments.length + 1) { arguments }
  (p.text.reverse, p.isSound)

end MacroBridge.Shell
