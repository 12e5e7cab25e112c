import MacroBridge.Text.Utf8

/-!
Reading JSON straight into values of known types.

A decoder takes the bytes from its value on and gives the value and the bytes after it. It fails in
one of two ways: the bytes end inside the value, or they are wrong, whatever may follow them. The
first wrong byte decides, and a byte of the wrong type is found before the value it begins has
ended.
-/
namespace MacroBridge.Json

inductive Fault
  | incomplete
  | malformed
  deriving DecidableEq, Repr

/-- What is left to a decoder: how many containers may still open, one inside the other, and how
many items a loop may take. The second is set to the number of bytes and never runs out before they
do. -/
structure Limits where
  nesting : Nat
  items : Nat

def Decoder (α : Type) := Limits → List UInt8 → Except Fault (α × List UInt8)

/-- Containers that may be open at once. -/
def maxNesting : Nat := 127

def byte (c : Char) : UInt8 := c.toNat.toUInt8

def isSpace (b : UInt8) : Bool :=
  b == byte ' ' || b == byte '\t' || b == byte '\n' || b == byte '\r'

def isDigit (b : UInt8) : Bool := byte '0' ≤ b && b ≤ byte '9'

def skipSpace (s : List UInt8) : List UInt8 := s.dropWhile isSpace

/-- Reads the bytes of `word`. -/
def expect : (word : List UInt8) → List UInt8 → Except Fault (Unit × List UInt8)
  | [], s => .ok ((), s)
  | _ :: _, [] => .error .incomplete
  | w :: ws, b :: s => if b = w then expect ws s else .error .malformed

def expectText (word : String) (s : List UInt8) : Except Fault (Unit × List UInt8) :=
  expect (word.toList.map byte) s

/-! ### Numbers -/

/-- Numbers are told apart only as far as the values here need: those without sign, point and
exponent, and all others. -/
inductive Number
  | natural (n : Nat)
  | other
  deriving DecidableEq, Repr

/-- Takes digits onto `n`. -/
def digits (n : Nat) : List UInt8 → Nat × List UInt8
  | [] => (n, [])
  | b :: s => if isDigit b then digits (n * 10 + (b - byte '0').toNat) s else (n, b :: s)

/-- Takes at least one digit. -/
def someDigits : List UInt8 → Except Fault (Unit × List UInt8)
  | [] => .error .incomplete
  | b :: s => if isDigit b then .ok ((), (digits 0 s).2) else .error .malformed

def exponentDigits : List UInt8 → Except Fault (Unit × List UInt8)
  | [] => .error .incomplete
  | b :: s => if b = byte '+' || b = byte '-' then someDigits s else someDigits (b :: s)

/-- The exponent after the digits that gave `n`, if there is one. -/
def exponent (n : Number) : List UInt8 → Except Fault (Number × List UInt8)
  | [] => .ok (n, [])
  | b :: s =>
      if b = byte 'e' || b = byte 'E' then
        match exponentDigits s with
        | .error e => .error e
        | .ok (_, s) => .ok (.other, s)
      else .ok (n, b :: s)

/-- Fraction and exponent after the whole part. -/
def fraction (n : Number) : List UInt8 → Except Fault (Number × List UInt8)
  | [] => .ok (n, [])
  | b :: s =>
      if b = byte '.' then
        match someDigits s with
        | .error e => .error e
        | .ok (_, s) => exponent .other s
      else exponent n (b :: s)

/-- The number after its sign. A zero stands alone before the point. -/
def unsigned (sign : Nat → Number) : List UInt8 → Except Fault (Number × List UInt8)
  | [] => .error .incomplete
  | b :: s =>
      if b = byte '0' then
        if s.head?.any isDigit then .error .malformed else fraction (sign 0) s
      else if isDigit b then
        let (n, s) := digits 0 (b :: s)
        fraction (sign n) s
      else .error .malformed

/-- A number; `s` starts with a digit or a minus sign. -/
def number (s : List UInt8) : Except Fault (Number × List UInt8) :=
  match s with
  | [] => .error .incomplete
  | b :: rest => if b = byte '-' then unsigned (fun _ => .other) rest else unsigned .natural s

/-! ### Strings -/

def hexValue (b : UInt8) : Option Nat :=
  if isDigit b then some (b - byte '0').toNat
  else if byte 'a' ≤ b && b ≤ byte 'f' then some ((b - byte 'a').toNat + 10)
  else if byte 'A' ≤ b && b ≤ byte 'F' then some ((b - byte 'A').toNat + 10)
  else none

/-- The value of four hexadecimal digits. -/
def hexFour (a b c d : UInt8) : Option Nat := do
  let a ← hexValue a
  let b ← hexValue b
  let c ← hexValue c
  let d ← hexValue d
  return ((a * 16 + b) * 16 + c) * 16 + d

def isHighSurrogate (n : Nat) : Bool := 0xD800 ≤ n && n < 0xDC00

def isLowSurrogate (n : Nat) : Bool := 0xDC00 ≤ n && n < 0xE000

/-- The byte that a one-letter escape stands for. -/
def simpleEscape (b : UInt8) : Option UInt8 :=
  if b = byte '"' || b = byte '\\' || b = byte '/' then some b
  else if b = byte 'b' then some 8
  else if b = byte 'f' then some 12
  else if b = byte 'n' then some 10
  else if b = byte 'r' then some 13
  else if b = byte 't' then some 9
  else none

/-- The bytes of a character given by its number, in front of `done`, last first. -/
def pushCode (n : Nat) (done : List UInt8) : List UInt8 :=
  (Utf8.encodeChar (Char.ofNat n)).reverseAux done

/-- The bytes of a string after its opening quote, with escapes resolved. -/
def stringBytes (done : List UInt8) : List UInt8 → Except Fault (List UInt8 × List UInt8)
  | [] => .error .incomplete
  | b :: s =>
      if b = byte '"' then .ok (done.reverse, s)
      else if b < 0x20 then .error .malformed
      else if b = byte '\\' then
        match s with
        | [] => .error .incomplete
        | e :: s =>
            if e = byte 'u' then
              match s with
              | h₁ :: h₂ :: h₃ :: h₄ :: s =>
                  match hexFour h₁ h₂ h₃ h₄ with
                  | none => .error .malformed
                  | some n =>
                      if isLowSurrogate n then .error .malformed
                      else if isHighSurrogate n then
                        match s with
                        | [] => .error .incomplete
                        | x :: s =>
                            if x = byte '\\' then
                              match s with
                              | [] => .error .incomplete
                              | y :: s =>
                                  if y = byte 'u' then
                                    match s with
                                    | l₁ :: l₂ :: l₃ :: l₄ :: s =>
                                        match hexFour l₁ l₂ l₃ l₄ with
                                        | none => .error .malformed
                                        | some m =>
                                            if isLowSurrogate m then
                                              stringBytes
                                                (pushCode
                                                  (0x10000 + (n - 0xD800) * 0x400 +
                                                    (m - 0xDC00)) done) s
                                            else .error .malformed
                                    | _ => .error .incomplete
                                  else .error .malformed
                            else .error .malformed
                      else stringBytes (pushCode n done) s
              | _ => .error .incomplete
            else
              match simpleEscape e with
              | some x => stringBytes (x :: done) s
              | none => .error .malformed
      else stringBytes (b :: done) s

/-- The text of a string after its opening quote. -/
def stringText (s : List UInt8) : Except Fault (String × List UInt8) :=
  match stringBytes [] s with
  | .error e => .error e
  | .ok (bytes, s) =>
      match Utf8.decode bytes with
      | .ok text => .ok (String.ofList text, s)
      | .error _ => .error .malformed

/-- Passes over a string after its opening quote. What its escapes stand for does not matter. -/
def skipString : List UInt8 → Except Fault (List UInt8)
  | [] => .error .incomplete
  | b :: s =>
      if b = byte '"' then .ok s
      else if b < 0x20 then .error .malformed
      else if b = byte '\\' then
        match s with
        | [] => .error .incomplete
        | e :: s =>
            if e = byte 'u' then
              match s with
              | h₁ :: h₂ :: h₃ :: h₄ :: s =>
                  match hexFour h₁ h₂ h₃ h₄ with
                  | none => .error .malformed
                  | some _ => skipString s
              | _ => .error .incomplete
            else
              match simpleEscape e with
              | some _ => skipString s
              | none => .error .malformed
      else skipString s

/-! ### Values of no interest -/

/-- Where a pass over a value stands. -/
inductive SkipMode
  | value
  | key
  | after
  deriving DecidableEq

/-- The rest after a scalar that starts with `b`, which a container or string does not. -/
def skipScalar (b : UInt8) (s : List UInt8) : Except Fault (List UInt8) :=
  let rest (p : Except Fault (Unit × List UInt8)) : Except Fault (List UInt8) := p.map Prod.snd
  if b = byte 'n' then rest (expectText "null" s)
  else if b = byte 't' then rest (expectText "true" s)
  else if b = byte 'f' then rest (expectText "false" s)
  else if b = byte '-' || isDigit b then (number s).map Prod.snd
  else .error .malformed

/-- Passes over a value of any depth. `frames` holds the closing bytes of the open containers. -/
def skip : (items : Nat) → SkipMode → (frames : List UInt8) → List UInt8 →
    Except Fault (List UInt8)
  | 0, _, _, _ => .error .malformed
  | items + 1, mode, frames, s =>
      match mode, frames with
      | .after, [] => .ok s
      | .after, close :: frames =>
          match skipSpace s with
          | [] => .error .incomplete
          | b :: s =>
              if b = byte ',' then
                skip items (if close = byte '\x7d' then .key else .value) (close :: frames) s
              else if b = close then skip items .after frames s
              else .error .malformed
      | .key, frames =>
          match skipSpace s with
          | [] => .error .incomplete
          | b :: s =>
              if b = byte '"' then
                match skipString s with
                | .error e => .error e
                | .ok s =>
                    match skipSpace s with
                    | [] => .error .incomplete
                    | b :: s =>
                      if b = byte ':' then skip items .value frames s else .error .malformed
              else .error .malformed
      | .value, frames =>
          match skipSpace s with
          | [] => .error .incomplete
          | b :: s =>
              if b = byte '[' || b = byte '\x7b' then
                let close := if b = byte '[' then byte ']' else byte '\x7d'
                match skipSpace s with
                | [] => .error .incomplete
                | b' :: s' =>
                    if b' = close then skip items .after frames s'
                    else
                      skip items (if b = byte '[' then .value else .key)
                        (close :: frames) (b' :: s')
              else if b = byte '"' then
                match skipString s with
                | .error e => .error e
                | .ok s => skip items .after frames s
              else
                match skipScalar b (b :: s) with
                | .error e => .error e
                | .ok s => skip items .after frames s

/-! ### Decoders -/

/-- The fault of a value of the wrong type, which starts with `b`. It is read as far as its own
type needs. -/
def reject (b : UInt8) (s : List UInt8) : Fault :=
  if b = byte '"' then
    match stringText s with
    | .error e => e
    | .ok _ => .malformed
  else
    match skipScalar b (b :: s) with
    | .error e => e
    | .ok _ => .malformed

namespace Decoder

def map {α β : Type} (f : α → β) (d : Decoder α) : Decoder β := fun limits s => do
  let (a, s) ← d limits s
  return (f a, s)

/-- A value on which `f` is defined. -/
def refine {α β : Type} (f : α → Option β) (d : Decoder α) : Decoder β := fun limits s => do
  let (a, s) ← d limits s
  match f a with
  | some b => return (b, s)
  | none => throw .malformed

/-- Fails on any value. -/
def never {α : Type} : Decoder α := fun _ _ => .error .malformed

/-- A number without sign, point and exponent that is at most `bound`. -/
def natural (bound : Nat) : Decoder Nat := fun _ s =>
  match skipSpace s with
  | [] => .error .incomplete
  | b :: s =>
      if b = byte '-' || isDigit b then
        match number (b :: s) with
        | .error e => .error e
        | .ok (.natural n, s) => if n ≤ bound then .ok (n, s) else .error .malformed
        | .ok (.other, _) => .error .malformed
      else .error (reject b s)

def string : Decoder String := fun _ s =>
  match skipSpace s with
  | [] => .error .incomplete
  | b :: s => if b = byte '"' then stringText s else .error (reject b s)

/-- A string of one character. -/
def char : Decoder Char :=
  refine (fun text => match text.toList with | [c] => some c | _ => none) string

def null : Decoder Unit := fun _ s =>
  match skipSpace s with
  | [] => .error .incomplete
  | b :: s => if b = byte 'n' then expectText "ull" s else .error (reject b s)

/-- `null`, or a value. -/
def option {α : Type} (d : Decoder α) : Decoder (Option α) := fun limits s =>
  match skipSpace s with
  | [] => .error .incomplete
  | b :: s =>
      if b = byte 'n' then do
        let (_, s) ← expectText "ull" s
        return (none, s)
      else d.map some limits (b :: s)

/-- Reads the one byte `c`, which closes a container or stands between a key and its value. -/
def close (c : Char) (s : List UInt8) : Except Fault (Unit × List UInt8) :=
  match skipSpace s with
  | [] => .error .incomplete
  | b :: s => if b = byte c then .ok ((), s) else .error .malformed

/-- A container between two bytes, with one level of nesting less for what it holds. -/
def container {α : Type} (first last : Char) (body : Decoder α) : Decoder α := fun limits s =>
  match skipSpace s with
  | [] => .error .incomplete
  | b :: s =>
      if b = byte first then
        match limits.nesting with
        | 0 => .error .malformed
        | n + 1 => do
            let (a, s) ← body { limits with nesting := n } s
            let (_, s) ← close last s
            return (a, s)
      else .error (reject b s)

/-- Where the next element of an array starts, `none` before its end. -/
def nextElement (isFirst : Bool) (s : List UInt8) : Except Fault (Option (List UInt8)) :=
  match skipSpace s with
  | [] => .error .incomplete
  | b :: s =>
      if b = byte ']' then .ok none
      else if isFirst then .ok (some (b :: s))
      else if b = byte ',' then
        match skipSpace s with
        | [] => .error .incomplete
        | b :: s => if b = byte ']' then .error .malformed else .ok (some (b :: s))
      else .error .malformed

/-- The elements of an array behind those of `done`, last first. -/
def elements {α : Type} (d : Decoder α) (limits : Limits) :
    (items : Nat) → (isFirst : Bool) → (done : List α) → List UInt8 →
      Except Fault (List α × List UInt8)
  | 0, _, _, _ => .error .malformed
  | items + 1, isFirst, done, s => do
      match ← nextElement isFirst s with
      | none => return (done.reverse, s)
      | some s =>
          let (a, s) ← d limits s
          elements d limits items false (a :: done) s

def list {α : Type} (d : Decoder α) : Decoder (List α) :=
  container '[' ']' fun limits s => elements d limits limits.items true [] s

/-- The next element, which must be there. -/
def element {α : Type} (isFirst : Bool) (d : Decoder α) : Decoder α := fun limits s => do
  match ← nextElement isFirst s with
  | none => throw .malformed
  | some s => d limits s

/-- An array of exactly two. -/
def pair {α β : Type} (da : Decoder α) (db : Decoder β) : Decoder (α × β) :=
  container '[' ']' fun limits s => do
    let (a, s) ← element true da limits s
    let (b, s) ← element false db limits s
    return ((a, b), s)

/-- The next key of an object and the bytes after its colon, `none` before the end. A key that
`isWrong` holds for is malformed whatever follows it. -/
def nextKey (isFirst : Bool) (isWrong : String → Bool) (s : List UInt8) :
    Except Fault (Option (String × List UInt8)) :=
  let key (s : List UInt8) : Except Fault (Option (String × List UInt8)) := do
    let (name, s) ← stringText s
    if isWrong name then throw .malformed
    let (_, s) ← close ':' s
    return some (name, s)
  match skipSpace s with
  | [] => .error .incomplete
  | b :: s =>
      if b = byte '\x7d' then .ok none
      else if isFirst then
        if b = byte '"' then key s else .error .malformed
      else if b = byte ',' then
        match skipSpace s with
        | [] => .error .incomplete
        | b :: s => if b = byte '"' then key s else .error .malformed
      else .error .malformed

/-- A member of a record type: `σ` collects what has been read so far. -/
structure Field (σ : Type) where
  name : String
  isRead : σ → Bool
  read : σ → Decoder σ

/-- A field that is stored by `put` in a record where `get` finds it. -/
def field {σ β : Type} (name : String) (get : σ → Option β) (put : σ → β → σ) (d : Decoder β) :
    Field σ where
  name := name
  isRead r := (get r).isSome
  read r := d.map (put r)

def findField {σ : Type} (fields : List (Field σ)) (name : String) : Option (Field σ) :=
  fields.find? (·.name == name)

/-- The members of an object in any order. Unknown keys are passed over; a known key stands
once. -/
def members {σ : Type} (fields : List (Field σ)) (limits : Limits) :
    (items : Nat) → (isFirst : Bool) → σ → List UInt8 → Except Fault (σ × List UInt8)
  | 0, _, _, _ => .error .malformed
  | items + 1, isFirst, r, s => do
      match ← nextKey isFirst (fun name => (findField fields name).any (·.isRead r)) s with
      | none => return (r, s)
      | some (name, s) =>
          match findField fields name with
          | some f =>
              let (r, s) ← f.read r limits s
              members fields limits items false r s
          | none =>
              let s ← skip limits.items .value [] s
              members fields limits items false r s

/-- The fields in order as elements of an array. `mayEnd` says whether the last ones may be
missing. -/
def ordered {σ : Type} (mayEnd : Bool) (limits : Limits) :
    (fields : List (Field σ)) → (isFirst : Bool) → σ → List UInt8 → Except Fault (σ × List UInt8)
  | [], _, r, s => .ok (r, s)
  | f :: fields, isFirst, r, s => do
      match ← nextElement isFirst s with
      | none => if mayEnd then return (r, s) else throw .malformed
      | some s =>
          let (r, s) ← f.read r limits s
          ordered mayEnd limits fields false r s

/-- A record: an object, or an array of its fields. `finish` fails if a field is missing. -/
def record {σ α : Type} (fields : List (Field σ)) (start : σ) (finish : σ → Option α)
    (mayEnd : Bool := false) : Decoder α :=
  refine finish fun limits s =>
    if (skipSpace s).head? = some (byte '[') then
      container '[' ']' (fun limits s => ordered mayEnd limits fields true start s) limits s
    else
      container '\x7b' '\x7d'
        (fun limits s => members fields limits limits.items true start s) limits s

/-- Members of an object whose keys are data, in order of appearance. -/
def entries {α : Type} (d : Decoder α) (limits : Limits) :
    (items : Nat) → (isFirst : Bool) → (done : List (String × α)) → List UInt8 →
      Except Fault (List (String × α) × List UInt8)
  | 0, _, _, _ => .error .malformed
  | items + 1, isFirst, done, s => do
      match ← nextKey isFirst (fun _ => false) s with
      | none => return (done.reverse, s)
      | some (name, s) =>
          let (a, s) ← d limits s
          entries d limits items false ((name, a) :: done) s

def object {α : Type} (d : Decoder α) : Decoder (List (String × α)) :=
  container '\x7b' '\x7d' fun limits s => entries d limits limits.items true [] s

/-- One way to make a value of a sum type: a bare name, or a name with a value. -/
inductive Case (α : Type)
  | bare (value : α)
  | carrying (d : Decoder α)

/-- The value of a case after its name and colon. -/
def Case.payload {α : Type} : Case α → Decoder α
  | bare a => null.map fun _ => a
  | carrying d => d

/-- The only key of the object that stands for a case, and its value. -/
def caseBody {α : Type} (cases : List (String × Case α)) : Decoder α := fun limits s => do
  let (name, s) ← string limits s
  match cases.lookup name with
  | none => throw .malformed
  | some c =>
      let (_, s) ← close ':' s
      c.payload limits s

/-- A sum type: an object with the name of a case as its only key, or for a bare case its name
alone. -/
def oneOf {α : Type} (cases : List (String × Case α)) : Decoder α := fun limits s =>
  match skipSpace s with
  | [] => .error .incomplete
  | b :: s =>
      if b = byte '\x7b' then container '\x7b' '\x7d' (caseBody cases) limits (b :: s)
      else if b = byte '"' then do
        let (name, s) ← stringText s
        match cases.lookup name with
        | some (.bare a) => return (a, s)
        | _ => throw .malformed
      else .error .malformed

end Decoder

/-- What the bytes received so far begin with. -/
inductive Attempt (α : Type)
  | blank
  | value (a : α) (rest : List UInt8)
  | incomplete
  | malformed

/-- Whether a value that starts with `b` shows its own end. -/
def showsItsEnd (b : UInt8) : Bool := b == byte '[' || b == byte '\x7b' || b == byte '"'

/-- Bytes that may stand right after a number or a word. -/
def mayFollow (b : UInt8) : Bool :=
  isSpace b || b == byte '"' || b == byte '[' || b == byte ']' || b == byte '\x7b' ||
    b == byte '\x7d' || b == byte ',' || b == byte ':'

def limitsFor (s : List UInt8) : Limits := ⟨maxNesting, s.length + 1⟩

/-- Decodes the first value of `s`, after white space. -/
def decodeFirst {α : Type} (d : Decoder α) (s : List UInt8) : Attempt α :=
  match skipSpace s with
  | [] => .blank
  | b :: t =>
      match d (limitsFor s) (b :: t) with
      | .error .incomplete => .incomplete
      | .error .malformed => .malformed
      | .ok (a, rest) =>
          if showsItsEnd b || rest.head?.all mayFollow then .value a rest else .malformed

/-- Decodes a text that is one value. -/
def decodeWhole {α : Type} (d : Decoder α) (s : List UInt8) : Except Fault α :=
  match d (limitsFor s) s with
  | .error e => .error e
  | .ok (a, rest) => if (skipSpace rest).isEmpty then .ok a else .error .malformed

end MacroBridge.Json
