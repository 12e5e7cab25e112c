/-!
UTF-8: writing characters as bytes, and reading bytes with the place and length of the first fault.
-/
namespace MacroBridge.Utf8

/-- The bytes of a character. -/
def encodeChar (c : Char) : List UInt8 :=
  let n := c.toNat
  if n < 0x80 then [n.toUInt8]
  else if n < 0x800 then [(0xC0 + n / 0x40).toUInt8, (0x80 + n % 0x40).toUInt8]
  else if n < 0x10000 then
    [(0xE0 + n / 0x1000).toUInt8, (0x80 + n / 0x40 % 0x40).toUInt8, (0x80 + n % 0x40).toUInt8]
  else
    [(0xF0 + n / 0x40000).toUInt8, (0x80 + n / 0x1000 % 0x40).toUInt8,
      (0x80 + n / 0x40 % 0x40).toUInt8, (0x80 + n % 0x40).toUInt8]

def encode (s : List Char) : List UInt8 := s.flatMap encodeChar

def charLength (c : Char) : Nat :=
  let n := c.toNat
  if n < 0x80 then 1 else if n < 0x800 then 2 else if n < 0x10000 then 3 else 4

/-- Number of bytes of a text. -/
def byteLength (s : List Char) : Nat := s.foldl (fun n c => n + charLength c) 0

/-- Where reading stopped: the bytes before it, and how many bytes are wrong, `none` if the input
ends inside a character. -/
structure Fault where
  index : Nat
  length : Option Nat
  deriving DecidableEq, Repr

def Fault.message (f : Fault) : String :=
  match f.length with
  | some n => s!"invalid utf-8 sequence of {n} bytes from index {f.index}"
  | none => s!"incomplete utf-8 byte sequence from index {f.index}"

def isContinuation (b : UInt8) : Bool := 0x80 ≤ b && b < 0xC0

/-- Bytes of a character by its first byte, 0 for a byte that begins none. -/
def width (b : UInt8) : Nat :=
  if b < 0x80 then 1
  else if b < 0xC2 then 0
  else if b < 0xE0 then 2
  else if b < 0xF0 then 3
  else if b < 0xF5 then 4
  else 0

/-- Which second bytes follow the first byte of a character of three or four bytes; the others
would spell a surrogate, a code point above the last, or one that fits in fewer bytes. -/
def isSecond (b second : UInt8) : Bool :=
  if b = 0xE0 then 0xA0 ≤ second && second < 0xC0
  else if b = 0xED then 0x80 ≤ second && second < 0xA0
  else if b = 0xF0 then 0x90 ≤ second && second < 0xC0
  else if b = 0xF4 then 0x80 ≤ second && second < 0x90
  else isContinuation second

def low (b : UInt8) : Nat := b.toNat % 0x40

/-- Reads `bytes` after `index` bytes that held the characters of `done`, last first. -/
def decodeFrom (index : Nat) (done : List Char) : List UInt8 → Except Fault (List Char)
  | [] => .ok done.reverse
  | b :: s =>
      match width b with
      | 1 => decodeFrom (index + 1) (Char.ofNat b.toNat :: done) s
      | 2 =>
          match s with
          | [] => .error ⟨index, none⟩
          | b₂ :: s =>
              if !isContinuation b₂ then .error ⟨index, some 1⟩
              else decodeFrom (index + 2) (Char.ofNat (b.toNat % 0x20 * 0x40 + low b₂) :: done) s
      | 3 =>
          match s with
          | [] => .error ⟨index, none⟩
          | b₂ :: s =>
              if !isSecond b b₂ then .error ⟨index, some 1⟩
              else
                match s with
                | [] => .error ⟨index, none⟩
                | b₃ :: s =>
                    if !isContinuation b₃ then .error ⟨index, some 2⟩
                    else
                      decodeFrom (index + 3)
                        (Char.ofNat (b.toNat % 0x10 * 0x1000 + low b₂ * 0x40 + low b₃) :: done) s
      | 4 =>
          match s with
          | [] => .error ⟨index, none⟩
          | b₂ :: s =>
              if !isSecond b b₂ then .error ⟨index, some 1⟩
              else
                match s with
                | [] => .error ⟨index, none⟩
                | b₃ :: s =>
                    if !isContinuation b₃ then .error ⟨index, some 2⟩
                    else
                      match s with
                      | [] => .error ⟨index, none⟩
                      | b₄ :: s =>
                          if !isContinuation b₄ then .error ⟨index, some 3⟩
                          else
                            decodeFrom (index + 4)
                              (Char.ofNat (b.toNat % 8 * 0x40000 + low b₂ * 0x1000 + low b₃ * 0x40
                                + low b₄) :: done) s
      | _ => .error ⟨index, some 1⟩

/-- The characters of `bytes`. -/
def decode (bytes : List UInt8) : Except Fault (List Char) := decodeFrom 0 [] bytes

end MacroBridge.Utf8
