import MacroBridge.Toml.Layout
import MacroBridge.Toml.Scalar

/-! Reading a TOML document as a table. -/
namespace MacroBridge.Toml
open Scan

/-! ### Strings -/

/-- Reads a character given by its code in `size` digits. -/
def codedChar (size : Nat) : Scan Char := do
  let s ← get
  let some n := ofDigits 16 (s.take size) | failure
  guard (size ≤ s.length && n.isValidChar)
  set (s.drop size)
  return Char.ofNat n

/-- Reads what follows the backslash of an escape. -/
def escaped : Scan Char := do
  match ← next with
  | 'b' => return '\x08'
  | 't' => return '\t'
  | 'n' => return '\n'
  | 'f' => return '\x0c'
  | 'r' => return '\r'
  | '"' => return '"'
  | '\\' => return '\\'
  | 'u' => codedChar 4
  | 'U' => codedChar 8
  | _ => failure

/-- Reads a line break behind a backslash and all white space and line breaks after it, if the rest
of the line is blank. -/
def foldedBreak : Scan Bool := do
  let s ← get
  blank
  if ← lineBreak then
    iterate (fun _ => do
      blank
      return if ← lineBreak then .inl () else .inr ()) ()
    return true
  set s
  return false

/-- Reads a quoted string of one line, whose opening quote has been read. -/
def lineString (quote : Char) (hasEscapes : Bool) : Scan (List Char) :=
  iterate (fun (done : List Char) => do
    let c ← next
    if c = quote then return .inr done.reverse
    else if hasEscapes && c = '\\' then return .inl ((← escaped) :: done)
    else
      guard (isText c)
      return .inl (c :: done)) []

/-- Reads a string of several lines, whose three opening quotes have been read. Up to two more
quotes may stand directly before the three that close it. -/
def blockString (quote : Char) (hasEscapes : Bool) : Scan (List Char) := do
  let _ ← lineBreak
  let close := List.replicate 3 quote
  iterate (fun (done : List Char) => do
    if ← accept close then
      let extra := ((← get).take 2).takeWhile (· = quote)
      set ((← get).drop extra.length)
      return .inr (done.reverse ++ extra)
    else if ← lineBreak then return .inl ('\n' :: done)
    else
      let c ← next
      if hasEscapes && c = '\\' then
        if ← foldedBreak then return .inl done
        return .inl ((← escaped) :: done)
      guard (isText c)
      return .inl (c :: done)) []

/-- Reads a string of any form, if one comes next. -/
def quoted : Scan (Option String) := do
  let first ← peek
  let kinds := [('"', true), ('\'', false)]
  let some (quote, hasEscapes) := kinds.find? (some ·.1 == first) | return none
  let text ←
    if ← accept (List.replicate 3 quote) then blockString quote hasEscapes
    else do
      expect [quote]
      lineString quote hasEscapes
  return some (String.ofList text)

/-! ### Keys -/

def isKeyChar (c : Char) : Bool := c.isAlphanum || c == '_' || c == '-'

def keyPart : Scan String := do
  match ← peek with
  | some '"' => expect ['"']; return String.ofList (← lineString '"' true)
  | some '\'' => expect ['\'']; return String.ofList (← lineString '\'' false)
  | _ =>
      let name ← run isKeyChar
      guard !name.isEmpty
      return String.ofList name

/-- Reads a key of one or more parts with dots between them, and the blanks around it. -/
def key : Scan (List String × String) :=
  iterate (fun (path : List String) => do
    blank
    let part ← keyPart
    blank
    return if ← accept ['.'] then .inl (path ++ [part]) else .inr (path, part)) []

/-! ### Values -/

def isWordChar (c : Char) : Bool := isKeyChar c || c == '+' || c == '.' || c == ':'

/-- Reads a value without quotes or brackets. One space may part a date from a time. -/
def word : Scan Value := do
  let first ← run isWordChar
  let isDate := match splitDate first with
    | some (_, []) => true
    | _ => false
  let text ← match isDate, ← get with
    | true, ' ' :: c :: s =>
        if c.isDigit then do
          set (c :: s)
          pure (first ++ ' ' :: (← run isWordChar))
        else pure first
    | _, _ => pure first
  let some v := scalar text | failure
  return v

/-- Reads a value in which at most `depth` arrays and inline tables stand one inside another. -/
def value : (depth : Nat) → Scan Value
  | 0 => do
      if let some text ← quoted then return .string text
      word
  | depth + 1 => do
      if let some text ← quoted then return .string text
      if ← accept ['['] then
        iterate (fun (items : List Value) => do
          layout
          if ← accept [']'] then return .inr (.array items.reverse)
          let item ← value depth
          layout
          if ← accept [','] then return .inl (item :: items)
          expect [']']
          return .inr (.array (item :: items).reverse)) []
      else if ← accept ['\x7b'] then
        blank
        if ← accept ['\x7d'] then return .table .inlined []
        iterate (fun (es : Entries) => do
          let (path, name) ← key
          expect ['=']
          blank
          let some es := es.addDotted path name (← value depth) | failure
          blank
          if ← accept [','] then return .inl es
          expect ['\x7d']
          return .inr (.table .inlined es)) []
      else word

/-- The most arrays and inline tables that may stand one inside another. -/
def maxDepth : Nat := 80

/-! ### Lines -/

/-- A document read so far: its table, and the path of the last header. -/
structure Draft where
  root : Entries := []
  current : List String := []

/-- Reads one line, or a key-value pair of several. -/
def line (doc : Draft) : Scan Draft := do
  blank
  match ← peek with
  | some '[' =>
      expect ['[']
      let isElement ← accept ['[']
      let (path, name) ← key
      expect (if isElement then [']', ']'] else [']'])
      endOfLine
      let opened := if isElement then doc.root.openElement path name
        else doc.root.openTable path name
      let some root := opened | failure
      return ⟨root, path ++ [name]⟩
  | none | some '#' | some '\n' | some '\r' =>
      endOfLine
      return doc
  | some _ =>
      let (path, name) ← key
      expect ['=']
      blank
      let v ← value maxDepth
      endOfLine
      let some root := doc.root.change (·.addDotted path name v) doc.current | failure
      return { doc with root }

/-- Reads lines to the end of the text. -/
def lines : Scan Entries := do
  let _ ← accept [Char.ofNat 0xFEFF]
  iterate (fun (doc : Draft) => do
    if (← get).isEmpty then return .inr doc.root
    return .inl (← line doc)) {}

/-- The table that a text writes, if it is well-formed. -/
def parse (text : List Char) : Option Entries := (StateT.run lines text).map (·.1)

end MacroBridge.Toml
