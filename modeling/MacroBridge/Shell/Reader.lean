import MacroBridge.Shell.Syntax
import MacroBridge.Text.Scan

/-! Reading scripts. The number that most functions take bounds how deep constructs stand in each
other. -/
namespace MacroBridge.Shell
open Scan

def isBlank (c : Char) : Bool := c == ' ' || c == '\t'

/-- Characters that end an unquoted word. -/
def isMeta (c : Char) : Bool := isBlank c || ['\n', ';', '&', '|', '<', '>', '(', ')'].contains c

def isNameStart (c : Char) : Bool := c.isAlpha || c == '_'

def isNameChar (c : Char) : Bool := c.isAlphanum || c == '_'

/-- Reads blanks, joined lines, and a comment if one follows. -/
def blanks : Scan Unit :=
  iterate (fun _ => do
    let skipped ← run isBlank
    if ← accept ['\\', '\n'] then return .inl ()
    if (← peek) == some '#' then
      let _ ← run (· != '\n')
    return if skipped.isEmpty then .inr () else .inl ()) ()

/-- Reads blanks, comments and empty lines. -/
def emptyLines : Scan Unit :=
  iterate (fun _ => do
    blanks
    return if ← accept ['\n'] then .inl () else .inr ()) ()

/-- Whether a reserved word comes next. -/
def isNext (reserved : List Char) : Scan Bool := do
  let s ← get
  return reserved.isPrefixOf s && (s.drop reserved.length).head?.all isMeta

/-- Reads a reserved word, if it comes next. -/
def acceptWord (reserved : String) : Scan Bool := do
  let found ← isNext reserved.toList
  if found then
    let _ ← accept reserved.toList
  return found

def expectWord (reserved : String) : Scan Unit := do guard (← acceptWord reserved)

/-- Words that end a list of commands. -/
def closers : List String := ["then", "elif", "else", "fi", "do", "done", "esac", "\x7d"]

/-- Reads a name, if one comes next. -/
def name : Scan (List Char) := do
  if (← peek).any isNameStart then run isNameChar else return []

/-- Reads the name of a parameter: a variable, a digit, or one of the special characters. -/
def parameterName : Scan (List Char) := do
  let c ← peek
  if c.any isNameStart then run isNameChar
  else if c.any Char.isDigit then return [← next]
  else if c.any ['@', '*', '#', '?', '$', '!', '-'].contains then return [← next]
  else return []

/-- The separators of a fallback word. -/
def fallbacks : List (Char × Fallback) :=
  [('-', .default), ('=', .assign), ('+', .alternative), ('?', .require)]

/-- Reads the start of a redirection: its descriptor and operator. -/
def redirectStart : Scan (Option (Nat × List Char)) := do
  let s ← get
  let digits := s.takeWhile Char.isDigit
  let rest := s.drop digits.length
  let operators := [['<', '<', '-'], ['<', '<'], ['<', '&'], ['>', '>'], ['>', '&'], ['>', '|'],
    ['<'], ['>']]
  match operators.find? (·.isPrefixOf rest) with
  | none => return none
  | some operator =>
      set (rest.drop operator.length)
      let usual := if operator.head? = some '<' then 0 else 1
      let number := digits.foldl (fun n c => n * 10 + (c.toNat - '0'.toNat)) 0
      return some (if digits.isEmpty then usual else number, operator)

/-- Takes the lines of a document up to `delimiter` from behind the line that is being read. -/
def documentText (delimiter : List Char) (dropsTabs : Bool) : Scan (List Char) := do
  let s ← get
  let line := s.takeWhile (· != '\n')
  let rec split (taken : List Char) : Nat → List Char → List Char × List Char
    | 0, s => (taken, s)
    | _, [] => (taken, [])
    | n + 1, s =>
        let s := if dropsTabs then s.dropWhile (· == '\t') else s
        let current := s.takeWhile (· != '\n')
        let rest := s.drop (current.length + 1)
        if current = delimiter then (taken, rest) else split (taken ++ current ++ ['\n']) n rest
  let (text, rest) := split [] (s.length + 1) (s.drop (line.length + 1))
  set (line ++ '\n' :: rest)
  return text

mutual

/-- Reads what follows a dollar sign. -/
def dollar : Nat → (isQuoted : Bool) → Scan Part
  | 0, _ => failure
  | n + 1, isQuoted => do
      if ← accept ['(', '('] then
        let body ← quotedUntil n [')', ')'] []
        return .arithmetic isQuoted body
      else if ← accept ['('] then
        let body ← commands n
        emptyLines
        expect [')']
        return .output isQuoted body
      else if ← accept ['\x7b'] then
        let (name, change) ← braced n isQuoted
        return .parameter isQuoted name change
      else
        let name ← parameterName
        return if name.isEmpty then .text isQuoted ['$'] else .parameter isQuoted name .plain

/-- Reads a parameter and its change, up to the closing brace. -/
def braced : Nat → (isQuoted : Bool) → Scan (List Char × Change)
  | 0, _ => failure
  | n + 1, isQuoted => do
      let isLength := match ← get with
        | '#' :: c :: _ => !(['#', '%', ':', '-', '=', '+', '?', '\x7d'].contains c)
        | _ => false
      if isLength then
        let _ ← next
        let name ← parameterName
        expect ['\x7d']
        return (name, .length)
      let name ← parameterName
      guard !name.isEmpty
      let trim? : Option Trim ← do
        if ← accept ['#', '#'] then pure (some ⟨true, true⟩)
        else if ← accept ['#'] then pure (some ⟨true, false⟩)
        else if ← accept ['%', '%'] then pure (some ⟨false, true⟩)
        else if ← accept ['%'] then pure (some ⟨false, false⟩)
        else pure none
      let change ← match trim? with
        | some t => do pure (Change.trim t (← wordUntil n isQuoted (some '\x7d')))
        | none => do
            let emptyIsMissing ← accept [':']
            match (← peek).bind (fallbacks.lookup ·) with
            | some f =>
                let _ ← next
                pure (Change.fallback f emptyIsMissing (← wordUntil n isQuoted (some '\x7d')))
            | none =>
                guard !emptyIsMissing
                pure Change.plain
      expect ['\x7d']
      return (name, change)

/-- Reads text in which only dollar signs, backquotes and backslashes have a meaning, up to
`close`. -/
def quotedUntil : Nat → (close : List Char) → (special : List Char) → Scan (List Part)
  | 0, _, _ => failure
  | n + 1, close, special =>
      iterate (fun (parts : List Part) => do
        if close.isEmpty && (← get).isEmpty then return .inr parts.reverse
        if !close.isEmpty && (← accept close) then return .inr parts.reverse
        match ← next with
        | '$' => return .inl ((← dollar n true) :: parts)
        | '`' => return .inl ((← backquoted n true) :: parts)
        | '\\' =>
            if ← accept ['\n'] then return .inl parts
            if (← peek).any (['$', '`', '\\'] ++ special).contains then
              return .inl (.text true [← next] :: parts)
            return .inl (.text true ['\\'] :: parts)
        | c => return .inl (.text true [c] :: parts)) [.text true []]

/-- Reads commands between backquotes, whose first has been read. -/
def backquoted : Nat → (isQuoted : Bool) → Scan Part
  | 0, _ => failure
  | n + 1, isQuoted => do
      let text ← run (· != '`')
      expect ['`']
      let after ← get
      set text
      let body ← commands n
      emptyLines
      guard (← get).isEmpty
      set after
      return .output isQuoted body

/-- Reads a word up to a character that ends it: `close`, or else one that no word holds. -/
def wordUntil : Nat → (isQuoted : Bool) → (close : Option Char) → Scan (List Part)
  | 0, _, _ => failure
  | n + 1, isQuoted, close =>
      iterate (fun (parts : List Part) => do
        match ← peek with
        | none => return .inr parts.reverse
        | some c =>
            if (match close with | some e => c == e | none => isMeta c) then
              return .inr parts.reverse
            let c ← next
            match c with
            | '\'' =>
                if isQuoted then return .inl (.text true ['\''] :: parts)
                let text ← run (· != '\'')
                expect ['\'']
                return .inl (.text true text :: parts)
            | '"' => return .inl ((← quotedUntil n ['"'] ['"']).reverse ++ parts)
            | '\\' =>
                if ← accept ['\n'] then return .inl parts
                if (← peek).isNone then return .inl (.text true ['\\'] :: parts)
                return .inl (.text true [← next] :: parts)
            | '$' => return .inl ((← dollar n isQuoted) :: parts)
            | '`' => return .inl ((← backquoted n isQuoted) :: parts)
            | c => return .inl (.text isQuoted [c] :: parts)) []

def word : Nat → Scan Word
  | 0 => failure
  | n + 1 => wordUntil n false none

/-- Reads a redirection, if one comes next. -/
def redirect : Nat → Scan (Option Redirect)
  | 0 => failure
  | n + 1 => do
      let some (fd, operator) ← redirectStart | return none
      blanks
      let start ← get
      let w ← word n
      guard !w.isEmpty
      match operator with
      | ['<'] => return some (.source fd w)
      | ['<', '&'] | ['>', '&'] => return some (.copy fd w)
      | '<' :: '<' :: dash =>
          let raw := start.take (start.length - (← get).length)
          let isLiteral := raw.any ['\'', '"', '\\'].contains
          let text ← documentText (raw.filter fun c =>
              !(['\'', '"', '\\'].contains c)) !dash.isEmpty
          if isLiteral then return some (.document fd [.text true text])
          let after ← get
          set text
          let body ← quotedUntil n [] []
          set after
          return some (.document fd body)
      | _ => return some (.sink fd w)

def redirects : Nat → Scan (List Redirect)
  | 0 => failure
  | n + 1 =>
      iterate (fun (done : List Redirect) => do
        blanks
        match ← redirect n with
        | some r => return .inl (r :: done)
        | none => return .inr done.reverse) []

/-- Reads an assignment, if one comes next. -/
def assignment : Nat → Scan (Option (List Char × Word))
  | 0 => failure
  | n + 1 => do
      let start ← get
      let target ← name
      if target.isEmpty || !(← accept ['=']) then
        set start
        return none
      return some (target, ← word n)

/-- Reads a command without reserved words. -/
def simple : Nat → Scan Command
  | 0 => failure
  | n + 1 =>
      iterate (fun (state : List (List Char × Word) × List Word × List Redirect) => do
        let (assignments, words, rs) := state
        blanks
        if let some r ← redirect n then return .inl (assignments, words, r :: rs)
        if (← peek).all isMeta then
          guard !(assignments.isEmpty && words.isEmpty && rs.isEmpty)
          return .inr (.simple assignments.reverse words.reverse rs.reverse)
        if words.isEmpty then
          if let some a ← assignment n then return .inl (a :: assignments, words, rs)
        return .inl (assignments, (← word n) :: words, rs)) ([], [], [])

/-- Reads the rest of a branch from its first test on. -/
def branches : Nat → Scan (List Command × List Command × List Command)
  | 0 => failure
  | n + 1 => do
      let test ← block n
      expectWord "then"
      let yes ← block n
      if ← acceptWord "elif" then
        let (test', yes', no') ← branches n
        return (test, yes, [.branch test' yes' no' []])
      let no ← if ← acceptWord "else" then block n else pure []
      expectWord "fi"
      return (test, yes, no)

/-- Reads the arms of a choice and the word that ends them. -/
def arms : Nat → Scan (List (List Word × List Command))
  | 0 => failure
  | n + 1 =>
      iterate (fun (done : List (List Word × List Command)) => do
        emptyLines
        if ← acceptWord "esac" then return .inr done.reverse
        let _ ← accept ['(']
        let patterns ← iterate (fun (patterns : List Word) => do
          blanks
          let p ← word n
          blanks
          return if ← accept ['|'] then .inl (p :: patterns) else .inr (p :: patterns).reverse) []
        expect [')']
        let body ← commands n
        emptyLines
        if ← accept [';', ';'] then return .inl ((patterns, body) :: done)
        expectWord "esac"
        return .inr ((patterns, body) :: done).reverse) []

/-- Reads the words of a loop over them, if they are given. -/
def eachWords : Nat → Scan (Option (List Word))
  | 0 => failure
  | n + 1 => do
      emptyLines
      if !(← acceptWord "in") then return none
      let words ← iterate (fun (words : List Word) => do
        blanks
        if (← peek).all isMeta then return .inr words.reverse
        return .inl ((← word n) :: words)) []
      return some words

def command : Nat → Scan Command
  | 0 => failure
  | n + 1 => do
      if ← acceptWord "if" then
        let (test, yes, no) ← branches n
        return .branch test yes no (← redirects n)
      else if ← acceptWord "while" then
        let (test, body) ← loopParts n
        return .loop false test body (← redirects n)
      else if ← acceptWord "until" then
        let (test, body) ← loopParts n
        return .loop true test body (← redirects n)
      else if ← acceptWord "for" then
        blanks
        let target ← name
        guard !target.isEmpty
        blanks
        let words ← eachWords n
        blanks
        let _ ← accept [';']
        emptyLines
        expectWord "do"
        let body ← block n
        expectWord "done"
        return .each target words body (← redirects n)
      else if ← acceptWord "case" then
        blanks
        let w ← word n
        emptyLines
        expectWord "in"
        let found ← arms n
        return .choice w found (← redirects n)
      else if ← acceptWord "\x7b" then
        let body ← block n
        expectWord "\x7d"
        return .group body (← redirects n)
      else if ← accept ['('] then
        let body ← block n
        expect [')']
        return .subshell body (← redirects n)
      else
        let start ← get
        let target ← name
        blanks
        let isDefinition ← if target.isEmpty then pure false else accept ['(']
        if isDefinition then
          blanks
          expect [')']
          emptyLines
          return .define target (← command n)
        set start
        simple n

/-- Reads the test and the body of a loop. -/
def loopParts : Nat → Scan (List Command × List Command)
  | 0 => failure
  | n + 1 => do
      let test ← block n
      expectWord "do"
      let body ← block n
      expectWord "done"
      return (test, body)

def pipeline : Nat → Scan Command
  | 0 => failure
  | n + 1 => do
      let isNegated ← acceptWord "!"
      blanks
      let first ← command n
      let whole ← iterate (fun (c : Command) => do
        blanks
        let isPipe := match ← get with
          | '|' :: d :: _ => d != '|'
          | _ => false
        if !isPipe then return .inr c
        let _ ← next
        emptyLines
        return .inl (.pipe c (← command n))) first
      return if isNegated then .negate whole else whole

/-- Reads pipelines that depend on the success or failure of those before them. -/
def conditional : Nat → Scan Command
  | 0 => failure
  | n + 1 => do
      let first ← pipeline n
      iterate (fun (c : Command) => do
        blanks
        if ← accept ['&', '&'] then
          emptyLines
          return .inl (.both c (← pipeline n))
        else if ← accept ['|', '|'] then
          emptyLines
          return .inl (.either c (← pipeline n))
        else return .inr c) first

/-- Reads commands up to something that cannot start one. -/
def commands : Nat → Scan (List Command)
  | 0 => failure
  | n + 1 =>
      iterate (fun (done : List Command) => do
        emptyLines
        let s ← get
        let isClosed := s.head?.all [')', ';'].contains ||
          (← closers.anyM fun w => isNext w.toList)
        if isClosed then return .inr done.reverse
        let c ← conditional n
        blanks
        let isSeparated ← match ← get with
          | ';' :: ';' :: _ => pure false
          | ';' :: _ | '\n' :: _ | '&' :: _ => do
              let _ ← next
              pure true
          | _ => pure false
        return if isSeparated then .inl (c :: done) else .inr (c :: done).reverse) []

/-- Reads at least one command and the empty lines after it. -/
def block : Nat → Scan (List Command)
  | 0 => failure
  | n + 1 => do
      let body ← commands n
      emptyLines
      guard !body.isEmpty
      return body

end

/-- Bound on how deep the constructs of a script stand in each other. -/
def maxDepth : Nat := 400

/-- Reads the commands of the next line that has any. There are none at the end of the script. -/
def nextLine : Scan (List Command) := do
  emptyLines
  if (← get).isEmpty then return []
  iterate (fun (done : List Command) => do
    let c ← conditional maxDepth
    blanks
    match ← get with
    | [] => return .inr (c :: done).reverse
    | '\n' :: s =>
        set s
        return .inr (c :: done).reverse
    | ';' :: ';' :: _ => failure
    | ';' :: s | '&' :: s =>
        set s
        blanks
        match ← get with
        | [] | '\n' :: _ => return .inr (c :: done).reverse
        | _ => return .inl (c :: done)
    | _ => failure) []

end MacroBridge.Shell
