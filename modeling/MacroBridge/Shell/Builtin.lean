import MacroBridge.Shell.Field
import MacroBridge.Shell.Format
import MacroBridge.Shell.State

/-! Commands that run no other commands. Each gives its exit status. -/
namespace MacroBridge.Shell.Run

def ofBool (b : Bool) : Nat := if b then 0 else 1

/-- Whether something stands at a path that every system has. -/
def stands (path : List Char) : Bool :=
  ["/", "/dev/null", "/tmp", "/etc", "/bin", "/usr", "/dev", "/etc/passwd",
    "/bin/sh", "."].contains
    (String.ofList path)

def isFolder (path : List Char) : Bool :=
  stands path && !(["/dev/null", "/etc/passwd", "/bin/sh"].contains (String.ofList path))

def compare (operator : List Char) (a b : List Char) : Option Bool :=
  let numbers (f : Int → Int → Bool) : Option Bool := do return f (← number a) (← number b)
  match String.ofList operator with
  | "=" | "==" => some (a = b)
  | "!=" => some (a ≠ b)
  | "-eq" => numbers fun a b => a = b
  | "-ne" => numbers fun a b => a ≠ b
  | "-lt" => numbers fun a b => a < b
  | "-le" => numbers fun a b => a ≤ b
  | "-gt" => numbers fun a b => a > b
  | "-ge" => numbers fun a b => a ≥ b
  | _ => none

/-- The truth of a test, `none` if it is malformed. -/
def holds : (size : Nat) → List (List Char) → Option Bool
  | 0, _ => none
  | _, [] => some false
  | _, [a] => some !a.isEmpty
  | n + 1, ['!'] :: rest => (holds n rest).map (!·)
  | n + 1, [flag, a] =>
      match String.ofList flag with
      | "-n" => some !a.isEmpty
      | "-z" => some a.isEmpty
      | "-e" | "-r" | "-w" => some (stands a)
      | "-d" | "-x" => some (isFolder a)
      | "-f" => some (a == "/etc/passwd".toList)
      | "-s" | "-t" | "-L" | "-h" | "-p" => some false
      | _ => junction n [flag, a]
  | n + 1, [a, operator, b] =>
      match compare operator a b with
      | some r => some r
      | none => junction n [a, operator, b]
  | n + 1, words => junction n words
where
  /-- Tests joined by `or`, and those by `and`. -/
  junction (n : Nat) (words : List (List Char)) : Option Bool :=
    let split (mark : String) : Option (List (List Char) × List (List Char)) :=
      match words.span (· != mark.toList) with
      | (a, _ :: b) => some (a, b)
      | _ => none
    match n, split "-o", split "-a" with
    | n + 1, some (a, b), _ => do return (← holds n a) || (← holds n b)
    | n + 1, none, some (a, b) => do return (← holds n a) && (← holds n b)
    | _, _, _ => none

def test (words : List (List Char)) : Nat :=
  match holds (2 * words.length + 2) words with
  | some b => ofBool b
  | none => 2

def fieldSeparators : Run (List Char) := do return (← lookup? "IFS".toList).getD " \t\n".toList

def echo (words : List (List Char)) : Run Nat := do return ofBool (← write 1 (echoed words))

def printf (words : List (List Char)) : Run Nat := do
  let words := if words.head? = some ['-', '-'] then words.tail else words
  match words with
  | [] => return 2
  | format :: arguments =>
      let (text, isSound) := printed format arguments
      let isWritten ← write 1 text
      return ofBool (isSound && isWritten)

/-- Takes lines as long as each ends in a backslash that is not itself behind one. -/
def readJoined : (lines : Nat) → List Char → Run (List Char × Bool)
  | 0, done => return (done, false)
  | n + 1, done => do
      let (text, isWhole) ← readTo 0 (· == '\n')
      let line := if isWhole then text.dropLast else text
      let slashes := (line.reverse.takeWhile (· == '\\')).length
      if isWhole && slashes % 2 = 1 then readJoined n (done ++ line.dropLast)
      else return (done ++ line, isWhole)

/-- Text without the backslashes that stand before other characters. -/
def withoutSlashes : List Char → List Char
  | '\\' :: c :: s => c :: withoutSlashes s
  | c :: s => c :: withoutSlashes s
  | [] => []

def read (words : List (List Char)) : Run Nat := do
  let flags := words.takeWhile fun w => w.head? = some '-'
  let names := words.drop flags.length
  if names.isEmpty then return 2
  let isRaw := flags.any (·.contains 'r')
  let (text, isWhole) ←
    if isRaw then do
      let (text, isWhole) ← readTo 0 (· == '\n')
      pure (if isWhole then text.dropLast else text, isWhole)
    else readJoined 10000 []
  let shares := shareLine (← fieldSeparators) names.length text
  for (name, value) in names.zip shares do
    setVariable name (if isRaw then value else withoutSlashes value)
  return ofBool isWhole

/-- Passes on what descriptor 0 gives, line by line. -/
def copyLines : (count : Nat) → Run Nat
  | 0 => return 0
  | n + 1 => do
      let (text, isWhole) ← readTo 0 (· == '\n')
      if !(← write 1 text) then return 1
      if isWhole then copyLines n else return 0

def cat (words : List (List Char)) : Run Nat := do
  let files := words.filter fun w => w != ['-', 'u']
  let mut status := 0
  for file in if files.isEmpty then [['-']] else files do
    if file = ['-'] || file = "/dev/stdin".toList then
      if (← copyLines ((← get).input.length + 1)) != 0 then status := 1
    else if file != "/dev/null".toList then status := 1
  return status

def copyBytes : (count : Nat) → Run Nat
  | 0 => return 0
  | n + 1 => do
      let (text, isWhole) ← readTo 0 (fun _ => true)
      if !(← write 1 text) then return 1
      if isWhole then copyBytes n else return 0

/-- Passes on lines or bytes from the front of descriptor 0. -/
def headOf (words : List (List Char)) : Run Nat := do
  let count (digits : List Char) : Nat := ((number digits).getD 0).toNat
  match words with
  | [] => copyLines 10
  | ['-', 'n'] :: k :: _ => copyLines (count k)
  | ['-', 'c'] :: k :: _ => copyBytes (count k)
  | ('-' :: 'n' :: k) :: _ => copyLines (count k)
  | ('-' :: 'c' :: k) :: _ => copyBytes (count k)
  | ('-' :: k) :: _ => copyLines (count k)
  | _ => return 1

/-- A span of time in milliseconds, `none` if it is malformed. -/
def spanOf (s : List Char) : Option Nat := do
  let whole := s.takeWhile Char.isDigit
  let rest := s.drop whole.length
  let (fraction, unit) := match rest with
    | '.' :: t => (t.takeWhile Char.isDigit, t.dropWhile Char.isDigit)
    | t => ([], t)
  guard !(whole.isEmpty && fraction.isEmpty)
  let millis := Layout.digitsOf whole * 1000 +
    Layout.digitsOf ((fraction ++ ['0', '0', '0']).take 3)
  let factor ← [("", 1), ("s", 1), ("m", 60), ("h", 3600), ("d", 86400)].lookup
      (String.ofList unit)
  return millis * factor

def sleep (words : List (List Char)) : Run Nat := do
  if words.isEmpty then return 1
  if words.any (["infinity".toList, "inf".toList].contains ·) then throw (.ended .endless)
  match words.mapM spanOf with
  | none => return 1
  | some spans =>
      act (.paused (spans.foldl (· + ·) 0))
      return 0

def signals : List (String × Nat) :=
  [("EXIT", 0), ("HUP", 1), ("INT", 2), ("QUIT", 3), ("ILL", 4), ("TRAP", 5),
    ("ABRT", 6), ("BUS", 7),
   ("FPE", 8), ("KILL", 9), ("USR1", 10), ("SEGV", 11), ("USR2", 12), ("PIPE", 13), ("ALRM", 14),
   ("TERM", 15), ("CHLD", 17), ("CONT", 18), ("STOP", 19), ("TSTP", 20),
   ("TTIN", 21), ("TTOU", 22), ("URG", 23), ("WINCH", 28)]

/-- A signal by its number or name. -/
def signalOf (s : List Char) : Option Nat :=
  if !s.isEmpty && s.all Char.isDigit then some (Layout.digitsOf s)
  else
    let name := String.ofList (s.map Char.toUpper)
    signals.lookup (if name.startsWith "SIG" then String.ofList (name.toList.drop 3) else name)

/-- Signals that do nothing unless they are caught. -/
def idleSignals : List Nat := [0, 17, 18, 23, 28]

/-- Signals that stop a program without ending it. -/
def stopSignals : List Nat := [19, 20, 21, 22]

/-- The signal and the processes that `kill` is asked for. -/
def killRequest (words : List (List Char)) : Option (Nat × List (List Char)) :=
  match words with
  | ['-', 's'] :: name :: targets => (signalOf name).map (·, targets)
  | ['-', '-'] :: targets => some (15, targets)
  | ('-' :: name) :: targets =>
      (signalOf name).map (·, if targets.head? = some ['-', '-'] then targets.tail else targets)
  | targets => some (15, targets)

def ownId : List Char := (toString processId).toList

def setTraps (words : List (List Char)) : Run Nat := do
  match (if words.head? = some ['-', '-'] then words.tail else words) with
  | action :: names =>
      for name in names do
        match signalOf name with
        | none => return 1
        | some n => modify fun s =>
            let others := s.traps.filter (·.1 != n)
            { s with traps := if action = ['-'] then others else (n, action) :: others }
      return 0
  | [] => return 0

/-- Sets options and parameters. -/
def setOptions (words : List (List Char)) : Run Nat := do
  let flags := words.takeWhile fun w =>
    w != ['-', '-'] && (w.head? = some '-' || w.head? = some '+')
  for flag in flags do
    if flag.contains 'e' && flag.length = 2 || flag.head? = some '-' && flag.contains 'e' then
      modify fun s => { s with exitsOnFailure := flag.head? = some '-' }
  let rest := words.drop flags.length
  let rest? := if rest.head? = some ['-', '-'] then some rest.tail
    else if rest.isEmpty then none
    else some rest
  if let some parameters := rest? then modify fun s => { s with parameters }
  return 0

/-- Assigns the values of words of the form `name=value`. -/
def declare (words : List (List Char)) : Run Nat := do
  for w in words do
    match w.span (· != '=') with
    | (name, '=' :: value) => setVariable name value
    | _ => pure ()
  return 0

def shift (words : List (List Char)) : Run Nat := do
  let count := (words.head?.bind number).map Int.toNat |>.getD 1
  if count > (← get).parameters.length then return 2
  modify fun s => { s with parameters := s.parameters.drop count }
  return 0

/-- The number that an argument gives, or else the present status. -/
def statusOf (words : List (List Char)) : Run Nat := do
  match words with
  | w :: _ => return ((number w).getD 2).toNat % 256
  | [] => return (← get).status

def levelOf (words : List (List Char)) : Nat := max 1 ((words.head?.bind number).getD 1).toNat

/-- Runs a command that runs no other commands, if the name is that of one. -/
def plain (name : String) (words : List (List Char)) : Run (Option Nat) := do
  match name with
  | ":" | "true" => return some 0
  | "false" => return some 1
  | "echo" => return some (← echo words)
  | "printf" => return some (← printf words)
  | "read" => return some (← read words)
  | "cat" => return some (← cat words)
  | "head" => return some (← headOf words)
  | "sleep" => return some (← sleep words)
  | "test" => return some (test words)
  | "[" => return some (if words.getLast? = some [']'] then test words.dropLast else 2)
  | "trap" => return some (← setTraps words)
  | "set" => return some (← setOptions words)
  | "export" | "local" | "readonly" => return some (← declare words)
  | "unset" =>
      for w in words do dropVariable w
      return some 0
  | "shift" => return some (← shift words)
  | "cd" | "wait" | "umask" | "ulimit" | "hash" | "alias" | "jobs" => return some 0
  | "exit" => exit (← statusOf words)
  | "return" => throw (.returning (← statusOf words))
  | "break" => throw (.breaking (levelOf words))
  | "continue" => throw (.continuing (levelOf words))
  | _ => return none

end MacroBridge.Shell.Run
