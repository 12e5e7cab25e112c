import MacroBridge.Shell.Arithmetic
import MacroBridge.Shell.Builtin
import MacroBridge.Shell.Reader

/-! Running scripts. The number that the functions take bounds the steps of a run. -/
namespace MacroBridge.Shell
namespace Run

def decimal (n : Nat) : List Char := (toString n).toList

/-- The value of a parameter, `none` if it has none. -/
def parameter? (name : List Char) : Run (Option (List Char)) := do
  let s ← get
  match name with
  | ['?'] => return some (decimal s.status)
  | ['$'] => return some ownId
  | ['#'] => return some (decimal s.parameters.length)
  | ['@'] | ['*'] =>
      return if s.parameters.isEmpty then none else some (List.intercalate [' '] s.parameters)
  | ['-'] => return some []
  | ['0'] => return some s.scriptName
  | [c] => if c.isDigit then return s.parameters[c.toNat - '0'.toNat - 1]? else lookup? name
  | _ => lookup? name

/-- All parameters, each as a field of its own. -/
def allParameters (isQuoted : Bool) : Run (List Piece) := do
  let pieces := (← get).parameters.map fun p => if isQuoted then Piece.text true p else .value p
  return List.intersperse .border pieces

def asPiece (isQuoted : Bool) (s : List Char) : List Piece :=
  [if isQuoted then .text true s else .value s]

/-- Runs as a shell within the shell: what it assigns is forgotten after it, and leaving it leaves
no more. -/
def within (body : Run Unit) : Run Unit := do
  let saved ← get
  set { saved with traps := [], depth := saved.depth + 1 }
  try body
  catch
    | .ended (.exited n) | .returning n => setStatus n
    | .breaking _ | .continuing _ => pure ()
    | h => throw h
  modify fun s => { saved with
    status := s.status, input := s.input, acts := s.acts, collected := s.collected }

/-- The output of a run within the shell. -/
def collect (body : Run Unit) : Run (List Char) := do
  let before := (← get).collected
  modify fun s => { s with collected := [] }
  let descriptors := (← get).descriptors
  setChannel 1 (some .collected)
  within body
  let text := (← get).collected.reverse
  modify fun s => { s with collected := before, descriptors }
  return text

def withoutBreaks (s : List Char) : List Char := (s.reverse.dropWhile (· == '\n')).reverse

/-- Ends the shell after a failure, if it is set to do so. -/
def checkFailure (isTested : Bool) : Run Unit := do
  let s ← get
  if s.exitsOnFailure && !isTested && s.status != 0 then exit s.status

/-- Runs the body of a loop, and tells whether the loop is left. -/
def isLeft (body : Run Unit) : Run Bool := do
  try
    body
    return false
  catch
    | .breaking k => if k ≤ 1 then return true else throw (.breaking (k - 1))
    | .continuing k => if k ≤ 1 then return false else throw (.continuing (k - 1))
    | h => throw h

mutual

/-- What a word expands to. -/
def expand : Nat → List Part → Run (List Piece)
  | 0, _ => throw (.ended .endless)
  | _, [] => return []
  | n + 1, p :: ps => do
      let pieces ← match p with
        | .text isQuoted s => pure [Piece.text isQuoted s]
        | .parameter isQuoted ['@'] .plain => allParameters isQuoted
        | .parameter false ['*'] .plain => allParameters false
        | .parameter isQuoted name change => expandParameter n isQuoted name change
        | .output isQuoted body => do
            let text ← collect (runAll n false body)
            pure (asPiece isQuoted (withoutBreaks text))
        | .arithmetic isQuoted body => do
            let text := Piece.plain (← expand n body)
            let bindings := (← get).bindings
            let value (name : List Char) : Option Int :=
              match bindings.lookup name with
              | some v => if v.isEmpty then some 0 else number v
              | none => some 0
            match Arithmetic.evaluate value text with
            | some v => pure (asPiece isQuoted (toString v).toList)
            | none => exit 2
      return pieces ++ (← expand n ps)

def expandParameter : Nat → Bool → List Char → Change → Run (List Piece)
  | 0, _, _, _ => throw (.ended .endless)
  | n + 1, isQuoted, name, change => do
      let value? ← parameter? name
      let value := value?.getD []
      match change with
      | .plain => return asPiece isQuoted value
      | .length => return asPiece isQuoted (decimal value.length)
      | .trim t pattern =>
          let items := GlobItem.ofMarks (Piece.marks (← expand n pattern))
          return asPiece isQuoted (t.apply items value)
      | .fallback f emptyIsMissing w =>
          let isMissing := value?.isNone || (emptyIsMissing && value.isEmpty)
          match f, isMissing with
          | .alternative, true => return []
          | .alternative, false | .default, true => expand n w
          | .assign, true =>
              let text := Piece.plain (← expand n w)
              setVariable name text
              return asPiece isQuoted text
          | .require, true => exit 2
          | _, false => return asPiece isQuoted value

/-- The fields of words. -/
def fields : Nat → List Word → Run (List (List Char))
  | 0, _ => throw (.ended .endless)
  | _, [] => return []
  | n + 1, w :: ws => do
      let first := fieldsOf (← fieldSeparators) (← expand n w)
      return first ++ (← fields n ws)

/-- Carries out redirections, and tells whether all could be. -/
def redirect : Nat → List Redirect → Run Bool
  | 0, _ => throw (.ended .endless)
  | _, [] => return true
  | n + 1, r :: rs => do
      let isDone ← match r with
        | .source fd w => do
            let path := Piece.plain (← expand n w)
            if path = "/dev/null".toList then
              setChannel fd (some .nothing)
              pure true
            else if path = "/dev/stdin".toList then
              setChannel fd (← channel? 0)
              pure true
            else pure false
        | .sink fd w => do
            let path := Piece.plain (← expand n w)
            if path = "/dev/stdout".toList then setChannel fd (← channel? 1)
            else setChannel fd (some .nothing)
            pure !path.isEmpty
        | .copy fd w => do
            let word := Piece.plain (← expand n w)
            if word = ['-'] then
              setChannel fd none
              pure true
            else
              match ← channel? (Layout.digitsOf word) with
              | some c =>
                  setChannel fd (some c)
                  pure (word.all Char.isDigit)
              | none => pure false
        | .document fd body => do
            setChannel fd (some (.document (Piece.plain (← expand n body))))
            pure true
      if isDone then redirect n rs else return false

/-- Runs with redirections that are taken back afterwards. -/
def redirected : Nat → List Redirect → Run Unit → Run Unit
  | 0, _, _ => throw (.ended .endless)
  | n + 1, rs, body => do
      let before := (← get).descriptors
      let fds := rs.map fun
        | .source fd _ | .sink fd _ | .copy fd _ | .document fd _ => fd
      let restore : Run Unit := do
        for fd in fds do setChannel fd (before.lookup fd)
      if ← redirect n rs then
        try body
        catch h => do
          restore
          throw h
      else setStatus 2
      restore

/-- Runs the trap of a signal, or ends as the signal does. -/
def signal : Nat → (number : Nat) → Run Unit
  | 0, _ => throw (.ended .endless)
  | n + 1, number => do
      match (← get).traps.lookup number with
      | some action => if number = 9 then throw (.ended (.killed 9)) else script n action
      | none =>
          if stopSignals.contains number then throw (.ended .endless)
          else if !idleSignals.contains number then throw (.ended (.killed number))

def kill : Nat → List (List Char) → Run Nat
  | 0, _ => throw (.ended .endless)
  | n + 1, words => do
      match killRequest words with
      | some (number, targets) =>
          if targets.isEmpty then return 2
          if targets.all (· == ownId) then
            signal n number
            return 0
          return 1
      | none => return 2

/-- Runs a command by its name. -/
def named : Nat → (name : List Char) → (words : List (List Char)) → Run Unit
  | 0, _, _ => throw (.ended .endless)
  | n + 1, name, words => do
      match (← get).functions.lookup name with
      | some body =>
          let parameters := (← get).parameters
          modify fun s => { s with parameters := words }
          try run n false body
          catch
            | .returning k => setStatus k
            | h => throw h
          modify fun s => { s with parameters }
      | none => program n (String.ofList name) words

/-- Runs a command that is no function. -/
def program : Nat → (name : String) → (words : List (List Char)) → Run Unit
  | 0, _, _ => throw (.ended .endless)
  | n + 1, name, words => do
      let name := if name.startsWith "/bin/" then String.ofList (name.toList.drop 5)
        else if name.startsWith "/usr/bin/" then String.ofList (name.toList.drop 9)
        else name
      match name with
      | "eval" => script n (List.intercalate [' '] words)
      | "kill" => setStatus (← kill n words)
      | "command" | "env" | "nohup" =>
          let assignments := words.takeWhile (·.contains '=')
          match words.drop assignments.length with
          | [] => setStatus 0
          | name :: words =>
              let _ ← declare assignments
              program n (String.ofList name) words
      | "sh" | "dash" | "bash" => within (shell n words)
      | _ =>
          match ← plain name words with
          | some k => setStatus k
          | none => setStatus 127

/-- Runs a shell with arguments: options, then a script and its parameters. -/
def shell : Nat → (words : List (List Char)) → Run Unit
  | 0, _ => throw (.ended .endless)
  | n + 1, words => do
      let flags := words.takeWhile fun w => w.head? = some '-' && w != ['-', '-'] && w.length > 1
      let rest := words.drop flags.length
      let rest := if rest.head? = some ['-', '-'] then rest.tail else rest
      modify fun s => { s with exitsOnFailure := flags.any (·.contains 'e') }
      try
        if flags.any (·.contains 'c') then
          match rest with
          | [] => exit 2
          | text :: rest =>
              modify fun s => { s with
                scriptName := rest.headD s.scriptName, parameters := rest.tail }
              script n text
        else if rest.isEmpty || flags.any (·.contains 's') then
          modify fun s => { s with parameters := rest }
          typed n
        else exit 2
      catch
        | .ended (.exited k) => setStatus k
        | h => throw h
      finish n

/-- Runs the trap for the end of the shell. -/
def finish : Nat → Run Unit
  | 0 => throw (.ended .endless)
  | n + 1 => do
      let s ← get
      match s.traps.lookup 0 with
      | some action =>
          set { s with traps := s.traps.filter (·.1 != 0) }
          script n action
          setStatus s.status
      | none => pure ()

/-- Runs commands that come as input. -/
def typed : Nat → Run Unit
  | 0 => throw (.ended .endless)
  | n + 1 => do
      let (line, isWhole) ← readTo 0 (· == '\n')
      script n line
      if isWhole then typed n

/-- Runs the lines of a script one by one, up to one that is malformed. -/
def script : Nat → List Char → Run Unit
  | 0, _ => throw (.ended .endless)
  | n + 1, text => do
      match StateT.run nextLine text with
      | none => exit 2
      | some ([], _) => pure ()
      | some (commands, rest) =>
          runAll n false commands
          script n rest

/-- Runs commands one after another. -/
def runAll : Nat → (isTested : Bool) → List Command → Run Unit
  | 0, _, _ => throw (.ended .endless)
  | _, _, [] => pure ()
  | n + 1, isTested, c :: cs => do
      run n isTested c
      runAll n isTested cs

/-- Runs a command without reserved words. -/
def simple : Nat → List (List Char × Word) → List Word → List Redirect → Run Unit
  | 0, _, _, _ => throw (.ended .endless)
  | n + 1, assignments, words, rs => do
      let fs ← fields n words
      if fs.isEmpty then setStatus 0
      let values ← assignments.mapM fun a => do return (a.1, Piece.plain (← expand n a.2))
      match fs with
      | [] =>
          for (name, value) in values do setVariable name value
          redirected n rs (pure ())
      | ['e', 'x', 'e', 'c'] :: words =>
          for (name, value) in values do setVariable name value
          if ← redirect n rs then
            checkOutput
            match words with
            | [] => setStatus 0
            | name :: words =>
                program n (String.ofList name) words
                exit (← get).status
          else exit 2
      | name :: words =>
          let before := (← get).bindings
          for (name, value) in values do setVariable name value
          redirected n rs (named n name words)
          let isSet (v : List Char × List Char) : Bool := values.any (·.1 == v.1)
          if !values.isEmpty then
            modify fun s =>
              let kept := s.bindings.filter (!isSet ·)
              { s with bindings := kept ++ before.filter isSet }

/-- Repeats a body while a test holds. -/
def repeatWhile : Nat → (untilSuccess : Bool) → (test body : List Command) →
    (last : Nat) → Run Unit
  | 0, _, _, _, _ => throw (.ended .endless)
  | n + 1, untilSuccess, test, body, last => do
      runAll n true test
      if ((← get).status == 0) == untilSuccess then setStatus last
      else if ← isLeft (runAll n false body) then pure ()
      else repeatWhile n untilSuccess test body (← get).status

/-- Runs a body once for each value of a variable. -/
def repeatFor : Nat → (name : List Char) → (values : List (List Char)) → (body : List Command) →
    Run Unit
  | 0, _, _, _ => throw (.ended .endless)
  | _, _, [], _ => pure ()
  | n + 1, name, v :: vs, body => do
      setVariable name v
      if ← isLeft (runAll n false body) then pure ()
      else repeatFor n name vs body

/-- Runs the first arm one of whose patterns matches. -/
def choose : Nat → List Char → List (List Word × List Command) → Run Unit
  | 0, _, _ => throw (.ended .endless)
  | _, _, [] => setStatus 0
  | n + 1, value, (patterns, body) :: arms => do
      let isMatch ← patterns.anyM fun p => do
        return globMatches (GlobItem.ofMarks (Piece.marks (← expand n p))) value
      if isMatch then
        setStatus 0
        runAll n false body
      else choose n value arms

def run : Nat → (isTested : Bool) → Command → Run Unit
  | 0, _, _ => throw (.ended .endless)
  | n + 1, isTested, c => do
      match c with
      | .simple assignments words rs =>
          simple n assignments words rs
          checkFailure isTested
      | .group body rs => redirected n rs (runAll n isTested body)
      | .subshell body rs =>
          redirected n rs (within (runAll n isTested body))
          checkFailure isTested
      | .branch test yes no rs => redirected n rs do
          runAll n true test
          if (← get).status = 0 then runAll n isTested yes
          else
            setStatus 0
            runAll n isTested no
      | .loop untilSuccess test body rs => redirected n rs (repeatWhile n untilSuccess test body 0)
      | .each name words body rs => redirected n rs do
          let values ← match words with
            | some ws => fields n ws
            | none => pure (← get).parameters
          setStatus 0
          repeatFor n name values body
      | .choice w arms rs => redirected n rs do
          choose n (Piece.plain (← expand n w)) arms
      | .define name body =>
          modify fun s => { s with functions := (name, body) :: s.functions.filter (·.1 != name) }
          setStatus 0
      | .pipe first second =>
          let text ← collect (run n true first)
          let before ← channel? 0
          setChannel 0 (some (.document text))
          within (run n true second)
          setChannel 0 before
          checkFailure isTested
      | .negate c =>
          run n true c
          setStatus (ofBool ((← get).status ≠ 0))
      | .both first second =>
          run n true first
          if (← get).status = 0 then run n isTested second
      | .either first second =>
          run n true first
          if (← get).status ≠ 0 then run n isTested second

end

/-- Bound on the steps of a program. -/
def maxSteps : Nat := 20000

/-- The trace of a run from its start. -/
def trace (body : Run Unit) (start : State) : Trace :=
  let (result, s) := (ExceptT.run body).run start
  let ending : Ending := match result with
    | .ok () => .exited s.status
    | .error (.ended e) => e
    | .error (.returning k) => .exited k
    | .error (.breaking _) | .error (.continuing _) => .exited s.status
  ⟨s.acts.reverse, ending⟩

end Run
end MacroBridge.Shell
