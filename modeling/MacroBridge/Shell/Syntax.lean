/-!
Scripts of the shell in which expansion servers may be written. All text is a sequence of bytes,
each as the character with its code.
-/
namespace MacroBridge.Shell

/-- Which part of a value a pattern takes away. -/
structure Trim where
  fromFront : Bool
  longest : Bool
  deriving DecidableEq, Repr

/-- When the word of an expansion stands for the value. -/
inductive Fallback
  /-- For a missing value. -/
  | default
  /-- For a missing value, which it then becomes. -/
  | assign
  /-- For a value that is there. -/
  | alternative
  /-- As the message if the value is missing, which ends the shell. -/
  | require
  deriving DecidableEq, Repr

mutual

/-- A piece of a word. What comes of an unquoted piece is split into fields and may hold pattern
characters. -/
inductive Part
  | text (isQuoted : Bool) (s : List Char)
  | parameter (isQuoted : Bool) (name : List Char) (change : Change)
  /-- The output of commands. -/
  | output (isQuoted : Bool) (body : List Command)
  | arithmetic (isQuoted : Bool) (body : List Part)

/-- What is made of the value of a parameter. -/
inductive Change
  | plain
  | length
  | trim (t : Trim) (pattern : List Part)
  /-- An empty value may count as missing. -/
  | fallback (f : Fallback) (emptyIsMissing : Bool) (word : List Part)

inductive Redirect
  /-- Reads from a file. -/
  | source (fd : Nat) (file : List Part)
  | sink (fd : Nat) (file : List Part)
  /-- Makes a descriptor a copy of another, or closes it. -/
  | copy (fd : Nat) (word : List Part)
  /-- Reads from text in the script. -/
  | document (fd : Nat) (body : List Part)

inductive Command
  | simple (assignments : List (List Char × List Part)) (words : List (List Part))
      (redirects : List Redirect)
  | group (body : List Command) (redirects : List Redirect)
  | subshell (body : List Command) (redirects : List Redirect)
  | branch (test yes no : List Command) (redirects : List Redirect)
  /-- Repeats `body` as long as `test` succeeds, or as long as it fails. -/
  | loop (untilSuccess : Bool) (test body : List Command) (redirects : List Redirect)
  | each (name : List Char) (words : Option (List (List Part))) (body : List Command)
      (redirects : List Redirect)
  | choice (word : List Part) (arms : List (List (List Part) × List Command))
      (redirects : List Redirect)
  | define (name : List Char) (body : Command)
  | pipe (first second : Command)
  | negate (c : Command)
  | both (first second : Command)
  | either (first second : Command)

end

abbrev Word := List Part

end MacroBridge.Shell
