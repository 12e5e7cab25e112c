import MacroBridge.Text.Alphanumeric

/-! Which messages a log filter lets through, and how they are shown. -/
namespace MacroBridge.Cli

/-- How much is logged. -/
inductive Verbosity
  | off
  | error
  | warn
  | info
  | debug
  | trace
  deriving DecidableEq, Repr

/-- A verbosity by its name, in letters of either case, or by its number. No name is that of
errors. -/
def Verbosity.ofName (name : List Char) : Option Verbosity :=
  let digits := if name.head? = some '+' then name.tail else name
  if !digits.isEmpty && digits.all Char.isDigit then
    [.off, .error, .warn, .info, .debug, .trace][
      digits.foldl (fun n c => n * 10 + (c.toNat - '0'.toNat)) 0]?
  else
    [("", .error), ("off", .off), ("error", .error), ("warn", .warn), ("info", .info),
      ("debug", .debug), ("trace", .trace)].lookup (String.ofList (name.map Char.toLower))

/-- One part of a filter: a verbosity for all targets that begin with `target`. -/
structure Directive where
  target : List Char := []
  verbosity : Verbosity := .trace
  /-- Counts only inside of some span of the program. -/
  isLocal : Bool := false
  deriving DecidableEq, Repr

namespace Directive

/-- A verbosity behind an equals sign, where no name is that of everything. -/
def level (name : List Char) : Option Verbosity :=
  if name.isEmpty then some .trace else Verbosity.ofName name

/-- The length of a span in brackets, whose opening one has been read. It holds a name, and perhaps
fields in braces. -/
def spanLength (s : List Char) : Option Nat :=
  let name := s.takeWhile fun c => c != ']' && c != '\x7b'
  match s.drop name.length with
  | ']' :: _ => some (name.length + 1)
  | _ :: s =>
      let fields := s.takeWhile (· != '\x7d')
      match fields, s.drop fields.length with
      | _ :: _, '\x7d' :: ']' :: _ => some (name.length + fields.length + 3)
      | _, _ => none
  | [] => none

/-- Reads a directive: a verbosity, or a target, a span or both, with a verbosity behind an equals
sign. White space around it is passed over in looking for the signs that part it, but not in
counting where they stand. -/
def ofText (text : List Char) : Option Directive := do
  let trimmed := (text.dropWhile Char.isWhitespace).reverse.dropWhile Char.isWhitespace |>.reverse
  let first ← trimmed.head?
  guard (first == '[' || first == '-' || first == ':' || first == '_' || isAlphanumeric first)
  let size := (trimmed.takeWhile fun c => c != '=' && c != '[').length
  let target := text.take size
  match trimmed.drop size with
  | [] =>
      match Verbosity.ofName text with
      | some verbosity => return { verbosity }
      | none => return { target := text }
  | '=' :: _ => return { target, verbosity := ← level (text.drop (size + 1)) }
  | _ :: s =>
      let size' ← spanLength s
      match s.drop size' with
      | [] => return { target, isLocal := true }
      | '=' :: _ =>
        return { target, verbosity := ← level (text.drop (size + size' + 2)), isLocal := true }
      | _ => none

end Directive

/-- The directives of a filter, `none` if one is malformed. No directives let errors through. -/
def directives (filter : String) : Option (List Directive) := do
  let parts := (filter.splitOn ",").filter (!·.isEmpty)
  if parts.isEmpty then return [{ verbosity := .error }]
  parts.mapM fun part => Directive.ofText part.toList

/-- The directive that counts for a target: of those with the longest beginning of it, the last. -/
def governing (target : String) (ds : List Directive) : Option Directive :=
  ds.foldl (fun best d =>
    if d.isLocal || !d.target.isPrefixOf target.toList then best
    else match best with
      | some b => if b.target.length ≤ d.target.length then some d else best
      | none => some d) none

/-- Whether errors of a target are logged. A malformed filter is no filter. -/
def showsErrors (filter target : String) : Bool :=
  match directives filter with
  | none => true
  | some ds => (governing target ds).any (·.verbosity != .off)

/-- A message without characters that could steer a terminal. -/
def printable (message : List Char) : List Char :=
  message.flatMap fun c =>
    if ['\x07', '\x08', '\x0c', '\x1b', '\x7f'].contains c || ('\x80' ≤ c && c ≤ '\x9f') then
      let digits := Nat.toDigits 16 c.toNat
      if c ≤ '\x7f' then '\\' :: 'x' :: (if digits.length = 1 then '0' :: digits else digits)
      else '\\' :: 'u' :: '\x7b' :: digits ++ ['\x7d']
    else [c]

def firstLine (message : List Char) : List Char := message.takeWhile (· != '\n')

end MacroBridge.Cli
