/-!
TOML values, and building the table of a document from its headers and key-value lines.
-/
namespace MacroBridge.Toml

/-- How a table came about, which decides what may still be added to it. -/
inductive Origin
  /-- Only named on the way to a deeper header. -/
  | implicit
  /-- Named by a dotted key. -/
  | dotted
  /-- Named by a header of its own, or an element of an array of tables. -/
  | header
  /-- Written between braces, and complete there. -/
  | inlined
  deriving DecidableEq, Repr

inductive Value
  | string (text : String)
  | integer (n : Int)
  | boolean (b : Bool)
  /-- A floating-point number; nothing here needs more of it than its place. -/
  | float
  /-- A date, a time or both, in its usual spelling. -/
  | moment (text : String)
  | array (items : List Value)
  | tables (items : List (List (String × Value)))
  | table (origin : Origin) (entries : List (String × Value))
  deriving Repr

abbrev Entries := List (String × Value)

/-- The entries of a table. A moment reads as a table of one entry, which holds its text. -/
def Value.asTable : Value → Option Entries
  | .table _ es => some es
  | .moment text => some [("$__toml_private_datetime", .string text)]
  | _ => none

namespace Entries

/-- Replaces the value of a key that is present, or adds the key at the end. -/
def put (key : String) (v : Value) : Entries → Entries
  | [] => [(key, v)]
  | (k, w) :: es => if k = key then (k, v) :: es else (k, w) :: put key v es

/-- Adds a key that is not present. -/
def add (key : String) (v : Value) (es : Entries) : Option Entries :=
  if (es.lookup key).isSome then none else some (es ++ [(key, v)])

/-- Changes the last table of an array of tables. -/
def changeLast (f : Entries → Option Entries) (tables : List Entries) : Option (List Entries) := do
  let last ← tables.getLast?
  return tables.dropLast ++ [← f last]

/-- Changes the table at `path`, naming tables on the way that are not there yet. The table changed
is handed over with its origin. -/
def descend (isDotted : Bool) (f : Origin → Entries → Option Entries) :
    (path : List String) → Origin → Entries → Option Entries
  | [], origin, es => f origin es
  | key :: path, _, es =>
      let fresh : Origin := if isDotted then .dotted else .implicit
      match es.lookup key with
      | none => do return put key (.table fresh (← descend isDotted f path fresh [])) es
      | some (.tables ts) => do
          return put key (.tables (← changeLast (descend isDotted f path .header) ts)) es
      | some (.table origin inner) =>
          if origin = .inlined || (isDotted && origin = .header) then none
          else do return put key (.table origin (← descend isDotted f path origin inner)) es
      | some _ => none

/-- Changes the table that headers have opened at `path`. -/
def change (f : Entries → Option Entries) : (path : List String) → Entries → Option Entries
  | [], es => f es
  | key :: path, es =>
      match es.lookup key with
      | some (.tables ts) => do return put key (.tables (← changeLast (change f path) ts)) es
      | some (.table origin inner) => do return put key (.table origin (← change f path inner)) es
      | _ => none

/-- Adds the value of a dotted key. Its last table must have been named by dotted keys only. -/
def addDotted (path : List String) (key : String) (v : Value) (es : Entries) : Option Entries :=
  descend true (fun origin inner =>
    if path.isEmpty || origin = .dotted then add key v inner else none) path .header es

/-- Opens a table by its header. -/
def openTable (path : List String) (key : String) (es : Entries) : Option Entries :=
  descend false (fun _ inner =>
    match inner.lookup key with
    | none => some (put key (.table .header []) inner)
    | some (.table .implicit below) => some (put key (.table .header below) inner)
    | some _ => none) path .header es

/-- Opens the next element of an array of tables by its header. -/
def openElement (path : List String) (key : String) (es : Entries) : Option Entries :=
  descend false (fun _ inner =>
    match inner.lookup key with
    | none => some (put key (.tables [[]]) inner)
    | some (.tables ts) => some (put key (.tables (ts ++ [[]])) inner)
    | some _ => none) path .header es

end Entries

end MacroBridge.Toml
