/-! The files that a program can see, as they are when it starts. -/
namespace MacroBridge

inductive FileEntry
  | file (bytes : List UInt8)
  | directory
  deriving DecidableEq, Repr

/-- Why a path leads to nothing that can be read. -/
inductive FileFault
  | notFound
  | notDirectory
  | isDirectory
  | nameTooLong
  | notText
  deriving DecidableEq, Repr

def FileFault.message : FileFault → String
  | notFound => "No such file or directory (os error 2)"
  | notDirectory => "Not a directory (os error 20)"
  | isDirectory => "Is a directory (os error 21)"
  | nameTooLong => "File name too long (os error 36)"
  | notText => "stream did not contain valid UTF-8"

namespace Path

/-- A path without the empty component that a slash at either end gives, and without those that
stay where they are. An absolute path starts with the component `/`. -/
def components (path : String) : List String :=
  let parts := (path.splitOn "/").filter fun part => !part.isEmpty && part != "."
  if path.startsWith "/" then "/" :: parts else parts

/-- Whether a path says that it leads to a directory. -/
def asksDirectory (path : String) : Bool :=
  path.endsWith "/" || path.endsWith "/." || path == "." || path.endsWith "/.." || path == ".."

/-- A path seen from a directory. -/
def join (directory path : String) : String :=
  if path.startsWith "/" then path
  else if directory.isEmpty || directory.endsWith "/" then directory ++ path
  else directory ++ "/" ++ path

/-- The paths of all directories on the way to a path, and the path itself. -/
def onTheWay (path : String) : List String :=
  let parts := path.splitOn "/"
  (List.range parts.length).map fun n => "/".intercalate (parts.take (n + 1))

end Path

/-- Files by their paths from the working directory, or by absolute paths. The directories above an
entry need no entry of their own. -/
structure Files where
  workingDirectory : String := "."
  entries : List (String × FileEntry) := []

namespace Files

/-- Directories that are there in any case, and an empty file. -/
def standard : List (String × FileEntry) :=
  [("/dev/null", .file []), ("/tmp", .directory), ("/etc", .directory), ("/bin", .directory),
   ("/usr/bin", .directory), ("/usr/lib", .directory), ("/var/tmp", .directory),
   ("/home", .directory), ("/root", .directory), ("/proc", .directory), ("/sys", .directory)]

/-- The directory above a place. The root is its own. -/
def parent (place : List String) : List String :=
  if place == ["/"] then place
  else if place.all (· == "..") then place ++ [".."]
  else place.dropLast

/-- The place that a component leads to. -/
def enter (place : List String) (part : String) : List String :=
  if part = ".." then parent place else place ++ [part]

/-- The components of a path from the working directory, or from the root for a path that is not
below it. -/
def relative (fs : Files) (path : String) : List String :=
  let parts := Path.components path
  let working := Path.components fs.workingDirectory
  if working.isPrefixOf parts then parts.drop working.length else parts

/-- What stands at a place. Nothing is known of what stands beside or above the working directory
unless it has an entry. -/
def entry? (fs : Files) (place : List String) : Option FileEntry :=
  let all := (fs.entries ++ standard).map fun e => ((fs.relative e.1).foldl enter [], e.2)
  if place == ["/"] || place.all (· == "..") then some .directory
  else
    match all.lookup place with
    | some e => some e
    | none => if all.any fun e => place.isPrefixOf e.1 then some .directory else none

/-- Follows components one by one from the directory at `place`. -/
def walk (fs : Files) : (place : List String) → List String → Except FileFault FileEntry
  | place, [] =>
      match fs.entry? place with
      | some e => .ok e
      | none => .error .notFound
  | place, part :: parts =>
      if part.utf8ByteSize > 255 then .error .nameTooLong
      else
        let place := enter place part
        match fs.entry? place with
        | none => .error .notFound
        | some (.file bytes) => if parts.isEmpty then .ok (.file bytes) else .error .notDirectory
        | some .directory => walk fs place parts

/-- What a path leads to. -/
def find (fs : Files) (path : String) : Except FileFault FileEntry :=
  let found :=
    if path.isEmpty then .error .notFound
    else if path.utf8ByteSize ≥ 4096 then .error .nameTooLong
    else fs.walk [] (fs.relative path)
  match found with
  | .ok (.file bytes) =>
    if Path.asksDirectory path then .error .notDirectory else .ok (.file bytes)
  | found => found

def exists? (fs : Files) (path : String) : Bool := (fs.find path).toOption.isSome

def isDirectory (fs : Files) (path : String) : Bool :=
  match fs.find path with
  | .ok .directory => true
  | _ => false

/-- The bytes of a file. -/
def read (fs : Files) (path : String) : Except FileFault (List UInt8) :=
  match fs.find path with
  | .ok (.file bytes) => .ok bytes
  | .ok .directory => .error .isDirectory
  | .error e => .error e

end Files

end MacroBridge
