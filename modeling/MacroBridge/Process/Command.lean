import MacroBridge.Framing.Stream

/-! Command lines of programs, and which of them can be started. -/
namespace MacroBridge

structure Command where
  program : String
  arguments : List String := []
  environment : List (String × String) := []
  deriving DecidableEq, Repr

namespace Command

/-- Sets a variable, in place of an earlier value. -/
def setVariable (name value : String) (environment : List (String × String)) :
    List (String × String) :=
  environment.filter (·.1 != name) ++ [(name, value)]

def withArguments (c : Command) (arguments : List String) : Command :=
  { c with arguments := c.arguments ++ arguments }

def withVariables (c : Command) (bindings : List (String × String)) : Command :=
  { c with environment := bindings.foldl (fun env v => setVariable v.1 v.2 env) c.environment }

/-- A string with a null character cannot be handed to a program. -/
def hasNull (s : String) : Bool := s.toList.contains '\x00'

def shown (s : String) : String := if hasNull s then "<string-with-nul>" else s

/-- The program and its arguments with spaces between them, unless the arguments come to
nothing. -/
def text (c : Command) : String :=
  let arguments := " ".intercalate (c.arguments.map shown)
  if arguments.isEmpty then shown c.program else shown c.program ++ " " ++ arguments

/-! ### Starting -/

/-- Programs that every system has on its search path. -/
def standardPrograms : List String :=
  ["sh", "cat", "true", "false", "echo", "printf", "sleep", "kill", "test", "[", "env",
    "head", "tail",
   "tr", "sed", "grep", "ls", "pwd", "id", "uname", "date", "mkdir", "rmdir", "rm",
   "cp", "mv", "wc", "sort", "uniq", "cut", "tee", "touch", "yes", "seq", "timeout", "dd", "chmod",
   "ln", "basename", "dirname", "mktemp", "xargs", "find", "awk", "nohup", "nice", "od", "expr",
   "dash", "bash"]

def programDirectories : List String := ["/bin/", "/usr/bin/"]

/-- Directories that every system has. -/
def standardDirectories : List String :=
  ["/", "/bin", "/usr", "/usr/bin", "/usr/lib", "/usr/local", "/usr/local/bin",
    "/usr/share", "/sbin",
   "/etc", "/tmp", "/var", "/var/tmp", "/dev", "/proc", "/sys", "/home", "/root", "/lib", "/opt",
   "/mnt", "/run", "/srv", "/boot", "/media", ".", ".."]

/-- Files that every system has and nobody can start. -/
def standardFiles : List String :=
  ["/etc/passwd", "/etc/group", "/etc/hosts", "/etc/hostname", "/etc/fstab", "/etc/resolv.conf",
   "/dev/null", "/dev/zero"]

/-- A path without slashes at its end, unless it is the root. -/
def trimSlashes (path : String) : String :=
  let kept := (path.toList.reverse.dropWhile (· == '/')).reverse
  if kept.isEmpty then "/" else String.ofList kept

/-- Name of the standard program that a command starts. -/
def standardProgram (program : String) : Option String :=
  standardPrograms.find? fun name =>
    program == name || programDirectories.any (program == · ++ name)

/-- Why a command cannot be started. A name without a slash is searched for, so that it can be
found only as a program, or as one of the two names that are directories everywhere. -/
def startFault (c : Command) : Option IoKind :=
  let bindings := c.environment.flatMap fun v => [v.1, v.2]
  if (c.program :: c.arguments ++ bindings).any hasNull then some .invalidInput
  else if (standardProgram c.program).isSome then none
  else if c.program.isEmpty then some .notFound
  else if standardFiles.contains c.program then some .permissionDenied
  else if standardDirectories.contains (trimSlashes c.program) then some .permissionDenied
  else some .notFound

end Command

end MacroBridge
