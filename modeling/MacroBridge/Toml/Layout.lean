import MacroBridge.Text.Scan

/-! Blanks, comments and line ends of TOML. -/
namespace MacroBridge.Toml

/-- Characters that stand for themselves in comments and strings. -/
def isText (c : Char) : Bool := c == '\t' || (' ' ≤ c && c != '\x7f')

/-- Reads spaces and tabs. -/
def blank : Scan Unit := do let _ ← Scan.run fun c => c == ' ' || c == '\t'

/-- Reads a line break, if one comes next. -/
def lineBreak : Scan Bool := do
  if ← Scan.accept ['\n'] then return true
  Scan.accept ['\r', '\n']

/-- Reads a comment up to the end of its line, if one comes next. -/
def comment : Scan Unit := do
  if ← Scan.accept ['#'] then
    let _ ← Scan.run isText

/-- Reads the rest of a line that holds nothing more. -/
def endOfLine : Scan Unit := do
  blank
  comment
  guard ((← lineBreak) || (← Scan.peek).isNone)

/-- Reads blanks, comments and line breaks. -/
def layout : Scan Unit :=
  Scan.iterate (fun _ => do
    blank
    comment
    return if ← lineBreak then .inl () else .inr ()) ()

end MacroBridge.Toml
