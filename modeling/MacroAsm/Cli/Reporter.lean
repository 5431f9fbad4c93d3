import MacroAsm.Diagnostic

/-!
# Reporting diagnostics

Which diagnostics are printed, how, and what they say about the outcome of the run.
-/

namespace MacroAsm

/-- How diagnostics are printed, and what was seen of them. -/
structure Reporter where
  /-- Whether the level is printed in colour. -/
  colour : Bool
  /-- Whether messages of the program being assembled are printed. -/
  verbose : Bool
  /-- Whether a warning fails the run. -/
  strict : Bool
  /-- Whether the run has failed. -/
  failed : Bool
  /-- Whether the run has ended. -/
  fatal : Bool
deriving DecidableEq, Inhabited, Repr

namespace Reporter

/-- The escape that ends a colour. -/
def reset : Text := "\x1b[0m"

/-- The escape that begins the colour of a level. -/
def colourOf : Level → Text
  | .fatal => "\x1b[1;31m"
  | .fail => "\x1b[31m"
  | .warn => "\x1b[33m"
  | .info => "\x1b[36m"
  | .other _ => Text.empty

/-- A diagnostic as it is printed. -/
def render (r : Reporter) (d : Diagnostic) : Text :=
  let text := d.long
  if r.colour then colourOf d.level ++ d.level.name ++ reset ++ text.dropStart d.level.name
  else text

/-- Takes note of a diagnostic, and gives the line to print, if it is printed. -/
def report (r : Reporter) (d : Diagnostic) : Reporter × Text :=
  let line := r.render d ++ "\n"
  match d.level with
  | .fatal => ({ r with fatal := true, failed := true }, line)
  | .fail => ({ r with failed := true }, line)
  | .warn => ({ r with failed := r.failed || r.strict }, line)
  | .info => if r.verbose then (r, line) else (r, Text.empty)
  | .other _ => (r, line)

end Reporter

end MacroAsm
