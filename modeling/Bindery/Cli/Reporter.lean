import Bindery.Cli.Location
import Bindery.Diagnostic

/-!
Reports of diagnostics.

Diagnostics are printed up to a limit, and all of them are counted. The summary
says how many were held back and how many errors there are. A diagnostic whose place
is beyond the source cannot be printed to its end.
-/

namespace Bindery.Cli

/-- A message under its code. Only the code stands at the margin: a bar leads every line
of the message but the first. -/
def headed (code message : String) : String :=
  code ++ "\n\n  × " ++ String.intercalate "\n  │ " (message.splitOn "\n") ++ "\n"

/-- How many diagnostics have been printed, and how many there were. -/
structure Reporter where
  limit : Option Nat
  printed : Nat := 0
  total : Nat := 0
deriving DecidableEq, Repr, Inhabited

namespace Reporter

def hasRoom (r : Reporter) : Bool :=
  match r.limit with
  | some limit => r.printed < limit
  | none => true

/-- The file of a diagnostic and where it is there, if the source is known. -/
def location? (locate : Locator) (d : Diagnostic) (source : Option String) :
    Option (String × Location) := do
  return (← d.file, locate (← source) (← d.span))

def locationText : String × Location → String
  | (file, .found line column) =>
    "   ╭─[" ++ file ++ ":" ++ toString line ++ ":" ++ toString column ++ "]\n"
  | (_, .outside) | (_, .beyond) => ""

/-- A diagnostic as it is shown: as a line, or under its code where the source is known. -/
def entry (locate : Locator) (d : Diagnostic) (source : Option String) : String :=
  if d.file.isSome ∧ source.isSome then
    headed d.label d.message ++ ((location? locate d source).map locationText).getD ""
  else d.text ++ "\n"

/-- Whether what is shown of a diagnostic breaks off. -/
def breaksOff (locate : Locator) (d : Diagnostic) (source : Option String) : Bool :=
  match location? locate d source with
  | some (_, .beyond) => true
  | _ => false

/-- Counts a diagnostic, with what is printed for it. -/
def report (r : Reporter) (locate : Locator) (d : Diagnostic) (source : Option String) :
    String × Reporter :=
  if r.hasRoom then
    (entry locate d source, { r with printed := r.printed + 1, total := r.total + 1 })
  else ("", { r with total := r.total + 1 })

def failed (r : Reporter) : Bool := 0 < r.total

/-- The lines at the end of a report. -/
def summary (r : Reporter) : String :=
  (if r.printed < r.total then
    "... " ++ toString (r.total - r.printed) ++ " more diagnostic(s) not shown.\n" else "") ++
  (if r.failed then
    "\nFound " ++ toString r.total ++ " error" ++ (if r.total = 1 then "" else "s") ++ ".\n"
  else "")

end Reporter

end Bindery.Cli
