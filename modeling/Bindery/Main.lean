import Bindery.Cli.Run

/-!
The program: the compiler's command line on the files of the machine.
-/

namespace Bindery.Cli

def succeeds {α : Type} (action : IO α) : IO Bool := do
  try
    let _ ← action
    return true
  catch _ =>
    return false

/-- The files and streams of the machine. A path can be opened with `/.` behind it exactly
if it leads to a directory. -/
def Host.machine : Host IO where
  isDirectory path := succeeds (IO.FS.Handle.mk (path ++ "/.") .read)
  holds path := succeeds (IO.FS.Handle.mk path .read)
  read? path := do
    try
      return some (← IO.FS.readFile path)
    catch _ =>
      return none
  write path contents := succeeds do
    match Path.parent? path with
    | some parent => if !parent.isEmpty then IO.FS.createDirAll parent
    | none => pure ()
    IO.FS.writeBinFile path ⟨contents.toArray⟩
  out text := IO.print text
  err text := IO.eprint text
  locate := Location.of

end Bindery.Cli

def main (line : List String) : IO UInt32 :=
  Bindery.Cli.command Bindery.Cli.Host.machine line
