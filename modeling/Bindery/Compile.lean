import Bindery.Binder
import Bindery.Emit.Statement

/-!
Compilation of files.

A file with diagnostics is not emitted. A tree without diagnostics can still hold
places where the source had nothing; such a tree is incomplete. What else keeps a
tree from being emitted is a limit of the machine.
-/

namespace Bindery

open Machine (EmitError Image)

/-- Why a file has no image. -/
inductive CompileError where
  | diagnostics (found : List Diagnostic)
  | incomplete (span : Span)
  | emit (cause : EmitError)
deriving DecidableEq, Repr, Inhabited

def CompileError.message : CompileError → String
  | .diagnostics found => toString found.length ++ " diagnostic(s) reported"
  | .incomplete span => "syntax tree is incomplete: recovered node at " ++ span.text
  | .emit cause => "internal compiler error: " ++ cause.message

/-- An error node is reached only in an incomplete tree. -/
def CompileError.ofEmitError : EmitError → CompileError
  | .errorNode span => .incomplete span
  | cause => .emit cause

namespace SourceFile

def check (file : SourceFile) : List Diagnostic :=
  file.bind.2.map (·.inFile file.fileName)

def compile (file : SourceFile) : Except CompileError Image :=
  match file.bind with
  | (program, []) => program.emit.mapError .ofEmitError
  | (_, found) => .error (.diagnostics (found.map (·.inFile file.fileName)))

end SourceFile

def checkAll (files : List SourceFile) : List Diagnostic :=
  Diagnostic.sort (files.flatMap SourceFile.check)

end Bindery
