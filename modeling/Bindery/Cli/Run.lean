import Bindery.Cli.Arguments
import Bindery.Cli.Reporter
import Bindery.Compile
import Bindery.Store
import Bindery.Tree.Decode

/-!
The compiler as a command.

All inputs are read first. Then each file is compiled on its own, and every clean
file gets its image. The command ends with 0 when all went well, 1 when it could
not be carried out or a tree is incomplete, 2 when there were diagnostics, 3 when
code could not be made from a correct program, and 101 when a report broke off.

The command speaks to the world through a `Host`, which also shows its reports.
`Host.store` is the host of a store of files, with all that is printed kept beside it.
-/

namespace Bindery.Cli

open Machine (DecodeError EmitError)

/-- What a command can do. -/
structure Host (m : Type → Type) where
  isDirectory : String → m Bool
  /-- Whether a path leads anywhere. -/
  holds : String → m Bool
  /-- The text of a file, if it can be read. -/
  read? : String → m (Option String)
  /-- Writes a file and makes its directory; says whether that could be done. -/
  write : String → List UInt8 → m Bool
  out : String → m Unit
  err : String → m Unit
  /-- Where reports show a span, and whether they break off there. -/
  locate : Locator

/-- A store, and what has been printed. -/
structure World where
  store : Store
  out : String := ""
  err : String := ""
deriving DecidableEq, Repr, Inhabited

def Host.store (locate : Locator := Location.of) : Host (StateM World) where
  isDirectory path := fun w => (w.store.isDirectory path, w)
  holds path := fun w => (w.store.holds path, w)
  read? path := fun w =>
    (do String.fromUTF8? ⟨(← w.store.read? path).toArray⟩, w)
  write path contents := fun w =>
    match w.store.write? path contents with
    | some store => (true, { w with store })
    | none => (false, w)
  out text := fun w => ((), { w with out := w.out ++ text })
  err text := fun w => ((), { w with err := w.err ++ text })
  locate := locate

/-- Why a command could not be carried out. -/
inductive Failure where
  | noInput
  | manyInputs (count : Nat)
  | projectUnreadable (path : String)
  | projectUnwritable (path : String)
  | projectExists (path : String)
  | projectInvalid
  | inputUnreadable (path : String)
  | inputInvalid (path : String)
  | outputUnwritable (path : String)
  | incomplete (file : String) (span : Span)
  | internal (file : String) (cause : EmitError)
  | listing (file : String) (cause : DecodeError)
  | brokenReport
deriving DecidableEq, Repr, Inhabited

namespace Failure

/-- The name of the kind of failure. One that no one foresaw has none. -/
def code? : Failure → Option String
  | .noInput | .manyInputs _ => some "sashc::usage"
  | .projectUnreadable _ | .projectUnwritable _ | .projectExists _ | .projectInvalid =>
    some "sashc::config"
  | .inputUnreadable _ | .inputInvalid _ | .incomplete _ _ => some "sashc::input"
  | .outputUnwritable _ => some "sashc::output"
  | .internal _ _ | .listing _ _ => some "sashc::internal"
  | .brokenReport => none

def message : Failure → String
  | .noInput => "no input files"
  | .manyInputs count => "--outFile needs exactly one input file, got " ++ toString count
  | .projectUnreadable path => "cannot read " ++ path
  | .projectUnwritable path => "cannot write " ++ path
  | .projectExists path => path ++ " already exists"
  | .projectInvalid => "invalid configuration"
  | .inputUnreadable path => "cannot read " ++ path
  | .inputInvalid path => path ++ " is not a valid syntax tree"
  | .outputUnwritable path => "cannot write " ++ path
  | .incomplete file span =>
    file ++ " has a syntax error: recovered node at " ++ span.text
  | .internal file cause => "internal compiler error in " ++ file ++ ": " ++ cause.message
  | .listing file cause =>
    "emitted program for " ++ file ++ " does not decode: " ++ cause.message
  | .brokenReport => "a report points behind the end of its source"

def help? : Failure → Option String
  | .noInput => some "pass syntax tree files or a project with -p"
  | .incomplete _ _ => some "fix the errors the parser reported, then compile again"
  | .internal _ _ => some "this is a compiler bug, not a problem in your program"
  | _ => none

def text (f : Failure) : String :=
  (match f.code? with
    | some code => headed code f.message
    | none => "\n" ++ f.message ++ "\n") ++
    (match f.help? with
      | some help => "  help: " ++ help ++ "\n"
      | none => "")

def exitCode : Failure → UInt32
  | .internal _ _ | .listing _ _ => 3
  | .brokenReport => 101
  | _ => 1

end Failure

section Run

variable {m : Type → Type} [Monad m] (host : Host m)

/-- The project file to read, if any. Without arguments it is the one that is there. -/
def projectFile? (a : Arguments) : m (Option String) := do
  match a.project with
  | some path =>
    if ← host.isDirectory path then return some (Path.join path projectFileName)
    else return some path
  | none =>
    if a.files.isEmpty then
      if ← host.holds projectFileName then return some projectFileName
    return none

/-- The input files, and the options of the project. -/
def resolveInputs (a : Arguments) : ExceptT Failure m (List String × Options) := do
  match ← ExceptT.lift (projectFile? host a) with
  | none => return (a.files, {})
  | some path =>
    let some text ← host.read? path | throw (.projectUnreadable path)
    let some project := Project.ofText? text | throw .projectInvalid
    let base := (Path.parent? path).getD "."
    return (project.inputs base ++ a.files, project.optionsOrDefault)

def loadAll : List String → ExceptT Failure m (List SourceFile)
  | [] => return []
  | path :: rest => do
    let some text ← host.read? path | throw (.inputUnreadable path)
    let some file := SourceFile.ofText? text | throw (.inputInvalid path)
    return file :: (← loadAll rest)

/-- The source text of the first file with a name. -/
def sourceText? (files : List SourceFile) (name : String) : Option String :=
  (files.find? (·.fileName == name)).bind (·.text)

/-- Reports diagnostics in order, up to one whose report breaks off. -/
def reportAll (files : List SourceFile) (r : Reporter) :
    List Diagnostic → ExceptT Failure m Reporter
  | [] => return r
  | d :: rest => do
    let source := d.file.bind (sourceText? files)
    let (text, next) := r.report host.locate d source
    host.err text
    if r.hasRoom && Reporter.breaksOff host.locate d source then throw .brokenReport
    reportAll files next rest

/-- Compiles one input and writes its image. -/
def emitOne (options : Options) (files : List SourceFile) (r : Reporter)
    (file : SourceFile) (input : String) : ExceptT Failure m Reporter := do
  match file.compile with
  | .ok image =>
    if options.lists then
      match image.listing with
      | .ok listing => host.out ("== " ++ file.fileName ++ " ==\n" ++ listing ++ "\n")
      | .error cause => throw (.listing file.fileName cause)
    let path := outputPath input options.outFile
    if !(← host.write path image.encode) then throw (.outputUnwritable path)
    return r
  | .error (.diagnostics found) => reportAll host files r found
  | .error (.incomplete span) => throw (.incomplete file.fileName span)
  | .error (.emit cause) => throw (.internal file.fileName cause)

def emitAll (options : Options) (files : List SourceFile) (r : Reporter) :
    List (SourceFile × String) → ExceptT Failure m Reporter
  | [] => return r
  | (file, input) :: rest => do
    let r ← emitOne host options files r file input
    emitAll options files r rest

/-- Writes a project file to start from. -/
def startProject : ExceptT Failure m Unit := do
  let path := Path.join "." projectFileName
  if ← host.holds path then throw (.projectExists path)
  let text := Project.initial.toValue.pretty ++ "\n"
  if !(← host.write path text.toUTF8.toList) then throw (.projectUnwritable path)
  host.out ("Successfully created " ++ path ++ ".\n")

/-- Checks or compiles what is asked for, with the exit code. -/
def compileInputs (a : Arguments) : ExceptT Failure m UInt32 := do
  let (inputs, projectOptions) ← resolveInputs host a
  let options := projectOptions.merge a.overrides
  if inputs.isEmpty then throw .noInput
  if options.outFile.isSome ∧ 1 < inputs.length then throw (.manyInputs inputs.length)
  let files ← loadAll host inputs
  let r : Reporter := { limit := options.maxDiagnostics }
  let r ← if options.checksOnly then reportAll host files r (checkAll files)
    else emitAll host options files r (files.zip inputs)
  host.err r.summary
  return if r.failed then 2 else 0

def run (a : Arguments) : ExceptT Failure m UInt32 := do
  if a.init then
    startProject host
    return 0
  else compileInputs host a

end Run

def usage : String :=
  "Usage: sashc [OPTIONS] [FILE]...\n\n" ++
  "Options:\n" ++
  "  -p, --project <PROJECT>  Path to sash.json, or a directory containing one\n" ++
  "      --noEmit             Check only; do not write program images\n" ++
  "  -o, --outFile <FILE>     Write the program image to this path (single input only)\n" ++
  "      --disassemble        Print a listing of each emitted program\n" ++
  "      --maxDiagnostics <N> Print at most this many diagnostics\n" ++
  "  -v, --verbose            Log compiler stages\n" ++
  "      --init               Write a default sash.json in the current directory\n" ++
  "  -h, --help               Print help\n" ++
  "  -V, --version            Print version\n"

def Stop.message : Stop → String
  | .version | .help => ""
  | .unexpected argument => "unexpected argument '" ++ argument ++ "' found"
  | .unexpectedValue s => "unexpected value for '" ++ s.name ++ "' found"
  | .repeated name => "the argument '" ++ name ++ "' cannot be used multiple times"
  | .missingValue s => "a value is required for '" ++ s.name ++ "' but none was supplied"
  | .invalidValue name value => "invalid value '" ++ value ++ "' for '" ++ name ++ "'"

/-- Carries out a command line, with the exit code. -/
def command {m : Type → Type} [Monad m] (host : Host m) (line : List String) : m UInt32 := do
  match Arguments.parse line with
  | .error .version =>
    host.out "sashc 0.1.0\n"
    return 0
  | .error .help =>
    host.out ("sashc - compile sash syntax trees to VM bytecode\n\n" ++ usage)
    return 0
  | .error stop =>
    host.err ("error: " ++ stop.message ++ "\n\n" ++ usage)
    return 1
  | .ok a =>
    match ← (run host a).run with
    | .ok code => return code
    | .error failure =>
      host.err failure.text
      return failure.exitCode

def commandOn (store : Store) (line : List String) : UInt32 × World :=
  (command Host.store line).run { store }

end Bindery.Cli
