import Bindery.Project

/-!
The command line.

Arguments are taken from left to right. An option that needs a value takes it from
behind `=`, from the rest of a group of short options, or from the next argument,
which then must not look like an option. Behind `--` everything is a file. Asking
for the version or for help ends the reading.
-/

namespace Bindery.Cli

structure Arguments where
  files : List String := []
  /-- A project file, or a directory with one. -/
  project : Option String := none
  noEmit : Bool := false
  outFile : Option String := none
  disassemble : Bool := false
  maxDiagnostics : Option Nat := none
  verbose : Bool := false
  init : Bool := false
deriving DecidableEq, Repr, Inhabited

/-- Options that stand alone. -/
inductive Switch where
  | noEmit | disassemble | verbose | init | version | help
deriving DecidableEq, Repr, Inhabited

/-- Options with a value. -/
inductive Setting where
  | project | outFile | maxDiagnostics
deriving DecidableEq, Repr, Inhabited

inductive Flag where
  | switch (s : Switch)
  | setting (s : Setting)
deriving DecidableEq, Repr, Inhabited

namespace Flag

def ofLong? : String → Option Flag
  | "noEmit" => some (.switch .noEmit)
  | "disassemble" => some (.switch .disassemble)
  | "verbose" => some (.switch .verbose)
  | "init" => some (.switch .init)
  | "version" => some (.switch .version)
  | "help" => some (.switch .help)
  | "project" => some (.setting .project)
  | "outFile" => some (.setting .outFile)
  | "maxDiagnostics" => some (.setting .maxDiagnostics)
  | _ => none

def ofShort? : Char → Option Flag
  | 'v' => some (.switch .verbose)
  | 'V' => some (.switch .version)
  | 'h' => some (.switch .help)
  | 'p' => some (.setting .project)
  | 'o' => some (.setting .outFile)
  | _ => none

end Flag

def Switch.name : Switch → String
  | .noEmit => "--noEmit"
  | .disassemble => "--disassemble"
  | .verbose => "--verbose"
  | .init => "--init"
  | .version => "--version"
  | .help => "--help"

def Setting.name : Setting → String
  | .project => "--project"
  | .outFile => "--outFile"
  | .maxDiagnostics => "--maxDiagnostics"

/-- Why a command line is not read to its end. -/
inductive Stop where
  | version
  | help
  | unexpected (argument : String)
  | unexpectedValue (s : Switch)
  | repeated (name : String)
  | missingValue (s : Setting)
  | invalidValue (name value : String)
deriving DecidableEq, Repr, Inhabited

/-- A whole number with an optional plus sign, below `2 ^ 64`. -/
def count? (text : String) : Option Nat :=
  let digits := match text.toList with
    | '+' :: rest => rest
    | chars => chars
  if digits.isEmpty || !digits.all Char.isDigit then none
  else
    let n := digits.foldl (fun n c => 10 * n + (c.toNat - '0'.toNat)) 0
    if n < UInt64.size then some n else none

namespace Arguments

/-- Turns a switch on, which is allowed once. -/
def turnOn (a : Arguments) (s : Switch) : Except Stop Arguments :=
  let once (on : Bool) (next : Arguments) : Except Stop Arguments :=
    if on then .error (.repeated s.name) else .ok next
  match s with
  | .noEmit => once a.noEmit { a with noEmit := true }
  | .disassemble => once a.disassemble { a with disassemble := true }
  | .verbose => once a.verbose { a with verbose := true }
  | .init => once a.init { a with init := true }
  | .version => .error .version
  | .help => .error .help

/-- Gives a setting its value, which is allowed once. -/
def assign (a : Arguments) (s : Setting) (value : String) : Except Stop Arguments :=
  match s with
  | .project =>
    if a.project.isSome then .error (.repeated s.name)
    else if value.isEmpty then .error (.invalidValue s.name value)
    else .ok { a with project := some value }
  | .outFile =>
    if a.outFile.isSome then .error (.repeated s.name)
    else .ok { a with outFile := some value }
  | .maxDiagnostics =>
    if a.maxDiagnostics.isSome then .error (.repeated s.name)
    else
      match count? value with
      | some n => .ok { a with maxDiagnostics := some n }
      | none => .error (.invalidValue s.name value)

/-- Adds a file, whose path is not empty. -/
def addFile (a : Arguments) (path : String) : Except Stop Arguments :=
  if path.isEmpty then .error (.invalidValue "[FILE]" path)
  else .ok { a with files := a.files ++ [path] }

/-- The options that are set on the command line. -/
def overrides (a : Arguments) : Options where
  noEmit := if a.noEmit then some true else none
  outFile := a.outFile
  disassemble := if a.disassemble then some true else none
  maxDiagnostics := a.maxDiagnostics

end Arguments

/-- How far a command line has been read. -/
structure Reading where
  arguments : Arguments := {}
  /-- The setting that waits for its value. -/
  pending : Option Setting := none
  /-- Whether only files follow. -/
  filesOnly : Bool := false
deriving DecidableEq, Repr, Inhabited

namespace Reading

def shorts (argument : String) (r : Reading) : List Char → Except Stop Reading
  | [] => .ok r
  | c :: rest =>
    match Flag.ofShort? c with
    | none => .error (.unexpected argument)
    | some (.switch s) => do
      let arguments ← r.arguments.turnOn s
      shorts argument { r with arguments } rest
    | some (.setting s) =>
      match rest with
      | [] => .ok { r with pending := some s }
      | '=' :: value => do
        return { r with arguments := ← r.arguments.assign s (String.ofList value) }
      | value => do
        return { r with arguments := ← r.arguments.assign s (String.ofList value) }

def long (argument : String) (r : Reading) (text : List Char) : Except Stop Reading :=
  let name := String.ofList (text.takeWhile (· ≠ '='))
  match Flag.ofLong? name, text.dropWhile (· ≠ '=') with
  | none, _ => .error (.unexpected argument)
  | some (.switch s), [] => do
    return { r with arguments := ← r.arguments.turnOn s }
  | some (.switch s), _ => .error (.unexpectedValue s)
  | some (.setting s), [] => .ok { r with pending := some s }
  | some (.setting s), _ :: value => do
    return { r with arguments := ← r.arguments.assign s (String.ofList value) }

def step (r : Reading) (argument : String) : Except Stop Reading :=
  if r.filesOnly then do
    return { r with arguments := ← r.arguments.addFile argument }
  else
    match r.pending, argument.toList with
    | some s, '-' :: _ :: _ => .error (.missingValue s)
    | some s, _ => do
      return { r with arguments := ← r.arguments.assign s argument, pending := none }
    | none, ['-', '-'] => .ok { r with filesOnly := true }
    | none, '-' :: '-' :: text => r.long argument text
    | none, '-' :: c :: rest => r.shorts argument (c :: rest)
    | none, _ => do
      return { r with arguments := ← r.arguments.addFile argument }

end Reading

def Arguments.parse (line : List String) : Except Stop Arguments := do
  let r ← line.foldlM Reading.step {}
  match r.pending with
  | some s => .error (.missingValue s)
  | none => return r.arguments

end Bindery.Cli
