import Bindery.Json.Record
import Bindery.Path

/-!
Options and project files.

Options steer what is done with compiled files, never how they are compiled. A
project file names input files and sets options; options given elsewhere are laid
over them.
-/

namespace Bindery

open Json (Contents Document Value)

/-- What to do with compiled files. An option that is not set leaves the matter open. -/
structure Options where
  /-- Check only. -/
  noEmit : Option Bool := none
  /-- Where the image goes. -/
  outFile : Option String := none
  /-- Print a listing of each image. -/
  disassemble : Option Bool := none
  /-- How many diagnostics are printed at most. -/
  maxDiagnostics : Option Nat := none
deriving DecidableEq, Repr, Inhabited

namespace Options

/-- Lays `overrides` over options: what is set there wins. -/
def merge (options overrides : Options) : Options where
  noEmit := overrides.noEmit <|> options.noEmit
  outFile := overrides.outFile <|> options.outFile
  disassemble := overrides.disassemble <|> options.disassemble
  maxDiagnostics := overrides.maxDiagnostics <|> options.maxDiagnostics

def checksOnly (options : Options) : Bool := options.noEmit.getD false

def lists (options : Options) : Bool := options.disassemble.getD false

def toValue (options : Options) : Value :=
  .object <| List.flatten
    [(options.noEmit.map fun b => ("noEmit", Value.bool b)).toList,
      (options.outFile.map fun s => ("outFile", Value.string s)).toList,
      (options.disassemble.map fun b => ("disassemble", Value.bool b)).toList,
      (options.maxDiagnostics.map fun n => ("maxDiagnostics", Value.ofNat n)).toList]

/-- A field that may be missing or null. -/
def field? {α : Type} (read : Document → Option α) : Option Document → Option (Option α)
  | none => some none
  | some .null => some none
  | some d => (read d).map some

def ofDocument? (d : Document) : Option Options := do
  match ← (← d.contents?).fields? ["noEmit", "outFile", "disassemble", "maxDiagnostics"] with
  | [noEmit, outFile, disassemble, maxDiagnostics] =>
    let flag (d : Document) : Option Bool := (d.value? 0).bind Value.bool?
    return {
      noEmit := ← field? flag noEmit
      outFile := ← field? (fun d => (d.value? 0).bind Value.string?) outFile
      disassemble := ← field? flag disassemble
      maxDiagnostics := ← field? (fun d => (d.value? 0).bind (·.below? UInt64.size)) maxDiagnostics }
  | _ => none

end Options

def projectFileName : String := "sash.json"

/-- A project file. -/
structure Project where
  options : Option Options := none
  /-- Input files, seen from the directory of the project file. -/
  files : Option (List String) := none
deriving DecidableEq, Repr, Inhabited

namespace Project

def ofDocument? (d : Document) : Option Project := do
  match ← (← d.contents?).fields? ["compilerOptions", "files"] with
  | [options, files] =>
    let names (d : Document) : Option (List String) := do
      let items ← (← d.value? 1).items?
      items.mapM (·.1.string?)
    return {
      options := ← Options.field? Options.ofDocument? options
      files := ← Options.field? names files }
  | _ => none

def ofText? (text : String) : Option Project := do
  ofDocument? (← Document.ofText? text)

def toValue (p : Project) : Value :=
  .object [("compilerOptions", .ofOption (p.options.map Options.toValue)),
    ("files", .ofOption (p.files.map fun names => .array (names.map .string)))]

/-- The options, with nothing set where there are none. -/
def optionsOrDefault (p : Project) : Options := p.options.getD {}

/-- The paths of the input files of a project file in `base`. -/
def inputs (p : Project) (base : String) : List String := (p.files.getD []).map (Path.join base)

def initial : Project where
  options := some { noEmit := some false, disassemble := some false }
  files := some []

end Project

def imageExtension : String := "sbc"

/-- Where the image of a source goes: to the given path, or beside the source. -/
def outputPath (source : String) (outFile : Option String) : String :=
  outFile.getD (Path.withExtension source imageExtension)

end Bindery
