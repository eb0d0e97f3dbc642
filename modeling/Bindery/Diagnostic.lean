import Bindery.Span

/-!
Diagnostics.

A diagnostic is an entry of the catalogue with the arguments that fill its
message, the span it points at and, once known, the file. Every diagnostic is an
error. `Diagnostic.sort` orders a collection by file and start offset and keeps
the order of report otherwise.
-/

namespace Bindery

/-- The catalogue of messages. -/
inductive Problem where
  | unknownName | redeclaredName | unknownType | duplicateParameter
  | notAssignable | undefinedBinary | undefinedUnary | conditionNotBoolean
  | notCallable | wrongArgumentCount | argumentNotAssignable | readOnlyTarget | invalidTarget
  | jumpOutsideLoop | jumpAcrossFunction | valueExpected | missingReturn | unreached
  | wrongReturnType
deriving DecidableEq, Repr, Inhabited

namespace Problem

def all : List Problem :=
  [.unknownName, .redeclaredName, .unknownType, .duplicateParameter,
    .notAssignable, .undefinedBinary, .undefinedUnary, .conditionNotBoolean,
    .notCallable, .wrongArgumentCount, .argumentNotAssignable, .readOnlyTarget, .invalidTarget,
    .jumpOutsideLoop, .jumpAcrossFunction, .valueExpected, .missingReturn, .unreached,
    .wrongReturnType]

/-- The number a problem is known by: names from 2000, types from 2100, calls and
assignments from 2200, control flow from 2300. -/
def code : Problem → Nat
  | .unknownName => 2001
  | .redeclaredName => 2002
  | .unknownType => 2003
  | .duplicateParameter => 2004
  | .notAssignable => 2101
  | .undefinedBinary => 2102
  | .undefinedUnary => 2103
  | .conditionNotBoolean => 2104
  | .notCallable => 2201
  | .wrongArgumentCount => 2202
  | .argumentNotAssignable => 2203
  | .readOnlyTarget => 2204
  | .invalidTarget => 2205
  | .jumpOutsideLoop => 2301
  | .jumpAcrossFunction => 2302
  | .valueExpected => 2303
  | .missingReturn => 2304
  | .unreached => 2305
  | .wrongReturnType => 2306

def ofCode? (code : Nat) : Option Problem :=
  all.find? (·.code == code)

/-- The message, with holes for its arguments: a number in braces. -/
def template : Problem → String
  | .unknownName => "Cannot find name '\x7b0\x7d'."
  | .redeclaredName => "Name '\x7b0\x7d' is already declared in this scope."
  | .unknownType => "Cannot find type '\x7b0\x7d'."
  | .duplicateParameter => "Duplicate parameter '\x7b0\x7d'."
  | .notAssignable => "Type '\x7b0\x7d' is not assignable to type '\x7b1\x7d'."
  | .undefinedBinary =>
    "Operator '\x7b0\x7d' cannot be applied to types '\x7b1\x7d' and '\x7b2\x7d'."
  | .undefinedUnary => "Operator '\x7b0\x7d' cannot be applied to type '\x7b1\x7d'."
  | .conditionNotBoolean => "Condition must be of type 'Boolean', found '\x7b0\x7d'."
  | .notCallable => "Expression of type '\x7b0\x7d' is not callable."
  | .wrongArgumentCount => "Expected \x7b0\x7d arguments, but got \x7b1\x7d."
  | .argumentNotAssignable =>
    "Argument of type '\x7b0\x7d' is not assignable to parameter of type '\x7b1\x7d'."
  | .readOnlyTarget => "Cannot assign to '\x7b0\x7d' because it is read-only."
  | .invalidTarget => "The left-hand side of an assignment must be a variable."
  | .jumpOutsideLoop => "'\x7b0\x7d' can only be used inside a loop."
  | .jumpAcrossFunction => "'\x7b0\x7d' cannot jump out of a function body."
  | .valueExpected => "A return value of type '\x7b0\x7d' is expected."
  | .missingReturn => "Function requires a return of type '\x7b0\x7d' on every path."
  | .unreached => "Unreached statement."
  | .wrongReturnType =>
    "A value of type '\x7b0\x7d' cannot be returned from a function returning '\x7b1\x7d'."

end Problem

namespace Template

/-- Replaces each occurrence of `hole`, from the left, by `argument`. `skip` is
the number of characters of an occurrence still to be passed over. -/
def fillFrom (hole argument : List Char) : (skip : Nat) → List Char → List Char
  | _, [] => []
  | skip + 1, _ :: rest => fillFrom hole argument skip rest
  | 0, c :: rest =>
    if hole.isPrefixOf (c :: rest) then
      argument ++ fillFrom hole argument (hole.length - 1) rest
    else
      c :: fillFrom hole argument 0 rest

/-- The hole of argument `i`: its number in braces. -/
def hole (i : Nat) : List Char :=
  '\x7b' :: (Nat.toDigits 10 i ++ ['\x7d'])

/-- Fills the holes of arguments `i`, `i + 1`, ... one after the other, each in
the text the earlier ones left. -/
def fillAll (i : Nat) : List String → List Char → List Char
  | [], text => text
  | argument :: rest, text => fillAll (i + 1) rest (fillFrom (hole i) argument.toList 0 text)

def fill (template : String) (arguments : List String) : String :=
  String.ofList (fillAll 0 arguments template.toList)

end Template

/-- A reported problem. -/
structure Diagnostic where
  file : Option String
  span : Option Span
  problem : Problem
  arguments : List String
deriving DecidableEq, Repr, Inhabited

namespace Diagnostic

def on (span : Span) (problem : Problem) (arguments : List String) : Diagnostic :=
  ⟨none, some span, problem, arguments⟩

def code (d : Diagnostic) : Nat :=
  d.problem.code

def message (d : Diagnostic) : String :=
  Template.fill d.problem.template d.arguments

/-- The code as it is shown: `SH2001`. -/
def label (d : Diagnostic) : String :=
  "SH" ++ toString d.code

/-- `file(start): error SH2001: message`, without the place when it is not known. -/
def text (d : Diagnostic) : String :=
  let place := match d.file, d.span with
    | some file, some span => file ++ "(" ++ toString span.start.toNat ++ "): "
    | some file, none => file ++ ": "
    | none, _ => ""
  place ++ "error " ++ d.label ++ ": " ++ d.message

/-- Puts a diagnostic that has no file yet into `file`. -/
def inFile (file : String) (d : Diagnostic) : Diagnostic :=
  match d.file with
  | none => { d with file := some file }
  | some _ => d

/-- Whether `a` may stand before `b`: by file, one without a file first, then by
start offset, one without a span first. -/
def notAfter (a b : Diagnostic) : Bool :=
  match compareFiles a.file b.file with
  | .lt => true
  | .gt => false
  | .eq =>
    match a.span, b.span with
    | none, _ => true
    | some _, none => false
    | some s, some t => s.start.toNat ≤ t.start.toNat
where
  /-- Files compare by the bytes of their names, which is the order of their
  code points. -/
  compareFiles : Option String → Option String → Ordering
    | none, none => .eq
    | none, some _ => .lt
    | some _, none => .gt
    | some f, some g => compare f g

/-- Sorted by file and start offset; diagnostics at one place keep their order. -/
def sort (ds : List Diagnostic) : List Diagnostic :=
  ds.mergeSort notAfter

end Diagnostic

end Bindery
