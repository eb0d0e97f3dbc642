import Bindery.Floating.Text
import Bindery.Tree

/-!
Building trees without source text.

A builder hands out spans: every leaf reserves the next stretch of an imagined
text, one byte apart from the one before, and a node covers its parts. Parts are
built before the node they belong to, so spans follow the order of building.
-/

namespace Bindery

/-- A step of building; the state is the next free offset. -/
abbrev Build := StateM Nat

namespace Build

/-- Reserves the next `length` bytes and leaves one byte free behind them. -/
def reserve (length : Nat) : Build Span := fun cursor =>
  (⟨.ofNat cursor, .ofNat length⟩, cursor + length + 1)

/-- Reserves room for a text, at least one byte. -/
def reserveText (text : String) : Build Span :=
  reserve (max text.utf8ByteSize 1)

/-- A name; a missing one takes no room. -/
def identifier (name : String) : Build Identifier := do
  let span ← if name.isEmpty then reserve 0 else reserveText name
  return ⟨name, span⟩

/-- The room a literal takes, in bytes: its value as it is written, with a suffix
letter on `Long` and `Float`, and with quotes. -/
def literalWidth : Literal → Nat
  | .boolean value => if value then 4 else 5
  | .int value => (toString value.toInt).length
  | .long value => (toString value.toInt).length + 1
  | .float bits => (Floating.plainStyle.text Floating.single bits.toNat).length + 1
  | .double bits => (Floating.plainStyle.text Floating.double bits.toNat).length
  | .string value => value.utf8ByteSize + 2
  | .char _ => 3

def literal (value : Literal) : Build Expression := do
  return .literal value (← reserve (literalWidth value))

def reference (name : String) : Build Expression := do
  return .reference (← identifier name)

def assignment (target value : Expression) : Build Expression :=
  return .assignment target value (target.span.union value.span)

/-- The operator is placed after both operands. -/
def binary (left : Expression) (operator : BinaryOperator) (right : Expression) :
    Build Expression := do
  let operatorSpan ← reserveText operator.token
  let span := (left.span.union right.span).union operatorSpan
  return .binary left operator operatorSpan right span

/-- The operator is placed after its operand. -/
def unary (operator : UnaryOperator) (operand : Expression) : Build Expression := do
  let operatorSpan ← reserveText operator.token
  return .unary operator operatorSpan operand (operatorSpan.union operand.span)

def parenthesized (inner : Expression) : Build Expression := do
  let close ← reserve 1
  return .parenthesized inner (inner.span.union close)

def call (target : Expression) (arguments : List Expression) : Build Expression := do
  let close ← reserve 1
  let argumentsSpan := arguments.foldl (fun span argument => span.union argument.span) close
  return .call target arguments argumentsSpan (target.span.union argumentsSpan)

def ternary (condition yes no : Expression) : Build Expression :=
  return .ternary condition yes no ((condition.span.union yes.span).union no.span)

/-- A declaration; keyword, name and type are placed after the value. -/
def declare (name : String) (typeName : Option String) (readOnly : Bool) (value : Expression) :
    Build Statement := do
  let keyword ← reserve 3
  let name ← identifier name
  let typeName ← typeName.mapM identifier
  return .declare name typeName readOnly value (keyword.union value.span)

/-- The span of a braced list: from its first statement to its own closing brace. -/
def blockSpan (statements : List Statement) : Build Span := do
  let close ← reserve 1
  let start := (statements.map (·.span.start.toNat)).min?.getD close.start.toNat
  return .ofBounds start close.stop

def block (statements : List Statement) : Build Statement := do
  return .block statements (← blockSpan statements)

def parameter (name typeName : String) : Build Parameter := do
  let name ← identifier name
  let typeName ← identifier typeName
  return ⟨name, typeName, name.span.union typeName.span⟩

def function (name : String) (parameters : List (String × String)) (result : Option String)
    (body : List Statement) (bodySpan : Span) : Build Statement := do
  let keyword ← reserve 3
  let name ← identifier name
  let parameters ← parameters.mapM fun (name, typeName) => parameter name typeName
  let result ← result.mapM identifier
  return .function name parameters result body bodySpan (keyword.union bodySpan)

def ifThen (condition : Expression) (yes : Statement) : Build Statement :=
  return .ifThen condition yes (condition.span.union yes.span)

def ifElse (condition : Expression) (yes no : Statement) : Build Statement :=
  return .ifElse condition yes no ((condition.span.union yes.span).union no.span)

def whileLoop (condition : Expression) (body : Statement) : Build Statement :=
  return .whileLoop condition body (condition.span.union body.span)

def doWhile (body : Statement) (condition : Expression) : Build Statement :=
  return .doWhile body condition (body.span.union condition.span)

def returns (value : Option Expression) : Build Statement := do
  let keyword ← reserve 6
  let span := match value with
    | some value => keyword.union value.span
    | none => keyword
  return .returns value span

def breakLoop : Build Statement := do
  return .breakLoop (← reserve 5)

def continueLoop : Build Statement := do
  return .continueLoop (← reserve 8)

def print (value : Expression) : Build Statement := do
  let keyword ← reserve 5
  return .print value (keyword.union value.span)

def expression (value : Expression) : Build Statement :=
  return .expression value value.span

/-- A file that spans everything built so far. -/
def sourceFile (fileName : String) (statements : List Statement) : Build SourceFile := do
  return ⟨fileName, none, statements, .ofBounds 0 (← get)⟩

def run (build : Build α) : α :=
  (build 0).1

end Build

end Bindery
