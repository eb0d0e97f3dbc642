import Bindery.Json.Value
import Bindery.Tree.Kind

/-!
Syntax trees as JSON.

A node is an object with its kind and its fields. What is missing is null. A number
that JSON cannot write is null too.
-/

namespace Bindery

open Json (Value)

def Span.toValue (s : Span) : Value :=
  .object [("start", .ofNat s.start.toNat), ("length", .ofNat s.length.toNat)]

def Identifier.toValue (i : Identifier) : Value :=
  .object [("name", .string i.name), ("span", i.span.toValue)]

def Parameter.toValue (p : Parameter) : Value :=
  .object [("name", p.name.toValue), ("type_annotation", p.typeName.toValue),
    ("span", p.span.toValue)]

namespace Literal

def kind : Literal → LiteralKind
  | .boolean _ => .boolean
  | .int _ => .int
  | .long _ => .long
  | .float _ => .float
  | .double _ => .double
  | .string _ => .string
  | .char _ => .char

/-- The value without its kind. -/
def contentValue : Literal → Value
  | .boolean b => .bool b
  | .int n => .number (.integer n.toInt)
  | .long n => .number (.integer n.toInt)
  | .float bits => .ofFloating Floating.single bits.toNat
  | .double bits => .ofFloating Floating.double bits.toNat
  | .string s => .string s
  | .char c => .string c.toString

def toValue (l : Literal) : Value :=
  .object [("type", .string l.kind.name), ("value", l.contentValue)]

end Literal

/-- A node of a kind. -/
def kindValue (name : String) (fields : List (String × Value)) : Value :=
  .object (("kind", .string name) :: fields)

mutual

def Expression.toValue : Expression → Value
  | .literal value span =>
    kindValue ExpressionKind.literal.name [("value", value.toValue), ("span", span.toValue)]
  | .reference name =>
    kindValue ExpressionKind.reference.name
      [("name", .string name.name), ("span", name.span.toValue)]
  | .assignment target value span =>
    kindValue ExpressionKind.assignment.name
      [("target", target.toValue), ("value", value.toValue), ("span", span.toValue)]
  | .binary left operator operatorSpan right span =>
    kindValue ExpressionKind.binary.name
      [("left", left.toValue), ("operator", .string operator.token),
        ("operator_span", operatorSpan.toValue), ("right", right.toValue),
        ("span", span.toValue)]
  | .unary operator operatorSpan operand span =>
    kindValue ExpressionKind.unary.name
      [("operator", .string operator.token), ("operator_span", operatorSpan.toValue),
        ("operand", operand.toValue), ("span", span.toValue)]
  | .parenthesized inner span =>
    kindValue ExpressionKind.parenthesized.name
      [("expression", inner.toValue), ("span", span.toValue)]
  | .call target arguments argumentsSpan span =>
    kindValue ExpressionKind.call.name
      [("target", target.toValue), ("arguments", .array (expressionValues arguments)),
        ("arguments_span", argumentsSpan.toValue), ("span", span.toValue)]
  | .ternary condition yes no span =>
    kindValue ExpressionKind.ternary.name
      [("condition", condition.toValue), ("then_expression", yes.toValue),
        ("else_expression", no.toValue), ("span", span.toValue)]

def expressionValues : List Expression → List Value
  | [] => []
  | e :: rest => e.toValue :: expressionValues rest

end

/-- The fields of a list of statements with a span. -/
def blockFields (statements : List Value) (span : Span) : List (String × Value) :=
  [("statements", .array statements), ("span", span.toValue)]

mutual

def Statement.toValue : Statement → Value
  | .function name parameters result body bodySpan span =>
    kindValue StatementKind.function.name
      [("name", name.toValue), ("parameters", .array (parameters.map Parameter.toValue)),
        ("return_type", .ofOption (result.map Identifier.toValue)),
        ("body", .object (blockFields (statementValues body) bodySpan)),
        ("span", span.toValue)]
  | .declare name typeName readOnly value span =>
    kindValue StatementKind.declare.name
      [("name", name.toValue),
        ("type_annotation", .ofOption (typeName.map Identifier.toValue)),
        ("read_only", .bool readOnly), ("initializer", value.toValue), ("span", span.toValue)]
  | .ifThen condition yes span =>
    kindValue StatementKind.ifElse.name
      [("condition", condition.toValue), ("then_branch", yes.toValue), ("else_branch", .null),
        ("span", span.toValue)]
  | .ifElse condition yes no span =>
    kindValue StatementKind.ifElse.name
      [("condition", condition.toValue), ("then_branch", yes.toValue),
        ("else_branch", no.toValue), ("span", span.toValue)]
  | .whileLoop condition body span =>
    kindValue StatementKind.whileLoop.name
      [("condition", condition.toValue), ("body", body.toValue), ("span", span.toValue)]
  | .doWhile body condition span =>
    kindValue StatementKind.doWhile.name
      [("body", body.toValue), ("condition", condition.toValue), ("span", span.toValue)]
  | .block statements span =>
    kindValue StatementKind.block.name (blockFields (statementValues statements) span)
  | .returns value span =>
    kindValue StatementKind.returns.name
      [("value", .ofOption (value.map Expression.toValue)), ("span", span.toValue)]
  | .breakLoop span =>
    kindValue StatementKind.breakLoop.name
      [("start", .ofNat span.start.toNat), ("length", .ofNat span.length.toNat)]
  | .continueLoop span =>
    kindValue StatementKind.continueLoop.name
      [("start", .ofNat span.start.toNat), ("length", .ofNat span.length.toNat)]
  | .print value span =>
    kindValue StatementKind.print.name [("expression", value.toValue), ("span", span.toValue)]
  | .expression value span =>
    kindValue StatementKind.expression.name
      [("expression", value.toValue), ("span", span.toValue)]

def statementValues : List Statement → List Value
  | [] => []
  | s :: rest => s.toValue :: statementValues rest

end

def SourceFile.toValue (file : SourceFile) : Value :=
  .object [("file_name", .string file.fileName), ("text", .ofOption (file.text.map .string)),
    ("statements", .array (statementValues file.statements)), ("span", file.span.toValue)]

end Bindery
