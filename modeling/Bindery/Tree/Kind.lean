import Bindery.Tree

/-!
The names that kinds of statements, expressions and literals have in written trees.
-/

namespace Bindery

inductive ExpressionKind where
  | literal | reference | assignment | binary | unary | parenthesized | call | ternary
deriving DecidableEq, Repr, Inhabited

namespace ExpressionKind

def name : ExpressionKind → String
  | .literal => "Literal"
  | .reference => "Variable"
  | .assignment => "Assignment"
  | .binary => "Binary"
  | .unary => "Unary"
  | .parenthesized => "Parenthesized"
  | .call => "Call"
  | .ternary => "Ternary"

def all : List ExpressionKind :=
  [.literal, .reference, .assignment, .binary, .unary, .parenthesized, .call, .ternary]

end ExpressionKind

inductive StatementKind where
  | function | declare | ifElse | whileLoop | doWhile | block | returns | breakLoop
  | continueLoop | print | expression
deriving DecidableEq, Repr, Inhabited

namespace StatementKind

def name : StatementKind → String
  | .function => "Function"
  | .declare => "Variable"
  | .ifElse => "If"
  | .whileLoop => "While"
  | .doWhile => "DoWhile"
  | .block => "Block"
  | .returns => "Return"
  | .breakLoop => "Break"
  | .continueLoop => "Continue"
  | .print => "Print"
  | .expression => "Expression"

def all : List StatementKind :=
  [.function, .declare, .ifElse, .whileLoop, .doWhile, .block, .returns, .breakLoop,
    .continueLoop, .print, .expression]

end StatementKind

inductive LiteralKind where
  | boolean | int | long | float | double | string | char
deriving DecidableEq, Repr, Inhabited

namespace LiteralKind

def name : LiteralKind → String
  | .boolean => "Boolean"
  | .int => "Int"
  | .long => "Long"
  | .float => "Float"
  | .double => "Double"
  | .string => "String"
  | .char => "Char"

def all : List LiteralKind := [.boolean, .int, .long, .float, .double, .string, .char]

def ofName? (name : String) : Option LiteralKind := all.find? (·.name == name)

end LiteralKind

end Bindery
