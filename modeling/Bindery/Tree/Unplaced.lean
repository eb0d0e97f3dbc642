import Bindery.Tree

/-!
Trees without places: every span is empty. They are for programs that stand for themselves and
not for a text.
-/

namespace Bindery.Unplaced

def name (s : String) : Identifier := ⟨s, default⟩

def use (x : String) : Expression := .reference (name x)

def int (n : Int32) : Expression := .literal (.int n) default

def boolean (b : Bool) : Expression := .literal (.boolean b) default

def binary (operator : BinaryOperator) (left right : Expression) : Expression :=
  .binary left operator default right default

def call (f : String) (arguments : List Expression) : Expression :=
  .call (use f) arguments default default

def val (x : String) (value : Expression) : Statement := .declare (name x) none true value default

def var (x : String) (value : Expression) : Statement := .declare (name x) none false value default

def assign (x : String) (value : Expression) : Statement :=
  .expression (.assignment (use x) value default) default

def print (value : Expression) : Statement := .print value default

def give (value : Expression) : Statement := .returns (some value) default

def block (statements : List Statement) : Statement := .block statements default

def ifThen (condition : Expression) (yes : Statement) : Statement := .ifThen condition yes default

def whileLoop (condition : Expression) (body : List Statement) : Statement :=
  .whileLoop condition (block body) default

/-- A function; its parameters are pairs of a name and the name of a type. -/
def function (f : String) (parameters : List (String × String)) (result : Option String)
    (body : List Statement) : Statement :=
  .function (name f) (parameters.map fun p => ⟨name p.1, name p.2, default⟩) (result.map name) body
    default default

def source (name : String) (statements : List Statement) : SourceFile :=
  ⟨name, none, statements, default⟩

end Bindery.Unplaced
