/-!
The types of expressions.

Nine types can be named in a program. `error` is the type of an expression that
has already been diagnosed; it is assignable to and from everything, so that one
mistake is reported once. Function types are structural.

`Ty.same` decides equality (`Ty.same_iff`) and `Ty.assignableTo` says which
values may be stored where.
-/

namespace Bindery

inductive Ty where
  | boolean | int | long | float | double | string | char | unit | any
  /-- Already diagnosed. -/
  | error
  | function (parameters : List Ty) (result : Ty)
deriving Repr, Inhabited

namespace Ty

mutual

def same : Ty → Ty → Bool
  | .boolean, .boolean => true
  | .int, .int => true
  | .long, .long => true
  | .float, .float => true
  | .double, .double => true
  | .string, .string => true
  | .char, .char => true
  | .unit, .unit => true
  | .any, .any => true
  | .error, .error => true
  | .function ps r, .function qs q => sameAll ps qs && same r q
  | _, _ => false

def sameAll : List Ty → List Ty → Bool
  | [], [] => true
  | p :: ps, q :: qs => same p q && sameAll ps qs
  | _, _ => false

end

mutual

theorem same_iff : ∀ {a b : Ty}, same a b = true ↔ a = b
  | .function ps r, .function qs q => by
    simp only [same, Bool.and_eq_true, sameAll_iff, same_iff, Ty.function.injEq]
  | .function _ _, .boolean | .function _ _, .int | .function _ _, .long
  | .function _ _, .float | .function _ _, .double | .function _ _, .string
  | .function _ _, .char | .function _ _, .unit | .function _ _, .any
  | .function _ _, .error => by simp [same]
  | .boolean, b | .int, b | .long, b | .float, b | .double, b | .string, b
  | .char, b | .unit, b | .any, b | .error, b => by cases b <;> simp [same]

theorem sameAll_iff : ∀ {as bs : List Ty}, sameAll as bs = true ↔ as = bs
  | [], [] => by simp [sameAll]
  | [], _ :: _ => by simp [sameAll]
  | _ :: _, [] => by simp [sameAll]
  | a :: as, b :: bs => by
    simp only [sameAll, Bool.and_eq_true, same_iff, sameAll_iff, List.cons.injEq]

end

instance : DecidableEq Ty := fun a b =>
  decidable_of_iff (same a b = true) same_iff

/-- Whether an expression of this type has already been diagnosed. -/
def isError : Ty → Bool
  | .error => true
  | _ => false

/-- Unit, or already diagnosed: a function of such a type may end without a value. -/
def needsNoValue : Ty → Bool
  | .unit | .error => true
  | _ => false

/-- The parameter and result types of a function type. -/
def signature? : Ty → Option (List Ty × Ty)
  | .function ps r => some (ps, r)
  | _ => none

mutual

/-- Whether a value of type `source` may be stored where `target` is expected.
Parameters are compared in the same direction as results. -/
def assignableTo (source target : Ty) : Bool :=
  source.isError || target.isError || target == .any ||
    match source, target with
    | .function ps r, .function qs q => assignableAll ps qs && assignableTo r q
    | source, target => source == target

/-- Pointwise assignability of two lists of one length. -/
def assignableAll : List Ty → List Ty → Bool
  | [], [] => true
  | p :: ps, q :: qs => assignableTo p q && assignableAll ps qs
  | _, _ => false

end

def named : List (String × Ty) :=
  [("Boolean", .boolean), ("Int", .int), ("Long", .long), ("Float", .float),
    ("Double", .double), ("String", .string), ("Char", .char), ("Unit", .unit),
    ("Any", .any)]

def ofName? (name : String) : Option Ty :=
  named.lookup name

mutual

/-- A type as diagnostics show it: `Int`, `(Int, Char) -> Unit`, and `???` for a
type already diagnosed. -/
def text : Ty → String
  | .boolean => "Boolean"
  | .int => "Int"
  | .long => "Long"
  | .float => "Float"
  | .double => "Double"
  | .string => "String"
  | .char => "Char"
  | .unit => "Unit"
  | .any => "Any"
  | .error => "???"
  | .function ps r => "(" ++ textAll ps ++ ") -> " ++ text r

def textAll : List Ty → String
  | [] => ""
  | [p] => text p
  | p :: ps => text p ++ ", " ++ textAll ps

end

end Ty

end Bindery
