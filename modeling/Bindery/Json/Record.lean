import Bindery.Json.Document

/-!
Records in JSON.

A record is written as an object, whose fields have names and stand in any order, or
as an array with all its fields in their declared order. An object may leave a field
out and may hold others, which mean nothing; a declared field occurs at most once. A
tagged record names its kind in one more field, which comes first in an array.
-/

namespace Bindery.Json

/-- The contents of a record: named fields, or all fields in order. -/
inductive Contents (α : Type) where
  | named (fields : List (String × α))
  | listed (items : List α)
deriving Repr, Inhabited

namespace Contents

variable {α : Type}

def valuesOf (name : String) (fields : List (String × α)) : List α :=
  (fields.filter (·.1 == name)).map (·.2)

/-- The fields with the given names, each as far as it is there. -/
def fields? (names : List String) : Contents α → Option (List (Option α))
  | .named fields =>
    names.mapM fun name =>
      match valuesOf name fields with
      | [] => some none
      | [value] => some (some value)
      | _ => none
  | .listed items => if items.length = names.length then some (items.map some) else none

/-- Splits a tagged record into its tag and the rest. -/
def tagged? (tag : String) : Contents α → Option (α × Contents α)
  | .named fields =>
    match valuesOf tag fields with
    | [value] => some (value, .named (fields.filter (·.1 != tag)))
    | _ => none
  | .listed [] => none
  | .listed (value :: items) => some (value, .listed items)

end Contents

namespace Value

/-- A value inside `v`. -/
abbrev Part (v : Value) := { w : Value // sizeOf w < sizeOf v }

theorem Part.sizeOf_lt {v : Value} (w : v.Part) : sizeOf w.1 < sizeOf v := w.2

theorem sizeOf_item {items : List Value} {w : Value} (h : w ∈ items) :
    sizeOf w < sizeOf (Value.array items) := by
  have := List.sizeOf_lt_of_mem h
  simp only [Value.array.sizeOf_spec]
  omega

theorem sizeOf_field {fields : List (String × Value)} {field : String × Value}
    (h : field ∈ fields) : sizeOf field.2 < sizeOf (Value.object fields) := by
  obtain ⟨name, w⟩ := field
  have := List.sizeOf_lt_of_mem h
  simp only [Value.object.sizeOf_spec, Prod.mk.sizeOf_spec] at this ⊢
  omega

def items? : (v : Value) → Option (List v.Part)
  | .array items => some (items.attach.map fun w => ⟨w.1, sizeOf_item w.2⟩)
  | _ => none

def contents? : (v : Value) → Option (Contents v.Part)
  | .array items => some (.listed (items.attach.map fun w => ⟨w.1, sizeOf_item w.2⟩))
  | .object fields =>
    some (.named (fields.attach.map fun field => (field.1.1, ⟨field.1.2, sizeOf_field field.2⟩)))
  | _ => none

def isNull : Value → Bool
  | .null => true
  | _ => false

def bool? : Value → Option Bool
  | .bool b => some b
  | _ => none

def string? : Value → Option String
  | .string s => some s
  | _ => none

def integer? : Value → Option Int
  | .number (.integer n) => some n
  | _ => none

def below? (limit : Nat) (v : Value) : Option Nat := do
  let n ← v.integer?
  if 0 ≤ n ∧ n < limit then some n.toNat else none

/-- One of several words. It may also stand as the name of a field that holds nothing. -/
def word? : Value → Option String
  | .string s => some s
  | .object [(s, .null)] => some s
  | .object [(s, .object [])] => some s
  | _ => none

end Value

/-- A field that is there and not null. -/
def present {v : Value} (field : Option v.Part) : Option v.Part :=
  field.filter fun w => !w.1.isNull

namespace Document

/-- The contents of a record. The names have to be strings, also of fields that mean
nothing. -/
def contents? : Document → Option (Contents Document)
  | .array items => some (.listed items)
  | .object fields =>
    (fields.mapM fun field => (text? field.1).map fun name => (name, field.2)).map .named
  | _ => none

def isNull : Document → Bool
  | .null => true
  | _ => false

end Document

end Bindery.Json
