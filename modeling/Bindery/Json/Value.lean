import Bindery.Floating.Text
import Bindery.Json.Numeral

/-!
JSON values and how they are written.

Objects keep their fields in order. A value is written compactly, or with a field or
item a line and two blanks for each level.
-/

namespace Bindery.Json

inductive Value where
  | null
  | bool (b : Bool)
  | number (n : Number)
  | string (s : String)
  | array (items : List Value)
  | object (fields : List (String × Value))
deriving Repr, Inhabited

namespace Value

def ofNat (n : Nat) : Value := .number (.integer n)

/-- A floating-point number. Infinities and what is no number are null. -/
def ofFloating (f : Floating.Format) (bits : Nat) : Value :=
  match f.decode bits with
  | .finite _ _ _ => .number (.double (.ofNat (f.convert Floating.double bits)))
  | _ => .null

def ofOption (value : Option Value) : Value := value.getD .null

/-- How a character stands in a string. -/
def escape (c : Char) : String :=
  if c = '"' then "\\\""
  else if c = '\\' then "\\\\"
  else if c = '\n' then "\\n"
  else if c = '\r' then "\\r"
  else if c = '\t' then "\\t"
  else if c.toNat = 8 then "\\b"
  else if c.toNat = 12 then "\\f"
  else if c.toNat < 32 then
    "\\u00" ++ String.ofList [Nat.digitChar (c.toNat / 16), Nat.digitChar (c.toNat % 16)]
  else c.toString

def quote (s : String) : String :=
  s.foldl (fun out c => out ++ escape c) "\"" ++ "\""

def numberText : Number → String
  | .integer n => toString n
  | .double bits => Floating.dataStyle.text Floating.double bits.toNat

/-- Where items stand: on one line, or a line each at some depth. -/
inductive Layout where
  | compact
  | indented (depth : Nat)

namespace Layout

def deeper : Layout → Layout
  | .compact => .compact
  | .indented depth => .indented (depth + 1)

/-- The start of an item's line. -/
def newline : Layout → String
  | .compact => ""
  | .indented depth => "\n".pushn ' ' (2 * depth)

/-- What stands between a field's name and its value. -/
def colon : Layout → String
  | .compact => ":"
  | .indented _ => ": "

end Layout

mutual

/-- Writes a value behind `out`. -/
def writeTo (layout : Layout) (out : String) : Value → String
  | .null => out ++ "null"
  | .bool b => out ++ (if b then "true" else "false")
  | .number n => out ++ numberText n
  | .string s => out ++ quote s
  | .array [] => out ++ "[]"
  | .array (item :: items) =>
    let out := writeTo layout.deeper (out ++ "[" ++ layout.deeper.newline) item
    writeItems layout.deeper out items ++ layout.newline ++ "]"
  | .object [] => out ++ "\x7b\x7d"
  | .object ((name, value) :: fields) =>
    let out := out ++ "\x7b" ++ layout.deeper.newline ++ quote name ++ layout.colon
    let out := writeTo layout.deeper out value
    writeFields layout.deeper out fields ++ layout.newline ++ "\x7d"

/-- Writes the items behind the first one. -/
def writeItems (layout : Layout) (out : String) : List Value → String
  | [] => out
  | item :: items =>
    writeItems layout (writeTo layout (out ++ "," ++ layout.newline) item) items

/-- Writes the fields behind the first one. -/
def writeFields (layout : Layout) (out : String) : List (String × Value) → String
  | [] => out
  | (name, value) :: fields =>
    let out := out ++ "," ++ layout.newline ++ quote name ++ layout.colon
    writeFields layout (writeTo layout out value) fields

end

/-- A value without blanks. -/
def compact (v : Value) : String := writeTo .compact "" v

/-- A value with an item or field a line. -/
def pretty (v : Value) : String := writeTo (.indented 0) "" v

end Value

end Bindery.Json
