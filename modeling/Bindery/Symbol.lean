import Bindery.Ty

/-!
Symbols and the table that holds them.

Each declaration makes a symbol of its own, known by its position in the table.
Symbols are only ever added, so a position keeps its meaning.
-/

namespace Bindery

/-- The position of a symbol in its table. A 32-bit word holds it as long as there are fewer than
`2 ^ 32` symbols; files with more, where positions would repeat, are left out of account. -/
abbrev SymbolId := Nat

inductive SymbolKind where
  /-- A declared variable. -/
  | binding (readOnly : Bool)
  | parameter
  /-- A function and the symbols of its parameters, in order. -/
  | function (parameters : List SymbolId)
deriving DecidableEq, Repr, Inhabited

structure Symbol where
  name : String
  ty : Ty
  kind : SymbolKind
deriving DecidableEq, Repr, Inhabited

namespace Symbol

def isVariable (s : Symbol) : Bool :=
  match s.kind with
  | .binding _ => true
  | _ => false

/-- A variable that may not be assigned to. -/
def isReadOnly (s : Symbol) : Bool :=
  match s.kind with
  | .binding readOnly => readOnly
  | _ => false

end Symbol

/-- Every symbol made while binding one program, in order of creation. -/
structure SymbolTable where
  symbols : Array Symbol
deriving Repr, Inhabited

namespace SymbolTable

def empty : SymbolTable := ⟨#[]⟩

instance : EmptyCollection SymbolTable := ⟨empty⟩

def size (t : SymbolTable) : Nat := t.symbols.size

def get? (t : SymbolTable) (id : SymbolId) : Option Symbol := t.symbols[id]?

def toList (t : SymbolTable) : List Symbol := t.symbols.toList

/-- Adds a symbol; its id is the size of the table before. -/
def alloc (t : SymbolTable) (s : Symbol) : SymbolTable := ⟨t.symbols.push s⟩

def find? (t : SymbolTable) (name : String) : Option SymbolId :=
  t.symbols.findIdx? (·.name == name)

@[simp] theorem toList_alloc (t : SymbolTable) (s : Symbol) :
    (t.alloc s).toList = t.toList ++ [s] := by
  simp [alloc, toList]

@[simp] theorem size_alloc (t : SymbolTable) (s : Symbol) : (t.alloc s).size = t.size + 1 := by
  simp [alloc, size]

theorem get?_alloc (t : SymbolTable) (s : Symbol) (id : SymbolId) :
    (t.alloc s).get? id = if id = t.size then some s else t.get? id :=
  Array.getElem?_push

end SymbolTable

end Bindery
