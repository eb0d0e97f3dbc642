import Bindery.Symbol
import Std.Data.TreeMap

/-!
Scopes: which symbol a name stands for.

Scopes are nested. A declaration goes into the innermost one, and a name stands
for the symbol of the innermost scope that declares it. The outermost scope is
the program's own and is never left.
-/

namespace Bindery

abbrev Scope := Std.TreeMap String SymbolId

/-- The open scopes: the innermost one and those around it, from the inside out. -/
structure ScopeChain where
  current : Scope
  enclosing : List Scope
deriving Inhabited

namespace ScopeChain

/-- The program scope alone, with nothing declared. -/
def empty : ScopeChain := ⟨∅, []⟩

instance : EmptyCollection ScopeChain := ⟨empty⟩

def push (c : ScopeChain) : ScopeChain :=
  ⟨∅, c.current :: c.enclosing⟩

/-- Leaves the innermost scope; the program scope stays open. -/
def pop (c : ScopeChain) : ScopeChain :=
  match c.enclosing with
  | [] => c
  | scope :: rest => ⟨scope, rest⟩

/-- Declares `name` in the innermost scope, in place of an earlier declaration
of the name there. -/
def put (c : ScopeChain) (name : String) (symbol : SymbolId) : ScopeChain :=
  { c with current := c.current.insert name symbol }

/-- Whether the innermost scope declares `name`. -/
def declares (c : ScopeChain) (name : String) : Bool :=
  c.current.contains name

/-- The scopes from the inside out. -/
def toList (c : ScopeChain) : List Scope :=
  c.current :: c.enclosing

/-- The symbol `name` stands for. -/
def get? (c : ScopeChain) (name : String) : Option SymbolId :=
  c.toList.findSome? (·[name]?)

@[simp] theorem pop_push (c : ScopeChain) : c.push.pop = c := rfl

theorem get?_push (c : ScopeChain) (name : String) : c.push.get? name = c.get? name := by
  simp [get?, toList, push, List.findSome?_cons]

theorem get?_put (c : ScopeChain) (name other : String) (symbol : SymbolId) :
    (c.put name symbol).get? other = if name = other then some symbol else c.get? other := by
  simp only [get?, toList, put, List.findSome?_cons, Std.TreeMap.getElem?_insert,
    Std.LawfulEqOrd.compare_eq_iff_eq]
  by_cases h : name = other <;> simp [h]

end ScopeChain

end Bindery
