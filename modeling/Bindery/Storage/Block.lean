import Bindery.Machine.Instruction
import Bindery.Numbering
import Bindery.Symbol

/-!
The locals of one block.

A block keeps its variables in the order of their declaration. Each has a slot of
the function's part of the stack, and knows whether an inner function has taken
it over.
-/

namespace Bindery.Storage

open Std (TreeMap)
open Machine (Instruction)

/-- A local variable: its slot, and whether an inner function uses it. -/
structure Local where
  index : UInt16
  captured : Bool
deriving DecidableEq, Repr, Inhabited

/-- What removes a local from the stack. One that an inner function uses lives on. -/
def Local.discard (l : Local) : Instruction :=
  if l.captured then .closeFree else .pop

/-- Orders locals by slot, the highest slot first. Locals of one slot keep their order. -/
def Local.highestFirst (locals : List Local) : List Local :=
  locals.mergeSort fun a b => b.index ≤ a.index

/-- The variables of a block, in order of declaration. -/
structure Block where
  order : Numbering SymbolId
  locals : TreeMap SymbolId Local
  agree : ∀ s, s ∈ locals ↔ s ∈ order.newestFirst

namespace Block

def empty : Block where
  order := .empty
  locals := ∅
  agree _ := ⟨fun h => absurd h TreeMap.not_mem_emptyc, fun h => nomatch h⟩

instance : Inhabited Block := ⟨empty⟩

def size (b : Block) : Nat := b.order.size

def get? (b : Block) (s : SymbolId) : Option Local := b.locals[s]?

/-- Declares a variable. A symbol that is declared again keeps its place in the order. -/
def put (b : Block) (s : SymbolId) (l : Local) : Block where
  order := (b.order.intern s).2
  locals := b.locals.insert s l
  agree t := by
    rw [Numbering.mem_intern_iff, TreeMap.mem_insert, b.agree t,
      Std.LawfulEqOrd.compare_eq_iff_eq, eq_comm]

theorem get?_put (b : Block) (s t : SymbolId) (l : Local) :
    (b.put s l).get? t = if s = t then some l else b.get? t := by
  rw [get?, put, TreeMap.getElem?_insert]
  by_cases same : s = t
  · rw [if_pos (Std.LawfulEqOrd.compare_eq_iff_eq.mpr same), if_pos same]
  · rw [if_neg (mt Std.LawfulEqOrd.eq_of_compare same), if_neg same]
    rfl

def toList (b : Block) : List Local := b.order.toList.filterMap b.get?

end Block

end Bindery.Storage
