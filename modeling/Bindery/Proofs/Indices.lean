import Bindery.Proofs.Confinement
import Bindery.Proofs.Tables

/-!
Functions in code whose numbers are bounded.

The code of a function stands before the closure that says what the function captures, and its
numbers are written while its tables still grow. `Fragment.Indexed` describes code under
construction together with the functions whose code it holds: each of them has a jump in front of
its entry and a pointer behind its end, with the closure behind the pointer; an instruction that
belongs to one of them points at what that function captures, and every other one at what the
function under construction has taken over so far. Putting fragments together puts the functions
together (`Indexed.append`), and the code of a finished function becomes one of them
(`Indexed.function`).
-/

namespace Bindery.Machine

def pointerSize : Nat := 3

/-- Where the code of a function is, the number of its parameters and what it captures. -/
structure FunctionCode where
  entry : Nat
  stop : Nat
  arity : Nat
  captures : List Capture

def FunctionCode.body (g : FunctionCode) : Body := ⟨g.entry, g.stop⟩

def FunctionCode.constant (g : FunctionCode) : Nat × Nat := (g.entry, g.arity)

end Bindery.Machine

namespace Bindery.Emit

open Machine (Body Capture FunctionCode Instruction LoopExit Outside Table pointerSize)

/-- The numbers of the item are those of entries of the table it points into. -/
def Item.Within (sizes : Table → Nat) : Item → Prop
  | .instruction i => i.Within sizes
  | .exit _ => True

def Item.table? : Item → Option Table
  | .instruction i => i.opcode.table?
  | .exit _ => none

theorem Item.Within.of_table? {sizes : Table → Nat} {item : Item} (none : item.table? = none) :
    item.Within sizes := by
  cases item with
  | instruction => exact Machine.Instruction.within_of_table?_eq_none none
  | exit => trivial

theorem Item.Within.mono {sizes sizes' : Table → Nat} {item : Item} (h : item.Within sizes)
    (le : ∀ t, sizes t ≤ sizes' t) : item.Within sizes' := by
  cases item with
  | instruction => exact Instruction.Within.mono h le
  | exit => trivial

namespace Fragment

/-- What stands around the code of a function: the jump in front of it, the pointer to it at its
end, and behind the pointer the closure if it captures something. -/
structure Surrounded (e : Emission) (placed : List (Nat × Item)) (g : FunctionCode) : Prop where
  skips : Skipped placed g.body
  entered : ∃ item, (g.entry, item) ∈ placed
  pointer : ∃ k entry arity, (g.stop, .instruction (.constant k)) ∈ placed ∧
    e.constants.get? k.toNat = some (.function entry arity) ∧ entry.toNat = g.entry
  handed : g.captures ≠ [] → (g.stop + pointerSize, .instruction (.closure g.captures)) ∈ placed

section Surrounded

variable {e e' : Emission} {placed placed' : List (Nat × Item)} {g : FunctionCode}

/-- What stands around a function stays there. -/
theorem Surrounded.mono (h : Surrounded e placed g)
    (grows : e.constants.toList <+: e'.constants.toList)
    (keeps : ∀ {o i}, (o, .instruction i) ∈ placed → (o, .instruction i) ∈ placed')
    (stays : ∀ {o item}, (o, item) ∈ placed → ∃ item', (o, item') ∈ placed') :
    Surrounded e' placed' g where
  skips := by
    obtain ⟨o, d, mem, known⟩ := h.skips
    exact ⟨o, d, keeps mem, known⟩
  entered := by
    obtain ⟨item, mem⟩ := h.entered
    exact stays mem
  pointer := by
    obtain ⟨k, entry, arity, mem, there, same⟩ := h.pointer
    exact ⟨k, entry, arity, keeps mem, getElem?_of_isPrefix grows there, same⟩
  handed some_ := keeps (h.handed some_)

theorem Surrounded.subset (h : Surrounded e placed g)
    (grows : e.constants.toList <+: e'.constants.toList) (sub : placed ⊆ placed') :
    Surrounded e' placed' g :=
  h.mono grows (fun mem => sub mem) fun mem => ⟨_, sub mem⟩

end Surrounded

/-- `Indexed e start f functions`: the fragment `f` at offset `start` holds the code of the given
functions. What belongs to one of them points at what that function captures, and the rest at
what the current function of `e` has taken over. -/
structure Indexed (e : Emission) (start : Nat) (f : Fragment) (functions : List FunctionCode) :
    Prop where
  bounds : ∀ g ∈ functions, start + jumpSize ≤ g.entry ∧ g.entry ≤ g.stop ∧
    g.stop < start + size f
  distinct : (functions.map FunctionCode.entry).Nodup
  ordered : functions.Pairwise fun g h => g.stop < h.stop
  surrounded : ∀ g ∈ functions, Surrounded e (locate start f) g
  closures : ∀ o captures, (o, .instruction (.closure captures)) ∈ locate start f →
    ∃ g ∈ functions, g.stop + pointerSize = o ∧ g.captures = captures
  within : ∀ o item, (o, item) ∈ locate start f →
    (Outside (functions.map FunctionCode.body) o ∧ item.Within e.tables) ∨
      ∃ g ∈ functions, g.body.Owns (functions.map FunctionCode.body) o ∧
        item.Within (Table.sizes e.constants.size e.globals.size g.captures.length)

namespace Indexed

variable {e e' : Emission} {start : Nat} {f g : Fragment} {functions functions' : List FunctionCode}

/-- Tables may grow. -/
theorem mono (h : Indexed e start f functions) (leads : e.LeadsTo e') :
    Indexed e' start f functions where
  bounds := h.bounds
  distinct := h.distinct
  ordered := h.ordered
  surrounded g mem := (h.surrounded g mem).subset leads.constants.isPrefix (List.Subset.refl _)
  closures := h.closures
  within o item placed := by
    rcases h.within o item placed with ⟨outside, within⟩ | ⟨g, mem, owns, within⟩
    · exact .inl ⟨outside, within.mono leads.tables⟩
    · refine .inr ⟨g, mem, owns, within.mono (Table.sizes_mono ?_ leads.globals (Nat.le_refl _))⟩
      exact leads.tables .constants

/-- Code without functions. -/
theorem plain (start : Nat) (within : ∀ item ∈ f, item.Within e.tables)
    (closures : ∀ captures, .instruction (.closure captures) ∉ f) : Indexed e start f [] where
  bounds _ mem := absurd mem List.not_mem_nil
  distinct := List.nodup_nil
  ordered := .nil
  surrounded _ mem := absurd mem List.not_mem_nil
  closures _ captures placed := absurd (mem_of_mem_locate placed) (closures captures)
  within _ item placed :=
    .inl ⟨fun _ mem => absurd mem List.not_mem_nil, within item (mem_of_mem_locate placed)⟩

/-- Bodies lie inside the fragment. -/
theorem outside (h : Indexed e start f functions) {o : Nat}
    (far : o ≤ start ∨ start + size f ≤ o) : Outside (functions.map FunctionCode.body) o := by
  intro b mem contains
  obtain ⟨g, here, rfl⟩ := List.mem_map.mp mem
  have bounds := h.bounds g here
  have entry : g.entry ≤ o := contains.1
  have stop : o < g.stop := contains.2
  have positive : 0 < jumpSize := Nat.succ_pos 2
  omega

/-- Putting fragments together puts the functions together. -/
theorem append (left : Indexed e start f functions)
    (right : Indexed e (start + size f) g functions') :
    Indexed e start (f ++ g) (functions ++ functions') where
  bounds h mem := by
    rw [size_append]
    rcases List.mem_append.mp mem with first | second
    · have := left.bounds h first
      omega
    · have := right.bounds h second
      omega
  distinct := by
    rw [List.map_append, List.nodup_append]
    refine ⟨left.distinct, right.distinct, ?_⟩
    intro a first b second same
    obtain ⟨h, here, rfl⟩ := List.mem_map.mp first
    obtain ⟨h', there, rfl⟩ := List.mem_map.mp second
    have before := left.bounds h here
    have behind := right.bounds h' there
    omega
  ordered := by
    refine List.pairwise_append.mpr ⟨left.ordered, right.ordered, ?_⟩
    intro h first h' second
    have before := left.bounds h first
    have behind := right.bounds h' second
    omega
  surrounded h mem := by
    rw [locate_append]
    rcases List.mem_append.mp mem with first | second
    · exact (left.surrounded h first).subset List.prefix_rfl (List.subset_append_left _ _)
    · exact (right.surrounded h second).subset List.prefix_rfl (List.subset_append_right _ _)
  closures o captures placed := by
    rw [locate_append] at placed
    rcases List.mem_append.mp placed with first | second
    · obtain ⟨h, mem, known⟩ := left.closures o captures first
      exact ⟨h, List.mem_append_left _ mem, known⟩
    · obtain ⟨h, mem, known⟩ := right.closures o captures second
      exact ⟨h, List.mem_append_right _ mem, known⟩
  within o item placed := by
    rw [List.map_append]
    rw [locate_append] at placed
    rcases List.mem_append.mp placed with first | second
    · have bounds := locate_bounds first
      have positive := item.size_pos
      have elsewhere := right.outside (o := o) (.inl (by omega))
      rcases left.within o item first with ⟨outside, within⟩ | ⟨h, mem, owns, within⟩
      · exact .inl ⟨Machine.outside_append.mpr ⟨outside, elsewhere⟩, within⟩
      · exact .inr ⟨h, List.mem_append_left _ mem, (owns.append elsewhere).1, within⟩
    · have bounds := locate_bounds second
      have elsewhere := left.outside (o := o) (.inr bounds.1)
      rcases right.within o item second with ⟨outside, within⟩ | ⟨h, mem, owns, within⟩
      · exact .inl ⟨Machine.outside_append.mpr ⟨elsewhere, outside⟩, within⟩
      · exact .inr ⟨h, List.mem_append_right _ mem, (owns.append elsewhere).2, within⟩

/-- Closing a loop turns exits into jumps. -/
theorem closeLoop {resume : Nat} (h : Indexed e start f functions)
    (closed : Fragment.closeLoop f resume = .ok g) : Indexed e start g functions := by
  have settled := closeLoop_settled closed start
  constructor
  case bounds =>
    rw [settled.size_eq]
    exact h.bounds
  case distinct => exact h.distinct
  case ordered => exact h.ordered
  case surrounded =>
    intro k mem
    exact (h.surrounded k mem).mono List.prefix_rfl settled.keeps settled.exists_mem
  case closures =>
    intro o captures placed
    rcases settled.instruction_cases placed with kept | ⟨_, _, _, jump, _⟩
    · exact h.closures o captures kept
    · cases jump
  case within =>
    intro o item placed
    cases item with
    | instruction =>
      rcases settled.instruction_cases placed with kept | ⟨x, d, _, rfl, exits, _⟩
      · exact h.within o _ kept
      · rcases h.within o _ exits with ⟨outside, _⟩ | ⟨k, mem, owns, _⟩
        · exact .inl ⟨outside, within_goto d⟩
        · exact .inr ⟨k, mem, owns, within_goto d⟩
    | exit => cases settled.waits (mem_of_mem_locate placed)

end Indexed

/-! ### Finished functions -/

/-- The code of a finished function: a jump past it, the code, the pointer to it, and the closure
if it captures something. -/
def finished (d : Int16) (f : Fragment) (k : UInt16) (closure : Code) : Fragment :=
  .instruction (.goto d) :: (f ++ Code.toFragment (.constant k :: closure))

section Finished

variable {start : Nat} {f : Fragment} {d : Int16} {k : UInt16} {captures : List Capture}
    {closure : Code}

theorem size_finished (d : Int16) (f : Fragment) (k : UInt16) (closure : Code) :
    size (finished d f k closure) = jumpSize + (size f + (pointerSize + closure.size)) := by
  rw [finished, size_cons, size_append, Code.toFragment_cons, size_cons, size_toFragment]
  rfl

/-- What stands in the code of a finished function. -/
theorem mem_locate_finished (closed : Emit.closure captures = .ok closure) {o : Nat} {item : Item} :
    (o, item) ∈ locate start (finished d f k closure) ↔
      (o = start ∧ item = .instruction (.goto d)) ∨ (o, item) ∈ locate (start + jumpSize) f ∨
      (o = start + jumpSize + size f ∧ item = .instruction (.constant k)) ∨
      (captures ≠ [] ∧ o = start + jumpSize + size f + pointerSize ∧
        item = .instruction (.closure captures)) := by
  have placed : locate start (finished d f k closure) =
      (start, .instruction (.goto d)) :: (locate (start + jumpSize) f ++
        ((start + jumpSize + size f, .instruction (.constant k)) ::
          locate (start + jumpSize + size f + pointerSize) closure.toFragment)) := by
    rw [finished, locate_cons, locate_append, Code.toFragment_cons, locate_cons]
    rfl
  rw [placed]
  rcases closure_eq_ok closed with ⟨rfl, rfl⟩ | ⟨some_, rfl, _⟩
  · simp
  · simp [some_]

end Finished

/-- A finished function captures what it has taken over by the end of its code. -/
theorem Indexed.function {e e' : Emission} {start : Nat} {f : Fragment}
    {functions : List FunctionCode} {d : Int16} {k entry : UInt16} {arity : UInt8}
    {captures : List Capture} {closure : Code} (inner : Indexed e (start + jumpSize) f functions)
    (past : d.toInt = size f) (there : e'.constants.get? k.toNat = some (.function entry arity))
    (entry_eq : entry.toNat = start + jumpSize) (grows : e.PoolGrows e')
    (globals : e.globals.size ≤ e'.globals.size) (taken : e.frames.current.free.toList = captures)
    (closed : Emit.closure captures = .ok closure)
    (anchored : ∀ c ∈ captures, c.isLocal = false → c.index.toNat < e'.frames.current.free.size) :
    Indexed e' start (finished d f k closure)
      (functions ++ [⟨start + jumpSize, start + jumpSize + size f, arity.toNat, captures⟩]) := by
  have positive : 0 < jumpSize := Nat.succ_pos 2
  have positive' : 0 < pointerSize := Nat.succ_pos 2
  have inside : locate (start + jumpSize) f ⊆ locate start (finished d f k closure) :=
    fun _ mem => (mem_locate_finished closed).mpr (.inr (.inl mem))
  have sizes : ∀ n t, Table.sizes e.constants.size e.globals.size n t ≤
      Table.sizes e'.constants.size e'.globals.size n t := by
    intro n
    refine Table.sizes_mono ?_ globals (Nat.le_refl _)
    have longer := grows.isPrefix.length_le
    rwa [Machine.ConstantPool.toList, Machine.ConstantPool.toList, Numbering.length_toList,
      Numbering.length_toList] at longer
  constructor
  case bounds =>
    rw [size_finished]
    intro g mem
    rcases List.mem_append.mp mem with nested | new
    · have := inner.bounds g nested
      omega
    · cases List.mem_singleton.mp new
      simp only
      omega
  case distinct =>
    rw [List.map_append, List.nodup_append]
    refine ⟨inner.distinct, List.nodup_singleton _, ?_⟩
    intro a nested b new same
    obtain ⟨g, mem, rfl⟩ := List.mem_map.mp nested
    have bounds := inner.bounds g mem
    cases List.mem_singleton.mp new
    simp only at same
    omega
  case ordered =>
    refine List.pairwise_append.mpr ⟨inner.ordered, List.pairwise_singleton _ _, ?_⟩
    intro g nested h new
    cases List.mem_singleton.mp new
    exact (inner.bounds g nested).2.2
  case surrounded =>
    intro g mem
    rcases List.mem_append.mp mem with nested | new
    · exact (inner.surrounded g nested).subset grows.isPrefix inside
    · cases List.mem_singleton.mp new
      constructor
      case skips =>
        refine ⟨start, d, (mem_locate_finished closed).mpr (.inl ⟨rfl, rfl⟩), rfl, ?_⟩
        simp only [FunctionCode.body]
        omega
      case entered =>
        obtain ⟨item, placed⟩ := (Boundary.first (start + jumpSize) f).starts
          (g := Code.toFragment (.constant k :: closure)) (List.cons_ne_nil _ _)
        refine ⟨item, ?_⟩
        rw [finished, locate_cons]
        exact List.mem_cons_of_mem _ placed
      case pointer =>
        exact ⟨k, entry, arity, (mem_locate_finished closed).mpr (.inr (.inr (.inl ⟨rfl, rfl⟩))),
          there, entry_eq⟩
      case handed =>
        exact fun some_ => (mem_locate_finished closed).mpr (.inr (.inr (.inr ⟨some_, rfl, rfl⟩)))
  case closures =>
    intro o captures' placed
    rcases (mem_locate_finished closed).mp placed with
      ⟨_, other⟩ | nested | ⟨_, other⟩ | ⟨_, rfl, same⟩
    · cases other
    · obtain ⟨g, mem, known⟩ := inner.closures o captures' nested
      exact ⟨g, List.mem_append_left _ mem, known⟩
    · cases other
    · cases same
      exact ⟨_, List.mem_append_right _ (List.mem_singleton_self _), rfl, rfl⟩
  case within =>
    rw [List.map_append]
    have around : ∀ o, o ≤ start ∨ start + jumpSize + size f ≤ o →
        Outside (functions.map FunctionCode.body ++ [⟨start + jumpSize, start + jumpSize + size f⟩])
          o := by
      intro o far
      refine Machine.outside_append.mpr ⟨inner.outside (by omega), fun b mem contains => ?_⟩
      cases List.mem_singleton.mp mem
      have entry : start + jumpSize ≤ o := contains.1
      have stop : o < start + jumpSize + size f := contains.2
      omega
    intro o item placed
    rcases (mem_locate_finished closed).mp placed with
      ⟨rfl, rfl⟩ | nested | ⟨rfl, rfl⟩ | ⟨_, rfl, rfl⟩
    · exact .inl ⟨around o (.inl (Nat.le_refl _)), within_goto d⟩
    · -- What belonged to the function under construction belongs to the finished one.
      have bounds := locate_bounds nested
      have positive := item.size_pos
      have joins : ∀ outer : Body, ∀ b ∈ functions.map FunctionCode.body ++ [outer],
          b = outer ∨ b ∈ functions.map FunctionCode.body := fun _ _ mem =>
        (List.mem_append.mp mem).symm.imp_left List.mem_singleton.mp
      refine .inr ?_
      rcases inner.within o item nested with ⟨outside, within⟩ | ⟨g, mem, owns, within⟩
      · have contains : Body.Contains ⟨start + jumpSize, start + jumpSize + size f⟩ o :=
          ⟨bounds.1, Nat.lt_of_lt_of_le (Nat.lt_add_of_pos_right positive) bounds.2⟩
        refine ⟨_, List.mem_append_right _ (List.mem_singleton_self _),
          outside.owns (joins _) contains, ?_⟩
        rw [← taken, Numbering.length_toList]
        exact within.mono (sizes _)
      · refine ⟨g, List.mem_append_left _ mem, owns.nested (joins _) ?_, within.mono (sizes _)⟩
        exact (Nat.le_add_right _ _).trans (inner.bounds g mem).1
    · exact .inl ⟨around _ (.inr (Nat.le_refl _)), within_of_get? there⟩
    · exact .inl ⟨around _ (.inr (Nat.le_add_right _ _)),
        Machine.Instruction.within_closure anchored⟩

end Fragment

end Bindery.Emit
