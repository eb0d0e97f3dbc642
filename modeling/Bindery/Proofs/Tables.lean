import Bindery.Proofs.Captures
import Bindery.Proofs.Correspondence

/-!
The tables that instructions point into.

An instruction names constants, global variables and variables that its function has taken over
by their numbers. While code is written these tables grow, and none of their entries moves
(`Emission.LeadsTo`), so a number that was good when its instruction was written stays good. The
variables a function takes over are numbered in its frame; one that is taken over from a function
that has taken it over itself is among the variables of that function (`Storage.Linked`), and the
frame of the program takes over nothing.
-/

namespace Bindery.Machine

variable {k : UInt16}

/-- What the number in an instruction can be the number of: a constant, a global variable, or a
variable that the function has taken over. -/
inductive Table where
  | constants | globals | free
deriving DecidableEq, Repr

def Opcode.table? : Opcode → Option Table
  | .constant => some .constants
  | .getGlobal => some .globals
  | .setGlobal => some .globals
  | .getFree => some .free
  | .setFree => some .free
  | .closure => some .free
  | _ => none

def Table.sizes (constants globals free : Nat) : Table → Nat
  | .constants => constants
  | .globals => globals
  | .free => free

theorem Table.sizes_mono {c c' g g' f f' : Nat} (constants : c ≤ c') (globals : g ≤ g')
    (free : f ≤ f') (t : Table) : sizes c g f t ≤ sizes c' g' f' t := by
  cases t with
  | constants => exact constants
  | globals => exact globals
  | free => exact free

namespace Instruction

/-- The numbers that an instruction holds. Of what a closure captures, locals are not in a
table. -/
def indices (i : Instruction) : List Nat :=
  match i.operand with
  | .index n => [n.toNat]
  | .captures captures => (captures.filter (!·.isLocal)).map (·.index.toNat)
  | _ => []

/-- The numbers of the instruction are those of entries of the table it points into. -/
def Within (sizes : Table → Nat) (i : Instruction) : Prop :=
  ∀ t, i.opcode.table? = some t → ∀ k ∈ i.indices, k < sizes t

variable {sizes sizes' : Table → Nat} {i : Instruction}

/-- Numbers stay in bounds where tables grow. -/
theorem Within.mono (h : i.Within sizes) (le : ∀ t, sizes t ≤ sizes' t) : i.Within sizes' :=
  fun t points k mem => Nat.lt_of_lt_of_le (h t points k mem) (le t)

/-- An instruction that points into no table. -/
theorem within_of_table?_eq_none (none : i.opcode.table? = none) : i.Within sizes := by
  intro t points
  rw [none] at points
  cases points

theorem within_constant (small : k.toNat < sizes .constants) :
    (Instruction.constant k).Within sizes := by
  intro t points k' mem
  cases points
  cases List.mem_singleton.mp mem
  exact small

theorem within_closure {captures : List Capture}
    (small : ∀ c ∈ captures, c.isLocal = false → c.index.toNat < sizes .free) :
    (Instruction.closure captures).Within sizes := by
  intro t points k mem
  cases points
  obtain ⟨c, held, rfl⟩ := List.mem_map.mp mem
  obtain ⟨held, free⟩ := List.mem_filter.mp held
  exact small c held (by simpa using free)

end Instruction

end Bindery.Machine

namespace Bindery.Storage

open Machine (Capture)

/-! ### Frames -/

/-- What a function takes over from one that has taken it over itself is there, and the program
takes over nothing. -/
inductive Linked : List Frame → Prop where
  | root {f} : f.free.size = 0 → Linked [f]
  | inside {f parent outer} : f.free.size ≤ slotLimit →
      (∀ c ∈ f.free.toList, c.isLocal = false → c.index.toNat < parent.free.size) →
      Linked (parent :: outer) → Linked (f :: parent :: outer)

theorem Frame.FreeGrows.size_le {f f' : Frame} (grows : f.FreeGrows f') :
    f.free.size ≤ f'.free.size := by
  rw [← Numbering.length_toList, ← Numbering.length_toList]
  exact grows.length_le

namespace Linked

variable {f f' parent parent' : Frame} {outer outer' : List Frame}

/-- Locals do not matter. -/
theorem replace (h : Linked (f :: outer)) (free : f'.free = f.free) : Linked (f' :: outer) := by
  cases h with
  | root empty => exact .root (free ▸ empty)
  | inside small anchored rest => exact .inside (free ▸ small) (free ▸ anchored) rest

/-- One more variable is taken over, from frames that have grown meanwhile. -/
theorem takeOver {c : Capture} {index : UInt16} (h : Linked (f :: parent :: outer))
    (around : Linked (parent' :: outer')) (grows : parent.FreeGrows parent')
    (run : f.takeOver c = .ok (index, f'))
    (anchored : c.isLocal = false → c.index.toNat < parent'.free.size) :
    Linked (f' :: parent' :: outer') ∧ f.FreeGrows f' ∧ index.toNat < f'.free.size := by
  cases h with
  | inside small before =>
    obtain ⟨there, more, fits, cases⟩ := Frame.takeOver_spec small run
    refine ⟨.inside fits ?_ around, more, ?_⟩
    · intro d mem free
      rcases cases d mem with old | rfl
      · exact Nat.lt_of_lt_of_le (before d old free) grows.size_le
      · exact anchored free
    · rw [← Numbering.length_toList]
      exact (List.getElem?_eq_some_iff.mp there).1

end Linked

/-- Taking a symbol over keeps what was taken over, and gives it a number of the frame. -/
theorem FrameStack.TakesOver.linked {s : SymbolId} {f : Frame} {frames : List Frame}
    {index : UInt16} {fs : FrameStack} (rel : TakesOver s f frames index fs)
    (linked : Linked (f :: frames)) :
    Linked fs.toList ∧ List.Forall₂ Frame.FreeGrows (f :: frames) fs.toList ∧
      index.toNat < fs.current.free.size := by
  induction rel with
  | @found _ parent outer _ _ _ _ taken _ =>
    have around : Linked (parent.capture s :: outer) := by
      cases linked with
      | inside _ _ rest => exact rest.replace rfl
    obtain ⟨now, grows, small⟩ :=
      linked.takeOver around (.of_eq rfl) taken fun other => by cases other
    exact ⟨now, .cons grows (.cons (.of_eq rfl) (Session.forall₂_freeGrows_refl outer)), small⟩
  | @through _ parent outer _ _ _ _ _ _ taken _ ih =>
    have inner : Linked (parent :: outer) := by
      cases linked with
      | inside _ _ rest => exact rest
    obtain ⟨before, more, known⟩ := ih inner
    cases more with
    | cons grown others =>
      obtain ⟨now, grows, small⟩ := linked.takeOver before grown taken fun _ => known
      exact ⟨now, .cons grows (.cons grown others), small⟩

end Bindery.Storage

namespace Bindery

open Storage
open Machine (Table)

variable {k : UInt16}

/-! ### Globals -/

variable {g : Globals} {s : SymbolId} {index : UInt16} {e e' : Emission} {i : Machine.Instruction}

theorem Storage.Globals.index_lt (known : g.get? s = some index) : index.toNat < g.size := by
  obtain ⟨n, number, rfl⟩ := Option.map_eq_some_iff.mp known
  have within := (List.getElem?_eq_some_iff.mp ((g.slots.number?_eq_some_iff s n).mp number)).1
  rw [Numbering.length_toList] at within
  have small : (UInt16.ofNat n).toNat ≤ n := by
    rw [UInt16.toNat_ofNat']
    exact Nat.mod_le _ _
  exact Nat.lt_of_le_of_lt small within

/-- A global gets a slot, and no slot is lost. -/
theorem Storage.Globals.put_spec {g' : Globals} (run : g.put s = .ok (index, g')) :
    g.size ≤ g'.size ∧ index.toNat < g'.size := by
  unfold put at run
  split at run
  · cases run
  · change Except.ok (UInt16.ofNat (g.slots.intern s).1, (⟨(g.slots.intern s).2⟩ : Globals)) =
      Except.ok (index, g') at run
    obtain ⟨rfl, rfl⟩ := Prod.mk.inj (Except.ok.inj run)
    obtain ⟨entry, shape⟩ := g.slots.intern_spec s
    have number := ((g.slots.intern s).2.number?_eq_some_iff s _).mpr entry
    refine ⟨?_, index_lt (g := ⟨(g.slots.intern s).2⟩) (s := s) (by rw [get?, number]; rfl)⟩
    rcases shape with same | ⟨_, list⟩
    · rw [same]
    · rw [size, size, ← Numbering.length_toList, ← Numbering.length_toList, list,
        List.length_append]
      exact Nat.le_add_right _ _

/-! ### Steps of emission -/

namespace Emission

def tables (e : Emission) : Table → Nat :=
  Table.sizes e.constants.size e.globals.size e.frames.current.free.size

/-- The tables can be pointed into by 16 bits. -/
structure Orderly (e : Emission) : Prop where
  linked : Linked e.frames.toList
  pool : e.constants.Fits

/-- No entry of a table is lost or moved. -/
structure LeadsTo (e e' : Emission) : Prop where
  orderly : e'.Orderly
  free : List.Forall₂ Frame.FreeGrows e.frames.toList e'.frames.toList
  constants : e.PoolGrows e'
  globals : e.globals.size ≤ e'.globals.size

theorem orderly_empty : Emission.empty.Orderly where
  linked := .root rfl
  pool := ⟨Nat.zero_le _, fun _ mem => absurd mem List.not_mem_nil⟩

theorem Orderly.of_poolGrows (orderly : e.Orderly) (grows : e.PoolGrows e')
    (linked : Linked e'.frames.toList) : e'.Orderly := by
  obtain ⟨cs, more⟩ := grows
  exact ⟨linked, more ▸ orderly.pool.addAll cs⟩

namespace LeadsTo

variable {e₁ : Emission}

theorem refl (orderly : e.Orderly) : e.LeadsTo e :=
  ⟨orderly, Session.forall₂_freeGrows_refl _, .of_eq rfl, Nat.le_refl _⟩

theorem trans (first : e.LeadsTo e₁) (second : e₁.LeadsTo e') : e.LeadsTo e' where
  orderly := second.orderly
  free := Session.forall₂_freeGrows_trans first.free second.free
  constants := first.constants.trans second.constants
  globals := Nat.le_trans first.globals second.globals

theorem tables (h : e.LeadsTo e') (t : Table) : e.tables t ≤ e'.tables t := by
  refine Table.sizes_mono ?_ h.globals ?_ t
  · have longer := h.constants.isPrefix.length_le
    rwa [Machine.ConstantPool.toList, Machine.ConstantPool.toList, Numbering.length_toList,
      Numbering.length_toList] at longer
  · cases h.free with
    | cons grows => exact grows.size_le

/-- A step that changes the locals of the current function only. -/
theorem of_free (orderly : e.Orderly) {frames : FrameStack}
    (free : frames.current.free = e.frames.current.free)
    (enclosing : frames.enclosing = e.frames.enclosing) : e.LeadsTo { e with frames } := by
  obtain ⟨current, outer⟩ := frames
  cases enclosing
  exact ⟨⟨orderly.linked.replace free, orderly.pool⟩,
    .cons (.of_eq free) (Session.forall₂_freeGrows_refl _), .of_eq rfl, Nat.le_refl _⟩

theorem pushBlock (orderly : e.Orderly) : e.LeadsTo { e with frames := e.frames.pushBlock } :=
  of_free orderly rfl rfl

theorem popBlock (orderly : e.Orderly) : e.LeadsTo { e with frames := e.frames.popBlock.2 } := by
  rw [FrameStack.popBlock_snd]
  exact of_free orderly rfl rfl

end LeadsTo

end Emission

namespace Emit

variable {symbols : SymbolTable}

variable {c : Machine.Constant}

/-- A constant is in the pool under the number that its instruction holds. -/
theorem constant_leadsTo (run : constant c e = .ok (i, e')) (orderly : e.Orderly) :
    e.LeadsTo e' ∧ ∃ k : UInt16, i = .constant k ∧ e'.constants.get? k.toNat = some c := by
  have grows := Emission.PoolGrows.constant run
  obtain ⟨index, constants, added, rfl, rfl⟩ := constant_eq_ok run
  have after := orderly.of_poolGrows grows orderly.linked
  have there := Machine.ConstantPool.get?_of_intern added
  have small : index < 65536 := by
    have within := (List.getElem?_eq_some_iff.mp there).1
    rw [Numbering.length_toList] at within
    exact Nat.lt_of_lt_of_le within (Nat.le_succ_of_le after.pool.size_le)
  refine ⟨⟨after, Session.forall₂_freeGrows_refl _, grows, Nat.le_refl _⟩, .ofNat index, rfl, ?_⟩
  rw [UInt16.toNat_ofNat_of_lt' small]
  exact there

theorem within_of_get? (there : e.constants.get? k.toNat = some c) :
    (Machine.Instruction.constant k).Within e.tables := by
  have within := (List.getElem?_eq_some_iff.mp there).1
  rw [Numbering.length_toList] at within
  exact Machine.Instruction.within_constant within

/-- A symbol that is neither a local nor taken over is found among the globals. -/
theorem get?_of_resolve_global (run : resolve symbols s e = .ok (⟨.global, index⟩, e')) :
    e.globals.get? s = some index := by
  unfold resolve FrameStack.resolve at run
  cases known : e.frames.current.get? s with
  | some =>
    simp only [known] at run
    cases run
  | none =>
    simp only [known] at run
    rcases FrameStack.takeOverFrom_cases s e.frames.current e.frames.enclosing with
      ⟨held, frames, taken, _⟩ | ⟨taken, _⟩ | taken
    · rw [taken] at run
      cases run
    · simp only [taken, Except.map, bind, Except.bind] at run
      cases global : e.globals.get? s with
      | some =>
        rw [global] at run
        cases run
        rfl
      | none =>
        rw [global] at run
        cases run
    · rw [taken] at run
      cases run

/-- A symbol is found at a number of its table. -/
theorem resolve_leadsTo {slot : Slot} (run : resolve symbols s e = .ok (slot, e'))
    (orderly : e.Orderly) :
    e.LeadsTo e' ∧ (load slot).Within e'.tables ∧ (store slot).Within e'.tables := by
  rcases resolve_eq_ok run with
    ⟨l, _, rfl, rfl⟩ | ⟨index, frames, rel, rfl, rfl⟩ | ⟨index, rfl, rfl⟩
  · exact ⟨.refl orderly, Machine.Instruction.within_of_table?_eq_none rfl,
      Machine.Instruction.within_of_table?_eq_none rfl⟩
  · obtain ⟨linked, free, small⟩ := rel.linked orderly.linked
    have within : ∀ k ∈ [index.toNat], k < frames.current.free.size := by simpa using small
    refine ⟨⟨⟨linked, orderly.pool⟩, free, .of_eq rfl, Nat.le_refl _⟩, ?_, ?_⟩
    · exact fun t points => Option.some.inj points ▸ within
    · exact fun t points => Option.some.inj points ▸ within
  · have within : ∀ k ∈ [index.toNat], k < e'.globals.size := by
      simpa using Globals.index_lt (get?_of_resolve_global run)
    refine ⟨.refl orderly, ?_, ?_⟩
    · exact fun t points => Option.some.inj points ▸ within
    · exact fun t points => Option.some.inj points ▸ within

/-- A declaration stores to a number of its table. -/
theorem declare_leadsTo {store : Code} (run : declare s e = .ok (store, e')) (orderly : e.Orderly) :
    e.LeadsTo e' ∧ ∀ i ∈ store, i.Within e'.tables := by
  rcases declare_eq_ok run with ⟨_, index, globals, put, rfl, rfl⟩ | ⟨_, frames, put, rfl, rfl⟩
  · obtain ⟨more, small⟩ := Globals.put_spec put
    refine ⟨⟨⟨orderly.linked, orderly.pool⟩, Session.forall₂_freeGrows_refl _, .of_eq rfl, more⟩,
      ?_⟩
    rw [List.forall_mem_cons, List.forall_mem_singleton]
    refine ⟨?_, Machine.Instruction.within_of_table?_eq_none rfl⟩
    have within : ∀ k ∈ [index.toNat], k < globals.size := by simpa using small
    exact fun t points => Option.some.inj points ▸ within
  · obtain ⟨f, added, rfl⟩ := FrameStack.put_eq_ok put
    exact ⟨.of_free orderly (Frame.put_free added) rfl, fun _ mem => absurd mem List.not_mem_nil⟩

theorem putLocals_leadsTo {locals : List SymbolId} (run : locals.forM putLocal e = .ok ((), e'))
    (orderly : e.Orderly) : e.LeadsTo e' := by
  induction locals generalizing e with
  | nil =>
    obtain ⟨_, rfl⟩ := pure_eq_ok.mp run
    exact .refl orderly
  | cons _ _ ih =>
    obtain ⟨_, put, others⟩ := putLocals_cons run
    obtain ⟨f, added, rfl⟩ := FrameStack.put_eq_ok put
    have step : e.LeadsTo { e with frames := ⟨f, e.frames.enclosing⟩ } :=
      .of_free orderly (Frame.put_free added) rfl
    exact step.trans (ih others step.orderly)

end Emit

theorem Emission.Expands.leadsTo {symbols : SymbolTable} (expands : Expands symbols e e')
    (orderly : e.Orderly) : e.LeadsTo e' := by
  refine expands.preserves (P := e.LeadsTo) ?_ (.refl orderly)
  rintro a b (⟨_, added⟩ | found) leads
  · exact leads.trans (Emit.constant_leadsTo added leads.orderly).1
  · exact leads.trans (Emit.resolve_leadsTo found leads.orderly).1

/-! ### Expressions -/

def Emit.Code.Within (sizes : Table → Nat) (code : Emit.Code) : Prop := ∀ i ∈ code, i.Within sizes

namespace Emit.Code

variable {sizes sizes' : Table → Nat} {a b : Emit.Code}

@[simp] theorem within_nil : Within sizes [] := fun _ mem => absurd mem List.not_mem_nil

@[simp] theorem within_cons :
    Within sizes (i :: a) ↔ i.Within sizes ∧ Within sizes a := List.forall_mem_cons

@[simp] theorem within_append : Within sizes (a ++ b) ↔ Within sizes a ∧ Within sizes b :=
  List.forall_mem_append

theorem Within.mono (h : Within sizes a) (le : ∀ t, sizes t ≤ sizes' t) : Within sizes' a :=
  fun i mem => (h i mem).mono le

/-- Code that points into no table. -/
theorem within_of_table? (none : ∀ i ∈ a, i.opcode.table? = none) : Within sizes a :=
  fun i mem => Machine.Instruction.within_of_table?_eq_none (none i mem)

end Emit.Code

end Bindery

namespace Bindery.Emit

open Machine (Table)

variable {sizes : Table → Nat}

variable {code : Code}

theorem within_literal {value : Literal} {e e' : Emission} (run : literal value e = .ok (code, e'))
    (orderly : e.Orderly) : code.Within e'.tables := by
  rcases literal_eq_ok run with ⟨rfl | rfl, _⟩ | ⟨_, i, _, added, rfl⟩
  · exact Code.within_of_table? (by decide)
  · exact Code.within_of_table? (by decide)
  · obtain ⟨_, k, rfl, there⟩ := constant_leadsTo added orderly
    simp [within_of_get? there]

theorem within_lowering {op : BinaryOperation} (lowered : op.lowering = .apply code) :
    code.Within sizes := by
  refine Code.within_of_table? ?_
  cases op <;> cases lowered <;> decide

theorem within_unary (op : UnaryOperation) : Code.Within sizes op.code := by
  refine Code.within_of_table? ?_
  cases op <;> decide

theorem within_gotoDrop (value : Bool) (d : Int16) :
    (Machine.Instruction.gotoDrop value d).Within sizes :=
  Machine.Instruction.within_of_table?_eq_none (by cases value <;> rfl)

theorem within_gotoOrDrop (value : Bool) (d : Int16) :
    (Machine.Instruction.gotoOrDrop value d).Within sizes :=
  Machine.Instruction.within_of_table?_eq_none (by cases value <;> rfl)

theorem within_goto (d : Int16) : (Machine.Instruction.goto d).Within sizes :=
  Machine.Instruction.within_of_table?_eq_none rfl

theorem within_concat (count : UInt16) : (Machine.Instruction.concat count).Within sizes :=
  Machine.Instruction.within_of_table?_eq_none rfl

theorem within_joined {value : Bool} {operands : List Code} (chain : Joined value operands code)
    (each : Code.Within sizes operands.flatten) : code.Within sizes := by
  induction chain with
  | last => simpa using each
  | test _ _ ih =>
    rw [List.flatten_cons, Code.within_append] at each
    simp [each.1, ih each.2, within_gotoOrDrop]

end Bindery.Emit

namespace Bindery.Bound

open Emit (Code)

variable {symbols : SymbolTable}

mutual

/-- The code of an expression points at entries of the tables. -/
theorem Expression.Writes.within {x : Expression} {chain e e' codes} :
    x.Writes symbols chain e codes e' → e.Orderly → Code.Within e'.tables codes.flatten
  | .literal run, orderly => by simpa using Emit.within_literal run orderly
  | .reference run, orderly => by
    simpa using (Emit.resolve_leadsTo run orderly).2.1
  | .assignment value run, orderly => by
    have first := value.expands.leadsTo orderly
    obtain ⟨step, _, stored⟩ := Emit.resolve_leadsTo run first.orderly
    simp [(value.within orderly).mono step.tables, stored]
  | .apply lowered left right, orderly => by
    have first := left.expands.leadsTo orderly
    have second := right.expands.leadsTo first.orderly
    simp [(left.within orderly).mono second.tables, right.within first.orderly,
      Emit.within_lowering lowered]
  | .testOperands _ left right, orderly => by
    have first := left.expands.leadsTo orderly
    have second := right.expands.leadsTo first.orderly
    simp [(left.within orderly).mono second.tables, right.within first.orderly]
  | .test _ _ left right run, orderly => by
    have first := left.expands.leadsTo orderly
    have second := right.expands.leadsTo first.orderly
    have joined := Emit.joinTests_joined (List.append_ne_nil_of_left_ne_nil left.ne_nil _) run
    rw [List.flatten_singleton]
    refine Emit.within_joined joined.1 ?_
    simp [(left.within orderly).mono second.tables, right.within first.orderly]
  | .concatOperands _ right left, orderly => by
    have first := right.expands.leadsTo orderly
    have second := left.expands.leadsTo first.orderly
    simp [(right.within orderly).mono second.tables, left.within first.orderly]
  | .concat _ _ right left _, orderly => by
    have first := right.expands.leadsTo orderly
    have second := left.expands.leadsTo first.orderly
    simp [(right.within orderly).mono second.tables, left.within first.orderly,
      Emit.within_concat]
  | .unary operand, orderly => by
    simp [operand.within orderly, Emit.within_unary]
  | .parenthesized inner, orderly => by simpa using inner.within orderly
  | .call arguments target, orderly => by
    have first := arguments.expands.leadsTo orderly
    have second := target.expands.leadsTo first.orderly
    have calls : Machine.Instruction.call.opcode.table? = none := rfl
    simp [(arguments.within orderly).mono second.tables, target.within first.orderly,
      Machine.Instruction.within_of_table?_eq_none calls]
  | .ternary condition yes _ no _, orderly => by
    have first := condition.expands.leadsTo orderly
    have second := yes.expands.leadsTo first.orderly
    have third := no.expands.leadsTo second.orderly
    simp [(condition.within orderly).mono (second.trans third).tables,
      (yes.within first.orderly).mono third.tables, no.within second.orderly,
      Emit.within_gotoDrop, Emit.within_goto]

/-- The numbers in the code of arguments are in bounds. -/
theorem WritesArguments.within {arguments e e' code} :
    WritesArguments symbols arguments e code e' → e.Orderly → Code.Within e'.tables code
  | .nil, _ => by simp
  | .cons first others, orderly => by
    have here := first.expands.leadsTo orderly
    have there := others.expands.leadsTo here.orderly
    simp [(first.within orderly).mono there.tables, others.within here.orderly]

end

/-! ### Functions -/

section Function

variable {e e₁ e₂ : Emission}

/-- A function starts with a frame that has taken over nothing. -/
theorem leadsTo_enterFunction {parameters : List SymbolId} (orderly : e.Orderly)
    (put : parameters.forM Emit.putLocal { e with frames := e.frames.pushFrame.pushBlock } =
      .ok ((), e₂)) : Emission.LeadsTo { e with frames := e.frames.pushFrame }
      { e₂ with frames := e₂.frames.pushBlock } := by
  have entered : Emission.Orderly { e with frames := e.frames.pushFrame } :=
    ⟨.inside (Nat.zero_le _) (fun _ mem => absurd mem List.not_mem_nil) orderly.linked,
      orderly.pool⟩
  have opened := Emission.LeadsTo.pushBlock entered
  have taken := Emit.putLocals_leadsTo put opened.orderly
  exact opened.trans (taken.trans (.pushBlock taken.orderly))

/-- Behind a function the frames around it are current again, and hold what the function has
taken over from them. -/
theorem leadsTo_leaveFunction
    (inside : Emission.LeadsTo { e with frames := e.frames.pushFrame } e₁) :
    e.LeadsTo { e₁ with frames := e₁.frames.popBlock.2.popBlock.2.popFrame.2 } ∧
      e₁.frames.popBlock.2.popBlock.2.popFrame.1 = e₁.frames.current.free.toList ∧
      ∀ c ∈ e₁.frames.current.free.toList, c.isLocal = false →
        c.index.toNat < e₁.frames.popBlock.2.popBlock.2.popFrame.2.current.free.size := by
  obtain ⟨constants, globals, ⟨current, enclosing⟩⟩ := e₁
  obtain ⟨⟨linked, pool⟩, free, grows, more⟩ := inside
  cases free with
  | cons _ around =>
    cases around with
    | cons first others =>
      rw [Storage.FrameStack.leaveFunction rfl]
      cases linked with
      | inside _ anchored rest =>
        exact ⟨⟨⟨rest, pool⟩, .cons first others, grows, more⟩, rfl, anchored⟩

end Function

end Bindery.Bound
