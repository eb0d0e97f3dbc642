import Bindery.Proofs.FunctionBodies
import Bindery.Proofs.Indices
import Bindery.Proofs.Preservation

/-!
Every number in a compiled file is the number of something.

Each statement adds to the tables and lays out the functions it declares (`Statement.Writes.lays`):
their constants are new, because no two functions start at one place, and they come in the order
in which the functions end. What a function captures can be read off the code behind it
(`Indexed.captures_eq`), so the numbers in its code are bounded by what is in the image
(`SourceFile.indices_in_bounds`).
-/

namespace Bindery.Machine

/-! ### Numbers in code -/

def Located.captures? (l : Located) : Option (List Capture) :=
  match l.instruction.operand with
  | .captures captures => some captures
  | _ => none

/-- What a function captures: the closure behind the pointer to it says so. Without one there is
nothing. -/
def Body.captures (code : List Located) (b : Body) : List Capture :=
  ((code.find? fun l => l.offset = b.stop + pointerSize).bind Located.captures?).getD []

/-- The numbers in the code are those of constants, globals and captured variables. In front of
each function stands a jump, and behind it the pointer to it; no two start at one place, and their
constants come in the order in which they end. -/
structure InBounds (code : List Located) (constants : ConstantPool) (globals : Nat) : Prop where
  program : ∀ l ∈ code, Outside (functionBodies code constants.functions) l.offset →
    l.instruction.Within (Table.sizes constants.size globals 0)
  function : ∀ b ∈ functionBodies code constants.functions, ∀ l ∈ code,
    b.Owns (functionBodies code constants.functions) l.offset →
      l.instruction.Within (Table.sizes constants.size globals (b.captures code).length)
  pointer : ∀ b ∈ functionBodies code constants.functions, ∃ k entry arity,
    ⟨b.stop, .constant k⟩ ∈ code ∧ constants.get? k.toNat = some (.function entry arity) ∧
      entry.toNat = b.entry
  entered : ∀ f ∈ constants.functions,
    (∃ l ∈ code, l.instruction.opcode = .goto ∧ l.stop = f.1) ∧ ∃ l ∈ code, l.offset = f.1
  distinct : (constants.functions.map Prod.fst).Nodup
  ordered : constants.functions.Pairwise fun f g =>
    ∀ b ∈ functionBodies code constants.functions,
      ∀ b' ∈ functionBodies code constants.functions,
        b.entry = f.1 → b'.entry = g.1 → b.stop < b'.stop

theorem Located.captures?_eq_some {l : Located} {captures : List Capture}
    (found : l.captures? = some captures) : l.instruction = .closure captures := by
  obtain ⟨offset, ⟨opcode, operand, shape⟩⟩ := l
  cases operand with
  | captures =>
    cases found
    cases opcode <;> first | rfl | cases shape
  | _ => cases found

end Bindery.Machine

namespace Bindery.Emit.Fragment.Indexed

open Machine (Body FunctionCode Located Outside Table pointerSize)

variable {e : Emission} {start : Nat} {code : Code} {functions : List FunctionCode}

variable {g : FunctionCode}

/-- The pointers behind two functions differ. -/
theorem eq_of_stop_eq {f : Fragment} (h : Indexed e start f functions) {g' : FunctionCode}
    (mem : g ∈ functions) (mem' : g' ∈ functions) (same : g.stop = g'.stop) : g = g' := by
  have stops : (functions.map FunctionCode.stop).Nodup :=
    List.pairwise_map.mpr (h.ordered.imp Nat.ne_of_lt)
  exact List.inj_on_of_nodup_map stops mem mem' same

/-- What a function captures is read off the code behind it. -/
theorem captures_eq (h : Indexed e start code.toFragment functions) (mem : g ∈ functions) :
    g.body.captures (Machine.locate start code) = g.captures := by
  unfold Body.captures
  cases found :
    (Machine.locate start code).find? fun l => l.offset = g.body.stop + pointerSize with
  | none =>
    change [] = g.captures
    by_contra some_
    have placed := mem_locate_toFragment.mp ((h.surrounded g mem).handed (Ne.symm some_))
    exact List.find?_eq_none.mp found _ placed (decide_eq_true rfl)
  | some l =>
    change l.captures?.getD [] = g.captures
    have here := List.mem_of_find?_eq_some found
    have there : l.offset = g.body.stop + pointerSize := by simpa using List.find?_some found
    cases captured : l.captures? with
    | none =>
      change [] = g.captures
      by_contra some_
      have placed := mem_locate_toFragment.mp ((h.surrounded g mem).handed (Ne.symm some_))
      rw [located_unique l here _ placed there] at captured
      cases captured
    | some captures =>
      obtain ⟨offset, i⟩ := l
      cases Located.captures?_eq_some captured
      obtain ⟨g', mem', stop, rfl⟩ := h.closures offset _ (mem_locate_toFragment.mpr here)
      rw [h.eq_of_stop_eq mem mem' (Nat.add_right_cancel (there.symm.trans stop.symm))]
      rfl

/-- The bodies that are read off the code are those of the functions. -/
theorem mem_functionBodies_iff (h : Indexed e start code.toFragment functions)
    (listed : e.constants.functions = functions.map FunctionCode.constant) (b : Body) :
    b ∈ Machine.functionBodies (Machine.locate start code) e.constants.functions ↔
      b ∈ functions.map FunctionCode.body := by
  refine Fragment.mem_functionBodies_iff ?_ (fun a => ?_) b
  · intro b mem
    obtain ⟨g, here, rfl⟩ := List.mem_map.mp mem
    exact (h.surrounded g here).skips
  · rw [listed]
    constructor
    · rintro ⟨arity, mem⟩
      obtain ⟨g, here, same⟩ := List.mem_map.mp mem
      exact ⟨g.body, List.mem_map_of_mem here, congrArg Prod.fst same⟩
    · rintro ⟨b, mem, rfl⟩
      obtain ⟨g, here, rfl⟩ := List.mem_map.mp mem
      exact ⟨g.arity, List.mem_map_of_mem here⟩

/-- Of a program, which takes over nothing, all numbers are bounded by what its image holds. -/
theorem inBounds (h : Indexed e start code.toFragment functions)
    (listed : e.constants.functions = functions.map FunctionCode.constant)
    (root : e.frames.current.free.size = 0) :
    Machine.InBounds (Machine.locate start code) e.constants e.globals.size := by
  have bodies := h.mem_functionBodies_iff listed
  constructor
  case program =>
    rintro ⟨o, i⟩ mem outside
    simp only [Outside, bodies] at outside
    rcases h.within o _ (mem_locate_toFragment.mpr mem) with ⟨_, within⟩ | ⟨g, here, owns, _⟩
    · rwa [Emission.tables, root] at within
    · exact absurd owns.1 (outside _ (List.mem_map_of_mem here))
  case function =>
    rintro b known ⟨o, i⟩ mem owns
    obtain ⟨g, here, rfl⟩ := List.mem_map.mp ((bodies b).mp known)
    simp only [Body.Owns, bodies] at owns
    rw [h.captures_eq here]
    rcases h.within o _ (mem_locate_toFragment.mpr mem) with
      ⟨outside, _⟩ | ⟨g', here', owns', within⟩
    · exact absurd owns.1 (outside _ (List.mem_map_of_mem here))
    · -- Of two functions that an offset belongs to, neither starts later.
      have one := owns.2 _ (List.mem_map_of_mem here')
      have two := owns'.2 _ (List.mem_map_of_mem here)
      have same : g.entry = g'.entry := by
        rcases Nat.lt_trichotomy g.entry g'.entry with before | same | behind
        · exact absurd owns'.1 (one before)
        · exact same
        · exact absurd owns.1 (two behind)
      rwa [List.inj_on_of_nodup_map h.distinct here here' same]
  case pointer =>
    intro b known
    obtain ⟨g, here, rfl⟩ := List.mem_map.mp ((bodies b).mp known)
    obtain ⟨k, entry, arity, placed, pointed⟩ := (h.surrounded g here).pointer
    exact ⟨k, entry, arity, mem_locate_toFragment.mp placed, pointed⟩
  case entered =>
    rw [listed]
    intro f mem
    obtain ⟨g, here, rfl⟩ := List.mem_map.mp mem
    obtain ⟨o, d, placed, before, _⟩ := (h.surrounded g here).skips
    obtain ⟨item, first⟩ := (h.surrounded g here).entered
    rw [locate_toFragment] at first
    obtain ⟨l, inside, same⟩ := List.mem_map.mp first
    exact ⟨⟨⟨o, .goto d⟩, mem_locate_toFragment.mp placed, rfl, before⟩, l, inside,
      congrArg Prod.fst same⟩
  case distinct =>
    rw [listed, List.map_map]
    exact h.distinct
  case ordered =>
    have at_entry : ∀ g ∈ functions, ∀ b ∈ functions.map FunctionCode.body,
        b.entry = g.entry → b.stop = g.stop := by
      intro g here b mem same
      obtain ⟨g', there, rfl⟩ := List.mem_map.mp mem
      rw [List.inj_on_of_nodup_map h.distinct here there same.symm]
      rfl
    simp only [bodies]
    rw [listed, List.pairwise_map]
    refine h.ordered.imp_of_mem fun {g g'} here there before b mem b' mem' same same' => ?_
    rw [at_entry g here b mem same, at_entry g' there b' mem' same']
    exact before

end Bindery.Emit.Fragment.Indexed

namespace Bindery

/-! ### Constants of functions -/

namespace Machine.ConstantPool

/-- A pool holds each function once. -/
theorem nodup_functions (p : ConstantPool) : p.functions.Nodup := by
  refine p.entries.nodup_toList.filterMap ?_
  intro c c' f found found'
  cases c with
  | function =>
    cases c' with
    | function =>
      obtain ⟨entries, arities⟩ := Prod.mk.inj (Option.some.inj (found.trans found'.symm))
      rw [UInt16.toNat_inj.mp entries, UInt8.toNat_inj.mp arities]
    | _ => cases found'
  | _ => cases found

end Machine.ConstantPool

namespace Emission

variable {e e' : Emission}

/-- A step that brings no function. -/
theorem PoolGrows.functions_eq (grows : e.PoolGrows e') (nothing : e'.functions ⊆ e.functions) :
    e'.constants.functions = e.constants.functions := by
  obtain ⟨more, list⟩ := grows.isPrefix.filterMap _
  change e.constants.functions ++ more = e'.constants.functions at list
  have distinct := e'.constants.nodup_functions
  rw [← list, List.nodup_append] at distinct
  have none : more = [] := by
    refine List.eq_nil_iff_forall_not_mem.mpr fun f mem => ?_
    have known : f ∈ e.constants.functions := by
      refine nothing ?_
      change f ∈ e'.constants.functions
      rw [← list]
      exact List.mem_append_right _ mem
    exact distinct.2.2 f known f mem rfl
  rw [← list, none, List.append_nil]

/-- A function that starts where no other does is added to the functions. -/
theorem functions_constant {entry : UInt16} {arity : UInt8} {i : Machine.Instruction}
    (run : Emit.constant (.function entry arity) e = .ok (i, e'))
    (fresh : ∀ f ∈ e.constants.functions, f.1 ≠ entry.toNat) :
    e'.constants.functions = e.constants.functions ++ [(entry.toNat, arity.toNat)] := by
  obtain ⟨_, _, added, _, rfl⟩ := Emit.constant_eq_ok run
  rcases Machine.ConstantPool.toList_intern added with same | more
  · have present := Machine.ConstantPool.mem_of_intern added
    rw [same] at present
    exact absurd rfl (fresh _ (List.mem_filterMap.mpr ⟨_, present, rfl⟩))
  · rw [Machine.ConstantPool.functions, more, List.filterMap_append]
    rfl

end Emission

end Bindery

namespace Bindery.Bound

open Emit (Code Fragment jumpSize)
open Emit.Fragment (Indexed)
open Machine (FunctionCode)

/-! ### Steps -/

/-- `Lays start code arities e e'`: the step from `e` to `e'` that writes `code` at `start` brings
functions with the given numbers of parameters, and their code is in `code`. -/
structure Lays (start : Nat) (code : Fragment) (arities : List Nat) (e e' : Emission) : Prop where
  leads : e.LeadsTo e'
  functions : ∃ functions, Indexed e' start code functions ∧
    e'.constants.functions = e.constants.functions ++ functions.map FunctionCode.constant ∧
    functions.map FunctionCode.arity = arities

def EnteredBefore (start : Nat) (e : Emission) : Prop :=
  ∀ f ∈ e.constants.functions, f.1 < start

variable {start : Nat} {e e' : Emission} {symbols : SymbolTable} {x : Expression}
    {codes : List Code} {p : Program} {code : Code}

/-- Functions in front of a place are in front of later ones. -/
theorem EnteredBefore.mono {later : Nat} (before : EnteredBefore start e) (le : start ≤ later) :
    EnteredBefore later e :=
  fun f mem => Nat.lt_of_lt_of_le (before f mem) le

namespace Lays

variable {middle : Nat} {code code' : Fragment} {as bs : List Nat} {e₁ : Emission}

/-- Two pieces of code one after the other. -/
theorem follow (left : Lays start code as e e₁) (right : Lays middle code' bs e₁ e')
    (follows : middle = start + Fragment.size code) :
    Lays start (code ++ code') (as ++ bs) e e' := by
  subst follows
  obtain ⟨first, functions, indexed, listed, rfl⟩ := left
  obtain ⟨second, functions', indexed', listed', rfl⟩ := right
  refine ⟨first.trans second, _, (indexed.mono second).append indexed', ?_, List.map_append⟩
  rw [listed', listed, List.map_append, List.append_assoc]

theorem enteredBefore (h : Lays start code as e e') (before : EnteredBefore start e)
    (follows : middle = start + Fragment.size code) : EnteredBefore middle e' := by
  subst follows
  obtain ⟨_, functions, indexed, listed, _⟩ := h
  intro f mem
  rw [listed] at mem
  rcases List.mem_append.mp mem with old | new
  · exact Nat.lt_of_lt_of_le (before f old) (Nat.le_add_right _ _)
  · obtain ⟨g, here, rfl⟩ := List.mem_map.mp new
    have bounds := indexed.bounds g here
    exact Nat.lt_of_le_of_lt bounds.2.1 bounds.2.2

/-- What stands behind may bring no function. -/
theorem ending (left : Lays start code as e e₁) (right : Lays middle code' [] e₁ e')
    (follows : middle = start + Fragment.size code) : Lays start (code ++ code') as e e' := by
  have whole := left.follow right follows
  rwa [List.append_nil] at whole

/-- Code that brings no function. -/
theorem of_code {code : Code} (start : Nat) (leads : e.LeadsTo e')
    (nothing : e'.functions ⊆ e.functions) (within : code.Within e'.tables)
    (plain : ∀ i ∈ code, i.opcode ≠ .closure) : Lays start code.toFragment [] e e' := by
  refine ⟨leads, [], .plain start ?_ ?_, ?_, rfl⟩
  · intro item mem
    obtain ⟨i, inside, rfl⟩ := List.mem_map.mp mem
    exact within i inside
  · intro captures mem
    obtain ⟨i, inside, same⟩ := List.mem_map.mp mem
    cases same
    exact plain _ inside rfl
  · rw [List.map_nil, List.append_nil]
    exact leads.constants.functions_eq nothing

/-- A step without code. -/
theorem step (start : Nat) (leads : e.LeadsTo e') (nothing : e'.functions ⊆ e.functions) :
    Lays start [] [] e e' :=
  of_code start leads nothing Code.within_nil fun _ mem => absurd mem List.not_mem_nil

/-- Code that points into no table. -/
theorem quiet (start : Nat) (orderly : e.Orderly) (none : ∀ item ∈ code, item.table? = none) :
    Lays start code [] e e := by
  refine ⟨.refl orderly, [], .plain start (fun item mem => .of_table? (none item mem)) ?_, ?_, rfl⟩
  · intro captures mem
    cases none _ mem
  · rw [List.map_nil, List.append_nil]

theorem discards (start : Nat) (orderly : e.Orderly) (locals : List Storage.Local) :
    Lays start (Code.toFragment (locals.map Storage.Local.discard)) [] e e := by
  refine quiet start orderly fun item mem => ?_
  simp only [Code.toFragment, List.map_map, List.mem_map, Function.comp_apply] at mem
  obtain ⟨l, _, rfl⟩ := mem
  unfold Storage.Local.discard
  split <;> rfl

theorem goto (start : Nat) (orderly : e.Orderly) (d : Int16) :
    Lays start [.instruction (.goto d)] [] e e :=
  quiet start orderly (List.forall_mem_singleton.mpr rfl)

theorem gotoDrop (start : Nat) (orderly : e.Orderly) (value : Bool) (d : Int16) :
    Lays start [.instruction (.gotoDrop value d)] [] e e := by
  refine quiet start orderly (List.forall_mem_singleton.mpr ?_)
  cases value <;> rfl

/-- A test and the code that it can skip. -/
theorem test {condition : Code} {skip : Int16} (tests : Lays start condition.toFragment [] e e₁)
    (rest : Lays (start + condition.size + jumpSize) code as e₁ e') :
    Lays start (condition.toFragment ++ .instruction (.gotoDrop false skip) :: code) as e e' :=
  tests.follow ((gotoDrop _ tests.leads.orderly false skip).follow rest rfl)
    (by rw [Emit.Fragment.size_toFragment])

/-- Closing a loop moves no function. -/
theorem closeLoop {resume : Nat} (h : Lays start code as e e')
    (closed : Fragment.closeLoop code resume = .ok code') : Lays start code' as e e' := by
  obtain ⟨leads, functions, indexed, known⟩ := h
  exact ⟨leads, functions, indexed.closeLoop closed, known⟩

/-- Behind its code, a function becomes a constant. -/
theorem function {arity : Nat} {value : Fragment}
    (inner : Lays (start + jumpSize) code as { e with frames := e.frames.pushFrame } e₁)
    (wrapped : wrapFunction start arity e₁.frames.popBlock.2.popBlock.2.popFrame.1 code
      { e₁ with frames := e₁.frames.popBlock.2.popBlock.2.popFrame.2 } = .ok (value, e'))
    (before : EnteredBefore start e) : Lays start value (as ++ [arity]) e e' := by
  obtain ⟨inside, functions, indexed, listed, rfl⟩ := inner
  obtain ⟨left, taken, anchored⟩ := leadsTo_leaveFunction inside
  have frames := frames_wrapFunction wrapped
  obtain ⟨d, entry, count, _, closure, past, entered, counted, added, closed, rfl⟩ :=
    wrapFunction_eq_ok wrapped
  obtain ⟨leads, k, rfl, there⟩ := Emit.constant_leadsTo added left.orderly
  have entry_eq := Machine.toWord16_eq_ok entered
  have fresh : ∀ f ∈ e₁.constants.functions, f.1 ≠ entry.toNat := by
    intro f mem
    rw [listed] at mem
    rcases List.mem_append.mp mem with old | new
    · have := before f old
      omega
    · obtain ⟨g, here, rfl⟩ := List.mem_map.mp new
      have bounds := indexed.bounds g here
      have positive : 0 < jumpSize := Nat.succ_pos 2
      change g.entry ≠ _
      omega
  refine ⟨left.trans leads, _, indexed.function past there entry_eq
    ((Emission.PoolGrows.frames ..).trans leads.constants) leads.globals taken.symm closed ?_,
    ?_, ?_⟩
  · rw [taken, frames]
    exact anchored
  · rw [Emission.functions_constant added fresh, listed, List.map_append, List.append_assoc,
      entry_eq]
    rfl
  · rw [List.map_append, ← Machine.toWord8_eq_ok counted]
    rfl

end Lays

/-- An expression declares no functions. -/
theorem Expression.Writes.lays (run : x.Writes symbols none e codes e') (start : Nat)
    (orderly : e.Orderly) : Lays start (Code.toFragment codes.flatten) [] e e' := by
  refine .of_code start (run.expands.leadsTo orderly) run.functions (run.within orderly) ?_
  intro i mem closes
  have evaluates := run.evaluates i mem
  rw [closes] at evaluates
  cases evaluates

theorem Expression.Writes.enteredBefore (run : x.Writes symbols none e codes e') {n : Nat}
    (before : EnteredBefore start e) : EnteredBefore (start + n + jumpSize) e' :=
  fun f mem => Nat.lt_of_lt_of_le (before f (run.functions mem)) (by omega)

/-- A value that an instruction takes from the stack. -/
theorem Expression.Writes.lays_append (run : x.Writes symbols none e codes e') (start : Nat)
    (orderly : e.Orderly) {i : Machine.Instruction} (none : i.opcode.table? = none) :
    Lays start (Code.toFragment (codes.flatten ++ [i])) [] e e' := by
  have value := run.lays start orderly
  rw [Emit.Code.toFragment_append]
  exact value.follow (.quiet _ value.leads.orderly (List.forall_mem_singleton.mpr none)) rfl

theorem opcode_ne_closure_of_declare {s : SymbolId} {store : Code}
    (run : Emit.declare s e = .ok (store, e')) : ∀ i ∈ store, i.opcode ≠ .closure := by
  rcases Emit.declare_eq_ok run with ⟨_, _, _, _, rfl, _⟩ | ⟨_, _, _, rfl, _⟩
  · rw [List.forall_mem_cons, List.forall_mem_singleton]
    exact ⟨nofun, nofun⟩
  · exact fun _ mem => absurd mem List.not_mem_nil

theorem lays_functionEnding (start : Nat) (orderly : e.Orderly) (insertReturn : Bool)
    (locals : List Storage.Local) :
    Lays start (functionEnding insertReturn locals).toFragment [] e e := by
  have discards := Lays.discards start orderly locals
  unfold functionEnding
  split
  · rw [Emit.Code.toFragment_append]
    exact discards.follow (.quiet _ orderly (by decide)) rfl
  · exact discards

/-! ### Statements -/

mutual

/-- The numbers of parameters of the functions that a statement declares, in the order in which
their code ends. -/
def Statement.arities : Statement → List Nat
  | .function _ parameters body .. => aritiesOfList body ++ [parameters.length]
  | .ifThen _ yes _ => yes.arities
  | .ifElse _ yes no _ => yes.arities ++ no.arities
  | .whileLoop _ body _ => body.arities
  | .doWhile body .. => body.arities
  | .block statements _ => aritiesOfList statements
  | .declare .. => []
  | .returns .. => []
  | .breakLoop _ => []
  | .continueLoop _ => []
  | .print .. => []
  | .expression .. => []

def aritiesOfList : List Statement → List Nat
  | [] => []
  | s :: rest => s.arities ++ aritiesOfList rest

end

mutual

/-- A statement points at entries of the tables, and lays out the functions it declares. -/
theorem Statement.Writes.lays {s : Statement} {loop start e e' code} :
    s.Writes symbols loop start e code e' → e.Orderly → EnteredBefore start e →
      Lays start code s.arities e e'
  | .function declared put body wrapped, orderly, before => by
    obtain ⟨leads, within⟩ := Emit.declare_leadsTo declared orderly
    have named := Lays.step start leads (Emit.declare_functions declared).le
    have before₁ := named.enteredBefore before rfl
    have entered := Lays.step (start + jumpSize) (leadsTo_enterFunction leads.orderly put)
      (Emit.putLocals_functions put).le
    have before₂ := entered.enteredBefore (before₁.mono (Nat.le_add_right _ jumpSize)) rfl
    have inner := entered.follow (body.lays entered.leads.orderly before₂) rfl
    have value := (inner.ending (lays_functionEnding _ inner.leads.orderly _ _) rfl).function
      wrapped before₁
    -- The store is made before the code of the function, and stands behind it.
    refine (named.follow value rfl).ending (.of_code _ (.refl value.leads.orderly)
      (Set.Subset.refl _) ?_ (opcode_ne_closure_of_declare declared)) rfl
    exact Emit.Code.Within.mono within value.leads.tables
  | .declare value declared, orderly, _ => by
    have first := value.lays start orderly
    obtain ⟨leads, within⟩ := Emit.declare_leadsTo declared first.leads.orderly
    rw [Emit.Code.toFragment_append]
    exact first.follow (.of_code _ leads (Emit.declare_functions declared).le within
      (opcode_ne_closure_of_declare declared)) rfl
  | .ifThen condition yes _, orderly, before => by
    have tests := condition.lays start orderly
    exact tests.test (yes.lays tests.leads.orderly (condition.enteredBefore before))
  | .ifElse condition yes _ no _, orderly, before => by
    have tests := condition.lays start orderly
    have first := yes.lays tests.leads.orderly (condition.enteredBefore before)
    have before' := first.enteredBefore (condition.enteredBefore before) rfl
    have second := no.lays first.leads.orderly (before'.mono (by omega))
    exact tests.test (first.follow ((Lays.goto _ first.leads.orderly _).follow second
      (Nat.add_assoc ..).symm) rfl)
  | .whileLoop condition body run, orderly, before => by
    obtain ⟨skip, back, _, _, closed⟩ := Emit.whileLoop_eq_ok run
    have tests := condition.lays start orderly
    have round := body.lays tests.leads.orderly (condition.enteredBefore before)
    exact (tests.test (round.ending (.goto _ round.leads.orderly back) rfl)).closeLoop closed
  | .doWhile body condition run, orderly, before => by
    obtain ⟨back, _, closed⟩ := Emit.doWhile_eq_ok run
    have round := body.lays orderly before
    have after := condition.expands.leadsTo round.leads.orderly
    have tests := round.ending (condition.lays _ round.leads.orderly) rfl
    exact (tests.ending (.gotoDrop _ after.orderly true back) rfl).closeLoop closed
  | .block statements, orderly, before => by
    have opened := Lays.step start (.pushBlock orderly) (Set.Subset.refl _)
    have inner := statements.lays opened.leads.orderly (opened.enteredBefore before rfl)
    have left := Emission.LeadsTo.popBlock inner.leads.orderly
    exact (opened.follow inner rfl).ending ((Lays.step _ left (Set.Subset.refl _)).follow
      (.discards _ left.orderly _) rfl) rfl
  | .returnsUnit, orderly, _ => .quiet start orderly (by decide)
  | .returns value, orderly, _ | .print value, orderly, _ | .expression value, orderly, _ =>
    value.lays_append start orderly rfl
  | .breakLoop, orderly, _ | .continueLoop, orderly, _ => by
    exact (Lays.discards start orderly _).follow (.quiet _ orderly (by decide)) rfl

theorem WritesList.lays {statements loop start e e' code} :
    WritesList symbols loop start statements e code e' → e.Orderly →
      EnteredBefore start e → Lays start code (aritiesOfList statements) e e'
  | .nil, orderly, _ => .quiet start orderly (by decide)
  | .cons first others, orderly, before => by
    have here := first.lays orderly before
    exact here.follow (others.lays here.leads.orderly (here.enteredBefore before rfl)) rfl

end

/-! ### Programs -/

/-- The program takes over nothing. -/
theorem free_size_of_leadsTo (leads : Emission.empty.LeadsTo e) :
    e.frames.current.free.size = 0 := by
  obtain ⟨constants, globals, ⟨current, enclosing⟩⟩ := e
  cases leads.free with
  | cons _ none =>
    cases none
    cases leads.orderly.linked with
    | root empty => exact empty

/-- All numbers in a program are bounded by the tables at its end, and the constants of its
functions are as many as its functions. -/
theorem Program.inBounds_of_emitCode (run : p.emitCode = .ok (code, e)) :
    Machine.InBounds (Machine.locate 0 code) e.constants e.globals.size ∧
      e.constants.functions.map Prod.snd = aritiesOfList p.statements := by
  obtain ⟨f, rfl, statements⟩ := Program.writes_of_emitCode run
  have laid := statements.lays Emission.orderly_empty fun _ mem => absurd mem List.not_mem_nil
  have halt : Lays (0 + Fragment.size f) (Code.toFragment [.halt]) [] e e :=
    .quiet _ laid.leads.orderly (by decide)
  have whole := laid.ending halt rfl
  rw [← Emit.Fragment.toFragment_toCode fun x => statements.exit_not_mem,
    ← Emit.Code.toFragment_append] at whole
  obtain ⟨leads, functions, indexed, listed, arities⟩ := whole
  refine ⟨indexed.inBounds listed (free_size_of_leadsTo leads), ?_⟩
  rw [listed, ← arities]
  exact List.map_map

/-- The globals of a program are counted by its declarations outside all blocks and functions. -/
theorem Program.globals_size_of_emitCode (run : p.emitCode = .ok (code, e))
    (once : (introducesList p.statements).Nodup) :
    e.globals.size = (declaresList p.statements).length := by
  obtain ⟨f, _, statements⟩ := Program.writes_of_emitCode run
  have globals := statements.globals_eq (once.sublist (declaresList_sublist _))
  rw [← globals]
  exact (e.globals.slots.length_toList).symm

end Bindery.Bound

namespace Bindery

/-- Every number in a compiled file is the number of something: of a constant, of one of the
globals, or of a variable that the function captures in whose code it stands. The globals are
the variables and functions declared outside all blocks and functions. Each function has a
constant of its own, with the number of its parameters, that points behind a jump; the functions
of the file end in the order of these constants. -/
theorem SourceFile.indices_in_bounds {file : SourceFile} {image : Machine.Image}
    (compiled : file.compile = .ok image) :
    ∃ code, Machine.disassemble image.code = .ok code ∧
      Machine.InBounds code image.constants image.globalCount.toNat ∧
      image.globalCount.toNat = (Bound.declaresList file.bind.1.statements).length ∧
      image.constants.functions.map Prod.snd = Bound.aritiesOfList file.bind.1.statements := by
  obtain ⟨clean, written⟩ := emit_of_compile compiled
  obtain ⟨b, run, _⟩ := binds_of_clean clean
  obtain ⟨code, e, count, emitted, counted, rfl⟩ := Bound.Program.emit_eq_ok written
  have globals : count.toNat = e.globals.size := Machine.toWord16_eq_ok counted
  obtain ⟨bounded, arities⟩ := Bound.Program.inBounds_of_emitCode emitted
  refine ⟨_, Bound.Program.disassemble_of_emitCode emitted, ?_, ?_, arities⟩
  · rw [globals]
    exact bounded
  · rw [globals]
    exact Bound.Program.globals_size_of_emitCode emitted run.introduces.nodup

open Unplaced in
/-- A variable that is handed down through two functions, beside a global that is not:
`let base = 1 fun outer(n: Int): Int { fun middle(): Int { fun deep(): Int { return n + base }
return deep() } return middle() } print outer(base)`. -/
def handingFile : SourceFile :=
  source "handing" [
    var "base" (int 1),
    function "outer" [("n", "Int")] "Int"
      [function "middle" [] "Int"
        [function "deep" [] "Int" [give (binary .plus (use "n") (use "base"))],
        give (call "deep" [])],
      give (call "middle" [])],
    print (call "outer" [use "base"])]

/-- One function captures a local, and one what that function captures. -/
theorem handingFile_inBounds :
    ∃ image code, handingFile.compile = .ok image ∧ Machine.disassemble image.code = .ok code ∧
      Machine.InBounds code image.constants 2 ∧
      (Machine.functionBodies code image.constants.functions).map (Machine.Body.captures code) =
        [[], [⟨true, 0⟩], [⟨false, 0⟩]] ∧
      image.constants.functions.map Prod.snd = [0, 0, 1] := by
  have captured : (handingFile.compile.toOption.bind fun image =>
      (Machine.disassemble image.code).toOption.map fun code =>
        (Machine.functionBodies code image.constants.functions).map
          (Machine.Body.captures code)) = some [[], [⟨true, 0⟩], [⟨false, 0⟩]] := by
    decide +kernel
  have declared : (Bound.declaresList handingFile.bind.1.statements).length = 2 ∧
      Bound.aritiesOfList handingFile.bind.1.statements = [0, 0, 1] := by
    decide +kernel
  obtain ⟨image, compiled, captured⟩ := ok_of_toOption_bind captured
  obtain ⟨code, read, bounded, globals, arities⟩ := SourceFile.indices_in_bounds compiled
  rw [read] at captured
  rw [globals, declared.1] at bounded
  rw [declared.2] at arities
  exact ⟨image, code, compiled, read, bounded, Option.some.inj captured, arities⟩

end Bindery
