import Mathlib.Data.List.Nodup
import Bindery.Proofs.ExpressionRuns
import Bindery.Proofs.Interning
import Bindery.Proofs.Limits

/-!
The values of symbols and the cells that hold them.

Outside all functions, a symbol is a local of an open block or a global, and neither changes
while an expression is written (`Emission.Expands.of_root`). `Matches` ties the values of
symbols to the cells: the stack holds the values of the locals in the order of their
declaration, and the globals hold theirs. An expression evaluates alike in both
(`Matches.evaluate`).
-/

namespace Bindery.Bound

open Machine (Values)

/-! ### One memory for another -/

/-- What is known in the first memory is read and written alike in the second. -/
structure Memory.Simulates {σ τ V : Type} (m : Memory σ V) (n : Memory τ V) (R : σ → τ → Prop)
    (known : List SymbolId) : Prop where
  read : ∀ s ∈ known, ∀ {a b}, R a b → n.read b s = m.read a s
  write : ∀ s ∈ known, ∀ {a b v a'}, R a b → m.write a s v = some a' →
    ∃ b', n.write b s v = some b' ∧ R a' b'

/-- An expression has the same value in both memories. -/
theorem Expression.evaluate_simulates {σ τ V : Type} {ops : Values V} {m : Memory σ V}
    {n : Memory τ V} {R : σ → τ → Prop} {known : List SymbolId} (same : m.Simulates n R known) :
    ∀ (x : Expression) {a a' : σ} {b : τ} {v : V}, x.InScope known → R a b →
      x.evaluate ops m a = some (v, a') → ∃ b', x.evaluate ops n b = some (v, b') ∧ R a' b'
  | .literal .., _, _, b, _, _, rel, run => by
    cases run
    exact ⟨b, rfl, rel⟩
  | .reference s .., _, _, b, _, inScope, rel, run => by
    simp only [evaluate, Option.map_eq_some_iff] at run ⊢
    obtain ⟨_, found, rfl, rfl⟩ := run
    rw [same.read s inScope rel]
    exact ⟨b, ⟨_, found, rfl⟩, rel⟩
  | .assignment s value .., _, _, _, v, inScope, rel, run => by
    simp only [evaluate, bind, pure, Option.bind_eq_some_iff, Prod.exists] at run ⊢
    obtain ⟨w, a₁, computed, a₂, stored, result⟩ := run
    cases result
    obtain ⟨b₁, computed', rel₁⟩ := evaluate_simulates same value inScope.2 rel computed
    obtain ⟨b₂, stored', rel₂⟩ := same.write s inScope.1 rel₁ stored
    exact ⟨b₂, ⟨v, b₁, computed', b₂, stored', rfl⟩, rel₂⟩
  | .binary op left right .., _, _, _, v, inScope, rel, run => by
    cases lowered : op.lowering with
    | apply =>
      simp only [evaluate_apply lowered, Option.bind_eq_some_iff, Prod.exists] at run ⊢
      obtain ⟨x, a₁, first, y, a₂, second, result⟩ := run
      cases result
      obtain ⟨b₁, first', rel₁⟩ := evaluate_simulates same left inScope.1 rel first
      obtain ⟨b₂, second', rel₂⟩ := evaluate_simulates same right inScope.2 rel₁ second
      exact ⟨b₂, ⟨x, b₁, first', y, b₂, second', rfl⟩, rel₂⟩
    | test value =>
      simp only [evaluate_test lowered, Option.bind_eq_some_iff, Prod.exists] at run ⊢
      obtain ⟨x, a₁, first, ending⟩ := run
      obtain ⟨b₁, first', rel₁⟩ := evaluate_simulates same left inScope.1 rel first
      by_cases found : ops.isTrue x = value
      · rw [if_pos found] at ending
        cases ending
        exact ⟨b₁, ⟨v, b₁, first', if_pos found⟩, rel₁⟩
      · rw [if_neg found] at ending
        obtain ⟨b₂, second', rel₂⟩ := evaluate_simulates same right inScope.2 rel₁ ending
        exact ⟨b₂, ⟨x, b₁, first', (if_neg found).trans second'⟩, rel₂⟩
    | concat =>
      obtain rfl := eq_concat lowered
      simp only [evaluate, bind, pure, Option.bind_eq_some_iff, Prod.exists] at run ⊢
      obtain ⟨y, a₁, first, x, a₂, second, result⟩ := run
      cases result
      obtain ⟨b₁, first', rel₁⟩ := evaluate_simulates same right inScope.2 rel first
      obtain ⟨b₂, second', rel₂⟩ := evaluate_simulates same left inScope.1 rel₁ second
      exact ⟨b₂, ⟨y, b₁, first', x, b₂, second', rfl⟩, rel₂⟩
  | .unary _ operand .., _, _, _, _, inScope, rel, run => by
    simp only [evaluate, bind, pure, Option.bind_eq_some_iff, Prod.exists] at run ⊢
    obtain ⟨x, a₁, computed, result⟩ := run
    cases result
    obtain ⟨b₁, computed', rel₁⟩ := evaluate_simulates same operand inScope rel computed
    exact ⟨b₁, ⟨x, b₁, computed', rfl⟩, rel₁⟩
  | .parenthesized inner _, _, _, _, _, inScope, rel, run =>
    evaluate_simulates same inner inScope rel run
  | .ternary condition yes no .., _, _, _, _, inScope, rel, run => by
    simp only [evaluate, bind, Option.bind_eq_some_iff, Prod.exists] at run ⊢
    obtain ⟨x, a₁, tested, branch⟩ := run
    obtain ⟨b₁, tested', rel₁⟩ := evaluate_simulates same condition inScope.1 rel tested
    by_cases truth : ops.isTrue x = true
    · rw [if_pos truth] at branch
      obtain ⟨b₂, branch', rel₂⟩ := evaluate_simulates same yes inScope.2.1 rel₁ branch
      exact ⟨b₂, ⟨x, b₁, tested', (if_pos truth).trans branch'⟩, rel₂⟩
    · rw [if_neg truth] at branch
      obtain ⟨b₂, branch', rel₂⟩ := evaluate_simulates same no inScope.2.2 rel₁ branch
      exact ⟨b₂, ⟨x, b₁, tested', (if_neg truth).trans branch'⟩, rel₂⟩
  | .call .., _, _, _, _, _, _, run => nomatch run
  | .error _, _, _, _, _, _, _, run => nomatch run

end Bindery.Bound

namespace Bindery

open Machine (Cells ConstantPool Constant Image Values)
open Storage (Block DenseBlocks Frame FrameStack Local Slot)

/-! ### Constants at their index -/

/-- Constants keep their indices. -/
theorem Emission.PoolGrows.isPrefix {e e' : Emission} (grows : e.PoolGrows e') :
    e.constants.toList <+: e'.constants.toList := by
  obtain ⟨cs, same⟩ := grows
  rw [same]
  exact e.constants.isPrefix_addAll cs

/-! ### Outside all functions -/

namespace Emission

variable {symbols : SymbolTable} {e e' : Emission}

/-- The slot of a symbol outside all functions: a local comes before a global. -/
def slot? (e : Emission) (s : SymbolId) : Option Slot :=
  match e.frames.current.get? s with
  | some l => some ⟨.localSlot, l.index⟩
  | none => (e.globals.get? s).map fun index => ⟨.global, index⟩

/-- Outside all functions, nothing is taken over. -/
theorem resolve_of_root (root : e.frames.enclosing = []) {s : SymbolId} {slot : Slot}
    (run : Emit.resolve symbols s e = .ok (slot, e')) : e.slot? s = some slot ∧ e' = e := by
  unfold Emit.resolve FrameStack.resolve at run
  unfold slot?
  rw [root] at run
  cases known : e.frames.current.get? s with
  | some =>
    simp only [known] at run
    cases run
    exact ⟨rfl, rfl⟩
  | none =>
    simp only [known, FrameStack.takeOverFrom, Except.map, bind, Except.bind] at run
    cases global : e.globals.get? s with
    | some =>
      rw [global] at run
      cases run
      exact ⟨rfl, rfl⟩
    | none =>
      rw [global] at run
      cases run

/-- Outside all functions, writing an expression adds constants and does nothing else. -/
theorem Expands.of_root (root : e.frames.enclosing = []) (run : Expands symbols e e') :
    e'.frames = e.frames ∧ e'.globals = e.globals := by
  refine run.preserves (P := fun a => a.frames = e.frames ∧ a.globals = e.globals) ?_ ⟨rfl, rfl⟩
  rintro a b (⟨_, added⟩ | found) same
  · obtain ⟨_, _, _, _, rfl⟩ := Emit.constant_eq_ok added
    exact same
  · obtain ⟨_, rfl⟩ := resolve_of_root (same.1 ▸ root) found
    exact same

/-- A constant is found in every pool that keeps what was there after the code was written. -/
theorem Expands.get?_constant {image : Image} {c : Constant} {i : Machine.Instruction}
    (after : Expands symbols e e') {before : Emission} (added : Emit.constant c before = .ok (i, e))
    (fits : image.constants.Fits) (kept : e'.constants.toList <+: image.constants.toList) :
    ∃ n, i = .constant n ∧ image.constants.get? n.toNat = some c := by
  obtain ⟨index, _, put, rfl, rfl⟩ := Emit.constant_eq_ok added
  have here := ConstantPool.get?_of_intern put
  have there := getElem?_of_isPrefix (after.poolGrows.isPrefix.trans kept) here
  refine ⟨.ofNat index, rfl, ?_⟩
  have small : index < 65536 := by
    have within := (List.getElem?_eq_some_iff.mp there).1
    have size := fits.size_le
    rw [ConstantPool.size, ← Numbering.length_toList] at size
    exact Nat.lt_of_lt_of_le within (Nat.le_succ_of_le size)
  rw [UInt16.toNat_ofNat_of_lt' small]
  exact there

/-- Outside all functions, code finds symbols in the slots of the place where it is written,
and constants in the pool of the finished image. -/
theorem refers_of_root {final : Emission} {image : Image} (root : e.frames.enclosing = [])
    (fits : final.constants.Fits) (loaded : image.constants = final.constants)
    (later : e'.PoolGrows final) : Refers symbols image e.slot? e e' where
  slot before found _ := by
    obtain ⟨frames, globals⟩ := before.of_root root
    have slot := (resolve_of_root (frames ▸ root) found).1
    unfold slot? at slot ⊢
    rw [← frames, ← globals]
    exact slot
  constant _ added after :=
    after.get?_constant added (loaded ▸ fits) (loaded ▸ later.isPrefix)

end Emission

/-! ### Locals in their order -/

theorem length_flatten_eq_total {α : Type} (lists : List (List α)) :
    lists.flatten.length = total List.length lists := by
  induction lists with
  | nil => rfl
  | cons _ _ ih => rw [List.flatten_cons, List.length_append, ih, total_cons]

/-- In dense blocks, a local is found at its slot. -/
theorem Storage.DenseBlocks.getElem?_flatten {s : SymbolId} {l : Local} :
    ∀ {blocks : List Block}, DenseBlocks blocks → blocks.findSome? (·.get? s) = some l →
      (blocks.map Block.symbols).reverse.flatten[l.index.toNat]? = some s
  | [], _, found => nomatch found
  | b :: outer, ⟨here, rest⟩, found => by
    have length : (outer.map Block.symbols).reverse.flatten.length = total Block.size outer := by
      rw [length_flatten_eq_total, total_reverse, total_map]
      exact congrArg (fun g => total g outer) (funext fun b => b.length_symbols)
    rw [List.map_cons, List.reverse_cons, List.flatten_append, List.flatten_singleton]
    rw [List.findSome?_cons] at found
    cases known : b.get? s with
    | none =>
      rw [known] at found
      have below := rest.index_lt found
      rw [List.getElem?_append_left (length ▸ below)]
      exact getElem?_flatten rest found
    | some =>
      rw [known] at found
      cases found
      obtain ⟨i, place⟩ := List.getElem?_of_mem (Block.mem_symbols_of_get? known)
      have slot : b.slot s = l.index.toNat := by rw [Block.slot, known]; rfl
      have within := (List.getElem?_eq_some_iff.mp place).1
      rw [b.length_symbols] at within
      have index : total Block.size outer + i = l.index.toNat := by
        have mapped : (b.symbols.map b.slot)[i]? = some (b.slot s) := by
          rw [List.getElem?_map, place]
          rfl
        rw [here, List.getElem?_range' within, slot, Nat.one_mul] at mapped
        exact Option.some.inj mapped
      rw [← index, ← length, List.getElem?_append_right (Nat.le_add_right ..),
        Nat.add_sub_cancel_left]
      exact place

theorem isPrefix_enlist (l : List SymbolId) (s : SymbolId) : l <+: enlist l s := by
  unfold enlist
  split
  · exact List.prefix_rfl
  · exact List.prefix_append ..

namespace Contents

variable {σ : Contents} {s : SymbolId}

def localSymbols (σ : Contents) : List SymbolId := σ.current.reverse.flatten

/-- The locals are as many as their symbols. -/
theorem length_localSymbols (σ : Contents) : σ.localSymbols.length = σ.locals := by
  rw [localSymbols, length_flatten_eq_total, total_reverse]
  rfl

/-- Locals have storage. -/
theorem knows_of_mem_localSymbols (mem : s ∈ σ.localSymbols) : σ.Knows s := by
  obtain ⟨block, inside, holds⟩ := List.mem_flatten.mp mem
  exact .inr ⟨σ.current, List.mem_cons_self, block, List.mem_reverse.mp inside, holds⟩

theorem localSymbols_pushBlock (σ : Contents) : σ.pushBlock.localSymbols = σ.localSymbols := by
  simp [localSymbols, pushBlock]

/-- A new local comes last. -/
theorem localSymbols_put (fresh : ¬ σ.Knows s) :
    (σ.put s).localSymbols = σ.localSymbols ++ [s] := by
  obtain ⟨current, enclosing, globals⟩ := σ
  cases current with
  | nil => simp [localSymbols, put, enlist]
  | cons block =>
    have unknown : s ∉ block := fun mem => fresh (.inr ⟨_, List.mem_cons_self, block,
      List.mem_cons_self, mem⟩)
    simp [localSymbols, put, enlist_of_not_mem unknown]

/-- Declarations keep the locals that are there. -/
theorem isPrefix_localSymbols_declare (σ : Contents) (s : SymbolId) :
    σ.localSymbols <+: (σ.declare s).localSymbols := by
  unfold declare
  split
  · exact List.prefix_rfl
  · obtain ⟨current, enclosing, globals⟩ := σ
    cases current with
    | nil => exact List.nil_prefix
    | cons block =>
      simp only [localSymbols, put, List.headD_cons, List.tail_cons, List.reverse_cons,
        List.flatten_append, List.flatten_singleton, List.prefix_append_right_inj]
      exact isPrefix_enlist block s

/-- New locals come behind the others. -/
theorem isPrefix_localSymbols_foldl (σ : Contents) (declared : List SymbolId) :
    σ.localSymbols <+: (declared.foldl declare σ).localSymbols := by
  induction declared generalizing σ with
  | nil => exact List.prefix_rfl
  | cons s _ ih => exact (σ.isPrefix_localSymbols_declare s).trans (ih _)

/-- Declarations keep the globals that are there. -/
theorem isPrefix_globals_foldl (σ : Contents) (declared : List SymbolId) :
    σ.globals <+: (declared.foldl declare σ).globals := by
  induction declared generalizing σ with
  | nil => exact List.prefix_rfl
  | cons s _ ih =>
    refine List.IsPrefix.trans ?_ (ih _)
    unfold declare
    split
    · exact isPrefix_enlist σ.globals s
    · exact List.prefix_rfl

/-- Outside all blocks, declarations add globals in their order. -/
theorem foldl_declare_of_isGlobal (global : σ.isGlobal = true) {declared : List SymbolId}
    (once : (σ.globals ++ declared).Nodup) :
    declared.foldl declare σ = { σ with globals := σ.globals ++ declared } := by
  induction declared generalizing σ with
  | nil => simp
  | cons s _ ih =>
    have fresh : s ∉ σ.globals := fun mem =>
      (List.nodup_append.mp once).2.2 s mem s List.mem_cons_self rfl
    have first : σ.declare s = { σ with globals := σ.globals ++ [s] } := by
      rw [declare, if_pos global, enlist_of_not_mem fresh]
    have outside : isGlobal { σ with globals := σ.globals ++ [s] } = true := global
    rw [List.foldl_cons, first, ih outside (by simpa using once)]
    simp

/-- What is declared is global, or a local that is last. -/
theorem declare_cases (fresh : ¬ σ.Knows s) :
    (σ.isGlobal = true ∧ (σ.declare s).isGlobal = true ∧
      (σ.declare s).globals = σ.globals ++ [s] ∧
      (σ.declare s).localSymbols = σ.localSymbols) ∨
    (σ.isGlobal = false ∧ (σ.declare s).isGlobal = false ∧ (σ.declare s).globals = σ.globals ∧
      (σ.declare s).localSymbols = σ.localSymbols ++ [s]) := by
  cases global : σ.isGlobal with
  | true =>
    have unknown : s ∉ σ.globals := fun mem => fresh (.inl mem)
    rw [declare, if_pos global]
    exact .inl ⟨rfl, global, enlist_of_not_mem unknown, rfl⟩
  | false =>
    rw [declare, global, if_neg Bool.false_ne_true]
    refine .inr ⟨rfl, ?_, rfl, localSymbols_put fresh⟩
    simp [isGlobal, put]

theorem enclosing_foldl_declare (σ : Contents) (declared : List SymbolId) :
    (declared.foldl declare σ).enclosing = σ.enclosing := by
  induction declared generalizing σ with
  | nil => rfl
  | cons _ _ ih =>
    rw [List.foldl_cons, ih, declare]
    split <;> rfl

end Contents

end Bindery

namespace Bindery.Bound

open Machine (Cells Values)
open Storage (Slot)

/-! ### Values in cells -/

variable {V : Type} {locals globals : List SymbolId} {st : Store V} {cells : Cells V}

/-- The globals hold the values of the symbols `globals`, each at its index. -/
def HoldsGlobals (globals : List SymbolId) (st : Store V) (cells : Cells V) : Prop :=
  ∀ ⦃k s⦄, globals[k]? = some s → cells.globals (.ofNat k) = st s

/-- The stack holds the values of the symbols `locals`, the last on top, and the globals hold
theirs. -/
structure Matches (locals globals : List SymbolId) (st : Store V) (cells : Cells V) : Prop where
  stack : cells.stack.reverse.map some = locals.map st
  globals : HoldsGlobals globals st cells

namespace Matches

/-- Above the first locals lie the values of the others. -/
theorem split {kept dropped : List SymbolId} (same : Matches (kept ++ dropped) globals st cells) :
    ∃ below values, cells = below.push values ∧ values.length = dropped.length ∧
      Matches kept globals st below := by
  have stack := same.stack
  have lengths := congrArg List.length stack
  simp only [List.length_map, List.length_reverse, List.length_append] at lengths
  refine ⟨{ cells with stack := cells.stack.drop dropped.length },
    cells.stack.take dropped.length, ?_, ?_, ?_, same.globals⟩
  · simp [Cells.push]
  · rw [List.length_take]
    omega
  · have front := congrArg (List.take kept.length) stack
    rw [← List.map_take, List.take_reverse, List.map_append, List.take_left' (by simp)] at front
    have count : cells.stack.length - kept.length = dropped.length := by omega
    rw [count] at front
    exact front

/-- A new local is pushed. -/
theorem push {s : SymbolId} (same : Matches locals globals st cells) (fresh : s ∉ locals)
    (other : s ∉ globals) (v : V) :
    Matches (locals ++ [s]) globals (Function.update st s (some v)) (cells.push [v]) := by
  constructor
  · have others : locals.map (Function.update st s (some v)) = locals.map st :=
      List.map_congr_left fun t mem => Function.update_of_ne (ne_of_mem_of_not_mem mem fresh) ..
    simp [others, same.stack]
  · intro k t place
    have different := ne_of_mem_of_not_mem (List.mem_of_getElem? place) other
    rw [Function.update_of_ne different]
    exact same.globals place

/-- A value that is stored in a local. -/
theorem storeLocal {s : SymbolId} {i : UInt16} (same : Matches locals globals st cells)
    (once : locals.Nodup) (place : locals[i.toNat]? = some s) (other : s ∉ globals) (v : V) :
    ∃ cells', cells.store ⟨.localSlot, i⟩ v = some cells' ∧
      Matches locals globals (Function.update st s (some v)) cells' := by
  have lengths := congrArg List.length same.stack
  simp only [List.length_map, List.length_reverse] at lengths
  obtain ⟨within, here⟩ := List.getElem?_eq_some_iff.mp place
  refine ⟨_, if_pos (lengths ▸ within), ?_, fun k t at_ => ?_⟩
  · have stack : (cells.stack.reverse.set i.toNat v).map some =
        (locals.map st).set i.toNat (some v) := by
      rw [List.map_set, same.stack]
    simp only [List.reverse_reverse, stack]
    refine List.ext_getElem (by simp) fun n below below' => ?_
    simp only [List.length_set, List.length_map] at below
    rw [List.getElem_set, List.getElem_map, List.getElem_map]
    by_cases eq : i.toNat = n
    · subst eq
      rw [if_pos rfl, here, Function.update_self]
    · rw [if_neg eq, Function.update_of_ne]
      intro same
      exact eq ((List.Nodup.getElem_inj_iff once).mp (here.trans same.symm))
  · have different := ne_of_mem_of_not_mem (List.mem_of_getElem? at_) other
    rw [Function.update_of_ne different]
    exact same.globals at_

end Matches

/-- A value that is stored in a global. -/
theorem HoldsGlobals.store {s : SymbolId} {k : Nat} (same : HoldsGlobals globals st cells)
    (once : globals.Nodup) (few : globals.length ≤ 65536) (place : globals[k]? = some s) (v : V) :
    HoldsGlobals globals (Function.update st s (some v))
      { cells with globals := Function.update cells.globals (.ofNat k) (some v) } := by
  intro n t at_
  obtain ⟨within, here⟩ := List.getElem?_eq_some_iff.mp place
  obtain ⟨within', there⟩ := List.getElem?_eq_some_iff.mp at_
  by_cases eq : n = k
  · subst eq
    obtain rfl : s = t := here.symm.trans there
    simp
  · have different : t ≠ s := fun same =>
      eq ((List.Nodup.getElem_inj_iff once).mp (there.trans (same.trans here.symm)))
    have apart : UInt16.ofNat n ≠ UInt16.ofNat k := by
      intro same
      have numbers := congrArg UInt16.toNat same
      rw [UInt16.toNat_ofNat_of_lt' (Nat.lt_of_lt_of_le within' few),
        UInt16.toNat_ofNat_of_lt' (Nat.lt_of_lt_of_le within few)] at numbers
      exact eq numbers
    rw [Function.update_of_ne different]
    simp only [Function.update_of_ne apart]
    exact same at_

def Placed (slots : SymbolId → Option Slot) (locals globals : List SymbolId) (s : SymbolId) :
    Prop :=
  (∃ i, slots s = some ⟨.localSlot, i⟩ ∧ locals[i.toNat]? = some s) ∨
    ∃ k, slots s = some ⟨.global, .ofNat k⟩ ∧ globals[k]? = some s

/-- Symbols are read and written in their cells as they are by themselves. -/
theorem simulates_cells {slots : SymbolId → Option Slot} {known : List SymbolId}
    (once : (locals ++ globals).Nodup) (few : globals.length ≤ 65536)
    (placed : ∀ s ∈ known, Placed slots locals globals s) :
    Memory.Simulates (V := V) .symbols (.cells slots) (Matches locals globals) known where
  read s mem st cells same := by
    rcases placed s mem with ⟨i, slot, place⟩ | ⟨k, slot, place⟩
    · have value := congrArg (·[i.toNat]?) same.stack
      simp only [List.getElem?_map, place, Option.map_some] at value
      simp only [Memory.cells, Memory.symbols, slot, Option.bind_some]
      change cells.stack.reverse[i.toNat]? = st s
      cases here : cells.stack.reverse[i.toNat]? with
      | none => rw [here] at value; cases value
      | some => rw [here] at value; exact Option.some.inj value
    · simp only [Memory.cells, Memory.symbols, slot, Option.bind_some]
      exact same.globals place
  write s mem st cells v st' same run := by
    obtain ⟨once, once', apart⟩ := List.nodup_append.mp once
    cases run
    rcases placed s mem with ⟨i, slot, place⟩ | ⟨k, slot, place⟩
    · have other : s ∉ globals := fun mem => apart s (List.mem_of_getElem? place) s mem rfl
      simp only [Memory.cells, slot, Option.bind_some]
      exact same.storeLocal once place other v
    · have other : s ∉ locals := fun mem => apart s mem s (List.mem_of_getElem? place) rfl
      simp only [Memory.cells, slot, Option.bind_some]
      refine ⟨_, rfl, ?_, same.globals.store once' few place v⟩
      rw [same.stack]
      exact List.map_congr_left fun t mem =>
        (Function.update_of_ne (ne_of_mem_of_not_mem mem other) ..).symm

end Bindery.Bound
