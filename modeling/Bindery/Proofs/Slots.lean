import Bindery.Proofs.Contents

/-!
Which slots locals have.

The locals of a function fill its slots from 0 on, those of a block right above those of
the blocks around it (`Frame.Dense`). Three facts about code follow. A local that is found
lies below the number of locals; a block removes as many values as it has locals; a jump
out of a loop removes as many as there are locals above the loop. Slots stay dense as long
as no symbol gets storage twice. `Emission.Ready` says that this is so for the symbols that
are still to come, and every run of the emitter keeps it (`Statement.Writes.ready`).
-/

namespace Bindery.Storage

/-! ### Blocks -/

def Block.slot (b : Block) (s : SymbolId) : Nat := (b.get? s).elim 0 (·.index.toNat)

variable {b : Block} {s : SymbolId}

theorem Block.exists_get? (mem : s ∈ b.symbols) : ∃ l, b.get? s = some l := by
  cases known : b.get? s with
  | none => exact absurd mem ((b.get?_eq_none_iff s).mp known)
  | some l => exact ⟨l, rfl⟩

/-- The slots of the locals are those of the symbols. -/
theorem Block.map_toList (b : Block) : b.toList.map (·.index.toNat) = b.symbols.map b.slot := by
  have each : ∀ symbols : List SymbolId, (∀ s ∈ symbols, s ∈ b.symbols) →
      (symbols.filterMap b.get?).map (·.index.toNat) = symbols.map b.slot := by
    intro symbols
    induction symbols with
    | nil => intro _; rfl
    | cons s _ ih =>
      intro members
      obtain ⟨l, known⟩ := exists_get? (members s List.mem_cons_self)
      rw [List.filterMap_cons_some known, List.map_cons, List.map_cons,
        ih fun t mem => members t (List.mem_cons_of_mem _ mem), slot, known]
      rfl
  exact each b.symbols fun _ mem => mem

theorem Block.length_toList (b : Block) : b.toList.length = b.size := by
  rw [← List.length_map, b.map_toList, List.length_map, b.length_symbols]

/-- A new symbol comes last. -/
theorem Block.slots_put (fresh : s ∉ b.symbols) (l : Local) :
    (b.put s l).symbols.map (b.put s l).slot = b.symbols.map b.slot ++ [l.index.toNat] := by
  have others : b.symbols.map (b.put s l).slot = b.symbols.map b.slot := by
    refine List.map_congr_left fun t mem => ?_
    have different : s ≠ t := fun same => fresh (same ▸ mem)
    rw [slot, slot, get?_put, if_neg different]
  rw [symbols_put, enlist_of_not_mem fresh, List.map_append, others, List.map_singleton, slot,
    get?_put, if_pos rfl]
  rfl

/-- A symbol that keeps its slot changes no slot. -/
theorem Block.slots_put_of_get? {old l : Local} (known : b.get? s = some old)
    (same : l.index = old.index) :
    (b.put s l).symbols.map (b.put s l).slot = b.symbols.map b.slot := by
  rw [symbols_put_of_get? known]
  refine List.map_congr_left fun t _ => ?_
  rw [slot, slot, get?_put]
  by_cases here : s = t
  · subst here
    rw [if_pos rfl, known]
    exact congrArg UInt16.toNat same
  · rw [if_neg here]

/-! ### Dense frames -/

/-- The locals of every block lie right above those of the blocks around it. -/
def DenseBlocks : List Block → Prop
  | [] => True
  | b :: outer =>
    b.symbols.map b.slot = List.range' (total Block.size outer) b.size ∧ DenseBlocks outer

def Frame.Dense (f : Frame) : Prop := DenseBlocks f.blocks

theorem Frame.size_eq (f : Frame) : f.size = total List.length f.symbols := by
  rw [size, symbols, total_map]
  exact congrArg (fun g => total g f.blocks) (funext fun b => b.length_symbols.symm)

namespace DenseBlocks

/-- A local that is found lies below the number of locals. -/
theorem index_lt {s : SymbolId} {l : Local} :
    ∀ {blocks : List Block}, DenseBlocks blocks → blocks.findSome? (·.get? s) = some l →
      l.index.toNat < total Block.size blocks
  | [], _, found => nomatch found
  | b :: _, ⟨here, rest⟩, found => by
    rw [total_cons]
    rw [List.findSome?_cons] at found
    cases known : b.get? s with
    | none =>
      rw [known] at found
      have := index_lt rest found
      omega
    | some =>
      rw [known] at found
      cases found
      have slot : b.slot s = l.index.toNat := by rw [Block.slot, known]; rfl
      have mem : b.slot s ∈ b.symbols.map b.slot :=
        List.mem_map_of_mem (Block.mem_symbols_of_get? known)
      rw [here, List.mem_range'_1, slot] at mem
      omega

/-- Together, the locals of all blocks have the slots from 0 on. -/
theorem slots_eq : ∀ {blocks : List Block}, DenseBlocks blocks →
    (blocks.reverse.flatMap Block.toList).map (·.index.toNat) =
      List.range' 0 (total Block.size blocks)
  | [], _ => rfl
  | b :: _, ⟨here, rest⟩ => by
    have below := slots_eq rest
    rw [List.reverse_cons, List.flatMap_append, List.map_append, below, List.flatMap_singleton,
      b.map_toList, here, total_cons, Nat.add_comm b.size, ← List.range'_append_1, Nat.zero_add]

theorem captureIn {s : SymbolId} :
    ∀ {blocks : List Block}, DenseBlocks blocks →
      DenseBlocks (Frame.captureIn s blocks) ∧
        total Block.size (Frame.captureIn s blocks) = total Block.size blocks
  | [], _ => ⟨trivial, rfl⟩
  | b :: _, ⟨here, rest⟩ => by
    rw [Frame.captureIn]
    split
    · rename_i l known
      have size : (b.put s { l with captured := true }).size = b.size := by
        rw [← Block.length_symbols, Block.symbols_put_of_get? known, Block.length_symbols]
      refine ⟨⟨?_, rest⟩, ?_⟩
      · rw [size]
        exact (Block.slots_put_of_get? (l := { l with captured := true }) known rfl).trans here
      · rw [total_cons, total_cons, size]
    · obtain ⟨inner, size⟩ := captureIn (s := s) rest
      refine ⟨⟨?_, inner⟩, ?_⟩
      · rw [size]
        exact here
      · rw [total_cons, total_cons, size]

end DenseBlocks

namespace Frame

variable {f f' : Frame}

theorem dense_empty : empty.Dense := trivial

/-- A local lies below the number of locals. -/
theorem Dense.index_lt (dense : f.Dense) {s : SymbolId} {l : Local} (found : f.get? s = some l) :
    l.index.toNat < f.size :=
  DenseBlocks.index_lt dense found

/-- Marking a local moves none. -/
theorem Dense.capture (dense : f.Dense) (s : SymbolId) : (f.capture s).Dense :=
  (DenseBlocks.captureIn dense).1

/-- A new symbol gets the slot above all others. -/
theorem Dense.put (dense : f.Dense) {s : SymbolId} (fresh : ∀ block ∈ f.symbols, s ∉ block)
    (run : f.put s = .ok f') : f'.Dense := by
  obtain ⟨blocks, free⟩ := f
  unfold Frame.put at run
  split at run
  · cases run
  · rename_i room
    have index : (UInt16.ofNat (total Block.size blocks)).toNat = total Block.size blocks :=
      UInt16.toNat_ofNat_of_lt' (Nat.not_le.mp room)
    cases blocks with
    | nil =>
      cases run
      refine ⟨?_, trivial⟩
      rw [Block.slots_put (b := .empty) List.not_mem_nil]
      rfl
    | cons b outer =>
      cases run
      have unknown : s ∉ b.symbols := fresh _ List.mem_cons_self
      refine ⟨?_, dense.2⟩
      have size : (b.put s ⟨.ofNat (size ⟨b :: outer, free⟩), false⟩).size = b.size + 1 := by
        rw [← Block.length_symbols, Block.symbols_put, enlist_of_not_mem unknown,
          List.length_append, Block.length_symbols]
        rfl
      rw [Block.slots_put unknown, dense.1, size, List.range'_concat, Nat.one_mul]
      change _ ++ [(UInt16.ofNat (total Block.size (b :: outer))).toNat] = _
      rw [index, total_cons, Nat.add_comm]

variable {base : Nat}

/-- The locals above a loop have the slots above those below it. -/
theorem Dense.slots_from (dense : f.Dense) (below : base ≤ f.size) :
    ((f.blocks.reverse.flatMap Block.toList).filter fun l => base ≤ l.index.toNat).map
      (·.index.toNat) = List.range' base (f.size - base) := by
  have slots := DenseBlocks.slots_eq dense
  have split : List.range' 0 (total Block.size f.blocks) =
      List.range' 0 base ++ List.range' base (f.size - base) := by
    have whole : total Block.size f.blocks = base + (f.size - base) := by
      change f.size = _
      omega
    rw [whole, ← List.range'_append_1, Nat.zero_add]
  have fewer : (List.range' 0 base).filter (fun n => decide (base ≤ n)) = [] := by
    rw [List.filter_eq_nil_iff]
    intro n mem
    have := (List.mem_range'_1.mp mem).2
    simp only [decide_eq_true_eq]
    omega
  have all : (List.range' base (f.size - base)).filter (fun n => decide (base ≤ n)) =
      List.range' base (f.size - base) := by
    rw [List.filter_eq_self]
    intro n mem
    exact decide_eq_true (List.mem_range'_1.mp mem).1
  have kept := congrArg (List.filter fun n => decide (base ≤ n)) slots
  rw [List.filter_map, split, List.filter_append, fewer, all, List.nil_append] at kept
  exact kept

/-- As many locals are removed on the way out of a loop as lie above it. -/
theorem Dense.length_localsFrom (dense : f.Dense) (below : base ≤ f.size) :
    (f.localsFrom base).length = f.size - base := by
  have lengths := congrArg List.length (dense.slots_from below)
  rw [List.length_map, List.length_range'] at lengths
  rw [localsFrom, Local.highestFirst, List.length_mergeSort]
  exact lengths

end Frame

/-- Taking a symbol over moves no local. -/
theorem FrameStack.TakesOver.dense {s : SymbolId} {f : Frame} {frames : List Frame}
    {index : UInt16} {fs : FrameStack} (rel : TakesOver s f frames index fs) :
    (∀ g ∈ f :: frames, g.Dense) → ∀ g ∈ fs.toList, g.Dense := by
  induction rel with
  | found _ _ blocks =>
    intro dense
    simp only [toList, List.forall_mem_cons] at dense ⊢
    obtain ⟨current, parent, outer⟩ := dense
    refine ⟨?_, parent.capture s, outer⟩
    rw [Frame.Dense, blocks]
    exact current
  | through _ _ _ blocks ih =>
    intro dense
    obtain ⟨current, around⟩ := List.forall_mem_cons.mp dense
    rw [toList, List.forall_mem_cons]
    refine ⟨?_, ih around⟩
    rw [Frame.Dense, blocks]
    exact current

end Bindery.Storage

namespace Bindery

open Storage

/-! ### Numbers of locals -/

def Contents.locals (σ : Contents) : Nat := total List.length σ.current

def Emission.locals (e : Emission) : Nat := e.frames.current.size

theorem Emission.locals_eq (e : Emission) : e.locals = e.contents.locals :=
  e.frames.current.size_eq

theorem Emission.locals_of_contents {e e' : Emission} (same : e'.contents = e.contents) :
    e'.locals = e.locals := by
  rw [locals_eq, same, ← locals_eq]

namespace Contents

variable {σ : Contents} {s : SymbolId}

theorem locals_put (fresh : ¬ σ.Knows s) : (σ.put s).locals = σ.locals + 1 := by
  obtain ⟨current, enclosing, globals⟩ := σ
  cases current with
  | nil => simp [locals, put, enlist]
  | cons block =>
    have unknown : s ∉ block := fun mem => fresh (.inr ⟨_, List.mem_cons_self, block,
      List.mem_cons_self, mem⟩)
    simp only [locals, put, List.headD_cons, List.tail_cons, total_cons,
      enlist_of_not_mem unknown, List.length_append, List.length_singleton]
    omega

theorem locals_foldl_put {added : List SymbolId} (nodup : added.Nodup)
    (fresh : ∀ s ∈ added, ¬ σ.Knows s) : (added.foldl put σ).locals = σ.locals + added.length := by
  induction added generalizing σ with
  | nil => rfl
  | cons s _ ih =>
    obtain ⟨first, others⟩ := List.nodup_cons.mp nodup
    rw [List.foldl_cons, ih others, locals_put (fresh s List.mem_cons_self), List.length_cons]
    · omega
    · intro t mem known
      rcases knows_put.mp known with rfl | before
      · exact first mem
      · exact fresh t (List.mem_cons_of_mem _ mem) before

theorem locals_declare_le (σ : Contents) (s : SymbolId) : σ.locals ≤ (σ.declare s).locals := by
  unfold declare
  split
  · exact Nat.le_refl _
  · obtain ⟨current, enclosing, globals⟩ := σ
    cases current with
    | nil => simp [locals]
    | cons block =>
      have longer := length_enlist_le block s
      simp only [locals, put, List.headD_cons, List.tail_cons, total_cons]
      omega

theorem locals_foldl_declare_le (declared : List SymbolId) :
    σ.locals ≤ (declared.foldl declare σ).locals := by
  induction declared generalizing σ with
  | nil => exact Nat.le_refl _
  | cons s _ ih => exact Nat.le_trans (σ.locals_declare_le s) ih

/-- Where no block is open, nothing that is declared is local. -/
theorem locals_foldl_declare_of_isGlobal (declared : List SymbolId) (global : σ.isGlobal = true) :
    (declared.foldl declare σ).locals = σ.locals := by
  induction declared generalizing σ with
  | nil => rfl
  | cons s _ ih =>
    have outside : σ.declare s = { σ with globals := enlist σ.globals s } := by
      simp [declare, global]
    have behind := ih (σ := σ.declare s) (by rw [outside]; exact global)
    rw [List.foldl_cons, behind, outside]
    rfl

variable {t : SymbolId}

theorem Knows.of_popBlock (known : σ.popBlock.Knows t) : σ.Knows t := by
  rcases known with global | ⟨frame, mem, block, inside, holds⟩
  · exact .inl global
  · rcases List.mem_cons.mp mem with rfl | outer
    · exact .inr ⟨σ.current, List.mem_cons_self, block, List.mem_of_mem_tail inside, holds⟩
    · exact .inr ⟨frame, List.mem_cons_of_mem _ outer, block, inside, holds⟩

theorem Knows.of_popFrame (known : σ.popFrame.Knows t) : σ.Knows t := by
  obtain ⟨current, enclosing, globals⟩ := σ
  rcases known with global | ⟨frame, mem, block, inside, holds⟩
  · exact .inl global
  · cases enclosing with
    | nil =>
      cases List.mem_singleton.mp mem
      exact absurd inside List.not_mem_nil
    | cons =>
      exact .inr ⟨frame, List.mem_cons_of_mem _ mem, block, inside, holds⟩

end Contents

/-! ### Symbols that are still to come -/

def Emission.Dense (e : Emission) : Prop := ∀ f ∈ e.frames.toList, f.Dense

/-- Slots are dense, and the symbols `ids` are yet to get storage, each once. -/
structure Emission.Ready (e : Emission) (ids : List SymbolId) : Prop where
  dense : e.Dense
  nodup : ids.Nodup
  fresh : ∀ s ∈ ids, ¬ e.contents.Knows s

namespace Emission.Ready

variable {e e' : Emission} {s : SymbolId} {ids rest : List SymbolId}

theorem empty (nodup : ids.Nodup) : Emission.empty.Ready ids := by
  refine ⟨?_, nodup, ?_⟩
  · intro f mem
    cases List.mem_singleton.mp mem
    exact Frame.dense_empty
  · rintro s - (global | ⟨frame, mem, block, inside, -⟩)
    · cases global
    · cases List.mem_singleton.mp mem
      cases inside

theorem current (h : e.Ready ids) : e.frames.current.Dense := h.dense _ List.mem_cons_self

theorem sublist (h : e.Ready ids) (sub : rest.Sublist ids) : e.Ready rest :=
  ⟨h.dense, h.nodup.sublist sub, fun s mem => h.fresh s (sub.subset mem)⟩

theorem perm (h : e.Ready ids) (same : ids.Perm rest) : e.Ready rest :=
  ⟨h.dense, same.nodup_iff.mp h.nodup, fun s mem => h.fresh s (same.mem_iff.mpr mem)⟩

/-- A step that gives nothing new storage. -/
theorem step (h : e.Ready ids) (dense : e'.Dense)
    (known : ∀ s, e'.contents.Knows s → e.contents.Knows s) : e'.Ready ids :=
  ⟨dense, h.nodup, fun s mem now => h.fresh s mem (known s now)⟩

theorem put {frames : FrameStack} (h : e.Ready (s :: ids)) (run : e.frames.put s = .ok frames) :
    Ready { e with frames } ids := by
  obtain ⟨first, others⟩ := List.nodup_cons.mp h.nodup
  have unknown := h.fresh s List.mem_cons_self
  refine ⟨?_, others, fun t mem known => ?_⟩
  · unfold FrameStack.put at run
    obtain ⟨_, added, ended⟩ := except_bind_eq_ok.mp run
    cases ended
    intro g mem
    rcases List.mem_cons.mp mem with rfl | outer
    · refine h.current.put (fun block inside holds => unknown ?_) added
      exact .inr ⟨_, List.mem_cons_self, block, inside, holds⟩
    · exact h.dense g (List.mem_cons_of_mem _ outer)
  · rw [Emit.put_contents run] at known
    rcases Contents.knows_put.mp known with rfl | before
    · exact first mem
    · exact h.fresh t (List.mem_cons_of_mem _ mem) before

/-- New locals keep a frame dense. -/
theorem putLocals {locals : List SymbolId} (h : e.Ready (locals ++ ids))
    (run : locals.forM Emit.putLocal e = .ok ((), e')) : e'.Ready ids := by
  induction locals generalizing e with
  | nil =>
    obtain ⟨_, rfl⟩ := Emit.pure_eq_ok.mp run
    exact h
  | cons _ _ ih =>
    obtain ⟨_, added, others⟩ := Emit.putLocals_cons run
    exact ih (h.put added) others

/-- A declaration gives its symbol a global, or the slot above all others. -/
theorem declare {store : Emit.Code} (h : e.Ready (s :: ids))
    (run : Emit.declare s e = .ok (store, e')) :
    e'.Ready ids ∧ ((∃ index, store = [.setGlobal index, .pop] ∧ e'.locals = e.locals) ∨
      (store = [] ∧ e'.locals = e.locals + 1)) := by
  have contents := Emit.declare_contents run
  obtain ⟨first, others⟩ := List.nodup_cons.mp h.nodup
  rcases Emit.declare_eq_ok run with ⟨_, index, globals, _, rfl, rfl⟩ | ⟨_, frames, put, rfl, rfl⟩
  · refine ⟨⟨h.dense, others, fun t mem known => ?_⟩, .inl ⟨index, rfl, rfl⟩⟩
    rw [contents] at known
    rcases Contents.knows_declare.mp known with rfl | before
    · exact first mem
    · exact h.fresh t (List.mem_cons_of_mem _ mem) before
  · refine ⟨h.put put, .inr ⟨rfl, ?_⟩⟩
    rw [locals_eq, Emit.put_contents put, Contents.locals_put (h.fresh s List.mem_cons_self),
      ← locals_eq]

theorem pushBlock (h : e.Ready ids) : Ready { e with frames := e.frames.pushBlock } ids := by
  refine h.step ?_ fun t known => ?_
  · intro f mem
    rcases List.mem_cons.mp mem with rfl | outer
    · exact ⟨rfl, h.current⟩
    · exact h.dense f (List.mem_cons_of_mem _ outer)
  · rw [Emit.pushBlock_contents] at known
    exact Contents.knows_pushBlock.mp known

theorem popBlock (h : e.Ready ids) : Ready { e with frames := e.frames.popBlock.2 } ids := by
  refine h.step ?_ fun t known => Contents.Knows.of_popBlock (Emit.popBlock_contents e ▸ known)
  have dense := h.dense
  obtain ⟨constants, globals, ⟨⟨blocks, free⟩, enclosing⟩⟩ := e
  cases blocks with
  | nil => exact dense
  | cons =>
    intro f mem
    rcases List.mem_cons.mp mem with rfl | around
    · exact h.current.2
    · exact dense f (List.mem_cons_of_mem _ around)

theorem pushFrame (h : e.Ready ids) : Ready { e with frames := e.frames.pushFrame } ids := by
  refine h.step ?_ fun t known => ?_
  · intro f mem
    rcases List.mem_cons.mp mem with rfl | outer
    · exact Frame.dense_empty
    · exact h.dense f outer
  · change e.contents.pushFrame.Knows t at known
    exact Contents.knows_pushFrame.mp known

theorem popFrame (h : e.Ready ids) : Ready { e with frames := e.frames.popFrame.2 } ids := by
  refine h.step ?_ fun t known => Contents.Knows.of_popFrame (Emit.popFrame_contents e ▸ known)
  have dense := h.dense
  obtain ⟨constants, globals, ⟨current, enclosing⟩⟩ := e
  cases enclosing with
  | nil =>
    intro f mem
    cases List.mem_singleton.mp mem
    exact Frame.dense_empty
  | cons =>
    intro f mem
    exact dense f (List.mem_cons_of_mem _ mem)

end Emission.Ready

theorem Emission.locals_pushBlock (e : Emission) :
    locals { e with frames := e.frames.pushBlock } = e.locals := by
  change total Storage.Block.size (.empty :: e.frames.current.blocks) = _
  rw [total_cons]
  exact Nat.zero_add _

/-- A block removes as many values as it has locals. -/
theorem Emission.length_popBlock (e : Emission) :
    Emission.locals { e with frames := e.frames.popBlock.2 } + e.frames.popBlock.1.length =
      e.locals := by
  obtain ⟨constants, globals, ⟨⟨blocks, free⟩, enclosing⟩⟩ := e
  cases blocks with
  | nil => rfl
  | cons b outer =>
    change total Block.size outer + (b.toList.mergeSort _).length = total Block.size (b :: outer)
    rw [List.length_mergeSort, b.length_toList, total_cons, Nat.add_comm]

namespace Emit

variable {e e' : Emission}

theorem constant_dense {c : Machine.Constant} {i : Machine.Instruction} (dense : e.Dense)
    (run : constant c e = .ok (i, e')) : e'.Dense := by
  obtain ⟨_, _, _, _, rfl⟩ := constant_eq_ok run
  exact dense

theorem resolve_dense {symbols : SymbolTable} {s : SymbolId} {slot : Slot} (dense : e.Dense)
    (run : resolve symbols s e = .ok (slot, e')) : e'.Dense := by
  rcases resolve_eq_ok run with ⟨_, _, _, rfl⟩ | ⟨_, frames, rel, _, rfl⟩ | ⟨_, _, rfl⟩
  · exact dense
  · exact rel.dense dense
  · exact dense

end Emit

theorem Emission.Expands.dense {symbols : SymbolTable} {e e' : Emission}
    (run : Expands symbols e e') (dense : e.Dense) : e'.Dense := by
  refine run.preserves ?_ dense
  rintro a b (⟨_, added⟩ | found) dense
  · exact Emit.constant_dense dense added
  · exact Emit.resolve_dense dense found

end Bindery

namespace Bindery.Bound

/-! ### Runs -/

theorem Expression.Writes.dense {symbols : SymbolTable} {x : Expression}
    {chain : Option BinaryOperation} {e e' : Emission} {codes : List Emit.Code}
    (run : x.Writes symbols chain e codes e') (dense : e.Dense) : e'.Dense :=
  run.expands.dense dense

variable {symbols : SymbolTable} {e e' : Emission} {ids : List SymbolId} {start : Nat}

theorem Expression.Writes.ready {x : Expression} {chain : Option BinaryOperation}
    {codes : List Emit.Code} (run : x.Writes symbols chain e codes e') (h : e.Ready ids) :
    e'.Ready ids :=
  h.step (run.dense h.dense) fun _ known => run.contents ▸ known

/-- Where the body of a function is written, its parameters are its only locals. -/
theorem ready_enterFunction {f : SymbolId} {parameters : List SymbolId} {store : Emit.Code}
    {e₁ e₂ : Emission} (h : e.Ready (parameters ++ f :: ids))
    (declared : Emit.declare f e = .ok (store, e₁))
    (put : parameters.forM Emit.putLocal { e₁ with frames := e₁.frames.pushFrame.pushBlock } =
      .ok ((), e₂)) : Emission.Ready { e₂ with frames := e₂.frames.pushBlock } ids ∧
      Emission.locals { e₂ with frames := e₂.frames.pushBlock } = parameters.length := by
  have outside := ((h.perm List.perm_middle).declare declared).1.pushFrame.pushBlock
  refine ⟨(outside.putLocals put).pushBlock, ?_⟩
  have count := Contents.locals_foldl_put (List.nodup_append.mp outside.nodup).1 fun s mem =>
    outside.fresh s (List.mem_append_left _ mem)
  rw [Emission.locals_pushBlock, Emission.locals_eq, Emit.putLocals_contents put, count]
  exact Nat.zero_add _

theorem ready_wrapFunction {arity : Nat} {captures : List Machine.Capture}
    {body code : Emit.Fragment} (run : wrapFunction start arity captures body e = .ok (code, e'))
    (h : e.Ready ids) : e'.Ready ids := by
  obtain ⟨_, _, _, _, _, _, _, _, added, _⟩ := wrapFunction_eq_ok run
  exact h.step (Emit.constant_dense h.dense added) fun _ known =>
    Emit.constant_contents added ▸ known

mutual

/-- Behind a statement, the symbols that it does not introduce are still to come. -/
theorem Statement.Writes.ready {s : Statement} {ids loop start e e' code} :
    s.Writes symbols loop start e code e' → e.Ready (s.introduces ++ ids) → e'.Ready ids
  | .function declared put body wrapped, h => by
    rw [Statement.introduces, List.append_assoc, List.cons_append] at h
    have inner := body.ready (ready_enterFunction h declared put).1
    exact ready_wrapFunction wrapped inner.popBlock.popBlock.popFrame
  | .declare value declared, h => ((value.ready h).declare declared).1
  | .ifThen condition yes _, h => yes.ready (condition.ready h)
  | .ifElse condition yes _ no _, h => by
    rw [Statement.introduces, List.append_assoc] at h
    exact no.ready (yes.ready (condition.ready h))
  | .whileLoop condition body _, h => body.ready (condition.ready h)
  | .doWhile body condition _, h => condition.ready (body.ready h)
  | .block statements, h => (statements.ready h.pushBlock).popBlock
  | .returnsUnit, h | .breakLoop, h | .continueLoop, h => h
  | .returns value, h | .print value, h | .expression value, h => value.ready h

/-- A list that is written leaves frames dense and later symbols unknown. -/
theorem WritesList.ready {ids statements loop start e e' code} :
    WritesList symbols loop start statements e code e' →
      e.Ready (introducesList statements ++ ids) → e'.Ready ids
  | .nil, h => h
  | .cons first others, h => by
    rw [introducesList, List.append_assoc] at h
    exact others.ready (first.ready h)

end

theorem Statement.Writes.dense {symbols : SymbolTable} {s : Statement} {loop : Option Nat}
    {start : Nat} {e e' : Emission} {code : Emit.Fragment}
    (run : s.Writes symbols loop start e code e') (h : e.Ready s.introduces) : e'.Dense :=
  (run.ready (h.perm (.of_eq (List.append_nil _).symm))).dense

theorem WritesList.dense {symbols : SymbolTable} {statements : List Statement} {loop : Option Nat}
    {start : Nat} {e e' : Emission} {code : Emit.Fragment}
    (run : WritesList symbols loop start statements e code e')
    (h : e.Ready (introducesList statements)) : e'.Dense :=
  (run.ready (h.perm (.of_eq (List.append_nil _).symm))).dense

/-- Statements only add locals. -/
theorem Statement.Writes.locals_le {s : Statement} {loop : Option Nat} {code : Emit.Fragment}
    (run : s.Writes symbols loop start e code e') : e.locals ≤ e'.locals := by
  rw [Emission.locals_eq, Emission.locals_eq, run.contents]
  exact Contents.locals_foldl_declare_le _

end Bindery.Bound
