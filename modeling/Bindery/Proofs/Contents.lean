import Bindery.Proofs.Binding
import Bindery.Proofs.Emitting

/-!
Which symbols have storage while code is written.

The contents of an emission forget slots and captures and keep the symbols: those of the
blocks of every open function, and the globals. Writing an expression keeps the contents,
whatever it takes over on the way (`Expression.Writes.contents`). Writing a statement adds
what the statement declares to the innermost place and keeps the rest
(`Statement.Writes.contents`), so that blocks and functions leave no trace.
-/

namespace Bindery

def enlist (symbols : List SymbolId) (s : SymbolId) : List SymbolId :=
  if s ∈ symbols then symbols else symbols ++ [s]

variable {s : SymbolId}

theorem mem_enlist {symbols : List SymbolId} {t : SymbolId} :
    t ∈ enlist symbols s ↔ t = s ∨ t ∈ symbols := by
  unfold enlist
  split
  · rename_i known
    exact ⟨.inr, fun h => h.elim (fun same => same ▸ known) id⟩
  · rw [List.mem_append, List.mem_singleton, or_comm]

theorem enlist_of_not_mem {symbols : List SymbolId} (fresh : s ∉ symbols) :
    enlist symbols s = symbols ++ [s] :=
  if_neg fresh

theorem length_enlist_le (symbols : List SymbolId) (s : SymbolId) :
    symbols.length ≤ (enlist symbols s).length := by
  unfold enlist
  split
  · exact Nat.le_refl _
  · simp

theorem Numbering.toList_intern (n : Numbering SymbolId) (s : SymbolId) :
    (n.intern s).2.toList = enlist n.toList s := by
  rw [intern]
  split
  · rename_i i known
    have present := List.mem_of_getElem? ((n.number?_eq_some_iff s i).mp known)
    exact (if_pos present).symm
  · rename_i unknown
    have fresh : s ∉ n.toList := fun mem =>
      (n.number?_eq_none_iff s).mp unknown (List.mem_reverse.mp mem)
    rw [toList_push, enlist_of_not_mem fresh]

namespace Storage

/-! ### Blocks and frames -/

def Block.symbols (b : Block) : List SymbolId := b.order.toList

theorem Block.symbols_empty : Block.empty.symbols = [] := rfl

/-- A block lists its symbols in the order of their declaration. -/
theorem Block.symbols_put (b : Block) (s : SymbolId) (l : Local) :
    (b.put s l).symbols = enlist b.symbols s :=
  b.order.toList_intern s

theorem Block.length_symbols (b : Block) : b.symbols.length = b.size :=
  b.order.length_toList

/-- A block has a local for each of its symbols. -/
theorem Block.get?_eq_none_iff (b : Block) (s : SymbolId) : b.get? s = none ↔ s ∉ b.symbols := by
  have member : s ∈ b.locals ↔ s ∈ b.symbols := (b.agree s).trans List.mem_reverse.symm
  rw [← member, Std.TreeMap.mem_iff_isSome_getElem?, Option.not_isSome_iff_eq_none]
  exact Iff.rfl

variable {b : Block}

theorem Block.mem_symbols_of_get? {l : Local} (known : b.get? s = some l) : s ∈ b.symbols := by
  refine Classical.byContradiction fun unknown => ?_
  rw [(b.get?_eq_none_iff s).mpr unknown] at known
  cases known

/-- Declaring a symbol again adds nothing. -/
theorem Block.symbols_put_of_get? {old : Local} (known : b.get? s = some old) (l : Local) :
    (b.put s l).symbols = b.symbols := by
  rw [symbols_put, enlist, if_pos (mem_symbols_of_get? known)]

def Frame.symbols (f : Frame) : List (List SymbolId) := f.blocks.map Block.symbols

/-- What is in no block is not found. -/
theorem Frame.get?_eq_none_iff (f : Frame) (s : SymbolId) :
    f.get? s = none ↔ ∀ block ∈ f.symbols, s ∉ block := by
  simp [get?, symbols, List.findSome?_eq_none_iff, Block.get?_eq_none_iff]

theorem Frame.symbols_capture (f : Frame) (s : SymbolId) : (f.capture s).symbols = f.symbols := by
  have blocks : ∀ bs : List Block,
      (captureIn s bs).map Block.symbols = bs.map Block.symbols := by
    intro bs
    induction bs with
    | nil => rfl
    | cons _ _ ih =>
      rw [captureIn]
      split
      · rename_i l known
        rw [List.map_cons, List.map_cons, Block.symbols_put_of_get? known]
      · rw [List.map_cons, List.map_cons, ih]
  exact blocks f.blocks

/-- Taking over a variable changes no local, and fails only for want of slots. -/
theorem Frame.takeOver_cases (f : Frame) (c : Machine.Capture) :
    (∃ index f', f.takeOver c = .ok (index, f') ∧ f'.blocks = f.blocks) ∨
      f.takeOver c = .error (.slotOverflow .free) := by
  unfold takeOver
  split
  · exact .inr rfl
  · exact .inl ⟨_, _, rfl, rfl⟩

/-- A symbol that gets a slot joins the innermost block. -/
theorem Frame.symbols_put {f f' : Frame} {s : SymbolId} (run : f.put s = .ok f') :
    f'.symbols = enlist (f.symbols.headD []) s :: f.symbols.tail := by
  obtain ⟨blocks, free⟩ := f
  unfold put at run
  split at run
  · cases run
  · cases blocks with
    | nil =>
      cases run
      simp [symbols, Block.symbols_put, Block.symbols_empty]
    | cons =>
      cases run
      simp [symbols, Block.symbols_put]

def FrameStack.toList (fs : FrameStack) : List Frame := fs.current :: fs.enclosing

/-- `TakesOver s f frames index fs`: the frame `f` inside `frames` takes over the symbol `s`
from the nearest frame that declares it, through all frames in between. -/
inductive FrameStack.TakesOver (s : SymbolId) :
    Frame → List Frame → UInt16 → FrameStack → Prop where
  | found {f parent outer l index f'} : parent.get? s = some l →
      f.takeOver ⟨true, l.index⟩ = .ok (index, f') → f'.blocks = f.blocks →
      TakesOver s f (parent :: outer) index ⟨f', parent.capture s :: outer⟩
  | through {f parent outer held around index f'} : parent.get? s = none →
      TakesOver s parent outer held around →
      f.takeOver ⟨false, held⟩ = .ok (index, f') → f'.blocks = f.blocks →
      TakesOver s f (parent :: outer) index ⟨f', around.toList⟩

/-- A symbol is taken over, or no frame declares it, or there are no slots left. -/
theorem FrameStack.takeOverFrom_cases (s : SymbolId) (f : Frame) (frames : List Frame) :
    (∃ index fs, takeOverFrom s f frames = .ok (some (index, fs)) ∧
        TakesOver s f frames index fs) ∨
      (takeOverFrom s f frames = .ok none ∧ ∀ frame ∈ frames, frame.get? s = none) ∨
      takeOverFrom s f frames = .error (.slotOverflow .free) := by
  induction frames generalizing f with
  | nil => exact .inr (.inl ⟨rfl, fun _ mem => nomatch mem⟩)
  | cons parent _ ih =>
    rw [takeOverFrom]
    cases known : parent.get? s with
    | some l =>
      rcases f.takeOver_cases ⟨true, l.index⟩ with ⟨index, f', taken, blocks⟩ | full
      · exact .inl ⟨index, _, by simp only [taken]; rfl, .found known taken blocks⟩
      · exact .inr (.inr (by simp only [full]; rfl))
    | none =>
      rcases ih parent with ⟨held, around, inner, rel⟩ | ⟨inner, unknown⟩ | inner
      · rcases f.takeOver_cases ⟨false, held⟩ with ⟨index, f', taken, blocks⟩ | full
        · exact .inl ⟨index, _, by simp only [inner, bind, Except.bind, taken]; rfl,
            .through known rel taken blocks⟩
        · exact .inr (.inr (by simp only [inner, bind, Except.bind, full]; rfl))
      · refine .inr (.inl ⟨by simp only [inner, bind, Except.bind], ?_⟩)
        rw [List.forall_mem_cons]
        exact ⟨known, unknown⟩
      · exact .inr (.inr (by simp only [inner, bind, Except.bind]))

/-- Taking a symbol over keeps the symbols of every frame. -/
theorem FrameStack.TakesOver.symbols {s : SymbolId} {f : Frame} {frames : List Frame}
    {index : UInt16} {fs : FrameStack} (rel : TakesOver s f frames index fs) :
    fs.toList.map Frame.symbols = (f :: frames).map Frame.symbols := by
  induction rel with
  | @found f _ _ _ _ f' _ _ blocks =>
    have same : f'.symbols = f.symbols := congrArg (List.map Block.symbols) blocks
    rw [toList, List.map_cons, List.map_cons, List.map_cons, List.map_cons, same,
      Frame.symbols_capture]
  | @through f _ _ _ _ _ f' _ _ _ blocks ih =>
    have same : f'.symbols = f.symbols := congrArg (List.map Block.symbols) blocks
    rw [toList, List.map_cons, List.map_cons, same, ih]

end Storage

open Storage

/-! ### Contents -/

/-- The symbols that have storage: those of the current function's blocks, the innermost
first, those of the functions around it, and the globals. -/
structure Contents where
  current : List (List SymbolId)
  enclosing : List (List (List SymbolId))
  globals : List SymbolId

namespace Contents

def isGlobal (σ : Contents) : Bool := σ.enclosing.isEmpty && σ.current.isEmpty

def put (σ : Contents) (s : SymbolId) : Contents :=
  { σ with current := enlist (σ.current.headD []) s :: σ.current.tail }

/-- A symbol joins the innermost block, or the globals where no block is open. -/
def declare (σ : Contents) (s : SymbolId) : Contents :=
  if σ.isGlobal then { σ with globals := enlist σ.globals s } else σ.put s

def pushBlock (σ : Contents) : Contents := { σ with current := [] :: σ.current }

def popBlock (σ : Contents) : Contents := { σ with current := σ.current.tail }

def pushFrame (σ : Contents) : Contents := ⟨[], σ.current :: σ.enclosing, σ.globals⟩

def popFrame (σ : Contents) : Contents := ⟨σ.enclosing.headD [], σ.enclosing.tail, σ.globals⟩

def Knows (σ : Contents) (s : SymbolId) : Prop :=
  s ∈ σ.globals ∨ ∃ frame ∈ σ.current :: σ.enclosing, ∃ block ∈ frame, s ∈ block

/-- Locals only change the innermost block. -/
theorem foldl_put (added block : List SymbolId) (outer : List (List SymbolId))
    (enclosing : List (List (List SymbolId))) (globals : List SymbolId) :
    added.foldl put ⟨block :: outer, enclosing, globals⟩ =
      ⟨added.foldl enlist block :: outer, enclosing, globals⟩ := by
  induction added generalizing block with
  | nil => rfl
  | cons _ _ ih =>
    rw [List.foldl_cons, List.foldl_cons, ← ih]
    rfl

/-- Inside a block, what is declared is local. -/
theorem foldl_declare (declared block : List SymbolId) (outer : List (List SymbolId))
    (enclosing : List (List (List SymbolId))) (globals : List SymbolId) :
    declared.foldl declare ⟨block :: outer, enclosing, globals⟩ =
      declared.foldl put ⟨block :: outer, enclosing, globals⟩ := by
  induction declared generalizing block with
  | nil => rfl
  | cons s _ ih =>
    have inside : declare ⟨block :: outer, enclosing, globals⟩ s =
        put ⟨block :: outer, enclosing, globals⟩ s := by
      simp [declare, isGlobal]
    rw [List.foldl_cons, List.foldl_cons, inside]
    exact ih _

/-- A block leaves nothing behind. -/
theorem popBlock_foldl_put (σ : Contents) (added : List SymbolId) :
    (added.foldl put σ.pushBlock).popBlock = σ := by
  rw [pushBlock, foldl_put]
  rfl

/-- What is declared in a block goes with it. -/
theorem popBlock_foldl_declare (σ : Contents) (declared : List SymbolId) :
    (declared.foldl declare σ.pushBlock).popBlock = σ := by
  rw [pushBlock, foldl_declare]
  exact popBlock_foldl_put σ declared

variable {σ : Contents} {t : SymbolId}

theorem knows_put : (σ.put s).Knows t ↔ t = s ∨ σ.Knows t := by
  obtain ⟨current, enclosing, globals⟩ := σ
  cases current with
  | nil => simp [Knows, put, mem_enlist, or_left_comm]
  | cons => simp [Knows, put, mem_enlist, or_assoc, or_left_comm]

/-- A declaration makes its symbol known, and no other. -/
theorem knows_declare : (σ.declare s).Knows t ↔ t = s ∨ σ.Knows t := by
  unfold declare
  split
  · simp [Knows, mem_enlist, or_assoc]
  · exact knows_put

theorem knows_foldl_declare {declared : List SymbolId} :
    (declared.foldl declare σ).Knows t ↔ t ∈ declared ∨ σ.Knows t := by
  induction declared generalizing σ with
  | nil => simp
  | cons _ _ ih => rw [List.foldl_cons, ih, knows_declare, List.mem_cons, or_left_comm, or_assoc]

theorem knows_foldl_put {added : List SymbolId} :
    (added.foldl put σ).Knows t ↔ t ∈ added ∨ σ.Knows t := by
  induction added generalizing σ with
  | nil => simp
  | cons _ _ ih => rw [List.foldl_cons, ih, knows_put, List.mem_cons, or_left_comm, or_assoc]

theorem knows_pushBlock : σ.pushBlock.Knows t ↔ σ.Knows t := by
  simp [Knows, pushBlock]

theorem knows_pushFrame : σ.pushFrame.Knows t ↔ σ.Knows t := by
  simp [Knows, pushFrame]

end Contents

def Emission.contents (e : Emission) : Contents :=
  ⟨e.frames.current.symbols, e.frames.enclosing.map Frame.symbols, e.globals.slots.toList⟩

/-! ### Steps -/

namespace Emit

section Steps

variable {e e' : Emission}

variable {slot : Slot}

/-- A symbol is a local of the current function, or is taken over, or is global. -/
theorem resolve_eq_ok {symbols : SymbolTable} (run : resolve symbols s e = .ok (slot, e')) :
    (∃ l, e.frames.current.get? s = some l ∧ slot = ⟨.localSlot, l.index⟩ ∧ e' = e) ∨
      (∃ index frames, FrameStack.TakesOver s e.frames.current e.frames.enclosing index frames ∧
        slot = ⟨.free, index⟩ ∧ e' = { e with frames }) ∨
      ∃ index, slot = ⟨.global, index⟩ ∧ e' = e := by
  unfold resolve FrameStack.resolve at run
  cases known : e.frames.current.get? s with
  | some l =>
    simp only [known] at run
    cases run
    exact .inl ⟨l, rfl, rfl, rfl⟩
  | none =>
    simp only [known] at run
    rcases FrameStack.takeOverFrom_cases s e.frames.current e.frames.enclosing with
      ⟨index, frames, taken, rel⟩ | ⟨taken, _⟩ | taken
    · rw [taken] at run
      cases run
      exact .inr (.inl ⟨index, frames, rel, rfl, rfl⟩)
    · simp only [taken, Except.map, bind, Except.bind] at run
      cases global : e.globals.get? s with
      | some index =>
        rw [global] at run
        cases run
        exact .inr (.inr ⟨index, rfl, rfl⟩)
      | none =>
        rw [global] at run
        cases run
    · rw [taken] at run
      cases run

/-- A symbol that has storage is found unless there are no slots left. -/
theorem resolve_eq_error {symbols : SymbolTable} {err : Machine.EmitError}
    (run : resolve symbols s e = .error err) (known : e.contents.Knows s) :
    err = .slotOverflow .free := by
  unfold resolve FrameStack.resolve at run
  cases here : e.frames.current.get? s with
  | some =>
    simp only [here] at run
    cases run
  | none =>
    simp only [here] at run
    rcases FrameStack.takeOverFrom_cases s e.frames.current e.frames.enclosing with
      ⟨index, frames, taken, _⟩ | ⟨taken, outside⟩ | taken
    · rw [taken] at run
      cases run
    · simp only [taken, Except.map, bind, Except.bind] at run
      have global : s ∈ e.globals.slots.toList := by
        rcases known with global | ⟨frame, mem, block, inside, holds⟩
        · exact global
        · rcases List.mem_cons.mp mem with rfl | mem
          · exact absurd holds ((Frame.get?_eq_none_iff _ s).mp here block inside)
          · obtain ⟨f, member, rfl⟩ := List.mem_map.mp mem
            exact absurd holds ((Frame.get?_eq_none_iff f s).mp (outside f member) block inside)
      obtain ⟨i, numbered⟩ := List.getElem?_of_mem global
      rw [Globals.get?, (e.globals.slots.number?_eq_some_iff s i).mpr numbered] at run
      cases run
    · rw [taken] at run
      cases run
      rfl

/-- Taking a symbol over gives no storage to it. -/
theorem resolve_contents {symbols : SymbolTable} (run : resolve symbols s e = .ok (slot, e')) :
    e'.contents = e.contents := by
  rcases resolve_eq_ok run with ⟨_, _, _, rfl⟩ | ⟨_, frames, rel, _, rfl⟩ | ⟨_, _, rfl⟩
  · rfl
  · obtain ⟨current, enclosing⟩ := List.cons.inj rel.symbols
    exact Contents.mk.injEq .. ▸ ⟨current, enclosing, rfl⟩
  · rfl

theorem constant_contents {c : Machine.Constant} {i : Machine.Instruction}
    (run : constant c e = .ok (i, e')) : e'.contents = e.contents := by
  obtain ⟨_, _, _, _, rfl⟩ := constant_eq_ok run
  rfl

theorem isGlobal_contents (e : Emission) : e.contents.isGlobal = e.frames.isGlobal := by
  obtain ⟨constants, globals, ⟨⟨blocks, free⟩, enclosing⟩⟩ := e
  cases blocks <;> cases enclosing <;> rfl

theorem put_contents {frames : FrameStack} (run : e.frames.put s = .ok frames) :
    Emission.contents { e with frames } = e.contents.put s := by
  unfold FrameStack.put at run
  obtain ⟨_, added, ended⟩ := except_bind_eq_ok.mp run
  cases ended
  simp only [Emission.contents, Contents.put, Frame.symbols_put added]

theorem putLocal_eq_ok (run : putLocal s e = .ok ((), e')) :
    ∃ frames, e.frames.put s = .ok frames ∧ e' = { e with frames } := by
  unfold putLocal at run
  obtain ⟨frames, added, ended⟩ := except_bind_eq_ok.mp run
  cases ended
  exact ⟨frames, added, rfl⟩

theorem putLocals_cons {rest : List SymbolId} (run : (s :: rest).forM putLocal e = .ok ((), e')) :
    ∃ frames, e.frames.put s = .ok frames ∧
      rest.forM putLocal { e with frames } = .ok ((), e') := by
  change (putLocal s >>= fun _ => rest.forM putLocal) e = _ at run
  obtain ⟨_, e₁, first, others⟩ := bind_eq_ok.mp run
  obtain ⟨frames, added, rfl⟩ := putLocal_eq_ok first
  exact ⟨frames, added, others⟩

/-- Parameters are put one after the other. -/
theorem putLocals_contents {locals : List SymbolId} (run : locals.forM putLocal e = .ok ((), e')) :
    e'.contents = locals.foldl Contents.put e.contents := by
  induction locals generalizing e with
  | nil =>
    obtain ⟨_, rfl⟩ := pure_eq_ok.mp run
    rfl
  | cons _ _ ih =>
    obtain ⟨_, added, others⟩ := putLocals_cons run
    rw [ih others, put_contents added, List.foldl_cons]

/-- A declaration adds its symbol to the innermost place. -/
theorem declare_contents {store : Code} (run : declare s e = .ok (store, e')) :
    e'.contents = e.contents.declare s := by
  rcases declare_eq_ok run with ⟨global, _, _, put, _, rfl⟩ | ⟨inside, _, put, _, rfl⟩
  · rw [Contents.declare, isGlobal_contents, if_pos global]
    unfold Globals.put at put
    split at put
    · cases put
    · change Except.ok (UInt16.ofNat (e.globals.slots.intern s).1,
        Globals.mk (e.globals.slots.intern s).2) = _ at put
      obtain ⟨_, rfl⟩ := Prod.mk.inj (Except.ok.inj put)
      simp only [Emission.contents, Numbering.toList_intern]
  · rw [Contents.declare, isGlobal_contents, inside, if_neg Bool.false_ne_true]
    exact put_contents put

theorem pushBlock_contents (e : Emission) :
    Emission.contents { e with frames := e.frames.pushBlock } = e.contents.pushBlock := rfl

theorem popBlock_contents (e : Emission) :
    Emission.contents { e with frames := e.frames.popBlock.2 } = e.contents.popBlock := by
  obtain ⟨constants, globals, ⟨⟨blocks, free⟩, enclosing⟩⟩ := e
  cases blocks <;> rfl

theorem popFrame_contents (e : Emission) :
    Emission.contents { e with frames := e.frames.popFrame.2 } = e.contents.popFrame := by
  obtain ⟨constants, globals, ⟨current, enclosing⟩⟩ := e
  cases enclosing <;> rfl

/-- Where the parameters of a function are put. -/
theorem enterFunction_contents (e : Emission) :
    Emission.contents { e with frames := e.frames.pushFrame.pushBlock } =
      e.contents.pushFrame.pushBlock := rfl

/-- Leaving the body, the parameters and the frame of a function. -/
theorem leaveFunction_contents (e : Emission) :
    Emission.contents { e with frames := e.frames.popBlock.2.popBlock.2.popFrame.2 } =
      e.contents.popBlock.popBlock.popFrame := by
  have body := popBlock_contents e
  have parameters := popBlock_contents { e with frames := e.frames.popBlock.2 }
  have frame := popFrame_contents { e with frames := e.frames.popBlock.2.popBlock.2 }
  rw [body] at parameters
  rw [parameters] at frame
  exact frame

end Steps

end Emit

/-- Expressions declare nothing. -/
theorem Emission.Expands.contents {symbols : SymbolTable} {e e' : Emission}
    (run : Expands symbols e e') : e'.contents = e.contents := by
  refine run.preserves (P := fun a => a.contents = e.contents) ?_ rfl
  rintro a b (⟨_, added⟩ | found) same
  · exact (Emit.constant_contents added).trans same
  · exact (Emit.resolve_contents found).trans same

end Bindery

namespace Bindery.Bound

/-! ### Expressions and statements -/

/-- Writing an expression keeps the contents, whatever it takes over on the way. -/
theorem Expression.Writes.contents {symbols : SymbolTable} {x : Expression}
    {chain : Option BinaryOperation} {e e' : Emission} {codes : List Emit.Code}
    (run : x.Writes symbols chain e codes e') : e'.contents = e.contents :=
  run.expands.contents

def declaresList (statements : List Statement) : List SymbolId :=
  statements.flatMap Statement.declares

theorem wrapFunction_contents {start arity : Nat} {captures : List Machine.Capture}
    {body code : Emit.Fragment} {e e' : Emission}
    (run : wrapFunction start arity captures body e = .ok (code, e')) :
    e'.contents = e.contents := by
  obtain ⟨_, _, _, _, _, _, _, _, added, _⟩ := wrapFunction_eq_ok run
  exact Emit.constant_contents added

variable {symbols : SymbolTable}

mutual

/-- A statement adds what it declares. -/
theorem Statement.Writes.contents {s : Statement} {loop start e e' code} :
    s.Writes symbols loop start e code e' →
      e'.contents = s.declares.foldl Contents.declare e.contents
  | .function declared put body wrapped => by
    have outside := Emit.declare_contents declared
    have parameters := Emit.putLocals_contents put
    rw [Emit.enterFunction_contents] at parameters
    rw [wrapFunction_contents wrapped, Emit.leaveFunction_contents, body.contents,
      Emit.pushBlock_contents, Contents.popBlock_foldl_declare, parameters,
      Contents.popBlock_foldl_put]
    exact outside
  | .declare value declared => by
    rw [Emit.declare_contents declared, value.contents]
    rfl
  | .ifThen condition yes _ => by
    rw [yes.contents, condition.contents]
    rfl
  | .ifElse condition yes _ no _ => by
    rw [no.contents, yes.contents, condition.contents, Statement.declares, List.foldl_append]
  | .whileLoop condition body _ => by
    rw [body.contents, condition.contents]
    rfl
  | .doWhile body condition _ => by
    rw [condition.contents, body.contents]
    rfl
  | .block statements => by
    rw [Emit.popBlock_contents, statements.contents, Emit.pushBlock_contents,
      Contents.popBlock_foldl_declare]
    rfl
  | .returnsUnit | .breakLoop | .continueLoop => rfl
  | .returns value | .print value | .expression value => value.contents

theorem WritesList.contents {statements loop start e e' code} :
    WritesList symbols loop start statements e code e' →
      e'.contents = (declaresList statements).foldl Contents.declare e.contents
  | .nil => rfl
  | .cons first others => by
    rw [others.contents, first.contents, declaresList, declaresList, List.flatMap_cons,
      List.foldl_append]

end

end Bindery.Bound
