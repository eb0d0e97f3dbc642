import Bindery.Proofs.Watching

/-!
Statements close what was captured.

When a statement is written, the locals that functions have captured so far are marked, and
only those are closed. But control can come back to the start of a loop after a capture further
down has run, so it is not enough to know that the marks follow the captures in the order of the
code. A local that is declared in the loop is removed on each round, and captured only behind its
declaration. A local from outside is never removed in the loop, and behind the loop it is marked if
any round can have captured it (`Carried`). So in a loop a slot may have been captured if an earlier
round could do so, or if its local is marked here (`Marked`). `Statement.Writes.safe` builds the
safety of a slot from the end of a statement to its start, with one lemma for each kind of
statement; the lemmas about loops go by induction on the number of steps.
-/

namespace Bindery.Emit.Fragment

variable {start : Nat} {f : Fragment}

/-- Numbers of arguments that are right for two pieces of code are right for each. -/
theorem counted_append {arguments : Nat → Nat} {g : Fragment} {calls calls' : List Nat}
    (counted : (callOffsets start (f ++ g)).map arguments = calls ++ calls')
    (length : (callOffsets start f).length = calls.length) :
    (callOffsets start f).map arguments = calls ∧
      (callOffsets (start + size f) g).map arguments = calls' := by
  rw [callOffsets_append, List.map_append] at counted
  exact List.append_inj counted (by rw [List.length_map, length])

theorem callOffsets_cons {item : Item} (other : item.isCall = false) :
    callOffsets start (item :: f) = callOffsets (start + item.size) f := by
  simp [callOffsets, other]

end Bindery.Emit.Fragment

namespace Bindery.Bound

open Emit (Code Fragment Item Moves jumpSize)
open Machine (LoopExit Watch fetch)
open Storage

/-! ### Code that is watched -/

/-- The code is watched where it stands: it can be read there, the calls in it have the given
numbers of arguments, and every removal of a marked local in its log is expected at the height
of its slot. -/
structure Watched (w : Watch) (targets : LoopExit → Nat)
    (log : Nat → LocalEvent → Emission → Prop) (start : Nat) (code : Fragment)
    (calls : List Nat) : Prop where
  laid : Fragment.LaidAt w.bytes targets start code
  counted : (Fragment.callOffsets start code).map w.arguments = calls
  closing : ∀ ⦃o l seen⦄, log o (.removes l) seen → l.captured = true →
    w.closing o (l.index.toNat + 1)

/-- The code of an expression is watched where it stands. -/
structure WatchedCode (w : Watch) (start : Nat) (code : Code) (calls : List Nat) : Prop where
  laid : Code.LaidAt w.bytes start code
  counted : (Fragment.callOffsets start code.toFragment).map w.arguments = calls

section Parts

variable {w : Watch} {targets : LoopExit → Nat} {symbols : SymbolTable} {loop : Option Nat}
    {start : Nat} {e e₁ e₂ e' : Emission} {span : Span} {condition : Expression} {c : List Code}
    {skip leave : Int16} {y n : Fragment}

theorem Expression.Writes.length_calls {x : Expression} {codes : List Code}
    (run : x.Writes symbols none e codes e') (dense : e.Dense) (start : Nat) :
    (Fragment.callOffsets start (Code.toFragment codes.flatten)).length =
      x.callArguments.length :=
  (run.pushes dense none start e.locals (Nat.le_refl _)).length_calls

/-- A statement calls as often as its expressions do. -/
theorem Statement.Writes.length_calls {s : Statement} {code : Fragment}
    (run : s.Writes symbols loop start e code e') (tidy : s.Tidy True)
    (ready : e.Ready s.introduces) (below : ∀ base, loop = some base → base ≤ e.locals) :
    (Fragment.callOffsets start code).length = s.callArguments.length :=
  (run.flows tidy ready below _ (.inr rfl)).length_calls

theorem WritesList.length_calls {statements : List Statement} {code : Fragment}
    (run : WritesList symbols loop start statements e code e') (tidy : TidyList True statements)
    (ready : e.Ready (introducesList statements))
    (below : ∀ base, loop = some base → base ≤ e.locals) :
    (Fragment.callOffsets start code).length = (callArgumentsOfList statements).length :=
  (run.flows tidy ready below _ (.inr rfl)).length_calls

/-- A condition and what stands behind it. -/
theorem Watched.test {log log' : Nat → LocalEvent → Emission → Prop} {value : Bool}
    {rest : Fragment} {calls : List Nat} (watched : Watched w targets log start
      (Code.toFragment c.flatten ++ .instruction (.gotoDrop value skip) :: rest)
      (condition.callArguments ++ calls)) (tested : condition.Writes symbols none e c e₁)
    (dense : e.Dense) (within : ∀ {o event seen}, log' o event seen → log o event seen) :
    WatchedCode w start c.flatten condition.callArguments ∧
      fetch w.bytes (start + Code.size c.flatten) = some (.gotoDrop value skip) ∧
      Watched w targets log' (start + Code.size c.flatten + jumpSize) rest calls := by
  have laid := watched.laid
  simp only [Fragment.laidAt_append, Fragment.laidAt_cons, Fragment.laidAt_toFragment,
    Fragment.size_toFragment, Item.StandsAt, Item.size, Emit.size_gotoDrop] at laid
  obtain ⟨first, test, inside⟩ := laid
  have jump : (Item.instruction (.gotoDrop value skip)).isCall = false := by
    cases value <;> rfl
  obtain ⟨one, others⟩ :=
    Fragment.counted_append watched.counted (tested.length_calls dense start)
  rw [Fragment.callOffsets_cons jump, Fragment.size_toFragment, Item.size,
    Emit.size_gotoDrop] at others
  exact ⟨⟨first, one⟩, test, inside, others, fun _ _ _ logged => watched.closing (within logged)⟩

variable {log log₁ log₂ : Nat → LocalEvent → Emission → Prop} {calls calls' : List Nat}

/-- Code in two parts. -/
theorem Watched.append (watched : Watched w targets log start (y ++ n) (calls ++ calls'))
    (length : (Fragment.callOffsets start y).length = calls.length)
    (first : ∀ {o event seen}, log₁ o event seen → log o event seen)
    (second : ∀ {o event seen}, log₂ o event seen → log o event seen) :
    Watched w targets log₁ start y calls ∧
      Watched w targets log₂ (start + Fragment.size y) n calls' := by
  have laid := watched.laid
  rw [Fragment.laidAt_append] at laid
  obtain ⟨here, there⟩ := Fragment.counted_append watched.counted length
  exact ⟨⟨laid.1, here, fun _ _ _ logged => watched.closing (first logged)⟩,
    laid.2, there, fun _ _ _ logged => watched.closing (second logged)⟩

/-- Code behind a jump. -/
theorem Watched.jump (watched : Watched w targets log start (.instruction (.goto leave) :: n) calls)
    :
    fetch w.bytes start = some (.goto leave) ∧
      Watched w targets log (start + jumpSize) n calls := by
  obtain ⟨laid, counted, closing⟩ := watched
  rw [Fragment.laidAt_cons] at laid
  rw [Fragment.callOffsets_cons rfl] at counted
  exact ⟨laid.1, laid.2, counted, closing⟩

/-- Two ways to go on, with a jump over the second. -/
theorem Watched.ways
    (watched : Watched w targets log start (y ++ .instruction (.goto leave) :: n) (calls ++ calls'))
    (length : (Fragment.callOffsets start y).length = calls.length)
    (first : ∀ {o event seen}, log₁ o event seen → log o event seen)
    (second : ∀ {o event seen}, log₂ o event seen → log o event seen) :
    Watched w targets log₁ start y calls ∧
      fetch w.bytes (start + Fragment.size y) = some (.goto leave) ∧
      Watched w targets log₂ (start + (Fragment.size y + jumpSize)) n calls' := by
  obtain ⟨one, rest⟩ := watched.append length first second
  obtain ⟨jump, other⟩ := rest.jump
  rw [Nat.add_assoc] at other
  exact ⟨one, jump, other⟩

/-- The loop that tests its condition first. -/
theorem Watched.whileLoop {log log' : Nat → LocalEvent → Emission → Prop} {b code : Fragment}
    {calls : List Nat}
    (watched : Watched w targets log start code (condition.callArguments ++ calls))
    (tested : condition.Writes symbols none e c e₁) (dense : e.Dense)
    (run : Fragment.whileLoop c.flatten b = .ok code)
    (within : ∀ {o event seen}, log' o event seen → log o event seen)
    (length : (Fragment.callOffsets (start + Code.size c.flatten + jumpSize) b).length =
      calls.length) :
    ∃ inner, Fragment.WhileLaid w.bytes inner start (start + Fragment.size code) c.flatten b ∧
      WatchedCode w start c.flatten condition.callArguments ∧
      Watched w inner log' (start + Code.size c.flatten + jumpSize) b calls := by
  obtain ⟨inner, laid⟩ := watched.laid.whileLoop run
  obtain ⟨skip, back, _, _, closed⟩ := Emit.whileLoop_eq_ok run
  have counted := watched.counted
  rw [Fragment.Flows.callOffsets_settled (Fragment.closeLoop_settled closed start),
    Emit.whileBody] at counted
  obtain ⟨one, others⟩ := Fragment.counted_append counted (tested.length_calls dense start)
  rw [Fragment.callOffsets_cons rfl, Fragment.size_toFragment, Item.size, Emit.size_gotoDrop,
    ← List.append_nil calls] at others
  obtain ⟨round, _⟩ := Fragment.counted_append others length
  exact ⟨inner, laid, ⟨laid.condition, one⟩, laid.body, round,
    fun _ _ _ logged => watched.closing (within logged)⟩

/-- The loop that tests its condition last. -/
theorem Watched.doWhile {log log' : Nat → LocalEvent → Emission → Prop} {b code : Fragment}
    {calls : List Nat}
    (watched : Watched w targets log start code (calls ++ condition.callArguments))
    (tested : condition.Writes symbols none e c e₁) (dense : e.Dense)
    (run : Fragment.doWhile b c.flatten = .ok code)
    (within : ∀ {o event seen}, log' o event seen → log o event seen)
    (length : (Fragment.callOffsets start b).length = calls.length) :
    ∃ inner, Fragment.DoWhileLaid w.bytes inner start (start + Fragment.size code) b c.flatten ∧
      WatchedCode w (start + Fragment.size b) c.flatten condition.callArguments ∧
      Watched w inner log' start b calls := by
  obtain ⟨inner, laid⟩ := watched.laid.doWhile run
  obtain ⟨back, _, closed⟩ := Emit.doWhile_eq_ok run
  have counted := watched.counted
  rw [Fragment.Flows.callOffsets_settled (Fragment.closeLoop_settled closed start),
    Emit.doWhileBody, List.append_assoc] at counted
  obtain ⟨round, others⟩ := Fragment.counted_append counted length
  rw [← List.append_nil condition.callArguments] at others
  obtain ⟨one, _⟩ := Fragment.counted_append others (tested.length_calls dense _)
  exact ⟨inner, laid, ⟨laid.condition, one⟩, laid.body, round,
    fun _ _ _ logged => watched.closing (within logged)⟩

/-- Code with code behind it that has no calls. -/
theorem Watched.ending {log log' : Nat → LocalEvent → Emission → Prop} {code : Fragment}
    {ending : Code} {calls : List Nat}
    (watched : Watched w targets log start (code ++ ending.toFragment) calls)
    (within : ∀ {o event seen}, log' o event seen → log o event seen)
    (length : (Fragment.callOffsets start code).length = calls.length) :
    Watched w targets log' start code calls ∧
      Code.LaidAt w.bytes (start + Fragment.size code) ending := by
  rw [← List.append_nil calls] at watched
  obtain ⟨front, back⟩ := watched.append length within within
  exact ⟨front, Fragment.laidAt_toFragment.mp back.laid⟩

end Parts

/-! ### Marks along the way -/

/-- The slot was captured on an earlier round of the loop around, or its local is marked. -/
def Marked (w : Watch) (around : Prop) (e : Emission) : Prop :=
  around ∨ e.frames.current.Caught w.slot

/-- What an earlier round of a loop can have captured below the loop: what was captured before, and
what is marked behind the loop. -/
def Carried (w : Watch) (around : Prop) (e e' : Emission) : Prop :=
  around ∨ w.slot < e.locals ∧ e'.frames.current.Caught w.slot

/-- What is known of the loop around a statement: how far its locals reach, that `around` is
about them and holds of those that are marked behind the statement, and that the exits of the
loop are safe. -/
structure InLoop (w : Watch) (steps : Nat) (loop : Option Nat) (targets : LoopExit → Nat)
    (around : Prop) (e e' : Emission) : Prop where
  below : ∀ base, loop = some base → base ≤ e.locals
  low : around → ∃ base, loop = some base ∧ w.slot < base
  marked : ∀ base, loop = some base → w.slot < base → e'.frames.current.Caught w.slot → around
  exits : ∀ base, loop = some base → ∀ m < steps, ∀ x, w.Safe m (targets x) base around

section Marks

variable {w : Watch} {steps : Nat} {loop : Option Nat} {targets : LoopExit → Nat} {around : Prop}
    {e e₁ e₂ e' : Emission}

/-- A marked local stays marked. -/
theorem Marked.retained (marked : Marked w around e)
    (retains : e.frames.current.Retains e'.frames.current) : Marked w around e' :=
  marked.imp_right fun caught => caught.retained retains

/-- When the loop is left, what was captured is marked. -/
theorem Marked.leave (marked : Marked w (Carried w around e e') e₁)
    (retains : e₁.frames.current.Retains e'.frames.current) : Marked w around e' := by
  rcases marked with (earlier | ⟨_, caught⟩) | caught
  · exact .inl earlier
  · exact .inr caught
  · exact .inr (caught.retained retains)

/-- At the end of a round, only slots below the loop are left. -/
theorem Marked.carried (marked : Marked w (Carried w around e e') e₁) (dense : e₁.Dense)
    (same : e₁.locals = e.locals) (retains : e₁.frames.current.Retains e'.frames.current) :
    Carried w around e e' := by
  rcases marked with earlier | caught
  · exact earlier
  · exact .inr ⟨same ▸ caught.lt (dense _ List.mem_cons_self), caught.retained retains⟩

/-- Outside all loops there are no exits. -/
theorem InLoop.none (w : Watch) (steps : Nat) (targets : LoopExit → Nat) (e e' : Emission) :
    InLoop w steps none targets False e e' where
  below _ same := by cases same
  low := False.elim
  marked _ same := by cases same
  exits _ same := by cases same

/-- A statement inside has as many locals below it, and what it marks stays marked. -/
theorem InLoop.part (inside : InLoop w steps loop targets around e e') (more : e.locals ≤ e₁.locals)
    (retains : e₂.frames.current.Retains e'.frames.current) :
    InLoop w steps loop targets around e₁ e₂ where
  below base same := Nat.le_trans (inside.below base same) more
  low := inside.low
  marked base same low caught := inside.marked base same low (caught.retained retains)
  exits := inside.exits

/-- What holds for some steps holds for fewer. -/
theorem InLoop.mono {m : Nat} (inside : InLoop w steps loop targets around e e') (le : m ≤ steps) :
    InLoop w m loop targets around e e' where
  below := inside.below
  low := inside.low
  marked := inside.marked
  exits base same k lt := inside.exits base same k (Nat.lt_of_lt_of_le lt le)

/-- A slot that is captured belongs to a local. -/
theorem InLoop.lt (inside : InLoop w steps loop targets around e e') (dense : e.Dense)
    (marked : Marked w around e) : w.slot < e.locals := by
  rcases marked with earlier | caught
  · obtain ⟨base, same, low⟩ := inside.low earlier
    exact Nat.lt_of_lt_of_le low (inside.below base same)
  · exact caught.lt (dense _ List.mem_cons_self)

/-- The body of a loop stands above the locals of the loop. -/
theorem below_body (same : e₁.locals = e.locals) :
    ∀ base, some e.frames.current.size = some base → base ≤ e₁.locals := by
  rintro base here
  cases here
  exact same.ge

/-- Around the body of a loop, a slot below it was captured if it is marked behind the loop. -/
theorem InLoop.round {inner : LoopExit → Nat} (inside : InLoop w steps loop targets around e e')
    (same : e₁.locals = e.locals) (exits : ∀ m < steps, ∀ x, w.Safe m (inner x) e.locals
      (Carried w around e e')) :
    InLoop w steps (some e.frames.current.size) inner
      (Carried w around e e') e₁ e' where
  below := below_body same
  low := by
    rintro (earlier | ⟨low, _⟩)
    · obtain ⟨base, here, low⟩ := inside.low earlier
      exact ⟨_, rfl, Nat.lt_of_lt_of_le low (inside.below base here)⟩
    · exact ⟨_, rfl, low⟩
  marked base here low caught := by
    cases here
    exact .inr ⟨low, caught⟩
  exits base here := by
    cases here
    exact exits

/-- Inside a block, what is marked below the loop is still marked behind the block. -/
theorem InLoop.block
    (inside : InLoop w steps loop targets around e { e' with frames := e'.frames.popBlock.2 })
    (dense : e'.Dense)
    (more : e.locals ≤ Emission.locals { e' with frames := e'.frames.popBlock.2 }) :
    InLoop w steps loop targets around { e with frames := e.frames.pushBlock } e' where
  below base same := (Emission.locals_pushBlock e).symm ▸ inside.below base same
  low := inside.low
  marked base same low caught := by
    refine inside.marked base same low ?_
    refine FrameStack.caught_popBlock caught (dense _ List.mem_cons_self) ?_
    exact Nat.lt_of_lt_of_le low (Nat.le_trans (inside.below base same) more)
  exits := inside.exits

end Marks

/-! ### Parts of statements -/

section Safe

variable {w : Watch} {steps : Nat} {loop : Option Nat} {targets : LoopExit → Nat} {around : Prop}
    {symbols : SymbolTable} {e e₁ e₂ e' : Emission} {start t : Nat} {caught : Prop}

variable {condition : Expression} {c : List Code} {value : Bool} {d : Int16} {i j h stop : Nat}
    {store : Code} {b : Fragment} {inner : LoopExit → Nat}

/-- A condition and the test of its value. -/
theorem safe_test (tested : condition.Writes symbols none e c e₁) (dense : e.Dense)
    (watched : WatchedCode w start c.flatten condition.callArguments)
    (here : fetch w.bytes (start + Code.size c.flatten) = some (.gotoDrop value d))
    (leads : ((start + Code.size c.flatten + jumpSize : Nat) : Int) + d.toInt = t)
    (jump : ∀ m < steps, w.Safe m t e.locals caught)
    (next : ∀ m < steps, w.Safe m (start + Code.size c.flatten + jumpSize) e.locals caught) :
    w.Safe steps start e.locals caught :=
  .moves (tested.pushes dense) watched.laid tested.evaluates watched.counted (Nat.le_refl _)
    (.gotoDrop here leads jump next)

/-- Code without calls that evaluates. -/
theorem safe_moves {code : Code} (moves : Moves 0 code [] i j)
    (laid : Code.LaidAt w.bytes start code) (evaluates : code.Evaluates)
    (next : w.Safe steps (start + code.size) (h + j) caught) :
    w.Safe steps start (h + i) caught := by
  have noCalls : Fragment.callOffsets start code.toFragment = [] :=
    List.length_eq_zero_iff.mp (moves none start 0 (Nat.le_refl 0)).length_calls
  exact .moves moves laid evaluates (by rw [noCalls]; rfl) (Nat.zero_le h) next

/-- An instruction that evaluates and is no call. -/
theorem safe_instruction {x : Machine.Instruction} (moves : Moves 0 [x] [] i j)
    (here : fetch w.bytes start = some x) (evaluates : x.opcode.evaluates = true)
    (next : w.Safe steps (start + x.size) (h + j) caught) : w.Safe steps start (h + i) caught := by
  refine safe_moves moves (by simp [here]) (by simp [evaluates]) ?_
  simpa using next

/-- What a declaration does with the value on top of the stack. -/
theorem safe_store {s : SymbolId} {ids : List SymbolId} (ready : e.Ready (s :: ids))
    (declared : Emit.declare s e = .ok (store, e₁)) (laid : Code.LaidAt w.bytes start store)
    (low : caught → w.slot < e₁.locals) (next : w.Safe steps (start + store.size) e₁.locals caught)
    :
    w.Safe steps start (e.locals + 1) caught := by
  rcases (ready.declare declared).2 with ⟨index, rfl, same⟩ | ⟨rfl, more⟩
  · rw [same] at low next
    simp only [Code.laidAt_cons, Code.size_cons, Code.size_nil] at laid next
    refine safe_instruction (moves_setGlobal 0 index) laid.1 rfl (.pop laid.2.1 low ?_)
    simpa [Nat.add_assoc] using next
  · rw [more] at next
    exact next

/-- The value of an expression, and what is done with it. -/
theorem safe_pushed {x : Expression} {codes : List Code} {rest : Code}
    {log : Nat → LocalEvent → Emission → Prop} (value : x.Writes symbols none e codes e₁)
    (dense : e.Dense)
    (watched : Watched w targets log start (Code.toFragment (codes.flatten ++ rest))
      x.callArguments) (next : Code.LaidAt w.bytes (start + Code.size codes.flatten) rest →
      w.Safe steps (start + Code.size codes.flatten) (e.locals + 1) caught) :
    w.Safe steps start e.locals caught := by
  obtain ⟨laid, counted, _⟩ := watched
  rw [Fragment.laidAt_toFragment, Code.laidAt_append] at laid
  rw [Code.toFragment_append, ← List.append_nil x.callArguments] at counted
  obtain ⟨calls, _⟩ := Fragment.counted_append counted (value.length_calls dense start)
  exact .moves (value.pushes dense) laid.1 value.evaluates calls (Nat.le_refl _) (next laid.2)

/-- A return without a value. -/
theorem safe_returnUnit (laid : Code.LaidAt w.bytes start [.pushTrue, .ret]) :
    w.Safe steps start h caught := by
  simp only [Code.laidAt_cons] at laid
  have pushes : Moves 0 [.pushTrue] [] 0 1 := .simple 0 .pushTrue rfl (by decide)
  exact safe_instruction pushes laid.1 rfl (.ret laid.2.1)

/-- A function becomes a value, and what it takes over is captured. -/
theorem safe_value {function : Machine.Constant} {constant : Machine.Instruction}
    {captures : List Machine.Capture} {closure : Code}
    (added : Emit.constant function e = .ok (constant, e₁))
    (closed : Emit.closure captures = .ok closure)
    (laid : Code.LaidAt w.bytes start (constant :: closure))
    (next : w.Safe steps (start + Code.size (constant :: closure)) (h + 1)
      (caught ∨ Machine.Instruction.Captures (.closure captures) w.slot)) :
    w.Safe steps start h caught := by
  simp only [Code.laidAt_cons, Code.size_cons] at laid next
  refine safe_instruction (.constant 0 added) laid.1 (Emit.evaluates_constant added) ?_
  rcases Emit.closure_eq_ok closed with ⟨_, rfl⟩ | ⟨_, rfl, _⟩
  · simpa using next.anti .inl
  · refine .closure (by simpa using laid.2) ?_
    simpa [Nat.add_assoc] using next

/-- A function declaration jumps over the body of its function. -/
theorem safe_function {f : SymbolId} {parameters : List SymbolId} {body : List Statement}
    {insertReturn : Bool} {code : Fragment} {e₃ : Emission} {value : Fragment}
    (run : WritesFunction symbols start f parameters body insertReturn e store e₁ e₂ code e₃ value
      e') (ready : e.Ready (parameters ++ f :: introducesList body))
    (laid : Fragment.LaidAt w.bytes targets start (value ++ store.toFragment))
    (inside : InLoop w steps loop targets around e e')
    (next : w.Safe steps (start + Fragment.size (value ++ store.toFragment)) e'.locals
      (Marked w around e')) : w.Safe steps start e.locals (Marked w around e) := by
  have whole : Statement.Writes symbols loop start
      (.function f parameters body insertReturn default default) e (value ++ store.toFragment) e' :=
    .function run.declared run.put run.inner run.wrapped
  have same : e'.locals = e₁.locals := Emission.locals_of_contents
    (whole.contents.trans (Emit.declare_contents run.declared).symm)
  have above := (inside.part whole.locals_le (.refl _)).lt (whole.dense ready)
  obtain ⟨skip, _, _, constant, closure, past, _, _, added, closed, rfl⟩ :=
    wrapFunction_eq_ok run.wrapped
  obtain ⟨lends, captures⟩ := lends_function run.declared run.put run.inner
  -- What the closure captures is marked behind the declaration.
  have taken : Marked w around e ∨ Machine.Instruction.Captures
      (.closure e₃.frames.popBlock.2.popBlock.2.popFrame.1) w.slot → Marked w around e' := by
    rintro (before | now)
    · exact before.retained (whole.retains ready)
    · obtain ⟨index, mem, here⟩ := Machine.Instruction.captures_closure.mp now
      rw [captures] at mem
      have caught := lends.marked mem
      rw [here] at caught
      refine .inr ?_
      rw [frames_wrapFunction run.wrapped]
      exact caught
  simp only [Fragment.laidAt_append, Fragment.laidAt_cons, Fragment.laidAt_toFragment,
    List.cons_append, Item.StandsAt, Item.size, Emit.size_goto] at laid
  obtain ⟨jump, ⟨_, value⟩, stores⟩ := laid
  have leads : ((start + jumpSize : Nat) : Int) + skip.toInt = (start + jumpSize + Fragment.size
      (code ++ (functionEnding insertReturn e₃.frames.popBlock.1).toFragment) : Nat) := by
    rw [past]
    omega
  refine .goto jump leads fun m lt => ?_
  refine safe_value added closed value (safe_store (ready.perm List.perm_middle) run.declared ?_ ?_
    ?_)
  · simpa [Nat.add_assoc, Item.size] using stores
  · exact fun now => same ▸ above (taken now)
  · rw [← same]
    refine ((next.mono (Nat.le_of_lt lt)).anti taken).of_eq ?_
    simp only [Fragment.size_append, Fragment.size_cons, Fragment.size_toFragment, Item.size,
      Emit.size_goto, List.cons_append]
    omega

/-- At the end of a block its locals are removed. -/
theorem safe_leaveBlock (dense : e.Dense) (low : caught → w.slot < e.locals)
    (marked : caught → Emission.locals { e with frames := e.frames.popBlock.2 } ≤ w.slot →
      e.frames.current.Caught w.slot)
    (laid : Code.LaidAt w.bytes start (e.frames.popBlock.1.map Local.discard))
    (closing : ∀ p l, RemovedAt start e.frames.popBlock.1 p l → l.captured = true →
      w.closing p (l.index.toNat + 1))
    (next : w.Safe steps (start + Code.size (e.frames.popBlock.1.map Local.discard))
      (Emission.locals { e with frames := e.frames.popBlock.2 })
      (caught ∧ w.slot < Emission.locals { e with frames := e.frames.popBlock.2 })) :
    w.Safe steps start e.locals caught := by
  have current := dense _ List.mem_cons_self
  rw [← e.length_popBlock] at low ⊢
  refine .removals laid (FrameStack.index_popBlock current) ?_ closing low next
  intro l mem here now
  obtain ⟨s, has⟩ := FrameStack.has_of_mem_popBlock mem
  refine (marked now ?_).captured current has here
  have slots : l.index.toNat ∈ e.frames.popBlock.1.map (·.index.toNat) :=
    List.mem_map_of_mem mem
  rw [FrameStack.index_popBlock current, List.mem_reverse, List.mem_range'_1, here] at slots
  exact slots.1

/-- A condition and the two ways behind it. -/
theorem safe_branch (tested : condition.Writes symbols none e c e₁) (dense : e.Dense)
    (watched : WatchedCode w start c.flatten condition.callArguments)
    (here : fetch w.bytes (start + Code.size c.flatten) = some (.gotoDrop value d))
    (leads : ((start + Code.size c.flatten + jumpSize : Nat) : Int) + d.toInt = t)
    (same : e₂.locals = e.locals) (retains : e₁.frames.current.Retains e₂.frames.current)
    (yes : w.Safe steps (start + Code.size c.flatten + jumpSize) e₁.locals (Marked w around e₁))
    (no : w.Safe steps t e₂.locals (Marked w around e₂)) :
    w.Safe steps start e.locals (Marked w around e) := by
  have kept : e.frames.current.Retains e₁.frames.current := .of_blocks tested.blocks
  rw [Emission.locals_of_contents tested.contents] at yes
  rw [same] at no
  refine safe_test tested dense watched here leads (fun m lt => ?_) fun m lt => ?_
  · exact (no.mono (Nat.le_of_lt lt)).anti fun marked => marked.retained (kept.trans retains)
  · exact (yes.mono (Nat.le_of_lt lt)).anti fun marked => marked.retained kept

/-- Behind a block, its own locals are gone and the others as they were. -/
theorem safe_block (dense : e'.Dense)
    (more : e.locals ≤ Emission.locals { e' with frames := e'.frames.popBlock.2 })
    (inside : InLoop w steps loop targets around e { e' with frames := e'.frames.popBlock.2 })
    (laid : Code.LaidAt w.bytes start (e'.frames.popBlock.1.map Local.discard))
    (closing : ∀ p l, RemovedAt start e'.frames.popBlock.1 p l → l.captured = true →
      w.closing p (l.index.toNat + 1))
    (next : w.Safe steps (start + Code.size (e'.frames.popBlock.1.map Local.discard))
      (Emission.locals { e' with frames := e'.frames.popBlock.2 })
      (Marked w around { e' with frames := e'.frames.popBlock.2 })) :
    w.Safe steps start e'.locals (Marked w around e') := by
  refine safe_leaveBlock dense ?_ ?_ laid closing (next.anti ?_)
  · have size := e'.length_popBlock
    exact ((inside.block dense more).part (by rw [Emission.locals_pushBlock]; omega) (.refl _)).lt
      dense
  · rintro (earlier | caught) above
    · obtain ⟨base, same, low⟩ := inside.low earlier
      have := inside.below base same
      omega
    · exact caught
  · rintro ⟨earlier | caught, low⟩
    · exact .inl earlier
    · exact .inr (FrameStack.caught_popBlock caught (dense _ List.mem_cons_self) low)

/-- At the end of a function without a return statement. -/
theorem safe_functionEnding (dense : e.Dense)
    (laid : Code.LaidAt w.bytes start (functionEnding true e.frames.popBlock.1))
    (closing : ∀ p l, RemovedAt start e.frames.popBlock.1 p l → l.captured = true →
      w.closing p (l.index.toNat + 1)) : w.Safe steps start e.locals (Marked w False e) := by
  rw [functionEnding, if_pos rfl, Code.laidAt_append] at laid
  have caught : Marked w False e → e.frames.current.Caught w.slot := fun now =>
    now.resolve_left id
  refine safe_leaveBlock dense (fun now => ?_) (fun now _ => caught now) laid.1 closing
    (safe_returnUnit laid.2)
  exact (caught now).lt (dense _ List.mem_cons_self)

/-- On the way out of a loop the locals above it are removed. -/
theorem safe_leaveLoop {base : Nat} {x : LoopExit} (dense : e.Dense)
    (inside : InLoop w steps (some base) targets around e e)
    (laid : Fragment.LaidAt w.bytes targets start
      (Code.toFragment ((e.frames.current.localsFrom base).map Local.discard) ++ [.exit x]))
    (closing : ∀ p l, RemovedAt start (e.frames.current.localsFrom base) p l → l.captured = true →
      w.closing p (l.index.toNat + 1)) : w.Safe steps start e.locals (Marked w around e) := by
  have current := dense _ List.mem_cons_self
  have below := inside.below base rfl
  have length : base + (e.frames.current.localsFrom base).length = e.locals := by
    rw [current.length_localsFrom below]
    exact Nat.add_sub_cancel' below
  have slots := current.index_localsFrom below
  rw [← current.length_localsFrom below] at slots
  have low := inside.lt dense
  simp only [Fragment.laidAt_append, Fragment.laidAt_cons, Fragment.laidAt_toFragment,
    Fragment.size_toFragment, Item.StandsAt] at laid
  obtain ⟨removing, ⟨d, jump, leads⟩, _⟩ := laid
  rw [← length] at low ⊢
  refine .removals removing slots ?_ closing low (.goto jump leads fun m lt => ?_)
  · intro l mem here now
    obtain ⟨s, has⟩ := Frame.has_of_mem_localsFrom mem
    have above : l.index.toNat ∈ (e.frames.current.localsFrom base).map (·.index.toNat) :=
      List.mem_map_of_mem mem
    rw [slots, List.mem_reverse, List.mem_range'_1, here] at above
    rcases now with earlier | caught
    · obtain ⟨_, same, low⟩ := inside.low earlier
      cases same
      omega
    · exact caught.captured current has here
  · refine (inside.exits base rfl m lt x).anti ?_
    rintro ⟨earlier | caught, low⟩
    · exact earlier
    · exact inside.marked base rfl low caught

/-- A loop that tests first. Its body is safe if the next round is, for fewer steps. -/
theorem safe_whileLoop (tested : condition.Writes symbols none e c e₁) (dense : e.Dense)
    (dense' : e'.Dense) (same : e'.locals = e.locals)
    (retains : e₁.frames.current.Retains e'.frames.current)
    (laid : Fragment.WhileLaid w.bytes inner start stop c.flatten b)
    (watched : WatchedCode w start c.flatten condition.callArguments)
    (inside : InLoop w steps loop targets around e e')
    (body : ∀ {m around}, InLoop w m (some e.frames.current.size) inner around e₁ e' →
      w.Safe m (start + Code.size c.flatten + jumpSize + Fragment.size b) e'.locals
        (Marked w around e') →
      w.Safe m (start + Code.size c.flatten + jumpSize) e₁.locals (Marked w around e₁))
    (next : w.Safe steps stop e'.locals (Marked w around e')) :
    w.Safe steps start e.locals (Marked w around e) := by
  have kept := Emission.locals_of_contents tested.contents
  have grown : e.frames.current.Retains e'.frames.current :=
    (Frame.Retains.of_blocks tested.blocks).trans retains
  obtain ⟨skip, leave, out⟩ := laid.leave
  obtain ⟨back, again, returns⟩ := laid.back
  -- By induction on the steps, every round is safe.
  have rounds : ∀ m ≤ steps, w.Safe m start e.locals (Marked w (Carried w around e e') e) := by
    intro m
    induction m using Nat.strong_induction_on with
    | h m ih =>
      intro le
      have ending : ∀ k < m, w.Safe k stop e.locals (Marked w (Carried w around e e') e) := by
        intro k lt
        rw [← same]
        exact (next.mono (Nat.le_trans (Nat.le_of_lt lt) le)).anti fun marked => marked.leave grown
      refine safe_test tested dense watched leave out ending fun k lt => ?_
      have exits : ∀ j < k, ∀ x, w.Safe j (inner x) e.locals (Carried w around e e') := by
        intro j less x
        cases x with
        | breaks =>
          rw [laid.breaks]
          exact (ending j (Nat.lt_trans less lt)).anti .inl
        | continues =>
          rw [laid.continues]
          exact (ih j (Nat.lt_trans less lt) (by omega)).anti .inl
      have round := body ((inside.mono (by omega)).round kept exits) ?_
      · rw [kept] at round
        exact round.anti fun marked => marked.retained (.of_blocks tested.blocks)
      · refine .goto again returns fun j less => ?_
        rw [same]
        exact (ih j (Nat.lt_trans less lt) (by omega)).anti fun marked =>
          .inl (marked.carried dense' same (.refl _))
  exact (rounds steps (Nat.le_refl _)).anti fun marked => marked.imp_left .inl

/-- A loop that tests last. -/
theorem safe_doWhile (tested : condition.Writes symbols none e₁ c e') (dense : e₁.Dense)
    (same : e₁.locals = e.locals) (laid : Fragment.DoWhileLaid w.bytes inner start stop b c.flatten)
    (watched : WatchedCode w (start + Fragment.size b) c.flatten condition.callArguments)
    (inside : InLoop w steps loop targets around e e')
    (body : ∀ {m around}, InLoop w m (some e.frames.current.size) inner around e e₁ →
      w.Safe m (start + Fragment.size b) e₁.locals (Marked w around e₁) →
      w.Safe m start e.locals (Marked w around e))
    (next : w.Safe steps stop e'.locals (Marked w around e')) :
    w.Safe steps start e.locals (Marked w around e) := by
  have kept := Emission.locals_of_contents tested.contents
  have grown : e₁.frames.current.Retains e'.frames.current := .of_blocks tested.blocks
  obtain ⟨back, here, returns⟩ := laid.back
  have rounds : ∀ m ≤ steps, w.Safe m start e.locals (Marked w (Carried w around e e') e) := by
    intro m
    induction m using Nat.strong_induction_on with
    | h m ih =>
      intro le
      have ending : ∀ k ≤ m, w.Safe k stop e₁.locals (Marked w (Carried w around e e') e₁) := by
        intro k le'
        rw [← kept]
        exact (next.mono (Nat.le_trans le' le)).anti fun marked => marked.leave grown
      have test : ∀ k ≤ m, w.Safe k (start + Fragment.size b) e₁.locals
          (Marked w (Carried w around e e') e₁) := by
        intro k le'
        refine safe_test tested dense watched here returns (fun j lt => ?_) fun j lt => ?_
        · rw [same]
          exact (ih j (by omega) (by omega)).anti fun marked =>
            .inl (marked.carried dense same grown)
        · rw [laid.ends]
          exact ending j (by omega)
      have exits : ∀ j < m, ∀ x, w.Safe j (inner x) e.locals (Carried w around e e') := by
        intro j less x
        rw [← same]
        cases x with
        | breaks =>
          rw [laid.breaks]
          exact (ending j (Nat.le_of_lt less)).anti .inl
        | continues =>
          rw [laid.continues]
          exact (test j (Nat.le_of_lt less)).anti .inl
      exact body (((inside.mono le).round rfl exits).part (Nat.le_refl _) grown)
        (test m (Nat.le_refl m))
  exact (rounds steps (Nat.le_refl _)).anti fun marked => marked.imp_left .inl

end Safe

variable {w : Watch} {symbols : SymbolTable}

mutual

/-- Where a statement starts, the slot is safe if it is so behind the statement and at the exits
of the loop around. -/
theorem Statement.Writes.safe {s : Statement} {around : Prop} {loop start e e' code targets steps} :
    s.Writes symbols loop start e code e' → s.Tidy True → e.Ready s.introduces →
    Watched w targets (s.Logs symbols loop start e code e') start code s.callArguments →
    InLoop w steps loop targets around e e' →
    s.Ends ∨ w.Safe steps (start + Fragment.size code) e'.locals (Marked w around e') →
      w.Safe steps start e.locals (Marked w around e)
  | .function declared put body wrapped, _, ready, watched, inside, behind =>
    safe_function ⟨declared, put, body, wrapped⟩ ready watched.laid inside
      (behind.resolve_left nofun)
  | run@(.declare value declared), _, ready, watched, inside, behind => by
    have next := behind.resolve_left nofun
    have kept := Emission.locals_of_contents value.contents
    have retains := run.retains ready
    refine safe_pushed value ready.dense watched fun laid => ?_
    have low := (inside.part run.locals_le (.refl _)).lt (run.dense ready)
    rw [← kept]
    refine safe_store (value.ready ready) declared laid
      (fun marked => low (marked.retained retains))
      ((next.anti fun marked => marked.retained retains).of_eq ?_)
    rw [Fragment.size_toFragment, Code.size_append, Nat.add_assoc]
  | .ifThen condition yes past, .ifThen inner nothing, ready, watched, inside, behind => by
    have next := behind.resolve_left nofun
    have kept := Emission.locals_of_contents condition.contents
    have ready' := condition.ready ready
    obtain ⟨tested, jump, way⟩ :=
      watched.test condition ready.dense fun logged => .ifThen condition logged past
    simp only [Fragment.size_append, Fragment.size_toFragment, Fragment.size_cons, Item.size,
      Emit.size_gotoDrop, ← Nat.add_assoc] at next
    have leads := Machine.toDistance_eq_ok past
    refine safe_branch condition ready.dense tested jump (by rw [leads]; rfl)
      ((yes.locals_eq (nothing trivial)).trans kept) (yes.retains ready') ?_ next
    exact yes.safe inner ready' way (inside.part kept.ge (.refl _)) (.inr next)
  | .ifElse condition yes past no out, .ifElse first nothing second nothing', ready, watched,
    inside, behind => by
    rw [Statement.introduces] at ready
    have kept := Emission.locals_of_contents condition.contents
    have same := yes.locals_eq (nothing trivial)
    have between := condition.ready ready
    have ready' := between.sublist (List.sublist_append_left _ _)
    have ready'' := yes.ready between
    obtain ⟨tested, jump, ways⟩ := watched.test condition ready.dense id
    have above := (inside.part kept.ge (.refl _)).below
    obtain ⟨way, leave, way'⟩ := ways.ways (yes.length_calls first ready' above)
      (fun logged => .ifYes condition logged past no out)
      (fun logged => .ifNo condition yes past logged out)
    simp only [Fragment.size_append, Fragment.size_toFragment, Fragment.size_cons, Item.size,
      Emit.size_gotoDrop, Emit.size_goto, ← Nat.add_assoc] at behind
    have skips := Machine.toDistance_eq_ok past
    have leaves := Machine.toDistance_eq_ok out
    refine safe_branch condition ready.dense tested jump (by rw [skips]; rfl) (same.trans kept)
      (yes.retains ready') ?_ ?_
    · refine yes.safe first ready' way (inside.part kept.ge (no.retains ready'')) ?_
      refine behind.imp (fun | .ifElse one _ => one) fun next => ?_
      refine .goto leave (by rw [leaves]; rfl) fun m lt => ?_
      rw [← no.locals_eq (nothing' trivial)]
      exact (next.mono (Nat.le_of_lt lt)).anti fun marked => marked.retained (no.retains ready'')
    · refine no.safe second ready'' way' (inside.part (same.trans kept).ge (.refl _)) ?_
      exact behind.imp_left fun | .ifElse _ two => two
  | .whileLoop condition body run, .whileLoop inner nothing, ready, watched, inside, behind => by
    have next := behind.resolve_left nofun
    have kept := Emission.locals_of_contents condition.contents
    have ready' := condition.ready ready
    obtain ⟨_, laid, tested, round⟩ := watched.whileLoop condition ready.dense run
      (fun logged => .whileLoop condition logged run)
      (body.length_calls inner ready' (below_body kept))
    exact safe_whileLoop condition ready.dense (body.dense ready')
      ((body.locals_eq (nothing trivial)).trans kept) (body.retains ready') laid tested inside
      (fun inside' ending => body.safe inner ready' round inside' (.inr ending)) next
  | .doWhile body condition run, .doWhile inner nothing, ready, watched, inside, behind => by
    have next := behind.resolve_left nofun
    obtain ⟨_, laid, tested, round⟩ := watched.doWhile condition (body.dense ready) run
      (fun logged => .doWhile logged condition run)
      (body.length_calls inner ready (below_body rfl))
    have kept := body.locals_eq (nothing trivial)
    exact safe_doWhile condition (body.dense ready) kept laid tested inside
      (fun inside' ending => body.safe inner ready round inside' (.inr ending)) next
  | run@(.block statements), .block inner, ready, watched, inside, behind => by
    have dense := statements.dense ready.pushBlock
    have inside' := inside.block dense run.locals_le
    obtain ⟨within, ending⟩ := watched.ending .block
      (statements.length_calls inner ready.pushBlock inside'.below)
    have round := statements.safe inner ready.pushBlock within inside' ?_
    · rw [Emission.locals_pushBlock] at round
      exact round.anti fun marked => marked.retained (FrameStack.retains_pushBlock _)
    · refine behind.imp ?_ fun next => ?_
      · rintro (_ | _ | _ | _ | ⟨mem, ends⟩)
        exact ⟨_, mem, ends⟩
      · refine safe_block dense run.locals_le inside ending
          (fun _ _ removed => watched.closing (.blockEnd statements removed)) (next.of_eq ?_)
        rw [Fragment.size_append, Fragment.size_toFragment, Nat.add_assoc]
  | .returnsUnit, _, _, watched, _, _ => by
    have laid := watched.laid
    rw [Fragment.laidAt_toFragment] at laid
    exact safe_returnUnit laid
  | .returns value, _, ready, watched, _, _ =>
    safe_pushed value ready.dense watched fun laid => .ret (Code.laidAt_cons.mp laid).1
  | .breakLoop, _, ready, watched, inside, _ =>
    safe_leaveLoop ready.dense inside watched.laid fun _ _ removed =>
      watched.closing (.breakLoop removed)
  | .continueLoop, _, ready, watched, inside, _ =>
    safe_leaveLoop ready.dense inside watched.laid fun _ _ removed =>
      watched.closing (.continueLoop removed)
  | .print value, _, ready, watched, _, behind => by
    have next := behind.resolve_left nofun
    have retains := Frame.Retains.of_blocks value.blocks
    refine safe_pushed value ready.dense watched fun laid => .print (Code.laidAt_cons.mp laid).1 ?_
    rw [← Emission.locals_of_contents value.contents]
    refine (next.anti fun marked => marked.retained retains).of_eq ?_
    simp [Fragment.size_toFragment, Item.size, Nat.add_assoc]
  | .expression value, _, ready, watched, inside, behind => by
    have next := behind.resolve_left nofun
    have retains := Frame.Retains.of_blocks value.blocks
    refine safe_pushed value ready.dense watched fun laid => .pop (Code.laidAt_cons.mp laid).1
      (inside.lt ready.dense) ?_
    rw [← Emission.locals_of_contents value.contents]
    refine (next.anti fun marked => marked.retained retains).of_eq ?_
    simp [Fragment.size_toFragment, Item.size, Nat.add_assoc]

theorem WritesList.safe {around : Prop} {statements loop start e e' code targets steps} :
    WritesList symbols loop start statements e code e' → TidyList True statements →
    e.Ready (introducesList statements) →
    Watched w targets (LogsList symbols loop start statements e code e') start code
      (callArgumentsOfList statements) →
    InLoop w steps loop targets around e e' →
    EndsList statements ∨
      w.Safe steps (start + Fragment.size code) e'.locals (Marked w around e') →
      w.Safe steps start e.locals (Marked w around e)
  | .nil, _, _, _, _, behind => behind.resolve_left not_endsList_nil
  | .cons (s := s) first others, .cons one _ rest, ready, watched, inside, behind => by
    rw [introducesList] at ready
    have here := ready.sublist (List.sublist_append_left _ _)
    have ready' := first.ready ready
    obtain ⟨front, back⟩ := watched.append (first.length_calls one here inside.below)
      (fun logged => .first logged others) (.later first)
    refine first.safe one here front (inside.part (Nat.le_refl _) (others.retains ready')) ?_
    by_cases ends : s.Ends
    · exact .inl ends
    · refine .inr (others.safe rest ready' back (inside.part first.locals_le (.refl _)) ?_)
      rw [Fragment.size_append, ← Nat.add_assoc] at behind
      exact behind.imp_left fun list => (endsList_cons.mp list).resolve_left ends

end

end Bindery.Bound
