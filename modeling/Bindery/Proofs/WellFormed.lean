import Bindery.Proofs.Decoding
import Bindery.Proofs.Emitting

/-!
Emitted code is well formed.

A fragment is well formed when it can be written, does not stop the program and
keeps its jumps to itself: each leads to one of the fragment's own boundaries. The
property passes through every way in which pieces of code are put together, so
every successful run of the emitter keeps it. Exits stay open only as long as a
loop is around them. So the code of a program reads back as it was written
(`Machine.ReadsAs`).
-/

namespace Bindery.Machine

/-- `ReadsAs bytes code`: the bytes are the code and read back as its instructions, the
last of which, and no other, is `HALT`; every jump leads to an instruction. -/
structure ReadsAs (bytes : List UInt8) (code : List Instruction) : Prop where
  encodes : bytes = encodeAll code
  decodes : disassemble bytes = .ok (locate 0 code)
  halts : ∃ body, code = body ++ [.halt] ∧ ∀ i ∈ body, i.opcode ≠ .halt
  lands : ∀ l ∈ locate 0 code, ∀ t, l.target? = some t →
    ∃ l' ∈ locate 0 code, (l'.offset : Int) = t

end Bindery.Machine

namespace Bindery.Emit.Fragment

open Machine (Instruction Located LoopExit Operand)

/-! ### Where jumps lead -/

/-- Every jump of a fragment that starts at `start` leads to a place that `lands`
admits. -/
def JumpsInto (start : Nat) (f : Fragment) (lands : Nat → Prop) : Prop :=
  ∀ o i d, (o, .instruction i) ∈ locate start f → i.operand = .jump d →
    ∃ t : Nat, (t : Int) = (o + i.size : Nat) + d.toInt ∧ lands t

section JumpsInto

variable {start : Nat} {f g : Fragment} {lands lands' : Nat → Prop}

theorem JumpsInto.mono (h : JumpsInto start f lands) (sub : ∀ t, lands t → lands' t) :
    JumpsInto start f lands' := by
  intro o i d mem jump
  obtain ⟨t, eq, lands⟩ := h o i d mem jump
  exact ⟨t, eq, sub t lands⟩

theorem JumpsInto.append (left : JumpsInto start f lands)
    (right : JumpsInto (start + size f) g lands) : JumpsInto start (f ++ g) lands := by
  intro o i d mem jump
  rw [locate_append] at mem
  rcases List.mem_append.mp mem with first | second
  · exact left o i d first jump
  · exact right o i d second jump

/-- A jump before a fragment leads as far as its distance says. -/
theorem JumpsInto.jump {i : Instruction} {d : Int16} {t : Nat} (operand : i.operand = .jump d)
    (leads : (t : Int) = (start + i.size : Nat) + d.toInt) (here : lands t)
    (rest : JumpsInto (start + i.size) f lands) : JumpsInto start (.instruction i :: f) lands := by
  intro o j d' mem jump
  rcases List.mem_cons.mp mem with same | later
  · cases same
    obtain rfl : d = d' := Operand.jump.inj (operand.symm.trans jump)
    exact ⟨t, leads, here⟩
  · exact rest o j d' later jump

end JumpsInto

/-! ### Well-formed fragments -/

/-- An instruction that can stand inside a program: it can be written, and it does
not stop the program. -/
def Admissible (i : Instruction) : Prop := i.opcode ≠ .halt ∧ i.Encodable

variable {i : Instruction} {code : Code}

theorem Admissible.of_jump {d : Int16} (operand : i.operand = .jump d) : Admissible i := by
  constructor
  · intro stops
    have layout := i.shape_eq
    rw [operand, stops] at layout
    cases layout
  · intro captures eq
    rw [operand] at eq
    cases eq

/-- Code that can stand inside a program and leads only to its own boundaries. -/
structure WellFormed (f : Fragment) : Prop where
  admissible : ∀ i, .instruction i ∈ f → Admissible i
  closed : ∀ start, JumpsInto start f (Boundary start f)

namespace WellFormed

theorem nil : WellFormed [] where
  admissible _ mem := nomatch mem
  closed _ _ _ _ mem := nomatch mem

theorem append {f g : Fragment} (left : WellFormed f) (right : WellFormed g) :
    WellFormed (f ++ g) where
  admissible i mem := (List.mem_append.mp mem).elim (left.admissible i) (right.admissible i)
  closed start :=
    ((left.closed start).mono fun _ h => h.append_right g).append
      ((right.closed (start + size f)).mono fun _ h => h.append_left)

/-- An instruction that does not jump. -/
theorem single (admissible : Admissible i) (noJump : ∀ d, i.operand ≠ .jump d) :
    WellFormed [.instruction i] where
  admissible j mem := by
    cases List.mem_singleton.mp mem
    exact admissible
  closed start o j d mem jump := by
    cases List.mem_singleton.mp mem
    exact absurd jump (noJump d)

theorem exit (e : LoopExit) : WellFormed [.exit e] where
  admissible _ mem := nomatch List.mem_singleton.mp mem
  closed _ _ _ _ mem := nomatch List.mem_singleton.mp mem

/-- Two well-formed fragments with a jump between them, which leads to the place
between `before` and `after`. -/
theorem jump (before after : Fragment) {f g : Fragment} {i : Instruction} {d : Int16}
    (left : WellFormed f) (operand : i.operand = .jump d) (right : WellFormed g)
    (split : f ++ .instruction i :: g = before ++ after)
    (leads : (size before : Int) = (size f + i.size : Nat) + d.toInt) :
    WellFormed (f ++ .instruction i :: g) where
  admissible j mem := by
    rcases List.mem_append.mp mem with first | later
    · exact left.admissible j first
    · rcases List.mem_cons.mp later with same | second
      · cases same
        exact .of_jump operand
      · exact right.admissible j second
  closed start := by
    refine ((left.closed start).mono fun _ h => h.append_right _).append
      (.jump operand (t := start + size before) ?_ ⟨before, after, split, rfl⟩ ?_)
    · push_cast at leads ⊢
      omega
    · exact (right.closed (start + size f + i.size)).mono fun _ h =>
        Boundary.append_left (boundary_cons.mpr (.inr h))

/-- A condition with something to skip. -/
theorem skip {condition yes : Fragment} {skip : Int16} (test : WellFormed condition)
    (first : WellFormed yes) (past : skip.toInt = size yes) :
    WellFormed (condition ++ .instruction (.gotoDrop false skip) :: yes) := by
  refine test.jump _ [] rfl first (List.append_nil _).symm ?_
  simp only [size_append, size_cons, Item.size, size_gotoDrop, past]
  push_cast
  omega

/-- A condition with the two ways to go on. -/
theorem branch {condition yes no : Fragment} {skip leave : Int16} (test : WellFormed condition)
    (first : WellFormed yes) (past : skip.toInt = (size yes + jumpSize : Nat))
    (second : WellFormed no) (out : leave.toInt = size no) :
    WellFormed (condition ++ .instruction (.gotoDrop false skip) ::
      (yes ++ .instruction (.goto leave) :: no)) := by
  have ends : WellFormed (yes ++ .instruction (.goto leave) :: no) := by
    refine first.jump _ [] rfl second (List.append_nil _).symm ?_
    simp only [size_append, size_cons, Item.size, out]
    push_cast
    omega
  refine test.jump (condition ++ .instruction (.gotoDrop false skip) ::
    (yes ++ [.instruction (.goto leave)])) no rfl ends (by simp) ?_
  simp only [size_append, size_cons, size_nil, past, Item.size, size_gotoDrop]
  change ((_ + (jumpSize + (_ + (jumpSize + 0))) : Nat) : Int) = _
  push_cast
  omega

/-- The loop that tests its condition first has two jumps that lead past each other. -/
theorem whileBody {condition : Code} {body : Fragment} {skip back : Int16}
    (test : WellFormed condition.toFragment) (inner : WellFormed body)
    (past : skip.toInt = (size body + jumpSize : Nat))
    (again : back.toInt = -(condition.size + jumpSize + (size body + jumpSize) : Nat)) :
    WellFormed (Emit.whileBody condition body skip back) where
  admissible i mem := by
    simp only [Emit.whileBody, List.mem_append, List.mem_cons, List.not_mem_nil, or_false] at mem
    rcases mem with first | same | second | same
    · exact test.admissible i first
    · cases same
      exact .of_jump rfl
    · exact inner.admissible i second
    · cases same
      exact .of_jump rfl
  closed start := by
    have whole : size (Emit.whileBody condition body skip back) =
        condition.size + jumpSize + (size body + jumpSize) := by
      simp only [Emit.whileBody, size_append, size_cons, size_toFragment, size_nil, Item.size,
        size_gotoDrop]
      change _ + (_ + (_ + (jumpSize + 0))) = _
      omega
    refine ((test.closed start).mono fun _ h => h.append_right _).append (.jump rfl
      (t := start + Fragment.size (Emit.whileBody condition body skip back)) ?_ (.last start _)
      (.append ((inner.closed _).mono fun _ h => ?_) (.jump rfl (t := start) ?_ (.first start _)
        fun _ _ _ mem => absurd mem List.not_mem_nil)))
    · rw [whole, past, size_toFragment, size_gotoDrop]
      push_cast
      omega
    · exact Boundary.append_left (boundary_cons.mpr (.inr (h.append_right _)))
    · change _ = ((_ + jumpSize : Nat) : Int) + _
      rw [again, size_toFragment, size_gotoDrop]
      push_cast
      omega

/-- The loop that tests its condition last jumps back to its start. -/
theorem doWhileBody {body : Fragment} {condition : Code} {back : Int16} (inner : WellFormed body)
    (test : WellFormed condition.toFragment)
    (again : back.toInt = -(size body + condition.size + jumpSize : Nat)) :
    WellFormed (Emit.doWhileBody body condition back) := by
  refine (inner.append test).jump [] _ rfl .nil rfl ?_
  rw [size_append, size_toFragment, size_gotoDrop, again, size_nil]
  omega

/-- Closing a loop keeps a fragment well formed if `continue` leads to one of its
boundaries. -/
theorem closeLoop (before after : Fragment) {code : Fragment} (loop : WellFormed (before ++ after))
    (run : Fragment.closeLoop (before ++ after) (size before) = .ok code) : WellFormed code where
  admissible i mem := by
    obtain ⟨o, placed⟩ := exists_mem_locate 0 mem
    rcases (closeLoop_settled run 0).instruction_cases placed with kept | ⟨_, _, _, rfl, _⟩
    · exact loop.admissible i (mem_of_mem_locate kept)
    · exact .of_jump rfl
  closed start := by
    intro o i d mem operand
    have settled := closeLoop_settled run start
    rcases settled.instruction_cases mem with kept | ⟨e, d', t, rfl, _, target, leads⟩
    · obtain ⟨t, eq, lands⟩ := loop.closed start o i d kept operand
      exact ⟨t, eq, settled.boundary.mpr lands⟩
    · cases operand
      cases target
      refine ⟨_, leads.symm, settled.boundary.mpr ?_⟩
      cases e with
      | breaks => exact .last start _
      | continues => exact .intro start before after

theorem flatten {codes : List Code} (each : ∀ c ∈ codes, WellFormed c.toFragment) :
    WellFormed (Code.toFragment codes.flatten) := by
  induction codes with
  | nil => exact nil
  | cons c _ ih =>
    rw [List.flatten_cons, Code.toFragment_append]
    exact (each c List.mem_cons_self).append (ih fun c mem => each c (List.mem_cons_of_mem _ mem))

end WellFormed

/-! ### Plain instructions -/

/-- An instruction of fixed size that neither jumps nor stops the program. -/
def isPlain (i : Instruction) : Bool :=
  i.opcode != .halt && i.operand.shape != .jump && i.operand.shape != .captures

theorem WellFormed.plain {i : Instruction} (plain : isPlain i = true) :
    WellFormed [.instruction i] := by
  simp only [isPlain, Bool.and_eq_true, bne_iff_ne] at plain
  obtain ⟨⟨runsOn, noJump⟩, noCaptures⟩ := plain
  refine .single ⟨runsOn, fun captures eq => ?_⟩ fun d eq => ?_
  · rw [eq] at noCaptures
    exact absurd rfl noCaptures
  · rw [eq] at noJump
    exact absurd rfl noJump

theorem WellFormed.plainCode (plain : ∀ i ∈ code, isPlain i = true) :
    WellFormed code.toFragment := by
  induction code with
  | nil => exact .nil
  | cons i _ ih =>
    exact (WellFormed.plain (plain i List.mem_cons_self)).append
      (ih fun j mem => plain j (List.mem_cons_of_mem _ mem))

theorem isPlain_load (slot : Storage.Slot) : isPlain (load slot) = true := by
  obtain ⟨kind, index⟩ := slot
  cases kind <;> rfl

theorem isPlain_store (slot : Storage.Slot) : isPlain (store slot) = true := by
  obtain ⟨kind, index⟩ := slot
  cases kind <;> rfl

theorem isPlain_discard (l : Storage.Local) : isPlain l.discard = true := by
  unfold Storage.Local.discard
  split <;> rfl

theorem wellFormed_discards (locals : List Storage.Local) :
    WellFormed (Code.toFragment (locals.map Storage.Local.discard)) :=
  .plainCode fun i mem => by
    obtain ⟨l, _, rfl⟩ := List.mem_map.mp mem
    exact isPlain_discard l

theorem isPlain_lowering {op : BinaryOperation} (lowered : op.lowering = .apply code) :
    ∀ i ∈ code, isPlain i = true := by
  cases op <;> cases lowered <;> decide

theorem isPlain_unary (op : UnaryOperation) : ∀ i ∈ op.code, isPlain i = true := by
  cases op <;> decide

/-- A chain of tests is well formed if its operands are. -/
theorem WellFormed.joined {value : Bool} {operands : List Code} (chain : Joined value operands code)
    (each : ∀ c ∈ operands, WellFormed c.toFragment) : WellFormed code.toFragment := by
  induction chain with
  | last => exact each _ List.mem_cons_self
  | @test operand _ _ d _ leads ih =>
    have tail := ih fun c mem => each c (List.mem_cons_of_mem _ mem)
    rw [Code.toFragment_append, Code.toFragment_cons]
    refine (each operand List.mem_cons_self).jump _ [] (d := d) ?_ tail
      (List.append_nil _).symm ?_
    · cases value <;> rfl
    · simp only [size_append, size_cons, size_toFragment, Item.size, size_gotoOrDrop, leads]
      push_cast
      omega

/-- In a program, a jump leads to an instruction. -/
theorem WellFormed.target_starts {body : Code} (wellFormed : WellFormed body.toFragment) :
    ∀ l ∈ Machine.locate 0 (body ++ [.halt]), ∀ t, l.target? = some t →
      ∃ l' ∈ Machine.locate 0 (body ++ [.halt]), (l'.offset : Int) = t := by
  intro l mem t leads
  have placed : (l.offset, .instruction l.instruction) ∈
      locate 0 (Code.toFragment (body ++ [.halt])) := by
    rw [locate_toFragment]
    exact List.mem_map_of_mem mem
  rw [Code.toFragment_append, locate_append] at placed
  rcases List.mem_append.mp placed with inside | last
  · obtain ⟨d, jump, rfl⟩ := Located.target?_eq_some leads
    obtain ⟨t, eq, boundary⟩ := wellFormed.closed 0 _ _ d inside jump
    obtain ⟨item, starts⟩ := boundary.starts (g := Code.toFragment [.halt]) (List.cons_ne_nil _ _)
    rw [← Code.toFragment_append, locate_toFragment] at starts
    obtain ⟨l', mem', same⟩ := List.mem_map.mp starts
    cases same
    exact ⟨l', mem', eq⟩
  · obtain ⟨_, halts⟩ := Prod.mk.inj (List.mem_singleton.mp last)
    obtain ⟨d, jump, _⟩ := Located.target?_eq_some leads
    rw [Item.instruction.inj halts] at jump
    cases jump

end Bindery.Emit.Fragment

namespace Bindery.Bound

open Emit (Code Fragment jumpSize)
open Emit.Fragment (WellFormed)
open Machine (Instruction Located Opcode)

/-! ### What is written is well formed -/

variable {e e' : Emission} {captures : List Machine.Capture} {code : Code} {p : Program}

theorem wellFormed_constant {c : Machine.Constant} {i : Instruction}
    (run : Emit.constant c e = .ok (i, e')) : WellFormed [.instruction i] := by
  obtain ⟨_, _, _, rfl, _⟩ := Emit.constant_eq_ok run
  exact .plain rfl

variable {symbols : SymbolTable}

mutual

/-- The code of each operand is well formed. -/
theorem Expression.Writes.wellFormed {x : Expression} {chain e e' codes} :
    x.Writes symbols chain e codes e' → ∀ c ∈ codes, WellFormed c.toFragment
  | .literal run => by
    rw [List.forall_mem_singleton]
    rcases Emit.literal_eq_ok run with ⟨rfl | rfl, _⟩ | ⟨_, i, _, added, rfl⟩
    · exact .plain rfl
    · exact .plain rfl
    · exact wellFormed_constant added
  | .reference _ => List.forall_mem_singleton.mpr (.plain (Emit.Fragment.isPlain_load _))
  | .assignment value _ => by
    rw [List.forall_mem_singleton, Code.toFragment_append]
    exact (WellFormed.flatten value.wellFormed).append (.plain (Emit.Fragment.isPlain_store _))
  | .apply lowered left right => by
    rw [List.forall_mem_singleton, Code.toFragment_append, Code.toFragment_append]
    exact (WellFormed.flatten left.wellFormed).append ((WellFormed.flatten right.wellFormed).append
      (.plainCode (Emit.Fragment.isPlain_lowering lowered)))
  | .testOperands _ left right => by
    intro c mem
    exact (List.mem_append.mp mem).elim (left.wellFormed c) (right.wellFormed c)
  | .test _ _ left right run => by
    rw [List.forall_mem_singleton]
    have joined := Emit.joinTests_joined (List.append_ne_nil_of_left_ne_nil left.ne_nil _) run
    refine .joined joined.1 fun c mem => ?_
    exact (List.mem_append.mp mem).elim (left.wellFormed c) (right.wellFormed c)
  | .concatOperands _ right left => by
    intro c mem
    exact (List.mem_append.mp mem).elim (right.wellFormed c) (left.wellFormed c)
  | .concat _ _ right left _ => by
    rw [List.forall_mem_singleton, Code.toFragment_append]
    refine (WellFormed.flatten fun c mem => ?_).append (.plain rfl)
    exact (List.mem_append.mp mem).elim (right.wellFormed c) (left.wellFormed c)
  | .unary operand => by
    rw [List.forall_mem_singleton, Code.toFragment_append]
    exact (WellFormed.flatten operand.wellFormed).append
      (.plainCode (Emit.Fragment.isPlain_unary _))
  | .parenthesized inner => List.forall_mem_singleton.mpr (.flatten inner.wellFormed)
  | .call arguments target => by
    rw [List.forall_mem_singleton, Code.toFragment_append, Code.toFragment_append]
    exact arguments.wellFormed.append ((WellFormed.flatten target.wellFormed).append (.plain rfl))
  | .ternary condition yes past no out => by
    rw [List.forall_mem_singleton, Code.toFragment_append, Code.toFragment_cons,
      Code.toFragment_append, Code.toFragment_cons]
    refine (WellFormed.flatten condition.wellFormed).branch (.flatten yes.wellFormed) ?_
      (.flatten no.wellFormed) ?_
    · rw [Emit.Fragment.size_toFragment, Machine.toDistance_eq_ok past]
    · rw [Emit.Fragment.size_toFragment, Machine.toDistance_eq_ok out]

theorem WritesArguments.wellFormed {arguments e e' code} :
    WritesArguments symbols arguments e code e' → WellFormed code.toFragment
  | .nil => .nil
  | .cons first others => by
    rw [Code.toFragment_append]
    exact (WellFormed.flatten first.wellFormed).append others.wellFormed

end

theorem Expression.Writes.wellFormed_flatten {symbols : SymbolTable} {x : Expression}
    {codes : List Code} (run : x.Writes symbols none e codes e') :
    WellFormed (Code.toFragment codes.flatten) :=
  .flatten run.wellFormed

theorem wellFormed_declare {s : SymbolId} {store : Code}
    (run : Emit.declare s e = .ok (store, e')) : WellFormed store.toFragment := by
  rcases Emit.declare_eq_ok run with ⟨_, index, _, _, rfl, _⟩ | ⟨_, _, _, rfl, _⟩
  · exact .append (.plain rfl) (.plain rfl)
  · exact .nil

theorem wellFormed_ending (insertReturn : Bool) (locals : List Storage.Local) :
    WellFormed (functionEnding insertReturn locals).toFragment := by
  cases insertReturn with
  | false => exact Emit.Fragment.wellFormed_discards locals
  | true =>
    change WellFormed (Code.toFragment (_ ++ _))
    rw [Code.toFragment_append]
    exact (Emit.Fragment.wellFormed_discards locals).append (.append (.plain rfl) (.plain rfl))

theorem wellFormed_closure (run : Emit.closure captures = .ok code) :
    WellFormed code.toFragment := by
  rcases Emit.closure_eq_ok run with ⟨_, rfl⟩ | ⟨_, rfl, fits⟩
  · exact .nil
  · refine .single ⟨?_, fun captures' eq => ?_⟩ ?_
    · exact nofun
    · cases eq
      exact fits
    · exact nofun

/-- The code of a function keeps to itself if its body does. -/
theorem wellFormed_wrapFunction {start arity : Nat} {body code : Fragment} (inner : WellFormed body)
    (run : wrapFunction start arity captures body e = .ok (code, e')) : WellFormed code := by
  obtain ⟨skip, _, _, value, closure, past, _, _, added, closed, rfl⟩ := wrapFunction_eq_ok run
  have ending : WellFormed (Code.toFragment (value :: closure)) :=
    (wellFormed_constant added).append (wellFormed_closure closed)
  refine WellFormed.jump (.instruction (.goto skip) :: body) _ .nil rfl (inner.append ending)
    rfl ?_
  simp only [Emit.Fragment.size_cons, Emit.Fragment.size_nil, Emit.Item.size, past]
  push_cast
  omega

mutual

/-- The code of a statement is well formed. -/
theorem Statement.Writes.wellFormed {s : Statement} {loop start e e' code} :
    s.Writes symbols loop start e code e' → WellFormed code
  | .function declared _ body wrapped =>
    (wellFormed_wrapFunction (body.wellFormed.append (wellFormed_ending _ _)) wrapped).append
      (wellFormed_declare declared)
  | .declare value declared => by
    rw [Code.toFragment_append]
    exact value.wellFormed_flatten.append (wellFormed_declare declared)
  | .ifThen condition yes past =>
    condition.wellFormed_flatten.skip yes.wellFormed (Machine.toDistance_eq_ok past)
  | .ifElse condition yes past no out =>
    condition.wellFormed_flatten.branch yes.wellFormed (Machine.toDistance_eq_ok past)
      no.wellFormed (Machine.toDistance_eq_ok out)
  | .whileLoop condition body run => by
    obtain ⟨_, _, past, again, closed⟩ := Emit.whileLoop_eq_ok run
    exact WellFormed.closeLoop [] _
      (.whileBody condition.wellFormed_flatten body.wellFormed past again) closed
  | .doWhile (b := b) (c := c) body condition run => by
    obtain ⟨back, again, closed⟩ := Emit.doWhile_eq_ok run
    have loop := body.wellFormed.doWhileBody condition.wellFormed_flatten again
    rw [Emit.doWhileBody, List.append_assoc] at loop closed
    exact WellFormed.closeLoop _ _ loop closed
  | .block statements => statements.wellFormed.append (Emit.Fragment.wellFormed_discards _)
  | .returnsUnit => .append (.plain rfl) (.plain rfl)
  | .returns value | .print value | .expression value => by
    rw [Code.toFragment_append]
    exact value.wellFormed_flatten.append (.plain rfl)
  | .breakLoop | .continueLoop => (Emit.Fragment.wellFormed_discards _).append (.exit _)

theorem WritesList.wellFormed {statements loop start e e' code} :
    WritesList symbols loop start statements e code e' → WellFormed code
  | .nil => .nil
  | .cons first others => first.wellFormed.append others.wellFormed

end

/-! ### No exit stays open -/

mutual

/-- Without a loop around it, a statement leaves no exit open. -/
theorem Statement.Writes.exit_not_mem {s : Statement} {x start e e' code} :
    s.Writes symbols none start e code e' → .exit x ∉ code
  | .function _ _ body wrapped => by
    obtain ⟨_, _, _, _, _, _, _, _, _, _, rfl⟩ := wrapFunction_eq_ok wrapped
    have inner := body.exit_not_mem (x := x)
    simp [inner]
  | .declare .. => Code.exit_not_mem _ _
  | .ifThen _ yes _ => by
    have first := yes.exit_not_mem (x := x)
    simp [first]
  | .ifElse _ yes _ no _ => by
    have first := yes.exit_not_mem (x := x)
    have second := no.exit_not_mem (x := x)
    simp [first, second]
  | .whileLoop _ _ run => by
    obtain ⟨_, _, _, _, closed⟩ := Emit.whileLoop_eq_ok run
    exact fun open_ => nomatch (Emit.Fragment.closeLoop_settled closed 0).waits open_
  | .doWhile _ _ run => by
    obtain ⟨_, _, closed⟩ := Emit.doWhile_eq_ok run
    exact fun open_ => nomatch (Emit.Fragment.closeLoop_settled closed 0).waits open_
  | .block statements => by
    have inner := statements.exit_not_mem (x := x)
    simp [inner]
  | .returnsUnit => Code.exit_not_mem _ _
  | .returns _ => Code.exit_not_mem _ _
  | .print _ => Code.exit_not_mem _ _
  | .expression _ => Code.exit_not_mem _ _

/-- Outside loops no exit is left open. -/
theorem WritesList.exit_not_mem {x statements start e e' code} :
    WritesList symbols none start statements e code e' → .exit x ∉ code
  | .nil => List.not_mem_nil
  | .cons first others => fun mem =>
    (List.mem_append.mp mem).elim first.exit_not_mem others.exit_not_mem

end

/-! ### Programs -/

/-- The code of a program is well formed up to its end. -/
theorem Program.wellFormed_of_emitCode (run : p.emitCode = .ok (code, e)) :
    ∃ body : Code, code = body ++ [.halt] ∧ WellFormed body.toFragment := by
  obtain ⟨f, rfl, statements⟩ := Program.writes_of_emitCode run
  refine ⟨Fragment.toCode f, rfl, ?_⟩
  rw [Emit.Fragment.toFragment_toCode fun x => statements.exit_not_mem]
  exact statements.wellFormed

/-- Every instruction of a program can be encoded. -/
theorem Program.encodable_of_emitCode (run : p.emitCode = .ok (code, e)) :
    ∀ i ∈ code, i.Encodable := by
  obtain ⟨body, rfl, wellFormed⟩ := Program.wellFormed_of_emitCode run
  intro i mem
  rcases List.mem_append.mp mem with inside | last
  · exact (wellFormed.admissible i (List.mem_map_of_mem inside)).2
  · cases List.mem_singleton.mp last
    exact nofun

/-- The code of a program is read back from its bytes. -/
theorem Program.disassemble_of_emitCode (run : p.emitCode = .ok (code, e)) :
    Machine.disassemble (Machine.encodeAll code) = .ok (Machine.locate 0 code) :=
  Machine.disassemble_encodeAll (Program.encodable_of_emitCode run)

/-- Every program that can be written reads back as the instructions that were written. -/
theorem Program.readsAs_of_emit {p : Program} {image : Machine.Image} (run : p.emit = .ok image) :
    ∃ code emission, p.emitCode = .ok (code, emission) ∧ Machine.ReadsAs image.code code := by
  obtain ⟨code, emission, written, _, bytes⟩ := Program.emitCode_of_emit run
  have reads := Program.disassemble_of_emitCode written
  obtain ⟨body, rfl, wellFormed⟩ := Program.wellFormed_of_emitCode written
  refine ⟨_, emission, written, bytes, ?_, ⟨body, rfl, fun i mem => ?_⟩, wellFormed.target_starts⟩
  · rw [bytes]
    exact reads
  · exact (wellFormed.admissible i (List.mem_map_of_mem mem)).1

/-- A function with a loop that is left in its middle. -/
def loopInFunction : Program where
  statements := [.function 1 [0] [
    .whileLoop (.reference 0 .boolean default) (.block [
      .declare 2 (.literal (.boolean true) default) default,
      .ifElse (.reference 2 .boolean default) (.breakLoop default) (.continueLoop default) default]
      default) default] true default default]
  symbols := ⟨#[⟨"again", .boolean, .parameter⟩, ⟨"f", .function [.boolean] .unit, .function [0]⟩,
    ⟨"stop", .boolean, .binding true⟩]⟩

/-- The function is jumped over, and then it is a value. -/
def loopInFunctionCode : Code :=
  [.goto 30, .getLocal 0, .gotoDrop false 22, .pushTrue, .getLocal 1, .gotoDrop false 7, .pop,
    .goto 11, .goto 4, .pop, .goto (-24), .pop, .goto (-28), .pushTrue, .ret, .constant 0,
    .setGlobal 0, .pop, .halt]

/-- Both jumps out of the loop's body lead on: one to the end of the loop, the other to its
start. -/
theorem loopInFunction_readsAs :
    ∃ image emission, loopInFunction.emit = .ok image ∧
      loopInFunction.emitCode = .ok (loopInFunctionCode, emission) ∧
      Machine.ReadsAs image.code loopInFunctionCode ∧
      Machine.disassemble image.code = .ok (Machine.locate 0 loopInFunctionCode) ∧
      (Machine.locate 0 loopInFunctionCode).filterMap Machine.Located.target? =
        [33, 31, 23, 31, 27, 3, 3] ∧
      ⟨31, .pushTrue⟩ ∈ Machine.locate 0 loopInFunctionCode ∧
      ⟨3, .getLocal 0⟩ ∈ Machine.locate 0 loopInFunctionCode := by
  have known : loopInFunction.emit.toOption.isSome = true ∧
      loopInFunction.emitCode.toOption.map Prod.fst = some loopInFunctionCode := by decide +kernel
  obtain ⟨succeeds, code⟩ := known
  obtain ⟨image, run⟩ := ok_of_toOption_isSome succeeds
  obtain ⟨_, emission, written, reads⟩ := Program.readsAs_of_emit run
  rw [written] at code
  cases Option.some.inj code
  refine ⟨image, emission, run, written, reads, reads.decodes, ?_, ?_, ?_⟩ <;> decide +kernel

end Bindery.Bound
