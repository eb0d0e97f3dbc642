import Bindery.Proofs.Placement
import Bindery.Proofs.Resolution

/-!
Code does what its program means.

`Statement.Executes.lands` is a simulation: from cells that match the values of symbols, the
code of a statement leads to where the statement is left, with the values that it leaves
and what it has printed. A jump out of a loop comes to the loop's end or to its condition with
the locals of the loop removed. `SourceFile.runs_as_executed` is the statement about whole
files.
-/

namespace Bindery

open Emit (Code Fragment)
open Machine (Cells Image LoopExit Reaches State Values)

namespace Bound

/-! ### Ways out -/

/-- The ways out of a statement: the targets of jumps out of the loop around it, with the
locals that are left there, and the end of the statement, with its locals. -/
structure Ways where
  targets : LoopExit → Nat
  kept : Option (List SymbolId)
  stop : Nat
  locals : List SymbolId

section Simulation

variable {V : Type} {ops : Values V} {symbols : SymbolTable} {image : Image} {final : Emission}

/-- The machine has come to the way out that the outcome names. -/
inductive Lands (image : Image) (globals : List SymbolId) (ways : Ways) (st : Store V)
    (printed : List V) : Outcome → State V → Prop where
  | done {cells} : Matches ways.locals globals st cells →
      Lands image globals ways st printed .done ⟨ways.stop, cells, printed⟩
  | broke {kept cells} : ways.kept = some kept → Matches kept globals st cells →
      Lands image globals ways st printed .broke ⟨ways.targets .breaks, cells, printed⟩
  | continued {kept cells} : ways.kept = some kept → Matches kept globals st cells →
      Lands image globals ways st printed .continued ⟨ways.targets .continues, cells, printed⟩
  | returned {pc cells} : Machine.fetch image.code pc = some .ret → HoldsGlobals globals st cells →
      Lands image globals ways st printed .returned ⟨pc, cells, printed⟩

/-- The machine comes to the way out that the outcome names. -/
def Arrives (ops : Values V) (image : Image) (globals : List SymbolId) (ways : Ways)
    (start : State V) (st : Store V) (printed : List V) (out : Outcome) : Prop :=
  ∃ t, Reaches ops image start t ∧ Lands image globals ways st printed out t

variable {globals locals introduced declared : List SymbolId} {t : State V} {printed : List V}
    {stop yes no : Nat} {x condition : Expression} {codes : List Code} {v : V} {s : SymbolId}
    {inner : LoopExit → Nat} {statements : List Statement}

theorem Arrives.after {ways : Ways} {s : State V} {st : Store V} {out : Outcome}
    (run : Reaches ops image s t) (arrives : Arrives ops image globals ways t st printed out) :
    Arrives ops image globals ways s st printed out := by
  obtain ⟨u, more, lands⟩ := arrives
  exact ⟨u, run.trans more, lands⟩

/-- Only the end of a statement has to do with its locals. -/
theorem Lands.leaves {ways : Ways} {st : Store V} {out : Outcome}
    (lands : Lands image globals { ways with stop := stop, locals := locals } st printed out t)
    (left : out ≠ .done) : Lands image globals ways st printed out t := by
  cases lands with
  | done => exact absurd rfl left
  | broke kept same => exact .broke kept same
  | continued kept same => exact .continued kept same
  | returned here holds => exact .returned here holds

/-- The code of an expression pushes its value. -/
theorem Site.evaluates (finished : Finished image final) {known : List SymbolId} {loop : Option Nat}
    {e e' : Emission} {start : Nat} {st st' : Store V} {cells : Cells V}
    (site : Site final known loop introduced declared e) (run : x.Writes symbols none e codes e')
    (inScope : x.InScope known) (later : e'.Precedes final)
    (laid : Code.LaidAt image.code start codes.flatten)
    (same : Matches e.contents.localSymbols final.contents.globals st cells)
    (value : x.evaluate ops .symbols st = some (v, st')) (printed : List V) :
    ∃ cells', Reaches ops image ⟨start, cells, printed⟩
        ⟨start + Code.size codes.flatten, cells'.push [v], printed⟩ ∧
      Matches e'.contents.localSymbols final.contents.globals st' cells' := by
  have before := later.of_contents run.poolGrows run.contents
  have refers : Refers symbols image e.slot? e e' :=
    Emission.refers_of_root site.root finished.fits finished.constants later.pool
  have simulates := simulates_cells (V := V) site.distinct finished.few fun s mem =>
    site.placed before mem
  obtain ⟨cells', computed, matches_⟩ := x.evaluate_simulates simulates inScope same value
  rw [run.contents]
  exact ⟨cells', run.computes refers laid computed [] printed, matches_⟩

/-- The same where an instruction follows. -/
theorem Site.evaluates_then (finished : Finished image final) {known : List SymbolId}
    {loop : Option Nat} {e e' : Emission} {i : Machine.Instruction} {targets : LoopExit → Nat}
    {start : Nat} {st st' : Store V} {cells : Cells V}
    (site : Site final known loop introduced declared e) (run : x.Writes symbols none e codes e')
    (inScope : x.InScope known) (later : e'.Precedes final)
    (laid : Fragment.LaidAt image.code targets start (Code.toFragment (codes.flatten ++ [i])))
    (size : start + Fragment.size (Code.toFragment (codes.flatten ++ [i])) = stop)
    (same : Matches e.contents.localSymbols final.contents.globals st cells)
    (value : x.evaluate ops .symbols st = some (v, st')) (printed : List V) :
    ∃ pc cells', Reaches ops image ⟨start, cells, printed⟩ ⟨pc, cells'.push [v], printed⟩ ∧
      Matches e'.contents.localSymbols final.contents.globals st' cells' ∧
      Machine.fetch image.code pc = some i ∧ pc + i.size = stop := by
  rw [Fragment.laidAt_toFragment, Code.laidAt_append, Code.laidAt_cons] at laid
  obtain ⟨cells', pushed, same'⟩ :=
    site.evaluates finished run inScope later laid.1 same value printed
  refine ⟨_, cells', pushed, same', laid.2.1, ?_⟩
  rw [← size, Fragment.size_toFragment, Code.size_append, Code.size_cons, Code.size_nil,
    Nat.add_zero, Nat.add_assoc]

/-- A statement is written as code that can be read in the image, and its ways out are where
the code leads. -/
structure Stands (symbols : SymbolTable) (image : Image) (final : Emission)
    (known : List SymbolId) (ways : Ways) (s : Statement) (loop : Option Nat) (start : Nat)
    (e : Emission) (code : Fragment) (e' : Emission) : Prop where
  run : s.Writes symbols loop start e code e'
  tidy : s.Tidy True
  inScope : ∃ inLoop, s.InScope inLoop known
  site : Site final known loop s.introduces s.declares e
  later : e'.Precedes final
  laid : Fragment.LaidAt image.code ways.targets start code
  stop : start + Fragment.size code = ways.stop
  locals : e'.contents.localSymbols = ways.locals
  kept : loop.map (e.contents.localSymbols.take ·) = ways.kept

/-- The same for statements one after the other. -/
structure StandsList (symbols : SymbolTable) (image : Image) (final : Emission)
    (known : List SymbolId) (ways : Ways) (statements : List Statement) (loop : Option Nat)
    (start : Nat) (e : Emission) (code : Fragment) (e' : Emission) : Prop where
  run : WritesList symbols loop start statements e code e'
  tidy : TidyList True statements
  inScope : ∃ inLoop, ListInScope inLoop known statements
  site : Site final known loop (introducesList statements) (declaresList statements) e
  later : e'.Precedes final
  laid : Fragment.LaidAt image.code ways.targets start code
  stop : start + Fragment.size code = ways.stop
  locals : e'.contents.localSymbols = ways.locals
  kept : loop.map (e.contents.localSymbols.take ·) = ways.kept

variable {known : List SymbolId} {ways : Ways} {loop : Option Nat} {start : Nat} {e e' : Emission}
    {code : Fragment} {st st' : Store V} {cells : Cells V}

/-- A global gets the index of its symbol. -/
theorem getElem?_of_put {globals globals' : Storage.Globals} {index : UInt16}
    (run : globals.put s = .ok (index, globals')) :
    ∃ k, index = .ofNat k ∧ globals'.slots.toList[k]? = some s := by
  unfold Storage.Globals.put at run
  split at run
  · cases run
  · cases run
    exact ⟨_, rfl, (globals.slots.intern_spec s).1⟩

/-- The value of a new variable goes to its cell. -/
theorem Site.declares (finished : Finished image final) {store : Code}
    (site : Site final known loop introduced declared e) (mem : s ∈ introduced)
    (run : Emit.declare s e = .ok (store, e')) (later : e'.Precedes final)
    (laid : Code.LaidAt image.code start store)
    (same : Matches e.contents.localSymbols final.contents.globals st cells) (printed : List V) :
    ∃ cells', Reaches ops image ⟨start, cells.push [v], printed⟩
        ⟨start + store.size, cells', printed⟩ ∧
      Matches e'.contents.localSymbols final.contents.globals (Function.update st s (some v))
        cells' := by
  have fresh := site.ready.fresh s mem
  have contents := Emit.declare_contents run
  have unused : s ∉ e.contents.localSymbols := fun mem =>
    fresh (Contents.knows_of_mem_localSymbols mem)
  obtain ⟨_, once, _⟩ := List.nodup_append.mp site.distinct
  rcases Contents.declare_cases fresh with ⟨global, _, _, locals⟩ | ⟨inside, _, _, locals⟩
  · rcases Emit.declare_eq_ok run with ⟨_, index, globals, put, rfl, rfl⟩ | ⟨inside, _⟩
    · obtain ⟨k, rfl, place⟩ := getElem?_of_put put
      have place' := getElem?_of_isPrefix later.globals place
      simp only [Code.laidAt_cons] at laid
      have here : Machine.fetch image.code start = some (Emit.store ⟨.global, .ofNat k⟩) := laid.1
      have stored : Reaches ops image ⟨start, cells.push [v], printed⟩ _ :=
        Machine.reaches_store here rfl
      refine ⟨_, (stored.trans (Machine.reaches_pop laid.2.1)).at ?_, ?_, ?_⟩
      · rw [Code.size_cons, Code.size_cons, Code.size_nil, Nat.add_zero, Nat.add_assoc]
        rfl
      · have kept : e.contents.localSymbols.map (Function.update st s (some v)) =
            e.contents.localSymbols.map st :=
          List.map_congr_left fun t mem =>
            Function.update_of_ne (ne_of_mem_of_not_mem mem unused) ..
        rw [contents, locals, kept]
        exact same.stack
      · exact same.globals.store once finished.few place' v
    · rw [← Emit.isGlobal_contents, global] at inside
      cases inside
  · rcases Emit.declare_eq_ok run with ⟨global, _⟩ | ⟨_, frames, put, rfl, rfl⟩
    · rw [← Emit.isGlobal_contents, inside] at global
      cases global
    · have apart : s ∉ final.contents.globals := fun global =>
        Bool.false_ne_true (inside.symm.trans (site.apart s mem global).1)
      rw [contents, locals]
      exact ⟨_, .refl _, same.push unused apart v⟩

/-- Removing the locals above some others. -/
theorem Matches.reaches_discards {kept dropped globals : List SymbolId}
    {locals : List Storage.Local} (same : Matches (kept ++ dropped) globals st cells)
    (laid : Code.LaidAt image.code start (locals.map Storage.Local.discard))
    (count : dropped.length = locals.length) (printed : List V) :
    ∃ below, Reaches ops image ⟨start, cells, printed⟩
        ⟨start + Code.size (locals.map Storage.Local.discard), below, printed⟩ ∧
      Matches kept globals st below := by
  obtain ⟨below, values, rfl, length, matches_⟩ := same.split
  exact ⟨below, Emit.reaches_discards locals laid (length.trans count), matches_⟩

/-- A jump out of the loop removes the locals of the loop first. -/
theorem Site.leaves {base : Nat} {exit : LoopExit}
    (site : Site final known (some base) introduced declared e)
    (laid : Fragment.LaidAt image.code ways.targets start
      (Code.toFragment ((e.frames.current.localsFrom base).map Storage.Local.discard) ++
        [.exit exit])) (same : Matches e.contents.localSymbols final.contents.globals st cells)
    (printed : List V) :
    ∃ below, Reaches ops image ⟨start, cells, printed⟩ ⟨ways.targets exit, below, printed⟩ ∧
      Matches (e.contents.localSymbols.take base) final.contents.globals st below := by
  have le := site.below base rfl
  have count : (e.contents.localSymbols.drop base).length =
      (e.frames.current.localsFrom base).length := by
    rw [List.length_drop, Contents.length_localSymbols, ← Emission.locals_eq,
      site.ready.current.length_localsFrom le]
    rfl
  rw [← List.take_append_drop base e.contents.localSymbols] at same
  rw [Fragment.laidAt_append, Fragment.laidAt_toFragment, Fragment.laidAt_cons] at laid
  obtain ⟨discards, ⟨d, here, leads⟩, _⟩ := laid
  rw [Fragment.size_toFragment] at here leads
  obtain ⟨below, removed, matches_⟩ := same.reaches_discards discards count printed
  exact ⟨below, removed.trans (Machine.reaches_goto here leads), matches_⟩

/-- At `start` a condition is tested, which leads to `yes` or to `no`. -/
structure Tests (symbols : SymbolTable) (image : Image) (final : Emission)
    (known : List SymbolId) (condition : Expression) (e e' : Emission) (start yes no : Nat) :
    Prop where
  written : ∃ c : List Code, condition.Writes symbols none e c e' ∧
    Code.LaidAt image.code start c.flatten ∧ yes = start + Code.size c.flatten + Emit.jumpSize ∧
    ∃ d : Int16, Machine.fetch image.code (start + Code.size c.flatten) =
        some (.gotoDrop false d) ∧ (yes : Int) + d.toInt = no
  inScope : condition.InScope known
  later : e'.Precedes final

/-- A condition that is true leads on. -/
theorem Tests.taken (finished : Finished image final)
    (tests : Tests symbols image final known condition e e' start yes no)
    (site : Site final known loop introduced declared e)
    (same : Matches e.contents.localSymbols final.contents.globals st cells)
    (value : condition.evaluate ops .symbols st = some (v, st')) (truth : ops.isTrue v = true)
    (printed : List V) :
    ∃ cells', Reaches ops image ⟨start, cells, printed⟩ ⟨yes, cells', printed⟩ ∧
      Matches e'.contents.localSymbols final.contents.globals st' cells' := by
  obtain ⟨⟨c, run, laid, rfl, d, here, _⟩, inScope, later⟩ := tests
  obtain ⟨cells', pushed, same'⟩ :=
    site.evaluates finished run inScope later laid same value printed
  have passed : Reaches ops image ⟨start + Code.size c.flatten, cells'.push [v], printed⟩ _ :=
    Machine.reaches_gotoDrop_passed here (by rw [truth]; exact Bool.noConfusion)
  rw [Emit.size_gotoDrop] at passed
  exact ⟨cells', pushed.trans passed, same'⟩

/-- A condition that is false jumps. -/
theorem Tests.passed (finished : Finished image final)
    (tests : Tests symbols image final known condition e e' start yes no)
    (site : Site final known loop introduced declared e)
    (same : Matches e.contents.localSymbols final.contents.globals st cells)
    (value : condition.evaluate ops .symbols st = some (v, st')) (truth : ops.isTrue v = false)
    (printed : List V) :
    ∃ cells', Reaches ops image ⟨start, cells, printed⟩ ⟨no, cells', printed⟩ ∧
      Matches e'.contents.localSymbols final.contents.globals st' cells' := by
  obtain ⟨⟨c, run, laid, rfl, d, here, leads⟩, inScope, later⟩ := tests
  obtain ⟨cells', pushed, same'⟩ :=
    site.evaluates finished run inScope later laid same value printed
  rw [← Emit.size_gotoDrop false d] at leads
  exact ⟨cells', pushed.trans (Machine.reaches_gotoDrop_taken here leads truth), same'⟩

/-- What stands in the code of a condition without an `else`. -/
theorem Stands.ifThen {condition : Expression} {yes : Statement} {span : Span}
    (stands : Stands symbols image final known ways (.ifThen condition yes span) loop start e code
      e') :
    ∃ e₁ next y, Tests symbols image final known condition e e₁ start next ways.stop ∧
      Stands symbols image final known ways yes loop next e₁ y e' ∧
      e₁.contents.localSymbols = ways.locals := by
  obtain ⟨run, tidy, ⟨_, test, inScope⟩, site, later, laid, stop, locals, kept⟩ := stands
  cases run with
  | @ifThen _ _ _ _ _ _ c e₁ y _ skip tested written past =>
    have .ifThen tidy nothing := tidy
    simp only [Fragment.laidAt_append, Fragment.laidAt_toFragment, Fragment.laidAt_cons,
      Emit.Item.StandsAt, Emit.Item.size, Fragment.size_toFragment, Emit.size_gotoDrop] at laid
    have size : start + Code.size c.flatten + Emit.jumpSize + Fragment.size y = ways.stop := by
      rw [← stop]
      simp [Emit.Item.size, Nat.add_assoc]
    have contents := written.contents
    rw [nothing trivial, List.foldl_nil] at contents
    refine ⟨e₁, _, y, ⟨⟨c, tested, laid.1, rfl, skip, laid.2.1, ?_⟩, test, ?_⟩, ?_, ?_⟩
    · rw [Machine.toDistance_eq_ok past]
      omega
    · exact written.precedes.trans later
    · exact ⟨written, tidy, ⟨_, inScope⟩, site.after tested, later, laid.2.2, size, locals,
        tested.contents ▸ kept⟩
    · rw [← contents, locals]

/-- What stands in the code of a condition with both branches. -/
theorem Stands.ifElse {condition : Expression} {yes no : Statement} {span : Span}
    (stands : Stands symbols image final known ways (.ifElse condition yes no span) loop start e
      code e') :
    ∃ e₁ e₂ next other y n leave, Tests symbols image final known condition e e₁ start next other ∧
      Stands symbols image final known { ways with stop := leave } yes loop next e₁ y e₂ ∧
      Stands symbols image final known ways no loop other e₂ n e' ∧
      e₂.contents = e₁.contents ∧
      ∃ d : Int16, Machine.fetch image.code leave = some (.goto d) ∧
        ((leave + (Machine.Instruction.goto d).size : Nat) : Int) + d.toInt = ways.stop := by
  obtain ⟨run, tidy, ⟨_, test, inYes, inNo⟩, site, later, laid, stop, locals, kept⟩ := stands
  cases run with
  | @ifElse _ _ _ _ _ _ _ c e₁ y e₂ skip n _ leave tested first past second out =>
    have .ifElse tidyYes nothing tidyNo nothing' := tidy
    simp only [Fragment.laidAt_append, Fragment.laidAt_toFragment, Fragment.laidAt_cons,
      Emit.Item.StandsAt, Emit.Item.size, Fragment.size_toFragment, Emit.size_gotoDrop] at laid
    obtain ⟨conditionLaid, jump, yesLaid, gotoLaid, noLaid⟩ := laid
    have size : start + Code.size c.flatten + Emit.jumpSize +
        (Fragment.size y + Emit.jumpSize) + Fragment.size n = ways.stop := by
      rw [← stop]
      simp [Emit.Item.size, Nat.add_assoc]
    have one := first.contents
    have two := second.contents
    rw [nothing trivial, List.foldl_nil] at one
    rw [nothing' trivial, List.foldl_nil] at two
    rw [nothing trivial, List.nil_append] at inNo
    have sites :
        Site final known loop (introducesList [yes, no]) (declaresList [yes, no]) e₁ := by
      have both : introducesList [yes, no] = yes.introduces ++ no.introduces := by
        simp [introducesList]
      have both' : declaresList [yes, no] = yes.declares ++ no.declares := by simp [declaresList]
      rw [both, both']
      exact site.after tested
    have other := (sites.rest tidyYes first).first
    rw [nothing trivial, List.nil_append] at other
    have place : start + Code.size c.flatten + Emit.jumpSize + Fragment.size y +
        (Machine.Instruction.goto leave).size =
        start + Code.size c.flatten + Emit.jumpSize + (Fragment.size y + Emit.jumpSize) := by
      rw [Nat.add_assoc _ (Fragment.size y)]
      rfl
    rw [place] at noLaid
    refine ⟨e₁, e₂, start + Code.size c.flatten + Emit.jumpSize,
      start + Code.size c.flatten + Emit.jumpSize + (Fragment.size y + Emit.jumpSize), y, n,
      start + Code.size c.flatten + Emit.jumpSize + Fragment.size y,
      ⟨⟨c, tested, conditionLaid, rfl, skip, jump, ?_⟩, test, ?_⟩, ?_, ?_, one, leave, gotoLaid,
      ?_⟩
    · rw [Machine.toDistance_eq_ok past]
      omega
    · exact first.precedes.trans (second.precedes.trans later)
    · exact ⟨first, tidyYes, ⟨_, inYes⟩, sites.first, second.precedes.trans later, yesLaid, rfl,
        two ▸ locals, tested.contents ▸ kept⟩
    · exact ⟨second, tidyNo, ⟨_, inNo⟩, other, later, noLaid, size, locals,
        one ▸ tested.contents ▸ kept⟩
    · rw [place, Machine.toDistance_eq_ok out]
      omega

/-- The parts of a loop that tests first. -/
theorem Stands.whileLoop {condition : Expression} {body : Statement} {span : Span}
    (stands : Stands symbols image final known ways (.whileLoop condition body span) loop start e
      code e') :
    ∃ e₁ next b stop inner, Tests symbols image final known condition e e₁ start next ways.stop ∧
      Stands symbols image final known ⟨inner, some ways.locals, stop, ways.locals⟩ body
        (some e.locals) next e₁ b e' ∧
      inner .breaks = ways.stop ∧ inner .continues = start ∧
      e.contents.localSymbols = ways.locals ∧ e₁.contents.localSymbols = ways.locals ∧
      ∃ d : Int16, Machine.fetch image.code stop = some (.goto d) ∧
        ((stop + (Machine.Instruction.goto d).size : Nat) : Int) + d.toInt = start := by
  obtain ⟨run, tidy, ⟨_, test, inside⟩, site, later, laid, stop, locals, -⟩ := stands
  cases run with
  | @whileLoop _ _ _ _ _ _ c e₁ b _ _ tested written closed =>
    have .whileLoop tidy nothing := tidy
    obtain ⟨inner, parts⟩ := laid.whileLoop closed
    rw [stop] at parts
    have contents := written.contents
    rw [nothing trivial, List.foldl_nil] at contents
    have same₁ : e₁.contents.localSymbols = ways.locals := by rw [← contents, locals]
    have same : e.contents.localSymbols = ways.locals := by rw [← tested.contents, same₁]
    obtain ⟨d, leave, leads⟩ := parts.leave
    refine ⟨e₁, _, b, _, inner, ⟨⟨c, tested, parts.condition, rfl, d, leave, leads⟩, test,
      written.precedes.trans later⟩, ?_, parts.breaks, parts.continues, same, same₁, parts.back⟩
    refine ⟨written, tidy, ⟨_, inside⟩, (site.after tested).inLoop ?_, later, parts.body, rfl,
      locals, ?_⟩
    · exact Nat.le_of_eq (Emission.locals_of_contents tested.contents).symm
    · rw [Option.map_some, same₁, List.take_of_length_le]
      rw [← same, Contents.length_localSymbols, ← Emission.locals_eq]

/-- The parts of a loop that tests last. -/
theorem Stands.doWhile {condition : Expression} {body : Statement} {span : Span}
    (stands : Stands symbols image final known ways (.doWhile body condition span) loop start e
      code e') :
    ∃ b e₁ c inner, condition.Writes symbols none e₁ c e' ∧ condition.InScope known ∧
      Fragment.DoWhileLaid image.code inner start ways.stop b c.flatten ∧
      Stands symbols image final known
        ⟨inner, some ways.locals, start + Fragment.size b, ways.locals⟩ body (some e.locals) start
        e b e₁ ∧
      Site final known loop [] [] e₁ ∧ e.contents.localSymbols = ways.locals ∧
      e₁.contents.localSymbols = ways.locals := by
  obtain ⟨run, tidy, ⟨_, inside, test⟩, site, later, laid, stop, locals, -⟩ := stands
  cases run with
  | @doWhile _ _ _ _ _ _ b e₁ c _ _ written tested closed =>
    have .doWhile tidy nothing := tidy
    obtain ⟨inner, parts⟩ := laid.doWhile closed
    rw [stop] at parts
    have contents := written.contents
    rw [nothing trivial, List.foldl_nil] at contents
    rw [nothing trivial, List.nil_append] at test
    have same₁ : e₁.contents.localSymbols = ways.locals := by rw [← tested.contents, locals]
    have same : e.contents.localSymbols = ways.locals := by rw [← contents, same₁]
    have behind : Site final known loop [] [] e₁ := by
      have whole : Site final known loop (introducesList [body]) (declaresList [body]) e := by
        have one : introducesList [body] = body.introduces := List.append_nil _
        have one' : declaresList [body] = body.declares := by simp [declaresList]
        rw [one, one']
        exact site
      have rest := whole.rest tidy written
      rw [nothing trivial] at rest
      exact rest
    refine ⟨b, e₁, c, inner, tested, test, parts, ?_, behind, same, same₁⟩
    refine ⟨written, tidy, ⟨_, inside⟩, site.inLoop (Nat.le_refl _), ?_, parts.body, rfl, same₁,
      ?_⟩
    · exact later.of_contents tested.poolGrows tested.contents
    · rw [Option.map_some, same, List.take_of_length_le]
      rw [← same, Contents.length_localSymbols, ← Emission.locals_eq]

/-- The condition behind the body of a loop. -/
theorem Stands.doCondition (finished : Finished image final) {body : Statement} {span : Span}
    {b : Fragment} {c : List Code} {e₁ : Emission}
    (stands : Stands symbols image final known ways (.doWhile body condition span) loop start e
      code e') (tested : condition.Writes symbols none e₁ c e') (test : condition.InScope known)
    (parts : Fragment.DoWhileLaid image.code inner start ways.stop b c.flatten)
    (site : Site final known loop [] [] e₁)
    (same : Matches e₁.contents.localSymbols final.contents.globals st cells)
    (value : condition.evaluate ops .symbols st = some (v, st')) (printed : List V) :
    ∃ cells', Reaches ops image ⟨start + Fragment.size b, cells, printed⟩
        ⟨if ops.isTrue v then start else ways.stop, cells', printed⟩ ∧
      Matches e'.contents.localSymbols final.contents.globals st' cells' := by
  obtain ⟨d, back, leads⟩ := parts.back
  obtain ⟨cells', pushed, same'⟩ := site.evaluates finished tested test stands.later
    parts.condition same value printed
  refine ⟨cells', pushed.trans ?_, same'⟩
  by_cases truth : ops.isTrue v = true
  · rw [if_pos truth]
    exact Machine.reaches_gotoDrop_taken back (by rw [Emit.size_gotoDrop]; exact leads) truth
  · rw [if_neg truth]
    have passed : Reaches ops image ⟨_, cells'.push [v], printed⟩ _ :=
      Machine.reaches_gotoDrop_passed back truth
    rw [Emit.size_gotoDrop] at passed
    exact passed.at parts.ends

/-- A body that ends or goes on comes to the condition behind it. -/
theorem Lands.repeats {out : Outcome}
    (lands : Lands image globals ⟨inner, some locals, stop, locals⟩ st printed out t)
    (again : out.repeats = true) (continues : inner .continues = stop) :
    ∃ cells, t = ⟨stop, cells, printed⟩ ∧ Matches locals globals st cells := by
  cases lands with
  | done same => exact ⟨_, rfl, same⟩
  | continued kept same =>
    cases kept
    subst continues
    exact ⟨_, rfl, same⟩
  | broke | returned => cases again

/-- The statements of a block, and the code that removes their locals. -/
theorem Stands.block {statements : List Statement} {span : Span}
    (stands : Stands symbols image final known ways (.block statements span) loop start e code
      e') :
    ∃ stop dropped inside c e₁, ∃ removed : List Storage.Local, StandsList symbols image final known
        { ways with stop := stop, locals := ways.locals ++ dropped } statements loop start inside c
        e₁ ∧
      inside.contents.localSymbols = e.contents.localSymbols ∧
      Code.LaidAt image.code stop (removed.map Storage.Local.discard) ∧
      dropped.length = removed.length ∧
      stop + Code.size (removed.map Storage.Local.discard) = ways.stop := by
  obtain ⟨run, tidy, ⟨_, inScope⟩, site, later, laid, stop, locals, kept⟩ := stands
  cases run with
  | @block _ _ _ _ _ c e₁ written =>
    have .block tidy := tidy
    rw [Fragment.laidAt_append, Fragment.laidAt_toFragment] at laid
    rw [Fragment.size_append, Fragment.size_toFragment, ← Nat.add_assoc] at stop
    have outside : Emission.contents { e₁ with frames := e₁.frames.popBlock.2 } = e.contents := by
      rw [Emit.popBlock_contents, written.contents, Emit.pushBlock_contents,
        Contents.popBlock_foldl_declare]
    have same : Emission.contents { e with frames := e.frames.pushBlock } =
        e.contents.pushBlock := Emit.pushBlock_contents e
    have symbols_eq : e.contents.localSymbols = ways.locals := by rw [← outside, locals]
    obtain ⟨dropped, above⟩ : ways.locals <+: e₁.contents.localSymbols := by
      rw [← symbols_eq, ← Contents.localSymbols_pushBlock, ← same, written.contents]
      exact Contents.isPrefix_localSymbols_foldl ..
    have count : dropped.length = e₁.frames.popBlock.1.length := by
      have sizes := e₁.length_popBlock
      rw [Emission.locals_of_contents outside, Emission.locals_eq, Emission.locals_eq,
        ← Contents.length_localSymbols, ← Contents.length_localSymbols, ← above, symbols_eq,
        List.length_append] at sizes
      omega
    refine ⟨_, dropped, _, c, e₁, _, ⟨written, tidy, ⟨_, inScope⟩, site.block _, ?_, laid.1, rfl,
      above.symm, ?_⟩, ?_, laid.2, count, stop⟩
    · refine ⟨later.pool, ?_⟩
      have globals := later.globals
      rw [Emit.popBlock_contents] at globals
      exact globals
    · rw [same, Contents.localSymbols_pushBlock]
      exact kept
    · rw [same, Contents.localSymbols_pushBlock]

/-- The first of some statements. -/
theorem StandsList.cons {s : Statement} {rest : List Statement}
    (stands : StandsList symbols image final known ways (s :: rest) loop start e code e') :
    ∃ stop c e₁ cs, Stands symbols image final known
        { ways with stop := stop, locals := e₁.contents.localSymbols } s loop start e c e₁ ∧
      StandsList symbols image final (s.declares ++ known) ways rest loop stop e₁ cs e' := by
  obtain ⟨run, tidy, ⟨_, inScope, inRest⟩, site, later, laid, stop, locals, kept⟩ := stands
  cases run with
  | @cons _ _ _ _ _ c e₁ cs _ written more =>
    have .cons tidy _ tidyRest := tidy
    rw [Fragment.laidAt_append] at laid
    rw [Fragment.size_append, ← Nat.add_assoc] at stop
    refine ⟨_, c, e₁, cs, ⟨written, tidy, ⟨_, inScope⟩, site.first, more.precedes.trans later,
      laid.1, rfl, rfl, kept⟩, more, tidyRest, ⟨_, inRest⟩, site.rest tidy written, later, laid.2,
      stop, locals, ?_⟩
    rw [← kept]
    cases loop with
    | none => rfl
    | some base =>
      -- What the first statement declares stands above the base of the loop.
      have grown : e.contents.localSymbols <+: e₁.contents.localSymbols := by
        rw [written.contents]
        exact Contents.isPrefix_localSymbols_foldl ..
      have below : base ≤ e.contents.localSymbols.length := by
        rw [Contents.length_localSymbols, ← Emission.locals_eq]
        exact site.below base rfl
      obtain ⟨above, eq⟩ := grown
      rw [Option.map_some, Option.map_some, ← eq, List.take_append_of_le_length below]

mutual

/-- The code of a statement leads to where the statement is left. The induction is on the
execution, so that a loop is entered again at its start. -/
theorem Statement.Executes.lands {st st' out printed before known ways loop start e e' code cells}
    (finished : Finished image final) {s : Statement} :
    s.Executes ops st out st' printed →
    Stands symbols image final known ways s loop start e code e' →
    Matches e.contents.localSymbols final.contents.globals st cells →
    Arrives ops image final.contents.globals ways ⟨start, cells, before⟩ st' (before ++ printed) out
  | .declare (s := s) value, stands, same => by
    obtain ⟨run, _, ⟨_, inScope⟩, site, later, laid, stop, locals, -⟩ := stands
    cases run with
    | @declare _ _ _ _ _ _ _ e₁ _ _ written declared =>
      rw [Fragment.laidAt_toFragment, Code.laidAt_append] at laid
      have first : e₁.Precedes final := by
        refine ⟨(Emission.PoolGrows.declare declared).trans later.pool, ?_⟩
        have grows := Contents.isPrefix_globals_foldl e₁.contents [s]
        rw [List.foldl_cons, List.foldl_nil, ← Emit.declare_contents declared] at grows
        exact grows.trans later.globals
      obtain ⟨cells₁, pushed, same₁⟩ :=
        site.evaluates finished written inScope first laid.1 same value before
      obtain ⟨cells₂, stored, same₂⟩ := (site.after written).declares finished
        (List.mem_singleton_self _) declared later laid.2 same₁ before
      rw [locals] at same₂
      rw [List.append_nil]
      refine ⟨_, (pushed.trans stored).at ?_, .done same₂⟩
      rw [← stop, Fragment.size_toFragment, Code.size_append, Nat.add_assoc]
  | .ifThenTaken value truth branch, stands, same => by
    obtain ⟨e₁, next, y, tests, yes, _⟩ := stands.ifThen
    obtain ⟨cells₁, tested, same₁⟩ := tests.taken finished stands.site same value truth before
    exact (branch.lands finished yes same₁).after tested
  | .ifThenPassed value truth, stands, same => by
    obtain ⟨e₁, next, y, tests, _, locals⟩ := stands.ifThen
    obtain ⟨cells₁, tested, same₁⟩ := tests.passed finished stands.site same value truth before
    rw [List.append_nil]
    exact ⟨_, tested, .done (locals ▸ same₁)⟩
  | .ifElseYes value truth branch, stands, same => by
    obtain ⟨e₁, e₂, next, other, y, n, leave, tests, yes, _, _, d, here, leads⟩ := stands.ifElse
    obtain ⟨cells₁, tested, same₁⟩ := tests.taken finished stands.site same value truth before
    obtain ⟨t, ran, lands⟩ := branch.lands finished yes same₁
    have inside := tested.trans ran
    by_cases ended : out = .done
    · subst ended
      cases lands with
      | done same₂ => exact ⟨_, inside.trans (Machine.reaches_goto here leads), .done same₂⟩
    · exact ⟨t, inside, lands.leaves ended⟩
  | .ifElseNo value truth branch, stands, same => by
    obtain ⟨e₁, e₂, next, other, y, n, leave, tests, _, no, contents, _⟩ := stands.ifElse
    obtain ⟨cells₁, tested, same₁⟩ := tests.passed finished stands.site same value truth before
    rw [← contents] at same₁
    exact (branch.lands finished no same₁).after tested
  | .whilePassed value truth, stands, same => by
    obtain ⟨e₁, next, b, stop, inner, tests, _, _, _, _, locals, _⟩ := stands.whileLoop
    obtain ⟨cells₁, tested, same₁⟩ := tests.passed finished stands.site same value truth before
    rw [List.append_nil]
    exact ⟨_, tested, .done (locals ▸ same₁)⟩
  | .whileRepeated value truth once again rest, stands, same => by
    obtain ⟨e₁, next, b, stop, inner, tests, body, _, continues, locals, _, d, here, leads⟩ :=
      stands.whileLoop
    obtain ⟨cells₁, tested, same₁⟩ := tests.taken finished stands.site same value truth before
    obtain ⟨t, ran, lands⟩ := once.lands finished body same₁
    have inside := tested.trans ran
    rw [← List.append_assoc]
    -- From its end or by a `continue`, the body comes back to the condition.
    cases lands with
    | done same₂ =>
      rw [← locals] at same₂
      exact (rest.lands finished stands same₂).after
        (inside.trans (Machine.reaches_goto here leads))
    | continued kept same₂ =>
      rw [← Option.some.inj kept, ← locals] at same₂
      exact (rest.lands finished stands same₂).after (inside.at continues)
    | broke | returned => cases again
  | .whileBroken value truth once, stands, same => by
    obtain ⟨e₁, next, b, stop, inner, tests, body, breaks, _⟩ := stands.whileLoop
    obtain ⟨cells₁, tested, same₁⟩ := tests.taken finished stands.site same value truth before
    obtain ⟨t, ran, lands⟩ := once.lands finished body same₁
    cases lands with
    | broke kept same₂ =>
      rw [← Option.some.inj kept] at same₂
      exact ⟨_, (tested.trans ran).at breaks, .done same₂⟩
  | .whileReturned value truth once, stands, same => by
    obtain ⟨e₁, next, b, stop, inner, tests, body, _⟩ := stands.whileLoop
    obtain ⟨cells₁, tested, same₁⟩ := tests.taken finished stands.site same value truth before
    obtain ⟨t, ran, lands⟩ := once.lands finished body same₁
    cases lands with
    | returned here holds => exact ⟨_, tested.trans ran, .returned here holds⟩
  | .doPassed once again value truth, stands, same => by
    obtain ⟨b, e₁, c, inner, tested, test, parts, body, site, _, locals⟩ := stands.doWhile
    obtain ⟨t, ran, lands⟩ := once.lands finished body same
    obtain ⟨cells₁, rfl, same₁⟩ := lands.repeats again parts.continues
    rw [← locals] at same₁
    obtain ⟨cells₂, left, same₂⟩ :=
      stands.doCondition finished tested test parts site same₁ value _
    rw [stands.locals] at same₂
    rw [truth] at left
    exact ⟨_, ran.trans left, .done same₂⟩
  | .doRepeated once again value truth rest, stands, same => by
    obtain ⟨b, e₁, c, inner, tested, test, parts, body, site, enter, locals⟩ := stands.doWhile
    obtain ⟨t, ran, lands⟩ := once.lands finished body same
    obtain ⟨cells₁, rfl, same₁⟩ := lands.repeats again parts.continues
    rw [← locals] at same₁
    obtain ⟨cells₂, back, same₂⟩ :=
      stands.doCondition finished tested test parts site same₁ value _
    rw [stands.locals, ← enter] at same₂
    rw [truth] at back
    rw [← List.append_assoc]
    exact (rest.lands finished stands same₂).after (ran.trans back)
  | .doBroken once, stands, same => by
    obtain ⟨b, e₁, c, inner, _, _, parts, body, _⟩ := stands.doWhile
    obtain ⟨t, ran, lands⟩ := once.lands finished body same
    cases lands with
    | broke kept same₂ =>
      rw [← Option.some.inj kept] at same₂
      exact ⟨_, ran.at parts.breaks, .done same₂⟩
  | .doReturned once, stands, same => by
    obtain ⟨b, e₁, c, inner, _, _, parts, body, _⟩ := stands.doWhile
    obtain ⟨t, ran, lands⟩ := once.lands finished body same
    cases lands with
    | returned here holds => exact ⟨_, ran, .returned here holds⟩
  | .block run, stands, same => by
    obtain ⟨stop, dropped, inside, c, e₁, removed, list, locals, laid, count, size⟩ := stands.block
    rw [← locals] at same
    obtain ⟨t, ran, lands⟩ := run.lands finished list same
    by_cases ended : out = .done
    · subst ended
      cases lands with
      | done same₁ =>
        obtain ⟨below, gone, same₂⟩ := same₁.reaches_discards laid count _
        exact ⟨_, ran.trans (gone.at size), .done same₂⟩
    · exact ⟨t, ran, lands.leaves ended⟩
  | .returnsUnit, stands, same => by
    obtain ⟨run, _, _, _, _, laid, _⟩ := stands
    cases run with
    | returnsUnit =>
      simp only [Fragment.laidAt_toFragment, Code.laidAt_cons] at laid
      rw [List.append_nil]
      exact ⟨_, Machine.reaches_of_execute laid.1 rfl, .returned laid.2.1 same.globals⟩
  | .returns value, stands, same => by
    obtain ⟨run, _, ⟨_, inScope⟩, site, later, laid, stop, _, _⟩ := stands
    cases run with
    | returns written =>
      obtain ⟨pc, cells₁, pushed, same₁, here, _⟩ :=
        site.evaluates_then finished written inScope later laid stop same value before
      rw [List.append_nil]
      exact ⟨_, pushed, .returned here same₁.globals⟩
  | .breakLoop, stands, same => by
    obtain ⟨run, _, _, site, _, laid, _, _, kept⟩ := stands
    cases run with
    | breakLoop =>
      obtain ⟨below, left, same'⟩ := site.leaves laid same before
      rw [List.append_nil]
      exact ⟨_, left, .broke kept.symm same'⟩
  | .continueLoop, stands, same => by
    obtain ⟨run, _, _, site, _, laid, _, _, kept⟩ := stands
    cases run with
    | continueLoop =>
      obtain ⟨below, left, same'⟩ := site.leaves laid same before
      rw [List.append_nil]
      exact ⟨_, left, .continued kept.symm same'⟩
  | .print value, stands, same => by
    obtain ⟨run, _, ⟨_, inScope⟩, site, later, laid, stop, locals, _⟩ := stands
    cases run with
    | print written =>
      obtain ⟨pc, cells₁, pushed, same₁, here, size⟩ :=
        site.evaluates_then finished written inScope later laid stop same value before
      rw [locals] at same₁
      exact ⟨_, (pushed.trans (Machine.reaches_print here)).at size, .done same₁⟩
  | .expression value, stands, same => by
    obtain ⟨run, _, ⟨_, inScope⟩, site, later, laid, stop, locals, _⟩ := stands
    cases run with
    | expression written =>
      obtain ⟨pc, cells₁, pushed, same₁, here, size⟩ :=
        site.evaluates_then finished written inScope later laid stop same value before
      rw [locals] at same₁
      rw [List.append_nil]
      exact ⟨_, (pushed.trans (Machine.reaches_pop here)).at size, .done same₁⟩

theorem ExecutesList.lands
    {statements st st' out printed before known ways loop start e e' code cells}
    (finished : Finished image final) :
    ExecutesList ops statements st out st' printed →
    StandsList symbols image final known ways statements loop start e code e' →
    Matches e.contents.localSymbols final.contents.globals st cells →
    Arrives ops image final.contents.globals ways ⟨start, cells, before⟩ st' (before ++ printed) out
  | .nil, stands, same => by
    obtain ⟨run, _, _, _, _, _, stop, locals, _⟩ := stands
    cases run with
    | nil =>
      rw [List.append_nil]
      exact ⟨_, Reaches.at (.refl _) stop, .done (locals ▸ same)⟩
  | .next first rest, stands, same => by
    obtain ⟨stop, c, e₁, cs, one, more⟩ := stands.cons
    obtain ⟨t, ran, lands⟩ := first.lands finished one same
    cases lands with
    | done same₁ =>
      rw [← List.append_assoc]
      exact (rest.lands finished more same₁).after ran
  | .stop first left, stands, same => by
    obtain ⟨stop, c, e₁, cs, one, _⟩ := stands.cons
    obtain ⟨t, ran, lands⟩ := first.lands finished one same
    exact ⟨t, ran, lands.leaves left⟩

end

/-! ### Programs -/

theorem Statement.declares_sublist (s : Statement) : s.declares.Sublist s.introduces := by
  cases s with
  | function f _ body =>
    have first : [f].Sublist (f :: introducesList body) :=
      List.singleton_sublist.mpr List.mem_cons_self
    exact first.trans (List.sublist_append_right ..)
  | declare => exact .refl _
  | ifThen _ yes => exact yes.declares_sublist
  | ifElse _ yes no => exact yes.declares_sublist.append no.declares_sublist
  | whileLoop _ body | doWhile body => exact body.declares_sublist
  | block => exact List.nil_sublist _
  | returns | breakLoop | continueLoop | print | expression => exact .refl _

theorem declaresList_sublist (statements : List Statement) :
    (declaresList statements).Sublist (introducesList statements) := by
  induction statements with
  | nil => exact .slnil
  | cons s _ ih =>
    rw [declaresList, List.flatMap_cons]
    exact s.declares_sublist.append ih

/-- The globals of a program are what it declares outside all blocks, in its order. -/
theorem WritesList.globals_eq (run : WritesList symbols none 0 statements .empty code final)
    (once : (declaresList statements).Nodup) :
    final.contents.globals = declaresList statements := by
  have outside : (Emission.contents .empty).isGlobal = true := rfl
  have fresh : ((Emission.contents .empty).globals ++ declaresList statements).Nodup := once
  rw [run.contents, Contents.foldl_declare_of_isGlobal outside fresh]
  rfl

/-- The statements of a program stand at its start. -/
theorem WritesList.site {f : Fragment} (run : WritesList symbols none 0 statements .empty f final)
    (once : (introducesList statements).Nodup) :
    Site final [] none (introducesList statements) (declaresList statements) .empty := by
  have distinct : (declaresList statements).Nodup := once.sublist (declaresList_sublist _)
  have globals := run.globals_eq distinct
  refine ⟨rfl, .empty once, globals ▸ distinct, fun t _ global => ⟨rfl, globals ▸ global⟩, ?_, ?_⟩
  · exact fun _ mem => absurd mem List.not_mem_nil
  · exact nofun

/-- A program runs as its statements are executed: to its end, or to a return outside all
functions. -/
theorem Program.runs_of_emit {p : Program} {out : Outcome} (written : p.emit = .ok image)
    (tidy : TidyList True p.statements) (inScope : ListInScope false [] p.statements)
    (once : (introducesList p.statements).Nodup)
    (execution : ExecutesList ops p.statements (fun _ => none) out st' printed) :
    ∃ t, Reaches ops image .initial t ∧ t.printed = printed ∧
      (out = .done ∧ Machine.fetch image.code t.pc = some .halt ∨
        out = .returned ∧ Machine.fetch image.code t.pc = some .ret) ∧
      HoldsGlobals (declaresList p.statements) st' t.cells := by
  obtain ⟨_, final, count, emitted, counted, image_eq⟩ := Program.emit_eq_ok written
  obtain ⟨f, rfl, statements⟩ := Program.writes_of_emitCode emitted
  have globals := statements.globals_eq (once.sublist (declaresList_sublist _))
  have finished : Finished image final := by
    obtain ⟨cs, built⟩ := statements.poolGrows
    refine ⟨by rw [image_eq], (Machine.ConstantPool.exists_addAll_iff _).mp ⟨cs, built⟩, ?_⟩
    have few : final.globals.size < 65536 := Machine.toWord16_eq_ok counted ▸ count.toNat_lt
    exact final.globals.slots.length_toList.trans_le few.le
  have bytes : image.code = Machine.encodeAll (Fragment.toCode f ++ [.halt]) := by rw [image_eq]
  obtain ⟨laid, halts⟩ := statements.laidAt emitted bytes fun _ => 0
  have stands : StandsList p.symbols image final []
      ⟨fun _ => 0, none, Fragment.size f, final.contents.localSymbols⟩ p.statements none 0 .empty f
      final :=
    ⟨statements, tidy, ⟨_, inScope⟩, statements.site once, ⟨.of_eq rfl, List.prefix_rfl⟩, laid,
      Nat.zero_add _, rfl, rfl⟩
  have same : Matches (V := V) [] final.contents.globals (fun _ => none)
      ⟨[], fun _ => none, fun _ => none⟩ := ⟨rfl, fun _ _ _ => rfl⟩
  obtain ⟨t, ran, lands⟩ := execution.lands finished stands same
  cases lands with
  | done same' => exact ⟨_, ran, rfl, .inl ⟨rfl, halts⟩, globals ▸ same'.globals⟩
  | returned here holds => exact ⟨_, ran, rfl, .inr ⟨rfl, here⟩, globals ▸ holds⟩
  | broke kept | continued kept => cases kept

end Simulation

end Bound

/-- A file that is bound without diagnostics, whose declarations stand in statement lists, runs
as it is executed: the machine comes to the end of the program, or to a return outside all
functions, with what was printed and the values of the globals. -/
theorem SourceFile.runs_as_executed {file : SourceFile} {image : Image} (clean : file.bind.2 = [])
    (listed : file.DeclaresInLists) (written : file.bind.1.emit = .ok image) {V : Type}
    {ops : Values V} {out : Bound.Outcome} {st : Bound.Store V} {printed : List V}
    (execution : Bound.ExecutesList ops file.bind.1.statements (fun _ => none) out st printed) :
    ∃ t, Reaches ops image .initial t ∧ t.printed = printed ∧
      (out = .done ∧ Machine.fetch image.code t.pc = some .halt ∨
        out = .returned ∧ Machine.fetch image.code t.pc = some .ret) ∧
      Bound.HoldsGlobals (Bound.declaresList file.bind.1.statements) st t.cells := by
  obtain ⟨b, run, _, found, paths⟩ := binds_of_clean clean
  have inScope : Bound.ListInScope false [] file.bind.1.statements :=
    run.inScope found fun _ _ seen => by cases seen
  exact Bound.Program.runs_of_emit written (run.tidy (fun _ => listed) found paths) inScope
    run.introduces.nodup execution

/-- Values that only record from which constants they were put together. -/
def recorded : Values (List Machine.Constant) where
  boolean b := if b then [.int 1] else []
  constant c := [c]
  isTrue v := !v.isEmpty
  add a b := a ++ b
  sub a _ := a
  mul a b := b ++ a
  div a _ := a
  greater a b := if b.length < a.length then [.int 1] else []
  equals a b := if a = b then [.int 1] else []
  less a b := if a.length < b.length then [.int 1] else []
  neg := List.reverse
  not v := if v.isEmpty then [.int 1] else []
  concat a b := a ++ b
  concat_assoc := List.append_assoc

open Unplaced in
/-- A variable is changed in the right operand of a concatenation, which is evaluated first,
and the loop around it is left from a block: `var s = "a" while (true) { val t = s + (s = "b")
print t if (s == "a" || s == "b") break } print s`. -/
def rewritingFile : SourceFile :=
  let text (value : String) : Expression := .literal (.string value) default
  let same (left right : Expression) : Expression := binary .equalEqual left right
  source "rewriting" [
    var "s" (text "a"),
    whileLoop (boolean true) [
      val "t" (binary .plus (use "s") (.parenthesized (.assignment (use "s") (text "b") default)
        default)),
      print (use "t"),
      ifThen (binary .orOr (same (use "s") (text "a")) (same (use "s") (text "b")))
        (.breakLoop default)],
    print (use "s")]

theorem rewritingFile_runs :
    rewritingFile.bind.2 = [] ∧ rewritingFile.DeclaresInLists ∧ ∃ image t,
      rewritingFile.bind.1.emit = .ok image ∧ Reaches recorded image .initial t ∧
        t.printed = [[.string "b", .string "b"], [.string "b"]] ∧
        Machine.fetch image.code t.pc = some .halt ∧ t.cells.globals 0 = some [.string "b"] := by
  have clean : rewritingFile.bind.2 = [] := by decide +kernel
  have listed : rewritingFile.DeclaresInLists := by decide +kernel
  have succeeds : rewritingFile.bind.1.emit.toOption.isSome = true := by decide +kernel
  have first : (Bound.declaresList rewritingFile.bind.1.statements)[0]? = some 0 := by
    decide +kernel
  obtain ⟨st, execution, value⟩ : ∃ st, Bound.ExecutesList recorded rewritingFile.bind.1.statements
      (fun _ => none) .done st
      ([] ++ (([] ++ ([[.string "b", .string "b"]] ++ [])) ++ ([[.string "b"]] ++ []))) ∧
      st 0 = some [.string "b"] := by
    refine ⟨_, .next (.declare rfl) (.next (.whileBroken rfl rfl (.block (.next (.declare rfl)
      (.next (.print rfl) (.stop (.ifThenTaken rfl rfl .breakLoop) nofun)))))
      (.next (.print rfl) .nil)), rfl⟩
  obtain ⟨image, written⟩ := ok_of_toOption_isSome succeeds
  obtain ⟨t, ran, printed, ⟨_, halts⟩ | ⟨no, _⟩, holds⟩ :=
    SourceFile.runs_as_executed clean listed written execution
  · exact ⟨clean, listed, image, t, written, ran, printed, halts, (holds first).trans value⟩
  · cases no

end Bindery
