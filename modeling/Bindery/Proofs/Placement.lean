import Bindery.Proofs.Correspondence
import Bindery.Proofs.Tidy

/-!
Where statements stand.

`Fragment.LaidAt` says that a fragment can be read in the bytes of an image, its open exits
being jumps to targets; for loops, the exits are settled (`LaidAt.whileLoop`,
`LaidAt.doWhile`). `Site` is what holds of an emission where statements are written: which
symbols are known, and which cells hold them (`Site.placed`). It holds from statement to
statement (`Site.first`, `Site.rest`), inside blocks and inside loops.
-/

namespace Bindery.Emit

open Machine (Cells Image Instruction LoopExit Reaches Values fetch)
open Storage (Local)

variable {image : Image}

/-! ### Fragments at their place -/

/-- An instruction can be read at `o`; an exit is a jump to the target of its kind. -/
def Item.StandsAt (bytes : List UInt8) (targets : LoopExit → Nat) (o : Nat) : Item → Prop
  | .instruction i => fetch bytes o = some i
  | .exit x => ∃ d : Int16, fetch bytes o = some (.goto d) ∧
      ((o + jumpSize : Nat) : Int) + d.toInt = targets x

namespace Fragment

def LaidAt (bytes : List UInt8) (targets : LoopExit → Nat) (start : Nat) (f : Fragment) : Prop :=
  ∀ p ∈ locate start f, p.2.StandsAt bytes targets p.1

variable {bytes : List UInt8} {targets inner : LoopExit → Nat} {start : Nat}

@[simp] theorem laidAt_nil : LaidAt bytes targets start [] := by
  simp [LaidAt]

@[simp] theorem laidAt_cons {item : Item} {rest : Fragment} :
    LaidAt bytes targets start (item :: rest) ↔
      item.StandsAt bytes targets start ∧ LaidAt bytes targets (start + item.size) rest := by
  simp [LaidAt]

variable {f g body code : Fragment} {condition : Code}

@[simp] theorem laidAt_append :
    LaidAt bytes targets start (f ++ g) ↔
      LaidAt bytes targets start f ∧ LaidAt bytes targets (start + size f) g := by
  simp [LaidAt, or_imp, forall_and]

@[simp] theorem laidAt_toFragment {code : Code} :
    LaidAt bytes targets start code.toFragment ↔ Code.LaidAt bytes start code := by
  simp [LaidAt, Code.LaidAt, locate_toFragment, Item.StandsAt]

/-- Exits that are settled lead to the targets of their loop. -/
theorem LaidAt.of_settled (settled : Settled (fun x => some (inner x)) start f g)
    (laid : LaidAt bytes targets start g) : LaidAt bytes inner start f := by
  rintro ⟨o, item⟩ mem
  cases item with
  | instruction i => exact laid (o, .instruction i) (settled.keeps mem)
  | exit =>
    obtain ⟨d, there, leads⟩ := settled.jumps rfl mem
    exact ⟨d, laid (o, .instruction (.goto d)) there, leads⟩

/-- How a loop that tests first can be read: its parts, and where its jumps lead. -/
structure WhileLaid (bytes : List UInt8) (inner : LoopExit → Nat) (start stop : Nat) (c : Code)
    (b : Fragment) : Prop where
  condition : Code.LaidAt bytes start c
  leave : ∃ d : Int16, fetch bytes (start + c.size) = some (.gotoDrop false d) ∧
    ((start + c.size + jumpSize : Nat) : Int) + d.toInt = stop
  body : LaidAt bytes inner (start + c.size + jumpSize) b
  back : ∃ d : Int16, fetch bytes (start + c.size + jumpSize + size b) = some (.goto d) ∧
    ((start + c.size + jumpSize + size b + jumpSize : Nat) : Int) + d.toInt = start
  breaks : inner .breaks = stop
  continues : inner .continues = start

/-- A loop that is laid has its parts laid, its exits leading to its end or its condition. -/
theorem LaidAt.whileLoop (run : Fragment.whileLoop condition body = .ok code)
    (laid : LaidAt bytes targets start code) :
    ∃ inner, WhileLaid bytes inner start (start + size code) condition body := by
  obtain ⟨skip, back, past, returns, closed⟩ := whileLoop_eq_ok run
  have settled := closeLoop_settled closed start
  have open_ := laid.of_settled settled
  simp only [whileBody, laidAt_append, laidAt_cons, laidAt_toFragment, Item.StandsAt, Item.size,
    size_toFragment, size_gotoDrop] at open_
  obtain ⟨first, test, inside, last, _⟩ := open_
  have size_eq : size code = condition.size + (jumpSize + (size body + jumpSize)) := by
    rw [settled.size_eq]
    simp [whileBody, Item.size]
  refine ⟨_, first, ⟨skip, test, ?_⟩, inside, ⟨back, last, ?_⟩, ?_, rfl⟩
  · rw [past, size_eq]
    omega
  · rw [returns]
    omega
  · rw [settled.size_eq]
    rfl

/-- How a loop that tests last can be read. -/
structure DoWhileLaid (bytes : List UInt8) (inner : LoopExit → Nat) (start stop : Nat)
    (b : Fragment) (c : Code) : Prop where
  body : LaidAt bytes inner start b
  condition : Code.LaidAt bytes (start + size b) c
  back : ∃ d : Int16, fetch bytes (start + size b + c.size) = some (.gotoDrop true d) ∧
    ((start + size b + c.size + jumpSize : Nat) : Int) + d.toInt = start
  ends : start + size b + c.size + jumpSize = stop
  breaks : inner .breaks = stop
  continues : inner .continues = start + size b

/-- A loop that tests last has its parts laid, its exits leading to its end or its condition. -/
theorem LaidAt.doWhile (run : Fragment.doWhile body condition = .ok code)
    (laid : LaidAt bytes targets start code) :
    ∃ inner, DoWhileLaid bytes inner start (start + size code) body condition := by
  obtain ⟨back, returns, closed⟩ := doWhile_eq_ok run
  have settled := closeLoop_settled closed start
  have open_ := laid.of_settled settled
  simp only [doWhileBody, laidAt_append, laidAt_cons, laidAt_toFragment, Item.StandsAt,
    size_append, size_toFragment] at open_
  obtain ⟨⟨inside, test⟩, last, _⟩ := open_
  have size_eq : size code = size body + condition.size + jumpSize := by
    rw [settled.size_eq]
    simp [doWhileBody, Item.size, Nat.add_assoc]
  rw [← Nat.add_assoc] at last
  refine ⟨_, inside, test, ⟨back, last, ?_⟩, ?_, ?_, rfl⟩
  · rw [returns]
    omega
  · rw [size_eq]
    omega
  · rw [settled.size_eq]
    rfl

end Fragment

/-- As many values are removed as there are locals. -/
theorem reaches_discards {V : Type} {ops : Values V} (locals : List Local) {start : Nat}
    {cells : Cells V} {values printed : List V}
    (laid : Code.LaidAt image.code start (locals.map Local.discard))
    (count : values.length = locals.length) :
    Reaches ops image ⟨start, cells.push values, printed⟩
      ⟨start + Code.size (locals.map Local.discard), cells, printed⟩ := by
  induction locals generalizing start values with
  | nil =>
    obtain rfl := List.length_eq_zero_iff.mp count
    exact .refl _
  | cons l _ ih =>
    cases values with
    | nil => cases count
    | cons v values =>
      simp only [List.map_cons, Code.laidAt_cons] at laid
      have discarded : Reaches ops image ⟨start, cells.push (v :: values), printed⟩
          ⟨start + l.discard.size, cells.push values, printed⟩ := by
        refine Machine.reaches_of_execute laid.1 ?_
        obtain ⟨index, captured⟩ := l
        cases captured <;> rfl
      refine (discarded.trans (ih laid.2 (Nat.succ.inj count))).at ?_
      rw [List.map_cons, Code.size_cons, Nat.add_assoc]

end Bindery.Emit

namespace Bindery

open Emit (Code Fragment)
open Machine (Cells Image LoopExit Reaches State Values)

variable {image : Image}

/-! ### Where a statement is written -/

/-- What the emission of a finished program adds to one on the way. -/
structure Emission.Precedes (e final : Emission) : Prop where
  pool : e.PoolGrows final
  globals : e.contents.globals <+: final.contents.globals

theorem Emission.Precedes.trans {e e' e'' : Emission} (first : e.Precedes e')
    (second : e'.Precedes e'') : e.Precedes e'' :=
  ⟨first.pool.trans second.pool, first.globals.trans second.globals⟩

variable {final : Emission}

theorem Emission.Precedes.of_contents {e e' : Emission} (later : e'.Precedes final)
    (pool : e.PoolGrows e') (same : e'.contents = e.contents) : e.Precedes final :=
  ⟨pool.trans later.pool, same ▸ later.globals⟩

/-- The image of an emission: its constants, within the limits of the format. -/
structure Finished (image : Image) (final : Emission) : Prop where
  constants : image.constants = final.constants
  fits : final.constants.Fits
  few : final.contents.globals.length ≤ 65536

namespace Bound

/-- What is known where statements are written that introduce some symbols and declare some of
them at this very place: the symbols are new, and they are globals of the program only where
they are declared outside all blocks. -/
structure Site (final : Emission) (known : List SymbolId) (loop : Option Nat)
    (introduced declared : List SymbolId) (e : Emission) : Prop where
  root : e.frames.enclosing = []
  ready : e.Ready introduced
  distinct : (e.contents.localSymbols ++ final.contents.globals).Nodup
  apart : ∀ t ∈ introduced, t ∈ final.contents.globals →
    e.contents.isGlobal = true ∧ t ∈ declared
  stored : Stored known e
  below : ∀ base, loop = some base → base ≤ e.locals

variable {symbols : SymbolTable} {loop : Option Nat} {start : Nat} {e e' : Emission}
    {code : Fragment} {statements : List Statement}

section Sites

variable {known introduced declared : List SymbolId}

/-- Every known symbol is found in its slot. -/
theorem Site.placed (site : Site final known loop introduced declared e)
    (later : e.Precedes final) {s : SymbolId} (mem : s ∈ known) :
    Placed e.slot? e.contents.localSymbols final.contents.globals s := by
  cases found : e.frames.current.get? s with
  | some l =>
    have slot : e.slot? s = some ⟨.localSlot, l.index⟩ := by rw [Emission.slot?, found]
    exact .inl ⟨l.index, slot, site.ready.current.getElem?_flatten found⟩
  | none =>
    have global : s ∈ e.contents.globals := by
      rcases site.stored s mem with global | ⟨frame, inside, block, here, holds⟩
      · exact global
      · have current : frame = e.frames.current.symbols := by
          simpa [Emission.contents, site.root] using inside
        subst current
        exact absurd holds ((Storage.Frame.get?_eq_none_iff _ s).mp found block here)
    obtain ⟨k, place⟩ := List.getElem?_of_mem global
    have slot : e.slot? s = some ⟨.global, .ofNat k⟩ := by
      have index : e.globals.get? s = some (.ofNat k) :=
        congrArg (Option.map _) ((e.globals.slots.number?_eq_some_iff s k).mpr place)
      rw [Emission.slot?, found]
      exact congrArg (Option.map _) index
    exact .inr ⟨k, slot, getElem?_of_isPrefix later.globals place⟩

/-- An expression leaves the site as it is. -/
theorem Site.after (site : Site final known loop introduced declared e) {x : Expression}
    {codes : List Code} (run : x.Writes symbols none e codes e') :
    Site final known loop introduced declared e' where
  root := (run.expands.of_root site.root).1 ▸ site.root
  ready := run.ready site.ready
  distinct := run.contents ▸ site.distinct
  apart := run.contents ▸ site.apart
  stored := site.stored.of_contents run.contents
  below base same := by
    rw [Emission.locals_of_contents run.contents]
    exact site.below base same

/-- Inside a block, nothing is global. -/
theorem Site.block (site : Site final known loop introduced [] e) (inner : List SymbolId) :
    Site final known loop introduced inner { e with frames := e.frames.pushBlock } where
  root := site.root
  ready := site.ready.pushBlock
  distinct := by
    rw [Emit.pushBlock_contents, Contents.localSymbols_pushBlock]
    exact site.distinct
  apart t mem global := absurd (site.apart t mem global).2 List.not_mem_nil
  stored t mem := by
    rw [Emit.pushBlock_contents]
    exact Contents.knows_pushBlock.mpr (site.stored t mem)
  below base same := by
    rw [Emission.locals_pushBlock]
    exact site.below base same

/-- The body of a loop stands above the locals of the loop. -/
theorem Site.inLoop (site : Site final known loop introduced declared e) {base : Nat}
    (le : base ≤ e.locals) : Site final known (some base) introduced declared e :=
  { site with below := fun _ same => Option.some.inj same ▸ le }

variable {s : Statement}

/-- A tidy statement declares at most one symbol. -/
theorem Statement.Tidy.declares_cases (tidy : s.Tidy True) :
    s.declares = [] ∨ ∃ t, s.declares = [t] := by
  cases tidy with
  | function | declare => exact .inr ⟨_, rfl⟩
  | ifThen _ nothing | whileLoop _ nothing | doWhile _ nothing => exact .inl (nothing trivial)
  | ifElse _ one _ two =>
    rw [declares, one trivial, two trivial]
    exact .inl rfl
  | block | returns | breakLoop | continueLoop | print | expression => exact .inl rfl

theorem declaresList_subset_introducesList {t : SymbolId} (mem : t ∈ declaresList statements) :
    t ∈ introducesList statements := by
  induction statements with
  | nil => exact mem
  | cons _ _ ih =>
    rw [declaresList, List.flatMap_cons] at mem
    rcases List.mem_append.mp mem with here | later
    · exact List.mem_append_left _ (Statement.mem_introduces_of_mem_declares here)
    · exact List.mem_append_right _ (ih later)

/-- The first of some statements stands where they stand. -/
theorem Site.first {rest : List Statement}
    (site : Site final known loop (introducesList (s :: rest)) (declaresList (s :: rest)) e) :
    Site final known loop s.introduces s.declares e where
  root := site.root
  ready := site.ready.sublist (List.sublist_append_left ..)
  distinct := site.distinct
  apart t mem global := by
    obtain ⟨outside, declared⟩ := site.apart t (List.mem_append_left _ mem) global
    rw [declaresList, List.flatMap_cons] at declared
    refine ⟨outside, (List.mem_append.mp declared).resolve_right fun later => ?_⟩
    have once := (List.nodup_append.mp site.ready.nodup).2.2
    exact once t mem t (declaresList_subset_introducesList later) rfl
  stored := site.stored
  below := site.below

/-- The other statements stand where the first one ends. -/
theorem Site.rest {s : Statement} {rest : List Statement} {around : Option Nat} {start : Nat}
    {code : Fragment}
    (site : Site final known loop (introducesList (s :: rest)) (declaresList (s :: rest)) e)
    (tidy : s.Tidy True) (run : s.Writes symbols around start e code e') :
    Site final (s.declares ++ known) loop (introducesList rest) (declaresList rest) e' := by
  have ready : e.Ready (s.introduces ++ introducesList rest) := site.ready
  obtain ⟨_, _, once⟩ := List.nodup_append.mp ready.nodup
  have contents := run.contents
  -- A symbol that is still to come is not what the statement declares.
  have others : ∀ t ∈ introducesList rest, t ∈ final.contents.globals →
      e.contents.isGlobal = true ∧ t ∈ declaresList rest := by
    intro t mem global
    obtain ⟨outside, declared⟩ := site.apart t (List.mem_append_right _ mem) global
    rw [declaresList, List.flatMap_cons] at declared
    refine ⟨outside, (List.mem_append.mp declared).resolve_left fun here => ?_⟩
    exact once t (Statement.mem_introduces_of_mem_declares here) t mem rfl
  have places : (e'.contents.localSymbols ++ final.contents.globals).Nodup ∧
      e'.contents.isGlobal = e.contents.isGlobal := by
    rcases tidy.declares_cases with nothing | ⟨t, one⟩
    · rw [nothing] at contents
      rw [contents]
      exact ⟨site.distinct, rfl⟩
    · rw [one] at contents
      have introduced := Statement.mem_introduces_of_mem_declares (one ▸ List.mem_singleton_self t)
      have fresh := ready.fresh t (List.mem_append_left _ introduced)
      rw [contents, List.foldl_cons, List.foldl_nil]
      rcases Contents.declare_cases fresh with
        ⟨global, still, _, locals⟩ | ⟨inside, still, _, locals⟩
      · rw [locals, still, global]
        exact ⟨site.distinct, rfl⟩
      · have apart : t ∉ final.contents.globals := fun global =>
          Bool.false_ne_true (inside.symm.trans (site.apart t (List.mem_append_left _ introduced)
            global).1)
        have unused : t ∉ e.contents.localSymbols := fun mem =>
          fresh (Contents.knows_of_mem_localSymbols mem)
        rw [locals, still, inside, List.append_assoc, List.singleton_append,
          List.nodup_middle, List.nodup_cons, List.mem_append]
        exact ⟨⟨fun mem => mem.elim unused apart, site.distinct⟩, rfl⟩
  refine ⟨?_, run.ready ready, places.1, ?_, site.stored.declare contents, ?_⟩
  · have enclosing := congrArg Contents.enclosing contents
    rw [Contents.enclosing_foldl_declare] at enclosing
    change e'.frames.enclosing.map _ = e.frames.enclosing.map _ at enclosing
    rw [site.root] at enclosing
    exact List.map_eq_nil_iff.mp enclosing
  · rw [places.2]
    exact others
  · exact fun base same => Nat.le_trans (site.below base same) run.locals_le

end Sites

theorem Statement.Writes.precedes {s : Statement} (run : s.Writes symbols loop start e code e') :
    e.Precedes e' where
  pool := run.poolGrows
  globals := run.contents ▸ Contents.isPrefix_globals_foldl ..

theorem WritesList.precedes (run : WritesList symbols loop start statements e code e') :
    e.Precedes e' where
  pool := run.poolGrows
  globals := run.contents ▸ Contents.isPrefix_globals_foldl ..

/-- The code of a program, and the end of the program, can be read in its image. -/
theorem WritesList.laidAt {p : Program} {f : Fragment}
    (statements : WritesList p.symbols none 0 p.statements .empty f final)
    (emitted : p.emitCode = .ok (Fragment.toCode f ++ [.halt], final))
    (bytes : image.code = Machine.encodeAll (Fragment.toCode f ++ [.halt]))
    (targets : LoopExit → Nat) :
    Fragment.LaidAt image.code targets 0 f ∧
      Machine.fetch image.code (Fragment.size f) = some .halt := by
  have same : Code.toFragment (Fragment.toCode f) = f :=
    Fragment.toFragment_toCode fun x => statements.exit_not_mem
  have whole : Code.LaidAt image.code 0 (Fragment.toCode f ++ [.halt]) := fun l mem => by
    rw [bytes]
    exact Machine.fetch_encodeAll (Program.encodable_of_emitCode emitted) mem
  rw [Code.laidAt_append, Code.laidAt_cons, ← Fragment.size_toFragment, same,
    Nat.zero_add] at whole
  refine ⟨?_, whole.2.1⟩
  rw [← same, Fragment.laidAt_toFragment]
  exact whole.1

end Bound

end Bindery
