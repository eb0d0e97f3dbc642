import Bindery.Proofs.Lexical
import Bindery.Proofs.Preservation

/-!
Expressions inside functions.

While an expression is written, symbols of the functions around are taken over. A symbol that
was resolved keeps its slot (`Emission.Places.expands`), so that the slots of the emission at
the end are those that all of the code refers to, in whatever function it stands.
`Cells.Changes` says which cells an evaluation may change, and `Expression.exists_evaluate` that
there is a value if the cells of the symbols hold one. `Expression.emit_runs` puts these together
with what the code computes.
-/

namespace Bindery.Storage

/-! ### Frames in which symbols are taken over -/

/-- No entry of the free list and no local has moved. -/
structure Frame.Extends (f f' : Frame) : Prop where
  free : f.FreeGrows f'
  index : ∀ s, (f'.get? s).map Local.index = (f.get? s).map Local.index

theorem Frame.Extends.refl (f : Frame) : f.Extends f := ⟨List.prefix_rfl, fun _ => rfl⟩

variable {f f' : Frame} {c : Machine.Capture} {n : Nat}

theorem Frame.Extends.get?_eq_none_iff (extended : f.Extends f') (s : SymbolId) :
    f'.get? s = none ↔ f.get? s = none := by
  rw [← Option.map_eq_none_iff, extended.index, Option.map_eq_none_iff]

/-- A local keeps its index. -/
theorem Frame.Extends.get?_eq_some (extended : f.Extends f') {s : SymbolId} {l : Local}
    (known : f.get? s = some l) : ∃ l', f'.get? s = some l' ∧ l'.index = l.index := by
  have index := extended.index s
  rw [known] at index
  exact Option.map_eq_some_iff.mp index

/-- A capture keeps its number. -/
theorem Frame.Extends.number?_eq_some (extended : f.Extends f') (known : f.free.number? c = some n)
    :
    f'.free.number? c = some n := by
  rw [Numbering.number?_eq_some_iff] at known ⊢
  exact getElem?_of_isPrefix extended.free known

/-- A mark moves nothing. -/
theorem Frame.extends_capture (f : Frame) (s : SymbolId) : f.Extends (f.capture s) where
  free := .of_eq rfl
  index t := by
    have blocks : ∀ bs : List Block, ((captureIn s bs).findSome? (·.get? t)).map Local.index =
        (bs.findSome? (·.get? t)).map Local.index := by
      intro bs
      induction bs with
      | nil => rfl
      | cons b _ ih =>
        rw [captureIn]
        cases known : b.get? s with
        | some =>
          rw [List.findSome?_cons, List.findSome?_cons, Block.get?_put]
          by_cases same : s = t
          · subst same
            rw [if_pos rfl, known]
            rfl
          · rw [if_neg same]
        | none =>
          rw [List.findSome?_cons, List.findSome?_cons]
          cases b.get? t with
          | some => rfl
          | none => exact ih
    exact blocks f.blocks

/-- What is taken over has the number that is given. -/
theorem Frame.extends_takeOver {index : UInt16} (run : f.takeOver c = .ok (index, f')) :
    f.Extends f' ∧ ∃ n, f'.free.number? c = some n ∧ index = .ofNat n := by
  obtain ⟨_, rfl, rfl⟩ := takeOver_eq_ok run
  obtain ⟨entry, shape⟩ := f.free.intern_spec c
  refine ⟨⟨?_, fun _ => rfl⟩, _, (Numbering.number?_eq_some_iff ..).mpr entry, rfl⟩
  rcases shape with same | ⟨_, list⟩
  · exact .of_eq same
  · rw [FreeGrows, list]
    exact List.prefix_append ..

/-- What has a number is taken over again under it. -/
theorem Frame.takeOver_of_number? (known : f.free.number? c = some n) :
    ∃ f', f.takeOver c = .ok (.ofNat n, f') := by
  have given : (f.free.intern c).1 = n := by
    unfold Numbering.intern
    split
    · rename_i i found
      exact Option.some.inj (found.symm.trans known)
    · rename_i unknown
      rw [known] at unknown
      cases unknown
  unfold takeOver
  rw [if_neg (by simp [known]), ← given]
  exact ⟨_, rfl⟩

namespace FrameStack

variable {s : SymbolId} {f f' : Frame} {frames frames' : List Frame} {index : UInt16}
    {fs : FrameStack}

/-- The index under which a function has taken a symbol over from the functions around it. -/
def held? (s : SymbolId) : Frame → List Frame → Option UInt16
  | _, [] => none
  | f, parent :: outer =>
    match parent.get? s with
    | some l => (f.free.number? ⟨true, l.index⟩).map .ofNat
    | none => (held? s parent outer).bind fun held =>
        (f.free.number? ⟨false, held⟩).map .ofNat

/-- Taking a symbol over extends the frames. -/
theorem TakesOver.extends (rel : TakesOver s f frames index fs) :
    List.Forall₂ Frame.Extends (f :: frames) fs.toList := by
  induction rel with
  | found _ taken =>
    exact .cons (Frame.extends_takeOver taken).1 (.cons (Frame.extends_capture ..)
      (List.forall₂_same.mpr fun g _ => .refl g))
  | through _ _ taken _ ih => exact .cons (Frame.extends_takeOver taken).1 ih

/-- A symbol that is taken over is held. -/
theorem TakesOver.held?_eq (rel : TakesOver s f frames index fs) :
    held? s fs.current fs.enclosing = some index := by
  induction rel with
  | found known taken =>
    obtain ⟨n, number, rfl⟩ := (Frame.extends_takeOver taken).2
    simp [held?, Frame.get?_capture known, number]
  | @through _ _ _ held around _ _ unknown inside taken _ ih =>
    obtain ⟨n, number, rfl⟩ := (Frame.extends_takeOver taken).2
    -- The function around still does not declare the symbol itself.
    have outside : around.current.get? s = none := by
      cases inside.extends with
      | cons here => exact (here.get?_eq_none_iff s).mpr unknown
    simp [held?, toList, outside, ih, number]

/-- A symbol that has an index is taken over under it. -/
theorem takeOverFrom_of_held? (held : held? s f frames = some index) :
    ∃ fs, takeOverFrom s f frames = .ok (some (index, fs)) := by
  induction frames generalizing f index with
  | nil => cases held
  | cons parent _ ih =>
    rw [held?] at held
    rw [takeOverFrom]
    cases known : parent.get? s with
    | some =>
      rw [known] at held
      obtain ⟨n, number, rfl⟩ := Option.map_eq_some_iff.mp held
      obtain ⟨f', taken⟩ := Frame.takeOver_of_number? number
      exact ⟨_, by simp only [taken]; rfl⟩
    | none =>
      rw [known] at held
      obtain ⟨further, inner, given⟩ := Option.bind_eq_some_iff.mp held
      obtain ⟨n, number, rfl⟩ := Option.map_eq_some_iff.mp given
      obtain ⟨f', taken⟩ := Frame.takeOver_of_number? number
      obtain ⟨around, outside⟩ := ih inner
      exact ⟨_, by simp only [outside, bind, Except.bind, taken]; rfl⟩

/-- What is held stays held. -/
theorem held?_extends (extended : List.Forall₂ Frame.Extends (f :: frames) (f' :: frames'))
    (held : held? s f frames = some index) : held? s f' frames' = some index := by
  induction frames generalizing f f' frames' index with
  | nil => cases held
  | cons parent _ ih =>
    obtain ⟨here, around⟩ := List.forall₂_cons.mp extended
    cases around with
    | cons next further =>
      rw [held?] at held ⊢
      cases known : parent.get? s with
      | some =>
        obtain ⟨l', known', same⟩ := next.get?_eq_some known
        rw [known] at held
        obtain ⟨n, number, rfl⟩ := Option.map_eq_some_iff.mp held
        rw [known']
        simp only [same, here.number?_eq_some number, Option.map_some]
      | none =>
        rw [known] at held
        obtain ⟨outside, inner, given⟩ := Option.bind_eq_some_iff.mp held
        obtain ⟨n, number, rfl⟩ := Option.map_eq_some_iff.mp given
        rw [(next.get?_eq_none_iff s).mpr known]
        simp only [ih (.cons next further) inner, Option.bind_some,
          here.number?_eq_some number, Option.map_some]

theorem forall_get?_eq_none_of_extends (extended : List.Forall₂ Frame.Extends frames frames')
    (unknown : ∀ g ∈ frames, g.get? s = none) : ∀ g ∈ frames', g.get? s = none := by
  induction extended with
  | nil => exact unknown
  | cons here _ ih =>
    obtain ⟨first, others⟩ := List.forall_mem_cons.mp unknown
    exact List.forall_mem_cons.mpr ⟨(here.get?_eq_none_iff s).mpr first, ih others⟩

end FrameStack

end Bindery.Storage

namespace Bindery

open Machine (Cells Image Values)
open Storage (Frame FrameStack Slot)

/-! ### Slots that stay -/

namespace Emission

variable {symbols : SymbolTable} {e e' : Emission} {s : SymbolId} {slot : Slot}

/-- `e.Places s slot`: the symbol has the slot for good. One of another function has been taken
over. -/
inductive Places (e : Emission) (s : SymbolId) : Slot → Prop where
  | inFrame {l} : e.frames.current.get? s = some l → Places e s ⟨.localSlot, l.index⟩
  | taken {index} : e.frames.current.get? s = none →
      FrameStack.held? s e.frames.current e.frames.enclosing = some index →
      Places e s ⟨.free, index⟩
  | global {index} : (∀ f ∈ e.frames.toList, f.get? s = none) →
      e.globals.get? s = some index → Places e s ⟨.global, index⟩

/-- A symbol that was resolved has its slot. -/
theorem places_of_resolve (run : Emit.resolve symbols s e = .ok (slot, e')) : e'.Places s slot := by
  unfold Emit.resolve FrameStack.resolve at run
  cases known : e.frames.current.get? s with
  | some =>
    simp only [known] at run
    cases run
    exact .inFrame known
  | none =>
    simp only [known] at run
    rcases FrameStack.takeOverFrom_cases s e.frames.current e.frames.enclosing with
      ⟨index, frames, taken, rel⟩ | ⟨taken, unknown⟩ | taken
    · rw [taken] at run
      cases run
      refine .taken ?_ rel.held?_eq
      cases rel.extends with
      | cons here => exact (here.get?_eq_none_iff s).mpr known
    · simp only [taken, Except.map, bind, Except.bind] at run
      cases global : e.globals.get? s with
      | some =>
        rw [global] at run
        cases run
        exact .global (List.forall_mem_cons.mpr ⟨known, unknown⟩) global
      | none =>
        rw [global] at run
        cases run
    · rw [taken] at run
      cases run

/-- A symbol that has a slot is found there again. -/
theorem Places.resolve (places : e.Places s slot) (symbols : SymbolTable) :
    ∃ e', Emit.resolve symbols s e = .ok (slot, e') := by
  unfold Emit.resolve FrameStack.resolve
  cases places with
  | inFrame known =>
    rw [known]
    exact ⟨_, rfl⟩
  | taken unknown held =>
    obtain ⟨frames, taken⟩ := FrameStack.takeOverFrom_of_held? held
    rw [unknown, taken]
    exact ⟨_, rfl⟩
  | global unknown known =>
    obtain ⟨here, around⟩ := List.forall_mem_cons.mp unknown
    rw [here, FrameStack.takeOverFrom_of_unknown around, known]
    exact ⟨_, rfl⟩

theorem Places.of_extends (places : e.Places s slot)
    (frames : List.Forall₂ Frame.Extends e.frames.toList e'.frames.toList)
    (globals : e'.globals = e.globals) : e'.Places s slot := by
  obtain ⟨here, _⟩ := List.forall₂_cons.mp frames
  cases places with
  | inFrame known =>
    obtain ⟨l', known', same⟩ := here.get?_eq_some known
    exact same ▸ .inFrame known'
  | taken unknown held =>
    exact .taken ((here.get?_eq_none_iff s).mpr unknown) (FrameStack.held?_extends frames held)
  | global unknown known =>
    exact .global (FrameStack.forall_get?_eq_none_of_extends frames unknown) (globals ▸ known)

/-- Writing an expression moves no symbol. -/
theorem Places.expands (places : e.Places s slot) (run : Expands symbols e e') :
    e'.Places s slot := by
  refine run.preserves (P := fun a => a.Places s slot) ?_ places
  rintro a b (⟨_, added⟩ | found) places
  · obtain ⟨_, _, _, _, rfl⟩ := Emit.constant_eq_ok added
    exact places.of_extends (List.forall₂_same.mpr fun f _ => .refl f) rfl
  · rcases Emit.resolve_eq_ok found with ⟨_, _, _, rfl⟩ | ⟨_, _, rel, _, rfl⟩ | ⟨_, _, rfl⟩
    · exact places
    · exact places.of_extends rel.extends rfl
    · exact places

def PlacesAll (e : Emission) (known : List SymbolId) : Prop := ∀ s ∈ known, ∃ slot, e.Places s slot

theorem PlacesAll.expands {known : List SymbolId} (places : e.PlacesAll known)
    (run : Expands symbols e e') : e'.PlacesAll known := fun s mem => by
  obtain ⟨slot, place⟩ := places s mem
  exact ⟨slot, place.expands run⟩

theorem PlacesAll.append {known more : List SymbolId} (first : e.PlacesAll known)
    (second : e.PlacesAll more) : e.PlacesAll (known ++ more) :=
  List.forall_mem_append.mpr ⟨first, second⟩

def cell? (symbols : SymbolTable) (e : Emission) (s : SymbolId) : Option Slot :=
  (Emit.resolve symbols s e).toOption.map Prod.fst

/-- The cell of a symbol is in the slot that it has. -/
theorem Places.cell?_eq (places : e.Places s slot) (symbols : SymbolTable) :
    e.cell? symbols s = some slot := by
  obtain ⟨e', run⟩ := places.resolve symbols
  rw [cell?, run]
  rfl

/-- Code refers to the slots in which symbols are found after it was written, and to the constants
of every pool that keeps what was there then. -/
theorem refers_of_cell? {image : Image} (fits : image.constants.Fits)
    (kept : e'.constants.toList <+: image.constants.toList) :
    Refers symbols image (e'.cell? symbols) e e' where
  slot _ found after := ((places_of_resolve found).expands after).cell?_eq symbols
  constant _ added after := after.get?_constant added fits kept

end Emission

end Bindery

namespace Bindery.Bound

open Emit (Code)
open Machine (Cells Image Reaches Values)
open Storage (Slot)

variable {symbols : SymbolTable}

mutual

/-- Every symbol of an expression that is written has a slot. -/
theorem Expression.Writes.placesAll {x : Expression} {chain e e' codes} :
    x.Writes symbols chain e codes e' → e'.PlacesAll x.mentions
  | .literal _ => fun _ mem => absurd mem List.not_mem_nil
  | .reference run => List.forall_mem_singleton.mpr ⟨_, Emission.places_of_resolve run⟩
  | .assignment value run =>
    List.forall_mem_cons.mpr ⟨⟨_, Emission.places_of_resolve run⟩,
      value.placesAll.expands (.resolve run)⟩
  | .apply _ left right | .testOperands _ left right | .test _ _ left right _ =>
    (left.placesAll.expands right.expands).append right.placesAll
  | .concatOperands _ right left | .concat _ _ right left _ =>
    left.placesAll.append (right.placesAll.expands left.expands)
  | .unary operand => operand.placesAll
  | .parenthesized inner => inner.placesAll
  | .call arguments target => target.placesAll.append (arguments.placesAll.expands target.expands)
  | .ternary condition yes _ no _ =>
    ((condition.placesAll.expands yes.expands).append yes.placesAll).expands no.expands
      |>.append no.placesAll

theorem WritesArguments.placesAll {arguments e e' code} :
    WritesArguments symbols arguments e code e' → e'.PlacesAll (mentionsOfArguments arguments)
  | .nil => fun _ mem => absurd mem List.not_mem_nil
  | .cons first others => (first.placesAll.expands others.expands).append others.placesAll

end

end Bindery.Bound

namespace Bindery.Machine

open Storage (Slot)

/-! ### Cells that change -/

/-- `cells.Changes written cells'`: no cell has changed but those that were written, and none has
lost its value. -/
structure Cells.Changes {V : Type} (written : List Slot) (cells cells' : Cells V) : Prop where
  length_stack : cells'.stack.length = cells.stack.length
  stack : ∀ i, (∀ slot ∈ written, slot.kind = .localSlot → slot.index.toNat ≠ i) →
    cells'.stack.reverse[i]? = cells.stack.reverse[i]?
  free : ∀ i, ⟨.free, i⟩ ∉ written → cells'.free i = cells.free i
  globals : ∀ i, ⟨.global, i⟩ ∉ written → cells'.globals i = cells.globals i
  filled : ∀ slot, (cells.load slot).isSome → (cells'.load slot).isSome

namespace Cells

variable {V : Type} {cells cells' cells'' : Cells V} {written : List Slot} {slot : Slot}

theorem Changes.refl (cells : Cells V) (written : List Slot) : cells.Changes written cells :=
  ⟨rfl, fun _ _ => rfl, fun _ _ => rfl, fun _ _ => rfl, fun _ => id⟩

/-- One evaluation after the other. -/
theorem Changes.trans (first : cells.Changes written cells')
    (second : cells'.Changes written cells'') : cells.Changes written cells'' where
  length_stack := second.length_stack.trans first.length_stack
  stack i other := (second.stack i other).trans (first.stack i other)
  free i other := (second.free i other).trans (first.free i other)
  globals i other := (second.globals i other).trans (first.globals i other)
  filled slot held := second.filled slot (first.filled slot held)

theorem isSome_load_localSlot {index : UInt16} :
    (cells.load ⟨.localSlot, index⟩).isSome ↔ index.toNat < cells.stack.length := by
  simp [load]

/-- A slot that holds a value can be written. -/
theorem exists_store (held : (cells.load slot).isSome) (v : V) :
    ∃ cells', cells.store slot v = some cells' := by
  obtain ⟨kind, index⟩ := slot
  cases kind with
  | localSlot => exact ⟨_, if_pos (isSome_load_localSlot.mp held)⟩
  | free | global => exact ⟨_, rfl⟩

theorem isSome_update {f : UInt16 → Option V} {i : UInt16} (held : (f i).isSome) (index : UInt16)
    (v : V) : (Function.update f index (some v) i).isSome := by
  rw [Function.update_apply]
  split
  · rfl
  · exact held

/-- Storing changes the slot alone. -/
theorem changes_store {v : V} (run : cells.store slot v = some cells') (mem : slot ∈ written) :
    cells.Changes written cells' := by
  obtain ⟨kind, index⟩ := slot
  cases kind with
  | localSlot =>
    simp only [store] at run
    split at run
    · cases run
      refine ⟨by simp, fun i other => ?_, fun _ _ => rfl, fun _ _ => rfl, ?_⟩
      · rw [List.reverse_reverse, List.getElem?_set_ne (other _ mem rfl)]
      · rintro ⟨kind, i⟩ held
        cases kind with
        | localSlot =>
          rw [isSome_load_localSlot] at held ⊢
          simpa using held
        | free | global => exact held
    · cases run
  | free =>
    cases run
    refine ⟨rfl, fun _ _ => rfl, fun i other => ?_, fun _ _ => rfl, ?_⟩
    · refine Function.update_of_ne ?_ _ _
      rintro rfl
      exact other mem
    · rintro ⟨kind, i⟩ held
      cases kind with
      | free => exact isSome_update held index v
      | localSlot | global => exact held
  | global =>
    cases run
    refine ⟨rfl, fun _ _ => rfl, fun _ _ => rfl, fun i other => ?_, ?_⟩
    · refine Function.update_of_ne ?_ _ _
      rintro rfl
      exact other mem
    · rintro ⟨kind, i⟩ held
      cases kind with
      | global => exact isSome_update held index v
      | localSlot | free => exact held

end Cells

end Bindery.Machine

namespace Bindery.Bound

open Emit (Code)
open Machine (Cells Image Reaches Values)
open Storage (Slot)

/-! ### Evaluation in cells -/

/-- The expression has no calls, and all of it has a meaning. -/
def Expression.evaluable : Expression → Bool
  | .literal _ _ | .reference _ _ _ => true
  | .assignment _ value .. => value.evaluable
  | .binary _ left right .. => left.evaluable && right.evaluable
  | .unary _ operand .. => operand.evaluable
  | .parenthesized inner _ => inner.evaluable
  | .ternary condition yes no .. => condition.evaluable && yes.evaluable && no.evaluable
  | .call _ _ _ _ | .error _ => false

mutual

def Expression.assigned : Expression → List SymbolId
  | .literal _ _ | .reference _ _ _ | .error _ => []
  | .assignment s value .. => s :: value.assigned
  | .binary _ left right .. => left.assigned ++ right.assigned
  | .unary _ operand .. => operand.assigned
  | .parenthesized inner _ => inner.assigned
  | .call target arguments .. => target.assigned ++ assignedInArguments arguments
  | .ternary condition yes no .. => condition.assigned ++ yes.assigned ++ no.assigned

def assignedInArguments : List Expression → List SymbolId
  | [] => []
  | x :: rest => x.assigned ++ assignedInArguments rest

end

variable {V : Type} {slots : SymbolId → Option Slot} {cells cells' : Cells V} {written : List Slot}
    {known : List SymbolId}

def Filled (slots : SymbolId → Option Slot) (known : List SymbolId) (cells : Cells V) : Prop :=
  ∀ s ∈ known, ∃ slot, slots s = some slot ∧ (cells.load slot).isSome

/-- Cells that hold a value go on to hold one. -/
theorem Filled.changed (filled : Filled slots known cells)
    (changes : cells.Changes written cells') : Filled slots known cells' := fun s mem => by
  obtain ⟨slot, place, held⟩ := filled s mem
  exact ⟨slot, place, changes.filled slot held⟩

/-- Where the cells of its symbols hold values, an expression has a value, and only the cells of
the symbols that it assigns to change. -/
theorem Expression.exists_evaluate (ops : Values V) :
    ∀ (x : Expression) {cells : Cells V}, x.evaluable = true → Filled slots x.mentions cells →
      -- The list of slots stays the same for all parts, so that their changes add up.
      (∀ s ∈ x.assigned, ∀ slot, slots s = some slot → slot ∈ written) →
      ∃ v cells', x.evaluate ops (.cells slots) cells = some (v, cells') ∧
        cells.Changes written cells'
  | .literal .., cells, _, _, _ => ⟨_, _, rfl, .refl cells written⟩
  | .reference s .., cells, _, filled, _ => by
    obtain ⟨slot, place, held⟩ := filled s List.mem_cons_self
    obtain ⟨v, here⟩ := Option.isSome_iff_exists.mp held
    exact ⟨v, cells, by simp [Expression.evaluate, Memory.cells, place, here], .refl ..⟩
  | .assignment s value .., cells, plain, filled, inside => by
    obtain ⟨target, rest⟩ := List.forall_mem_cons.mp filled
    obtain ⟨listed, others⟩ := List.forall_mem_cons.mp inside
    obtain ⟨v, cells₁, computed, changes⟩ := exists_evaluate ops value plain rest others
    obtain ⟨slot, place, held⟩ := target
    obtain ⟨cells₂, stored⟩ := Machine.Cells.exists_store (changes.filled slot held) v
    refine ⟨v, cells₂, ?_, changes.trans (Machine.Cells.changes_store stored (listed slot place))⟩
    have write : (Memory.cells slots).write cells₁ s v = some cells₂ := by
      simp [Memory.cells, place, stored]
    simp [Expression.evaluate, computed, write]
  | .binary op left right .., _, plain, filled, inside => by
    obtain ⟨plainLeft, plainRight⟩ := Bool.and_eq_true_iff.mp plain
    obtain ⟨filledLeft, filledRight⟩ := List.forall_mem_append.mp filled
    obtain ⟨insideLeft, insideRight⟩ := List.forall_mem_append.mp inside
    cases lowered : op.lowering with
    | apply =>
      obtain ⟨a, cells₁, first, one⟩ := exists_evaluate ops left plainLeft filledLeft insideLeft
      obtain ⟨b, cells₂, second, two⟩ :=
        exists_evaluate ops right plainRight (Filled.changed filledRight one) insideRight
      exact ⟨op.evaluate ops a b, cells₂, by simp [evaluate_apply lowered, first, second],
        one.trans two⟩
    | test value =>
      obtain ⟨a, cells₁, first, one⟩ := exists_evaluate ops left plainLeft filledLeft insideLeft
      by_cases found : ops.isTrue a = value
      · exact ⟨a, cells₁, by simp [evaluate_test lowered, first, found], one⟩
      · obtain ⟨b, cells₂, second, two⟩ :=
          exists_evaluate ops right plainRight (Filled.changed filledRight one) insideRight
        exact ⟨b, cells₂, by simp [evaluate_test lowered, first, found, second], one.trans two⟩
    | concat =>
      obtain rfl := eq_concat lowered
      obtain ⟨b, cells₁, first, one⟩ := exists_evaluate ops right plainRight filledRight insideRight
      obtain ⟨a, cells₂, second, two⟩ :=
        exists_evaluate ops left plainLeft (Filled.changed filledLeft one) insideLeft
      exact ⟨ops.concat a b, cells₂, by simp [Expression.evaluate, first, second], one.trans two⟩
  | .unary op operand .., _, plain, filled, inside => by
    obtain ⟨v, cells₁, computed, changes⟩ := exists_evaluate ops operand plain filled inside
    exact ⟨op.evaluate ops v, cells₁, by simp [Expression.evaluate, computed], changes⟩
  | .parenthesized inner _, _, plain, filled, inside =>
    exists_evaluate ops inner plain filled inside
  | .ternary condition yes no .., _, plain, filled, inside => by
    obtain ⟨plainBoth, plainNo⟩ := Bool.and_eq_true_iff.mp plain
    obtain ⟨plainTest, plainYes⟩ := Bool.and_eq_true_iff.mp plainBoth
    obtain ⟨filledBoth, filledNo⟩ := List.forall_mem_append.mp filled
    obtain ⟨filledTest, filledYes⟩ := List.forall_mem_append.mp filledBoth
    obtain ⟨insideBoth, insideNo⟩ := List.forall_mem_append.mp inside
    obtain ⟨insideTest, insideYes⟩ := List.forall_mem_append.mp insideBoth
    obtain ⟨c, cells₁, tested, one⟩ := exists_evaluate ops condition plainTest filledTest insideTest
    by_cases truth : ops.isTrue c = true
    · obtain ⟨v, cells₂, branch, two⟩ :=
        exists_evaluate ops yes plainYes (Filled.changed filledYes one) insideYes
      exact ⟨v, cells₂, by simp [Expression.evaluate, tested, truth, branch], one.trans two⟩
    · obtain ⟨v, cells₂, branch, two⟩ :=
        exists_evaluate ops no plainNo (Filled.changed filledNo one) insideNo
      exact ⟨v, cells₂, by simp [Expression.evaluate, tested, truth, branch], one.trans two⟩

/-! ### Code between other code -/

/-- The code of an expression can be read wherever it is put. -/
theorem Expression.Writes.laidAt {symbols : SymbolTable} {x : Expression} {e e' : Emission}
    {codes : List Code} (run : x.Writes symbols none e codes e') (before after : List UInt8) :
    Code.LaidAt (before ++ Machine.encodeAll codes.flatten ++ after) before.length
      codes.flatten := by
  intro l mem
  refine Machine.fetch_append_encodeAll (fun i here => ?_) before after mem
  exact (run.wellFormed_flatten.admissible i (List.mem_map_of_mem here)).2

/-- The code of an expression without calls, wherever it stands and whatever lies on the stack and
in the other cells, runs to its end and leaves one value above the stack: the value of the
expression, with the cells as the evaluation leaves them. Each symbol has the cell in which it is
found when the code is complete; a symbol that was taken over before does not move. -/
theorem Expression.emit_runs (ops : Values V) {symbols : SymbolTable} {x : Expression}
    (plain : x.evaluable = true) {e e' : Emission} {code : Code}
    (run : x.emit symbols e = .ok (code, e')) {image : Image} {before after : List UInt8}
    (placed : image.code = before ++ Machine.encodeAll code ++ after) (fits : image.constants.Fits)
    (kept : e'.constants.toList <+: image.constants.toList) (cells : Cells V) (printed : List V)
    (filled : ∀ s ∈ x.mentions, ∀ slot, e'.cell? symbols s = some slot →
      (cells.load slot).isSome) :
    (∀ s ∈ x.mentions, ∃ slot, e'.cell? symbols s = some slot) ∧
    ∃ v cells', x.evaluate ops (.cells (e'.cell? symbols)) cells = some (v, cells') ∧
      Reaches ops image ⟨before.length, cells, printed⟩
        ⟨(before ++ Machine.encodeAll code).length, cells'.push [v], printed⟩ ∧
      cells.Changes (x.assigned.filterMap (e'.cell? symbols)) cells' := by
  obtain ⟨codes, rfl, written⟩ := Expression.writes_of_emit run
  have found : ∀ s ∈ x.mentions, ∃ slot, e'.cell? symbols s = some slot := fun s mem => by
    obtain ⟨slot, places⟩ := written.placesAll s mem
    exact ⟨slot, places.cell?_eq symbols⟩
  have held : Filled (e'.cell? symbols) x.mentions cells := fun s mem => by
    obtain ⟨slot, place⟩ := found s mem
    exact ⟨slot, place, filled s mem slot place⟩
  obtain ⟨v, cells', value, changes⟩ := x.exists_evaluate ops plain held
    fun s mem slot place => List.mem_filterMap.mpr ⟨s, mem, place⟩
  refine ⟨found, v, cells', value, ?_, changes⟩
  -- The slots of `e` would not do: a symbol that is not taken over yet has no index of its own.
  have laid := written.laidAt before after
  rw [← placed] at laid
  have computes : Code.Computes ops image codes.flatten
      (x.evaluate ops (.cells (e'.cell? symbols))) :=
    written.computes (Emission.refers_of_cell? fits kept)
  refine (computes laid value [] printed).at ?_
  rw [List.length_append, Machine.length_encodeAll]
  rfl

/-- Inside a function: symbol 0 is global, 1 and 3 are locals of the function around, and 2 is a
local. -/
def innerFunction : Emission where
  constants := ∅
  globals := ⟨(Numbering.empty.intern 0).2⟩
  frames := ⟨⟨[Storage.Block.empty.put 2 ⟨0, false⟩], ∅⟩,
    [⟨[(Storage.Block.empty.put 1 ⟨0, false⟩).put 3 ⟨1, false⟩], ∅⟩]⟩

/-- `g = a && (p = q) ? p + ((a = "b") + a) : 'c'`, which takes `q` over before `p`. -/
def assigningExpression : Expression :=
  let use (s : SymbolId) : Expression := .reference s .string default
  let assign (s : SymbolId) (value : Expression) : Expression := .assignment s value .string default
  let join (left right : Expression) : Expression := .binary .concat left right .string default
  assign 0 (.ternary
    (.binary .logicalAnd (use 2) (.parenthesized (assign 1 (use 3)) default) .boolean default)
    (join (use 1)
      (.parenthesized (join (assign 2 (.literal (.string "b") default)) (use 2)) default))
    (.literal (.char 'c') default) .string default)

def givenCells : Cells (List Machine.Constant) where
  stack := [[.string "a"]]
  free _ := some [.int 7]
  globals _ := some []

theorem assigningExpression_runs :
    ∃ code e', ∃ cells' : Cells (List Machine.Constant),
      assigningExpression.emit ∅ innerFunction = .ok (code, e') ∧
      Reaches recorded ⟨e'.constants, 1, [0] ++ Machine.encodeAll code ++ [0]⟩ ⟨1, givenCells, []⟩
        ⟨([0] ++ Machine.encodeAll code).length,
          cells'.push [[.int 7, .string "b", .string "a"]], []⟩ ∧
      cells'.stack = [[.string "b"]] ∧ cells'.free 1 = some [.int 7] ∧
      cells'.globals 0 = some [.int 7, .string "b", .string "a"] := by
  have filled : (assigningExpression.emit ∅ innerFunction).toOption.map (fun w =>
      assigningExpression.mentions.all fun s => ((w.2.cell? ∅ s).bind givenCells.load).isSome) =
      some true := by
    decide +kernel
  have values : (assigningExpression.emit ∅ innerFunction).toOption.bind (fun w =>
      (assigningExpression.evaluate recorded (.cells (w.2.cell? ∅)) givenCells).map
        fun r => (r.1, r.2.stack, r.2.free 1, r.2.globals 0)) =
      some ([.int 7, .string "b", .string "a"], [[.string "b"]], some [.int 7],
        some [.int 7, .string "b", .string "a"]) := by
    decide +kernel
  have pool : (assigningExpression.emit ∅ innerFunction).toOption.map (·.2.constants) =
      some (Machine.ConstantPool.addAll ∅ [.string "b", .int 99]) := by
    decide +kernel
  obtain ⟨⟨code, e'⟩, run, pool⟩ := ok_of_toOption_map pool
  rw [run] at filled values
  have fits : e'.constants.Fits := (Machine.ConstantPool.exists_addAll_iff _).mp ⟨_, pool⟩
  have held : ∀ s ∈ assigningExpression.mentions, ∀ slot, e'.cell? ∅ s = some slot →
      (givenCells.load slot).isSome := fun s mem slot place => by
    have here := List.all_eq_true.mp (Option.some.inj filled) s mem
    rwa [place] at here
  have placed : Image.code ⟨e'.constants, 1, [0] ++ Machine.encodeAll code ++ [0]⟩ =
      [0] ++ Machine.encodeAll code ++ [0] := rfl
  obtain ⟨_, v, cells', value, runs, _⟩ := Expression.emit_runs recorded (by decide) run
    placed fits List.prefix_rfl givenCells [] held
  simp only [Except.toOption, Option.bind_some, value, Option.map_some, Option.some.injEq,
    Prod.mk.injEq] at values
  obtain ⟨rfl, stack, free, globals⟩ := values
  exact ⟨code, e', cells', run, runs, stack, free, globals⟩

end Bindery.Bound
