import Bindery.Proofs.Captures
import Mathlib.Data.List.Infix
import Mathlib.Data.List.Perm.Basic

/-!
Locals are stacked.

In every session the locals of a function are the variables of its roster, block by block in the
order of their declaration, and their slots are those from 0 on (`Frame.Stacked`). So a block that
is left frees the highest slots. A roster `Grows` while its blocks stay open: what was in them is
still there, and all else has come later. Hence the locals above the number of locals of an earlier
moment are those that have come since (`Session.Resumes.localsFrom_eq`). `Session.locals_stacked`
puts this together.
-/

namespace Bindery.Storage

/-! ### Locals in order -/

/-- The locals of a function from the outermost block on, each block in the order of
declaration. -/
def Frame.locals (f : Frame) : List Local := f.blocks.reverse.flatMap Block.toList

/-- Locals that fill the slots from `base` on are turned around. -/
theorem Local.highestFirst_eq_reverse {locals : List Local} {base n : Nat}
    (slots : locals.map (·.index.toNat) = List.range' base n) :
    Local.highestFirst locals = locals.reverse := by
  have descending : ∀ l : List Local, l.map (·.index.toNat) = (List.range' base n).reverse →
      l.Pairwise fun a b => b.index.toNat ≤ a.index.toNat := by
    intro l down
    have numbers : (l.map (·.index.toNat)).Pairwise fun a b => b ≤ a := by
      rw [down, List.pairwise_reverse]
      exact (List.pairwise_lt_range' ..).imp Nat.le_of_lt
    exact List.pairwise_map.mp numbers
  have distinct : (locals.map (·.index.toNat)).Nodup := slots ▸ List.nodup_range' ..
  refine List.Perm.eq_of_pairwise (fun a b first second le ge => ?_)
    (descending _ (Local.index_highestFirst slots))
    (descending _ (by rw [List.map_reverse, slots]))
    ((List.mergeSort_perm ..).trans (List.reverse_perm _).symm)
  exact List.inj_on_of_nodup_map distinct (List.mem_mergeSort.mp first)
    (List.mem_reverse.mp second) (Nat.le_antisymm ge le)

namespace Frame

variable {f : Frame}

/-- The slots of a dense frame are those from 0 on. -/
theorem Dense.slots_locals (dense : f.Dense) :
    f.locals.map (·.index.toNat) = List.range f.size := by
  rw [List.range_eq_range']
  exact DenseBlocks.slots_eq dense

theorem Dense.length_locals (dense : f.Dense) : f.locals.length = f.size := by
  rw [← List.length_map, dense.slots_locals, List.length_range]

/-- The locals in slot `base` and above are all but the first `base`. -/
theorem Dense.localsFrom_eq (dense : f.Dense) {base : Nat} (below : base ≤ f.size) :
    f.localsFrom base = (f.locals.drop base).reverse := by
  have lower : (f.locals.take base).filter (fun l => decide (base ≤ l.index.toNat)) = [] := by
    rw [List.filter_eq_nil_iff]
    intro l mem
    have slot : l.index.toNat ∈ (List.range f.size).take base := by
      rw [← dense.slots_locals, ← List.map_take]
      exact List.mem_map_of_mem mem
    rw [List.take_range, List.mem_range] at slot
    simp only [decide_eq_true_eq]
    omega
  have slots : (f.locals.drop base).map (·.index.toNat) = List.range' base (f.size - base) := by
    rw [List.map_drop, dense.slots_locals, List.range_eq_range', List.drop_range', Nat.zero_add]
    simp
  have upper : (f.locals.drop base).filter (fun l => decide (base ≤ l.index.toNat)) =
      f.locals.drop base := by
    rw [List.filter_eq_self]
    intro l mem
    have slot : l.index.toNat ∈ List.range' base (f.size - base) :=
      slots ▸ List.mem_map_of_mem mem
    exact decide_eq_true (List.mem_range'_1.mp slot).1
  have kept : f.locals.filter (fun l => decide (base ≤ l.index.toNat)) = f.locals.drop base := by
    rw [← List.take_append_drop base f.locals, List.filter_append, lower, upper, List.nil_append,
      List.take_append_drop]
  change Local.highestFirst (f.locals.filter fun l => decide (base ≤ l.index.toNat)) = _
  rw [kept, Local.highestFirst_eq_reverse slots]

/-- The locals of an outer block lie below those of an inner one. -/
theorem Dense.nested (dense : f.Dense) : f.blocks.Pairwise fun inner outer =>
    ∀ l ∈ inner.toList, ∀ m ∈ outer.toList, m.index < l.index := by
  have blocks : ∀ {bs : List Block}, DenseBlocks bs → bs.Pairwise fun inner outer =>
      ∀ l ∈ inner.toList, ∀ m ∈ outer.toList, m.index < l.index := by
    intro bs dense
    induction bs with
    | nil => exact .nil
    | cons _ _ ih =>
      refine .cons (fun b' mem l here m there => ?_) (ih dense.2)
      obtain ⟨s, known⟩ := Block.exists_of_mem_toList here
      obtain ⟨t, known'⟩ := Block.exists_of_mem_toList there
      have above := (dense.range_of_get? known).1
      have below := DenseBlocks.index_lt_of_mem dense.2 mem known'
      exact UInt16.lt_iff_toNat_lt.mpr (Nat.lt_of_lt_of_le below above)
  exact blocks dense

end Frame

/-- A block that is left takes its locals with it, and gives them back from the highest slot
down. -/
theorem FrameStack.locals_popBlock {fs : FrameStack} (dense : fs.current.Dense) :
    fs.current.locals = fs.popBlock.2.current.locals ++ fs.popBlock.1.reverse := by
  obtain ⟨⟨blocks, free⟩, enclosing⟩ := fs
  cases blocks with
  | nil => rfl
  | cons b =>
    have turned : Local.highestFirst b.toList = b.toList.reverse :=
      Local.highestFirst_eq_reverse (b.map_toList.trans dense.1)
    simp [Frame.locals, popBlock, turned]

/-! ### Locals and variables -/

theorem Roster.find?_eq_none_iff (r : Roster) (s : SymbolId) :
    r.find? s = none ↔ ∀ v ∈ r.flatten, v.symbol ≠ s := by
  simp only [find?, List.findSome?_eq_none_iff, List.find?_eq_none, decide_eq_true_eq,
    List.mem_flatten]
  exact ⟨fun absent v ⟨block, mem, inside⟩ => absent block mem v inside,
    fun absent block mem v inside => absent v ⟨block, mem, inside⟩⟩

def Roster.symbols (r : Roster) : List (List SymbolId) :=
  r.map fun block => (block.map Variable.symbol).reverse

/-- Each symbol of the block stands for a local. -/
theorem Block.map_some_toList (b : Block) : b.toList.map some = b.symbols.map b.get? := by
  have each : ∀ symbols : List SymbolId, (∀ s ∈ symbols, s ∈ b.symbols) →
      (symbols.filterMap b.get?).map some = symbols.map b.get? := by
    intro symbols members
    induction symbols with
    | nil => rfl
    | cons _ _ ih =>
      obtain ⟨here, further⟩ := List.forall_mem_cons.mp members
      obtain ⟨l, known⟩ := exists_get? here
      rw [List.filterMap_cons_some known, List.map_cons, List.map_cons, ih further, known]
  exact each b.symbols fun _ mem => mem

namespace Frame

/-- The locals of a function are the variables of a roster, of which there are different symbols
and which are among the first `made` ones. -/
structure Tracks (made : Nat) (f : Frame) (r : Roster) : Prop where
  dense : f.Dense
  symbols : f.symbols = r.symbols
  distinct : (r.flatten.map Variable.symbol).Nodup
  serials : ∀ v ∈ r.flatten, v.serial < made

namespace Tracks

variable {made : Nat} {f f' : Frame} {r : Roster}

theorem empty (made : Nat) : Tracks made .empty [] :=
  ⟨trivial, rfl, List.nodup_nil, fun _ mem => absurd mem List.not_mem_nil⟩

theorem mono (tracks : f.Tracks made r) {made' : Nat} (le : made ≤ made') : f.Tracks made' r :=
  { tracks with serials := fun v mem => Nat.lt_of_lt_of_le (tracks.serials v mem) le }

/-- Only the symbols matter. -/
theorem of_symbols (tracks : f.Tracks made r) (dense : f'.Dense) (same : f'.symbols = f.symbols) :
    f'.Tracks made r :=
  { tracks with dense, symbols := same.trans tracks.symbols }

theorem pushBlock (tracks : f.Tracks made r) :
    Tracks made { f with blocks := .empty :: f.blocks } ([] :: r) where
  dense := ⟨rfl, tracks.dense⟩
  symbols := congrArg ([] :: ·) tracks.symbols
  distinct := tracks.distinct
  serials := tracks.serials

theorem popBlock (tracks : f.Tracks made r) :
    Tracks made { f with blocks := f.blocks.tail } r.tail := by
  obtain ⟨dense, symbols, distinct, serials⟩ := tracks
  obtain ⟨blocks, free⟩ := f
  cases r with
  | nil =>
    obtain rfl : blocks = [] := List.map_eq_nil_iff.mp symbols
    exact (empty made).of_symbols trivial rfl
  | cons =>
    cases blocks with
    | nil => cases symbols
    | cons =>
      rw [List.flatten_cons] at distinct serials
      rw [List.map_append] at distinct
      exact ⟨dense.2, (List.cons.inj symbols).2, (List.nodup_append.mp distinct).2.1,
        fun v mem => serials v (List.mem_append_right _ mem)⟩

theorem put (tracks : f.Tracks made r) {s : SymbolId} (slot : Nat) (fresh : r.find? s = none)
    (run : f.put s = .ok f') : f'.Tracks (made + 1) (r.push ⟨s, slot, made⟩) := by
  have absent := (r.find?_eq_none_iff s).mp fresh
  have unknown : ∀ block ∈ f.symbols, s ∉ block := by
    rw [tracks.symbols]
    intro block mem inside
    obtain ⟨vs, member, rfl⟩ := List.mem_map.mp mem
    obtain ⟨v, here, same⟩ := List.mem_map.mp (List.mem_reverse.mp inside)
    exact absent v (List.mem_flatten.mpr ⟨vs, member, here⟩) same
  refine ⟨tracks.dense.put unknown run, ?_, ?_, ?_⟩
  · rw [symbols_put run]
    rw [tracks.symbols] at unknown ⊢
    cases r with
    | nil => rfl
    | cons =>
      rw [Roster.symbols, List.map_cons, List.headD_cons, List.tail_cons,
        enlist_of_not_mem (unknown _ List.mem_cons_self)]
      simp [Roster.symbols, Roster.push]
  · rw [Roster.flatten_push, List.map_cons, List.nodup_cons]
    refine ⟨fun mem => ?_, tracks.distinct⟩
    obtain ⟨v, here, same⟩ := List.mem_map.mp mem
    exact absent v here same
  · intro v mem
    rw [Roster.flatten_push] at mem
    rcases List.mem_cons.mp mem with rfl | older
    · exact Nat.lt_succ_self _
    · exact Nat.lt_succ_of_lt (tracks.serials v older)

/-- A symbol of a block is found there and nowhere else. -/
theorem get?_eq (tracks : f.Tracks made r) {b : Block} {s : SymbolId} (mem : b ∈ f.blocks)
    (inside : s ∈ b.symbols) : f.get? s = b.get? s := by
  have distinct : f.symbols.flatten.Nodup := by
    have perm : r.symbols.flatten.Perm (r.flatten.map Variable.symbol) := by
      rw [Roster.symbols, List.map_flatten, ← List.flatMap_def, ← List.flatMap_def]
      exact .flatMap_left _ fun _ _ => List.reverse_perm _
    rw [tracks.symbols]
    exact perm.nodup_iff.mpr tracks.distinct
  have blocks : ∀ bs : List Block, (bs.map Block.symbols).flatten.Nodup → b ∈ bs →
      bs.findSome? (·.get? s) = b.get? s := by
    intro bs distinct mem
    induction bs with
    | nil => cases mem
    | cons first _ ih =>
      rw [List.map_cons, List.flatten_cons, List.nodup_append] at distinct
      obtain ⟨_, rest, apart⟩ := distinct
      rw [List.findSome?_cons]
      rcases List.mem_cons.mp mem with rfl | later
      · obtain ⟨l, known⟩ := Block.exists_get? inside
        rw [known]
      · have elsewhere : s ∉ first.symbols := fun here => apart s here s
          (List.mem_flatten.mpr ⟨_, List.mem_map_of_mem later, inside⟩) rfl
        rw [(first.get?_eq_none_iff s).mpr elsewhere]
        exact ih rest later
  exact blocks f.blocks distinct mem

end Tracks

/-- The locals of a function are the variables of a roster, block by block in the order of
declaration. Their slots are those from 0 on, and the slots of an outer block lie below those of
an inner one. -/
structure Stacked (f : Frame) (r : Roster) : Prop where
  live : List.Forall₂
    (fun b block => b.toList.map some = block.reverse.map fun v => f.get? v.symbol) f.blocks r
  slots : f.locals.map (·.index.toNat) = List.range f.size
  nested : f.blocks.Pairwise fun inner outer =>
    ∀ l ∈ inner.toList, ∀ m ∈ outer.toList, m.index < l.index

variable {made : Nat} {f : Frame} {r : Roster}

theorem Tracks.stacked (tracks : f.Tracks made r) : f.Stacked r where
  slots := tracks.dense.slots_locals
  nested := tracks.dense.nested
  live := by
    have symbols : List.Forall₂ (fun b block => b.symbols = (block.map Variable.symbol).reverse)
        f.blocks r := by
      have same := tracks.symbols
      rw [Frame.symbols, Roster.symbols, ← List.forall₂_eq_eq_eq, List.forall₂_map_left_iff,
        List.forall₂_map_right_iff] at same
      exact same
    refine ((List.forall₂_and_left f.blocks r).mpr ⟨fun b mem => mem, symbols⟩).imp ?_
    rintro b block ⟨mem, same⟩
    have found : b.symbols.map b.get? = b.symbols.map f.get? :=
      List.map_congr_left fun s inside => (tracks.get?_eq mem inside).symm
    rw [b.map_some_toList, found, same, ← List.map_reverse, List.map_map]
    rfl

/-- From the highest slot down, the locals are the variables from the newest on. -/
theorem Stacked.reverse_locals (stacked : f.Stacked r) :
    f.locals.reverse.map some = r.flatten.map fun v => f.get? v.symbol := by
  have blocks : ∀ {bs : List Block} {r : Roster} {local? : Variable → Option Local},
      List.Forall₂ (fun b block => b.toList.map some = block.reverse.map local?) bs r →
        (bs.flatMap (List.reverse ∘ Block.toList)).map some = r.flatten.map local? := by
    intro bs r local? live
    induction live with
    | nil => rfl
    | @cons _ _ _ _ here _ ih =>
      rw [List.flatMap_cons, List.map_append, ih, List.flatten_cons, List.map_append,
        Function.comp_apply, List.map_reverse, here, ← List.map_reverse, List.reverse_reverse]
  rw [locals, List.reverse_flatMap, List.reverse_reverse]
  exact blocks stacked.live

end Frame

/-! ### Sessions -/

namespace Session

variable {st mid st' : Session} {floor : Nat}

def Tracked (st : Session) : Prop :=
  List.Forall₂ (Frame.Tracks st.ledger.made) st.frames.toList st.ledger.toList

theorem Tracked.of_symbols {made : Nat} {frames frames' : List Frame} {rosters : List Roster}
    (tracked : List.Forall₂ (Frame.Tracks made) frames rosters)
    (same : frames'.map Frame.symbols = frames.map Frame.symbols)
    (dense : ∀ f ∈ frames', f.Dense) : List.Forall₂ (Frame.Tracks made) frames' rosters := by
  induction tracked generalizing frames' with
  | nil =>
    obtain rfl : frames' = [] := List.map_eq_nil_iff.mp same
    exact .nil
  | cons here _ ih =>
    cases frames' with
    | nil => cases same
    | cons =>
      obtain ⟨first, others⟩ := List.cons.inj same
      obtain ⟨dense, further⟩ := List.forall_mem_cons.mp dense
      exact .cons (here.of_symbols dense first) (ih others further)

theorem tracked_start : start.Tracked := .cons (.empty 0) .nil

/-- A step keeps frames beside their rosters. -/
theorem tracked_step {step : Step} (sound : Sound st.frames.toList st.ledger.toList)
    (tracked : st.Tracked) (run : st.step? floor step = some st') : st'.Tracked := by
  obtain ⟨⟨f, frames⟩, ⟨r, rosters, made⟩⟩ := st
  obtain ⟨current, enclosing⟩ := List.forall₂_cons.mp tracked
  cases step with
  | pushFrame =>
    cases run
    exact .cons (.empty made) tracked
  | popFrame =>
    simp only [step?] at run
    split at run
    · cases run
      cases enclosing with
      | nil => contradiction
      | cons here rest => exact .cons here rest
    · cases run
  | pushBlock =>
    cases run
    exact .cons current.pushBlock enclosing
  | popBlock =>
    cases run
    rw [FrameStack.popBlock_snd]
    exact .cons current.popBlock enclosing
  | put =>
    obtain ⟨fresh, frames', put, rfl⟩ := step?_put_eq_some run
    obtain ⟨f', put', rfl⟩ := FrameStack.put_eq_ok put
    exact .cons (current.put _ fresh put') (enclosing.imp fun _ _ h => h.mono (Nat.le_succ made))
  | resolve =>
    obtain rfl | ⟨index, frames', rfl, rel⟩ := step?_resolve_cases sound run
    · exact tracked
    · have dense := ((List.forall₂_and_left _ _).mp (tracked.imp fun _ _ h => ⟨h.dense, h⟩)).1
      exact Tracked.of_symbols tracked rel.symbols (rel.dense dense)

theorem tracked_run {steps : List Step} (sound : Sound st.frames.toList st.ledger.toList)
    (tracked : st.Tracked) (run : st.run? floor steps = some st') :
    Sound st'.frames.toList st'.ledger.toList ∧ st'.Tracked := by
  induction steps generalizing st with
  | nil =>
    cases run
    exact ⟨sound, tracked⟩
  | cons _ _ ih =>
    obtain ⟨next, first, others⟩ := run?_cons_eq_some.mp run
    exact ih (sound_step sound first) (tracked_step sound tracked first) others

end Session

/-! ### Earlier moments -/

/-- A roster has become another one while its blocks stayed open: blocks have come inside them, and
variables from number `made` on have come into those and into the innermost one. -/
def Roster.Grows (made : Nat) (r r' : Roster) : Prop :=
  ∃ inner newer, r' = inner ++ r.modifyHead (newer ++ ·) ∧
    ∀ v ∈ inner.flatten ++ newer, made ≤ v.serial

namespace Roster.Grows

variable {made : Nat} {r r' : Roster}

theorem refl (made : Nat) (r : Roster) : Grows made r r := by
  refine ⟨[], [], ?_, fun _ mem => absurd mem List.not_mem_nil⟩
  cases r <;> rfl

theorem pushBlock (grows : Grows made r r') : Grows made r ([] :: r') := by
  obtain ⟨inner, newer, rfl, late⟩ := grows
  exact ⟨[] :: inner, newer, rfl, late⟩

theorem popBlock (grows : Grows made r r') (stays : r.length ≤ r'.tail.length) :
    Grows made r r'.tail := by
  obtain ⟨inner, newer, rfl, late⟩ := grows
  cases inner with
  | nil =>
    cases r with
    | nil => exact ⟨[], newer, rfl, late⟩
    | cons => exact absurd stays (by simp)
  | cons _ inner =>
    refine ⟨inner, newer, rfl, fun v mem => late v ?_⟩
    rw [List.flatten_cons, List.append_assoc]
    exact List.mem_append_right _ mem

theorem push (grows : Grows made r r') {v : Variable} (late : made ≤ v.serial) :
    Grows made r (r'.push v) := by
  obtain ⟨inner, newer, rfl, others⟩ := grows
  cases inner with
  | nil =>
    cases r with
    | nil => exact ⟨[[v]], [], rfl, by simpa using late⟩
    | cons => exact ⟨[], v :: newer, rfl, List.forall_mem_cons.mpr ⟨late, others⟩⟩
  | cons block inner =>
    exact ⟨(v :: block) :: inner, newer, rfl, List.forall_mem_cons.mpr ⟨late, others⟩⟩

/-- The variables that have come are in front of those that were there. -/
theorem flatten_eq (grows : Grows made r r') :
    ∃ added, r'.flatten = added ++ r.flatten ∧ ∀ v ∈ added, made ≤ v.serial := by
  obtain ⟨inner, newer, rfl, late⟩ := grows
  cases r with
  | nil =>
    exact ⟨inner.flatten, by simp, fun v mem => late v (List.mem_append_left _ mem)⟩
  | cons => exact ⟨inner.flatten ++ newer, by simp, late⟩

end Roster.Grows

theorem at?_cons_cases {α : Type} {p : Nat} {a b : α} {behind : List α}
    (place : at? p (a :: behind) = some b) :
    (behind.length = p ∧ b = a) ∨ (p < behind.length ∧ at? p behind = some b) := by
  rcases Nat.lt_or_eq_of_le (Nat.le_of_lt_succ (lt_of_at? place)) with lt | rfl
  · exact .inr ⟨lt, at?_cons_of_lt lt ▸ place⟩
  · rw [at?_length] at place
    exact .inl ⟨rfl, (Option.some.inj place).symm⟩

namespace Session

variable {st mid next st' : Session}

/-- What is the current function at one moment is open at another, and so are the blocks that it
had open, if it is the current function again. -/
def KeepsOpen (st mid : Session) : Prop :=
  st.frames.enclosing.length ≤ mid.frames.enclosing.length ∧
    (mid.frames.enclosing.length = st.frames.enclosing.length →
      st.frames.current.blocks.length ≤ mid.frames.current.blocks.length)

instance (st mid : Session) : Decidable (st.KeepsOpen mid) :=
  inferInstanceAs (Decidable (_ ∧ (_ → _)))

/-- Steps lead from one moment to another at which the same function is the current one. At no
moment in between has it been left, nor have the blocks that it had open. -/
structure Resumes (st : Session) (steps : List Step) (st' : Session) : Prop where
  run : st.run? 0 steps = some st'
  stays : ∀ taken ∈ steps.inits, ∀ mid ∈ st.run? 0 taken, st.KeepsOpen mid
  here : st'.frames.enclosing.length = st.frames.enclosing.length

/-- The roster of what was the current function has grown. -/
structure Grown (st mid : Session) : Prop where
  made : st.ledger.made ≤ mid.ledger.made
  roster : ∃ r, at? st.ledger.enclosing.length mid.ledger.toList = some r ∧
    Roster.Grows st.ledger.made st.ledger.current r

theorem Grown.refl (st : Session) : st.Grown st :=
  ⟨Nat.le_refl _, st.ledger.current, at?_length .., .refl ..⟩

/-- Only the current roster changes. -/
theorem Grown.of_current {frames : FrameStack} {current : Roster} {made : Nat}
    (grown : st.Grown mid) (le : mid.ledger.made ≤ made)
    (grows : mid.ledger.enclosing.length = st.ledger.enclosing.length →
      Roster.Grows st.ledger.made st.ledger.current mid.ledger.current →
        Roster.Grows st.ledger.made st.ledger.current current) :
    st.Grown ⟨frames, ⟨current, mid.ledger.enclosing, made⟩⟩ := by
  obtain ⟨before, r, place, grown⟩ := grown
  refine ⟨Nat.le_trans before le, ?_⟩
  rcases at?_cons_cases place with ⟨depth, rfl⟩ | ⟨lt, behind⟩
  · exact ⟨current, depth ▸ at?_length .., grows depth grown⟩
  · exact ⟨r, (at?_cons_of_lt lt).trans behind, grown⟩

/-- The same can be seen from the rosters. -/
theorem KeepsOpen.rosters (keeps : st.KeepsOpen mid)
    (sound : Sound st.frames.toList st.ledger.toList)
    (sound' : Sound mid.frames.toList mid.ledger.toList) :
    st.ledger.enclosing.length ≤ mid.ledger.enclosing.length ∧
      (mid.ledger.enclosing.length = st.ledger.enclosing.length →
        st.ledger.current.length ≤ mid.ledger.current.length) := by
  have depth : st.frames.enclosing.length = st.ledger.enclosing.length :=
    Nat.succ.inj sound.length_eq
  have depth' : mid.frames.enclosing.length = mid.ledger.enclosing.length :=
    Nat.succ.inj sound'.length_eq
  have blocks : st.frames.current.blocks.length = st.ledger.current.length := sound.holds.length_eq
  have blocks' : mid.frames.current.blocks.length = mid.ledger.current.length :=
    sound'.holds.length_eq
  rwa [KeepsOpen, depth, depth', blocks, blocks'] at keeps

/-- A step that keeps old blocks open keeps their variables. -/
theorem grown_step {step : Step} (sound : Sound st.frames.toList st.ledger.toList)
    (sound' : Sound mid.frames.toList mid.ledger.toList) (grown : st.Grown mid)
    (run : mid.step? 0 step = some next) (keeps : st.KeepsOpen next) : st.Grown next := by
  obtain ⟨deep, stays⟩ := keeps.rosters sound (sound_step sound' run)
  cases step with
  | pushFrame =>
    cases run
    obtain ⟨made, r, place, grows⟩ := grown
    exact ⟨made, r, (at?_cons_of_lt (lt_of_at? place)).trans place, grows⟩
  | popFrame =>
    simp only [step?] at run
    split at run
    · cases run
      obtain ⟨⟨f, frames⟩, ⟨r, rosters, made⟩⟩ := mid
      cases rosters with
      | nil =>
        cases sound' with
        | root => contradiction
      | cons _ outer =>
        obtain ⟨before, r', place, grows⟩ := grown
        rcases at?_cons_cases place with ⟨left, _⟩ | ⟨_, behind⟩
        · exact absurd deep (Nat.not_le.mpr (left ▸ Nat.lt_succ_self outer.length))
        · exact ⟨before, r', behind, grows⟩
    · cases run
  | pushBlock =>
    cases run
    exact grown.of_current (Nat.le_refl _) fun _ grows => grows.pushBlock
  | popBlock =>
    cases run
    exact grown.of_current (Nat.le_refl _) fun same grows => grows.popBlock (stays same)
  | put =>
    obtain ⟨fresh, frames', put, rfl⟩ := step?_put_eq_some run
    exact grown.of_current (Nat.le_succ _) fun _ grows => grows.push grown.made
  | resolve =>
    obtain ⟨slot, frames', resolved, rfl⟩ := step?_resolve_eq_some run
    exact ⟨grown.made, grown.roster⟩

theorem grown_run {steps : List Step} (sound : Sound st.frames.toList st.ledger.toList)
    (sound' : Sound mid.frames.toList mid.ledger.toList) (grown : st.Grown mid)
    (run : mid.run? 0 steps = some st')
    (stays : ∀ taken ∈ steps.inits, ∀ next ∈ mid.run? 0 taken, st.KeepsOpen next) :
    st.Grown st' := by
  induction steps generalizing mid with
  | nil =>
    cases run
    exact grown
  | cons step rest ih =>
    obtain ⟨next, first, others⟩ := run?_cons_eq_some.mp run
    have before : ∀ taken ∈ rest.inits, ∀ later ∈ next.run? 0 taken, st.KeepsOpen later := by
      intro taken part later ran
      refine stays (step :: taken) ?_ later (run?_cons_eq_some.mpr ⟨next, first, ran⟩)
      rw [List.mem_inits] at part ⊢
      exact List.cons_prefix_cons.mpr ⟨rfl, part⟩
    have keeps := before [] ((List.mem_inits ..).mpr List.nil_prefix) next rfl
    exact ih (sound_step sound' first) (grown_step sound sound' grown first keeps) others before

/-- The locals above the number of locals of an earlier moment are those of the variables that
have come since, the newest first. -/
theorem Resumes.localsFrom_eq {steps : List Step} (resumes : st.Resumes steps st')
    (sound : Sound st.frames.toList st.ledger.toList) (tracked : st.Tracked) :
    (st'.frames.current.localsFrom st.frames.current.size).map some =
        (st'.ledger.current.flatten.filter fun v => st.ledger.made ≤ v.serial).map
          (fun v => st'.frames.current.get? v.symbol) ∧
      st.frames.current.size ≤ st'.frames.current.size := by
  obtain ⟨sound', tracked'⟩ := tracked_run sound tracked resumes.run
  obtain ⟨_, r, place, grows⟩ :=
    grown_run sound sound (.refl st) resumes.run resumes.stays
  have depth : st'.ledger.enclosing.length = st.ledger.enclosing.length := by
    have lengths := sound.length_eq
    have lengths' := sound'.length_eq
    have here := resumes.here
    simp only [FrameStack.toList, Ledger.toList, List.length_cons] at lengths lengths'
    omega
  obtain rfl : st'.ledger.current = r := by
    rw [← depth] at place
    exact Option.some.inj ((at?_length ..).symm.trans place)
  obtain ⟨added, flatten, late⟩ := grows.flatten_eq
  have old := (List.forall₂_cons.mp tracked).1.serials
  have since : st'.ledger.current.flatten.filter (fun v => decide (st.ledger.made ≤ v.serial)) =
      added := by
    rw [flatten, List.filter_append,
      List.filter_eq_self.mpr fun v mem => decide_eq_true (late v mem),
      List.filter_eq_nil_iff.mpr fun v mem => by simpa using old v mem, List.append_nil]
  have current := (List.forall₂_cons.mp tracked').1
  have size : st'.frames.current.size = added.length + st.frames.current.size := by
    rw [sound'.holds.size_eq, flatten, List.length_append, ← sound.holds.size_eq]
  have below : st.frames.current.size ≤ st'.frames.current.size := by omega
  refine ⟨?_, below⟩
  have front : (st'.frames.current.locals.drop st.frames.current.size).reverse =
      st'.frames.current.locals.reverse.take added.length := by
    rw [List.reverse_drop, current.dense.length_locals, size, Nat.add_sub_cancel]
  rw [current.dense.localsFrom_eq below, front, List.map_take, current.stacked.reverse_locals,
    since, flatten, List.map_append, List.take_left' (List.length_map _)]

/-- After any steps, the locals of every function that is open are its live variables, block by
block in the order of declaration. Their slots are those from 0 on, each taken once, and those of
an outer block lie below those of an inner one. Leaving a block gives back the locals that go,
which have the slots from the highest one down without gaps. The locals in the slots from the
number of locals of an earlier moment on, if the blocks of that moment have stayed open, are those
of the variables that have come into the function since and are still live, the highest slot
first. -/
theorem locals_stacked {steps : List Step} (run : start.run? 0 steps = some st) :
    List.Forall₂ Frame.Stacked st.frames.toList st.ledger.toList ∧
    (st.frames.current.locals =
        st.frames.popBlock.2.current.locals ++ st.frames.popBlock.1.reverse ∧
      st.frames.current.size = st.frames.popBlock.2.current.size + st.frames.popBlock.1.length ∧
      st.frames.popBlock.1.map (·.index.toNat) =
        (List.range' st.frames.popBlock.2.current.size st.frames.popBlock.1.length).reverse) ∧
    ∀ more st', st.Resumes more st' →
      (st'.frames.current.localsFrom st.frames.current.size).map some =
        (st'.ledger.current.flatten.filter fun v => st.ledger.made ≤ v.serial).map
          (fun v => st'.frames.current.get? v.symbol) ∧
      (st'.frames.current.localsFrom st.frames.current.size).map (·.index.toNat) =
        (List.range' st.frames.current.size
          (st'.frames.current.size - st.frames.current.size)).reverse := by
  obtain ⟨sound, tracked⟩ := tracked_run sound_start tracked_start run
  have current := (List.forall₂_cons.mp tracked).1
  have popped := FrameStack.locals_popBlock current.dense
  refine ⟨tracked.imp fun _ _ h => h.stacked, ⟨popped, ?_, FrameStack.index_popBlock current.dense⟩,
    fun more st' resumes => ?_⟩
  · have outer : st.frames.popBlock.2.current.Dense := by
      rw [FrameStack.popBlock_snd]
      exact current.popBlock.dense
    have lengths := congrArg List.length popped
    rwa [List.length_append, List.length_reverse, current.dense.length_locals,
      outer.length_locals] at lengths
  · obtain ⟨since, below⟩ := resumes.localsFrom_eq sound tracked
    have tracked' := (tracked_run sound tracked resumes.run).2
    exact ⟨since, (List.forall₂_cons.mp tracked').1.dense.index_localsFrom below⟩

def openedBlocks : List Step := [.pushFrame, .pushBlock, .put 3, .pushBlock, .put 4]

/-- Further in, one variable comes that an inner function uses, two come and go with their block,
and one comes into the slot of the first of them. -/
def furtherBlocks : List Step :=
  [.put 5, .pushBlock, .put 6, .put 7, .pushFrame, .pushBlock, .put 3, .resolve 5, .popBlock,
    .popFrame, .popBlock, .pushBlock, .put 6]

theorem furtherBlocks_stacked :
    ∃ st st', start.run? 0 openedBlocks = some st ∧ st.Resumes furtherBlocks st' ∧
      st.frames.current.size = 2 ∧ st'.frames.current.localsFrom 2 = [⟨3, false⟩, ⟨2, true⟩] := by
  have before : ((start.run? 0 openedBlocks).map fun st => (st.frames.current.size,
      decide (∀ taken ∈ furtherBlocks.inits, ∀ mid ∈ st.run? 0 taken, st.KeepsOpen mid))) =
      some (2, true) := by decide +kernel
  have since : ((start.run? 0 openedBlocks).bind fun st =>
      (st.run? 0 furtherBlocks).map fun st' =>
        (decide (st'.frames.enclosing.length = st.frames.enclosing.length),
          (st'.ledger.current.flatten.filter fun v => st.ledger.made ≤ v.serial).map
            fun v => st'.frames.current.get? v.symbol)) =
      some (true, [some ⟨3, false⟩, some ⟨2, true⟩]) := by decide +kernel
  obtain ⟨st, run, facts⟩ := Option.map_eq_some_iff.mp before
  rw [run] at since
  obtain ⟨st', more, facts'⟩ := Option.map_eq_some_iff.mp since
  simp only [Prod.mk.injEq, decide_eq_true_eq] at facts facts'
  have resumes : st.Resumes furtherBlocks st' := ⟨more, facts.2, facts'.1⟩
  refine ⟨st, st', run, resumes, facts.1, ?_⟩
  have locals := ((locals_stacked run).2.2 _ _ resumes).1
  rw [facts'.2, facts.1] at locals
  exact (List.map_inj_right fun _ _ => Option.some.inj).mp locals

end Session

end Bindery.Storage
