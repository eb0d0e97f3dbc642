import Mathlib.Data.List.Nodup
import Bindery.Proofs.ExpressionRuns
import Bindery.Proofs.Resolution

/-!
Which locals are marked as captured.

While an inner function is written, the functions around it change in one respect only: a
local that the inner function takes over is marked. `Frame.Lends` compares the frame of a
function before an inner function with the frame after it: what was marked meanwhile is what
the inner function has taken over, and the other way round. Every run of the emitter keeps
this for all functions that are open (`Statement.Writes.lent`). Marks are never taken back as
long as their local is open (`Statement.Writes.retains`).
-/

namespace Bindery.Storage

open Machine (Capture)

/-! ### Locals and their marks -/

def Frame.Has (f : Frame) (s : SymbolId) (l : Local) : Prop := ∃ b ∈ f.blocks, b.get? s = some l

def Frame.Caught (f : Frame) (slot : Nat) : Prop :=
  ∃ s l, f.Has s l ∧ l.index.toNat = slot ∧ l.captured = true

/-- Every local is still there, in its slot, and those that were marked are marked. -/
def Frame.Retains (f f' : Frame) : Prop :=
  ∀ ⦃s l⦄, f.Has s l →
    ∃ l', f'.Has s l' ∧ l'.index = l.index ∧ (l.captured = true → l'.captured = true)

namespace Frame

variable {f f' f'' : Frame} {s t : SymbolId} {l : Local} {slot : Nat}

theorem Has.of_blocks (has : f.Has s l) (same : f'.blocks = f.blocks) : f'.Has s l := by
  rw [Has, same]
  exact has

theorem has_of_get? (known : f.get? s = some l) : f.Has s l := by
  obtain ⟨b, mem, here⟩ := List.exists_of_findSome?_eq_some known
  exact ⟨b, mem, here⟩

theorem Retains.refl (f : Frame) : f.Retains f := fun _ l has => ⟨l, has, rfl, id⟩

theorem Retains.trans (first : f.Retains f') (second : f'.Retains f'') : f.Retains f'' := by
  intro s l has
  obtain ⟨l', has', index', marked'⟩ := first has
  obtain ⟨l'', has'', index'', marked''⟩ := second has'
  exact ⟨l'', has'', index''.trans index', fun marked => marked'' (marked' marked)⟩

theorem Retains.of_blocks (same : f'.blocks = f.blocks) : f.Retains f' :=
  fun _ l has => ⟨l, has.of_blocks same, rfl, id⟩

/-- A captured local stays captured. -/
theorem Caught.retained (caught : f.Caught slot) (retains : f.Retains f') : f'.Caught slot := by
  obtain ⟨s, l, has, rfl, marked⟩ := caught
  obtain ⟨l', has', index, still⟩ := retains has
  exact ⟨s, l', has', congrArg UInt16.toNat index, still marked⟩

/-- What a frame has after a local was marked: what it had, and the local with its mark. -/
theorem Has.of_capture (has : (f.capture s).Has t l) :
    f.Has t l ∨ ∃ old, f.get? s = some old ∧ t = s ∧ l = { old with captured := true } := by
  have blocks : ∀ bs : List Block, (∃ b ∈ captureIn s bs, b.get? t = some l) →
      (∃ b ∈ bs, b.get? t = some l) ∨
        ∃ old, bs.findSome? (·.get? s) = some old ∧ t = s ∧ l = { old with captured := true } := by
    intro bs
    induction bs with
    | nil => exact .inl
    | cons b _ ih =>
      rw [captureIn, List.findSome?_cons]
      cases known : b.get? s with
      | some old =>
        rintro ⟨b', mem, here⟩
        rcases List.mem_cons.mp mem with rfl | later
        · rw [Block.get?_put] at here
          by_cases same : s = t
          · rw [if_pos same] at here
            exact .inr ⟨old, rfl, same.symm, (Option.some.inj here).symm⟩
          · rw [if_neg same] at here
            exact .inl ⟨b, List.mem_cons_self, here⟩
        · exact .inl ⟨b', List.mem_cons_of_mem _ later, here⟩
      | none =>
        rintro ⟨b', mem, here⟩
        rcases List.mem_cons.mp mem with rfl | later
        · exact .inl ⟨b', List.mem_cons_self, here⟩
        · refine (ih ⟨b', later, here⟩).imp_left ?_
          rintro ⟨b'', mem', here'⟩
          exact ⟨b'', List.mem_cons_of_mem _ mem', here'⟩
  exact blocks f.blocks has

/-- Marking a local changes nothing else. -/
theorem retains_capture (f : Frame) (s : SymbolId) : f.Retains (f.capture s) := by
  have blocks : ∀ bs : List Block, ∀ t l, (∃ b ∈ bs, b.get? t = some l) →
      ∃ l', (∃ b ∈ captureIn s bs, b.get? t = some l') ∧ l'.index = l.index ∧
        (l.captured = true → l'.captured = true) := by
    intro bs t l
    induction bs with
    | nil => rintro ⟨b, mem, _⟩; cases mem
    | cons b _ ih =>
      rintro ⟨b', mem, here⟩
      rw [captureIn]
      rcases List.mem_cons.mp mem with rfl | later
      · cases known : b'.get? s with
        | some old =>
          by_cases same : s = t
          · subst same
            obtain rfl : old = l := Option.some.inj (known.symm.trans here)
            refine ⟨{ old with captured := true }, ⟨_, List.mem_cons_self, ?_⟩, rfl, fun _ => rfl⟩
            rw [Block.get?_put, if_pos rfl]
          · refine ⟨l, ⟨_, List.mem_cons_self, ?_⟩, rfl, id⟩
            rw [Block.get?_put, if_neg same]
            exact here
        | none => exact ⟨l, ⟨b', List.mem_cons_self, here⟩, rfl, id⟩
      · cases b.get? s with
        | some => exact ⟨l, ⟨b', List.mem_cons_of_mem _ later, here⟩, rfl, id⟩
        | none =>
          obtain ⟨l', ⟨b'', mem', here'⟩, kept⟩ := ih ⟨b', later, here⟩
          exact ⟨l', ⟨b'', List.mem_cons_of_mem _ mem', here'⟩, kept⟩
  intro t l has
  exact blocks f.blocks t l has

/-- A local that gets a slot is not marked; the others are those that were there. -/
theorem Has.of_put (run : f.put s = .ok f') (has : f'.Has t l) :
    f.Has t l ∨ l.captured = false := by
  obtain ⟨blocks, free⟩ := f
  have added : ∀ {b : Block} {new : Local}, new.captured = false → (b.put s new).get? t = some l →
      b.get? t = some l ∨ l.captured = false := by
    intro b new plain here
    rw [Block.get?_put] at here
    by_cases same : s = t
    · rw [if_pos same] at here
      exact .inr (Option.some.inj here ▸ plain)
    · rw [if_neg same] at here
      exact .inl here
  unfold Frame.put at run
  split at run
  · cases run
  · cases blocks with
    | nil =>
      cases run
      obtain ⟨b, mem, here⟩ := has
      cases List.mem_singleton.mp mem
      refine (added ?_ here).imp_left fun none => ?_
      · rfl
      · cases none
    | cons b =>
      cases run
      obtain ⟨b', mem, here⟩ := has
      rcases List.mem_cons.mp mem with rfl | later
      · refine (added ?_ here).imp_left fun before => ⟨b, List.mem_cons_self, before⟩
        rfl
      · exact .inl ⟨b', List.mem_cons_of_mem _ later, here⟩

theorem put_free (run : f.put s = .ok f') : f'.free = f.free := by
  obtain ⟨blocks, free⟩ := f
  unfold Frame.put at run
  split at run
  · cases run
  · cases blocks <;> cases run <;> rfl

/-- A new symbol takes no local away. -/
theorem retains_put (run : f.put s = .ok f') (fresh : ∀ block ∈ f.symbols, s ∉ block) :
    f.Retains f' := by
  obtain ⟨blocks, free⟩ := f
  rintro t l ⟨b, mem, here⟩
  have other : s ≠ t := by
    rintro rfl
    exact fresh b.symbols (List.mem_map_of_mem mem) (Block.mem_symbols_of_get? here)
  refine ⟨l, ?_, rfl, id⟩
  unfold Frame.put at run
  split at run
  · cases run
  · cases blocks with
    | nil => cases mem
    | cons =>
      cases run
      rcases List.mem_cons.mp mem with rfl | later
      · refine ⟨_, List.mem_cons_self, ?_⟩
        rw [Block.get?_put, if_neg other]
        exact here
      · exact ⟨b, List.mem_cons_of_mem _ later, here⟩

end Frame

/-! ### Slots of locals -/

variable {base : Nat} {l : Local} {f f' : Frame} {fs : FrameStack} {s : SymbolId}
    {outer : List Frame}

namespace DenseBlocks

variable {b : Block} {outer blocks : List Block} {t : SymbolId} {l l' : Local}

/-- The locals of a block lie in its part of the slots. -/
theorem range_of_get? (dense : DenseBlocks (b :: outer)) (known : b.get? s = some l) :
    total Block.size outer ≤ l.index.toNat ∧
      l.index.toNat < total Block.size outer + b.size := by
  have slot : b.slot s = l.index.toNat := by
    rw [Block.slot, known]
    rfl
  have mem : b.slot s ∈ b.symbols.map b.slot :=
    List.mem_map_of_mem (Block.mem_symbols_of_get? known)
  rw [dense.1, slot] at mem
  exact List.mem_range'_1.mp mem

theorem index_lt_of_mem (dense : DenseBlocks blocks) (mem : b ∈ blocks) (known : b.get? s = some l)
    :
    l.index.toNat < total Block.size blocks := by
  induction blocks with
  | nil => cases mem
  | cons _ _ ih =>
    rw [total_cons]
    rcases List.mem_cons.mp mem with rfl | later
    · have := (dense.range_of_get? known).2
      omega
    · have := ih dense.2 later
      omega

/-- Two locals of a block with one slot are the same. -/
theorem eq_of_slot (dense : DenseBlocks (b :: outer)) (known : b.get? s = some l)
    (known' : b.get? t = some l') (same : l.index.toNat = l'.index.toNat) : l = l' := by
  have nodup : (b.symbols.map b.slot).Nodup := by
    rw [dense.1]
    exact List.nodup_range'
  have slots : b.slot s = b.slot t := by
    rw [Block.slot, Block.slot, known, known']
    exact same
  obtain rfl : s = t := List.inj_on_of_nodup_map nodup (Block.mem_symbols_of_get? known)
    (Block.mem_symbols_of_get? known') slots
  exact Option.some.inj (known.symm.trans known')

/-- Two locals of a function with one slot are the same. -/
theorem eq_of_index (dense : DenseBlocks blocks) {b' : Block} (mem : b ∈ blocks)
    (known : b.get? s = some l) (mem' : b' ∈ blocks) (known' : b'.get? t = some l')
    (same : l.index.toNat = l'.index.toNat) : l = l' := by
  induction blocks with
  | nil => cases mem
  | cons _ _ ih =>
    rcases List.mem_cons.mp mem with rfl | later <;> rcases List.mem_cons.mp mem' with rfl | later'
    · exact dense.eq_of_slot known known' same
    · have lower := (dense.range_of_get? known).1
      have upper := index_lt_of_mem dense.2 later' known'
      omega
    · have lower := (dense.range_of_get? known').1
      have upper := index_lt_of_mem dense.2 later known
      omega
    · exact ih dense.2 later later'

end DenseBlocks

namespace Frame

variable {f : Frame} {t : SymbolId} {l l' : Local} {slot : Nat}

/-- A local lies on the stack of its function. -/
theorem Has.index_lt (has : f.Has s l) (dense : f.Dense) : l.index.toNat < f.size := by
  obtain ⟨b, mem, known⟩ := has
  exact DenseBlocks.index_lt_of_mem dense mem known

theorem Caught.lt (caught : f.Caught slot) (dense : f.Dense) : slot < f.size := by
  obtain ⟨s, l, has, rfl, _⟩ := caught
  exact has.index_lt dense

/-- Whether a slot is marked can be seen from any local in it. -/
theorem Caught.captured (caught : f.Caught slot) (dense : f.Dense) (has : f.Has s l)
    (here : l.index.toNat = slot) : l.captured = true := by
  obtain ⟨t, l', ⟨b', mem', known'⟩, index, marked⟩ := caught
  obtain ⟨b, mem, known⟩ := has
  rw [DenseBlocks.eq_of_index dense mem known mem' known' (here.trans index.symm)]
  exact marked

end Frame

/-- Locals that fill the slots from `base` on are removed from the highest slot down. -/
theorem Local.index_highestFirst {locals : List Local} {n : Nat}
    (slots : locals.map (·.index.toNat) = List.range' base n) :
    (Local.highestFirst locals).map (·.index.toNat) = (List.range' base n).reverse := by
  have descending : (Local.highestFirst locals).Pairwise fun a b => b.index ≤ a.index := by
    refine (List.pairwise_mergeSort ?_ ?_ locals).imp of_decide_eq_true
    · intro a b c first second
      exact decide_eq_true (UInt16.le_trans (of_decide_eq_true second) (of_decide_eq_true first))
    · intro a b
      simpa using UInt16.le_total b.index a.index
  have sorted : ((Local.highestFirst locals).map (·.index.toNat)).Pairwise fun a b => b ≤ a := by
    rw [List.pairwise_map]
    exact descending.imp UInt16.le_iff_toNat_le.mp
  have reversed : (List.range' base n).reverse.Pairwise fun a b => b ≤ a := by
    rw [List.pairwise_reverse]
    exact (List.pairwise_lt_range' ..).imp Nat.le_of_lt
  have perm : ((Local.highestFirst locals).map (·.index.toNat)).Perm
      (List.range' base n).reverse := by
    rw [← slots]
    exact ((List.mergeSort_perm ..).map _).trans (List.reverse_perm _).symm
  exact perm.eq_of_pairwise (fun _ _ _ _ le ge => Nat.le_antisymm ge le) sorted reversed

theorem Block.exists_of_mem_toList {b : Block} (mem : l ∈ b.toList) : ∃ s, b.get? s = some l := by
  obtain ⟨s, _, known⟩ := List.mem_filterMap.mp mem
  exact ⟨s, known⟩

/-- What is removed on the way out of a loop are locals of the function. -/
theorem Frame.has_of_mem_localsFrom (mem : l ∈ f.localsFrom base) : ∃ s, f.Has s l := by
  rw [localsFrom, Local.highestFirst, List.mem_mergeSort] at mem
  obtain ⟨b, member, inside⟩ := List.mem_flatMap.mp (List.mem_filter.mp mem).1
  obtain ⟨s, known⟩ := Block.exists_of_mem_toList inside
  exact ⟨s, b, List.mem_reverse.mp member, known⟩

/-- What is removed at the end of a block are locals of the function. -/
theorem FrameStack.has_of_mem_popBlock (mem : l ∈ fs.popBlock.1) : ∃ s, fs.current.Has s l := by
  obtain ⟨⟨blocks, free⟩, enclosing⟩ := fs
  cases blocks with
  | nil => cases mem
  | cons b =>
    obtain ⟨s, known⟩ := Block.exists_of_mem_toList (List.mem_mergeSort.mp mem)
    exact ⟨s, b, List.mem_cons_self, known⟩

/-- The locals from a height on have the indices from there on, the last one first. -/
theorem Frame.Dense.index_localsFrom (dense : f.Dense) (below : base ≤ f.size) :
    (f.localsFrom base).map (·.index.toNat) =
      (List.range' base (f.size - base)).reverse :=
  Local.index_highestFirst (dense.slots_from below)

/-- The locals of a block that ends have the highest indices. -/
theorem FrameStack.index_popBlock (dense : fs.current.Dense) :
    fs.popBlock.1.map (·.index.toNat) =
      (List.range' fs.popBlock.2.current.size fs.popBlock.1.length).reverse := by
  obtain ⟨⟨blocks, free⟩, enclosing⟩ := fs
  cases blocks with
  | nil => rfl
  | cons b outer =>
    change (Local.highestFirst b.toList).map _ =
      (List.range' (total Block.size outer) (b.toList.mergeSort _).length).reverse
    rw [List.length_mergeSort, b.length_toList]
    refine Local.index_highestFirst ?_
    rw [b.map_toList]
    exact dense.1

/-- A local below the block that is left is still there. -/
theorem FrameStack.has_popBlock (has : fs.current.Has s l) (dense : fs.current.Dense)
    (below : l.index.toNat < fs.popBlock.2.current.size) : fs.popBlock.2.current.Has s l := by
  obtain ⟨⟨blocks, free⟩, enclosing⟩ := fs
  cases blocks with
  | nil => exact has
  | cons =>
    obtain ⟨b', mem, known⟩ := has
    rcases List.mem_cons.mp mem with rfl | later
    · exact absurd below (Nat.not_lt.mpr (DenseBlocks.range_of_get? dense known).1)
    · exact ⟨b', later, known⟩

/-- At the end of a block, what is marked below the block stays. -/
theorem FrameStack.caught_popBlock {slot : Nat} (caught : fs.current.Caught slot)
    (dense : fs.current.Dense) (below : slot < fs.popBlock.2.current.size) :
    fs.popBlock.2.current.Caught slot := by
  obtain ⟨s, l, has, rfl, marked⟩ := caught
  exact ⟨s, l, has_popBlock has dense below, rfl, marked⟩

theorem FrameStack.has_of_popBlock (has : fs.popBlock.2.current.Has s l) : fs.current.Has s l := by
  rw [popBlock_snd] at has
  obtain ⟨b, mem, known⟩ := has
  exact ⟨b, List.mem_of_mem_tail mem, known⟩

theorem FrameStack.has_pushBlock : fs.pushBlock.current.Has s l ↔ fs.current.Has s l := by
  constructor
  · rintro ⟨b, mem, known⟩
    rcases List.mem_cons.mp mem with rfl | later
    · cases known
    · exact ⟨b, later, known⟩
  · rintro ⟨b, mem, known⟩
    exact ⟨b, List.mem_cons_of_mem _ mem, known⟩

theorem FrameStack.retains_pushBlock (fs : FrameStack) : fs.current.Retains fs.pushBlock.current :=
  fun _ l has => ⟨l, has_pushBlock.mpr has, rfl, id⟩

/-! ### Functions inside each other -/

/-- How the frame of a function, `before` an inner function, compares with its frame now, while
`inner` belongs to the inner function. -/
structure Frame.Lends (before now inner : Frame) : Prop where
  retains : before.Retains now
  /-- What was marked meanwhile is taken over. -/
  taken : ∀ ⦃s l⦄, now.Has s l → l.captured = true →
    before.Has s l ∨ (⟨true, l.index⟩ : Capture) ∈ inner.free.toList
  /-- What is taken over is marked. -/
  marked : ∀ ⦃i⦄, (⟨true, i⟩ : Capture) ∈ inner.free.toList → now.Caught i.toNat

namespace Frame

variable {before now now' inner inner' : Frame}

/-- An inner function starts with nothing taken over. -/
theorem Lends.start (f : Frame) : f.Lends f .empty where
  retains := .refl f
  taken _ _ has _ := .inl has
  marked _ mem := nomatch mem

theorem Lends.congr (lends : before.Lends now inner) (blocks : now'.blocks = now.blocks)
    (free : inner'.free = inner.free) : before.Lends now' inner' where
  retains := lends.retains.trans (.of_blocks blocks)
  taken s l has marked := by
    rw [free]
    exact lends.taken (has.of_blocks blocks.symm) marked
  marked i mem := by
    rw [free] at mem
    exact (lends.marked mem).retained (.of_blocks blocks)

variable {index : UInt16}

/-- Taking over a capture adds that one at most. -/
theorem takeOver_mem {c : Capture} (run : f.takeOver c = .ok (index, f')) (d : Capture) :
    d ∈ f'.free.toList ↔ d ∈ f.free.toList ∨ d = c := by
  obtain ⟨_, _, rfl⟩ := takeOver_eq_ok run
  simp only [Numbering.toList, List.mem_reverse]
  rw [f.free.mem_intern_iff c d, or_comm]

/-- Taking a local over marks it. -/
theorem Lends.found (lends : before.Lends now inner) (known : now.get? s = some l)
    (run : inner.takeOver ⟨true, l.index⟩ = .ok (index, inner')) :
    before.Lends (now.capture s) inner' where
  retains := lends.retains.trans (now.retains_capture s)
  taken t l' has marked := by
    rw [takeOver_mem run]
    rcases has.of_capture with old | ⟨_, same, rfl, rfl⟩
    · rcases lends.taken old marked with earlier | mem
      · exact .inl earlier
      · exact .inr (.inl mem)
    · obtain rfl := Option.some.inj (known.symm.trans same)
      exact .inr (.inr rfl)
  marked i mem := by
    rcases (takeOver_mem run _).mp mem with old | new
    · exact (lends.marked old).retained (now.retains_capture s)
    · cases new
      exact ⟨s, _, has_of_get? (Frame.get?_capture known), rfl, rfl⟩

/-- What a function further out holds is handed on, without a mark. -/
theorem Lends.through (lends : before.Lends now inner) {held : UInt16}
    (blocks : now'.blocks = now.blocks) (run : inner.takeOver ⟨false, held⟩ = .ok (index, inner')) :
    before.Lends now' inner' where
  retains := lends.retains.trans (.of_blocks blocks)
  taken s l has marked := by
    rw [takeOver_mem run]
    exact (lends.taken (has.of_blocks blocks.symm) marked).imp_right .inl
  marked i mem := by
    rcases (takeOver_mem run _).mp mem with old | new
    · exact (lends.marked old).retained (.of_blocks blocks)
    · cases new

end Frame

/-- `Lent before frames`: for the innermost of the open functions, as many as `before` lists,
what the function around each of them was before it. -/
inductive Lent : List Frame → List Frame → Prop where
  | nil {frames} : Lent [] frames
  | cons {f before inner now outer} : f.Lends now inner → Lent before (now :: outer) →
      Lent (f :: before) (inner :: now :: outer)

/-- Of the current function only what it has taken over counts. -/
theorem Lent.replace {before : List Frame} (lent : Lent before (f :: outer))
    (free : f'.free = f.free) : Lent before (f' :: outer) := by
  cases lent with
  | nil => exact .nil
  | cons lends rest => exact .cons (lends.congr rfl free) rest

/-- Taking a symbol over changes no block of the function itself. -/
theorem FrameStack.TakesOver.blocks {s : SymbolId} {f : Frame} {frames : List Frame}
    {index : UInt16} {fs : FrameStack} (rel : TakesOver s f frames index fs) :
    fs.current.blocks = f.blocks := by
  cases rel with
  | found _ _ blocks | through _ _ _ blocks => exact blocks

/-- A symbol that is taken over is lent by the functions around. -/
theorem FrameStack.TakesOver.lent {s : SymbolId} {f : Frame} {frames : List Frame}
    {index : UInt16} {fs : FrameStack} (rel : TakesOver s f frames index fs) {before : List Frame}
    (lent : Lent before (f :: frames)) : Lent before fs.toList := by
  induction rel generalizing before with
  | found known taken =>
    cases lent with
    | nil => exact .nil
    | cons lends rest => exact .cons (lends.found known taken) (rest.replace rfl)
  | through _ inside taken _ ih =>
    cases lent with
    | nil => exact .nil
    | cons lends rest => exact .cons (lends.through inside.blocks taken) (ih rest)

/-- Leaving the body, the parameters and the frame of a function. -/
theorem FrameStack.leaveFunction {parent : Frame} (around : fs.enclosing = parent :: outer) :
    fs.popBlock.2.popBlock.2.popFrame = (fs.current.free.toList, ⟨parent, outer⟩) := by
  rw [popBlock_snd, popBlock_snd, around]
  rfl

end Bindery.Storage

namespace Bindery

open Storage

/-! ### Steps -/

/-- What the functions around the open functions were before them. -/
def Emission.Lent (before : List Frame) (e : Emission) : Prop :=
  Storage.Lent before e.frames.toList

namespace Emit

variable {e e' : Emission}

variable {s t : SymbolId} {store : Code} {before : List Frame} {l : Local} {locals : List SymbolId}

theorem declare_lent (run : declare s e = .ok (store, e')) (lent : e.Lent before) :
    e'.Lent before := by
  rcases declare_eq_ok run with ⟨_, _, _, _, _, rfl⟩ | ⟨_, frames, put, _, rfl⟩
  · exact lent
  · obtain ⟨f, added, rfl⟩ := FrameStack.put_eq_ok put
    exact lent.replace (Frame.put_free added)

/-- A new declaration takes no mark back. -/
theorem declare_retains (run : declare s e = .ok (store, e')) (fresh : ¬ e.contents.Knows s) :
    e.frames.current.Retains e'.frames.current := by
  rcases declare_eq_ok run with ⟨_, _, _, _, _, rfl⟩ | ⟨_, frames, put, _, rfl⟩
  · exact .refl _
  · obtain ⟨f, added, rfl⟩ := FrameStack.put_eq_ok put
    refine Frame.retains_put added fun block mem holds => fresh ?_
    exact .inr ⟨_, List.mem_cons_self, block, mem, holds⟩

/-- A declaration marks nothing. -/
theorem has_of_declare (run : declare s e = .ok (store, e')) (has : e'.frames.current.Has t l)
    (marked : l.captured = true) : e.frames.current.Has t l := by
  rcases declare_eq_ok run with ⟨_, _, _, _, _, rfl⟩ | ⟨_, frames, put, _, rfl⟩
  · exact has
  · obtain ⟨f, added, rfl⟩ := FrameStack.put_eq_ok put
    refine (has.of_put added).resolve_right fun plain => ?_
    rw [plain] at marked
    cases marked

theorem putLocals_lent (run : locals.forM putLocal e = .ok ((), e')) (lent : e.Lent before) :
    e'.Lent before := by
  induction locals generalizing e with
  | nil =>
    obtain ⟨_, rfl⟩ := pure_eq_ok.mp run
    exact lent
  | cons _ _ ih =>
    obtain ⟨_, put, others⟩ := putLocals_cons run
    obtain ⟨f, added, rfl⟩ := FrameStack.put_eq_ok put
    exact ih others (lent.replace (Frame.put_free added))

/-- Parameters are not marked. -/
theorem has_of_putLocals (run : locals.forM putLocal e = .ok ((), e'))
    (has : e'.frames.current.Has t l) (marked : l.captured = true) : e.frames.current.Has t l := by
  induction locals generalizing e with
  | nil =>
    obtain ⟨_, rfl⟩ := pure_eq_ok.mp run
    exact has
  | cons _ _ ih =>
    obtain ⟨_, put, others⟩ := putLocals_cons run
    obtain ⟨f, added, rfl⟩ := FrameStack.put_eq_ok put
    have before := ih others
    refine (before.of_put added).resolve_right fun plain => ?_
    rw [plain] at marked
    cases marked

end Emit

namespace Emission.Expands

variable {symbols : SymbolTable} {e e' : Emission}

theorem lent {before : List Frame} (expands : Expands symbols e e') (lent : e.Lent before) :
    e'.Lent before := by
  refine expands.preserves ?_ lent
  rintro a b (⟨_, added⟩ | found) lent
  · obtain ⟨_, _, _, _, rfl⟩ := Emit.constant_eq_ok added
    exact lent
  · rcases Emit.resolve_eq_ok found with ⟨_, _, _, rfl⟩ | ⟨_, _, rel, _, rfl⟩ | ⟨_, _, rfl⟩
    · exact lent
    · exact rel.lent lent
    · exact lent

/-- Expressions mark no local of the function that they belong to. -/
theorem blocks (expands : Expands symbols e e') :
    e'.frames.current.blocks = e.frames.current.blocks := by
  refine expands.preserves (P := fun a => a.frames.current.blocks = _) ?_ rfl
  rintro a b (⟨_, added⟩ | found) same
  · obtain ⟨_, _, _, _, rfl⟩ := Emit.constant_eq_ok added
    exact same
  · rcases Emit.resolve_eq_ok found with ⟨_, _, _, rfl⟩ | ⟨_, _, rel, _, rfl⟩ | ⟨_, _, rfl⟩
    · exact same
    · exact rel.blocks.trans same
    · exact same

end Emission.Expands

end Bindery

namespace Bindery.Bound

open Emit (Code Fragment jumpSize)
open Storage

/-! ### Statements -/

/-- An expression leaves the blocks as they are. -/
theorem Expression.Writes.blocks {symbols : SymbolTable} {x : Expression}
    {chain : Option BinaryOperation} {e e' : Emission} {codes : List Code}
    (run : x.Writes symbols chain e codes e') :
    e'.frames.current.blocks = e.frames.current.blocks :=
  run.expands.blocks

variable {f : SymbolId} {parameters : List SymbolId} {store : Code} {e e₁ e₂ e' : Emission}
    {before : List Frame} {start : Nat} {code : Fragment}

/-- Where the body of a function is written, the function has taken over nothing. -/
theorem lent_enterFunction (declared : Emit.declare f e = .ok (store, e₁))
    (put : parameters.forM Emit.putLocal { e₁ with frames := e₁.frames.pushFrame.pushBlock } =
      .ok ((), e₂)) (lent : e.Lent before) :
    Emission.Lent (e₁.frames.current :: before) { e₂ with frames := e₂.frames.pushBlock } := by
  have outside := Emit.declare_lent declared lent
  have entered : Emission.Lent (e₁.frames.current :: before)
      { e₁ with frames := e₁.frames.pushFrame.pushBlock } :=
    .cons ((Frame.Lends.start _).congr rfl rfl) outside
  exact (Emit.putLocals_lent put entered).replace rfl

/-- Behind the body of a function, the frame around it is marked according to what the
function has taken over. -/
theorem lends_leaveFunction {f : Frame} (lent : e.Lent (f :: before)) :
    f.Lends e.frames.popBlock.2.popBlock.2.popFrame.2.current e.frames.current ∧
      e.frames.popBlock.2.popBlock.2.popFrame.1 = e.frames.current.free.toList ∧
      Lent before e.frames.popBlock.2.popBlock.2.popFrame.2.toList := by
  obtain ⟨constants, globals, ⟨current, enclosing⟩⟩ := e
  cases lent with
  | cons lends outside =>
    rw [FrameStack.leaveFunction rfl]
    exact ⟨lends, rfl, outside⟩

/-- Wrapping up a function leaves the frames as they are. -/
theorem frames_wrapFunction {arity : Nat} {captures : List Machine.Capture} {body : Fragment}
    (run : wrapFunction start arity captures body e = .ok (code, e')) : e'.frames = e.frames := by
  obtain ⟨_, _, _, _, _, _, _, _, added, _⟩ := wrapFunction_eq_ok run
  obtain ⟨_, _, _, _, rfl⟩ := Emit.constant_eq_ok added
  rfl

variable {symbols : SymbolTable}

mutual

/-- Locals are marked exactly as they are taken over. -/
theorem Statement.Writes.lent {s : Statement} {loop start e e' code before} :
    s.Writes symbols loop start e code e' → e.Lent before → e'.Lent before
  | .function declared put body wrapped, lent => by
    have inner := body.lent (lent_enterFunction declared put lent)
    rw [Emission.Lent, frames_wrapFunction wrapped]
    exact (lends_leaveFunction inner).2.2
  | .declare value declared, lent => Emit.declare_lent declared (value.expands.lent lent)
  | .ifThen condition yes _, lent => yes.lent (condition.expands.lent lent)
  | .ifElse condition yes _ no _, lent => no.lent (yes.lent (condition.expands.lent lent))
  | .whileLoop condition body _, lent => body.lent (condition.expands.lent lent)
  | .doWhile body condition _, lent => condition.expands.lent (body.lent lent)
  | .block statements, lent => by
    have inner := statements.lent (lent.replace rfl)
    rw [Emission.Lent, FrameStack.popBlock_snd]
    exact inner.replace rfl
  | .returnsUnit, lent | .breakLoop, lent | .continueLoop, lent => lent
  | .returns value, lent | .print value, lent | .expression value, lent => value.expands.lent lent

theorem WritesList.lent {statements loop start e e' code before} :
    WritesList symbols loop start statements e code e' → e.Lent before → e'.Lent before
  | .nil, lent => lent
  | .cons first others, lent => others.lent (first.lent lent)

end

/-- What a function declaration does to the function around it: it gets a local or none, and
what the new function takes over is marked. -/
theorem lends_function {symbols : SymbolTable} {body : List Statement} {e₃ : Emission}
    (declared : Emit.declare f e = .ok (store, e₁))
    (put : parameters.forM Emit.putLocal { e₁ with frames := e₁.frames.pushFrame.pushBlock } =
      .ok ((), e₂)) (run : WritesList symbols none (start + jumpSize) body
      { e₂ with frames := e₂.frames.pushBlock } code e₃) :
    e₁.frames.current.Lends e₃.frames.popBlock.2.popBlock.2.popFrame.2.current e₃.frames.current ∧
      e₃.frames.popBlock.2.popBlock.2.popFrame.1 = e₃.frames.current.free.toList := by
  have inner := run.lent (lent_enterFunction declared put .nil)
  obtain ⟨lends, captures, _⟩ := lends_leaveFunction inner
  exact ⟨lends, captures⟩

/-- A block that is left takes away only its own locals. -/
theorem retains_block (dense : e.Dense) (dense' : e'.Dense)
    (inner : e.frames.pushBlock.current.Retains e'.frames.current)
    (same : Emission.locals { e' with frames := e'.frames.popBlock.2 } = e.locals) :
    e.frames.current.Retains e'.frames.popBlock.2.current := by
  intro s l has
  obtain ⟨l', has', index, marked⟩ := (e.frames.retains_pushBlock.trans inner) has
  refine ⟨l', FrameStack.has_popBlock has' (dense' _ List.mem_cons_self) ?_, index, marked⟩
  rw [index]
  exact Nat.lt_of_lt_of_eq (has.index_lt (dense _ List.mem_cons_self)) same.symm

mutual

/-- Behind a statement, the locals from before it are in their slots, and are marked if they
were. -/
theorem Statement.Writes.retains {s : Statement} {loop start e e' code} :
    s.Writes symbols loop start e code e' → e.Ready s.introduces →
      e.frames.current.Retains e'.frames.current
  | .function declared put body wrapped, ready => by
    rw [Statement.introduces] at ready
    have added := Emit.declare_retains declared
      (ready.fresh _ (List.mem_append_right _ List.mem_cons_self))
    rw [frames_wrapFunction wrapped]
    exact added.trans (lends_function declared put body).1.retains
  | .declare value declared, ready => by
    have fresh := (value.ready ready).fresh _ List.mem_cons_self
    exact (Frame.Retains.of_blocks value.blocks).trans (Emit.declare_retains declared fresh)
  | .ifThen condition yes _, ready =>
    (Frame.Retains.of_blocks condition.blocks).trans (yes.retains (condition.ready ready))
  | .ifElse condition yes _ no _, ready => by
    rw [Statement.introduces] at ready
    have between := condition.ready ready
    have first := yes.retains (between.sublist (List.sublist_append_left _ _))
    exact (Frame.Retains.of_blocks condition.blocks).trans
      (first.trans (no.retains (yes.ready between)))
  | .whileLoop condition body _, ready =>
    (Frame.Retains.of_blocks condition.blocks).trans (body.retains (condition.ready ready))
  | .doWhile body condition _, ready => (body.retains ready).trans (.of_blocks condition.blocks)
  | run@(.block statements), ready => by
    have inner := statements.retains ready.pushBlock
    refine retains_block ready.dense (statements.dense ready.pushBlock) inner ?_
    exact Emission.locals_of_contents run.contents
  | .returnsUnit, _ | .breakLoop, _ | .continueLoop, _ => .refl _
  | .returns value, _ | .print value, _ | .expression value, _ => .of_blocks value.blocks

theorem WritesList.retains {statements loop start e e' code} :
    WritesList symbols loop start statements e code e' →
      e.Ready (introducesList statements) → e.frames.current.Retains e'.frames.current
  | .nil, _ => .refl _
  | .cons first others, ready => by
    rw [introducesList] at ready
    have here := first.retains (ready.sublist (List.sublist_append_left _ _))
    exact here.trans (others.retains (first.ready ready))

end

end Bindery.Bound
