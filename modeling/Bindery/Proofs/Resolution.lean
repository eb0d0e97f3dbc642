import Bindery.Proofs.Ledger

/-!
Which variable a slot stands for.

A session runs the frames of the emitter beside a ledger of the variables that are live.
`Sound` ties the two together: each function's locals are the variables of its roster, and
each entry of a free list leads to a variable of the function around it, or to an entry of
that function's own free list. Every step keeps it (`Session.sound_step`). While a function is
open, the rosters around it do not change and no free list loses an entry
(`Session.keeps_run`), so a free index goes on standing for one variable.
`Session.resolve_correct` collects what this says about `FrameStack.resolve`.
-/

namespace Bindery

/-- The number that is given belongs to the value, which is last if it is new. -/
theorem Numbering.intern_spec {α : Type} [Ord α] [Std.TransOrd α] [Std.LawfulEqOrd α]
    (n : Numbering α) (a : α) :
    (n.intern a).2.toList[(n.intern a).1]? = some a ∧
      ((n.intern a).2 = n ∨ n.number? a = none ∧ (n.intern a).2.toList = n.toList ++ [a]) := by
  unfold Numbering.intern
  split
  · rename_i i known
    exact ⟨(n.number?_eq_some_iff a i).mp known, .inl rfl⟩
  · rename_i unknown
    have list := Numbering.toList_push _ _ ((n.number?_eq_none_iff a).mp unknown)
    refine ⟨?_, .inr ⟨unknown, list⟩⟩
    rw [list, ← n.length_toList, List.getElem?_concat_length]

namespace Storage

open Machine (Capture)

/-! ### Sessions -/

/-- Follows the captures from entry `i` of the innermost frame's free list outwards: the
number of frames behind the one that has the local, and its slot. -/
def origin? : List Frame → Nat → Option (Nat × Nat)
  | f :: parent :: outer, i =>
    match f.free.get? i with
    | some ⟨true, slot⟩ => some (outer.length, slot.toNat)
    | some ⟨false, entry⟩ => origin? (parent :: outer) entry.toNat
    | none => none
  | _, _ => none

variable {frames : List Frame} {i q : Nat} {f f' : Frame} {c : Capture} {index : UInt16}
    {s : SymbolId} {fs : FrameStack}

theorem origin?_lt {slot : Nat} (leads : origin? frames i = some (q, slot)) :
    q + 1 < frames.length := by
  fun_induction origin? frames i with
  | case1 =>
    cases leads
    simp
  | case2 _ _ _ _ _ _ ih =>
    have := ih leads
    rw [List.length_cons]
    omega
  | case3 => cases leads
  | case4 => cases leads

/-- What is done with frames. -/
inductive Step where
  | pushFrame
  | popFrame
  | pushBlock
  | popBlock
  | put (s : SymbolId)
  | resolve (s : SymbolId)
deriving DecidableEq, Repr

/-- The frames, and the variables that are live in them. -/
structure Session where
  frames : FrameStack
  ledger : Ledger

namespace Session

def start : Session := ⟨.empty, .empty⟩

/-- Takes a step, unless it fails, leaves a function with at most `floor` functions around
it, or declares a symbol again that is live in the current function. -/
def step? (floor : Nat) (st : Session) : Step → Option Session
  | .pushFrame => some ⟨st.frames.pushFrame, st.ledger.pushFrame⟩
  | .popFrame =>
    if floor < st.frames.enclosing.length then some ⟨st.frames.popFrame.2, st.ledger.popFrame⟩
    else none
  | .pushBlock => some ⟨st.frames.pushBlock, st.ledger.pushBlock⟩
  | .popBlock => some ⟨st.frames.popBlock.2, st.ledger.popBlock⟩
  | .put s =>
    if (st.ledger.current.find? s).isSome then none
    else (st.frames.put s).toOption.map fun frames => ⟨frames, st.ledger.put s⟩
  | .resolve s => (st.frames.resolve s).toOption.map fun (_, frames) => { st with frames }

def run? (floor : Nat) (st : Session) (steps : List Step) : Option Session :=
  steps.foldlM (step? floor) st

/-- The variable that entry `i` of a free list stands for, in the function with `p` functions
around it. -/
def denotes? (st : Session) (p i : Nat) : Option Variable := do
  let (q, slot) ← origin? (since p st.frames.toList) i
  let roster ← at? q st.ledger.toList
  roster.holder? slot

end Session

/-! ### Captures -/

def Frame.FreeGrows (f f' : Frame) : Prop := f.free.toList <+: f'.free.toList

theorem Frame.FreeGrows.of_eq (same : f'.free = f.free) : f.FreeGrows f' :=
  ⟨[], by rw [List.append_nil, same]⟩

theorem Frame.FreeGrows.get?_eq_some (grows : f.FreeGrows f') (known : f.free.get? i = some c) :
    f'.free.get? i = some c := by
  obtain ⟨more, list⟩ := grows
  have within := (List.getElem?_eq_some_iff.mp known).1
  rw [Numbering.get?, ← list, List.getElem?_append_left within]
  exact known

theorem Frame.takeOver_eq_ok (run : f.takeOver c = .ok (index, f')) :
    ¬((f.free.number? c).isNone ∧ slotLimit ≤ f.free.size) ∧
      index = .ofNat (f.free.intern c).1 ∧ f' = { f with free := (f.free.intern c).2 } := by
  unfold takeOver at run
  split at run
  · cases run
  · rename_i room
    cases run
    exact ⟨room, rfl, rfl⟩

/-- What is taken over has the entry that is given, behind the entries that were there. -/
theorem Frame.takeOver_spec (fits : f.free.size ≤ slotLimit) (run : f.takeOver c = .ok (index, f'))
    :
    f'.free.get? index.toNat = some c ∧ f.FreeGrows f' ∧ f'.free.size ≤ slotLimit ∧
      ∀ d ∈ f'.free.toList, d ∈ f.free.toList ∨ d = c := by
  obtain ⟨room, rfl, rfl⟩ := takeOver_eq_ok run
  obtain ⟨entry, shape⟩ := f.free.intern_spec c
  have size : (f.free.intern c).2.size ≤ slotLimit := by
    rcases shape with same | ⟨new, list⟩
    · rw [same]
      exact fits
    · have below : f.free.size < slotLimit := by
        rw [new] at room
        exact Nat.not_le.mp fun full => room ⟨rfl, full⟩
      rw [← Numbering.length_toList, list, List.length_append, Numbering.length_toList]
      exact below
  have index : (UInt16.ofNat (f.free.intern c).1).toNat = (f.free.intern c).1 := by
    have := (List.getElem?_eq_some_iff.mp entry).1
    rw [Numbering.length_toList] at this
    exact UInt16.toNat_ofNat_of_lt' (Nat.lt_of_lt_of_le this size)
  refine ⟨?_, ?_, size, ?_⟩
  · rw [index]
    exact entry
  · rcases shape with same | ⟨_, list⟩
    · exact .of_eq same
    · rw [FreeGrows, list]
      exact List.prefix_append ..
  · intro d mem
    rcases shape with same | ⟨_, list⟩
    · rw [same] at mem
      exact .inl mem
    · rw [list, List.mem_append, List.mem_singleton] at mem
      exact mem

/-- Captures fail only where a free list is full. -/
theorem FrameStack.full_of_takeOverFrom {err : Machine.EmitError}
    (run : takeOverFrom s f frames = .error err) : ∃ g ∈ f :: frames, slotLimit ≤ g.free.size := by
  have entry : ∀ {g : Frame} {c : Capture} {e : Machine.EmitError}, g.takeOver c = .error e →
      slotLimit ≤ g.free.size := by
    intro g c e run
    unfold Frame.takeOver at run
    split at run
    · rename_i full
      exact full.2
    · cases run
  induction frames generalizing f err with
  | nil => cases run
  | cons parent outer ih =>
    rw [takeOverFrom] at run
    cases known : parent.get? s with
    | some l =>
      rw [known] at run
      simp only at run
      cases taken : f.takeOver ⟨true, l.index⟩ with
      | ok =>
        rw [taken] at run
        cases run
      | error => exact ⟨f, List.mem_cons_self, entry taken⟩
    | none =>
      rw [known] at run
      simp only at run
      cases inner : takeOverFrom s parent outer with
      | error =>
        obtain ⟨g, mem, full⟩ := ih inner
        exact ⟨g, List.mem_cons_of_mem _ mem, full⟩
      | ok result =>
        rw [inner] at run
        cases result with
        | none => cases run
        | some found =>
          cases taken : f.takeOver ⟨false, found.1⟩ with
          | ok =>
            simp only [bind, Except.bind, taken] at run
            cases run
          | error => exact ⟨f, List.mem_cons_self, entry taken⟩

theorem FrameStack.takeOverFrom_of_unknown (unknown : ∀ g ∈ frames, g.get? s = none) (f : Frame) :
    takeOverFrom s f frames = .ok none := by
  induction frames generalizing f with
  | nil => rfl
  | cons _ _ ih =>
    obtain ⟨here, further⟩ := List.forall_mem_cons.mp unknown
    simp only [takeOverFrom, here, ih further, bind, Except.bind]

/-! ### Sound sessions -/

/-- A capture leads to a variable of the function around, or to an entry of that function's
own free list. -/
def Anchored (parent : Frame) (around : Roster) (c : Capture) : Prop :=
  match c with
  | ⟨true, slot⟩ => ∃ v ∈ around.flatten, v.slot = slot.toNat
  | ⟨false, entry⟩ => entry.toNat < parent.free.size

theorem Anchored.mono {parent parent' : Frame} {around : Roster}
    (anchored : Anchored parent around c) (grows : parent.FreeGrows parent') :
    Anchored parent' around c := by
  obtain ⟨isLocal, index⟩ := c
  cases isLocal with
  | true => exact anchored
  | false =>
    have longer := grows.length_le
    rw [Numbering.length_toList, Numbering.length_toList] at longer
    exact Nat.lt_of_lt_of_le anchored longer

/-- Frames and rosters agree, and every entry of a free list is anchored in the function
around. The outermost function captures nothing. -/
inductive Sound : List Frame → List Roster → Prop where
  | root {f r} : f.Holds r → r.Dense → f.free.toList = [] → Sound [f] [r]
  | inner {f r parent around outer rosters} : f.Holds r → r.Dense → f.free.size ≤ slotLimit →
      (∀ c ∈ f.free.toList, Anchored parent around c) →
      Sound (parent :: outer) (around :: rosters) →
      Sound (f :: parent :: outer) (r :: around :: rosters)

namespace Sound

variable {f f' : Frame} {r r' : Roster} {frames : List Frame} {rosters : List Roster}

theorem length_eq (sound : Sound frames rosters) : frames.length = rosters.length := by
  induction sound with
  | root => rfl
  | inner _ _ _ _ _ ih => exact congrArg (· + 1) ih

/-- Each frame holds the variables of its roster. -/
theorem holds (sound : Sound (f :: frames) (r :: rosters)) : f.Holds r := by
  cases sound with
  | root holds | inner holds => exact holds

theorem dense (sound : Sound (f :: frames) (r :: rosters)) : r.Dense := by
  cases sound with
  | root _ dense | inner _ dense => exact dense

theorem since (sound : Sound frames rosters) {p : Nat} (within : p < frames.length) :
    Sound (since p frames) (since p rosters) := by
  induction sound with
  | @root _ _ holds dense none =>
    obtain rfl : p = 0 := Nat.lt_one_iff.mp within
    exact .root holds dense none
  | @inner _ r _ around _ rosters holds dense fits anchored outside ih =>
    have lengths := outside.length_eq
    rcases Nat.lt_or_eq_of_le (Nat.le_of_lt_succ within) with inside | rfl
    · have inside' : p < (around :: rosters).length := lengths ▸ inside
      rw [since_cons_of_lt inside, since_cons_of_lt (a := r) inside']
      exact ih inside
    · rw [since_length, lengths, since_length]
      exact .inner holds dense fits anchored outside

theorem dense_of_at? (sound : Sound frames rosters) (place : at? q rosters = some r) : r.Dense := by
  have ending := sound.since (sound.length_eq ▸ lt_of_at? place)
  unfold at? at place
  generalize Storage.since q frames = frames', Storage.since q rosters = rosters' at ending place
  cases ending with
  | root _ dense | inner _ dense =>
    cases place
    exact dense

theorem size_le (sound : Sound (f :: frames) (r :: rosters)) : f.free.size ≤ slotLimit := by
  cases sound with
  | root _ _ none =>
    rw [← Numbering.length_toList, none]
    exact Nat.zero_le _
  | inner _ _ fits => exact fits

/-- The blocks of the innermost function may change together with its roster. -/
theorem replace (sound : Sound (f :: frames) (r :: rosters)) (holds : f'.Holds r')
    (dense : r'.Dense) (free : f'.free = f.free) : Sound (f' :: frames) (r' :: rosters) := by
  cases sound with
  | root _ _ none => exact .root holds dense (free ▸ none)
  | inner _ _ fits anchored outer =>
    exact .inner holds dense (free ▸ fits) (free ▸ anchored) outer

/-- Every free list fits. -/
theorem size_le_of_mem (sound : Sound frames rosters) {g : Frame} (mem : g ∈ frames) :
    g.free.size ≤ slotLimit := by
  induction sound with
  | root holds dense none =>
    cases List.mem_singleton.mp mem
    exact (Sound.root holds dense none).size_le
  | inner _ _ fits _ _ ih =>
    rcases List.mem_cons.mp mem with rfl | outer
    · exact fits
    · exact ih outer

/-- No roster has a symbol exactly if no frame has it. -/
theorem nearest?_eq_none_iff (sound : Sound frames rosters) (s : SymbolId) :
    nearest? s rosters = none ↔ ∀ g ∈ frames, g.get? s = none := by
  have step : ∀ {f : Frame} {r : Roster} {rest : List Roster}, f.Holds r →
      (nearest? s (r :: rest) = none ↔ f.get? s = none ∧ nearest? s rest = none) := by
    intro f r rest holds
    rw [nearest?, holds.get?_eq_none_iff]
    cases r.find? s <;> simp
  induction sound with
  | root holds => rw [step holds, List.forall_mem_singleton, nearest?, and_iff_left rfl]
  | inner holds _ _ _ _ ih =>
    rw [step holds, List.forall_mem_cons]
    exact and_congr_right' ih

/-- The same for the functions around the current one. -/
theorem nearest?_eq_none_iff_tail (sound : Sound (f :: frames) (r :: rosters)) (s : SymbolId) :
    nearest? s rosters = none ↔ ∀ g ∈ frames, g.get? s = none := by
  cases sound with
  | root => exact ⟨fun _ _ mem => absurd mem List.not_mem_nil, fun _ => rfl⟩
  | inner _ _ _ _ outside => exact outside.nearest?_eq_none_iff s

/-- Every entry of a free list leads to a live variable of a function further out. -/
theorem origin?_eq_some (sound : Sound frames rosters) {outer : List Frame}
    (first : frames = f :: outer) (entry : i < f.free.size) :
    ∃ q v roster, origin? frames i = some (q, v.slot) ∧ q < outer.length ∧
      at? q rosters = some roster ∧ roster.holder? v.slot = some v := by
  induction sound generalizing f outer i with
  | root _ _ none =>
    cases first
    rw [← Numbering.length_toList, none] at entry
    exact absurd entry (Nat.not_lt_zero _)
  | @inner g _ parent around further rosters _ _ _ anchored sound ih =>
    cases first
    have lengths : further.length = rosters.length := Nat.succ.inj sound.length_eq
    rw [← Numbering.length_toList] at entry
    obtain ⟨⟨isLocal, index⟩, known, tied⟩ :
        ∃ c, g.free.get? i = some c ∧ Anchored parent around c :=
      ⟨_, List.getElem?_eq_getElem entry, anchored _ (List.getElem_mem entry)⟩
    rw [origin?, known]
    cases isLocal with
    | true =>
      obtain ⟨v, mem, slot⟩ := tied
      refine ⟨further.length, v, around, by rw [slot], Nat.lt_succ_self _, ?_,
        sound.dense.holder?_eq_some mem⟩
      rw [at?_cons_of_lt (by rw [lengths]; exact Nat.lt_succ_self _), lengths, at?_length]
    | false =>
      obtain ⟨q, v, roster, leads, within, place, holder⟩ := ih rfl tied
      refine ⟨q, v, roster, leads, Nat.lt_succ_of_lt within, ?_, holder⟩
      rw [at?_cons_of_lt (by rw [List.length_cons]; omega), place]

end Sound

/-- Longer free lists lead from their old entries to the same slots. -/
theorem origin?_mono {frames' : List Frame} {place : Nat × Nat}
    (grow : List.Forall₂ Frame.FreeGrows frames frames') (leads : origin? frames i = some place) :
    origin? frames' i = some place := by
  induction grow generalizing i with
  | nil => cases leads
  | cons here rest ih =>
    rename_i f f' frames frames'
    cases rest with
    | nil => cases leads
    | @cons _ _ _ _ _ rest' =>
      rw [origin?] at leads ⊢
      cases known : f.free.get? i with
      | none =>
        rw [known] at leads
        cases leads
      | some c =>
        have kept : f'.free.get? i = some c := here.get?_eq_some known
        rw [known] at leads
        rw [kept]
        obtain ⟨isLocal, index⟩ := c
        cases isLocal with
        | true =>
          rw [← leads, rest'.length_eq]
        | false => exact ih leads

/-- What taking over a symbol gives: sessions stay sound, free lists grow, and the index
leads to the symbol's variable in the nearest function that has one, which is captured. -/
theorem FrameStack.TakesOver.leads {s : SymbolId} {f : Frame} {frames : List Frame}
    {index : UInt16} {fs : FrameStack} (rel : TakesOver s f frames index fs) {r : Roster}
    {rosters : List Roster} (sound : Sound (f :: frames) (r :: rosters)) :
    Sound fs.toList (r :: rosters) ∧ List.Forall₂ Frame.FreeGrows (f :: frames) fs.toList ∧
      index.toNat < fs.current.free.size ∧
      ∃ q v, nearest? s rosters = some (q, v) ∧ origin? fs.toList index.toNat = some (q, v.slot) ∧
        (at? q fs.toList).bind (·.get? s) = some ⟨.ofNat v.slot, true⟩ := by
  induction rel generalizing r rosters with
  | @found _ _ outer l index f' known taken blocks =>
    cases sound with
    | @inner _ _ _ _ _ rosters holds dense fits anchored outside =>
      obtain ⟨entry, grows, fits', entries⟩ := Frame.takeOver_spec fits taken
      obtain ⟨v, live, slot⟩ := outside.holds.find?_eq_some known
      have lengths : outer.length = rosters.length := Nat.succ.inj outside.length_eq
      have index_eq : l.index = .ofNat v.slot := by rw [slot, UInt16.ofNat_toNat]
      have holds' : f'.Holds r := by
        rw [Frame.Holds, blocks]
        exact holds
      refine ⟨.inner holds' dense fits' (fun c mem => ?_)
        (outside.replace (outside.holds.capture s) outside.dense rfl), ?_, ?_, outer.length, v, ?_⟩
      · rcases entries c mem with old | rfl
        · exact (anchored c old).mono List.prefix_rfl
        · exact ⟨v, Roster.mem_of_find? live, slot⟩
      · exact .cons grows (.cons List.prefix_rfl (List.forall₂_same.mpr fun _ _ => List.prefix_rfl))
      · rw [← Numbering.length_toList]
        exact (List.getElem?_eq_some_iff.mp entry).1
      · refine ⟨?_, ?_, ?_⟩
        · rw [nearest?, live, lengths]
        · rw [FrameStack.toList, origin?, entry, slot]
        · rw [FrameStack.toList, at?_cons_of_lt (Nat.lt_succ_self _), at?_length, ← index_eq]
          exact Frame.get?_capture known
  | @through _ _ _ _ around _ f' unknown _ taken blocks ih =>
    cases sound with
    | @inner _ _ _ _ _ _ holds dense fits anchored outside =>
      obtain ⟨entry, grows, fits', entries⟩ := Frame.takeOver_spec fits taken
      obtain ⟨outside', grow, given, q, v, near, leads, flagged⟩ := ih outside
      have dead := outside.holds.get?_eq_none_iff.mp unknown
      have holds' : f'.Holds r := by
        rw [Frame.Holds, blocks]
        exact holds
      have within : q < around.toList.length := by
        have := nearest?_lt near
        rw [outside'.length_eq, List.length_cons]
        omega
      refine ⟨.inner holds' dense fits' (fun c mem => ?_) outside', .cons grows grow, ?_, q, v, ?_⟩
      · rcases entries c mem with old | rfl
        · cases grow with
          | cons parentGrows => exact (anchored c old).mono parentGrows
        · exact given
      · rw [← Numbering.length_toList]
        exact (List.getElem?_eq_some_iff.mp entry).1
      · refine ⟨?_, ?_, ?_⟩
        · rw [nearest?, dead]
          exact near
        · change origin? (f' :: around.current :: around.enclosing) _ = _
          rw [origin?, entry]
          exact leads
        · change (at? q (f' :: around.toList)).bind _ = _
          rw [at?_cons_of_lt within]
          exact flagged

/-- What a symbol is resolved to, by the variables that are live: a local of the current
function, an entry of its free list, which can only fail where a free list is full, or
nothing. -/
theorem Session.resolve_cases {st : Session} (sound : Sound st.frames.toList st.ledger.toList)
    (s : SymbolId) :
    (∃ v index, st.ledger.current.find? s = some v ∧ index.toNat = v.slot ∧
      st.frames.resolve s = .ok (some ⟨.localSlot, index⟩, st.frames)) ∨
    (st.ledger.current.find? s = none ∧ nearest? s st.ledger.enclosing = none ∧
      st.frames.resolve s = .ok (none, st.frames)) ∨
    (st.ledger.current.find? s = none ∧ ∃ q v, nearest? s st.ledger.enclosing = some (q, v) ∧
      ((∃ index fs, st.frames.resolve s = .ok (some ⟨.free, index⟩, fs) ∧
          FrameStack.TakesOver s st.frames.current st.frames.enclosing index fs) ∨
        (st.frames.resolve s = .error (.slotOverflow .free) ∧
          ∃ f ∈ st.frames.toList, f.free.size = slotLimit))) := by
  cases live : st.ledger.current.find? s with
  | some v =>
    obtain ⟨l, known, slot⟩ := sound.holds.get?_eq_some live
    refine .inl ⟨v, l.index, rfl, slot, ?_⟩
    rw [FrameStack.resolve, known]
  | none =>
    have unknown := sound.holds.get?_eq_none_iff.mpr live
    have elsewhere := sound.nearest?_eq_none_iff_tail s
    cases near : nearest? s st.ledger.enclosing with
    | none =>
      refine .inr (.inl ⟨rfl, rfl, ?_⟩)
      rw [FrameStack.resolve, unknown]
      simp only [FrameStack.takeOverFrom_of_unknown (elsewhere.mp near)]
      rfl
    | some place =>
      refine .inr (.inr ⟨rfl, place.1, place.2, rfl, ?_⟩)
      rw [FrameStack.resolve, unknown]
      rcases FrameStack.takeOverFrom_cases s st.frames.current st.frames.enclosing with
        ⟨index, fs, taken, rel⟩ | ⟨_, nowhere⟩ | full
      · refine .inl ⟨index, fs, ?_, rel⟩
        simp only [taken]
        rfl
      · rw [elsewhere.mpr nowhere] at near
        cases near
      · obtain ⟨g, mem, large⟩ := FrameStack.full_of_takeOverFrom full
        refine .inr ⟨?_, g, mem, Nat.le_antisymm (sound.size_le_of_mem mem) large⟩
        simp only [full]
        rfl

/-! ### Steps -/

theorem FrameStack.popBlock_snd (fs : FrameStack) :
    fs.popBlock.2 = ⟨{ fs.current with blocks := fs.current.blocks.tail }, fs.enclosing⟩ := by
  obtain ⟨⟨blocks, free⟩, enclosing⟩ := fs
  cases blocks <;> rfl

theorem FrameStack.put_eq_ok {fs' : FrameStack} (run : fs.put s = .ok fs') :
    ∃ f, fs.current.put s = .ok f ∧ fs' = { fs with current := f } := by
  unfold FrameStack.put at run
  obtain ⟨f, put, ended⟩ := except_bind_eq_ok.mp run
  cases ended
  exact ⟨f, put, rfl⟩

namespace Session

variable {st st' : Session} {floor : Nat}

/-- Between two sessions, the function with `p` functions around it stays open: no free list
up to there loses an entry, and the rosters around it stay as they are. -/
structure Keeps (p : Nat) (st st' : Session) : Prop where
  deep : p ≤ st'.frames.enclosing.length
  free : List.Forall₂ Frame.FreeGrows (since p st.frames.toList) (since p st'.frames.toList)
  rosters : ∀ q < p, at? q st'.ledger.toList = at? q st.ledger.toList

theorem forall₂_freeGrows_refl (frames : List Frame) : List.Forall₂ Frame.FreeGrows frames frames :=
  List.forall₂_same.mpr fun _ _ => List.prefix_rfl

theorem forall₂_freeGrows_trans {fs gs hs : List Frame} (first : List.Forall₂ Frame.FreeGrows fs gs)
    (second : List.Forall₂ Frame.FreeGrows gs hs) : List.Forall₂ Frame.FreeGrows fs hs := by
  induction first generalizing hs with
  | nil => exact second
  | cons here _ ih =>
    cases second with
    | cons here' rest => exact .cons (here.trans here') (ih rest)

variable {step : Step} {steps : List Step} {f : Frame}

namespace Keeps

variable {p : Nat} {st'' : Session}

theorem refl (deep : p ≤ st.frames.enclosing.length) : Keeps p st st :=
  ⟨deep, forall₂_freeGrows_refl _, fun _ _ => rfl⟩

theorem trans (first : Keeps p st st') (second : Keeps p st' st'') : Keeps p st st'' where
  deep := second.deep
  free := forall₂_freeGrows_trans first.free second.free
  rosters q below := (second.rosters q below).trans (first.rosters q below)

/-- The current function is the only one that changes. -/
theorem of_current {r : Roster} {made : Nat} (deep : p ≤ st.frames.enclosing.length)
    (lengths : st.frames.enclosing.length = st.ledger.enclosing.length)
    (free : f.free = st.frames.current.free) :
    Keeps p st ⟨⟨f, st.frames.enclosing⟩, ⟨r, st.ledger.enclosing, made⟩⟩ := by
  refine ⟨deep, ?_, fun q below => ?_⟩
  · refine forall₂_since (.cons ?_ (forall₂_freeGrows_refl _)) p
    exact .of_eq free
  · have within : q < st.ledger.enclosing.length := by omega
    exact (at?_cons_of_lt within).trans (at?_cons_of_lt within).symm

end Keeps

theorem run?_cons_eq_some :
    st.run? floor (step :: steps) = some st' ↔
      ∃ next, st.step? floor step = some next ∧ next.run? floor steps = some st' := by
  rw [run?, List.foldlM_cons]
  exact Option.bind_eq_some_iff

theorem step?_put_eq_some (run : st.step? floor (.put s) = some st') :
    st.ledger.current.find? s = none ∧
      ∃ frames, st.frames.put s = .ok frames ∧ st' = ⟨frames, st.ledger.put s⟩ := by
  simp only [step?] at run
  split at run
  · cases run
  · rename_i fresh
    refine ⟨Option.not_isSome_iff_eq_none.mp fresh, ?_⟩
    cases put : st.frames.put s with
    | error =>
      rw [put] at run
      cases run
    | ok frames =>
      rw [put] at run
      cases run
      exact ⟨frames, rfl, rfl⟩

theorem step?_resolve_eq_some (run : st.step? floor (.resolve s) = some st') :
    ∃ slot frames, st.frames.resolve s = .ok (slot, frames) ∧ st' = { st with frames } := by
  simp only [step?] at run
  cases resolved : st.frames.resolve s with
  | error =>
    rw [resolved] at run
    cases run
  | ok result =>
    rw [resolved] at run
    cases run
    exact ⟨result.1, result.2, rfl, rfl⟩

/-- Resolving a symbol leaves the frames as they are, or takes the symbol over. -/
theorem step?_resolve_cases (sound : Sound st.frames.toList st.ledger.toList)
    (run : st.step? floor (.resolve s) = some st') :
    st' = st ∨ ∃ index frames, st' = { st with frames } ∧
      FrameStack.TakesOver s st.frames.current st.frames.enclosing index frames := by
  obtain ⟨slot, frames, resolved, rfl⟩ := step?_resolve_eq_some run
  rcases resolve_cases sound s with ⟨v, index, _, _, same⟩ | ⟨_, _, same⟩ |
    ⟨_, q, v, _, ⟨index, fs, same, rel⟩ | ⟨same, _⟩⟩
  · cases same.symm.trans resolved
    exact .inl rfl
  · cases same.symm.trans resolved
    exact .inl rfl
  · cases same.symm.trans resolved
    exact .inr ⟨index, frames, rfl, rel⟩
  · cases same.symm.trans resolved

/-- Every step keeps a session sound. -/
theorem sound_step (sound : Sound st.frames.toList st.ledger.toList)
    (run : st.step? floor step = some st') : Sound st'.frames.toList st'.ledger.toList := by
  obtain ⟨⟨f, frames⟩, ⟨r, rosters, made⟩⟩ := st
  cases step with
  | pushFrame =>
    cases run
    exact .inner .empty rfl (Nat.zero_le _) (fun c mem => absurd mem List.not_mem_nil) sound
  | popFrame =>
    simp only [step?] at run
    split at run
    · cases run
      cases sound with
      | root => contradiction
      | inner _ _ _ _ outside => exact outside
    · cases run
  | pushBlock =>
    cases run
    exact sound.replace (.cons .empty sound.holds) sound.dense rfl
  | popBlock =>
    cases run
    rw [FrameStack.popBlock_snd]
    exact sound.replace sound.holds.tail sound.dense.tail rfl
  | put s =>
    obtain ⟨fresh, frames', put, rfl⟩ := step?_put_eq_some run
    obtain ⟨f', put', rfl⟩ := FrameStack.put_eq_ok put
    obtain ⟨holds, free⟩ := sound.holds.put fresh made put'
    exact sound.replace holds (sound.dense.push s made) free
  | resolve =>
    obtain rfl | ⟨index, frames', rfl, rel⟩ := step?_resolve_cases sound run
    · exact sound
    · exact (rel.leads sound).1

/-- A function stays open while steps are taken that do not leave it. -/
theorem keeps_step (sound : Sound st.frames.toList st.ledger.toList)
    (deep : floor ≤ st.frames.enclosing.length) (run : st.step? floor step = some st') :
    Keeps floor st st' := by
  have lengths : st.frames.enclosing.length = st.ledger.enclosing.length :=
    Nat.succ.inj sound.length_eq
  cases step with
  | pushFrame =>
    cases run
    refine ⟨Nat.le_succ_of_le deep, ?_, fun q below => at?_cons_of_lt ?_⟩
    · have inside : since floor st.frames.pushFrame.toList = since floor st.frames.toList :=
        since_cons_of_lt (Nat.lt_succ_of_le deep)
      rw [inside]
      exact forall₂_freeGrows_refl _
    · change q < st.ledger.enclosing.length + 1
      omega
  | popFrame =>
    simp only [step?] at run
    split at run
    · rename_i below
      cases run
      obtain ⟨⟨f, frames⟩, ⟨r, rosters, made⟩⟩ := st
      cases frames with
      | nil => cases below
      | cons parent outer =>
        cases rosters with
        | nil => cases lengths
        | cons =>
          refine ⟨Nat.le_of_lt_succ below, ?_, fun q lower => (at?_cons_of_lt ?_).symm⟩
          · have inside : since floor (f :: parent :: outer) = since floor (parent :: outer) :=
              since_cons_of_lt below
            change List.Forall₂ _ (since floor (f :: parent :: outer)) _
            rw [inside]
            exact forall₂_freeGrows_refl _
          · have := Nat.lt_trans lower below
            exact lengths ▸ this
    · cases run
  | pushBlock =>
    cases run
    exact .of_current deep lengths rfl
  | popBlock =>
    cases run
    rw [FrameStack.popBlock_snd]
    exact .of_current deep lengths rfl
  | put =>
    obtain ⟨fresh, frames', put, rfl⟩ := step?_put_eq_some run
    obtain ⟨f', put', rfl⟩ := FrameStack.put_eq_ok put
    exact .of_current deep lengths (sound.holds.put fresh 0 put').2
  | resolve =>
    obtain rfl | ⟨index, frames', rfl, rel⟩ := step?_resolve_cases sound run
    · exact .refl deep
    · have grow := (rel.leads sound).2.1
      refine ⟨?_, forall₂_since grow floor, fun _ _ => rfl⟩
      have := grow.length_eq
      simp only [FrameStack.toList, List.length_cons] at this
      change floor ≤ frames'.enclosing.length
      omega

/-- Runs from a sound session are sound, and keep open what they do not leave. -/
theorem keeps_run (sound : Sound st.frames.toList st.ledger.toList)
    (deep : floor ≤ st.frames.enclosing.length) (run : st.run? floor steps = some st') :
    Sound st'.frames.toList st'.ledger.toList ∧ Keeps floor st st' := by
  induction steps generalizing st with
  | nil =>
    cases run
    exact ⟨sound, .refl deep⟩
  | cons _ _ ih =>
    obtain ⟨next, first, others⟩ := run?_cons_eq_some.mp run
    have kept := keeps_step sound deep first
    obtain ⟨sound', kept'⟩ := ih (sound_step sound first) kept.deep others
    exact ⟨sound', kept.trans kept'⟩

theorem sound_start : Sound start.frames.toList start.ledger.toList := .root .empty rfl rfl

/-- What an entry of a free list stands for does not change while its function is open. -/
theorem Keeps.denotes? {p i : Nat} {v : Variable} (kept : Keeps p st st')
    (denotes : st.denotes? p i = some v) : st'.denotes? p i = some v := by
  simp only [Session.denotes?, Option.bind_eq_bind, Option.bind_eq_some_iff] at denotes ⊢
  obtain ⟨⟨q, slot⟩, leads, roster, place, holder⟩ := denotes
  have below : q < p := by
    have := origin?_lt leads
    have := length_since_le p st.frames.toList
    omega
  have place' := (kept.rosters q below).trans place
  exact ⟨(q, slot), origin?_mono kept.free leads, roster, place', holder⟩

/-- Every entry of a free list stands for a variable. -/
theorem exists_denotes? (sound : Sound st.frames.toList st.ledger.toList) {p : Nat}
    (place : at? p st.frames.toList = some f) (entry : i < f.free.size) :
    ∃ v, st.denotes? p i = some v := by
  have length := length_since_le p st.frames.toList
  obtain ⟨outer, split⟩ : ∃ outer, since p st.frames.toList = f :: outer :=
    List.head?_eq_some_iff.mp place
  have deep := lt_of_at? place
  obtain ⟨q, v, roster, leads, within, origin, holder⟩ :=
    (sound.since deep).origin?_eq_some split entry
  rw [split, List.length_cons] at length
  rw [at?_since (sound.length_eq ▸ deep) (by omega)] at origin
  refine ⟨v, ?_⟩
  simp only [denotes?, Option.bind_eq_bind, Option.bind_eq_some_iff]
  exact ⟨(q, v.slot), leads, roster, origin, holder⟩

/-- An index that is given out stands for the variable of the symbol in the nearest function
around. -/
theorem denotes?_of_takesOver {v : Variable} (sound : Sound st.frames.toList st.ledger.toList)
    (rel : FrameStack.TakesOver s st.frames.current st.frames.enclosing index fs)
    (near : nearest? s st.ledger.enclosing = some (q, v)) :
    denotes? ⟨fs, st.ledger⟩ st.frames.enclosing.length index.toNat = some v := by
  obtain ⟨_, grow, _, q', v', near', leads, _⟩ := rel.leads sound
  cases near.symm.trans near'
  obtain ⟨roster, place, live⟩ := at?_of_nearest? near
  have depth : st.frames.enclosing.length = fs.enclosing.length := Nat.succ.inj grow.length_eq
  have place' : at? q st.ledger.toList = some roster :=
    (at?_cons_of_lt (nearest?_lt near)).trans place
  simp only [denotes?, Option.bind_eq_bind, Option.bind_eq_some_iff]
  rw [depth, FrameStack.toList, since_length]
  exact ⟨(q, v.slot), leads, roster, place',
    (sound.dense_of_at? place').holder?_eq_some (Roster.mem_of_find? live)⟩

section Resolved

/-- A symbol is local exactly when the current function has a variable of it. -/
theorem resolve_eq_local_iff (sound : Sound st.frames.toList st.ledger.toList) :
    st.frames.resolve s = .ok (some ⟨.localSlot, index⟩, fs) ↔
      fs = st.frames ∧ ∃ v, st.ledger.current.find? s = some v ∧ v.slot = index.toNat := by
  rcases resolve_cases sound s with ⟨v, index', live, slot, same⟩ | ⟨dead, _, same⟩ |
    ⟨dead, q, v, _, ⟨index', fs', same, _⟩ | ⟨same, _⟩⟩
  · rw [same, live]
    constructor
    · rintro ⟨⟩
      exact ⟨rfl, v, rfl, slot.symm⟩
    · rintro ⟨rfl, w, found, slot'⟩
      cases found
      rw [UInt16.toNat_inj.mp (slot.trans slot')]
  all_goals
    rw [same, dead]
    simp

/-- A symbol is unknown exactly when no open function has a variable of it. -/
theorem resolve_eq_none_iff (sound : Sound st.frames.toList st.ledger.toList) :
    st.frames.resolve s = .ok (none, fs) ↔
      fs = st.frames ∧ st.ledger.current.find? s = none ∧
        nearest? s st.ledger.enclosing = none := by
  rcases resolve_cases sound s with ⟨v, index', live, slot, same⟩ | ⟨dead, nowhere, same⟩ |
    ⟨dead, q, v, near, ⟨index', fs', same, _⟩ | ⟨same, _⟩⟩
  · rw [same, live]
    simp
  · rw [same, dead, nowhere]
    simp [eq_comm]
  all_goals
    rw [same, near]
    simp

/-- A symbol is free, or would be if no free list were full, exactly when only functions around
the current one have a variable of it. -/
theorem resolve_free_iff (sound : Sound st.frames.toList st.ledger.toList) :
    (∃ index fs, st.frames.resolve s = .ok (some ⟨.free, index⟩, fs)) ∨
        (st.frames.resolve s = .error (.slotOverflow .free) ∧
          ∃ f ∈ st.frames.toList, f.free.size = slotLimit) ↔
      st.ledger.current.find? s = none ∧ (nearest? s st.ledger.enclosing).isSome := by
  rcases resolve_cases sound s with ⟨v, index', live, slot, same⟩ | ⟨dead, nowhere, same⟩ |
    ⟨dead, q, v, near, ⟨index', fs', same, _⟩ | ⟨same, full⟩⟩
  · rw [same, live]
    simp
  · rw [same, nowhere]
    simp
  · rw [same, dead, near]
    simp
  · rw [same, dead, near]
    simpa using full

/-- A free symbol stands for the variable in the nearest function around, where it is
captured. -/
theorem exists_nearest?_of_free (sound : Sound st.frames.toList st.ledger.toList)
    (resolved : st.frames.resolve s = .ok (some ⟨.free, index⟩, fs)) :
    ∃ q v, nearest? s st.ledger.enclosing = some (q, v) ∧
      origin? fs.toList index.toNat = some (q, v.slot) ∧
      (at? q fs.toList).bind (·.get? s) = some ⟨.ofNat v.slot, true⟩ ∧
      denotes? ⟨fs, st.ledger⟩ st.frames.enclosing.length index.toNat = some v := by
  rcases resolve_cases sound s with ⟨v, index', live, slot, same⟩ | ⟨dead, _, same⟩ |
    ⟨dead, q, v, near, ⟨index', fs', same, rel⟩ | ⟨same, _⟩⟩
  · cases same.symm.trans resolved
  · cases same.symm.trans resolved
  · cases same.symm.trans resolved
    obtain ⟨_, _, _, q', v', near', leads, flagged⟩ := rel.leads sound
    cases near.symm.trans near'
    exact ⟨q, v, near, leads, flagged, denotes?_of_takesOver sound rel near⟩
  · cases same.symm.trans resolved

end Resolved

/-- After any steps, a symbol is resolved by the variables that are live. It is local exactly
when the current function has a variable of it, whose slot is given, and unknown exactly when
no open function has one. Otherwise it is free, unless a free list is full: the index leads to
the slot of the variable in the nearest function around that has one, and the local there is
captured. Every entry of a free list stands for the same variable until its function is left. -/
theorem resolve_correct {steps : List Step} (run : start.run? 0 steps = some st) :
    (∀ s index fs, st.frames.resolve s = .ok (some ⟨.localSlot, index⟩, fs) ↔
      fs = st.frames ∧ ∃ v, st.ledger.current.find? s = some v ∧ v.slot = index.toNat) ∧
    (∀ s fs, st.frames.resolve s = .ok (none, fs) ↔
      fs = st.frames ∧ st.ledger.current.find? s = none ∧
        nearest? s st.ledger.enclosing = none) ∧
    (∀ s, (∃ index fs, st.frames.resolve s = .ok (some ⟨.free, index⟩, fs)) ∨
        (st.frames.resolve s = .error (.slotOverflow .free) ∧
          ∃ f ∈ st.frames.toList, f.free.size = slotLimit) ↔
      st.ledger.current.find? s = none ∧ (nearest? s st.ledger.enclosing).isSome) ∧
    (∀ s index fs, st.frames.resolve s = .ok (some ⟨.free, index⟩, fs) →
      ∃ q v, nearest? s st.ledger.enclosing = some (q, v) ∧
        origin? fs.toList index.toNat = some (q, v.slot) ∧
        (at? q fs.toList).bind (·.get? s) = some ⟨.ofNat v.slot, true⟩ ∧
        denotes? ⟨fs, st.ledger⟩ st.frames.enclosing.length index.toNat = some v) ∧
    ∀ p i f, at? p st.frames.toList = some f → i < f.free.size →
      ∃ v, ∀ more st', st.run? p more = some st' → st'.denotes? p i = some v := by
  obtain ⟨sound, _⟩ := keeps_run sound_start (Nat.le_refl 0) run
  refine ⟨fun _ _ _ => resolve_eq_local_iff sound, fun _ _ => resolve_eq_none_iff sound,
    fun _ => resolve_free_iff sound, fun _ _ _ => exists_nearest?_of_free sound,
    fun p i f place entry => ?_⟩
  obtain ⟨v, denotes⟩ := exists_denotes? sound place entry
  refine ⟨v, fun more st' run' => ?_⟩
  obtain ⟨_, kept⟩ := keeps_run sound (Nat.le_of_lt_succ (lt_of_at? place)) run'
  exact kept.denotes? denotes

/-- A function with two variables, of which the second is used two functions further in. The
slot of the second was used before, by a variable that is gone. -/
def captureTwice : List Step :=
  [.pushFrame, .pushBlock, .put 7, .pushBlock, .put 8, .popBlock, .put 9, .pushFrame, .pushBlock,
    .put 8, .pushFrame, .resolve 9]

theorem captureTwice_resolves :
    ∃ st fs, start.run? 0 captureTwice = some st ∧
      st.frames.resolve 9 = .ok (some ⟨.free, 0⟩, fs) ∧
      origin? fs.toList 0 = some (1, 1) ∧
      denotes? ⟨fs, st.ledger⟩ 3 0 = some ⟨9, 1, 2⟩ := by
  have facts : ((start.run? 0 captureTwice).map fun st =>
      ((st.frames.resolve 9).toOption.map (·.1), nearest? 9 st.ledger.enclosing,
        st.frames.enclosing.length)) =
      some (some (some ⟨.free, 0⟩), some (1, ⟨9, 1, 2⟩), 3) := by decide +kernel
  obtain ⟨st, run, facts⟩ := Option.map_eq_some_iff.mp facts
  simp only [Prod.mk.injEq] at facts
  obtain ⟨resolved, near, depth⟩ := facts
  cases result : st.frames.resolve 9 with
  | error =>
    rw [result] at resolved
    cases resolved
  | ok value =>
    obtain ⟨slot, fs⟩ := value
    rw [result] at resolved
    cases resolved
    obtain ⟨q, v, near', leads, _, denotes⟩ := (resolve_correct run).2.2.2.1 9 0 fs result
    cases near.symm.trans near'
    exact ⟨st, fs, run, result, leads, depth ▸ denotes⟩

end Session

end Storage

end Bindery
