import Bindery.Proofs.Contents
import Mathlib.Data.List.Forall2

/-!
Which variables are live.

A ledger keeps the variables of the open functions by block. It gives every variable the next
slot of its function and forgets variables with their block; of captures it knows nothing. The
slots of a function's variables are those from 0 on (`Roster.Dense`), so each slot has one
variable. `Frame.Holds` says that the locals of a frame are the variables of a roster; what is
done with the one and the other keeps it.
-/

namespace Bindery.Storage

/-! ### Live variables -/

/-- A variable: its symbol, its slot, and the number of variables made before it. -/
structure Variable where
  symbol : SymbolId
  slot : Nat
  serial : Nat
deriving DecidableEq, Repr

/-- The live variables of a function by block, the innermost block and the newest variable
first. -/
abbrev Roster := List (List Variable)

variable {s : SymbolId} {rosters : List Roster} {q : Nat} {v : Variable} {l : Local}

namespace Roster

def find? (r : Roster) (s : SymbolId) : Option Variable :=
  r.findSome? fun block => block.find? fun v => v.symbol = s

def push (r : Roster) (v : Variable) : Roster :=
  match r with
  | [] => [[v]]
  | block :: outer => (v :: block) :: outer

/-- The slots in use are those from 0 on, each by one variable. -/
def Dense (r : Roster) : Prop := r.flatten.map Variable.slot = (List.range r.flatten.length).reverse

variable {r : Roster} {v : Variable}

theorem mem_of_find? (found : r.find? s = some v) : v ∈ r.flatten := by
  obtain ⟨block, mem, inside⟩ := List.exists_of_findSome?_eq_some found
  exact List.mem_flatten.mpr ⟨block, mem, List.mem_of_find?_eq_some inside⟩

theorem flatten_push (r : Roster) (v : Variable) : (r.push v).flatten = v :: r.flatten := by
  cases r <;> rfl

/-- A new variable gets the next slot. -/
theorem Dense.push {r : Roster} (dense : r.Dense) (s : SymbolId) (serial : Nat) :
    (r.push ⟨s, r.flatten.length, serial⟩).Dense := by
  unfold Dense at dense ⊢
  rw [flatten_push, List.map_cons, dense, List.length_cons, List.range_succ, List.reverse_append]
  rfl

/-- Without its innermost block, a roster has the lower slots. -/
theorem Dense.tail {r : Roster} (dense : r.Dense) : Dense r.tail := by
  cases r with
  | nil => exact dense
  | cons block =>
    unfold Dense at dense ⊢
    have lower := congrArg (List.drop block.length) dense
    rw [List.flatten_cons, List.map_append, List.drop_left' (List.length_map _), List.length_append,
      List.drop_reverse, List.length_range, Nat.add_sub_cancel_left, List.take_range,
      Nat.min_eq_left (Nat.le_add_left ..)] at lower
    exact lower

def holder? (r : Roster) (slot : Nat) : Option Variable := r.flatten.find? fun v => v.slot = slot

/-- A slot has one holder. -/
theorem Dense.holder?_eq_some (dense : r.Dense) (mem : v ∈ r.flatten) :
    r.holder? v.slot = some v := by
  have distinct : (r.flatten.map Variable.slot).Nodup := by
    rw [dense]
    exact List.pairwise_reverse.mpr (List.nodup_range.imp Ne.symm)
  obtain ⟨newer, older, split⟩ := List.append_of_mem mem
  rw [split, List.map_append, List.map_cons] at distinct
  refine List.find?_eq_some_iff_append.mpr ⟨decide_eq_true rfl, newer, older, split, ?_⟩
  intro w here
  have different : w.slot ≠ v.slot :=
    (List.nodup_append.mp distinct).2.2 _ (List.mem_map_of_mem here) _ List.mem_cons_self
  simpa using different

end Roster

/-- The live variables of the current function and of the functions around it, and the number
of variables made so far. -/
structure Ledger where
  current : Roster
  enclosing : List Roster
  made : Nat

namespace Ledger

def empty : Ledger := ⟨[], [], 0⟩

def toList (l : Ledger) : List Roster := l.current :: l.enclosing

def pushFrame (l : Ledger) : Ledger := ⟨[], l.current :: l.enclosing, l.made⟩

def popFrame (l : Ledger) : Ledger := ⟨l.enclosing.headD [], l.enclosing.tail, l.made⟩

def pushBlock (l : Ledger) : Ledger := { l with current := [] :: l.current }

def popBlock (l : Ledger) : Ledger := { l with current := l.current.tail }

/-- Makes a variable. Its slot is the number of variables that its function has. -/
def put (l : Ledger) (s : SymbolId) : Ledger :=
  { l with current := l.current.push ⟨s, l.current.flatten.length, l.made⟩, made := l.made + 1 }

end Ledger

/-- The nearest of some rosters that has a variable of the symbol: how many rosters are
behind it, and the variable. -/
def nearest? (s : SymbolId) : List Roster → Option (Nat × Variable)
  | [] => none
  | r :: outer =>
    match r.find? s with
    | some v => some (outer.length, v)
    | none => nearest? s outer

/-- The nearest variable belongs to an open function. -/
theorem nearest?_lt (found : nearest? s rosters = some (q, v)) : q < rosters.length := by
  induction rosters with
  | nil => cases found
  | cons _ _ ih =>
    rw [nearest?] at found
    split at found
    · cases found
      exact Nat.lt_succ_self _
    · exact Nat.lt_succ_of_lt (ih found)

/-! ### Positions -/

section Positions

variable {α β : Type}

/-- The part of a list from the member that has `p` others behind it. -/
def since (p : Nat) : List α → List α
  | [] => []
  | a :: behind => if behind.length = p then a :: behind else since p behind

def at? (p : Nat) (l : List α) : Option α := (since p l).head?

variable {p : Nat} {a : α} {behind l : List α}

theorem since_cons_of_lt (lt : p < behind.length) :
    since p (a :: behind) = since p behind := if_neg (Nat.ne_of_gt lt)

@[simp] theorem since_length (a : α) (behind : List α) :
    since behind.length (a :: behind) = a :: behind := if_pos rfl

theorem at?_cons_of_lt (lt : p < behind.length) : at? p (a :: behind) = at? p behind := by
  rw [at?, since_cons_of_lt lt, at?]

@[simp] theorem at?_length (a : α) (behind : List α) :
    at? behind.length (a :: behind) = some a := by
  rw [at?, since_length, List.head?_cons]

theorem length_since_le (p : Nat) (l : List α) : (since p l).length ≤ p + 1 := by
  induction l with
  | nil => exact Nat.zero_le _
  | cons _ _ ih =>
    rw [since]
    split
    · rw [List.length_cons]
      omega
    · exact ih

theorem lt_of_at? (place : at? p l = some a) : p < l.length := by
  induction l with
  | nil => cases place
  | cons _ _ ih =>
    rw [at?, since] at place
    split at place
    · rw [List.length_cons]
      omega
    · exact Nat.lt_succ_of_lt (ih place)

/-- What is further out is the same from any function on. -/
theorem at?_since (within : p < l.length) (le : q ≤ p) : at? q (since p l) = at? q l := by
  induction l with
  | nil => rfl
  | cons _ _ ih =>
    rw [since]
    split
    · rfl
    · rw [List.length_cons] at within
      rw [ih (by omega), at?_cons_of_lt (by omega)]

theorem forall₂_since {R : α → β → Prop} {m : List β} (all : List.Forall₂ R l m) (p : Nat) :
    List.Forall₂ R (since p l) (since p m) := by
  induction all with
  | nil => exact .nil
  | @cons _ _ _ _ here rest ih =>
    rw [since, since, rest.length_eq]
    split
    · exact .cons here rest
    · exact ih

end Positions

/-- The nearest variable is found in its own function. -/
theorem at?_of_nearest? (found : nearest? s rosters = some (q, v)) :
    ∃ r, at? q rosters = some r ∧ r.find? s = some v := by
  induction rosters with
  | nil => cases found
  | cons r outer ih =>
    rw [nearest?] at found
    split at found
    · rename_i live
      cases found
      exact ⟨r, at?_length r outer, live⟩
    · obtain ⟨r', place, live⟩ := ih found
      exact ⟨r', (at?_cons_of_lt (nearest?_lt found)).trans place, live⟩

/-! ### Locals and rosters -/

/-- The locals of a block are the variables of a list. -/
structure Block.Holds (b : Block) (vs : List Variable) : Prop where
  slots : ∀ s, (b.get? s).map (·.index.toNat) =
    (vs.find? fun v => v.symbol = s).map Variable.slot
  size : b.size = vs.length

/-- The locals of a function are the variables of a roster, block by block. -/
def Frame.Holds (f : Frame) (r : Roster) : Prop := List.Forall₂ Block.Holds f.blocks r

namespace Block.Holds

variable {b : Block} {vs : List Variable}

theorem empty : Block.empty.Holds [] := ⟨fun _ => rfl, rfl⟩

theorem not_mem (holds : b.Holds vs) (fresh : (vs.find? fun v => v.symbol = s) = none) :
    s ∉ b.symbols := by
  have unknown := holds.slots s
  rw [fresh] at unknown
  exact (b.get?_eq_none_iff s).mp (Option.map_eq_none_iff.mp unknown)

theorem put (holds : b.Holds vs) {s : SymbolId} {slot : Nat} {l : Local} (serial : Nat)
    (fresh : (vs.find? fun v => v.symbol = s) = none) (same : l.index.toNat = slot) :
    (b.put s l).Holds (⟨s, slot, serial⟩ :: vs) := by
  refine ⟨fun t => ?_, ?_⟩
  · rw [Block.get?_put, List.find?_cons]
    by_cases here : s = t
    · simp [here, same]
    · simp [here, holds.slots t]
  · rw [← Block.length_symbols, Block.symbols_put, enlist_of_not_mem (holds.not_mem fresh),
      List.length_append, Block.length_symbols, holds.size]
    rfl

/-- Marking a local as captured moves nothing. -/
theorem recapture (holds : b.Holds vs) (known : b.get? s = some l) :
    (b.put s { l with captured := true }).Holds vs := by
  refine ⟨fun t => ?_, ?_⟩
  · rw [Block.get?_put, ← holds.slots]
    by_cases here : s = t
    · rw [if_pos here, ← here, known]
      rfl
    · rw [if_neg here]
  · rw [← Block.length_symbols, Block.symbols_put_of_get? known, Block.length_symbols, holds.size]

end Block.Holds

namespace Frame.Holds

variable {f f' : Frame} {r : Roster}

theorem empty : Frame.empty.Holds [] := .nil

/-- A frame has as many slots as its roster has variables. -/
theorem size_eq (holds : f.Holds r) : f.size = r.flatten.length := by
  obtain ⟨blocks, free⟩ := f
  change List.Forall₂ Block.Holds blocks r at holds
  change total Block.size blocks = _
  induction holds with
  | nil => rfl
  | cons here _ ih => rw [total_cons, List.flatten_cons, List.length_append, here.size, ih]

/-- A symbol has the slot that the ledger gives it. -/
theorem slot_eq (holds : f.Holds r) (s : SymbolId) :
    (f.get? s).map (·.index.toNat) = (r.find? s).map Variable.slot := by
  obtain ⟨blocks, free⟩ := f
  change List.Forall₂ Block.Holds blocks r at holds
  change (blocks.findSome? (·.get? s)).map _ = _
  unfold Roster.find?
  induction holds with
  | nil => rfl
  | @cons b vs _ _ here _ ih =>
    have slot := here.slots s
    rw [List.findSome?_cons, List.findSome?_cons]
    cases known : b.get? s with
    | some =>
      cases found : vs.find? fun v => v.symbol = s with
      | some => rwa [known, found] at slot
      | none =>
        rw [known, found] at slot
        cases slot
    | none =>
      cases found : vs.find? fun v => v.symbol = s with
      | some =>
        rw [known, found] at slot
        cases slot
      | none => exact ih

/-- A symbol that is live has its local. -/
theorem get?_eq_some (holds : f.Holds r) (live : r.find? s = some v) :
    ∃ l, f.get? s = some l ∧ l.index.toNat = v.slot := by
  have slot := holds.slot_eq s
  rw [live] at slot
  exact Option.map_eq_some_iff.mp slot

/-- A local is the variable that the ledger knows. -/
theorem find?_eq_some (holds : f.Holds r) (known : f.get? s = some l) :
    ∃ v, r.find? s = some v ∧ v.slot = l.index.toNat := by
  have slot := holds.slot_eq s
  rw [known] at slot
  exact Option.map_eq_some_iff.mp slot.symm

theorem get?_eq_none_iff (holds : f.Holds r) : f.get? s = none ↔ r.find? s = none := by
  have slot := holds.slot_eq s
  constructor
  · intro unknown
    rw [unknown] at slot
    exact Option.map_eq_none_iff.mp slot.symm
  · intro dead
    rw [dead] at slot
    exact Option.map_eq_none_iff.mp slot

theorem put (holds : f.Holds r) (fresh : r.find? s = none) (serial : Nat) (run : f.put s = .ok f') :
    f'.Holds (r.push ⟨s, r.flatten.length, serial⟩) ∧ f'.free = f.free := by
  have size := holds.size_eq
  obtain ⟨blocks, free⟩ := f
  unfold Frame.put at run
  split at run
  · cases run
  · rename_i room
    have index : (UInt16.ofNat (Frame.size ⟨blocks, free⟩)).toNat = r.flatten.length := by
      rw [UInt16.toNat_ofNat_of_lt' (Nat.not_le.mp room), size]
    cases holds with
    | nil =>
      cases run
      exact ⟨.cons (Block.Holds.empty.put serial rfl rfl) .nil, rfl⟩
    | cons here rest =>
      cases run
      have unknown := List.findSome?_eq_none_iff.mp fresh _ List.mem_cons_self
      exact ⟨.cons (here.put serial unknown index) rest, rfl⟩

theorem tail (holds : f.Holds r) : Frame.Holds { f with blocks := f.blocks.tail } r.tail := by
  obtain ⟨blocks, free⟩ := f
  cases holds with
  | nil => exact .nil
  | cons _ rest => exact rest

theorem capture (holds : f.Holds r) (s : SymbolId) : (f.capture s).Holds r := by
  have blocks : ∀ {bs : List Block} {r : Roster}, List.Forall₂ Block.Holds bs r →
      List.Forall₂ Block.Holds (captureIn s bs) r := by
    intro bs r all
    induction all with
    | nil => exact .nil
    | @cons _ _ _ _ here rest ih =>
      rw [captureIn]
      split
      · rename_i l known
        exact .cons (here.recapture known) rest
      · exact .cons here ih
  exact blocks holds

end Frame.Holds

/-- A symbol that is marked is found as before, and captured. -/
theorem Frame.get?_capture {f : Frame} (known : f.get? s = some l) :
    (f.capture s).get? s = some { l with captured := true } := by
  have blocks : ∀ bs : List Block, bs.findSome? (·.get? s) = some l →
      (captureIn s bs).findSome? (·.get? s) = some { l with captured := true } := by
    intro bs found
    induction bs with
    | nil => cases found
    | cons b _ ih =>
      rw [List.findSome?_cons] at found
      rw [captureIn]
      cases here : b.get? s with
      | some =>
        rw [here] at found
        cases found
        rw [List.findSome?_cons, Block.get?_put, if_pos rfl]
      | none =>
        rw [here] at found
        rw [List.findSome?_cons, here]
        exact ih found
  exact blocks f.blocks known

end Bindery.Storage
