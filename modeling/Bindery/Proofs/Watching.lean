import Bindery.Proofs.Placement
import Bindery.Proofs.Removals
import Bindery.Proofs.StackDiscipline

/-!
Watching a slot of the stack.

A local is given up when the value in its slot is removed from the stack, by an instruction
that closes the variable if functions have captured it, or by one that just drops the value.
`Watch.Safe` says of a place in the code that, for a number of steps and on whichever way, the
slot that is watched is not just dropped once it was captured. It is built from the end
of a piece of code to its start: there is one rule for each kind of instruction, one for
code that evaluates an expression (`Watch.Safe.moves`), and one for the removal of locals
(`Watch.Safe.removals`). What is safe for all numbers of steps is safe along every path
(`Watch.Safe.along`).
-/

namespace Bindery.Machine

variable {captures : List Capture}

/-- Whether an instruction removes the topmost value and does nothing else with it. -/
def Opcode.removes : Opcode → Bool
  | .pop | .closeFree => true
  | _ => false

namespace Instruction

/-- With `height` values on the stack, the instruction removes the one in `slot`. -/
def Removes (i : Instruction) (height slot : Nat) : Prop :=
  i.opcode.removes = true ∧ height = slot + 1

/-- The instruction hands the local in `slot` over to a function. -/
def Captures (i : Instruction) (slot : Nat) : Prop :=
  ∃ captures index, i = .closure captures ∧ (⟨true, index⟩ : Capture) ∈ captures ∧
    index.toNat = slot

variable {i : Instruction}

theorem not_removes_of_evaluates (evaluates : i.opcode.evaluates = true) (height slot : Nat) :
    ¬ i.Removes height slot := by
  rintro ⟨removes, _⟩
  cases op : i.opcode <;> simp_all [Opcode.evaluates, Opcode.removes]

theorem not_captures_of_opcode (other : i.opcode ≠ .closure) (slot : Nat) : ¬ i.Captures slot := by
  rintro ⟨captures, index, rfl, _⟩
  exact other rfl

theorem captures_closure {slot : Nat} :
    (closure captures).Captures slot ↔
      ∃ index, (⟨true, index⟩ : Capture) ∈ captures ∧ index.toNat = slot := by
  constructor
  · rintro ⟨_, index, same, mem, here⟩
    obtain rfl := Operand.captures.inj (congrArg operand same)
    exact ⟨index, mem, here⟩
  · rintro ⟨index, mem, here⟩
    exact ⟨captures, index, rfl, mem, here⟩

theorem eq_closeFree (closes : i.opcode = .closeFree) : i = .closeFree := by
  obtain ⟨op, operand, shape⟩ := i
  cases closes
  cases operand <;> first | rfl | cases shape

/-- Only the effect of a call depends on the number of arguments. -/
theorem effect_congr {a b : Nat} (same : i.opcode = .call → a = b) (taken : Bool) :
    i.effect a taken = i.effect b taken := by
  obtain ⟨op, operand, shape⟩ := i
  cases op with
  | call => rw [same rfl]
  | concat => cases operand <;> first | rfl | cases shape
  | _ => rfl

end Instruction

theorem Located.mem_of_locate {start : Nat} {code : List Instruction} {l : Located}
    (mem : l ∈ locate start code) : l.instruction ∈ code := by
  induction code generalizing start with
  | nil => cases mem
  | cons _ _ ih =>
    rcases List.mem_cons.mp mem with rfl | later
    · exact List.mem_cons_self
    · exact List.mem_cons_of_mem _ (ih later)

end Bindery.Machine

namespace Bindery.Emit.Fragment.Flows

open Machine (Profile)

variable {loop : Option Nat} {marks : Set (Nat × Nat)} {start : Nat} {f : Fragment}
    {calls : List Nat} {entry exit : Option Nat}

/-- Heights for a fragment and for its end. -/
theorem profile (flows : Flows loop ∅ marks start f calls entry exit) :
    ∃ a : Profile, a.Has (At start entry) ∧ (callOffsets start f).map a.arguments = calls ∧
      a.Checks loop start f ∧ ∀ o h, a.height o = some h →
        (∃ item, (o, item) ∈ locate start f) ∨ (o = start + size f ∧ exit = some h) := by
  obtain ⟨own, inside, flows⟩ := flows
  have agrees : Profile.Agrees
      ⟨fun o => if o = start + size f then exit else own.height o, own.arguments⟩ own start f := by
    intro o _ upper
    exact ⟨if_neg (Nat.ne_of_lt upper), rfl⟩
  obtain ⟨begins, _, counted, checks⟩ := flows _ agrees fun place ⟨here, same⟩ => by
    simp only [here, if_pos, same]
  refine ⟨_, begins, counted, checks fun _ mem => absurd mem (Set.notMem_empty _), ?_⟩
  intro o h known
  simp only at known
  by_cases last : o = start + size f
  · rw [if_pos last] at known
    exact .inr ⟨last, known⟩
  · rw [if_neg last] at known
    exact .inl (inside o h known)

/-- There are as many numbers of arguments as calls. -/
theorem length_calls (flows : Flows loop ∅ marks start f calls entry exit) :
    (callOffsets start f).length = calls.length := by
  obtain ⟨a, _, counted, _⟩ := flows.profile
  rw [← counted, List.length_map]

end Bindery.Emit.Fragment.Flows

namespace Bindery.Machine

variable {captures : List Capture}

/-! ### Safety for a number of steps -/

/-- What is watched in some code: a slot, and for each instruction that closes a variable what
is required at its offset of the height of the stack. -/
structure Watch where
  bytes : List UInt8
  arguments : Nat → Nat
  slot : Nat
  closing : Nat → Nat → Prop

namespace Watch

/-- For `n` steps from offset `o`, with `h` values on the stack: where the slot is removed after
it was captured, on the way or before (`caught`), it is closed. -/
def Safe (w : Watch) : Nat → Nat → Nat → Prop → Prop
  | 0, _, _, _ => True
  | n + 1, o, h, caught => ∀ i, fetch w.bytes o = some i →
      (i.Removes h w.slot → caught → i.opcode = .closeFree) ∧
      (i.opcode = .closeFree → w.closing o h) ∧
      ∀ taken (t h' : Nat), (taken, (t : Int)) ∈ Located.successors ⟨o, i⟩ →
        (h' : Int) = h + i.effect (w.arguments o) taken →
          w.Safe n t h' ((caught ∨ i.Captures w.slot) ∧ ¬ i.Removes h w.slot)

namespace Safe

variable {w : Watch} {m n o h h' t : Nat} {caught caught' : Prop} {i : Instruction} {d : Int16}

/-- Less may have been captured. -/
theorem anti (safe : w.Safe n o h caught) (fewer : caught' → caught) : w.Safe n o h caught' := by
  induction n generalizing o h caught caught' with
  | zero => trivial
  | succ _ ih =>
    intro i here
    obtain ⟨closes, closing, next⟩ := safe i here
    refine ⟨fun removes now => closes removes (fewer now), closing, ?_⟩
    intro taken t h' leads changed
    exact ih (next taken t h' leads changed) fun ⟨now, kept⟩ => ⟨now.imp_left fewer, kept⟩

theorem of_eq (safe : w.Safe n o h caught) (same : t = o) : w.Safe n t h caught := same ▸ safe

/-- What is safe is safe for fewer steps. -/
theorem mono (safe : w.Safe n o h caught) (le : m ≤ n) : w.Safe m o h caught := by
  induction n generalizing m o h caught with
  | zero =>
    obtain rfl := Nat.le_zero.mp le
    exact safe
  | succ _ ih =>
    cases m with
    | zero => trivial
    | succ =>
      intro i here
      obtain ⟨closes, closing, next⟩ := safe i here
      refine ⟨closes, closing, ?_⟩
      intro taken t h' leads changed
      exact ih (next taken t h' leads changed) (Nat.le_of_succ_le_succ le)

/-! ### Instructions -/

/-- A place is safe if its instruction is and all ways on are. -/
theorem intro (here : fetch w.bytes o = some i)
    (closes : i.Removes h w.slot → caught → i.opcode = .closeFree)
    (closing : i.opcode = .closeFree → w.closing o h)
    (next : ∀ m < n, ∀ taken (t h' : Nat), (taken, (t : Int)) ∈ Located.successors ⟨o, i⟩ →
      (h' : Int) = h + i.effect (w.arguments o) taken →
        w.Safe m t h' ((caught ∨ i.Captures w.slot) ∧ ¬ i.Removes h w.slot)) :
    w.Safe n o h caught := by
  cases n with
  | zero => trivial
  | succ n =>
    intro i' here'
    obtain rfl := Option.some.inj (here.symm.trans here')
    exact ⟨closes, closing, next n (Nat.lt_succ_self n)⟩

/-- An instruction that evaluates neither removes nor captures. -/
theorem evaluates (here : fetch w.bytes o = some i) (evaluates : i.opcode.evaluates = true)
    (next : ∀ m < n, ∀ taken (t h' : Nat), (taken, (t : Int)) ∈ Located.successors ⟨o, i⟩ →
      (h' : Int) = h + i.effect (w.arguments o) taken → w.Safe m t h' caught) :
    w.Safe n o h caught := by
  have other : i.opcode ≠ .closeFree ∧ i.opcode ≠ .closure := by
    cases op : i.opcode <;> simp_all [Opcode.evaluates]
  refine intro here (fun removes => ?_) (fun closes => absurd closes other.1) ?_
  · exact absurd removes (i.not_removes_of_evaluates evaluates h w.slot)
  · intro m lt taken t h' leads changed
    refine (next m lt taken t h' leads changed).anti fun ⟨now, _⟩ => ?_
    exact now.resolve_right (i.not_captures_of_opcode other.2 w.slot)

theorem goto (here : fetch w.bytes o = some (.goto d))
    (leads : ((o + Emit.jumpSize : Nat) : Int) + d.toInt = t)
    (next : ∀ m < n, w.Safe m t h caught) : w.Safe n o h caught := by
  refine evaluates here rfl fun m lt taken t' h' edge changed => ?_
  rcases Located.mem_successors.mp edge with ⟨rfl, jumps⟩ | ⟨_, runs, _⟩
  · obtain ⟨_, jump, same⟩ := Located.target?_eq_some jumps
    cases jump
    obtain rfl : t' = t := Int.ofNat.inj (same.trans leads)
    obtain rfl : h' = h := by
      change (h' : Int) = h + ((0 : Nat) - (0 : Nat)) at changed
      omega
    exact next m lt
  · cases runs

theorem gotoDrop {value : Bool} (here : fetch w.bytes o = some (.gotoDrop value d))
    (leads : ((o + Emit.jumpSize : Nat) : Int) + d.toInt = t) (jump : ∀ m < n, w.Safe m t h caught)
    (next : ∀ m < n, w.Safe m (o + Emit.jumpSize) h caught) : w.Safe n o (h + 1) caught := by
  have drops : ∀ taken (h' : Nat), (h' : Int) = (h + 1 : Nat) +
      (Instruction.gotoDrop value d).effect (w.arguments o) taken → h' = h := by
    intro taken h' changed
    have effect : (Instruction.gotoDrop value d).effect (w.arguments o) taken = -1 := by
      cases value <;> rfl
    omega
  have evaluating : (Instruction.gotoDrop value d).opcode.evaluates = true := by
    cases value <;> rfl
  refine evaluates here evaluating fun m lt taken t' h' edge changed => ?_
  obtain rfl := drops taken h' changed
  rcases Located.mem_successors.mp edge with ⟨rfl, jumps⟩ | ⟨rfl, _, same⟩
  · obtain ⟨d', distance, same⟩ := Located.target?_eq_some jumps
    obtain rfl : d = d' := by cases value <;> exact Operand.jump.inj distance
    obtain rfl : t' = t := by
      rw [Located.stop, Emit.size_gotoDrop] at same
      exact Int.ofNat.inj (same.trans leads)
    exact jump m lt
  · rw [Located.stop, Emit.size_gotoDrop] at same
    obtain rfl := Int.ofNat.inj same
    exact next m lt

/-- An instruction that does not jump. -/
theorem straight (here : fetch w.bytes o = some i) (straight : ∀ d, i.operand ≠ .jump d)
    (closes : i.Removes h w.slot → caught → i.opcode = .closeFree)
    (closing : i.opcode = .closeFree → w.closing o h)
    (changed : h' + i.takes (w.arguments o) = h + i.opcode.gives false)
    (next : w.Safe n (o + i.size) h' ((caught ∨ i.Captures w.slot) ∧ ¬ i.Removes h w.slot)) :
    w.Safe n o h caught := by
  refine intro here closes closing fun m lt taken t h'' edge change => ?_
  rcases Located.mem_successors.mp edge with ⟨_, jumps⟩ | ⟨rfl, _, same⟩
  · obtain ⟨d, jump, _⟩ := Located.target?_eq_some jumps
    exact absurd jump (straight d)
  · obtain rfl : t = o + i.size := Int.ofNat.inj same
    obtain rfl : h'' = h' := by
      rw [Instruction.effect] at change
      omega
    exact next.mono (Nat.le_of_lt lt)

/-- Nothing follows a return or the end of the program. -/
theorem last (here : fetch w.bytes o = some i) (straight : ∀ d, i.operand ≠ .jump d)
    (stops : i.opcode.runsOn = false) (other : i.opcode.removes = false) : w.Safe n o h caught := by
  refine intro here (fun ⟨removes, _⟩ => ?_) (fun closes => ?_) fun m lt taken t h' edge _ => ?_
  · exact absurd (other.symm.trans removes) (by decide)
  · rw [closes] at other
    cases other
  · rcases Located.mem_successors.mp edge with ⟨_, jumps⟩ | ⟨_, runs, _⟩
    · obtain ⟨d, jump, _⟩ := Located.target?_eq_some jumps
      exact absurd jump (straight d)
    · exact absurd (stops.symm.trans runs) (by decide)

theorem ret (here : fetch w.bytes o = some .ret) : w.Safe n o h caught := last here nofun rfl rfl

theorem halt (here : fetch w.bytes o = some .halt) : w.Safe n o h caught := last here nofun rfl rfl

/-- A value that is no local is dropped. -/
theorem pop (here : fetch w.bytes o = some .pop) (above : caught → w.slot < h)
    (next : w.Safe n (o + Instruction.size .pop) h caught) : w.Safe n o (h + 1) caught := by
  refine straight here nofun (fun ⟨_, top⟩ now => ?_) nofun rfl (next.anti fun ⟨now, _⟩ => ?_)
  · have := above now
    omega
  · exact now.resolve_right (Instruction.not_captures_of_opcode (i := .pop) nofun w.slot)

theorem print (here : fetch w.bytes o = some .print)
    (next : w.Safe n (o + Instruction.size .print) h caught) : w.Safe n o (h + 1) caught := by
  refine straight here nofun (fun ⟨removes, _⟩ => ?_) nofun rfl (next.anti fun ⟨now, _⟩ => ?_)
  · cases removes
  · exact now.resolve_right (Instruction.not_captures_of_opcode (i := .print) nofun w.slot)

/-- Locals are captured where a function takes them over. -/
theorem closure (here : fetch w.bytes o = some (.closure captures))
    (next : w.Safe n (o + Instruction.size (.closure captures)) (h + 1)
      (caught ∨ Instruction.Captures (.closure captures) w.slot)) : w.Safe n o (h + 1) caught := by
  refine straight here nofun (fun ⟨removes, _⟩ => ?_) nofun rfl (next.anti fun ⟨now, _⟩ => now)
  cases removes

/-! ### Expressions and removals -/

open Emit (Code Fragment) in
/-- Code that evaluates, with the heights of its flow, is as safe as what follows. -/
theorem moves {room j k : Nat} {code : Code} {calls : List Nat}
    (moves : Emit.Moves room code calls j k) (laid : Code.LaidAt w.bytes o code)
    (evaluating : code.Evaluates)
    (counted : (Fragment.callOffsets o code.toFragment).map w.arguments = calls) (below : room ≤ h)
    (next : w.Safe n (o + code.size) (h + k) caught) : w.Safe n o (h + j) caught := by
  obtain ⟨a, begins, counted', checks, inside⟩ := (moves none o h below).profile
  have numbers := List.map_inj_left.mp (counted.trans counted'.symm)
  -- By induction on the steps, every place of the code that has a height is safe.
  have all : ∀ m ≤ n, ∀ p height, a.height p = some height → w.Safe m p height caught := by
    intro m
    induction m with
    | zero =>
      intro _ _ _ _
      trivial
    | succ _ ih =>
      intro le p height known
      rcases inside p height known with ⟨item, mem⟩ | ⟨rfl, same⟩
      · have placed := mem
        rw [Fragment.locate_toFragment] at placed
        obtain ⟨l, located, same⟩ := List.mem_map.mp placed
        cases same
        have evaluates := evaluating _ (Located.mem_of_locate located)
        refine Safe.evaluates (laid l located) evaluates fun m' lt taken t h' edge changed => ?_
        obtain ⟨t', h'', target, there, change⟩ := (checks _ _ mem height known).edges taken t edge
        obtain rfl := Int.ofNat.inj target
        have effect : l.instruction.effect (w.arguments l.offset) taken =
            l.instruction.effect (a.arguments l.offset) taken := by
          refine Instruction.effect_congr (fun call => ?_) taken
          refine numbers l.offset (List.mem_map.mpr ⟨_, List.mem_filter.mpr ⟨mem, ?_⟩, rfl⟩)
          exact beq_iff_eq.mpr call
        obtain rfl : h'' = h' := by
          rw [effect] at changed
          exact Int.ofNat.inj (change.trans changed.symm)
        exact (ih (Nat.le_of_succ_le le) t' h'' there).mono (Nat.le_of_lt_succ lt)
      · cases same
        rw [Fragment.size_toFragment]
        exact next.mono le
  exact all n (Nat.le_refl n) o _ (Profile.has_at.mp begins)

open Emit (Code) in
open Storage (Local) in
/-- Locals are removed from the highest slot down, and those that were captured are closed. -/
theorem removals {locals : List Local} {base : Nat}
    (laid : Code.LaidAt w.bytes o (locals.map Local.discard))
    (slots : locals.map (·.index.toNat) = (List.range' base locals.length).reverse)
    (marked : ∀ l ∈ locals, l.index.toNat = w.slot → caught → l.captured = true)
    (closing : ∀ p l, Bound.RemovedAt o locals p l → l.captured = true →
      w.closing p (l.index.toNat + 1)) (within : caught → w.slot < base + locals.length)
    (next : w.Safe n (o + Code.size (locals.map Local.discard)) base
      (caught ∧ w.slot < base)) : w.Safe n o (base + locals.length) caught := by
  induction locals generalizing o caught with
  | nil => exact next.anti fun now => ⟨now, within now⟩
  | cons l rest ih =>
    rw [List.length_cons, List.range'_concat, List.reverse_append, Nat.one_mul] at slots
    obtain ⟨first, lower⟩ := List.cons.inj slots
    have top : l.index.toNat = base + rest.length := first
    rw [List.map_cons, Code.laidAt_cons] at laid
    have opcode : l.captured = true → l.discard = .closeFree := fun yes => if_pos yes
    have removes : l.discard.opcode.removes = true := by
      unfold Local.discard
      split <;> rfl
    have plain : ¬ l.discard.Captures w.slot := by
      refine Instruction.not_captures_of_opcode ?_ _
      unfold Local.discard
      split <;> nofun
    refine Safe.straight laid.1 ?_ ?_ ?_ ?_ (ih laid.2 lower ?_ ?_ ?_ ?_)
    · unfold Local.discard
      split <;> nofun
    · rintro ⟨_, height⟩ now
      have here : l.index.toNat = w.slot := by
        rw [List.length_cons] at height
        omega
      rw [opcode (marked l List.mem_cons_self here now)]
      rfl
    · intro closes
      have captured : l.captured = true := by
        unfold Local.discard at closes
        split at closes
        · assumption
        · cases closes
      have removed := closing o l ⟨[], rest, rfl, rfl⟩ captured
      rw [top] at removed
      exact removed
    · unfold Local.discard
      split <;> rfl
    · intro l' mem here ⟨now, _⟩
      exact marked l' (List.mem_cons_of_mem _ mem) here (now.resolve_right plain)
    · rintro p l' ⟨front, back, rfl, rfl⟩ captured
      refine closing _ l' ⟨l :: front, back, rfl, ?_⟩ captured
      rw [List.map_cons, Code.size_cons, Nat.add_assoc]
    · rintro ⟨now, other⟩
      have := within (now.resolve_right plain)
      have : base + (rest.length + 1) ≠ w.slot + 1 := fun same => other ⟨removes, same⟩
      rw [List.length_cons] at *
      omega
    · rw [List.map_cons, Code.size_cons, ← Nat.add_assoc] at next
      exact next.anti fun ⟨⟨now, _⟩, low⟩ => ⟨now.resolve_right plain, low⟩

end Safe

end Watch

/-! ### Paths -/

/-- `Keeps code height slot l l'`: control goes from `l` to `l'`, and nothing in between removes
the value in the slot. -/
inductive Keeps (code : List Located) (height : Nat → Nat) (slot : Nat) :
    Located → Located → Prop where
  | step {l l' taken} : l' ∈ code → (taken, (l'.offset : Int)) ∈ l.successors →
      Keeps code height slot l l'
  | next {l l' l'' taken} : Keeps code height slot l l' →
      ¬ l'.instruction.Removes (height l'.offset) slot → l'' ∈ code →
      (taken, (l''.offset : Int)) ∈ l'.successors → Keeps code height slot l l''

/-- Captured locals are closed: once an instruction that is reached has handed a local over to a
function, the first instruction that removes the local on any way from there closes it. -/
def ClosesCaptured (code : List Located) (roots : List (Nat × Nat)) (height : Nat → Nat) : Prop :=
  ∀ l l' slot, Reachable code roots l → l.instruction.Captures slot →
    Keeps code height slot l l' → l'.instruction.Removes (height l'.offset) slot →
      l'.instruction.opcode = .closeFree

namespace Watch.Safe

variable {w : Watch} {code : List Located} {roots : List (Nat × Nat)} {height : Nat → Nat}
    {caught : Prop} {l l' : Located}

/-- From a place that is reached, safety goes on with the height of the next place. -/
theorem step (safe : StackSafe code roots w.arguments height)
    (laid : ∀ l ∈ code, fetch w.bytes l.offset = some l.instruction)
    (reached : Reachable code roots l) {taken : Bool}
    (edge : (taken, (l'.offset : Int)) ∈ l.successors)
    (here : ∀ n, w.Safe n l.offset (height l.offset) caught) (n : Nat) :
    w.Safe n l'.offset (height l'.offset)
      ((caught ∨ l.instruction.Captures w.slot) ∧
        ¬ l.instruction.Removes (height l.offset) w.slot) := by
  obtain ⟨l'', _, same, changed⟩ := safe.edges l reached taken _ edge
  rw [Int.ofNat.inj same] at changed
  exact (here (n + 1) _ (laid l reached.mem)).2.2 taken _ _ edge changed

/-- What is safe at the roots is safe wherever a path leads. -/
theorem reach (safe : StackSafe code roots w.arguments height)
    (laid : ∀ l ∈ code, fetch w.bytes l.offset = some l.instruction)
    (entries : ∀ root ∈ roots, ∀ n, w.Safe n root.1 root.2 False) (reached : Reachable code roots l)
    (n : Nat) : w.Safe n l.offset (height l.offset) False := by
  induction reached generalizing n with
  | root _ entry =>
    rw [(safe.entries _ entry).1]
    exact entries _ entry n
  | step before _ edge ih => exact (step safe laid before edge ih n).anti False.elim

/-- Once the slot is captured, it is so until it is removed. -/
theorem along (safe : StackSafe code roots w.arguments height)
    (laid : ∀ l ∈ code, fetch w.bytes l.offset = some l.instruction)
    (entries : ∀ root ∈ roots, ∀ n, w.Safe n root.1 root.2 False) (reached : Reachable code roots l)
    (captures : l.instruction.Captures w.slot) (keeps : Keeps code height w.slot l l') :
    Reachable code roots l' ∧ ∀ n, w.Safe n l'.offset (height l'.offset) True := by
  have other : ¬ l.instruction.Removes (height l.offset) w.slot := by
    obtain ⟨_, _, closure, _⟩ := captures
    rintro ⟨removes, _⟩
    rw [closure] at removes
    cases removes
  induction keeps with
  | step mem edge =>
    refine ⟨.step reached mem edge, fun n => ?_⟩
    exact (step safe laid reached edge (reach safe laid entries reached) n).anti
      fun _ => ⟨.inr captures, other⟩
  | next _ kept mem edge ih =>
    obtain ⟨reached', here⟩ := ih
    refine ⟨.step reached' mem edge, fun n => ?_⟩
    exact (step safe laid reached' edge here n).anti fun _ => ⟨.inl trivial, kept⟩

/-- What closes a variable and is reached stands as required. -/
theorem closing_of_reach (safe : StackSafe code roots w.arguments height)
    (laid : ∀ l ∈ code, fetch w.bytes l.offset = some l.instruction)
    (entries : ∀ root ∈ roots, ∀ n, w.Safe n root.1 root.2 False) (reached : Reachable code roots l)
    (closes : l.instruction.opcode = .closeFree) : w.closing l.offset (height l.offset) :=
  (reach safe laid entries reached 1 _ (laid l reached.mem)).2.1 closes

end Watch.Safe

end Bindery.Machine
