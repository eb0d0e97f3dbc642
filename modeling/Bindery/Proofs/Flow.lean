import Bindery.Proofs.Emitting
import Bindery.Proofs.StackEffect
import Mathlib.Data.Set.Basic

/-!
Heights in code under construction.

`Fragment.Flows` says that a fragment can be given heights, given the height at
which it is left at its end. Jumps that leave it need their target at the right height:
these places are its labels. In turn it fixes the height of its own start and of other places
that may be jumped to: these are its marks. When fragments are put together, the labels of one
are marks of the other (`Flows.append`, `Flows.tie`), and when a loop is closed, its exits
become labels (`Flows.closeLoop`). Code that no path reaches has no heights at all
(`Flows.dead`).
-/

namespace Bindery.Emit

/-! ### Fragments with heights -/

def Item.isCall : Item → Bool
  | .instruction i => i.opcode == .call
  | .exit _ => false

namespace Fragment

/-- The place `o` at the given height; nothing if there is no height. -/
def At (o : Nat) (height : Option Nat) : Set (Nat × Nat) :=
  {place | place.1 = o ∧ height = some place.2}

def callOffsets (start : Nat) (f : Fragment) : List Nat :=
  ((locate start f).filter fun placed => placed.2.isCall).map (·.1)

@[simp] theorem callOffsets_append (start : Nat) (f g : Fragment) :
    callOffsets start (f ++ g) = callOffsets start f ++ callOffsets (start + size f) g := by
  simp [callOffsets]

/-- The calls in a fragment are those in its code. -/
theorem callOffsets_toFragment (start : Nat) (code : Code) :
    callOffsets start code.toFragment = Machine.callOffsets (Machine.locate start code) := by
  rw [callOffsets, locate_toFragment, List.filter_map, List.map_map]
  rfl

end Fragment

end Bindery.Emit

namespace Bindery.Machine.Profile

open Emit (Fragment Item)
open Emit.Fragment (At)

variable {t : Nat}

def Has (a : Profile) (places : Set (Nat × Nat)) : Prop :=
  ∀ place ∈ places, a.height place.1 = some place.2

def Agrees (a own : Profile) (start : Nat) (f : Fragment) : Prop :=
  ∀ o, start ≤ o → o < start + Fragment.size f →
    a.height o = own.height o ∧ a.arguments o = own.arguments o

/-- What is required of an item at height `h`: an exit is taken at the height of its loop. -/
def AdmitsItem (a : Profile) (loop : Option Nat) (o h : Nat) : Item → Prop
  | .instruction i => a.Admits ⟨o, i⟩ h
  | .exit _ => loop = some h

def Checks (a : Profile) (loop : Option Nat) (start : Nat) (f : Fragment) : Prop :=
  ∀ o item, (o, item) ∈ Fragment.locate start f → ∀ h, a.height o = some h →
    a.AdmitsItem loop o h item

variable {a own : Profile} {places places' : Set (Nat × Nat)} {loop : Option Nat} {start : Nat}
    {f g : Fragment}

theorem Has.mono (h : a.Has places) (sub : places' ⊆ places) : a.Has places' :=
  fun place mem => h place (sub mem)

theorem Has.union (left : a.Has places) (right : a.Has places') : a.Has (places ∪ places') := by
  rintro place (first | second)
  · exact left place first
  · exact right place second

variable {o h : Nat}

theorem has_at : a.Has (At o (some h)) ↔ a.height o = some h := by
  constructor
  · intro has
    exact has (o, h) ⟨rfl, rfl⟩
  · rintro known ⟨_, _⟩ ⟨rfl, same⟩
    cases same
    exact known

/-- A jump keeps the height. -/
theorem admits_goto {d : Int16} (leads : (t : Int) = (o + Emit.jumpSize : Nat) + d.toInt)
    (there : a.height t = some h) : a.Admits ⟨o, .goto d⟩ h := by
  constructor
  case operands => exact Nat.zero_le _
  case locals => exact nofun
  case halts => exact nofun
  case edges =>
    intro taken target edge
    rcases Located.mem_successors.mp edge with ⟨rfl, jumps⟩ | ⟨_, runs, _⟩
    · obtain ⟨d', jump, rfl⟩ := Located.target?_eq_some jumps
      cases jump
      refine ⟨t, h, leads, there, ?_⟩
      change (h : Int) = h + ((0 : Nat) - (0 : Nat))
      omega
    · cases runs

/-- Parts that are checked are checked together. -/
theorem Checks.append (left : a.Checks loop start f)
    (right : a.Checks loop (start + Fragment.size f) g) : a.Checks loop start (f ++ g) := by
  intro o item mem
  rw [Fragment.locate_append] at mem
  rcases List.mem_append.mp mem with first | second
  · exact left o item first
  · exact right o item second

end Bindery.Machine.Profile

namespace Bindery.Emit.Fragment

open Machine (Profile Instruction Located LoopExit Opcode)

variable {t : Nat}

/-- `Flows loop labels marks start f calls entry exit`: the fragment `f` at offset `start` can
be given heights, from `entry` at its start to `exit` at its end, such that its
calls have the numbers `calls` of arguments. -/
def Flows (loop : Option Nat) (labels marks : Set (Nat × Nat)) (start : Nat) (f : Fragment)
    (calls : List Nat) (entry exit : Option Nat) : Prop :=
  ∃ own : Profile, (∀ o h, own.height o = some h → ∃ item, (o, item) ∈ locate start f) ∧
    ∀ a : Profile, a.Agrees own start f → a.Has (At (start + size f) exit) →
      a.Has (At start entry) ∧ a.Has marks ∧ (callOffsets start f).map a.arguments = calls ∧
        (a.Has labels → a.Checks loop start f)

namespace Flows

variable {loop : Option Nat} {labels labels' marks marks' : Set (Nat × Nat)} {start : Nat}
    {f g : Fragment} {calls calls' : List Nat} {entry mid exit : Option Nat}

theorem nil (loop : Option Nat) (start : Nat) (h : Option Nat) :
    Flows loop ∅ ∅ start [] [] h h := by
  refine ⟨⟨fun _ => none, fun _ => 0⟩, ?_, ?_⟩
  · intro o h known
    cases known
  · intro a _ ending
    exact ⟨ending, fun _ mem => absurd mem (Set.notMem_empty _), rfl, fun _ _ _ mem => nomatch mem⟩

/-- Two fragments one after the other. -/
theorem append {middle : Nat} (left : Flows loop labels marks start f calls entry mid)
    (right : Flows loop labels' marks' middle g calls' mid exit)
    (follows : middle = start + size f) :
    Flows loop (labels ∪ labels') (marks ∪ (At middle mid ∪ marks')) start (f ++ g)
      (calls ++ calls') entry exit := by
  subst follows
  obtain ⟨first, inside, left⟩ := left
  obtain ⟨second, inside', right⟩ := right
  refine ⟨⟨fun o => if o < start + size f then first.height o else second.height o,
    fun o => if o < start + size f then first.arguments o else second.arguments o⟩, ?_, ?_⟩
  · intro o h known
    rw [locate_append]
    simp only at known
    split at known
    · obtain ⟨item, mem⟩ := inside o h known
      exact ⟨item, List.mem_append_left _ mem⟩
    · obtain ⟨item, mem⟩ := inside' o h known
      exact ⟨item, List.mem_append_right _ mem⟩
  · intro a agrees ending
    rw [size_append, ← Nat.add_assoc] at ending
    have agreesRight : a.Agrees second (start + size f) g := by
      intro o lower upper
      obtain ⟨height, arguments⟩ := agrees o (by omega) (by rw [size_append]; omega)
      simp only [if_neg (Nat.not_lt.mpr lower)] at height arguments
      exact ⟨height, arguments⟩
    obtain ⟨between, marked', counted', checks'⟩ := right a agreesRight ending
    have agreesLeft : a.Agrees first start f := by
      intro o lower upper
      obtain ⟨height, arguments⟩ := agrees o lower (by rw [size_append]; omega)
      simp only [if_pos upper] at height arguments
      exact ⟨height, arguments⟩
    obtain ⟨begins, marked, counted, checks⟩ := left a agreesLeft between
    refine ⟨begins, marked.union (between.union marked'), ?_, fun has => ?_⟩
    · rw [callOffsets_append, List.map_append, counted, counted']
    · exact (checks (has.mono Set.subset_union_left)).append
        (checks' (has.mono Set.subset_union_right))

/-- A label may be one of the fragment's own marks, its start or its end. -/
theorem tie (h : Flows loop labels marks start f calls entry exit)
    (known : labels ⊆ labels' ∪ marks ∪ At start entry ∪ At (start + size f) exit)
    (sub : marks' ⊆ marks ∪ At start entry) :
    Flows loop labels' marks' start f calls entry exit := by
  obtain ⟨own, inside, h⟩ := h
  refine ⟨own, inside, fun a agrees ending => ?_⟩
  obtain ⟨begins, marked, counted, checks⟩ := h a agrees ending
  refine ⟨begins, (marked.union begins).mono sub, counted, fun has => checks ?_⟩
  exact (((has.union marked).union begins).union ending).mono known

variable {middle h : Nat} {i : Instruction} {d : Int16}

/-- Two fragments one after the other, where the first may jump to the start, to a mark and
to the end of the second. -/
theorem seq (places : Set (Nat × Nat)) (left : Flows loop labels marks start f calls entry mid)
    (right : Flows loop labels' marks' middle g calls' mid exit) (follows : middle = start + size f)
    (known : labels ⊆ labels' ∪ At middle mid ∪ marks' ∪ At (middle + size g) exit)
    (sub : places ⊆ marks ∪ At middle mid ∪ marks') :
    Flows loop labels' places start (f ++ g) (calls ++ calls') entry exit := by
  have ends : start + size (f ++ g) = middle + size g := by
    rw [size_append]
    omega
  refine (left.append right follows).tie ?_ ?_
  · rw [ends]
    rintro place (first | second)
    · rcases known first with ((other | here) | mark) | ending
      · exact .inl (.inl (.inl other))
      · exact .inl (.inl (.inr (.inr (.inl here))))
      · exact .inl (.inl (.inr (.inr (.inr mark))))
      · exact .inr ending
    · exact .inl (.inl (.inl second))
  · intro place mem
    rcases sub mem with (first | here) | second
    · exact .inl (.inl first)
    · exact .inl (.inr (.inl here))
    · exact .inl (.inr (.inr second))

/-- Code without calls, labels and marks behind other code. -/
theorem finish (left : Flows loop ∅ marks start f calls entry mid)
    (right : Flows loop ∅ ∅ middle g [] mid exit) (follows : middle = start + size f) :
    Flows loop ∅ marks start (f ++ g) calls entry exit := by
  have both := left.seq marks right follows (Set.empty_subset _)
    (Set.subset_union_left.trans Set.subset_union_left)
  rw [List.append_nil] at both
  exact both

/-- Fewer marks may be promised. -/
theorem weaken (h : Flows loop labels marks start f calls entry exit) (sub : marks' ⊆ marks) :
    Flows loop labels marks' start f calls entry exit :=
  h.tie (by grind) (sub.trans Set.subset_union_left)

/-- What leaves no loop can stand in any. -/
theorem inLoop (h : Flows none labels marks start f calls entry exit) (loop : Option Nat) :
    Flows loop labels marks start f calls entry exit := by
  obtain ⟨own, inside, h⟩ := h
  refine ⟨own, inside, fun a agrees ending => ?_⟩
  obtain ⟨begins, marked, counted, checks⟩ := h a agrees ending
  refine ⟨begins, marked, counted, fun has o item mem height known => ?_⟩
  have admitted := checks has o item mem height known
  cases item with
  | instruction i => exact admitted
  | exit x => cases admitted

/-- Code that no path reaches. -/
theorem dead (loop : Option Nat) (start : Nat) (exit : Option Nat)
    (noCalls : callOffsets start f = []) : Flows loop ∅ ∅ start f [] none exit := by
  refine ⟨⟨fun _ => none, fun _ => 0⟩, ?_, ?_⟩
  · intro o h known
    cases known
  · intro a agrees _
    refine ⟨?_, fun _ mem => absurd mem (Set.notMem_empty _), by rw [noCalls]; rfl, fun _ => ?_⟩
    · rintro place ⟨_, absent⟩
      cases absent
    · intro o item mem h known
      have bounds := locate_bounds mem
      have := item.size_pos
      rw [(agrees o bounds.1 (by omega)).1] at known
      cases known

/-! ### Single items -/

/-- A single item. The profile is free to give it any height and number of arguments. -/
theorem item (item : Item) (n : Nat)
    (admits : ∀ a : Profile, a.arguments start = n → a.Has (At (start + item.size) exit) →
      a.Has labels → ∀ h, entry = some h → a.AdmitsItem loop start h item) :
    Flows loop labels ∅ start [item] (if item.isCall then [n] else []) entry exit := by
  refine ⟨⟨fun o => if o = start then entry else none, fun _ => n⟩, ?_, ?_⟩
  · intro o h known
    simp only at known
    split at known
    · rename_i here
      exact ⟨item, by rw [here]; exact List.mem_cons_self⟩
    · cases known
  · intro a agrees ending
    rw [size_cons, size_nil, Nat.add_zero] at ending
    have whole : size [item] = item.size := by simp
    obtain ⟨height, arguments⟩ := agrees start (Nat.le_refl _)
      (by have := item.size_pos; omega)
    simp only [if_pos] at height arguments
    refine ⟨?_, fun _ mem => absurd mem (Set.notMem_empty _), ?_, fun has => ?_⟩
    · rintro ⟨o, h⟩ ⟨rfl, same⟩
      exact height.trans same
    · cases calls : item.isCall <;> simp [callOffsets, calls, arguments]
    · intro o other mem h known
      cases List.mem_singleton.mp mem
      exact admits a arguments ending has h (height.symm.trans known)

/-- An instruction behind which the next one follows. -/
theorem plain {n h' : Nat} (straight : ∀ d, i.operand ≠ .jump d) (runs : i.opcode.runsOn = true)
    (enough : i.takes n ≤ h) (changed : h' + i.takes n = h + i.opcode.gives false)
    (locals : ∀ slot, i.slot? = some slot → slot.toNat < h) :
    Flows loop ∅ ∅ start [.instruction i] (if i.opcode == .call then [n] else []) (some h)
      (some h') := by
  refine item _ n fun a arguments ending _ height same => ?_
  cases same
  rw [Profile.has_at] at ending
  constructor
  case operands => rw [arguments]; exact enough
  case locals => exact locals
  case halts =>
    intro halts
    rw [halts] at runs
    cases runs
  case edges =>
    intro taken t edge
    rcases Located.mem_successors.mp edge with ⟨_, leads⟩ | ⟨rfl, _, rfl⟩
    · obtain ⟨d, jump, _⟩ := Located.target?_eq_some leads
      exact absurd jump (straight d)
    · refine ⟨_, h', rfl, ending, ?_⟩
      simp only [Instruction.effect, arguments]
      omega

theorem slot?_of_jump (operand : i.operand = .jump d) : i.slot? = none := by
  unfold Instruction.slot?
  rw [operand]
  split <;> simp_all

/-- A test of the value on top of the stack, which drops the value where it does not jump. -/
theorem test (operand : i.operand = .jump d) (takes : ∀ n, i.opcode.takes n = 1)
    (drops : i.opcode.gives false = 0) (runs : i.opcode.runsOn = true)
    (leads : (t : Int) = (start + i.size : Nat) + d.toInt) :
    Flows loop (At t (some (h + i.opcode.gives true))) ∅ start [.instruction i]
      (if i.opcode == .call then [0] else []) (some (h + 1)) (some h) := by
  refine item _ 0 fun a _ ending has height same => ?_
  cases same
  rw [Profile.has_at] at ending has
  constructor
  case operands =>
    rw [Instruction.takes, takes]
    omega
  case locals =>
    intro slot used
    rw [slot?_of_jump operand] at used
    cases used
  case halts =>
    intro halts
    rw [halts] at runs
    cases runs
  case edges =>
    intro taken target edge
    simp only [Instruction.effect, Instruction.takes, takes]
    rcases Located.mem_successors.mp edge with ⟨rfl, jumps⟩ | ⟨rfl, _, rfl⟩
    · obtain ⟨d', jump, rfl⟩ := Located.target?_eq_some jumps
      obtain rfl : d = d' := Machine.Operand.jump.inj (operand.symm.trans jump)
      refine ⟨t, _, leads, has, ?_⟩
      omega
    · refine ⟨_, h, rfl, ending, ?_⟩
      rw [drops]
      omega

/-- A test that drops its value is left at one height. -/
theorem gotoDrop {value : Bool} {d : Int16} {t h : Nat}
    (leads : (t : Int) = (start + jumpSize : Nat) + d.toInt) :
    Flows loop (At t (some h)) ∅ start [.instruction (.gotoDrop value d)] [] (some (h + 1))
      (some h) := by
  rw [← size_gotoDrop value d] at leads
  cases value <;> exact test rfl (fun _ => rfl) rfl rfl leads

/-- A test that keeps its value is left one higher where it jumps to. -/
theorem gotoOrDrop {value : Bool} {d : Int16} {t h : Nat}
    (leads : (t : Int) = (start + jumpSize : Nat) + d.toInt) :
    Flows loop (At t (some (h + 1))) ∅ start [.instruction (.gotoOrDrop value d)] []
      (some (h + 1)) (some h) := by
  rw [← size_gotoOrDrop value d] at leads
  cases value <;> exact test rfl (fun _ => rfl) rfl rfl leads

/-- Nothing follows a jump, so behind it the stack may have any height. -/
theorem goto {d : Int16} {t : Nat} (leads : (t : Int) = (start + jumpSize : Nat) + d.toInt)
    (entry exit : Option Nat) :
    Flows loop (At t entry) ∅ start [.instruction (.goto d)] [] entry exit := by
  refine item (.instruction (.goto d)) 0 fun a _ _ has height same => ?_
  subst same
  exact Profile.admits_goto leads (Profile.has_at.mp has)

/-- Instructions that nothing follows. -/
theorem last (operand : i.operand = .none) (stops : i.opcode.runsOn = false)
    (enough : i.takes 0 ≤ h) (halts : i.opcode = .halt → h = 0) (exit : Option Nat) :
    Flows loop ∅ ∅ start [.instruction i] (if i.opcode == .call then [0] else []) (some h)
      exit := by
  refine item _ 0 fun a arguments _ _ height same => ?_
  cases same
  constructor
  case operands => rw [arguments]; exact enough
  case locals =>
    intro slot used
    unfold Instruction.slot? at used
    rw [operand] at used
    split at used <;> simp_all
  case halts => exact halts
  case edges =>
    intro taken t edge
    rcases Located.mem_successors.mp edge with ⟨_, jumps⟩ | ⟨_, runs, _⟩
    · obtain ⟨d, jump, _⟩ := Located.target?_eq_some jumps
      rw [operand] at jump
      cases jump
    · rw [stops] at runs
      cases runs

/-- A return takes a value and leaves. -/
theorem ret (h : Nat) (exit : Option Nat) :
    Flows loop ∅ ∅ start [.instruction .ret] [] (some (h + 1)) exit := by
  refine last rfl rfl (Nat.succ_le_succ (Nat.zero_le h)) (fun halts => ?_) exit
  cases halts

/-- An exit is taken at the height of its loop. -/
theorem exits (x : LoopExit) (base : Nat) (exit : Option Nat) :
    Flows (some base) ∅ ∅ start [.exit x] [] (some base) exit :=
  item _ 0 fun _ _ _ _ _ same => same

/-! ### Control structures -/

/-- Settling the exits of a loop moves no call. -/
theorem callOffsets_settled {target : LoopExit → Option Nat} (h : Settled target start f g) :
    callOffsets start g = callOffsets start f := by
  rw [callOffsets, callOffsets, h.filter_eq]
  · exact fun _ _ => rfl
  · exact fun _ _ => rfl

/-- The exits of a loop become jumps to its end and to where it goes on. -/
theorem closeLoop {base resume : Nat} {code : Fragment} (outer : Option Nat)
    (h : Flows (some base) labels marks start f calls entry exit)
    (run : Fragment.closeLoop f resume = .ok code) :
    Flows outer (labels ∪ At (start + resume) (some base) ∪ At (start + size f) (some base)) marks
      start code calls entry exit := by
  have settled := closeLoop_settled run start
  obtain ⟨own, inside, h⟩ := h
  refine ⟨own, ?_, fun a agrees ending => ?_⟩
  · intro o height known
    obtain ⟨item, mem⟩ := inside o height known
    exact settled.exists_mem mem
  · have sameSize := settled.size_eq
    have agrees' : a.Agrees own start f := fun o lower upper => agrees o lower (by omega)
    rw [sameSize] at ending
    obtain ⟨begins, marked, counted, checks⟩ := h a agrees' ending
    refine ⟨begins, marked, by rw [callOffsets_settled settled]; exact counted, fun has => ?_⟩
    have checked := checks (has.mono (Set.subset_union_left.trans Set.subset_union_left))
    have resumes : a.height (start + resume) = some base :=
      Profile.has_at.mp (has.mono (Set.subset_union_right.trans Set.subset_union_left))
    have leaves : a.height (start + size f) = some base :=
      Profile.has_at.mp (has.mono Set.subset_union_right)
    intro o item mem height known
    cases item with
    | exit x => exact nomatch settled.waits (mem_of_mem_locate mem)
    | instruction i =>
      rcases settled.instruction_cases mem with kept | ⟨x, d, t, rfl, exits, target, leads⟩
      · exact checked o _ kept height known
      · obtain rfl : base = height := Option.some.inj (checked o _ exits height known)
        cases target
        refine Profile.admits_goto leads.symm ?_
        cases x with
        | breaks => exact leaves
        | continues => exact resumes

section Structures

variable {condition yes no body : Fragment} {other base : Nat} {tests first second : List Nat}

/-- A condition with something to skip. -/
theorem skip {skip : Int16} (test : Flows loop ∅ ∅ start condition tests (some h) (some (h + 1)))
    (inner : Flows loop ∅ marks middle yes first (some h) (some h))
    (follows : middle = start + size condition + jumpSize) (past : skip.toInt = size yes) :
    Flows loop ∅ marks start (condition ++ .instruction (.gotoDrop false skip) :: yes)
      (tests ++ first) (some h) (some h) := by
  have jump : Flows loop (At (middle + size yes) (some h)) ∅ (start + size condition)
      [.instruction (.gotoDrop false skip)] [] (some (h + 1)) (some h) :=
    gotoDrop (by push_cast; omega)
  have jumps : size [.instruction (.gotoDrop false skip)] = jumpSize := rfl
  have rest := jump.seq _ inner (by omega) Set.subset_union_right Set.subset_union_right
  exact test.seq _ rest rfl (Set.empty_subset _) Set.subset_union_right

variable {skip : Int16} {code : Fragment}

/-- A condition with the two ways to go on. -/
theorem branch {leave : Int16} (test : Flows loop ∅ ∅ start condition tests (some h) (some (h + 1)))
    (inner : Flows loop ∅ marks middle yes first (some h) exit)
    (follows : middle = start + size condition + jumpSize)
    (past : skip.toInt = (size yes + jumpSize : Nat))
    (inner' : Flows loop ∅ marks' other no second (some h) exit)
    (follows' : other = middle + (size yes + jumpSize)) (out : leave.toInt = size no) :
    Flows loop ∅ (marks ∪ marks') start (condition ++ .instruction (.gotoDrop false skip) ::
      (yes ++ .instruction (.goto leave) :: no)) (tests ++ (first ++ second)) (some h) exit := by
  have skips : Flows loop (At other (some h)) ∅ (start + size condition)
      [.instruction (.gotoDrop false skip)] [] (some (h + 1)) (some h) :=
    gotoDrop (by push_cast at past ⊢; omega)
  have leaves : Flows loop (At (other + size no) exit) ∅ (middle + size yes)
      [.instruction (.goto leave)] [] exit (some h) :=
    goto (by push_cast; omega) _ _
  have skipSize : size [.instruction (.gotoDrop false skip)] = jumpSize := rfl
  have leaveSize : size [.instruction (.goto leave)] = jumpSize := rfl
  -- The second way is marked, since the condition jumps there over the first.
  have way := leaves.seq _ inner' (by omega) Set.subset_union_right
    (Set.union_subset_union_left _ Set.subset_union_right)
  have ways := inner.seq (At other (some h) ∪ (marks ∪ marks')) way rfl (Set.empty_subset _)
    (by grind)
  have rest := skips.seq (marks ∪ marks') ways (by omega) (by grind) (by grind)
  exact test.seq _ rest rfl (Set.empty_subset _) Set.subset_union_right

/-- The code of a function is jumped over, and starts with the function's arguments. -/
theorem function {arity : Nat} {value : Fragment}
    (inner : Flows loop ∅ marks (start + jumpSize) body first (some arity) (some h))
    (past : skip.toInt = size body) (follows : middle = start + jumpSize + size body)
    (rest : Flows loop ∅ ∅ middle value second (some h) exit) :
    Flows loop ∅ (marks ∪ At (start + jumpSize) (some arity)) start
      (.instruction (.goto skip) :: (body ++ value)) (first ++ second) (some h) exit := by
  have jump : Flows loop (At middle (some h)) ∅ start [.instruction (.goto skip)] [] (some h)
      (some arity) :=
    goto (by push_cast; omega) _ _
  have behind := inner.seq (marks ∪ At middle (some h)) rest follows (Set.empty_subset _)
    Set.subset_union_left
  exact jump.seq _ behind rfl (by grind) (by grind)

/-- The loop that tests its condition first comes back to its start. -/
theorem whileLoop {condition : Code} (outer : Option Nat)
    (test : Flows (some h) ∅ ∅ start condition.toFragment tests (some h) (some (h + 1)))
    (inner : Flows (some h) ∅ marks middle body first (some h) (some h))
    (follows : middle = start + condition.size + jumpSize)
    (run : Fragment.whileLoop condition body = .ok code) :
    Flows outer ∅ marks start code (tests ++ first) (some h) (some h) := by
  obtain ⟨skip, back, past, again, closed⟩ := whileLoop_eq_ok run
  have leaves : Flows (some h) (At (middle + size body + jumpSize) (some h)) ∅
      (start + condition.size) [.instruction (.gotoDrop false skip)] [] (some (h + 1)) (some h) :=
    gotoDrop (by push_cast at past ⊢; omega)
  have returns : Flows (some h) (At start (some h)) ∅ (middle + size body)
      [.instruction (.goto back)] [] (some h) (some h) :=
    goto (by push_cast at again ⊢; omega) _ _
  have leaveSize : size [.instruction (.gotoDrop false skip)] = jumpSize := rfl
  have returnSize : size [.instruction (.goto back)] = jumpSize := rfl
  have round := inner.seq marks returns rfl (Set.empty_subset _) (by grind)
  rw [List.append_nil] at round
  have rest := leaves.seq marks round (by omega)
    (by rw [size_append, returnSize, Nat.add_assoc]; exact Set.subset_union_right)
    Set.subset_union_right
  have whole := test.seq marks rest (by rw [size_toFragment]) (Set.empty_subset _)
    Set.subset_union_right
  refine (whole.closeLoop outer closed).tie ?_ Set.subset_union_left
  rw [(closeLoop_settled closed start).size_eq]
  grind [Emit.whileBody]

/-- The loop that tests its condition last comes back to its start. Its condition is marked,
since the body can go on there. -/
theorem doWhile {condition : Code} (outer : Option Nat)
    (inner : Flows (some h) ∅ marks start body first (some h) (some h))
    (test : Flows (some h) ∅ ∅ (start + size body) condition.toFragment tests (some h)
      (some (h + 1))) (run : Fragment.doWhile body condition = .ok code) :
    Flows outer ∅ marks start code (first ++ tests) (some h) (some h) := by
  obtain ⟨back, again, closed⟩ := doWhile_eq_ok run
  have returns : Flows (some h) (At start (some h)) ∅ (start + size body + condition.size)
      [.instruction (.gotoDrop true back)] [] (some (h + 1)) (some h) :=
    gotoDrop (by push_cast at again ⊢; omega)
  have rest := test.seq ∅ returns (by rw [size_toFragment]) (Set.empty_subset _)
    (Set.empty_subset _)
  rw [List.append_nil] at rest
  have whole := inner.seq (marks ∪ At (start + size body) (some h)) rest rfl (Set.empty_subset _)
    Set.subset_union_left
  rw [← List.append_assoc] at whole
  refine (whole.closeLoop outer closed).tie ?_ (Set.subset_union_left.trans Set.subset_union_left)
  rw [(closeLoop_settled closed start).size_eq]
  grind [Emit.doWhileBody]

end Structures

/-! ### Whole programs -/

/-- Code whose heights fit at every item is safe. -/
theorem stackSafe {code : Code} {roots : List (Nat × Nat)}
    (h : Flows none ∅ marks start code.toFragment calls entry none)
    (known : ∀ root ∈ roots, root ∈ marks ∪ At start entry) :
    ∃ arguments height,
      (Machine.callOffsets (Machine.locate start code)).map arguments = calls ∧
        Machine.StackSafe (Machine.locate start code) roots arguments height := by
  obtain ⟨own, inside, h⟩ := h
  have ending : own.Has (At (start + size code.toFragment) none) := by
    rintro place ⟨_, absent⟩
    cases absent
  obtain ⟨begins, marked, counted, checks⟩ := h own (fun _ _ _ => ⟨rfl, rfl⟩) ending
  have checked := checks fun _ mem => absurd mem (Set.notMem_empty _)
  rw [Profile.Checks, locate_toFragment] at checked
  rw [locate_toFragment] at inside
  refine ⟨own.arguments, _, ?_, own.stackSafe ?_ ?_ ?_⟩
  · rw [← callOffsets_toFragment]
    exact counted
  · intro l mem h known
    exact checked _ _ (List.mem_map_of_mem mem) h known
  · intro root mem
    exact (marked.union begins) root (known root mem)
  · intro o h known
    obtain ⟨item, mem⟩ := inside o h known
    obtain ⟨l, here, same⟩ := List.mem_map.mp mem
    exact ⟨l, here, congrArg Prod.fst same⟩

end Flows

end Bindery.Emit.Fragment
