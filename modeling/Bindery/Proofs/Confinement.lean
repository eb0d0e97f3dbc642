import Bindery.Proofs.StackEffect
import Bindery.Proofs.WellFormed
import Mathlib.Data.Set.Basic

/-!
Code that control does not leave.

The code of a function lies inside the code that declares it, behind a jump that leads past it.
`functionBodies` reads off where these bodies are, and `KeepsApart` says that control respects
them: a path from the entry of a function stays in the function's own code until it returns, and
a path from the start of the program stays outside all bodies.

`Fragment.Separated` is the condition on code under construction. It names offsets from which
every way on leads to another of them or to a place behind the fragment, so it does not depend on
whether these offsets are ever reached. Putting fragments together puts the offsets together
(`Separated.append`), a place that is among them is no longer a way out (`Separated.tie`), and
the code of a function becomes a body of its own (`Separated.function`).
-/

namespace Bindery.Machine

variable {functions : List (Nat × Nat)}

/-! ### Bodies of functions -/

/-- The extent of a function's code. -/
structure Body where
  entry : Nat
  stop : Nat
deriving DecidableEq, Repr

def Body.Contains (b : Body) (o : Nat) : Prop := b.entry ≤ o ∧ o < b.stop

instance (b : Body) (o : Nat) : Decidable (b.Contains o) :=
  inferInstanceAs (Decidable (_ ∧ _))

/-- The offset belongs to the function: no other body that contains it starts later. -/
def Body.Owns (bodies : List Body) (b : Body) (o : Nat) : Prop :=
  b.Contains o ∧ ∀ b' ∈ bodies, b.entry < b'.entry → ¬ b'.Contains o

def Outside (bodies : List Body) (o : Nat) : Prop := ∀ b ∈ bodies, ¬ b.Contains o

instance (bodies : List Body) (o : Nat) : Decidable (Outside bodies o) :=
  inferInstanceAs (Decidable (∀ b ∈ bodies, ¬ b.Contains o))

/-- The body behind a jump that stands in front of one of the entries: it ends where the jump
leads. -/
def Located.body? (entries : List Nat) (l : Located) : Option Body :=
  if l.instruction.opcode = .goto ∧ l.stop ∈ entries then
    l.target?.map fun t => ⟨l.stop, t.toNat⟩
  else none

def functionBodies (code : List Located) (functions : List (Nat × Nat)) : List Body :=
  code.filterMap (Located.body? (functions.map Prod.fst))

/-- Every path from the root stays in the territory until it comes to an instruction that may
end it. Before that it can go on, and every way on leads to an instruction. -/
structure Confines (code : List Located) (root : Nat × Nat) (territory : Nat → Prop)
    (ends : Opcode → Prop) : Prop where
  entered : ∃ l ∈ code, l.offset = root.1
  stays : ∀ l, Reachable code [root] l → territory l.offset
  goesOn : ∀ l, Reachable code [root] l → ends l.instruction.opcode ∨
    (l.successors ≠ [] ∧ ∀ way ∈ l.successors, ∃ l' ∈ code, (l'.offset : Int) = way.2)

/-- Control respects the bodies of functions, outside of which the code returns at as many
places as given. -/
structure KeepsApart (code : List Located) (functions : List (Nat × Nat)) (returns : Nat) :
    Prop where
  hasBody : ∀ f ∈ functions, ∃ b ∈ functionBodies code functions, b.entry = f.1
  function : ∀ f ∈ functions, ∀ b ∈ functionBodies code functions, b.entry = f.1 →
    Confines code f (b.Owns (functionBodies code functions)) (· = .ret)
  program : Confines code (0, 0) (Outside (functionBodies code functions))
    fun op => op = .halt ∨ op = .ret
  returns : code.countP (fun l => l.instruction.opcode = .ret ∧
    Outside (functionBodies code functions) l.offset) = returns

variable {bodies bodies' : List Body} {o : Nat} {b outer : Body} {code : List Located}

/-- To be outside of all is to be outside of some and of the others. -/
theorem outside_append : Outside (bodies ++ bodies') o ↔ Outside bodies o ∧ Outside bodies' o := by
  simp only [Outside, List.mem_append, or_imp, forall_and]

/-- Bodies elsewhere take nothing away. -/
theorem Body.Owns.append (owns : b.Owns bodies o) (outside : Outside bodies' o) :
    b.Owns (bodies ++ bodies') o ∧ b.Owns (bodies' ++ bodies) o := by
  constructor
  all_goals
    refine ⟨owns.1, fun b' mem later => ?_⟩
    rcases List.mem_append.mp mem with first | second
  · exact owns.2 b' first later
  · exact outside b' second
  · exact outside b' first
  · exact owns.2 b' second later

/-! An outer body joins bodies that are nested in it. -/

theorem Body.Owns.nested (owns : b.Owns bodies o) (joins : ∀ b' ∈ bodies', b' = outer ∨ b' ∈ bodies)
    (before : outer.entry ≤ b.entry) : b.Owns bodies' o := by
  refine ⟨owns.1, fun b' mem later => ?_⟩
  rcases joins b' mem with rfl | other
  · exact absurd (later.trans_le before) (Nat.lt_irrefl _)
  · exact owns.2 b' other later

theorem Outside.owns (outside : Outside bodies o) (joins : ∀ b' ∈ bodies', b' = outer ∨ b' ∈ bodies)
    (contains : outer.Contains o) : outer.Owns bodies' o := by
  refine ⟨contains, fun b' mem later => ?_⟩
  rcases joins b' mem with rfl | other
  · exact absurd later (Nat.lt_irrefl _)
  · exact outside b' other

/-- The bodies are what the jumps in front of functions lead past. -/
theorem mem_functionBodies :
    b ∈ functionBodies code functions ↔ (∃ arity, (b.entry, arity) ∈ functions) ∧
      ∃ l ∈ code, l.instruction.opcode = .goto ∧ l.stop = b.entry ∧
        ∃ t, l.target? = some t ∧ b.stop = t.toNat := by
  rw [functionBodies, List.mem_filterMap]
  constructor
  · rintro ⟨l, mem, found⟩
    unfold Located.body? at found
    split at found
    · rename_i jump
      obtain ⟨t, leads, rfl⟩ := Option.map_eq_some_iff.mp found
      obtain ⟨⟨entry, arity⟩, known, same⟩ := List.mem_map.mp jump.2
      exact ⟨⟨arity, same ▸ known⟩, l, mem, jump.1, rfl, t, leads, rfl⟩
    · cases found
  · rintro ⟨⟨arity, known⟩, l, mem, jump, entry, t, leads, stop⟩
    refine ⟨l, mem, ?_⟩
    have listed : l.stop ∈ functions.map Prod.fst :=
      List.mem_map.mpr ⟨_, known, entry.symm⟩
    rw [Located.body?, if_pos ⟨jump, listed⟩, leads, entry, Option.map_some, ← stop]

/-! ### Ways on -/

def Located.LeadsInto (l : Located) (into : Set Nat) : Prop :=
  ∀ taken t, (taken, t) ∈ l.successors → ∃ t' ∈ into, (t' : Int) = t

namespace Located

variable {l : Located} {into into' : Set Nat}

theorem LeadsInto.mono (leads : l.LeadsInto into) (sub : into ⊆ into') : l.LeadsInto into' := by
  intro taken t way
  obtain ⟨t', mem, same⟩ := leads taken t way
  exact ⟨t', sub mem, same⟩

/-- The ways on are the jump and, if the instruction runs on, the next instruction. -/
theorem LeadsInto.of_jump
    (jumps : ∀ d, l.instruction.operand = .jump d → ∃ t ∈ into, (t : Int) = l.stop + d.toInt)
    (runs : l.instruction.opcode.runsOn = true → l.stop ∈ into) : l.LeadsInto into := by
  intro taken t way
  rcases mem_successors.mp way with ⟨_, target⟩ | ⟨_, next, rfl⟩
  · obtain ⟨d, jump, rfl⟩ := target?_eq_some target
    exact jumps d jump
  · exact ⟨_, runs next, rfl⟩

/-- Only a return and the end of the program have no way on. -/
theorem successors_ne_nil (other : l.instruction.opcode ≠ .ret)
    (other' : l.instruction.opcode ≠ .halt) : l.successors ≠ [] := by
  by_cases jump : l.instruction.opcode = .goto
  · have shape := l.instruction.shape_eq
    rw [jump] at shape
    cases operand : l.instruction.operand with
    | jump => simp [successors, target?, operand]
    | _ =>
      rw [operand] at shape
      cases shape
  · have runs : l.instruction.opcode.runsOn = true := by
      cases op : l.instruction.opcode <;> first | rfl | contradiction
    simp [successors, runs]

end Located

/-- Offsets that no way on leaves confine control. -/
theorem Confines.of_closed {root : Nat × Nat} {territory : Nat → Prop} {ends : Opcode → Prop}
    (own : Set Nat) (unique : ∀ l ∈ code, ∀ l' ∈ code, l.offset = l'.offset → l = l')
    (closed : ∀ o ∈ own, ∃ l ∈ code, l.offset = o ∧ l.LeadsInto own) (enters : root.1 ∈ own)
    (inside : ∀ o ∈ own, territory o)
    (stops : ∀ l ∈ code, l.offset ∈ own → l.instruction.opcode = .ret ∨
      l.instruction.opcode = .halt → ends l.instruction.opcode) :
    Confines code root territory ends := by
  have step : ∀ l ∈ code, l.offset ∈ own → l.LeadsInto own := by
    intro l mem here
    obtain ⟨l', mem', same, leads⟩ := closed _ here
    exact unique l' mem' l mem same ▸ leads
  have reach : ∀ l, Reachable code [root] l → l.offset ∈ own := by
    intro l reached
    induction reached with
    | root _ entry =>
      rw [← List.mem_singleton.mp entry] at enters
      exact enters
    | step before _ way ih =>
      obtain ⟨t, mem, same⟩ := step _ before.mem ih _ _ way
      exact Int.ofNat.inj same ▸ mem
  constructor
  case entered =>
    obtain ⟨l, mem, here, _⟩ := closed _ enters
    exact ⟨l, mem, here⟩
  case stays => exact fun l reached => inside _ (reach l reached)
  case goesOn =>
    intro l reached
    have here := reach l reached
    by_cases last : l.instruction.opcode = .ret ∨ l.instruction.opcode = .halt
    · exact .inl (stops l reached.mem here last)
    · obtain ⟨noReturn, noHalt⟩ := not_or.mp last
      refine .inr ⟨Located.successors_ne_nil noReturn noHalt, fun way mem => ?_⟩
      obtain ⟨t, next, same⟩ := step l reached.mem here _ _ mem
      obtain ⟨l', mem', rfl, _⟩ := closed t next
      exact ⟨l', mem', same⟩

end Bindery.Machine

namespace Bindery.Emit

open Machine (Body Instruction Located LoopExit Outside outside_append)

/-! ### Items -/

namespace Item

def isReturn : Item → Bool
  | .instruction i => i.opcode == .ret
  | .exit _ => false

/-- Every way on from an item leads into the set. An open exit has no target yet. -/
def LeadsInto (o : Nat) (into : Set Nat) : Item → Prop
  | .instruction i => Located.LeadsInto ⟨o, i⟩ into
  | .exit _ => True

theorem LeadsInto.mono {o : Nat} {into into' : Set Nat} {item : Item}
    (leads : item.LeadsInto o into) (sub : into ⊆ into') : item.LeadsInto o into' := by
  cases item with
  | instruction => exact Located.LeadsInto.mono leads sub
  | exit => trivial

end Item

namespace Fragment

variable {functions : List (Nat × Nat)}

def Silent (f : Fragment) : Prop := ∀ item ∈ f, item.isReturn = false

instance (f : Fragment) : Decidable f.Silent :=
  inferInstanceAs (Decidable (∀ item ∈ f, item.isReturn = false))

@[simp] theorem silent_nil : Silent [] := fun _ mem => absurd mem List.not_mem_nil

variable {f g : Fragment} {start o : Nat} {code : Code} {bodies : List Body}

@[simp] theorem silent_cons {item : Item} :
    Silent (item :: f) ↔ item.isReturn = false ∧ Silent f := List.forall_mem_cons

theorem Silent.single {item : Item} (other : item.isReturn = false) : Silent [item] :=
  List.forall_mem_singleton.mpr other

@[simp] theorem silent_append : Silent (f ++ g) ↔ Silent f ∧ Silent g :=
  List.forall_mem_append

/-- An offset has one item. -/
theorem locate_unique {item item' : Item} (one : (o, item) ∈ locate start f)
    (two : (o, item') ∈ locate start f) : item = item' := by
  induction f generalizing start with
  | nil => cases one
  | cons first _ ih =>
    have positive := first.size_pos
    rcases List.mem_cons.mp one with same | later
    · rcases List.mem_cons.mp two with same' | later'
      · exact congrArg Prod.snd (same.trans same'.symm)
      · have := (locate_bounds later').1
        cases same
        omega
    · rcases List.mem_cons.mp two with same' | later'
      · have := (locate_bounds later).1
        cases same'
        omega
      · exact ih later later'

def offsets (start : Nat) (f : Fragment) : Set Nat := {o | ∃ item, (o, item) ∈ locate start f}

/-- At a boundary, an item starts or the fragment ends. -/
theorem Boundary.mem_offsets (h : Boundary start f o) : o ∈ offsets start f ∪ {start + size f} := by
  obtain ⟨before, after, rfl, rfl⟩ := h
  cases after with
  | nil =>
    right
    rw [List.append_nil]
    rfl
  | cons item =>
    left
    exact ⟨item, by simp⟩

/-- An item ends at a boundary. -/
theorem boundary_of_mem_locate {item : Item} (mem : (o, item) ∈ locate start f) :
    Boundary start f (o + item.size) := by
  induction f generalizing start with
  | nil => cases mem
  | cons first _ ih =>
    rw [boundary_cons]
    rcases List.mem_cons.mp mem with same | later
    · cases same
      exact .inr (.first _ _)
    · exact .inr (ih later)

def returnsOutside (start : Nat) (f : Fragment) (bodies : List Body) : Nat :=
  (locate start f).countP fun placed => placed.2.isReturn ∧ Outside bodies placed.1

section Returns

variable {bodies' : List Body}

/-- Returns are counted part by part. -/
theorem returnsOutside_append : returnsOutside start (f ++ g) bodies =
    returnsOutside start f bodies + returnsOutside (start + size f) g bodies := by
  simp [returnsOutside]

/-- Only the offsets of the fragment matter. -/
theorem returnsOutside_congr
    (same : ∀ o, start ≤ o → o < start + size f → (Outside bodies o ↔ Outside bodies' o)) :
    returnsOutside start f bodies = returnsOutside start f bodies' := by
  refine List.countP_congr fun ⟨o, item⟩ mem => ?_
  have bounds := locate_bounds mem
  have positive := item.size_pos
  simp only [decide_eq_true_eq, same o bounds.1 (by omega)]

theorem returnsOutside_eq_zero
    (none : ∀ o item, (o, item) ∈ locate start f → item.isReturn = true → ¬ Outside bodies o) :
    returnsOutside start f bodies = 0 := by
  refine List.countP_eq_zero.mpr fun ⟨o, item⟩ mem => ?_
  simp only [decide_eq_true_eq, not_and]
  exact none o item mem

theorem returnsOutside_of_silent (silent : f.Silent) : returnsOutside start f bodies = 0 := by
  refine returnsOutside_eq_zero fun o item mem returns => ?_
  rw [silent item (mem_of_mem_locate mem)] at returns
  cases returns

end Returns

/-- Settling the exits of a loop makes no return. -/
theorem Settled.returnsOutside_eq {target : LoopExit → Option Nat} (h : Settled target start f g)
    (bodies : List Body) : returnsOutside start g bodies = returnsOutside start f bodies := by
  rw [returnsOutside, returnsOutside, List.countP_eq_length_filter, List.countP_eq_length_filter,
    h.filter_eq]
  · intro o e
    simp [Item.isReturn]
  · intro o d
    simp [Item.isReturn, Instruction.goto, Instruction.jump]

/-- An offset determines the instruction that stands there. -/
theorem located_unique : ∀ l ∈ Machine.locate start code,
    ∀ l' ∈ Machine.locate start code, l.offset = l'.offset → l = l' := by
  rintro ⟨o, i⟩ mem ⟨o', i'⟩ mem' same
  obtain rfl : o = o' := same
  have one := locate_unique (mem_locate_toFragment.mpr mem) (mem_locate_toFragment.mpr mem')
  rw [Item.instruction.inj one]

/-- A jump in front of the body leads to its end. -/
def Skipped (placed : List (Nat × Item)) (b : Body) : Prop :=
  ∃ (o : Nat) (d : Int16), (o, .instruction (.goto d)) ∈ placed ∧
    o + jumpSize = b.entry ∧ (b.entry : Int) + d.toInt = b.stop

/-- Bodies behind jumps that lead past them are those that are read off the code. -/
theorem mem_functionBodies_iff (skips : ∀ b ∈ bodies, Skipped (locate start code.toFragment) b)
    (entries : ∀ a, (∃ arity, (a, arity) ∈ functions) ↔ ∃ b ∈ bodies, b.entry = a) (b : Body) :
    b ∈ Machine.functionBodies (Machine.locate start code) functions ↔ b ∈ bodies := by
  rw [Machine.mem_functionBodies, entries]
  constructor
  · rintro ⟨⟨b', mem, same⟩, l, here, _, before, t, leads, stop⟩
    obtain ⟨o, d, there, entry, past⟩ := skips b' mem
    obtain ⟨d', operand, rfl⟩ := Located.target?_eq_some leads
    -- The two jumps end at the same place, so they are the same.
    have jumps : l.stop = l.offset + jumpSize := by
      rw [Located.stop, Instruction.size, operand]
      rfl
    have one := located_unique l here _ (mem_locate_toFragment.mp there) (by
      change l.offset = o
      omega)
    rw [one] at operand
    cases operand
    have stops : b.stop = b'.stop := by omega
    obtain ⟨entry', stop'⟩ := b
    obtain rfl : b'.entry = entry' := same
    obtain rfl : stop' = b'.stop := stops
    exact mem
  · intro mem
    obtain ⟨o, d, there, entry, past⟩ := skips b mem
    refine ⟨⟨b, mem, rfl⟩, ⟨o, .goto d⟩, mem_locate_toFragment.mp there, rfl, entry, _, rfl, ?_⟩
    change b.stop = ((o + jumpSize : Nat) + d.toInt).toNat
    omega

/-! ### Separated code -/

/-- The body is skipped, and from its entry control goes only to instructions that belong to it. -/
structure Sealed (placed : List (Nat × Item)) (bodies : List Body) (b : Body) : Prop where
  skips : Skipped placed b
  inside : ∃ own : Set Nat, b.entry ∈ own ∧ (∀ o ∈ own, b.Owns bodies o) ∧
    ∀ o ∈ own, ∃ i, (o, .instruction i) ∈ placed ∧ Located.LeadsInto ⟨o, i⟩ own

/-- A body stays sealed when code is added around it. -/
theorem Sealed.mono {placed placed' : List (Nat × Item)} {bodies' : List Body} {b : Body}
    (h : Sealed placed bodies b)
    (keeps : ∀ o i, (o, .instruction i) ∈ placed → (o, .instruction i) ∈ placed')
    (more : ∀ o, b.Owns bodies o → b.Owns bodies' o) : Sealed placed' bodies' b := by
  obtain ⟨⟨o, d, mem, entry, stop⟩, own, enters, owns, closed⟩ := h
  refine ⟨⟨o, d, keeps _ _ mem, entry, stop⟩, own, enters, fun o mem => more o (owns o mem), ?_⟩
  intro o mem
  obtain ⟨i, there, leads⟩ := closed o mem
  exact ⟨i, keeps _ _ there, leads⟩

/-- `Separated start f bodies own out returns`: the fragment `f` at offset `start` has the given
bodies of functions. From its start, control keeps to the offsets `own`, which belong to none of
them, until it leaves the fragment for one of the places `out`. -/
structure Separated (start : Nat) (f : Fragment) (bodies : List Body) (own out : Set Nat)
    (returns : Nat) : Prop where
  begins : start ∈ own ∪ out
  closed : ∀ o ∈ own, ∃ item, (o, item) ∈ locate start f ∧ item.LeadsInto o (own ∪ out)
  outside : ∀ o ∈ own, Outside bodies o
  within : ∀ b ∈ bodies, start < b.entry ∧ b.stop ≤ start + size f
  sealed : ∀ b ∈ bodies, Sealed (locate start f) bodies b
  returns : returnsOutside start f bodies = returns

namespace Separated

variable {middle n m : Nat} {f g : Fragment} {bodies' : List Body} {own own' out out' : Set Nat}

/-- The offsets lie in the fragment. -/
theorem bounds (h : Separated start f bodies own out n) {o : Nat} (mem : o ∈ own) :
    start ≤ o ∧ o < start + size f := by
  obtain ⟨item, there, _⟩ := h.closed o mem
  have bounds := locate_bounds there
  have positive := item.size_pos
  omega

/-- In front of a fragment and behind it there are no bodies of its functions. -/
theorem outside_of_far (h : Separated start f bodies own out n)
    (far : o ≤ start ∨ start + size f ≤ o) : Outside bodies o := by
  rintro b mem ⟨lower, upper⟩
  have within := h.within b mem
  omega

/-- A place among the fragment's own offsets is no way out. -/
theorem tie (h : Separated start f bodies own out n) (known : out ⊆ own ∪ out') :
    Separated start f bodies own out' n where
  begins := Set.union_subset Set.subset_union_left known h.begins
  closed o mem := by
    obtain ⟨item, there, leads⟩ := h.closed o mem
    exact ⟨item, there, leads.mono (Set.union_subset Set.subset_union_left known)⟩
  outside := h.outside
  within := h.within
  sealed := h.sealed
  returns := h.returns

/-- Two fragments one after the other. -/
theorem append (left : Separated start f bodies own out n)
    (right : Separated middle g bodies' own' out' m) (follows : middle = start + size f) :
    Separated start (f ++ g) (bodies ++ bodies') (own ∪ own') (out ∪ out') (n + m) := by
  subst follows
  have sub : own ∪ out ⊆ own ∪ own' ∪ (out ∪ out') :=
    Set.union_subset_union Set.subset_union_left Set.subset_union_left
  have sub' : own' ∪ out' ⊆ own ∪ own' ∪ (out ∪ out') :=
    Set.union_subset_union Set.subset_union_right Set.subset_union_right
  constructor
  case begins => exact sub left.begins
  case closed =>
    rw [locate_append]
    rintro o (first | second)
    · obtain ⟨item, there, leads⟩ := left.closed o first
      exact ⟨item, List.mem_append_left _ there, leads.mono sub⟩
    · obtain ⟨item, there, leads⟩ := right.closed o second
      exact ⟨item, List.mem_append_right _ there, leads.mono sub'⟩
  case outside =>
    rintro o (first | second)
    · have far := right.outside_of_far (.inl (left.bounds first).2.le)
      exact outside_append.mpr ⟨left.outside o first, far⟩
    · have far := left.outside_of_far (.inr (right.bounds second).1)
      exact outside_append.mpr ⟨far, right.outside o second⟩
  case within =>
    intro b mem
    rw [size_append]
    rcases List.mem_append.mp mem with first | second
    · have := left.within b first
      omega
    · have := right.within b second
      omega
  case sealed =>
    intro b mem
    rw [locate_append]
    rcases List.mem_append.mp mem with first | second
    · refine (left.sealed b first).mono (fun _ _ => List.mem_append_left _) fun o owns => ?_
      have within := left.within b first
      have contains := owns.1.2
      exact (owns.append (right.outside_of_far (.inl (by omega)))).1
    · refine (right.sealed b second).mono (fun _ _ => List.mem_append_right _) fun o owns => ?_
      have within := right.within b second
      have contains := owns.1.1
      exact (owns.append (left.outside_of_far (.inr (by omega)))).2
  case returns =>
    rw [returnsOutside_append, ← left.returns, ← right.returns]
    congr 1
    · refine returnsOutside_congr fun o _ upper => ?_
      rw [outside_append, and_iff_left (right.outside_of_far (.inl (by omega)))]
    · refine returnsOutside_congr fun o lower _ => ?_
      rw [outside_append, and_iff_right (left.outside_of_far (.inr lower))]

/-- A fragment that is left at its end only, with another behind it. -/
theorem follow (left : Separated start f bodies own {middle} n)
    (right : Separated middle g bodies' own' out m) (follows : middle = start + size f) :
    Separated start (f ++ g) (bodies ++ bodies') (own ∪ own') out (n + m) := by
  refine (left.append right follows).tie (Set.union_subset ?_ Set.subset_union_right)
  rintro o rfl
  exact right.begins.imp_left .inr

/-- Code without functions and returns behind other code. -/
theorem finish (left : Separated start f bodies own {middle} n)
    (right : Separated middle g [] own' out 0) (follows : middle = start + size f) :
    Separated start (f ++ g) bodies (own ∪ own') out n := by
  have both := left.follow right follows
  rw [List.append_nil] at both
  exact both

/-- The fragment is left for a place that is known. -/
theorem leave {t : Nat} (h : Separated start f bodies own {t} n) (known : t ∈ out) :
    Separated start f bodies own out n := by
  refine h.tie ?_
  rintro o rfl
  exact .inr known

/-- What nothing leads to may stand behind a fragment. -/
theorem dead (h : Separated start f bodies own out n) (silent : g.Silent) :
    Separated start (f ++ g) bodies own out n where
  begins := h.begins
  closed o mem := by
    obtain ⟨item, there, leads⟩ := h.closed o mem
    rw [locate_append]
    exact ⟨item, List.mem_append_left _ there, leads⟩
  outside := h.outside
  within b mem := by
    have := h.within b mem
    rw [size_append]
    omega
  sealed b mem := by
    rw [locate_append]
    exact (h.sealed b mem).mono (fun _ _ => List.mem_append_left _) fun _ owns => owns
  returns := by
    rw [returnsOutside_append, h.returns, returnsOutside_of_silent silent, Nat.add_zero]

/-! ### Code without functions -/

theorem nil (start : Nat) : Separated start [] [] ∅ {start} 0 where
  begins := .inr rfl
  closed _ mem := absurd mem (Set.notMem_empty _)
  outside _ mem := absurd mem (Set.notMem_empty _)
  within _ mem := absurd mem List.not_mem_nil
  sealed _ mem := absurd mem List.not_mem_nil
  returns := rfl

/-- Well-formed code that does not return is left at its end. -/
theorem plain (start : Nat) (wellFormed : WellFormed f) (silent : f.Silent) :
    Separated start f [] (offsets start f) {start + size f} 0 where
  begins := (Boundary.first start f).mem_offsets
  closed := by
    rintro o ⟨item, there⟩
    refine ⟨item, there, ?_⟩
    cases item with
    | exit => trivial
    | instruction i =>
      refine .of_jump (fun d jump => ?_) fun _ => ?_
      · obtain ⟨t, leads, boundary⟩ := wellFormed.closed start o i d there jump
        exact ⟨t, boundary.mem_offsets, leads⟩
      · exact (boundary_of_mem_locate there).mem_offsets
  outside _ _ _ mem := absurd mem List.not_mem_nil
  within _ mem := absurd mem List.not_mem_nil
  sealed _ mem := absurd mem List.not_mem_nil
  returns := returnsOutside_of_silent silent

/-- One item, which leads behind itself or out. -/
theorem item (item : Item) (leads : item.LeadsInto start ({start} ∪ out)) :
    Separated start [item] [] {start} out item.isReturn.toNat where
  begins := .inl rfl
  closed := by
    rintro o rfl
    exact ⟨item, List.mem_cons_self, leads⟩
  outside _ _ _ mem := absurd mem List.not_mem_nil
  within _ mem := absurd mem List.not_mem_nil
  sealed _ mem := absurd mem List.not_mem_nil
  returns := by
    cases returns : item.isReturn <;> simp [returnsOutside, Outside, returns]

theorem ret (start : Nat) : Separated start [.instruction .ret] [] {start} ∅ 1 :=
  item (.instruction .ret) (.of_jump nofun nofun)

theorem halt (start : Nat) : Separated start [.instruction .halt] [] {start} ∅ 0 :=
  item (.instruction .halt) (.of_jump nofun nofun)

theorem exit (start : Nat) (e : LoopExit) : Separated start [.exit e] [] {start} ∅ 0 :=
  item (.exit e) trivial

theorem goto {d : Int16} {t : Nat} (leads : (t : Int) = (start + jumpSize : Nat) + d.toInt) :
    Separated start [.instruction (.goto d)] [] {start} {t} 0 := by
  refine item (.instruction (.goto d)) (.of_jump ?_ nofun)
  rintro d' ⟨⟩
  exact ⟨t, .inr rfl, leads⟩

theorem gotoDrop {value : Bool} {d : Int16} {t : Nat}
    (leads : (t : Int) = (start + jumpSize : Nat) + d.toInt) :
    Separated start [.instruction (.gotoDrop value d)] [] {start} {start + jumpSize, t} 0 := by
  have ways : Located.LeadsInto ⟨start, .gotoDrop value d⟩ ({start} ∪ {start + jumpSize, t}) := by
    refine .of_jump (fun d' jump => ⟨t, .inr (.inr rfl), ?_⟩) fun _ => .inr (.inl ?_)
    · cases value <;> cases jump <;> exact leads
    · exact congrArg (start + ·) (size_gotoDrop value d)
  cases value <;> exact item _ ways

/-! ### Control structures -/

/-- Closing a loop keeps it separated if `continue` leads to one of its own offsets, since
`break` leads to its end. -/
theorem closeLoop {resume : Nat} {code : Fragment}
    (h : Separated start f bodies own {start + size f} n)
    (run : Fragment.closeLoop f resume = .ok code)
    (resumes : start + resume ∈ own ∪ {start + size f}) :
    Separated start code bodies own {start + size code} n := by
  have settled := closeLoop_settled run start
  rw [settled.size_eq]
  constructor
  case begins => exact h.begins
  case closed =>
    intro o mem
    obtain ⟨item, there, ways⟩ := h.closed o mem
    cases item with
    | instruction => exact ⟨_, settled.keeps there, ways⟩
    | exit e =>
      obtain ⟨d, jump, distance⟩ := settled.jumps rfl there
      refine ⟨_, jump, .of_jump ?_ nofun⟩
      rintro d' ⟨⟩
      refine ⟨_, ?_, distance.symm⟩
      cases e with
      | breaks => exact .inr rfl
      | continues => exact resumes
  case outside => exact h.outside
  case within =>
    rw [settled.size_eq]
    exact h.within
  case sealed =>
    intro b mem
    exact (h.sealed b mem).mono (fun _ _ => settled.keeps) fun _ owns => owns
  case returns => rw [settled.returnsOutside_eq, h.returns]

section Structures

variable {condition yes no body : Fragment} {tests : Set Nat} {stop : Nat}

/-- A condition with something to skip. -/
theorem skip {skip : Int16} (test : Separated start condition [] tests {start + size condition} 0)
    (inner : Separated middle yes bodies own {middle + size yes} n)
    (follows : middle = start + size condition + jumpSize) (past : skip.toInt = size yes) :
    ∃ own, Separated start (condition ++ .instruction (.gotoDrop false skip) :: yes) bodies own
      {start + size (condition ++ .instruction (.gotoDrop false skip) :: yes)} n := by
  have jump : Separated (start + size condition) [.instruction (.gotoDrop false skip)] []
      {start + size condition} {middle, middle + size yes} 0 := by
    rw [follows]
    exact gotoDrop (by push_cast; omega)
  have rest : Separated _ _ _ _ {middle + size yes} _ := (jump.append inner follows).tie (by
    rintro o ((rfl | rfl) | rfl)
    · exact inner.begins.imp_left .inr
    · exact .inr rfl
    · exact .inr rfl)
  have ends : start + size (condition ++ .instruction (.gotoDrop false skip) :: yes) =
      middle + size yes := by
    rw [follows, size_append, size_cons, ← Nat.add_assoc, ← Nat.add_assoc]
    rfl
  rw [ends]
  exact ⟨_, by simpa using test.follow rest rfl⟩

/-- A condition with two ways to go on, where the first one ends in a jump over the second. -/
theorem branch {skip : Int16} {leave : Item}
    (test : Separated start condition [] tests {start + size condition} 0)
    (inner : Separated middle (yes ++ [leave]) bodies own out n)
    (follows : middle = start + size condition + jumpSize)
    (past : skip.toInt = size (yes ++ [leave])) (inner' : Separated stop no bodies' own' out m)
    (follows' : stop = middle + size (yes ++ [leave])) :
    ∃ own, Separated start (condition ++ .instruction (.gotoDrop false skip) ::
      (yes ++ leave :: no)) (bodies ++ bodies') own out (n + m) := by
  have jump : Separated (start + size condition) [.instruction (.gotoDrop false skip)] []
      {start + size condition} {middle, stop} 0 := by
    rw [follows]
    exact gotoDrop (by push_cast; omega)
  have ways := inner.append inner' follows'
  have rest : Separated _ _ _ _ out _ := (jump.append ways follows).tie (by
    rintro o ((rfl | rfl) | leaves | leaves)
    · exact inner.begins.imp_left fun first => .inr (.inl first)
    · exact inner'.begins.imp_left fun second => .inr (.inr second)
    · exact .inr leaves
    · exact .inr leaves)
  exact ⟨_, by simpa using test.follow rest rfl⟩

variable {code : Fragment} {d : Int16}

/-- The loop that tests its condition first comes back to its start. -/
theorem whileLoop {condition : Code}
    (test : Separated start condition.toFragment [] tests {start + condition.size} 0)
    (inner : Separated middle body bodies own {middle + size body} n)
    (follows : middle = start + condition.size + jumpSize)
    (run : Fragment.whileLoop condition body = .ok code) :
    ∃ own, Separated start code bodies own {start + size code} n := by
  obtain ⟨skip, back, past, again, closed⟩ := whileLoop_eq_ok run
  have sizes : size (whileBody condition body skip back) =
      condition.size + jumpSize + (size body + jumpSize) := by
    simp only [whileBody, size_append, size_cons, size_toFragment, Item.size, size_gotoDrop,
      size_nil]
    change _ + (_ + (_ + (jumpSize + 0))) = _
    omega
  have leaves : Separated (start + condition.size) [.instruction (.gotoDrop false skip)] []
      {start + condition.size} {middle, start + size (whileBody condition body skip back)} 0 := by
    rw [follows]
    exact gotoDrop (by rw [sizes]; push_cast at past ⊢; omega)
  have returns : Separated (middle + size body) [.instruction (.goto back)] []
      {middle + size body} {start} 0 :=
    goto (by push_cast at again ⊢; omega)
  have round := leaves.append (inner.follow returns rfl) follows
  have all := test.append round (by rw [size_toFragment])
  simp only [List.nil_append, List.append_nil, Nat.zero_add, Nat.add_zero] at all
  have whole : Separated start (whileBody condition body skip back) bodies
      (tests ∪ ({start + condition.size} ∪ (own ∪ {middle + size body})))
      {start + size (whileBody condition body skip back)} n := by
    refine all.tie ?_
    rintro o (rfl | (rfl | rfl) | rfl)
    · exact .inl (.inr (.inl rfl))
    · exact .inl (.inr (.inr inner.begins))
    · exact .inr rfl
    · exact .inl (test.begins.imp_right .inl)
  exact ⟨_, whole.closeLoop closed whole.begins⟩

/-- The loop that tests its condition last comes back to its start, and goes on with its
condition. -/
theorem doWhile {condition : Code} (inner : Separated start body bodies own {middle} n)
    (follows : middle = start + size body)
    (test : Separated middle condition.toFragment [] tests {middle + condition.size} 0)
    (run : Fragment.doWhile body condition = .ok code) :
    ∃ own, Separated start code bodies own {start + size code} n := by
  obtain ⟨back, again, closed⟩ := doWhile_eq_ok run
  have sizes : size (doWhileBody body condition back) =
      size body + condition.size + jumpSize := by
    simp only [doWhileBody, size_append, size_cons, size_toFragment, Item.size, size_gotoDrop,
      size_nil, Nat.add_zero]
  have returns : Separated (middle + condition.size) [.instruction (.gotoDrop true back)] []
      {middle + condition.size} {start + size (doWhileBody body condition back), start} 0 := by
    have ends : start + size (doWhileBody body condition back) =
        middle + condition.size + jumpSize := by omega
    rw [ends]
    exact gotoDrop (by push_cast at again ⊢; omega)
  have all := (inner.append test follows).append returns
    (by rw [size_append, size_toFragment, follows, Nat.add_assoc])
  simp only [List.append_nil, Nat.add_zero] at all
  have resumes : middle ∈ own ∪ tests ∪ {middle + condition.size} :=
    test.begins.imp_left .inr
  have whole : Separated start (doWhileBody body condition back) bodies
      (own ∪ tests ∪ {middle + condition.size})
      {start + size (doWhileBody body condition back)} n := by
    refine all.tie ?_
    rintro o ((rfl | rfl) | rfl | rfl)
    · exact .inl resumes
    · exact .inl (.inr rfl)
    · exact .inr rfl
    · rcases inner.begins with here | rfl
      · exact .inl (.inl (.inl here))
      · exact .inl resumes
  exact ⟨_, whole.closeLoop closed (follows ▸ .inl resumes)⟩

/-- Code that is entered at its start and never left is the body of a function once it is jumped
over. -/
theorem seals (h : Separated start f bodies own ∅ n) (closed : ∀ e, .exit e ∉ f)
    (entry : o + jumpSize = start) (past : d.toInt = size f) :
    Sealed ((o, .instruction (.goto d)) :: locate start f)
      (⟨start, start + size f⟩ :: bodies) ⟨start, start + size f⟩ := by
  refine ⟨⟨o, d, List.mem_cons_self, entry, ?_⟩, own, ?_, ?_, ?_⟩
  · rw [past]
    rfl
  · exact h.begins.resolve_right (Set.notMem_empty _)
  · exact fun o mem => (h.outside o mem).owns (fun _ => List.mem_cons.mp) (h.bounds mem)
  · intro o mem
    obtain ⟨item, there, leads⟩ := h.closed o mem
    rw [Set.union_empty] at leads
    cases item with
    | exit e => exact absurd (mem_of_mem_locate there) (closed e)
    | instruction i => exact ⟨i, List.mem_cons_of_mem _ there, leads⟩

/-- The code of a function is jumped over. It becomes a body, in which its own functions are
nested, and its returns no longer count. -/
theorem function (inner : Separated middle f bodies own ∅ n) (closed : ∀ e, .exit e ∉ f)
    (follows : middle = start + jumpSize) (past : d.toInt = size f) :
    Separated start (.instruction (.goto d) :: f) (⟨middle, middle + size f⟩ :: bodies) {start}
      {middle + size f} 0 := by
  have placed : locate start (.instruction (.goto d) :: f) =
      (start, .instruction (.goto d)) :: locate middle f := by
    rw [follows]
    rfl
  have before : start < middle := by
    rw [follows]
    exact Nat.lt_add_of_pos_right (Nat.succ_pos 2)
  constructor
  case begins => exact .inl rfl
  case closed =>
    rintro o rfl
    refine ⟨_, List.mem_cons_self, .of_jump ?_ nofun⟩
    rintro d' ⟨⟩
    refine ⟨_, .inr rfl, ?_⟩
    rw [past, follows]
    rfl
  case outside =>
    rintro o rfl b mem contains
    rcases List.mem_cons.mp mem with rfl | nested
    · exact absurd (before.trans_le contains.1) (Nat.lt_irrefl _)
    · exact inner.outside_of_far (.inl before.le) b nested contains
  case within =>
    have whole : start + size (.instruction (.goto d) :: f) = middle + size f := by
      rw [size_cons, follows, Nat.add_assoc]
      rfl
    rw [whole]
    intro b mem
    rcases List.mem_cons.mp mem with rfl | nested
    · exact ⟨before, Nat.le_refl _⟩
    · have within := inner.within b nested
      exact ⟨before.trans within.1, within.2⟩
  case sealed =>
    rw [placed]
    intro b mem
    rcases List.mem_cons.mp mem with rfl | nested
    · exact inner.seals closed follows.symm past
    · refine (inner.sealed b nested).mono (fun _ _ => List.mem_cons_of_mem _) fun o owns => ?_
      exact owns.nested (fun _ => List.mem_cons.mp) (inner.within b nested).1.le
  case returns =>
    refine returnsOutside_eq_zero fun o item there returns outside => ?_
    rw [placed] at there
    rcases List.mem_cons.mp there with same | inside
    · cases same
      cases returns
    · have bounds := locate_bounds inside
      have positive := item.size_pos
      exact outside _ List.mem_cons_self ⟨bounds.1, by change o < middle + size f; omega⟩

end Structures

/-! ### Whole programs -/

section Programs

variable {code : Code}

/-- Separated code keeps control apart. -/
theorem keepsApart (h : Separated 0 code.toFragment bodies own ∅ n)
    (entries : ∀ a, (∃ arity, (a, arity) ∈ functions) ↔ ∃ b ∈ bodies, b.entry = a)
    (halts : ∀ l ∈ Machine.locate 0 code, l.instruction.opcode = .halt →
      Outside bodies l.offset) : Machine.KeepsApart (Machine.locate 0 code) functions n := by
  have bodies_iff := mem_functionBodies_iff (fun b mem => (h.sealed b mem).skips) entries
  have outside_iff : ∀ o, Outside (Machine.functionBodies (Machine.locate 0 code) functions) o ↔
      Outside bodies o := by
    intro o
    simp only [Outside, bodies_iff]
  constructor
  case hasBody =>
    intro f mem
    obtain ⟨b, known, same⟩ := (entries f.1).mp ⟨f.2, mem⟩
    exact ⟨b, (bodies_iff b).mpr known, same⟩
  case function =>
    intro f _ b mem same
    obtain ⟨own, enters, owns, closed⟩ := (h.sealed b ((bodies_iff b).mp mem)).inside
    refine .of_closed own located_unique (fun o here => ?_) (same ▸ enters) (fun o here => ?_)
      fun l here inside last => last.elim id fun halt => ?_
    · obtain ⟨i, there, leads⟩ := closed o here
      exact ⟨⟨o, i⟩, mem_locate_toFragment.mp there, rfl, leads⟩
    · simp only [Body.Owns, bodies_iff]
      exact owns o here
    · exact absurd (owns _ inside).1 (halts l here halt b ((bodies_iff b).mp mem))
  case program =>
    refine .of_closed own located_unique (fun o here => ?_) ?_ (fun o here => ?_)
      fun l _ _ last => last.symm
    · obtain ⟨item, there, leads⟩ := h.closed o here
      rw [Set.union_empty] at leads
      cases item with
      | exit e => exact absurd (mem_of_mem_locate there) (code.exit_not_mem e)
      | instruction i => exact ⟨⟨o, i⟩, mem_locate_toFragment.mp there, rfl, leads⟩
    · exact h.begins.resolve_right (Set.notMem_empty _)
    · exact (outside_iff o).mpr (h.outside o here)
  case returns =>
    rw [← h.returns, returnsOutside, locate_toFragment, List.countP_map]
    refine List.countP_congr fun l _ => ?_
    simp [outside_iff, Item.isReturn]

end Programs

end Separated

end Fragment

end Bindery.Emit
