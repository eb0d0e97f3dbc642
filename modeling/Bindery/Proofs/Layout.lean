import Bindery.Emit.Fragment

/-!
Where the items of a fragment stand.

`Fragment.locate` gives every item the offset of its first byte. The places
between two items, the start and the end are the boundaries of a fragment; they
are where a jump may lead. `Fragment.Settled` says what closing a loop does to its
body: every item stays where it is, and an exit becomes a jump whose target is
that of its kind.
-/

namespace Bindery

/-! ### Steps that may fail -/

section Except

variable {ε α β : Type} {x : Except ε α} {b : β} {f : α → β}

/-- A sequence of two steps succeeds exactly when both do. -/
theorem except_bind_eq_ok {f : α → Except ε β} :
    (x >>= f) = .ok b ↔ ∃ a, x = .ok a ∧ f a = .ok b := by
  cases x with
  | error => simp [bind, Except.bind]
  | ok => simp [bind, Except.bind]

theorem except_map_eq_ok : x.map f = .ok b ↔ ∃ a, x = .ok a ∧ f a = b := by
  cases x <;> simp [Except.map]

theorem except_map_eq_error {err : ε} : x.map f = .error err ↔ x = .error err := by
  cases x <;> simp [Except.map]

theorem except_pure_eq_ok {a b : α} : (pure a : Except ε α) = .ok b ↔ b = a := by
  simp [pure, Except.pure, eq_comm]

/-! What is read off a result is read off only if there is one. -/

theorem ok_of_toOption_bind {f : α → Option β} (read : x.toOption.bind f = some b) :
    ∃ a, x = .ok a ∧ f a = some b := by
  cases x with
  | error => cases read
  | ok a => exact ⟨a, rfl, read⟩

theorem ok_of_toOption_map (read : x.toOption.map f = some b) : ∃ a, x = .ok a ∧ f a = b := by
  cases x with
  | error => cases read
  | ok a => exact ⟨a, rfl, Option.some.inj read⟩

theorem ok_of_toOption_isSome (ends : x.toOption.isSome = true) : ∃ a, x = .ok a := by
  cases x with
  | error => cases ends
  | ok a => exact ⟨a, rfl⟩

end Except

end Bindery

namespace Bindery.Machine

def locate (start : Nat) : List Instruction → List Located
  | [] => []
  | i :: rest => ⟨start, i⟩ :: locate (start + i.size) rest

/-- A distance that fits is the distance itself. -/
theorem toDistance_eq_ok {distance : Int} {d : Int16} (fits : toDistance distance = .ok d) :
    d.toInt = distance := by
  unfold toDistance at fits
  split at fits
  · rename_i range
    cases fits
    exact Int16.toInt_ofInt_of_le (by omega) (by omega)
  · cases fits

variable {what : Quantity} {value : Nat}

/-- A word that fits is the number itself. -/
theorem toWord16_eq_ok {word : UInt16} (fits : toWord16 what value = .ok word) :
    word.toNat = value := by
  unfold toWord16 at fits
  split at fits
  · rename_i small
    cases fits
    exact UInt16.toNat_ofNat_of_lt' small
  · cases fits

theorem toWord8_eq_ok {word : UInt8} (fits : toWord8 what value = .ok word) :
    word.toNat = value := by
  unfold toWord8 at fits
  split at fits
  · rename_i small
    cases fits
    exact UInt8.toNat_ofNat_of_lt' small
  · cases fits

theorem Located.target?_eq_some {l : Located} {t : Int} (leads : l.target? = some t) :
    ∃ d, l.instruction.operand = .jump d ∧ t = l.stop + d.toInt := by
  unfold Located.target? at leads
  split at leads
  · exact ⟨_, ‹_›, (Option.some.inj leads).symm⟩
  · cases leads

end Bindery.Machine

namespace Bindery.Emit

open Machine (EmitError Instruction LoopExit Located toDistance toDistance_eq_ok)

theorem Item.size_pos (item : Item) : 0 < item.size := by
  cases item with
  | instruction i => exact i.size_pos
  | exit => exact Nat.succ_pos 2

namespace Code

@[simp] theorem toFragment_nil : toFragment [] = [] := rfl

@[simp] theorem toFragment_cons (i : Instruction) (rest : Code) :
    toFragment (i :: rest) = .instruction i :: toFragment rest := rfl

@[simp] theorem toFragment_append (a b : Code) :
    toFragment (a ++ b) = toFragment a ++ toFragment b := by
  simp [toFragment]

/-- Code has no open exits. -/
@[simp] theorem exit_not_mem (code : Code) (x : LoopExit) : .exit x ∉ code.toFragment := by
  simp [toFragment]

end Code

namespace Fragment

/-- The items of a fragment that starts at `start`, each with its offset. -/
def locate (start : Nat) : Fragment → List (Nat × Item)
  | [] => []
  | item :: rest => (start, item) :: locate (start + item.size) rest

@[simp] theorem locate_nil (start : Nat) : locate start [] = [] := rfl

@[simp] theorem locate_cons (start : Nat) (item : Item) (rest : Fragment) :
    locate start (item :: rest) = (start, item) :: locate (start + item.size) rest := rfl

@[simp] theorem locate_append (start : Nat) (a b : Fragment) :
    locate start (a ++ b) = locate start a ++ locate (start + size a) b := by
  induction a generalizing start with
  | nil => simp
  | cons _ _ ih =>
    simp only [List.cons_append, locate_cons, size_cons, ih, Nat.add_assoc]

variable {start o : Nat} {item : Item} {f g rest out : Fragment}

/-- Items lie between the start and the end. -/
theorem locate_bounds (mem : (o, item) ∈ locate start f) :
    start ≤ o ∧ o + item.size ≤ start + size f := by
  induction f generalizing start with
  | nil => cases mem
  | cons _ _ ih =>
    rw [size_cons]
    rcases List.mem_cons.mp mem with same | later
    · cases same
      omega
    · have := ih later
      omega

theorem mem_of_mem_locate (mem : (o, item) ∈ locate start f) : item ∈ f := by
  induction f generalizing start with
  | nil => cases mem
  | cons _ _ ih =>
    rcases List.mem_cons.mp mem with same | later
    · cases same
      exact List.mem_cons_self
    · exact List.mem_cons_of_mem _ (ih later)

theorem exists_mem_locate (start : Nat) (mem : item ∈ f) : ∃ o, (o, item) ∈ locate start f := by
  obtain ⟨before, after, rfl⟩ := List.append_of_mem mem
  exact ⟨start + size before, by simp⟩

/-- The instructions of code stand where its fragment has them. -/
theorem locate_toFragment (start : Nat) (code : Code) :
    locate start code.toFragment =
      (Machine.locate start code).map fun l => (l.offset, .instruction l.instruction) := by
  induction code generalizing start with
  | nil => rfl
  | cons _ _ ih =>
    rw [Code.toFragment_cons, locate_cons, ih]
    rfl

/-- The instructions of a fragment stand where those of its code do. -/
theorem mem_locate_toFragment {code : Code} {i : Machine.Instruction} :
    (o, .instruction i) ∈ locate start code.toFragment ↔ ⟨o, i⟩ ∈ Machine.locate start code := by
  rw [locate_toFragment, List.mem_map]
  constructor
  · rintro ⟨l, mem, same⟩
    cases same
    exact mem
  · intro mem
    exact ⟨_, mem, rfl⟩

/-- A fragment without open exits is code. -/
theorem toFragment_toCode (closed : ∀ x, .exit x ∉ f) : Code.toFragment (toCode f) = f := by
  induction f with
  | nil => rfl
  | cons item _ ih =>
    have others := ih fun x mem => closed x (List.mem_cons_of_mem _ mem)
    cases item with
    | instruction => exact congrArg _ others
    | exit x => exact absurd List.mem_cons_self (closed x)

/-! ### Boundaries -/

/-- A place where an item starts or the last one ends. -/
def Boundary (start : Nat) (f : Fragment) (o : Nat) : Prop :=
  ∃ before after, f = before ++ after ∧ o = start + size before

theorem Boundary.intro (start : Nat) (before after : Fragment) :
    Boundary start (before ++ after) (start + size before) :=
  ⟨before, after, rfl, rfl⟩

theorem Boundary.first (start : Nat) (f : Fragment) : Boundary start f start :=
  ⟨[], f, rfl, rfl⟩

theorem Boundary.last (start : Nat) (f : Fragment) : Boundary start f (start + size f) :=
  ⟨f, [], (List.append_nil f).symm, rfl⟩

theorem Boundary.append_right (h : Boundary start f o) (g : Fragment) :
    Boundary start (f ++ g) o := by
  obtain ⟨before, after, rfl, rfl⟩ := h
  exact ⟨before, after ++ g, List.append_assoc .., rfl⟩

theorem Boundary.append_left (h : Boundary (start + size f) g o) : Boundary start (f ++ g) o := by
  obtain ⟨before, after, rfl, rfl⟩ := h
  exact ⟨f ++ before, after, (List.append_assoc ..).symm, by rw [size_append, Nat.add_assoc]⟩

/-- A boundary is the start or one of the rest. -/
theorem boundary_cons :
    Boundary start (item :: rest) o ↔ o = start ∨ Boundary (start + item.size) rest o := by
  constructor
  · rintro ⟨before, after, split, rfl⟩
    cases before with
    | nil => exact .inl rfl
    | cons _ before =>
      obtain ⟨rfl, rfl⟩ := List.cons.inj split
      exact .inr ⟨before, after, rfl, by rw [size_cons, Nat.add_assoc]⟩
  · rintro (rfl | ⟨before, after, rfl, rfl⟩)
    · exact .first _ _
    · exact ⟨item :: before, after, rfl, by rw [size_cons, Nat.add_assoc]⟩

/-- Before the end, an item starts at a boundary. -/
theorem Boundary.starts (h : Boundary start f o) (more : g ≠ []) :
    ∃ item, (o, item) ∈ locate start (f ++ g) := by
  obtain ⟨before, after, rfl, rfl⟩ := h
  rw [List.append_assoc, locate_append]
  cases rest : after ++ g with
  | nil => exact absurd (List.append_eq_nil_iff.mp rest).2 more
  | cons item =>
    exact ⟨item, List.mem_append_right _ List.mem_cons_self⟩

/-! ### Closing a loop -/

/-- `Settled target o f g`: the fragment `g` is `f`, which starts at `o`, with every
exit of a kind that has a target turned into a jump there. -/
inductive Settled (target : LoopExit → Option Nat) : Nat → Fragment → Fragment → Prop where
  | nil {o : Nat} : Settled target o [] []
  | keep {o : Nat} {i : Instruction} {f g : Fragment} : Settled target (o + i.size) f g →
      Settled target o (.instruction i :: f) (.instruction i :: g)
  | wait {o : Nat} {e : LoopExit} {f g : Fragment} : target e = none →
      Settled target (o + jumpSize) f g → Settled target o (.exit e :: f) (.exit e :: g)
  | jump {o t : Nat} {e : LoopExit} {d : Int16} {f g : Fragment} : target e = some t →
      (o + jumpSize : Nat) + d.toInt = t → Settled target (o + jumpSize) f g →
      Settled target o (.exit e :: f) (.instruction (.goto d) :: g)

/-- What `settleFrom` adds behind what is settled already. -/
theorem settleFrom_settled {exit : LoopExit} {target offset : Nat} {settled : Fragment}
    (h : settleFrom exit target offset settled rest = .ok out) :
    ∃ tail, out = settled.reverse ++ tail ∧ ∀ start,
      Settled (fun e => if e = exit then some (start + target) else none) (start + offset)
        rest tail := by
  induction rest generalizing offset settled with
  | nil =>
    obtain rfl : settled.reverse = out := by simpa [settleFrom] using h
    exact ⟨[], (List.append_nil _).symm, fun _ => .nil⟩
  | cons item _ ih =>
    cases item with
    | instruction =>
      rw [settleFrom] at h
      obtain ⟨tail, rfl, rel⟩ := ih h
      exact ⟨_ :: tail, by simp, fun start => .keep (by simpa [Nat.add_assoc] using rel start)⟩
    | exit =>
      rw [settleFrom] at h
      split at h
      · rename_i same
        obtain ⟨d, fits, h⟩ := except_bind_eq_ok.mp h
        obtain ⟨tail, rfl, rel⟩ := ih h
        have distance := toDistance_eq_ok fits
        refine ⟨.instruction (.goto d) :: tail, by simp, fun start => .jump (if_pos same) ?_ ?_⟩
        · push_cast at distance ⊢
          omega
        · simpa [Nat.add_assoc] using rel start
      · rename_i other
        obtain ⟨tail, rfl, rel⟩ := ih h
        exact ⟨_ :: tail, by simp, fun start =>
          .wait (if_neg other) (by simpa [Nat.add_assoc] using rel start)⟩

/-- Settling some kinds of exits after others settles them all. -/
theorem Settled.trans {first second : LoopExit → Option Nat} {h : Fragment}
    (one : Settled first o f g) (two : Settled second o g h) :
    Settled (fun e => (first e).or (second e)) o f h := by
  induction one generalizing h with
  | nil =>
    cases two
    exact .nil
  | keep _ ih =>
    cases two with
    | keep rest => exact .keep (ih rest)
  | wait open_ _ ih =>
    cases two with
    | wait open_' rest => exact .wait (by simp [open_, open_']) (ih rest)
    | jump known leads rest => exact .jump (by simp [open_, known]) leads (ih rest)
  | jump known leads _ ih =>
    cases two with
    | keep rest => exact .jump (by simp [known]) leads (ih rest)

/-- Where the exits of a loop at `start` lead: `break` to its end and `continue` to
`resume` bytes into it. -/
def loopTarget (start resume : Nat) (loop : Fragment) : LoopExit → Nat
  | .breaks => start + size loop
  | .continues => start + resume

/-- Closing a loop settles all its exits. -/
theorem closeLoop_settled {loop : Fragment} {resume : Nat} (h : closeLoop loop resume = .ok out)
    (start : Nat) : Settled (fun e => some (loopTarget start resume loop e)) start loop out := by
  unfold closeLoop at h
  obtain ⟨_, first, h⟩ := except_bind_eq_ok.mp h
  obtain ⟨_, rfl, one⟩ := settleFrom_settled first
  obtain ⟨_, rfl, two⟩ := settleFrom_settled h
  have targets : (fun e => some (loopTarget start resume loop e)) = fun e =>
      (if e = LoopExit.continues then some (start + resume) else none).or
        (if e = .breaks then some (start + size loop) else none) :=
    funext fun e => by cases e <;> rfl
  rw [targets]
  exact (one start).trans (two start)

section Settled

variable {target : LoopExit → Option Nat}

/-- Settling an exit keeps its size. -/
theorem Settled.size_eq (h : Settled target o f g) : size g = size f := by
  induction h with
  | nil => rfl
  | keep _ ih | wait _ _ ih => rw [size_cons, size_cons, ih]
  | jump _ _ _ ih =>
    rw [size_cons, size_cons, ih]
    rfl

variable {e : LoopExit} {p : Nat} {i : Instruction}

/-- An exit that is still open is of a kind without a target. -/
theorem Settled.waits (h : Settled target o f g) (mem : .exit e ∈ g) : target e = none := by
  induction h with
  | nil => cases mem
  | keep _ ih | jump _ _ _ ih =>
    rcases List.mem_cons.mp mem with same | later
    · cases same
    · exact ih later
  | wait open_ _ ih =>
    rcases List.mem_cons.mp mem with same | later
    · cases same
      exact open_
    · exact ih later

/-- Every item is still there, settled or not. -/
theorem Settled.exists_mem (h : Settled target o f g) (mem : (p, item) ∈ locate o f) :
    ∃ item', (p, item') ∈ locate o g := by
  induction h with
  | nil => cases mem
  | keep _ ih | wait _ _ ih | jump _ _ _ ih =>
    rcases List.mem_cons.mp mem with same | later
    · cases same
      exact ⟨_, List.mem_cons_self⟩
    · obtain ⟨item', there⟩ := ih later
      exact ⟨item', List.mem_cons_of_mem _ there⟩

/-- An instruction stood there before, or settles an exit. -/
theorem Settled.instruction_cases (h : Settled target o f g)
    (mem : (p, .instruction i) ∈ locate o g) :
    (p, .instruction i) ∈ locate o f ∨
      ∃ e d t, i = .goto d ∧ (p, .exit e) ∈ locate o f ∧ target e = some t ∧
        (p + jumpSize : Nat) + d.toInt = t := by
  induction h with
  | nil => cases mem
  | keep _ ih =>
    rcases List.mem_cons.mp mem with same | later
    · cases same
      exact .inl List.mem_cons_self
    · exact (ih later).imp (List.mem_cons_of_mem _) fun ⟨e, d, t, eq, exits, known⟩ =>
        ⟨e, d, t, eq, List.mem_cons_of_mem _ exits, known⟩
  | wait _ _ ih =>
    rcases List.mem_cons.mp mem with same | later
    · cases same
    · exact (ih later).imp (List.mem_cons_of_mem _) fun ⟨e, d, t, eq, exits, known⟩ =>
        ⟨e, d, t, eq, List.mem_cons_of_mem _ exits, known⟩
  | jump known leads _ ih =>
    rcases List.mem_cons.mp mem with same | later
    · cases same
      exact .inr ⟨_, _, _, rfl, List.mem_cons_self, known, leads⟩
    · exact (ih later).imp (List.mem_cons_of_mem _) fun ⟨e, d, t, eq, exits, known⟩ =>
        ⟨e, d, t, eq, List.mem_cons_of_mem _ exits, known⟩

/-- Instructions stay. -/
theorem Settled.keeps (h : Settled target o f g) (mem : (p, .instruction i) ∈ locate o f) :
    (p, .instruction i) ∈ locate o g := by
  induction h with
  | nil => cases mem
  | keep _ ih =>
    rcases List.mem_cons.mp mem with same | later
    · cases same
      exact List.mem_cons_self
    · exact List.mem_cons_of_mem _ (ih later)
  | wait _ _ ih | jump _ _ _ ih =>
    rcases List.mem_cons.mp mem with same | later
    · cases same
    · exact List.mem_cons_of_mem _ (ih later)

/-- An exit of a kind with a target becomes a jump there. -/
theorem Settled.jumps (h : Settled target o f g) {t : Nat} (known : target e = some t)
    (mem : (p, .exit e) ∈ locate o f) :
    ∃ d : Int16, (p, .instruction (.goto d)) ∈ locate o g ∧
      (p + jumpSize : Nat) + d.toInt = t := by
  induction h with
  | nil => cases mem
  | keep _ ih =>
    rcases List.mem_cons.mp mem with same | later
    · cases same
    · obtain ⟨d, there, leads⟩ := ih later
      exact ⟨d, List.mem_cons_of_mem _ there, leads⟩
  | wait open_ _ ih =>
    rcases List.mem_cons.mp mem with same | later
    · cases same
      rw [open_] at known
      cases known
    · obtain ⟨d, there, leads⟩ := ih later
      exact ⟨d, List.mem_cons_of_mem _ there, leads⟩
  | jump known' leads _ ih =>
    rcases List.mem_cons.mp mem with same | later
    · cases same
      rw [known] at known'
      cases known'
      exact ⟨_, List.mem_cons_self, leads⟩
    · obtain ⟨d, there, leads⟩ := ih later
      exact ⟨d, List.mem_cons_of_mem _ there, leads⟩

/-- What is neither an exit nor a jump stays. -/
theorem Settled.filter_eq (h : Settled target o f g) {q : Nat × Item → Bool}
    (exits : ∀ p e, q (p, .exit e) = false) (jumps : ∀ p d, q (p, .instruction (.goto d)) = false) :
    (locate o g).filter q = (locate o f).filter q := by
  induction h with
  | nil => rfl
  | keep _ ih | wait _ _ ih => simp only [locate_cons, List.filter_cons, Item.size, ih]
  | jump _ _ _ ih =>
    rw [locate_cons, locate_cons, List.filter_cons_of_neg, List.filter_cons_of_neg]
    · exact ih
    · simp [exits]
    · simp [jumps]

/-- Settling moves no item. -/
theorem Settled.boundary (h : Settled target o f g) : Boundary o g p ↔ Boundary o f p := by
  induction h with
  | nil => exact Iff.rfl
  | keep _ ih | wait _ _ ih | jump _ _ _ ih =>
    rw [boundary_cons, boundary_cons]
    exact or_congr_right ih

end Settled

end Fragment

end Bindery.Emit
