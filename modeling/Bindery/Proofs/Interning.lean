import Bindery.Proofs.ImageCodec

/-!
Adding constants to a pool.

A constant that is in the pool already is answered with its index, and a new one goes to the end.
So a pool only grows at its end (`isPrefix_addAll`), and an index that was handed out stands for the
same constant from then on. `placed` lists the calls that succeed with the indices they are
answered with; what a whole run of calls keeps to is `interning`.
-/

namespace Bindery

theorem getElem?_of_isPrefix {α : Type} {l m : List α} (longer : l <+: m) {i : Nat} {a : α}
    (here : l[i]? = some a) : m[i]? = some a := by
  obtain ⟨within, same⟩ := List.getElem?_eq_some_iff.mp here
  rw [List.prefix_iff_getElem?.mp longer i within, same]

namespace Machine.ConstantPool

variable {p q : ConstantPool} {c : Constant} {index : Nat}

/-- The constants that are added one after the other, each with the index it is given. One that
does not fit has none. -/
def placed (p : ConstantPool) : List Constant → List (Constant × Nat)
  | [] => []
  | c :: rest =>
    match (p.intern c).result with
    | .ok index => (c, index) :: (p.intern c).state.placed rest
    | .error _ => (p.intern c).state.placed rest

/-! ### One call -/

/-- No constant is in a pool twice. -/
theorem nodup_toList (p : ConstantPool) : p.toList.Nodup := p.entries.nodup_toList

theorem addAll_cons {result : Except EmitError Nat} (run : p.intern c = ⟨q, result⟩)
    (rest : List Constant) : p.addAll (c :: rest) = q.addAll rest := by
  rw [addAll, List.foldl_cons, run]
  rfl

/-- A constant is answered with its index, or it is new and goes to the end. -/
theorem intern_eq_ok (run : p.intern c = ⟨q, .ok index⟩) :
    p.get? index = some c ∧ q = p ∨
      c ∉ p.toList ∧ index = p.size ∧ q.toList = p.toList ++ [c] := by
  unfold intern at run
  split at run
  · rename_i known
    cases run
    exact .inl ⟨(p.entries.number?_eq_some_iff c index).mp known, rfl⟩
  · rename_i fresh
    split at run
    · cases run
    · cases run
      exact .inr ⟨number?_eq_none.mp fresh, rfl,
        Numbering.toList_push _ _ ((p.entries.number?_eq_none_iff c).mp fresh)⟩

/-- A constant is refused if it is new and something keeps it out, and the pool is then as
before. -/
theorem intern_eq_error_iff {err : EmitError} :
    p.intern c = ⟨p, .error err⟩ ↔ c ∉ p.toList ∧ p.obstacle? c = some err := by
  unfold intern
  split
  · rename_i known
    have present := List.mem_of_getElem? ((p.entries.number?_eq_some_iff c _).mp known)
    exact ⟨nofun, fun refused => absurd present refused.1⟩
  · rename_i fresh
    have absent := number?_eq_none.mp fresh
    split
    · rename_i other stopped
      rw [stopped]
      simp [absent]
    · rename_i free
      rw [free]
      simp

/-- A refusal leaves the pool as it is. -/
theorem intern_of_error {err : EmitError} (refused : (p.intern c).result = .error err) :
    p.intern c = ⟨p, .error err⟩ := by
  rcases p.intern_cases c with ⟨_, _, run⟩ | ⟨_, _, _, _, _, run, _⟩ | ⟨_, _, _, run⟩
  · rw [run] at refused
    cases refused
  · rw [run] at refused
    cases refused
  · rw [run] at refused
    cases refused
    exact run

/-- A constant that is there changes nothing. -/
theorem intern_of_mem (known : c ∈ p.toList) : ∃ index, p.intern c = ⟨p, .ok index⟩ := by
  rcases p.intern_cases c with ⟨_, present⟩ | ⟨absent, _⟩ | ⟨absent, _⟩
  · exact present
  · exact absurd known absent
  · exact absurd known absent

/-- A constant is found at the index that it is given. -/
theorem get?_of_intern (run : p.intern c = ⟨q, .ok index⟩) : q.get? index = some c := by
  rcases intern_eq_ok run with ⟨known, rfl⟩ | ⟨_, rfl, list⟩
  · exact known
  · change q.toList[p.size]? = some c
    rw [list, ← length_toList, List.getElem?_concat_length]

theorem lt_size_of_get? (held : p.get? index = some c) : index < p.size := by
  rw [← length_toList]
  exact (List.getElem?_eq_some_iff.mp held).1

/-! ### Runs of calls -/

/-- Adding constants moves none. -/
theorem isPrefix_addAll (p : ConstantPool) (cs : List Constant) :
    p.toList <+: (p.addAll cs).toList := by
  induction cs generalizing p with
  | nil => exact List.prefix_rfl
  | cons c _ ih =>
    refine List.IsPrefix.trans ?_ (ih _)
    rcases p.intern_cases c with ⟨_, _, same⟩ | ⟨_, _, _, _, _, more, list⟩ | ⟨_, _, _, refused⟩
    · simp [same]
    · simp [more, list]
    · simp [refused]

/-- What an index stands for does not change. -/
theorem get?_addAll (held : p.get? index = some c) (cs : List Constant) :
    (p.addAll cs).get? index = some c :=
  getElem?_of_isPrefix (p.isPrefix_addAll cs) held

/-- A constant has one index. -/
theorem index_unique (first : p.get? index = some c) {other : Nat}
    (second : p.get? other = some c) : index = other := by
  have number := (p.entries.number?_eq_some_iff c index).mpr first
  rw [(p.entries.number?_eq_some_iff c other).mpr second] at number
  exact (Option.some.inj number).symm

/-- The index that a constant was given leads to it at the end of the run. -/
theorem get?_of_mem_placed {cs : List Constant} (mem : (c, index) ∈ p.placed cs) :
    (p.addAll cs).get? index = some c := by
  induction cs generalizing p with
  | nil => cases mem
  | cons d rest ih =>
    rw [placed] at mem
    cases run : p.intern d with
    | mk _ result =>
      rw [run] at mem
      rw [addAll_cons run]
      cases result with
      | error => exact ih mem
      | ok =>
        rcases List.mem_cons.mp mem with same | later
        · cases same
          exact get?_addAll (get?_of_intern run) rest
        · exact ih later

theorem eraseDups_range (n : Nat) : (List.range n).eraseDups = List.range n := by
  induction n with
  | zero => rfl
  | succ _ ih =>
    rw [List.range_succ, List.eraseDups_append, ih]
    simp [List.removeAll, List.eraseDups_cons]

/-- A number below `n` behind `List.range n` is not used for the first time. -/
theorem eraseDups_range_append {n i : Nat} (known : i < n) (rest : List Nat) :
    (List.range n ++ i :: rest).eraseDups = (List.range n ++ rest).eraseDups := by
  rw [List.eraseDups_append, List.eraseDups_append]
  simp [List.removeAll, known]

/-- Behind the indices of a pool come those that are handed out next, each at its first use. -/
theorem eraseDups_placed (p : ConstantPool) (cs : List Constant) :
    (List.range p.size ++ (p.placed cs).map Prod.snd).eraseDups =
      List.range (p.addAll cs).size := by
  induction cs generalizing p with
  | nil =>
    rw [placed, List.map_nil, List.append_nil]
    exact eraseDups_range p.size
  | cons c _ ih =>
    rw [placed]
    cases run : p.intern c with
    | mk q result =>
      rw [addAll_cons run, ← ih q]
      cases result with
      | error =>
        cases (intern_of_error (congrArg Outcome.result run)).symm.trans run
        rfl
      | ok =>
        rcases intern_eq_ok run with ⟨known, rfl⟩ | ⟨_, rfl, list⟩
        · exact eraseDups_range_append (lt_size_of_get? known) _
        · have size : q.size = p.size + 1 := by
            rw [← length_toList, list, List.length_append, length_toList]
            rfl
          rw [size, List.range_succ, List.append_assoc]
          rfl

/-- A constant is refused exactly if it is new and the pool is full or it is too long a string. -/
theorem refused_iff (fits : p.Fits) :
    (∃ err, (p.intern c).result = .error err) ↔ c ∉ p.toList ∧
      (p.size = 65535 ∨ ∃ text, c = .string text ∧ 65535 < text.utf8ByteSize) := by
  have cause : (∃ err, p.obstacle? c = some err) ↔ ¬(p.size < poolLimit ∧ c.Storable) := by
    rw [← obstacle?_eq_none_iff, ← ne_eq, Option.ne_none_iff_exists']
  have same : ∀ err, (p.intern c).result = .error err ↔ p.intern c = ⟨p, .error err⟩ := fun _ =>
    ⟨intern_of_error, congrArg Outcome.result⟩
  simp only [same, intern_eq_error_iff, exists_and_left, cause, not_and_or, Constant.Storable,
    not_forall, exists_prop, Nat.not_le, poolLimit]
  have limit := fits.size_le
  rw [poolLimit] at limit
  have full : ¬p.size < 65535 ↔ p.size = 65535 := by omega
  rw [full]

/-- Whatever constants are added to an empty pool, it has at most 65535 entries, which are distinct,
and no string in it is longer than 65535 bytes. An index that a constant is given leads to it right
away and after all later calls. Two constants have one index exactly if they are equal, and the
indices are 0, 1, 2, ... in the order of their first use. A constant is refused exactly if it is new
and there is no room or it is too long; the pool is then as before. One that is in the pool is never
refused. -/
theorem interning (calls : List Constant) :
    ((addAll ∅ calls).size ≤ 65535 ∧ (addAll ∅ calls).toList.Nodup ∧
      ∀ text, .string text ∈ (addAll ∅ calls).toList → text.utf8ByteSize ≤ 65535) ∧
    (∀ before c later index q, calls = before ++ c :: later →
      (addAll ∅ before).intern c = ⟨q, .ok index⟩ →
        index < 65535 ∧ q.get? index = some c ∧ (addAll ∅ calls).get? index = some c) ∧
    (∀ c index d other, (c, index) ∈ placed ∅ calls → (d, other) ∈ placed ∅ calls →
      (index = other ↔ c = d)) ∧
    ((placed ∅ calls).map Prod.snd).eraseDups = List.range (addAll ∅ calls).size ∧
    (∀ c, ((∃ err, ((addAll ∅ calls).intern c).result = .error err) ↔
        c ∉ (addAll ∅ calls).toList ∧ ((addAll ∅ calls).size = 65535 ∨
          ∃ text, c = .string text ∧ 65535 < text.utf8ByteSize)) ∧
      ∀ err, ((addAll ∅ calls).intern c).result = .error err →
        ((addAll ∅ calls).intern c).state = addAll ∅ calls ∧
          addAll ∅ (calls ++ [c]) = addAll ∅ calls) ∧
    ∀ c ∈ (addAll ∅ calls).toList, ∃ index,
      (addAll ∅ calls).intern c = ⟨addAll ∅ calls, .ok index⟩ := by
  have fits : (addAll ∅ calls).Fits := (exists_addAll_iff _).mp ⟨calls, rfl⟩
  refine ⟨⟨fits.size_le, nodup_toList _, fun text mem => fits.storable _ mem text rfl⟩, ?_, ?_,
    eraseDups_placed ∅ calls, fun c => ⟨refused_iff fits, fun err refused => ?_⟩,
    fun c known => intern_of_mem known⟩
  · rintro before c later index q rfl run
    have kept : (addAll ∅ (before ++ c :: later)).get? index = some c := by
      rw [addAll_append, addAll_cons run]
      exact get?_addAll (get?_of_intern run) later
    exact ⟨Nat.lt_of_lt_of_le (lt_size_of_get? kept) fits.size_le, get?_of_intern run, kept⟩
  · intro c index d other first second
    have here := get?_of_mem_placed first
    have there := get?_of_mem_placed second
    constructor
    · rintro rfl
      exact Option.some.inj (here.symm.trans there)
    · rintro rfl
      exact index_unique here there
  · have run := intern_of_error refused
    refine ⟨congrArg Outcome.state run, ?_⟩
    rw [addAll_append, addAll_cons run]
    rfl

/-! ### A full pool -/

/-- New constants that fit all have a place. -/
theorem toList_addAll_of_new {cs : List Constant} (distinct : (p.toList ++ cs).Nodup)
    (room : p.size + cs.length ≤ poolLimit) (storable : ∀ c ∈ cs, c.Storable) :
    (p.addAll cs).toList = p.toList ++ cs := by
  induction cs generalizing p with
  | nil => exact (List.append_nil _).symm
  | cons c rest ih =>
    rw [List.length_cons] at room
    have absent : c ∉ p.toList := fun mem =>
      (List.nodup_append.mp distinct).2.2 c mem c List.mem_cons_self rfl
    rcases p.intern_cases c with ⟨present, _⟩ | ⟨_, _, _, index, q, run, list⟩ | ⟨_, unfit, _⟩
    · exact absurd present absent
    · have size : q.size = p.size + 1 := by
        rw [← length_toList, list, List.length_append, length_toList]
        rfl
      have split : p.toList ++ c :: rest = q.toList ++ rest := by
        rw [list, List.append_assoc]
        rfl
      rw [split] at distinct ⊢
      rw [addAll_cons run]
      exact ih distinct (by omega) fun d mem => storable d (List.mem_cons_of_mem _ mem)
    · exact absurd ⟨by omega, storable c List.mem_cons_self⟩ unfit

def numbers (n : Nat) : List Constant := (List.range n).map fun i => .int (.ofNat i)

theorem nodup_numbers {n : Nat} (small : n ≤ poolLimit) : (numbers n).Nodup := by
  rw [poolLimit] at small
  refine List.pairwise_map.mpr (List.nodup_range.imp_of_mem ?_)
  intro i j first second differ same
  have values := congrArg Int32.toInt (Constant.int.inj same)
  rw [List.mem_range] at first second
  rw [Int32.toInt_ofNat_of_lt (by omega), Int32.toInt_ofNat_of_lt (by omega)] at values
  exact differ (Int.ofNat.inj values)

theorem toList_addAll_numbers {n : Nat} (small : n ≤ poolLimit) :
    (addAll ∅ (numbers n)).toList = numbers n := by
  refine toList_addAll_of_new (nodup_numbers small) ?_ fun c mem => ?_
  · rw [numbers, List.length_map, List.length_range]
    exact (Nat.zero_add n).symm ▸ small
  · obtain ⟨i, _, rfl⟩ := List.mem_map.mp mem
    exact nofun

/-- In a full pool a constant that is there still has its index, and a new one is refused. -/
theorem numbers_interned :
    (addAll ∅ (numbers 65535)).size = 65535 ∧
      (addAll ∅ (numbers 65535)).intern (.int 7) = ⟨addAll ∅ (numbers 65535), .ok 7⟩ ∧
      (∃ err, ((addAll ∅ (numbers 65535)).intern (.long 7)).result = .error err) ∧
      ((addAll ∅ (numbers 65535)).intern (.long 7)).state = addAll ∅ (numbers 65535) ∧
      addAll ∅ (numbers 65535 ++ [.long 7]) = addAll ∅ (numbers 65535) := by
  obtain ⟨_, _, _, _, refused, known⟩ := interning (numbers 65535)
  have list : (addAll ∅ (numbers 65535)).toList = numbers 65535 :=
    toList_addAll_numbers (Nat.le_refl _)
  have size : (addAll ∅ (numbers 65535)).size = 65535 := by
    rw [← length_toList, list, numbers, List.length_map, List.length_range]
  have seven : (addAll ∅ (numbers 65535)).get? 7 = some (.int 7) := by
    change (addAll ∅ (numbers 65535)).toList[7]? = _
    rw [list, numbers, List.getElem?_map, List.getElem?_range (by decide)]
    rfl
  have absent : Constant.long 7 ∉ (addAll ∅ (numbers 65535)).toList := by
    rw [list]
    intro mem
    obtain ⟨i, _, same⟩ := List.mem_map.mp mem
    cases same
  obtain ⟨err, unfit⟩ := (refused (.long 7)).1.mpr ⟨absent, .inl size⟩
  obtain ⟨index, run⟩ := known (.int 7) (List.mem_of_getElem? seven)
  obtain rfl : index = 7 := index_unique (get?_of_intern run) seven
  exact ⟨size, run, ⟨err, unfit⟩, (refused (.long 7)).2 err unfit⟩

end Machine.ConstantPool

end Bindery
