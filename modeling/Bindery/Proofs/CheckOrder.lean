import Bindery.Compile
import Bindery.Proofs.Reports

/-!
The order of diagnostics.

Diagnostics are sorted by file and start offset (`Diagnostic.order`). A stable sort leaves those at
one place as they stand (`filter_mergeSort`), and a sorted list is known from what it has at each
place (`eq_of_sorted`). If no two files have one name, what stands at a place comes from one file,
so that the order of the files does not show in what is reported about them (`checkAll_order`).
-/

namespace Bindery

/-! ### Sorted lists -/

section Sorted

variable {α : Type} {cmp : α → α → Ordering} [Std.TransCmp cmp]

def level (cmp : α → α → Ordering) (a b : α) : Bool := cmp a b == .eq

omit [Std.TransCmp cmp] in
theorem level_iff {a b : α} : level cmp a b = true ↔ cmp a b = .eq := beq_iff_eq

variable (cmp) in
theorem level_self (a : α) : level cmp a a = true := level_iff.mpr Std.ReflCmp.compare_self

theorem isLE_total (a b : α) : (cmp a b).isLE || (cmp b a).isLE := by
  have swap : cmp b a = (cmp a b).swap := Std.OrientedCmp.eq_swap
  rw [swap]
  cases cmp a b <;> rfl

theorem sorted_mergeSort (l : List α) :
    (l.mergeSort fun a b => (cmp a b).isLE).Pairwise fun a b => (cmp a b).isLE :=
  List.pairwise_mergeSort (fun _ _ _ => Std.TransCmp.isLE_trans) isLE_total l

/-- Sorting keeps the members that compare equal to `a` in their order. -/
theorem filter_mergeSort (a : α) (l : List α) :
    (l.mergeSort fun b c => (cmp b c).isLE).filter (level cmp a) =
      l.filter (level cmp a) := by
  have trans : ∀ b c d, (cmp b c).isLE → (cmp c d).isLE → (cmp b d).isLE :=
    fun _ _ _ => Std.TransCmp.isLE_trans
  have sorted : (l.filter (level cmp a)).Pairwise fun b c => (cmp b c).isLE := by
    refine List.pairwise_of_forall_mem_list fun b mem c mem' => ?_
    have first := level_iff.mp (List.mem_filter.mp mem).2
    have second := level_iff.mp (List.mem_filter.mp mem').2
    rw [← Std.TransCmp.congr_left first, second]
    rfl
  have kept :=
    (List.sublist_mergeSort trans isLE_total sorted List.filter_sublist).filter (level cmp a)
  rw [List.filter_filter] at kept
  simp only [Bool.and_self] at kept
  exact (kept.eq_of_length ((List.mergeSort_perm l _).filter _).length_eq.symm).symm

/-- What stands at a place of one list stands there in the other. -/
theorem mem_of_filter_eq {l m : List α} {a : α}
    (same : l.filter (level cmp a) = m.filter (level cmp a)) (mem : a ∈ l) : a ∈ m := by
  have kept := List.mem_filter.mpr ⟨mem, level_self cmp a⟩
  rw [same] at kept
  exact (List.mem_filter.mp kept).1

/-- The first member of a sorted list comes before all others. -/
theorem isLE_of_mem_cons {a b : α} {l : List α}
    (sorted : (a :: l).Pairwise fun a b => (cmp a b).isLE) (mem : b ∈ a :: l) : (cmp a b).isLE := by
  rcases List.mem_cons.mp mem with rfl | later
  · rw [level_iff.mp (level_self cmp b)]
    rfl
  · exact List.rel_of_pairwise_cons sorted later

/-- A sorted list is known from its members that compare equal to each value, in their order. -/
theorem eq_of_sorted {l m : List α} (first : l.Pairwise fun a b => (cmp a b).isLE)
    (second : m.Pairwise fun a b => (cmp a b).isLE)
    (same : ∀ a, l.filter (level cmp a) = m.filter (level cmp a)) : l = m := by
  induction l generalizing m with
  | nil =>
    cases m with
    | nil => rfl
    | cons b m => cases mem_of_filter_eq (same b).symm List.mem_cons_self
  | cons a l ih =>
    cases m with
    | nil => cases mem_of_filter_eq (same a) List.mem_cons_self
    | cons b m =>
      have left := isLE_of_mem_cons first (mem_of_filter_eq (same b).symm List.mem_cons_self)
      have right := isLE_of_mem_cons second (mem_of_filter_eq (same a) List.mem_cons_self)
      have equal : cmp a b = .eq := Std.OrientedCmp.isLE_antisymm left right
      -- Both heads are the first member of one class.
      have heads := same a
      rw [List.filter_cons_of_pos (level_self cmp a),
        List.filter_cons_of_pos (level_iff.mpr equal)] at heads
      obtain ⟨rfl, _⟩ := List.cons.inj heads
      refine congrArg (a :: ·) ?_
      apply ih (List.pairwise_cons.mp first).2 (List.pairwise_cons.mp second).2
      intro c
      have members := same c
      rw [List.filter_cons, List.filter_cons] at members
      split at members
      · exact (List.cons.inj members).2
      · exact members

end Sorted

/-! ### Places -/

namespace Diagnostic

def start? (d : Diagnostic) : Option UInt32 := d.span.map (·.start)

theorem start?_inFile (file : String) (d : Diagnostic) : (d.inFile file).start? = d.start? := by
  rw [inFile]
  split <;> rfl

def order : Diagnostic → Diagnostic → Ordering :=
  compareLex (compareOn (·.file)) (compareOn start?)

instance : Std.TransCmp order := inferInstanceAs (Std.TransCmp (compareLex _ _))

theorem notAfter_eq (a b : Diagnostic) : a.notAfter b = (order a b).isLE := by
  have files : notAfter.compareFiles a.file b.file = compare a.file b.file := by
    cases a.file <;> cases b.file <;> rfl
  simp only [order, compareLex, compareOn, notAfter, files, start?]
  cases compare a.file b.file with
  | lt => rfl
  | gt => rfl
  | eq =>
    cases a.span with
    | none => cases b.span <;> rfl
    | some s =>
      cases b.span with
      | none => rfl
      | some t =>
        change decide (s.start.toNat ≤ t.start.toNat) = (compare s.start t.start).isLE
        rw [Bool.eq_iff_iff, decide_eq_true_iff, Std.isLE_compare, UInt32.le_iff_toNat_le]

/-- Diagnostics are level if they are about one offset of one file. -/
theorem order_eq_iff {a b : Diagnostic} :
    order a b = .eq ↔ a.file = b.file ∧ a.start? = b.start? := by
  rw [order, compareLex_eq_eq]
  simp [compareOn]

theorem sort_eq (ds : List Diagnostic) : sort ds = ds.mergeSort fun a b => (order a b).isLE := by
  rw [sort]
  congr
  funext a b
  exact notAfter_eq a b

/-- Both have a place, and the first one is not behind the second: its file comes before, or it is
the same file and it does not start later. -/
def Precedes (a b : Diagnostic) : Prop :=
  ∃ f g s t, a.file = some f ∧ b.file = some g ∧ a.span = some s ∧ b.span = some t ∧
    (f < g ∨ f = g ∧ s.start ≤ t.start)

def Placed (d : Diagnostic) : Prop := ∃ file span, d.file = some file ∧ d.span = some span

/-- Of two placed diagnostics, one that is not after the other precedes it. -/
theorem precedes_of_order {a b : Diagnostic} (first : a.Placed) (second : b.Placed)
    (before : (order a b).isLE) : a.Precedes b := by
  obtain ⟨f, s, file, span⟩ := first
  obtain ⟨g, t, file', span'⟩ := second
  refine ⟨f, g, s, t, file, file', span, span', ?_⟩
  simp only [order, compareLex, compareOn, start?, file, file', span, span'] at before
  rcases Ordering.isLE_then_iff_or.mp before with less | ⟨equal, starts⟩
  · exact .inl (compareOfLessAndEq_eq_lt.mp less)
  · exact .inr ⟨Std.LawfulEqOrd.eq_of_compare (α := String) equal, Std.isLE_compare.mp starts⟩

end Diagnostic

/-! ### Files -/

open Diagnostic

/-- What is reported about a file is at a place in that file. -/
theorem SourceFile.of_mem_check {file : SourceFile} {d : Diagnostic} (mem : d ∈ file.check) :
    d.file = some file.fileName ∧ d.Placed := by
  obtain ⟨reported, mem', rfl⟩ := List.mem_map.mp mem
  obtain ⟨unknown, ⟨span, here⟩, _⟩ := regular_of_mem_bind mem'
  have stamped : reported.inFile file.fileName = { reported with file := some file.fileName } := by
    rw [inFile, unknown]
  rw [stamped]
  exact ⟨rfl, _, span, rfl, here⟩

section Files

variable {files files' : List SourceFile} {file : SourceFile} {x : Diagnostic}

theorem level_order_iff {d : Diagnostic} :
    level order x d = true ↔ x.file = d.file ∧ x.start? = d.start? :=
  level_iff.trans order_eq_iff

/-- At a place in another file a file has nothing. -/
theorem filter_check_of_ne (other : x.file ≠ some file.fileName) :
    file.check.filter (level order x) = [] := by
  refine List.filter_eq_nil_iff.mpr fun d mem here => other ?_
  rw [(level_order_iff.mp here).1, (SourceFile.of_mem_check mem).1]

/-- Other files report nothing about a file. -/
theorem filter_flatMap_of_ne (other : ∀ file ∈ files, x.file ≠ some file.fileName) :
    (files.flatMap SourceFile.check).filter (level order x) = [] := by
  rw [List.filter_flatMap, List.flatMap_eq_nil_iff]
  intro file mem
  exact filter_check_of_ne (other file mem)

/-- What stands at a place comes from the one file with that name. -/
theorem filter_flatMap_of_mem (distinct : (files.map (·.fileName)).Nodup) (mem : file ∈ files)
    (here : x.file = some file.fileName) :
    (files.flatMap SourceFile.check).filter (level order x) =
      file.check.filter (level order x) := by
  induction files with
  | nil => cases mem
  | cons first rest ih =>
    rw [List.map_cons, List.nodup_cons] at distinct
    have apart : ∀ other ∈ rest, first.fileName ≠ other.fileName := fun other mem' same =>
      distinct.1 (same ▸ List.mem_map_of_mem mem')
    rw [List.flatMap_cons, List.filter_append]
    rcases List.mem_cons.mp mem with rfl | later
    · have others : ∀ other ∈ rest, x.file ≠ some other.fileName := fun other mem' same =>
        apart other mem' (Option.some.inj (here.symm.trans same))
      rw [filter_flatMap_of_ne others, List.append_nil]
    · have differ : x.file ≠ some first.fileName := fun same =>
        apart file later (Option.some.inj (same.symm.trans here))
      rw [filter_check_of_ne differ, List.nil_append, ih distinct.2 later]

/-- The order of the files does not matter for what stands at a place. -/
theorem filter_flatMap_perm (distinct : (files.map (·.fileName)).Nodup) (perm : files.Perm files')
    (x : Diagnostic) :
    (files'.flatMap SourceFile.check).filter (level order x) =
      (files.flatMap SourceFile.check).filter (level order x) := by
  by_cases present : ∃ file ∈ files, x.file = some file.fileName
  · obtain ⟨file, mem, here⟩ := present
    have distinct' : (files'.map (·.fileName)).Nodup := (perm.map _).nodup_iff.mp distinct
    rw [filter_flatMap_of_mem distinct mem here,
      filter_flatMap_of_mem distinct' (perm.mem_iff.mp mem) here]
  · have absent : ∀ file ∈ files, x.file ≠ some file.fileName := fun file mem here =>
      present ⟨file, mem, here⟩
    rw [filter_flatMap_of_ne absent,
      filter_flatMap_of_ne fun file mem => absent file (perm.mem_iff.mpr mem)]

/-- What is reported is what the files report. -/
theorem checkAll_perm_flatMap (files : List SourceFile) :
    (checkAll files).Perm (files.flatMap SourceFile.check) :=
  List.mergeSort_perm _ _

/-- Diagnostics that are in order are reported as they are found. -/
theorem checkAll_of_sorted (sorted : (files.flatMap SourceFile.check).Pairwise (·.notAfter ·)) :
    checkAll files = files.flatMap SourceFile.check :=
  List.mergeSort_of_pairwise sorted

theorem sorted_checkAll (files : List SourceFile) :
    (checkAll files).Pairwise fun a b => (order a b).isLE := by
  rw [checkAll, sort_eq]
  exact sorted_mergeSort _

/-- At each place the reports stand as the files give them. -/
theorem filter_checkAll (files : List SourceFile) (x : Diagnostic) :
    (checkAll files).filter (level order x) =
      (files.flatMap SourceFile.check).filter (level order x) := by
  rw [checkAll, sort_eq, filter_mergeSort]

/-- Reports are sorted by file and offset. -/
theorem precedes_checkAll (files : List SourceFile) : (checkAll files).Pairwise Precedes := by
  have placed : ∀ d ∈ checkAll files, d.Placed := by
    intro d mem
    obtain ⟨file, _, mem'⟩ := List.mem_flatMap.mp ((checkAll_perm_flatMap files).mem_iff.mp mem)
    exact (SourceFile.of_mem_check mem').2
  refine (sorted_checkAll files).imp_of_mem fun first second before => ?_
  exact precedes_of_order (placed _ first) (placed _ second) before

/-- The order of files with different names does not show. -/
theorem checkAll_perm (distinct : (files.map (·.fileName)).Nodup) (perm : files.Perm files') :
    checkAll files' = checkAll files := by
  refine eq_of_sorted (sorted_checkAll files') (sorted_checkAll files) fun x => ?_
  rw [filter_checkAll, filter_checkAll, filter_flatMap_perm distinct perm]

/-- The diagnostics of a file that start at an offset are reported in the order in which they were
found. -/
theorem filter_checkAll_of_mem (distinct : (files.map (·.fileName)).Nodup) (mem : file ∈ files)
    (start : UInt32) :
    (checkAll files).filter (fun d => d.file == some file.fileName && d.start? == some start) =
      (file.bind.2.filter (·.start? == some start)).map (·.inFile file.fileName) := by
  -- Any diagnostic at that place will do.
  let x := (Diagnostic.on ⟨start, 0⟩ default []).inFile file.fileName
  have here : ∀ d, level order x d = (d.file == some file.fileName && d.start? == some start) := by
    intro d
    rw [Bool.eq_iff_iff, level_order_iff, Bool.and_eq_true, beq_iff_eq, beq_iff_eq, eq_comm,
      eq_comm (a := x.start?)]
    rfl
  calc
    _ = (checkAll files).filter (level order x) := List.filter_congr fun d _ => (here d).symm
    _ = file.check.filter (level order x) := by
      rw [filter_checkAll, filter_flatMap_of_mem distinct mem rfl]
    _ = file.check.filter (·.start? == some start) := by
      refine List.filter_congr fun d mem' => ?_
      rw [here, (SourceFile.of_mem_check mem').1, BEq.rfl, Bool.true_and]
    _ = _ := by
      rw [SourceFile.check, List.filter_map]
      simp only [Function.comp_def, start?_inFile]

/-- What is reported about files with different names does not depend on the order of the files. It
is what each file is reported with by itself, ordered by file name and start offset, and the
diagnostics of a file that start at the same offset stand in the order in which they were found. -/
theorem checkAll_order (distinct : (files.map (·.fileName)).Nodup) (perm : files.Perm files') :
    checkAll files' = checkAll files ∧
    (checkAll files).Perm (files.flatMap SourceFile.check) ∧
    (checkAll files).Pairwise Precedes ∧
    ∀ file ∈ files, ∀ start : UInt32,
      (checkAll files).filter (fun d => d.file == some file.fileName && d.start? == some start) =
        (file.bind.2.filter (·.start? == some start)).map (·.inFile file.fileName) := by
  refine ⟨checkAll_perm distinct perm, checkAll_perm_flatMap files, precedes_checkAll files, ?_⟩
  intro file mem start
  exact filter_checkAll_of_mem distinct mem start

end Files

/-- Reads two names nobody has declared, both at one offset. -/
def tiedFile : SourceFile where
  fileName := "a"
  text := none
  statements := [
    .print (.reference ⟨"q", ⟨6, 9⟩⟩) ⟨0, 15⟩, .print (.reference ⟨"p", ⟨6, 1⟩⟩) ⟨0, 15⟩]
  span := ⟨0, 15⟩

def untiedFile : SourceFile where
  fileName := "b"
  text := none
  statements := [.print (.reference ⟨"q", ⟨2, 1⟩⟩) ⟨0, 3⟩]
  span := ⟨0, 3⟩

theorem checkAll_order_tied :
    checkAll [untiedFile, tiedFile] = tiedFile.check ++ untiedFile.check ∧
      (tiedFile.check ++ untiedFile.check).map (fun d => (d.file, d.start?, d.arguments)) =
        [(some "a", some 6, ["q"]), (some "a", some 6, ["p"]), (some "b", some 2, ["q"])] ∧
      (checkAll [untiedFile, tiedFile]).filter
          (fun d => d.file == some "a" && d.start? == some 6) =
        (tiedFile.bind.2.filter (·.start? == some 6)).map (·.inFile "a") := by
  have distinct : ([tiedFile, untiedFile].map (·.fileName)).Nodup := by decide
  have ordered := checkAll_order distinct (List.Perm.swap untiedFile tiedFile [])
  have same : checkAll [tiedFile, untiedFile] = tiedFile.check ++ untiedFile.check :=
    checkAll_of_sorted (by decide +kernel)
  refine ⟨ordered.1.trans same, by decide +kernel, ?_⟩
  rw [ordered.1]
  exact ordered.2.2.2 tiedFile List.mem_cons_self 6

end Bindery
