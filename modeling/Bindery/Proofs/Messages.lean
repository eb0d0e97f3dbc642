import Bindery.Proofs.Reports
import Bindery.Proofs.TypeTexts

/-!
The wording of messages.

`Template.Fills` says what a template with its holes filled is: each hole is replaced by its
argument, all at once, so that what an argument says is never taken for a hole. The holes are filled
one after the other, though, and a text that has been put in can make a hole of a later argument, by
itself or with what stands around it. If it never does (`Template.Undisturbed`), the holes are
filled as if at once (`Template.fill_fills`). This is so for every template in which each opening
brace opens a hole, if no argument but the last has one, and so for all that a binder reports.
-/

namespace Bindery

namespace Template

/-- `Fills i arguments text filled`: in the text the holes of argument `i` and the following are
replaced by the arguments, and all other characters are kept. -/
inductive Fills (i : Nat) (arguments : List String) : List Char → List Char → Prop where
  | nil : Fills i arguments [] []
  | replace {k : Nat} {argument : String} {text filled : List Char} :
      arguments[k]? = some argument → Fills i arguments text filled →
        Fills i arguments (hole (i + k) ++ text) (argument.toList ++ filled)
  | keep {c : Char} {text filled : List Char} :
      (∀ k < arguments.length, ¬hole (i + k) <+: c :: text) → Fills i arguments text filled →
        Fills i arguments (c :: text) (c :: filled)

def occurrences (hole : List Char) : List Char → Nat
  | [] => 0
  | c :: text => (if hole.isPrefixOf (c :: text) then 1 else 0) + occurrences hole text

/-- No argument that is put in, from argument `i` on, makes a new hole of a later one. -/
def Undisturbed (i : Nat) : List String → List Char → Prop
  | [], _ => True
  | argument :: rest, text =>
    (∀ k < rest.length,
      occurrences (hole (i + 1 + k)) (fillFrom (hole i) argument.toList 0 text) =
        occurrences (hole (i + 1 + k)) text) ∧
    Undisturbed (i + 1) rest (fillFrom (hole i) argument.toList 0 text)

instance decidableUndisturbed (i : Nat) :
    ∀ arguments text, Decidable (Undisturbed i arguments text)
  | [], _ => inferInstanceAs (Decidable True)
  | argument :: rest, text =>
    have := decidableUndisturbed (i + 1) rest (fillFrom (hole i) argument.toList 0 text)
    inferInstanceAs (Decidable (_ ∧ _))

/-! ### Holes -/

theorem brace_not_mem_toDigits (i : Nat) : '\x7b' ∉ Nat.toDigits 10 i := by
  intro mem
  exact absurd (Nat.isDigit_of_mem_toDigits (by decide) (by decide) mem) (by decide)

/-- Behind its opening brace a hole has no other one. -/
theorem brace_not_mem_tail (i : Nat) : '\x7b' ∉ Nat.toDigits 10 i ++ ['\x7d'] := by
  simp [brace_not_mem_toDigits]

theorem hole_append (i : Nat) (text : List Char) :
    hole i ++ text = '\x7b' :: (Nat.toDigits 10 i ++ ['\x7d'] ++ text) := rfl

variable {i j : Nat} {text : List Char} {c : Char} {argument : String}

/-- Where a hole stands, no other one does. -/
theorem hole_isPrefix_iff : hole i <+: hole j ++ text ↔ i = j := by
  have number : ∀ (n : Nat) (rest : List Char),
      (Nat.toDigits 10 n ++ '\x7d' :: rest).takeWhile Char.isDigit = Nat.toDigits 10 n := by
    intro n rest
    rw [List.takeWhile_append_of_pos fun c mem =>
      Nat.isDigit_of_mem_toDigits (by decide) (by decide) mem]
    simp
  constructor
  · rintro ⟨rest, same⟩
    simp only [hole_append, List.cons.injEq, true_and, List.append_assoc,
      List.singleton_append] at same
    have digits := congrArg (List.takeWhile Char.isDigit) same
    rw [number, number] at digits
    rw [← Nat.ofDigitChars_toDigits (b := 10) (n := i) (by decide) (by decide), digits,
      Nat.ofDigitChars_toDigits (by decide) (by decide)]
  · rintro rfl
    exact List.prefix_append ..

/-- A hole starts with a brace. -/
theorem brace_of_hole_isPrefix (starts : hole i <+: c :: text) : c = '\x7b' :=
  (List.cons_prefix_cons.mp starts).1.symm

/-! ### One hole at a time -/

section FillFrom

variable {argument : List Char}

theorem fillFrom_cons (starts : ¬hole i <+: c :: text) :
    fillFrom (hole i) argument 0 (c :: text) = c :: fillFrom (hole i) argument 0 text := by
  rw [← List.isPrefixOf_iff_prefix] at starts
  rw [fillFrom, if_neg starts]

/-- Text without an opening brace stays as it is. -/
theorem fillFrom_append (i : Nat) (argument : List Char) (plain : '\x7b' ∉ text) (rest : List Char)
    :
    fillFrom (hole i) argument 0 (text ++ rest) = text ++ fillFrom (hole i) argument 0 rest := by
  induction text with
  | nil => rfl
  | cons c text ih =>
    rw [List.mem_cons, not_or] at plain
    have other : ¬hole i <+: c :: (text ++ rest) := fun starts =>
      plain.1 (brace_of_hole_isPrefix starts).symm
    rw [List.cons_append, fillFrom_cons other, ih plain.2, List.cons_append]

theorem fillFrom_skip (hole argument passed rest : List Char) :
    fillFrom hole argument passed.length (passed ++ rest) = fillFrom hole argument 0 rest := by
  induction passed with
  | nil => rfl
  | cons _ _ ih => exact ih

/-- A hole at the start is filled. -/
theorem fillFrom_hole (i : Nat) (argument rest : List Char) :
    fillFrom (hole i) argument 0 (hole i ++ rest) =
      argument ++ fillFrom (hole i) argument 0 rest := by
  have here := List.isPrefixOf_iff_prefix.mpr (List.prefix_append (hole i) rest)
  have passed := fillFrom_skip (hole i) argument (Nat.toDigits 10 i ++ ['\x7d']) rest
  rw [hole_append] at here ⊢
  rw [fillFrom, if_pos here]
  exact congrArg (argument ++ ·) passed

/-- Other holes stay. -/
theorem fillFrom_other (differ : i ≠ j) :
    fillFrom (hole i) argument 0 (hole j ++ text) =
      hole j ++ fillFrom (hole i) argument 0 text := by
  have other : ¬hole i <+: hole j ++ text := fun starts => differ (hole_isPrefix_iff.mp starts)
  rw [hole_append] at other ⊢
  rw [fillFrom_cons other, fillFrom_append i argument (brace_not_mem_tail j)]
  rfl

end FillFrom

/-! ### Counting holes -/

section Occurrences

variable {rest : List Char}

theorem occurrences_of_isPrefix (starts : hole j <+: c :: text) :
    occurrences (hole j) (c :: text) = occurrences (hole j) text + 1 := by
  rw [occurrences, if_pos (List.isPrefixOf_iff_prefix.mpr starts), Nat.add_comm]

theorem occurrences_of_not_isPrefix (starts : ¬hole j <+: c :: text) :
    occurrences (hole j) (c :: text) = occurrences (hole j) text := by
  rw [← List.isPrefixOf_iff_prefix] at starts
  rw [occurrences, if_neg starts, Nat.zero_add]

theorem occurrences_le_cons : occurrences (hole j) text ≤ occurrences (hole j) (c :: text) :=
  Nat.le_add_left ..

theorem occurrences_le_append (text : List Char) :
    occurrences (hole j) rest ≤ occurrences (hole j) (text ++ rest) := by
  induction text with
  | nil => exact Nat.le_refl _
  | cons _ _ ih => exact Nat.le_trans ih occurrences_le_cons

/-- Text without braces has no holes. -/
theorem occurrences_append (plain : '\x7b' ∉ text) :
    occurrences (hole j) (text ++ rest) = occurrences (hole j) rest := by
  induction text with
  | nil => rfl
  | cons c text ih =>
    rw [List.mem_cons, not_or] at plain
    have other : ¬hole j <+: c :: (text ++ rest) := fun starts =>
      plain.1 (brace_of_hole_isPrefix starts).symm
    rw [List.cons_append, occurrences_of_not_isPrefix other, ih plain.2]

/-- A hole occurs once in itself. -/
theorem occurrences_hole :
    occurrences (hole j) (hole i ++ text) =
      (if j = i then 1 else 0) + occurrences (hole j) text := by
  have behind : occurrences (hole j) (Nat.toDigits 10 i ++ ['\x7d'] ++ text) =
      occurrences (hole j) text := occurrences_append (brace_not_mem_tail i)
  have starts : hole j <+: hole i ++ text ↔ j = i := hole_isPrefix_iff
  rw [hole_append] at starts ⊢
  by_cases same : j = i
  · rw [occurrences_of_isPrefix (starts.mpr same), behind, if_pos same, Nat.add_comm]
  · rw [occurrences_of_not_isPrefix (mt starts.mp same), behind, if_neg same, Nat.zero_add]

end Occurrences

/-! ### Filling at once -/

section Fills

variable {arguments : List String} {filled : List Char}

/-- Every text can be filled. -/
theorem exists_fills (i : Nat) (arguments : List String) (text : List Char) :
    ∃ filled, Fills i arguments text filled := by
  induction length : text.length using Nat.strongRecOn generalizing text with
  | ind n ih =>
    cases text with
    | nil => exact ⟨[], .nil⟩
    | cons c text =>
      by_cases starts : ∃ k < arguments.length, hole (i + k) <+: c :: text
      · obtain ⟨k, small, rest, split⟩ := starts
        have shorter : rest.length < n := by
          rw [← length, ← split, List.length_append]
          exact Nat.lt_add_of_pos_left (Nat.succ_pos _)
        obtain ⟨filled, fills⟩ := ih _ shorter rest rfl
        rw [← split]
        exact ⟨_, .replace (List.getElem?_eq_getElem small) fills⟩
      · have shorter : text.length < n := by
          rw [← length]
          exact Nat.lt_succ_self _
        obtain ⟨filled, fills⟩ := ih _ shorter text rfl
        exact ⟨_, .keep (fun k small here => starts ⟨k, small, here⟩) fills⟩

/-- Without arguments nothing is filled. -/
theorem eq_of_fills_nil (fills : Fills i [] text filled) : filled = text := by
  induction fills with
  | nil => rfl
  | replace given => cases given
  | keep _ _ ih => rw [ih]

theorem Fills.of_replace {k : Nat} (given : arguments[k]? = some argument)
    (fills : Fills i arguments (hole (i + k) ++ text) filled) :
    ∃ behind, filled = argument.toList ++ behind ∧ Fills i arguments text behind := by
  generalize whole : hole (i + k) ++ text = start at fills
  cases fills with
  | nil => cases whole
  | @replace k' _ _ behind given' fills' =>
    have same : i + k = i + k' := hole_isPrefix_iff.mp ⟨text, whole⟩
    obtain rfl : k = k' := Nat.add_left_cancel same
    cases given.symm.trans given'
    cases List.append_cancel_left whole
    exact ⟨behind, rfl, fills'⟩
  | keep free =>
    have small := (List.getElem?_eq_some_iff.mp given).1
    exact absurd ⟨text, whole⟩ (free k small)

theorem Fills.of_keep (free : ∀ k < arguments.length, ¬hole (i + k) <+: c :: text)
    (fills : Fills i arguments (c :: text) filled) :
    ∃ behind, filled = c :: behind ∧ Fills i arguments text behind := by
  generalize whole : c :: text = start at fills
  cases fills with
  | nil => cases whole
  | @replace k _ text' _ given _ =>
    have small := (List.getElem?_eq_some_iff.mp given).1
    exact absurd ⟨text', whole.symm⟩ (free k small)
  | keep _ fills' =>
    cases whole
    exact ⟨_, rfl, fills'⟩

/-- There is one way to fill a text. -/
theorem Fills.unique {filled' : List Char} (first : Fills i arguments text filled)
    (second : Fills i arguments text filled') : filled = filled' := by
  induction first generalizing filled' with
  | nil =>
    generalize nothing : [] = start at second
    cases second with
    | nil => rfl
    | replace => cases nothing
    | keep => cases nothing
  | replace given _ ih =>
    obtain ⟨behind, rfl, rest⟩ := second.of_replace given
    rw [ih rest]
  | keep free _ ih =>
    obtain ⟨behind, rfl, rest⟩ := second.of_keep free
    rw [ih rest]

end Fills

/-! ### One after the other -/

section Stages

variable {rest : List String} {filled : List Char}

variable {k : Nat} {arguments : List String}

/-- Where no hole starts, none of a later argument does. -/
theorem not_isPrefix_later (free : ∀ k < (argument :: rest).length, ¬hole (i + k) <+: text)
    (small : k < rest.length) : ¬hole (i + 1 + k) <+: text := by
  have later := free (k + 1) (Nat.succ_lt_succ small)
  rwa [Nat.add_comm k 1, ← Nat.add_assoc] at later

/-- Filling a hole removes no hole of a later argument. -/
theorem Fills.occurrences_le (fills : Fills i (argument :: rest) text filled)
    (small : k < rest.length) :
    occurrences (hole (i + 1 + k)) text ≤
      occurrences (hole (i + 1 + k))
        (fillFrom (hole i) argument.toList 0 text) := by
  induction fills with
  | nil => exact Nat.le_refl _
  | @replace k' _ _ _ _ _ ih =>
    cases k' with
    | zero =>
      have start : hole (i + 0) = hole i := rfl
      have later : i + 1 + k ≠ i := by omega
      rw [start, occurrences_hole, if_neg later, Nat.zero_add, fillFrom_hole]
      exact Nat.le_trans ih (occurrences_le_append _)
    | succ k' =>
      have later : i ≠ i + (k' + 1) := by omega
      rw [fillFrom_other later, occurrences_hole, occurrences_hole]
      exact Nat.add_le_add_left ih _
  | @keep c text _ free _ ih =>
    have first : ¬hole i <+: c :: text := free 0 (Nat.succ_pos _)
    rw [fillFrom_cons first, occurrences_of_not_isPrefix (not_isPrefix_later free small)]
    exact Nat.le_trans ih occurrences_le_cons

/-- Text that makes no hole is kept. -/
theorem Fills.append (fills : Fills i arguments text filled) :
    ∀ {before : List Char}, (∀ k < arguments.length,
      occurrences (hole (i + k)) (before ++ text) =
        occurrences (hole (i + k)) text) →
      Fills i arguments (before ++ text) (before ++ filled) := by
  intro before kept
  induction before with
  | nil => exact fills
  | cons c before ih =>
    have free : ∀ k < arguments.length, ¬hole (i + k) <+: c :: (before ++ text) := by
      intro k small starts
      have count := kept k small
      have more : occurrences (hole (i + k)) text ≤ _ := occurrences_le_append before
      rw [List.cons_append, occurrences_of_isPrefix starts] at count
      omega
    refine .keep free (ih fun k small => ?_)
    rw [← kept k small, List.cons_append, occurrences_of_not_isPrefix (free k small)]

/-- The first argument can be put in before the others if it makes no hole of a later one. -/
theorem Fills.step (fills : Fills i (argument :: rest) text filled) (kept : ∀ k < rest.length,
      occurrences (hole (i + 1 + k))
        (fillFrom (hole i) argument.toList 0 text) =
          occurrences (hole (i + 1 + k)) text) :
    Fills (i + 1) rest (fillFrom (hole i) argument.toList 0 text) filled := by
  induction fills with
  | nil => exact .nil
  | @replace k' _ text _ given fills ih =>
    cases k' with
    | zero =>
      cases given
      have start : hole (i + 0) = hole i := rfl
      rw [start, fillFrom_hole] at kept ⊢
      -- Nothing new starts in the argument, and nothing new is behind it.
      have counts : ∀ k < rest.length,
          occurrences (hole (i + 1 + k))
              (fillFrom (hole i) argument.toList 0 text) =
            occurrences (hole (i + 1 + k)) text ∧
          occurrences (hole (i + 1 + k)) (argument.toList ++
              fillFrom (hole i) argument.toList 0 text) =
            occurrences (hole (i + 1 + k))
              (fillFrom (hole i) argument.toList 0 text) := by
        intro k small
        have all := kept k small
        have later : i + 1 + k ≠ i := by omega
        rw [occurrences_hole, if_neg later, Nat.zero_add] at all
        have grown := fills.occurrences_le small
        have within : occurrences (hole (i + 1 + k))
          (fillFrom (hole i) argument.toList 0 text) ≤ _ :=
            occurrences_le_append argument.toList
        omega
      exact (ih fun k small => (counts k small).1).append fun k small => (counts k small).2
    | succ k' =>
      have later : i ≠ i + (k' + 1) := by omega
      have index : i + (k' + 1) = i + 1 + k' := by omega
      rw [fillFrom_other later, index] at kept ⊢
      refine .replace given (ih fun k small => ?_)
      have all := kept k small
      rw [occurrences_hole, occurrences_hole] at all
      exact Nat.add_left_cancel all
  | @keep c text _ free fills ih =>
    have first : ¬hole i <+: c :: text := free 0 (Nat.succ_pos _)
    have before : ∀ k < rest.length, ¬hole (i + 1 + k) <+: c :: text := fun k small =>
      not_isPrefix_later free small
    rw [fillFrom_cons first] at kept ⊢
    have behind : ∀ k < rest.length, ¬hole (i + 1 + k) <+:
        c :: fillFrom (hole i) argument.toList 0 text := by
      intro k small starts
      have all := kept k small
      have grown := fills.occurrences_le small
      rw [occurrences_of_isPrefix starts, occurrences_of_not_isPrefix (before k small)] at all
      omega
    refine .keep behind (ih fun k small => ?_)
    have all := kept k small
    rwa [occurrences_of_not_isPrefix (behind k small),
      occurrences_of_not_isPrefix (before k small)] at all

/-- Filling one hole after the other fills all of them at once. -/
theorem fillAll_eq (fills : Fills i arguments text filled)
    (undisturbed : Undisturbed i arguments text) : fillAll i arguments text = filled := by
  induction arguments generalizing i text with
  | nil => exact (eq_of_fills_nil fills).symm
  | cons _ _ ih => exact ih (fills.step undisturbed.1) undisturbed.2

/-- Undisturbed, the holes are filled as if at once. -/
theorem fill_fills {template : String} (undisturbed : Undisturbed 0 arguments template.toList) :
    Fills 0 arguments template.toList (fill template arguments).toList := by
  obtain ⟨filled, fills⟩ := exists_fills 0 arguments template.toList
  rw [fill, String.toList_ofList, fillAll_eq fills undisturbed]
  exact fills

end Stages

/-! ### Templates in which braces are holes -/

/-- Each opening brace opens one of `n` holes, the first of which is that of argument `i`. -/
def tidy (i n : Nat) : List Char → Bool
  | [] => true
  | c :: text =>
    (c != '\x7b' || (List.range n).any fun k => (hole (i + k)).isPrefixOf (c :: text)) &&
      tidy i n text

section Tidy

variable {n : Nat}

theorem tidy_cons_iff :
    tidy i n (c :: text) = true ↔
      (c = '\x7b' → ∃ k < n, hole (i + k) <+: c :: text) ∧ tidy i n text = true := by
  simp [tidy, Decidable.imp_iff_not_or]

theorem tidy_append {before : List Char} (plain : '\x7b' ∉ before) :
    tidy i n (before ++ text) = tidy i n text := by
  induction before with
  | nil => rfl
  | cons _ _ ih =>
    rw [List.mem_cons, not_or] at plain
    rw [Bool.eq_iff_iff, List.cons_append, tidy_cons_iff, ih plain.2]
    constructor
    · intro h
      exact h.2
    · intro h
      exact ⟨fun brace => absurd brace.symm plain.1, h⟩

/-- A hole is tidy if there is an argument for it. -/
theorem tidy_hole_iff :
    tidy i n (hole j ++ text) = true ↔ (∃ k < n, i + k = j) ∧ tidy i n text = true := by
  have starts : ∀ k, hole (i + k) <+: hole j ++ text ↔ i + k = j := fun k => hole_isPrefix_iff
  rw [hole_append] at starts ⊢
  rw [tidy_cons_iff, tidy_append (brace_not_mem_tail j)]
  simp only [starts, forall_const]

/-- An argument without an opening brace makes no hole in a tidy text, and leaves it tidy. -/
theorem Fills.tidy_step {rest : List String} {filled : List Char}
    (fills : Fills i (argument :: rest) text filled) (plain : '\x7b' ∉ argument.toList)
    (neat : tidy i (rest.length + 1) text = true) :
    tidy (i + 1) rest.length (fillFrom (hole i) argument.toList 0 text) = true ∧
      ∀ k < rest.length,
        occurrences (hole (i + 1 + k)) (fillFrom (hole i) argument.toList 0 text) =
          occurrences (hole (i + 1 + k)) text := by
  induction fills with
  | nil => exact ⟨rfl, fun _ _ => rfl⟩
  | @replace k' _ _ _ given _ ih =>
    obtain ⟨neat', counts⟩ := ih (tidy_hole_iff.mp neat).2
    cases k' with
    | zero =>
      have start : hole (i + 0) = hole i := rfl
      rw [start, fillFrom_hole, tidy_append plain]
      refine ⟨neat', fun k small => ?_⟩
      have later : i + 1 + k ≠ i := by omega
      rw [occurrences_append plain, counts k small, occurrences_hole, if_neg later, Nat.zero_add]
    | succ k' =>
      have small' : k' < rest.length :=
        Nat.lt_of_succ_lt_succ (List.getElem?_eq_some_iff.mp given).1
      have later : i ≠ i + (k' + 1) := by omega
      rw [fillFrom_other later, tidy_hole_iff]
      refine ⟨⟨⟨k', small', by omega⟩, neat'⟩, fun k small => ?_⟩
      rw [occurrences_hole, occurrences_hole, counts k small]
  | @keep c text _ free _ ih =>
    obtain ⟨opens, neat⟩ := tidy_cons_iff.mp neat
    obtain ⟨neat', counts⟩ := ih neat
    have first : ¬hole i <+: c :: text := free 0 (Nat.succ_pos _)
    have plain' : c ≠ '\x7b' := by
      intro brace
      obtain ⟨k, small, starts⟩ := opens brace
      exact free k small starts
    rw [fillFrom_cons first, tidy_cons_iff]
    refine ⟨⟨fun brace => absurd brace plain', neat'⟩, fun k small => ?_⟩
    have never : ∀ text', ¬hole (i + 1 + k) <+: c :: text' := fun text' starts =>
      plain' (brace_of_hole_isPrefix starts)
    rw [occurrences_of_not_isPrefix (never _), occurrences_of_not_isPrefix (never _),
      counts k small]

/-- The last argument may have braces, since nothing is filled behind it. -/
theorem undisturbed_of_tidy {arguments : List String} (neat : tidy i arguments.length text = true)
    (plain : ∀ argument ∈ arguments.dropLast, '\x7b' ∉ argument.toList) :
    Undisturbed i arguments text := by
  induction arguments generalizing i text with
  | nil => trivial
  | cons argument rest ih =>
    cases rest with
    | nil => exact ⟨fun k small => absurd small (Nat.not_lt_zero k), trivial⟩
    | cons second others =>
      rw [List.dropLast_cons_cons, List.forall_mem_cons] at plain
      obtain ⟨filled, fills⟩ := exists_fills i (argument :: second :: others) text
      obtain ⟨neat', counts⟩ := fills.tidy_step plain.1 neat
      exact ⟨counts, ih neat' plain.2⟩

end Tidy

end Template

open Template

/-! ### Messages -/

def Problem.holes : Problem → Nat
  | .invalidTarget | .unreached => 0
  | .notAssignable | .undefinedUnary | .wrongArgumentCount | .argumentNotAssignable
  | .wrongReturnType => 2
  | .undefinedBinary => 3
  | _ => 1

/-- Every hole of a message has an argument. -/
theorem Problem.tidy_template (p : Problem) : tidy 0 p.holes p.template.toList = true := by
  cases p <;> decide +kernel

namespace Problem.Takes

variable {p : Problem} {arguments : List String}

/-- There is one argument for each hole. -/
theorem length_eq (takes : p.Takes arguments) : arguments.length = p.holes := by
  cases p with
  | unknownName | redeclaredName | unknownType | duplicateParameter | readOnlyTarget
  | jumpOutsideLoop | jumpAcrossFunction | conditionNotBoolean | notCallable | valueExpected
  | missingReturn =>
    obtain ⟨_, rfl⟩ := takes
    rfl
  | notAssignable | argumentNotAssignable | wrongReturnType =>
    obtain ⟨_, _, rfl, _⟩ := takes
    rfl
  | undefinedBinary =>
    obtain ⟨_, _, _, rfl⟩ := takes
    rfl
  | undefinedUnary | wrongArgumentCount =>
    obtain ⟨_, _, rfl⟩ := takes
    rfl
  | invalidTarget | unreached =>
    cases takes
    rfl

/-- Only a name has braces, and a name is the only argument of its message. -/
theorem plain (takes : p.Takes arguments) :
    ∀ argument ∈ arguments.dropLast, '\x7b' ∉ argument.toList := by
  cases p with
  | unknownName | redeclaredName | unknownType | duplicateParameter | readOnlyTarget
  | jumpOutsideLoop | jumpAcrossFunction | conditionNotBoolean | notCallable | valueExpected
  | missingReturn =>
    obtain ⟨_, rfl⟩ := takes
    simp
  | notAssignable | argumentNotAssignable | wrongReturnType =>
    obtain ⟨source, _, rfl, _⟩ := takes
    simp [source.brace_not_mem_text]
  | undefinedBinary =>
    obtain ⟨operator, left, _, rfl⟩ := takes
    have token : '\x7b' ∉ operator.token.toList := by cases operator <;> decide
    simp [token, left.brace_not_mem_text]
  | undefinedUnary =>
    obtain ⟨operator, _, rfl⟩ := takes
    have token : '\x7b' ∉ operator.token.toList := by cases operator <;> decide
    simp [token]
  | wrongArgumentCount =>
    obtain ⟨expected, _, rfl⟩ := takes
    simp [brace_not_mem_toDigits]
  | invalidTarget | unreached =>
    cases takes
    simp

/-- What a problem is reported with makes no hole in its message. -/
theorem undisturbed (takes : p.Takes arguments) : Undisturbed 0 arguments p.template.toList :=
  undisturbed_of_tidy (takes.length_eq ▸ p.tidy_template) takes.plain

end Problem.Takes

/-- The holes of a template are filled as if all at once, by the arguments as they are, if no
argument that is put in makes a hole of a later one. What a binder reports never does: in all its
messages the holes are filled at once, whatever names the file has. -/
theorem messages_filled (template : String) (arguments : List String) (b : Binder)
    (file : SourceFile) :
    (Undisturbed 0 arguments template.toList →
      Fills 0 arguments template.toList (fill template arguments).toList) ∧
    ∃ reported, (b.bindFile file).2.diagnostics = b.diagnostics ++ reported ∧
      ∀ d ∈ reported, Fills 0 d.arguments d.problem.template.toList d.message.toList := by
  refine ⟨fill_fills, ?_⟩
  obtain ⟨reported, all, regular⟩ := b.diagnostics_bindFile file
  exact ⟨reported, all, fun d mem => fill_fills (regular d mem).arguments.undisturbed⟩

open Unplaced in
/-- A file that prints a name with braces, which it does not declare. -/
def bracedFile : SourceFile := source "braced" [print (use "\x7b0\x7d\x7b1\x7d")]

/-- Braces do no harm in a name, or in an argument that makes no later hole. -/
theorem braces_filled :
    (Undisturbed 0 ["\x7b0\x7d", "\x7b0\x7d"] "\x7b1\x7d, \x7b0\x7d".toList ∧
      Fills 0 ["\x7b0\x7d", "\x7b0\x7d"] "\x7b1\x7d, \x7b0\x7d".toList
        "\x7b0\x7d, \x7b0\x7d".toList) ∧
    ∃ d ∈ (Binder.new.bindFile bracedFile).2.diagnostics,
      d.message = "Cannot find name '\x7b0\x7d\x7b1\x7d'." ∧
      Fills 0 d.arguments d.problem.template.toList d.message.toList := by
  have undisturbed :
      Undisturbed 0 ["\x7b0\x7d", "\x7b0\x7d"] "\x7b1\x7d, \x7b0\x7d".toList := by
    decide +kernel
  have text : fill "\x7b1\x7d, \x7b0\x7d" ["\x7b0\x7d", "\x7b0\x7d"] =
      "\x7b0\x7d, \x7b0\x7d" := by decide +kernel
  obtain ⟨fills, reported, all, filled⟩ :=
    messages_filled "\x7b1\x7d, \x7b0\x7d" ["\x7b0\x7d", "\x7b0\x7d"] .new bracedFile
  have found : (Binder.new.bindFile bracedFile).2.diagnostics =
      [.on default .unknownName ["\x7b0\x7d\x7b1\x7d"]] := by decide +kernel
  rw [found] at all ⊢
  obtain rfl : _ = reported := all
  refine ⟨⟨undisturbed, text ▸ fills undisturbed⟩, _, List.mem_cons_self, ?_,
    filled _ List.mem_cons_self⟩
  decide +kernel

/-- The first argument is a hole of the second, and is filled as one. -/
theorem argument_taken_for_hole :
    ¬Fills 0 ["\x7b1\x7d", "x"] "\x7b0\x7d\x7b1\x7d".toList
      (fill "\x7b0\x7d\x7b1\x7d" ["\x7b1\x7d", "x"]).toList := by
  intro fills
  have expected : Fills 0 ["\x7b1\x7d", "x"] (hole 0 ++ (hole 1 ++ []))
      ("\x7b1\x7d".toList ++ ("x".toList ++ [])) :=
    .replace (k := 0) rfl (.replace (k := 1) rfl .nil)
  have texts := fills.unique expected
  revert texts
  decide +kernel

end Bindery
