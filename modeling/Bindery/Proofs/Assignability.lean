import Bindery.Proofs.Typing

/-!
Assignability as an order.

On types without diagnosed parts `Ty.assignableTo` is a partial order with `Any` as its greatest
element (`Ty.assignableTo_order`). The type of something diagnosed is assignable in both directions.
It is left out only where it has to be: two types that are assignable to each other are equal if
both are proper, and a chain of three can be shortened if the one in the middle is. A type is
assignable to itself in any case (`Ty.assignableTo_self`).

All of this rests on the ways in which a type can be assignable to another one
(`Ty.assignableTo_iff`).
-/

namespace Bindery.Ty

mutual

/-- A type is assignable to itself, diagnosed parts or not. -/
theorem assignableTo_self : ∀ t : Ty, t.assignableTo t = true
  | .function ps r => by
    simp [assignableTo, assignableAll_self ps, assignableTo_self r]
  | .boolean | .int | .long | .float | .double | .string | .char | .unit | .any | .error => by
    simp [assignableTo]

theorem assignableAll_self : ∀ ts : List Ty, assignableAll ts ts = true
  | [] => by rw [assignableAll]
  | t :: rest => by simp [assignableAll, assignableTo_self t, assignableAll_self rest]

end

/-- A type is assignable to another one if either is diagnosed, if everything may be stored there,
if they are the same, or if they are function types whose parts are assignable one by one. -/
theorem assignableTo_iff {a b : Ty} :
    a.assignableTo b = true ↔
      a.isError = true ∨ b.isError = true ∨ b = .any ∨ a = b ∨
        ∃ ps r qs q, a = .function ps r ∧ b = .function qs q ∧ assignableAll ps qs = true ∧
          r.assignableTo q = true := by
  rw [assignableTo.eq_def]
  simp only [Bool.or_eq_true, beq_iff_eq, or_assoc]
  refine or_congr_right (or_congr_right (or_congr_right ?_))
  split
  · rename_i ps r qs q
    rw [Bool.and_eq_true]
    constructor
    · rintro ⟨parameters, result⟩
      exact .inr ⟨ps, r, qs, q, rfl, rfl, parameters, result⟩
    · rintro (same | ⟨_, _, _, _, ⟨⟩, ⟨⟩, parameters, result⟩)
      · cases same
        exact ⟨assignableAll_self ps, assignableTo_self r⟩
      · exact ⟨parameters, result⟩
  · rename_i other
    rw [beq_iff_eq]
    constructor
    · exact .inl
    · rintro (same | ⟨ps, r, qs, q, rfl, rfl, _⟩)
      · exact same
      · exact absurd rfl (other ps r qs q rfl)

theorem assignableTo_any (t : Ty) : t.assignableTo .any = true :=
  assignableTo_iff.mpr (.inr (.inr (.inl rfl)))

/-- A type that is no function type is assignable to `Any`, itself and what is diagnosed. -/
theorem assignableTo_iff_of_plain {a b : Ty} (plain : a.signature? = none) :
    a.assignableTo b = true ↔ a.isError = true ∨ b.isError = true ∨ b = .any ∨ a = b := by
  rw [assignableTo_iff]
  refine or_congr_right (or_congr_right (or_congr_right (or_iff_left ?_)))
  rintro ⟨ps, r, _, _, rfl, _⟩
  cases plain

/-! ### Types assignable to each other -/

/-- Lists of types that are assignable to each other are equal if their types are. -/
theorem eq_of_assignableAll {as bs : List Ty}
    (apart : ∀ a ∈ as, ∀ {b : Ty}, b.Proper → a.assignableTo b = true → b.assignableTo a = true →
      a = b) (proper : ∀ b ∈ bs, b.Proper) (there : assignableAll as bs = true)
    (back : assignableAll bs as = true) : as = bs := by
  induction as generalizing bs with
  | nil =>
    cases bs with
    | nil => rfl
    | cons => cases there
  | cons _ _ ih =>
    cases bs with
    | nil => cases there
    | cons =>
      rw [List.forall_mem_cons] at apart proper
      rw [assignableAll, Bool.and_eq_true] at there back
      rw [apart.1 proper.1 there.1 back.1, ih apart.2 proper.2 there.2 back.2]

/-- Proper types that are assignable to each other are equal. -/
theorem Proper.eq_of_assignableTo {a b : Ty} (left : a.Proper) (right : b.Proper)
    (there : a.assignableTo b = true) (back : b.assignableTo a = true) : a = b := by
  induction left generalizing b with
  | plain sound plain =>
    rcases (assignableTo_iff_of_plain plain).mp there with diagnosed | diagnosed | rfl | same
    · rw [sound] at diagnosed
      cases diagnosed
    · rw [right.isError_eq_false] at diagnosed
      cases diagnosed
    · rcases (assignableTo_iff_of_plain rfl).mp back with diagnosed | diagnosed | any | same
      · cases diagnosed
      · rw [sound] at diagnosed
        cases diagnosed
      · exact any
      · exact same.symm
    · exact same
  | @function _ _ _ _ apart ih =>
    rcases assignableTo_iff.mp there with diagnosed | diagnosed | rfl | same |
      ⟨_, _, qs, q, ⟨⟩, rfl, there₁, there₂⟩
    · cases diagnosed
    · rw [right.isError_eq_false] at diagnosed
      cases diagnosed
    · cases back
    · exact same
    · obtain ⟨_, parameters', result'⟩ := right.of_signature? rfl
      rw [assignableTo, Bool.or_eq_true, Bool.and_eq_true] at back
      obtain ⟨back₁, back₂⟩ := back.resolve_left (by simp [isError])
      rw [eq_of_assignableAll apart parameters' there₁ back₁, ih result' there₂ back₂]

/-! ### Chains of types -/

/-- A chain of lists can be shortened if the chains of their types can. -/
theorem assignableAll_trans {as bs cs : List Ty}
    (chain : ∀ b ∈ bs, ∀ {a c : Ty}, a.assignableTo b = true → b.assignableTo c = true →
      a.assignableTo c = true) (first : assignableAll as bs = true)
    (second : assignableAll bs cs = true) : assignableAll as cs = true := by
  induction bs generalizing as cs with
  | nil =>
    cases as with
    | nil => exact second
    | cons => cases first
  | cons _ _ ih =>
    cases as with
    | nil => cases first
    | cons =>
      cases cs with
      | nil => cases second
      | cons =>
        rw [List.forall_mem_cons] at chain
        rw [assignableAll, Bool.and_eq_true] at first second ⊢
        exact ⟨chain.1 first.1 second.1, ih chain.2 first.2 second.2⟩

/-- What fits where a proper type is expected fits wherever that type does. -/
theorem Proper.assignableTo_trans {a b c : Ty} (middle : b.Proper) (first : a.assignableTo b = true)
    (second : b.assignableTo c = true) : a.assignableTo c = true := by
  induction middle generalizing a c with
  | plain sound plain =>
    rcases assignableTo_iff.mp first with diagnosed | diagnosed | rfl | rfl |
      ⟨_, _, _, _, rfl, rfl, _⟩
    · exact assignableTo_iff.mpr (.inl diagnosed)
    · rw [sound] at diagnosed
      cases diagnosed
    · -- Only what everything fits is above `Any`.
      rcases (assignableTo_iff_of_plain rfl).mp second with diagnosed | diagnosed | rfl | rfl
      · cases diagnosed
      · exact assignableTo_iff.mpr (.inr (.inl diagnosed))
      · exact assignableTo_any a
      · exact assignableTo_any a
    · exact second
    · cases plain
  | @function _ _ _ _ chain ih =>
    rcases assignableTo_iff.mp first with diagnosed | diagnosed | any | rfl |
      ⟨os, o, _, _, rfl, ⟨⟩, first₁, first₂⟩
    · exact assignableTo_iff.mpr (.inl diagnosed)
    · cases diagnosed
    · cases any
    · exact second
    · rcases assignableTo_iff.mp second with diagnosed | diagnosed | rfl | rfl |
        ⟨_, _, qs, q, ⟨⟩, rfl, second₁, second₂⟩
      · cases diagnosed
      · exact assignableTo_iff.mpr (.inr (.inl diagnosed))
      · exact assignableTo_any _
      · exact first
      · exact assignableTo_iff.mpr (.inr (.inr (.inr (.inr ⟨os, o, qs, q, rfl, rfl,
          assignableAll_trans chain first₁ second₁, ih first₂ second₂⟩))))

/-! ### The order -/

/-- Assignability is a partial order on the types without diagnosed parts, and `Any` is the greatest
of them. It is reflexive on all types, and transitive if what is in the middle is such a type. -/
theorem assignableTo_order :
    (∀ a : Ty, a.assignableTo a = true) ∧
    (∀ a b : Ty, a.Proper → b.Proper → a.assignableTo b = true → b.assignableTo a = true → a = b) ∧
    (∀ a b c : Ty, b.Proper → a.assignableTo b = true → b.assignableTo c = true →
      a.assignableTo c = true) ∧
    any.Proper ∧ ∀ a : Ty, a.assignableTo .any = true :=
  ⟨assignableTo_self, fun _ _ => Proper.eq_of_assignableTo, fun _ _ _ => Proper.assignableTo_trans,
    .plain rfl rfl, assignableTo_any⟩

/-- What a function on characters gives is looked at more and more loosely. -/
theorem callback_assignable :
    (function [.any] (function [] .int)).Proper ∧
    (function [.char] (function [] .int)).assignableTo (function [.any] (function [] .int)) = true ∧
    (function [.any] (function [] .int)).assignableTo (function [.any] (function [] .any)) = true ∧
    (function [.char] (function [] .int)).assignableTo (function [.any] (function [] .any)) = true ∧
    (function [.any] (function [] .int)).assignableTo
      (function [.char] (function [] .int)) ≠ true := by
  have result : (function [] .int).Proper :=
    .function (fun _ mem => absurd mem List.not_mem_nil) (.plain rfl rfl)
  have inner : ∀ t : Ty, t.Proper → (function [t] (function [] .int)).Proper := fun t proper =>
    .function (List.forall_mem_singleton.mpr proper) result
  have middle := inner .any (.plain rfl rfl)
  refine ⟨middle, by decide, by decide,
    assignableTo_order.2.2.1 _ _ _ middle (by decide) (by decide), fun back => ?_⟩
  have same := assignableTo_order.2.1 _ _ (inner .char (.plain rfl rfl)) middle (by decide) back
  exact absurd same (by decide)

/-- A diagnosed type in the middle connects types that have nothing in common. -/
example : int.assignableTo .error = true ∧ error.assignableTo .char = true ∧
    int.assignableTo .char = false := by decide

end Bindery.Ty
