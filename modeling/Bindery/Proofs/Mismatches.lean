import Bindery.Proofs.Assignability
import Bindery.Proofs.Messages

/-!
Diagnostics about two types that do not go together.

Three diagnostics say that a value of one type was found where another type is expected: in a
declaration or an assignment, in an argument, and in a return. Each of them names a type that is not
assignable to the other one (`Problem.Takes.types`). A type is assignable to itself and no two types
have the same text, so the two texts differ, and the message shows both of them
(`Binder.mismatches_name_two_types`).
-/

namespace Bindery

/-! ### Messages with two holes -/

namespace Template

theorem fillFrom_plain (i : Nat) (argument : List Char) {text : List Char} (plain : '\x7b' ∉ text) :
    fillFrom (hole i) argument 0 text = text := by
  simpa [fillFrom] using fillFrom_append i argument plain []

/-- Two holes are filled one after the other. The first text must not open a hole, since the second
one is looked for in it. -/
theorem fill_two {template before between behind first : String} (second : String)
    (shape : template = before ++ "\x7b0\x7d" ++ between ++ "\x7b1\x7d" ++ behind)
    (plain : '\x7b' ∉ (before ++ between ++ behind).toList) (closed : '\x7b' ∉ first.toList) :
    fill template [first, second] = before ++ first ++ between ++ second ++ behind := by
  simp only [String.toList_append, List.mem_append, not_or] at plain
  obtain ⟨⟨start, middle⟩, ending⟩ := plain
  have holes : "\x7b0\x7d".toList = hole 0 ∧ "\x7b1\x7d".toList = hole 1 := by decide
  have later : fillFrom (hole 0) first.toList 0 (hole 1 ++ behind.toList) =
      hole 1 ++ fillFrom (hole 0) first.toList 0 behind.toList := rfl
  rw [fill, shape]
  simp only [String.toList_append, holes, fillAll, fillFrom_append, fillFrom_hole, fillFrom_plain,
    later, start, middle, ending, closed, not_false_eq_true, String.ofList_append,
    String.ofList_toList, String.append_assoc]

end Template

/-! ### Diagnostics that compare types -/

/-- Whether a problem is that a value of one type was found where another type is expected. -/
def Problem.comparesTypes : Problem → Bool
  | .notAssignable | .argumentNotAssignable | .wrongReturnType => true
  | _ => false

/-- Three problems compare two types. -/
theorem Problem.comparesTypes_iff {p : Problem} :
    p.comparesTypes = true ↔ p.code = 2101 ∨ p.code = 2203 ∨ p.code = 2306 := by
  cases p <;> decide

def Problem.comparison : Problem → String → String → String
  | .notAssignable, source, target =>
    "Type '" ++ source ++ "' is not assignable to type '" ++ target ++ "'."
  | .argumentNotAssignable, source, target =>
    "Argument of type '" ++ source ++ "' is not assignable to parameter of type '" ++ target ++ "'."
  | .wrongReturnType, source, target =>
    "A value of type '" ++ source ++ "' cannot be returned from a function returning '" ++ target ++
      "'."
  | _, _, _ => ""

/-- Their message names the type that was found and the one that is expected. -/
theorem Problem.fill_comparison {p : Problem} (compares : p.comparesTypes = true)
    (source target : Ty) :
    Template.fill p.template [source.text, target.text] =
      p.comparison source.text target.text := by
  have closed := source.brace_not_mem_text
  cases p with
  | notAssignable | argumentNotAssignable | wrongReturnType =>
    exact Template.fill_two target.text rfl (by simp) closed
  | _ => cases compares

/-- A diagnostic that compares types names two of which the first is not assignable to the
second. -/
theorem Problem.Takes.types {p : Problem} {arguments : List String} (takes : p.Takes arguments)
    (compares : p.comparesTypes = true) :
    ∃ source target : Ty, arguments = [source.text, target.text] ∧
      source.assignableTo target = false := by
  cases p with
  | notAssignable | argumentNotAssignable | wrongReturnType => exact takes
  | _ => cases compares

/-- Types of which one is not assignable to the other are told apart by their texts. -/
theorem Ty.text_ne_of_assignableTo {source target : Ty}
    (unfit : source.assignableTo target = false) : source.text ≠ target.text := by
  intro same
  rw [text_inj same, assignableTo_self] at unfit
  cases unfit

/-- Types with one text are equal. So, whatever a binder has bound before, each diagnostic it
reports about a value of one type where another is expected names two types with different texts,
and its message shows both of them. -/
theorem Binder.mismatches_name_two_types :
    (∀ a b : Ty, a.text = b.text → a = b) ∧
    ∀ (b : Binder) (file : SourceFile), ∃ reported,
      (b.bindFile file).2.diagnostics = b.diagnostics ++ reported ∧
      ∀ d ∈ reported, d.code = 2101 ∨ d.code = 2203 ∨ d.code = 2306 →
        ∃ source target : Ty, d.arguments = [source.text, target.text] ∧
          d.message = d.problem.comparison source.text target.text ∧ source.text ≠ target.text := by
  refine ⟨fun _ _ => Ty.text_inj, fun b file => ?_⟩
  obtain ⟨reported, all, regular⟩ := b.diagnostics_bindFile file
  refine ⟨reported, all, fun d mem code => ?_⟩
  have compares : d.problem.comparesTypes = true := Problem.comparesTypes_iff.mpr code
  obtain ⟨source, target, arguments, unfit⟩ := (regular d mem).arguments.types compares
  refine ⟨source, target, arguments, ?_, Ty.text_ne_of_assignableTo unfit⟩
  rw [Diagnostic.message, arguments, Problem.fill_comparison compares]

open Unplaced in
/-- A function that returns a condition as a number, and a call whose value is stored as a text. -/
def confusingFile : SourceFile :=
  source "confusing" [function "f" [("n", "Int")] "Int" [give (boolean true)],
    .declare (name "s") (name "String") true (call "f" [boolean false]) default]

theorem confusingFile_mismatches :
    ((Binder.new.bindFile confusingFile).2.diagnostics.map fun d => (d.code, d.arguments)) =
        [(2306, ["Boolean", "Int"]), (2203, ["Boolean", "Int"]), (2101, ["Int", "String"])] ∧
      ∃ d ∈ (Binder.new.bindFile confusingFile).2.diagnostics, d.code = 2203 ∧
        ∃ source target : Ty, d.arguments = [source.text, target.text] ∧
          d.message = d.problem.comparison source.text target.text ∧ source.text ≠ target.text := by
  obtain ⟨reported, all, named⟩ := Binder.mismatches_name_two_types.2 .new confusingFile
  have found : (Binder.new.bindFile confusingFile).2.diagnostics =
      [.on default .wrongReturnType ["Boolean", "Int"],
        .on default .argumentNotAssignable ["Boolean", "Int"],
        .on default .notAssignable ["Int", "String"]] := by decide +kernel
  rw [found] at all ⊢
  obtain rfl : _ = reported := all
  refine ⟨rfl, _, List.mem_cons_of_mem _ List.mem_cons_self, rfl, named _ ?_ (.inr (.inl rfl))⟩
  exact List.mem_cons_of_mem _ List.mem_cons_self

end Bindery
