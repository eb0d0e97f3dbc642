import Std.Data.TreeMap

/-!
Numberings.

A numbering gives distinct values the numbers 0, 1, 2, ... in the order in which
they are first met. A value keeps its number for good. The view is `toList`, the
values by number; `Numbering.ext` says that it determines the numbering, and
`number?_eq_some_iff` that lookup agrees with it.
-/

namespace Bindery

open Std (TreeMap TransOrd LawfulEqOrd)

variable {α : Type} [Ord α]

/-- The number of each value of a list without repetitions, the newest first. -/
def numbersOf : List α → TreeMap α Nat
  | [] => ∅
  | a :: older => (numbersOf older).insert a older.length

theorem mem_numbersOf_iff [TransOrd α] [LawfulEqOrd α] (l : List α) (a : α) :
    a ∈ numbersOf l ↔ a ∈ l := by
  induction l with
  | nil => simp [numbersOf]
  | cons b older ih =>
    simp only [numbersOf, TreeMap.mem_insert, LawfulEqOrd.compare_eq_iff_eq, ih, List.mem_cons]
    constructor
    · rintro (h | h)
      · exact .inl h.symm
      · exact .inr h
    · rintro (h | h)
      · exact .inl h.symm
      · exact .inr h

theorem getElem?_numbersOf_iff [TransOrd α] [LawfulEqOrd α] {l : List α} (nodup : l.Nodup)
    (a : α) (i : Nat) : (numbersOf l)[a]? = some i ↔ l.reverse[i]? = some a := by
  induction l generalizing i with
  | nil => simp [numbersOf]
  | cons b older ih =>
    obtain ⟨fresh, rest⟩ := List.nodup_cons.mp nodup
    rw [numbersOf, TreeMap.getElem?_insert, List.reverse_cons]
    by_cases same : b = a
    · subst same
      rw [if_pos Std.ReflOrd.compare_self, List.getElem?_append]
      constructor
      · intro h
        obtain rfl : older.length = i := Option.some.inj h
        simp
      · intro h
        split at h
        · exact absurd (List.mem_reverse.mp (List.mem_of_getElem? h)) fresh
        · rename_i large
          have := (List.getElem?_eq_some_iff.mp h).1
          simp only [List.length_reverse, List.length_singleton] at large this
          exact congrArg some (by omega)
    · rw [if_neg (mt LawfulEqOrd.eq_of_compare same), ih rest, List.getElem?_append]
      split
      · rfl
      · rename_i large
        constructor
        · intro h
          exact absurd (List.getElem?_eq_some_iff.mp h).1 large
        · intro h
          have := List.mem_of_getElem? h
          exact absurd (List.mem_singleton.mp this).symm same

/-- Distinct values with their numbers. -/
structure Numbering (α : Type) [Ord α] where
  newestFirst : List α
  size : Nat
  numbers : TreeMap α Nat
  size_eq : size = newestFirst.length
  numbers_eq : numbers = numbersOf newestFirst
  nodup : newestFirst.Nodup

namespace Numbering

def empty : Numbering α where
  newestFirst := []
  size := 0
  numbers := ∅
  size_eq := rfl
  numbers_eq := rfl
  nodup := List.nodup_nil

instance : EmptyCollection (Numbering α) := ⟨empty⟩

instance : Inhabited (Numbering α) := ⟨empty⟩

def toList (s : Numbering α) : List α := s.newestFirst.reverse

def get? (s : Numbering α) (i : Nat) : Option α := s.toList[i]?

def number? (s : Numbering α) (a : α) : Option Nat := s.numbers[a]?

/-- Gives a new value the next number. -/
def push (s : Numbering α) (a : α) (fresh : a ∉ s.newestFirst) : Numbering α where
  newestFirst := a :: s.newestFirst
  size := s.size + 1
  numbers := s.numbers.insert a s.size
  size_eq := by simp [s.size_eq]
  numbers_eq := by simp [numbersOf, s.numbers_eq, s.size_eq]
  nodup := List.nodup_cons.mpr ⟨fresh, s.nodup⟩

@[ext] theorem ext {s t : Numbering α} (h : s.toList = t.toList) : s = t := by
  obtain ⟨l, n, m, hn, hm, hl⟩ := s
  obtain ⟨l', n', m', hn', hm', hl'⟩ := t
  obtain rfl : l = l' := List.reverse_inj.mp h
  subst hn hm hn' hm'
  rfl

instance [DecidableEq α] : DecidableEq (Numbering α) := fun s t =>
  decidable_of_iff (s.toList = t.toList) ⟨ext, fun h => h ▸ rfl⟩

@[simp] theorem toList_empty : (empty : Numbering α).toList = [] := rfl

@[simp] theorem toList_push (s : Numbering α) (a : α) (fresh : a ∉ s.newestFirst) :
    (s.push a fresh).toList = s.toList ++ [a] := by
  simp [toList, push]

theorem length_toList (s : Numbering α) : s.toList.length = s.size := by
  simp [toList, s.size_eq]

theorem nodup_toList (s : Numbering α) : s.toList.Nodup := by
  rw [toList, List.Nodup, List.pairwise_reverse]
  exact s.nodup.imp Ne.symm

section Lawful

variable [TransOrd α] [LawfulEqOrd α]

theorem number?_eq_some_iff (s : Numbering α) (a : α) (i : Nat) :
    s.number? a = some i ↔ s.toList[i]? = some a := by
  rw [number?, s.numbers_eq]
  exact getElem?_numbersOf_iff s.nodup a i

theorem number?_eq_none_iff (s : Numbering α) (a : α) :
    s.number? a = none ↔ a ∉ s.newestFirst := by
  rw [number?, s.numbers_eq, ← mem_numbersOf_iff s.newestFirst a, TreeMap.mem_iff_isSome_getElem?,
    Option.not_isSome_iff_eq_none]

/-- The number of a value, which is the next one if the value is new. -/
def intern (s : Numbering α) (a : α) : Nat × Numbering α :=
  match h : s.number? a with
  | some i => (i, s)
  | none => (s.size, s.push a ((s.number?_eq_none_iff a).mp h))

theorem mem_intern_iff (s : Numbering α) (a b : α) :
    b ∈ (s.intern a).2.newestFirst ↔ b = a ∨ b ∈ s.newestFirst := by
  rw [intern]
  split
  · rename_i i known
    have present : a ∈ s.newestFirst :=
      List.mem_reverse.mp (List.mem_of_getElem? ((s.number?_eq_some_iff a i).mp known))
    constructor
    · exact .inr
    · rintro (rfl | h)
      · exact present
      · exact h
  · simp [push]

end Lawful

end Numbering

end Bindery
