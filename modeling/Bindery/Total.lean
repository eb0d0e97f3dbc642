/-!
Totals over lists.

`total f l` adds up what `f` gives for the members of `l`, from the front.
-/

namespace Bindery

variable {α β : Type}

def total (f : α → Nat) (l : List α) : Nat := l.foldl (fun n a => n + f a) 0

theorem foldl_add_eq (f : α → Nat) (l : List α) (n : Nat) :
    l.foldl (fun n a => n + f a) n = n + total f l := by
  induction l generalizing n with
  | nil => rfl
  | cons a rest ih =>
    rw [total, List.foldl_cons, List.foldl_cons, ih, ih (0 + f a)]
    omega

@[simp] theorem total_nil (f : α → Nat) : total f [] = 0 := rfl

@[simp] theorem total_cons (f : α → Nat) (a : α) (rest : List α) :
    total f (a :: rest) = f a + total f rest := by
  rw [total, List.foldl_cons, foldl_add_eq]
  omega

@[simp] theorem total_append (f : α → Nat) (l r : List α) :
    total f (l ++ r) = total f l + total f r := by
  rw [total, List.foldl_append, foldl_add_eq]
  rfl

@[simp] theorem total_reverse (f : α → Nat) (l : List α) : total f l.reverse = total f l := by
  induction l with
  | nil => rfl
  | cons a rest ih =>
    rw [List.reverse_cons, total_append, total_cons, total_cons, total_nil, ih]
    omega

@[simp] theorem total_map (f : β → Nat) (g : α → β) (l : List α) :
    total f (l.map g) = total (fun a => f (g a)) l := by
  induction l with
  | nil => rfl
  | cons a rest ih => rw [List.map_cons, total_cons, total_cons, ih]

end Bindery
