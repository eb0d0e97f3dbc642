import Bindery.Ty

/-!
Texts of types.

A text never runs into what stands behind it: of two texts with anything behind them that read the
same, the types are the same and so is the rest (`Ty.text_append_inj`). The first character tells
which kind of type it is (`Ty.initial`), and a parameter list ends with the parenthesis that no type
starts with. So types with one text are equal (`Ty.text_inj`).
-/

namespace Bindery.Ty

/-! ### Reading a text -/

def initial : Ty → Char
  | .boolean => 'B'
  | .int => 'I'
  | .long => 'L'
  | .float => 'F'
  | .double => 'D'
  | .string => 'S'
  | .char => 'C'
  | .unit => 'U'
  | .any => 'A'
  | .error => '?'
  | .function .. => '('

/-- A text starts with the initial of its type. -/
theorem text_eq_initial (t : Ty) : ∃ rest, t.text.toList = t.initial :: rest := by
  cases t with
  | function =>
    rw [text, String.append_assoc, String.append_assoc, String.toList_append]
    exact ⟨_, rfl⟩
  | _ => exact ⟨_, rfl⟩

theorem initial_of_text_append {a b : Ty} {x y : List Char}
    (same : a.text.toList ++ x = b.text.toList ++ y) : a.initial = b.initial := by
  obtain ⟨rest, left⟩ := a.text_eq_initial
  obtain ⟨rest', right⟩ := b.text_eq_initial
  rw [left, right] at same
  exact (List.cons.inj same).1

/-- Only function types share their initial. -/
theorem eq_of_initial {a b : Ty} (same : a.initial = b.initial) (plain : a.signature? = none) :
    a = b := by
  revert same plain
  cases a <;> cases b <;> simp [initial, signature?]

theorem function_of_initial {ps : List Ty} {r b : Ty} (same : (function ps r).initial = b.initial) :
    ∃ qs q, b = .function qs q := by
  revert same
  cases b <;> simp [initial]

/-- No parameter starts with the parenthesis that ends the list. -/
theorem text_append_ne (t : Ty) (x y : List Char) : t.text.toList ++ x ≠ ')' :: y := by
  obtain ⟨rest, text⟩ := t.text_eq_initial
  rw [text]
  intro same
  have first := (List.cons.inj same).1
  cases t <;> simp [initial] at first

theorem toList_text_function (ps : List Ty) (r : Ty) :
    (function ps r).text.toList =
      '(' :: ((textAll ps).toList ++ ')' :: (" -> ".toList ++ r.text.toList)) := by
  rw [text]
  simp

def textTail (ps : List Ty) : List Char := ps.flatMap fun p => ',' :: ' ' :: p.text.toList

theorem textTail_cons (p : Ty) (ps : List Ty) :
    textTail (p :: ps) = ',' :: ' ' :: (p.text.toList ++ textTail ps) := by
  simp [textTail]

theorem toList_textAll_cons (p : Ty) (ps : List Ty) :
    (textAll (p :: ps)).toList = p.text.toList ++ textTail ps := by
  induction ps generalizing p with
  | nil => simp [textAll, textTail]
  | cons q qs ih =>
    rw [textAll, String.toList_append, String.toList_append, ih, List.append_assoc]
    · rfl
    · exact List.cons_ne_nil q qs

/-- The text of a type that is no function ends in one way. -/
theorem text_append_inj_of_plain {a b : Ty} {x y : List Char} (plain : a.signature? = none)
    (same : a.text.toList ++ x = b.text.toList ++ y) : a = b ∧ x = y := by
  obtain rfl := eq_of_initial (initial_of_text_append same) plain
  exact ⟨rfl, List.append_cancel_left same⟩

mutual

/-- A text does not run into what stands behind it. -/
theorem text_append_inj : ∀ {a b : Ty} {x y : List Char},
    a.text.toList ++ x = b.text.toList ++ y → a = b ∧ x = y
  | .function .., _, _, _, same => by
    obtain ⟨qs, q, rfl⟩ := function_of_initial (initial_of_text_append same)
    simp only [toList_text_function, List.cons_append, List.append_assoc, List.cons.injEq,
      true_and] at same
    obtain ⟨rfl, behind⟩ := textAll_append_inj same
    obtain ⟨rfl, rest⟩ := text_append_inj (List.append_cancel_left behind)
    exact ⟨rfl, rest⟩
  | .boolean, _, _, _, same | .int, _, _, _, same | .long, _, _, _, same | .float, _, _, _, same
  | .double, _, _, _, same | .string, _, _, _, same | .char, _, _, _, same
  | .unit, _, _, _, same | .any, _, _, _, same | .error, _, _, _, same =>
    text_append_inj_of_plain rfl same

/-- A parameter list ends with its parenthesis. -/
theorem textAll_append_inj : ∀ {ps qs : List Ty} {x y : List Char},
    (textAll ps).toList ++ ')' :: x = (textAll qs).toList ++ ')' :: y → ps = qs ∧ x = y
  | [], [], _, _, same => ⟨rfl, List.tail_eq_of_cons_eq same⟩
  | [], q :: _, _, _, same => by
    rw [toList_textAll_cons, List.append_assoc] at same
    exact absurd same.symm (text_append_ne q _ _)
  | p :: _, [], _, _, same => by
    rw [toList_textAll_cons, List.append_assoc] at same
    exact absurd same (text_append_ne p _ _)
  | _ :: _, _ :: _, _, _, same => by
    rw [toList_textAll_cons, toList_textAll_cons, List.append_assoc, List.append_assoc] at same
    obtain ⟨rfl, behind⟩ := text_append_inj same
    obtain ⟨rfl, rest⟩ := textTail_append_inj behind
    exact ⟨rfl, rest⟩

/-- Behind a parameter stands a comma if there is another one, and the parenthesis if not. -/
theorem textTail_append_inj : ∀ {ps qs : List Ty} {x y : List Char},
    textTail ps ++ ')' :: x = textTail qs ++ ')' :: y → ps = qs ∧ x = y
  | [], [], _, _, same => ⟨rfl, List.tail_eq_of_cons_eq same⟩
  | [], _ :: _, _, _, same | _ :: _, [], _, _, same => by
    simp [textTail] at same
  | _ :: _, _ :: _, _, _, same => by
    simp only [textTail_cons, List.cons_append, List.append_assoc, List.cons.injEq,
      true_and] at same
    obtain ⟨rfl, behind⟩ := text_append_inj same
    obtain ⟨rfl, rest⟩ := textTail_append_inj behind
    exact ⟨rfl, rest⟩

end

/-- Types with the same text are equal. -/
theorem text_inj {a b : Ty} (same : a.text = b.text) : a = b :=
  (text_append_inj (congrArg (String.toList · ++ []) same)).1

/-! ### Characters of a text -/

mutual

/-- Texts of types have no braces, so they never look like a hole of a message. -/
theorem brace_not_mem_text : ∀ t : Ty, '\x7b' ∉ t.text.toList
  | .function ps r => by
    rw [toList_text_function]
    simp [brace_not_mem_textAll ps, brace_not_mem_text r]
  | .boolean | .int | .long | .float | .double | .string | .char | .unit | .any | .error => by
    decide

theorem brace_not_mem_textAll : ∀ ts : List Ty, '\x7b' ∉ (textAll ts).toList
  | [] => by decide
  | t :: rest => by
    rw [toList_textAll_cons]
    simp [brace_not_mem_text t, brace_not_mem_textTail rest]

theorem brace_not_mem_textTail : ∀ ts : List Ty, '\x7b' ∉ textTail ts
  | [] => List.not_mem_nil
  | t :: rest => by
    rw [textTail_cons]
    simp [brace_not_mem_text t, brace_not_mem_textTail rest]

end

end Bindery.Ty
