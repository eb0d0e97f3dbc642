import Bindery.Tree.Builder

/-!
Where the spans of built nodes lie.

A step of building reserves spans one behind the other (`Build.Reserves`), with a byte left free
behind each, so all of them lie apart (`Build.Reserves.laid`). Some are the spans of nodes without
parts, others are tokens that no node holds (`Build.Places`). A node with parts is in order if it
covers them (`Node.Framed`); the heading of a declaration is not covered, it lies behind.
-/

namespace Bindery

/-! ### Spans -/

namespace Span

def Covers (outer inner : Span) : Prop :=
  outer.start.toNat ≤ inner.start.toNat ∧ inner.stop ≤ outer.stop

instance (outer inner : Span) : Decidable (outer.Covers inner) :=
  inferInstanceAs (Decidable (_ ∧ _))

def Apart (s t : Span) : Prop := s.stop < t.start.toNat ∨ t.stop < s.start.toNat

theorem Apart.symm {s t : Span} (h : s.Apart t) : t.Apart s := Or.symm h

theorem Covers.refl (s : Span) : s.Covers s := ⟨Nat.le_refl _, Nat.le_refl _⟩

variable {u : Span} {start stop limit : Nat}

theorem Covers.trans {s t : Span} (outer : s.Covers t) (inner : t.Covers u) : s.Covers u :=
  ⟨Nat.le_trans outer.1 inner.1, Nat.le_trans inner.2 outer.2⟩

theorem start_ofBounds (fits : start < UInt32.size) : (ofBounds start stop).start.toNat = start :=
  UInt32.toNat_ofNat_of_lt' fits

theorem stop_ofBounds (le : start ≤ stop) (fits : stop < UInt32.size) :
    (ofBounds start stop).stop = stop := by
  have first : (ofBounds start stop).start.toNat = start := start_ofBounds (by omega)
  have width : (ofBounds start stop).length.toNat = stop - start :=
    UInt32.toNat_ofNat_of_lt' (by omega)
  rw [Span.stop, first, width]
  omega

variable {s t : Span}

theorem start_union : (s.union t).start.toNat = min s.start.toNat t.start.toNat := by
  have := s.start.toNat_lt_size
  exact start_ofBounds (by omega)

theorem stop_union (left : s.stop < UInt32.size) (right : t.stop < UInt32.size) :
    (s.union t).stop = max s.stop t.stop := by
  refine stop_ofBounds ?_ (by omega)
  unfold Span.stop
  omega

theorem covers_union_left (left : s.stop < UInt32.size) (right : t.stop < UInt32.size) :
    (s.union t).Covers s := by
  unfold Covers
  rw [start_union, stop_union left right]
  omega

theorem covers_union_right (left : s.stop < UInt32.size) (right : t.stop < UInt32.size) :
    (s.union t).Covers t := by
  unfold Covers
  rw [start_union, stop_union left right]
  omega

theorem stop_union_lt (left : s.stop < limit) (right : t.stop < limit)
    (fits : limit ≤ UInt32.size) : (s.union t).stop < limit := by
  rw [stop_union (by omega) (by omega)]
  omega

theorem union_comm : s.union t = t.union s := by
  rw [union, union, Nat.min_comm, Nat.max_comm]

theorem ofBounds_self : ofBounds s.start.toNat s.stop = s := by
  rw [ofBounds, stop, Nat.add_sub_cancel_left, UInt32.ofNat_toNat, UInt32.ofNat_toNat]

/-- The span of two parts. -/
theorem covers_two (left : s.stop < limit) (right : t.stop < limit) (fits : limit ≤ UInt32.size) :
    (s.union t).Covers s ∧ (s.union t).Covers t :=
  ⟨covers_union_left (by omega) (by omega), covers_union_right (by omega) (by omega)⟩

/-- The span of three parts. -/
theorem covers_three (first : s.stop < limit) (second : t.stop < limit) (third : u.stop < limit)
    (fits : limit ≤ UInt32.size) :
    ((s.union t).union u).Covers s ∧ ((s.union t).union u).Covers t ∧
      ((s.union t).union u).Covers u := by
  have inner := covers_two first second fits
  have outer := covers_two (stop_union_lt first second fits) third fits
  exact ⟨outer.1.trans inner.1, outer.1.trans inner.2, outer.2⟩

/-- A span that is widened by one part after the other. -/
theorem covers_foldl {parts : List Span} (first : s.stop < limit)
    (others : ∀ part ∈ parts, part.stop < limit) (fits : limit ≤ UInt32.size) :
    (parts.foldl union s).Covers s ∧ (∀ part ∈ parts, (parts.foldl union s).Covers part) ∧
      (parts.foldl union s).stop < limit := by
  induction parts generalizing s with
  | nil => exact ⟨.refl s, by simp, first⟩
  | cons _ _ ih =>
    rw [List.forall_mem_cons] at others
    have two := covers_two first others.1 fits
    obtain ⟨wider, each, below⟩ := ih (stop_union_lt first others.1 fits) others.2
    rw [List.foldl_cons, List.forall_mem_cons]
    exact ⟨wider.trans two.1, ⟨wider.trans two.2, each⟩, below⟩

end Span

/-! ### Nodes -/

/-- A node of a tree. Operators and argument lists have spans of their own. -/
inductive Node where
  | name (i : Identifier)
  | operator (span : Span)
  | arguments (items : List Expression) (span : Span)
  | parameter (p : Parameter)
  | expression (e : Expression)
  | statement (s : Statement)
  /-- A braced list that is the body of a function. -/
  | body (statements : List Statement) (span : Span)

namespace Node

def span : Node → Span
  | .name i => i.span
  | .operator span => span
  | .arguments _ span => span
  | .parameter p => p.span
  | .expression e => e.span
  | .statement s => s.span
  | .body _ span => span

/-- What a node is made of, besides the heading of a declaration. -/
def inner : Node → List Node
  | .name _ => []
  | .operator _ => []
  | .arguments items _ => items.map .expression
  | .parameter p => [.name p.name, .name p.typeName]
  | .expression (.literal ..) => []
  | .expression (.reference _) => []
  | .expression (.assignment target value _) => [.expression target, .expression value]
  | .expression (.binary left _ operatorSpan right _) =>
    [.expression left, .expression right, .operator operatorSpan]
  | .expression (.unary _ operatorSpan operand _) => [.expression operand, .operator operatorSpan]
  | .expression (.parenthesized inner _) => [.expression inner]
  | .expression (.call target items itemsSpan _) => [.expression target, .arguments items itemsSpan]
  | .expression (.ternary condition yes no _) =>
    [.expression condition, .expression yes, .expression no]
  | .statement (.function _ _ _ statements bodySpan _) => [.body statements bodySpan]
  | .statement (.declare _ _ _ value _) => [.expression value]
  | .statement (.ifThen condition yes _) => [.expression condition, .statement yes]
  | .statement (.ifElse condition yes no _) =>
    [.expression condition, .statement yes, .statement no]
  | .statement (.whileLoop condition repeated _) => [.expression condition, .statement repeated]
  | .statement (.doWhile repeated condition _) => [.statement repeated, .expression condition]
  | .statement (.block statements _) => statements.map .statement
  | .statement (.returns value _) => value.toList.map .expression
  | .statement (.breakLoop _) => []
  | .statement (.continueLoop _) => []
  | .statement (.print value _) => [.expression value]
  | .statement (.expression value _) => [.expression value]
  | .body statements _ => statements.map .statement

def heading : Node → List Node
  | .statement (.function i parameters result ..) =>
    .name i :: (parameters.map .parameter ++ result.toList.map .name)
  | .statement (.declare i typeName ..) => .name i :: typeName.toList.map .name
  | _ => []

def children (n : Node) : List Node := n.inner ++ n.heading

theorem children_arguments (items : List Expression) (span : Span) :
    (arguments items span).children = items.map .expression :=
  List.append_nil _

variable {n : Node}

theorem sizeOf_child {child : Node} (mem : child ∈ n.children) : sizeOf child < sizeOf n := by
  cases n with
  | name | operator => simp [children, inner, heading] at mem
  | arguments | body =>
    simp only [children, inner, heading, List.append_nil, List.mem_map] at mem
    grind [→ List.sizeOf_lt_of_mem]
  | parameter p =>
    cases p
    simp [children, inner, heading] at mem
    grind
  | expression e => cases e <;> simp [children, inner, heading] at mem <;> grind
  | statement s =>
    cases s <;> simp [children, inner, heading] at mem <;> grind [→ List.sizeOf_lt_of_mem]

/-- The spans of the nodes that have no parts, from all of a tree. -/
def leaves (n : Node) : List Span :=
  if n.children.isEmpty then [n.span] else n.children.attach.flatMap fun child => child.1.leaves
termination_by sizeOf n
decreasing_by exact sizeOf_child child.2

theorem leaves_of_childless (none : n.children = []) : n.leaves = [n.span] := by
  rw [leaves, none]
  rfl

/-- The leaves of a node are those of its children. -/
theorem leaves_of_children (some : n.children ≠ []) : n.leaves = n.children.flatMap leaves := by
  rw [leaves, if_neg (by simpa using some), List.flatMap_subtype (g := leaves) fun _ _ => rfl,
    List.unattach_attach]

theorem leaves_arguments {items : List Expression} {span : Span} (some : items ≠ []) :
    (arguments items span).leaves = (items.map expression).flatMap leaves := by
  rw [leaves_of_children, children_arguments]
  rw [children_arguments]
  simpa using some

/-- Every node of a tree covers what it is made of, and the heading of a declaration lies behind
it. -/
inductive Framed : Node → Prop where
  | node {n : Node} : (∀ child ∈ n.inner, n.span.Covers child.span) →
      (∀ part ∈ n.heading, n.span.stop < part.span.start.toNat) →
      (∀ child ∈ n.children, Framed child) → Framed n

theorem Framed.leaf (none : n.children = []) : n.Framed := by
  obtain ⟨inside, heading⟩ := List.append_eq_nil_iff.mp none
  refine .node ?_ ?_ ?_
  · rw [inside]
    exact List.forall_mem_nil _
  · rw [heading]
    exact List.forall_mem_nil _
  · rw [none]
    exact List.forall_mem_nil _

end Node

/-! ### Reserved spans -/

namespace Build

/-- `m.Reserves c spans`: with the cursor at `c`, the step `m` reserves `spans`, in order. -/
inductive Reserves : {α : Type} → Build α → Nat → List Span → Prop where
  | pure {α : Type} (a : α) (c : Nat) : Reserves (Pure.pure a : Build α) c []
  | reserve (length c : Nat) : Reserves (Build.reserve length) c [(Build.reserve length c).1]
  | bind {α β : Type} {m : Build α} {f : α → Build β} {c : Nat} {spans more : List Span} :
      Reserves m c spans → Reserves (f (m c).1) (m c).2 more →
      Reserves (m >>= f) c (spans ++ more)

/-- Spans between two positions of the cursor, each apart from the others. -/
structure Laid (c c' : Nat) (spans : List Span) : Prop where
  apart : spans.Pairwise Span.Apart
  inside : ∀ s ∈ spans, c ≤ s.start.toNat ∧ s.stop < c'

namespace Laid

variable {c c' c'' : Nat} {spans more : List Span}

theorem nil : Laid c c' [] := ⟨.nil, by simp⟩

/-- What is laid out later lies behind. -/
theorem append (first : Laid c c' spans) (second : Laid c' c'' more) (le : c ≤ c')
    (le' : c' ≤ c'') : Laid c c'' (spans ++ more) where
  apart := by
    rw [List.pairwise_append]
    refine ⟨first.apart, second.apart, ?_⟩
    intro s before t behind
    have := (first.inside s before).2
    have := (second.inside t behind).1
    left
    omega
  inside := by
    intro s mem
    rcases List.mem_append.mp mem with before | behind
    · have := first.inside s before
      omega
    · have := second.inside s behind
      omega

theorem sublist (h : Laid c c' spans) (sub : more.Sublist spans) : Laid c c' more where
  apart := h.apart.sublist sub
  inside := fun s mem => h.inside s (sub.subset mem)

theorem perm (h : Laid c c' spans) (same : spans.Perm more) : Laid c c' more where
  apart := (same.pairwise_iff Span.Apart.symm).mp h.apart
  inside := fun s mem => h.inside s (same.mem_iff.mpr mem)

end Laid

variable {c : Nat} {name : String} {s : Span}

namespace Reserves

variable {α β : Type} {m : Build α} {spans : List Span}

theorem le (h : m.Reserves c spans) : c ≤ (m c).2 := by
  induction h with
  | pure _ c => exact Nat.le_refl c
  | reserve length c =>
    change c ≤ c + length + 1
    omega
  | bind _ _ first second => exact Nat.le_trans first second

/-- A single span comes first. -/
theorem cons {f : α → Build β} {more : List Span} (first : m.Reserves c [s])
    (others : (f (m c).1).Reserves (m c).2 more) : Reserves (m >>= f) c (s :: more) :=
  .bind first others

/-- The result is used without reserving more. -/
theorem map {f : α → β} (h : m.Reserves c spans) : Reserves (do return f (← m)) c spans := by
  have whole := h.bind (f := fun a => Pure.pure (f a)) (.pure (f (m c).1) (m c).2)
  rwa [List.append_nil] at whole

/-- As long as offsets fit, reserved spans are laid out one behind the other. -/
theorem laid (h : m.Reserves c spans) (fits : (m c).2 < UInt32.size) : Laid c (m c).2 spans := by
  induction h with
  | pure => exact .nil
  | reserve length c =>
    change c + length + 1 < UInt32.size at fits
    have start : (Build.reserve length c).1.start.toNat = c := UInt32.toNat_ofNat_of_lt' (by omega)
    have width : (Build.reserve length c).1.length.toNat = length :=
      UInt32.toNat_ofNat_of_lt' (by omega)
    refine ⟨List.pairwise_singleton _ _, ?_⟩
    intro s mem
    rw [List.mem_singleton.mp mem, Span.stop, start, width]
    change c ≤ c ∧ c + length < c + length + 1
    omega
  | bind first second ih ih' =>
    have behind := second.le
    exact (ih (Nat.lt_of_le_of_lt behind fits)).append (ih' fits) first.le behind

end Reserves

/-- The step reserves spans, with those in `own` among them. -/
def Places {α : Type} (m : Build α) (c : Nat) (own : List Span) : Prop :=
  ∃ spans, m.Reserves c spans ∧ own.Sublist spans

namespace Places

variable {α β : Type} {m : Build α} {f : α → Build β} {own more : List Span}

theorem pure (a : α) (c : Nat) : Places (Pure.pure a : Build α) c [] := ⟨[], .pure a c, .slnil⟩

theorem reserve (length c : Nat) : Places (Build.reserve length) c [(Build.reserve length c).1] :=
  ⟨_, .reserve length c, .refl _⟩

theorem bind (first : m.Places c own) (second : (f (m c).1).Places (m c).2 more) :
    Places (m >>= f) c (own ++ more) := by
  obtain ⟨_, here, sub⟩ := first
  obtain ⟨_, there, sub'⟩ := second
  exact ⟨_, .bind here there, sub.append sub'⟩

/-- The result is used without reserving more. -/
theorem map {g : α → β} (h : m.Places c own) : Places (do return g (← m)) c own := by
  obtain ⟨spans, reserved, sub⟩ := h
  exact ⟨spans, reserved.map, sub⟩

/-- A token that no node holds comes first. -/
theorem behind (first : m.Places c own) (second : (f (m c).1).Places (m c).2 more) :
    Places (m >>= f) c more := by
  obtain ⟨_, here, _⟩ := first
  obtain ⟨_, there, sub⟩ := second
  exact ⟨_, .bind here there, sub.trans (List.sublist_append_right _ _)⟩

/-- A token that no node holds. -/
theorem hidden (h : m.Places c own) : m.Places c [] := by
  obtain ⟨spans, reserved, _⟩ := h
  exact ⟨spans, reserved, List.nil_sublist spans⟩

theorem le (h : m.Places c own) : c ≤ (m c).2 := by
  obtain ⟨_, reserved, _⟩ := h
  exact reserved.le

/-- Spans that are placed lie apart, in order. -/
theorem laid (h : m.Places c own) (fits : (m c).2 < UInt32.size) : Laid c (m c).2 own := by
  obtain ⟨_, reserved, sub⟩ := h
  exact (reserved.laid fits).sublist sub

theorem stop_lt (h : m.Places c own) (fits : (m c).2 < UInt32.size) (mem : s ∈ own) :
    s.stop < (m c).2 :=
  ((h.laid fits).inside s mem).2

end Places

theorem stop_reserve_lt {length : Nat} (fits : (reserve length c).2 < UInt32.size) :
    (reserve length c).1.stop < (reserve length c).2 :=
  (Places.reserve length c).stop_lt fits (List.mem_singleton_self _)

def Fresh (c : Nat) (nodes : List Node) : Prop :=
  ∀ n ∈ nodes, n.Framed ∧ c ≤ n.span.start.toNat

theorem Fresh.append {c' : Nat} {nodes more : List Node} (first : Fresh c nodes)
    (second : Fresh c' more) (le : c ≤ c') : Fresh c (nodes ++ more) := by
  refine List.forall_mem_append.mpr ⟨first, ?_⟩
  intro n mem
  exact ⟨(second n mem).1, Nat.le_trans le (second n mem).2⟩

theorem places_identifier (name : String) (c : Nat) :
    (identifier name).Places c [(identifier name c).1.span] := by
  unfold identifier
  split
  · exact .map (.reserve 0 c)
  · exact .map (.reserve _ c)

theorem fresh_identifier (fits : (identifier name c).2 < UInt32.size) :
    Fresh c [.name (identifier name c).1] := by
  have laid := (places_identifier name c).laid fits
  exact List.forall_mem_singleton.mpr ⟨.leaf rfl, (laid.inside _ (List.mem_singleton_self _)).1⟩

theorem places_optional (name : Option String) (c : Nat) :
    (name.mapM identifier).Places c
      (((name.mapM identifier c).1.toList.map Node.name).flatMap Node.leaves) := by
  cases name with
  | none => exact .pure _ _
  | some name =>
    change Places (do let i ← identifier name; return some i) c (Node.leaves _ ++ [])
    rw [Node.leaves_of_childless rfl]
    exact .map (places_identifier name c)

theorem fresh_optional {name : Option String} (fits : (name.mapM identifier c).2 < UInt32.size) :
    Fresh c ((name.mapM identifier c).1.toList.map Node.name) := by
  cases name with
  | none => exact List.forall_mem_nil _
  | some => exact fresh_identifier fits

theorem places_parameter (name typeName : String) (c : Nat) :
    (parameter name typeName).Places c (Node.parameter (parameter name typeName c).1).leaves := by
  rw [Node.leaves_of_children (by simp [Node.children, Node.inner])]
  change Places _ c (Node.leaves (.name _) ++ (Node.leaves (.name _) ++ []))
  rw [Node.leaves_of_childless rfl, Node.leaves_of_childless rfl]
  unfold parameter
  refine .bind (places_identifier name c) ?_
  exact .bind (places_identifier typeName _) (.pure _ _)

/-- A parameter covers its name and its type. -/
theorem fresh_parameter {typeName : String} (fits : (parameter name typeName c).2 < UInt32.size) :
    Fresh c [.parameter (parameter name typeName c).1] := by
  have named := places_identifier name c
  have typed := places_identifier typeName (identifier name c).2
  have fits' : (identifier name c).2 < UInt32.size := Nat.lt_of_le_of_lt typed.le fits
  obtain ⟨start, stop⟩ := (named.laid fits').inside _ (List.mem_singleton_self _)
  obtain ⟨start', stop'⟩ := (typed.laid fits).inside _ (List.mem_singleton_self _)
  obtain ⟨covered, covered'⟩ :=
    Span.covers_two (Nat.lt_trans stop fits') (Nat.lt_trans stop' fits) (Nat.le_refl _)
  refine List.forall_mem_singleton.mpr ⟨.node ?_ (List.forall_mem_nil _) ?_, ?_⟩
  · exact List.forall_mem_cons.mpr ⟨covered, List.forall_mem_singleton.mpr covered'⟩
  · exact List.forall_mem_cons.mpr ⟨.leaf rfl, List.forall_mem_singleton.mpr (.leaf rfl)⟩
  · change c ≤ (Span.union _ _).start.toNat
    rw [Span.start_union]
    exact Nat.le_min.mpr ⟨start, Nat.le_trans named.le start'⟩

/-- The parameters of a function are placed one after the other. -/
theorem places_parameters (parameters : List (String × String)) (c : Nat) :
    let built := parameters.mapM fun (name, typeName) => parameter name typeName
    built.Places c (((built c).1.map Node.parameter).flatMap Node.leaves) ∧
      ((built c).2 < UInt32.size → Fresh c ((built c).1.map Node.parameter)) := by
  induction parameters generalizing c with
  | nil =>
    constructor
    · exact .pure _ _
    · intro _
      exact List.forall_mem_nil _
  | cons first _ ih =>
    obtain ⟨name, typeName⟩ := first
    obtain ⟨others, fresh⟩ := ih (parameter name typeName c).2
    have placed := places_parameter name typeName c
    simp only [List.mapM_cons]
    constructor
    · exact .bind placed (.map others)
    · intro fits
      have one := fresh_parameter (Nat.lt_of_le_of_lt others.le fits)
      exact one.append (fresh fits) placed.le

end Build

end Bindery
