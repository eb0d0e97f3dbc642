import Bindery.Proofs.Reserving

/-!
The spans of built trees.

A builder is used call by call. Each call takes nodes that were made before, and it makes one node
of them (`Call`). What has been made and not been used yet lies on the `Desk`, in any order, with
the spans that were handed out so far. All of these lie apart from each other, since a span is
reserved behind all that came before. A node covers what it is made of: the spans of its parts end
in front of the cursor, and so do those of the tokens that are placed with it.

The heading of a declaration is placed behind its value or body and behind the keyword, and the
span of the declaration ends with the keyword: its name, its parameters and its types are not
covered.
-/

namespace Bindery

/-! ### Calls -/

/-- A call of the builder, with the nodes that it puts together. -/
inductive Call where
  | identifier (name : String)
  | literal (value : Literal)
  | reference (name : String)
  | assignment (target value : Expression)
  | binary (left : Expression) (operator : BinaryOperator) (right : Expression)
  | unary (operator : UnaryOperator) (operand : Expression)
  | parenthesized (inner : Expression)
  | call (target : Expression) (arguments : List Expression)
  | ternary (condition yes no : Expression)
  | declare (name : String) (typeName : Option String) (readOnly : Bool) (value : Expression)
  | body (statements : List Statement)
  | block (statements : List Statement)
  | function (name : String) (parameters : List (String × String)) (result : Option String)
      (body : List Statement) (bodySpan : Span)
  | ifThen (condition : Expression) (yes : Statement)
  | ifElse (condition : Expression) (yes no : Statement)
  | whileLoop (condition : Expression) (body : Statement)
  | doWhile (body : Statement) (condition : Expression)
  | returns (value : Option Expression)
  | breakLoop
  | continueLoop
  | print (value : Expression)
  | expression (value : Expression)

variable {call : Call} {c : Nat}

namespace Call

def uses : Call → List Node
  | .identifier _ => []
  | .literal _ => []
  | .reference _ => []
  | .assignment target value => [.expression target, .expression value]
  | .binary left _ right => [.expression left, .expression right]
  | .unary _ operand => [.expression operand]
  | .parenthesized inner => [.expression inner]
  | .call target arguments => .expression target :: arguments.map .expression
  | .ternary condition yes no => [.expression condition, .expression yes, .expression no]
  | .declare _ _ _ value => [.expression value]
  | .body statements => statements.map .statement
  | .block statements => statements.map .statement
  | .function _ _ _ statements bodySpan => [.body statements bodySpan]
  | .ifThen condition yes => [.expression condition, .statement yes]
  | .ifElse condition yes no => [.expression condition, .statement yes, .statement no]
  | .whileLoop condition repeated => [.expression condition, .statement repeated]
  | .doWhile repeated condition => [.statement repeated, .expression condition]
  | .returns value => value.toList.map .expression
  | .breakLoop => []
  | .continueLoop => []
  | .print value => [.expression value]
  | .expression value => [.expression value]

def run : Call → Build Node
  | .identifier name => return .name (← Build.identifier name)
  | .literal value => return .expression (← Build.literal value)
  | .reference name => return .expression (← Build.reference name)
  | .assignment target value => return .expression (← Build.assignment target value)
  | .binary left operator right => return .expression (← Build.binary left operator right)
  | .unary operator operand => return .expression (← Build.unary operator operand)
  | .parenthesized inner => return .expression (← Build.parenthesized inner)
  | .call target arguments => return .expression (← Build.call target arguments)
  | .ternary condition yes no => return .expression (← Build.ternary condition yes no)
  | .declare name typeName readOnly value =>
    return .statement (← Build.declare name typeName readOnly value)
  | .body statements => return .body statements (← Build.blockSpan statements)
  | .block statements => return .statement (← Build.block statements)
  | .function name parameters result statements bodySpan =>
    return .statement (← Build.function name parameters result statements bodySpan)
  | .ifThen condition yes => return .statement (← Build.ifThen condition yes)
  | .ifElse condition yes no => return .statement (← Build.ifElse condition yes no)
  | .whileLoop condition repeated => return .statement (← Build.whileLoop condition repeated)
  | .doWhile repeated condition => return .statement (← Build.doWhile repeated condition)
  | .returns value => return .statement (← Build.returns value)
  | .breakLoop => return .statement (← Build.breakLoop)
  | .continueLoop => return .statement (← Build.continueLoop)
  | .print value => return .statement (← Build.print value)
  | .expression value => return .statement (← Build.expression value)

/-- What a call has done: the leaves of its node are those of the nodes it used and some of the
spans that it reserved, the node covers what it is made of, and it ends in front of the cursor. -/
structure Effect (call : Call) (c : Nat) : Prop where
  places : ∃ own, call.run.Places c own ∧
    (call.run c).1.leaves.Perm (call.uses.flatMap Node.leaves ++ own)
  framed : (call.run c).1.Framed
  below : (call.run c).1.span.stop < (call.run c).2

variable {n : Node}

namespace Effect

/-- A leaf is a span that was just reserved. -/
theorem leaf (fits : (call.run c).2 < UInt32.size) (unused : call.uses = [])
    (none : (call.run c).1.children = []) (placed : call.run.Places c [(call.run c).1.span]) :
    call.Effect c where
  places := by
    refine ⟨_, placed, .of_eq ?_⟩
    simp [unused, Node.leaves_of_childless none]
  framed := .leaf none
  below := placed.stop_lt fits (List.mem_singleton_self _)

/-- A node is made of the nodes that are used and of new ones. -/
theorem composite (tokens : List Node) (made : (call.run c).1 = n) (used : call.uses ≠ [])
    (placed : call.run.Places c (tokens.flatMap Node.leaves))
    (children : n.children = call.uses ++ tokens) (framed : ∀ u ∈ call.uses, u.Framed)
    (new : ∀ token ∈ tokens, token.Framed) (covers : ∀ child ∈ n.inner, n.span.Covers child.span)
    (behind : ∀ part ∈ n.heading, n.span.stop < part.span.start.toNat)
    (below : n.span.stop < (call.run c).2) : call.Effect c := by
  subst made
  refine ⟨⟨_, placed, .of_eq ?_⟩, .node covers behind ?_, below⟩
  · rw [Node.leaves_of_children, children, List.flatMap_append]
    rw [children]
    simp [used]
  · rw [children, List.forall_mem_append]
    exact ⟨framed, new⟩

end Effect

/-- The nodes that a call uses are in order and lie in front of the cursor. -/
structure Ready (call : Call) (c : Nat) : Prop where
  framed : ∀ n ∈ call.uses, n.Framed
  below : ∀ n ∈ call.uses, n.span.stop < c

namespace Ready

variable {x y z : Node}

/-- Two nodes are put together as they are. -/
theorem pair (ready : call.Ready c) (fits : c < UInt32.size) (made : call.run c = (n, c))
    (placed : call.run.Places c []) (used : call.uses = [x, y]) (inner : n.inner = [x, y])
    (heading : n.heading = []) (span : n.span = x.span.union y.span) : call.Effect c := by
  obtain ⟨framed, below⟩ := ready
  have left : x.span.stop < c := below x (by simp [used])
  have right : y.span.stop < c := below y (by simp [used])
  refine .composite [] (congrArg Prod.fst made) (by simp [used]) placed ?_ framed
    (List.forall_mem_nil _) ?_ (by simp [heading]) ?_
  · rw [Node.children, inner, heading, used]
  · rw [inner, span, List.forall_mem_cons, List.forall_mem_singleton]
    exact Span.covers_two left right (Nat.le_of_lt fits)
  · rw [span, made]
    exact Span.stop_union_lt left right (Nat.le_of_lt fits)

/-- Three nodes are put together as they are. -/
theorem triple (ready : call.Ready c) (fits : c < UInt32.size) (made : call.run c = (n, c))
    (placed : call.run.Places c []) (used : call.uses = [x, y, z]) (inner : n.inner = [x, y, z])
    (heading : n.heading = []) (span : n.span = (x.span.union y.span).union z.span) :
    call.Effect c := by
  obtain ⟨framed, below⟩ := ready
  have first : x.span.stop < c := below x (by simp [used])
  have second : y.span.stop < c := below y (by simp [used])
  have third : z.span.stop < c := below z (by simp [used])
  refine .composite [] (congrArg Prod.fst made) (by simp [used]) placed ?_ framed
    (List.forall_mem_nil _) ?_ (by simp [heading]) ?_
  · rw [Node.children, inner, heading, used]
  · rw [inner, span, List.forall_mem_cons, List.forall_mem_cons, List.forall_mem_singleton]
    exact Span.covers_three first second third (Nat.le_of_lt fits)
  · rw [span, made]
    exact Span.stop_union_lt (Span.stop_union_lt first second (Nat.le_of_lt fits)) third
      (Nat.le_of_lt fits)

/-- A token is placed behind the nodes, as a leaf that is covered with them. -/
theorem placed {t : Node} (ready : call.Ready c) (made : (call.run c).1 = n) (used : call.uses ≠ [])
    (inner : n.inner = call.uses ++ [t]) (heading : n.heading = []) (leaf : t.children = [])
    (token : call.run.Places c [t.span]) (covers : ∀ child ∈ n.inner, n.span.Covers child.span)
    (below : n.span.stop < (call.run c).2) : call.Effect c := by
  refine .composite [t] made used ?_ ?_ ready.framed ?_ covers (by simp [heading]) below
  · rw [List.flatMap_singleton, Node.leaves_of_childless leaf]
    exact token
  · rw [Node.children, inner, heading, List.append_nil]
  · exact List.forall_mem_singleton.mpr (.leaf leaf)

/-- A node is put together with a token. The heading, if it has one, is placed behind the token. -/
theorem token {t : Span} {c' : Nat} (ready : call.Ready c) (fits : (call.run c).2 < UInt32.size)
    (made : (call.run c).1 = n) (placed : call.run.Places c (n.heading.flatMap Node.leaves))
    (used : call.uses = [x]) (inner : n.inner = [x]) (span : n.span = t.union x.span)
    (first : c ≤ c') (last : c' ≤ (call.run c).2) (reserved : t.stop < c')
    (new : Build.Fresh c' n.heading) : call.Effect c := by
  obtain ⟨framed, below⟩ := ready
  have part : x.span.stop < c' := Nat.lt_of_lt_of_le (below x (by simp [used])) first
  have fits' : c' ≤ UInt32.size := Nat.le_trans last (Nat.le_of_lt fits)
  have stop : n.span.stop < c' := by
    rw [span]
    exact Span.stop_union_lt reserved part fits'
  refine .composite n.heading made (by simp [used]) placed ?_ framed (fun h mem => (new h mem).1) ?_
    (fun h mem => Nat.lt_of_lt_of_le stop (new h mem).2) (Nat.lt_of_lt_of_le stop last)
  · rw [Node.children, inner, used]
  · rw [inner, span, List.forall_mem_singleton]
    exact (Span.covers_two reserved part fits').2

/-- A node is put together with one token, and that is all. -/
theorem keyword {width : Nat} (ready : call.Ready c) (fits : (call.run c).2 < UInt32.size)
    (made : call.run c = (n, (Build.reserve width c).2)) (placed : call.run.Places c [])
    (used : call.uses = [x]) (inner : n.inner = [x]) (heading : n.heading = [])
    (span : n.span = (Build.reserve width c).1.union x.span) : call.Effect c := by
  have next : (Build.reserve width c).2 = (call.run c).2 := by rw [made]
  have reserved := Build.Places.reserve width c
  refine ready.token fits (congrArg Prod.fst made) ?_ used inner span reserved.le
    (Nat.le_of_eq next) (Build.stop_reserve_lt (by rwa [next])) ?_
  · rw [heading]
    exact placed
  · rw [heading]
    exact List.forall_mem_nil _

end Ready

section Cases

/-- The operator comes behind both operands. -/
theorem effect_binary {left right : Expression} {operator : BinaryOperator}
    (ready : Ready (.binary left operator right) c)
    (fits : (run (.binary left operator right) c).2 < UInt32.size) :
    Effect (.binary left operator right) c := by
  have token := Build.Places.reserve (max operator.token.utf8ByteSize 1) c
  have first : left.span.stop < c := ready.below (.expression left) (by simp [uses])
  have second : right.span.stop < c := ready.below (.expression right) (by simp [uses])
  have first := Nat.lt_of_lt_of_le first token.le
  have second := Nat.lt_of_lt_of_le second token.le
  have third := token.stop_lt fits (List.mem_singleton_self _)
  have fits := Nat.le_of_lt fits
  obtain ⟨covered, covered', covered''⟩ := Span.covers_three first second third fits
  refine ready.placed rfl (by simp [uses]) rfl rfl rfl (.map (.map token)) ?_ ?_
  · exact List.forall_mem_cons.mpr ⟨covered, List.forall_mem_cons.mpr
      ⟨covered', List.forall_mem_singleton.mpr covered''⟩⟩
  · exact Span.stop_union_lt (Span.stop_union_lt first second fits) third fits

/-- The operator comes behind its operand. -/
theorem effect_unary {operator : UnaryOperator} {operand : Expression}
    (ready : Ready (.unary operator operand) c)
    (fits : (run (.unary operator operand) c).2 < UInt32.size) :
    Effect (.unary operator operand) c := by
  have token := Build.Places.reserve (max operator.token.utf8ByteSize 1) c
  have inside : operand.span.stop < c := ready.below (.expression operand) (by simp [uses])
  have inside := Nat.lt_of_lt_of_le inside token.le
  have outside := token.stop_lt fits (List.mem_singleton_self _)
  obtain ⟨covered, covered'⟩ := Span.covers_two outside inside (Nat.le_of_lt fits)
  refine ready.placed rfl (by simp [uses]) rfl rfl rfl (.map (.map token)) ?_ ?_
  · exact List.forall_mem_cons.mpr ⟨covered', List.forall_mem_singleton.mpr covered⟩
  · exact Span.stop_union_lt outside inside (Nat.le_of_lt fits)

variable {target : Expression} {statements : List Statement} {name : String}

/-- Without arguments, the closing token stands for the list. -/
theorem effect_call_nil (ready : Ready (.call target []) c)
    (fits : (run (.call target []) c).2 < UInt32.size) : Effect (.call target []) c := by
  have token := Build.Places.reserve 1 c
  have called : target.span.stop < c := ready.below (.expression target) (by simp [uses])
  have called := Nat.lt_of_lt_of_le called token.le
  have close := token.stop_lt fits (List.mem_singleton_self _)
  obtain ⟨covered, covered'⟩ := Span.covers_two called close (Nat.le_of_lt fits)
  refine ready.placed rfl (by simp [uses]) rfl rfl rfl (.map (.map token)) ?_ ?_
  · exact List.forall_mem_cons.mpr ⟨covered, List.forall_mem_singleton.mpr covered'⟩
  · exact Span.stop_union_lt called close (Nat.le_of_lt fits)

/-- The list of arguments is a node between the call and its arguments. -/
theorem effect_call_cons {first : Expression} {rest : List Expression}
    (ready : Ready (.call target (first :: rest)) c)
    (fits : (run (.call target (first :: rest)) c).2 < UInt32.size) :
    Effect (.call target (first :: rest)) c := by
  obtain ⟨framed, below⟩ := ready
  have token := Build.Places.reserve 1 c
  have close := token.stop_lt fits (List.mem_singleton_self _)
  have called : target.span.stop < c := below (.expression target) (by simp [uses])
  have called := Nat.lt_of_lt_of_le called token.le
  have each : ∀ part ∈ (first :: rest).map Expression.span, part.stop < (Build.reserve 1 c).2 := by
    intro part mem
    obtain ⟨e, inside, rfl⟩ := List.mem_map.mp mem
    exact Nat.lt_of_lt_of_le (below (.expression e) (.tail _ (List.mem_map_of_mem inside))) token.le
  obtain ⟨-, covered, stop⟩ := Span.covers_foldl close each (Nat.le_of_lt fits)
  rw [List.foldl_map] at covered stop
  have outer := Span.covers_two called stop (Nat.le_of_lt fits)
  refine ⟨⟨[], .map (.map token.hidden), .of_eq ?_⟩,
    .node ?_ (List.forall_mem_nil _) ?_, ?_⟩
  · change Node.leaves (.expression (.call target (first :: rest) _ _)) = _
    rw [Node.leaves_of_children (by simp [Node.children, Node.inner])]
    change Node.leaves _ ++ (Node.leaves (.arguments (first :: rest) _) ++ []) = _
    rw [Node.leaves_arguments (List.cons_ne_nil first rest)]
    simp [uses]
  · exact List.forall_mem_cons.mpr ⟨outer.1, List.forall_mem_singleton.mpr outer.2⟩
  · refine List.forall_mem_cons.mpr ⟨framed _ (.head _), List.forall_mem_singleton.mpr (.node ?_
      (List.forall_mem_nil _) ?_)⟩
    · intro child mem
      obtain ⟨e, inside, rfl⟩ := List.mem_map.mp mem
      exact covered _ (List.mem_map_of_mem inside)
    · rw [Node.children_arguments]
      intro child mem
      exact framed child (.tail _ mem)
  · exact Span.stop_union_lt called stop (Nat.le_of_lt fits)

/-- A braced list with statements covers them all. -/
theorem covers_blockSpan (below : ∀ s ∈ statements, s.span.stop < c)
    (fits : (Build.blockSpan statements c).2 < UInt32.size) (nonempty : statements ≠ []) :
    (∀ s ∈ statements, (Build.blockSpan statements c).1.Covers s.span) ∧
      (Build.blockSpan statements c).1.stop < (Build.blockSpan statements c).2 := by
  have close := (Build.Places.reserve 1 c).laid fits
  obtain ⟨front, back⟩ := close.inside _ (List.mem_singleton_self _)
  have starts : statements.map (·.span.start.toNat) ≠ [] := mt List.map_eq_nil_iff.mp nonempty
  obtain ⟨first, least⟩ := Option.ne_none_iff_exists'.mp (mt List.min?_eq_none_iff.mp starts)
  obtain ⟨mem, all⟩ := List.min?_eq_some_iff.mp least
  obtain ⟨s, inside, rfl⟩ := List.mem_map.mp mem
  have start : s.span.start.toNat < c := Nat.lt_of_le_of_lt (Nat.le_add_right _ _) (below s inside)
  have closed : c ≤ (Build.reserve 1 c).1.stop := Nat.le_trans front (Nat.le_add_right _ _)
  have span : (Build.blockSpan statements c).1 =
      .ofBounds s.span.start.toNat (Build.reserve 1 c).1.stop := by
    change Span.ofBounds ((statements.map (·.span.start.toNat)).min?.getD _) _ = _
    rw [least]
    rfl
  have stop :=
    Span.stop_ofBounds (Nat.le_trans (Nat.le_of_lt start) closed) (Nat.lt_trans back fits)
  rw [span]
  constructor
  · intro t mem
    constructor
    · rw [Span.start_ofBounds s.span.start.toNat_lt_size]
      exact all _ (List.mem_map_of_mem mem)
    · rw [stop]
      exact Nat.le_of_lt (Nat.lt_of_lt_of_le (below t mem) closed)
  · rw [stop]
    exact back

/-- The closing brace stands for an empty list. -/
theorem blockSpan_nil : (Build.blockSpan [] c).1 = (Build.reserve 1 c).1 := Span.ofBounds_self

theorem places_blockSpan (statements : List Statement) : (Build.blockSpan statements).Places c [] :=
  .map (Build.Places.reserve 1 c).hidden

/-- A braced list without statements is a leaf. -/
theorem places_blockSpan_nil : (Build.blockSpan []).Places c [(Build.blockSpan [] c).1] := by
  rw [blockSpan_nil]
  exact .map (.reserve 1 c)

/-- A list of statements is put in braces. -/
theorem effect_braced (ready : call.Ready c) (fits : (call.run c).2 < UInt32.size)
    (made : call.run c = (n, (Build.blockSpan statements c).2))
    (placed : ∀ own, (Build.blockSpan statements).Places c own → call.run.Places c own)
    (used : call.uses = statements.map .statement) (inner : n.inner = statements.map .statement)
    (heading : n.heading = []) (span : n.span = (Build.blockSpan statements c).1) :
    call.Effect c := by
  cases statements with
  | nil =>
    have none : n.children = [] := by rw [Node.children, inner, heading]; rfl
    refine .leaf fits used ?_ ?_
    · rw [made]
      exact none
    · rw [made, span]
      exact placed _ places_blockSpan_nil
  | cons first rest =>
    have below : ∀ s ∈ first :: rest, s.span.stop < c := by
      intro s mem
      refine ready.below (.statement s) ?_
      rw [used]
      exact List.mem_map_of_mem mem
    rw [made] at fits
    obtain ⟨covered, stop⟩ := covers_blockSpan below fits (List.cons_ne_nil _ _)
    refine .composite [] (congrArg Prod.fst made) (by simp [used])
      (placed _ (places_blockSpan _)) ?_ ready.framed (List.forall_mem_nil _) ?_
      (by simp [heading]) ?_
    · rw [Node.children, inner, heading, used]
    · rw [inner, span]
      exact List.forall_mem_map.mpr covered
    · rw [made, span]
      exact stop

/-- The keyword, the name and the type of a variable come behind its value. -/
theorem effect_declare {typeName : Option String} {readOnly : Bool} {value : Expression}
    (ready : Ready (.declare name typeName readOnly value) c)
    (fits : (run (.declare name typeName readOnly value) c).2 < UInt32.size) :
    Effect (.declare name typeName readOnly value) c := by
  have keyword := Build.Places.reserve 3 c
  have declared := Build.places_identifier name (Build.reserve 3 c).2
  have typed := Build.places_optional typeName (Build.identifier name (Build.reserve 3 c).2).2
  have fitsName := Nat.lt_of_le_of_lt typed.le fits
  have fitsKeyword := Nat.lt_of_le_of_lt declared.le fitsName
  refine ready.token fits rfl ?_ rfl rfl rfl keyword.le (Nat.le_trans declared.le typed.le)
    (Build.stop_reserve_lt fitsKeyword) ?_
  · refine .map ?_
    unfold Build.declare
    refine .behind keyword ?_
    change Build.Places _ _ (Node.leaves (.name _) ++ _)
    rw [Node.leaves_of_childless rfl]
    exact .bind declared (.map typed)
  · exact (Build.fresh_identifier fitsName).append (Build.fresh_optional fits) declared.le

/-- The keyword and the heading of a function come behind its body. -/
theorem effect_function {parameters : List (String × String)} {result : Option String}
    {bodySpan : Span} (ready : Ready (.function name parameters result statements bodySpan) c)
    (fits : (run (.function name parameters result statements bodySpan) c).2 < UInt32.size) :
    Effect (.function name parameters result statements bodySpan) c := by
  have keyword := Build.Places.reserve 3 c
  have declared := Build.places_identifier name (Build.reserve 3 c).2
  obtain ⟨given, fresh⟩ :=
    Build.places_parameters parameters (Build.identifier name (Build.reserve 3 c).2).2
  have typed := Build.places_optional result
    ((parameters.mapM fun (name, typeName) => Build.parameter name typeName)
      (Build.identifier name (Build.reserve 3 c).2).2).2
  have fitsGiven := Nat.lt_of_le_of_lt typed.le fits
  have fitsName := Nat.lt_of_le_of_lt given.le fitsGiven
  have fitsKeyword := Nat.lt_of_le_of_lt declared.le fitsName
  have behind := Nat.le_trans declared.le (Nat.le_trans given.le typed.le)
  refine ready.token fits rfl ?_ rfl rfl rfl keyword.le behind
    (Build.stop_reserve_lt fitsKeyword) ?_
  · refine .map ?_
    unfold Build.function
    refine .behind keyword ?_
    change Build.Places _ _ (Node.leaves (.name _) ++ _)
    rw [Node.leaves_of_childless rfl]
    refine .bind declared ?_
    change Build.Places _ _ (List.flatMap Node.leaves (_ ++ _))
    rw [List.flatMap_append]
    exact .bind given (.map typed)
  · have types := (fresh fitsGiven).append (Build.fresh_optional fits) given.le
    exact (Build.fresh_identifier fitsName).append types declared.le

end Cases

end Call

/-- Every call keeps order among the nodes. -/
theorem Call.effect (ready : call.Ready c) (fits : (call.run c).2 < UInt32.size) :
    call.Effect c := by
  cases call with
  | identifier name =>
    exact .leaf fits rfl rfl (.map (Build.places_identifier name c))
  | literal | breakLoop | continueLoop => exact .leaf fits rfl rfl (.map (.map (.reserve _ c)))
  | reference name =>
    exact .leaf fits rfl rfl (.map (.map (Build.places_identifier name c)))
  | assignment | ifThen | whileLoop | doWhile =>
    exact ready.pair fits rfl (.pure _ _) rfl rfl rfl rfl
  | ternary | ifElse => exact ready.triple fits rfl (.pure _ _) rfl rfl rfl rfl
  | binary => exact effect_binary ready fits
  | unary => exact effect_unary ready fits
  | parenthesized =>
    exact ready.keyword fits rfl (.map (.map (Build.Places.reserve 1 c).hidden))
      rfl rfl rfl Span.union_comm
  | print =>
    exact ready.keyword fits rfl (.map (.map (Build.Places.reserve 5 c).hidden))
      rfl rfl rfl rfl
  | returns value =>
    cases value with
    | none => exact .leaf fits rfl rfl (.map (.map (.reserve _ c)))
    | some =>
      exact ready.keyword fits rfl (.map (.map (Build.Places.reserve 6 c).hidden))
        rfl rfl rfl rfl
  | call _ arguments =>
    cases arguments with
    | nil => exact effect_call_nil ready fits
    | cons => exact effect_call_cons ready fits
  | expression value =>
    refine .composite [] rfl (by simp [uses]) (.pure _ _) rfl ready.framed
      (List.forall_mem_nil _) ?_ (List.forall_mem_nil _) ?_
    · exact List.forall_mem_singleton.mpr (.refl _)
    · exact ready.below (.expression value) (.head _)
  | body =>
    exact effect_braced ready fits rfl (fun _ placed => .map placed) rfl rfl rfl rfl
  | block =>
    exact effect_braced ready fits rfl (fun _ placed => .map (.map placed))
      rfl rfl rfl rfl
  | declare => exact effect_declare ready fits
  | function => exact effect_function ready fits

/-! ### Sessions -/

/-- A builder at work: its cursor, the nodes that have not been used yet and the spans that were
reserved. -/
structure Desk where
  cursor : Nat
  nodes : List Node
  reserved : List Span

namespace Desk

def after (d : Desk) (call : Call) (rest : List Node) (spans : List Span) : Desk :=
  ⟨(call.run d.cursor).2, (call.run d.cursor).1 :: rest, d.reserved ++ spans⟩

/-- What calls lead to. A call uses up nodes that were made before. -/
inductive Reachable : Desk → Prop where
  | new : Reachable ⟨0, [], []⟩
  | call {d : Desk} {call : Call} {rest : List Node} {spans : List Span} : Reachable d →
      d.nodes.Perm (call.uses ++ rest) → call.run.Reserves d.cursor spans →
      Reachable (d.after call rest spans)

/-- All lies in front of the cursor, and apart. -/
structure Sound (d : Desk) : Prop where
  reserved : Build.Laid 0 d.cursor d.reserved
  leaves : Build.Laid 0 d.cursor (d.nodes.flatMap Node.leaves)
  framed : ∀ n ∈ d.nodes, n.Framed
  below : ∀ n ∈ d.nodes, n.span.stop < d.cursor

variable {d : Desk} {rest : List Node}

open scoped List in
/-- The leaves that were there stay, and the new ones are added. -/
theorem leaves_step {own : List Span} (used : d.nodes ~ call.uses ++ rest)
    (leaves : (call.run d.cursor).1.leaves ~ call.uses.flatMap Node.leaves ++ own) :
    d.nodes.flatMap Node.leaves ++ own ~
      ((call.run d.cursor).1 :: rest).flatMap Node.leaves := by
  calc d.nodes.flatMap Node.leaves ++ own
    _ ~ (call.uses ++ rest).flatMap Node.leaves ++ own := (used.flatMap_right _).append_right _
    _ = call.uses.flatMap Node.leaves ++ (rest.flatMap Node.leaves ++ own) := by
      rw [List.flatMap_append, List.append_assoc]
    _ ~ call.uses.flatMap Node.leaves ++ (own ++ rest.flatMap Node.leaves) :=
      List.perm_append_comm.append_left _
    _ = (call.uses.flatMap Node.leaves ++ own) ++ rest.flatMap Node.leaves := by
      rw [List.append_assoc]
    _ ~ (call.run d.cursor).1.leaves ++ rest.flatMap Node.leaves := leaves.symm.append_right _

/-- The effect of a call on nodes that are there. -/
theorem Sound.effect {d : Desk} {call : Call} {rest : List Node} (sound : d.Sound)
    (used : d.nodes.Perm (call.uses ++ rest)) (fits : (call.run d.cursor).2 < UInt32.size) :
    call.Effect d.cursor := by
  have there : ∀ n ∈ call.uses, n ∈ d.nodes :=
    fun n mem => used.mem_iff.mpr (List.mem_append_left _ mem)
  refine Call.effect ⟨?_, ?_⟩ fits
  · intro n mem
    exact sound.framed n (there n mem)
  · intro n mem
    exact sound.below n (there n mem)

/-- A call keeps the desk sound. -/
theorem Sound.step {spans : List Span} (sound : d.Sound) (used : d.nodes.Perm (call.uses ++ rest))
    (reserves : call.run.Reserves d.cursor spans) (fits : (call.run d.cursor).2 < UInt32.size) :
    (d.after call rest spans).Sound := by
  have forward := reserves.le
  have kept : ∀ n ∈ rest, n ∈ d.nodes :=
    fun n mem => used.mem_iff.mpr (List.mem_append_right _ mem)
  obtain ⟨⟨own, placed, leaves⟩, made, stop⟩ := sound.effect used fits
  refine ⟨?_, ?_, ?_, ?_⟩
  · exact sound.reserved.append (reserves.laid fits) (Nat.zero_le _) forward
  · have all := sound.leaves.append (placed.laid fits) (Nat.zero_le _) forward
    exact all.perm (leaves_step used leaves)
  · refine List.forall_mem_cons.mpr ⟨made, ?_⟩
    intro n mem
    exact sound.framed n (kept n mem)
  · refine List.forall_mem_cons.mpr ⟨stop, ?_⟩
    intro n mem
    exact Nat.lt_of_lt_of_le (sound.below n (kept n mem)) forward

/-- As long as offsets fit, all that is built is in order. -/
theorem Reachable.sound (h : d.Reachable) (fits : d.cursor < UInt32.size) : d.Sound := by
  induction h with
  | new => exact ⟨.nil, .nil, List.forall_mem_nil _, List.forall_mem_nil _⟩
  | call _ used reserves ih =>
    have before := ih (Nat.lt_of_le_of_lt reserves.le fits)
    exact before.step used reserves fits

/-- A file covers all that lies in front of the cursor. -/
theorem covers_sourceFile {fileName : String} {statements : List Statement} {s : Span}
    (below : s.stop < c) (fits : c < UInt32.size) :
    (Build.sourceFile fileName statements c).1.span.Covers s := by
  have start : (Span.ofBounds 0 c).start.toNat = 0 := Span.start_ofBounds (Nat.zero_lt_of_lt fits)
  have stop := Span.stop_ofBounds (Nat.zero_le c) fits
  change (Span.ofBounds 0 c).Covers s
  unfold Span.Covers
  rw [start, stop]
  exact ⟨Nat.zero_le _, Nat.le_of_lt below⟩

/-- For all that is built bottom-up with one builder, every node used once: the spans that are
reserved are apart from each other, and so are the leaves of the trees. Every node covers what it
is made of, besides the name, the parameters and the types of a declaration, which lie behind it. A
file covers its statements. Every call on nodes that are there can be made, and the leaves it adds
are spans that it reserves. -/
theorem built_in_order {d : Desk} (built : d.Reachable) (fits : d.cursor < UInt32.size) :
    d.reserved.Pairwise Span.Apart ∧ (d.nodes.flatMap Node.leaves).Pairwise Span.Apart ∧
      (∀ n ∈ d.nodes, n.Framed) ∧
      (∀ fileName statements, (∀ s ∈ statements, .statement s ∈ d.nodes) → ∀ s ∈ statements,
        (Build.sourceFile fileName statements d.cursor).1.span.Covers s.span) ∧
      ∀ (call : Call) (rest : List Node), d.nodes.Perm (call.uses ++ rest) →
        (call.run d.cursor).2 < UInt32.size →
        ∃ own spans, own.Sublist spans ∧
          (call.run d.cursor).1.leaves.Perm (call.uses.flatMap Node.leaves ++ own) ∧
          (d.after call rest spans).Reachable := by
  have sound := built.sound fits
  refine ⟨sound.reserved.apart, sound.leaves.apart, sound.framed, ?_, ?_⟩
  · intro fileName statements given s mem
    exact covers_sourceFile (sound.below _ (given s mem)) fits
  · intro call rest used further
    obtain ⟨own, ⟨spans, reserves, sub⟩, leaves⟩ := (sound.effect used further).places
    exact ⟨own, spans, sub, leaves, built.call used reserves⟩

/-- `let x = true`, as it is built: the name comes last. -/
def declaration : Statement :=
  .declare ⟨"x", ⟨9, 1⟩⟩ none true (.literal (.boolean true) ⟨0, 4⟩) ⟨0, 8⟩

/-- `print x`, built behind it. -/
def output : Statement := .print (.reference ⟨"x", ⟨11, 1⟩⟩) ⟨11, 7⟩

theorem reachable_declaration :
    Reachable ⟨11, [.statement declaration], [⟨0, 4⟩, ⟨5, 3⟩, ⟨9, 1⟩]⟩ := by
  have literal : (Call.literal (.boolean true)).run.Reserves 0 [⟨0, 4⟩] :=
    .map (.map (.reserve 4 0))
  have name : (Build.identifier "x").Reserves 9 [⟨9, 1⟩] := .map (.reserve 1 9)
  have declare : (Call.declare "x" none true (.literal (.boolean true) ⟨0, 4⟩)).run.Reserves 5
      [⟨5, 3⟩, ⟨9, 1⟩] :=
    .map (.cons (.reserve 3 5) (.cons name (.map (.pure _ _))))
  exact (Reachable.new.call (.refl _) literal).call (.refl _) declare

def braced : Desk :=
  ⟨21, [.statement (.block [declaration, output] ⟨0, 20⟩)],
    [⟨0, 4⟩, ⟨5, 3⟩, ⟨9, 1⟩, ⟨11, 1⟩, ⟨13, 5⟩, ⟨19, 1⟩]⟩

theorem reachable_braced : braced.Reachable := by
  have reference : (Call.reference "x").run.Reserves 11 [⟨11, 1⟩] :=
    .map (.map (.map (.reserve 1 11)))
  have print : (Call.print (.reference ⟨"x", ⟨11, 1⟩⟩)).run.Reserves 13 [⟨13, 5⟩] :=
    .map (.map (.reserve 5 13))
  have block : (Call.block [declaration, output]).run.Reserves 19 [⟨19, 1⟩] :=
    .map (.map (.map (.reserve 1 19)))
  have both : Reachable ⟨19, [.statement output, .statement declaration],
      [⟨0, 4⟩, ⟨5, 3⟩, ⟨9, 1⟩, ⟨11, 1⟩, ⟨13, 5⟩]⟩ :=
    (reachable_declaration.call (.refl _) reference).call (.refl _) print
  exact both.call (.swap _ _ []) block

theorem braced_in_order :
    braced.Reachable ∧ braced.cursor < UInt32.size ∧ braced.reserved.Pairwise Span.Apart ∧
      (braced.nodes.flatMap Node.leaves).Pairwise Span.Apart ∧ (∀ n ∈ braced.nodes, n.Framed) := by
  have fits : braced.cursor < UInt32.size := by decide
  obtain ⟨reserved, leaves, framed, -⟩ := built_in_order reachable_braced fits
  exact ⟨reachable_braced, fits, reserved, leaves, framed⟩

/-- The name of a declaration lies behind its span. -/
theorem declaration_name_outside :
    Reachable ⟨11, [.statement declaration], [⟨0, 4⟩, ⟨5, 3⟩, ⟨9, 1⟩]⟩ ∧
      (Node.statement declaration).children.all (declaration.span.Covers ·.span) = false :=
  ⟨reachable_declaration, by decide⟩

end Desk

end Bindery
