import Bindery.Proofs.Records

/-!
Trees that are written and read back.

A tree without floating-point numbers is read from the value that it is written as, and from each
edited form of that value: with the fields of nodes in another order, without those that are null
and with others that the nodes do not know. Since a node writes all the fields it knows, the names
it does not know are those that its value does not have. There is a lemma for each kind of node; the
fields of a kind are found by name (`Read.tagged`) and are read by induction.
-/

namespace Bindery

open Json

/-! ### Records without kinds -/

variable {limit : Nat} {v : Value} {slot : Option Value}

theorem read_below {n : Nat} (lt : n < limit) : Read (Value.below? limit) (.ofNat n) n where
  present := by simp [Value.ofNat]
  edited w edit := by
    cases edit
    simp [Value.below?, Value.integer?, lt]

theorem Span.ofContents?_finds {contents : Contents v.Part} {parts : List (Option v.Part)}
    {s : Span} (finds : contents.Finds
      [("start", .ofNat s.start.toNat), ("length", .ofNat s.length.toNat)] parts) :
    Span.ofContents? contents.plain = some s := by
  obtain ⟨-, plain, -, edited⟩ := finds
  obtain _ | ⟨first, _ | ⟨second, ⟨⟩⟩⟩ := edited
  obtain ⟨start, rfl, readStart⟩ := (read_below s.start.toNat_lt_size).part first
  obtain ⟨length, rfl, readLength⟩ := (read_below s.length.toNat_lt_size).part second
  rw [Span.ofContents?]
  simp only [List.map_cons, List.map_nil, Option.unattach_some] at plain
  simp [plain, readStart, readLength]

theorem Span.read (s : Span) : Read Span.ofValue? s.toValue s := by
  refine .record (by simp) ?_
  intro v contents parts here finds
  simp [Span.ofValue?, here, Span.ofContents?_finds finds]

theorem Identifier.ofContents?_finds {contents : Contents v.Part} {parts : List (Option v.Part)}
    {i : Identifier}
    (finds : contents.Finds [("name", .string i.name), ("span", i.span.toValue)] parts) :
    Identifier.ofContents? contents.plain = some i := by
  obtain ⟨-, plain, -, edited⟩ := finds
  obtain _ | ⟨first, _ | ⟨second, ⟨⟩⟩⟩ := edited
  obtain ⟨name, rfl, readName⟩ := (Read.string i.name).part first
  obtain ⟨span, rfl, readSpan⟩ := i.span.read.part second
  simp only [List.map_cons, List.map_nil, Option.unattach_some] at plain
  simp [Identifier.ofContents?, plain, readName, readSpan]

theorem Identifier.read (i : Identifier) : Read Identifier.ofValue? i.toValue i := by
  refine .record (by simp) ?_
  intro v contents parts here finds
  simp [Identifier.ofValue?, here, Identifier.ofContents?_finds finds]

theorem Parameter.read (p : Parameter) : Read Parameter.ofValue? p.toValue p := by
  refine .record (by simp) ?_
  rintro v contents parts here ⟨-, plain, -, edited⟩
  obtain _ | ⟨first, _ | ⟨second, _ | ⟨third, ⟨⟩⟩⟩⟩ := edited
  obtain ⟨name, rfl, readName⟩ := p.name.read.part first
  obtain ⟨typeName, rfl, readType⟩ := p.typeName.read.part second
  obtain ⟨span, rfl, readSpan⟩ := p.span.read.part third
  simp only [List.map_cons, List.map_nil, Option.unattach_some] at plain
  simp [Parameter.ofValue?, here, plain, readName, readType, readSpan]

theorem Identifier.ofField?_edited {i : Option Identifier}
    (edit : EditedField (.ofOption (i.map Identifier.toValue)) slot) :
    Identifier.ofField? slot = some i := by
  refine Read.optional rfl rfl ?_ (fun i _ => i.read) edit
  intro w present
  cases w with
  | null => exact absurd rfl present
  | _ => rfl

/-! ### Literals -/

def Literal.isFloating : Literal → Bool
  | .float _ => true
  | .double _ => true
  | _ => false

namespace Literal

variable {l : Literal}

theorem within?_integer {low high n : Int} (least : low ≤ n) (most : n ≤ high) :
    within? low high (.number (.integer n)) = some n :=
  if_pos ⟨least, most⟩

/-- The content of a literal is read back as its kind. -/
theorem read_content (notFloating : l.isFloating = false) :
    Read (ofContent? · l.kind) l.contentValue l where
  present := by
    cases l with
    | float | double => simp [isFloating] at notFloating
    | _ => simp [contentValue]
  edited w edit := by
    cases l with
    | boolean =>
      cases edit
      rfl
    | int n =>
      cases edit
      change Option.map _ (within? _ _ (.number (.integer n.toInt))) = _
      rw [within?_integer n.minValue_le_toInt n.toInt_le, Option.map_some, Int32.ofInt_toInt]
    | long n =>
      cases edit
      change Option.map _ (within? _ _ (.number (.integer n.toInt))) = _
      rw [within?_integer n.minValue_le_toInt n.toInt_le, Option.map_some, Int64.ofInt_toInt]
    | float => simp [isFloating] at notFloating
    | double => simp [isFloating] at notFloating
    | string =>
      cases edit
      rfl
    | char =>
      cases edit
      simp [ofContent?, kind, Value.string?]

theorem read (notFloating : l.isFloating = false) : Read Literal.ofValue? l.toValue l := by
  refine .record (by simp) ?_
  rintro v contents parts here ⟨-, plain, ⟨entries, named⟩, edited⟩
  obtain _ | ⟨first, _ | ⟨second, ⟨⟩⟩⟩ := edited
  obtain ⟨tag, rfl, readTag⟩ := (Read.word l.kind.name).part first
  obtain ⟨content, rfl, readContent⟩ := (read_content notFloating).part second
  have known : LiteralKind.ofName? l.kind.name = some l.kind := by
    cases l.kind <;> decide
  have kind : Literal.kind? contents.plain tag.1 = some l.kind := by
    rw [named, Literal.kind?, readTag]
    exact known
  simp only [List.map_cons, List.map_nil, Option.unattach_some] at plain
  simp [Literal.ofValue?, here, plain, kind, readContent]

end Literal

/-! ### Expressions -/

mutual

def Expression.literals : Expression → List Literal
  | .literal value _ => [value]
  | .reference _ => []
  | .assignment target value _ => target.literals ++ value.literals
  | .binary left _ _ right _ => left.literals ++ right.literals
  | .unary _ _ operand _ => operand.literals
  | .parenthesized inner _ => inner.literals
  | .call target arguments .. => target.literals ++ literalsOfArguments arguments
  | .ternary condition yes no _ => condition.literals ++ (yes.literals ++ no.literals)

def literalsOfArguments : List Expression → List Literal
  | [] => []
  | e :: rest => e.literals ++ literalsOfArguments rest

end

theorem kindOf?_expression {kind : ExpressionKind} :
    kindOf? ExpressionKind.all ExpressionKind.name true (.string kind.name) = some kind := by
  cases kind <;> decide

theorem BinaryOperator.ofToken?_token (operator : BinaryOperator) :
    BinaryOperator.ofToken? operator.token = some operator := by
  cases operator <;> decide

theorem UnaryOperator.ofToken?_token (operator : UnaryOperator) :
    UnaryOperator.ofToken? operator.token = some operator := by
  cases operator <;> decide

namespace Expression

variable {target value left right operand inner condition yes no : Expression}
    {operatorSpan span : Span}

abbrev Reads (e : Expression) : Prop := Read ofValue? e.toValue e

theorem read_literal {value : Literal} (notFloating : value.isFloating = false) :
    Reads (.literal value span) := by
  refine .tagged Expression.ofValue?.eq_def kindOf?_expression (by simp) ?_
  rintro v tag rest parts ⟨found, -, -, edited⟩
  obtain _ | ⟨first, _ | ⟨second, ⟨⟩⟩⟩ := edited
  obtain ⟨_, rfl, readValue⟩ := (Literal.read notFloating).part first
  obtain ⟨_, rfl, readSpan⟩ := span.read.part second
  refine (bind_of_some found).trans ?_
  simp [readValue, readSpan]

theorem read_reference (i : Identifier) : Reads (.reference i) := by
  refine .tagged Expression.ofValue?.eq_def kindOf?_expression (by simp) ?_
  intro v tag rest parts finds
  simp [Identifier.ofContents?_finds finds]

theorem read_assignment (readTarget : target.Reads) (readValue : value.Reads) :
    Reads (.assignment target value span) := by
  refine .tagged Expression.ofValue?.eq_def kindOf?_expression (by simp) ?_
  rintro v tag rest parts ⟨found, -, -, edited⟩
  obtain _ | ⟨first, _ | ⟨second, _ | ⟨third, ⟨⟩⟩⟩⟩ := edited
  obtain ⟨_, rfl, given⟩ := readTarget.part first
  obtain ⟨_, rfl, assigned⟩ := readValue.part second
  obtain ⟨_, rfl, readSpan⟩ := span.read.part third
  refine (bind_of_some found).trans ?_
  simp [given, assigned, readSpan]

theorem read_binary {operator : BinaryOperator} (readLeft : left.Reads) (readRight : right.Reads) :
    Reads (.binary left operator operatorSpan right span) := by
  refine .tagged Expression.ofValue?.eq_def kindOf?_expression (by simp) ?_
  rintro v tag rest parts ⟨found, -, -, edited⟩
  obtain _ | ⟨first, _ | ⟨second, _ | ⟨third, _ | ⟨fourth, _ | ⟨fifth, ⟨⟩⟩⟩⟩⟩⟩ := edited
  obtain ⟨_, rfl, before⟩ := readLeft.part first
  obtain ⟨_, rfl, word⟩ := (Read.word operator.token).part second
  obtain ⟨_, rfl, place⟩ := operatorSpan.read.part third
  obtain ⟨_, rfl, behind⟩ := readRight.part fourth
  obtain ⟨_, rfl, readSpan⟩ := span.read.part fifth
  refine (bind_of_some found).trans ?_
  simp [before, word, place, behind, readSpan, BinaryOperator.ofToken?_token]

theorem read_unary {operator : UnaryOperator} (readOperand : operand.Reads) :
    Reads (.unary operator operatorSpan operand span) := by
  refine .tagged Expression.ofValue?.eq_def kindOf?_expression (by simp) ?_
  rintro v tag rest parts ⟨found, -, -, edited⟩
  obtain _ | ⟨first, _ | ⟨second, _ | ⟨third, _ | ⟨fourth, ⟨⟩⟩⟩⟩⟩ := edited
  obtain ⟨_, rfl, word⟩ := (Read.word operator.token).part first
  obtain ⟨_, rfl, place⟩ := operatorSpan.read.part second
  obtain ⟨_, rfl, given⟩ := readOperand.part third
  obtain ⟨_, rfl, readSpan⟩ := span.read.part fourth
  refine (bind_of_some found).trans ?_
  simp [word, place, given, readSpan, UnaryOperator.ofToken?_token]

theorem read_parenthesized (readInner : inner.Reads) : Reads (.parenthesized inner span) := by
  refine .tagged Expression.ofValue?.eq_def kindOf?_expression (by simp) ?_
  rintro v tag rest parts ⟨found, -, -, edited⟩
  obtain _ | ⟨first, _ | ⟨second, ⟨⟩⟩⟩ := edited
  obtain ⟨_, rfl, given⟩ := readInner.part first
  obtain ⟨_, rfl, readSpan⟩ := span.read.part second
  refine (bind_of_some found).trans ?_
  simp [given, readSpan]

theorem read_call {arguments : List Expression} {argumentsSpan : Span} (readTarget : target.Reads)
    (readArguments : (expressionValues arguments).Forall₂ (Read ofValue?) arguments) :
    Reads (.call target arguments argumentsSpan span) := by
  refine .tagged Expression.ofValue?.eq_def kindOf?_expression (by simp) ?_
  rintro v tag rest parts ⟨found, -, -, edited⟩
  obtain _ | ⟨first, _ | ⟨second, _ | ⟨third, _ | ⟨fourth, ⟨⟩⟩⟩⟩⟩ := edited
  obtain ⟨_, rfl, called⟩ := readTarget.part first
  obtain ⟨_, items, rfl, list, each⟩ := Read.items readArguments second
  obtain ⟨_, rfl, place⟩ := argumentsSpan.read.part third
  obtain ⟨_, rfl, readSpan⟩ := span.read.part fourth
  refine (bind_of_some found).trans ?_
  simp [called, list, place, readSpan, each]

theorem read_ternary (readCondition : condition.Reads) (readYes : yes.Reads) (readNo : no.Reads) :
    Reads (.ternary condition yes no span) := by
  refine .tagged Expression.ofValue?.eq_def kindOf?_expression (by simp) ?_
  rintro v tag rest parts ⟨found, -, -, edited⟩
  obtain _ | ⟨first, _ | ⟨second, _ | ⟨third, _ | ⟨fourth, ⟨⟩⟩⟩⟩⟩ := edited
  obtain ⟨_, rfl, tested⟩ := readCondition.part first
  obtain ⟨_, rfl, taken⟩ := readYes.part second
  have there := readNo.present_eq third
  obtain ⟨_, rfl, other⟩ := readNo.part third
  obtain ⟨_, rfl, readSpan⟩ := span.read.part fourth
  refine (bind_of_some found).trans ?_
  simp [tested, taken, other, readSpan]

mutual

/-- Every form of an expression is read as the expression. -/
theorem read : (e : Expression) → (∀ l ∈ e.literals, l.isFloating = false) →
    e.Reads
  | .literal value _, notFloating => read_literal (notFloating value (List.mem_singleton_self _))
  | .reference i, _ => read_reference i
  | .assignment target value _, notFloating => by
    obtain ⟨first, second⟩ := List.forall_mem_append.mp notFloating
    exact read_assignment (target.read first) (value.read second)
  | .binary left _ _ right _, notFloating => by
    obtain ⟨first, second⟩ := List.forall_mem_append.mp notFloating
    exact read_binary (left.read first) (right.read second)
  | .unary _ _ operand _, notFloating => read_unary (operand.read notFloating)
  | .parenthesized inner _, notFloating => read_parenthesized (inner.read notFloating)
  | .call target arguments .., notFloating => by
    obtain ⟨first, second⟩ := List.forall_mem_append.mp notFloating
    exact read_call (target.read first) (read_arguments arguments second)
  | .ternary condition yes no _, notFloating => by
    obtain ⟨first, others⟩ := List.forall_mem_append.mp notFloating
    obtain ⟨second, third⟩ := List.forall_mem_append.mp others
    exact read_ternary (condition.read first) (yes.read second) (no.read third)

theorem read_arguments : (arguments : List Expression) →
    (∀ l ∈ literalsOfArguments arguments, l.isFloating = false) →
    (expressionValues arguments).Forall₂ (Read Expression.ofValue?) arguments
  | [], _ => .nil
  | e :: rest, notFloating => by
    obtain ⟨first, others⟩ := List.forall_mem_append.mp notFloating
    exact .cons (e.read first) (read_arguments rest others)

end

theorem ofField?_edited {value : Option Expression} (readValue : ∀ e ∈ value, e.Reads)
    (edit : EditedField (.ofOption (value.map toValue)) slot) : ofField? slot = some value := by
  refine Read.optional rfl rfl ?_ readValue edit
  intro w present
  cases w with
  | null => exact absurd rfl present
  | _ => rfl

end Expression

/-! ### Statements -/

mutual

def Statement.literals : Statement → List Literal
  | .function _ _ _ body .. => literalsOfList body
  | .declare _ _ _ value _ => value.literals
  | .ifThen condition yes _ => condition.literals ++ yes.literals
  | .ifElse condition yes no _ => condition.literals ++ (yes.literals ++ no.literals)
  | .whileLoop condition body _ => condition.literals ++ body.literals
  | .doWhile body condition _ => body.literals ++ condition.literals
  | .block statements _ => literalsOfList statements
  | .returns none _ => []
  | .returns (some value) _ => value.literals
  | .breakLoop _ => []
  | .continueLoop _ => []
  | .print value _ => value.literals
  | .expression value _ => value.literals

def literalsOfList : List Statement → List Literal
  | [] => []
  | s :: rest => s.literals ++ literalsOfList rest

end

theorem kindOf?_statement {nested : Bool} {kind : StatementKind} :
    kindOf? StatementKind.all StatementKind.name nested (.string kind.name) = some kind := by
  cases kind <;> decide +revert

namespace Statement

variable {nested : Bool} {condition value : Expression} {yes no body : Statement}
    {statements : List Statement} {span : Span}

variable {i : Identifier}

abbrev Reads (nested : Bool) (s : Statement) : Prop := Read (ofValue? nested) s.toValue s

theorem read_declare {typeName : Option Identifier} {readOnly : Bool} (readValue : value.Reads) :
    Reads nested (.declare i typeName readOnly value span) := by
  refine .tagged (Statement.ofValue?.eq_def _) kindOf?_statement (by simp) ?_
  rintro v tag rest parts ⟨found, -, -, edited⟩
  obtain _ | ⟨first, _ | ⟨second, _ | ⟨third, _ | ⟨fourth, _ | ⟨fifth, ⟨⟩⟩⟩⟩⟩⟩ := edited
  obtain ⟨_, rfl, name⟩ := i.read.part first
  have annotation := Identifier.ofField?_edited second
  obtain ⟨_, rfl, once⟩ := (Read.bool readOnly).part third
  obtain ⟨_, rfl, given⟩ := readValue.part fourth
  obtain ⟨_, rfl, place⟩ := span.read.part fifth
  refine (bind_of_some found).trans ?_
  simp [name, annotation, once, given, place]

theorem read_ifThen (readCondition : condition.Reads) (readYes : yes.Reads true) :
    Reads nested (.ifThen condition yes span) := by
  refine .tagged (Statement.ofValue?.eq_def _) kindOf?_statement (by simp) ?_
  rintro v tag rest parts ⟨found, -, -, edited⟩
  obtain _ | ⟨first, _ | ⟨second, _ | ⟨third, _ | ⟨fourth, ⟨⟩⟩⟩⟩⟩ := edited
  obtain ⟨_, rfl, tested⟩ := readCondition.part first
  obtain ⟨_, rfl, taken⟩ := readYes.part second
  have other := Read.present_null third
  obtain ⟨_, rfl, place⟩ := span.read.part fourth
  refine (bind_of_some found).trans ?_
  simp [tested, taken, other, place]

theorem read_ifElse (readCondition : condition.Reads) (readYes : yes.Reads true)
    (readNo : no.Reads true) : Reads nested (.ifElse condition yes no span) := by
  refine .tagged (Statement.ofValue?.eq_def _) kindOf?_statement (by simp) ?_
  rintro v tag rest parts ⟨found, -, -, edited⟩
  obtain _ | ⟨first, _ | ⟨second, _ | ⟨third, _ | ⟨fourth, ⟨⟩⟩⟩⟩⟩ := edited
  obtain ⟨_, rfl, tested⟩ := readCondition.part first
  obtain ⟨_, rfl, taken⟩ := readYes.part second
  have there := readNo.present_eq third
  obtain ⟨_, rfl, other⟩ := readNo.part third
  obtain ⟨_, rfl, place⟩ := span.read.part fourth
  refine (bind_of_some found).trans ?_
  simp [tested, taken, there, other, place]

theorem read_whileLoop (readCondition : condition.Reads) (readBody : body.Reads true) :
    Reads nested (.whileLoop condition body span) := by
  refine .tagged (Statement.ofValue?.eq_def _) kindOf?_statement (by simp) ?_
  rintro v tag rest parts ⟨found, -, -, edited⟩
  obtain _ | ⟨first, _ | ⟨second, _ | ⟨third, ⟨⟩⟩⟩⟩ := edited
  obtain ⟨_, rfl, tested⟩ := readCondition.part first
  obtain ⟨_, rfl, repeated⟩ := readBody.part second
  obtain ⟨_, rfl, place⟩ := span.read.part third
  refine (bind_of_some found).trans ?_
  simp [tested, repeated, place]

theorem read_doWhile (readBody : body.Reads true) (readCondition : condition.Reads) :
    Reads nested (.doWhile body condition span) := by
  refine .tagged (Statement.ofValue?.eq_def _) kindOf?_statement (by simp) ?_
  rintro v tag rest parts ⟨found, -, -, edited⟩
  obtain _ | ⟨first, _ | ⟨second, _ | ⟨third, ⟨⟩⟩⟩⟩ := edited
  obtain ⟨_, rfl, repeated⟩ := readBody.part first
  obtain ⟨_, rfl, tested⟩ := readCondition.part second
  obtain ⟨_, rfl, place⟩ := span.read.part third
  refine (bind_of_some found).trans ?_
  simp [repeated, tested, place]

theorem read_block
    (readStatements : (statementValues statements).Forall₂ (Read (ofValue? true)) statements) :
    Reads nested (.block statements span) := by
  refine .tagged (Statement.ofValue?.eq_def _) kindOf?_statement (by simp [blockFields]) ?_
  rintro v tag rest parts ⟨found, -, -, edited⟩
  obtain _ | ⟨first, _ | ⟨second, ⟨⟩⟩⟩ := edited
  obtain ⟨_, items, rfl, list, each⟩ := Read.items readStatements first
  obtain ⟨_, rfl, place⟩ := span.read.part second
  refine (bind_of_some found).trans ?_
  simp [list, each, place]

theorem read_returns {value : Option Expression} (readValue : ∀ e ∈ value, e.Reads) :
    Reads nested (.returns value span) := by
  refine .tagged (Statement.ofValue?.eq_def _) kindOf?_statement (by simp) ?_
  rintro v tag rest parts ⟨found, -, -, edited⟩
  obtain _ | ⟨first, _ | ⟨second, ⟨⟩⟩⟩ := edited
  have given := Expression.ofField?_edited readValue first
  obtain ⟨_, rfl, place⟩ := span.read.part second
  refine (bind_of_some found).trans ?_
  simp [given, place]

theorem read_breakLoop : Reads nested (.breakLoop span) := by
  refine .tagged (Statement.ofValue?.eq_def _) kindOf?_statement (by simp) ?_
  intro v tag rest parts finds
  simp [Span.ofContents?_finds finds]

theorem read_continueLoop : Reads nested (.continueLoop span) := by
  refine .tagged (Statement.ofValue?.eq_def _) kindOf?_statement (by simp) ?_
  intro v tag rest parts finds
  simp [Span.ofContents?_finds finds]

theorem read_print (readValue : value.Reads) : Reads nested (.print value span) := by
  refine .tagged (Statement.ofValue?.eq_def _) kindOf?_statement (by simp) ?_
  rintro v tag rest parts ⟨found, -, -, edited⟩
  obtain _ | ⟨first, _ | ⟨second, ⟨⟩⟩⟩ := edited
  obtain ⟨_, rfl, given⟩ := readValue.part first
  obtain ⟨_, rfl, place⟩ := span.read.part second
  refine (bind_of_some found).trans ?_
  simp [given, place]

theorem read_expression (readValue : value.Reads) : Reads nested (.expression value span) := by
  refine .tagged (Statement.ofValue?.eq_def _) kindOf?_statement (by simp) ?_
  rintro v tag rest parts ⟨found, -, -, edited⟩
  obtain _ | ⟨first, _ | ⟨second, ⟨⟩⟩⟩ := edited
  obtain ⟨_, rfl, given⟩ := readValue.part first
  obtain ⟨_, rfl, place⟩ := span.read.part second
  refine (bind_of_some found).trans ?_
  simp [given, place]

/-- The body of a function is a record without a kind. -/
theorem read_body {slot : Option v.Part}
    (readStatements : (statementValues statements).Forall₂ (Read (ofValue? true)) statements)
    (edit : EditedField (.object (blockFields (statementValues statements) span)) slot.unattach) :
    ∃ (part : v.Part) (contents : Contents part.1.Part) (list place : part.1.Part)
      (items : List list.1.Part), slot = some part ∧ part.1.contents? = some contents ∧
      contents.fields? ["statements", "span"] = some [some list, some place] ∧
      list.1.items? = some items ∧ items.unattach.mapM (ofValue? true) = some statements ∧
      Span.ofValue? place.1 = some span := by
  cases slot with
  | none => cases edit
  | some part =>
    obtain ⟨edit⟩ := edit
    obtain ⟨contents, parts, here, finds⟩ := edit.finds (by simp [blockFields])
    obtain ⟨found, -, -, edited⟩ := finds
    obtain _ | ⟨first, _ | ⟨second, ⟨⟩⟩⟩ := edited
    obtain ⟨list, items, rfl, inside, each⟩ := Read.items readStatements first
    obtain ⟨place, rfl, readPlace⟩ := span.read.part second
    exact ⟨part, contents, list, place, items, rfl, here, found, inside, each, readPlace⟩

theorem read_function {parameters : List Parameter} {result : Option Identifier} {bodySpan : Span}
    (readStatements : (statementValues statements).Forall₂ (Read (ofValue? true)) statements) :
    Reads nested (.function i parameters result statements bodySpan span) := by
  have readParameters :
      (parameters.map Parameter.toValue).Forall₂ (Read Parameter.ofValue?) parameters :=
    List.forall₂_map_left_iff.mpr (List.forall₂_same.mpr fun p _ => p.read)
  refine .tagged (Statement.ofValue?.eq_def _) kindOf?_statement (by simp) ?_
  rintro v tag rest parts ⟨found, -, -, edited⟩
  obtain _ | ⟨first, _ | ⟨second, _ | ⟨third, _ | ⟨fourth, _ | ⟨fifth, ⟨⟩⟩⟩⟩⟩⟩ := edited
  obtain ⟨_, rfl, name⟩ := i.read.part first
  obtain ⟨_, given, rfl, list, each⟩ := Read.items readParameters second
  have annotation := Identifier.ofField?_edited third
  obtain ⟨_, _, _, _, _, rfl, inner, fields, inside, all, innerPlace⟩ :=
    read_body readStatements fourth
  obtain ⟨_, rfl, place⟩ := span.read.part fifth
  refine (bind_of_some found).trans ?_
  simp [name, list, each, annotation, inner, fields, inside, all, innerPlace, place]

mutual

/-- Every form of a statement is read as the statement, on its own or inside another one. -/
theorem read : (s : Statement) → (∀ l ∈ s.literals, l.isFloating = false) → (nested : Bool) →
    s.Reads nested
  | .function _ _ _ body .., notFloating, _ =>
    read_function (read_list body notFloating true)
  | .declare _ _ _ value _, notFloating, _ => read_declare (value.read notFloating)
  | .ifThen condition yes _, notFloating, _ => by
    obtain ⟨first, second⟩ := List.forall_mem_append.mp notFloating
    exact read_ifThen (condition.read first) (yes.read second true)
  | .ifElse condition yes no _, notFloating, _ => by
    obtain ⟨first, others⟩ := List.forall_mem_append.mp notFloating
    obtain ⟨second, third⟩ := List.forall_mem_append.mp others
    exact read_ifElse (condition.read first) (yes.read second true) (no.read third true)
  | .whileLoop condition body _, notFloating, _ => by
    obtain ⟨first, second⟩ := List.forall_mem_append.mp notFloating
    exact read_whileLoop (condition.read first) (body.read second true)
  | .doWhile body condition _, notFloating, _ => by
    obtain ⟨first, second⟩ := List.forall_mem_append.mp notFloating
    exact read_doWhile (body.read first true) (condition.read second)
  | .block statements _, notFloating, _ => read_block (read_list statements notFloating true)
  | .returns none _, _, _ => read_returns (by simp)
  | .returns (some value) _, notFloating, _ => by
    refine read_returns ?_
    rintro e ⟨⟩
    exact value.read notFloating
  | .breakLoop _, _, _ => read_breakLoop
  | .continueLoop _, _, _ => read_continueLoop
  | .print value _, notFloating, _ => read_print (value.read notFloating)
  | .expression value _, notFloating, _ => read_expression (value.read notFloating)

theorem read_list : (statements : List Statement) →
    (∀ l ∈ literalsOfList statements, l.isFloating = false) → (nested : Bool) →
    (statementValues statements).Forall₂ (Read (ofValue? nested)) statements
  | [], _, _ => .nil
  | s :: rest, notFloating, nested => by
    obtain ⟨first, others⟩ := List.forall_mem_append.mp notFloating
    exact .cons (s.read first nested) (read_list rest others nested)

end

end Statement

/-! ### Files -/

namespace SourceFile

def literals (file : SourceFile) : List Literal := literalsOfList file.statements

def textOfField? : Option Value → Option (Option String)
  | none => some none
  | some .null => some none
  | some v => v.string?.map some

theorem textOfField?_some {w : Value} (given : w ≠ .null) :
    textOfField? (some w) = w.string?.map some := by
  cases w with
  | null => exact absurd rfl given
  | _ => rfl

theorem textOfField?_edited {text : Option String}
    (edit : EditedField (.ofOption (text.map .string)) slot) : textOfField? slot = some text := by
  exact Read.optional rfl rfl (fun _ => textOfField?_some) (fun s _ => Read.string s) edit

def ofContents? (contents : Contents Value) : Option SourceFile := do
  match ← contents.fields? ["file_name", "text", "statements", "span"] with
  | [some fileName, text, some statements, some span] =>
    let fileName ← fileName.string?
    let text ← textOfField? text
    let items ← statements.items?
    let statements ← items.mapM fun item => Statement.ofValue? false item.1
    return ⟨fileName, text, statements, ← Span.ofValue? span⟩
  | _ => none

def ofValue? (v : Value) : Option SourceFile := do
  ofContents? (← v.contents?).plain

theorem read {file : SourceFile} (notFloating : ∀ l ∈ file.literals, l.isFloating = false) :
    Read ofValue? file.toValue file := by
  have readStatements := Statement.read_list file.statements notFloating false
  refine .record (by simp) ?_
  rintro v contents parts here ⟨-, plain, -, edited⟩
  obtain _ | ⟨first, _ | ⟨second, _ | ⟨third, _ | ⟨fourth, ⟨⟩⟩⟩⟩⟩ := edited
  obtain ⟨_, rfl, name⟩ := (Read.string file.fileName).part first
  have text := textOfField?_edited second
  obtain ⟨_, _, rfl, list, each⟩ := Read.items readStatements third
  obtain ⟨_, rfl, place⟩ := file.span.read.part fourth
  rw [ofValue?]
  refine (bind_of_some here).trans ((bind_of_some plain).trans ?_)
  simp [name, text, list, each, place]

end SourceFile

/-! ### Documents -/

namespace SourceFile

variable {d : Document} {v : Value}

/-- A span is read from a document as from its value. -/
theorem spanOfDocument?_eq (h : d.Denotes (limit + 1) v) : spanOfDocument? d = Span.ofValue? v := by
  rw [Span.ofValue?, Value.bind_plain]
  refine eq_of_rel (Contents.rel_bind (Document.rel_contents h) ?_)
  intro c c' same
  refine Contents.rel_bind (same.fields? ["start", "length"]) ?_
  intro slots slots' found
  rcases found with _ | ⟨start | _, _ | ⟨length | _, _ | ⟨_, _⟩⟩⟩
  any_goals exact .none
  -- both fields are there
  refine rel_of_eq ?_
  rcases Document.value?_zero start with first | ⟨first, nested⟩
  · rcases Document.value?_zero length with second | ⟨second, nested⟩
    · simp [first, second, Span.ofContents?, Contents.fields?]
    · simp [first, second, Value.below?_eq_none nested]
  · simp [first, Value.below?_eq_none nested]

/-- A file is read from a document as from its value. -/
theorem ofDocument?_eq (h : d.Denotes nestingLimit v) : ofDocument? d = ofValue? v := by
  rw [ofValue?, Value.bind_plain]
  refine eq_of_rel (Contents.rel_bind (Document.rel_contents h) ?_)
  intro c c' same
  refine Contents.rel_bind (same.fields? ["file_name", "text", "statements", "span"]) ?_
  intro slots slots' found
  rcases found with
    _ | ⟨fileName | _, _ | ⟨text, _ | ⟨statements | _, _ | ⟨span | _, _ | ⟨_, _⟩⟩⟩⟩⟩
  any_goals exact .none
  refine rel_of_eq ?_
  have list : Document.value? fieldLimit _ = some _ := statements
  have place := spanOfDocument?_eq span
  rcases Document.value?_zero fileName with name | ⟨name, nested⟩
  · rcases text with @⟨t, w, text⟩ | _
    · cases t with
      | null =>
        cases text
        simp [name, list, place, textOfField?]
      | _ =>
        have given := textOfField?_some (Document.ne_null text (by simp))
        rcases Document.value?_zero text with inner | ⟨inner, nested⟩
        · simp [name, list, place, given, inner]
        · simp [name, given, inner, Value.string?_eq_none nested]
    · simp [name, list, place, textOfField?]
  · simp [name, Value.string?_eq_none nested]

/-- A file without floating-point numbers is read back from its value. It is also read from each
value in which fields stand in another order, fields that are null are left out and fields are
added, and from each text with such a value. -/
theorem ofValue?_of_edited (file : SourceFile)
    (notFloating : ∀ l ∈ file.literals, l.isFloating = false) :
    ofValue? file.toValue = some file ∧
      ∀ v, Edited file.toValue v → ofValue? v = some file ∧
        ∀ text, Value.ofText? text = some v → ofText? text = some file := by
  have all := (read notFloating).edited
  refine ⟨all _ (.refl _), ?_⟩
  intro v edit
  refine ⟨all v edit, ?_⟩
  intro text found
  obtain ⟨d, document, value⟩ := Option.bind_eq_some_iff.mp found
  refine (bind_of_some document).trans ?_
  rw [ofDocument?_eq value]
  exact all v edit

/-- `if ('c') return`, without an `else` and without a value. -/
def leaving : SourceFile :=
  ⟨"a.sash", none, [.ifThen (.literal (.char 'c') ⟨4, 3⟩) (.returns none ⟨9, 6⟩) ⟨0, 15⟩], ⟨0, 15⟩⟩

/-- The file as a value, without what is null, with a note that comes first in the file, and with
the kind at the end of `return`. -/
def leavingValue : Value :=
  .object [("note", .array [.null]), ("file_name", .string "a.sash"),
    ("statements", .array [kindValue "If"
      [("condition", Expression.toValue (.literal (.char 'c') ⟨4, 3⟩)),
        ("then_branch", .object [("span", Span.toValue ⟨9, 6⟩), ("kind", .string "Return")]),
        ("span", Span.toValue ⟨0, 15⟩)]]),
    ("span", Span.toValue ⟨0, 15⟩)]

theorem edited_leaving : Edited leaving.toValue leavingValue := by
  have inner : Edited (Statement.toValue (.returns none ⟨9, 6⟩))
      (.object [("span", Span.toValue ⟨9, 6⟩), ("kind", .string "Return")]) :=
    .object (.keep (.string _) (.drop (.keep (.refl _) .nil))) (List.forall_mem_nil _)
      (.swap _ _ [])
  refine .object (.keep (.string _) (.drop (.keep (.array (.cons ?_ .nil)) (.keep (.refl _) .nil))))
    ?_ (List.perm_append_singleton ("note", Value.array [.null]) _)
  · exact .object (.keep (.string _) (.keep (.refl _) (.keep inner (.drop (.keep (.refl _) .nil)))))
      (List.forall_mem_nil _) (.of_eq (List.append_nil _))
  · simp

theorem leaving_read_back :
    ofValue? leaving.toValue = some leaving ∧ Edited leaving.toValue leavingValue ∧
      ofValue? leavingValue = some leaving := by
  have notFloating : ∀ l ∈ leaving.literals, l.isFloating = false := by decide
  obtain ⟨plain, edited⟩ := ofValue?_of_edited leaving notFloating
  exact ⟨plain, edited_leaving, (edited _ edited_leaving).1⟩

end SourceFile

end Bindery
