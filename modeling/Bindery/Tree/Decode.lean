import Bindery.Json.Record
import Bindery.Tree.Kind

/-!
Reading syntax trees from JSON.

Every node is a record, so its fields stand in any order, unknown fields are passed
over and a field that may be missing may also be null. The kind of a node is its
name; inside a statement it may also be the position of that name.

Only the file itself and its span are read straight from the text: their unknown
fields are not looked into. All statements are values.
-/

namespace Bindery

open Json (Contents Document Value present)

def Span.ofContents? (contents : Contents Value) : Option Span := do
  match ← contents.fields? ["start", "length"] with
  | [some start, some length] =>
    let start ← start.below? UInt32.size
    let length ← length.below? UInt32.size
    return ⟨.ofNat start, .ofNat length⟩
  | _ => none

/-- The contents without the knowledge of what they are part of. -/
def Json.Contents.plain {v : Value} : Contents v.Part → Contents Value
  | .named fields => .named (fields.map fun (name, w) => (name, w.1))
  | .listed items => .listed (items.map (·.1))

def Span.ofValue? (v : Value) : Option Span := do
  Span.ofContents? (← v.contents?).plain

def Identifier.ofContents? (contents : Contents Value) : Option Identifier := do
  match ← contents.fields? ["name", "span"] with
  | [some name, some span] => return ⟨← name.string?, ← Span.ofValue? span⟩
  | _ => none

def Identifier.ofValue? (v : Value) : Option Identifier := do
  Identifier.ofContents? (← v.contents?).plain

def Identifier.ofField? : Option Value → Option (Option Identifier)
  | none => some none
  | some .null => some none
  | some v => (Identifier.ofValue? v).map some

def Parameter.ofValue? (v : Value) : Option Parameter := do
  match ← (← v.contents?).plain.fields? ["name", "type_annotation", "span"] with
  | [some name, some typeName, some span] =>
    return ⟨← Identifier.ofValue? name, ← Identifier.ofValue? typeName, ← Span.ofValue? span⟩
  | _ => none

/-- The kind that a tag names, by its name or, where that is allowed, by its position. -/
def kindOf? {κ : Type} (all : List κ) (name : κ → String) (byPosition : Bool) :
    Value → Option κ
  | .string s => all.find? (name · == s)
  | .number (.integer n) => if byPosition ∧ 0 ≤ n then all[n.toNat]? else none
  | _ => none

namespace Literal

/-- A whole number between two bounds. -/
def within? (low high : Int) (v : Value) : Option Int := do
  let n ← v.integer?
  if low ≤ n ∧ n ≤ high then some n else none

/-- The bits of a number in a format. An integer is rounded once; a double is a double
first. -/
def floating? (f : Floating.Format) : Value → Option Nat
  | .number (.integer n) => some (f.withSign (n < 0) (f.nearest n.natAbs 1))
  | .number (.double bits) => some (Floating.double.convert f bits.toNat)
  | _ => none

def ofContent? (v : Value) : LiteralKind → Option Literal
  | .boolean => v.bool?.map .boolean
  | .int => (within? Int32.minValue.toInt Int32.maxValue.toInt v).map fun n => .int (.ofInt n)
  | .long => (within? Int64.minValue.toInt Int64.maxValue.toInt v).map fun n => .long (.ofInt n)
  | .float => (floating? Floating.single v).map fun bits => .float (.ofNat bits)
  | .double => (floating? Floating.double v).map fun bits => .double (.ofNat bits)
  | .string => v.string?.map .string
  | .char => do
    match (← v.string?).toList with
    | [c] => return .char c
    | _ => none

/-- The kind of a literal with given contents. In an array it is a tag, as that of a node;
in an object it is one of several words. -/
def kind? (contents : Contents Value) (tag : Value) : Option LiteralKind :=
  match contents with
  | .listed _ => kindOf? LiteralKind.all LiteralKind.name true tag
  | .named _ => tag.word?.bind LiteralKind.ofName?

def ofValue? (v : Value) : Option Literal := do
  let contents := (← v.contents?).plain
  match ← contents.fields? ["type", "value"] with
  | [some tag, some content] => ofContent? content (← kind? contents tag)
  | _ => none

end Literal

def Expression.ofValue? (v : Value) : Option Expression := do
  let (tag, contents) ← (← v.contents?).tagged? "kind"
  match ← kindOf? ExpressionKind.all ExpressionKind.name true tag.1 with
  | .literal =>
    match ← contents.fields? ["value", "span"] with
    | [some value, some span] =>
      return .literal (← Literal.ofValue? value.1) (← Span.ofValue? span.1)
    | _ => none
  | .reference => return .reference (← Identifier.ofContents? contents.plain)
  | .assignment =>
    match ← contents.fields? ["target", "value", "span"] with
    | [some target, some value, some span] =>
      return .assignment (← Expression.ofValue? target.1) (← Expression.ofValue? value.1)
        (← Span.ofValue? span.1)
    | _ => none
  | .binary =>
    match ← contents.fields? ["left", "operator", "operator_span", "right", "span"] with
    | [some left, some operator, some operatorSpan, some right, some span] =>
      return .binary (← Expression.ofValue? left.1)
        (← BinaryOperator.ofToken? (← operator.1.word?)) (← Span.ofValue? operatorSpan.1)
        (← Expression.ofValue? right.1) (← Span.ofValue? span.1)
    | _ => none
  | .unary =>
    match ← contents.fields? ["operator", "operator_span", "operand", "span"] with
    | [some operator, some operatorSpan, some operand, some span] =>
      return .unary (← UnaryOperator.ofToken? (← operator.1.word?))
        (← Span.ofValue? operatorSpan.1) (← Expression.ofValue? operand.1)
        (← Span.ofValue? span.1)
    | _ => none
  | .parenthesized =>
    match ← contents.fields? ["expression", "span"] with
    | [some inner, some span] =>
      return .parenthesized (← Expression.ofValue? inner.1) (← Span.ofValue? span.1)
    | _ => none
  | .call =>
    match ← contents.fields? ["target", "arguments", "arguments_span", "span"] with
    | [some target, some arguments, some argumentsSpan, some span] =>
      let items ← arguments.1.items?
      return .call (← Expression.ofValue? target.1)
        (← items.mapM fun item => Expression.ofValue? item.1)
        (← Span.ofValue? argumentsSpan.1) (← Span.ofValue? span.1)
    | _ => none
  | .ternary =>
    match ← contents.fields? ["condition", "then_expression", "else_expression", "span"] with
    | [some condition, some yes, some no, some span] =>
      return .ternary (← Expression.ofValue? condition.1) (← Expression.ofValue? yes.1)
        (← Expression.ofValue? no.1) (← Span.ofValue? span.1)
    | _ => none
termination_by sizeOf v
decreasing_by
  all_goals first
    | exact Value.Part.sizeOf_lt _
    | exact Nat.lt_trans (Value.Part.sizeOf_lt _) (Value.Part.sizeOf_lt _)

def Expression.ofField? : Option Value → Option (Option Expression)
  | none => some none
  | some .null => some none
  | some v => (Expression.ofValue? v).map some

/-- Reads a statement; `nested` says whether it stands inside another one. -/
def Statement.ofValue? (nested : Bool) (v : Value) : Option Statement := do
  let (tag, contents) ← (← v.contents?).tagged? "kind"
  match ← kindOf? StatementKind.all StatementKind.name nested tag.1 with
  | .function =>
    match ← contents.fields? ["name", "parameters", "return_type", "body", "span"] with
    | [some name, some parameters, result, some body, some span] =>
      let parameters ← (← parameters.1.items?).mapM fun item => Parameter.ofValue? item.1
      match ← (← body.1.contents?).fields? ["statements", "span"] with
      | [some statements, some bodySpan] =>
        let items ← statements.1.items?
        return .function (← Identifier.ofValue? name.1) parameters
          (← Identifier.ofField? (result.map (·.1)))
          (← items.mapM fun item => Statement.ofValue? true item.1)
          (← Span.ofValue? bodySpan.1) (← Span.ofValue? span.1)
      | _ => none
    | _ => none
  | .declare =>
    match ← contents.fields? ["name", "type_annotation", "read_only", "initializer", "span"] with
    | [some name, typeName, some readOnly, some value, some span] =>
      return .declare (← Identifier.ofValue? name.1)
        (← Identifier.ofField? (typeName.map (·.1))) (← readOnly.1.bool?)
        (← Expression.ofValue? value.1) (← Span.ofValue? span.1)
    | _ => none
  | .ifElse =>
    match ← contents.fields? ["condition", "then_branch", "else_branch", "span"] with
    | [some condition, some yes, no, some span] =>
      let condition ← Expression.ofValue? condition.1
      let yes ← Statement.ofValue? true yes.1
      let span ← Span.ofValue? span.1
      match present no with
      | none => return .ifThen condition yes span
      | some no => return .ifElse condition yes (← Statement.ofValue? true no.1) span
    | _ => none
  | .whileLoop =>
    match ← contents.fields? ["condition", "body", "span"] with
    | [some condition, some body, some span] =>
      return .whileLoop (← Expression.ofValue? condition.1) (← Statement.ofValue? true body.1)
        (← Span.ofValue? span.1)
    | _ => none
  | .doWhile =>
    match ← contents.fields? ["body", "condition", "span"] with
    | [some body, some condition, some span] =>
      return .doWhile (← Statement.ofValue? true body.1) (← Expression.ofValue? condition.1)
        (← Span.ofValue? span.1)
    | _ => none
  | .block =>
    match ← contents.fields? ["statements", "span"] with
    | [some statements, some span] =>
      let items ← statements.1.items?
      return .block (← items.mapM fun item => Statement.ofValue? true item.1)
        (← Span.ofValue? span.1)
    | _ => none
  | .returns =>
    match ← contents.fields? ["value", "span"] with
    | [value, some span] =>
      return .returns (← Expression.ofField? (value.map (·.1))) (← Span.ofValue? span.1)
    | _ => none
  | .breakLoop => return .breakLoop (← Span.ofContents? contents.plain)
  | .continueLoop => return .continueLoop (← Span.ofContents? contents.plain)
  | .print =>
    match ← contents.fields? ["expression", "span"] with
    | [some value, some span] =>
      return .print (← Expression.ofValue? value.1) (← Span.ofValue? span.1)
    | _ => none
  | .expression =>
    match ← contents.fields? ["expression", "span"] with
    | [some value, some span] =>
      return .expression (← Expression.ofValue? value.1) (← Span.ofValue? span.1)
    | _ => none
termination_by sizeOf v
decreasing_by
  all_goals first
    | exact Value.Part.sizeOf_lt _
    | exact Nat.lt_trans (Value.Part.sizeOf_lt _) (Value.Part.sizeOf_lt _)
    | exact Nat.lt_trans (Value.Part.sizeOf_lt _)
        (Nat.lt_trans (Value.Part.sizeOf_lt _) (Value.Part.sizeOf_lt _))

namespace SourceFile

/-- How many arrays and objects may stand inside each other within a field of the file. -/
def fieldLimit : Nat := Json.nestingLimit - 1

/-- A span that is read straight from the text. -/
def spanOfDocument? (d : Document) : Option Span := do
  match ← (← d.contents?).fields? ["start", "length"] with
  | [some start, some length] =>
    Span.ofContents? (.listed [← start.value? 0, ← length.value? 0])
  | _ => none

def ofDocument? (d : Document) : Option SourceFile := do
  match ← (← d.contents?).fields? ["file_name", "text", "statements", "span"] with
  | [some fileName, text, some statements, some span] =>
    let fileName ← (← fileName.value? 0).string?
    let text ← match text with
      | none => some none
      | some .null => some none
      | some text => ((text.value? 0).bind Value.string?).map some
    let items ← (← statements.value? fieldLimit).items?
    let statements ← items.mapM fun item => Statement.ofValue? false item.1
    return ⟨fileName, text, statements, ← spanOfDocument? span⟩
  | _ => none

def ofText? (text : String) : Option SourceFile := do
  ofDocument? (← Document.ofText? text)

end SourceFile

end Bindery
