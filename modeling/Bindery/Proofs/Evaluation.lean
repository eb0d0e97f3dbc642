import Bindery.Proofs.Execution
import Bindery.Proofs.Paths

/-!
What a bound program means.

`Expression.evaluate` computes the value of an expression and what is stored on the way;
where symbols have their values is left to a `Memory`. `&&` and `||` evaluate their right
operand only if they have to, a conditional expression evaluates one of its branches, and
operands are evaluated from left to right, except those of a concatenation. The value of a
call is not known here, nor is that of an expression without a meaning.
`Statement.Executes` says how a statement changes the values of symbols, what it prints and
how it is left.
-/

namespace Bindery

open Machine (Values)

variable {V : Type}

/-- The value of a literal. A character is its code point. -/
def Literal.evaluate (ops : Values V) : Literal → V
  | .boolean value => ops.boolean value
  | .int value => ops.constant (.int value)
  | .long value => ops.constant (.long value)
  | .float bits => ops.constant (.float bits)
  | .double bits => ops.constant (.double bits)
  | .string value => ops.constant (.string value)
  | .char value => ops.constant (.int (.ofNat value.toNat))

def BinaryOperation.evaluate (ops : Values V) : BinaryOperation → V → V → V
  | .addition, a, b => ops.add a b
  | .subtraction, a, b => ops.sub a b
  | .multiplication, a, b => ops.mul a b
  | .division, a, b => ops.div a b
  | .concat, a, b => ops.concat a b
  | .equals, a, b => ops.equals a b
  | .notEquals, a, b => ops.not (ops.equals a b)
  | .greaterThan, a, b => ops.greater a b
  | .greaterThanEqual, a, b => ops.not (ops.less a b)
  | .lessThan, a, b => ops.less a b
  | .lessThanEqual, a, b => ops.not (ops.greater a b)
  | .logicalAnd, a, b => if ops.isTrue a then b else a
  | .logicalOr, a, b => if ops.isTrue a then a else b

def UnaryOperation.evaluate (ops : Values V) : UnaryOperation → V → V
  | .identity, a => a
  | .negation, a => ops.neg a
  | .logicalNegation, a => ops.not a

namespace Bound

/-- How the values of symbols are read and written. -/
structure Memory (σ V : Type) where
  read : σ → SymbolId → Option V
  write : σ → SymbolId → V → Option σ

def Expression.evaluate {σ : Type} (ops : Values V) (memory : Memory σ V) :
    Expression → σ → Option (V × σ)
  | .literal value _, st => some (value.evaluate ops, st)
  | .reference s .., st => (memory.read st s).map fun v => (v, st)
  | .assignment s value .., st => do
    let (v, st) ← value.evaluate ops memory st
    let st ← memory.write st s v
    return (v, st)
  | .binary op left right .., st =>
    match op with
    | .logicalAnd => do
      let (v, st) ← left.evaluate ops memory st
      if ops.isTrue v then right.evaluate ops memory st else return (v, st)
    | .logicalOr => do
      let (v, st) ← left.evaluate ops memory st
      if ops.isTrue v then return (v, st) else right.evaluate ops memory st
    | .concat => do
      let (b, st) ← right.evaluate ops memory st
      let (a, st) ← left.evaluate ops memory st
      return (ops.concat a b, st)
    | op => do
      let (a, st) ← left.evaluate ops memory st
      let (b, st) ← right.evaluate ops memory st
      return (op.evaluate ops a b, st)
  | .unary op operand .., st => do
    let (v, st) ← operand.evaluate ops memory st
    return (op.evaluate ops v, st)
  | .parenthesized inner _, st => inner.evaluate ops memory st
  | .ternary condition yes no .., st => do
    let (v, st) ← condition.evaluate ops memory st
    if ops.isTrue v then yes.evaluate ops memory st else no.evaluate ops memory st
  | .call .., _ => none
  | .error _, _ => none

/-! ### Statements -/

abbrev Store (V : Type) := SymbolId → Option V

def Memory.symbols : Memory (Store V) V where
  read st s := st s
  write st s v := some (Function.update st s (some v))

mutual

/-- `s.Executes ops st out st' printed`: the statement takes the values `st` to `st'`, prints
`printed` and is left by `out`. A function declaration has no rule. -/
inductive Statement.Executes (ops : Values V) :
    Statement → Store V → Outcome → Store V → List V → Prop where
  | declare {s value span st v st'} : value.evaluate ops .symbols st = some (v, st') →
      Statement.Executes ops (.declare s value span) st .done (Function.update st' s (some v)) []
  | ifThenTaken {condition yes span st c st₁ out st' printed} :
      condition.evaluate ops .symbols st = some (c, st₁) → ops.isTrue c = true →
      yes.Executes ops st₁ out st' printed →
      Statement.Executes ops (.ifThen condition yes span) st out st' printed
  | ifThenPassed {condition yes span st c st'} :
      condition.evaluate ops .symbols st = some (c, st') → ops.isTrue c = false →
      Statement.Executes ops (.ifThen condition yes span) st .done st' []
  | ifElseYes {condition yes no span st c st₁ out st' printed} :
      condition.evaluate ops .symbols st = some (c, st₁) → ops.isTrue c = true →
      yes.Executes ops st₁ out st' printed →
      Statement.Executes ops (.ifElse condition yes no span) st out st' printed
  | ifElseNo {condition yes no span st c st₁ out st' printed} :
      condition.evaluate ops .symbols st = some (c, st₁) → ops.isTrue c = false →
      no.Executes ops st₁ out st' printed →
      Statement.Executes ops (.ifElse condition yes no span) st out st' printed
  | whilePassed {condition body span st c st'} :
      condition.evaluate ops .symbols st = some (c, st') → ops.isTrue c = false →
      Statement.Executes ops (.whileLoop condition body span) st .done st' []
  | whileRepeated {condition body span st c st₁ out st₂ printed out' st' rest} :
      condition.evaluate ops .symbols st = some (c, st₁) → ops.isTrue c = true →
      body.Executes ops st₁ out st₂ printed → out.repeats = true →
      Statement.Executes ops (.whileLoop condition body span) st₂ out' st' rest →
      Statement.Executes ops (.whileLoop condition body span) st out' st' (printed ++ rest)
  | whileBroken {condition body span st c st₁ st' printed} :
      condition.evaluate ops .symbols st = some (c, st₁) → ops.isTrue c = true →
      body.Executes ops st₁ .broke st' printed →
      Statement.Executes ops (.whileLoop condition body span) st .done st' printed
  | whileReturned {condition body span st c st₁ st' printed} :
      condition.evaluate ops .symbols st = some (c, st₁) → ops.isTrue c = true →
      body.Executes ops st₁ .returned st' printed →
      Statement.Executes ops (.whileLoop condition body span) st .returned st' printed
  | doPassed {body condition span st out st₁ printed c st'} :
      body.Executes ops st out st₁ printed → out.repeats = true →
      condition.evaluate ops .symbols st₁ = some (c, st') → ops.isTrue c = false →
      Statement.Executes ops (.doWhile body condition span) st .done st' printed
  | doRepeated {body condition span st out st₁ printed c st₂ out' st' rest} :
      body.Executes ops st out st₁ printed → out.repeats = true →
      condition.evaluate ops .symbols st₁ = some (c, st₂) → ops.isTrue c = true →
      Statement.Executes ops (.doWhile body condition span) st₂ out' st' rest →
      Statement.Executes ops (.doWhile body condition span) st out' st' (printed ++ rest)
  | doBroken {body condition span st st' printed} : body.Executes ops st .broke st' printed →
      Statement.Executes ops (.doWhile body condition span) st .done st' printed
  | doReturned {body condition span st st' printed} :
      body.Executes ops st .returned st' printed →
      Statement.Executes ops (.doWhile body condition span) st .returned st' printed
  | block {statements span st out st' printed} : ExecutesList ops statements st out st' printed →
      Statement.Executes ops (.block statements span) st out st' printed
  | returnsUnit {span st} : Statement.Executes ops (.returns none span) st .returned st []
  | returns {value span st v st'} : value.evaluate ops .symbols st = some (v, st') →
      Statement.Executes ops (.returns (some value) span) st .returned st' []
  | breakLoop {span st} : Statement.Executes ops (.breakLoop span) st .broke st []
  | continueLoop {span st} : Statement.Executes ops (.continueLoop span) st .continued st []
  | print {value span st v st'} : value.evaluate ops .symbols st = some (v, st') →
      Statement.Executes ops (.print value span) st .done st' [v]
  | expression {value span st v st'} : value.evaluate ops .symbols st = some (v, st') →
      Statement.Executes ops (.expression value span) st .done st' []

/-- Statements are executed one after the other until one of them leaves. -/
inductive ExecutesList (ops : Values V) :
    List Statement → Store V → Outcome → Store V → List V → Prop where
  | nil {st} : ExecutesList ops [] st .done st []
  | next {s rest st st₁ printed out st' more} : s.Executes ops st .done st₁ printed →
      ExecutesList ops rest st₁ out st' more →
      ExecutesList ops (s :: rest) st out st' (printed ++ more)
  | stop {s rest st out st' printed} : s.Executes ops st out st' printed → out ≠ .done →
      ExecutesList ops (s :: rest) st out st' printed

end

end Bound

end Bindery
