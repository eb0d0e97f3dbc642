import Bindery.Proofs.Binding

/-!
Paths through bound programs.

A path goes through the code of one function, or of the program outside all functions. A
condition goes either way, whatever its value, and a loop is repeated any number of times; a
call goes on behind it. `Statement.Runs` lists the events of a path in their order. Since
every condition goes either way, every path is the beginning of one that ends, so paths that
end are all that has to be looked at.
-/

namespace Bindery.Bound

/-- What happens on a path. -/
inductive Event where
  /-- A symbol is read or stored. -/
  | use (s : SymbolId)
  /-- The declaration of a symbol is executed. -/
  | declare (s : SymbolId)
  /-- Control goes past a declaration that is a branch or the body of a loop. -/
  | skip (s : SymbolId)
deriving DecidableEq, Repr

/-- How a path leaves a statement. -/
inductive Outcome where
  | done | broke | continued | returned
deriving DecidableEq, Repr

mutual

/-- `x.Evaluates events`: the events of a path through the expression. -/
inductive Expression.Evaluates : Expression → List Event → Prop where
  | literal {value span} : Expression.Evaluates (.literal value span) []
  | reference {s ty span} : Expression.Evaluates (.reference s ty span) [.use s]
  | assignment {s value ty span events} : value.Evaluates events →
      Expression.Evaluates (.assignment s value ty span) (events ++ [.use s])
  | binary {op left right ty span first second} : op ≠ .concat → left.Evaluates first →
      right.Evaluates second →
      Expression.Evaluates (.binary op left right ty span) (first ++ second)
  | shortCircuit {op left right ty span events} : op = .logicalAnd ∨ op = .logicalOr →
      left.Evaluates events → Expression.Evaluates (.binary op left right ty span) events
  | concat {left right ty span first second} : right.Evaluates first → left.Evaluates second →
      Expression.Evaluates (.binary .concat left right ty span) (first ++ second)
  | unary {op operand ty span events} : operand.Evaluates events →
      Expression.Evaluates (.unary op operand ty span) events
  | parenthesized {inner span events} : inner.Evaluates events →
      Expression.Evaluates (.parenthesized inner span) events
  | call {target arguments ty span first second} : EvaluatesAll arguments first →
      target.Evaluates second →
      Expression.Evaluates (.call target arguments ty span) (first ++ second)
  | ternaryYes {condition yes no ty span first second} : condition.Evaluates first →
      yes.Evaluates second →
      Expression.Evaluates (.ternary condition yes no ty span) (first ++ second)
  | ternaryNo {condition yes no ty span first second} : condition.Evaluates first →
      no.Evaluates second →
      Expression.Evaluates (.ternary condition yes no ty span) (first ++ second)
  | error {span} : Expression.Evaluates (.error span) []

/-- Arguments are evaluated one after the other. -/
inductive EvaluatesAll : List Expression → List Event → Prop where
  | nil : EvaluatesAll [] []
  | cons {x rest first second} : x.Evaluates first → EvaluatesAll rest second →
      EvaluatesAll (x :: rest) (first ++ second)

end

def Outcome.repeats : Outcome → Bool
  | .done => true
  | .continued => true
  | .broke => false
  | .returned => false

mutual

/-- `s.Runs events outcome`: the events of a path through the statement, and how it leaves. A
function is made and not entered. -/
inductive Statement.Runs : Statement → List Event → Outcome → Prop where
  | function {f parameters body insertReturn bodySpan span} :
      Statement.Runs (.function f parameters body insertReturn bodySpan span) [.declare f] .done
  | declare {s value span events} : value.Evaluates events →
      Statement.Runs (.declare s value span) (events ++ [.declare s]) .done
  | ifThenTaken {condition yes span test events out} : condition.Evaluates test →
      yes.Runs events out → Statement.Runs (.ifThen condition yes span) (test ++ events) out
  | ifThenPassed {condition yes span test} : condition.Evaluates test →
      Statement.Runs (.ifThen condition yes span) (test ++ yes.declares.map .skip) .done
  | ifElseYes {condition yes no span test events out} : condition.Evaluates test →
      yes.Runs events out →
      Statement.Runs (.ifElse condition yes no span) (test ++ no.declares.map .skip ++ events) out
  | ifElseNo {condition yes no span test events out} : condition.Evaluates test →
      no.Runs events out →
      Statement.Runs (.ifElse condition yes no span) (test ++ yes.declares.map .skip ++ events) out
  | whilePassed {condition body span test} : condition.Evaluates test →
      Statement.Runs (.whileLoop condition body span) (test ++ body.declares.map .skip) .done
  | whileRepeated {condition body span test events out rest out'} : condition.Evaluates test →
      body.Runs events out → out.repeats = true →
      Statement.Runs (.whileLoop condition body span) rest out' →
      Statement.Runs (.whileLoop condition body span) (test ++ events ++ rest) out'
  | whileBroken {condition body span test events} : condition.Evaluates test →
      body.Runs events .broke →
      Statement.Runs (.whileLoop condition body span) (test ++ events) .done
  | whileReturned {condition body span test events} : condition.Evaluates test →
      body.Runs events .returned →
      Statement.Runs (.whileLoop condition body span) (test ++ events) .returned
  | doPassed {body condition span events out test} : body.Runs events out → out.repeats = true →
      condition.Evaluates test →
      Statement.Runs (.doWhile body condition span) (events ++ test) .done
  | doRepeated {body condition span events out test rest out'} : body.Runs events out →
      out.repeats = true → condition.Evaluates test →
      Statement.Runs (.doWhile body condition span) rest out' →
      Statement.Runs (.doWhile body condition span) (events ++ test ++ rest) out'
  | doBroken {body condition span events} : body.Runs events .broke →
      Statement.Runs (.doWhile body condition span) events .done
  | doReturned {body condition span events} : body.Runs events .returned →
      Statement.Runs (.doWhile body condition span) events .returned
  | block {statements span events out} : RunsList statements events out →
      Statement.Runs (.block statements span) events out
  | returnsUnit {span} : Statement.Runs (.returns none span) [] .returned
  | returns {value span events} : value.Evaluates events →
      Statement.Runs (.returns (some value) span) events .returned
  | breakLoop {span} : Statement.Runs (.breakLoop span) [] .broke
  | continueLoop {span} : Statement.Runs (.continueLoop span) [] .continued
  | print {value span events} : value.Evaluates events →
      Statement.Runs (.print value span) events .done
  | expression {value span events} : value.Evaluates events →
      Statement.Runs (.expression value span) events .done

/-- Statements are run one after the other until one of them leaves. -/
inductive RunsList : List Statement → List Event → Outcome → Prop where
  | nil : RunsList [] [] .done
  | next {s rest first second out} : s.Runs first .done → RunsList rest second out →
      RunsList (s :: rest) (first ++ second) out
  | stop {s rest events out} : s.Runs events out → out ≠ .done →
      RunsList (s :: rest) events out

end

end Bindery.Bound
