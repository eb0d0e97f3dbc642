import Bindery.Emit.Expression
import Bindery.Machine.Image

/-!
Code of statements and of programs.

The code of a statement leaves on the stack what it declares and nothing else. A
function's code stands where it is declared, behind a jump over it; its address is
absolute, so every statement is told where it starts. `break` and `continue` remove
the locals of the loop's body before they leave, and are told how many locals lie
below it.
-/

namespace Bindery.Bound

open Emit (Code Fragment jumpSize)
open Machine (EmitError Image Instruction LoopExit toDistance toWord16 toWord8)

/-- The code of a declared function around the code of its body: a jump over the body,
and then the function as a value. -/
def wrapFunction (start arity : Nat) (captures : List Machine.Capture) (body : Fragment) :
    Emit Fragment := do
  let skip ← toDistance (Fragment.size body)
  let entry ← toWord16 .functionEntry (start + jumpSize)
  let arity ← toWord8 .functionArity arity
  let value ← Emit.constant (.function entry arity)
  let closure ← Emit.closure captures
  return .instruction (.goto skip) :: (body ++ Code.toFragment (value :: closure))

/-- The code of `break` and `continue`. -/
def leaveLoop (loop : Option Nat) (exit : LoopExit) (span : Span) : Emit Fragment := do
  match loop with
  | none => throw (.jumpOutsideLoop exit span)
  | some base => return Code.toFragment (← Emit.discardFrom base) ++ [.exit exit]

mutual

/-- The code of a statement that starts at offset `start`. `loop` is the number of locals
below the body of the enclosing loop. -/
def Statement.emit (symbols : SymbolTable) (loop : Option Nat) (start : Nat) :
    Statement → Emit Fragment
  | .function symbol parameters body insertReturn _ _ => do
    let store ← Emit.declare symbol
    Emit.pushFrame
    Emit.pushBlock
    parameters.forM Emit.putLocal
    Emit.pushBlock
    let code ← emitList symbols none (start + jumpSize) [] body
    let discard ← Emit.popBlock
    let ending := if insertReturn then discard ++ [.pushTrue, .ret]
      else discard
    let _ ← Emit.popBlock
    let captures ← Emit.popFrame
    let value ← wrapFunction start parameters.length captures (code ++ ending.toFragment)
    return value ++ store.toFragment
  | .declare symbol value _ => do
    let value ← value.emit symbols
    let store ← Emit.declare symbol
    return Code.toFragment (value ++ store)
  | .ifThen condition yes _ => do
    let condition ← condition.emit symbols
    let yes ← yes.emit symbols loop (start + condition.size + jumpSize)
    let skip ← toDistance (Fragment.size yes)
    return condition.toFragment ++ .instruction (.gotoDrop false skip) :: yes
  | .ifElse condition yes no _ => do
    let condition ← condition.emit symbols
    let start := start + condition.size + jumpSize
    let yes ← yes.emit symbols loop start
    let yesSize := Fragment.size yes + jumpSize
    let skip ← toDistance yesSize
    let no ← no.emit symbols loop (start + yesSize)
    let leave ← toDistance (Fragment.size no)
    return condition.toFragment ++ .instruction (.gotoDrop false skip) ::
      (yes ++ .instruction (.goto leave) :: no)
  | .whileLoop condition body _ => do
    let base ← Emit.localCount
    let condition ← condition.emit symbols
    let body ← body.emit symbols (some base) (start + condition.size + jumpSize)
    Fragment.whileLoop condition body
  | .doWhile body condition _ => do
    let base ← Emit.localCount
    let body ← body.emit symbols (some base) start
    let condition ← condition.emit symbols
    Fragment.doWhile body condition
  | .block statements _ => do
    Emit.pushBlock
    let code ← emitList symbols loop start [] statements
    let discard ← Emit.popBlock
    return code ++ discard.toFragment
  | .returns value _ => do
    let value ← match value with
      | some value => value.emit symbols
      | none => pure [.pushTrue]
    return Code.toFragment (value ++ [.ret])
  | .breakLoop span => leaveLoop loop .breaks span
  | .continueLoop span => leaveLoop loop .continues span
  | .print value _ => do
    let value ← value.emit symbols
    return Code.toFragment (value ++ [.print])
  | .expression value _ => do
    let value ← value.emit symbols
    return Code.toFragment (value ++ [.pop])

/-- The code of statements in order, behind the code in `written`, which is kept in
reverse. -/
def emitList (symbols : SymbolTable) (loop : Option Nat) (start : Nat) (written : Fragment) :
    List Statement → Emit Fragment
  | [] => return written.reverse
  | s :: rest => do
    let code ← s.emit symbols loop start
    emitList symbols loop (start + Fragment.size code) (code.reverseAux written) rest

end

namespace Program

/-- The instructions of a program, and the constants and variables that they name. -/
def emitCode (p : Program) : Except EmitError (Code × Emission) := do
  let (fragment, emission) ← (emitList p.symbols none 0 [] p.statements).run .empty
  return (Fragment.toCode fragment ++ [.halt], emission)

def emit (p : Program) : Except EmitError Image := do
  let (code, emission) ← p.emitCode
  let globalCount ← toWord16 .globalCount emission.globals.size
  return ⟨emission.constants, globalCount, Machine.encodeAll code⟩

end Program

end Bindery.Bound
