import Bindery.Span

/-!
Why code cannot be written or read.

Writing fails where a program outgrows a fixed-width field of the image, or where
a bound tree is not one that binding produces. Reading fails on bytes that no
image has.
-/

namespace Bindery.Machine

/-- What a number in the code says. -/
inductive Quantity where
  | jumpOffset | slotIndex | globalSlot | constantIndex | functionEntry | functionArity
  | captureCount | operandCount | globalCount
  | index | count | arity
deriving DecidableEq, Repr, Inhabited

def Quantity.name : Quantity → String
  | .jumpOffset => "jump offset"
  | .slotIndex => "slot index"
  | .globalSlot => "global slot"
  | .constantIndex => "constant index"
  | .functionEntry => "function entry"
  | .functionArity => "function arity"
  | .captureCount => "capture count"
  | .operandCount => "concat operand count"
  | .globalCount => "global count"
  | .index => "index"
  | .count => "count"
  | .arity => "arity"

/-- The field a number has to fit in. -/
inductive Width where
  | i16 | u16 | u8
deriving DecidableEq, Repr, Inhabited

def Width.name : Width → String
  | .i16 => "i16"
  | .u16 => "u16"
  | .u8 => "u8"

/-- Where a variable is kept. -/
inductive SlotKind where
  | global | localSlot | free
deriving DecidableEq, Repr, Inhabited

def SlotKind.name : SlotKind → String
  | .global => "global"
  | .localSlot => "local"
  | .free => "free"

/-- The two ways to leave a loop's body early. -/
inductive LoopExit where
  | breaks | continues
deriving DecidableEq, Repr, Inhabited

def LoopExit.keyword : LoopExit → String
  | .breaks => "break"
  | .continues => "continue"

inductive EmitError where
  | valueOutOfRange (what : Quantity) (value : Int) (width : Width)
  | patchOutOfBounds (offset size : Nat)
  | poolFull (limit : Nat)
  | stringTooLong (size limit : Nat)
  | unresolvedSymbol (name : String)
  | errorNode (span : Span)
  | slotOverflow (kind : SlotKind)
  | jumpOutsideLoop (exit : LoopExit) (span : Span)
deriving DecidableEq, Repr, Inhabited

def EmitError.message : EmitError → String
  | .valueOutOfRange what value width =>
    what.name ++ " " ++ toString value ++ " does not fit in " ++ width.name
  | .patchOutOfBounds offset size =>
    "cannot patch a 16-bit field at offset " ++ toString offset ++ ": buffer holds " ++
      toString size ++ " bytes"
  | .poolFull limit => "constant pool is full (" ++ toString limit ++ " entries)"
  | .stringTooLong size limit =>
    "string constant is " ++ toString size ++ " bytes long, the limit is " ++ toString limit
  | .unresolvedSymbol name => "symbol '" ++ name ++ "' has no global, local or free slot"
  | .errorNode span => "error node at " ++ span.text ++ " reached the emitter"
  | .slotOverflow kind => "too many " ++ kind.name ++ " slots"
  | .jumpOutsideLoop exit span =>
    "'" ++ exit.keyword ++ "' at " ++ span.text ++ " has no enclosing loop"

/-- A part of an image, as it is read. -/
inductive Part where
  | opcode | jumpOffset | index | count | captureCount | captureKind | captureIndex
  | constantCount | constantTag | int | double | stringLength | string | float | long
  | functionEntry | functionArity | globalCount
deriving DecidableEq, Repr, Inhabited

def Part.name : Part → String
  | .opcode => "opcode"
  | .jumpOffset => "jump offset"
  | .index => "index"
  | .count => "count"
  | .captureCount => "capture count"
  | .captureKind => "capture kind"
  | .captureIndex => "capture index"
  | .constantCount => "constant count"
  | .constantTag => "constant tag"
  | .int => "int constant"
  | .double => "double constant"
  | .stringLength => "string length"
  | .string => "string constant"
  | .float => "float constant"
  | .long => "long constant"
  | .functionEntry => "function entry"
  | .functionArity => "function arity"
  | .globalCount => "global count"

inductive DecodeError where
  | unknownOpcode (byte : UInt8) (offset : Nat)
  | truncated (part : Part) (offset : Nat)
  | unknownTag (tag : UInt8) (offset : Nat)
  | invalidText (offset : Nat)
  | duplicateConstant (offset : Nat)
deriving DecidableEq, Repr, Inhabited

def hexByte (byte : UInt8) : String :=
  String.ofList [Nat.digitChar (byte.toNat / 16), Nat.digitChar (byte.toNat % 16)]

def DecodeError.message : DecodeError → String
  | .unknownOpcode byte offset =>
    "unknown opcode 0x" ++ hexByte byte ++ " at offset " ++ toString offset
  | .truncated part offset =>
    "unexpected end of input reading " ++ part.name ++ " at offset " ++ toString offset
  | .unknownTag tag offset =>
    "unknown constant tag " ++ toString tag.toNat ++ " at offset " ++ toString offset
  | .invalidText offset =>
    "string constant at offset " ++ toString offset ++ " is not valid UTF-8"
  | .duplicateConstant offset =>
    "constant at offset " ++ toString offset ++ " repeats an earlier entry"

/-- What comes of a step that can fail: the state behind it, and its result or why it failed. -/
structure Outcome (σ α : Type) where
  state : σ
  result : Except EmitError α

namespace Outcome

variable {σ α β : Type}

/-- Goes on with the value of a check, or fails with the state as it is. -/
def check (state : σ) (value : Except EmitError α) (step : α → Outcome σ β) : Outcome σ β :=
  match value with
  | .ok a => step a
  | .error error => ⟨state, .error error⟩

/-- The step as a part of a longer one, which ends where this one fails. -/
def toExcept (o : Outcome σ α) : Except EmitError (α × σ) := o.result.map (·, o.state)

instance : Coe (Outcome σ Unit) (Except EmitError σ) := ⟨fun o => o.toExcept.map Prod.snd⟩

end Outcome

/-- A number as a signed 64-bit word. -/
def signed64 (n : Nat) : Int := (Int64.ofNat n).toInt

def toWord16 (what : Quantity) (value : Nat) : Except EmitError UInt16 :=
  if value < 65536 then .ok (.ofNat value)
  else .error (.valueOutOfRange what (signed64 value) .u16)

def toWord8 (what : Quantity) (value : Nat) : Except EmitError UInt8 :=
  if value < 256 then .ok (.ofNat value)
  else .error (.valueOutOfRange what (signed64 value) .u8)

/-- A distance as the operand of a jump. -/
def toDistance (distance : Int) : Except EmitError Int16 :=
  if -32768 ≤ distance ∧ distance ≤ 32767 then .ok (.ofInt distance)
  else .error (.valueOutOfRange .jumpOffset distance .i16)

end Bindery.Machine
