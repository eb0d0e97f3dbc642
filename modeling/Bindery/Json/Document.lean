import Bindery.Json.Value

/-!
JSON text.

Text is cut into tokens by a machine that looks at one character at a time, and the
tokens are put together by a machine that keeps the open arrays and objects on a
stack. The result is a `Document`, which is the text's structure with numbers and
strings as they are written. What they mean is looked at only in the parts of a
document that are used: there, numbers have to be in range, escapes have to form
characters, and nesting has a limit. `Document.value?` is the value of such a part.
-/

namespace Bindery.Json

/-- A piece of a string: a character, or a 16-bit unit that is given by its number. -/
inductive Piece where
  | char (c : Char)
  | unit (u : UInt16)
deriving DecidableEq, Repr, Inhabited

inductive Token where
  | openBrace | closeBrace | openBracket | closeBracket | comma | colon
  | null
  | bool (b : Bool)
  | number (n : Numeral)
  | string (s : List Piece)
deriving DecidableEq, Repr, Inhabited

/-! ### Tokens -/

/-- What the character before belongs to. Texts under way are kept in reverse. -/
inductive Scan where
  | between
  | word (letters : List Char)
  | number (text : List Char)
  | string (pieces : List Piece)
  | escape (pieces : List Piece)
  | unit (pieces : List Piece) (count value : Nat)
deriving Inhabited

/-- The tokens so far, the last one first. -/
structure Scanner where
  tokens : List Token
  scan : Scan

namespace Scanner

def isBlank (c : Char) : Bool := c = ' ' || c = '\t' || c = '\n' || c = '\r'

def isNumeric (c : Char) : Bool :=
  c.isDigit || c = '-' || c = '+' || c = '.' || c = 'e' || c = 'E'

def hexDigit? (c : Char) : Option Nat :=
  if '0' ≤ c ∧ c ≤ '9' then some (c.toNat - '0'.toNat)
  else if 'a' ≤ c ∧ c ≤ 'f' then some (c.toNat - 'a'.toNat + 10)
  else if 'A' ≤ c ∧ c ≤ 'F' then some (c.toNat - 'A'.toNat + 10)
  else none

/-- What a backslash and a character stand for. -/
def escaped? : Char → Option Char
  | '"' => some '"'
  | '\\' => some '\\'
  | '/' => some '/'
  | 'b' => some '\x08'
  | 'f' => some '\x0c'
  | 'n' => some '\n'
  | 'r' => some '\r'
  | 't' => some '\t'
  | _ => none

def word? : List Char → Option Token
  | ['n', 'u', 'l', 'l'] => some .null
  | ['t', 'r', 'u', 'e'] => some (.bool true)
  | ['f', 'a', 'l', 's', 'e'] => some (.bool false)
  | _ => none

def mark? : Char → Option Token
  | '\x7b' => some .openBrace
  | '\x7d' => some .closeBrace
  | '[' => some .openBracket
  | ']' => some .closeBracket
  | ',' => some .comma
  | ':' => some .colon
  | _ => none

/-- Ends the word or number under way. -/
def settle? (s : Scanner) : Option Scanner :=
  match s.scan with
  | .between => some s
  | .word letters => (word? letters.reverse).map fun token => ⟨token :: s.tokens, .between⟩
  | .number text =>
    (Numeral.ofChars? text.reverse).map fun n => ⟨.number n :: s.tokens, .between⟩
  | _ => none

/-- Takes a character that starts something new. -/
def start? (s : Scanner) (c : Char) : Option Scanner :=
  if isBlank c then some { s with scan := .between }
  else if c = '"' then some { s with scan := .string [] }
  else if c.isLower then some { s with scan := .word [c] }
  else if c.isDigit || c = '-' then some { s with scan := .number [c] }
  else (mark? c).map fun token => ⟨token :: s.tokens, .between⟩

def step? (s : Scanner) (c : Char) : Option Scanner :=
  match s.scan with
  | .between => s.start? c
  | .word letters =>
    if c.isLower then some { s with scan := .word (c :: letters) }
    else s.settle?.bind (·.start? c)
  | .number text =>
    if isNumeric c then some { s with scan := .number (c :: text) }
    else s.settle?.bind (·.start? c)
  | .string pieces =>
    if c = '"' then some ⟨.string pieces.reverse :: s.tokens, .between⟩
    else if c = '\\' then some { s with scan := .escape pieces }
    else if c.toNat < 32 then none
    else some { s with scan := .string (.char c :: pieces) }
  | .escape pieces =>
    if c = 'u' then some { s with scan := .unit pieces 0 0 }
    else (escaped? c).map fun c => { s with scan := .string (.char c :: pieces) }
  | .unit pieces count value =>
    (hexDigit? c).map fun digit =>
      let value := 16 * value + digit
      if count = 3 then { s with scan := .string (.unit (.ofNat value) :: pieces) }
      else { s with scan := .unit pieces (count + 1) value }

end Scanner

def tokens? (text : String) : Option (List Token) := do
  let s ← text.toList.foldlM Scanner.step? ⟨[], .between⟩
  let s ← s.settle?
  return s.tokens.reverse

/-! ### Documents -/

/-- A JSON text by structure. -/
inductive Document where
  | null
  | bool (b : Bool)
  | number (n : Numeral)
  | string (s : List Piece)
  | array (items : List Document)
  | object (fields : List (List Piece × Document))
deriving Repr, Inhabited

/-- An array or object under way, its contents in reverse. -/
inductive Open where
  | array (items : List Document)
  | object (fields : List (List Piece × Document))
  /-- An object whose next value belongs to `name`. -/
  | field (fields : List (List Piece × Document)) (name : List Piece)
deriving Inhabited

/-- What may come next. -/
inductive Expect where
  | value
  | valueOrClose
  | name
  | nameOrClose
  | colon
  | commaOrClose
  | nothing (whole : Document)
deriving Inhabited

/-- The open arrays and objects, the innermost first. -/
structure Assembly where
  stack : List Open
  expect : Expect

namespace Assembly

def finish (stack : List Open) (d : Document) : Option Assembly :=
  match stack with
  | [] => some ⟨[], .nothing d⟩
  | .array items :: outer => some ⟨.array (d :: items) :: outer, .commaOrClose⟩
  | .field fields name :: outer => some ⟨.object ((name, d) :: fields) :: outer, .commaOrClose⟩
  | .object _ :: _ => none

def closeArray : List Open → Option Assembly
  | .array items :: outer => finish outer (.array items.reverse)
  | _ => none

def closeObject : List Open → Option Assembly
  | .object fields :: outer => finish outer (.object fields.reverse)
  | _ => none

def startValue (stack : List Open) : Token → Option Assembly
  | .null => finish stack .null
  | .bool b => finish stack (.bool b)
  | .number n => finish stack (.number n)
  | .string s => finish stack (.string s)
  | .openBracket => some ⟨.array [] :: stack, .valueOrClose⟩
  | .openBrace => some ⟨.object [] :: stack, .nameOrClose⟩
  | _ => none

def startField (stack : List Open) : Token → Option Assembly
  | .string name =>
    match stack with
    | .object fields :: outer => some ⟨.field fields name :: outer, .colon⟩
    | _ => none
  | _ => none

def step? (a : Assembly) (token : Token) : Option Assembly :=
  match a.expect with
  | .value => startValue a.stack token
  | .valueOrClose =>
    if token = .closeBracket then closeArray a.stack else startValue a.stack token
  | .name => startField a.stack token
  | .nameOrClose =>
    if token = .closeBrace then closeObject a.stack else startField a.stack token
  | .colon => if token = .colon then some { a with expect := .value } else none
  | .commaOrClose =>
    match token, a.stack with
    | .comma, .array _ :: _ => some { a with expect := .value }
    | .comma, .object _ :: _ => some { a with expect := .name }
    | .closeBracket, stack => closeArray stack
    | .closeBrace, stack => closeObject stack
    | _, _ => none
  | .nothing _ => none

end Assembly

def Document.ofText? (text : String) : Option Document := do
  let tokens ← tokens? text
  let a ← tokens.foldlM Assembly.step? ⟨[], .value⟩
  match a.expect with
  | .nothing whole => some whole
  | _ => none

/-! ### Values of documents -/

/-- Whether a unit is the first half of a pair. -/
def isHighHalf (u : UInt16) : Bool := 0xD800 ≤ u && u < 0xDC00

/-- Whether a unit is the second half of a pair. -/
def isLowHalf (u : UInt16) : Bool := 0xDC00 ≤ u && u < 0xE000

def pairChar (high low : UInt16) : Char :=
  Char.ofNat (0x10000 + (high.toNat - 0xD800) * 0x400 + (low.toNat - 0xDC00))

/-- The characters of a string, behind those in `done`, which are kept in reverse. Half a
pair is no character. -/
def charactersFrom? (done : List Char) : List Piece → Option (List Char)
  | [] => some done.reverse
  | .char c :: rest => charactersFrom? (c :: done) rest
  | .unit high :: .unit low :: rest =>
    if isHighHalf high then
      if isLowHalf low then charactersFrom? (pairChar high low :: done) rest else none
    else if isLowHalf high then none
    else charactersFrom? (Char.ofNat high.toNat :: done) (.unit low :: rest)
  | .unit u :: rest =>
    if isHighHalf u || isLowHalf u then none
    else charactersFrom? (Char.ofNat u.toNat :: done) rest

/-- The string that pieces form. -/
def text? (pieces : List Piece) : Option String :=
  (charactersFrom? [] pieces).map String.ofList

namespace Document

mutual

/-- The value of a document with at most `limit` arrays and objects inside each other. -/
def value? (limit : Nat) : Document → Option Value
  | .null => some .null
  | .bool b => some (.bool b)
  | .number n => n.value?.map .number
  | .string s => (text? s).map .string
  | .array items =>
    match limit with
    | 0 => none
    | limit + 1 => (itemValues? limit items).map .array
  | .object fields =>
    match limit with
    | 0 => none
    | limit + 1 => (fieldValues? limit fields).map .object

def itemValues? (limit : Nat) : List Document → Option (List Value)
  | [] => some []
  | item :: items => do
    let value ← value? limit item
    return value :: (← itemValues? limit items)

def fieldValues? (limit : Nat) : List (List Piece × Document) → Option (List (String × Value))
  | [] => some []
  | (name, field) :: fields => do
    let name ← text? name
    let value ← value? limit field
    return (name, value) :: (← fieldValues? limit fields)

end

end Document

/-- How many arrays and objects may stand inside each other. -/
def nestingLimit : Nat := 127

def Value.ofText? (text : String) : Option Value := do
  let d ← Document.ofText? text
  d.value? nestingLimit

end Bindery.Json
