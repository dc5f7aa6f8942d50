import ThreeAddress.Single.Basic
import ThreeAddress.Single.Decimal

/-!
# Values

The types that values can have and the operators on them, the cells that hold
values while code runs, and the constants of source texts.
-/

namespace ThreeAddress

/-! ## Kinds of values and symbols

The two types a value can have, and the two ways a symbol can come about. -/

/-- The declared type of an identifier, or the type of a constant. -/
inductive ValueType where
  | integer
  | float
  deriving DecidableEq

def ValueType.name : ValueType → String
  | .integer => "integer"
  | .float => "float"

/-- Who introduced a symbol: the author of the expression, or the code
generator. -/
inductive Provenance where
  | user
  | program
  deriving DecidableEq

def Provenance.name : Provenance → String
  | .user => "user"
  | .program => "program"

/-- How code is generated: from the tree as it is with a fresh temporary per
command, or from the simplified tree with temporaries used again. -/
inductive Mode where
  | plain
  | optimal
  deriving DecidableEq

/-! ## Stages

How far an expression is taken, and what each stage leaves behind. -/

inductive Stage where
  | tokens
  | parsed
  | typed
  | code
  | postOrder
  | program
  deriving DecidableEq

namespace Stage

/-- The name of a stage on the command line. -/
def name : Stage → String
  | .tokens => "lex"
  | .parsed => "syn"
  | .typed => "sem"
  | .code => "gen1"
  | .postOrder => "gen2"
  | .program => "gen3"

def all : List Stage :=
  [.tokens, .parsed, .typed, .code, .postOrder, .program]

def ofName? (name : String) : Option Stage := all.find? (·.name == name)

/-- The number of texts that a stage writes. -/
def outputs : Stage → Nat
  | .tokens | .code | .postOrder => 2
  | .parsed | .typed | .program => 1

/-- The stage can be asked for simplified output. -/
def acceptsMode : Stage → Bool
  | .code | .postOrder => true
  | _ => false

end Stage

/-! ## Operators

The four arithmetic operators and the conversion of an integer to a float,
which no source text contains: the type analysis inserts it. -/

inductive Operator where
  | add
  | subtract
  | multiply
  | divide
  | toFloat
  deriving DecidableEq

namespace Operator

/-- The operator that a character of a source text stands for. -/
def ofChar? : Char → Option Operator
  | '+' => some .add
  | '-' => some .subtract
  | '*' => some .multiply
  | '/' => some .divide
  | _ => none

/-- The operator as expressions show it. -/
def lexeme : Operator → String
  | .add => "+"
  | .subtract => "-"
  | .multiply => "*"
  | .divide => "/"
  | .toFloat => "i2f"

/-- The operator as commands show it. -/
def mnemonic : Operator → String
  | .add => "add"
  | .subtract => "sub"
  | .multiply => "mul"
  | .divide => "div"
  | .toFloat => "i2f"

/-- The operator as token listings describe it. -/
def description : Operator → String
  | .add => "addition operator"
  | .subtract => "subtraction operator"
  | .multiply => "multiplication operator"
  | .divide => "division operator"
  | .toFloat => "int to float cast"

/-- How tightly the operator binds its operands. -/
def priority : Operator → Nat
  | .add | .subtract => 1
  | .multiply | .divide => 2
  | .toFloat => 3

/-- The operator on two single-precision numbers.  A conversion yields its
right operand. -/
def apply : Operator → Single → Single → Single
  | .add, x, y => x + y
  | .subtract, x, y => x - y
  | .multiply, x, y => x * y
  | .divide, x, y => x / y
  | .toFloat, _, y => y

end Operator

/-! ## Refused objects

Literals, identifiers, tokens, symbols, commands and programs are built
through functions that check them.  These are the reasons for which they can
be refused. -/

/-- Why an object could not be built.  Tokens and identifiers are given as
they are shown. -/
inductive ObjectError where
  | tokenPosition
  | identifierAttribute
  | literalForm (text : String) (type : ValueType)
  | literalRange (text : String)
  | symbolName (name : String)
  | symbolTaken (name : String)
  | commandOperator (token : String)
  | commandReceiver (token : String)
  | commandOperand (token : String)
  | commandEmpty
  | programMissing (identifier : String)
  | programType (identifier : String) (used declared : ValueType)
  deriving DecidableEq

namespace ObjectError

/-- The kind of object that was refused. -/
def object : ObjectError → String
  | .tokenPosition => "token"
  | .identifierAttribute => "identifier"
  | .literalForm _ _ | .literalRange _ => "numeric constant"
  | .symbolName _ | .symbolTaken _ => "symbol table entry"
  | .commandOperator _ | .commandReceiver _
  | .commandOperand _ | .commandEmpty => "three-address command"
  | .programMissing _ | .programType _ _ _ => "portable program"

def reason : ObjectError → String
  | .tokenPosition => "position must be positive"
  | .identifierAttribute => "attribute must be positive"
  | .literalForm text type =>
    "\"" ++ text ++ "\" is not a valid " ++ type.name ++ " constant"
  | .literalRange text => "\"" ++ text ++ "\" is out of range"
  | .symbolName name => "\"" ++ name ++ "\" is not a valid identifier name"
  | .symbolTaken name => "\"" ++ name ++ "\" is already defined"
  | .commandOperator token => token ++ " is not an operator"
  | .commandReceiver token => "receiver " ++ token ++ " is not an identifier"
  | .commandOperand token =>
    "operand " ++ token ++ " is neither a number nor an identifier"
  | .commandEmpty => "a command needs at least one operand"
  | .programMissing identifier =>
    identifier ++ " is missing from the symbol table"
  | .programType identifier used declared =>
    identifier ++ " is used as " ++ used.name ++ " but declared as " ++
      declared.name

def message (e : ObjectError) : String :=
  "Failed to create " ++ e.object ++ ": " ++ e.reason

end ObjectError

/-! ## Cells

A cell holds the value of one symbol while code runs: an integer of 32 bits or
a single-precision number. -/

inductive Cell where
  | integer (n : Int)
  | float (x : Single)
  deriving DecidableEq

namespace Cell

def type : Cell → ValueType
  | .integer _ => .integer
  | .float _ => .float

/-- The value that operators compute with. -/
def value : Cell → Single
  | .integer n => Single.ofInt n
  | .float x => x

def zero : ValueType → Cell
  | .integer => .integer 0
  | .float => .float Single.zero

/-- The cell of the given type for a computed value; an integer cell drops the
fraction. -/
def narrow : ValueType → Single → Cell
  | .integer, x => .integer x.truncate
  | .float, x => .float x

/-- An integer with an optional sign, if it has 32 bits. -/
def readInteger? (text : String) : Option Int :=
  let signed (row : List Char) (sign : Int) : Option Int :=
    let n := sign * Numeral.value row
    if Numeral.isNumeral row && inWordRange n then some n else none
  match text.toList with
  | '-' :: row => signed row (-1)
  | '+' :: row => signed row 1
  | row => signed row 1

/-- Reads a cell of the given type.  A number too large for a finite cell is
refused. -/
def read? : ValueType → String → Option Cell
  | .integer, text => (readInteger? text).map .integer
  | .float, text => ((Single.read? text).filter Single.isFinite).map .float

/-- A finite float cell always shows a fraction. -/
def text : Cell → String
  | .integer n => Numeral.intText n
  | .float x => if x.isFinite then x.toPointText else x.toText

end Cell

/-! ## Numeric constants

A literal is a text of the grammar of its type, together with the value it
stands for: digits for an integer of 31 bits, digits with a point between them
for a finite single-precision number.  A sign is not part of a literal. -/

-- Powers are those of the core library, also where another instance is in
-- scope.
attribute [local instance(2000)] instPowNat

namespace Literal

/-- Digits, a point, digits. -/
def isPointNumeral (text : List Char) : Bool :=
  Numeral.isNumeral (text.takeWhile (· != '.')) &&
    Numeral.isNumeral ((text.dropWhile (· != '.')).drop 1)

/-- The value of a text of the given type's grammar. -/
def read : ValueType → String → Except ObjectError Cell
  | .integer, text =>
    if Numeral.isNumeral text.toList then
      if Numeral.value text.toList < 2 ^ (31 : Nat) then
        .ok (.integer (Numeral.value text.toList))
      else .error (.literalRange text)
    else .error (.literalForm text .integer)
  | .float, text =>
    if isPointNumeral text.toList then
      match (Single.read? text).filter Single.isFinite with
      | some x => .ok (.float x)
      | none => .error (.literalRange text)
    else .error (.literalForm text .float)

end Literal

structure Literal where
  text : String
  type : ValueType
  cell : Cell
  reads : Literal.read type text = .ok cell
  deriving DecidableEq

namespace Literal

/-- The literal of a text, if it is one of the given type. -/
def ofText (type : ValueType) (text : String) : Except ObjectError Literal :=
  match h : read type text with
  | .ok cell => .ok ⟨text, type, cell, h⟩
  | .error e => .error e

/-- The literal of an integer in decimal; a negative one has none. -/
def ofInt (n : Int) : Except ObjectError Literal :=
  ofText .integer (Numeral.intText n)

/-- The literal of a number in its shortest digits, always with a fraction; a
number with a sign has none, nor has one that is not finite. -/
def ofSingle (x : Single) : Except ObjectError Literal :=
  ofText .float x.toPointText

def zero : ValueType → Literal
  | .integer => ⟨"0", .integer, .integer 0, rfl⟩
  | .float => ⟨"0.0", .float, .float Single.zero, rfl⟩

/-- The value that operators compute with. -/
def value (l : Literal) : Single := l.cell.value

/-- The value as an integer, the fraction dropped. -/
def intValue (l : Literal) : Int :=
  match l.cell with
  | .integer n => n
  | .float x => x.truncate

def isZero (l : Literal) : Bool :=
  match l.cell with
  | .integer n => n == 0
  | .float x => x.isZero

def isOne (l : Literal) : Bool :=
  match l.cell with
  | .integer n => n == 1
  | .float x => x == Single.one

end Literal

end ThreeAddress
