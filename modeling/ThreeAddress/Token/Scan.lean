import ThreeAddress.Error
import ThreeAddress.Text
import ThreeAddress.Token.Basic

/-!
# From source text to tokens

A source text is cut into lexemes first, and then each lexeme becomes a token.
-/

namespace ThreeAddress

/-! ## Lexemes

A source text is cut at blanks and at the six marks `+ - * / ( )` before
anything is made of it.  What lies between two cuts is a run.  Cutting never
fails, and each lexeme knows the place of its first character, counted from
one. -/

inductive Lexeme where
  | mark (start : Nat) (kind : TokenKind)
  | run (start : Nat) (text : List Char)
  deriving DecidableEq

namespace Lexeme

/-- The token of a character that is a lexeme on its own. -/
def markKind? : Char → Option TokenKind
  | '(' => some (.bracket .opening)
  | ')' => some (.bracket .closing)
  | c => (Operator.ofChar? c).map .operator

/-- Puts a character in front of the lexemes that follow it.  It joins a run
that starts at the next place and is a run of its own otherwise. -/
def extend (start : Nat) (c : Char) : List Lexeme → List Lexeme
  | .run next text :: rest =>
    if next = start + 1 then .run start (c :: text) :: rest
    else .run start [c] :: .run next text :: rest
  | rest => .run start [c] :: rest

/-- The lexemes of a text whose first character stands at the given place. -/
def cut : Nat → List Char → List Lexeme
  | _, [] => []
  | start, c :: rest =>
    if Text.isBlank c then cut (start + 1) rest
    else
      match markKind? c with
      | some kind => .mark start kind :: cut (start + 1) rest
      | none => extend start c (cut (start + 1) rest)

end Lexeme

/-! ## Scanning

Each lexeme becomes a token.  A run with a letter or an underscore is an
identifier, written `name`, `name[i]` or `name[f]`; one with digits only, or
digits around a point, is a number.  The first occurrence of a name declares
it, and later ones must agree with it on the type.  The first lexeme that is
no token is the one reported. -/

-- Powers are those of the core library, also where another instance is in
-- scope.
attribute [local instance(2000)] instPowNat

namespace Lexeme

/-- The characters that a run may consist of. -/
def isRunChar (c : Char) : Bool :=
  c.isAlphanum || c == '_' || c == '.' || c == '[' || c == ']'

/-- The type that a suffix letter stands for. -/
def suffixType? : Char → Option ValueType
  | 'i' | 'I' => some .integer
  | 'f' | 'F' => some .float
  | _ => none

/-- Splits the type suffix off a run; without one the type is integer. -/
def splitSuffix (text : List Char) : List Char × ValueType :=
  match text.reverse with
  | ']' :: letter :: '[' :: name =>
    match suffixType? letter with
    | some type => (name.reverse, type)
    | none => (text, .integer)
  | _ => (text, .integer)

/-- The name and type of a run that is a typed identifier. -/
def typedName? (text : List Char) : Option (String × ValueType) :=
  let (name, type) := splitSuffix text
  if isName name then some (String.ofList name, type) else none

/-- What is wrong with a run that has a letter and is no typed identifier. -/
def nameFault (text : List Char) : LexicalFault :=
  if (text.head?.any Char.isDigit) then .leadingDigit (String.ofList text)
  else .malformedTypeSuffix (String.ofList text)

/-- The attribute of a name: that of its row, if the types agree, or that of a
new row. -/
def declare (table : SymbolTable) (start : Nat) (lexeme name : String)
    (type : ValueType) :
    Except Error (Nat × SymbolTable) :=
  match table.lookup? name with
  | some (attr, row) =>
    if row.type = type then .ok (attr, table)
    else .error (.semantic start (.typeMismatch lexeme))
  | none => (table.define name type .user).mapError .object

/-- Reads a run with a letter. -/
def readIdentifier (table : SymbolTable) (start : Nat) (text : List Char) :
    Except Error (TokenKind × SymbolTable) :=
  match typedName? text with
  | none => .error (.lexical start (nameFault text))
  | some (name, type) => do
    let (attr, table) ← declare table start (String.ofList text) name type
    let id ← (Identifier.make attr type .user).mapError .object
    return (.identifier id, table)

/-- Reads a run with a digit and without a letter.  The literal has the text
that its value is printed with, so that leading and trailing zeros are
lost. -/
def readNumber (start : Nat) (text : List Char) : Except Error Literal :=
  let lexeme := String.ofList text
  if Numeral.isNumeral text then
    if Numeral.value text < 2 ^ (31 : Nat) then
      (Literal.ofInt (Numeral.value text)).mapError .object
    else .error (.lexical start (.constantOutOfRange lexeme))
  else if Literal.isPointNumeral text then
    match (Single.read? lexeme).filter Single.isFinite with
    | some x => (Literal.ofSingle x).mapError .object
    | none => .error (.lexical start (.constantOutOfRange lexeme))
  else .error (.lexical start (.malformedConstant lexeme))

/-- The place and the character of the first one that no run may have. -/
def intruder? (start : Nat) (text : List Char) : Option (Nat × Char) :=
  match text with
  | [] => none
  | c :: rest =>
    if isRunChar c then intruder? (start + 1) rest else some (start, c)

/-- Reads a run. -/
def readRun (table : SymbolTable) (start : Nat) (text : List Char) :
    Except Error (TokenKind × SymbolTable) :=
  match intruder? start text with
  | some (place, c) => .error (.lexical place (.unexpectedCharacter c))
  | none =>
    if text.any isNameStart then readIdentifier table start text
    else if text.any Char.isDigit then do
      let literal ← readNumber start text
      return (.number literal, table)
    else .error (.lexical start (.unrecognizedLexeme (String.ofList text)))

/-- The token of a lexeme, with the table after it. -/
def read (table : SymbolTable) : Lexeme → Except Error (Token × SymbolTable)
  | .mark start kind => do
    let token ← (Token.placed kind start).mapError .object
    return (token, table)
  | .run start text => do
    let (kind, table) ← readRun table start text
    let token ← (Token.placed kind start).mapError .object
    return (token, table)

/-- The tokens of a list of lexemes, read from left to right with the table
that is given. -/
def readAll (table : SymbolTable) :
    List Lexeme → Except Error (List Token × SymbolTable)
  | [] => .ok ([], table)
  | lexeme :: rest => do
    let (token, table) ← lexeme.read table
    let (tokens, table) ← readAll table rest
    return (token :: tokens, table)

end Lexeme

/-- The tokens and the symbols of a source text. -/
def scan (source : String) : Except Error (List Token × SymbolTable) :=
  Lexeme.readAll .empty (Lexeme.cut 1 source.toList)

end ThreeAddress
