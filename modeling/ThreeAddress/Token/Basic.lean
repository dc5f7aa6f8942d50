import ThreeAddress.Text
import ThreeAddress.Value

/-!
# Symbols and tokens

What a source text is made of: tokens, among them identifiers, which refer to
a table of symbols.
-/

namespace ThreeAddress

/-! ## The symbol table

The table is a list of rows.  The attribute of a symbol is the place of its
row, counted from one, and no two rows have the same name.  Rows are only
added at the end, by `define` for a given name and by `defineTemporary` for a
name that is still free. -/

/-- A letter of the Latin alphabet, or an underscore. -/
def isNameStart (c : Char) : Bool := c.isAlpha || c == '_'

/-- A letter of the Latin alphabet, a decimal digit, or an underscore. -/
def isNameChar (c : Char) : Bool := c.isAlphanum || c == '_'

/-- A name starts with a letter or an underscore and goes on with these and
digits. -/
def isName (text : List Char) : Bool :=
  match text with
  | [] => false
  | c :: rest => isNameStart c && rest.all isNameChar

/-- A reference to a row of the symbol table, with the type and provenance of
that row. -/
structure Identifier where
  /-- The attribute: the place of the row, counted from one. -/
  attr : Nat
  type : ValueType
  provenance : Provenance
  positive : 0 < attr
  deriving DecidableEq

namespace Identifier

/-- The identifier with the given fields; attributes count from one. -/
def make (attr : Nat) (type : ValueType) (provenance : Provenance) :
    Except ObjectError Identifier :=
  if h : 0 < attr then .ok ⟨attr, type, provenance, h⟩
  else .error .identifierAttribute

def shown (i : Identifier) : String := "<id," ++ Numeral.text i.attr ++ ">"

end Identifier

/-- What the table keeps of one symbol. -/
structure SymbolRow where
  name : String
  type : ValueType
  provenance : Provenance
  deriving DecidableEq

structure SymbolTable where
  rows : List SymbolRow
  deriving DecidableEq

namespace SymbolTable

def empty : SymbolTable := ⟨[]⟩

def size (table : SymbolTable) : Nat := table.rows.length

/-- The row of an attribute. -/
def get? (table : SymbolTable) : Nat → Option SymbolRow
  | 0 => none
  | n + 1 => table.rows[n]?

/-- The rows with their attributes, in order. -/
def entries (table : SymbolTable) : List (Nat × SymbolRow) :=
  table.rows.zipIdx.map fun (row, n) => (n + 1, row)

/-- The attribute and the row of a name. -/
def lookup? (table : SymbolTable) (name : String) :
    Option (Nat × SymbolRow) :=
  table.entries.find? fun (_, row) => row.name == name

/-- The name is bound to a row. -/
def binds (table : SymbolTable) (name : String) : Bool :=
  table.rows.any (·.name == name)

def push (table : SymbolTable) (row : SymbolRow) : SymbolTable :=
  ⟨table.rows ++ [row]⟩

/-- Adds a row for a name that is valid and not bound yet, and gives its
attribute. -/
def define (table : SymbolTable) (name : String) (type : ValueType)
    (provenance : Provenance) :
    Except ObjectError (Nat × SymbolTable) :=
  if !isName name.toList then .error (.symbolName name)
  else if table.binds name then .error (.symbolTaken name)
  else .ok (table.size + 1, table.push ⟨name, type, provenance⟩)

/-- The name of the `n`-th temporary. -/
def temporaryName (n : Nat) : String := "T" ++ Numeral.text n

/-- The least positive number whose temporary name is not bound.  Of
`size + 1` different names the rows cannot bind all. -/
def freshNumber (table : SymbolTable) : Nat :=
  ((List.range' 1 (table.size + 1)).find? fun n =>
    !table.binds (temporaryName n)).getD (table.size + 1)

/-- Adds a row for the first temporary name that is free. -/
def defineTemporary (table : SymbolTable) (type : ValueType) :
    Identifier × SymbolTable :=
  (⟨table.size + 1, type, .program, Nat.succ_pos _⟩,
    table.push ⟨temporaryName table.freshNumber, type, .program⟩)

/-- The number of rows that the code generator added. -/
def temporaries (table : SymbolTable) : Nat :=
  (table.rows.filter (·.provenance = .program)).length

end SymbolTable

/-! ## Tokens

A token is an operator, a bracket, a number or an identifier, with its place
in the source text.  Tokens that no source text contains have no place. -/

inductive Bracket where
  | opening
  | closing
  deriving DecidableEq

inductive TokenKind where
  | operator (op : Operator)
  | bracket (side : Bracket)
  | number (literal : Literal)
  | identifier (id : Identifier)
  deriving DecidableEq

structure Token where
  kind : TokenKind
  /-- The place of the first character, counted from one. -/
  position : Option Nat
  deriving DecidableEq

namespace Token

/-- A token of a source text. -/
def placed (kind : TokenKind) (position : Nat) : Except ObjectError Token :=
  if position = 0 then .error .tokenPosition else .ok ⟨kind, some position⟩

/-- A token that no source text contains. -/
def synthesized (kind : TokenKind) : Token := ⟨kind, none⟩

def operator? (t : Token) : Option Operator :=
  match t.kind with
  | .operator op => some op
  | _ => none

def bracket? (t : Token) : Option Bracket :=
  match t.kind with
  | .bracket side => some side
  | _ => none

def number? (t : Token) : Option Literal :=
  match t.kind with
  | .number literal => some literal
  | _ => none

def identifier? (t : Token) : Option Identifier :=
  match t.kind with
  | .identifier id => some id
  | _ => none

/-- Numbers and identifiers are operands. -/
def isOperand (t : Token) : Bool :=
  match t.kind with
  | .number _ | .identifier _ => true
  | _ => false

/-- The type of an operand. -/
def type? (t : Token) : Option ValueType :=
  match t.kind with
  | .number literal => some literal.type
  | .identifier id => some id.type
  | _ => none

/-- The token as source text, an identifier by its attribute. -/
def text (t : Token) : String :=
  match t.kind with
  | .operator op => op.lexeme
  | .bracket .opening => "("
  | .bracket .closing => ")"
  | .number literal => literal.text
  | .identifier id => id.shown

/-- The token in angle brackets. -/
def shown (t : Token) : String :=
  match t.kind with
  | .identifier id => id.shown
  | _ => "<" ++ t.text ++ ">"

/-- A number that is zero. -/
def isZero (t : Token) : Bool := t.number?.any Literal.isZero

end Token

end ThreeAddress
