import ThreeAddress.Command.Basic
import ThreeAddress.Error
import ThreeAddress.Yaml.Node
import ThreeAddress.Yaml.Row

/-!
# Programs and their documents

A program is checked when it is put together, and so is every part of it when
it is read.
-/

namespace ThreeAddress

/-! ## Programs

A program is code together with the symbols it refers to.  Every identifier of
the code names a row of the table and has its type. -/

structure Program where
  code : List Command
  symbols : SymbolTable
  deriving DecidableEq

namespace Program

/-- Checks an identifier against the table. -/
def checkIdentifier (table : SymbolTable) (id : Identifier) :
    Except ObjectError Unit :=
  match table.get? id.attr with
  | none => .error (.programMissing id.shown)
  | some row =>
    if row.type = id.type then .ok ()
    else .error (.programType id.shown id.type row.type)

/-- Pairs code with its symbols, if every identifier has its row. -/
def make (code : List Command) (symbols : SymbolTable) :
    Except ObjectError Program := do
  (code.flatMap Command.identifiers).forM (checkIdentifier symbols)
  return ⟨code, symbols⟩

end Program

/-! ## Programs as documents

A program is written as a mapping of its `code` and its `symbols`, each a
list.  Reading checks every object as it comes: fields may stand in any order,
unknown ones are passed over, and the first object that is refused, or the
first place where the text makes no sense, is reported. -/

-- Powers are those of the core library, also where another instance is in
-- scope.
attribute [local instance(2000)] instPowNat

namespace Program

open Yaml (Node Field Content Document)

/-! ### Writing -/

/-- The name of an operator in a document. -/
def operatorName : Operator → String
  | .add => "add"
  | .subtract => "subtract"
  | .multiply => "multiply"
  | .divide => "divide"
  | .toFloat => "inttofloat"

/-- The names that would be read as something else if they were plain. -/
def reservedNames : List String :=
  ["true", "True", "TRUE", "false", "False", "FALSE", "null", "Null", "NULL"]

/-- A name, in quotes if it is reserved. -/
def nameContent (name : String) : Content :=
  if reservedNames.contains name then .quoted name else .plain name

def identifierFields (indent : Nat) (id : Identifier) : List Field :=
  [⟨indent, false, "attribute", none, .plain (Numeral.text id.attr)⟩,
    ⟨indent, false, "type", none, .plain id.type.name⟩,
    ⟨indent, false, "provenance", none, .plain id.provenance.name⟩]

def literalFields (indent : Nat) (literal : Literal) : List Field :=
  [⟨indent, false, "text", none, .quoted literal.text⟩,
    ⟨indent, false, "kind", none, .plain literal.type.name⟩]

def operandFields (key : String) : Option Operand → List Field
  | none => [⟨2, false, key, none, .plain "null"⟩]
  | some (.identifier id) =>
    ⟨2, false, key, some "identifier", .nothing⟩ :: identifierFields 4 id
  | some (.number literal) =>
    ⟨2, false, key, some "number", .nothing⟩ :: literalFields 4 literal

def commandFields (c : Command) : List Field :=
  [⟨0, true, "operator", none, .plain (operatorName c.operator)⟩,
    ⟨2, false, "receiver", none, .nothing⟩] ++
  identifierFields 4 c.receiver ++ operandFields "left" c.left? ++
    operandFields "right" c.right?

def symbolFields (row : SymbolRow) : List Field :=
  [⟨0, true, "name", none, nameContent row.name⟩,
    ⟨2, false, "type", none, .plain row.type.name⟩,
    ⟨2, false, "provenance", none, .plain row.provenance.name⟩]

/-- A list under its key, item by item. -/
def listFields (key : String) (items : List (List Field)) : List Field :=
  if items.isEmpty then [⟨0, false, key, none, .emptyList⟩]
  else ⟨0, false, key, none, .nothing⟩ :: items.flatten

def fields (p : Program) : List Field :=
  listFields "code" (p.code.map commandFields) ++
    listFields "symbols" (p.symbols.rows.map symbolFields)

/-- The text of a program. -/
def toText (p : Program) : String :=
  String.join (p.fields.map (·.text ++ "\n"))

/-! ### Reading -/

/-- What is read, or why it cannot be. -/
abbrev Reading (α : Type) := Except DocumentFault α

/-- An object that was checked. -/
def checked {α : Type} (object : Except ObjectError α) : Reading α :=
  object.mapError .refused

/-- A field that must be there. -/
def required {α : Type} : Option α → Reading α
  | some a => .ok a
  | none => .error .unreadable

/-- A field that was not read before. -/
def once {α : Type} (before : Option α) (value : Reading α) :
    Reading (Option α) :=
  if before.isSome then .error .unreadable else value.map some

/-- The text of any scalar. -/
def readText : Node → Reading String
  | .scalar _ _ text => .ok text
  | _ => .error .unreadable

/-- Reads the entries of a mapping one after the other.  An entry that `step`
has no use for is passed over. -/
def readEntries {σ : Type} (step : σ → String → Node → Option (Reading σ)) :
    σ → List (Node × Node) → Reading σ
  | state, [] => .ok state
  | state, (key, value) :: rest => do
    match step state (← readText key) value with
    | some next => readEntries step (← next) rest
    | none =>
      if value.isWhole then readEntries step state rest
      else .error .unreadable

/-- The entries of a mapping; a value that is not there has none. -/
def entriesOf : Node → Reading (List (Node × Node))
  | .mapping _ entries => .ok entries
  | .scalar _ true "" => .ok []
  | _ => .error .unreadable

/-- The items of a list; a value that is not there has none. -/
def itemsOf : Node → Reading (List Node)
  | .sequence _ items => .ok items
  | .scalar _ true "" => .ok []
  | _ => .error .unreadable

/-- The scalar stands for no value. -/
def isNull (text : String) : Bool :=
  ["", "~", "null", "Null", "NULL"].contains text

/-- One of some names: as a scalar, or as the tag of no value. -/
def readName {α : Type} (names : List (String × α)) : Node → Reading α
  | .scalar none _ text => required (names.lookup text)
  | .scalar (some tag) true text =>
    if isNull text then required (names.lookup tag) else .error .unreadable
  | _ => .error .unreadable

def readType : Node → Reading ValueType :=
  readName ([ValueType.integer, .float].map fun type => (type.name, type))

def readProvenance : Node → Reading Provenance :=
  readName ([Provenance.user, .program].map fun provenance =>
    (provenance.name, provenance))

def readOperator : Node → Reading Operator :=
  readName <|
    [Operator.add, .subtract, .multiply, .divide, .toFloat].map fun op =>
      (operatorName op, op)

/-- The value of a digit in bases up to sixteen. -/
def digitValue? (c : Char) : Option Nat :=
  if c.isDigit then some (c.toNat - '0'.toNat)
  else if 'a' ≤ c ∧ c ≤ 'f' then some (c.toNat - 'a'.toNat + 10)
  else if 'A' ≤ c ∧ c ≤ 'F' then some (c.toNat - 'A'.toNat + 10)
  else none

/-- The number of a row of digits in a base. -/
def readDigits (base : Nat) (row : List Char) : Option Nat :=
  if row.isEmpty then none
  else
    row.foldl (fun n c => do
      let d ← digitValue? c
      if d < base then some (base * (← n) + d) else none) (some 0)

/-- A number without a sign other than plus: hexadecimal, octal, binary, or
decimal without leading zeros. -/
def readUnsigned (text : List Char) : Option Nat :=
  let row := if text.head? = some '+' then text.drop 1 else text
  match row with
  | '0' :: 'x' :: rest => readDigits 16 rest
  | '0' :: 'o' :: rest => readDigits 8 rest
  | '0' :: 'b' :: rest => readDigits 2 rest
  | '0' :: _ :: _ => none
  | _ => readDigits 10 row

/-- An attribute: a plain number of 64 bits. -/
def readAttribute : Node → Reading Nat
  | .scalar _ true text =>
    match readUnsigned text.toList with
    | some n => if n < 2 ^ (64 : Nat) then .ok n else .error .unreadable
    | none => .error .unreadable
  | _ => .error .unreadable

/-- The fields of an identifier that were read so far. -/
structure IdentifierDraft where
  attr : Option Nat := none
  type : Option ValueType := none
  provenance : Option Provenance := none

def IdentifierDraft.step (d : IdentifierDraft) (key : String) (value : Node) :
    Option (Reading IdentifierDraft) :=
  match key with
  | "attribute" =>
    some ((once d.attr (readAttribute value)).map ({ d with attr := · }))
  | "type" => some ((once d.type (readType value)).map ({ d with type := · }))
  | "provenance" =>
    some ((once d.provenance (readProvenance value)).map
      ({ d with provenance := · }))
  | _ => none

def readIdentifier (node : Node) : Reading Identifier := do
  let d ← readEntries IdentifierDraft.step {} (← entriesOf node)
  checked (Identifier.make (← required d.attr) (← required d.type)
    (← required d.provenance))

/-- The fields of a literal that were read so far. -/
structure LiteralDraft where
  text : Option String := none
  kind : Option ValueType := none

def LiteralDraft.step (d : LiteralDraft) (key : String) (value : Node) :
    Option (Reading LiteralDraft) :=
  match key with
  | "text" => some ((once d.text (readText value)).map ({ d with text := · }))
  | "kind" => some ((once d.kind (readType value)).map ({ d with kind := · }))
  | _ => none

def readLiteral (node : Node) : Reading Literal := do
  let d ← readEntries LiteralDraft.step {} (← entriesOf node)
  let text ← required d.text
  let kind ← required d.kind
  checked (Literal.ofText kind text)

/-- An operand by its tag, or none for no value. -/
def readOperand (node : Node) : Reading (Option Operand) :=
  match node.tag? with
  | some "identifier" =>
    (readIdentifier node).map fun id => some (.identifier id)
  | some "number" =>
    (readLiteral node).map fun literal => some (.number literal)
  | some _ => .error .unreadable
  | none =>
    match node with
    | .scalar _ true text =>
      if isNull text then .ok none else .error .unreadable
    | _ => .error .unreadable

/-- The fields of a command that were read so far. -/
structure CommandDraft where
  operator : Option Operator := none
  receiver : Option Identifier := none
  left : Option (Option Operand) := none
  right : Option (Option Operand) := none

def CommandDraft.step (d : CommandDraft) (key : String) (value : Node) :
    Option (Reading CommandDraft) :=
  match key with
  | "operator" =>
    some ((once d.operator (readOperator value)).map
      ({ d with operator := · }))
  | "receiver" =>
    some ((once d.receiver (readIdentifier value)).map
      ({ d with receiver := · }))
  | "left" =>
    some ((once d.left (readOperand value)).map ({ d with left := · }))
  | "right" =>
    some ((once d.right (readOperand value)).map ({ d with right := · }))
  | _ => none

/-- A command; an operand that is not mentioned is none. -/
def readCommand (node : Node) : Reading Command := do
  let d ← readEntries CommandDraft.step {} (← entriesOf node)
  let operator ← required d.operator
  let receiver ← required d.receiver
  checked (Command.ofParts operator receiver d.left.join d.right.join)

/-- The fields of a symbol that were read so far. -/
structure SymbolDraft where
  name : Option String := none
  type : Option ValueType := none
  provenance : Option Provenance := none

def SymbolDraft.step (d : SymbolDraft) (key : String) (value : Node) :
    Option (Reading SymbolDraft) :=
  match key with
  | "name" => some ((once d.name (readText value)).map ({ d with name := · }))
  | "type" => some ((once d.type (readType value)).map ({ d with type := · }))
  | "provenance" =>
    some ((once d.provenance (readProvenance value)).map
      ({ d with provenance := · }))
  | _ => none

/-- A row of the table, if its name is one. -/
def readSymbol (node : Node) : Reading SymbolRow := do
  let d ← readEntries SymbolDraft.step {} (← entriesOf node)
  let name ← required d.name
  let type ← required d.type
  let provenance ← required d.provenance
  if isName name.toList then return ⟨name, type, provenance⟩
  else throw (.refused (.symbolName name))

/-- The table of some rows, defined in order. -/
def tableOf : SymbolTable → List SymbolRow → Except ObjectError SymbolTable
  | table, [] => .ok table
  | table, row :: rest => do
    let (_, table) ← table.define row.name row.type row.provenance
    tableOf table rest

def readCode (node : Node) : Reading (List Command) := do
  (← itemsOf node).mapM readCommand

def readSymbols (node : Node) : Reading SymbolTable := do
  let rows ← (← itemsOf node).mapM readSymbol
  checked (tableOf .empty rows)

/-- The parts of a program that were read so far. -/
structure Draft where
  code : Option (List Command) := none
  symbols : Option SymbolTable := none

def Draft.step (d : Draft) (key : String) (value : Node) :
    Option (Reading Draft) :=
  match key with
  | "code" => some ((once d.code (readCode value)).map ({ d with code := · }))
  | "symbols" =>
    some ((once d.symbols (readSymbols value)).map ({ d with symbols := · }))
  | _ => none

def ofNode (node : Node) : Reading Program := do
  let d ← readEntries Draft.step {} (← entriesOf node)
  let code ← required d.code
  let symbols ← required d.symbols
  checked (make code symbols)

/-- Reads the text of a program. -/
def ofText (text : String) : Reading Program := do
  let document := Document.ofText text
  let p ← ofNode document.root
  if document.ended then return p else throw .unreadable

end Program

end ThreeAddress
