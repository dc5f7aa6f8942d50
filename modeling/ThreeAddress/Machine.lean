import ThreeAddress.Error
import ThreeAddress.Text

/-!
# The machine and its values

Values are given to a machine before it starts, and commands compute with
them.
-/

namespace ThreeAddress

/-! ## Where values come from

The values of a user's symbols are looked up in a table that is known
beforehand, or asked for in a dialogue.  A dialogue is over any monad that
reads a line and writes: it asks again until an answer is a value of the type
it wants.  A prompt is such a dialogue with lines that are known
beforehand. -/

/-- Values known beforehand, by the names of their symbols. -/
abbrev ValueTable := List (String × Single)

/-- Looks a value up and narrows it to the type of its symbol. -/
def ValueTable.ask (values : ValueTable) (name : String) (type : ValueType) :
    Except ValueFault Cell :=
  match values.lookup name with
  | some x => .ok (.narrow type x)
  | none => .error (.notGiven name)

/-! ### Asking a user -/

/-- Talking to a user line by line. -/
class Dialogue (m : Type → Type) where
  /-- The next line that the user typed, or why there is none. -/
  readLine : m (Except ValueFault String)
  say : String → m Unit

namespace Dialogue

/-- What is written to ask for a value. -/
def question (name : String) (type : ValueType) : String :=
  "Enter value of " ++ name ++ " (" ++ type.name ++ "): "

/-- What is written when an answer is no value. -/
def complaint : String := "Invalid input, try again!\n"

/-- The value of an answer. -/
def answer? (type : ValueType) (line : String) : Option Cell :=
  Cell.read? type (Text.trim line)

variable {m : Type → Type} [Monad m] [Dialogue m]

/-- Asks once: what came of it on the right, or a refused answer on the
left. -/
def askOnce (name : String) (type : ValueType) :
    m (Unit ⊕ Except ValueFault Cell) := do
  say (question name type)
  match ← readLine with
  | .error fault => return .inr (.error fault)
  | .ok line =>
    match answer? type line with
    | some cell => return .inr (.ok cell)
    | none =>
      say complaint
      return .inl ()

/-- Asks until an answer is a value, or there is no answer. -/
def ask (name : String) (type : ValueType) : m (Except ValueFault Cell) :=
  repeatM (fun _ => askOnce name type) ()

end Dialogue

/-- A prompt: the lines that were not read yet, and what was written so far.
A line whose bytes are no text is kept as `none`. -/
structure Prompt where
  pending : List (Option String)
  written : String
  deriving DecidableEq, Inhabited

namespace Prompt

/-- The prompt with the lines of a text before it. -/
def ofText (input : String) : Prompt :=
  ⟨(Text.splitLines '\n' input.toList).map fun line =>
    some (String.ofList line), ""⟩

instance : Dialogue (StateM Prompt) where
  readLine := fun prompt =>
    match prompt.pending with
    | [] => (.error .inputEnded, prompt)
    | none :: rest => (.error .notText, { prompt with pending := rest })
    | some line :: rest => (.ok line, { prompt with pending := rest })
  say text := fun prompt =>
    ((), { prompt with written := prompt.written ++ text })

/-- Asks for the value of a symbol. -/
def ask (name : String) (type : ValueType) :
    StateM Prompt (Except ValueFault Cell) :=
  Dialogue.ask name type

end Prompt

/-! ## The machine

The machine has one cell for each row of a symbol table.  A command reads its
operands, computes in single precision, and stores the result in the cell of
its receiver: as the receiver's type, or as a float if it is a conversion.  A
result that is not finite stops the run and is not stored.  Each command that
is carried out leaves a line in the trace. -/

structure Machine where
  cells : List Cell
  /-- The receiver of the last command that was carried out. -/
  last : Option Nat
  deriving DecidableEq

namespace Machine

/-- The cell of an attribute. -/
def cell? (machine : Machine) : Nat → Option Cell
  | 0 => none
  | n + 1 => machine.cells[n]?

/-- The machine after a cell was stored as the latest result. -/
def store (machine : Machine) (attr : Nat) (cell : Cell) : Machine :=
  ⟨machine.cells.set (attr - 1) cell, some attr⟩

/-- The cell that the last command stored. -/
def result? (machine : Machine) : Option Cell :=
  machine.last.bind machine.cell?

/-- The value of an operand. -/
def read (machine : Machine) : Operand → Except RuntimeFault Cell
  | .number literal => .ok literal.cell
  | .identifier id =>
    match machine.cell? id.attr with
    | some cell => .ok cell
    | none => .error (.undefinedSymbol id.attr)

/-- A conversion: the operand as a float, and its line of the trace. -/
def convert (machine : Machine) (operand : Operand) :
    Except RuntimeFault (Cell × String) := do
  let cell ← machine.read operand
  let result := Cell.float cell.value
  return (result, cell.text ++ " -> " ++ result.text)

/-- An operation on two operands: the result as the given type, and its line
of the trace. -/
def compute (machine : Machine) (type : ValueType) (op : Operator)
    (left right : Operand) :
    Except RuntimeFault (Cell × String) := do
  let l ← machine.read left
  let r ← machine.read right
  let value := op.apply l.value r.value
  if value.isFinite then
    let result := Cell.narrow type value
    return (result, l.text ++ " " ++ op.lexeme ++ " " ++ r.text ++ " = " ++
      result.text)
  else throw (.nonFinite l op r)

/-- The result of a command and its line of the trace. -/
def evaluate (machine : Machine) (c : Command) :
    Except RuntimeFault (Cell × String) :=
  if c.operator = .toFloat then
    match c.operands with
    | .left operand | .right operand | .both _ operand =>
      machine.convert operand
  else
    match c.operands with
    | .both left right =>
      machine.compute c.receiver.type c.operator left right
    | _ => .error (.missingOperand c)

/-- Carries out a command in place, and gives its line of the trace.  The
machine is left alone until the result is there: then the result goes to the
cell of the receiver, and the receiver becomes the last one. -/
def update (c : Command) : ExceptT RuntimeFault (StateM Machine) String := do
  let machine ← get
  if (machine.cell? c.receiver.attr).isNone then
    throw (.undefinedSymbol c.receiver.attr)
  let (cell, line) ← machine.evaluate c
  modify fun machine =>
    { machine with cells := machine.cells.set (c.receiver.attr - 1) cell }
  modify fun machine => { machine with last := some c.receiver.attr }
  return line

/-- What a command makes of a machine: the machine after it, and its line of
the trace. -/
def step (machine : Machine) (c : Command) :
    Except RuntimeFault (Machine × String) :=
  match (update c).run machine with
  | (.ok line, next) => .ok (next, line)
  | (.error fault, _) => .error fault

/-- How a list of commands went: the machine after it, the lines that were
written, and what stopped it, if anything did. -/
structure Run where
  machine : Machine
  trace : List String
  fault : Option Error

/-- Carries out commands until one fails, or the trace takes no more lines.  A
command whose line is not taken has been carried out.  Without a capacity the
trace takes every line. -/
def execute (capacity : Option Nat) (machine : Machine) : List Command → Run
  | [] => ⟨machine, [], none⟩
  | c :: rest =>
    match (update c).run machine with
    | (.error fault, left) => ⟨left, [], some (.runtime fault)⟩
    | (.ok line, next) =>
      if capacity = some 0 then ⟨next, [], some (.internal .traceFull)⟩
      else
        let run := execute (capacity.map (· - 1)) next rest
        { run with trace := line :: run.trace }

/-- The cells of a table's rows: a user's symbol has the value that is read
for it, a temporary is zero. -/
def fill {m : Type → Type} [Monad m]
    (ask : String → ValueType → m (Except ValueFault Cell)) :
    List SymbolRow → m (Except RuntimeFault (List Cell))
  | [] => return .ok []
  | row :: rest => do
    match row.provenance with
    | .program => return (← fill ask rest).map (Cell.zero row.type :: ·)
    | .user =>
      match ← ask row.name row.type with
      | .error fault => return .error (.noValue row.name fault)
      | .ok cell => return (← fill ask rest).map (cell :: ·)

/-- The machine of a table, before anything was carried out. -/
def start {m : Type → Type} [Monad m]
    (ask : String → ValueType → m (Except ValueFault Cell))
    (table : SymbolTable) : m (Except RuntimeFault Machine) := do
  return (← fill ask table.rows).map (⟨·, none⟩)

end Machine

end ThreeAddress
