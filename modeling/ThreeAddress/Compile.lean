import ThreeAddress.Command.Basic
import ThreeAddress.Command.Generate
import ThreeAddress.Machine
import ThreeAddress.Program
import ThreeAddress.Token.Scan
import ThreeAddress.Tree.Basic
import ThreeAddress.Tree.Parse

/-!
# Compiling and running

The work on an expression from its text to its value, and what each stage of
it leaves behind.
-/

namespace ThreeAddress

/-! ## Listings

The texts that stages leave behind, with one line for each item. -/

namespace Listing

/-- The lines of a listing. -/
def ofLines (lines : List String) : String :=
  String.join (lines.map (· ++ "\n"))

/-- What a listing says about a token.  A symbol that is not in the table has
no name. -/
def describe (table : SymbolTable) (t : Token) : String :=
  match t.kind with
  | .operator op => op.description
  | .bracket .opening => "opening bracket"
  | .bracket .closing => "closing bracket"
  | .number literal => literal.type.name ++ " constant"
  | .identifier id =>
    "identifier named " ++
      ((table.get? id.attr).map SymbolRow.name).getD "?" ++ " of " ++
      id.type.name ++ " type"

/-- Tokens, each with a description. -/
def tokens (table : SymbolTable) (ts : List Token) : String :=
  ofLines (ts.map fun t => t.shown ++ "\t - " ++ describe table t)

/-- Symbols with their types, as they go with tokens. -/
def symbols (table : SymbolTable) : String :=
  ofLines (table.entries.map fun (n, row) =>
    Numeral.text n ++ "\t - " ++ row.name ++ " [" ++ row.type.name ++ "]")

/-- Symbols with their types, as they go with code. -/
def codeSymbols (table : SymbolTable) : String :=
  ofLines (table.entries.map fun (n, row) =>
    "<id," ++ Numeral.text n ++ ">\t - " ++ row.name ++ ", " ++ row.type.name)

/-- Tokens on one line, without anything between them. -/
def sequence (ts : List Token) : String := String.join (ts.map Token.shown)

/-- Commands. -/
def commands (code : List Command) : String := ofLines (code.map Command.text)

end Listing

/-! ## From source text to code

An expression is scanned, parsed and typed; what a stage leaves behind is made
of the result. -/

/-- An expression with its types resolved. -/
structure Compiled where
  tokens : List Token
  symbols : SymbolTable
  tree : Tree

/-- Scans, parses and types an expression. -/
def compile (source : String) : Except Error Compiled := do
  let (tokens, symbols) ← scan source
  let tree ← parse tokens
  let tree ← tree.analyze.mapError Halted.error
  return ⟨tokens, symbols, tree⟩

/-- What a stage leaves behind. -/
inductive Output where
  | tokens (tokens symbols : String)
  | tree (drawing : String)
  | code (commands symbols : String)
  | postOrder (sequence symbols : String)
  | program (program : Program)

/-- The texts of an output, in the order of its files. -/
def Output.texts : Output → List String
  | .tokens first second | .code first second | .postOrder first second =>
    [first, second]
  | .tree drawing => [drawing]
  | .program p => [p.toText]

/-- Code with its symbols, generated from a compiled expression. -/
def Compiled.generate (c : Compiled) (mode : Mode) :
    Except Error (List Command × SymbolTable) :=
  (c.tree.generate mode c.symbols).mapError Prod.fst

/-- Takes an expression to a stage. -/
def translate (source : String) (stage : Stage) (mode : Mode) :
    Except Error Output :=
  match stage with
  | .tokens => do
    let (tokens, symbols) ← scan source
    return .tokens (Listing.tokens symbols tokens) (Listing.symbols symbols)
  | .parsed => do
    let (tokens, _) ← scan source
    let tree ← parse tokens
    return .tree tree.draw
  | .typed => do
    let c ← compile source
    return .tree c.tree.draw
  | .postOrder => do
    let c ← compile source
    let tokens ← c.tree.flatten mode
    return .postOrder (Listing.sequence tokens)
      (Listing.codeSymbols c.symbols)
  | .code => do
    let c ← compile source
    let (code, symbols) ← c.generate mode
    return .code (Listing.commands code) (Listing.codeSymbols symbols)
  | .program => do
    let c ← compile source
    let (code, symbols) ← c.generate .optimal
    let p ← (Program.make code symbols).mapError .object
    return .program p

/-! ## Running expressions and programs

The values of the user's symbols are asked for first, in the order of the
table; then the commands are carried out.  An expression that is a single
operand needs no commands and has its value. -/

/-- What a run comes to, and the lines of its trace. -/
structure Outcome (α : Type) where
  result : Except Error α
  trace : List String

/-- The trace as a text. -/
def Outcome.traceText {α : Type} (o : Outcome α) : String :=
  Listing.ofLines o.trace

/-- Carries out code on a machine with the cells of a table. -/
def carryOut {m : Type → Type} [Monad m]
    (ask : String → ValueType → m (Except ValueFault Cell))
    (capacity : Option Nat) (code : List Command) (table : SymbolTable) :
    m (Outcome Machine) := do
  match ← Machine.start ask table with
  | .error fault => return ⟨.error (.runtime fault), []⟩
  | .ok machine =>
    let run := machine.execute capacity code
    match run.fault with
    | some e => return ⟨.error e, run.trace⟩
    | none => return ⟨.ok run.machine, run.trace⟩

/-- The value of an expression after its commands: the last result, or that of
its only token. -/
def finalCell (root : Token) (machine : Machine) : Except Error Cell :=
  match machine.result? with
  | some cell => .ok cell
  | none =>
    match root.kind with
    | .number literal => .ok literal.cell
    | .identifier id =>
      match machine.cell? id.attr with
      | some cell => .ok cell
      | none => .error (.runtime (.undefinedSymbol id.attr))
    | _ => .error (.internal (.noCommands root))

/-- Compiles and runs an expression. -/
def evaluate {m : Type → Type} [Monad m]
    (ask : String → ValueType → m (Except ValueFault Cell))
    (capacity : Option Nat) (source : String) (mode : Mode) :
    m (Outcome Cell) := do
  match compile source with
  | .error e => return ⟨.error e, []⟩
  | .ok c =>
    match c.generate mode with
    | .error e => return ⟨.error e, []⟩
    | .ok (code, table) =>
      let outcome ← carryOut ask capacity code table
      return ⟨outcome.result.bind (finalCell c.tree.token), outcome.trace⟩

/-- Runs a program; one without commands has no result. -/
def Program.interpret {m : Type → Type} [Monad m]
    (ask : String → ValueType → m (Except ValueFault Cell))
    (capacity : Option Nat) (p : Program) :
    m (Outcome (Option Cell)) := do
  let outcome ← carryOut ask capacity p.code p.symbols
  return ⟨outcome.result.map Machine.result?, outcome.trace⟩

end ThreeAddress
