import ThreeAddress.Tree.Simplify

/-!
# Code generation

A tree is lowered from the leaves up: each operator becomes one command, and
its receiver is what the command above reads.  In plain mode every receiver is
a fresh temporary.  In optimal mode the tree is simplified first, and an
operand that is a temporary of the right type is written over.
-/

namespace ThreeAddress

namespace Tree

/-- A lowered subtree: the token that stands for its value, the commands that
compute it, and the table with their temporaries. -/
structure Lowered where
  token : Token
  code : List Command
  table : SymbolTable

/-- The first operand that is a temporary of the given type. -/
def reusable? (type : ValueType) (left right : Option Token) :
    Option Identifier :=
  ((left.toList ++ right.toList).filterMap Token.identifier?).find? fun id =>
    id.provenance = .program ∧ id.type = type

/-- The receiver of a command, with the table after it. -/
def receiver (mode : Mode) (type : ValueType) (left right : Option Token)
    (table : SymbolTable) :
    Identifier × SymbolTable :=
  match mode with
  | .plain => table.defineTemporary type
  | .optimal =>
    match reusable? type left right with
    | some id => (id, table)
    | none => table.defineTemporary type

/-- Adds the command of a node to the code of its operands.  On failure the
table is given as it was left. -/
def emit (mode : Mode) (t : Token) (result : Resolution)
    (left right : Option Token) (code : List Command) (table : SymbolTable) :
    Except (Error × SymbolTable) Lowered :=
  match result.type? with
  | none => .error (.internal (.unresolved t), table)
  | some type =>
    let (id, table) := receiver mode type left right table
    let token := Token.synthesized (.identifier id)
    match Command.ofTokens t token left right with
    | .error e => .error (.object e, table)
    | .ok command => .ok ⟨token, code ++ [command], table⟩

/-- Lowers a tree; an operand needs no commands. -/
def lower (mode : Mode) :
    Tree → SymbolTable → Except (Error × SymbolTable) Lowered
  | .leaf t _, table => .ok ⟨t, [], table⟩
  | .leftOnly t res l, table => do
    let l ← lower mode l table
    emit mode t res (some l.token) none l.code l.table
  | .rightOnly t res r, table => do
    let r ← lower mode r table
    emit mode t res none (some r.token) r.code r.table
  | .binary t res l r, table => do
    let l ← lower mode l table
    let r ← lower mode r l.table
    emit mode t res (some l.token) (some r.token) (l.code ++ r.code) r.table

/-- The tree that code is generated from. -/
def prepare : Mode → Tree → Except Error Tree
  | .plain, tree => .ok tree
  | .optimal, tree => (optimize tree).mapError Halted.error

/-- The code of a tree, with the table after it.  On failure the table is
given as it was left. -/
def generate (mode : Mode) (tree : Tree) (table : SymbolTable) :
    Except (Error × SymbolTable) (List Command × SymbolTable) := do
  let tree ← (prepare mode tree).mapError (·, table)
  let lowered ← lower mode tree table
  return (lowered.code, lowered.table)

/-- The tokens of a tree in post-order, simplified first in optimal mode. -/
def flatten (mode : Mode) (tree : Tree) : Except Error (List Token) := do
  let tree ← prepare mode tree
  return tree.postOrder

end Tree

end ThreeAddress
