import ThreeAddress.Token.Basic

/-!
# Three-address commands

A command applies an operator to one or two operands and stores the result
under a symbol, its receiver.
-/

namespace ThreeAddress

/-- What a command reads: the cell of a symbol, or a constant. -/
inductive Operand where
  | identifier (id : Identifier)
  | number (literal : Literal)
  deriving DecidableEq

namespace Operand

def ofToken (t : Token) : Except ObjectError Operand :=
  match t.kind with
  | .identifier id => .ok (.identifier id)
  | .number literal => .ok (.number literal)
  | _ => .error (.commandOperand t.shown)

def identifier? : Operand → Option Identifier
  | .identifier id => some id
  | .number _ => none

def text : Operand → String
  | .identifier id => id.shown
  | .number literal => literal.text

end Operand

/-- The operands of a command: either of the two places may be empty, but not
both. -/
inductive Operands where
  | left (l : Operand)
  | right (r : Operand)
  | both (l r : Operand)
  deriving DecidableEq

namespace Operands

def left? : Operands → Option Operand
  | .left l => some l
  | .right _ => none
  | .both l _ => some l

def right? : Operands → Option Operand
  | .left _ => none
  | .right r => some r
  | .both _ r => some r

def ofOptions? : Option Operand → Option Operand → Option Operands
  | some l, none => some (.left l)
  | none, some r => some (.right r)
  | some l, some r => some (.both l r)
  | none, none => none

def toList : Operands → List Operand
  | .left l => [l]
  | .right r => [r]
  | .both l r => [l, r]

end Operands

structure Command where
  operator : Operator
  receiver : Identifier
  operands : Operands
  deriving DecidableEq

namespace Command

def left? (c : Command) : Option Operand := c.operands.left?

def right? (c : Command) : Option Operand := c.operands.right?

/-- The command of given parts, if there is an operand. -/
def ofParts (operator : Operator) (receiver : Identifier)
    (left right : Option Operand) :
    Except ObjectError Command :=
  match Operands.ofOptions? left right with
  | some operands => .ok ⟨operator, receiver, operands⟩
  | none => .error .commandEmpty

/-- Reads an operand off a token that may be absent. -/
def readOperand : Option Token → Except ObjectError (Option Operand)
  | none => .ok none
  | some t => (Operand.ofToken t).map some

/-- The command of given tokens, if each of them can play its part. -/
def ofTokens (operator receiver : Token) (left right : Option Token) :
    Except ObjectError Command :=
  match operator.operator? with
  | none => .error (.commandOperator operator.shown)
  | some op =>
    match receiver.identifier? with
    | none => .error (.commandReceiver receiver.shown)
    | some id => do
      let l ← readOperand left
      let r ← readOperand right
      ofParts op id l r

/-- The identifiers of a command: the receiver, then those it reads. -/
def identifiers (c : Command) : List Identifier :=
  c.receiver :: c.operands.toList.filterMap Operand.identifier?

def text (c : Command) : String :=
  String.intercalate " "
    (c.operator.mnemonic :: c.receiver.shown ::
      c.operands.toList.map Operand.text)

end Command

end ThreeAddress
