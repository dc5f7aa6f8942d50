import ThreeAddress.Error

/-!
# Trees

The trees of expressions, and how they are shown.
-/

namespace ThreeAddress

/-! ## Expression trees

A node has a token, the resolved type of its value, and up to two children.
In the tree of an expression an operator has both children, a conversion only
a right one, and an operand none.  The other shapes are trees too, and every
operation is defined on them. -/

/-- The resolved type of a node's value. -/
inductive Resolution where
  | integer
  | float
  | unknown
  deriving DecidableEq

namespace Resolution

def ofType : ValueType → Resolution
  | .integer => .integer
  | .float => .float

def type? : Resolution → Option ValueType
  | .integer => some .integer
  | .float => some .float
  | .unknown => none

def name : Resolution → String
  | .integer => "integer"
  | .float => "float"
  | .unknown => "unknown"

/-- The type of an operand; nothing is known of another token on its own. -/
def ofToken (t : Token) : Resolution :=
  match t.type? with
  | some type => ofType type
  | none => .unknown

end Resolution

inductive Tree where
  | leaf (token : Token) (result : Resolution)
  | leftOnly (token : Token) (result : Resolution) (left : Tree)
  | rightOnly (token : Token) (result : Resolution) (right : Tree)
  | binary (token : Token) (result : Resolution) (left right : Tree)
  deriving DecidableEq

namespace Tree

def token : Tree → Token
  | .leaf t _ | .leftOnly t _ _ | .rightOnly t _ _ | .binary t _ _ _ => t

def result : Tree → Resolution
  | .leaf _ res | .leftOnly _ res _
  | .rightOnly _ res _ | .binary _ res _ _ => res

def left? : Tree → Option Tree
  | .leftOnly _ _ l | .binary _ _ l _ => some l
  | _ => none

def right? : Tree → Option Tree
  | .rightOnly _ _ r | .binary _ _ _ r => some r
  | _ => none

/-- The node with the given parts. -/
def ofParts (token : Token) (result : Resolution) :
    Option Tree → Option Tree → Tree
  | none, none => .leaf token result
  | some l, none => .leftOnly token result l
  | none, some r => .rightOnly token result r
  | some l, some r => .binary token result l r

/-- The node with other children. -/
def withChildren (node : Tree) (left right : Option Tree) : Tree :=
  ofParts node.token node.result left right

/-- The node with another result. -/
def withResult (node : Tree) (result : Resolution) : Tree :=
  ofParts node.token result node.left? node.right?

def isLeaf : Tree → Bool
  | .leaf _ _ => true
  | _ => false

def operator? (node : Tree) : Option Operator := node.token.operator?

/-- The node converts an integer to a float. -/
def isCast (node : Tree) : Bool := node.operator? = some .toFloat

/-- An operand as a tree of its own. -/
def ofToken (t : Token) : Tree := .leaf t (.ofToken t)

/-- An operator over two trees; its type is still open. -/
def join (t : Token) (l r : Tree) : Tree := .binary t .unknown l r

/-- A conversion by the given token. -/
def castBy (t : Token) (operand : Tree) : Tree := .rightOnly t .float operand

/-- The tree converted to a float. -/
def cast (operand : Tree) : Tree :=
  castBy (.synthesized (.operator .toFloat)) operand

/-- The leaf of a number that no source text contains. -/
def ofLiteral (literal : Literal) : Tree :=
  ofToken (.synthesized (.number literal))

/-- The nodes in post-order: left subtree, right subtree, the node itself. -/
def nodes : Tree → List (Token × Resolution)
  | .leaf t res => [(t, res)]
  | .leftOnly t res l => l.nodes ++ [(t, res)]
  | .rightOnly t res r => r.nodes ++ [(t, res)]
  | .binary t res l r => l.nodes ++ r.nodes ++ [(t, res)]

/-- The tokens in post-order. -/
def postOrder : Tree → List Token
  | .leaf t _ => [t]
  | .leftOnly t _ l => l.postOrder ++ [t]
  | .rightOnly t _ r => r.postOrder ++ [t]
  | .binary t _ l r => l.postOrder ++ r.postOrder ++ [t]

/-- The tree with the operator in front of its operands, in brackets. -/
def text : Tree → String
  | .leaf t _ => t.text
  | .leftOnly t _ l => "(" ++ t.text ++ " " ++ l.text ++ ")"
  | .rightOnly t _ r => "(" ++ t.text ++ " " ++ r.text ++ ")"
  | .binary t _ l r => "(" ++ t.text ++ " " ++ l.text ++ " " ++ r.text ++ ")"

end Tree

/-- Work on a tree that could not be finished: the cause, and the tree as far
as it was changed. -/
structure Halted where
  error : Error
  tree : Tree

/-- The halted work on a subtree as one on the tree around it. -/
def Halted.within (context : Tree → Tree) (h : Halted) : Halted :=
  ⟨h.error, context h.tree⟩

/-! ## Drawings of trees

A tree is drawn with one node a line, each node above its subtrees and the
left subtree above the right one.  A line starts with one piece of four
columns and a blank for each ancestor below the root, which says on which side
the branch goes on. -/

namespace Tree

/-- What the drawing writes for a node. -/
def label (node : Tree) : String :=
  if node.isCast then "Int2Float" else node.token.shown

/-- What a line shows of an ancestor on the given side. -/
def passing (isLeft : Bool) : String := if isLeft then " │   " else "     "

/-- What a line shows of the node's own side. -/
def branch (isLeft : Bool) : String := if isLeft then " ├───" else " └───"

/-- The start of a line for a node with these sides on the way to it, the
nearest first. -/
def indent : List Bool → String
  | [] => ""
  | side :: ancestors =>
    String.join (ancestors.reverse.map passing) ++ branch side

/-- The lines of a subtree. -/
def drawLines : List Bool → Tree → List String
  | sides, .leaf t res => [indent sides ++ (Tree.leaf t res).label]
  | sides, .leftOnly t res l =>
    (indent sides ++ (Tree.leftOnly t res l).label) ::
      drawLines (true :: sides) l
  | sides, .rightOnly t res r =>
    (indent sides ++ (Tree.rightOnly t res r).label) ::
      drawLines (false :: sides) r
  | sides, .binary t res l r =>
    (indent sides ++ (Tree.binary t res l r).label) ::
      (drawLines (true :: sides) l ++ drawLines (false :: sides) r)

/-- The drawing of a tree. -/
def draw (tree : Tree) : String :=
  String.join ((tree.drawLines []).map (· ++ "\n"))

end Tree

end ThreeAddress
