import ThreeAddress.Tree.Basic

/-!
# Typed and simplified trees

The types of a tree are resolved before it can be simplified, and stay
resolved.
-/

namespace ThreeAddress

/-! ## Types of expressions

Types are resolved from the leaves up.  An operator on two integers is one on
integers; on anything else it works on floats, and an integer operand is
converted.  A division by the constant zero is refused before its operands are
looked at. -/

namespace Tree

/-- Converts a tree that yields an integer. -/
def castInteger (tree : Tree) : Tree :=
  if tree.result = .integer then tree.cast else tree

/-- Resolves the type of a node whose children are resolved. -/
def resolve : Tree → Tree
  | .leaf t _ => ofToken t
  | .leftOnly t res l =>
    .leftOnly t (if t.operator? = some .toFloat then .float else res) l
  | .rightOnly t res r =>
    .rightOnly t (if t.operator? = some .toFloat then .float else res) r
  | .binary t _ l r =>
    if t.operator? = some .toFloat then .binary t .float l r
    else if l.result = .integer ∧ r.result = .integer then
      .binary t .integer l r
    else .binary t .float l.castInteger r.castInteger

/-- An operator with this right operand divides by the constant zero. -/
def dividesByZero (t : Token) (right : Tree) : Bool :=
  t.operator? = some .divide && right.token.isZero

/-- The error of a division by the constant zero. -/
def zeroDivisor (t : Token) : Error :=
  .semantic (t.position.getD 0) .divisionByZero

/-- Resolves the type of every node, converting operands where types
differ. -/
def analyze : Tree → Except Halted Tree
  | .leaf t res => .ok (resolve (.leaf t res))
  | .leftOnly t res l => do
    let l ← (analyze l).mapError (.within (.leftOnly t res))
    return resolve (.leftOnly t res l)
  | .rightOnly t res r => do
    if dividesByZero t r then throw ⟨zeroDivisor t, .rightOnly t res r⟩
    let r ← (analyze r).mapError (.within (.rightOnly t res))
    return resolve (.rightOnly t res r)
  | .binary t res l r => do
    if dividesByZero t r then throw ⟨zeroDivisor t, .binary t res l r⟩
    let l ← (analyze l).mapError (.within fun l => .binary t res l r)
    let r ← (analyze r).mapError (.within (.binary t res l))
    return resolve (.binary t res l r)

end Tree

/-! ## Simplification

A tree with resolved types is reduced from the leaves up.  An operator on two
numbers is computed, a conversion of a number is carried out, a conversion of
a float is dropped, and the identities

* `x + 0`, `0 + x`, `x - 0`, `x * 1`, `1 * x`, `x / 1` become `x`,
* `x * 0`, `0 * x`, `x - x` become `0`

are applied to single symbols `x`.  A computed division is a float.  Numbers
have no sign, so that a negative one is written `0 - n`.  A divisor that
becomes zero ends the work. -/

namespace Tree

/-- Where a node stands: as a divisor, of the division at a position, or
elsewhere. -/
inductive Slot where
  | operand
  | divisor (position : Option Nat)

/-- Where the right child of a node with this token stands. -/
def Slot.ofRight (t : Token) : Slot :=
  if t.operator? = some .divide then .divisor t.position else .operand

/-- The type of an operation that is computed. -/
def foldedType (op : Operator) (result : Resolution) : ValueType :=
  if op = .divide ∨ result = .float then .float else .integer

/-- A computed value is one of its type. -/
def isFoldable (type : ValueType) (x : Single) : Bool :=
  x.isFinite && (type = .float || x.belowWordLimit)

/-- The literal of a value's magnitude. -/
def magnitude (type : ValueType) (x : Single) : Except ObjectError Literal :=
  match type with
  | .integer => Literal.ofInt x.abs.truncate
  | .float => Literal.ofSingle x.abs

/-- A signed number as a tree. -/
def ofSigned (type : ValueType) (negative : Bool) (size : Literal) : Tree :=
  if negative then
    .binary (.synthesized (.operator .subtract)) (.ofType type)
      (ofLiteral (.zero type)) (ofLiteral size)
  else ofLiteral size

/-- Computes an operation on two numbers. -/
def fold (t : Token) (result : Resolution) (op : Operator) (l r : Literal) :
    Except Error Tree :=
  let x := op.apply l.value r.value
  let type := foldedType op result
  if isFoldable type x then do
    let size ← (magnitude type x).mapError .object
    return ofSigned type (!x.isNonneg) size
  else
    .error (.simplify (.overflow t.position
      (l.text ++ " " ++ op.lexeme ++ " " ++ r.text)))

/-- Computes a node whose two children are numbers. -/
def foldConstants (node : Tree) : Except Error (Option Tree) :=
  match node.left?.bind (·.token.number?), node.right?.bind (·.token.number?),
    node.operator? with
  | some l, some r, some op => (fold node.token node.result op l r).map some
  | _, _, _ => .ok none

/-- Carries out the conversion of a number. -/
def foldCast (node : Tree) : Except Error (Option Tree) :=
  match node.isCast, node.right?.bind (·.token.number?) with
  | true, some literal =>
    ((Literal.ofSingle literal.value).mapError .object).map
      (some <| ofLiteral ·)
  | _, _ => .ok none

/-- The operand of a conversion that is a float already. -/
def floatOperand? (node : Tree) : Option Tree :=
  if node.isCast then node.right?.filter (·.result = .float) else none

/-- What an identity leaves of an operation on two tokens. -/
def identity? (op : Operator) (left right : Token) : Option Tree :=
  match left.kind, right.kind with
  | .identifier _, .number n =>
    match op with
    | .add | .subtract => if n.isZero then some (ofToken left) else none
    | .multiply =>
      if n.isZero then some (ofToken right)
      else if n.isOne then some (ofToken left)
      else none
    | .divide => if n.isOne then some (ofToken left) else none
    | .toFloat => none
  | .number n, .identifier _ =>
    match op with
    | .add => if n.isZero then some (ofToken right) else none
    | .multiply =>
      if n.isZero then some (ofToken left)
      else if n.isOne then some (ofToken right)
      else none
    | _ => none
  | .identifier a, .identifier b =>
    if op = .subtract ∧ a.attr = b.attr then some (ofLiteral (.zero a.type))
    else none
  | _, _ => none

/-- Applies an identity to a node. -/
def applyIdentity? (node : Tree) : Option Tree :=
  match node.left?, node.right?, node.operator? with
  | some l, some r, some op => identity? op l.token r.token
  | _, _, _ => none

/-- What a node is replaced by, by the first rule that applies to it. -/
def replacement? (node : Tree) : Except Error (Option Tree) := do
  match ← node.foldConstants with
  | some tree => return some tree
  | none =>
    match ← node.foldCast with
    | some tree => return some tree
    | none => return node.floatOperand?.or node.applyIdentity?

/-- Replaces a node, unless a divisor would become zero. -/
def reduceNode (slot : Slot) (node : Tree) : Except Error Tree := do
  match ← node.replacement? with
  | none => return node
  | some tree =>
    match slot with
    | .divisor position =>
      if tree.token.isZero then throw (.simplify (.divisionByZero position))
      else return tree
    | .operand => return tree

/-- Reduces a child that is a conversion. -/
def reduceCast (slot : Slot) : Option Tree → Except Error (Option Tree)
  | none => .ok none
  | some child =>
    if child.isCast then (child.reduceNode slot).map some
    else .ok (some child)

/-- Drops the conversion of an operand whose sibling is an integer. -/
def dropRedundantCasts : Tree → Tree
  | .binary t res l r =>
    ofParts t res
      (if l.isCast ∧ r.result = .integer then l.right? else some l)
      (if r.isCast ∧ l.result = .integer then r.right? else some r)
  | node => node

/-- Reduces a node whose children are reduced. -/
def settle (slot : Slot) (node : Tree) : Except Halted Tree := do
  let node := node.dropRedundantCasts.resolve
  let left ← (reduceCast .operand node.left?).mapError (⟨·, node⟩)
  let node := node.withChildren left node.right?
  let right ←
    (reduceCast (.ofRight node.token) node.right?).mapError (⟨·, node⟩)
  let node := node.withChildren node.left? right
  (node.reduceNode slot).mapError (⟨·, node⟩)

/-- Reduces a tree that stands in the given place. -/
def simplifyIn : Slot → Tree → Except Halted Tree
  | _, .leaf t res => .ok (.leaf t res)
  | slot, .leftOnly t res l => do
    let l ← (simplifyIn .operand l).mapError (.within (.leftOnly t res))
    settle slot (.leftOnly t res l)
  | slot, .rightOnly t res r => do
    let r ← (simplifyIn (.ofRight t) r).mapError (.within (.rightOnly t res))
    settle slot (.rightOnly t res r)
  | slot, .binary t res l r => do
    let l ← (simplifyIn .operand l).mapError
        (.within fun l => .binary t res l r)
    let r ← (simplifyIn (.ofRight t) r).mapError (.within (.binary t res l))
    settle slot (.binary t res l r)

/-- Simplifies a tree, which may come down to a single operand. -/
def simplify (tree : Tree) : Except Halted Tree := simplifyIn .operand tree

/-- Simplifies a tree, which must not come down to a single operand. -/
def optimize (tree : Tree) : Except Halted Tree := do
  let tree ← simplify tree
  if tree.isLeaf then throw ⟨.simplify (.degenerate tree.token), tree⟩
  return tree

end Tree

end ThreeAddress
