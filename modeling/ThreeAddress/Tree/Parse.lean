import ThreeAddress.Tree.Basic

/-!
# From tokens to trees

Tokens are arranged in post-order, and a tree is built from that.
-/

namespace ThreeAddress

/-! ## Trees from their post-order

The tokens of a post-order are read from the end.  An operator waits first for
its right subtree, then for its left one, a conversion for its operand; what
waits is kept in a list of frames, the innermost first.  An operand completes
a subtree, and with it every frame that it was the last part of. -/

namespace Tree

/-- A node whose subtrees are not all there yet. -/
inductive Frame where
  /-- A conversion without its operand. -/
  | operand (token : Token)
  /-- An operator without either subtree. -/
  | right (token : Token)
  /-- An operator with its right subtree. -/
  | left (token : Token) (right : Tree)

/-- A whole tree, or frames that wait for more. -/
inductive Progress where
  | complete (tree : Tree)
  | waiting (frames : List Frame)

/-- Gives a completed subtree to the frames that wait for it. -/
def plug : Tree → List Frame → Progress
  | tree, [] => .complete tree
  | tree, .operand t :: frames => plug (castBy t tree) frames
  | tree, .right t :: frames => .waiting (.left t tree :: frames)
  | tree, .left t right :: frames => plug (join t tree right) frames

/-- Reads the tokens of a post-order from its end. -/
def assemble : List Token → List Frame → Except InternalFault Tree
  | [], _ => .error .sequenceEnded
  | t :: rest, frames =>
    match t.operator? with
    | some .toFloat => assemble rest (.operand t :: frames)
    | some _ => assemble rest (.right t :: frames)
    | none =>
      if t.isOperand then
        match plug (ofToken t) frames with
        | .waiting frames => assemble rest frames
        | .complete tree =>
          if rest.isEmpty then .ok tree else .error (.leftOver rest.length)
      else .error (.notBuildable t)

/-- The tree with a given post-order. -/
def ofPostOrder (tokens : List Token) : Except InternalFault Tree :=
  assemble tokens.reverse []

end Tree

/-! ## Parsing

Tokens in the order of the source text become a tree in three steps: every two
neighbours must be able to stand next to each other, the tokens are arranged
in post-order by the priorities of the operators, and the tree is built from
that.  Operators of one priority associate to the left. -/

namespace Token

/-- An operand can end with this token. -/
def endsOperand (t : Token) : Bool :=
  t.isOperand || t.bracket? = some .closing

/-- An operand can start with this token. -/
def startsOperand (t : Token) : Bool :=
  t.isOperand || t.bracket? = some .opening

end Token

/-- Checks every two neighbours: an operand and its end call for an operator
or a closing bracket, an operator and an opening bracket for the start of an
operand. -/
def checkNeighbours : List Token → Except GrammarFault Unit
  | left :: right :: rest =>
    if left.endsOperand && right.startsOperand then
      .error (.expectedOperator left)
    else if !left.endsOperand && !right.startsOperand then
      .error (.expectedOperand left)
    else checkNeighbours (right :: rest)
  | _ => .ok ()

/-- Checks the first token. -/
def checkFirst (t : Token) : Except GrammarFault Unit :=
  if t.operator?.isSome then .error (.leadingOperator t)
  else if t.bracket? = some .closing then .error (.leadingClosing t)
  else .ok ()

/-- Checks the last token. -/
def checkLast (t : Token) : Except GrammarFault Unit :=
  if t.operator?.isSome then .error (.trailingOperator t)
  else if t.bracket? = some .opening then .error (.trailingOpening t)
  else .ok ()

/-- Checks the order of the tokens: the first, every two neighbours, the
last. -/
def checkOrder (tokens : List Token) : Except GrammarFault Unit :=
  match tokens.head?, tokens.getLast? with
  | some first, some last => do
    checkFirst first
    checkNeighbours tokens
    checkLast last
  | _, _ => .error .empty

/-- A waiting operator comes before a new one of at most its priority. -/
def comesBefore (op : Operator) (waiting : Token) : Bool :=
  waiting.operator?.any fun top => op.priority ≤ top.priority

/-- Arranges tokens in post-order.  Operators and opening brackets wait on a
stack until what they wait for has come. -/
def arrange : List Token → List Token → Except GrammarFault (List Token)
  | [], stack =>
    match stack.find? (·.bracket?.isSome) with
    | some bracket => .error (.unmatchedOpening bracket)
    | none => .ok stack
  | t :: rest, stack =>
    match t.kind with
    | .number _ | .identifier _ => do
      let output ← arrange rest stack
      return t :: output
    | .operator op => do
      let output ← arrange rest (t :: stack.dropWhile (comesBefore op))
      return stack.takeWhile (comesBefore op) ++ output
    | .bracket .opening => arrange rest (t :: stack)
    | .bracket .closing =>
      match stack.dropWhile (·.bracket? != some .opening) with
      | [] => .error (.unmatchedClosing t)
      | _ :: stack' => do
        let output ← arrange rest stack'
        return stack.takeWhile (·.bracket? != some .opening) ++ output

/-- The tree of an expression. -/
def parse (tokens : List Token) : Except Error Tree := do
  (checkOrder tokens).mapError .grammar
  let output ← (arrange tokens []).mapError .grammar
  (Tree.ofPostOrder output).mapError .internal

end ThreeAddress
