import Mathlib.Tactic
import ThreeAddress.Proofs.Token
import ThreeAddress.Tree.Parse

/-!
# Trees and their post-order

Assembling reads a post-order from its end and keeps what still waits in
frames.  This module shows that the frames never lose anything: reading the
post-order of a whole subtree is the same as handing that subtree to the
frames.  A tree is therefore determined by its post-order, provided that it
has the shape which assembling produces.
-/

namespace ThreeAddress

namespace Tree

/-- A tree of the shape which assembling produces: operands at the leaves,
operators over two subtrees with their type still open, and conversions over
one subtree. -/
def IsAssembled : Tree → Prop
  | .leaf t res => t.isOperand = true ∧ res = .ofToken t
  | .leftOnly _ _ _ => False
  | .rightOnly t res r =>
    t.operator? = some .toFloat ∧ res = .float ∧ r.IsAssembled
  | .binary t res l r =>
    t.IsArithmetic ∧ res = .unknown ∧ l.IsAssembled ∧ r.IsAssembled

/-- An expression as it is parsed: operands, and operators whose type is
open. -/
def IsExpression : Tree → Prop
  | .leaf t res => t.isOperand = true ∧ res = .ofToken t
  | .binary t res l r =>
    t.IsArithmetic ∧ res = .unknown ∧ l.IsExpression ∧ r.IsExpression
  | _ => False

theorem IsExpression.isAssembled
    {tree : Tree}
    (h : tree.IsExpression) :
    tree.IsAssembled := by
  induction tree with
  | leaf t res => exact h
  | leftOnly t res l ih | rightOnly t res r ih => exact h.elim
  | binary t res l r ihl ihr =>
      obtain ⟨hop, hres, hl, hr⟩ := h
      exact ⟨hop, hres, ihl hl, ihr hr⟩

def resume : Progress → List Token → Except InternalFault Tree
  | .waiting frames, rest => assemble rest frames
  | .complete tree, rest =>
    if rest.isEmpty then .ok tree else .error (.leftOver rest.length)

theorem assemble_operand
    {t : Token}
    (ht : t.isOperand = true)
    (rest : List Token) (frames : List Frame) :
    assemble (t :: rest) frames = resume (plug (ofToken t) frames) rest := by
  rw [assemble, Token.operator?_of_isOperand ht]
  simp only [ht, if_true]
  cases plug (ofToken t) frames <;> rfl

theorem assemble_cast
    {t : Token}
    (ht : t.operator? = some .toFloat)
    (rest : List Token) (frames : List Frame) :
    assemble (t :: rest) frames = assemble rest (.operand t :: frames) := by
  rw [assemble, ht]

theorem assemble_arithmetic
    {t : Token}
    (ht : t.IsArithmetic)
    (rest : List Token) (frames : List Frame) :
    assemble (t :: rest) frames = assemble rest (.right t :: frames) := by
  obtain ⟨op, hop, hne⟩ := ht
  rw [assemble, hop]
  cases op <;> simp_all

/-- Reading the post-order of a subtree from its end hands the subtree to the
frames that wait for it. -/
theorem assemble_postOrder
    {tree : Tree}
    (htree : tree.IsAssembled)
    (rest : List Token) (frames : List Frame) :
    assemble (tree.postOrder.reverse ++ rest) frames =
      resume (plug tree frames) rest := by
  induction tree generalizing rest frames with
  | leaf t res =>
      obtain ⟨hoperand, rfl⟩ := htree
      exact assemble_operand hoperand rest frames
  | leftOnly t res l ih =>
      exact htree.elim
  | rightOnly t res r ih =>
      obtain ⟨hcast, rfl, hr⟩ := htree
      simp only [postOrder, List.reverse_append, List.reverse_singleton,
        List.cons_append, List.nil_append]
      rw [assemble_cast hcast, ih hr]
      rfl
  | binary t res l r ihl ihr =>
      obtain ⟨hop, rfl, hl, hr⟩ := htree
      simp only [postOrder, List.reverse_append, List.reverse_singleton,
        List.cons_append, List.nil_append, List.append_assoc]
      -- The right subtree is complete first, and the operator then waits for
      -- the left one.
      rw [assemble_arithmetic hop, ihr hr]
      simp only [plug, resume]
      rw [ihl hl]
      rfl

theorem ofPostOrder_postOrder
    {tree : Tree}
    (htree : tree.IsAssembled) :
    ofPostOrder tree.postOrder = .ok tree := by
  have hread := assemble_postOrder htree [] []
  simpa [ofPostOrder, plug, resume] using hread

end Tree

end ThreeAddress
