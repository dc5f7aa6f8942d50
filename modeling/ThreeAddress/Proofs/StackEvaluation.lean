import ThreeAddress.Proofs.PostOrder

/-!
# Lists of tokens that are a post-order

A post-order can be evaluated from left to right on a stack.  Assembling goes
the other way: it reads the list from its end, and an operator has to wait for
what it joins.  Both accept the same lists.  On a stack of trees the
post-orders make up all that has been read so far; in the frames they make up
all that has been read from the end.
-/

namespace ThreeAddress

/-- The number of values that the token takes off a stack. -/
def Token.arity (t : Token) : Nat :=
  match t.operator? with
  | some .toFloat => 1
  | some _ => 2
  | none => 0

/-- The number of values on a stack after the tokens have been evaluated on it
from left to right.  Each token puts back one value for those that it takes,
and there is no result if the values do not suffice. -/
def stackHeight? : List Token → Nat → Option Nat
  | [], height => some height
  | t :: rest, height =>
    if t.arity ≤ height then stackHeight? rest (height - t.arity + 1)
    else none

namespace Token

theorem arity_of_isOperand
    {t : Token}
    (h : t.isOperand = true) :
    t.arity = 0 := by
  rw [arity, operator?_of_isOperand h]

theorem arity_of_cast
    {t : Token}
    (h : t.operator? = some .toFloat) :
    t.arity = 1 := by
  rw [arity, h]

theorem IsArithmetic.arity_eq
    {t : Token}
    (h : t.IsArithmetic) :
    t.arity = 2 := by
  obtain ⟨op, hop, hne⟩ := h
  rw [arity, hop]
  cases op with
  | toFloat => contradiction
  | add | subtract | multiply | divide => rfl

/-- A token that is no bracket is an operand, a conversion or an operator on
two operands. -/
theorem cases_of_bracket?_eq_none
    {t : Token}
    (h : t.bracket? = none) :
    t.isOperand = true ∨ t.operator? = some .toFloat ∨ t.IsArithmetic := by
  rcases isOperand_or_operator? h with hoperand | ⟨op, hop⟩
  · exact .inl hoperand
  · by_cases hcast : op = .toFloat
    · exact .inr (.inl (hcast ▸ hop))
    · exact .inr (.inr ⟨op, hop, hcast⟩)

end Token

namespace Tree

/-! ## Evaluating a post-order -/

theorem stackHeight?_cons
    {t : Token} {height : Nat}
    (h : t.arity ≤ height)
    (rest : List Token) :
    stackHeight? (t :: rest) height =
      stackHeight? rest (height - t.arity + 1) :=
  if_pos h

/-- Evaluating the post-order of a tree puts one value on the stack, whatever
is there already and whatever follows. -/
theorem IsAssembled.stackHeight?_postOrder
    {tree : Tree}
    (h : tree.IsAssembled)
    (rest : List Token)
    (height : Nat) :
    stackHeight? (tree.postOrder ++ rest) height =
      stackHeight? rest (height + 1) := by
  induction tree generalizing rest height with
  | leaf t res =>
      have harity := Token.arity_of_isOperand h.1
      simp only [postOrder, List.singleton_append]
      rw [stackHeight?_cons (harity ▸ Nat.zero_le height), harity,
        Nat.sub_zero]
  | leftOnly t res l ih => exact h.elim
  | rightOnly t res r ih =>
      obtain ⟨hcast, _, hr⟩ := h
      have harity := Token.arity_of_cast hcast
      simp only [postOrder, List.append_assoc, List.singleton_append]
      rw [ih hr, stackHeight?_cons (by omega), harity, Nat.add_sub_cancel]
  | binary t res l r ihl ihr =>
      obtain ⟨hop, _, hl, hr⟩ := h
      have harity := hop.arity_eq
      simp only [postOrder, List.append_assoc, List.singleton_append]
      rw [ihl hl, ihr hr, stackHeight?_cons (by omega), harity]
      rfl

theorem IsAssembled.bracket?_of_mem_postOrder
    {tree : Tree}
    (h : tree.IsAssembled) :
    ∀ t ∈ tree.postOrder, t.bracket? = none := by
  induction tree with
  | leaf t res => simpa [postOrder] using Token.bracket?_of_isOperand h.1
  | leftOnly t res l ih => exact h.elim
  | rightOnly t res r ih =>
      obtain ⟨hcast, _, hr⟩ := h
      simp only [postOrder, List.forall_mem_append, List.forall_mem_singleton]
      exact ⟨ih hr, Token.bracket?_of_operator? hcast⟩
  | binary t res l r ihl ihr =>
      obtain ⟨⟨op, hop, _⟩, _, hl, hr⟩ := h
      simp only [postOrder, List.forall_mem_append, List.forall_mem_singleton]
      exact ⟨⟨ihl hl, ihr hr⟩, Token.bracket?_of_operator? hop⟩

/-! ## A stack of trees -/

/-- The trees of a stack, the top first, have the tokens for their
post-orders. -/
structure Spells (stack : List Tree) (tokens : List Token) : Prop where
  isAssembled : ∀ tree ∈ stack, tree.IsAssembled
  flatMap_eq : stack.reverse.flatMap postOrder = tokens

theorem spells_nil : Spells [] [] := ⟨by simp, rfl⟩

theorem Spells.push
    {stack : List Tree} {tokens : List Token} {t : Token}
    (h : Spells stack tokens)
    (ht : t.isOperand = true) :
    Spells (ofToken t :: stack) (tokens ++ [t]) where
  isAssembled := List.forall_mem_cons.mpr ⟨⟨ht, rfl⟩, h.isAssembled⟩
  flatMap_eq := by
    rw [List.reverse_cons, List.flatMap_append, h.flatMap_eq]
    rfl

theorem Spells.convert
    {operand : Tree} {stack : List Tree} {tokens : List Token} {t : Token}
    (h : Spells (operand :: stack) tokens)
    (ht : t.operator? = some .toFloat) :
    Spells (castBy t operand :: stack) (tokens ++ [t]) where
  isAssembled := by
    obtain ⟨hoperand, hstack⟩ := List.forall_mem_cons.mp h.isAssembled
    exact List.forall_mem_cons.mpr ⟨⟨ht, rfl, hoperand⟩, hstack⟩
  flatMap_eq := by
    rw [← h.flatMap_eq]
    simp [castBy, postOrder]

theorem Spells.join
    {l r : Tree} {stack : List Tree} {tokens : List Token} {t : Token}
    (h : Spells (r :: l :: stack) tokens)
    (ht : t.IsArithmetic) :
    Spells (Tree.join t l r :: stack) (tokens ++ [t]) where
  isAssembled := by
    obtain ⟨hr, hl, hstack⟩ := by simpa using h.isAssembled
    exact List.forall_mem_cons.mpr ⟨⟨ht, rfl, hl, hr⟩, hstack⟩
  flatMap_eq := by
    rw [← h.flatMap_eq]
    simp [Tree.join, postOrder]

/-- One token more: as many trees as it takes values off the stack make way
for one. -/
theorem Spells.step
    {stack : List Tree} {tokens : List Token} {t : Token}
    (h : Spells stack tokens)
    (hbracket : t.bracket? = none)
    (harity : t.arity ≤ stack.length) :
    ∃ next, Spells next (tokens ++ [t]) ∧
      next.length = stack.length - t.arity + 1 := by
  rcases Token.cases_of_bracket?_eq_none hbracket with
    hoperand | hcast | harithmetic
  · refine ⟨_, h.push hoperand, ?_⟩
    rw [Token.arity_of_isOperand hoperand, List.length_cons, Nat.sub_zero]
  · rw [Token.arity_of_cast hcast] at harity ⊢
    match stack, h with
    | operand :: stack, h => exact ⟨_, h.convert hcast, rfl⟩
  · rw [harithmetic.arity_eq] at harity ⊢
    match stack, h with
    | r :: l :: stack, h => exact ⟨_, h.join harithmetic, rfl⟩

/-- The height of the stack after a run is that of a stack of trees, which
spell all that has been read. -/
theorem Spells.run
    {stack : List Tree} {seen rest : List Token} {height : Nat}
    (h : Spells stack seen)
    (hbracket : ∀ t ∈ rest, t.bracket? = none)
    (hheight : stackHeight? rest stack.length = some height) :
    ∃ final, Spells final (seen ++ rest) ∧ final.length = height := by
  induction rest generalizing stack seen with
  | nil => exact ⟨stack, by simpa using h, Option.some.inj hheight⟩
  | cons t rest ih =>
      obtain ⟨ht, hrest⟩ := List.forall_mem_cons.mp hbracket
      rw [stackHeight?] at hheight
      split at hheight
      · next harity =>
          obtain ⟨next, hnext, hlength⟩ := h.step ht harity
          rw [← hlength] at hheight
          rw [List.append_cons]
          exact ih hnext hrest hheight
      · contradiction

theorem exists_postOrder_of_stackHeight?
    {tokens : List Token}
    (hbracket : ∀ t ∈ tokens, t.bracket? = none)
    (hheight : stackHeight? tokens 0 = some 1) :
    ∃ tree : Tree, tree.IsAssembled ∧ tree.postOrder = tokens := by
  obtain ⟨final, hfinal, hlength⟩ := spells_nil.run hbracket hheight
  obtain ⟨tree, rfl⟩ := List.length_eq_one_iff.mp hlength
  exact ⟨tree, hfinal.isAssembled tree (by simp),
    by simpa using hfinal.flatMap_eq⟩

/-! ## What assembling has read -/

/-- The tokens that a frame has been made of. -/
def Frame.tokens : Frame → List Token
  | .operand t | .right t => [t]
  | .left t r => r.postOrder ++ [t]

/-- A frame that a subtree makes a tree, or the next frame on the way to
one. -/
def Frame.IsAssembled : Frame → Prop
  | .operand t => t.operator? = some .toFloat
  | .right t => t.IsArithmetic
  | .left t r => t.IsArithmetic ∧ r.IsAssembled

/-- The tree, or the frames that wait, make up the end of a post-order. -/
def Progress.Ends : Progress → List Token → Prop
  | .complete tree, tokens => tree.IsAssembled ∧ tree.postOrder = tokens
  | .waiting frames, tokens =>
    (∀ frame ∈ frames, frame.IsAssembled) ∧
      frames.flatMap Frame.tokens = tokens

/-- Handing over a subtree puts its post-order in front of what the frames
hold. -/
theorem plug_ends
    {tree : Tree} {frames : List Frame}
    (htree : tree.IsAssembled)
    (hframes : ∀ frame ∈ frames, frame.IsAssembled) :
    (plug tree frames).Ends
      (tree.postOrder ++ frames.flatMap Frame.tokens) := by
  induction frames generalizing tree with
  | nil => exact ⟨htree, (List.append_nil _).symm⟩
  | cons frame frames ih =>
      obtain ⟨hframe, hothers⟩ := List.forall_mem_cons.mp hframes
      cases frame with
      | operand t =>
          have hcast : (castBy t tree).IsAssembled := ⟨hframe, rfl, htree⟩
          simpa [plug, Frame.tokens, castBy, postOrder] using ih hcast hothers
      | right t =>
          refine ⟨List.forall_mem_cons.mpr ⟨⟨hframe, htree⟩, hothers⟩, ?_⟩
          simp [Frame.tokens]
      | left t r =>
          have hjoin : (Tree.join t tree r).IsAssembled :=
            ⟨hframe.1, rfl, htree, hframe.2⟩
          simpa [plug, Frame.tokens, Tree.join, postOrder]
            using ih hjoin hothers

/-- The tokens that are still to be read stand before those that the frames
hold. -/
theorem assemble_eq_ok
    {tokens : List Token} {frames : List Frame} {tree : Tree}
    (hframes : ∀ frame ∈ frames, frame.IsAssembled)
    (h : assemble tokens frames = .ok tree) :
    tree.IsAssembled ∧
      tree.postOrder = tokens.reverse ++ frames.flatMap Frame.tokens := by
  induction tokens generalizing frames with
  | nil => contradiction
  | cons t rest ih =>
      rw [List.reverse_cons, List.append_assoc]
      by_cases hoperand : t.isOperand = true
      · rw [assemble_operand hoperand] at h
        have hleaf : (ofToken t).IsAssembled := ⟨hoperand, rfl⟩
        have hends := plug_ends hleaf hframes
        cases hplug : plug (ofToken t) frames with
        | waiting next =>
            rw [hplug] at h hends
            rw [show [t] ++ _ = _ from hends.2.symm]
            exact ih hends.1 h
        | complete whole =>
            rw [hplug] at h hends
            rw [resume] at h
            split at h
            · next hempty =>
                obtain rfl := Except.ok.inj h
                rw [List.isEmpty_iff.mp hempty]
                exact hends
            · contradiction
      · cases hop : t.operator? with
        | none => simp [assemble, hop, hoperand] at h
        | some op =>
            by_cases hcast : op = .toFloat
            · have hframe : (Frame.operand t).IsAssembled :=
                hop.trans (congrArg some hcast)
              rw [assemble_cast hframe] at h
              exact ih (List.forall_mem_cons.mpr ⟨hframe, hframes⟩) h
            · have hframe : (Frame.right t).IsAssembled := ⟨op, hop, hcast⟩
              rw [assemble_arithmetic hframe] at h
              exact ih (List.forall_mem_cons.mpr ⟨hframe, hframes⟩) h

/-- Building a tree and writing its post-order are inverse to each other. -/
theorem ofPostOrder_eq_ok_iff
    {tokens : List Token} {tree : Tree} :
    ofPostOrder tokens = .ok tree ↔
      tree.IsAssembled ∧ tree.postOrder = tokens := by
  constructor
  · intro h
    have hframes : ∀ frame ∈ ([] : List Frame), frame.IsAssembled := by simp
    simpa using assemble_eq_ok hframes h
  · rintro ⟨htree, rfl⟩
    exact ofPostOrder_postOrder htree

end Tree

/-- A tree can be built from exactly those lists without brackets whose
evaluation on an empty stack never lacks a value and leaves one.  The list is
then the post-order of the tree, in which operators stand over two subtrees
and conversions over one. -/
theorem ofPostOrder_succeeds_iff_one_remains
    (tokens : List Token) :
    ((∃ tree, Tree.ofPostOrder tokens = .ok tree) ↔
      (∀ t ∈ tokens, t.bracket? = none) ∧ stackHeight? tokens 0 = some 1) ∧
    ∀ tree, Tree.ofPostOrder tokens = .ok tree →
      tree.IsAssembled ∧ tree.postOrder = tokens := by
  refine ⟨⟨?_, ?_⟩, fun tree htree => Tree.ofPostOrder_eq_ok_iff.mp htree⟩
  · rintro ⟨tree, htree⟩
    obtain ⟨hassembled, rfl⟩ := Tree.ofPostOrder_eq_ok_iff.mp htree
    refine ⟨hassembled.bracket?_of_mem_postOrder, ?_⟩
    simpa [stackHeight?] using hassembled.stackHeight?_postOrder [] 0
  · rintro ⟨hbracket, hheight⟩
    obtain ⟨tree, htree⟩ :=
      Tree.exists_postOrder_of_stackHeight? hbracket hheight
    exact ⟨tree, Tree.ofPostOrder_eq_ok_iff.mpr htree⟩

/-- A conversion of a sum below a quotient: the stack holds three values at
most. -/
theorem ofPostOrder_succeeds_converted_sum :
    let a : Token := ⟨.identifier ⟨1, .integer, .user, by decide⟩, some 1⟩
    let operator (op : Operator) : Token := .synthesized (.operator op)
    let tokens :=
      [a, a, a, operator .add, operator .toFloat, operator .divide]
    stackHeight? tokens 0 = some 1 ∧
      ∃ tree, Tree.ofPostOrder tokens = .ok tree ∧ tree.IsAssembled ∧
        tree.postOrder = tokens := by
  intro a operator tokens
  have hheight : stackHeight? tokens 0 = some 1 := by decide
  obtain ⟨hiff, hpostOrder⟩ := ofPostOrder_succeeds_iff_one_remains tokens
  obtain ⟨tree, htree⟩ := hiff.mpr ⟨by decide, hheight⟩
  exact ⟨hheight, tree, htree, hpostOrder tree htree⟩

end ThreeAddress
