import ThreeAddress.Proofs.Acceptance
import ThreeAddress.Tree.Simplify

/-!
# Types that fit together

In a consistent tree an operator has the type of both its operands, and a
conversion turns an integer into a float.  Resolving a node over consistent
children makes it consistent, whatever the children's types are, so that the
analysis of a parsed expression yields a consistent tree.
-/

namespace ThreeAddress

namespace Tree

/-- The identifiers of a tree, from left to right. -/
def identifiers (tree : Tree) : List Identifier :=
  tree.postOrder.filterMap Token.identifier?

/-- Every node has the type that its token and its children call for. -/
def Consistent : Tree → Prop
  | .leaf t res => t.isOperand = true ∧ res = .ofToken t
  | .leftOnly _ _ _ => False
  | .rightOnly t res r =>
    t.operator? = some .toFloat ∧ res = .float ∧ r.result = .integer ∧
      r.Consistent
  | .binary t res l r =>
    t.IsArithmetic ∧ l.result = res ∧ r.result = res ∧ l.Consistent ∧
      r.Consistent

end Tree

theorem Token.IsArithmetic.identifier?_eq
    {t : Token}
    (h : t.IsArithmetic) :
    t.identifier? = none := by
  obtain ⟨op, hop, _⟩ := h
  exact Token.identifier?_of_operator? hop

theorem Token.IsArithmetic.ne_toFloat
    {t : Token}
    (h : t.IsArithmetic) :
    t.operator? ≠ some .toFloat := by
  obtain ⟨op, hop, hne⟩ := h
  simpa [hop] using hne

namespace Tree

@[simp] theorem identifiers_leaf
    (t : Token) (res : Resolution) :
    (Tree.leaf t res).identifiers = t.identifier?.toList := by
  cases h : t.identifier? <;> simp [identifiers, postOrder, h]

theorem identifiers_rightOnly
    {t : Token}
    (ht : t.identifier? = none)
    (res : Resolution) (r : Tree) :
    (Tree.rightOnly t res r).identifiers = r.identifiers := by
  simp [identifiers, postOrder, ht]

theorem identifiers_binary
    {t : Token}
    (ht : t.identifier? = none)
    (res : Resolution) (l r : Tree) :
    (Tree.binary t res l r).identifiers = l.identifiers ++ r.identifiers := by
  simp [identifiers, postOrder, ht]

theorem identifiers_binary_subset
    {t : Token}
    (ht : t.identifier? = none)
    {res res' : Resolution} {l r l' r' : Tree}
    (hl : l'.identifiers ⊆ l.identifiers)
    (hr : r'.identifiers ⊆ r.identifiers) :
    (Tree.binary t res' l' r').identifiers ⊆
      (Tree.binary t res l r).identifiers := by
  rw [identifiers_binary ht, identifiers_binary ht]
  exact List.append_subset.mpr ⟨List.subset_append_of_subset_left _ hl,
    List.subset_append_of_subset_right _ hr⟩

theorem ofToken_result_cases
    {t : Token}
    (h : t.isOperand = true) :
    Resolution.ofToken t = .integer ∨ Resolution.ofToken t = .float := by
  cases hkind : t.kind with
  | operator op | bracket side => simp [Token.isOperand, hkind] at h
  | number literal =>
      cases htype : literal.type <;>
        simp [Resolution.ofToken, Token.type?, hkind, htype,
          Resolution.ofType]
  | identifier id =>
      cases htype : id.type <;>
        simp [Resolution.ofToken, Token.type?, hkind, htype,
          Resolution.ofType]

theorem Consistent.result_cases
    {tree : Tree}
    (h : tree.Consistent) :
    tree.result = .integer ∨ tree.result = .float := by
  induction tree with
  | leaf t res =>
      obtain ⟨hoperand, rfl⟩ := h
      exact ofToken_result_cases hoperand
  | leftOnly t res l ih => exact h.elim
  | rightOnly t res r ih =>
      obtain ⟨_, rfl, _⟩ := h
      exact .inr rfl
  | binary t res l r ihl ihr =>
      obtain ⟨_, hl, _, hconsistent, _⟩ := h
      rw [show (Tree.binary t res l r).result = l.result from hl.symm]
      exact ihl hconsistent

theorem Consistent.result_eq_float
    {tree : Tree}
    (h : tree.Consistent)
    (hne : tree.result ≠ .integer) :
    tree.result = .float :=
  h.result_cases.resolve_left hne

/-! ## Resolving a node -/

theorem castInteger_consistent
    {tree : Tree}
    (h : tree.Consistent) :
    tree.castInteger.Consistent ∧ tree.castInteger.result = .float := by
  unfold castInteger
  split
  · next hinteger => exact ⟨⟨rfl, rfl, hinteger, h⟩, rfl⟩
  · next hne => exact ⟨h, h.result_eq_float hne⟩

@[simp] theorem identifiers_castInteger
    (tree : Tree) :
    tree.castInteger.identifiers = tree.identifiers := by
  unfold castInteger
  split
  · exact identifiers_rightOnly rfl _ _
  · rfl

theorem resolve_binary_integer
    {t : Token}
    (ht : t.IsArithmetic)
    (res : Resolution) {l r : Tree}
    (hl : l.result = .integer)
    (hr : r.result = .integer) :
    resolve (.binary t res l r) = .binary t .integer l r := by
  simp [resolve, ht.ne_toFloat, hl, hr]

theorem resolve_binary_float
    {t : Token}
    (ht : t.IsArithmetic)
    (res : Resolution) {l r : Tree}
    (h : ¬(l.result = .integer ∧ r.result = .integer)) :
    resolve (.binary t res l r) =
      .binary t .float l.castInteger r.castInteger := by
  simp [resolve, ht.ne_toFloat, h]

theorem resolve_consistent
    {t : Token}
    (ht : t.IsArithmetic)
    (res : Resolution) {l r : Tree}
    (hl : l.Consistent)
    (hr : r.Consistent) :
    (resolve (.binary t res l r)).Consistent := by
  by_cases hinteger : l.result = .integer ∧ r.result = .integer
  · rw [resolve_binary_integer ht res hinteger.1 hinteger.2]
    exact ⟨ht, hinteger.1, hinteger.2, hl, hr⟩
  · rw [resolve_binary_float ht res hinteger]
    have hcastl := castInteger_consistent hl
    have hcastr := castInteger_consistent hr
    exact ⟨ht, hcastl.2, hcastr.2, hcastl.1, hcastr.1⟩

theorem identifiers_resolve
    {t : Token}
    (ht : t.IsArithmetic)
    (res : Resolution) (l r : Tree) :
    (resolve (.binary t res l r)).identifiers =
      l.identifiers ++ r.identifiers := by
  by_cases hinteger : l.result = .integer ∧ r.result = .integer
  · rw [resolve_binary_integer ht res hinteger.1 hinteger.2,
      identifiers_binary ht.identifier?_eq]
  · rw [resolve_binary_float ht res hinteger,
      identifiers_binary ht.identifier?_eq, identifiers_castInteger,
      identifiers_castInteger]

/-! ## The analysis of an expression -/

theorem analyze_binary_eq_ok
    {t : Token} {res : Resolution} {l r tree : Tree}
    (h : analyze (.binary t res l r) = .ok tree) :
    dividesByZero t r = false ∧
      ∃ l' r', analyze l = .ok l' ∧ analyze r = .ok r' ∧
        tree = resolve (.binary t res l' r') := by
  rw [analyze] at h
  split at h
  · simp at h
  · next hzero =>
      simp only [Success.bind_eq_ok_iff, Success.mapError_eq_ok_iff,
        Success.pure_eq_ok_iff] at h
      obtain ⟨l', hl, r', hr, rfl⟩ := h
      exact ⟨by simpa using hzero, l', r', hl, hr, rfl⟩

theorem analyze_consistent
    {tree tree' : Tree}
    (htree : tree.IsExpression)
    (h : tree.analyze = .ok tree') :
    tree'.Consistent ∧ tree'.identifiers = tree.identifiers := by
  induction tree generalizing tree' with
  | leaf t res =>
      obtain ⟨hoperand, rfl⟩ := htree
      obtain rfl : ofToken t = tree' := by simpa [analyze, resolve] using h
      exact ⟨⟨hoperand, rfl⟩, rfl⟩
  | leftOnly t res l ih => exact htree.elim
  | rightOnly t res r ih => exact htree.elim
  | binary t res l r ihl ihr =>
      obtain ⟨ht, _, hl, hr⟩ := htree
      obtain ⟨_, l', r', hl', hr', rfl⟩ := analyze_binary_eq_ok h
      obtain ⟨hconsl, hidl⟩ := ihl hl hl'
      obtain ⟨hconsr, hidr⟩ := ihr hr hr'
      refine ⟨resolve_consistent ht res hconsl hconsr, ?_⟩
      rw [identifiers_resolve ht,
        identifiers_binary ht.identifier?_eq, hidl, hidr]

end Tree

end ThreeAddress
