import ThreeAddress.Proofs.NormalForm

/-!
# Trees rebuilt from their post-order

A post-order holds tokens only: the types of the operators are lost with it,
and so is everything that the analysis has found out.  Nothing of that is
needed to get the tree back.  In a consistent tree every type follows from the
leaves, no conversion is missing, and no conversion is one too many.

What can still stand in the way is the check that no divisor is the number
zero.  Compiled trees have passed it, and simplification does not undo it:
whatever takes the place of a divisor is looked at when it does, and no
divisor is laid bare by dropping a conversion.
-/

namespace ThreeAddress

namespace Tree

/-- No division has the number zero for its divisor. -/
def HasNoZeroDivisor : Tree → Prop
  | .leaf _ _ => True
  | .leftOnly _ _ l => l.HasNoZeroDivisor
  | .rightOnly _ _ r => r.HasNoZeroDivisor
  | .binary t _ l r =>
    dividesByZero t r = false ∧ l.HasNoZeroDivisor ∧ r.HasNoZeroDivisor

/-- The tree before the types of its operators were resolved, with all its
conversions. -/
def unresolved : Tree → Tree
  | .leaf t res => .leaf t res
  | .leftOnly t res l => .leftOnly t res l.unresolved
  | .rightOnly t res r => .rightOnly t res r.unresolved
  | .binary t _ l r => .binary t .unknown l.unresolved r.unresolved

/-! ## Building and analyzing again -/

theorem postOrder_unresolved
    (tree : Tree) :
    tree.unresolved.postOrder = tree.postOrder := by
  induction tree with
  | leaf t res => rfl
  | leftOnly t res l ih => simp only [unresolved, postOrder, ih]
  | rightOnly t res r ih => simp only [unresolved, postOrder, ih]
  | binary t res l r ihl ihr => simp only [unresolved, postOrder, ihl, ihr]

theorem token_unresolved
    (tree : Tree) :
    tree.unresolved.token = tree.token := by
  cases tree <;> rfl

theorem dividesByZero_unresolved
    (t : Token) (tree : Tree) :
    dividesByZero t tree.unresolved = dividesByZero t tree := by
  rw [dividesByZero, dividesByZero, token_unresolved]

theorem Consistent.isAssembled_unresolved
    {tree : Tree}
    (h : tree.Consistent) :
    tree.unresolved.IsAssembled := by
  induction tree with
  | leaf t res => exact h
  | leftOnly t res l ih => exact h.elim
  | rightOnly t res r ih =>
      rcases h with ⟨ht, hres, _, hr⟩
      exact ⟨ht, hres, ih hr⟩
  | binary t res l r ihl ihr =>
      rcases h with ⟨ht, _, _, hl, hr⟩
      exact ⟨ht, rfl, ihl hl, ihr hr⟩

theorem Consistent.resolve_binary
    {t : Token} {res : Resolution} {l r : Tree}
    (h : (Tree.binary t res l r).Consistent)
    (res' : Resolution) :
    resolve (.binary t res' l r) = .binary t res l r := by
  rcases h with ⟨ht, hresl, hresr, hl, _⟩
  by_cases hinteger : res = .integer
  · rw [hinteger] at hresl hresr ⊢
    exact resolve_binary_integer ht res' hresl hresr
  · have hfloat : res = .float := by
      rw [← hresl] at hinteger ⊢
      exact hl.result_eq_float hinteger
    rw [hfloat] at hresl hresr ⊢
    have hneither : ¬(l.result = .integer ∧ r.result = .integer) := by
      simp [hresl]
    rw [resolve_binary_float ht res' hneither, castInteger_of_float hresl,
      castInteger_of_float hresr]

/-- The analysis finds every type of a consistent tree again. -/
theorem Consistent.analyze_unresolved
    {tree : Tree}
    (h : tree.Consistent)
    (hzero : tree.HasNoZeroDivisor) :
    tree.unresolved.analyze = .ok tree := by
  induction tree with
  | leaf t res =>
      rw [h.2]
      rfl
  | leftOnly t res l ih => exact h.elim
  | rightOnly t res r ih =>
      rcases h with ⟨ht, hres, _, hr⟩
      have hdivides : dividesByZero t r.unresolved = false := by
        simp [dividesByZero, ht]
      simp only [unresolved, analyze, hdivides, Bool.false_eq_true, if_false,
        ih hr hzero, Success.mapError_ok, Success.ok_bind, resolve,
          ht, if_true,
        hres]
      rfl
  | binary t res l r ihl ihr =>
      have hresolve := h.resolve_binary
      rcases h with ⟨_, _, _, hl, hr⟩
      rcases hzero with ⟨hdivides, hzerol, hzeror⟩
      rw [← dividesByZero_unresolved] at hdivides
      simp only [unresolved, analyze, hdivides, Bool.false_eq_true, if_false,
        ihl hl hzerol, ihr hr hzeror, Success.mapError_ok, Success.ok_bind,
        hresolve]
      rfl

theorem Consistent.exists_ofPostOrder
    {tree : Tree}
    (h : tree.Consistent)
    (hzero : tree.HasNoZeroDivisor) :
    ∃ rebuilt, ofPostOrder tree.postOrder = .ok rebuilt ∧
      rebuilt.analyze = .ok tree := by
  refine ⟨tree.unresolved, ?_, h.analyze_unresolved hzero⟩
  rw [← postOrder_unresolved]
  exact ofPostOrder_postOrder h.isAssembled_unresolved

/-! ## Divisors of an analyzed tree -/

end Tree

theorem Token.isZero_of_operator?
    {t : Token} {op : Operator}
    (h : t.operator? = some op) :
    t.isZero = false := by
  cases hkind : t.kind <;> simp_all [operator?, isZero, number?]

namespace Tree

theorem dividesByZero_of_operator?
    (t : Token) {r : Tree} {op : Operator}
    (h : r.token.operator? = some op) :
    dividesByZero t r = false := by
  rw [dividesByZero, Token.isZero_of_operator? h, Bool.and_false]

theorem dividesByZero_castInteger
    {t : Token} {r : Tree}
    (h : dividesByZero t r = false) :
    dividesByZero t r.castInteger = false := by
  unfold castInteger
  split
  · exact dividesByZero_of_operator? t rfl
  · exact h

theorem HasNoZeroDivisor.castInteger
    {tree : Tree}
    (h : tree.HasNoZeroDivisor) :
    tree.castInteger.HasNoZeroDivisor := by
  unfold Tree.castInteger
  split
  · exact h
  · exact h

theorem token_resolve
    (node : Tree) :
    node.resolve.token = node.token := by
  cases node with
  | leaf t res | leftOnly t res l | rightOnly t res r => rfl
  | binary t res l r =>
      rw [resolve]
      split
      · rfl
      · split <;> rfl

theorem hasNoZeroDivisor_resolve
    {t : Token}
    (ht : t.IsArithmetic)
    (res : Resolution) {l r : Tree}
    (hdivides : dividesByZero t r = false)
    (hl : l.HasNoZeroDivisor)
    (hr : r.HasNoZeroDivisor) :
    (resolve (.binary t res l r)).HasNoZeroDivisor := by
  by_cases hinteger : l.result = .integer ∧ r.result = .integer
  · rw [resolve_binary_integer ht res hinteger.1 hinteger.2]
    exact ⟨hdivides, hl, hr⟩
  · rw [resolve_binary_float ht res hinteger]
    exact ⟨dividesByZero_castInteger hdivides, hl.castInteger, hr.castInteger⟩

theorem IsExpression.isShaped
    {tree : Tree}
    (h : tree.IsExpression) :
    tree.IsShaped := by
  induction tree with
  | leaf t res => exact h.1
  | leftOnly t res l ih | rightOnly t res r ih => exact h.elim
  | binary t res l r ihl ihr =>
      rcases h with ⟨ht, _, hl, hr⟩
      exact ⟨ht, ihl hl, ihr hr⟩

theorem IsShaped.hasNoZeroDivisor
    {tree tree' : Tree}
    (htree : tree.IsShaped)
    (h : tree.analyze = .ok tree') :
    tree'.token = tree.token ∧ tree'.HasNoZeroDivisor := by
  induction tree generalizing tree' with
  | leaf t res =>
      obtain rfl : ofToken t = tree' := by simpa [analyze, resolve] using h
      exact ⟨rfl, trivial⟩
  | leftOnly t res l ih => exact htree.elim
  | rightOnly t res r ih =>
      rcases htree with ⟨ht, hr⟩
      rcases analyze_cast_eq_ok ht h with ⟨r', hr', rfl⟩
      exact ⟨rfl, (ih hr hr').2⟩
  | binary t res l r ihl ihr =>
      rcases htree with ⟨ht, hl, hr⟩
      rcases analyze_binary_eq_ok h with ⟨hdivides, l', r', hl', hr', rfl⟩
      rcases ihl hl hl' with ⟨_, hzerol⟩
      rcases ihr hr hr' with ⟨htoken, hzeror⟩
      have hdivides' : dividesByZero t r' = false := by
        rw [dividesByZero, htoken]
        exact hdivides
      exact ⟨token_resolve _,
        hasNoZeroDivisor_resolve ht res hdivides' hzerol hzeror⟩

/-! ## Divisors of a simplified tree -/

/-- The tree may stand in this place: a divisor is not the number zero. -/
def Slot.Admits : Slot → Tree → Prop
  | .operand, _ => True
  | .divisor _, tree => tree.token.isZero = false

theorem Slot.operand_admits
    (tree : Tree) :
    Slot.operand.Admits tree := trivial

theorem Slot.admits_ofRight_iff
    {t : Token} {r : Tree} :
    (Slot.ofRight t).Admits r ↔ dividesByZero t r = false := by
  unfold Slot.ofRight
  split
  · next ht => simp [Slot.Admits, dividesByZero, ht]
  · next ht => simp [Slot.Admits, dividesByZero, ht]

theorem Slot.admits_of_operator?
    (slot : Slot) {tree : Tree} {op : Operator}
    (h : tree.token.operator? = some op) :
    slot.Admits tree := by
  cases slot with
  | operand => trivial
  | divisor position => exact Token.isZero_of_operator? h

/-- Whatever replaces a divisor is looked at. -/
theorem admits_of_reduceNode
    {slot : Slot} {node tree : Tree}
    (hnode : slot.Admits node)
    (h : node.reduceNode slot = .ok tree) :
    slot.Admits tree := by
  simp only [reduceNode, Success.bind_eq_ok_iff] at h
  rcases h with ⟨replacement, _, h⟩
  cases slot with
  | operand => trivial
  | divisor position =>
      cases replacement with
      | none =>
          obtain rfl : node = tree := by simpa using h
          exact hnode
      | some other =>
          simp only at h
          split at h
          · simp at h
          · next hzero =>
              obtain rfl : other = tree := by simpa using h
              exact Bool.eq_false_iff.mpr hzero

theorem Rewrites.hasNoZeroDivisor
    {node tree : Tree}
    (h : Rewrites node tree)
    (hright : ∀ r, node.right? = some r → r.HasNoZeroDivisor) :
    tree.HasNoZeroDivisor := by
  cases h with
  | @folded t res l r op a b size ht hl hr hfoldable hsize =>
      cases (op.apply a.value b.value).isNonneg with
      | true => trivial
      | false => exact ⟨rfl, trivial, trivial⟩
  | converted ht hr hliteral => trivial
  | dropped ht hr => exact hright tree rfl
  | identity ht hidentity =>
      rcases hidentity.leaves with ⟨rfl, _⟩ | ⟨rfl, _⟩ | ⟨type, rfl⟩
      · trivial
      · trivial
      · trivial

theorem HasNoZeroDivisor.right?
    {tree r : Tree}
    (h : tree.HasNoZeroDivisor)
    (hr : tree.right? = some r) :
    r.HasNoZeroDivisor := by
  cases tree with
  | leaf t res | leftOnly t res l => simp [Tree.right?] at hr
  | rightOnly t res r' =>
      rw [← Option.some.inj hr]
      exact h
  | binary t res l r' =>
      rw [← Option.some.inj hr]
      exact h.2.2

theorem hasNoZeroDivisor_of_reduceNode
    {slot : Slot} {node tree : Tree}
    (hplain : node.IsPlainNode)
    (hnode : node.HasNoZeroDivisor)
    (h : node.reduceNode slot = .ok tree) :
    tree.HasNoZeroDivisor := by
  rcases reduceNode_cases hplain h with ⟨rfl, _⟩ | hrewrites
  · exact hnode
  · exact hrewrites.hasNoZeroDivisor fun r hr => hnode.right? hr

theorem reduceCast_hasNoZeroDivisor
    {slot : Slot} {child tree : Tree}
    (hchild : child.Consistent)
    (hzero : child.HasNoZeroDivisor)
    (hadmits : slot.Admits child)
    (h : reduceCast slot (some child) = .ok (some tree)) :
    slot.Admits tree ∧ tree.HasNoZeroDivisor := by
  rcases reduceCast_eq_ok h with ⟨other, hother, ⟨_, rfl⟩ | ⟨_, hreduce⟩⟩
  · rw [Option.some.inj hother]
    exact ⟨hadmits, hzero⟩
  · rw [Option.some.inj hother]
    exact ⟨admits_of_reduceNode hadmits hreduce,
      hasNoZeroDivisor_of_reduceNode hchild.isPlainNode hzero hreduce⟩

/-- A conversion in a simplified tree is not one of a number. -/
theorem IsNormal.number?_eq_none
    {t : Token} {res : Resolution} {r : Tree}
    (h : (Tree.rightOnly t res r).IsNormal)
    (ht : t.operator? = some .toFloat) :
    r.token.number? = none := by
  have hsettled := h.isSettled .operand
  rcases reduceNode_cases (fun _ => rfl) hsettled with ⟨_, hnone⟩ | hrewrites
  · by_contra hnumber
    rcases Option.ne_none_iff_exists'.mp hnumber with ⟨a, ha⟩
    have hcast : (Tree.rightOnly t res r).isCast = true := isCast_iff.mpr ht
    have hfold := (replacement?_eq_none hnone).2.1
    simp [foldCast, right?, hcast, ha] at hfold
  · cases hrewrites

theorem dividesByZero_dropCast
    {t : Token} {tree tree' : Tree} {other : Resolution}
    (hnormal : tree.IsNormal)
    (hconsistent : tree.Consistent)
    (hdivides : dividesByZero t tree = false)
    (hdrop : (if tree.isCast ∧
        other = .integer then tree.right? else some tree) = some tree') :
    dividesByZero t tree' = false := by
  split at hdrop
  · next hcast =>
      rcases hconsistent.exists_of_isCast hcast.1 with ⟨t', r, rfl, ht', _⟩
      obtain rfl := Option.some.inj hdrop
      simp [dividesByZero, Token.isZero, hnormal.number?_eq_none ht']
  · obtain rfl := Option.some.inj hdrop
    exact hdivides

theorem HasNoZeroDivisor.dropCast
    {tree tree' : Tree} {other : Resolution}
    (h : tree.HasNoZeroDivisor)
    (hdrop : (if tree.isCast ∧
        other = .integer then tree.right? else some tree) = some tree') :
    tree'.HasNoZeroDivisor := by
  split at hdrop
  · exact h.right? hdrop
  · obtain rfl := Option.some.inj hdrop
    exact h

theorem hasNoZeroDivisor_resolve_dropRedundantCasts
    {t : Token}
    (ht : t.IsArithmetic)
    (res : Resolution) {l r : Tree}
    (hl : l.Consistent)
    (hr : r.Consistent)
    (hnormal : r.IsNormal)
    (hzerol : l.HasNoZeroDivisor)
    (hzeror : r.HasNoZeroDivisor)
    (hdivides : dividesByZero t r = false) :
    (dropRedundantCasts (.binary t res l r)).resolve.HasNoZeroDivisor := by
  rcases hl.dropCast r.result with ⟨left, hdropl, _⟩
  rcases hr.dropCast l.result with ⟨right, hdropr, _⟩
  simp only [dropRedundantCasts, hdropl, hdropr, ofParts]
  exact hasNoZeroDivisor_resolve ht res
    (dividesByZero_dropCast hnormal hr hdivides hdropr)
    (hzerol.dropCast hdropl) (hzeror.dropCast hdropr)

theorem settle_binary_hasNoZeroDivisor
    {slot : Slot} {t : Token} {res : Resolution} {l r tree : Tree}
    (ht : t.IsArithmetic)
    (hl : l.Consistent)
    (hr : r.Consistent)
    (hnormal : r.IsNormal)
    (hnode : (Tree.binary t res l r).HasNoZeroDivisor)
    (h : settle slot (.binary t res l r) = .ok tree) :
    slot.Admits tree ∧ tree.HasNoZeroDivisor := by
  rcases resolve_dropRedundantCasts ht res hl hr with
    ⟨res', l', r', hresolve, hresolved, _⟩
  have hzero :=
    hasNoZeroDivisor_resolve_dropRedundantCasts ht res hl hr hnormal
      hnode.2.1 hnode.2.2 hnode.1
  rw [hresolve] at hzero
  rcases hresolved with ⟨_, _, _, hl', hr'⟩
  rcases (settle_binary_eq_ok_iff hresolve).mp h with
    ⟨l₁, r₁, hleft, hright, hreduce⟩
  rcases reduceCast_hasNoZeroDivisor hl' hzero.2.1 (Slot.operand_admits l')
    hleft with ⟨_, hzerol⟩
  obtain ⟨hadmits, hzeror⟩ := reduceCast_hasNoZeroDivisor hr' hzero.2.2
    (Slot.admits_ofRight_iff.mpr hzero.1) hright
  have hzero₁ : (Tree.binary t res' l₁ r₁).HasNoZeroDivisor :=
    ⟨Slot.admits_ofRight_iff.mp hadmits, hzerol, hzeror⟩
  have hplain : (Tree.binary t res' l₁ r₁).IsPlainNode := fun hcast =>
    (ht.ne_toFloat (isCast_iff.mp hcast)).elim
  have hslot : slot.Admits (.binary t res' l₁ r₁) := by
    rcases ht with ⟨op, hop, _⟩
    exact Slot.admits_of_operator? slot hop
  exact ⟨admits_of_reduceNode hslot hreduce,
    hasNoZeroDivisor_of_reduceNode hplain hzero₁ hreduce⟩

theorem settle_cast_hasNoZeroDivisor
    {slot : Slot} {t : Token} {res : Resolution} {r tree : Tree}
    (ht : t.operator? = some .toFloat)
    (hr : r.Consistent)
    (hzero : r.HasNoZeroDivisor)
    (h : settle slot (.rightOnly t res r) = .ok tree) :
    slot.Admits tree ∧ tree.HasNoZeroDivisor := by
  rcases (settle_cast_eq_ok_iff ht).mp h with ⟨r₁, hright, hreduce⟩
  have hoperand : (Slot.ofRight t).Admits r := by
    rw [Slot.admits_ofRight_iff]
    simp [dividesByZero, ht]
  rcases reduceCast_hasNoZeroDivisor hr hzero hoperand hright with ⟨_, hzero₁⟩
  have hslot : slot.Admits (.rightOnly t .float r₁) :=
    Slot.admits_of_operator? slot ht
  have hplain : (Tree.rightOnly t .float r₁).IsPlainNode := fun _ => rfl
  exact ⟨admits_of_reduceNode hslot hreduce,
    hasNoZeroDivisor_of_reduceNode hplain hzero₁ hreduce⟩

theorem simplifyIn_hasNoZeroDivisor
    {slot : Slot} {tree tree' : Tree}
    (htree : tree.HasTypedLeaves)
    (hzero : tree.HasNoZeroDivisor)
    (hadmits : slot.Admits tree)
    (h : simplifyIn slot tree = .ok tree') :
    slot.Admits tree' ∧ tree'.HasNoZeroDivisor := by
  induction tree generalizing slot tree' with
  | leaf t res =>
      obtain rfl : .leaf t res = tree' := by simpa [simplifyIn] using h
      exact ⟨hadmits, trivial⟩
  | leftOnly t res l ih => exact htree.elim
  | rightOnly t res r ih =>
      rcases htree with ⟨ht, hr⟩
      rcases simplifyIn_cast_eq_ok_iff.mp h with ⟨r', hr', hsettle⟩
      have hoperand : (Slot.ofRight t).Admits r := by
        rw [Slot.admits_ofRight_iff]
        simp [dividesByZero, ht]
      rcases ih hr hzero hoperand hr' with ⟨_, hzero'⟩
      exact settle_cast_hasNoZeroDivisor ht (hr.simplifyIn_consistent hr').1
        hzero' hsettle
  | binary t res l r ihl ihr =>
      rcases htree with ⟨ht, hl, hr⟩
      rcases hzero with ⟨hdivides, hzerol, hzeror⟩
      rcases simplifyIn_binary_eq_ok_iff.mp h with ⟨l', r', hl', hr', hsettle⟩
      rcases ihl hl hzerol (Slot.operand_admits l) hl' with ⟨_, hzerol'⟩
      rcases ihr hr hzeror (Slot.admits_ofRight_iff.mpr hdivides) hr' with
        ⟨hadmitsr, hzeror'⟩
      exact settle_binary_hasNoZeroDivisor ht (hl.simplifyIn_consistent hl').1
        (hr.simplifyIn_consistent hr').1 (simplifyIn_isNormal hr hr')
        ⟨Slot.admits_ofRight_iff.mp hadmitsr, hzerol', hzeror'⟩ hsettle

end Tree

/-! ## Compiled and simplified expressions -/

theorem Compiled.IsSound.hasNoZeroDivisor
    {c : Compiled} {parsed : Tree}
    (h : c.IsSound parsed) :
    c.tree.HasNoZeroDivisor :=
  (h.isExpression.isShaped.hasNoZeroDivisor h.analyzed).2

/-- The post-order of a compiled expression, and that of what simplifying it
leaves, give back the tree that they come from: a tree can be built from the
tokens, and its analysis yields the tokens in their places and every type
again, without a conversion more or less. -/
theorem analyze_ofPostOrder_postOrder
    {source : String} {c : Compiled} {tree : Tree}
    (hcompile : compile source = .ok c)
    (htree : tree = c.tree ∨ c.tree.simplify = .ok tree) :
    ∃ rebuilt, Tree.ofPostOrder tree.postOrder = .ok rebuilt ∧
      rebuilt.analyze = .ok tree := by
  rcases exists_isSound hcompile with ⟨parsed, hsound⟩
  have hconsistent := hsound.consistent
  have hzero := hsound.hasNoZeroDivisor
  rcases htree with rfl | hsimplify
  · exact hconsistent.exists_ofPostOrder hzero
  · have hconsistent' := (Tree.simplifyIn_consistent hconsistent hsimplify).1
    obtain ⟨_, hzero'⟩ :=
      Tree.simplifyIn_hasNoZeroDivisor hconsistent.hasTypedLeaves hzero
      (Tree.Slot.operand_admits c.tree) hsimplify
    exact hconsistent'.exists_ofPostOrder hzero'

/-- The computed quotient has brought in conversions, and the divisor has
become a negative number.  The tree is rebuilt with all of them. -/
theorem analyze_ofPostOrder_negative_divisor :
    ∃ c tree rebuilt, compile "(a + 6 / 4) / (2 - 5)" = .ok c ∧
      c.tree.simplify = .ok tree ∧
      tree.text = "(/ (+ (i2f <id,1>) 1.5) (i2f (- 0 3)))" ∧
      Tree.ofPostOrder tree.postOrder = .ok rebuilt ∧
      rebuilt.analyze = .ok tree := by
  have htext : (compile "(a + 6 / 4) / (2 - 5)").toOption.map
      (fun c => c.tree.simplify.toOption.map Tree.text) =
        some (some "(/ (+ (i2f <id,1>) 1.5) (i2f (- 0 3)))") := by
    decide +kernel
  obtain ⟨c, hcompile, hc⟩ := Success.exists_of_toOption htext
  obtain ⟨tree, hsimplify, htree⟩ := Success.exists_of_toOption hc
  obtain ⟨rebuilt, hrebuilt, hanalyze⟩ :=
    analyze_ofPostOrder_postOrder hcompile (.inr hsimplify)
  exact ⟨c, tree, rebuilt, hcompile, hsimplify, htree, hrebuilt, hanalyze⟩

end ThreeAddress
