import ThreeAddress.Proofs.Simplification

/-!
# Simplified trees are in normal form

Each node is rewritten once, when its children are final, and what replaces it
is not looked at again.  In spite of that nothing is left to do: whatever a
rule leaves is an operand, a part that was final before, or a negative number
`0 - n`, which computes to itself.  A second simplification therefore finds
every node settled and returns the tree as it is.
-/

namespace ThreeAddress

namespace Tree

/-- No rule changes the node, wherever it stands. -/
def IsSettled (node : Tree) : Prop := ∀ slot, node.reduceNode slot = .ok node

/-- Every operator of the tree is settled. -/
def IsNormal : Tree → Prop
  | .leaf _ _ => True
  | .leftOnly t res l => IsSettled (.leftOnly t res l) ∧ l.IsNormal
  | .rightOnly t res r => IsSettled (.rightOnly t res r) ∧ r.IsNormal
  | .binary t res l r =>
    IsSettled (.binary t res l r) ∧ l.IsNormal ∧ r.IsNormal

theorem isSettled_of_replacement?_eq_none
    {node : Tree}
    (h : node.replacement? = .ok none) :
    node.IsSettled := by
  intro slot
  simp [reduceNode, h]

theorem IsNormal.isSettled
    {tree : Tree}
    (h : tree.IsNormal) :
    tree.IsSettled := by
  cases tree with
  | leaf t res =>
      apply isSettled_of_replacement?_eq_none
      simp [replacement?, foldConstants, foldCast, floatOperand?,
        applyIdentity?, left?, right?]
  | leftOnly t res l | rightOnly t res r | binary t res l r => exact h.1

/-! ## Negative numbers -/

/-- The difference `0 - n` that a negative result is written as computes to
that result again, and is written as it was. -/
theorem isSettled_ofSigned
    {type : ValueType} {x : Single} {a : Int} {size : Literal}
    (hx : x.quanta? = some a)
    (hnegative : x.isNonneg = false)
    (hfoldable : isFoldable type x = true)
    (hmagnitude : magnitude type x = .ok size)
    (hsize : size.value.quanta? = some (a.natAbs : Int)) :
    (ofSigned type true size).IsSettled := by
  have hneg : a < 0 := by
    have := mt (Single.isNonneg_iff hx).mpr (by simp [hnegative])
    omega
  have hsame :
      Operator.subtract.apply (Literal.zero type).value size.value = x := by
    apply Single.eq_of_quanta?_eq hneg.ne _ hx
    have hfits : Single.Fits (a.natAbs : Int).natAbs :=
      Single.fits_of_quanta? hsize
    rw [Operator.quanta?_apply _ (Literal.quanta?_zero type) hsize,
      Operator.applyQuanta?_subtract_zero_left hfits]
    exact congrArg some (by omega)
  have htype : foldedType .subtract (.ofType type) = type := by
    cases type <;> rfl
  have hfold : (ofSigned type true size).foldConstants =
      .ok (some (ofSigned type true size)) := by
    change (fold _ (.ofType type) .subtract (.zero type) size).map some = _
    simp only [fold, hsame, htype, hfoldable, hmagnitude, hnegative, if_true]
    rfl
  intro slot
  simp only [reduceNode, replacement?, hfold, Success.ok_bind]
  cases slot <;> rfl

theorem isNormal_ofSigned
    {t : Token} {res : Resolution} {l r : Tree} {op : Operator}
    {a b size : Literal}
    (hnode : (Tree.binary t res l r).Consistent)
    (ht : t.operator? = some op)
    (hl : l.token.number? = some a)
    (hr : r.token.number? = some b)
    (hfoldable : isFoldable (foldedType op res)
      (op.apply a.value b.value) = true)
    (hsize : magnitude (foldedType op res)
      (op.apply a.value b.value) = .ok size) :
    (ofSigned (foldedType op res) (!(op.apply a.value b.value).isNonneg)
      size).IsNormal := by
  cases hnonneg : (op.apply a.value b.value).isNonneg with
  | true => trivial
  | false =>
      have hfinite : (op.apply a.value b.value).isFinite = true :=
        (Bool.and_eq_true _ _ ▸ hfoldable).1
      rcases Single.isFinite_iff.mp hfinite with ⟨c, hc⟩
      have hworth := quanta?_size_of_folded hnode ht hl hr hc hfoldable hsize
      exact ⟨isSettled_ofSigned hc hnonneg hfoldable hsize hworth,
        trivial, trivial⟩

/-! ## What the rules leave -/

theorem Rewrites.isNormal_binary
    {t : Token} {res : Resolution} {l r tree : Tree}
    (hnode : (Tree.binary t res l r).Consistent)
    (h : Rewrites (.binary t res l r) tree) :
    tree.IsNormal := by
  cases h with
  | folded ht hl hr hfoldable hsize =>
      exact isNormal_ofSigned hnode ht hl hr hfoldable hsize
  | identity ht hidentity =>
      rcases hidentity.leaves with ⟨rfl, _⟩ | ⟨rfl, _⟩ | ⟨type, rfl⟩
      · trivial
      · trivial
      · trivial

theorem Rewrites.isNormal_cast
    {t : Token} {res : Resolution} {r tree : Tree}
    (hr : r.IsNormal)
    (h : Rewrites (.rightOnly t res r) tree) :
    tree.IsNormal := by
  cases h with
  | converted => trivial
  | dropped => exact hr

theorem reduceNode_cast_isNormal
    {slot : Slot} {t : Token} {res : Resolution} {r tree : Tree}
    (hr : r.IsNormal)
    (h : reduceNode slot (.rightOnly t res r) = .ok tree) :
    tree.IsNormal := by
  rcases reduceNode_cases (fun _ => rfl) h with ⟨rfl, hnone⟩ | hrewrites
  · exact ⟨isSettled_of_replacement?_eq_none hnone, hr⟩
  · exact hrewrites.isNormal_cast hr

/-- An operand is in normal form when the operator over it is settled, also if
the operator has just converted it. -/
theorem reduceCast_castInteger_isNormal
    {slot : Slot} {operand tree : Tree}
    (hoperand : operand.IsNormal)
    (h : reduceCast slot (some operand.castInteger) = .ok (some tree)) :
    tree.IsNormal := by
  rcases reduceCast_eq_ok h with ⟨other, hother, hcases⟩
  obtain rfl := Option.some.inj hother
  unfold castInteger at hcases
  split at hcases
  · rcases hcases with ⟨hcast, _⟩ | ⟨_, hreduce⟩
    · contradiction
    · exact reduceNode_cast_isNormal hoperand hreduce
  · rcases hcases with ⟨_, rfl⟩ | ⟨_, hreduce⟩
    · exact hoperand
    · rw [hoperand.isSettled slot] at hreduce
      rwa [← Except.ok.inj hreduce]

theorem reduceCast_isNormal
    {slot : Slot} {operand tree : Tree}
    (hoperand : operand.IsNormal)
    (h : reduceCast slot (some operand) = .ok (some tree)) :
    tree.IsNormal := by
  rcases reduceCast_eq_ok h with ⟨other, hother, ⟨_, rfl⟩ | ⟨_, hreduce⟩⟩
  · rwa [Option.some.inj hother]
  · rw [hoperand.isSettled slot] at hreduce
    rwa [Option.some.inj hother, ← Except.ok.inj hreduce]

theorem Consistent.dropCast_isNormal
    {tree tree' : Tree} {other : Resolution}
    (hnormal : tree.IsNormal)
    (h : tree.Consistent)
    (hdrop : (if tree.isCast ∧
        other = .integer then tree.right? else some tree) = some tree') :
    tree'.IsNormal := by
  split at hdrop
  · next hcast =>
      rcases h.exists_of_isCast hcast.1 with ⟨t, r, rfl, _⟩
      obtain rfl := Option.some.inj hdrop
      exact hnormal.2
  · obtain rfl := Option.some.inj hdrop
    exact hnormal

theorem isNormal_of_resolve_dropRedundantCasts
    {t : Token}
    (ht : t.IsArithmetic)
    {res res' : Resolution} {l r l' r' : Tree}
    (hl : l.Consistent)
    (hr : r.Consistent)
    (hnormall : l.IsNormal)
    (hnormalr : r.IsNormal)
    (h : (dropRedundantCasts (.binary t res l r)).resolve =
      .binary t res' l' r') :
    (∀ slot tree, reduceCast slot (some l') = .ok (some tree) →
      tree.IsNormal) ∧
      ∀ slot tree, reduceCast slot (some r') = .ok (some tree) →
        tree.IsNormal := by
  rcases hl.dropCast r.result with ⟨left, hdropl, _⟩
  rcases hr.dropCast l.result with ⟨right, hdropr, _⟩
  have hleft := hl.dropCast_isNormal hnormall hdropl
  have hright := hr.dropCast_isNormal hnormalr hdropr
  simp only [dropRedundantCasts, hdropl, hdropr, ofParts] at h
  by_cases hinteger : left.result = .integer ∧ right.result = .integer
  · rw [resolve_binary_integer ht res hinteger.1 hinteger.2] at h
    injection h with _ _ hl' hr'
    subst hl' hr'
    exact ⟨fun _ _ => reduceCast_isNormal hleft, fun _ _ =>
      reduceCast_isNormal hright⟩
  · rw [resolve_binary_float ht res hinteger] at h
    injection h with _ _ hl' hr'
    subst hl' hr'
    exact ⟨fun _ _ => reduceCast_castInteger_isNormal hleft,
      fun _ _ => reduceCast_castInteger_isNormal hright⟩

theorem settle_binary_isNormal
    {slot : Slot} {t : Token} {res : Resolution} {l r tree : Tree}
    (ht : t.IsArithmetic)
    (hl : l.Consistent)
    (hr : r.Consistent)
    (hnormall : l.IsNormal)
    (hnormalr : r.IsNormal)
    (h : settle slot (.binary t res l r) = .ok tree) :
    tree.IsNormal := by
  rcases resolve_dropRedundantCasts ht res hl hr with
    ⟨res', l', r', hresolve, hresolved, _⟩
  rcases (settle_binary_eq_ok_iff hresolve).mp h with
    ⟨l₁, r₁, hleft, hright, hreduce⟩
  rcases isNormal_of_resolve_dropRedundantCasts ht hl hr hnormall hnormalr
    hresolve with
    ⟨hnormall', hnormalr'⟩
  have ⟨_, _, _, hl', hr'⟩ := hresolved
  have hnode := (hresolved.reduceCasts (reducesCast_of_reduceCast hl' hleft)
    (reducesCast_of_reduceCast hr' hright)).1
  rcases reduceNode_cases hnode.isPlainNode hreduce with
    ⟨rfl, hnone⟩ | hrewrites
  · exact ⟨isSettled_of_replacement?_eq_none hnone, hnormall' _ _ hleft,
      hnormalr' _ _ hright⟩
  · exact hrewrites.isNormal_binary hnode

theorem settle_cast_isNormal
    {slot : Slot} {t : Token} {res : Resolution} {r tree : Tree}
    (ht : t.operator? = some .toFloat)
    (hnormal : r.IsNormal)
    (h : settle slot (.rightOnly t res r) = .ok tree) :
    tree.IsNormal := by
  rcases (settle_cast_eq_ok_iff ht).mp h with ⟨r₁, hright, hreduce⟩
  exact reduceNode_cast_isNormal (reduceCast_isNormal hnormal hright) hreduce

theorem simplifyIn_isNormal
    {slot : Slot} {tree tree' : Tree}
    (htree : tree.HasTypedLeaves)
    (h : simplifyIn slot tree = .ok tree') :
    tree'.IsNormal := by
  induction tree generalizing slot tree' with
  | leaf t res =>
      obtain rfl : .leaf t res = tree' := by simpa [simplifyIn] using h
      trivial
  | leftOnly t res l ih => exact htree.elim
  | rightOnly t res r ih =>
      rcases htree with ⟨ht, hr⟩
      rcases simplifyIn_cast_eq_ok_iff.mp h with ⟨r', hr', hsettle⟩
      exact settle_cast_isNormal ht (ih hr hr') hsettle
  | binary t res l r ihl ihr =>
      rcases htree with ⟨ht, hl, hr⟩
      rcases simplifyIn_binary_eq_ok_iff.mp h with ⟨l', r', hl', hr', hsettle⟩
      exact settle_binary_isNormal ht (hl.simplifyIn_consistent hl').1
        (hr.simplifyIn_consistent hr').1 (ihl hl hl') (ihr hr hr') hsettle

/-! ## Simplifying a tree in normal form -/

theorem reduceCast_of_isNormal
    (slot : Slot) {child : Tree}
    (h : child.IsNormal) :
    reduceCast slot (some child) = .ok (some child) := by
  rw [reduceCast, h.isSettled slot]
  split <;> rfl

theorem simplifyIn_of_isNormal
    (slot : Slot) {tree : Tree}
    (htree : tree.Consistent)
    (h : tree.IsNormal) :
    simplifyIn slot tree = .ok tree := by
  induction tree generalizing slot with
  | leaf t res => rfl
  | leftOnly t res l ih => exact htree.elim
  | rightOnly t res r ih =>
      have ⟨ht, hres, _, hr⟩ := htree
      subst hres
      exact simplifyIn_cast_eq_ok_iff.mpr
        ⟨r, ih _ hr h.2,
          (settle_cast_eq_ok_iff ht).mpr
            ⟨r, reduceCast_of_isNormal _ h.2, h.isSettled slot⟩⟩
  | binary t res l r ihl ihr =>
      have ⟨_, _, _, hl, hr⟩ := htree
      have hresolve := resolve_dropRedundantCasts_self htree
      exact simplifyIn_binary_eq_ok_iff.mpr
        ⟨l, r, ihl _ hl h.2.1, ihr _ hr h.2.2,
          (settle_binary_eq_ok_iff hresolve).mpr
            ⟨l, r, reduceCast_of_isNormal _ h.2.1,
              reduceCast_of_isNormal _ h.2.2, h.isSettled slot⟩⟩

/-! ## Simplifying twice -/

/-- A tree of operands, of operators over two subtrees and of conversions over
one, with any types. -/
def IsShaped : Tree → Prop
  | .leaf t _ => t.isOperand = true
  | .leftOnly _ _ _ => False
  | .rightOnly t _ r => t.operator? = some .toFloat ∧ r.IsShaped
  | .binary t _ l r => t.IsArithmetic ∧ l.IsShaped ∧ r.IsShaped

theorem analyze_cast_eq_ok
    {t : Token} {res : Resolution} {r tree : Tree}
    (ht : t.operator? = some .toFloat)
    (h : analyze (.rightOnly t res r) = .ok tree) :
    ∃ r', analyze r = .ok r' ∧ tree = .rightOnly t .float r' := by
  have hdivides : dividesByZero t r = false := by simp [dividesByZero, ht]
  simp only [analyze, hdivides, Bool.false_eq_true, if_false,
    Success.bind_eq_ok_iff, Success.mapError_eq_ok_iff,
    Success.pure_eq_ok_iff, resolve, ht, if_true] at h
  rcases h with ⟨r', hr', rfl⟩
  exact ⟨r', hr', rfl⟩

theorem HasTypedLeaves.castInteger
    {tree : Tree}
    (h : tree.HasTypedLeaves) :
    tree.castInteger.HasTypedLeaves := by
  unfold Tree.castInteger
  split
  · exact ⟨rfl, h⟩
  · exact h

theorem IsShaped.hasTypedLeaves
    {tree tree' : Tree}
    (htree : tree.IsShaped)
    (h : tree.analyze = .ok tree') :
    tree'.HasTypedLeaves := by
  induction tree generalizing tree' with
  | leaf t res =>
      obtain rfl : ofToken t = tree' := by simpa [analyze, resolve] using h
      exact ⟨htree, rfl⟩
  | leftOnly t res l ih => exact htree.elim
  | rightOnly t res r ih =>
      rcases htree with ⟨ht, hr⟩
      rcases analyze_cast_eq_ok ht h with ⟨r', hr', rfl⟩
      exact ⟨ht, ih hr hr'⟩
  | binary t res l r ihl ihr =>
      rcases htree with ⟨ht, hl, hr⟩
      rcases analyze_binary_eq_ok h with ⟨_, l', r', hl', hr', rfl⟩
      by_cases hinteger : l'.result = .integer ∧ r'.result = .integer
      · rw [resolve_binary_integer ht res hinteger.1 hinteger.2]
        exact ⟨ht, ihl hl hl', ihr hr hr'⟩
      · rw [resolve_binary_float ht res hinteger]
        exact ⟨ht, (ihl hl hl').castInteger, (ihr hr hr').castInteger⟩

theorem optimize_of_simplify
    {tree tree' : Tree}
    (h : tree.simplify = .ok tree')
    (hleaf : tree'.isLeaf = false) :
    tree.optimize = .ok tree' := by
  simp [optimize, h, hleaf]

/-- Simplifying a simplified tree succeeds and changes nothing, neither in its
shape nor in its tokens and types. -/
theorem simplify_idempotent
    {tree analyzed : Tree}
    (htree : tree.IsShaped)
    (hanalyze : tree.analyze = .ok analyzed) :
    (∀ once, analyzed.simplify = .ok once → once.simplify = .ok once) ∧
      ∀ once, analyzed.optimize = .ok once → once.optimize = .ok once := by
  have hleaves := htree.hasTypedLeaves hanalyze
  have hsimplify :
      ∀ once, analyzed.simplify = .ok once → once.simplify = .ok once := by
    intro once honce
    exact simplifyIn_of_isNormal .operand
      (hleaves.simplifyIn_consistent honce).1
      (simplifyIn_isNormal hleaves honce)
  refine ⟨hsimplify, ?_⟩
  intro once honce
  rcases optimize_eq_ok honce with ⟨honce, hleaf⟩
  exact optimize_of_simplify (hsimplify once honce) hleaf

/-- The quotient becomes a float, so that a conversion is put on the product
and the outer one is dropped; the negative factor stays the difference that it
is. -/
theorem simplify_idempotent_converted_sum :
    let number (text : String) (n : Nat)
      (h : Literal.read .integer text = .ok (.integer n)) :=
      ofLiteral ⟨text, .integer, .integer n, h⟩
    let node (op : Operator) := join (.synthesized (.operator op))
    let a :=
      ofToken (.synthesized (.identifier ⟨1, .integer, .user, by decide⟩))
    let tree := cast (node .add
      (node .multiply a
        (node .subtract (number "2" 2 rfl) (number "5" 5 rfl)))
      (node .divide (number "6" 6 rfl) (number "4" 4 rfl)))
    tree.IsShaped ∧ ∃ analyzed once, tree.analyze = .ok analyzed ∧
      analyzed.simplify = .ok once ∧
        once.text = "(+ (i2f (* <id,1> (- 0 3))) 1.5)" ∧
      once.simplify = .ok once := by
  intro number node a tree
  have hshape : tree.IsShaped :=
    ⟨rfl, ⟨.add, rfl, by decide⟩,
      ⟨⟨.multiply, rfl, by decide⟩, rfl, ⟨.subtract, rfl, by decide⟩, rfl,
        rfl⟩, ⟨.divide, rfl, by decide⟩, rfl, rfl⟩
  obtain ⟨analyzed, hanalyze⟩ :
      ∃ analyzed, tree.analyze = .ok analyzed := ⟨_, rfl⟩
  have htext : (tree.analyze.bind simplify).toOption.map text =
      some "(+ (i2f (* <id,1> (- 0 3))) 1.5)" := by
    decide +kernel
  rw [hanalyze] at htext
  change analyzed.simplify.toOption.map text = _ at htext
  obtain ⟨once, hsimplify, honce⟩ := Success.exists_of_toOption htext
  exact ⟨hshape, analyzed, once, hanalyze, hsimplify, honce,
    (simplify_idempotent hshape hanalyze).1 once hsimplify⟩

end Tree

end ThreeAddress
