import ThreeAddress.Proofs.Simplification

/-!
# How simplification changes types

Each rule leaves a float where there was one.  Only the quotient of two
integers turns an integer into a float when it is computed, and then every
operator above it follows.

No operator is simplified to a conversion.  A conversion among the operands
has therefore been there from the start, when its sibling was a float too, as
it still is.  So there never is a conversion beside an integer, which the pass
looks for at every node.
-/

namespace ThreeAddress

namespace Tree

/-- A node when the pass comes to it, with its children simplified, and what
it is settled to. -/
structure Visit where
  node : Tree
  settled : Tree

/-- A pass over a tree in the given place: the visits in their order, and the
tree that is left in the end. -/
inductive Pass : Slot → Tree → List Visit → Tree → Prop
  | leaf {slot : Slot} {t : Token} {res : Resolution} : Pass slot
      (.leaf t res) [] (.leaf t res)
  | leftOnly {slot : Slot} {t : Token} {res : Resolution} {l l' tree : Tree}
      {visits : List Visit} (hl : Pass .operand l visits l')
      (hsettle : settle slot (.leftOnly t res l') = .ok tree) :
      Pass slot (.leftOnly t res l)
        (visits ++ [⟨.leftOnly t res l', tree⟩]) tree
  | rightOnly {slot : Slot} {t : Token} {res : Resolution} {r r' tree : Tree}
      {visits : List Visit} (hr : Pass (.ofRight t) r visits r')
      (hsettle : settle slot (.rightOnly t res r') = .ok tree) :
      Pass slot (.rightOnly t res r)
        (visits ++ [⟨.rightOnly t res r', tree⟩]) tree
  | binary {slot : Slot} {t : Token} {res : Resolution}
      {l r l' r' tree : Tree}
      {visitsl visitsr : List Visit} (hl : Pass .operand l visitsl l')
      (hr : Pass (.ofRight t) r visitsr r')
      (hsettle : settle slot (.binary t res l' r') = .ok tree) :
      Pass slot (.binary t res l r)
        (visitsl ++ visitsr ++ [⟨.binary t res l' r', tree⟩]) tree

theorem exists_pass_iff
    {slot : Slot} {tree tree' : Tree} :
    (∃ visits, Pass slot tree visits tree') ↔
      simplifyIn slot tree = .ok tree' := by
  constructor
  · rintro ⟨visits, h⟩
    induction h with
    | leaf => rfl
    | leftOnly hl hsettle ih => simp [simplifyIn, ih, hsettle]
    | rightOnly hr hsettle ih => simp [simplifyIn, ih, hsettle]
    | binary hl hr hsettle ihl ihr => simp [simplifyIn, ihl, ihr, hsettle]
  · intro h
    induction tree generalizing slot tree' with
    | leaf t res =>
        obtain rfl : .leaf t res = tree' := by simpa [simplifyIn] using h
        exact ⟨[], .leaf⟩
    | leftOnly t res l ih =>
        obtain ⟨l', hl', hsettle⟩ : ∃ l', simplifyIn .operand l = .ok l' ∧
            settle slot (.leftOnly t res l') = .ok tree' := by
              simpa [simplifyIn] using h
        obtain ⟨visits, hvisits⟩ := ih hl'
        exact ⟨_, .leftOnly hvisits hsettle⟩
    | rightOnly t res r ih =>
        obtain ⟨r', hr', hsettle⟩ := simplifyIn_cast_eq_ok_iff.mp h
        obtain ⟨visits, hvisits⟩ := ih hr'
        exact ⟨_, .rightOnly hvisits hsettle⟩
    | binary t res l r ihl ihr =>
        obtain ⟨l', r', hl', hr', hsettle⟩ := simplifyIn_binary_eq_ok_iff.mp h
        obtain ⟨visitsl, hvisitsl⟩ := ihl hl'
        obtain ⟨visitsr, hvisitsr⟩ := ihr hr'
        exact ⟨_, .binary hvisitsl hvisitsr hsettle⟩

/-- The operation is a division of two integers, both of them numbers, and the
tree is its quotient. -/
def ComputesQuotient (node tree : Tree) : Prop :=
  ∃ t left right a b,
    node = .binary t .integer (.leaf left .integer) (.leaf right .integer) ∧
    t.operator? = some .divide ∧ left.number? = some a ∧
      right.number? = some b ∧
    fold t .integer .divide a b = .ok tree

/-- Beside a conversion there is a float. -/
def Visit.HasFloatSiblings (visit : Visit) : Prop :=
  ∀ t res l r, visit.node = .binary t res l r →
    (l.isCast = true → r.result = .float) ∧
      (r.isCast = true → l.result = .float)

theorem Visit.HasFloatSiblings.dropRedundantCasts_eq
    {visit : Visit}
    (h : visit.HasFloatSiblings) :
    visit.node.dropRedundantCasts = visit.node := by
  obtain ⟨node, settled⟩ := visit
  cases node with
  | leaf t res | leftOnly t res l | rightOnly t res r => rfl
  | binary t res l r =>
      obtain ⟨hleft, hright⟩ := h t res l r rfl
      have hkeepl : ¬(l.isCast = true ∧ r.result = .integer) := by
        rintro ⟨hcast, hinteger⟩
        simp [hleft hcast] at hinteger
      have hkeepr : ¬(r.isCast = true ∧ l.result = .integer) := by
        rintro ⟨hcast, hinteger⟩
        simp [hright hcast] at hinteger
      simp only [dropRedundantCasts, if_neg hkeepl, if_neg hkeepr, ofParts]

/-! ## One node -/

theorem isCast_ofSigned
    (type : ValueType) (negative : Bool) (size : Literal) :
    (ofSigned type negative size).isCast = false := by
  cases negative <;> rfl

theorem Consistent.eq_leaf_of_number?
    {tree : Tree}
    (h : tree.Consistent)
    {literal : Literal}
    (hnumber : tree.token.number? = some literal) :
    tree = .leaf tree.token tree.result := by
  have hleaf := h.eq_ofToken (Token.isOperand_of_number? hnumber)
  rw [hleaf]
  rfl

/-- A rule makes no conversion of an operator.  It keeps its type, unless it
computes a quotient of integers. -/
theorem Rewrites.result_of_binary
    {t : Token} {res : Resolution} {l r tree : Tree}
    (hnode : (Tree.binary t res l r).Consistent)
    (h : Rewrites (.binary t res l r) tree) :
    tree.isCast = false ∧ (tree.result = res ∨
      tree.result = .float ∧ ComputesQuotient (.binary t res l r) tree) := by
  obtain ⟨ht, hresl, hresr, hl, hr⟩ := hnode
  cases h with
  | @folded _ _ _ _ op a b size hop hnumberl hnumberr hfoldable hsize =>
      refine ⟨isCast_ofSigned _ _ _, ?_⟩
      rw [(ofSigned_consistent _ (type_of_magnitude hsize)).2.1]
      by_cases hdivision : op = .divide ∧ res = .integer
      · obtain ⟨rfl, rfl⟩ := hdivision
        have hleafl := hl.eq_leaf_of_number? hnumberl
        have hleafr := hr.eq_leaf_of_number? hnumberr
        rw [hresl] at hleafl
        rw [hresr] at hleafr
        refine .inr ⟨rfl, t, l.token, r.token, a, b,
          by rw [← hleafl, ← hleafr], hop, hnumberl, hnumberr, ?_⟩
        simp [fold, hfoldable, hsize]
      · exact .inl (ofType_foldedType (hresl ▸ hl.result_cases) hdivision)
  | @identity _ _ _ _ _ op hop hidentity =>
      obtain ⟨hoperandl, hoperandr⟩ := hidentity.isOperand
      have htypel : l.result = .ofToken l.token :=
        congrArg result (hl.eq_ofToken hoperandl)
      have htyper : r.result = .ofToken r.token :=
        congrArg result (hr.eq_ofToken hoperandr)
      obtain ⟨hresult, _, hoperand⟩ :=
        hidentity.result_eq (htypel.symm.trans hresl)
          (htyper.symm.trans hresr)
      exact ⟨isCast_of_isOperand hoperand, .inl hresult⟩

section Settle

variable {slot : Slot} {t : Token} {res : Resolution} {l r tree : Tree}

/-- Over an operand that is a float, an operator is settled to a float. -/
theorem settle_binary_float
    (ht : t.IsArithmetic)
    (hl : l.Consistent)
    (hr : r.Consistent)
    (hdrop : (Tree.binary t res l r).dropRedundantCasts = .binary t res l r)
    (hfloat : ¬(l.result = .integer ∧ r.result = .integer))
    (h : settle slot (.binary t res l r) = .ok tree) :
    tree.isCast = false ∧ tree.result = .float := by
  have hresolve : (dropRedundantCasts (.binary t res l r)).resolve =
      .binary t .float l.castInteger r.castInteger := by
    rw [hdrop, resolve_binary_float ht res hfloat]
  have hnode :
      (Tree.binary t .float l.castInteger r.castInteger).Consistent := by
    rw [← resolve_binary_float ht res hfloat]
    exact resolve_consistent ht res hl hr
  obtain ⟨l₁, r₁, hl₁, hr₁, hrule⟩ :=
    settle_binary_cases ht hresolve hnode.2.2.2.1 hnode.2.2.2.2 h
  rcases hrule with rfl | hrewrites
  · exact ⟨isCast_binary ht _ _ _, rfl⟩
  · obtain ⟨hcast, hresult | ⟨hresult, _⟩⟩ :=
      hrewrites.result_of_binary (hnode.reduceCasts hl₁ hr₁).1
    · exact ⟨hcast, hresult⟩
    · exact ⟨hcast, hresult⟩

/-- Over two integers, an operator is settled to an integer, unless a quotient
is computed. -/
theorem settle_binary_integer
    (ht : t.IsArithmetic)
    (hl : l.Consistent)
    (hr : r.Consistent)
    (hdrop : (Tree.binary t res l r).dropRedundantCasts = .binary t res l r)
    (hresl : l.result = .integer)
    (hresr : r.result = .integer)
    (h : settle slot (.binary t res l r) = .ok tree) :
    tree.isCast = false ∧ (tree.result = .integer ∨ tree.result = .float ∧
      ComputesQuotient
        (Tree.binary t res l r).dropRedundantCasts.resolve tree) := by
  have hresolve : (dropRedundantCasts (.binary t res l r)).resolve =
      .binary t .integer l r := by
    rw [hdrop, resolve_binary_integer ht res hresl hresr]
  obtain ⟨l₁, r₁, hl₁, hr₁, hrule⟩ := settle_binary_cases ht hresolve hl hr h
  -- Integers are no conversions, so that both operands stay as they are.
  obtain rfl := hl₁.eq_of_integer hl hresl
  obtain rfl := hr₁.eq_of_integer hr hresr
  rcases hrule with rfl | hrewrites
  · exact ⟨isCast_binary ht _ _ _, .inl rfl⟩
  · rw [hresolve]
    exact hrewrites.result_of_binary ⟨ht, hresl, hresr, hl, hr⟩

theorem settle_cast_float
    (ht : t.operator? = some .toFloat)
    (hr : r.Consistent)
    (h : settle slot (.rightOnly t res r) = .ok tree) :
    tree.result = .float := by
  obtain ⟨r₁, hr₁, hrule⟩ := settle_cast_cases ht hr h
  rcases hrule with ⟨rfl, _⟩ | hrewrites
  · rfl
  · cases hrewrites with
    | converted _ _ hliteral =>
        rw [result_ofLiteral, (Literal.ofText_eq_ok hliteral).1]
        rfl
    | dropped _ hfloat => exact hfloat

end Settle

/-! ## The whole pass -/

structure Pass.KeepsTypes (tree : Tree) (visits : List Visit) (tree' : Tree) :
    Prop where
  float : tree.result = .float → tree'.result = .float
  integer : tree.result = .integer →
    tree'.result = .integer ∨ tree'.result = .float ∧
    ∃ visit ∈ visits,
      ComputesQuotient visit.node.dropRedundantCasts.resolve visit.settled
  conversion : tree'.isCast = true → tree.result = .float
  siblings : ∀ visit ∈ visits, visit.HasFloatSiblings

theorem Pass.consistent
    {slot : Slot} {tree tree' : Tree} {visits : List Visit}
    (h : Pass slot tree visits tree')
    (htree : tree.Consistent) :
    tree'.Consistent :=
  (simplifyIn_consistent htree (exists_pass_iff.mp ⟨visits, h⟩)).1

section Binary

variable {t : Token} {res : Resolution} {l r l' r' tree : Tree}
  {visitsl visitsr : List Visit}

/-- A conversion has come from a float, so that its sibling has come from a
float too. -/
theorem Pass.hasFloatSiblings
    (hnode : (Tree.binary t res l r).Consistent)
    (hl : Pass.KeepsTypes l visitsl l')
    (hr : Pass.KeepsTypes r visitsr r') :
    Visit.HasFloatSiblings ⟨.binary t res l' r', tree⟩ := by
  obtain ⟨_, hresl, hresr, _, _⟩ := hnode
  intro _ _ left right hbinary
  obtain ⟨_, _, rfl, rfl⟩ := Tree.binary.inj hbinary
  constructor
  · intro hcast
    exact hr.float (hresr.trans (hresl.symm.trans (hl.conversion hcast)))
  · intro hcast
    exact hl.float (hresl.trans (hresr.symm.trans (hr.conversion hcast)))

theorem Pass.KeepsTypes.binary
    {slot : Slot}
    (hnode : (Tree.binary t res l r).Consistent)
    (hl : Pass.KeepsTypes l visitsl l')
    (hr : Pass.KeepsTypes r visitsr r')
    (hconsl : l'.Consistent)
    (hconsr : r'.Consistent)
    (hsettle : settle slot (.binary t res l' r') = .ok tree) :
    Pass.KeepsTypes (.binary t res l r)
      (visitsl ++ visitsr ++ [⟨.binary t res l' r', tree⟩])
      tree := by
  have hsiblings : Visit.HasFloatSiblings ⟨.binary t res l' r', tree⟩ :=
    Pass.hasFloatSiblings hnode hl hr
  have hdrop := hsiblings.dropRedundantCasts_eq
  obtain ⟨ht, hresl, hresr, _, _⟩ := hnode
  have hall : ∀ visit ∈ visitsl ++ visitsr ++ [⟨.binary t res l' r', tree⟩],
      visit.HasFloatSiblings := by
    simp only [List.forall_mem_append, List.forall_mem_singleton]
    exact ⟨⟨hl.siblings, hr.siblings⟩, hsiblings⟩
  by_cases hinteger : l'.result = .integer ∧ r'.result = .integer
  · obtain ⟨hcast, hresult⟩ :=
      settle_binary_integer ht hconsl hconsr hdrop hinteger.1
        hinteger.2 hsettle
    refine ⟨?_, ?_, by simp [hcast], hall⟩
    · intro hfloat
      have := hl.float (hresl.trans hfloat)
      simp [hinteger.1] at this
    · intro _
      rcases hresult with hresult | ⟨hresult, hquotient⟩
      · exact .inl hresult
      · exact .inr ⟨hresult, ⟨.binary t res l' r', tree⟩, by simp, hquotient⟩
  · obtain ⟨hcast, hresult⟩ :=
      settle_binary_float ht hconsl hconsr hdrop hinteger hsettle
    refine ⟨fun _ => hresult, ?_, by simp [hcast], hall⟩
    intro hres
    have hbelow : ∃ visit ∈ visitsl ++ visitsr,
        ComputesQuotient visit.node.dropRedundantCasts.resolve
          visit.settled := by
      rcases hl.integer (hresl.trans hres) with
        hintegerl | ⟨_, visit, hvisit, hquotient⟩
      · rcases hr.integer (hresr.trans hres) with
          hintegerr | ⟨_, visit, hvisit, hquotient⟩
        · exact absurd ⟨hintegerl, hintegerr⟩ hinteger
        · exact ⟨visit, List.mem_append_right _ hvisit, hquotient⟩
      · exact ⟨visit, List.mem_append_left _ hvisit, hquotient⟩
    obtain ⟨visit, hvisit, hquotient⟩ := hbelow
    exact .inr ⟨hresult, visit, List.mem_append_left _ hvisit, hquotient⟩

end Binary

theorem Pass.keepsTypes
    {slot : Slot} {tree tree' : Tree} {visits : List Visit}
    (h : Pass slot tree visits tree')
    (htree : tree.Consistent) :
    Pass.KeepsTypes tree visits tree' := by
  induction h with
  | @leaf slot t res =>
      have hoperand : (Tree.leaf t res).isCast = false :=
        isCast_of_isOperand htree.1
      exact ⟨id, .inl, by simp [hoperand], by simp⟩
  | leftOnly hl hsettle ih => exact htree.elim
  | @rightOnly slot t res r r' tree visits hr hsettle ih =>
      obtain ⟨ht, rfl, _, hconsistent⟩ := htree
      refine ⟨?_, ?_, fun _ => rfl, ?_⟩
      · intro _
        exact settle_cast_float ht (hr.consistent hconsistent) hsettle
      · intro hinteger
        contradiction
      · simp only [List.forall_mem_append, List.forall_mem_singleton]
        exact ⟨(ih hconsistent).siblings,
          by intro _ _ _ _ hbinary; contradiction⟩
  | binary hl hr hsettle ihl ihr =>
      have ⟨_, _, _, hconsl, hconsr⟩ := htree
      exact .binary htree (ihl hconsl) (ihr hconsr) (hl.consistent hconsl)
        (hr.consistent hconsr) hsettle

end Tree

/-- When a compiled expression is simplified, a float stays a float.  An
integer stays one too, unless on the way the quotient of two numbers is
computed which both are integers.  At no node that the pass comes to is there
a conversion beside an integer, so that no conversion is dropped for that
reason. -/
theorem types_of_simplified
    {source : String} {c : Compiled} {tree : Tree}
    (hcompile : compile source = .ok c)
    (hsimplify : c.tree.simplify = .ok tree) :
    (∃ visits, Tree.Pass .operand c.tree visits tree) ∧
      (c.tree.result = .float → tree.result = .float) ∧
      ∀ visits, Tree.Pass .operand c.tree visits tree →
        (c.tree.result = .integer →
          tree.result = .integer ∨ tree.result = .float ∧ ∃ visit ∈ visits,
            Tree.ComputesQuotient visit.node.dropRedundantCasts.resolve
              visit.settled) ∧
        ∀ visit ∈ visits, visit.HasFloatSiblings ∧
          visit.node.dropRedundantCasts = visit.node := by
  obtain ⟨parsed, hsound⟩ := exists_isSound hcompile
  obtain ⟨visits, hpass⟩ := Tree.exists_pass_iff.mpr hsimplify
  refine ⟨⟨visits, hpass⟩, (hpass.keepsTypes hsound.consistent).float, ?_⟩
  intro visits hpass
  have hkeeps := hpass.keepsTypes hsound.consistent
  refine ⟨hkeeps.integer, ?_⟩
  intro visit hvisit
  have hsiblings := hkeeps.siblings visit hvisit
  exact ⟨hsiblings, hsiblings.dropRedundantCasts_eq⟩

/-- The quotient makes a float of the product, and this one of the sum, whose
other operand is converted then. -/
theorem types_of_simplified_quotient :
    ∃ c tree visits, compile "a + 6 / 4 * b" = .ok c ∧
      c.tree.simplify = .ok tree ∧
      tree.text = "(+ (i2f <id,1>) (* 1.5 (i2f <id,2>)))" ∧
      c.tree.result = .integer ∧ tree.result = .float ∧
      Tree.Pass .operand c.tree visits tree ∧
      ∃ visit ∈ visits,
        Tree.ComputesQuotient visit.node.dropRedundantCasts.resolve
          visit.settled := by
  have htypes : (compile "a + 6 / 4 * b").toOption.map
      (fun c => (c.tree.result, c.tree.simplify.toOption.map fun tree =>
        (tree.text, tree.result))) =
      some (.integer,
        some ("(+ (i2f <id,1>) (* 1.5 (i2f <id,2>)))", .float)) := by
    decide +kernel
  obtain ⟨c, hcompile, hc⟩ := Success.exists_of_toOption htypes
  obtain ⟨hinteger, hsimplified⟩ := Prod.mk.inj hc
  obtain ⟨tree, hsimplify, htree⟩ := Success.exists_of_toOption hsimplified
  obtain ⟨htext, hfloat⟩ := Prod.mk.inj htree
  obtain ⟨⟨visits, hpass⟩, _, hvisits⟩ :=
    types_of_simplified hcompile hsimplify
  refine ⟨c, tree, visits, hcompile, hsimplify, htext, hinteger,
    hfloat, hpass, ?_⟩
  rcases (hvisits visits hpass).1 hinteger with hsame | ⟨_, hquotient⟩
  · simp [hfloat] at hsame
  · exact hquotient

end ThreeAddress
