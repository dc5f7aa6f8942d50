import ThreeAddress.Proofs.Rewriting
import ThreeAddress.Proofs.Worth

/-!
# Simplification keeps values

Each rule replaces a node by one whose run has a matching outcome, provided
that no division of integers is computed, which would make a float of it.
Since operators take matching operands to equal results, a simplified tree
comes to the value of the tree it was made from, and fails when that does.
-/

namespace ThreeAddress

namespace Tree

/-- The tree comes down to a number when it is simplified. -/
def simplifiesToNumber (tree : Tree) : Bool :=
  match tree.simplify with
  | .ok simplified => simplified.token.number?.isSome
  | .error _ => false

/-- A division of integers in the tree has operands that come down to
numbers. -/
def foldsIntegerDivision : Tree → Bool
  | .leaf _ _ => false
  | .leftOnly _ _ l => l.foldsIntegerDivision
  | .rightOnly _ _ r => r.foldsIntegerDivision
  | .binary t res l r =>
    (t.operator? = some .divide && res = .integer && l.simplifiesToNumber &&
      r.simplifiesToNumber) || l.foldsIntegerDivision ||
        r.foldsIntegerDivision

def HasCells (cellOf : Nat → Cell) (tree : Tree) : Prop :=
  ∀ id ∈ tree.identifiers, (cellOf id.attr).type = id.type ∧
    (cellOf id.attr).IsProper

theorem HasCells.mono
    {cellOf : Nat → Cell} {tree other : Tree}
    (h : tree.HasCells cellOf)
    (hsubset : other.identifiers ⊆ tree.identifiers) :
    other.HasCells cellOf :=
  fun id hid => h id (hsubset hid)

theorem hasCells_binary
    {cellOf : Nat → Cell} {t : Token}
    (ht : t.identifier? = none)
    {res : Resolution} {l r : Tree} :
    (Tree.binary t res l r).HasCells cellOf ↔
      l.HasCells cellOf ∧ r.HasCells cellOf := by
  rw [HasCells, identifiers_binary ht, List.forall_mem_append,
    HasCells, HasCells]

theorem HasCells.token
    {cellOf : Nat → Cell} {tree : Tree}
    (h : tree.HasCells cellOf) :
    tree.token.HasCell cellOf := by
  intro id hid
  refine h id (identifiers_ofToken_subset tree ?_)
  simp [ofToken, hid]

/-! ## Operands -/

theorem Consistent.eq_ofToken
    {tree : Tree}
    (h : tree.Consistent)
    (ht : tree.token.isOperand = true) :
    tree = ofToken tree.token := by
  cases tree with
  | leaf t res =>
      obtain ⟨_, rfl⟩ := h
      rfl
  | leftOnly t res l => exact h.elim
  | rightOnly t res r =>
      simp [Tree.token, Token.isOperand_of_operator? h.1] at ht
  | binary t res l r =>
      obtain ⟨op, hop, _⟩ := h.1
      simp [Tree.token, Token.isOperand_of_operator? hop] at ht

theorem outcome_of_isOperand
    (cellOf : Nat → Cell) {tree : Tree}
    (h : tree.Consistent)
    (ht : tree.token.isOperand = true) :
    (tree.course cellOf).outcome = .ok (tree.token.cell cellOf) ∧
      tree.result = .ofToken tree.token := by
  rw [h.eq_ofToken ht]
  exact ⟨rfl, rfl⟩

theorem Consistent.exists_type
    {tree : Tree}
    (h : tree.Consistent) :
    ∃ type, tree.result = .ofType type := by
  rcases h.result_cases with hresult | hresult
  · exact ⟨.integer, hresult⟩
  · exact ⟨.float, hresult⟩

/-! ## Identities -/

theorem AppliesIdentity.isOperand
    {op : Operator} {left right : Token} {tree : Tree}
    (h : AppliesIdentity op left right tree) :
    left.isOperand = true ∧ right.isOperand = true := by
  cases h with
  | zeroRight hop hl hr hn | oneRight hop hl hr hn | timesZero hl hr hn =>
      exact ⟨Token.isOperand_of_identifier? hl, Token.isOperand_of_number? hr⟩
  | zeroLeft hl hr hn | oneLeft hl hr hn | zeroTimes hl hr hn =>
      exact ⟨Token.isOperand_of_number? hl, Token.isOperand_of_identifier? hr⟩
  | difference hl hr hattr =>
      exact ⟨Token.isOperand_of_identifier? hl,
        Token.isOperand_of_identifier? hr⟩

/-- What an identity leaves is worth the result of the operation. -/
theorem AppliesIdentity.worth
    {cellOf : Nat → Cell} {op : Operator} {left right : Token} {tree : Tree}
    (h : AppliesIdentity op left right tree)
    (hleft : left.HasCell cellOf)
    (hright : right.HasCell cellOf) :
    (op.apply (left.cell cellOf).value (right.cell cellOf).value).quanta? =
      (tree.token.cell cellOf).value.quanta? := by
  obtain ⟨hoperandl, hoperandr⟩ := h.isOperand
  obtain ⟨a, ha⟩ := (Token.isProper_cell hoperandl hleft).exists_worth
  obtain ⟨b, hb⟩ := (Token.isProper_cell hoperandr hright).exists_worth
  have hfitsa := Single.fits_of_quanta? ha
  have hfitsb := Single.fits_of_quanta? hb
  rw [op.quanta?_apply ha hb]
  cases h with
  | zeroRight hop hl hr hn =>
      obtain rfl := Option.some.inj
        (hb.symm.trans (Token.quanta?_of_isZero hr hn))
      exact (Operator.applyQuanta?_zero_right hop hfitsa).trans ha.symm
  | oneRight hop hl hr hn =>
      obtain rfl := Option.some.inj
        (hb.symm.trans (Token.quanta?_of_isOne hr hn))
      exact (Operator.applyQuanta?_one_right hop hfitsa).trans ha.symm
  | timesZero hl hr hn =>
      obtain rfl := Option.some.inj
        (hb.symm.trans (Token.quanta?_of_isZero hr hn))
      exact (Operator.applyQuanta?_multiply_zero_right a).trans hb.symm
  | zeroLeft hl hr hn =>
      obtain rfl := Option.some.inj
        (ha.symm.trans (Token.quanta?_of_isZero hl hn))
      exact (Operator.applyQuanta?_add_zero_left hfitsb).trans hb.symm
  | oneLeft hl hr hn =>
      obtain rfl := Option.some.inj
        (ha.symm.trans (Token.quanta?_of_isOne hl hn))
      rw [Operator.applyQuanta?_multiply_comm]
      exact (Operator.applyQuanta?_one_right (.inl rfl) hfitsb).trans hb.symm
  | zeroTimes hl hr hn =>
      obtain rfl := Option.some.inj
        (ha.symm.trans (Token.quanta?_of_isZero hl hn))
      rw [Operator.applyQuanta?_multiply_comm]
      exact (Operator.applyQuanta?_multiply_zero_right b).trans ha.symm
  | @difference _ _ i j hl hr hattr =>
      rw [Token.cell_of_identifier? hl] at ha
      rw [Token.cell_of_identifier? hr, ← hattr] at hb
      obtain rfl : a = b := Option.some.inj (ha.symm.trans hb)
      exact (Operator.applyQuanta?_subtract_self a).trans
        (Literal.quanta?_zero i.type).symm

theorem AppliesIdentity.result_eq
    {op : Operator} {left right : Token} {tree : Tree}
    (h : AppliesIdentity op left right tree)
    {res : Resolution}
    (hleft : Resolution.ofToken left = res)
    (hright : Resolution.ofToken right = res) :
    tree.result = res ∧ tree = ofToken tree.token ∧
      tree.token.isOperand = true := by
  obtain ⟨hoperandl, hoperandr⟩ := h.isOperand
  cases h with
  | zeroRight | oneRight | zeroTimes => exact ⟨hleft, rfl, hoperandl⟩
  | zeroLeft | oneLeft | timesZero => exact ⟨hright, rfl, hoperandr⟩
  | difference hl hr hattr =>
      refine ⟨?_, rfl, rfl⟩
      rw [← hleft, result_ofLiteral, Literal.type_zero,
        Token.resolution_of_identifier? hl]

theorem matches_identity
    {cellOf : Nat → Cell} {t : Token} {res : Resolution} {l r tree : Tree}
    {op : Operator}
    (hnode : (Tree.binary t res l r).Consistent)
    (hcells : (Tree.binary t res l r).HasCells cellOf)
    (ht : t.operator? = some op)
    (h : AppliesIdentity op l.token r.token tree) :
    tree.result = res ∧ Matches tree.isLeaf
      ((Tree.binary t res l r).course cellOf).outcome
        (tree.course cellOf).outcome := by
  have hsubset :=
    ((Rewrites.identity ht h).consistent hnode.right?_consistent).2
  have hkept := (hcells.mono hsubset).token
  obtain ⟨_, hresl, hresr, hl, hr⟩ := hnode
  obtain ⟨hleft, hright⟩ :=
    (hasCells_binary (Token.identifier?_of_operator? ht)).mp hcells
  obtain ⟨hoperandl, hoperandr⟩ := h.isOperand
  obtain ⟨houtl, htypel⟩ := outcome_of_isOperand cellOf hl hoperandl
  obtain ⟨houtr, htyper⟩ := outcome_of_isOperand cellOf hr hoperandr
  obtain ⟨hresult, htree, hoperand⟩ :=
    h.result_eq (htypel.symm.trans hresl) (htyper.symm.trans hresr)
  refine ⟨hresult, ?_⟩
  have hproper := Token.isProper_cell hoperand hkept
  have hworth := h.worth hleft.token hright.token
  have hfinite : (op.apply (l.token.cell cellOf).value
      (r.token.cell cellOf).value).isFinite = true := by
    obtain ⟨a, ha⟩ := hproper.exists_worth
    exact Single.isFinite_iff.mpr ⟨a, hworth.trans ha⟩
  have htype : res = .ofType (tree.token.cell cellOf).type := by
    rw [Token.ofType_type_cell hoperand fun id hid => (hkept id hid).1,
      ← hresult, htree]
    rfl
  have hout :
      (tree.course cellOf).outcome = .ok (tree.token.cell cellOf) := by
    rw [htree]
    rfl
  have hleaf : tree.isLeaf = true := by
    rw [htree]
    rfl
  rw [htype, outcome_course_binary ht, houtl, houtr, hout, hleaf]
  simp only [Except.bind, Machine.computed_of_isFinite _ hfinite]
  exact .value (Cell.alike_narrow hproper hworth) (by simp)

/-! ## Computed operations -/

theorem ofType_foldedType
    {op : Operator} {res : Resolution}
    (hres : res = .integer ∨ res = .float)
    (hdivision : ¬(op = .divide ∧ res = .integer)) :
    .ofType (foldedType op res) = res := by
  rcases hres with rfl | rfl
  · have hop : op ≠ .divide := fun hop => hdivision ⟨hop, rfl⟩
    simp [foldedType, hop, Resolution.ofType]
  · simp [foldedType, Resolution.ofType]

/-- The literal of a magnitude is worth the magnitude; an integer has to be
whole for that. -/
theorem quanta?_magnitude
    {type : ValueType} {x : Single} {a : Int} {size : Literal}
    (hx : x.quanta? = some a)
    (hfoldable : isFoldable type x = true)
    (hwhole : type = .integer → (Single.unit : Int) ∣ a)
    (h : magnitude type x = .ok size) :
    size.value.quanta? = some (a.natAbs : Int) := by
  obtain ⟨s, n, hn, rfl, rfl⟩ := Single.exists_finite hx
  rw [Single.natAbs_signedQuanta]
  cases type with
  | float =>
      rw [Literal.value, Literal.cell_ofSingle h]
      rfl
  | integer =>
      have hdvd : Single.unit ∣ n := by
        have := Int.natAbs_dvd_natAbs.mpr (hwhole rfl)
        rwa [Int.natAbs_natCast, Single.natAbs_signedQuanta] at this
      obtain ⟨k, rfl⟩ := hdvd
      have hk : k < 2 ^ 31 := by
        have hlimit : Single.unit * k < 2 ^ 31 * Single.unit := by
          simpa [isFoldable, Single.isFinite, Single.belowWordLimit]
            using hfoldable
        rw [Nat.mul_comm (2 ^ 31)] at hlimit
        exact Nat.lt_of_mul_lt_mul_left hlimit
      have habs : (Single.finite s (Single.unit * k) hn).abs.quanta? =
          some ((k : Int) * Single.unit) := by
        rw [Int.mul_comm, ← Nat.cast_mul]
        rfl
      have htruncate :
          (Single.finite s (Single.unit * k) hn).abs.truncate = k := by
        have hunit : (Single.unit : Int) ≠ 0 := by
          exact_mod_cast Single.unit_pos.ne'
        rw [Single.truncate_eq habs, Int.mul_tdiv_cancel _ hunit, clampToWord]
        omega
      have hcell : size.cell = .integer k := by
        rw [magnitude, htruncate] at h
        exact Literal.cell_ofInt h
      rw [Literal.value, hcell, Cell.value, ← htruncate,
        Single.quanta?_ofInt_truncate habs (by omega)]
      rfl

theorem unit_dvd_of_foldedType
    {op : Operator} {res : Resolution} {x y : Cell} {a : Int}
    (hx : x.IsProper)
    (hy : y.IsProper)
    (hxtype : .ofType x.type = res)
    (hytype : .ofType y.type = res)
    (hop : op ≠ .toFloat)
    (ha : (op.apply x.value y.value).quanta? = some a)
    (h : foldedType op res = .integer) :
    (Single.unit : Int) ∣ a := by
  have hneither : op ≠ .divide ∧ res ≠ .float := by
    unfold foldedType at h
    split at h
    · contradiction
    · next hnot => exact not_or.mp hnot
  cases x with
  | float x => exact (hneither.2 hxtype.symm).elim
  | integer m =>
      cases y with
      | float y => exact (hneither.2 hytype.symm).elim
      | integer n =>
          obtain ⟨j, hj, _⟩ := Single.exists_quanta?_ofInt hx
          obtain ⟨k, hk, _⟩ := Single.exists_quanta?_ofInt hy
          have hworth := (op.quanta?_apply hj hk).symm.trans ha
          refine Operator.unit_dvd_applyQuanta? ?_ (dvd_mul_left _ _)
            (dvd_mul_left _ _) hworth
          cases op <;> simp_all

theorem matches_ofSigned
    {cellOf : Nat → Cell} {type : ValueType} {x : Single} {a : Int}
    {size : Literal}
    (hx : x.quanta? = some a)
    (htype : size.type = type)
    (hsize : size.value.quanta? = some (a.natAbs : Int)) :
    Matches (ofSigned type (!x.isNonneg) size).isLeaf (.ok (.narrow type x))
      ((ofSigned type (!x.isNonneg) size).course cellOf).outcome := by
  cases hnonneg : x.isNonneg with
  | true =>
      have hworth : x.quanta? = size.cell.value.quanta? := by
        rw [hx, ← Int.natAbs_of_nonneg ((Single.isNonneg_iff hx).mp hnonneg)]
        exact hsize.symm
      subst htype
      rw [← size.type_cell]
      exact .value (Cell.alike_narrow size.isProper_cell hworth)
        fun hleaf => (Bool.false_ne_true hleaf.symm).elim
  | false =>
      -- The value is negative, and the tree subtracts its magnitude from
      -- zero.
      have hnegative : -(a.natAbs : Int) = a := by
        have := mt (Single.isNonneg_iff hx).mpr (by simp [hnonneg])
        omega
      have hfits : Single.Fits (a.natAbs : Int).natAbs :=
        Single.fits_of_quanta? hsize
      have hworth : (Operator.subtract.apply (Literal.zero type).value
          size.value).quanta? = some a := by
        rw [Operator.quanta?_apply _ (Literal.quanta?_zero type) hsize,
          Operator.applyQuanta?_subtract_zero_left hfits, hnegative]
      have hfinite := Single.isFinite_iff.mpr ⟨a, hworth⟩
      have hproper :=
        Cell.isProper_narrow type (Single.isFinite_iff.mpr ⟨a, hx⟩)
      change Matches false _
        ((Tree.binary (.synthesized (.operator .subtract)) (.ofType type)
          (ofLiteral (.zero type)) (ofLiteral size)).course cellOf).outcome
      rw [outcome_course_binary rfl]
      change Matches false _
        ((Machine.computed type .subtract (Literal.zero type).cell
          size.cell).map Prod.fst)
      rw [Machine.computed_of_isFinite type hfinite]
      exact .of_equals (Cell.equals_narrow type hx hworth) hproper

/-- The literal that is left of a computed operation is worth the magnitude of
its result. -/
theorem quanta?_size_of_folded
    {t : Token} {res : Resolution} {l r : Tree} {op : Operator}
    {a b size : Literal} {c : Int}
    (hnode : (Tree.binary t res l r).Consistent)
    (ht : t.operator? = some op)
    (hl : l.token.number? = some a)
    (hr : r.token.number? = some b)
    (hc : (op.apply a.value b.value).quanta? = some c)
    (hfoldable : isFoldable (foldedType op res)
      (op.apply a.value b.value) = true)
    (hsize : magnitude (foldedType op res)
      (op.apply a.value b.value) = .ok size) :
    size.value.quanta? = some (c.natAbs : Int) := by
  rcases hnode with ⟨⟨other, hother, hne⟩, hresl, hresr, hconsl, hconsr⟩
  obtain rfl : other = op := Option.some.inj (hother.symm.trans ht)
  have htypel : l.result = .ofToken l.token :=
    congrArg result (hconsl.eq_ofToken (Token.isOperand_of_number? hl))
  have htyper : r.result = .ofToken r.token :=
    congrArg result (hconsr.eq_ofToken (Token.isOperand_of_number? hr))
  refine quanta?_magnitude hc hfoldable (fun hinteger => ?_) hsize
  apply unit_dvd_of_foldedType a.isProper_cell b.isProper_cell _ _
    hne hc hinteger
  · rw [a.type_cell, ← Token.resolution_of_number? hl, ← htypel, hresl]
  · rw [b.type_cell, ← Token.resolution_of_number? hr, ← htyper, hresr]

theorem matches_folded
    {cellOf : Nat → Cell} {t : Token} {res : Resolution} {l r : Tree}
    {op : Operator} {a b size : Literal}
    (hnode : (Tree.binary t res l r).Consistent)
    (ht : t.operator? = some op)
    (hl : l.token.number? = some a)
    (hr : r.token.number? = some b)
    (hdivision : ¬(op = .divide ∧ res = .integer))
    (hfoldable : isFoldable (foldedType op res)
      (op.apply a.value b.value) = true)
    (hsize : magnitude (foldedType op res)
      (op.apply a.value b.value) = .ok size) :
    let tree := ofSigned (foldedType op res)
      (!(op.apply a.value b.value).isNonneg) size
    tree.result = res ∧ Matches tree.isLeaf
      ((Tree.binary t res l r).course cellOf).outcome
        (tree.course cellOf).outcome := by
  intro tree
  have hfinite : (op.apply a.value b.value).isFinite = true :=
    (Bool.and_eq_true _ _ ▸ hfoldable).1
  obtain ⟨c, hc⟩ := Single.isFinite_iff.mp hfinite
  have hworth := quanta?_size_of_folded hnode ht hl hr hc hfoldable hsize
  obtain ⟨⟨other, hother, hne⟩, hresl, hresr, hconsl, hconsr⟩ := hnode
  obtain rfl : other = op := Option.some.inj (hother.symm.trans ht)
  have htype := ofType_foldedType (hresl ▸ hconsl.result_cases) hdivision
  have hsizeType := type_of_magnitude hsize
  refine ⟨((ofSigned_consistent _ hsizeType).2.1).trans htype, ?_⟩
  obtain ⟨houtl, _⟩ :=
    outcome_of_isOperand cellOf hconsl (Token.isOperand_of_number? hl)
  obtain ⟨houtr, _⟩ :=
    outcome_of_isOperand cellOf hconsr (Token.isOperand_of_number? hr)
  rw [Token.cell_of_number? hl] at houtl
  rw [Token.cell_of_number? hr] at houtr
  have hrun : ∀ type, .ofType type = res →
      ((Tree.binary t res l r).course cellOf).outcome =
        .ok (.narrow type (other.apply a.value b.value)) := by
    rintro type rfl
    rw [outcome_course_binary hother, houtl, houtr]
    exact Machine.computed_of_isFinite type hfinite
  rw [hrun _ htype]
  exact matches_ofSigned hc hsizeType hworth

/-! ## Simplified trees -/

/-- A rule keeps the type and the value of a consistent operator, unless it
computes a division of integers. -/
theorem Rewrites.matches_binary
    {cellOf : Nat → Cell} {t : Token} {res : Resolution} {l r tree : Tree}
    (h : Rewrites (.binary t res l r) tree)
    (hnode : (Tree.binary t res l r).Consistent)
    (hcells : (Tree.binary t res l r).HasCells cellOf)
    (hdivision : ¬(t.operator? = some .divide ∧ res = .integer ∧
      l.token.number?.isSome = true ∧ r.token.number?.isSome = true)) :
    tree.result = res ∧ Matches tree.isLeaf
      ((Tree.binary t res l r).course cellOf).outcome
        (tree.course cellOf).outcome := by
  cases h with
  | folded ht hl hr hfoldable hsize =>
      refine matches_folded hnode ht hl hr ?_ hfoldable hsize
      rintro ⟨rfl, rfl⟩
      exact hdivision ⟨ht, rfl, by simp [hl], by simp [hr]⟩
  | identity ht hidentity => exact matches_identity hnode hcells ht hidentity

theorem ReducesCast.outcome_eq
    {cellOf : Nat → Cell} {child tree : Tree}
    (h : ReducesCast child tree)
    (hchild : child.Consistent) :
    (tree.course cellOf).outcome = (child.course cellOf).outcome := by
  rcases h with rfl | ⟨hcast, hrewrites⟩
  · rfl
  · obtain ⟨t, r, rfl, ht, hr, hconsistent⟩ := hchild.exists_of_isCast hcast
    cases hrewrites with
    | dropped ht hfloat =>
        rw [hr] at hfloat
        contradiction
    | @converted _ _ _ a literal ht hnumber hliteral =>
        obtain ⟨hout, htype⟩ := outcome_of_isOperand cellOf hconsistent
          (Token.isOperand_of_number? hnumber)
        rw [outcome_course_cast, hout, Token.cell_of_number? hnumber]
        refine congrArg Except.ok (Literal.cell_ofSingle_value ?_ hliteral)
        rw [htype, Token.resolution_of_number? hnumber] at hr
        exact (Resolution.ofType_eq_integer_iff _).mp hr

theorem reduceNode_operand
    {slot : Slot} {node tree : Tree}
    (h : node.reduceNode slot = .ok tree) :
    node.reduceNode .operand = .ok tree := by
  simp only [reduceNode, Success.bind_eq_ok_iff] at h ⊢
  obtain ⟨replacement, hreplacement, h⟩ := h
  refine ⟨replacement, hreplacement, ?_⟩
  cases replacement with
  | none => exact h
  | some other =>
      cases slot with
      | operand => exact h
      | divisor position =>
          simp only at h
          split at h
          · simp at h
          · exact h

theorem settle_operand
    {slot : Slot} {node tree : Tree}
    (h : settle slot node = .ok tree) :
    settle .operand node = .ok tree := by
  simp only [settle, Success.bind_eq_ok_iff,
    Success.mapError_eq_ok_iff] at h ⊢
  obtain ⟨left, hleft, right, hright, h⟩ := h
  exact ⟨left, hleft, right, hright, reduceNode_operand h⟩

theorem simplify_of_simplifyIn
    {slot : Slot} {tree tree' : Tree}
    (h : simplifyIn slot tree = .ok tree') :
    tree.simplify = .ok tree' := by
  cases tree with
  | leaf t res => exact h
  | leftOnly t res l | rightOnly t res r | binary t res l r =>
      simp only [simplify, simplifyIn, Success.bind_eq_ok_iff,
        Success.mapError_eq_ok_iff] at h ⊢
      grind [settle_operand]

theorem castInteger_of_float
    {tree : Tree}
    (h : tree.result = .float) :
    tree.castInteger = tree := by
  simp [castInteger, h]

theorem resolve_dropRedundantCasts_self
    {t : Token} {res : Resolution} {l r : Tree}
    (h : (Tree.binary t res l r).Consistent) :
    (dropRedundantCasts (.binary t res l r)).resolve = .binary t res l r := by
  obtain ⟨ht, hresl, hresr, hl, hr⟩ := h
  have hsame : l.result = r.result := hresl.trans hresr.symm
  have hkeepl : ¬(l.isCast = true ∧ r.result = .integer) := by
    rintro ⟨hcast, hinteger⟩
    simp [hl.isCast_eq_false (hsame.trans hinteger)] at hcast
  have hkeepr : ¬(r.isCast = true ∧ l.result = .integer) := by
    rintro ⟨hcast, hinteger⟩
    simp [hr.isCast_eq_false (hsame.symm.trans hinteger)] at hcast
  have hdrop :
      dropRedundantCasts (.binary t res l r) = .binary t res l r := by
    simp only [dropRedundantCasts, if_neg hkeepl, if_neg hkeepr, ofParts]
  rw [hdrop]
  rcases hl.result_cases with hinteger | hfloat
  · rw [resolve_binary_integer ht res hinteger (hsame.symm.trans hinteger),
      ← hresl, hinteger]
  · rw [resolve_binary_float ht res (by simp [hfloat]),
      castInteger_of_float hfloat,
      castInteger_of_float (hsame.symm.trans hfloat), ← hresl, hfloat]

theorem ReducesCast.eq_of_integer
    {child tree : Tree}
    (h : ReducesCast child tree)
    (hchild : child.Consistent)
    (hinteger : child.result = .integer) :
    tree = child := by
  rcases h with rfl | ⟨hcast, _⟩
  · rfl
  · simp [hchild.isCast_eq_false hinteger] at hcast

/-- Settling an operator over simplified operands keeps the value that it has
over the original ones. -/
theorem matches_settle_binary
    {cellOf : Nat → Cell} {slot : Slot} {t : Token} {res : Resolution}
    {l₀ r₀ l r tree : Tree}
    (hnode : (Tree.binary t res l r).Consistent)
    (hcells : (Tree.binary t res l r).HasCells cellOf)
    (hdivision : ¬(t.operator? = some .divide ∧ res = .integer ∧
      l.token.number?.isSome = true ∧ r.token.number?.isSome = true))
    (hmatchl : Matches l.isLeaf (l₀.course cellOf).outcome
      (l.course cellOf).outcome)
    (hmatchr : Matches r.isLeaf (r₀.course cellOf).outcome
      (r.course cellOf).outcome)
    (h : settle slot (.binary t res l r) = .ok tree) :
    tree.result = res ∧ Matches tree.isLeaf
      ((Tree.binary t res l₀ r₀).course cellOf).outcome
        (tree.course cellOf).outcome := by
  have hresolve := resolve_dropRedundantCasts_self hnode
  have ⟨ht, hresl, hresr, hl, hr⟩ := hnode
  have ⟨op, hop, _⟩ := ht
  obtain ⟨l₁, r₁, hl₁, hr₁, hrule⟩ := settle_binary_cases ht hresolve hl hr h
  obtain ⟨hnode₁, hids₁⟩ := hnode.reduceCasts hl₁ hr₁
  have hcells₁ : (Tree.binary t res l₁ r₁).HasCells cellOf :=
    hcells.mono hids₁
  -- A conversion is a float, so that a division of integers keeps its
  -- operands.
  have hdivision₁ : ¬(t.operator? = some .divide ∧ res = .integer ∧
      l₁.token.number?.isSome = true ∧ r₁.token.number?.isSome = true) := by
    rintro ⟨hdivide, rfl, hnumberl, hnumberr⟩
    rw [hl₁.eq_of_integer hl hresl] at hnumberl
    rw [hr₁.eq_of_integer hr hresr] at hnumberr
    exact hdivision ⟨hdivide, rfl, hnumberl, hnumberr⟩
  have hoperation :
      Matches false ((Tree.binary t res l₀ r₀).course cellOf).outcome
      ((Tree.binary t res l₁ r₁).course cellOf).outcome := by
    obtain ⟨type, htype⟩ := hl.exists_type
    obtain rfl : .ofType type = res := htype.symm.trans hresl
    rw [← hl₁.outcome_eq hl] at hmatchl
    rw [← hr₁.outcome_eq hr] at hmatchr
    rw [outcome_course_binary hop, outcome_course_binary hop]
    exact hmatchl.operation hmatchr type op
  rcases hrule with rfl | hrewrites
  · exact ⟨rfl, hoperation⟩
  · obtain ⟨hresult, hmatches⟩ :=
      hrewrites.matches_binary hnode₁ hcells₁ hdivision₁
    exact ⟨hresult, hoperation.trans hmatches⟩

theorem matches_settle_cast
    {cellOf : Nat → Cell} {slot : Slot} {t : Token} {r₀ r tree : Tree}
    (hnode : (Tree.rightOnly t .float r).Consistent)
    (hmatch : Matches r.isLeaf (r₀.course cellOf).outcome
      (r.course cellOf).outcome)
    (h : settle slot (.rightOnly t .float r) = .ok tree) :
    tree.result = .float ∧ Matches tree.isLeaf
      ((Tree.rightOnly t .float r₀).course cellOf).outcome
      (tree.course cellOf).outcome := by
  have ⟨ht, _, hinteger, hr⟩ := hnode
  obtain ⟨r₁, hr₁, hrule⟩ := settle_cast_cases ht hr h
  obtain rfl := hr₁.eq_of_integer hr hinteger
  have hreduces : ReducesCast (.rightOnly t .float r₁) tree := by
    rcases hrule with ⟨rfl, _⟩ | hrewrites
    · exact .inl rfl
    · exact .inr ⟨isCast_iff.mpr ht, hrewrites⟩
  refine ⟨(hreduces.consistent hnode).2.1, ?_⟩
  rw [hreduces.outcome_eq hnode, outcome_course_cast, outcome_course_cast]
  exact hmatch.cast.weaken

/-- A simplified tree has the type of the original, and its run a matching
outcome. -/
theorem simplifyIn_matches
    {cellOf : Nat → Cell} {slot : Slot} {tree tree' : Tree}
    (htree : tree.Consistent)
    (hcells : tree.HasCells cellOf)
    (hfolds : tree.foldsIntegerDivision = false)
    (h : simplifyIn slot tree = .ok tree') :
    tree'.result = tree.result ∧ Matches tree'.isLeaf
      (tree.course cellOf).outcome (tree'.course cellOf).outcome := by
  induction tree generalizing slot tree' with
  | leaf t res =>
      obtain rfl : .leaf t res = tree' := by simpa [simplifyIn] using h
      have hproper := Token.isProper_cell htree.1 hcells.token
      exact ⟨rfl, .value hproper.alike_self fun hleaf =>
        (Bool.false_ne_true hleaf.symm).elim⟩
  | leftOnly t res l ih => exact htree.elim
  | rightOnly t res r ih =>
      obtain ⟨ht, rfl, hinteger, hr⟩ := htree
      rw [HasCells, identifiers_rightOnly
        (Token.identifier?_of_operator? ht)] at hcells
      obtain ⟨r', hr', hsettle⟩ := simplifyIn_cast_eq_ok_iff.mp h
      obtain ⟨hresult, hmatches⟩ := ih hr hcells hfolds hr'
      have hconsistent := (simplifyIn_consistent hr hr').1
      exact matches_settle_cast ⟨ht, rfl, hresult.trans hinteger, hconsistent⟩
        hmatches hsettle
  | binary t res l r ihl ihr =>
      obtain ⟨ht, hresl, hresr, hl, hr⟩ := htree
      obtain ⟨hcellsl, hcellsr⟩ :=
        (hasCells_binary ht.identifier?_eq).mp hcells
      obtain ⟨l', r', hl', hr', hsettle⟩ := simplifyIn_binary_eq_ok_iff.mp h
      simp only [foldsIntegerDivision, Bool.or_eq_false_iff] at hfolds
      obtain ⟨⟨hdivides, hfoldsl⟩, hfoldsr⟩ := hfolds
      obtain ⟨hresultl, hmatchl⟩ := ihl hl hcellsl hfoldsl hl'
      obtain ⟨hresultr, hmatchr⟩ := ihr hr hcellsr hfoldsr hr'
      obtain ⟨hconsl, hidsl⟩ := simplifyIn_consistent hl hl'
      obtain ⟨hconsr, hidsr⟩ := simplifyIn_consistent hr hr'
      refine matches_settle_binary
        ⟨ht, hresultl.trans hresl, hresultr.trans hresr, hconsl, hconsr⟩
        (hcells.mono (identifiers_binary_subset ht.identifier?_eq
            hidsl hidsr)) ?_
        hmatchl hmatchr hsettle
      rintro ⟨hdivide, hinteger, hnumberl, hnumberr⟩
      have hsimplifyl := simplify_of_simplifyIn hl'
      have hsimplifyr := simplify_of_simplifyIn hr'
      simp [hdivide, simplifiesToNumber, hsimplifyl, hsimplifyr, hnumberl,
        hnumberr] at hdivides
      exact hdivides hinteger

end Tree

/-- The cells of the table's symbols are proper. -/
def SymbolTable.AllProper (table : SymbolTable) (cellOf : Nat → Cell) :
    Prop :=
  ∀ attr row, table.get? attr = some row → (cellOf attr).IsProper

/-- Run with and without simplification, an expression comes to equal values,
up to the sign of zero, or to results that are not finite both times, unless a
division of integers is computed. -/
theorem evaluate_optimal_equals_plain
    {source : String} {c : Compiled} {tree : Tree}
    (hcompile : compile source = .ok c)
    (hoptimize : c.tree.optimize = .ok tree)
    (hfolds : c.tree.foldsIntegerDivision = false)
    {σ : Type}
    (ask : String → ValueType → StateM σ (Except ValueFault Cell))
    (state : σ) (cellOf : Nat → Cell)
    (hsupplies : Supplies ask cellOf c.symbols state)
    (htypes : c.symbols.Types cellOf)
    (hproper : c.symbols.AllProper cellOf) :
    let plain := ((evaluate ask none source .plain).run state).1.result
    let optimal := ((evaluate ask none source .optimal).run state).1.result
    (∃ x y, plain = .ok x ∧ optimal = .ok y ∧ x.Equals y) ∨
      ∃ l op r l' op' r', plain = .error (.runtime (.nonFinite l op r)) ∧
        optimal = .error (.runtime (.nonFinite l' op' r')) := by
  intro plain optimal
  obtain ⟨parsed, hsound⟩ := exists_isSound hcompile
  obtain ⟨hsimplify, hleaf⟩ := Tree.optimize_eq_ok hoptimize
  obtain ⟨htree, hids⟩ :=
    Tree.simplifyIn_consistent hsound.consistent hsimplify
  have huses : tree.UsesRows c.symbols :=
    fun id hid => hsound.usesRows id (hids hid)
  have hcells : c.tree.HasCells cellOf := by
    intro id hid
    obtain ⟨row, hrow, htype, _⟩ := hsound.declares id hid
    exact ⟨(htypes id.attr row hrow).trans htype, hproper id.attr row hrow⟩
  have hplain : plain = (c.tree.course cellOf).outcome.mapError .runtime := by
    have hprepare : Tree.prepare .plain c.tree = .ok c.tree := rfl
    exact congrArg Outcome.result
      (evaluate_eq_course hcompile hprepare (fun _ => rfl) hsound.consistent
      hsound.isUser hsound.usesRows hsupplies)
  have hoptimal :
      optimal = (tree.course cellOf).outcome.mapError .runtime := by
    have hprepare : Tree.prepare .optimal c.tree = .ok tree := by
      simp [Tree.prepare, hoptimize]
    exact congrArg Outcome.result (evaluate_eq_course hcompile hprepare
      (by simp [hleaf]) htree hsound.isUser huses hsupplies)
  have hmatches :=
    (Tree.simplifyIn_matches hsound.consistent hcells hfolds hsimplify).2
  rw [hplain, hoptimal]
  generalize (c.tree.course cellOf).outcome = first at hmatches
  generalize (tree.course cellOf).outcome = second at hmatches
  cases hmatches with
  | value halike hequals => exact .inl ⟨_, _, rfl, rfl, hequals hleaf⟩
  | nonFinite => exact .inr ⟨_, _, _, _, _, _, rfl, rfl⟩

/-- The sum is dropped, although it rounds its operand.  The quotient is the
same, since the operand is rounded there as well. -/
theorem evaluate_optimal_rounded_operand :
    let ask (name : String) (_ : ValueType) : StateM Unit
      (Except ValueFault Cell) :=
      pure (.ok (.integer (if name = "c" then 1 else 16777217)))
    let run (mode : Mode) :=
      ((evaluate ask none "((a - a) + b) / c" mode).run ()).1.result
    run .plain = .ok (.integer 16777216) ∧
      run .optimal = .ok (.integer 16777216) := by
  intro ask run
  let cellOf (attr : Nat) : Cell :=
    .integer (if attr = 3 then 1 else 16777217)
  obtain ⟨c, tree, hcompile, hrows, hoptimize, hfolds⟩ : ∃ c tree,
      compile "((a - a) + b) / c" = .ok c ∧
      c.symbols.rows = [⟨"a", .integer, .user⟩, ⟨"b", .integer, .user⟩,
        ⟨"c", .integer, .user⟩] ∧
      c.tree.optimize = .ok tree ∧ c.tree.foldsIntegerDivision = false :=
    ⟨_, _, rfl, rfl, rfl, rfl⟩
  have hsupplies : Supplies ask cellOf c.symbols () := by
    rw [Supplies, hrows]
    exact ⟨(), rfl, (), rfl, (), rfl, trivial⟩
  have htypes : c.symbols.Types cellOf := by
    intro attr row hrow
    have hmem := SymbolTable.mem_rows_of_get? hrow
    rw [hrows] at hmem
    fin_cases hmem <;> rfl
  have hproper : c.symbols.AllProper cellOf := by
    intro attr row hrow
    change inWordRange (if attr = 3 then 1 else 16777217) = true
    split <;> decide
  have hplain : run .plain = .ok (.integer 16777216) := by decide +kernel
  rcases evaluate_optimal_equals_plain hcompile hoptimize hfolds ask
    () cellOf hsupplies htypes hproper with
    ⟨x, y, hx, hy, hequals⟩ | ⟨l, op, r, l', op', r', herror, _⟩
  · obtain rfl : .integer 16777216 = x := Except.ok.inj (hplain.symm.trans hx)
    cases y with
    | integer n =>
        obtain rfl : 16777216 = n := hequals
        exact ⟨hplain, hy⟩
    | float y => exact hequals.elim
  · have : run .plain = .error (.runtime (.nonFinite l op r)) := herror
    simp [hplain] at this

end ThreeAddress
