import ThreeAddress.Proofs.NodeTypes
import ThreeAddress.Proofs.Worth

/-!
# Exact integers

Integers are computed in single precision, and what is left of the result is
stored.  Up to 2²⁴ every integer has a number of its own, so that sums,
differences and products of that size are exact.  A quotient is rounded, and
might be rounded up to the next integer.  It is not: the next integer is at
least a fraction of one over the divisor away, which is more than half of the
spacing of the numbers there, since the dividend is at most 2²⁴.  So an
expression of integers that never leaves this range comes to its exact value.
-/

namespace ThreeAddress

namespace Single

/-! ## Bounds for rounding -/

theorem div_le_roundHalfEven
    (num den : Nat) :
    num / den ≤ roundHalfEven num den := by
  unfold roundHalfEven
  dsimp only
  split_ifs <;> omega

theorem two_mul_roundHalfEven_le
    (num : Nat) {den : Nat}
    (hden : 0 < den) :
    2 * (roundHalfEven num den * den) ≤ 2 * num + den := by
  have hdiv : num = num / den * den + num % den :=
    (Nat.div_add_mod' num den).symm
  have hrem : num % den < den := Nat.mod_lt num hden
  unfold roundHalfEven
  dsimp only
  generalize num / den = floor at *
  generalize num % den = rem at *
  have hsucc : (floor + 1) * den = floor * den + den := Nat.succ_mul floor den
  split_ifs <;> omega

/-- Rounding adds at most half of the spacing. -/
theorem two_mul_round_le
    (num : Nat) {den : Nat}
    (hden : 0 < den) :
    2 * (round num den * den) ≤ 2 * num + den * spacing (num / den) := by
  have hbound :=
    two_mul_roundHalfEven_le num (Nat.mul_pos hden (spacing_pos (num / den)))
  have hproduct : round num den * den =
      roundHalfEven num (den * spacing (num / den)) *
        (den * spacing (num / den)) := by
    rw [round]
    ring
  rwa [hproduct]

theorem div_spacing_mul_le_round
    (num den : Nat) :
    num / den / spacing (num / den) * spacing (num / den) ≤
      round num den := by
  rw [round, Nat.div_div_eq_div_mul]
  exact Nat.mul_le_mul_right _ (div_le_roundHalfEven _ _)

/-- A number that fits and does not exceed the quotient does not exceed the
rounded quotient either. -/
theorem le_round
    {m num den : Nat}
    (hm : spacing m ∣ m)
    (hden : 0 < den)
    (hle : m * den ≤ num) :
    m ≤ round num den := by
  have hfloor : m ≤ num / den := (Nat.le_div_iff_mul_le hden).mpr hle
  refine le_trans ?_ (div_spacing_mul_le_round num den)
  rcases exists_spacing_eq (num / den) with ⟨g, hspacing, hhigh, hlow⟩
  generalize num / den = floor at *
  rw [hspacing]
  have hpos : 0 < 2 ^ g := Nat.two_pow_pos g
  have hmultiple :
      ∀ k, 2 ^ g ∣ k → k ≤ floor → k ≤ floor / 2 ^ g * 2 ^ g := by
    rintro _ ⟨j, rfl⟩ hj
    rw [Nat.mul_comm]
    apply Nat.mul_le_mul_right
    rwa [Nat.le_div_iff_mul_le hpos, Nat.mul_comm]
  by_cases hsmall : m < 2 ^ (23 + g)
  · rcases hlow with rfl | hlow
    · exact hmultiple m (one_dvd m) hfloor
    · -- A power of two lies between, and it is a multiple of the spacing.
      exact hsmall.le.trans (hmultiple _ (Nat.pow_dvd_pow 2 (by omega)) hlow)
  · have hsame : spacing m = 2 ^ g := spacing_eq (by omega) (.inr (by omega))
    exact hmultiple m (hsame ▸ hm) hfloor

/-! ## Quotients -/

/-- The spacing of the numbers about a quotient of integers, times the
divisor, is at most two.  It is two only if the quotient is a power of two. -/
theorem mul_spacing_lt_or_eq
    {a b : Nat}
    (ha : a ≤ 2 ^ 24)
    (hb : 0 < b)
    (hb' : b ≤ 2 ^ 24) :
    b * spacing (a * unit / b) < 2 * unit ∨ ∃ g, a * unit = 2 ^ g * b := by
  rcases exists_spacing_eq (a * unit / b) with ⟨g, hspacing, _, hlow⟩
  have hfloor : a * unit / b * b ≤ a * unit := Nat.div_mul_le_self _ _
  have hnum : a * unit ≤ 2 ^ 24 * unit := Nat.mul_le_mul_right unit ha
  rw [hspacing]
  rcases hlow with rfl | hlow
  · have hunit : 2 ^ 24 < 2 * unit := by decide +kernel
    left
    omega
  · generalize a * unit / b = floor at *
    have hpower : 2 ^ 23 * (b * 2 ^ g) = 2 ^ (23 + g) * b := by ring
    have hle : 2 ^ (23 + g) * b ≤ floor * b := Nat.mul_le_mul_right b hlow
    rcases Nat.lt_or_ge (b * 2 ^ g) (2 * unit) with hlt | hge
    · exact .inl hlt
    · exact .inr ⟨23 + g, by omega⟩

/-- The rounded quotient stays below the next integer. -/
theorem round_mul_lt
    {a b : Nat}
    (ha : a ≤ 2 ^ 24)
    (hb : 0 < b)
    (hb' : b ≤ 2 ^ 24) :
    round (a * unit) b * b < (a + 1) * unit := by
  rw [Nat.succ_mul]
  rcases mul_spacing_lt_or_eq ha hb hb' with hlt | ⟨g, hexact⟩
  · have hround := two_mul_round_le (a * unit) hb
    omega
  · have hpower : round (2 ^ g * b) b = 2 ^ g :=
      round_of_spacing_dvd
        (by simpa using spacing_dvd_of_le (m := 1) (g := g) (by decide)) hb
    have hpos := unit_pos
    rw [hexact, hpower]
    omega

theorem round_div_unit
    {a b : Nat}
    (ha : a ≤ 2 ^ 24)
    (hb : 0 < b)
    (hb' : b ≤ 2 ^ 24) :
    round (a * unit) b / unit = a / b := by
  have hquotient : a / b ≤ 2 ^ 24 := (Nat.div_le_self a b).trans ha
  apply Nat.div_eq_of_lt_le
  · apply le_round (spacing_dvd_of_le hquotient) hb
    rw [Nat.mul_right_comm]
    exact Nat.mul_le_mul_right unit (Nat.div_mul_le_self a b)
  · have hnext : a + 1 ≤ (a / b + 1) * b := by
      rw [Nat.succ_mul]
      exact Nat.lt_div_mul_add hb
    apply Nat.lt_of_mul_lt_mul_right (a := b)
    calc round (a * unit) b * b
        < (a + 1) * unit := round_mul_lt ha hb hb'
      _ ≤ (a / b + 1) * b * unit := Nat.mul_le_mul_right unit hnext
      _ = (a / b + 1) * unit * b := Nat.mul_right_comm _ _ _

/-! ## Integers with a sign -/

theorem fits_mul_unit
    {n : Int}
    (h : n.natAbs ≤ 2 ^ 24) :
    Fits (n * unit).natAbs := by
  have hlimit : 2 ^ 24 * unit < limit := by decide +kernel
  rw [Int.natAbs_mul, Int.natAbs_natCast]
  exact ⟨(Nat.mul_le_mul_right unit h).trans_lt hlimit, spacing_dvd_of_le h⟩

theorem signedQuanta_tdiv
    (s : Bool) (n d : Nat) :
    (signedQuanta s n).tdiv d = signedQuanta s (n / d) := by
  cases s with
  | false => exact (Int.ofNat_tdiv n d).symm
  | true => simp [signedQuanta, Int.neg_tdiv]

theorem tdiv_eq_mul_sign_tdiv
    (a b : Int) :
    a.tdiv b = (a * b.sign).tdiv b.natAbs := by
  rcases lt_trichotomy b 0 with hneg | rfl | hpos
  · rw [Int.sign_eq_neg_one_of_neg hneg, Int.ofNat_natAbs_of_nonpos hneg.le]
    simp [Int.tdiv_neg, Int.neg_tdiv]
  · simp
  · rw [Int.sign_eq_one_of_pos hpos, Int.natAbs_of_nonneg hpos.le, mul_one]

/-- A rounded quotient of integers has the exact quotient before its point. -/
theorem exists_nearest?_tdiv
    {a b : Int}
    (ha : a.natAbs ≤ 2 ^ 24)
    (hb : b ≠ 0)
    (hb' : b.natAbs ≤ 2 ^ 24) :
    ∃ q, nearest? (a * b.sign * unit) b.natAbs = some q ∧
      q.tdiv unit = a.tdiv b := by
  have hpos : 0 < b.natAbs := Int.natAbs_pos.mpr hb
  have hnum : (a * b.sign).natAbs = a.natAbs := by
    rw [Int.natAbs_mul, Int.natAbs_sign_of_ne_zero hb, Nat.mul_one]
  have hround := round_div_unit ha hpos hb'
  have hfinite : round (a.natAbs * unit) b.natAbs < limit := by
    have hquotient : a.natAbs / b.natAbs < 2 ^ 128 :=
      (Nat.div_le_self _ _).trans_lt (ha.trans_lt (by decide))
    rwa [← hround, Nat.div_lt_iff_lt_mul unit_pos] at hquotient
  refine ⟨signedQuanta (a * b.sign < 0) (round (a.natAbs * unit) b.natAbs),
    ?_, ?_⟩
  · rw [nearest?, Int.natAbs_mul, Int.natAbs_natCast, hnum, if_pos hfinite]
    simp only [mul_natCast_neg_iff unit_pos]
  · rw [signedQuanta_tdiv, hround, tdiv_eq_mul_sign_tdiv, ← hnum,
      ← signedQuanta_tdiv, signedQuanta_natAbs]

end Single

/-! ## Operators -/

/-- The exact result of an operator on integers.  A quotient loses its
fraction, and there is none by zero. -/
def Operator.applyExact? : Operator → Int → Int → Option Int
  | .add, a, b => some (a + b)
  | .subtract, a, b => some (a - b)
  | .multiply, a, b => some (a * b)
  | .divide, a, b => if b = 0 then none else some (a.tdiv b)
  | .toFloat, _, _ => none

theorem Operator.exists_applyQuanta?
    {op : Operator} {a b n : Int}
    (ha : a.natAbs ≤ 2 ^ 24)
    (hb : b.natAbs ≤ 2 ^ 24)
    (hn : n.natAbs ≤ 2 ^ 24)
    (h : op.applyExact? a b = some n) :
    ∃ q, op.applyQuanta? (a * Single.unit) (b * Single.unit) = some q ∧
      q.tdiv Single.unit = n := by
  have hunit : (Single.unit : Int) ≠ 0 := by
    exact_mod_cast Single.unit_pos.ne'
  have hfits := Single.fits_mul_unit hn
  have hexact : (n * (Single.unit : Int)).tdiv Single.unit = n :=
    Int.mul_tdiv_cancel _ hunit
  cases op with
  | add =>
      obtain rfl : a + b = n := Option.some.inj h
      refine ⟨_, ?_, hexact⟩
      rw [applyQuanta?, ← Int.add_mul]
      exact Single.nearest?_self hfits
  | subtract =>
      obtain rfl : a - b = n := Option.some.inj h
      refine ⟨_, ?_, hexact⟩
      rw [applyQuanta?, ← Int.sub_mul]
      exact Single.nearest?_self hfits
  | multiply =>
      obtain rfl : a * b = n := Option.some.inj h
      refine ⟨_, ?_, hexact⟩
      have hproduct : a * Single.unit * (b * Single.unit) =
          a * b * Single.unit * Single.unit := by
        ring
      rw [applyQuanta?, hproduct]
      exact Single.nearest?_of_fits hfits Single.unit_pos
  | divide =>
      by_cases hzero : b = 0
      · simp [applyExact?, hzero] at h
      · obtain rfl : a.tdiv b = n := by simpa [applyExact?, hzero] using h
        rcases Single.exists_nearest?_tdiv ha hzero hb with ⟨q, hq, htdiv⟩
        refine ⟨q, ?_, htdiv⟩
        have hpos : (0 : Int) < Single.unit := by
          exact_mod_cast Single.unit_pos
        -- Both the dividend and the divisor are counted in quanta.
        have hreduce :=
          Single.nearest?_mul_right (a * b.sign * Single.unit) b.natAbs
          Single.unit_pos
        rw [applyQuanta?, if_neg (mul_ne_zero hzero hunit), Int.sign_mul,
          Int.sign_eq_one_of_pos hpos, mul_one, Int.natAbs_mul,
            Int.natAbs_natCast, ← hq, ← hreduce]
        congr 1
        ring
  | toFloat => contradiction

/-- In the range of exact integers an operator yields its exact result. -/
theorem Operator.applyCells?_integer
    {op : Operator} {a b n : Int}
    (ha : a.natAbs ≤ 2 ^ 24)
    (hb : b.natAbs ≤ 2 ^ 24)
    (hn : n.natAbs ≤ 2 ^ 24)
    (h : op.applyExact? a b = some n) :
    op.applyCells? (.integer a) (.integer b) = some (.integer n) := by
  have hofInt : ∀ {k : Int}, k.natAbs ≤ 2 ^ 24 →
      (Single.ofInt k).quanta? = some (k * Single.unit) := by
    intro k hk
    rw [Single.quanta?_ofInt]
    exact Single.nearest?_self (Single.fits_mul_unit hk)
  rcases exists_applyQuanta? ha hb hn h with ⟨q, hq, htdiv⟩
  have hworth :
      (op.apply (Single.ofInt a) (Single.ofInt b)).quanta? = some q :=
    (op.quanta?_apply (hofInt ha) (hofInt hb)).trans hq
  have hclamp : clampToWord n = n := by
    unfold clampToWord
    omega
  have htruncate :
      (op.apply (Single.ofInt a) (Single.ofInt b)).truncate = n := by
    rw [Single.truncate_eq hworth, htdiv, hclamp]
  have hfinite :
      (op.apply (Single.ofInt a) (Single.ofInt b)).isFinite = true :=
    Single.isFinite_iff.mpr ⟨q, hworth⟩
  simp only [applyCells?, Cell.value, hfinite, if_true]
  rw [← htruncate]
  rfl

/-! ## Expressions -/

theorem Literal.cell_eq_intValue
    {literal : Literal}
    (h : literal.type = .integer) :
    literal.cell = .integer literal.intValue := by
  have htype := literal.type_cell
  cases hcell : literal.cell with
  | integer n => simp [intValue, hcell]
  | float x =>
      rw [hcell, h] at htype
      contradiction

namespace Tree

/-- The exact value of an expression of integers, if the symbols have the
given values.  There is none if a divisor is zero. -/
def exactValue? (valueOf : Nat → Int) : Tree → Option Int
  | .leaf t _ =>
    match t.kind with
    | .number literal => some literal.intValue
    | .identifier id => some (valueOf id.attr)
    | _ => none
  | .binary t _ l r => do
    let a ← l.exactValue? valueOf
    let b ← r.exactValue? valueOf
    let op ← t.operator?
    op.applyExact? a b
  | _ => none

/-- The expression and every part of it has an exact value, of magnitude 2²⁴
at most. -/
def HasExactValues (valueOf : Nat → Int) (tree : Tree) : Prop :=
  ∀ part ∈ tree.subtrees, ∃ n, part.exactValue? valueOf = some n ∧
    n.natAbs ≤ 2 ^ 24

section Expressions

variable {valueOf : Nat → Int}

theorem hasExactValues_binary
    {t : Token} {res : Resolution} {l r : Tree}
    (h : (Tree.binary t res l r).HasExactValues valueOf) :
    l.HasExactValues valueOf ∧ r.HasExactValues valueOf := by
  constructor
  · intro part hpart
    exact h part (List.mem_cons_of_mem _ (List.mem_append_left _ hpart))
  · intro part hpart
    exact h part (List.mem_cons_of_mem _ (List.mem_append_right _ hpart))

theorem hasIntegerLeaves_binary
    {t : Token} {res : Resolution} {l r : Tree}
    (h : (Tree.binary t res l r).HasIntegerLeaves) :
    l.HasIntegerLeaves ∧ r.HasIntegerLeaves := by
  constructor
  · intro leaf hleaf
    exact h leaf (List.mem_cons_of_mem _ (List.mem_append_left _ hleaf))
  · intro leaf hleaf
    exact h leaf (List.mem_cons_of_mem _ (List.mem_append_right _ hleaf))

theorem resolution_of_leaf
    {t : Token} {res : Resolution}
    (htree : (Tree.leaf t res).IsExpression)
    (hleaves : (Tree.leaf t res).HasIntegerLeaves) :
    Resolution.ofToken t = .integer := by
  rw [← htree.2]
  exact hleaves _ (mem_subtrees_self _) rfl

theorem type_of_mem_identifiers
    {tree : Tree}
    (htree : tree.IsExpression)
    (hleaves : tree.HasIntegerLeaves) :
    ∀ id ∈ tree.identifiers, id.type = .integer := by
  induction tree with
  | leaf t res =>
      intro id hid
      have hid : t.identifier? = some id := by simpa using hid
      rw [← Resolution.ofType_eq_integer_iff,
        ← Token.resolution_of_identifier? hid]
      exact resolution_of_leaf htree hleaves
  | leftOnly t res l ih | rightOnly t res r ih => exact htree.elim
  | binary t res l r ihl ihr =>
      rcases htree with ⟨ht, _, hl, hr⟩
      rcases hasIntegerLeaves_binary hleaves with ⟨hleavesl, hleavesr⟩
      rw [identifiers_binary ht.identifier?_eq]
      exact List.forall_mem_append.mpr ⟨ihl hl hleavesl, ihr hr hleavesr⟩

theorem meaning_leaf_eq_exactValue?
    {t : Token} {res : Resolution}
    (htree : (Tree.leaf t res).IsExpression)
    (hleaves : (Tree.leaf t res).HasIntegerLeaves) :
    (Tree.leaf t res).meaning (fun attr => .integer (valueOf attr)) =
      ((Tree.leaf t res).exactValue? valueOf).map .integer := by
  have hresolution := resolution_of_leaf htree hleaves
  have hoperand := htree.1
  cases hkind : t.kind with
  | operator op | bracket side => simp [Token.isOperand, hkind] at hoperand
  | number literal =>
      have hnumber : t.number? = some literal := by
        simp [Token.number?, hkind]
      rw [Token.resolution_of_number? hnumber,
        Resolution.ofType_eq_integer_iff] at hresolution
      simp [meaning, exactValue?, hkind, Token.cell,
        Literal.cell_eq_intValue hresolution]
  | identifier id => simp [meaning, exactValue?, hkind, Token.cell]

/-- In the range of exact integers the meaning of an expression is its exact
value. -/
theorem meaning_eq_exactValue?
    {tree : Tree}
    (htree : tree.IsExpression)
    (hleaves : tree.HasIntegerLeaves)
    (hexact : tree.HasExactValues valueOf) :
    tree.meaning (fun attr => .integer (valueOf attr)) =
      (tree.exactValue? valueOf).map .integer := by
  induction tree with
  | leaf t res => exact meaning_leaf_eq_exactValue? htree hleaves
  | leftOnly t res l ih | rightOnly t res r ih => exact htree.elim
  | binary t res l r ihl ihr =>
      rcases htree with ⟨⟨op, hop, _⟩, _, hl, hr⟩
      rcases hasIntegerLeaves_binary hleaves with ⟨hleavesl, hleavesr⟩
      rcases hasExactValues_binary hexact with ⟨hexactl, hexactr⟩
      rcases hexactl l l.mem_subtrees_self with ⟨a, hla, ha⟩
      rcases hexactr r r.mem_subtrees_self with ⟨b, hrb, hb⟩
      rcases hexact _ (mem_subtrees_self _) with ⟨n, hroot, hn⟩
      have happly : op.applyExact? a b = some n := by
        simpa [exactValue?, hla, hrb, hop] using hroot
      have hmeaningl := ihl hl hleavesl hexactl
      have hmeaningr := ihr hr hleavesr hexactr
      rw [hla, Option.map_some] at hmeaningl
      rw [hrb, Option.map_some] at hmeaningr
      rw [hroot, Option.map_some,
        ← Operator.applyCells?_integer ha hb hn happly]
      simp [meaning, hmeaningl, hmeaningr, hop]

end Expressions

end Tree

/-- An expression of integers whose parts all have exact values of magnitude
2²⁴ at most comes to its exact value when it is run as it stands. -/
theorem evaluate_plain_eq_exactValue
    {source : String} {c : Compiled}
    (hcompile : compile source = .ok c) :
    ∃ tree, parse c.tokens = .ok tree ∧
      ∀ {σ : Type}
        (ask : String → ValueType → StateM σ (Except ValueFault Cell))
        (state : σ) (valueOf : Nat → Int),
        tree.HasIntegerLeaves →
        Supplies ask (fun attr => .integer (valueOf attr)) c.symbols state →
        tree.HasExactValues valueOf →
          ∃ n, tree.exactValue? valueOf = some n ∧
            ((evaluate ask none source .plain).run state).1.result =
              .ok (.integer n) := by
  rcases exists_isSound hcompile with ⟨tree, hsound⟩
  refine ⟨tree, hsound.parsed_eq, ?_⟩
  intro σ ask state valueOf hleaves hsupplies hexact
  rcases hexact tree tree.mem_subtrees_self with ⟨n, hn, _⟩
  refine ⟨n, hn, ?_⟩
  have hmeaning :=
    Tree.meaning_eq_exactValue? hsound.isExpression hleaves hexact
  rw [hn, Option.map_some] at hmeaning
  have htyped : ∀ id ∈ tree.identifiers,
      (Cell.integer (valueOf id.attr)).type = id.type :=
    fun id hid =>
      (Tree.type_of_mem_identifiers hsound.isExpression hleaves id hid).symm
  have hprepare : Tree.prepare .plain c.tree = .ok c.tree := rfl
  rw [evaluate_eq_course hcompile hprepare (fun _ => rfl) hsound.consistent
    hsound.isUser hsound.usesRows hsupplies]
  exact ((Tree.agrees_analyze hsound.isExpression hsound.analyzed
      htyped).result_iff.1 _).mp hmeaning

/-- A dividend of 2²⁴ whose quotient is rounded, and a difference of -2²⁴. -/
theorem evaluate_plain_rounded_quotient :
    let value (name : String) : Int :=
      if name = "a" then 2 ^ 24 else if name = "b" then -3 else 11184811
    let ask (name : String) (_ : ValueType) : StateM Unit
        (Except ValueFault Cell) :=
      pure (.ok (.integer (value name)))
    ((evaluate ask none "a / b - c" .plain).run ()).1.result =
      .ok (.integer (-2 ^ 24)) := by
  intro value ask
  let valueOf (attr : Nat) : Int :=
    if attr = 1 then 2 ^ 24 else if attr = 2 then -3 else 11184811
  obtain ⟨c, hcompile, hrows, htree⟩ : ∃ c, compile "a / b - c" = .ok c ∧
      c.symbols.rows = [⟨"a", .integer, .user⟩, ⟨"b", .integer, .user⟩,
        ⟨"c", .integer, .user⟩] ∧
      (parse c.tokens).map (fun tree => (tree.exactValue? valueOf,
        tree.subtrees.all fun part => part.isLeaf == false ||
          part.result == .integer,
        tree.subtrees.all fun part =>
          (part.exactValue? valueOf).any (·.natAbs ≤ 2 ^ 24))) =
          .ok (some (-2 ^ 24), true, true) :=
    ⟨_, rfl, rfl, by decide +kernel⟩
  have hsupplies :
      Supplies ask (fun attr => .integer (valueOf attr)) c.symbols () := by
    rw [Supplies, hrows]
    exact ⟨(), rfl, (), rfl, (), rfl, trivial⟩
  obtain ⟨tree, hparse, hrun⟩ := evaluate_plain_eq_exactValue hcompile
  rw [hparse] at htree
  simp only [Except.map, Except.ok.injEq, Prod.mk.injEq,
    List.all_eq_true] at htree
  rcases htree with ⟨hvalue, hleaves, hparts⟩
  have hinteger : tree.HasIntegerLeaves := by
    intro leaf hleaf hisLeaf
    simpa [hisLeaf] using hleaves leaf hleaf
  have hexact : tree.HasExactValues valueOf := by
    intro part hpart
    simpa [Option.any_eq_true] using hparts part hpart
  rcases hrun ask () valueOf hinteger hsupplies hexact with ⟨n, hn, hresult⟩
  rw [hresult, ← Option.some.inj (hvalue.symm.trans hn)]

end ThreeAddress
