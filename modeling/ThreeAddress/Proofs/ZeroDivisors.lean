import ThreeAddress.Proofs.ExactIntegers
import ThreeAddress.Proofs.Occurrences
import ThreeAddress.Proofs.ReducedTrees

/-!
# Divisions by the constant zero

The analysis looks at a division before it goes into its operands, and at the
left operand before the right one.  So the division that it reports is the
first in pre-order, which need not be the first in the text.  Whether the
divisor is zero is a matter of its text: digits that are all zero, or a
decimal that is too small for the least number of single precision.

What the analysis accepts it accepts again, and nothing is left to be done
then.  A divisor may stand under a conversion by now, but it has been looked
at before.
-/

namespace ThreeAddress

def Cell.IsZero : Cell → Prop
  | .integer n => n = 0
  | .float x => x.quanta? = some 0

namespace Tree

/-- The node is a division, and its right operand is a number that is zero. -/
def IsZeroDivision : Tree → Prop
  | .binary t _ _ r =>
    t.operator? = some .divide ∧
      ∃ literal, r.token.number? = some literal ∧ literal.cell.IsZero
  | _ => False

/-- The node divides by zero, and none of the nodes before it in pre-order
does. -/
def IsFirstZeroDivision (tree node : Tree) : Prop :=
  ∃ before after, tree.subtrees = before ++ node :: after ∧
    node.IsZeroDivision ∧
    ∀ earlier ∈ before, ¬earlier.IsZeroDivision

end Tree

/-! ## Constants that are zero -/

namespace Single

theorem round_eq_zero_iff
    {num den : Nat}
    (hden : 0 < den) :
    round num den = 0 ↔ 2 * num ≤ den := by
  rcases Nat.lt_or_ge num den with hlt | hge
  · have hhalf : roundHalfEven num den = if 2 * num ≤ den then 0 else 1 := by
      unfold roundHalfEven
      rw [Nat.div_eq_of_lt hlt, Nat.mod_eq_of_lt hlt]
      dsimp only
      split_ifs <;> omega
    have hspacing : spacing 0 = 1 := rfl
    rw [round, Nat.div_eq_of_lt hlt, hspacing, Nat.mul_one,
      Nat.mul_one, hhalf]
    simp
  · have hpos : 1 ≤ round num den := le_round (by decide) hden (by omega)
    omega

theorem quanta?_ofRatio_eq_zero_iff
    {num den : Nat}
    (hden : 0 < den) :
    (ofRatio false num den).quanta? = some 0 ↔ 2 * num ≤ den := by
  rw [← round_eq_zero_iff hden, ofRatio]
  split
  · simp [quanta?, signedQuanta]
  · next hlimit =>
      have hpos : 0 < limit := Nat.mul_pos (by decide) unit_pos
      simp only [quanta?, reduceCtorEq, false_iff]
      omega

end Single

/-- A decimal is rounded to zero up to half of the least positive number. -/
theorem Decimal.quanta?_toSingle_eq_zero_iff
    {coefficient places : Nat} :
    (toSingle false ⟨coefficient, -(places : Int)⟩).quanta? = some 0 ↔
      (coefficient / 10 ^ places : ℚ) ≤ 1 / 2 ^ 150 := by
  rw [toSingle_eq_ofRatio, Single.quanta?_ofRatio_eq_zero_iff (by positivity),
    div_le_div_iff₀ (by positivity) (by positivity), one_mul]
  have hunit : 2 * (coefficient * Single.unit) = coefficient * 2 ^ 150 := by
    rw [Single.unit]
    ring
  rw [hunit]
  exact_mod_cast Iff.rfl

theorem StandsFor.exists_isZero_iff
    {type : ValueType} {text : List Char} {cell : Cell}
    (h : StandsFor type text cell) :
    ∃ value limit, IsConstant text value limit ∧
      (cell.IsZero ↔ value ≤ 1 / 2 ^ 150) := by
  cases h with
  | integer hrow _ =>
      have hzero : (Cell.integer (Numeral.value text)).IsZero ↔
          Numeral.value text = 0 :=
        Int.natCast_eq_zero
      refine ⟨_, _, .integer hrow, hzero.trans ?_⟩
      constructor
      · intro hvalue
        rw [hvalue]
        norm_num
      · intro hle
        have hlt : (Numeral.value text : ℚ) < 1 := hle.trans_lt (by norm_num)
        exact Nat.lt_one_iff.mp (by exact_mod_cast hlt)
  | float hwhole hfraction _ =>
      exact ⟨_, _, .decimal hwhole hfraction,
        Decimal.quanta?_toSingle_eq_zero_iff⟩

theorem Literal.isZero_iff
    {literal : Literal} :
    literal.isZero = true ↔ literal.cell.IsZero := by
  rw [isZero]
  cases literal.cell with
  | integer n => simp [Cell.IsZero]
  | float x =>
      cases x with
      | nan | infinite s => simp [Cell.IsZero, Single.isZero, Single.quanta?]
      | finite s n hfits =>
          cases s <;> simp [Cell.IsZero, Single.isZero, Single.quanta?,
            Single.signedQuanta]

namespace Tree

theorem isZeroDivision_binary_iff
    {t : Token} {res : Resolution} {l r : Tree} :
    (Tree.binary t res l r).IsZeroDivision ↔ dividesByZero t r = true := by
  simp [IsZeroDivision, dividesByZero, Token.isZero, Option.any_eq_true,
    Literal.isZero_iff]

theorem IsZeroDivision.operator?
    {node : Tree}
    (h : node.IsZeroDivision) :
    node.token.operator? = some .divide := by
  cases node with
  | leaf t res | leftOnly t res l | rightOnly t res r => exact h.elim
  | binary t res l r => exact h.1

/-! ## The first of them -/

theorem isFirstZeroDivision_self
    {tree : Tree}
    (h : tree.IsZeroDivision) :
    tree.IsFirstZeroDivision tree := by
  cases tree with
  | leaf t res | leftOnly t res l | rightOnly t res r => exact h.elim
  | binary t res l r => exact ⟨[], l.subtrees ++ r.subtrees, rfl, h, by simp⟩

theorem IsFirstZeroDivision.mem_subtrees
    {tree node : Tree}
    (h : tree.IsFirstZeroDivision node) :
    node ∈ tree.subtrees := by
  obtain ⟨before, after, hsplit, _⟩ := h
  rw [hsplit]
  simp

theorem IsFirstZeroDivision.isZeroDivision
    {tree node : Tree}
    (h : tree.IsFirstZeroDivision node) :
    node.IsZeroDivision := by
  obtain ⟨_, _, _, hzero, _⟩ := h
  exact hzero

section Binary

variable {t : Token} {res : Resolution} {l r node : Tree}

theorem IsFirstZeroDivision.ofLeft
    (h : l.IsFirstZeroDivision node)
    (hroot : ¬(Tree.binary t res l r).IsZeroDivision) :
    (Tree.binary t res l r).IsFirstZeroDivision node := by
  obtain ⟨before, after, hsplit, hzero, hbefore⟩ := h
  refine ⟨.binary t res l r :: before, after ++ r.subtrees, ?_, hzero, ?_⟩
  · rw [subtrees, hsplit]
    simp
  · exact List.forall_mem_cons.mpr ⟨hroot, hbefore⟩

theorem IsFirstZeroDivision.ofRight
    (h : r.IsFirstZeroDivision node)
    (hroot : ¬(Tree.binary t res l r).IsZeroDivision)
    (hleft : ∀ earlier ∈ l.subtrees, ¬earlier.IsZeroDivision) :
    (Tree.binary t res l r).IsFirstZeroDivision node := by
  obtain ⟨before, after, hsplit, hzero, hbefore⟩ := h
  refine ⟨.binary t res l r :: (l.subtrees ++ before), after, ?_, hzero, ?_⟩
  · rw [subtrees, hsplit]
    simp
  · exact List.forall_mem_cons.mpr
      ⟨hroot, List.forall_mem_append.mpr ⟨hleft, hbefore⟩⟩

end Binary

/-! ## What the analysis comes to -/

inductive Analysis (tree : Tree) : Except Halted Tree → Prop
  | accepted {typed : Tree} (noZeroDivision : ∀ node ∈ tree.subtrees,
      ¬node.IsZeroDivision) :
      Analysis tree (.ok typed)
  | refused {halted : Halted} {node : Tree}
      (isFirst : tree.IsFirstZeroDivision node)
      (cites : halted.error = zeroDivisor node.token) : Analysis tree
        (.error halted)

/-- The root is looked at first.  If nothing is wrong there, the result is
that of the left operand unless it is accepted, and then that of the right
one. -/
theorem Analysis.binary
    {t : Token} {res : Resolution} {l r : Tree}
    (hl : Analysis l l.analyze)
    (hr : Analysis r r.analyze) :
    Analysis (.binary t res l r) (analyze (.binary t res l r)) := by
  by_cases hroot : (Tree.binary t res l r).IsZeroDivision
  · rw [analyze, if_pos (isZeroDivision_binary_iff.mp hroot)]
    exact .refused (isFirstZeroDivision_self hroot) rfl
  · rw [analyze, if_neg (mt isZeroDivision_binary_iff.mpr hroot)]
    cases hleft : l.analyze with
    | error halted =>
        rw [hleft] at hl
        cases hl with
        | refused hfirst hcites => exact .refused (hfirst.ofLeft hroot) hcites
    | ok l' =>
        rw [hleft] at hl
        cases hl with
        | accepted hnonel =>
            cases hright : r.analyze with
            | error halted =>
                rw [hright] at hr
                cases hr with
                | refused hfirst hcites =>
                    exact .refused (hfirst.ofRight hroot hnonel) hcites
            | ok r' =>
                rw [hright] at hr
                cases hr with
                | accepted hnoner =>
                    exact .accepted (List.forall_mem_cons.mpr
                      ⟨hroot, List.forall_mem_append.mpr ⟨hnonel, hnoner⟩⟩)

theorem IsExpression.analysis
    {tree : Tree}
    (h : tree.IsExpression) :
    Analysis tree tree.analyze := by
  induction tree with
  | leaf t res => exact .accepted (by simp [subtrees, IsZeroDivision])
  | leftOnly t res l ih | rightOnly t res r ih => exact h.elim
  | binary t res l r ihl ihr => exact .binary (ihl h.2.2.1) (ihr h.2.2.2)

theorem IsExpression.analyze_cases
    {tree : Tree}
    (h : tree.IsExpression) :
    (∃ typed, tree.analyze = .ok typed ∧ ∀ node ∈ tree.subtrees,
      ¬node.IsZeroDivision) ∨
      ∃ halted node, tree.analyze = .error halted ∧
        tree.IsFirstZeroDivision node ∧
        halted.error = zeroDivisor node.token := by
  have hanalysis := h.analysis
  generalize tree.analyze = outcome at hanalysis
  cases hanalysis with
  | accepted hnone => exact .inl ⟨_, rfl, hnone⟩
  | refused hfirst hcites => exact .inr ⟨_, _, rfl, hfirst, hcites⟩

/-! ## Analyzing again -/

/-- The types that operators have had do not matter. -/
theorem analyze_unresolved_eq_ok_iff
    {tree typed : Tree} :
    tree.unresolved.analyze = .ok typed ↔ tree.analyze = .ok typed := by
  induction tree generalizing typed with
  | leaf t res => rfl
  | leftOnly t res l ih =>
      simp only [unresolved, analyze, Success.bind_eq_ok_iff,
        Success.mapError_eq_ok_iff, ih]
  | rightOnly t res r ih =>
      rw [unresolved, analyze, analyze, dividesByZero_unresolved]
      split
      · simp
      · simp only [Success.bind_eq_ok_iff, Success.mapError_eq_ok_iff, ih]
  | binary t res l r ihl ihr =>
      rw [unresolved, analyze, analyze, dividesByZero_unresolved]
      split
      · simp
      · simp only [Success.bind_eq_ok_iff, Success.mapError_eq_ok_iff, ihl,
          ihr, resolve]

theorem IsExpression.analyze_analyzed
    {tree typed : Tree}
    (htree : tree.IsExpression)
    (h : tree.analyze = .ok typed) :
    typed.analyze = .ok typed := by
  have hconsistent := (analyze_consistent htree h).1
  have hzero := (htree.isShaped.hasNoZeroDivisor h).2
  exact analyze_unresolved_eq_ok_iff.mp (hconsistent.analyze_unresolved hzero)

theorem token_mem_postOrder
    {tree node : Tree}
    (h : node ∈ tree.subtrees) :
    node.token ∈ tree.postOrder := by
  induction tree with
  | leaf t res =>
      rw [List.mem_singleton.mp h]
      exact List.mem_singleton_self t
  | leftOnly t res l ih =>
      rcases List.mem_cons.mp h with rfl | h
      · exact List.mem_append_right _ (List.mem_singleton_self t)
      · exact List.mem_append_left _ (ih h)
  | rightOnly t res r ih =>
      rcases List.mem_cons.mp h with rfl | h
      · exact List.mem_append_right _ (List.mem_singleton_self t)
      · exact List.mem_append_left _ (ih h)
  | binary t res l r ihl ihr =>
      rcases List.mem_cons.mp h with rfl | h
      · exact List.mem_append_right _ (List.mem_singleton_self t)
      · rcases List.mem_append.mp h with h | h
        · exact List.mem_append_left _ (List.mem_append_left _ (ihl h))
        · exact List.mem_append_left _ (List.mem_append_right _ (ihr h))

end Tree

/-! ## Parsed texts -/

theorem exists_constant_of_number?
    {source : String} {tokens : List Token} {table : SymbolTable}
    (h : scan source = .ok (tokens, table))
    {t : Token}
    (ht : t ∈ tokens)
    {literal : Literal}
    (hliteral : t.number? = some literal) :
    ∃ start text value limit,
      t.position = some start ∧ IsRun 1 source.toList start text ∧
      IsConstant text value limit ∧
      (literal.cell.IsZero ↔ value ≤ 1 / 2 ^ 150) := by
  rcases exists_standsAt_of_mem h ht with ⟨span, hstands⟩
  cases hstands with
  | mark _ hmark => cases hmark <;> contradiction
  | identifier _ _ _ => contradiction
  | @number start text literal' hrun hstandsFor =>
      obtain rfl : literal' = literal := Option.some.inj hliteral
      rcases hstandsFor.exists_isZero_iff with
        ⟨value, limit, hconstant, hzero⟩
      exact ⟨start, text, value, limit, rfl, hrun, hconstant, hzero⟩

/-- The analysis of a parsed text fails exactly if some division has the
number zero for its right operand, and cites the first of them in pre-order by
the place of its `/`.  A number is zero if its text has the value zero or,
being at most 2⁻¹⁵⁰, is rounded to zero.  What the analysis accepts is left as
it is when analyzed again. -/
theorem analyze_refuses_zero_divisors
    {source : String} {tokens : List Token} {table : SymbolTable}
    {tree : Tree}
    (hscan : scan source = .ok (tokens, table))
    (hparse : parse tokens = .ok tree) :
    ((∃ halted, tree.analyze = .error halted) ↔
      ∃ node ∈ tree.subtrees, node.IsZeroDivision) ∧
    (∀ halted, tree.analyze = .error halted →
      ∃ node n, tree.IsFirstZeroDivision node ∧
        node.token.position = some (n + 1) ∧
        source.toList[n]? = some '/' ∧
        halted.error = .semantic (n + 1) .divisionByZero) ∧
    (∀ node ∈ tree.subtrees, ∀ literal, node.token.number? = some literal →
      ∃ start text value limit, node.token.position = some start ∧
        IsRun 1 source.toList start text ∧ IsConstant text value limit ∧
        (literal.cell.IsZero ↔ value ≤ 1 / 2 ^ 150)) ∧
    ∀ typed, tree.analyze = .ok typed → typed.analyze = .ok typed := by
  have hderives := derives_of_parse hscan hparse
  have hexpression := hderives.isExpression
  have hmem : ∀ node ∈ tree.subtrees, node.token ∈ tokens := fun node hnode =>
    hderives.postOrder_subset (Tree.token_mem_postOrder hnode)
  refine ⟨?_, ?_, ?_, fun typed htyped => hexpression.analyze_analyzed htyped⟩
  · rcases hexpression.analyze_cases with
      ⟨typed, htyped, hnone⟩ | ⟨halted, node, hhalted, hfirst, _⟩
    · simpa [htyped] using hnone
    · exact iff_of_true ⟨halted, hhalted⟩
        ⟨node, hfirst.mem_subtrees, hfirst.isZeroDivision⟩
  · intro halted hhalted
    rcases hexpression.analyze_cases with
      ⟨typed, htyped, _⟩ | ⟨halted', node, hhalted', hfirst, hcites⟩
    · rw [htyped] at hhalted
      contradiction
    · obtain rfl : halted' = halted :=
        Except.error.inj (hhalted'.symm.trans hhalted)
      rcases exists_slash_of_mem hscan (hmem node hfirst.mem_subtrees)
        hfirst.isZeroDivision.operator? with ⟨n, hposition, hslash⟩
      refine ⟨node, n, hfirst, hposition, hslash, ?_⟩
      rw [hcites, Tree.zeroDivisor, hposition, Option.getD_some]
  · intro node hnode literal hliteral
    exact exists_constant_of_number? hscan (hmem node hnode) hliteral

/-- Both divisors are zero, the second only after it is rounded.  The second
is that of the root. -/
theorem analyze_refuses_rounded_divisor :
    ∃ tokens table tree halted,
      scan "(a/0+b)/0.0000000000000000000000000000000000000000000001" =
        .ok (tokens, table) ∧
      parse tokens = .ok tree ∧ tree.analyze = .error halted ∧
      halted.error = .semantic 8 .divisionByZero ∧
      ∃ node, tree.IsFirstZeroDivision node ∧
        node.token.position = some 8 := by
  have herror :
      (scan "(a/0+b)/0.0000000000000000000000000000000000000000000001"
        |>.toOption.map fun out =>
          (parse out.1).toOption.map fun tree =>
            tree.analyze.mapError Halted.error) =
      some (some (.error (.semantic 8 .divisionByZero))) := by
    decide +kernel
  obtain ⟨⟨tokens, table⟩, hscan, hparsed⟩ :=
    Success.exists_of_toOption herror
  obtain ⟨tree, hparse, hanalyzed⟩ := Success.exists_of_toOption hparsed
  obtain ⟨halted, hanalyze, hhalted⟩ :=
    Success.mapError_eq_error_iff.mp hanalyzed
  obtain ⟨node, n, hfirst, hposition, _, hcites⟩ :=
    (analyze_refuses_zero_divisors hscan hparse).2.1 halted hanalyze
  obtain rfl : n = 7 := by simpa [hhalted] using hcites.symm
  exact ⟨tokens, table, tree, halted, hscan, hparse, hanalyze, hhalted, node,
    hfirst, hposition⟩

end ThreeAddress
