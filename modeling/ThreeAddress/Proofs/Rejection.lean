import ThreeAddress.Proofs.Failures
import ThreeAddress.Proofs.NormalForm

/-!
# Refused expressions have no value

Simplification refuses an expression when a divisor comes down to the number
zero.  The divisor is then worth zero in every run, since simplification keeps
values, and no value divided by it is finite.  So nothing is lost with what is
refused: the expression fails as well when it is run as it stands.  A division
of integers that is computed is excepted, as it is wherever values are to be
kept.
-/

namespace ThreeAddress

namespace Tree

/-- The outcome of what is refused in this place: a divisor is zero if it is
anything, and elsewhere there is no value. -/
def Slot.Refuses : Slot → Except RuntimeFault Cell → Prop
  | .operand, outcome => ∀ x, outcome ≠ .ok x
  | .divisor _, outcome => ∀ x, outcome = .ok x → x.value.quanta? = some 0

theorem Slot.refuses_error
    (slot : Slot) (fault : RuntimeFault) :
    slot.Refuses (.error fault) := by
  cases slot <;> intro x h <;> contradiction

/-! ## A node that is refused -/

/-- A node is refused if it would be replaced by zero. -/
theorem reduceNode_eq_zero_of_error
    {slot : Slot} {node : Tree} {p : Option Nat}
    (h : node.reduceNode slot = .error (.simplify (.divisionByZero p))) :
    slot = .divisor p ∧ ∃ tree, node.reduceNode .operand = .ok tree ∧
      tree.token.isZero = true := by
  rcases Success.bind_eq_error_iff.mp h with herror | ⟨replaced, hreplaced, h⟩
  · rcases (node.replacement?_failsOnly _ herror).exists_eq with
      ⟨_, _, hoverflow⟩
    simp at hoverflow
  · cases replaced with
    | none => contradiction
    | some tree =>
        cases slot with
        | operand => contradiction
        | divisor position =>
            simp only at h
            split at h
            · next hzero =>
                obtain rfl : position = p := by
                  simpa using Success.throw_eq_error_iff.mp h
                exact ⟨rfl, tree, by simp [reduceNode, hreplaced], hzero⟩
            · contradiction

theorem settle_binary_of_isNormal
    (slot : Slot) {t : Token} {res : Resolution} {l r : Tree}
    (hnode : (Tree.binary t res l r).Consistent)
    (hl : l.IsNormal)
    (hr : r.IsNormal) :
    settle slot (.binary t res l r) =
      (reduceNode slot (.binary t res l r)).mapError
        (⟨·, .binary t res l r⟩) := by
  simp only [settle, resolve_dropRedundantCasts_self hnode, left?, right?,
    reduceCast_of_isNormal _ hl, reduceCast_of_isNormal _ hr,
      Success.mapError_ok,
    Success.ok_bind, withChildren, ofParts, token, result]

theorem settle_cast_of_isNormal
    (slot : Slot) {t : Token} {r : Tree}
    (ht : t.operator? = some .toFloat)
    (hr : r.IsNormal) :
    settle slot (.rightOnly t .float r) =
      (reduceNode slot (.rightOnly t .float r)).mapError
        (⟨·, .rightOnly t .float r⟩) := by
  have hresolve : (dropRedundantCasts (.rightOnly t .float r)).resolve =
      .rightOnly t .float r := by
    simp [dropRedundantCasts, resolve, ht]
  have hnone : reduceCast .operand none = .ok none := rfl
  simp only [settle, hresolve, left?, right?, hnone,
    reduceCast_of_isNormal _ hr, Success.mapError_ok, Success.ok_bind,
    withChildren, ofParts, token, result]

end Tree

/-! ## Zero divisors -/

theorem Machine.computed_divide_zero
    (type : ValueType) {x y : Cell} {a : Int}
    (hx : x.value.quanta? = some a)
    (hy : y.value.quanta? = some 0) :
    computed type .divide x y = .error (.nonFinite x .divide y) := by
  have hnone : (Operator.divide.apply x.value y.value).quanta? = none :=
    Single.quanta?_div_zero hx hy
  refine if_neg fun hfinite => ?_
  rcases Single.isFinite_iff.mp hfinite with ⟨b, hb⟩
  rw [hnone] at hb
  contradiction

namespace Tree

variable {cellOf : Nat → Cell}

theorem exists_worth_of_simplifyIn
    {slot : Slot} {tree tree' : Tree}
    (htree : tree.Consistent)
    (hcells : tree.HasCells cellOf)
    (hfolds : tree.foldsIntegerDivision = false)
    (h : simplifyIn slot tree = .ok tree')
    {x : Cell}
    (hx : (tree.course cellOf).outcome = .ok x) :
    ∃ y a, (tree'.course cellOf).outcome = .ok y ∧ x.value.quanta? = some a ∧
      y.value.quanta? = some a := by
  have hmatches := (simplifyIn_matches htree hcells hfolds h).2
  rw [hx] at hmatches
  generalize (tree'.course cellOf).outcome = outcome at hmatches
  cases hmatches with
  | @value _ y halike _ =>
      rcases halike.exists_worth with ⟨a, ha, ha'⟩
      exact ⟨y, a, rfl, ha, ha'⟩

theorem quanta?_of_simplifyIn_isZero
    {slot : Slot} {tree tree' : Tree}
    (htree : tree.Consistent)
    (hcells : tree.HasCells cellOf)
    (hfolds : tree.foldsIntegerDivision = false)
    (h : simplifyIn slot tree = .ok tree')
    (hzero : tree'.token.isZero = true)
    {x : Cell}
    (hx : (tree.course cellOf).outcome = .ok x) :
    x.value.quanta? = some 0 := by
  rcases exists_worth_of_simplifyIn htree hcells hfolds h hx with
    ⟨y, a, hy, ha, ha'⟩
  obtain ⟨literal, hnumber, hliteral⟩ : ∃ literal,
      tree'.token.number? = some literal ∧ literal.isZero = true := by
    simpa [Token.isZero, Option.any_eq_true] using hzero
  have hout := (outcome_of_isOperand cellOf (simplifyIn_consistent htree h).1
    (Token.isOperand_of_number? hnumber)).1
  obtain rfl := Except.ok.inj (hout.symm.trans hy)
  rw [ha, ← ha', Token.quanta?_of_isZero hnumber hliteral]

theorem outcome_binary_of_refuses
    {t : Token} {res : Resolution} {l r : Tree}
    (hnode : (Tree.binary t res l r).Consistent)
    (hleft : ∀ x, (l.course cellOf).outcome = .ok x → ∃ a,
      x.value.quanta? = some a)
    (hright : (Slot.ofRight t).Refuses (r.course cellOf).outcome) :
    ∃ fault, ((Tree.binary t res l r).course cellOf).outcome =
      .error fault := by
  rcases hnode with ⟨⟨op, hop, _⟩, hresl, _, hl, _⟩
  rcases hl.exists_type with ⟨type, htype⟩
  obtain rfl : .ofType type = res := htype.symm.trans hresl
  rw [outcome_course_binary hop]
  cases hx : (l.course cellOf).outcome with
  | error fault => exact ⟨fault, rfl⟩
  | ok x =>
      cases hy : (r.course cellOf).outcome with
      | error fault => exact ⟨fault, rfl⟩
      | ok y =>
          rw [hy] at hright
          by_cases hdivide : op = .divide
          · subst hdivide
            rw [Slot.ofRight, if_pos hop] at hright
            rcases hleft x hx with ⟨a, ha⟩
            refine ⟨.nonFinite x .divide y, ?_⟩
            simp only [Except.bind,
              Machine.computed_divide_zero type ha (hright y rfl)]
            rfl
          · have hoperand : Slot.ofRight t = .operand :=
              if_neg (by simpa [hop] using hdivide)
            rw [hoperand] at hright
            exact (hright y rfl).elim

theorem outcome_binary_of_error
    {t : Token} {res : Resolution} {l r : Tree}
    (hleft : ∀ x, (l.course cellOf).outcome ≠ .ok x) :
    ∃ fault, ((Tree.binary t res l r).course cellOf).outcome =
      .error fault := by
  rw [course, Course.bind_outcome]
  cases hx : (l.course cellOf).outcome with
  | error fault => exact ⟨fault, rfl⟩
  | ok x => exact (hleft x hx).elim

/-! ## Trees that are refused -/

theorem simplifyIn_cast_eq_error
    {slot : Slot} {t : Token} {res : Resolution} {r : Tree}
    {halted : Halted}
    (h : simplifyIn slot (.rightOnly t res r) = .error halted) :
    (∃ inner, simplifyIn (.ofRight t) r = .error inner ∧
      inner.error = halted.error) ∨
      ∃ r', simplifyIn (.ofRight t) r = .ok r' ∧
        settle slot (.rightOnly t res r') = .error halted := by
  rcases Success.bind_eq_error_iff.mp h with hright | ⟨r', hr', hsettle⟩
  · rcases Success.mapError_eq_error_iff.mp hright with ⟨inner, hinner, rfl⟩
    exact .inl ⟨inner, hinner, rfl⟩
  · exact .inr ⟨r', Success.mapError_eq_ok_iff.mp hr', hsettle⟩

theorem simplifyIn_binary_eq_error
    {slot : Slot} {t : Token} {res : Resolution} {l r : Tree}
    {halted : Halted}
    (h : simplifyIn slot (.binary t res l r) = .error halted) :
    (∃ inner, simplifyIn .operand l = .error inner ∧
      inner.error = halted.error) ∨
      ∃ l', simplifyIn .operand l = .ok l' ∧
        ((∃ inner, simplifyIn (.ofRight t) r = .error inner ∧
            inner.error = halted.error) ∨
          ∃ r', simplifyIn (.ofRight t) r = .ok r' ∧
          settle slot (.binary t res l' r') = .error halted) := by
  rcases Success.bind_eq_error_iff.mp h with hleft | ⟨l', hl', h⟩
  · rcases Success.mapError_eq_error_iff.mp hleft with ⟨inner, hinner, rfl⟩
    exact .inl ⟨inner, hinner, rfl⟩
  · refine .inr ⟨l', Success.mapError_eq_ok_iff.mp hl', ?_⟩
    rcases Success.bind_eq_error_iff.mp h with hright | ⟨r', hr', hsettle⟩
    · rcases Success.mapError_eq_error_iff.mp hright with ⟨inner, hinner, rfl⟩
      exact .inl ⟨inner, hinner, rfl⟩
    · exact .inr ⟨r', Success.mapError_eq_ok_iff.mp hr', hsettle⟩

/-- A tree whose children are simplified is refused only as a divisor, and is
worth zero then. -/
theorem refuses_of_settle_error
    {slot : Slot} {tree node : Tree} {halted : Halted} {p : Option Nat}
    (htree : tree.Consistent)
    (hcells : tree.HasCells cellOf)
    (hfolds : tree.foldsIntegerDivision = false)
    (hsettle : ∀ slot,
      settle slot node = (node.reduceNode slot).mapError (⟨·, node⟩))
    (hsimplify : ∀ tree', settle .operand node = .ok tree' →
      simplifyIn .operand tree = .ok tree')
    (h : settle slot node = .error halted)
    (hp : halted.error = .simplify (.divisionByZero p)) :
    slot.Refuses (tree.course cellOf).outcome := by
  rw [hsettle] at h
  rcases Success.mapError_eq_error_iff.mp h with ⟨e, hreduce, rfl⟩
  obtain rfl : e = _ := hp
  rcases reduceNode_eq_zero_of_error hreduce with ⟨rfl, tree', htree', hzero⟩
  have hsimplified :=
    hsimplify tree' (by rw [hsettle, htree', Success.mapError_ok])
  intro x hx
  exact quanta?_of_simplifyIn_isZero htree hcells hfolds hsimplified hzero hx

/-- A tree is refused as a divisor if it is worth zero; anywhere else it is
refused for a division in it, and then has no value. -/
theorem simplifyIn_refuses
    {slot : Slot} {tree : Tree} {halted : Halted} {p : Option Nat}
    (htree : tree.Consistent)
    (hcells : tree.HasCells cellOf)
    (hfolds : tree.foldsIntegerDivision = false)
    (h : simplifyIn slot tree = .error halted)
    (hp : halted.error = .simplify (.divisionByZero p)) :
    slot.Refuses (tree.course cellOf).outcome := by
  induction tree generalizing slot halted with
  | leaf t res => contradiction
  | leftOnly t res l ih => exact htree.elim
  | rightOnly t res r ih =>
      obtain ⟨ht, hres, _, hr⟩ := id htree
      subst hres
      have hcellsr : r.HasCells cellOf := by
        rwa [HasCells,
          identifiers_rightOnly (Token.identifier?_of_operator? ht)] at hcells
      rcases simplifyIn_cast_eq_error h with
        ⟨inner, hinner, hsame⟩ | ⟨r', hr', hsettle⟩
      · have hrefuses := ih hr hcellsr hfolds hinner (hsame.trans hp)
        have hoperand : Slot.ofRight t = .operand := if_neg (by simp [ht])
        rw [hoperand] at hrefuses
        rw [outcome_course_cast]
        cases hy : (r.course cellOf).outcome with
        | error fault => exact slot.refuses_error fault
        | ok y => exact (hrefuses y hy).elim
      · have hnormal := simplifyIn_isNormal hr.hasTypedLeaves hr'
        exact refuses_of_settle_error htree hcells hfolds
          (fun slot => settle_cast_of_isNormal slot ht hnormal)
          (fun tree' htree' => simplifyIn_cast_eq_ok_iff.mpr
            ⟨r', hr', htree'⟩) hsettle hp
  | binary t res l r ihl ihr =>
      obtain ⟨ht, hresl, hresr, hl, hr⟩ := id htree
      obtain ⟨hcellsl, hcellsr⟩ :=
        (hasCells_binary ht.identifier?_eq).mp hcells
      obtain ⟨hfoldsl, hfoldsr⟩ : l.foldsIntegerDivision = false ∧
          r.foldsIntegerDivision = false := by
        simp only [foldsIntegerDivision, Bool.or_eq_false_iff] at hfolds
        exact ⟨hfolds.1.2, hfolds.2⟩
      rcases simplifyIn_binary_eq_error h with
        ⟨inner, hinner, hsame⟩ | ⟨l', hl', h⟩
      · have hrefuses := ihl hl hcellsl hfoldsl hinner (hsame.trans hp)
        rcases outcome_binary_of_error hrefuses with ⟨fault, hfault⟩
        rw [hfault]
        exact slot.refuses_error fault
      rcases h with ⟨inner, hinner, hsame⟩ | ⟨r', hr', hsettle⟩
      · have hrefuses := ihr hr hcellsr hfoldsr hinner (hsame.trans hp)
        -- Whatever the left operand comes to is finite, and not so its
        -- quotient by zero.
        have hworth : ∀ x, (l.course cellOf).outcome = .ok x →
            ∃ a, x.value.quanta? = some a := by
          intro x hx
          rcases exists_worth_of_simplifyIn hl hcellsl hfoldsl hl' hx with
            ⟨_, a, _, ha, _⟩
          exact ⟨a, ha⟩
        rcases outcome_binary_of_refuses htree hworth hrefuses with
          ⟨fault, hfault⟩
        rw [hfault]
        exact slot.refuses_error fault
      · have hresultl := (simplifyIn_matches hl hcellsl hfoldsl hl').1
        have hresultr := (simplifyIn_matches hr hcellsr hfoldsr hr').1
        have hnode : (Tree.binary t res l' r').Consistent :=
          ⟨ht, hresultl.trans hresl, hresultr.trans hresr,
            (simplifyIn_consistent hl hl').1,
            (simplifyIn_consistent hr hr').1⟩
        have hnormall := simplifyIn_isNormal hl.hasTypedLeaves hl'
        have hnormalr := simplifyIn_isNormal hr.hasTypedLeaves hr'
        exact refuses_of_settle_error htree hcells hfolds
          (fun slot => settle_binary_of_isNormal slot hnode hnormall hnormalr)
          (fun tree' htree' => simplifyIn_binary_eq_ok_iff.mpr
            ⟨l', r', hl', hr', htree'⟩)
          hsettle hp

end Tree

/-- An expression that simplification refuses for a zero divisor has no value:
run as it stands, with any proper values of its symbols, it ends with a result
that is not finite.  Divisions of integers that would be computed are
excepted. -/
theorem evaluate_plain_of_rejected
    {source : String} {c : Compiled} {halted : Halted}
    {position : Option Nat}
    (hcompile : compile source = .ok c)
    (hfolds : c.tree.foldsIntegerDivision = false)
    (hsimplify : c.tree.simplify = .error halted)
    (hrejected : halted.error = .simplify (.divisionByZero position))
    {σ : Type}
    (ask : String → ValueType → StateM σ (Except ValueFault Cell))
    (state : σ) (cellOf : Nat → Cell)
    (hsupplies : Supplies ask cellOf c.symbols state)
    (htypes : c.symbols.Types cellOf)
    (hproper : c.symbols.AllProper cellOf) :
    ∃ l op r, ((evaluate ask none source .plain).run state).1.result =
      .error (.runtime (.nonFinite l op r)) := by
  rcases exists_isSound hcompile with ⟨parsed, hsound⟩
  have hcells : c.tree.HasCells cellOf := by
    intro id hid
    rcases hsound.declares id hid with ⟨row, hrow, htype, _⟩
    exact ⟨(htypes id.attr row hrow).trans htype, hproper id.attr row hrow⟩
  have hrefuses :=
    Tree.simplifyIn_refuses hsound.consistent hcells hfolds
      hsimplify hrejected
  have hprepare : Tree.prepare .plain c.tree = .ok c.tree := rfl
  rw [evaluate_eq_course hcompile hprepare (fun _ => rfl) hsound.consistent
    hsound.isUser hsound.usesRows hsupplies]
  cases houtcome : (c.tree.course cellOf).outcome with
  | ok x => exact (hrefuses x houtcome).elim
  | error fault =>
      rcases (c.tree.course_failsOnly cellOf fault houtcome).exists_eq with
        ⟨l, op, r, rfl⟩
      exact ⟨l, op, r, rfl⟩

/-- The divisor is a conversion of a product with a difference `a - a`; it is
refused, and the quotient of one by zero is not finite. -/
theorem evaluate_plain_of_rejected_converted_zero :
    let ask (name : String) (_ : ValueType) : StateM Unit
      (Except ValueFault Cell) :=
      pure (.ok (if name = "x" then .float .one else .integer 5))
    let source := "x[f] / ((a - a) * b)"
    ∃ c halted, compile source = .ok c ∧ c.tree.foldsIntegerDivision = false ∧
      c.tree.simplify = .error halted ∧
      halted.error = .simplify (.divisionByZero (some 6)) ∧
      ∃ l op r, ((evaluate ask none source .plain).run ()).1.result =
        .error (.runtime (.nonFinite l op r)) := by
  intro ask source
  let cellOf (attr : Nat) : Cell := if attr = 1 then .float .one
      else .integer 5
  have hfacts : (compile source).toOption.map (fun c => (c.symbols.rows,
      c.tree.foldsIntegerDivision, c.tree.simplify.mapError Halted.error)) =
      some ([⟨"x", .float, .user⟩, ⟨"a", .integer, .user⟩,
          ⟨"b", .integer, .user⟩], false,
        .error (.simplify (.divisionByZero (some 6)))) := by
    decide +kernel
  obtain ⟨c, hcompile, hc⟩ := Success.exists_of_toOption hfacts
  simp only [Prod.mk.injEq] at hc
  obtain ⟨hrows, hfolds, herror⟩ := hc
  obtain ⟨halted, hsimplify, hrejected⟩ :=
    Success.mapError_eq_error_iff.mp herror
  have hsupplies : Supplies ask cellOf c.symbols () := by
    rw [Supplies, hrows]
    exact ⟨(), rfl, (), rfl, (), rfl, trivial⟩
  have hrow : ∀ attr row, c.symbols.get? attr = some row →
      (cellOf attr).type = row.type ∧ (cellOf attr).IsProper := by
    intro attr row hrow
    rcases SymbolTable.get?_eq_some_iff.mp hrow with ⟨n, rfl, hn⟩
    rw [hrows] at hn
    have hlt : n < 3 := (List.getElem?_eq_some_iff.mp hn).1
    interval_cases n
    all_goals
      obtain rfl := Option.some.inj hn
      exact ⟨rfl, rfl⟩
  exact ⟨c, halted, hcompile, hfolds, hsimplify, hrejected,
    evaluate_plain_of_rejected hcompile hfolds hsimplify hrejected ask
      () cellOf hsupplies (fun attr row h => (hrow attr row h).1)
      fun attr row h => (hrow attr row h).2⟩

end ThreeAddress
