import ThreeAddress.Proofs.Literals
import ThreeAddress.Proofs.Running

/-!
# The meaning of an expression

An expression has a meaning before any type is resolved: operands are
evaluated from left to right, an operator computes in single precision, and
its result is an integer if both operands are.  Resolving types inserts
conversions, which change the cells that an operator works on but not their
values.  The run of an expression therefore comes to its meaning.
-/

namespace ThreeAddress

/-- An operation on two integers yields an integer, any other a float. -/
def Cell.operationType (x y : Cell) : ValueType :=
  if x.type = .integer ∧ y.type = .integer then .integer else .float

/-- The result of an operator on two cells; there is none if it is not
finite. -/
def Operator.applyCells? (op : Operator) (x y : Cell) : Option Cell :=
  if (op.apply x.value y.value).isFinite then
    some (.narrow (x.operationType y) (op.apply x.value y.value))
  else none

namespace Tree

/-- The value of a parsed expression, if the symbols have the given cells. -/
def meaning (cellOf : Nat → Cell) : Tree → Option Cell
  | .leaf t _ => some (t.cell cellOf)
  | .binary t _ l r => do
    let x ← l.meaning cellOf
    let y ← r.meaning cellOf
    let op ← t.operator?
    op.applyCells? x y
  | _ => none

end Tree

/-! ## Types of cells -/

theorem Resolution.ofType_eq_integer_iff
    (type : ValueType) :
    Resolution.ofType type = .integer ↔ type = .integer := by
  cases type <;> simp [Resolution.ofType]

@[simp] theorem Cell.type_narrow
    (type : ValueType) (x : Single) :
    (Cell.narrow type x).type = type := by
  cases type <;> rfl

theorem Token.ofType_type_cell
    {cellOf : Nat → Cell} {t : Token}
    (ht : t.isOperand = true)
    (htyped : ∀ id,
      t.identifier? = some id → (cellOf id.attr).type = id.type) :
    .ofType (t.cell cellOf).type = Resolution.ofToken t := by
  cases hkind : t.kind with
  | operator op | bracket side => simp [Token.isOperand, hkind] at ht
  | number literal =>
      simp [Token.cell, Resolution.ofToken, Token.type?, hkind,
        literal.type_cell]
  | identifier id =>
      have hid := htyped id (by simp [Token.identifier?, hkind])
      simp [Token.cell, Resolution.ofToken, Token.type?, hkind, hid]

/-! ## Meanings and courses -/

/-- A meaning of the given type and the outcome of a run belong together: both
are the same value, or there is none for want of a finite result. -/
inductive Agrees (res : Resolution) :
    Option Cell → Except RuntimeFault Cell → Prop
  | value (cell : Cell) (htype : .ofType cell.type = res) :
      Agrees res (some cell) (.ok cell)
  | nonFinite (l : Cell) (op : Operator) (r : Cell) :
      Agrees res none (.error (.nonFinite l op r))

theorem Agrees.bind
    {res res' : Resolution} {meaning : Option Cell}
    {outcome : Except RuntimeFault Cell}
    (h : Agrees res meaning outcome)
    {f : Cell → Option Cell} {g : Cell → Except RuntimeFault Cell}
    (hnext : ∀ x, .ofType x.type = res → Agrees res' (f x) (g x)) :
    Agrees res' (meaning.bind f) (outcome.bind g) := by
  cases h with
  | value x hx => exact hnext x hx
  | nonFinite l op r => exact .nonFinite l op r

theorem Agrees.result_iff
    {res : Resolution} {meaning : Option Cell}
    {outcome : Except RuntimeFault Cell}
    (h : Agrees res meaning outcome) :
    (∀ cell, meaning = some cell ↔
      outcome.mapError Error.runtime = .ok cell) ∧
      (meaning = none ↔ ∃ l op r,
        outcome.mapError Error.runtime =
          .error (.runtime (.nonFinite l op r))) := by
  cases h with
  | value cell htype => simp
  | nonFinite l op r => simp [Except.mapError]

namespace Tree

theorem outcome_course_binary
    {cellOf : Nat → Cell} {t : Token} {op : Operator}
    (ht : t.operator? = some op)
    (type : ValueType) (l r : Tree) :
    ((Tree.binary t (.ofType type) l r).course cellOf).outcome =
      (l.course cellOf).outcome.bind fun x =>
        (r.course cellOf).outcome.bind fun y =>
          (Machine.computed type op x y).map Prod.fst := by
  have htype : (Resolution.ofType type).type? = some type := by
    cases type <;> rfl
  simp only [course, Course.bind_outcome, ht, htype, Option.getD_some]
  congr! 4 with x y
  cases Machine.computed type op x y <;> rfl

theorem outcome_course_cast
    {cellOf : Nat → Cell} (t : Token) (res : Resolution) (r : Tree) :
    ((Tree.rightOnly t res r).course cellOf).outcome =
      (r.course cellOf).outcome.map fun x => .float x.value := by
  simp only [course, Course.bind_outcome]
  cases (r.course cellOf).outcome <;> rfl

theorem outcome_course_castInteger
    {cellOf : Nat → Cell} {tree : Tree} {meaning : Option Cell}
    (h : Agrees tree.result meaning (tree.course cellOf).outcome) :
    (tree.castInteger.course cellOf).outcome =
      (tree.course cellOf).outcome.map fun x => .float x.value := by
  unfold castInteger
  split
  · exact outcome_course_cast _ _ tree
  · next hne =>
      -- Without a conversion the value must be a float already.
      generalize (tree.course cellOf).outcome = outcome at h ⊢
      cases h with
      | nonFinite l op r => rfl
      | value cell htype =>
          cases cell with
          | integer n => exact (hne htype.symm).elim
          | float x => rfl

theorem agrees_computed
    {op : Operator} {x y x' y' : Cell} {type : ValueType}
    (hx : x'.value = x.value)
    (hy : y'.value = y.value)
    (htype : x.operationType y = type) :
    Agrees (.ofType type) (op.applyCells? x y)
      ((Machine.computed type op x' y').map Prod.fst) := by
  unfold Operator.applyCells? Machine.computed
  rw [hx, hy, htype]
  split
  · exact .value _ (by simp)
  · exact .nonFinite _ _ _

theorem agrees_resolve
    {cellOf : Nat → Cell} {t : Token} {op : Operator}
    (ht : t.operator? = some op)
    (hop : op ≠ .toFloat)
    (res : Resolution) {l r : Tree} {left right : Option Cell}
    (hl : Agrees l.result left (l.course cellOf).outcome)
    (hr : Agrees r.result right (r.course cellOf).outcome) :
    Agrees (resolve (.binary t res l r)).result
      (left.bind fun x => right.bind fun y => op.applyCells? x y)
      ((resolve (.binary t res l r)).course cellOf).outcome := by
  by_cases hinteger : l.result = .integer ∧ r.result = .integer
  · rw [resolve_binary_integer ⟨op, ht, hop⟩ res hinteger.1 hinteger.2]
    change Agrees (.ofType .integer) _
      ((Tree.binary t (.ofType .integer) l r).course cellOf).outcome
    rw [outcome_course_binary ht]
    refine hl.bind fun x hx => hr.bind fun y hy => ?_
    rw [hinteger.1, Resolution.ofType_eq_integer_iff] at hx
    rw [hinteger.2, Resolution.ofType_eq_integer_iff] at hy
    exact agrees_computed rfl rfl (if_pos ⟨hx, hy⟩)
  · rw [resolve_binary_float ⟨op, ht, hop⟩ res hinteger]
    change Agrees (.ofType .float) _
      ((Tree.binary t (.ofType .float) _ _).course cellOf).outcome
    rw [outcome_course_binary ht, outcome_course_castInteger hl,
      outcome_course_castInteger hr, Success.map_bind]
    refine hl.bind fun x hx => ?_
    rw [Success.map_bind]
    refine hr.bind fun y hy => ?_
    rw [← hx, ← hy, Resolution.ofType_eq_integer_iff,
      Resolution.ofType_eq_integer_iff] at hinteger
    exact agrees_computed rfl rfl (if_neg hinteger)

/-- The run of an analyzed expression comes to the meaning of the
expression. -/
theorem agrees_analyze
    {cellOf : Nat → Cell} {tree analyzed : Tree}
    (htree : tree.IsExpression)
    (h : tree.analyze = .ok analyzed)
    (htyped : ∀ id ∈ tree.identifiers, (cellOf id.attr).type = id.type) :
    Agrees analyzed.result (tree.meaning cellOf)
      (analyzed.course cellOf).outcome := by
  induction tree generalizing analyzed with
  | leaf t res =>
      obtain rfl : ofToken t = analyzed := by simpa [analyze, resolve] using h
      refine .value _ (Token.ofType_type_cell htree.1 ?_)
      intro id hid
      exact htyped id (by simp [hid])
  | leftOnly t res l ih => exact htree.elim
  | rightOnly t res r ih => exact htree.elim
  | binary t res l r ihl ihr =>
      obtain ⟨⟨op, hop, hne⟩, _, hl, hr⟩ := htree
      obtain ⟨_, l', r', hl', hr', rfl⟩ := analyze_binary_eq_ok h
      rw [identifiers_binary (Token.identifier?_of_operator? hop)] at htyped
      have hleft := ihl hl hl' fun id hid =>
          htyped id (List.mem_append_left _ hid)
      have hright := ihr hr hr' fun id hid =>
          htyped id (List.mem_append_right _ hid)
      simpa [meaning, hop] using agrees_resolve hop hne res hleft hright

end Tree

/-- The cells have the types that the table declares. -/
def SymbolTable.Types (table : SymbolTable) (cellOf : Nat → Cell) : Prop :=
  ∀ attr row, table.get? attr = some row → (cellOf attr).type = row.type

/-- Run without simplification, an expression comes to the meaning of its
parsed tree: to the same cell if there is one, and to a result that is not
finite exactly if there is none. -/
theorem evaluate_plain_iff_meaning
    {source : String} {c : Compiled}
    (hcompile : compile source = .ok c) :
    ∃ tree, parse c.tokens = .ok tree ∧
      ∀ {σ : Type}
        (ask : String → ValueType → StateM σ (Except ValueFault Cell))
        (state : σ) (cellOf : Nat → Cell),
        Supplies ask cellOf c.symbols state → c.symbols.Types cellOf →
          let result := ((evaluate ask none source .plain).run state).1.result
          (∀ cell, tree.meaning cellOf = some cell ↔ result = .ok cell) ∧
            (tree.meaning cellOf = none ↔
              ∃ l op r, result = .error (.runtime (.nonFinite l op r))) := by
  obtain ⟨tree, hsound⟩ := exists_isSound hcompile
  refine ⟨tree, hsound.parsed_eq, ?_⟩
  intro σ ask state cellOf hsupplies htypes result
  have hids : ∀ id ∈ tree.identifiers, (cellOf id.attr).type = id.type := by
    intro id hid
    rw [← (Tree.analyze_consistent hsound.isExpression hsound.analyzed).2]
      at hid
    obtain ⟨row, hrow, htype, _⟩ := hsound.declares id hid
    rw [htypes id.attr row hrow, htype]
  have hresult :
      result = (c.tree.course cellOf).outcome.mapError .runtime := by
    have hprepare : Tree.prepare .plain c.tree = .ok c.tree := rfl
    have hrun := evaluate_eq_course hcompile hprepare (fun _ => rfl)
      hsound.consistent hsound.isUser hsound.usesRows hsupplies
    exact congrArg Outcome.result hrun
  rw [hresult]
  exact (Tree.agrees_analyze hsound.isExpression hsound.analyzed
    hids).result_iff

/-- The quotient of seven by two loses its fraction, although it is added to a
float afterwards.  With zero for a divisor there is no result. -/
theorem evaluate_plain_quotient_plus_float :
    let half := Single.one / Single.ofInt 2
    let ask (divisor : Int) (name : String) (_ : ValueType) :
        StateM Unit (Except ValueFault Cell) :=
      pure (.ok (if name = "a" then .integer 7
        else if name = "b" then .integer divisor else .float half))
    let run (divisor : Int) :=
      ((evaluate (ask divisor) none "a / b + c[f]" .plain).run ()).1.result
    run 2 = .ok (.float (Single.ofInt 3 + half)) ∧
      ∃ l op r, run 0 = .error (.runtime (.nonFinite l op r)) := by
  intro half ask run
  let cellOf (divisor : Int) (attr : Nat) : Cell :=
    if attr = 1 then .integer 7 else if attr = 2 then .integer divisor
    else .float half
  obtain ⟨c, hcompile, hrows, htwo, hzero⟩ : ∃ c, compile "a / b + c[f]" =
        .ok c ∧ c.symbols.rows =
        [⟨"a", .integer, .user⟩, ⟨"b", .integer, .user⟩,
      ⟨"c", .float, .user⟩] ∧
      (parse c.tokens).map (Tree.meaning (cellOf 2)) =
        .ok (some (.float (Single.ofInt 3 + half))) ∧
      (parse c.tokens).map (Tree.meaning (cellOf 0)) = .ok none :=
    ⟨_, rfl, rfl, by decide +kernel, by decide +kernel⟩
  have hsupplies (divisor : Int) :
      Supplies (ask divisor) (cellOf divisor) c.symbols () := by
    rw [Supplies, hrows]
    exact ⟨(), rfl, (), rfl, (), rfl, trivial⟩
  have htypes (divisor : Int) : c.symbols.Types (cellOf divisor) := by
    intro attr row hrow
    match attr with
    | 0 => simp [SymbolTable.get?] at hrow
    | 1 | 2 | 3 =>
        simp only [SymbolTable.get?, hrows] at hrow
        obtain rfl := Option.some.inj hrow
        rfl
    | n + 4 => simp [SymbolTable.get?, hrows] at hrow
  obtain ⟨tree, hparse, hrun⟩ := evaluate_plain_iff_meaning hcompile
  rw [hparse] at htwo hzero
  refine ⟨((hrun (ask 2) () (cellOf 2) (hsupplies 2) (htypes 2)).1 _).mp ?_,
    (hrun (ask 0) () (cellOf 0) (hsupplies 0) (htypes 0)).2.mp ?_⟩
  · exact Except.ok.inj htwo
  · exact Except.ok.inj hzero

end ThreeAddress
