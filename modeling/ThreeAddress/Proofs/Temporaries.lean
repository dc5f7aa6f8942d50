import ThreeAddress.Proofs.Runs
import ThreeAddress.Proofs.TableSize

/-!
# How many temporaries code needs

With a fresh receiver for every command there is a temporary for each operator
of the text, and more where operands are converted.  Simplified code may have
more commands than that, since a folded division is a float and the integers
next to it are converted, but it never has more temporaries.  Only an operator
on two operands and a conversion take a new one; any other operator writes
over what one side left behind.  An operator has at most one side converted,
so that the temporary of the conversion is paid for by the operator above it,
which needs none.
-/

namespace ThreeAddress

/-! ## Operators of a text -/

/-- The number of operators that a text is written with. -/
def operatorsIn (source : String) : Nat :=
  source.toList.countP (· ∈ ['+', '-', '*', '/'])

def Token.isOperator (t : Token) : Bool := t.operator?.isSome

theorem Token.isOperator_of_isOperand
    {t : Token}
    (h : t.isOperand = true) :
    t.isOperator = false := by
  rw [isOperator, operator?_of_isOperand h]
  rfl

theorem Token.isOperator_of_operator?
    {t : Token} {op : Operator}
    (h : t.operator? = some op) :
    t.isOperator = true := by
  rw [isOperator, h]
  rfl

theorem Token.isOperator_of_bracket?
    {t : Token} {side : Bracket}
    (h : t.bracket? = some side) :
    t.isOperator = false := by
  cases hoperator : t.operator? with
  | none => simp [isOperator, hoperator]
  | some op => simp [bracket?_of_operator? hoperator] at h

namespace Lexeme

def isOperator : Lexeme → Bool
  | .mark _ (.operator _) => true
  | _ => false

theorem isOperator_mark
    {c : Char} {kind : TokenKind}
    (h : markKind? c = some kind)
    (start : Nat) :
    isOperator (.mark start kind) = decide (c ∈ ['+', '-', '*', '/']) := by
  unfold markKind? at h
  split at h
  · rw [← Option.some.inj h]
    rfl
  · rw [← Option.some.inj h]
    rfl
  · rcases Option.map_eq_some_iff.mp h with ⟨op, hop, rfl⟩
    unfold Operator.ofChar? at hop
    split at hop
    · rfl
    · rfl
    · rfl
    · rfl
    · contradiction

theorem countP_isOperator_extend
    (start : Nat) (c : Char) (rest : List Lexeme) :
    (extend start c rest).countP isOperator = rest.countP isOperator := by
  unfold extend
  split
  · split
    · rfl
    · rfl
  · rfl

theorem countP_isOperator_cut
    (start : Nat) (text : List Char) :
    (cut start text).countP isOperator =
      text.countP (· ∈ ['+', '-', '*', '/']) := by
  induction text generalizing start with
  | nil => rfl
  | cons c rest ih =>
      rw [cut, List.countP_cons]
      split
      · next hblank =>
          have hc : c ∉ ['+', '-', '*', '/'] := by
            rintro hmem
            simp only [List.mem_cons, List.not_mem_nil, or_false] at hmem
            rcases hmem with
              rfl | rfl | rfl | rfl <;> exact absurd hblank (by decide)
          rw [ih, if_neg (by simpa using hc), Nat.add_zero]
      · split
        · next kind hkind => rw [List.countP_cons, ih, isOperator_mark hkind]
        · next hnone =>
            have hc : c ∉ ['+', '-', '*', '/'] := fun hmem =>
              markKind?_eq_none_iff.mp hnone (by simp at hmem ⊢; tauto)
            rw [countP_isOperator_extend, ih, if_neg (by simpa using hc),
              Nat.add_zero]

theorem isOperator_of_read
    {lexeme : Lexeme} {table after : SymbolTable} {token : Token}
    (h : lexeme.read table = .ok (token, after)) :
    token.isOperator = lexeme.isOperator := by
  cases lexeme with
  | mark start kind =>
      obtain ⟨rfl, _⟩ := read_mark_eq_ok h
      cases kind <;> rfl
  | run start text =>
      rcases read_run_eq_ok h with ⟨kind, rfl, hrun⟩
      rcases readRun_eq_ok hrun with ⟨id, name, rfl, _⟩ | ⟨literal, rfl, _⟩
      · rfl
      · rfl

theorem countP_isOperator_of_readAll
    {lexemes : List Lexeme} {table after : SymbolTable}
    {tokens : List Token}
    (h : readAll table lexemes = .ok (tokens, after)) :
    tokens.countP Token.isOperator = lexemes.countP isOperator := by
  induction lexemes generalizing table tokens with
  | nil =>
      obtain ⟨rfl, _⟩ := readAll_nil_eq_ok h
      rfl
  | cons lexeme rest ih =>
      rcases readAll_cons_eq_ok h with
        ⟨token, middle, others, hread, hrest, rfl⟩
      rw [List.countP_cons, List.countP_cons, ih hrest,
        isOperator_of_read hread]

end Lexeme

theorem countP_isOperator_of_scan
    {source : String} {tokens : List Token} {table : SymbolTable}
    (h : scan source = .ok (tokens, table)) :
    tokens.countP Token.isOperator = operatorsIn source := by
  rw [Lexeme.countP_isOperator_of_readAll h, Lexeme.countP_isOperator_cut]
  rfl

/-- Operators stand between operands. -/
theorem Derives.leafCount_eq
    {phrase : Phrase} {tokens : List Token} {tree : Tree}
    (h : Derives phrase tokens tree) :
    tree.leafCount = tokens.countP Token.isOperator + 1 := by
  induction h with
  | operand hoperand =>
      rw [List.countP_singleton, Token.isOperator_of_isOperand hoperand]
      rfl
  | bracketed hopening hclosing hinner ih =>
      have hfirst := Token.isOperator_of_bracket? hopening
      have hlast := Token.isOperator_of_bracket? hclosing
      simpa [List.countP_cons, hfirst, hlast] using ih
  | ofFactor hfactor ih | ofTerm hterm ih => exact ih
  | product hleft htoken hop hright ihl ihr
  | sum hleft htoken hop hright ihl ihr =>
      have hoperator := Token.isOperator_of_operator? htoken
      rw [Tree.join, Tree.leafCount, ihl, ihr, List.countP_append,
        List.countP_cons, hoperator]
      simp
      omega

theorem leafCount_of_compile
    {source : String} {c : Compiled}
    (h : compile source = .ok c) :
    c.tree.leafCount = operatorsIn source + 1 := by
  rcases exists_isSound h with ⟨parsed, hsound⟩
  rw [hsound.isExpression.leafCount_analyze hsound.analyzed,
    (hsound.derives h).leafCount_eq,
    countP_isOperator_of_scan (scan_of_compile h)]

/-! ## Converted operands -/

namespace Tree

/-- Of the two sides of an operator at most one is converted. -/
def CastsOneSide : Tree → Prop
  | .leaf _ _ => True
  | .leftOnly _ _ l => l.CastsOneSide
  | .rightOnly _ _ r => r.CastsOneSide
  | .binary _ _ l r =>
    (l.isCast = true → r.isCast = false) ∧ l.CastsOneSide ∧ r.CastsOneSide

/-- Sides that are converted only where others are may take their place. -/
theorem CastsOneSide.replace
    {t : Token} {res res' : Resolution} {l r l' r' : Tree}
    (h : (Tree.binary t res l r).CastsOneSide)
    (hl : l'.CastsOneSide ∧ (l'.isCast = true → l.isCast = true))
    (hr : r'.CastsOneSide ∧ (r'.isCast = true → r.isCast = true)) :
    (Tree.binary t res' l' r').CastsOneSide := by
  refine ⟨?_, hl.1, hr.1⟩
  intro hleft
  rw [Bool.eq_false_iff]
  intro hright
  exact Bool.false_ne_true ((h.1 (hl.2 hleft)).symm.trans (hr.2 hright))

theorem isCast_castInteger
    {tree : Tree}
    (h : tree.castInteger.isCast = true) :
    tree.result = .integer ∨ tree.isCast = true := by
  unfold castInteger at h
  split at h
  · next hinteger => exact .inl hinteger
  · exact .inr h

theorem CastsOneSide.castInteger
    {tree : Tree}
    (h : tree.CastsOneSide) :
    tree.castInteger.CastsOneSide := by
  unfold Tree.castInteger
  split
  · exact h
  · exact h

/-- Typing an operator converts one side at most, if no side is converted that
stands beside an integer or beside another conversion. -/
theorem resolve_castsOneSide
    {t : Token}
    (ht : t.IsArithmetic)
    (res : Resolution) {l r : Tree}
    (hr : r.Consistent)
    (hsidel : l.CastsOneSide)
    (hsider : r.CastsOneSide)
    (hcastl : l.isCast = true → r.result ≠ .integer ∧ r.isCast = false)
    (hcastr : r.isCast = true → l.result ≠ .integer) :
    (resolve (.binary t res l r)).CastsOneSide := by
  by_cases hinteger : l.result = .integer ∧ r.result = .integer
  · rw [resolve_binary_integer ht res hinteger.1 hinteger.2]
    exact ⟨fun _ => hr.isCast_eq_false hinteger.2, hsidel, hsider⟩
  · rw [resolve_binary_float ht res hinteger]
    refine ⟨?_, hsidel.castInteger, hsider.castInteger⟩
    intro hleft
    rw [← Bool.not_eq_true]
    intro hright
    rcases isCast_castInteger hleft with hl | hl
    · rcases isCast_castInteger hright with hr | hr
      · exact hinteger ⟨hl, hr⟩
      · exact hcastr hr hl
    · rcases isCast_castInteger hright with hr | hr
      · exact (hcastl hl).1 hr
      · exact Bool.false_ne_true ((hcastl hl).2.symm.trans hr)

theorem IsExpression.analyze_castsOneSide
    {tree tree' : Tree}
    (htree : tree.IsExpression)
    (h : tree.analyze = .ok tree') :
    tree'.CastsOneSide ∧ tree'.isCast = false := by
  induction tree generalizing tree' with
  | leaf t res =>
      obtain rfl : ofToken t = tree' := by simpa [analyze, resolve] using h
      exact ⟨trivial, isCast_of_isOperand htree.1⟩
  | leftOnly t res l ih | rightOnly t res r ih => exact htree.elim
  | binary t res l r ihl ihr =>
      rcases htree with ⟨ht, _, hl, hr⟩
      rcases analyze_binary_eq_ok h with ⟨_, l', r', hl', hr', rfl⟩
      rcases ihl hl hl' with ⟨hsidel, hcastl⟩
      rcases ihr hr hr' with ⟨hsider, hcastr⟩
      have hconsr := (analyze_consistent hr hr').1
      refine ⟨resolve_castsOneSide ht res hconsr hsidel hsider ?_ ?_, ?_⟩
      · simp [hcastl]
      · simp [hcastr]
      · by_cases hinteger : l'.result = .integer ∧ r'.result = .integer
        · rw [resolve_binary_integer ht res hinteger.1 hinteger.2]
          exact isCast_binary ht _ _ _
        · rw [resolve_binary_float ht res hinteger]
          exact isCast_binary ht _ _ _

/-! ## Simplified trees -/

theorem Rewrites.castsOneSide
    {node tree : Tree}
    (h : Rewrites node tree)
    (hnode : node.CastsOneSide) :
    tree.CastsOneSide := by
  cases h with
  | @folded t res l r op a b size ht hl hr hfoldable hsize =>
      cases (op.apply a.value b.value).isNonneg with
      | true => trivial
      | false => exact ⟨fun _ => rfl, trivial, trivial⟩
  | converted ht hr hliteral => trivial
  | dropped ht hr => exact hnode
  | identity ht hidentity =>
      rcases hidentity.leaves with ⟨rfl, _⟩ | ⟨rfl, _⟩ | ⟨type, rfl⟩
      · trivial
      · trivial
      · trivial

/-- No rule makes a conversion of an operator. -/
theorem Rewrites.isCast_eq_false
    {t : Token} {res : Resolution} {l r tree : Tree}
    (h : Rewrites (.binary t res l r) tree) :
    tree.isCast = false := by
  cases h with
  | @folded _ _ _ _ op a b size ht hl hr hfoldable hsize =>
      cases (op.apply a.value b.value).isNonneg with
      | true => rfl
      | false => rfl
  | identity ht hidentity =>
      rcases hidentity.leaves with
        ⟨rfl, hoperand⟩ | ⟨rfl, hoperand⟩ | ⟨type, rfl⟩
      · exact isCast_of_isOperand hoperand
      · exact isCast_of_isOperand hoperand
      · rfl

theorem ReducesCast.castsOneSide
    {child tree : Tree}
    (h : ReducesCast child tree)
    (hchild : child.CastsOneSide) :
    tree.CastsOneSide ∧ (tree.isCast = true → child.isCast = true) := by
  rcases h with rfl | ⟨hcast, hrewrites⟩
  · exact ⟨hchild, id⟩
  · exact ⟨hrewrites.castsOneSide hchild, fun _ => hcast⟩

/-- A conversion beside an integer is dropped, so that none is left beside one
when the operator is typed. -/
theorem CastsOneSide.resolve_dropRedundantCasts
    {t : Token} {res : Resolution} {l r : Tree}
    (h : (Tree.binary t res l r).CastsOneSide)
    (ht : t.IsArithmetic)
    (hl : l.Consistent)
    (hr : r.Consistent) :
    (Tree.binary t res l r).dropRedundantCasts.resolve.CastsOneSide := by
  rcases h with ⟨hcasts, hsidel, hsider⟩
  by_cases hdropl : l.isCast = true ∧ r.result = .integer
  · rcases hl.exists_of_isCast hdropl.1 with ⟨t', x, rfl, _, hinteger, _⟩
    have hright := hr.isCast_eq_false hdropl.2
    have hdrop :
        dropRedundantCasts (.binary t res (.rightOnly t' .float x) r) =
        .binary t res x r := by
      simp [dropRedundantCasts, hdropl.1, hdropl.2, hright, right?, ofParts]
    rw [hdrop, resolve_binary_integer ht res hinteger hdropl.2]
    exact ⟨fun _ => hright, hsidel, hsider⟩
  · by_cases hdropr : r.isCast = true ∧ l.result = .integer
    · rcases hr.exists_of_isCast hdropr.1 with ⟨t', y, rfl, _, hinteger, hy⟩
      have hleft := hl.isCast_eq_false hdropr.2
      have hdrop :
          dropRedundantCasts (.binary t res l (.rightOnly t' .float y)) =
          .binary t res l y := by
        simp [dropRedundantCasts, hdropr.1, hdropr.2, hleft, right?, ofParts]
      rw [hdrop, resolve_binary_integer ht res hdropr.2 hinteger]
      exact ⟨fun _ => hy.isCast_eq_false hinteger, hsidel, hsider⟩
    · have hdrop :
          dropRedundantCasts (.binary t res l r) = .binary t res l r := by
        simp only [dropRedundantCasts, if_neg hdropl, if_neg hdropr, ofParts]
      rw [hdrop]
      refine resolve_castsOneSide ht res hr hsidel hsider ?_ ?_
      · exact fun hcast =>
          ⟨fun hinteger => hdropl ⟨hcast, hinteger⟩, hcasts hcast⟩
      · exact fun hcast hinteger => hdropr ⟨hcast, hinteger⟩

theorem CastsOneSide.settle_binary
    {slot : Slot} {t : Token} {res : Resolution} {l r tree : Tree}
    (hnode : (Tree.binary t res l r).CastsOneSide)
    (ht : t.IsArithmetic)
    (hl : l.Consistent)
    (hr : r.Consistent)
    (h : settle slot (.binary t res l r) = .ok tree) :
    tree.CastsOneSide ∧ tree.isCast = false := by
  rcases Tree.resolve_dropRedundantCasts ht res hl hr with
    ⟨res', l', r', hresolve, hresolved, _⟩
  have hsides := hnode.resolve_dropRedundantCasts ht hl hr
  rw [hresolve] at hsides
  rcases settle_binary_cases ht hresolve hresolved.2.2.2.1
    hresolved.2.2.2.2 h with
    ⟨l₁, r₁, hl₁, hr₁, hrule⟩
  have hnode₁ : (Tree.binary t res' l₁ r₁).CastsOneSide :=
    hsides.replace (hl₁.castsOneSide hsides.2.1) (hr₁.castsOneSide hsides.2.2)
  rcases hrule with rfl | hrewrites
  · exact ⟨hnode₁, isCast_binary ht _ _ _⟩
  · exact ⟨hrewrites.castsOneSide hnode₁, hrewrites.isCast_eq_false⟩

theorem CastsOneSide.settle_cast
    {slot : Slot} {t : Token} {res : Resolution} {r tree : Tree}
    (hside : r.CastsOneSide)
    (ht : t.operator? = some .toFloat)
    (hr : r.Consistent)
    (h : settle slot (.rightOnly t res r) = .ok tree) :
    tree.CastsOneSide := by
  rcases settle_cast_cases ht hr h with ⟨r₁, hr₁, hrule⟩
  have hside₁ := (hr₁.castsOneSide hside).1
  rcases hrule with ⟨rfl, _⟩ | hrewrites
  · exact hside₁
  · exact hrewrites.castsOneSide hside₁

theorem CastsOneSide.simplifyIn
    {slot : Slot} {tree tree' : Tree}
    (hside : tree.CastsOneSide)
    (htree : tree.HasTypedLeaves)
    (h : Tree.simplifyIn slot tree = .ok tree') :
    tree'.CastsOneSide ∧ (tree'.isCast = true → tree.isCast = true) := by
  induction tree generalizing slot tree' with
  | leaf t res =>
      obtain rfl : .leaf t res = tree' := by simpa [Tree.simplifyIn] using h
      exact ⟨hside, id⟩
  | leftOnly t res l ih => exact htree.elim
  | rightOnly t res r ih =>
      rcases htree with ⟨ht, hr⟩
      rcases simplifyIn_cast_eq_ok_iff.mp h with ⟨r', hr', hsettle⟩
      have hconsistent := (hr.simplifyIn_consistent hr').1
      have hside' := (ih hside hr hr').1
      exact ⟨hside'.settle_cast ht hconsistent hsettle, fun _ =>
        isCast_iff.mpr ht⟩
  | binary t res l r ihl ihr =>
      rcases htree with ⟨ht, hl, hr⟩
      rcases simplifyIn_binary_eq_ok_iff.mp h with ⟨l', r', hl', hr', hsettle⟩
      have hnode : (Tree.binary t res l' r').CastsOneSide :=
        hside.replace (ihl hside.2.1 hl hl') (ihr hside.2.2 hr hr')
      have hsettled := hnode.settle_binary ht (hl.simplifyIn_consistent hl').1
        (hr.simplifyIn_consistent hr').1 hsettle
      exact ⟨hsettled.1, by simp [hsettled.2]⟩

/-! ## Receivers -/

/-- The token is a temporary of the given type. -/
def IsTemporary (type : Option ValueType) (token : Token) : Prop :=
  ∃ id, token.identifier? = some id ∧ id.provenance = .program ∧
    some id.type = type

theorem isTemporary_of_emit
    {mode : Mode} {t : Token} {res : Resolution} {left right : Option Token}
    {code : List Command} {table : SymbolTable} {lowered : Lowered}
    (h : emit mode t res left right code table = .ok lowered) :
    IsTemporary res.type? lowered.token := by
  rcases emit_eq_ok h with ⟨type, command, htype, _, rfl⟩
  have hreceiver := isReceiver_receiver mode type left right table
  exact ⟨_, rfl, hreceiver.provenance_eq, by rw [hreceiver.type_eq, htype]⟩

theorem isTemporary_of_lower
    {mode : Mode} {tree : Tree} {table : SymbolTable} {lowered : Lowered}
    (h : lower mode tree table = .ok lowered)
    (htree : tree.isLeaf = false) :
    IsTemporary tree.result.type? lowered.token := by
  cases tree with
  | leaf t res => contradiction
  | leftOnly t res l | rightOnly t res r =>
      rcases Success.bind_eq_ok_iff.mp h with ⟨_, _, hemit⟩
      exact isTemporary_of_emit hemit
  | binary t res l r =>
      rcases Success.bind_eq_ok_iff.mp h with ⟨_, _, h⟩
      rcases Success.bind_eq_ok_iff.mp h with ⟨_, _, hemit⟩
      exact isTemporary_of_emit hemit

theorem size_of_emit_le
    {mode : Mode} {t : Token} {res : Resolution} {left right : Option Token}
    {code : List Command} {table : SymbolTable} {lowered : Lowered}
    (h : emit mode t res left right code table = .ok lowered) :
    lowered.table.size ≤ table.size + 1 := by
  rcases emit_eq_ok h with ⟨type, command, _, _, rfl⟩
  exact (isReceiver_receiver mode type left right table).size_le

theorem size_of_emit_plain
    {t : Token} {res : Resolution} {left right : Option Token}
    {code : List Command} {table : SymbolTable} {lowered : Lowered}
    (h : emit .plain t res left right code table = .ok lowered) :
    lowered.table.size = table.size + 1 := by
  rcases emit_eq_ok h with ⟨type, command, _, _, rfl⟩
  exact SymbolTable.size_push table _

/-- In optimal mode a command writes over an operand that is a temporary of
its type. -/
theorem table_of_emit_optimal
    {t token : Token} {res : Resolution} {left right : Option Token}
    {code : List Command} {table : SymbolTable} {lowered : Lowered}
    (h : emit .optimal t res left right code table = .ok lowered)
    (htoken : token ∈ left.toList ++ right.toList)
    (htemporary : IsTemporary res.type? token) :
    lowered.table = table := by
  rcases emit_eq_ok h with ⟨type, command, htype, _, rfl⟩
  rcases htemporary with ⟨id, hid, hprogram, hsame⟩
  have hmem :
      id ∈ (left.toList ++ right.toList).filterMap Token.identifier? :=
    List.mem_filterMap.mpr ⟨token, htoken, hid⟩
  have hreusable : (reusable? type left right).isSome = true := by
    rw [reusable?, List.find?_isSome]
    refine ⟨id, hmem, ?_⟩
    rw [htype] at hsame
    simp [hprogram, Option.some.inj hsame]
  rcases Option.isSome_iff_exists.mp hreusable with ⟨other, hother⟩
  simp only [receiver, hother]

/-! ## The temporaries of lowered code -/

theorem size_of_lower_plain
    {tree : Tree} {table : SymbolTable} {lowered : Lowered}
    (h : lower .plain tree table = .ok lowered) :
    lowered.table.size = table.size + tree.operatorCount := by
  induction tree generalizing table lowered with
  | leaf t res =>
      obtain rfl : ⟨t, [], table⟩ = lowered := Except.ok.inj h
      rfl
  | leftOnly t res child ih | rightOnly t res child ih =>
      rcases Success.bind_eq_ok_iff.mp h with ⟨operand, hoperand, hemit⟩
      rw [size_of_emit_plain hemit, ih hoperand, operatorCount, Nat.add_assoc]
  | binary t res l r ihl ihr =>
      rcases Success.bind_eq_ok_iff.mp h with ⟨left, hleft, h⟩
      rcases Success.bind_eq_ok_iff.mp h with ⟨right, hright, hemit⟩
      rw [size_of_emit_plain hemit, ihr hright, ihl hleft, operatorCount]
      omega

theorem leafCount_le_operatorCount
    (tree : Tree) :
    tree.leafCount ≤ tree.operatorCount + 1 := by
  induction tree with
  | leaf t res => exact le_rfl
  | leftOnly t res child ih | rightOnly t res child ih =>
      simp only [leafCount, operatorCount]
      omega
  | binary t res l r ihl ihr =>
      simp only [leafCount, operatorCount]
      omega

theorem lower_of_isLeaf
    {mode : Mode} {tree : Tree} {table : SymbolTable} {lowered : Lowered}
    (htree : tree.isLeaf = true)
    (h : lower mode tree table = .ok lowered) :
    lowered.table = table ∧ tree.leafCount = 1 := by
  cases tree with
  | leaf t res => exact ⟨by rw [← Except.ok.inj h], rfl⟩
  | leftOnly t res l | rightOnly t res r | binary t res l r => contradiction

/-- With one operand less than there are, each temporary can be charged to an
operand.  A conversion takes one more than that, which the operator above it
pays back by writing over it. -/
theorem Consistent.size_of_lower_optimal_lt
    {tree : Tree} {table : SymbolTable} {lowered : Lowered}
    (htree : tree.Consistent)
    (hside : tree.CastsOneSide)
    (h : lower .optimal tree table = .ok lowered) :
    lowered.table.size < table.size + tree.leafCount + if tree.isCast then 1
        else 0 := by
  induction tree generalizing table lowered with
  | leaf t res =>
      obtain rfl : ⟨t, [], table⟩ = lowered := Except.ok.inj h
      simp only [leafCount]
      omega
  | leftOnly t res l ih => exact htree.elim
  | rightOnly t res r ih =>
      rcases htree with ⟨ht, rfl, hinteger, hr⟩
      rcases Success.bind_eq_ok_iff.mp h with ⟨right, hright, hemit⟩
      have hsize := ih hr hside hright
      rw [hr.isCast_eq_false hinteger] at hsize
      have hrow := size_of_emit_le hemit
      have hcast : (Tree.rightOnly t .float r).isCast = true :=
        isCast_iff.mpr ht
      rw [hcast, leafCount]
      simp only [Bool.false_eq_true, if_false] at hsize
      simp only [if_true]
      omega
  | binary t res l r ihl ihr =>
      rcases htree with ⟨ht, rfl, hres, hl, hr⟩
      rcases hside with ⟨hcasts, hsidel, hsider⟩
      rcases Success.bind_eq_ok_iff.mp h with ⟨left, hleft, h⟩
      rcases Success.bind_eq_ok_iff.mp h with ⟨right, hright, hemit⟩
      have hsizel := ihl hl hsidel hleft
      have hsizer := ihr hr hsider hright
      have hone :
          ((if l.isCast then 1 else 0) + if r.isCast then 1 else 0) ≤ 1 := by
        cases hcast : l.isCast with
        | true => simp [hcasts hcast]
        | false => cases r.isCast <;> simp
      simp only [isCast_binary ht, leafCount, Bool.false_eq_true, if_false]
      by_cases hleaves : l.isLeaf = true ∧ r.isLeaf = true
      · have hrow := size_of_emit_le hemit
        rcases lower_of_isLeaf hleaves.1 hleft with ⟨htablel, hcountl⟩
        rcases lower_of_isLeaf hleaves.2 hright with ⟨htabler, hcountr⟩
        rw [htabler, htablel] at hrow
        omega
      · have hreused : lowered.table = right.table := by
          by_cases hleaf : l.isLeaf = true
          · have hnode : r.isLeaf = false := by simpa [hleaf] using hleaves
            have htemporary := isTemporary_of_lower hright hnode
            rw [hres] at htemporary
            exact table_of_emit_optimal hemit (by simp) htemporary
          · have hnode : l.isLeaf = false := by simpa using hleaf
            have htemporary := isTemporary_of_lower hleft hnode
            exact table_of_emit_optimal hemit (by simp) htemporary
        rw [hreused]
        omega

end Tree

theorem SymbolTable.AddsTemporaries.size_eq
    {table after : SymbolTable}
    (h : table.AddsTemporaries after)
    (huser : table.IsUser) :
    after.size = table.size + after.temporaries := by
  rcases h with ⟨rows, hrows, hprogram⟩
  have hold : table.rows.filter (·.provenance = .program) = [] := by
    rw [List.filter_eq_nil_iff]
    intro row hrow
    simp [huser row hrow]
  have hnew : rows.filter (·.provenance = .program) = rows := by
    rw [List.filter_eq_self]
    intro row hrow
    simpa using hprogram row hrow
  rw [size, size, temporaries, hrows, List.filter_append, hold, hnew,
    List.length_append, List.nil_append]

/-- Simplified code that writes over its temporaries needs at most one for
each operator of the text, and code with fresh ones needs at least as many. -/
theorem temporaries_le_operators_le_temporaries
    {source : String} {c : Compiled} {code : List Command}
    {table : SymbolTable}
    (hcompile : compile source = .ok c)
    (hoptimal : c.generate .optimal = .ok (code, table)) :
    table.temporaries ≤ operatorsIn source ∧
      ∃ plainCode plainTable,
        c.generate .plain = .ok (plainCode, plainTable) ∧
        operatorsIn source ≤ plainTable.temporaries := by
  rcases exists_isSound hcompile with ⟨parsed, hsound⟩
  have hleaves := leafCount_of_compile hcompile
  rcases hsound.isExpression.analyze_castsOneSide hsound.analyzed with
    ⟨hside, hcast⟩
  constructor
  · rcases hsound.generate_cases .optimal with
      ⟨e, _, hgenerate⟩ | ⟨prepared, lowered, hprepare, hlower,
        hlinked, hgenerate⟩
    · rw [hgenerate] at hoptimal
      contradiction
    · obtain ⟨rfl, rfl⟩ : lowered.code = code ∧ lowered.table = table := by
        rw [hgenerate] at hoptimal
        simpa using hoptimal
      have hoptimize := Success.mapError_eq_ok_iff.mp hprepare
      rcases hside.simplifyIn hsound.consistent.hasTypedLeaves
        (Tree.optimize_eq_ok hoptimize).1 with ⟨hprepared, hroot⟩
      have hsize :=
        (hsound.consistent.prepare hprepare).1.size_of_lower_optimal_lt
          hprepared hlower
      have hcount := hsound.consistent.leafCount_prepare_le hprepare
      have hrows := hlinked.addsTemporaries.size_eq hsound.isUser
      have hnoCast : prepared.isCast = false := by
        rw [Bool.eq_false_iff]
        exact fun hprepared =>
          Bool.false_ne_true (hcast.symm.trans (hroot hprepared))
      simp only [hnoCast, Bool.false_eq_true, if_false] at hsize
      omega
  · rcases hsound.generate_cases .plain with
      ⟨e, hprepare, _⟩ | ⟨prepared, lowered, hprepare, hlower,
        hlinked, hgenerate⟩
    · contradiction
    · obtain rfl : c.tree = prepared := Except.ok.inj hprepare
      refine ⟨lowered.code, lowered.table, hgenerate, ?_⟩
      have hsize := Tree.size_of_lower_plain hlower
      have hcount := c.tree.leafCount_le_operatorCount
      have hrows := hlinked.addsTemporaries.size_eq hsound.isUser
      omega

/-- Both variables are converted for the folded quotient: there are more
commands than operators, but fewer temporaries. -/
theorem temporaries_le_operators_folded_quotient :
    ∃ c code table plainCode plainTable, compile "a + b * (6 / 4)" = .ok c ∧
      c.generate .optimal = .ok (code, table) ∧
      c.generate .plain = .ok (plainCode, plainTable) ∧
      code.length = 4 ∧ table.temporaries = 2 ∧
      table.temporaries ≤ operatorsIn "a + b * (6 / 4)" ∧
      operatorsIn "a + b * (6 / 4)" ≤ plainTable.temporaries := by
  have hsizes : (compile "a + b * (6 / 4)").toOption.map (fun c =>
      (c.generate .optimal).toOption.map fun out =>
        (out.1.length, out.2.temporaries)) =
      some (some (4, 2)) := by
    decide +kernel
  obtain ⟨c, hcompile, hc⟩ := Success.exists_of_toOption hsizes
  obtain ⟨⟨code, table⟩, hoptimal, hout⟩ := Success.exists_of_toOption hc
  obtain ⟨hlength, htemporaries⟩ := Prod.mk.inj hout
  obtain ⟨hle, plainCode, plainTable, hplain, hge⟩ :=
    temporaries_le_operators_le_temporaries hcompile hoptimal
  exact ⟨c, code, table, plainCode, plainTable, hcompile, hoptimal, hplain,
    hlength, htemporaries, hle, hge⟩

end ThreeAddress
