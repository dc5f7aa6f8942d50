import ThreeAddress.Proofs.GeneratedCode

/-!
# The size of generated code

Operators stand between operands, so that a text of `n` characters has at most
`(n + 1) / 2` operands.  Typing adds conversions, but never one within what is
converted, and simplification takes operands away.  The code and its table are
therefore bounded by the length of the text, with a factor below two.
-/

namespace ThreeAddress

/-! ## Operands and tokens -/

theorem Lexeme.length_extend_le
    (start : Nat) (c : Char) (rest : List Lexeme) :
    (extend start c rest).length ≤ rest.length + 1 := by
  unfold extend
  split
  · split
    · exact Nat.le_succ _
    · exact le_rfl
  · exact le_rfl

theorem Lexeme.length_cut_le
    (start : Nat) (text : List Char) :
    (cut start text).length ≤ text.length := by
  induction text generalizing start with
  | nil => exact le_rfl
  | cons c rest ih =>
      have hrest := ih (start + 1)
      rw [cut, List.length_cons]
      split
      · exact hrest.trans (Nat.le_succ _)
      · split
        · exact Nat.succ_le_succ hrest
        · exact (length_extend_le start c _).trans (Nat.succ_le_succ hrest)

theorem Lexeme.length_of_readAll
    {lexemes : List Lexeme} {table after : SymbolTable}
    {tokens : List Token}
    (h : readAll table lexemes = .ok (tokens, after)) :
    tokens.length = lexemes.length := by
  induction lexemes generalizing table tokens with
  | nil =>
      obtain ⟨rfl, _⟩ := readAll_nil_eq_ok h
      rfl
  | cons lexeme rest ih =>
      rcases readAll_cons_eq_ok h with ⟨token, middle, others, _, hrest, rfl⟩
      rw [List.length_cons, List.length_cons, ih hrest]

theorem length_tokens_le
    {source : String} {tokens : List Token} {table : SymbolTable}
    (h : scan source = .ok (tokens, table)) :
    tokens.length ≤ source.length := by
  rw [Lexeme.length_of_readAll h, ← String.length_toList]
  exact Lexeme.length_cut_le 1 source.toList

namespace Tree

def leafCount : Tree → Nat
  | .leaf _ _ => 1
  | .leftOnly _ _ l => l.leafCount
  | .rightOnly _ _ r => r.leafCount
  | .binary _ _ l r => l.leafCount + r.leafCount

/-- The number of operators, conversions among them. -/
def operatorCount : Tree → Nat
  | .leaf _ _ => 0
  | .leftOnly _ _ l => l.operatorCount + 1
  | .rightOnly _ _ r => r.operatorCount + 1
  | .binary _ _ l r => l.operatorCount + r.operatorCount + 1

theorem leafCount_pos
    (tree : Tree) :
    0 < tree.leafCount := by
  induction tree with
  | leaf t res => exact Nat.one_pos
  | leftOnly t res l ih | rightOnly t res r ih => exact ih
  | binary t res l r ihl ihr => exact Nat.add_pos_left ihl _

end Tree

theorem Derives.countP_isOperand
    {phrase : Phrase} {tokens : List Token} {tree : Tree}
    (h : Derives phrase tokens tree) :
    tokens.countP Token.isOperand = tree.leafCount ∧
      2 * tree.leafCount ≤ tokens.length + 1 := by
  induction h with
  | operand hoperand =>
      refine ⟨?_, le_rfl⟩
      rw [List.countP_singleton, if_pos hoperand]
      rfl
  | bracketed hopening hclosing hinner ih =>
      have hfirst := Token.isOperand_of_bracket? hopening
      have hlast := Token.isOperand_of_bracket? hclosing
      refine ⟨?_, by simp; omega⟩
      simpa [List.countP_cons, hfirst, hlast] using ih.1
  | ofFactor hfactor ih | ofTerm hterm ih => exact ih
  | product hleft htoken hop hright ihl ihr
  | sum hleft htoken hop hright ihl ihr =>
      have hoperator := Token.isOperand_of_operator? htoken
      rw [Tree.join, Tree.leafCount]
      refine ⟨?_, by simp; omega⟩
      rw [List.countP_append, List.countP_cons, hoperator, ihl.1, ihr.1]
      rfl

namespace Tree

/-! ## Typing -/

@[simp] theorem leafCount_castInteger
    (tree : Tree) :
    tree.castInteger.leafCount = tree.leafCount := by
  unfold castInteger
  split <;> rfl

theorem leafCount_resolve
    (tree : Tree) :
    tree.resolve.leafCount = tree.leafCount := by
  cases tree with
  | leaf t res | leftOnly t res l | rightOnly t res r => rfl
  | binary t res l r =>
      rw [resolve]
      split
      · rfl
      · split
        · rfl
        · simp [leafCount]

theorem IsExpression.leafCount_analyze
    {tree tree' : Tree}
    (htree : tree.IsExpression)
    (h : tree.analyze = .ok tree') :
    tree'.leafCount = tree.leafCount := by
  induction tree generalizing tree' with
  | leaf t res =>
      obtain rfl : ofToken t = tree' := by simpa [analyze, resolve] using h
      rfl
  | leftOnly t res l ih | rightOnly t res r ih => exact htree.elim
  | binary t res l r ihl ihr =>
      rcases htree with ⟨ht, _, hl, hr⟩
      rcases analyze_binary_eq_ok h with ⟨_, l', r', hl', hr', rfl⟩
      rw [leafCount_resolve, leafCount, leafCount, ihl hl hl', ihr hr hr']

/-- What is converted has no conversions in it, so that there is at most one
for each operand. -/
theorem Consistent.operatorCount_lt
    {tree : Tree}
    (h : tree.Consistent) :
    tree.operatorCount + 1 ≤ 2 * tree.leafCount ∧
      (tree.result = .integer → tree.operatorCount + 1 ≤ tree.leafCount) := by
  induction tree with
  | leaf t res => simp [operatorCount, leafCount]
  | leftOnly t res l ih => exact h.elim
  | rightOnly t res r ih =>
      rcases h with ⟨_, rfl, hinteger, hr⟩
      have hcount := (ih hr).2 hinteger
      have hpos := r.leafCount_pos
      simp only [operatorCount, leafCount]
      refine ⟨by omega, fun hfloat => ?_⟩
      contradiction
  | binary t res l r ihl ihr =>
      rcases h with ⟨_, hresl, hresr, hl, hr⟩
      rcases ihl hl with ⟨hfloatl, hintegerl⟩
      rcases ihr hr with ⟨hfloatr, hintegerr⟩
      simp only [operatorCount, leafCount, result]
      refine ⟨by omega, fun hinteger => ?_⟩
      have hcountl := hintegerl (hresl.trans hinteger)
      have hcountr := hintegerr (hresr.trans hinteger)
      omega

/-! ## Simplification -/

theorem leafCount_right?_le
    {tree r : Tree}
    (h : tree.right? = some r) :
    r.leafCount ≤ tree.leafCount := by
  cases tree with
  | leaf t res | leftOnly t res l => simp [right?] at h
  | rightOnly t res r' =>
      rw [← Option.some.inj h]
      exact le_rfl
  | binary t res l r' =>
      rw [← Option.some.inj h]
      exact Nat.le_add_left _ _

theorem Rewrites.leafCount_le
    {node tree : Tree}
    (h : Rewrites node tree) :
    tree.leafCount ≤ node.leafCount := by
  cases h with
  | @folded t res l r op a b size ht hl hr hfoldable hsize =>
      have hl := l.leafCount_pos
      have hr := r.leafCount_pos
      cases (op.apply a.value b.value).isNonneg with
      | true =>
          change 1 ≤ l.leafCount + r.leafCount
          omega
      | false =>
          change 2 ≤ l.leafCount + r.leafCount
          omega
  | @converted t res r a literal ht hr hliteral => exact r.leafCount_pos
  | dropped ht hr => exact le_rfl
  | @identity t res l r tree op ht hidentity =>
      have hl := l.leafCount_pos
      have hone : tree.leafCount = 1 := by
        rcases hidentity.leaves with ⟨rfl, _⟩ | ⟨rfl, _⟩ | ⟨type, rfl⟩
        · rfl
        · rfl
        · rfl
      rw [hone, leafCount]
      omega

theorem ReducesCast.leafCount_le
    {child tree : Tree}
    (h : ReducesCast child tree) :
    tree.leafCount ≤ child.leafCount := by
  rcases h with rfl | ⟨_, hrewrites⟩
  · exact le_rfl
  · exact hrewrites.leafCount_le

theorem leafCount_dropCast_le
    {tree tree' : Tree} {other : Resolution}
    (h : (if tree.isCast ∧ other = .integer then tree.right? else some tree) =
      some tree') :
    tree'.leafCount ≤ tree.leafCount := by
  split at h
  · exact leafCount_right?_le h
  · rw [Option.some.inj h]

theorem settle_binary_leafCount_le
    {slot : Slot} {t : Token} {res : Resolution} {l r tree : Tree}
    (ht : t.IsArithmetic)
    (hl : l.Consistent)
    (hr : r.Consistent)
    (h : settle slot (.binary t res l r) = .ok tree) :
    tree.leafCount ≤ l.leafCount + r.leafCount := by
  rcases resolve_dropRedundantCasts ht res hl hr with
    ⟨res', l', r', hresolve, hresolved, _⟩
  rcases hl.dropCast r.result with ⟨left, hdropl, _⟩
  rcases hr.dropCast l.result with ⟨right, hdropr, _⟩
  have hcount :
      l'.leafCount + r'.leafCount = left.leafCount + right.leafCount := by
    have hleaves := congrArg leafCount hresolve
    rw [leafCount_resolve] at hleaves
    simpa only [dropRedundantCasts, hdropl, hdropr, ofParts, leafCount]
      using hleaves.symm
  rcases settle_binary_cases ht hresolve hresolved.2.2.2.1
    hresolved.2.2.2.2 h with
    ⟨l₁, r₁, hl₁, hr₁, hrule⟩
  have hnode : tree.leafCount ≤ l₁.leafCount + r₁.leafCount := by
    rcases hrule with rfl | hrewrites
    · exact le_rfl
    · exact hrewrites.leafCount_le
  have hleft := leafCount_dropCast_le hdropl
  have hright := leafCount_dropCast_le hdropr
  have hleft₁ := hl₁.leafCount_le
  have hright₁ := hr₁.leafCount_le
  omega

theorem settle_cast_leafCount_le
    {slot : Slot} {t : Token} {res : Resolution} {r tree : Tree}
    (ht : t.operator? = some .toFloat)
    (hr : r.Consistent)
    (h : settle slot (.rightOnly t res r) = .ok tree) :
    tree.leafCount ≤ r.leafCount := by
  rcases settle_cast_cases ht hr h with ⟨r₁, hr₁, hrule⟩
  rcases hrule with ⟨rfl, _⟩ | hrewrites
  · exact hr₁.leafCount_le
  · exact hrewrites.leafCount_le.trans hr₁.leafCount_le

theorem simplifyIn_leafCount_le
    {slot : Slot} {tree tree' : Tree}
    (htree : tree.HasTypedLeaves)
    (h : simplifyIn slot tree = .ok tree') :
    tree'.leafCount ≤ tree.leafCount := by
  induction tree generalizing slot tree' with
  | leaf t res =>
      obtain rfl : .leaf t res = tree' := by simpa [simplifyIn] using h
      exact le_rfl
  | leftOnly t res l ih => exact htree.elim
  | rightOnly t res r ih =>
      rcases htree with ⟨ht, hr⟩
      rcases simplifyIn_cast_eq_ok_iff.mp h with ⟨r', hr', hsettle⟩
      have hconsistent := (hr.simplifyIn_consistent hr').1
      exact (settle_cast_leafCount_le ht hconsistent hsettle).trans
        (ih hr hr')
  | binary t res l r ihl ihr =>
      rcases htree with ⟨ht, hl, hr⟩
      rcases simplifyIn_binary_eq_ok_iff.mp h with ⟨l', r', hl', hr', hsettle⟩
      have hsettled :=
        settle_binary_leafCount_le ht (hl.simplifyIn_consistent hl').1
        (hr.simplifyIn_consistent hr').1 hsettle
      exact hsettled.trans (Nat.add_le_add (ihl hl hl') (ihr hr hr'))

theorem Consistent.leafCount_prepare_le
    {mode : Mode} {tree prepared : Tree}
    (htree : tree.Consistent)
    (h : Tree.prepare mode tree = .ok prepared) :
    prepared.leafCount ≤ tree.leafCount := by
  cases mode with
  | plain => rw [← Except.ok.inj h]
  | optimal =>
      have hoptimize := Success.mapError_eq_ok_iff.mp h
      exact simplifyIn_leafCount_le htree.hasTypedLeaves
        (optimize_eq_ok hoptimize).1

/-! ## Code -/

theorem length_code_of_emit
    {mode : Mode} {t : Token} {res : Resolution} {left right : Option Token}
    {code : List Command} {table : SymbolTable} {lowered : Lowered}
    (h : emit mode t res left right code table = .ok lowered) :
    lowered.code.length = code.length + 1 := by
  rcases emit_eq_ok h with ⟨type, command, _, _, rfl⟩
  simp

theorem length_code_of_lower
    {mode : Mode} {tree : Tree} {table : SymbolTable} {lowered : Lowered}
    (h : lower mode tree table = .ok lowered) :
    lowered.code.length = tree.operatorCount := by
  induction tree generalizing table lowered with
  | leaf t res =>
      obtain rfl : ⟨t, [], table⟩ = lowered := Except.ok.inj h
      rfl
  | leftOnly t res child ih | rightOnly t res child ih =>
      rcases Success.bind_eq_ok_iff.mp h with ⟨operand, hoperand, hemit⟩
      rw [length_code_of_emit hemit, ih hoperand, operatorCount]
  | binary t res l r ihl ihr =>
      rcases Success.bind_eq_ok_iff.mp h with ⟨left, hleft, h⟩
      rcases Success.bind_eq_ok_iff.mp h with ⟨right, hright, hemit⟩
      rw [length_code_of_emit hemit, List.length_append, ihl hleft,
        ihr hright, operatorCount]

end Tree

/-- There is at most one symbol for each operand, and one operand for every
two characters, with one more at the end. -/
theorem two_mul_leafCount_le
    {source : String} {c : Compiled}
    (h : compile source = .ok c) :
    c.symbols.size ≤ c.tree.leafCount ∧
      2 * c.tree.leafCount ≤ source.length + 1 := by
  rcases exists_isSound h with ⟨parsed, hsound⟩
  have hscan := scan_of_compile h
  rcases (hsound.derives h).countP_isOperand with ⟨hcount, htokens⟩
  have hanalyzed := hsound.isExpression.leafCount_analyze hsound.analyzed
  have hsymbols := (scan_built hscan).2
  have hlength := length_tokens_le hscan
  omega

/-- The table of generated code has less than twice as many rows as the text
has characters. -/
theorem two_mul_size_le
    {source : String} {c : Compiled} {mode : Mode} {prepared : Tree}
    {lowered : Tree.Lowered}
    (hcompile : compile source = .ok c)
    (hprepare : Tree.prepare mode c.tree = .ok prepared)
    (hlower : Tree.lower mode prepared c.symbols = .ok lowered)
    (hlinked : Tree.IsLinked c.symbols lowered) :
    2 * lowered.table.size ≤ 3 * source.length + 1 := by
  rcases exists_isSound hcompile with ⟨parsed, hsound⟩
  rcases two_mul_leafCount_le hcompile with ⟨hsymbols, hleaves⟩
  have hprepared := hsound.consistent.leafCount_prepare_le hprepare
  have hoperators := (hsound.consistent.prepare hprepare).1.operatorCount_lt.1
  have hsize := hlinked.size_le
  rw [Tree.length_code_of_lower hlower] at hsize
  omega

end ThreeAddress
