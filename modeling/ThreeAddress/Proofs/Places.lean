import ThreeAddress.Command.Generate
import ThreeAddress.Proofs.Acceptance

/-!
# Places in the source text do not matter

Tokens know where they stand, but only errors tell.  A tree is typed and
simplified in the same way whatever the places of its tokens are: doing it
without them comes to the same tree without places, or to the same error but
for the place that it cites.
-/

namespace ThreeAddress

/-! ## Without places -/

/-- The token without its place. -/
def Token.unplaced (t : Token) : Token := .synthesized t.kind

def Tree.unplaced : Tree → Tree
  | .leaf t res => .leaf t.unplaced res
  | .leftOnly t res l => .leftOnly t.unplaced res l.unplaced
  | .rightOnly t res r => .rightOnly t.unplaced res r.unplaced
  | .binary t res l r => .binary t.unplaced res l.unplaced r.unplaced

def Tree.Slot.unplaced : Slot → Slot
  | .operand => .operand
  | .divisor _ => .divisor none

def GrammarFault.unplaced : GrammarFault → GrammarFault
  | .empty => .empty
  | .leadingOperator t => .leadingOperator t.unplaced
  | .leadingClosing t => .leadingClosing t.unplaced
  | .trailingOperator t => .trailingOperator t.unplaced
  | .trailingOpening t => .trailingOpening t.unplaced
  | .expectedOperator t => .expectedOperator t.unplaced
  | .expectedOperand t => .expectedOperand t.unplaced
  | .unmatchedClosing t => .unmatchedClosing t.unplaced
  | .unmatchedOpening t => .unmatchedOpening t.unplaced

def SimplifyFault.unplaced : SimplifyFault → SimplifyFault
  | .divisionByZero _ => .divisionByZero none
  | .overflow _ operation => .overflow none operation
  | .degenerate t => .degenerate t.unplaced

/-- The error without the places that it cites. -/
def Error.unplaced : Error → Error
  | .lexical _ fault => .lexical 0 fault
  | .grammar fault => .grammar fault.unplaced
  | .semantic _ fault => .semantic 0 fault
  | .simplify fault => .simplify fault.unplaced
  | .internal (.notBuildable t) => .internal (.notBuildable t.unplaced)
  | .internal (.unresolved t) => .internal (.unresolved t.unplaced)
  | .internal (.noCommands t) => .internal (.noCommands t.unplaced)
  | e => e

def Halted.unplaced (h : Halted) : Halted :=
  ⟨h.error.unplaced, h.tree.unplaced⟩

namespace Token

@[simp] theorem kind_unplaced
    (t : Token) :
    t.unplaced.kind = t.kind := rfl

@[simp] theorem operator?_unplaced
    (t : Token) :
    t.unplaced.operator? = t.operator? := rfl

@[simp] theorem bracket?_unplaced
    (t : Token) :
    t.unplaced.bracket? = t.bracket? := rfl

@[simp] theorem number?_unplaced
    (t : Token) :
    t.unplaced.number? = t.number? := rfl

@[simp] theorem isOperand_unplaced
    (t : Token) :
    t.unplaced.isOperand = t.isOperand := rfl

@[simp] theorem isZero_unplaced
    (t : Token) :
    t.unplaced.isZero = t.isZero := rfl

theorem unplaced_eq_iff
    {t t' : Token} :
    t.unplaced = t'.unplaced ↔ t.kind = t'.kind := by
  simp [unplaced, synthesized]

end Token

namespace Tree

@[simp] theorem token_unplaced
    (tree : Tree) :
    tree.unplaced.token = tree.token.unplaced := by
  cases tree <;> rfl

@[simp] theorem result_unplaced
    (tree : Tree) :
    tree.unplaced.result = tree.result := by
  cases tree <;> rfl

@[simp] theorem left?_unplaced
    (tree : Tree) :
    tree.unplaced.left? = tree.left?.map unplaced := by
  cases tree <;> rfl

@[simp] theorem right?_unplaced
    (tree : Tree) :
    tree.unplaced.right? = tree.right?.map unplaced := by
  cases tree <;> rfl

@[simp] theorem isLeaf_unplaced
    (tree : Tree) :
    tree.unplaced.isLeaf = tree.isLeaf := by
  cases tree <;> rfl

@[simp] theorem isCast_unplaced
    (tree : Tree) :
    tree.unplaced.isCast = tree.isCast := by
  cases tree <;> rfl

@[simp] theorem unplaced_ofParts
    (t : Token) (res : Resolution) (l r : Option Tree) :
    (ofParts t res l r).unplaced =
      ofParts t.unplaced res (l.map unplaced) (r.map unplaced) := by
  cases l <;> cases r <;> rfl

@[simp] theorem unplaced_withChildren
    (node : Tree) (l r : Option Tree) :
    (node.withChildren l r).unplaced =
      node.unplaced.withChildren (l.map unplaced) (r.map unplaced) := by
  simp [withChildren]

end Tree

/-! ## Parsing -/

theorem exists_split_of_unplaced_eq
    {tokens before after : List Token} {t : Token}
    (h : tokens.map Token.unplaced =
      (before ++ t :: after).map Token.unplaced) :
    ∃ before' t' after', tokens = before' ++ t' :: after' ∧
      before'.map Token.unplaced = before.map Token.unplaced ∧
      t'.unplaced = t.unplaced ∧
      after'.map Token.unplaced = after.map Token.unplaced := by
  rw [List.map_append, List.map_cons] at h
  rcases List.map_eq_append_iff.mp h with
    ⟨before', behind, rfl, hbefore, hbehind⟩
  rcases List.map_eq_cons_iff.mp hbehind with ⟨t', after', rfl, ht, hafter⟩
  exact ⟨before', t', after', rfl, hbefore, ht, hafter⟩

/-- Tokens with other places have a tree of the same shape. -/
theorem Derives.exists_of_unplaced_eq
    {phrase : Phrase} {tokens tokens' : List Token} {tree : Tree}
    (h : Derives phrase tokens tree)
    (hsame : tokens'.map Token.unplaced = tokens.map Token.unplaced) :
    ∃ tree', Derives phrase tokens' tree' ∧
      tree'.unplaced = tree.unplaced := by
  induction h generalizing tokens' with
  | operand hoperand =>
      rcases List.map_eq_singleton_iff.mp hsame with ⟨t', rfl, ht⟩
      rw [← Token.isOperand_unplaced, ← ht,
        Token.isOperand_unplaced] at hoperand
      exact ⟨.ofToken t', .operand hoperand, congrArg Tree.ofToken ht⟩
  | bracketed hopening hclosing hinner ih =>
      rcases exists_split_of_unplaced_eq hsame with
        ⟨front, last, behind, rfl, hfront, hlast, hnil⟩
      rcases List.map_eq_cons_iff.mp hfront with
        ⟨first, ts', rfl, hfirst, hts⟩
      obtain rfl : behind = [] := by simpa using hnil
      rw [← Token.bracket?_unplaced, ← hfirst,
        Token.bracket?_unplaced] at hopening
      rw [← Token.bracket?_unplaced, ← hlast,
        Token.bracket?_unplaced] at hclosing
      rcases ih hts with ⟨tree', hderives, htree⟩
      exact ⟨tree', .bracketed hopening hclosing hderives, htree⟩
  | ofFactor hfactor ih =>
      rcases ih hsame with ⟨tree', hderives, htree⟩
      exact ⟨tree', .ofFactor hderives, htree⟩
  | ofTerm hterm ih =>
      rcases ih hsame with ⟨tree', hderives, htree⟩
      exact ⟨tree', .ofTerm hderives, htree⟩
  | product hleft htoken hop hright ihl ihr =>
      rcases exists_split_of_unplaced_eq hsame with
        ⟨ls', t', rs', rfl, hls, ht, hrs⟩
      rw [← Token.operator?_unplaced, ← ht,
        Token.operator?_unplaced] at htoken
      rcases ihl hls with ⟨l', hl', hl⟩
      rcases ihr hrs with ⟨r', hr', hr⟩
      refine ⟨.join t' l' r', .product hl' htoken hop hr', ?_⟩
      simp only [Tree.join, Tree.unplaced, ht, hl, hr]
  | sum hleft htoken hop hright ihl ihr =>
      rcases exists_split_of_unplaced_eq hsame with
        ⟨ls', t', rs', rfl, hls, ht, hrs⟩
      rw [← Token.operator?_unplaced, ← ht,
        Token.operator?_unplaced] at htoken
      rcases ihl hls with ⟨l', hl', hl⟩
      rcases ihr hrs with ⟨r', hr', hr⟩
      refine ⟨.join t' l' r', .sum hl' htoken hop hr', ?_⟩
      simp only [Tree.join, Tree.unplaced, ht, hl, hr]

namespace Tree

/-! ## Typing -/

theorem unplaced_castInteger
    (tree : Tree) :
    tree.castInteger.unplaced = tree.unplaced.castInteger := by
  unfold castInteger
  rw [result_unplaced]
  split <;> rfl

theorem unplaced_resolve
    (tree : Tree) :
    tree.resolve.unplaced = tree.unplaced.resolve := by
  cases tree with
  | leaf t res | leftOnly t res l | rightOnly t res r => rfl
  | binary t res l r =>
      simp only [resolve, unplaced, Token.operator?_unplaced, result_unplaced]
      split
      · rfl
      · split
        · rfl
        · simp only [unplaced, unplaced_castInteger]

theorem dividesByZero_unplaced
    (t : Token) (right : Tree) :
    dividesByZero t.unplaced right.unplaced = dividesByZero t right := by
  cases right <;> rfl

theorem analyze_unplaced
    (tree : Tree) :
    Success.bimap Halted.unplaced unplaced tree.analyze =
      tree.unplaced.analyze := by
  induction tree with
  | leaf t res => rfl
  | leftOnly t res l ih =>
      refine Success.bimap_bind (Success.bimap_mapError ih fun e => rfl)
        fun l' => ?_
      exact congrArg Except.ok (unplaced_resolve _)
  | rightOnly t res r ih =>
      rw [unplaced, analyze, analyze, dividesByZero_unplaced]
      split
      · rfl
      · refine Success.bimap_bind (Success.bimap_mapError ih fun e => rfl)
          fun r' => ?_
        exact congrArg Except.ok (unplaced_resolve _)
  | binary t res l r ihl ihr =>
      rw [unplaced, analyze, analyze, dividesByZero_unplaced]
      split
      · rfl
      · refine Success.bimap_bind (Success.bimap_mapError ihl fun e => rfl)
          fun l' => ?_
        refine Success.bimap_bind (Success.bimap_mapError ihr fun e => rfl)
          fun r' => ?_
        exact congrArg Except.ok (unplaced_resolve _)

theorem exists_analyze_of_unplaced_eq
    {tree tree' typed : Tree}
    (h : tree.analyze = .ok typed)
    (hsame : tree'.unplaced = tree.unplaced) :
    ∃ typed', tree'.analyze = .ok typed' ∧
      typed'.unplaced = typed.unplaced := by
  have hanalyze := tree'.analyze_unplaced
  rw [hsame, ← tree.analyze_unplaced, h] at hanalyze
  exact Success.bimap_eq_ok_iff.mp hanalyze

/-! ## Simplification -/

theorem unplaced_ofSigned
    (type : ValueType) (negative : Bool) (size : Literal) :
    (ofSigned type negative size).unplaced = ofSigned type negative size := by
  cases negative <;> rfl

theorem fold_unplaced
    (t : Token) (res : Resolution) (op : Operator) (l r : Literal) :
    Success.bimap Error.unplaced unplaced (fold t res op l r) =
      fold t.unplaced res op l r := by
  unfold fold
  dsimp only
  split
  · refine Success.bimap_bind (f := Error.unplaced) (g := id) ?_
      fun size => ?_
    · cases magnitude (foldedType op res) (op.apply l.value r.value) <;> rfl
    · exact congrArg Except.ok (unplaced_ofSigned _ _ _)
  · rfl

theorem number?_unplaced
    (child : Option Tree) :
    (child.map unplaced).bind (·.token.number?) =
      child.bind (·.token.number?) := by
  cases child with
  | none => rfl
  | some tree => cases tree <;> rfl

theorem operator?_unplaced
    (node : Tree) :
    node.unplaced.operator? = node.operator? := by
  cases node <;> rfl

theorem foldConstants_unplaced
    (node : Tree) :
    Success.bimap Error.unplaced (Option.map unplaced) node.foldConstants =
      node.unplaced.foldConstants := by
  unfold foldConstants
  rw [left?_unplaced, right?_unplaced, number?_unplaced, number?_unplaced,
    operator?_unplaced, token_unplaced, result_unplaced]
  split
  · exact Success.bimap_map (fold_unplaced _ _ _ _ _) fun tree => rfl
  · rfl

theorem foldCast_unplaced
    (node : Tree) :
    Success.bimap Error.unplaced (Option.map unplaced) node.foldCast =
      node.unplaced.foldCast := by
  unfold foldCast
  rw [right?_unplaced, number?_unplaced, isCast_unplaced]
  split
  · next literal _ _ =>
      refine Success.bimap_map (g := id) ?_ fun tree => rfl
      cases Literal.ofSingle literal.value <;> rfl
  · rfl

theorem floatOperand?_unplaced
    (node : Tree) :
    node.floatOperand?.map unplaced = node.unplaced.floatOperand? := by
  unfold floatOperand?
  rw [isCast_unplaced, right?_unplaced]
  split
  · cases node.right? with
    | none => rfl
    | some r =>
        by_cases hfloat : r.result = .float <;> simp [Option.filter, hfloat]
  · rfl

theorem identity?_unplaced
    (op : Operator) (left right : Token) :
    (identity? op left right).map unplaced =
      identity? op left.unplaced right.unplaced := by
  unfold identity?
  rw [Token.kind_unplaced, Token.kind_unplaced]
  split
  · cases op with
    | add | subtract | divide => dsimp only; split <;> rfl
    | multiply =>
        dsimp only
        split
        · rfl
        · split <;> rfl
    | toFloat => rfl
  · cases op with
    | add => dsimp only; split <;> rfl
    | multiply =>
        dsimp only
        split
        · rfl
        · split <;> rfl
    | subtract | divide | toFloat => rfl
  · split <;> rfl
  · rfl

theorem applyIdentity?_unplaced
    (node : Tree) :
    node.applyIdentity?.map unplaced = node.unplaced.applyIdentity? := by
  unfold applyIdentity?
  rw [left?_unplaced, right?_unplaced, operator?_unplaced]
  cases node.left? with
  | none => rfl
  | some l =>
      cases node.right? with
      | none => rfl
      | some r =>
          cases node.operator? with
          | none => rfl
          | some op =>
              simp only [Option.map_some, token_unplaced]
              exact identity?_unplaced op l.token r.token

theorem replacement?_unplaced
    (node : Tree) :
    Success.bimap Error.unplaced (Option.map unplaced) node.replacement? =
      node.unplaced.replacement? := by
  refine Success.bimap_bind (foldConstants_unplaced node) fun folded => ?_
  cases folded with
  | some tree => rfl
  | none =>
      refine Success.bimap_bind (foldCast_unplaced node) fun folded => ?_
      cases folded with
      | some tree => rfl
      | none =>
          refine congrArg Except.ok ?_
          rw [← floatOperand?_unplaced, ← applyIdentity?_unplaced,
            Option.map_or]

theorem reduceNode_unplaced
    (slot : Slot) (node : Tree) :
    Success.bimap Error.unplaced unplaced (node.reduceNode slot) =
      node.unplaced.reduceNode slot.unplaced := by
  refine Success.bimap_bind (replacement?_unplaced node) fun replaced => ?_
  cases replaced with
  | none => rfl
  | some tree =>
      cases slot with
      | operand => rfl
      | divisor position =>
          simp only [Option.map_some, Slot.unplaced, token_unplaced,
            Token.isZero_unplaced]
          split <;> rfl

theorem reduceCast_unplaced
    (slot : Slot) (child : Option Tree) :
    Success.bimap Error.unplaced (Option.map unplaced)
        (reduceCast slot child) =
      reduceCast slot.unplaced (child.map unplaced) := by
  cases child with
  | none => rfl
  | some child =>
      rw [Option.map_some, reduceCast, reduceCast, isCast_unplaced]
      split
      · exact Success.bimap_map (reduceNode_unplaced slot child)
          fun tree => rfl
      · rfl

theorem unplaced_dropRedundantCasts
    (node : Tree) :
    node.dropRedundantCasts.unplaced = node.unplaced.dropRedundantCasts := by
  cases node with
  | leaf t res | leftOnly t res l | rightOnly t res r => rfl
  | binary t res l r =>
      simp only [dropRedundantCasts, unplaced, unplaced_ofParts,
        isCast_unplaced, result_unplaced, right?_unplaced]
      congr 1
      · split <;> rfl
      · split <;> rfl

theorem Slot.unplaced_ofRight
    (t : Token) :
    (Slot.ofRight t).unplaced = Slot.ofRight t.unplaced := by
  unfold ofRight
  rw [Token.operator?_unplaced]
  split <;> rfl

theorem settle_unplaced
    (slot : Slot) (node : Tree) :
    Success.bimap Halted.unplaced unplaced (settle slot node) =
      settle slot.unplaced node.unplaced := by
  unfold settle
  rw [← unplaced_dropRedundantCasts, ← unplaced_resolve]
  generalize node.dropRedundantCasts.resolve = node
  dsimp only
  rw [left?_unplaced, right?_unplaced]
  refine Success.bimap_bind
    (Success.bimap_mapError (reduceCast_unplaced .operand _) fun e => rfl)
    fun left => ?_
  rw [← unplaced_withChildren]
  generalize node.withChildren left node.right? = node
  rw [token_unplaced, ← Slot.unplaced_ofRight, right?_unplaced,
    left?_unplaced]
  refine Success.bimap_bind (Success.bimap_mapError (reduceCast_unplaced _ _)
    fun e => rfl) fun right => ?_
  rw [← unplaced_withChildren]
  exact Success.bimap_mapError (reduceNode_unplaced slot _) fun e => rfl

theorem simplifyIn_unplaced
    (slot : Slot) (tree : Tree) :
    Success.bimap Halted.unplaced unplaced (simplifyIn slot tree) =
      simplifyIn slot.unplaced tree.unplaced := by
  induction tree generalizing slot with
  | leaf t res => rfl
  | leftOnly t res l ih =>
      refine Success.bimap_bind
        (Success.bimap_mapError (ih .operand) fun e => rfl) fun l' => ?_
      exact settle_unplaced slot _
  | rightOnly t res r ih =>
      rw [unplaced, simplifyIn, simplifyIn, ← Slot.unplaced_ofRight]
      refine Success.bimap_bind (Success.bimap_mapError (ih _) fun e => rfl)
        fun r' => ?_
      exact settle_unplaced slot _
  | binary t res l r ihl ihr =>
      rw [unplaced, simplifyIn, simplifyIn, ← Slot.unplaced_ofRight]
      refine Success.bimap_bind
        (Success.bimap_mapError (ihl .operand) fun e => rfl) fun l' => ?_
      refine Success.bimap_bind (Success.bimap_mapError (ihr _) fun e => rfl)
        fun r' => ?_
      exact settle_unplaced slot _

theorem optimize_unplaced
    (tree : Tree) :
    Success.bimap Halted.unplaced unplaced tree.optimize =
      tree.unplaced.optimize := by
  refine Success.bimap_bind (simplifyIn_unplaced .operand tree)
    fun simplified => ?_
  rw [isLeaf_unplaced, token_unplaced]
  split <;> rfl

theorem prepare_unplaced
    (mode : Mode) (tree : Tree) :
    Success.bimap Error.unplaced unplaced (prepare mode tree) =
      prepare mode tree.unplaced := by
  cases mode with
  | plain => rfl
  | optimal =>
      exact Success.bimap_mapError (optimize_unplaced tree) fun e => rfl

end Tree

end ThreeAddress
