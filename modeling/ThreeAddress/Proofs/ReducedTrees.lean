import ThreeAddress.Proofs.Failures
import ThreeAddress.Proofs.NodeTypes
import ThreeAddress.Proofs.Rebuilding

/-!
# What simplification leaves, and what it refuses

That no rule changes a simplified tree is a statement about the rules.  Here
it is read as one about the tree: which operations cannot occur in it.  A node
over two numbers is the one exception, since a negative number is written as a
difference.

A division by zero that simplification runs into is reported with a position.
It is handed down with the place of a divisor, and comes from the token of a
division; of a compiled expression these tokens are the marks of the source
text.
-/

namespace ThreeAddress

namespace Tree

/-- Nothing is left to be done at the root: neither a conversion, nor an
operation on numbers, nor an identity, and no divisor is zero. -/
structure IsReducedNode (node : Tree) : Prop where
  conversion : node.isCast = true → ∀ child,
    node.left? = some child ∨ node.right? = some child →
      child.token.number? = none ∧ child.result ≠ .float
  constants : ∀ t res l r a b,
    node = .binary t res l r → l.token.number? = some a →
    r.token.number? = some b →
      t.operator? = some .subtract ∧ a.isZero = true ∧
        ∃ q, b.value.quanta? = some q ∧ 0 < q
  identities : ∀ t res l r op,
    node = .binary t res l r → t.operator? = some op →
    ∀ tree, ¬AppliesIdentity op l.token r.token tree
  divisor : ∀ t res l r,
    node = .binary t res l r → t.operator? = some .divide →
    r.token.isZero = false

def IsReduced (tree : Tree) : Prop :=
  ∀ node ∈ tree.subtrees, node.IsReducedNode

/-! ## Settled operators -/

theorem AppliesIdentity.identity?_ne_none
    {op : Operator} {left right : Token} {tree : Tree}
    (h : AppliesIdentity op left right tree) :
    identity? op left right ≠ none := by
  cases h with
  | @zeroRight op _ _ id n hop hl hr hn =>
      have hl := Token.kind_of_identifier? hl
      have hr := Token.kind_of_number? hr
      rcases hop with rfl | rfl <;> simp [identity?, hl, hr, hn]
  | @oneRight op _ _ id n hop hl hr hn =>
      have hl := Token.kind_of_identifier? hl
      have hr := Token.kind_of_number? hr
      rcases hop with rfl | rfl
      · cases hzero : n.isZero <;> simp [identity?, hl, hr, hn, hzero]
      · simp [identity?, hl, hr, hn]
  | timesZero hl hr hn =>
      simp [identity?, Token.kind_of_identifier? hl,
        Token.kind_of_number? hr, hn]
  | zeroLeft hl hr hn | zeroTimes hl hr hn =>
      simp [identity?, Token.kind_of_number? hl,
        Token.kind_of_identifier? hr, hn]
  | @oneLeft _ _ id n hl hr hn =>
      have hl := Token.kind_of_number? hl
      have hr := Token.kind_of_identifier? hr
      cases hzero : n.isZero <;> simp [identity?, hl, hr, hn, hzero]
  | difference hl hr hattr =>
      simp [identity?, Token.kind_of_identifier? hl,
        Token.kind_of_identifier? hr, hattr]

theorem AppliesIdentity.number?_eq_none
    {op : Operator} {left right : Token} {tree : Tree}
    (h : AppliesIdentity op left right tree) :
    left.number? = none ∨ right.number? = none := by
  cases h with
  | zeroRight hop hl hr hn | oneRight hop hl hr hn =>
      exact .inl (Token.number?_of_identifier? hl)
  | timesZero hl hr hn | difference hl hr hattr =>
      exact .inl (Token.number?_of_identifier? hl)
  | zeroLeft hl hr hn | oneLeft hl hr hn | zeroTimes hl hr hn =>
      exact .inr (Token.number?_of_identifier? hr)

/-- Only a negative number is replaced by itself. -/
theorem Rewrites.eq_ofSigned
    {t : Token} {res : Resolution} {l r tree : Tree}
    (h : Rewrites (.binary t res l r) tree)
    (htree : tree = .binary t res l r) :
    ∃ op a b size, t.operator? = some op ∧ l.token.number? = some a ∧
      r.token.number? = some b ∧
      isFoldable (foldedType op res) (op.apply a.value b.value) = true ∧
      magnitude (foldedType op res) (op.apply a.value b.value) = .ok size ∧
      (op.apply a.value b.value).isNonneg = false ∧
      ofSigned (foldedType op res) true size = .binary t res l r := by
  cases h with
  | @folded _ _ _ _ op a b size ht hl hr hfoldable hsize =>
      cases hnonneg : (op.apply a.value b.value).isNonneg with
      | true =>
          rw [hnonneg] at htree
          contradiction
      | false =>
          rw [hnonneg] at htree
          exact ⟨op, a, b, size, ht, hl, hr, hfoldable, hsize, hnonneg, htree⟩
  | identity ht hidentity =>
      rcases hidentity.leaves with ⟨rfl, _⟩ | ⟨rfl, _⟩ | ⟨type, rfl⟩ <;>
        contradiction

theorem IsSettled.constants
    {t : Token} {res : Resolution} {l r : Tree} {a b : Literal}
    (hsettled : (Tree.binary t res l r).IsSettled)
    (hnode : (Tree.binary t res l r).Consistent)
    (hl : l.token.number? = some a)
    (hr : r.token.number? = some b) :
    t.operator? = some .subtract ∧ a.isZero = true ∧
      ∃ q, b.value.quanta? = some q ∧ 0 < q := by
  rcases reduceNode_cases hnode.isPlainNode (hsettled .operand) with
    ⟨_, hnone⟩ | hrewrites
  · rcases hnode.1 with ⟨op, hop, _⟩
    have hoperator : (Tree.binary t res l r).operator? = some op := hop
    have hfold := (replacement?_eq_none hnone).1
    simp [foldConstants, left?, right?, hoperator, hl, hr] at hfold
  · -- The node is computed to itself, as only a negative number is.
    rcases hrewrites.eq_ofSigned rfl with
      ⟨op, a', b', size, hop, hl', hr', hfoldable, hsize, hnegative, hsigned⟩
    have hfinite : (op.apply a'.value b'.value).isFinite = true :=
      (Bool.and_eq_true _ _ ▸ hfoldable).1
    rcases Single.isFinite_iff.mp hfinite with ⟨c, hc⟩
    have hworth := quanta?_size_of_folded hnode hop hl' hr' hc hfoldable hsize
    have hneg : ¬0 ≤ c := fun h => by
      simp [(Single.isNonneg_iff hc).mpr h] at hnegative
    obtain ⟨rfl, _, rfl, rfl⟩ := Tree.binary.inj hsigned
    obtain rfl := Option.some.inj hl
    obtain rfl := Option.some.inj hr
    refine ⟨rfl, ?_, _, hworth, by omega⟩
    cases foldedType op res <;> rfl

theorem IsSettled.not_appliesIdentity
    {t : Token} {res : Resolution} {l r tree : Tree} {op : Operator}
    (hsettled : (Tree.binary t res l r).IsSettled)
    (hnode : (Tree.binary t res l r).Consistent)
    (hop : t.operator? = some op) :
    ¬AppliesIdentity op l.token r.token tree := by
  intro hidentity
  rcases reduceNode_cases hnode.isPlainNode (hsettled .operand) with
    ⟨_, hnone⟩ | hrewrites
  · have hnone := (replacement?_eq_none hnone).2.2.2
    simp only [applyIdentity?, left?, right?, operator?, token, hop] at hnone
    exact hidentity.identity?_ne_none hnone
  · rcases hrewrites.eq_ofSigned rfl with ⟨_, a, b, _, _, hl, hr, _⟩
    rcases hidentity.number?_eq_none with hnone | hnone
    · simp [hnone] at hl
    · simp [hnone] at hr

/-! ## Every node of a simplified tree -/

theorem IsNormal.left?
    {tree l : Tree}
    (h : tree.IsNormal)
    (hl : tree.left? = some l) :
    l.IsNormal := by
  cases tree with
  | leaf t res | rightOnly t res r => simp [Tree.left?] at hl
  | leftOnly t res l' =>
      rw [← Option.some.inj hl]
      exact h.2
  | binary t res l' r =>
      rw [← Option.some.inj hl]
      exact h.2.1

theorem IsNormal.right?
    {tree r : Tree}
    (h : tree.IsNormal)
    (hr : tree.right? = some r) :
    r.IsNormal := by
  cases tree with
  | leaf t res | leftOnly t res l => simp [Tree.right?] at hr
  | rightOnly t res r' =>
      rw [← Option.some.inj hr]
      exact h.2
  | binary t res l r' =>
      rw [← Option.some.inj hr]
      exact h.2.2

theorem HasNoZeroDivisor.left?
    {tree l : Tree}
    (h : tree.HasNoZeroDivisor)
    (hl : tree.left? = some l) :
    l.HasNoZeroDivisor := by
  cases tree with
  | leaf t res | rightOnly t res r => simp [Tree.left?] at hl
  | leftOnly t res l' =>
      rw [← Option.some.inj hl]
      exact h
  | binary t res l' r =>
      rw [← Option.some.inj hl]
      exact h.2.1

theorem Consistent.isReducedNode
    {node : Tree}
    (hnode : node.Consistent)
    (hnormal : node.IsNormal)
    (hzero : node.HasNoZeroDivisor) :
    node.IsReducedNode := by
  constructor
  case conversion =>
    intro hcast child hchild
    rcases hnode.exists_of_isCast hcast with ⟨t, r, rfl, ht, hinteger, _⟩
    obtain rfl : r = child := by simpa [Tree.left?, Tree.right?] using hchild
    exact ⟨hnormal.number?_eq_none ht, by simp [hinteger]⟩
  case constants =>
    rintro t res l r a b rfl hl hr
    exact hnormal.isSettled.constants hnode hl hr
  case identities =>
    rintro t res l r op rfl hop tree
    exact hnormal.isSettled.not_appliesIdentity hnode hop
  case divisor =>
    rintro t res l r rfl hop
    simpa [dividesByZero, hop] using hzero.1

theorem Consistent.isReduced
    {tree : Tree}
    (htree : tree.Consistent)
    (hnormal : tree.IsNormal)
    (hzero : tree.HasNoZeroDivisor) :
    tree.IsReduced := by
  intro node hnode
  have hnormal' : node.IsNormal :=
    Tree.of_mem_subtrees (fun _ _ hl h => h.left? hl)
      (fun _ _ hr h => h.right? hr) hnormal hnode
  have hzero' : node.HasNoZeroDivisor :=
    Tree.of_mem_subtrees (fun _ _ hl h => h.left? hl)
      (fun _ _ hr h => h.right? hr) hzero hnode
  exact (htree.of_mem_subtrees hnode).isReducedNode hnormal' hzero'

end Tree

/-! ## Divisions that are refused -/

/-- If the error is a division by zero, it is one at one of the places. -/
def Error.Cites (places : List (Option Nat)) (e : Error) : Prop :=
  ∀ p, e = .simplify (.divisionByZero p) → p ∈ places

theorem Error.Cites.mono
    {places others : List (Option Nat)} {e : Error}
    (h : e.Cites places)
    (hsubset : places ⊆ others) :
    e.Cites others :=
  fun p hp => hsubset (h p hp)

theorem Error.Cites.behind
    {first second places : List (Option Nat)} {e : Error}
    (h : e.Cites (first ++ second))
    (hfirst : first ⊆ places)
    (hsecond : second ⊆ places)
    (before : List (Option Nat)) :
    e.Cites (before ++ places) :=
  h.mono (List.subset_append_of_subset_right _
    (List.append_subset.mpr ⟨hfirst, hsecond⟩))

namespace Tree

def divisions (tree : Tree) : List (Option Nat) :=
  (tree.postOrder.filter fun t => t.operator? = some .divide).map
    Token.position

def Slot.divisions : Slot → List (Option Nat)
  | .operand => []
  | .divisor position => [position]

theorem divisions_ofRight_subset
    {t : Token} {tree : Tree}
    (ht : t ∈ tree.postOrder) :
    (Slot.ofRight t).divisions ⊆ tree.divisions := by
  unfold Slot.ofRight
  split
  · next hdivide =>
      intro p hp
      rw [List.mem_singleton.mp hp]
      exact List.mem_map_of_mem
        (List.mem_filter.mpr ⟨ht, by simpa using hdivide⟩)
  · exact List.nil_subset _

theorem divisions_subset
    {tree child : Tree}
    (h : child.postOrder ⊆ tree.postOrder) :
    child.divisions ⊆ tree.divisions :=
  List.map_subset _ (List.filter_subset _ h)

theorem reduceNode_cites
    (slot : Slot) (node : Tree) :
    FailsOnly (Error.Cites slot.divisions) (node.reduceNode slot) := by
  have hreplacement :
      FailsOnly (Error.Cites slot.divisions) node.replacement? := by
    refine node.replacement?_failsOnly.mono fun e he p hp => ?_
    rcases he.exists_eq with ⟨position, operation, rfl⟩
    simp at hp
  refine hreplacement.bind fun replaced _ => ?_
  cases replaced with
  | none => exact .ok _
  | some tree =>
      cases slot with
      | operand => exact .ok _
      | divisor position =>
          dsimp only
          split
          · refine .error fun p hp => ?_
            obtain rfl : position = p := by simpa using hp
            exact List.mem_singleton_self _
          · exact .ok _

theorem reduceCast_cites
    (slot : Slot) (child : Option Tree) :
    FailsOnly (Error.Cites slot.divisions) (reduceCast slot child) := by
  cases child with
  | none => exact .ok _
  | some child =>
      rw [reduceCast]
      split
      · exact (child.reduceNode_cites slot).map some
      · exact .ok _

@[simp] theorem token_ofParts
    (t : Token) (res : Resolution) (l r : Option Tree) :
    (ofParts t res l r).token = t := by
  cases l <;> cases r <;> rfl

theorem token_dropRedundantCasts
    (node : Tree) :
    node.dropRedundantCasts.token = node.token := by
  cases node with
  | leaf t res | leftOnly t res l | rightOnly t res r => rfl
  | binary t res l r => exact token_ofParts _ _ _ _

theorem settle_cites
    (slot : Slot) (node : Tree) :
    FailsOnly
      (fun halted => halted.error.Cites
        (slot.divisions ++ (Slot.ofRight node.token).divisions))
      (settle slot node) := by
  refine .bind ((reduceCast_cites _ _).mapError fun _ h =>
    h.mono (List.nil_subset _)) fun left _ => ?_
  refine .bind ((reduceCast_cites _ _).mapError fun _ h => h.mono ?_)
    fun right _ => ?_
  · rw [withChildren, token_ofParts, token_resolve, token_dropRedundantCasts]
    exact List.subset_append_right _ _
  · exact (reduceNode_cites slot _).mapError fun _ h =>
      h.mono (List.subset_append_left _ _)

/-- A division by zero is reported at the place that is handed down, or at
that of a division in the tree. -/
theorem simplifyIn_cites
    (slot : Slot) (tree : Tree) :
    FailsOnly
      (fun halted => halted.error.Cites (slot.divisions ++ tree.divisions))
      (simplifyIn slot tree) := by
  have hsettle : ∀ {slot : Slot} {tree node : Tree},
      node.token ∈ tree.postOrder →
      FailsOnly (fun halted => halted.error.Cites
        (slot.divisions ++ tree.divisions)) (settle slot node) :=
        fun {slot _ node} hnode =>
    (settle_cites slot node).mono fun _ h => h.mono (List.append_subset.mpr
      ⟨List.subset_append_left _ _,
        List.subset_append_of_subset_right _
          (divisions_ofRight_subset hnode)⟩)
  induction tree generalizing slot with
  | leaf t res => exact .ok _
  | leftOnly t res l ih =>
      have hl : l.divisions ⊆ (Tree.leftOnly t res l).divisions :=
        divisions_subset (by simp [postOrder])
      refine .bind ((ih .operand).mapError fun _ h => ?_) fun _ _ =>
        hsettle ?_
      · exact h.behind (List.nil_subset _) hl _
      · simp [postOrder, token]
  | rightOnly t res r ih =>
      have ht : t ∈ (Tree.rightOnly t res r).postOrder := by simp [postOrder]
      have hr : r.divisions ⊆ (Tree.rightOnly t res r).divisions :=
        divisions_subset (by simp [postOrder])
      refine .bind ((ih (.ofRight t)).mapError fun _ h => ?_) fun _ _ =>
        hsettle ht
      exact h.behind (divisions_ofRight_subset ht) hr _
  | binary t res l r ihl ihr =>
      have ht : t ∈ (Tree.binary t res l r).postOrder := by simp [postOrder]
      have hl : l.divisions ⊆ (Tree.binary t res l r).divisions :=
        divisions_subset (by simp [postOrder])
      have hr : r.divisions ⊆ (Tree.binary t res l r).divisions :=
        divisions_subset (by intro t ht; simp [postOrder, ht])
      refine .bind ((ihl .operand).mapError fun _ h => ?_) fun _ _ =>
        .bind ((ihr (.ofRight t)).mapError fun _ h => ?_) fun _ _ =>
          hsettle ht
      · exact h.behind (List.nil_subset _) hl _
      · exact h.behind (divisions_ofRight_subset ht) hr _

end Tree

/-! ## Places in the source text -/

namespace Lexeme

theorem mark_of_read
    {lexeme : Lexeme} {table after : SymbolTable} {token : Token}
    {op : Operator}
    (h : lexeme.read table = .ok (token, after))
    (hop : token.operator? = some op) :
    ∃ start, token.position = some start ∧
      lexeme = .mark start (.operator op) := by
  cases lexeme with
  | mark start kind =>
      obtain ⟨rfl, _⟩ := read_mark_eq_ok h
      refine ⟨start, rfl, ?_⟩
      cases kind <;> simp_all [Token.operator?]
  | run start text =>
      rcases read_run_eq_ok h with ⟨kind, rfl, hrun⟩
      rcases readRun_eq_ok hrun with
        ⟨id, name, rfl, _⟩ | ⟨literal, rfl, _⟩ <;> contradiction

theorem mark_of_mem_readAll
    {lexemes : List Lexeme} {table after : SymbolTable}
    {tokens : List Token}
    (h : readAll table lexemes = .ok (tokens, after))
    {t : Token}
    (ht : t ∈ tokens)
    {op : Operator}
    (hop : t.operator? = some op) :
    ∃ start, t.position = some start ∧
      .mark start (.operator op) ∈ lexemes := by
  induction lexemes generalizing table tokens with
  | nil =>
      obtain ⟨rfl, _⟩ := readAll_nil_eq_ok h
      simp at ht
  | cons lexeme rest ih =>
      rcases readAll_cons_eq_ok h with
        ⟨token, middle, others, hread, hrest, rfl⟩
      rcases List.mem_cons.mp ht with rfl | hmem
      · rcases mark_of_read hread hop with ⟨start, hposition, rfl⟩
        exact ⟨start, hposition, List.mem_cons_self⟩
      · rcases ih hrest hmem with ⟨start, hposition, hmark⟩
        exact ⟨start, hposition, List.mem_cons_of_mem _ hmark⟩

end Lexeme

theorem Operator.eq_slash
    {c : Char}
    (h : Lexeme.markKind? c = some (.operator .divide)) :
    c = '/' := by
  unfold Lexeme.markKind? Operator.ofChar? at h
  split at h
  · contradiction
  · contradiction
  · split at h <;> simp_all

theorem exists_slash_of_mem
    {source : String} {tokens : List Token} {table : SymbolTable}
    (h : scan source = .ok (tokens, table))
    {t : Token}
    (ht : t ∈ tokens)
    (hop : t.operator? = some .divide) :
    ∃ k, t.position = some (k + 1) ∧ source.toList[k]? = some '/' := by
  rcases Lexeme.mark_of_mem_readAll h ht hop with ⟨start, hposition, hmark⟩
  rcases Lexeme.exists_char_of_mark_mem_cut hmark with ⟨k, c, rfl, hc, hkind⟩
  obtain rfl := Operator.eq_slash hkind
  exact ⟨k, hposition.trans (congrArg some (Nat.add_comm 1 k)), hc⟩

namespace Tree

theorem postOrder_openTypes
    (tree : Tree) :
    tree.openTypes.postOrder = tree.postOrder := by
  induction tree with
  | leaf t res => rfl
  | leftOnly t res l ih => simp only [openTypes, postOrder, ih]
  | rightOnly t res r ih => simp only [openTypes, postOrder, ih]
  | binary t res l r ihl ihr => simp only [openTypes, postOrder, ihl, ihr]

theorem mem_postOrder_eraseCasts
    {tree : Tree} {t : Token}
    (ht : t ∈ tree.postOrder)
    (hop : t.operator? ≠ some .toFloat) :
    t ∈ tree.eraseCasts.postOrder := by
  induction tree with
  | leaf t' res => exact ht
  | leftOnly t' res child ih | rightOnly t' res child ih =>
      rcases List.mem_append.mp ht with hmem | hmem
      · rw [eraseCasts]
        split
        · exact ih hmem
        · exact List.mem_append_left _ (ih hmem)
      · obtain rfl := List.mem_singleton.mp hmem
        rw [eraseCasts, if_neg hop]
        exact List.mem_append_right _ (List.mem_singleton_self _)
  | binary t' res l r ihl ihr =>
      simp only [postOrder, List.mem_append] at ht
      simp only [eraseCasts, postOrder, List.mem_append]
      exact ht.imp_left (Or.imp ihl ihr)

end Tree

theorem exists_slash_of_compile
    {source : String} {c : Compiled}
    (hcompile : compile source = .ok c)
    {position : Option Nat}
    (h : position ∈ c.tree.divisions) :
    ∃ k, position = some (k + 1) ∧ source.toList[k]? = some '/' := by
  rcases exists_isSound hcompile with ⟨parsed, hsound⟩
  rcases List.mem_map.mp h with ⟨t, ht, rfl⟩
  rcases List.mem_filter.mp ht with ⟨ht, hop⟩
  have hop : t.operator? = some .divide := by simpa using hop
  have hparsed : t ∈ parsed.postOrder := by
    rw [← hsound.isExpression.eraseCasts_analyze hsound.analyzed,
      Tree.postOrder_openTypes]
    exact Tree.mem_postOrder_eraseCasts ht (by simp [hop])
  exact exists_slash_of_mem (scan_of_compile hcompile)
    ((hsound.derives hcompile).postOrder_subset hparsed) hop

/-- Simplification reaches a normal form in which no conversion of a number or
of a float, no operation on numbers but a negative number, no identity and no
zero divisor occurs.  If it fails on a compiled expression because a divisor
becomes zero, it cites the place of a division in the text. -/
theorem simplify_isReduced_or_cites :
    (∀ tree analyzed simplified : Tree,
      tree.IsShaped → tree.analyze = .ok analyzed →
      analyzed.simplify = .ok simplified → simplified.IsReduced) ∧
    ∀ source c halted position,
      compile source = .ok c → c.tree.simplify = .error halted →
      halted.error = .simplify (.divisionByZero position) →
        ∃ k, position = some (k + 1) ∧ source.toList[k]? = some '/' := by
  constructor
  · intro tree analyzed simplified hshaped hanalyze hsimplify
    have hleaves := hshaped.hasTypedLeaves hanalyze
    have hzero := Tree.simplifyIn_hasNoZeroDivisor hleaves
      (hshaped.hasNoZeroDivisor hanalyze).2
        (Tree.Slot.operand_admits analyzed) hsimplify
    exact (hleaves.simplifyIn_consistent hsimplify).1.isReduced
      (Tree.simplifyIn_isNormal hleaves hsimplify) hzero.2
  · intro source c halted position hcompile hsimplify herror
    exact exists_slash_of_compile hcompile
      (Tree.simplifyIn_cites .operand c.tree halted hsimplify position herror)

/-- A negative factor stays the difference that it is, and the factor one has
gone.  In the second text the divisor of the second division becomes zero. -/
theorem simplify_isReduced_negative_factor :
    (∃ c tree, compile "a * 1 * (2 - 5) + x[f]" = .ok c ∧
      c.tree.simplify = .ok tree ∧
      tree.text = "(+ (i2f (* <id,1> (- 0 3))) <id,2>)" ∧ tree.IsReduced) ∧
    ∃ c halted, compile "a / 2 / (b - b)" = .ok c ∧
      c.tree.simplify = .error halted ∧
      halted.error = .simplify (.divisionByZero (some 7)) ∧
      ∃ k, some 7 = some (k + 1) ∧
        "a / 2 / (b - b)".toList[k]? = some '/' := by
  constructor
  · have htext : (compile "a * 1 * (2 - 5) + x[f]").toOption.map
        (fun c => c.tree.simplify.toOption.map Tree.text) =
          some (some "(+ (i2f (* <id,1> (- 0 3))) <id,2>)") := by
      decide +kernel
    obtain ⟨c, hcompile, hc⟩ := Success.exists_of_toOption htext
    obtain ⟨tree, hsimplify, htree⟩ := Success.exists_of_toOption hc
    obtain ⟨parsed, hsound⟩ := exists_isSound hcompile
    exact ⟨c, tree, hcompile, hsimplify, htree,
      simplify_isReduced_or_cites.1 parsed c.tree tree
      hsound.isExpression.isShaped hsound.analyzed hsimplify⟩
  · have herror : (compile "a / 2 / (b - b)").toOption.map
        (fun c => c.tree.simplify.mapError Halted.error) =
          some (.error (.simplify (.divisionByZero (some 7)))) := by
      decide +kernel
    obtain ⟨c, hcompile, hc⟩ := Success.exists_of_toOption herror
    obtain ⟨halted, hsimplify, hhalted⟩ := Success.mapError_eq_error_iff.mp hc
    exact ⟨c, halted, hcompile, hsimplify, hhalted,
      simplify_isReduced_or_cites.2 _ c halted _ hcompile hsimplify hhalted⟩

end ThreeAddress
