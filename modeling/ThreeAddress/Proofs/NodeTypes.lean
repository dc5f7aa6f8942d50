import ThreeAddress.Proofs.Rewriting
import ThreeAddress.Proofs.Running

/-!
# The type of every node

Consistency is a property of a whole tree; here it is read off at each of its
nodes.  The analysis does nothing but resolve types and insert conversions:
take the conversions out and open the types again, and the parsed tree is
back.  It makes floats only where there are any, so that an operator works on
integers exactly if all operands below it are integers.
-/

namespace ThreeAddress

namespace Tree

/-- The tree itself and the trees below its nodes. -/
def subtrees : Tree → List Tree
  | .leaf t res => [.leaf t res]
  | .leftOnly t res l => .leftOnly t res l :: l.subtrees
  | .rightOnly t res r => .rightOnly t res r :: r.subtrees
  | .binary t res l r => .binary t res l r :: (l.subtrees ++ r.subtrees)

/-- The root has a type that fits its token and the types of its children. -/
structure IsTypedNode (node : Tree) : Prop where
  known : node.result ≠ .unknown
  operands : ∀ t res l r,
    node = .binary t res l r → l.result = res ∧ r.result = res
  conversion : node.isCast = true →
    ∃ t r, node = .rightOnly t .float r ∧ r.result = .integer

def IsTyped (tree : Tree) : Prop := ∀ node ∈ tree.subtrees, node.IsTypedNode

def HasIntegerLeaves (tree : Tree) : Prop :=
  ∀ leaf ∈ tree.subtrees, leaf.isLeaf = true → leaf.result = .integer

/-- The tree without its conversions. -/
def eraseCasts : Tree → Tree
  | .leaf t res => .leaf t res
  | .leftOnly t res l =>
    if t.operator? = some .toFloat then l.eraseCasts
    else .leftOnly t res l.eraseCasts
  | .rightOnly t res r =>
    if t.operator? = some .toFloat then r.eraseCasts
    else .rightOnly t res r.eraseCasts
  | .binary t res l r => .binary t res l.eraseCasts r.eraseCasts

/-- The tree before the types of its operators are resolved. -/
def openTypes : Tree → Tree
  | .leaf t res => .leaf t res
  | .leftOnly t _ l => .leftOnly t .unknown l.openTypes
  | .rightOnly t _ r => .rightOnly t .unknown r.openTypes
  | .binary t _ l r => .binary t .unknown l.openTypes r.openTypes

theorem mem_subtrees_self
    (tree : Tree) :
    tree ∈ tree.subtrees := by
  cases tree <;> simp [subtrees]

/-! ## Nodes of a consistent tree -/

/-- What goes from a node to its children holds at every node below it. -/
theorem of_mem_subtrees
    {P : Tree → Prop}
    (hleft : ∀ tree l, tree.left? = some l → P tree → P l)
    (hright : ∀ tree r, tree.right? = some r → P tree → P r)
    {tree node : Tree}
    (h : P tree)
    (hnode : node ∈ tree.subtrees) :
    P node := by
  induction tree with
  | leaf t res =>
      rw [List.mem_singleton.mp hnode]
      exact h
  | leftOnly t res l ih =>
      rcases List.mem_cons.mp hnode with rfl | hnode
      · exact h
      · exact ih (hleft _ l rfl h) hnode
  | rightOnly t res r ih =>
      rcases List.mem_cons.mp hnode with rfl | hnode
      · exact h
      · exact ih (hright _ r rfl h) hnode
  | binary t res l r ihl ihr =>
      rcases List.mem_cons.mp hnode with rfl | hnode
      · exact h
      · rcases List.mem_append.mp hnode with hnode | hnode
        · exact ihl (hleft _ l rfl h) hnode
        · exact ihr (hright _ r rfl h) hnode

theorem Consistent.left?_consistent
    {tree : Tree}
    (h : tree.Consistent)
    (l : Tree)
    (hl : tree.left? = some l) :
    l.Consistent := by
  cases tree with
  | leaf t res | rightOnly t res r => simp [left?] at hl
  | leftOnly t res l' => exact h.elim
  | binary t res l' r =>
      obtain rfl : l' = l := by simpa [left?] using hl
      exact h.2.2.2.1

theorem Consistent.of_mem_subtrees
    {tree node : Tree}
    (h : tree.Consistent)
    (hnode : node ∈ tree.subtrees) :
    node.Consistent :=
  Tree.of_mem_subtrees (fun _ l hl h => h.left?_consistent l hl)
    (fun _ r hr h => h.right?_consistent r hr) h hnode

theorem Consistent.isTypedNode
    {node : Tree}
    (h : node.Consistent) :
    node.IsTypedNode := by
  constructor
  · intro hunknown
    rcases h.result_cases with
      hresult | hresult <;> rw [hunknown] at hresult <;> contradiction
  · rintro t res l r rfl
    exact ⟨h.2.1, h.2.2.1⟩
  · intro hcast
    rcases h.exists_of_isCast hcast with ⟨t, r, rfl, _, hinteger, _⟩
    exact ⟨t, r, rfl, hinteger⟩

theorem Consistent.isTyped
    {tree : Tree}
    (h : tree.Consistent) :
    tree.IsTyped :=
  fun _ hnode => (h.of_mem_subtrees hnode).isTypedNode

theorem Consistent.hasIntegerLeaves
    {tree : Tree}
    (h : tree.Consistent)
    (hinteger : tree.result = .integer) :
    tree.HasIntegerLeaves := by
  induction tree with
  | leaf t res =>
      intro leaf hleaf _
      rw [List.mem_singleton.mp hleaf]
      exact hinteger
  | leftOnly t res l ih => exact h.elim
  | rightOnly t res r ih =>
      rw [result, h.2.1] at hinteger
      contradiction
  | binary t res l r ihl ihr =>
      rcases h with ⟨_, hresl, hresr, hl, hr⟩
      intro leaf hleaf hisLeaf
      rcases List.mem_cons.mp hleaf with rfl | hleaf
      · contradiction
      · rcases List.mem_append.mp hleaf with hleaf | hleaf
        · exact ihl hl (hresl.trans hinteger) leaf hleaf hisLeaf
        · exact ihr hr (hresr.trans hinteger) leaf hleaf hisLeaf

/-! ## Nodes of an analyzed tree -/

theorem subtrees_subset_castInteger
    (tree : Tree) :
    tree.subtrees ⊆ tree.castInteger.subtrees := by
  unfold castInteger
  split
  · exact List.subset_cons_self _ _
  · exact List.Subset.refl _

theorem binary_mem_subtrees_castInteger
    {tree l r : Tree} {t : Token} {res : Resolution}
    (h : .binary t res l r ∈ tree.castInteger.subtrees) :
    .binary t res l r ∈ tree.subtrees := by
  unfold castInteger at h
  split at h
  · rcases List.mem_cons.mp h with h | h
    · contradiction
    · exact h
  · exact h

theorem HasIntegerLeaves.of_binary
    {t : Token} {res : Resolution} {l r : Tree}
    (h : (Tree.binary t res l.castInteger r.castInteger).HasIntegerLeaves) :
    l.HasIntegerLeaves ∧ r.HasIntegerLeaves := by
  constructor
  · intro leaf hleaf
    exact h leaf (List.mem_cons_of_mem _ (List.mem_append_left _
      (subtrees_subset_castInteger l hleaf)))
  · intro leaf hleaf
    exact h leaf (List.mem_cons_of_mem _ (List.mem_append_right _
      (subtrees_subset_castInteger r hleaf)))

/-- An analyzed expression is an integer if its leaves are, and so is every
operator in it. -/
theorem IsExpression.integer_of_hasIntegerLeaves
    {tree tree' : Tree}
    (htree : tree.IsExpression)
    (h : tree.analyze = .ok tree') :
    (tree'.HasIntegerLeaves → tree'.result = .integer) ∧
      ∀ t res l r, .binary t res l r ∈ tree'.subtrees →
        (Tree.binary t res l r).HasIntegerLeaves → res = .integer := by
  induction tree generalizing tree' with
  | leaf t res =>
      obtain rfl : ofToken t = tree' := by simpa [analyze, resolve] using h
      constructor
      · intro hleaves
        exact hleaves _ (mem_subtrees_self _) rfl
      · intro t res l r hmem
        simp [ofToken, subtrees] at hmem
  | leftOnly t res l ih | rightOnly t res r ih => exact htree.elim
  | binary t res l r ihl ihr =>
      rcases htree with ⟨ht, _, hl, hr⟩
      rcases analyze_binary_eq_ok h with ⟨_, l', r', hl', hr', rfl⟩
      rcases ihl hl hl' with ⟨hrootl, hnodesl⟩
      rcases ihr hr hr' with ⟨hrootr, hnodesr⟩
      by_cases hinteger : l'.result = .integer ∧ r'.result = .integer
      · rw [resolve_binary_integer ht res hinteger.1 hinteger.2]
        refine ⟨fun _ => rfl, ?_⟩
        intro t' res' left right hmem hleaves
        rcases List.mem_cons.mp hmem with hroot | hmem
        · injection hroot
        · rcases List.mem_append.mp hmem with hmem | hmem
          · exact hnodesl _ _ _ _ hmem hleaves
          · exact hnodesr _ _ _ _ hmem hleaves
      · rw [resolve_binary_float ht res hinteger]
        -- If all leaves were integers, so would be both operands.
        have hroot :
            ¬(Tree.binary t .float l'.castInteger
              r'.castInteger).HasIntegerLeaves := by
          intro hleaves
          rcases hleaves.of_binary with ⟨hleavesl, hleavesr⟩
          exact hinteger ⟨hrootl hleavesl, hrootr hleavesr⟩
        refine ⟨fun hleaves => (hroot hleaves).elim, ?_⟩
        intro t' res' left right hmem hleaves
        rcases List.mem_cons.mp hmem with hsame | hmem
        · rw [hsame] at hleaves
          exact (hroot hleaves).elim
        · rcases List.mem_append.mp hmem with hmem | hmem
          · exact hnodesl _ _ _ _
              (binary_mem_subtrees_castInteger hmem) hleaves
          · exact hnodesr _ _ _ _
              (binary_mem_subtrees_castInteger hmem) hleaves

@[simp] theorem eraseCasts_castInteger
    (tree : Tree) :
    tree.castInteger.eraseCasts = tree.eraseCasts := by
  unfold castInteger
  split
  · rfl
  · rfl

theorem IsExpression.eraseCasts_analyze
    {tree tree' : Tree}
    (htree : tree.IsExpression)
    (h : tree.analyze = .ok tree') :
    tree'.eraseCasts.openTypes = tree := by
  induction tree generalizing tree' with
  | leaf t res =>
      rcases htree with ⟨_, rfl⟩
      obtain rfl : ofToken t = tree' := by simpa [analyze, resolve] using h
      rfl
  | leftOnly t res l ih | rightOnly t res r ih => exact htree.elim
  | binary t res l r ihl ihr =>
      rcases htree with ⟨ht, rfl, hl, hr⟩
      rcases analyze_binary_eq_ok h with ⟨_, l', r', hl', hr', rfl⟩
      by_cases hinteger : l'.result = .integer ∧ r'.result = .integer
      · rw [resolve_binary_integer ht _ hinteger.1 hinteger.2]
        simp only [eraseCasts, openTypes, ihl hl hl', ihr hr hr']
      · rw [resolve_binary_float ht _ hinteger]
        simp only [eraseCasts, openTypes, eraseCasts_castInteger,
          ihl hl hl', ihr hr hr']

end Tree

/-- In a compiled expression, and in what simplifying it leaves, every node
has its type.  Without its conversions the compiled tree is the parsed one,
and an operator in it works on integers exactly if every leaf below it is an
integer. -/
theorem compile_isTyped
    {source : String} {c : Compiled}
    (hcompile : compile source = .ok c) :
    c.tree.IsTyped ∧ (∀ tree, c.tree.simplify = .ok tree → tree.IsTyped) ∧
      parse c.tokens = .ok c.tree.eraseCasts.openTypes ∧
      ∀ t res l r, .binary t res l r ∈ c.tree.subtrees →
        (res = .integer ↔ (Tree.binary t res l r).HasIntegerLeaves) := by
  rcases exists_isSound hcompile with ⟨parsed, hsound⟩
  refine ⟨hsound.consistent.isTyped, ?_, ?_, ?_⟩
  · intro tree hsimplify
    exact (Tree.simplifyIn_consistent hsound.consistent hsimplify).1.isTyped
  · rw [hsound.isExpression.eraseCasts_analyze hsound.analyzed]
    exact hsound.parsed_eq
  · intro t res l r hmem
    constructor
    · exact (hsound.consistent.of_mem_subtrees hmem).hasIntegerLeaves
    · exact (hsound.isExpression.integer_of_hasIntegerLeaves
        hsound.analyzed).2 t res l r hmem

/-- All operators work on integers until the quotient of numbers is computed.
It is a float then, and both symbols are converted. -/
theorem compile_isTyped_computed_quotient :
    ∃ c tree, compile "a + 6 / 4 * b" = .ok c ∧
      c.tree.text = "(+ <id,1> (* (/ 6 4) <id,2>))" ∧ c.tree.IsTyped ∧
      c.tree.simplify = .ok tree ∧
      tree.text = "(+ (i2f <id,1>) (* 1.5 (i2f <id,2>)))" ∧ tree.IsTyped := by
  have htext : (compile "a + 6 / 4 * b").toOption.map
      (fun c => (c.tree.text, c.tree.simplify.toOption.map Tree.text)) =
      some ("(+ <id,1> (* (/ 6 4) <id,2>))",
        some "(+ (i2f <id,1>) (* 1.5 (i2f <id,2>)))") := by
    decide +kernel
  obtain ⟨c, hcompile, hc⟩ := Success.exists_of_toOption htext
  obtain ⟨hparsed, hsimplified⟩ := Prod.mk.inj hc
  obtain ⟨tree, hsimplify, htree⟩ := Success.exists_of_toOption hsimplified
  rcases compile_isTyped hcompile with ⟨htyped, htyped', _⟩
  exact ⟨c, tree, hcompile, hparsed, htyped, hsimplify, htree,
    htyped' tree hsimplify⟩

end ThreeAddress
