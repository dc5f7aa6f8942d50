import ThreeAddress.Proofs.Literals
import ThreeAddress.Proofs.Typing
import ThreeAddress.Tree.Simplify

/-!
# Rewriting a tree

Simplification replaces one node at a time, and `Rewrites` lists what a node
can be replaced by.  On a node over consistent children, `settle` does four
things: it types the node anew, replaces each child that is a conversion, and
replaces the node itself.  Everything that is known of a simplified tree
follows from this description.
-/

namespace ThreeAddress

namespace Tree

/-- The identities, with what each leaves of an operation on two operands. -/
inductive AppliesIdentity : Operator → Token → Token → Tree → Prop where
  | zeroRight {op : Operator} {left right : Token} {id : Identifier}
      {n : Literal}
      (hop : op = .add ∨ op = .subtract) (hl : left.identifier? = some id)
      (hr : right.number? = some n) (hn : n.isZero = true) :
      AppliesIdentity op left right (ofToken left)
  | oneRight {op : Operator} {left right : Token} {id : Identifier}
      {n : Literal}
      (hop : op = .multiply ∨ op = .divide) (hl : left.identifier? = some id)
      (hr : right.number? = some n) (hn : n.isOne = true) :
      AppliesIdentity op left right (ofToken left)
  | timesZero {left right : Token} {id : Identifier} {n : Literal}
      (hl : left.identifier? = some id) (hr : right.number? = some n)
      (hn : n.isZero = true) :
      AppliesIdentity .multiply left right (ofToken right)
  | zeroLeft {left right : Token} {id : Identifier} {n : Literal}
      (hl : left.number? = some n) (hr : right.identifier? = some id)
      (hn : n.isZero = true) :
      AppliesIdentity .add left right (ofToken right)
  | oneLeft {left right : Token} {id : Identifier} {n : Literal}
      (hl : left.number? = some n) (hr : right.identifier? = some id)
      (hn : n.isOne = true) :
      AppliesIdentity .multiply left right (ofToken right)
  | zeroTimes {left right : Token} {id : Identifier} {n : Literal}
      (hl : left.number? = some n) (hr : right.identifier? = some id)
      (hn : n.isZero = true) :
      AppliesIdentity .multiply left right (ofToken left)
  | difference {left right : Token} {a b : Identifier}
      (hl : left.identifier? = some a) (hr : right.identifier? = some b)
      (hattr : a.attr = b.attr) :
      AppliesIdentity .subtract left right (ofLiteral (.zero a.type))

/-- A node is replaced by one of the rules. -/
inductive Rewrites : Tree → Tree → Prop where
  | folded {t : Token} {res : Resolution} {l r : Tree} {op : Operator}
      {a b size : Literal} (ht : t.operator? = some op)
      (hl : l.token.number? = some a) (hr : r.token.number? = some b)
      (hfoldable :
        isFoldable (foldedType op res) (op.apply a.value b.value) = true)
      (hsize : magnitude (foldedType op res)
        (op.apply a.value b.value) = .ok size) :
      Rewrites (.binary t res l r)
        (ofSigned (foldedType op res)
          (!(op.apply a.value b.value).isNonneg) size)
  | converted {t : Token} {res : Resolution} {r : Tree} {a literal : Literal}
      (ht : t.operator? = some .toFloat) (hr : r.token.number? = some a)
      (hliteral : Literal.ofSingle a.value = .ok literal) :
      Rewrites (.rightOnly t res r) (ofLiteral literal)
  | dropped {t : Token} {res : Resolution} {r : Tree}
      (ht : t.operator? = some .toFloat) (hr : r.result = .float) :
      Rewrites (.rightOnly t res r) r
  | identity {t : Token} {res : Resolution} {l r tree : Tree} {op : Operator}
      (ht : t.operator? = some op)
      (hidentity : AppliesIdentity op l.token r.token tree) :
      Rewrites (.binary t res l r) tree

/-! ## What the simplifier does to a node -/

theorem isCast_iff
    {node : Tree} :
    node.isCast = true ↔ node.token.operator? = some .toFloat :=
  decide_eq_true_iff

theorem isCast_binary
    {t : Token}
    (ht : t.IsArithmetic)
    (res : Resolution) (l r : Tree) :
    (Tree.binary t res l r).isCast = false := by
  rw [← Bool.not_eq_true, isCast_iff]
  exact ht.ne_toFloat

theorem isCast_of_isOperand
    {tree : Tree}
    (h : tree.token.isOperand = true) :
    tree.isCast = false := by
  simp [isCast, operator?, Token.operator?_of_isOperand h]

theorem replacement?_eq_some
    {node tree : Tree}
    (h : node.replacement? = .ok (some tree)) :
    node.foldConstants = .ok (some tree) ∨ node.foldCast = .ok (some tree) ∨
      node.floatOperand? = some tree ∨ node.applyIdentity? = some tree := by
  simp only [replacement?, Success.bind_eq_ok_iff] at h
  obtain ⟨constants, hconstants, h⟩ := h
  cases constants with
  | some other =>
      obtain rfl : other = tree := by simpa using h
      exact .inl hconstants
  | none =>
      simp only [Success.bind_eq_ok_iff] at h
      obtain ⟨conversion, hconversion, h⟩ := h
      cases conversion with
      | some other =>
          obtain rfl : other = tree := by simpa using h
          exact .inr (.inl hconversion)
      | none =>
          simp only [Success.pure_eq_ok_iff, Option.or_eq_some_iff] at h
          rcases h with h | ⟨_, h⟩
          · exact .inr (.inr (.inl h))
          · exact .inr (.inr (.inr h))

theorem replacement?_eq_none
    {node : Tree}
    (h : node.replacement? = .ok none) :
    node.foldConstants = .ok none ∧ node.foldCast = .ok none ∧
      node.floatOperand? = none ∧ node.applyIdentity? = none := by
  simp only [replacement?, Success.bind_eq_ok_iff] at h
  obtain ⟨constants, hconstants, h⟩ := h
  cases constants with
  | some other => simp at h
  | none =>
      simp only [Success.bind_eq_ok_iff] at h
      obtain ⟨conversion, hconversion, h⟩ := h
      cases conversion with
      | some other => simp at h
      | none =>
          simp only [Success.pure_eq_ok_iff, Option.or_eq_none_iff] at h
          exact ⟨hconstants, hconversion, h⟩

theorem rewrites_of_foldConstants
    {node tree : Tree}
    (h : node.foldConstants = .ok (some tree)) :
    Rewrites node tree := by
  unfold foldConstants at h
  split at h
  · next a b op hl hr hop =>
      obtain ⟨l, hleft, hl⟩ := Option.bind_eq_some_iff.mp hl
      obtain ⟨r, hright, hr⟩ := Option.bind_eq_some_iff.mp hr
      obtain ⟨other, hfold, hsome⟩ := Success.map_eq_ok_iff.mp h
      obtain rfl := Option.some.inj hsome
      cases node with
      | leaf t res | rightOnly t res r => simp [left?] at hleft
      | leftOnly t res l => simp [right?] at hright
      | binary t res l' r' =>
          obtain rfl : l' = l := by simpa [left?] using hleft
          obtain rfl : r' = r := by simpa [right?] using hright
          unfold fold at hfold
          dsimp only at hfold
          split at hfold
          · next hfoldable =>
              simp only [Success.bind_eq_ok_iff, Success.mapError_eq_ok_iff,
                Success.pure_eq_ok_iff] at hfold
              obtain ⟨size, hsize, rfl⟩ := hfold
              exact .folded hop hl hr hfoldable hsize
          · contradiction
  · simp at h

def IsPlainNode (node : Tree) : Prop := node.isCast = true → node.left? = none

theorem rewrites_of_foldCast
    {node tree : Tree}
    (hnode : node.IsPlainNode)
    (h : node.foldCast = .ok (some tree)) :
    Rewrites node tree := by
  unfold foldCast at h
  split at h
  · next a hcast hr =>
      obtain ⟨r, hright, hr⟩ := Option.bind_eq_some_iff.mp hr
      simp only [Success.map_eq_ok_iff, Success.mapError_eq_ok_iff] at h
      obtain ⟨literal, hliteral, hsome⟩ := h
      obtain rfl := Option.some.inj hsome
      have hleft := hnode hcast
      cases node with
      | leaf t res | leftOnly t res l => simp [right?] at hright
      | binary t res l r => simp [left?] at hleft
      | rightOnly t res r' =>
          obtain rfl : r' = r := by simpa [right?] using hright
          exact .converted (isCast_iff.mp hcast) hr hliteral
  · simp at h

theorem rewrites_of_floatOperand?
    {node tree : Tree}
    (hnode : node.IsPlainNode)
    (h : node.floatOperand? = some tree) :
    Rewrites node tree := by
  unfold floatOperand? at h
  split at h
  · next hcast =>
      obtain ⟨hright, hfloat⟩ := Option.filter_eq_some_iff.mp h
      have hleft := hnode hcast
      cases node with
      | leaf t res | leftOnly t res l => simp [right?] at hright
      | binary t res l r => simp [left?] at hleft
      | rightOnly t res r =>
          obtain rfl : r = tree := by simpa [right?] using hright
          exact .dropped (isCast_iff.mp hcast)
            (by simpa using hfloat)
  · contradiction

theorem appliesIdentity_of_identity?
    {op : Operator} {left right : Token} {tree : Tree}
    (h : identity? op left right = some tree) :
    AppliesIdentity op left right tree := by
  unfold identity? at h
  split at h
  · next id n hleft hright =>
      have hl : left.identifier? = some id := by
        simp [Token.identifier?, hleft]
      have hr : right.number? = some n := by simp [Token.number?, hright]
      cases op with
      | add | subtract =>
          simp only [Option.ite_none_right_eq_some, Option.some.injEq] at h
          obtain ⟨hn, rfl⟩ := h
          exact .zeroRight (by decide) hl hr hn
      | multiply =>
          simp only at h
          split_ifs at h with hzero hone
          · obtain rfl := Option.some.inj h
            exact .timesZero hl hr hzero
          · obtain rfl := Option.some.inj h
            exact .oneRight (.inl rfl) hl hr hone
      | divide =>
          simp only [Option.ite_none_right_eq_some, Option.some.injEq] at h
          obtain ⟨hn, rfl⟩ := h
          exact .oneRight (.inr rfl) hl hr hn
      | toFloat => contradiction
  · next n id hleft hright =>
      have hl : left.number? = some n := by simp [Token.number?, hleft]
      have hr : right.identifier? = some id := by
        simp [Token.identifier?, hright]
      cases op with
      | add =>
          simp only [Option.ite_none_right_eq_some, Option.some.injEq] at h
          obtain ⟨hn, rfl⟩ := h
          exact .zeroLeft hl hr hn
      | multiply =>
          simp only at h
          split_ifs at h with hzero hone
          · obtain rfl := Option.some.inj h
            exact .zeroTimes hl hr hzero
          · obtain rfl := Option.some.inj h
            exact .oneLeft hl hr hone
      | subtract | divide | toFloat => contradiction
  · next a b hleft hright =>
      have hl : left.identifier? = some a := by
        simp [Token.identifier?, hleft]
      have hr : right.identifier? = some b := by
        simp [Token.identifier?, hright]
      simp only [Option.ite_none_right_eq_some, Option.some.injEq] at h
      obtain ⟨⟨rfl, hattr⟩, rfl⟩ := h
      exact .difference hl hr hattr
  · contradiction

theorem rewrites_of_applyIdentity?
    {node tree : Tree}
    (h : node.applyIdentity? = some tree) :
    Rewrites node tree := by
  unfold applyIdentity? at h
  split at h
  · next l r op hleft hright hop =>
      cases node with
      | leaf t res | rightOnly t res r => simp [left?] at hleft
      | leftOnly t res l => simp [right?] at hright
      | binary t res l' r' =>
          obtain rfl : l' = l := by simpa [left?] using hleft
          obtain rfl : r' = r := by simpa [right?] using hright
          exact .identity hop (appliesIdentity_of_identity? h)
  · contradiction

/-- A node is left as it is when no rule applies, and replaced by a rule
otherwise. -/
theorem reduceNode_cases
    {slot : Slot} {node tree : Tree}
    (hnode : node.IsPlainNode)
    (h : node.reduceNode slot = .ok tree) :
    (tree = node ∧ node.replacement? = .ok none) ∨ Rewrites node tree := by
  simp only [reduceNode, Success.bind_eq_ok_iff] at h
  obtain ⟨replacement, hreplacement, h⟩ := h
  cases replacement with
  | none =>
      obtain rfl : node = tree := by simpa using h
      exact .inl ⟨rfl, hreplacement⟩
  | some other =>
      obtain rfl : other = tree := by
        cases slot with
        | operand => simpa using h
        | divisor position =>
            simp only at h
            split at h
            · simp at h
            · simpa using h
      refine .inr ?_
      rcases replacement?_eq_some hreplacement with h | h | h | h
      · exact rewrites_of_foldConstants h
      · exact rewrites_of_foldCast hnode h
      · exact rewrites_of_floatOperand? hnode h
      · exact rewrites_of_applyIdentity? h

/-! ## What the simplifier does to a node over reduced children -/

/-- A child is replaced if it is a conversion that a rule applies to. -/
def ReducesCast (child tree : Tree) : Prop :=
  tree = child ∨ (child.isCast = true ∧ Rewrites child tree)

theorem Consistent.isPlainNode
    {tree : Tree}
    (h : tree.Consistent) :
    tree.IsPlainNode := by
  intro hcast
  cases tree with
  | leaf t res | rightOnly t res r => rfl
  | leftOnly t res l => exact h.elim
  | binary t res l r => exact (h.1.ne_toFloat (isCast_iff.mp hcast)).elim

theorem Consistent.exists_of_isCast
    {tree : Tree}
    (h : tree.Consistent)
    (hcast : tree.isCast = true) :
    ∃ t r, tree = .rightOnly t .float r ∧ t.operator? = some .toFloat ∧
      r.result = .integer ∧ r.Consistent := by
  rw [isCast_iff] at hcast
  cases tree with
  | leaf t res =>
      have hoperator := Token.operator?_of_isOperand h.1
      simp [token, hoperator] at hcast
  | leftOnly t res l => exact h.elim
  | rightOnly t res r =>
      obtain ⟨ht, rfl, hr⟩ := h
      exact ⟨t, r, rfl, ht, hr⟩
  | binary t res l r => exact (h.1.ne_toFloat hcast).elim

theorem Consistent.isCast_eq_false
    {tree : Tree}
    (h : tree.Consistent)
    (hinteger : tree.result = .integer) :
    tree.isCast = false := by
  rw [Bool.eq_false_iff]
  intro hcast
  obtain ⟨t, r, rfl, _⟩ := h.exists_of_isCast hcast
  contradiction

theorem reduceCast_eq_ok
    {slot : Slot} {child : Tree} {out : Option Tree}
    (h : reduceCast slot (some child) = .ok out) :
    ∃ tree, out = some tree ∧ ((child.isCast = false ∧ tree = child) ∨
      (child.isCast = true ∧ child.reduceNode slot = .ok tree)) := by
  rw [reduceCast] at h
  split at h
  · next hcast =>
      obtain ⟨tree, hreduce, rfl⟩ := Success.map_eq_ok_iff.mp h
      exact ⟨tree, rfl, .inr ⟨hcast, hreduce⟩⟩
  · next hcast =>
      exact ⟨child, (Except.ok.inj h).symm, .inl ⟨by simpa using hcast, rfl⟩⟩

theorem reducesCast_of_reduceCast
    {slot : Slot} {child tree : Tree}
    (hchild : child.Consistent)
    (h : reduceCast slot (some child) = .ok (some tree)) :
    ReducesCast child tree := by
  rcases reduceCast_eq_ok h with ⟨other, hother, hcases⟩
  obtain rfl := Option.some.inj hother
  rcases hcases with ⟨_, rfl⟩ | ⟨hcast, hreduce⟩
  · exact .inl rfl
  · rcases reduceNode_cases hchild.isPlainNode hreduce with
      ⟨rfl, _⟩ | hrewrites
    · exact .inl rfl
    · exact .inr ⟨hcast, hrewrites⟩

theorem settle_binary_eq_ok_iff
    {slot : Slot} {t : Token} {res res' : Resolution}
    {l r l' r' tree : Tree}
    (hresolve : (dropRedundantCasts (.binary t res l r)).resolve =
      .binary t res' l' r') :
    settle slot (.binary t res l r) = .ok tree ↔
      ∃ l₁ r₁, reduceCast .operand (some l') = .ok (some l₁) ∧
        reduceCast (.ofRight t) (some r') = .ok (some r₁) ∧
        reduceNode slot (.binary t res' l₁ r₁) = .ok tree := by
  simp only [settle, hresolve, left?, right?, Success.bind_eq_ok_iff,
    Success.mapError_eq_ok_iff]
  constructor
  · rintro ⟨left, hleft, right, hright, h⟩
    obtain ⟨l₁, rfl, _⟩ := reduceCast_eq_ok hleft
    simp only [withChildren, ofParts, token, result] at hright h
    obtain ⟨r₁, rfl, _⟩ := reduceCast_eq_ok hright
    exact ⟨l₁, r₁, hleft, hright, h⟩
  · rintro ⟨l₁, r₁, hleft, hright, h⟩
    exact ⟨some l₁, hleft, some r₁, hright, h⟩

theorem settle_cast_eq_ok_iff
    {slot : Slot} {t : Token} {res : Resolution} {r tree : Tree}
    (ht : t.operator? = some .toFloat) :
    settle slot (.rightOnly t res r) = .ok tree ↔
      ∃ r₁, reduceCast (.ofRight t) (some r) = .ok (some r₁) ∧
        reduceNode slot (.rightOnly t .float r₁) = .ok tree := by
  have hresolve : (dropRedundantCasts (.rightOnly t res r)).resolve =
      .rightOnly t .float r := by
    simp [dropRedundantCasts, resolve, ht]
  simp only [settle, hresolve, left?, right?, Success.bind_eq_ok_iff,
    Success.mapError_eq_ok_iff]
  constructor
  · rintro ⟨left, hleft, right, hright, h⟩
    obtain rfl : none = left := by simpa [reduceCast] using hleft
    simp only [withChildren, ofParts, token, result] at hright h
    obtain ⟨r₁, rfl, _⟩ := reduceCast_eq_ok hright
    exact ⟨r₁, hright, h⟩
  · rintro ⟨r₁, hright, h⟩
    exact ⟨none, rfl, some r₁, hright, h⟩

/-- Settling an operator types it anew, reduces its conversions, and applies
at most one rule to it. -/
theorem settle_binary_cases
    {slot : Slot} {t : Token} {res res' : Resolution}
    {l r l' r' tree : Tree}
    (ht : t.IsArithmetic)
    (hresolve : (dropRedundantCasts (.binary t res l r)).resolve =
      .binary t res' l' r')
    (hl : l'.Consistent)
    (hr : r'.Consistent)
    (h : settle slot (.binary t res l r) = .ok tree) :
    ∃ l₁ r₁, ReducesCast l' l₁ ∧ ReducesCast r' r₁ ∧
      (tree = .binary t res' l₁ r₁ ∨
        Rewrites (.binary t res' l₁ r₁) tree) := by
  obtain ⟨l₁, r₁, hleft, hright, h⟩ := (settle_binary_eq_ok_iff hresolve).mp h
  refine ⟨l₁, r₁, reducesCast_of_reduceCast hl hleft,
    reducesCast_of_reduceCast hr hright, ?_⟩
  have hnode : (Tree.binary t res' l₁ r₁).IsPlainNode := fun hcast =>
    (ht.ne_toFloat (isCast_iff.mp hcast)).elim
  rcases reduceNode_cases hnode h with ⟨rfl, _⟩ | hrewrites
  · exact .inl rfl
  · exact .inr hrewrites

theorem settle_cast_cases
    {slot : Slot} {t : Token} {res : Resolution} {r tree : Tree}
    (ht : t.operator? = some .toFloat)
    (hr : r.Consistent)
    (h : settle slot (.rightOnly t res r) = .ok tree) :
    ∃ r₁, ReducesCast r r₁ ∧
      ((tree = .rightOnly t .float r₁ ∧ r₁.result ≠ .float) ∨
        Rewrites (.rightOnly t .float r₁) tree) := by
  obtain ⟨r₁, hright, h⟩ := (settle_cast_eq_ok_iff ht).mp h
  refine ⟨r₁, reducesCast_of_reduceCast hr hright, ?_⟩
  rcases reduceNode_cases (fun _ => rfl) h with ⟨rfl, hnone⟩ | hrewrites
  · refine .inl ⟨rfl, ?_⟩
    have hcast : (Tree.rightOnly t .float r₁).isCast = true :=
      isCast_iff.mpr ht
    have hfloat := (replacement?_eq_none hnone).2.2.1
    simpa [floatOperand?, hcast, right?] using hfloat
  · exact .inr hrewrites

/-! ## Simplified trees are consistent -/

theorem ofLiteral_consistent
    (literal : Literal) :
    (ofLiteral literal).Consistent :=
  ⟨rfl, rfl⟩

@[simp] theorem identifiers_ofLiteral
    (literal : Literal) :
    (ofLiteral literal).identifiers = [] :=
  rfl

theorem type_of_magnitude
    {type : ValueType} {x : Single} {size : Literal}
    (h : magnitude type x = .ok size) :
    size.type = type := by
  cases type with
  | integer => exact (Literal.ofText_eq_ok h).1
  | float => exact (Literal.ofText_eq_ok h).1

theorem result_ofLiteral
    (literal : Literal) :
    (ofLiteral literal).result = .ofType literal.type :=
  rfl

theorem ofSigned_consistent
    {type : ValueType} (negative : Bool) {size : Literal}
    (htype : size.type = type) :
    (ofSigned type negative size).Consistent ∧
      (ofSigned type negative size).result = .ofType type ∧
      (ofSigned type negative size).identifiers = [] := by
  cases negative with
  | false =>
      exact ⟨ofLiteral_consistent size,
        by simp [ofSigned, result_ofLiteral, htype], rfl⟩
  | true =>
      refine ⟨⟨⟨.subtract, rfl, by decide⟩, ?_, ?_, ofLiteral_consistent _,
        ofLiteral_consistent _⟩, rfl, rfl⟩
      · rw [result_ofLiteral, Literal.type_zero]
      · rw [result_ofLiteral, htype]

theorem AppliesIdentity.leaves
    {op : Operator} {left right : Token} {tree : Tree}
    (h : AppliesIdentity op left right tree) :
    (tree = ofToken left ∧ left.isOperand = true) ∨
      (tree = ofToken right ∧ right.isOperand = true) ∨
      ∃ type, tree = ofLiteral (.zero type) := by
  cases h with
  | zeroRight hop hl hr hn | oneRight hop hl hr hn =>
      exact .inl ⟨rfl, Token.isOperand_of_identifier? hl⟩
  | zeroTimes hl hr hn => exact .inl ⟨rfl, Token.isOperand_of_number? hl⟩
  | zeroLeft hl hr hn | oneLeft hl hr hn =>
      exact .inr (.inl ⟨rfl, Token.isOperand_of_identifier? hr⟩)
  | timesZero hl hr hn =>
      exact .inr (.inl ⟨rfl, Token.isOperand_of_number? hr⟩)
  | difference hl hr hattr => exact .inr (.inr ⟨_, rfl⟩)

theorem identifiers_ofToken_subset
    (tree : Tree) :
    (ofToken tree.token).identifiers ⊆ tree.identifiers := by
  rw [ofToken, identifiers_leaf]
  intro id hid
  refine List.mem_filterMap.mpr ⟨tree.token, ?_, by simpa using hid⟩
  cases tree <;> simp [token, postOrder]

/-- A replaced node is consistent if its right child is, and no identifier is
new. -/
theorem Rewrites.consistent
    {node tree : Tree}
    (h : Rewrites node tree)
    (hright : ∀ r, node.right? = some r → r.Consistent) :
    tree.Consistent ∧ tree.identifiers ⊆ node.identifiers := by
  cases h with
  | folded ht hl hr hfoldable hsize =>
      obtain ⟨hconsistent, _, hids⟩ :=
        ofSigned_consistent _ (type_of_magnitude hsize)
      exact ⟨hconsistent, by simp [hids]⟩
  | converted ht hr hliteral => exact ⟨ofLiteral_consistent _, by simp⟩
  | dropped ht hr =>
      refine ⟨hright tree rfl, ?_⟩
      rw [identifiers_rightOnly (Token.identifier?_of_operator? ht)]
      exact List.Subset.refl _
  | @identity t res l r _ op ht hidentity =>
      rw [identifiers_binary (Token.identifier?_of_operator? ht)]
      rcases hidentity.leaves with ⟨rfl, hl⟩ | ⟨rfl, hr⟩ | ⟨type, rfl⟩
      · exact ⟨⟨hl, rfl⟩, List.subset_append_of_subset_left _
          (identifiers_ofToken_subset l)⟩
      · exact ⟨⟨hr, rfl⟩, List.subset_append_of_subset_right _
          (identifiers_ofToken_subset r)⟩
      · exact ⟨ofLiteral_consistent _, by simp⟩

theorem Consistent.right?_consistent
    {tree : Tree}
    (h : tree.Consistent)
    (r : Tree)
    (hr : tree.right? = some r) :
    r.Consistent := by
  cases tree with
  | leaf t res | leftOnly t res l => simp [right?] at hr
  | rightOnly t res r' =>
      obtain rfl : r' = r := by simpa [right?] using hr
      exact h.2.2.2
  | binary t res l r' =>
      obtain rfl : r' = r := by simpa [right?] using hr
      exact h.2.2.2.2

theorem ReducesCast.consistent
    {child tree : Tree}
    (h : ReducesCast child tree)
    (hchild : child.Consistent) :
    tree.Consistent ∧ tree.result = child.result ∧
      tree.identifiers ⊆ child.identifiers := by
  rcases h with rfl | ⟨hcast, hrewrites⟩
  · exact ⟨hchild, rfl, List.Subset.refl _⟩
  · obtain ⟨hconsistent, hids⟩ :=
      hrewrites.consistent hchild.right?_consistent
    refine ⟨hconsistent, ?_, hids⟩
    obtain ⟨t, r, rfl, ht, hr, _⟩ := hchild.exists_of_isCast hcast
    cases hrewrites with
    | converted ht hr hliteral =>
        rw [result_ofLiteral, (Literal.ofText_eq_ok hliteral).1]
        rfl
    | dropped ht hfloat => exact hfloat

/-- Reducing the conversions among its operands keeps an operator
consistent. -/
theorem Consistent.reduceCasts
    {t : Token} {res : Resolution} {l r l₁ r₁ : Tree}
    (h : (Tree.binary t res l r).Consistent)
    (hl : ReducesCast l l₁)
    (hr : ReducesCast r r₁) :
    (Tree.binary t res l₁ r₁).Consistent ∧
      (Tree.binary t res l₁ r₁).identifiers ⊆
        (Tree.binary t res l r).identifiers := by
  rcases h with ⟨ht, hresl, hresr, hconsl, hconsr⟩
  rcases hl.consistent hconsl with ⟨hconsl₁, hresl₁, hidsl⟩
  rcases hr.consistent hconsr with ⟨hconsr₁, hresr₁, hidsr⟩
  constructor
  · exact ⟨ht, hresl₁.trans hresl, hresr₁.trans hresr, hconsl₁, hconsr₁⟩
  · exact identifiers_binary_subset ht.identifier?_eq hidsl hidsr

theorem Consistent.dropCast
    {tree : Tree}
    (h : tree.Consistent)
    (other : Resolution) :
    ∃ tree',
      (if tree.isCast ∧ other = .integer then tree.right? else some tree) =
      some tree' ∧ tree'.Consistent ∧
      tree'.identifiers = tree.identifiers := by
  split
  · next hcast =>
      obtain ⟨t, r, rfl, ht, _, hconsistent⟩ := h.exists_of_isCast hcast.1
      exact ⟨r, rfl, hconsistent,
        (identifiers_rightOnly (Token.identifier?_of_operator? ht) _ _).symm⟩
  · exact ⟨tree, rfl, h, rfl⟩

theorem resolve_dropRedundantCasts
    {t : Token}
    (ht : t.IsArithmetic)
    (res : Resolution) {l r : Tree}
    (hl : l.Consistent)
    (hr : r.Consistent) :
    ∃ res' l' r', (dropRedundantCasts (.binary t res l r)).resolve =
        .binary t res' l' r' ∧ (Tree.binary t res' l' r').Consistent ∧
      (Tree.binary t res' l' r').identifiers =
        (Tree.binary t res l r).identifiers := by
  obtain ⟨left, hdropl, hleft, hidsl⟩ := hl.dropCast r.result
  obtain ⟨right, hdropr, hright, hidsr⟩ := hr.dropCast l.result
  have hdrop :
      dropRedundantCasts (.binary t res l r) = .binary t res left right := by
    simp only [dropRedundantCasts, hdropl, hdropr, ofParts]
  obtain ⟨res', l', r', hresolve⟩ : ∃ res' l' r',
      resolve (.binary t res left right) = .binary t res' l' r' := by
    by_cases hinteger : left.result = .integer ∧ right.result = .integer
    · exact ⟨_, _, _, resolve_binary_integer ht res hinteger.1 hinteger.2⟩
    · exact ⟨_, _, _, resolve_binary_float ht res hinteger⟩
  have hids := identifiers_resolve ht res left right
  rw [hresolve, hidsl, hidsr,
    ← identifiers_binary ht.identifier?_eq res l r] at hids
  refine ⟨res', l', r', by rw [hdrop, hresolve], ?_, hids⟩
  rw [← hresolve]
  exact resolve_consistent ht res hleft hright

theorem settle_binary_consistent
    {slot : Slot} {t : Token} {res : Resolution} {l r tree : Tree}
    (ht : t.IsArithmetic)
    (hl : l.Consistent)
    (hr : r.Consistent)
    (h : settle slot (.binary t res l r) = .ok tree) :
    tree.Consistent ∧
      tree.identifiers ⊆ (Tree.binary t res l r).identifiers := by
  obtain ⟨res', l', r', hresolve, hresolved, hids⟩ :=
    resolve_dropRedundantCasts ht res hl hr
  obtain ⟨l₁, r₁, hl₁, hr₁, hrule⟩ :=
    settle_binary_cases ht hresolve hresolved.2.2.2.1 hresolved.2.2.2.2 h
  obtain ⟨hnode, hnodeIds⟩ := hresolved.reduceCasts hl₁ hr₁
  rw [hids] at hnodeIds
  rcases hrule with rfl | hrewrites
  · exact ⟨hnode, hnodeIds⟩
  · obtain ⟨hconsistent, hsubset⟩ :=
      hrewrites.consistent hnode.right?_consistent
    exact ⟨hconsistent, List.Subset.trans hsubset hnodeIds⟩

theorem settle_cast_consistent
    {slot : Slot} {t : Token} {res : Resolution} {r tree : Tree}
    (ht : t.operator? = some .toFloat)
    (hr : r.Consistent)
    (h : settle slot (.rightOnly t res r) = .ok tree) :
    tree.Consistent ∧ tree.identifiers ⊆ r.identifiers := by
  obtain ⟨r₁, hr₁, hrule⟩ := settle_cast_cases ht hr h
  obtain ⟨hconsr, hresr, hidsr⟩ := hr₁.consistent hr
  have hids : (Tree.rightOnly t .float r₁).identifiers = r₁.identifiers :=
    identifiers_rightOnly (Token.identifier?_of_operator? ht) _ _
  rcases hrule with ⟨rfl, hne⟩ | hrewrites
  · have hinteger : r₁.result = .integer :=
      hconsr.result_cases.resolve_right hne
    exact ⟨⟨ht, rfl, hinteger, hconsr⟩, hids ▸ hidsr⟩
  · obtain ⟨hconsistent, hsubset⟩ := hrewrites.consistent fun r' hr' =>
      (Option.some.inj hr') ▸ hconsr
    exact ⟨hconsistent, List.Subset.trans (hids ▸ hsubset) hidsr⟩

theorem simplifyIn_binary_eq_ok_iff
    {slot : Slot} {t : Token} {res : Resolution} {l r tree : Tree} :
    simplifyIn slot (.binary t res l r) = .ok tree ↔
      ∃ l' r', simplifyIn .operand l = .ok l' ∧
        simplifyIn (.ofRight t) r = .ok r' ∧
        settle slot (.binary t res l' r') = .ok tree := by
  simp [simplifyIn]

theorem simplifyIn_cast_eq_ok_iff
    {slot : Slot} {t : Token} {res : Resolution} {r tree : Tree} :
    simplifyIn slot (.rightOnly t res r) = .ok tree ↔
      ∃ r', simplifyIn (.ofRight t) r = .ok r' ∧
        settle slot (.rightOnly t res r') = .ok tree := by
  simp [simplifyIn]

/-- A tree of the shape of an expression, in which only the leaves have to
have their types.  A conversion may stand anywhere. -/
def HasTypedLeaves : Tree → Prop
  | .leaf t res => t.isOperand = true ∧ res = .ofToken t
  | .leftOnly _ _ _ => False
  | .rightOnly t _ r => t.operator? = some .toFloat ∧ r.HasTypedLeaves
  | .binary t _ l r => t.IsArithmetic ∧ l.HasTypedLeaves ∧ r.HasTypedLeaves

theorem Consistent.hasTypedLeaves
    {tree : Tree}
    (h : tree.Consistent) :
    tree.HasTypedLeaves := by
  induction tree with
  | leaf t res => exact h
  | leftOnly t res l ih => exact h.elim
  | rightOnly t res r ih =>
      rcases h with ⟨ht, _, _, hr⟩
      exact ⟨ht, ih hr⟩
  | binary t res l r ihl ihr =>
      rcases h with ⟨ht, _, _, hl, hr⟩
      exact ⟨ht, ihl hl, ihr hr⟩

/-- A simplified tree is consistent, even where a folded division has changed
types, and has no new identifiers. -/
theorem HasTypedLeaves.simplifyIn_consistent
    {slot : Slot} {tree tree' : Tree}
    (htree : tree.HasTypedLeaves)
    (h : simplifyIn slot tree = .ok tree') :
    tree'.Consistent ∧ tree'.identifiers ⊆ tree.identifiers := by
  induction tree generalizing slot tree' with
  | leaf t res =>
      obtain rfl : .leaf t res = tree' := by simpa [simplifyIn] using h
      exact ⟨htree, List.Subset.refl _⟩
  | leftOnly t res l ih => exact htree.elim
  | rightOnly t res r ih =>
      obtain ⟨ht, hr⟩ := htree
      obtain ⟨r', hr', hsettle⟩ := simplifyIn_cast_eq_ok_iff.mp h
      obtain ⟨hconsr, hidsr⟩ := ih hr hr'
      obtain ⟨hconsistent, hids⟩ := settle_cast_consistent ht hconsr hsettle
      rw [identifiers_rightOnly (Token.identifier?_of_operator? ht)]
      exact ⟨hconsistent, List.Subset.trans hids hidsr⟩
  | binary t res l r ihl ihr =>
      obtain ⟨ht, hl, hr⟩ := htree
      obtain ⟨l', r', hl', hr', hsettle⟩ := simplifyIn_binary_eq_ok_iff.mp h
      obtain ⟨hconsl, hidsl⟩ := ihl hl hl'
      obtain ⟨hconsr, hidsr⟩ := ihr hr hr'
      obtain ⟨hconsistent, hids⟩ :=
        settle_binary_consistent ht hconsl hconsr hsettle
      exact ⟨hconsistent, List.Subset.trans hids
        (identifiers_binary_subset ht.identifier?_eq hidsl hidsr)⟩

theorem simplifyIn_consistent
    {slot : Slot} {tree tree' : Tree}
    (htree : tree.Consistent)
    (h : simplifyIn slot tree = .ok tree') :
    tree'.Consistent ∧ tree'.identifiers ⊆ tree.identifiers :=
  htree.hasTypedLeaves.simplifyIn_consistent h

theorem optimize_eq_ok
    {tree tree' : Tree}
    (h : tree.optimize = .ok tree') :
    tree.simplify = .ok tree' ∧ tree'.isLeaf = false := by
  simp only [optimize, Success.bind_eq_ok_iff] at h
  obtain ⟨simplified, hsimplify, h⟩ := h
  split at h
  · simp only [Success.bind_eq_ok_iff, Success.throw_ne_ok, false_and,
      exists_false] at h
  · next hleaf =>
      obtain rfl : simplified = tree' := by simpa using h
      exact ⟨hsimplify, by simpa using hleaf⟩

end Tree

end ThreeAddress
