import ThreeAddress.Proofs.FieldTokens
import ThreeAddress.Yaml.Node

/-!
# Nodes and their tokens

A node of written form is read back from its tokens.  Lists stand under a key,
with their dashes in its column, so that they end where the next key stands or
the mapping ends.  Their items are mappings.
-/

namespace ThreeAddress.Yaml

namespace Node

def tagTokens (node : Node) : List Token := node.tag?.toList.map .tag

mutual

/-- The tokens of a node behind its tag. -/
def bodyTokens : Node → List Token
  | .scalar _ plain text => [.scalar plain text]
  | .sequence _ items =>
    if items.isEmpty then [.emptySequence] else itemTokens items
  | .mapping _ entries =>
    .mappingStart :: (entryTokens entries ++ [.blockEnd])
  | .broken => []

def itemTokens : List Node → List Token
  | [] => []
  | item :: rest =>
    .entry :: (item.tagTokens ++ (item.bodyTokens ++ itemTokens rest))

def entryTokens : List (Node × Node) → List Token
  | [] => []
  | (key, value) :: rest =>
    .key :: (key.bodyTokens ++
      .value :: (value.tagTokens ++ (value.bodyTokens ++ entryTokens rest)))

end

def tokens (node : Node) : List Token := node.tagTokens ++ node.bodyTokens

def keyText : Node → String
  | .scalar _ _ text => text
  | _ => ""

/-- What stands in the row of the key. -/
def inline : Node → Content
  | .scalar _ plain text => if plain then .plain text else .quoted text
  | .sequence _ items => if items.isEmpty then .emptyList else .nothing
  | _ => .nothing

/-- The row of a key. -/
def header (indent : Nat) (dashed : Bool) (key value : Node) : Field :=
  ⟨indent, dashed, key.keyText, value.tag?, value.inline⟩

mutual

/-- The node can be written, under a key or behind a dash. -/
def IsWritten : Bool → Node → Prop
  | keyed, .scalar _ _ _ => keyed = true
  | keyed, .sequence _ items => keyed = true ∧ AreWritten items
  | keyed, .mapping tag entries =>
    (keyed = false → tag = none) ∧ entries ≠ [] ∧ EntriesAreWritten entries
  | _, .broken => False

def AreWritten : List Node → Prop
  | [] => True
  | item :: rest => item.IsWritten false ∧ AreWritten rest

def EntriesAreWritten : List (Node × Node) → Prop
  | [] => True
  | (key, value) :: rest =>
    key = .scalar none true key.keyText ∧
      (header 0 false key value).IsProper ∧
      value.IsWritten true ∧ EntriesAreWritten rest

end

theorem areWritten_iff
    {items : List Node} :
    AreWritten items ↔ ∀ item ∈ items, item.IsWritten false := by
  induction items with
  | nil => simp [AreWritten]
  | cons item items ih => rw [AreWritten, ih, List.forall_mem_cons]

theorem endsEntry_tokens
    {keyed : Bool} {node : Node}
    (h : node.IsWritten keyed)
    (rest : List Token) :
    endsEntry (node.tokens ++ rest) = false := by
  cases node with
  | scalar tag plain text => cases tag <;> rfl
  | sequence tag items => cases tag <;> cases items <;> rfl
  | mapping tag entries => cases tag <;> rfl
  | broken => exact h.elim

/-- Behind a dash stands a mapping. -/
theorem IsWritten.exists_eq_mapping
    {node : Node}
    (h : node.IsWritten false) :
    ∃ entries, node = .mapping none entries ∧ entries ≠ [] ∧
      EntriesAreWritten entries := by
  cases node with
  | scalar tag plain text =>
      exact absurd (show false = true from h) (by decide)
  | sequence tag items => exact absurd h.1 (by decide)
  | mapping tag entries =>
      rcases h with ⟨htag, hne, hentries⟩
      exact ⟨entries, by rw [htag rfl], hne, hentries⟩
  | broken => exact h.elim

theorem endsItem_tokens
    {node : Node}
    (h : node.IsWritten false)
    (rest : List Token) :
    endsItem (node.tokens ++ rest) = false := by
  rcases h.exists_eq_mapping with ⟨entries, rfl, _⟩
  rfl

/-- With the given fuel, what is written is read back. -/
structure ReadsBack (fuel : Nat) : Prop where
  body {keyed : Bool} {node : Node} (h : node.IsWritten keyed)
    (hfuel : 2 * node.bodyTokens.length + 2 ≤ fuel) (rest : List Token)
    (hrest : keyed = true → endsEntry rest = true) :
    read fuel keyed node.tag? (node.bodyTokens ++ rest) = (node, rest)
  node {keyed : Bool} {node : Node} (h : node.IsWritten keyed)
    (hfuel : 2 * node.tokens.length + 2 ≤ fuel) (rest : List Token)
    (hrest : keyed = true → endsEntry rest = true) :
    read fuel keyed none (node.tokens ++ rest) = (node, rest)
  items {items : List Node} (h : AreWritten items)
    (hfuel : 2 * (itemTokens items).length + 1 ≤ fuel) (rest : List Token)
    (hrest : endsEntry rest = true) :
    readItems fuel false (itemTokens items ++ rest) = (items, rest)
  entries {entries : List (Node × Node)} (h : EntriesAreWritten entries)
    (hfuel : 2 * (entryTokens entries).length + 1 ≤ fuel)
    (rest : List Token) :
    readEntries fuel (entryTokens entries ++ .blockEnd :: rest) =
      (entries, rest)

theorem readsBack_zero : ReadsBack 0 where
  body _ hfuel := by omega
  node _ hfuel := by omega
  items _ hfuel := by omega
  entries _ hfuel := by omega

theorem ReadsBack.body_succ
    {fuel : Nat} (ih : ReadsBack fuel) {keyed : Bool} {node : Node}
    (h : node.IsWritten keyed)
    (hfuel : 2 * node.bodyTokens.length + 2 ≤ fuel + 1)
    (rest : List Token)
    (hrest : keyed = true → endsEntry rest = true) :
    read (fuel + 1) keyed node.tag? (node.bodyTokens ++ rest) =
      (node, rest) := by
  cases node with
  | scalar tag plain text => rfl
  | broken => exact h.elim
  | sequence tag items =>
      cases items with
      | nil => rfl
      | cons item items =>
          obtain rfl : keyed = true := h.1
          have hbody : (Node.sequence tag (item :: items)).bodyTokens =
              itemTokens (item :: items) := rfl
          rw [hbody] at hfuel ⊢
          have hitems := ih.items h.2 (by omega) rest (hrest rfl)
          rw [itemTokens, List.cons_append] at hitems ⊢
          rw [read]
          simp only [if_true, hitems]
          rfl
  | mapping tag entries =>
      rw [bodyTokens, List.length_cons, List.length_append] at hfuel
      have hentries := ih.entries h.2.2 (by omega) rest
      rw [bodyTokens, List.cons_append, List.append_assoc,
        List.singleton_append, read]
      simp only [hentries]
      rfl

theorem ReadsBack.node_succ
    {fuel : Nat} (ih : ReadsBack fuel) {keyed : Bool} {node : Node}
    (h : node.IsWritten keyed)
    (hfuel : 2 * node.tokens.length + 2 ≤ fuel + 1)
    (rest : List Token)
    (hrest : keyed = true → endsEntry rest = true) :
    read (fuel + 1) keyed none (node.tokens ++ rest) = (node, rest) := by
  cases htag : node.tag? with
  | none =>
      have htokens : node.tokens = node.bodyTokens := by
        simp [tokens, tagTokens, htag]
      rw [htokens] at hfuel ⊢
      rw [← htag]
      exact ih.body_succ h hfuel rest hrest
  | some name =>
      have htokens : node.tokens = .tag name :: node.bodyTokens := by
        simp [tokens, tagTokens, htag]
      rw [htokens, List.length_cons] at hfuel
      rw [htokens, List.cons_append, read, if_pos Option.isNone_none, ← htag]
      exact ih.body h (by omega) rest hrest

theorem ReadsBack.items_succ
    {fuel : Nat} (ih : ReadsBack fuel) {items : List Node}
    (h : AreWritten items)
    (hfuel : 2 * (itemTokens items).length + 1 ≤ fuel + 1)
    (rest : List Token)
    (hrest : endsEntry rest = true) :
    readItems (fuel + 1) false (itemTokens items ++ rest) =
      (items, rest) := by
  cases items with
  | nil =>
      rw [itemTokens, List.nil_append]
      unfold endsEntry at hrest
      split at hrest
      · rfl
      · rfl
      · rfl
      · contradiction
  | cons item items =>
      have htokens : itemTokens (item :: items) =
          .entry :: (item.tokens ++ itemTokens items) := by
        rw [itemTokens, tokens, List.append_assoc]
      rw [htokens, List.length_cons, List.length_append] at hfuel
      rw [htokens, List.cons_append, List.append_assoc, readItems]
      simp only [endsItem_tokens h.1, Bool.false_eq_true, if_false,
        ih.node h.1 (by omega) _ (by simp),
          ih.items h.2 (by omega) rest hrest]

theorem ReadsBack.entries_succ
    {fuel : Nat} (ih : ReadsBack fuel) {entries : List (Node × Node)}
    (h : EntriesAreWritten entries)
    (hfuel : 2 * (entryTokens entries).length + 1 ≤ fuel + 1)
    (rest : List Token) :
    readEntries (fuel + 1) (entryTokens entries ++ .blockEnd :: rest) =
      (entries, rest) := by
  cases entries with
  | nil => rfl
  | cons entry entries =>
      rcases entry with ⟨key, value⟩
      rcases h with ⟨hscalar, hproper, hvalue, hentries⟩
      generalize key.keyText = text at hscalar
      subst hscalar
      have htokens :
          entryTokens ((.scalar none true text, value) :: entries) =
          .key :: .scalar true text :: .value ::
            (value.tokens ++ entryTokens entries) := by
        rw [entryTokens, tokens, List.append_assoc]
        rfl
      have hnext :
          endsEntry (entryTokens entries ++ .blockEnd :: rest) = true := by
        cases entries <;> rfl
      rw [htokens] at hfuel ⊢
      simp only [List.length_cons, List.length_append] at hfuel
      rcases Nat.exists_eq_add_of_le' (show 1 ≤ fuel by omega) with ⟨k, rfl⟩
      have hread := ih.node hvalue (by omega)
        (entryTokens entries ++ .blockEnd :: rest) fun _ => hnext
      have hkey : ∀ more, read (k + 1) true none (.scalar true text :: more) =
          (.scalar none true text, more) := fun more => rfl
      have hkeeps : ∀ more, endsEntry (.scalar true text :: more) = false :=
        fun more => rfl
      simp only [List.cons_append, List.append_assoc]
      rw [readEntries]
      simp only [hkeeps, Bool.false_eq_true, if_false, hkey,
        endsEntry_tokens hvalue, hread, ih.entries hentries (by omega) rest]

theorem readsBack
    (fuel : Nat) :
    ReadsBack fuel := by
  induction fuel with
  | zero => exact readsBack_zero
  | succ fuel ih =>
      exact ⟨ih.body_succ, ih.node_succ, ih.items_succ, ih.entries_succ⟩

end Node

namespace Document

theorem readRoot_tokens
    {entries : List (Node × Node)}
    (h : (Node.mapping none entries).IsWritten false)
    (marked : Bool) (rest : List Token) :
    readRoot marked ((Node.mapping none entries).tokens ++ rest) =
      (.mapping none entries, rest) := by
  have hlength : 2 * (Node.mapping none entries).tokens.length + 2 ≤
      2 * ((Node.mapping none entries).tokens ++ rest).length + 2 := by
    rw [List.length_append]
    omega
  exact (Node.readsBack _).node h hlength rest (by simp)

theorem ofTokens_tokens
    {entries : List (Node × Node)}
    (h : (Node.mapping none entries).IsWritten false) :
    ofTokens ((Node.mapping none entries).tokens ++ [.textEnd]) =
      ⟨.mapping none entries, true⟩ := by
  have hroot : ofTokens ((Node.mapping none entries).tokens ++ [.textEnd]) =
      ⟨(readRoot false ((Node.mapping none entries).tokens ++ [.textEnd])).1,
        (readRoot false
          ((Node.mapping none entries).tokens ++ [.textEnd])).2.dropWhile
          (· = Token.documentEnd) = [.textEnd]⟩ := rfl
  rw [hroot, readRoot_tokens h]
  rfl

end Document

end ThreeAddress.Yaml
