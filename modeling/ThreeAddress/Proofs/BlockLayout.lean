import ThreeAddress.Proofs.Nesting

/-!
# Nodes and their rows

A node is written in block style.  The value of a key stands in the row of the
key, or in the rows below it, two columns further to the right; the items of a
list have their dashes in the column of the key.  The rows of a document are
scanned into the tokens of its node, so that the document is read back.
-/

namespace ThreeAddress.Yaml

namespace Node

mutual

/-- The rows of a value below that of its key. -/
def lowerFields (column : Nat) : Node → List Field
  | .sequence _ items => itemFields column items
  | .mapping _ entries => entryFields (column + 2) false entries
  | _ => []

def itemFields (column : Nat) : List Node → List Field
  | .mapping _ entries :: rest =>
    entryFields column true entries ++ itemFields column rest
  | _ => []

def entryFields (indent : Nat) (dashed : Bool) :
    List (Node × Node) → List Field
  | [] => []
  | (key, value) :: rest =>
    header indent dashed key value ::
      (value.lowerFields (if dashed then indent + 2 else indent) ++
      entryFields (if dashed then indent + 2 else indent) false rest)

end

theorem entryFields_append
    (column : Nat) (entries others : List (Node × Node)) :
    entryFields column false (entries ++ others) =
      entryFields column false entries ++
        entryFields column false others := by
  induction entries with
  | nil => rfl
  | cons entry entries ih =>
      rcases entry with ⟨key, value⟩
      rw [List.cons_append, entryFields, entryFields]
      simp only [Bool.false_eq_true, if_false, ih, List.cons_append,
        List.append_assoc]

theorem isProper_header
    {key value : Node}
    (h : (header 0 false key value).IsProper)
    (indent : Nat) (dashed : Bool) :
    (header indent dashed key value).IsProper :=
  ⟨h.key, h.size, h.tag, h.content⟩

theorem outdents_entryFields
    {entries : List (Node × Node)}
    (h : EntriesAreWritten entries)
    {indent column : Nat}
    (hlt : indent < column)
    (dashed : Bool) {rest : List Field}
    (hrest : Margin.Outdents column rest) :
    Margin.Outdents column (entryFields indent dashed entries ++ rest) := by
  cases entries with
  | nil => exact hrest
  | cons entry entries =>
      rintro f ⟨⟩
      exact ⟨isProper_header h.2.1 indent dashed, hlt⟩

theorem outdents_itemFields
    {items : List Node}
    (h : AreWritten items)
    {indent column : Nat}
    (hlt : indent < column)
    {rest : List Field}
    (hrest : Margin.Outdents column rest) :
    Margin.Outdents column (itemFields indent items ++ rest) := by
  cases items with
  | nil => exact hrest
  | cons item items =>
      rcases h.1.exists_eq_mapping with ⟨entries, rfl, hne, hentries⟩
      rcases List.exists_cons_of_ne_nil hne with ⟨entry, others, rfl⟩
      rintro f ⟨⟩
      exact ⟨isProper_header hentries.2.1 indent true, hlt⟩

/-! ## Blocks -/

open Margin

/-- Entries further to the right than all blocks open a mapping. -/
theorem finish_mapping
    {entries : List (Node × Node)}
    (h : EntriesAreWritten entries)
    (hne : entries ≠ [])
    {columns : List Nat} {column : Nat}
    (hcolumn : columns.head?.all (· < column) = true)
    (rest : List Field) :
    finish ⟨columns, none⟩ (entryFields column false entries ++ rest) =
      .mappingStart ::
        finish ⟨column :: columns, none⟩
          (entryFields column false entries ++ rest) := by
  have hwithin : Within columns column := by
    intro c hc
    rw [Option.mem_def.mp hc] at hcolumn
    simpa using Nat.le_of_lt (by simpa using hcolumn)
  rcases List.exists_cons_of_ne_nil hne with ⟨⟨key, value⟩, others, rfl⟩
  have hf := isProper_header h.2.1 column false
  have hbase :
      base ⟨columns, none⟩ (header column false key value) = columns :=
    hwithin.remaining_eq
  have hopened : opened columns column = column :: columns := if_pos hcolumn
  have hblock : blockTokens ⟨columns, none⟩ (header column false key value) =
      [.mappingStart] := by
    rw [blockTokens, hbase]
    simp [header, Field.keyColumn, opening, hcolumn, hwithin.closing_eq]
  rw [entryFields, List.cons_append,
    finish_of_opens hf (by rw [hbase]; exact hopened), hbase, hblock]
  rfl

/-- Dashed entries in the column of a key open a mapping in an item. -/
theorem finish_item
    {entries : List (Node × Node)}
    (h : EntriesAreWritten entries)
    (hne : entries ≠ [])
    (column : Nat) (columns : List Nat) (rest : List Field) :
    finish ⟨column :: columns, none⟩
        (entryFields column true entries ++ rest) =
      .entry :: .mappingStart ::
        finish ⟨(column + 2) :: column :: columns, none⟩
          (entryFields (column + 2) false entries ++ rest) := by
  rcases List.exists_cons_of_ne_nil hne with ⟨⟨key, value⟩, others, rfl⟩
  have hf := isProper_header h.2.1 column true
  have hbase : base ⟨column :: columns, none⟩ (header column true key value) =
      column :: columns := by
    simp [base, header, remaining, opened]
  have hopened : opened (column :: columns) (column + 2) =
      (column + 2) :: column :: columns := by
    simp [opened]
  have hblock :
      blockTokens ⟨column :: columns, none⟩ (header column true key value) =
      [.entry, .mappingStart] := by
    rw [blockTokens, hbase]
    simp [header, Field.keyColumn, opening, closing, remaining]
  rw [entryFields, List.cons_append,
    finish_of_opens hf (by rw [hbase]; exact hopened), hbase, hblock]
  rfl

-- What follows a value must not stand further to the right than its key: only
-- there does a plain scalar end, and so do the blocks below the key.
mutual

theorem finish_lowerFields
    {node : Node}
    (h : node.IsWritten true)
    (hproper : node.inline.IsProper)
    (column : Nat) (columns : List Nat) {rest : List Field}
    (hrest : Outdents (column + 1) rest) :
    node.inline.tokens ++
        finish ⟨column :: columns, node.inline.pending?⟩
          (node.lowerFields column ++ rest) =
      node.bodyTokens ++ finish ⟨column :: columns, none⟩ rest := by
  cases node with
  | scalar tag plain text =>
      cases plain with
      | false => rfl
      | true => exact finish_of_pending hrest columns hproper
  | sequence tag items =>
      cases items with
      | nil => rfl
      | cons item items => exact finish_itemFields h.2 column columns hrest
  | mapping tag entries =>
      rcases h with ⟨_, hne, hentries⟩
      have hinner : Outdents (column + 2) rest := hrest.mono (by omega)
      change finish ⟨column :: columns, none⟩
        (entryFields (column + 2) false entries ++ rest) = _
      rw [finish_mapping hentries hne (by simp),
        finish_entryFields hentries _ _ (hrest.mono (by omega)),
          finish_of_outdents hinner,
        bodyTokens, List.cons_append, List.append_assoc,
          List.singleton_append]
  | broken => exact h.elim

theorem finish_itemFields
    {items : List Node}
    (h : AreWritten items)
    (column : Nat) (columns : List Nat) {rest : List Field}
    (hrest : Outdents (column + 1) rest) :
    finish ⟨column :: columns, none⟩ (itemFields column items ++ rest) =
      itemTokens items ++ finish ⟨column :: columns, none⟩ rest := by
  cases items with
  | nil => rfl
  | cons item items =>
      cases item with
      | mapping tag entries =>
          rcases h with ⟨⟨htag, hne, hentries⟩, hitems⟩
          obtain rfl := htag rfl
          have hnext := outdents_itemFields hitems
              (Nat.lt_succ_self column) hrest
          have htokens : itemTokens (.mapping none entries :: items) =
              .entry :: .mappingStart ::
              (entryTokens entries ++ .blockEnd :: itemTokens items) := by
            simp [itemTokens, tagTokens, tag?, bodyTokens]
          rw [itemFields, List.append_assoc, finish_item hentries hne,
            finish_entryFields hentries _ _ (hnext.mono (by omega)),
            finish_of_outdents (hnext.mono (by omega)),
              finish_itemFields hitems _ _ hrest, htokens]
          simp
      | scalar tag plain text =>
          exact absurd (show false = true from h.1) (by decide)
      | sequence tag others => exact absurd h.1.1 (by decide)
      | broken => exact h.1.elim

theorem finish_entryFields
    {entries : List (Node × Node)}
    (h : EntriesAreWritten entries)
    (column : Nat) (columns : List Nat) {rest : List Field}
    (hrest : Outdents (column + 1) rest) :
    finish ⟨column :: columns, none⟩
        (entryFields column false entries ++ rest) =
      entryTokens entries ++ finish ⟨column :: columns, none⟩ rest := by
  cases entries with
  | nil => rfl
  | cons entry entries =>
      rcases entry with ⟨key, value⟩
      rcases h with ⟨hkey, hproper, hvalue, hentries⟩
      have hf := isProper_header hproper column false
      have hnext := outdents_entryFields hentries
          (Nat.lt_succ_self column) false hrest
      have hlower :=
        finish_lowerFields hvalue hproper.content column columns hnext
      have hindent : (header column false key value).indent = column := rfl
      have hrow : fieldTokens (header column false key value) =
          .key :: (key.bodyTokens ++ .value :: value.tagTokens) ++
            value.inline.tokens := by
        rw [hkey]
        rfl
      rw [entryFields, List.cons_append, List.append_assoc,
        finish_cons_aligned hf rfl hindent, hrow, List.append_assoc]
      change _ ++ (value.inline.tokens ++ finish ⟨_, value.inline.pending?⟩
        (value.lowerFields column ++
          (entryFields column false entries ++ rest))) = _
      rw [hlower, finish_entryFields hentries _ _ hrest, entryTokens]
      simp

end

/-! ## Documents -/

mutual

theorem isProper_of_mem_lowerFields
    {node : Node} {keyed : Bool}
    (h : node.IsWritten keyed)
    {column : Nat} {f : Field}
    (hf : f ∈ node.lowerFields column) :
    f.IsProper := by
  cases node with
  | scalar tag plain text => simp [lowerFields] at hf
  | sequence tag items => exact isProper_of_mem_itemFields h.2 hf
  | mapping tag entries => exact isProper_of_mem_entryFields h.2.2 hf
  | broken => exact h.elim

theorem isProper_of_mem_itemFields
    {items : List Node}
    (h : AreWritten items)
    {column : Nat} {f : Field}
    (hf : f ∈ itemFields column items) :
    f.IsProper := by
  cases items with
  | nil => simp [itemFields] at hf
  | cons item items =>
      cases item with
      | mapping tag entries =>
          rw [itemFields, List.mem_append] at hf
          rcases hf with hentry | hitem
          · exact isProper_of_mem_entryFields h.1.2.2 hentry
          · exact isProper_of_mem_itemFields h.2 hitem
      | scalar tag plain text => simp [itemFields] at hf
      | sequence tag others => simp [itemFields] at hf
      | broken => exact h.1.elim

theorem isProper_of_mem_entryFields
    {entries : List (Node × Node)}
    (h : EntriesAreWritten entries)
    {indent : Nat} {dashed : Bool} {f : Field}
    (hf : f ∈ entryFields indent dashed entries) :
    f.IsProper := by
  cases entries with
  | nil => simp [entryFields] at hf
  | cons entry entries =>
      rcases entry with ⟨key, value⟩
      rcases h with ⟨hkey, hproper, hvalue, hentries⟩
      rw [entryFields, List.mem_cons, List.mem_append] at hf
      rcases hf with rfl | hlower | hentry
      · exact isProper_header hproper indent dashed
      · exact isProper_of_mem_lowerFields hvalue hlower
      · exact isProper_of_mem_entryFields hentries hentry

end

theorem finish_document
    {entries : List (Node × Node)}
    (h : (mapping none entries).IsWritten false) :
    finish ⟨[], none⟩ (entryFields 0 false entries) =
      (mapping none entries).tokens ++ [.textEnd] := by
  rcases h with ⟨_, hne, hentries⟩
  have hrest : Outdents 0 [] := by simp [Outdents]
  rw [← List.append_nil (entryFields 0 false entries),
    finish_mapping hentries hne rfl,
    finish_entryFields hentries _ _ (hrest.mono (by omega)),
    finish_of_outdents hrest, finish_nil _ (by simp)]
  simp [tokens, tagTokens, tag?, bodyTokens]

end Node

/-- A document is read back from its rows. -/
theorem Document.ofText_entryFields
    {entries : List (Node × Node)}
    (h : (Node.mapping none entries).IsWritten false) :
    Document.ofText
        (String.join ((Node.entryFields 0 false entries).map
          (·.text ++ "\n"))) =
      ⟨.mapping none entries, true⟩ := by
  rw [Document.ofText,
    tokensOf_fields fun f => Node.isProper_of_mem_entryFields h.2.2,
    Node.finish_document h]
  exact Document.ofTokens_tokens h

end ThreeAddress.Yaml
