import ThreeAddress.Program
import ThreeAddress.Proofs.BlockLayout
import ThreeAddress.Proofs.Literals
import ThreeAddress.Proofs.Names

/-!
# The document of a program

The rows of a program are those of its node, and the node can be written:
keys, numbers and the names of types and operators are bare, and so are the
names of symbols, while the texts of constants and the reserved names stand in
quotes.
-/

namespace ThreeAddress.Program

open Yaml (Node Field Content Document IsBare byteSize keyLimit)

/-- An entry of a mapping under a plain key. -/
def entry (key : String) (value : Node) : Node × Node :=
  (.scalar none true key, value)

def plainNode (text : String) : Node := .scalar none true text

def identifierEntries (id : Identifier) : List (Node × Node) :=
  [entry "attribute" (plainNode (Numeral.text id.attr)),
    entry "type" (plainNode id.type.name),
    entry "provenance" (plainNode id.provenance.name)]

def literalEntries (literal : Literal) : List (Node × Node) :=
  [entry "text" (.scalar none false literal.text),
    entry "kind" (plainNode literal.type.name)]

def operandNode : Option Operand → Node
  | none => plainNode "null"
  | some (.identifier id) =>
    .mapping (some "identifier") (identifierEntries id)
  | some (.number literal) =>
    .mapping (some "number") (literalEntries literal)

def commandNode (c : Command) : Node :=
  .mapping none
    [entry "operator" (plainNode (operatorName c.operator)),
      entry "receiver" (.mapping none (identifierEntries c.receiver)),
      entry "left" (operandNode c.left?),
        entry "right" (operandNode c.right?)]

def symbolNode (row : SymbolRow) : Node :=
  .mapping none
    [entry "name" (.scalar none (!reservedNames.contains row.name) row.name),
      entry "type" (plainNode row.type.name),
        entry "provenance" (plainNode row.provenance.name)]

def entries (p : Program) : List (Node × Node) :=
  [entry "code" (.sequence none (p.code.map commandNode)),
    entry "symbols" (.sequence none (p.symbols.rows.map symbolNode))]

/-! ## Rows -/

theorem itemFields_commandNode
    (c : Command) (rest : List Node) :
    Node.itemFields 0 (commandNode c :: rest) =
      commandFields c ++ Node.itemFields 0 rest := by
  have hoperand : ∀ (key : String) (operand : Option Operand),
      Node.entryFields 2 false [entry key (operandNode operand)] =
        operandFields key operand := by
    intro key operand
    rcases operand with _ | operand
    · rfl
    · cases operand <;> rfl
  change (_ :: Node.entryFields 2 false ([entry "receiver" _] ++
    [entry "left" (operandNode c.left?)] ++
        [entry "right" (operandNode c.right?)])) ++ _ = _
  rw [Node.entryFields_append, Node.entryFields_append, hoperand, hoperand]
  rfl

theorem itemFields_symbolNode
    (row : SymbolRow) (rest : List Node) :
    Node.itemFields 0 (symbolNode row :: rest) =
      symbolFields row ++ Node.itemFields 0 rest := by
  cases hreserved : reservedNames.contains row.name with
  | false =>
      rw [symbolNode, symbolFields, nameContent, hreserved]
      rfl
  | true =>
      rw [symbolNode, symbolFields, nameContent, hreserved]
      rfl

theorem listFields_map
    {α : Type} {write : α → List Field} {node : α → Node}
    (h : ∀ a rest,
      Node.itemFields 0 (node a :: rest) = write a ++ Node.itemFields 0 rest)
    (key : String) (items : List α) :
    listFields key (items.map write) =
      Node.entryFields 0 false
        [entry key (.sequence none (items.map node))] := by
  have hitems :
      Node.itemFields 0 (items.map node) = (items.map write).flatten := by
    induction items with
    | nil => rfl
    | cons a items ih =>
        rw [List.map_cons, h, ih, List.map_cons, List.flatten_cons]
  cases items with
  | nil => rfl
  | cons a items =>
      rw [listFields, if_neg (by simp), ← hitems]
      simp only [Node.entryFields, List.append_nil]
      rfl

theorem fields_eq
    (p : Program) :
    p.fields = Node.entryFields 0 false p.entries := by
  rw [fields, listFields_map itemFields_commandNode,
    listFields_map itemFields_symbolNode, ← Node.entryFields_append]
  rfl

/-! ## Written form -/

def keys : List String :=
  ["attribute", "type", "provenance", "text", "kind", "operator", "receiver",
    "left", "right",
    "name", "code", "symbols"]

theorem entriesAreWritten_cons
    {key : String}
    (hkey : key ∈ keys)
    (value : Node)
    (htag : ∀ name ∈ value.tag?, IsBare name.toList)
    (hinline : value.inline.IsProper)
    (hvalue : value.IsWritten true)
    {rest : List (Node × Node)}
    (hrest : Node.EntriesAreWritten rest) :
    Node.EntriesAreWritten (entry key value :: rest) := by
  have hkeys : keys.all
      (fun key => IsBare key.toList ∧ byteSize key.toList ≤ keyLimit) =
        true := by decide
  have hbare := List.all_eq_true.mp hkeys key hkey
  rw [decide_eq_true_iff] at hbare
  exact ⟨rfl, ⟨hbare.1, hbare.2, htag, hinline⟩, hvalue, hrest⟩

theorem entriesAreWritten_plain
    {key : String}
    (hkey : key ∈ keys)
    {text : String}
    (htext : IsBare text.toList)
    {rest : List (Node × Node)}
    (hrest : Node.EntriesAreWritten rest) :
    Node.EntriesAreWritten (entry key (plainNode text) :: rest) :=
  entriesAreWritten_cons hkey (plainNode text)
    (by simp [plainNode, Node.tag?]) htext rfl hrest

theorem entriesAreWritten_mapping
    {key : String}
    (hkey : key ∈ keys)
    {tag : Option String}
    (htag : ∀ name ∈ tag, IsBare name.toList)
    {inner : List (Node × Node)}
    (hne : inner ≠ [])
    (hinner : Node.EntriesAreWritten inner)
    {rest : List (Node × Node)}
    (hrest : Node.EntriesAreWritten rest) :
    Node.EntriesAreWritten (entry key (.mapping tag inner) :: rest) :=
  entriesAreWritten_cons hkey (.mapping tag inner) htag trivial
    ⟨by simp, hne, hinner⟩ hrest

theorem isBare_of_isName
    {text : List Char}
    (h : isName text = true) :
    IsBare text := by
  cases text with
  | nil => exact absurd h (by decide)
  | cons c rest =>
      rw [isName, Bool.and_eq_true, List.all_eq_true] at h
      refine ⟨List.cons_ne_nil c rest, ?_⟩
      rw [List.forall_mem_cons]
      refine ⟨?_, h.2⟩
      have hstart := h.1
      simp only [isNameStart, isNameChar, Char.isAlphanum,
        Bool.or_eq_true] at hstart ⊢
      rcases hstart with halpha | hunderscore
      · exact .inl (.inl halpha)
      · exact .inr hunderscore

theorem isNameChar_of_isDigit
    {c : Char}
    (h : c.isDigit = true) :
    isNameChar c = true := by
  simp [isNameChar, Char.isAlphanum, h]

theorem isBare_text
    (n : Nat) :
    IsBare (Numeral.text n).toList := by
  rw [Numeral.text, String.toList_ofList]
  exact ⟨Numeral.digits_ne_nil n,
    fun c hc => isNameChar_of_isDigit (Numeral.isDigit_of_mem_digits hc)⟩

theorem isProper_text
    (literal : Literal) :
    (Content.quoted literal.text).IsProper := by
  intro c hc
  rcases literal.isDigit_or_eq_point hc with hdigit | hpoint
  · exact .inl (isNameChar_of_isDigit hdigit)
  · exact .inr hpoint

theorem isBare_typeName
    (type : ValueType) :
    IsBare type.name.toList := by
  cases type <;> decide

theorem isBare_provenanceName
    (provenance : Provenance) :
    IsBare provenance.name.toList := by
  cases provenance <;> decide

theorem identifierEntries_areWritten
    (id : Identifier) :
    Node.EntriesAreWritten (identifierEntries id) := by
  apply entriesAreWritten_plain (by decide) (isBare_text id.attr)
  apply entriesAreWritten_plain (by decide) (isBare_typeName id.type)
  exact entriesAreWritten_plain (by decide)
    (isBare_provenanceName id.provenance) trivial

theorem literalEntries_areWritten
    (literal : Literal) :
    Node.EntriesAreWritten (literalEntries literal) := by
  apply entriesAreWritten_cons (by decide) (.scalar none false literal.text)
    (by simp [Node.tag?]) (isProper_text literal) rfl
  exact entriesAreWritten_plain (by decide)
    (isBare_typeName literal.type) trivial

theorem entriesAreWritten_operand
    {key : String}
    (hkey : key ∈ keys)
    (operand : Option Operand) {rest : List (Node × Node)}
    (hrest : Node.EntriesAreWritten rest) :
    Node.EntriesAreWritten (entry key (operandNode operand) :: rest) := by
  have hidentifier : IsBare "identifier".toList := by decide
  have hnumber : IsBare "number".toList := by decide
  rcases operand with _ | operand
  · exact entriesAreWritten_plain hkey (by decide) hrest
  · cases operand with
    | identifier id =>
        exact entriesAreWritten_mapping hkey (by simpa) (List.cons_ne_nil _ _)
          (identifierEntries_areWritten id) hrest
    | number literal =>
        exact entriesAreWritten_mapping hkey (by simpa) (List.cons_ne_nil _ _)
          (literalEntries_areWritten literal) hrest

theorem commandNode_isWritten
    (c : Command) :
    (commandNode c).IsWritten false := by
  have hoperator : IsBare (operatorName c.operator).toList := by
    cases c.operator <;> decide
  refine ⟨fun _ => rfl, List.cons_ne_nil _ _, ?_⟩
  apply entriesAreWritten_plain (by decide) hoperator
  apply entriesAreWritten_mapping (by decide) (by simp) (List.cons_ne_nil _ _)
    (identifierEntries_areWritten c.receiver)
  apply entriesAreWritten_operand (by decide)
  exact entriesAreWritten_operand (by decide) _ trivial

theorem symbolNode_isWritten
    {row : SymbolRow}
    (h : isName row.name.toList = true) :
    (symbolNode row).IsWritten false := by
  have hbare := isBare_of_isName h
  have hname :
      (Node.scalar none (!reservedNames.contains row.name)
      row.name).inline.IsProper := by
    cases reservedNames.contains row.name with
    | false => exact hbare
    | true => exact fun c hc => .inl (hbare.2 c hc)
  refine ⟨fun _ => rfl, List.cons_ne_nil _ _, ?_⟩
  apply entriesAreWritten_cons (by decide) _ (by simp [Node.tag?]) hname rfl
  apply entriesAreWritten_plain (by decide) (isBare_typeName row.type)
  exact entriesAreWritten_plain (by decide)
    (isBare_provenanceName row.provenance) trivial

theorem entriesAreWritten_list
    {key : String}
    (hkey : key ∈ keys)
    {items : List Node}
    (h : ∀ item ∈ items, item.IsWritten false)
    {rest : List (Node × Node)}
    (hrest : Node.EntriesAreWritten rest) :
    Node.EntriesAreWritten (entry key (.sequence none items) :: rest) := by
  have hinline : (Node.sequence none items).inline.IsProper := by
    cases items <;> trivial
  exact entriesAreWritten_cons hkey _ (by simp [Node.tag?]) hinline
    ⟨rfl, Node.areWritten_iff.mpr h⟩ hrest

theorem entries_areWritten
    {p : Program}
    (h : p.symbols.HasNames) :
    Node.EntriesAreWritten p.entries := by
  apply entriesAreWritten_list (by decide)
  · intro item hitem
    rcases List.mem_map.mp hitem with ⟨c, _, rfl⟩
    exact commandNode_isWritten c
  · refine entriesAreWritten_list (by decide) ?_ trivial
    intro item hitem
    rcases List.mem_map.mp hitem with ⟨row, hrow, rfl⟩
    exact symbolNode_isWritten (h.valid row hrow)

/-- The text of a program is read as its node. -/
theorem document_toText
    {p : Program}
    (h : p.symbols.HasNames) :
    Document.ofText p.toText = ⟨.mapping none p.entries, true⟩ := by
  have hwritten : (Node.mapping none p.entries).IsWritten false :=
    ⟨fun _ => rfl, List.cons_ne_nil _ _, entries_areWritten h⟩
  rw [toText, fields_eq]
  exact Document.ofText_entryFields hwritten

end ThreeAddress.Program
