import ThreeAddress.Proofs.ProgramNodes

/-!
# Programs read back from their text

Reading a program takes the objects out of the node again, and every check
that it makes holds of a program that was accepted before it was written: an
attribute refers to a row and so has 64 bits, a literal is read from its own
text, a command has an operand, and the rows have valid names, all different.
-/

namespace ThreeAddress.Program

open Yaml (Node)

/-! ## Numbers -/

theorem foldl_readDigits
    {row : List Char}
    (h : ∀ c ∈ row, c.isDigit = true)
    (n : Nat) :
    row.foldl (fun n c => do
        let d ← digitValue? c
        if d < 10 then some (10 * (← n) + d) else none) (some n) =
      some (row.foldl (fun n c => 10 * n + (c.toNat - '0'.toNat)) n) := by
  induction row generalizing n with
  | nil => rfl
  | cons c rest ih =>
      rw [List.forall_mem_cons] at h
      have hvalue : digitValue? c = some (c.toNat - '0'.toNat) := if_pos h.1
      have hlt : c.toNat - '0'.toNat < 10 := by
        have hdigit : '0'.toNat ≤ c.toNat ∧ c.toNat ≤ '9'.toNat := by
          simpa [Char.isDigit, UInt32.le_iff_toNat_le] using h.1
        have hwidth : '9'.toNat = '0'.toNat + 9 := rfl
        omega
      rw [List.foldl_cons, List.foldl_cons, ← ih h.2]
      simp only [hvalue, Option.bind_eq_bind, Option.bind_some, hlt, if_true]

theorem readDigits_ten
    {row : List Char}
    (h : Numeral.isNumeral row = true) :
    readDigits 10 row = some (Numeral.value row) := by
  rcases Numeral.isNumeral_iff.mp h with ⟨hne, hdigit⟩
  rw [readDigits, if_neg (by simpa using hne), foldl_readDigits hdigit]
  rfl

theorem readUnsigned_digits
    (n : Nat) :
    readUnsigned (Numeral.digits n) = some n := by
  rcases Nat.eq_zero_or_pos n with rfl | hn
  · rw [Numeral.digits, if_pos (by decide)]
    rfl
  · have hread := readDigits_ten (Numeral.isNumeral_digits n)
    have hzero := Numeral.head?_digits_ne_zero hn
    have hplus : (Numeral.digits n).head? ≠ some '+' := by
      intro hhead
      exact absurd (Numeral.isDigit_of_mem_digits
        (List.mem_of_mem_head? hhead)) (by decide)
    rw [readUnsigned, if_neg hplus]
    split
    · next hrow => simp [hrow] at hzero
    · next hrow => simp [hrow] at hzero
    · next hrow => simp [hrow] at hzero
    · next hrow => simp [hrow] at hzero
    · rw [hread, Numeral.value_digits]

theorem readAttribute_text
    {n : Nat}
    (h : n < 2 ^ 64) :
    readAttribute (plainNode (Numeral.text n)) = .ok n := by
  have hunsigned : readUnsigned (Numeral.text n).toList = some n := by
    rw [Numeral.text, String.toList_ofList, readUnsigned_digits]
  rw [plainNode, readAttribute, hunsigned]
  exact if_pos h

/-! ## Names -/

theorem readType_name
    (type : ValueType) :
    readType (plainNode type.name) = .ok type := by
  cases type <;> rfl

theorem readProvenance_name
    (provenance : Provenance) :
    readProvenance (plainNode provenance.name) = .ok provenance := by
  cases provenance <;> rfl

theorem readOperator_name
    (op : Operator) :
    readOperator (plainNode (operatorName op)) = .ok op := by
  cases op <;> rfl

/-! ## Objects -/

theorem readEntries_entry
    {σ : Type} {step : σ → String → Node → Option (Reading σ)}
    {state next : σ} {key : String} {value : Node}
    (h : step state key value = some (.ok next))
    (rest : List (Node × Node)) :
    readEntries step state (entry key value :: rest) =
      readEntries step next rest := by
  rw [entry, readEntries]
  simp only [readText, Success.ok_bind, h]

theorem map_once
    {α σ : Type} {value : Reading α} {a : α}
    (h : value = .ok a)
    (put : Option α → σ) :
    (once none value).map put = .ok (put (some a)) := by
  rw [h]
  rfl

theorem readIdentifier_entries
    {id : Identifier}
    (h : id.attr < 2 ^ 64)
    (tag : Option String) :
    readIdentifier (.mapping tag (identifierEntries id)) = .ok id := by
  have hattr :
      IdentifierDraft.step {} "attribute" (plainNode (Numeral.text id.attr)) =
      some (.ok ⟨some id.attr, none, none⟩) :=
    congrArg some (map_once (readAttribute_text h) _)
  have htype : IdentifierDraft.step ⟨some id.attr, none, none⟩ "type"
      (plainNode id.type.name) =
        some (.ok ⟨some id.attr, some id.type, none⟩) :=
    congrArg some (map_once (readType_name id.type) _)
  have hprovenance :
      IdentifierDraft.step ⟨some id.attr, some id.type, none⟩ "provenance"
      (plainNode id.provenance.name) =
        some (.ok ⟨some id.attr, some id.type, some id.provenance⟩) :=
    congrArg some (map_once (readProvenance_name id.provenance) _)
  have hmake : Identifier.make id.attr id.type id.provenance = .ok id :=
    dif_pos id.positive
  rw [readIdentifier, entriesOf, identifierEntries, Success.ok_bind,
    readEntries_entry hattr, readEntries_entry htype,
    readEntries_entry hprovenance, readEntries, Success.ok_bind]
  simp only [required, Success.ok_bind, hmake]
  rfl

theorem readLiteral_entries
    (literal : Literal) (tag : Option String) :
    readLiteral (.mapping tag (literalEntries literal)) = .ok literal := by
  have htext : LiteralDraft.step {} "text" (.scalar none false literal.text) =
      some (.ok ⟨some literal.text, none⟩) := rfl
  have hkind : LiteralDraft.step ⟨some literal.text, none⟩ "kind"
      (plainNode literal.type.name) =
        some (.ok ⟨some literal.text, some literal.type⟩) :=
    congrArg some (map_once (readType_name literal.type) _)
  rw [readLiteral, entriesOf, literalEntries, Success.ok_bind,
    readEntries_entry htext, readEntries_entry hkind, readEntries,
    Success.ok_bind]
  simp only [required, Success.ok_bind, literal.ofText_text]
  rfl

theorem readOperand_node
    {operand : Option Operand}
    (h : ∀ id, operand = some (.identifier id) → id.attr < 2 ^ 64) :
    readOperand (operandNode operand) = .ok operand := by
  rcases operand with _ | operand
  · rfl
  · cases operand with
    | identifier id =>
        change (readIdentifier (.mapping _ (identifierEntries id))).map _ = _
        rw [readIdentifier_entries (h id rfl)]
        rfl
    | number literal =>
        change (readLiteral (.mapping _ (literalEntries literal))).map _ = _
        rw [readLiteral_entries]
        rfl

theorem ofParts_operands
    (c : Command) :
    Command.ofParts c.operator c.receiver c.left? c.right? = .ok c := by
  rcases c with ⟨operator, receiver, operands⟩
  cases operands <;> rfl

theorem mem_toList_iff
    {operands : Operands} {operand : Operand} :
    operand ∈ operands.toList ↔
      operands.left? = some operand ∨ operands.right? = some operand := by
  cases operands <;>
    simp [Operands.toList, Operands.left?, Operands.right?, eq_comm]

theorem mem_identifiers_of_operand
    {c : Command} {id : Identifier}
    (h : c.left? = some (.identifier id) ∨ c.right? = some (.identifier id)) :
    id ∈ c.identifiers :=
  List.mem_cons_of_mem _
    (List.mem_filterMap.mpr ⟨.identifier id, mem_toList_iff.mpr h, rfl⟩)

theorem readCommand_node
    {c : Command}
    (h : ∀ id ∈ c.identifiers, id.attr < 2 ^ 64) :
    readCommand (commandNode c) = .ok c := by
  have hoperator :
      CommandDraft.step {} "operator" (plainNode (operatorName c.operator)) =
      some (.ok ⟨some c.operator, none, none, none⟩) :=
    congrArg some (map_once (readOperator_name c.operator) _)
  have hreceiver :
      CommandDraft.step ⟨some c.operator, none, none, none⟩ "receiver"
      (.mapping none (identifierEntries c.receiver)) =
        some (.ok ⟨some c.operator, some c.receiver, none, none⟩) :=
    congrArg some (map_once
      (readIdentifier_entries (h c.receiver List.mem_cons_self) none) _)
  have hleft :
      CommandDraft.step ⟨some c.operator, some c.receiver, none, none⟩ "left"
      (operandNode c.left?) =
        some (.ok ⟨some c.operator, some c.receiver, some c.left?, none⟩) :=
    congrArg some (map_once
      (readOperand_node fun id hid =>
        h id (mem_identifiers_of_operand (.inl hid))) _)
  have hright :
      CommandDraft.step ⟨some c.operator, some c.receiver, some c.left?, none⟩
      "right" (operandNode c.right?) =
        some (.ok ⟨some c.operator, some c.receiver, some c.left?,
            some c.right?⟩) :=
    congrArg some (map_once
      (readOperand_node fun id hid =>
        h id (mem_identifiers_of_operand (.inr hid))) _)
  rw [readCommand, commandNode, entriesOf, Success.ok_bind,
    readEntries_entry hoperator, readEntries_entry hreceiver,
    readEntries_entry hleft, readEntries_entry hright, readEntries,
    Success.ok_bind]
  simp only [required, Success.ok_bind, Option.join_some, ofParts_operands]
  rfl

theorem readSymbol_node
    {row : SymbolRow}
    (h : isName row.name.toList = true) :
    readSymbol (symbolNode row) = .ok row := by
  have hname : SymbolDraft.step {} "name"
      (.scalar none (!reservedNames.contains row.name) row.name) =
        some (.ok ⟨some row.name, none, none⟩) := rfl
  have htype : SymbolDraft.step ⟨some row.name, none, none⟩ "type"
      (plainNode row.type.name) =
      some (.ok ⟨some row.name, some row.type, none⟩) :=
    congrArg some (map_once (readType_name row.type) _)
  have hprovenance :
      SymbolDraft.step ⟨some row.name, some row.type, none⟩ "provenance"
      (plainNode row.provenance.name) =
        some (.ok ⟨some row.name, some row.type, some row.provenance⟩) :=
    congrArg some (map_once (readProvenance_name row.provenance) _)
  rw [readSymbol, symbolNode, entriesOf, Success.ok_bind,
    readEntries_entry hname, readEntries_entry htype,
    readEntries_entry hprovenance, readEntries, Success.ok_bind]
  simp only [required, Success.ok_bind, h, if_true]
  rfl

/-! ## Programs -/

theorem mapM_map
    {α : Type} {read : Node → Reading α} {node : α → Node} {items : List α}
    (h : ∀ a ∈ items, read (node a) = .ok a) :
    (items.map node).mapM read = .ok items := by
  induction items with
  | nil => rfl
  | cons a items ih =>
      rw [List.forall_mem_cons] at h
      rw [List.map_cons, List.mapM_cons, h.1, ih h.2]
      rfl

theorem tableOf_rows
    {front rows : List SymbolRow}
    (h : SymbolTable.HasNames ⟨front ++ rows⟩) :
    tableOf ⟨front⟩ rows = .ok ⟨front ++ rows⟩ := by
  induction rows generalizing front with
  | nil => simp [tableOf]
  | cons row rows ih =>
      have hvalid := h.valid row (by simp)
      have hfree : SymbolTable.binds ⟨front⟩ row.name = false := by
        have hdistinct := h.distinct
        rw [List.map_append, List.map_cons] at hdistinct
        rw [SymbolTable.binds_eq_false_iff]
        intro hmem
        exact List.disjoint_of_nodup_append hdistinct hmem List.mem_cons_self
      have hdefine := SymbolTable.define_eq_ok_iff.mpr
        ⟨hvalid, hfree, rfl,
          (rfl : _ = SymbolTable.push ⟨front⟩ ⟨_, row.type, row.provenance⟩)⟩
      have hnext : SymbolTable.HasNames ⟨front ++ [row] ++ rows⟩ := by
        simpa using h
      have hrest := ih hnext
      rw [List.append_assoc, List.singleton_append] at hrest
      rw [tableOf, hdefine]
      exact hrest

theorem ofNode_entries
    {p : Program}
    (hnames : p.symbols.HasNames)
    (hsize : p.symbols.size < 2 ^ 64)
    (hmake : make p.code p.symbols = .ok p) :
    ofNode (.mapping none p.entries) = .ok p := by
  have hattr : ∀ id ∈ p.code.flatMap Command.identifiers,
      id.attr < 2 ^ 64 := by
    intro id hid
    rcases (make_eq_ok_iff.mp hmake).2 id hid with ⟨row, hrow, _⟩
    exact (SymbolTable.le_size_of_get? hrow).trans_lt hsize
  have hcode :
      readCode (.sequence none (p.code.map commandNode)) = .ok p.code := by
    apply mapM_map
    intro c hc
    exact readCommand_node fun id hid =>
      hattr id (List.mem_flatMap.mpr ⟨c, hc, hid⟩)
  have hsymbols :
      readSymbols (.sequence none (p.symbols.rows.map symbolNode)) =
      .ok p.symbols := by
    have hrows : (p.symbols.rows.map symbolNode).mapM readSymbol =
        .ok p.symbols.rows :=
      mapM_map fun row hrow => readSymbol_node (hnames.valid row hrow)
    have htable : tableOf .empty p.symbols.rows = .ok p.symbols :=
      tableOf_rows hnames
    rw [readSymbols, itemsOf, Success.ok_bind, hrows, Success.ok_bind, htable]
    rfl
  have hfirst :
      Draft.step {} "code" (.sequence none (p.code.map commandNode)) =
      some (.ok ⟨some p.code, none⟩) :=
    congrArg some (map_once hcode _)
  have hsecond : Draft.step ⟨some p.code, none⟩ "symbols"
      (.sequence none (p.symbols.rows.map symbolNode)) =
        some (.ok ⟨some p.code, some p.symbols⟩) :=
    congrArg some (map_once hsymbols _)
  rw [ofNode, entries, entriesOf, Success.ok_bind, readEntries_entry hfirst,
    readEntries_entry hsecond, readEntries, Success.ok_bind]
  simp only [required, Success.ok_bind, hmake]
  rfl

theorem ofText_of_hasNames
    {p : Program}
    (hnames : p.symbols.HasNames)
    (hsize : p.symbols.size < 2 ^ 64)
    (hmake : make p.code p.symbols = .ok p) :
    ofText p.toText = .ok p := by
  rw [ofText, document_toText hnames]
  simp only [ofNode_entries hnames hsize hmake, Success.ok_bind, if_true]
  rfl

/-- A program that was accepted is read back from its text: whatever its
commands and their operands are, and whatever the symbols are called.  Its
table was built symbol by symbol, and is not larger than attributes can
count. -/
theorem ofText_toText
    {code : List Command} {table : SymbolTable} {p : Program}
    (htable : table.Built)
    (hsize : table.size < 2 ^ 64)
    (hmake : make code table = .ok p) :
    ofText p.toText = .ok p := by
  rcases make_eq_ok_iff.mp hmake with ⟨rfl, _⟩
  exact ofText_of_hasNames htable.hasNames hsize hmake

/-- Symbols with reserved names, and a temporary behind them. -/
def reservedTable : SymbolTable :=
  (SymbolTable.defineTemporary
    ⟨[⟨"true", .integer, .user⟩, ⟨"Null", .float, .user⟩]⟩ .float).2

/-- A command without a left operand, and one with two; the zeros of the
constants are part of their texts. -/
def reservedCode : List Command :=
  [⟨.toFloat, ⟨3, .float, .program, by decide⟩,
      .right (.number ⟨"007", .integer, .integer 7, by decide +kernel⟩)⟩,
    ⟨.multiply, ⟨3, .float, .program, by decide⟩,
      .both (.identifier ⟨2, .float, .user, by decide⟩)
        (.number ⟨"2.50", .float,
            .float (.finite false (5 * 2 ^ 148) (by decide +kernel)),
          by decide +kernel⟩)⟩]

theorem ofText_toText_reservedNames :
    reservedTable.Built ∧
      make reservedCode reservedTable = .ok ⟨reservedCode, reservedTable⟩ ∧
      ofText (Program.toText ⟨reservedCode, reservedTable⟩) =
        .ok ⟨reservedCode, reservedTable⟩ := by
  have hfirst : SymbolTable.empty.define "true" .integer .user =
      .ok (1, ⟨[⟨"true", .integer, .user⟩]⟩) := rfl
  have hsecond :
      SymbolTable.define ⟨[⟨"true", .integer, .user⟩]⟩ "Null" .float .user =
      .ok (2, ⟨[⟨"true", .integer, .user⟩, ⟨"Null", .float, .user⟩]⟩) := rfl
  have htable : reservedTable.Built :=
    .defineTemporary (.define (.define .empty hfirst) hsecond) _
  have hmake : make reservedCode reservedTable =
      .ok ⟨reservedCode, reservedTable⟩ := by
    decide +kernel
  exact ⟨htable, hmake, ofText_toText htable (by decide +kernel) hmake⟩

end ThreeAddress.Program
