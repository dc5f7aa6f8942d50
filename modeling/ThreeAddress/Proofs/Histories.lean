import ThreeAddress.Proofs.LexicalGrammar
import ThreeAddress.Proofs.Names
import ThreeAddress.Proofs.Scanning

/-!
# Histories of a symbol table

Symbols are added by two kinds of calls, one for a given name and one for a
temporary.  A call may be refused, and the table is then as it was before.
The calls are described by what they answer and what they leave behind;
everything that holds of a table at some point of its history follows from
that, call by call.
-/

namespace ThreeAddress.SymbolTable

inductive Call where
  | define (name : String) (type : ValueType) (provenance : Provenance)
  | defineTemporary (type : ValueType)

/-- The answer to a call, an attribute if it is not refused, and the table
after it. -/
def Call.perform (table : SymbolTable) :
    Call → Except ObjectError Nat × SymbolTable
  | .define name type provenance =>
    match table.define name type provenance with
    | .ok (attr, after) => (.ok attr, after)
    | .error e => (.error e, table)
  | .defineTemporary type =>
    (.ok (table.defineTemporary type).1.attr, (table.defineTemporary type).2)

def Free (table : SymbolTable) (name : String) : Prop :=
  ∀ row ∈ table.rows, row.name ≠ name

/-- What a call answers, and what it leaves behind. -/
inductive Answers (table : SymbolTable) :
    Call → Except ObjectError Nat → SymbolTable → Prop
  | defined {name : String} {type : ValueType} {provenance : Provenance}
      (valid : IsNameText name.toList) (free : table.Free name) :
      Answers table (.define name type provenance) (.ok (table.size + 1))
        ⟨table.rows ++ [⟨name, type, provenance⟩]⟩
  | invalid {name : String} {type : ValueType} {provenance : Provenance}
      (invalid : ¬IsNameText name.toList) :
      Answers table (.define name type provenance)
        (.error (.symbolName name)) table
  | taken {name : String} {type : ValueType} {provenance : Provenance}
      (valid : IsNameText name.toList) (taken : ¬table.Free name) :
      Answers table (.define name type provenance)
        (.error (.symbolTaken name)) table
  | temporary {type : ValueType} {n : Nat}
      (least : IsLeast {n | 1 ≤ n ∧ table.Free (temporaryName n)} n) :
      Answers table (.defineTemporary type) (.ok (table.size + 1))
        ⟨table.rows ++ [⟨temporaryName n, type, .program⟩]⟩

/-! ## One call -/

theorem free_iff_binds
    {table : SymbolTable} {name : String} :
    table.Free name ↔ table.binds name = false := by
  simp [Free, binds]

theorem Answers.extends
    {table after : SymbolTable} {call : Call}
    {answer : Except ObjectError Nat}
    (h : Answers table call answer after) :
    table.Extends after := by
  cases h with
  | defined valid free => exact table.extends_push _
  | temporary least => exact table.extends_push _
  | invalid invalid => exact .refl table
  | taken valid taken => exact .refl table

theorem Answers.hasNames
    {table after : SymbolTable} {call : Call}
    {answer : Except ObjectError Nat}
    (h : Answers table call answer after)
    (htable : table.HasNames) :
    after.HasNames := by
  cases h with
  | defined valid free =>
      exact htable.push (isName_iff.mpr valid) (free_iff_binds.mp free)
  | temporary least =>
      exact htable.push (isName_temporaryName _) (free_iff_binds.mp least.1.2)
  | invalid invalid => exact htable
  | taken valid taken => exact htable

/-! ## Any number of calls -/

theorem exists_get?_iff
    {table : SymbolTable} {attr : Nat} :
    (∃ row, table.get? attr = some row) ↔ 1 ≤ attr ∧ attr ≤ table.size := by
  cases attr with
  | zero => simp [get?]
  | succ n => simp [get?, size, ← Option.isSome_iff_exists]

/-- Two rows of one name would be one row. -/
theorem HasNames.attr_eq
    {table : SymbolTable}
    (h : table.HasNames)
    {attr attr' : Nat} {row row' : SymbolRow}
    (hrow : table.get? attr = some row)
    (hrow' : table.get? attr' = some row')
    (hname : row.name = row'.name) :
    attr = attr' := by
  rcases get?_eq_some_iff.mp hrow with ⟨n, rfl, hget⟩
  rcases get?_eq_some_iff.mp hrow' with ⟨n', rfl, hget'⟩
  have hbound : n < (table.rows.map SymbolRow.name).length := by
    rw [List.length_map]
    exact (List.getElem?_eq_some_iff.mp hget).1
  have hsame : (table.rows.map SymbolRow.name)[n]? =
      (table.rows.map SymbolRow.name)[n']? := by
    rw [List.getElem?_map, List.getElem?_map, hget, hget', Option.map_some,
      Option.map_some, hname]
  rw [(List.getElem?_inj hbound h.distinct).mp hsame]

theorem HasNames.lookup?_eq_some_iff
    {table : SymbolTable}
    (h : table.HasNames)
    {name : String} {attr : Nat} {row : SymbolRow} :
    table.lookup? name = some (attr, row) ↔
      table.get? attr = some row ∧ row.name = name := by
  constructor
  · intro hlookup
    exact ⟨get?_of_lookup? hlookup, name_of_lookup? hlookup⟩
  · rintro ⟨hrow, hname⟩
    cases hlookup : table.lookup? name with
    | none =>
        have hbinds := free_iff_binds.mpr (binds_eq_false_of_lookup? hlookup)
        exact absurd hname (hbinds row (mem_rows_of_get? hrow))
    | some found =>
        rcases found with ⟨other, row'⟩
        have hrow' := get?_of_lookup? hlookup
        have hname' := name_of_lookup? hlookup
        obtain rfl := h.attr_eq hrow' hrow (hname'.trans hname.symm)
        rw [Option.some.inj (hrow'.symm.trans hrow)]

end ThreeAddress.SymbolTable
