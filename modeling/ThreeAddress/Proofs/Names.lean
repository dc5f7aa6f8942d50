import ThreeAddress.Proofs.Numerals
import ThreeAddress.Proofs.Symbols

/-!
# Names in the symbol table

In a table that was built by adding one symbol after the other, every name is
valid and no two rows have the same.  For the temporaries this is a pigeonhole
argument: the numbers up to one more than the rows give different names, which
the rows cannot all have.
-/

namespace ThreeAddress.SymbolTable

/-- The table results from adding symbols to the empty one. -/
inductive Built : SymbolTable → Prop
  | empty : Built .empty
  | define {table other : SymbolTable} {name : String} {type : ValueType}
      {provenance : Provenance} {attr : Nat} (h : Built table)
      (hdefine : table.define name type provenance = .ok (attr, other)) :
        Built other
  | defineTemporary {table : SymbolTable} (h : Built table)
      (type : ValueType) :
      Built (table.defineTemporary type).2

/-- The names are valid and differ from each other. -/
structure HasNames (table : SymbolTable) : Prop where
  valid : ∀ row ∈ table.rows, isName row.name.toList = true
  distinct : (table.rows.map SymbolRow.name).Nodup

theorem hasNames_empty : HasNames .empty := by
  constructor <;> simp [empty]

theorem binds_eq_false_iff
    {table : SymbolTable} {name : String} :
    table.binds name = false ↔ name ∉ table.rows.map SymbolRow.name := by
  simp [binds]

theorem HasNames.push
    {table : SymbolTable}
    (h : table.HasNames)
    {row : SymbolRow}
    (hvalid : isName row.name.toList = true)
    (hfree : table.binds row.name = false) :
    (table.push row).HasNames := by
  rw [binds_eq_false_iff] at hfree
  constructor
  · intro other hother
    rcases List.mem_append.mp hother with hold | hnew
    · exact h.valid other hold
    · rw [List.mem_singleton.mp hnew]
      exact hvalid
  · rw [SymbolTable.push, List.map_append, List.map_singleton]
    exact List.concat_eq_append ▸ h.distinct.concat hfree

/-! ## Temporaries -/

theorem toList_temporaryName
    (n : Nat) :
    (temporaryName n).toList = 'T' :: Numeral.digits n := by
  simp [temporaryName, Numeral.text]

theorem temporaryName_injective : Function.Injective temporaryName := by
  intro n k h
  have hdigits : Numeral.digits n = Numeral.digits k := by
    have := congrArg String.toList h
    rw [toList_temporaryName, toList_temporaryName] at this
    exact (List.cons.inj this).2
  rw [← Numeral.value_digits n, hdigits, Numeral.value_digits]

theorem isName_temporaryName
    (n : Nat) :
    isName (temporaryName n).toList = true := by
  rw [toList_temporaryName, isName, Bool.and_eq_true, List.all_eq_true]
  refine ⟨by decide, ?_⟩
  intro c hc
  simp [isNameChar, Char.isAlphanum, Numeral.isDigit_of_mem_digits hc]

theorem exists_free_temporaryName
    (table : SymbolTable) :
    ∃ n ∈ List.range' 1 (table.size + 1),
      table.binds (temporaryName n) = false := by
  by_contra hnone
  have hsubset : (List.range' 1 (table.size + 1)).map temporaryName ⊆
      table.rows.map SymbolRow.name := by
    intro name hname
    rcases List.mem_map.mp hname with ⟨n, hn, rfl⟩
    by_contra hfree
    exact hnone ⟨n, hn, binds_eq_false_iff.mpr hfree⟩
  have hnodup : ((List.range' 1 (table.size + 1)).map temporaryName).Nodup :=
    (List.nodup_range' 1).map temporaryName_injective
  have hlength := (hnodup.subperm hsubset).length_le
  rw [List.length_map, List.length_map, List.length_range'] at hlength
  exact absurd hlength (Nat.not_succ_le_self table.size)

theorem find?_freshNumber
    (table : SymbolTable) :
    (List.range' 1 (table.size + 1)).find?
        (fun n => !table.binds (temporaryName n)) =
      some table.freshNumber := by
  rcases table.exists_free_temporaryName with ⟨n, hn, hfree⟩
  have hsome : ((List.range' 1 (table.size + 1)).find?
      fun n => !table.binds (temporaryName n)).isSome = true := by
    rw [List.find?_isSome]
    exact ⟨n, hn, by simp [hfree]⟩
  rcases Option.isSome_iff_exists.mp hsome with ⟨fresh, hfresh⟩
  rw [freshNumber, hfresh, Option.getD_some]

theorem binds_temporaryName_freshNumber
    (table : SymbolTable) :
    table.binds (temporaryName table.freshNumber) = false := by
  simpa using List.find?_some table.find?_freshNumber

/-! ## Histories -/

theorem Built.hasNames
    {table : SymbolTable}
    (h : table.Built) :
    table.HasNames := by
  induction h with
  | empty => exact hasNames_empty
  | define h hdefine ih =>
      rcases define_eq_ok_iff.mp hdefine with ⟨hvalid, hfree, _, rfl⟩
      exact ih.push hvalid hfree
  | defineTemporary h type ih =>
      exact ih.push (isName_temporaryName _)
        (binds_temporaryName_freshNumber _)

end ThreeAddress.SymbolTable
