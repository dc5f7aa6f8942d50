import ThreeAddress.Program
import ThreeAddress.Proofs.Meaning

/-!
# The types of cells

A run starts with cells of the declared types.  A command that computes stores
its result as the type of its receiver, which in an accepted program is the
declared one.  A conversion stores a float whatever its receiver is, and
nothing in a program keeps it from an integer symbol.  So the type of a cell
is told by the last command that stored in it.
-/

namespace ThreeAddress

/-- The type that a table declares for an attribute; one without a row counts
as an integer. -/
def SymbolTable.declaredType (table : SymbolTable) (attr : Nat) : ValueType :=
  ((table.get? attr).map SymbolRow.type).getD .integer

theorem SymbolTable.declaredType_eq
    {table : SymbolTable} {attr : Nat} {row : SymbolRow}
    (h : table.get? attr = some row) :
    table.declaredType attr = row.type := by
  simp [declaredType, h]

/-- The type of what a command stores. -/
def Command.resultType (c : Command) : ValueType :=
  if c.operator = .toFloat then .float else c.receiver.type

/-- The types of the cells after a command, by attribute. -/
def Command.retype (types : Nat → ValueType) (c : Command) :
    Nat → ValueType :=
  Function.update types c.receiver.attr c.resultType

/-- The last of the commands that store under the attribute is a
conversion. -/
def LastConverts (attr : Nat) (done : List Command) : Prop :=
  ∃ c ∈ (done.filter fun c => c.receiver.attr = attr).getLast?,
    c.operator = .toFloat

theorem lastConverts_concat_self
    {attr : Nat} {c : Command}
    (h : c.receiver.attr = attr)
    (done : List Command) :
    LastConverts attr (done ++ [c]) ↔ c.operator = .toFloat := by
  simp [LastConverts, List.filter_append, h]

theorem lastConverts_concat_of_ne
    {attr : Nat} {c : Command}
    (h : c.receiver.attr ≠ attr)
    (done : List Command) :
    LastConverts attr (done ++ [c]) ↔ LastConverts attr done := by
  simp [LastConverts, List.filter_append, h]

/-- Commands whose receivers have their declared types leave a cell with its
own, unless the last of them to store in it is a conversion. -/
theorem foldl_retype
    {declared : Nat → ValueType} {done : List Command}
    (h : ∀ c ∈ done, c.receiver.type = declared c.receiver.attr)
    (attr : Nat) :
    (LastConverts attr done →
      done.foldl Command.retype declared attr = .float) ∧
      (¬LastConverts attr done →
        done.foldl Command.retype declared attr = declared attr) := by
  induction done using List.reverseRecOn with
  | nil => simp [LastConverts]
  | append_singleton done c ih =>
      rcases List.forall_mem_append.mp h with ⟨hdone, hlast⟩
      have hreceiver := hlast c List.mem_cons_self
      rw [List.foldl_concat, Command.retype]
      by_cases hattr : c.receiver.attr = attr
      · rw [lastConverts_concat_self hattr, ← hattr, Function.update_self,
          Command.resultType, hreceiver]
        exact ⟨fun hop => if_pos hop, fun hop => if_neg hop⟩
      · rw [lastConverts_concat_of_ne hattr,
          Function.update_of_ne (Ne.symm hattr)]
        exact ih hdone

namespace Machine

/-- The cells have the given types. -/
def HasTypes (machine : Machine) (size : Nat) (types : Nat → ValueType) :
    Prop :=
  ∀ attr, 0 < attr → attr ≤ size →
    ∃ cell, machine.cell? attr = some cell ∧ cell.type = types attr

/-! ## One command -/

theorem type_of_evaluate
    {machine : Machine} {c : Command} {cell : Cell} {line : String}
    (h : machine.evaluate c = .ok (cell, line)) :
    cell.type = c.resultType := by
  rcases evaluate_eq_ok h with
    ⟨hop, _, _, _, rfl⟩ | ⟨hop, _, _, _, _, _, _, _, rfl⟩
  · rw [Command.resultType, if_pos hop]
    rfl
  · rw [Command.resultType, if_neg hop, Cell.type_narrow]

theorem HasTypes.step
    {machine next : Machine} {size : Nat} {types : Nat → ValueType}
    {c : Command} {line : String}
    (h : machine.HasTypes size types)
    (hstep : machine.step c = .ok (next, line)) :
    next.HasTypes size (c.retype types) := by
  rcases step_eq_ok hstep with ⟨⟨old, hold⟩, cell, hevaluate, rfl⟩
  intro attr hpositive hattr
  by_cases hreceiver : attr = c.receiver.attr
  · subst hreceiver
    refine ⟨cell,
      cell?_store_self hpositive (le_length_of_cell? hold) cell, ?_⟩
    rw [Command.retype, Function.update_self]
    exact type_of_evaluate hevaluate
  · rw [cell?_store_of_ne c.receiver.positive hreceiver, Command.retype,
      Function.update_of_ne hreceiver]
    exact h attr hpositive hattr

/-! ## A run -/

/-- The commands that a run carries out: those before the one that fails, and
the one whose line the trace does not take. -/
def carriedOut (capacity : Option Nat) (machine : Machine) :
    List Command → List Command
  | [] => []
  | c :: rest =>
    match machine.step c with
    | .error _ => []
    | .ok (next, _) =>
      c :: if capacity = some 0 then []
        else carriedOut (capacity.map (· - 1)) next rest

theorem carriedOut_prefix
    (capacity : Option Nat) (machine : Machine) (code : List Command) :
    machine.carriedOut capacity code <+: code := by
  induction code generalizing capacity machine with
  | nil => exact List.nil_prefix
  | cons c rest ih =>
      rw [carriedOut]
      split
      · exact List.nil_prefix
      · split
        · exact List.cons_prefix_cons.mpr ⟨rfl, List.nil_prefix⟩
        · exact List.cons_prefix_cons.mpr ⟨rfl, ih _ _⟩

/-- A run leaves behind the types that its commands, one after the other, make
of those it started with. -/
theorem HasTypes.execute
    {machine : Machine} {size : Nat} {types : Nat → ValueType}
    (h : machine.HasTypes size types)
    (capacity : Option Nat) (code : List Command) :
    (machine.execute capacity code).machine.HasTypes size
      ((machine.carriedOut capacity code).foldl Command.retype types) := by
  induction code generalizing capacity machine types with
  | nil => exact h
  | cons c rest ih =>
      cases hstep : machine.step c with
      | error fault =>
          simp only [execute_cons_of_error hstep, carriedOut, hstep]
          exact h
      | ok result =>
          rcases result with ⟨next, line⟩
          have hnext := h.step hstep
          by_cases hfull : capacity = some 0
          · simp only [execute_cons_of_full hstep hfull, carriedOut, hstep,
              if_pos hfull, List.foldl_cons]
            exact hnext
          · simp only [execute_cons_of_step hstep hfull, carriedOut, hstep,
              if_neg hfull, List.foldl_cons]
            exact ih hnext _

/-! ## The start of a run -/

section Start

variable {σ : Type}

/-- Asked for a value of some type, the source answers with a cell of that
type, if it answers at all. -/
def AnswersAsAsked
    (ask : String → ValueType → StateM σ (Except ValueFault Cell)) : Prop :=
  ∀ name type before cell after,
    (ask name type).run before = (.ok cell, after) → cell.type = type

variable {ask : String → ValueType → StateM σ (Except ValueFault Cell)}

theorem types_of_fill
    (hask : AnswersAsAsked ask)
    {rows : List SymbolRow} {state : σ} {cells : List Cell}
    (h : ((fill ask rows).run state).1 = .ok cells) :
    cells.map Cell.type = rows.map SymbolRow.type := by
  induction rows generalizing state cells with
  | nil =>
      obtain rfl : [] = cells := Except.ok.inj h
      rfl
  | cons row rest ih =>
      cases hrow : row.provenance with
      | program =>
          rw [fill_program ask hrow] at h
          rcases Success.map_eq_ok_iff.mp h with ⟨others, hothers, rfl⟩
          rw [List.map_cons, List.map_cons, ih hothers]
          cases row.type <;> rfl
      | user =>
          rw [fill_user ask hrow] at h
          split at h
          · contradiction
          · next cell after hanswer =>
              rcases Success.map_eq_ok_iff.mp h with ⟨others, hothers, rfl⟩
              rw [List.map_cons, List.map_cons, ih hothers,
                hask _ _ _ _ _ hanswer]

theorem hasTypes_of_start
    (hask : AnswersAsAsked ask)
    {table : SymbolTable} {state : σ} {machine : Machine}
    (h : ((start ask table).run state).1 = .ok machine) :
    machine.HasTypes table.size table.declaredType := by
  rw [start_run] at h
  rcases Success.map_eq_ok_iff.mp h with ⟨cells, hcells, rfl⟩
  have htypes := types_of_fill hask hcells
  have hlength : cells.length = table.size := by
    simpa [SymbolTable.size] using congrArg List.length htypes
  intro attr hpositive hattr
  obtain ⟨n, rfl⟩ := Nat.exists_eq_succ_of_ne_zero hpositive.ne'
  have hcell : n < cells.length := by omega
  have hrow : n < table.rows.length := hattr
  have hget : table.get? (n + 1) = some table.rows[n] :=
    List.getElem?_eq_getElem hrow
  refine ⟨cells[n], List.getElem?_eq_getElem hcell, ?_⟩
  rw [SymbolTable.declaredType_eq hget]
  have htype :
      (cells.map Cell.type)[n]? = (table.rows.map SymbolRow.type)[n]? := by
    rw [htypes]
  simpa [List.getElem?_eq_getElem hcell, List.getElem?_eq_getElem hrow]
    using htype

end Start

end Machine

/-! ## Programs -/

theorem Program.required_eq_ok_iff
    {α : Type} {field : Option α} {a : α} :
    required field = .ok a ↔ field = some a := by
  cases field <;> simp [required]

/-- A program is made of the parts that were read of its document. -/
theorem Program.exists_draft_of_ofNode
    {node : Yaml.Node} {p : Program}
    (h : ofNode node = .ok p) :
    ∃ entries d code table, readEntries Draft.step {} entries = .ok d ∧
      d.code = some code ∧ d.symbols = some table ∧
      make code table = .ok p := by
  simp only [ofNode, checked, Success.bind_eq_ok_iff, required_eq_ok_iff,
    Success.mapError_eq_ok_iff] at h
  rcases h with ⟨entries, _, d, hd, code, hcode, table, htable, hmake⟩
  exact ⟨entries, d, code, table, hd, hcode, htable, hmake⟩

theorem Program.ofNode_of_ofText
    {text : String} {p : Program}
    (h : ofText text = .ok p) :
    ofNode (Yaml.Document.ofText text).root = .ok p := by
  simp only [ofText, Success.bind_eq_ok_iff] at h
  rcases h with ⟨accepted, haccepted, hended⟩
  split at hended
  · obtain rfl := Except.ok.inj hended
    exact haccepted
  · contradiction

theorem Program.make_of_ofText
    {text : String} {p : Program}
    (h : ofText text = .ok p) :
    ∃ code table, make code table = .ok p := by
  rcases exists_draft_of_ofNode (ofNode_of_ofText h) with
    ⟨_, _, code, table, _, _, _, hmake⟩
  exact ⟨code, table, hmake⟩

/-- At every point of a run of an accepted program, also after it has failed,
each symbol has a cell of its declared type.  The exception is a symbol in
which a conversion was the last to store: its cell is a float. -/
theorem type_of_cell_in_run
    {p : Program}
    (hprogram : (∃ code table, Program.make code table = .ok p) ∨
      ∃ text, Program.ofText text = .ok p)
    {σ : Type}
    {ask : String → ValueType → StateM σ (Except ValueFault Cell)}
    (hask : Machine.AnswersAsAsked ask)
    {state : σ} {machine : Machine}
    (hstart : ((Machine.start ask p.symbols).run state).1 = .ok machine)
    (capacity : Option Nat) {done : List Command}
    (hdone : done <+: p.code)
    {attr : Nat} {row : SymbolRow}
    (hrow : p.symbols.get? attr = some row) :
    ∃ cell, (machine.execute capacity done).machine.cell? attr = some cell ∧
      (LastConverts attr (machine.carriedOut capacity done) →
        cell.type = .float) ∧
      (¬LastConverts attr (machine.carriedOut capacity done) →
        cell.type = row.type) := by
  have hmake : ∃ code table, Program.make code table = .ok p := by
    rcases hprogram with hmake | ⟨text, htext⟩
    · exact hmake
    · exact Program.make_of_ofText htext
  rcases hmake with ⟨code, table, hmake⟩
  rcases Program.make_eq_ok_iff.mp hmake with ⟨rfl, hids⟩
  have hreceivers : ∀ c ∈ machine.carriedOut capacity done,
      c.receiver.type = table.declaredType c.receiver.attr := by
    intro c hc
    have hcode : c ∈ code :=
      hdone.subset ((machine.carriedOut_prefix capacity done).subset hc)
    rcases hids c.receiver
      (List.mem_flatMap.mpr ⟨c, hcode, List.mem_cons_self⟩) with
      ⟨other, hother, htype⟩
    rw [SymbolTable.declaredType_eq hother, htype]
  have hpositive : 0 < attr := by
    rcases SymbolTable.get?_eq_some_iff.mp hrow with ⟨n, rfl, _⟩
    exact Nat.succ_pos n
  rcases (Machine.hasTypes_of_start hask hstart).execute capacity done attr
    hpositive (SymbolTable.le_size_of_get? hrow) with ⟨cell, hcell, htype⟩
  refine ⟨cell, hcell, ?_⟩
  rw [htype, ← SymbolTable.declaredType_eq hrow]
  exact foldl_retype hreceivers attr

/-! ## An integer that holds a float -/

def convertingTable : SymbolTable :=
  (SymbolTable.empty.defineTemporary .integer).2

/-- A conversion into a symbol that is declared as an integer, and an addition
that stores in it again. -/
def convertingCode : List Command :=
  [⟨.toFloat, ⟨1, .integer, .program, by decide⟩,
      .right (.number ⟨"5", .integer, .integer 5, by decide +kernel⟩)⟩,
    ⟨.add, ⟨1, .integer, .program, by decide⟩,
      .both (.identifier ⟨1, .integer, .program, by decide⟩)
        (.number ⟨"1", .integer, .integer 1, by decide +kernel⟩)⟩]

def askZero (_ : String) (type : ValueType) :
    StateM Unit (Except ValueFault Cell) :=
  pure (.ok (.zero type))

theorem answersAsAsked_askZero : Machine.AnswersAsAsked askZero := by
  intro name type before cell after h
  obtain rfl := Except.ok.inj (congrArg Prod.fst h)
  cases type <;> rfl

/-- After the conversion the cell of the integer symbol is a float. -/
theorem float_in_integer_symbol :
    ∃ p machine row cell,
      Program.make convertingCode convertingTable = .ok p ∧
      Machine.AnswersAsAsked askZero ∧
      ((Machine.start askZero p.symbols).run ()).1 = .ok machine ∧
      p.symbols.get? 1 = some row ∧
      (machine.execute none (p.code.take 1)).machine.cell? 1 = some cell ∧
      row.type = .integer ∧ cell.type = .float :=
  ⟨⟨convertingCode, convertingTable⟩, _, _, _, rfl, answersAsAsked_askZero,
    rfl, rfl, rfl, rfl, rfl⟩

/-- The addition stores an integer again. -/
theorem type_of_cell_after_conversion :
    ∃ machine first second,
      ((Machine.start askZero convertingTable).run ()).1 = .ok machine ∧
      (machine.execute none (convertingCode.take 1)).machine.cell? 1 =
        some first ∧
      first.type = .float ∧
      (machine.execute none convertingCode).machine.cell? 1 = some second ∧
      second.type = .integer := by
  have hprogram : ∃ code table,
      Program.make code table = .ok ⟨convertingCode, convertingTable⟩ :=
    ⟨convertingCode, convertingTable, rfl⟩
  obtain ⟨machine, hstart, hfirst, hsecond⟩ : ∃ machine,
      ((Machine.start askZero convertingTable).run ()).1 = .ok machine ∧
      machine.carriedOut none (convertingCode.take 1) =
          convertingCode.take 1 ∧
      machine.carriedOut none convertingCode = convertingCode :=
    ⟨_, rfl, rfl, rfl⟩
  obtain ⟨row, hrow, htype⟩ : ∃ row, convertingTable.get? 1 = some row ∧
      row.type = .integer := ⟨_, rfl, rfl⟩
  rcases type_of_cell_in_run (.inl hprogram) answersAsAsked_askZero hstart
    none (List.take_prefix 1 convertingCode) hrow with
    ⟨first, hcell, hfloat, _⟩
  rcases type_of_cell_in_run (.inl hprogram) answersAsAsked_askZero hstart
    none (List.prefix_refl convertingCode) hrow with
    ⟨second, hcell', _, hinteger⟩
  rw [hfirst] at hfloat
  rw [hsecond, htype] at hinteger
  refine ⟨machine, first, second, hstart, hcell, hfloat ?_, hcell',
    hinteger ?_⟩
  · simp [LastConverts, convertingCode]
  · simp [LastConverts, convertingCode]

end ThreeAddress
