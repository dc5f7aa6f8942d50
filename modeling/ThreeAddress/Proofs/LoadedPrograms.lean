import ThreeAddress.Proofs.CellTypes
import ThreeAddress.Proofs.Failures
import ThreeAddress.Proofs.RoundTrip

/-!
# Programs that are loaded

The document of a program may hold anything: names that are none, numbers out
of range, symbols without a row.  Reading checks each object as it is met, and
so whatever comes out of it is valid, down to the constants in its commands.
Since its identifiers refer to rows, and a run keeps a cell for every row, no
command ever finds a symbol without a cell.
-/

namespace ThreeAddress

def Command.Reads (c : Command) (operand : Operand) : Prop :=
  c.left? = some operand ∨ c.right? = some operand

namespace Program

/-- What a program has to be for its code to be carried out. -/
structure IsValid (p : Program) : Prop where
  name : ∀ row ∈ p.symbols.rows, IsNameText row.name.toList
  distinct : (p.symbols.rows.map SymbolRow.name).Nodup
  identifier : ∀ c ∈ p.code, ∀ id,
    id = c.receiver ∨ c.Reads (.identifier id) →
    0 < id.attr ∧ ∃ row, p.symbols.get? id.attr = some row ∧
      row.type = id.type
  literal : ∀ c ∈ p.code, ∀ literal, c.Reads (.number literal) →
    StandsFor literal.type literal.text.toList literal.cell
  operand : ∀ c ∈ p.code, ∃ operand, c.Reads operand

end Program

/-! ## Commands -/

theorem Command.exists_reads
    (c : Command) :
    ∃ operand, c.Reads operand := by
  rcases c with ⟨operator, receiver, operands⟩
  cases operands with
  | left l => exact ⟨l, .inl rfl⟩
  | right r => exact ⟨r, .inr rfl⟩
  | both l r => exact ⟨l, .inl rfl⟩

theorem Command.mem_identifiers_iff
    {c : Command} {id : Identifier} :
    id ∈ c.identifiers ↔ id = c.receiver ∨ c.Reads (.identifier id) := by
  rw [identifiers, List.mem_cons, List.mem_filterMap, Reads, left?, right?,
    ← Program.mem_toList_iff]
  constructor
  · rintro (hreceiver | ⟨operand, hmem, hid⟩)
    · exact .inl hreceiver
    · cases operand with
      | identifier other => exact .inr (Option.some.inj hid ▸ hmem)
      | number literal => contradiction
  · rintro (hreceiver | hmem)
    · exact .inl hreceiver
    · exact .inr ⟨.identifier id, hmem, rfl⟩

/-! ## Documents -/

namespace Program

/-- What every step keeps holds after all entries have been read. -/
theorem readEntries_induction
    {σ : Type} {step : σ → String → Yaml.Node → Option (Reading σ)}
    {motive : σ → Prop}
    (hstep : ∀ state key value next,
      motive state → step state key value = some (.ok next) → motive next)
    {state final : σ} {entries : List (Yaml.Node × Yaml.Node)}
    (hstate : motive state)
    (h : readEntries step state entries = .ok final) :
    motive final := by
  induction entries generalizing state with
  | nil => exact Except.ok.inj h ▸ hstate
  | cons entry rest ih =>
      rw [readEntries, Success.bind_eq_ok_iff] at h
      rcases h with ⟨key, _, h⟩
      split at h
      · next reading hreading =>
          rcases Success.bind_eq_ok_iff.mp h with ⟨next, rfl, hrest⟩
          exact ih (hstep _ _ _ _ hstate hreading) hrest
      · split at h
        · exact ih hstate h
        · contradiction

theorem hasNames_of_tableOf
    {table after : SymbolTable} {rows : List SymbolRow}
    (htable : table.HasNames)
    (h : tableOf table rows = .ok after) :
    after.HasNames := by
  induction rows generalizing table with
  | nil => exact Except.ok.inj h ▸ htable
  | cons row rest ih =>
      rw [tableOf, Success.bind_eq_ok_iff] at h
      rcases h with ⟨⟨attr, next⟩, hdefine, hrest⟩
      rcases SymbolTable.define_eq_ok_iff.mp hdefine with
        ⟨hvalid, hfree, _, rfl⟩
      exact ih (htable.push hvalid hfree) hrest

theorem hasNames_of_readSymbols
    {node : Yaml.Node} {table : SymbolTable}
    (h : readSymbols node = .ok table) :
    table.HasNames := by
  simp only [readSymbols, checked, Success.bind_eq_ok_iff,
    Success.mapError_eq_ok_iff] at h
  rcases h with ⟨_, _, rows, _, htable⟩
  exact hasNames_of_tableOf SymbolTable.hasNames_empty htable

theorem exists_of_map_once
    {α σ : Type} {before : Option α} {value : Reading α}
    {put : Option α → σ} {next : σ}
    (h : (once before value).map put = .ok next) :
    ∃ a, value = .ok a ∧ next = put (some a) := by
  rcases Success.map_eq_ok_iff.mp h with ⟨field, hfield, rfl⟩
  rw [once] at hfield
  split at hfield
  · contradiction
  · rcases Success.map_eq_ok_iff.mp hfield with ⟨a, ha, rfl⟩
    exact ⟨a, ha, rfl⟩

def Draft.HasNames (d : Draft) : Prop :=
  ∀ table, d.symbols = some table → table.HasNames

theorem Draft.HasNames.step
    {d next : Draft} {key : String} {value : Yaml.Node}
    (hd : d.HasNames)
    (h : d.step key value = some (.ok next)) :
    next.HasNames := by
  unfold Draft.step at h
  split at h
  · rcases exists_of_map_once (Option.some.inj h) with ⟨code, _, rfl⟩
    exact hd
  · rcases exists_of_map_once (Option.some.inj h) with ⟨table, htable, rfl⟩
    rintro _ ⟨⟩
    exact hasNames_of_readSymbols htable
  · contradiction

/-- The names of the table were checked when it was read, and the identifiers
of the code when the program was made. -/
theorem ofNode_eq_ok
    {node : Yaml.Node} {p : Program}
    (h : ofNode node = .ok p) :
    p.symbols.HasNames ∧ make p.code p.symbols = .ok p := by
  rcases exists_draft_of_ofNode h with
    ⟨entries, d, code, table, hd, _, htable, hmake⟩
  have hnames : d.HasNames := by
    refine readEntries_induction (fun _ _ _ _ => Draft.HasNames.step) ?_ hd
    rintro _ ⟨⟩
  rcases make_eq_ok_iff.mp hmake with ⟨rfl, _⟩
  exact ⟨hnames table htable, hmake⟩

theorem isValid_of_make
    {p : Program}
    (hnames : p.symbols.HasNames)
    (hmake : make p.code p.symbols = .ok p) :
    p.IsValid where
  name := fun row hrow => isName_iff.mp (hnames.valid row hrow)
  distinct := hnames.distinct
  identifier := by
    intro c hc id hid
    refine ⟨id.positive, (make_eq_ok_iff.mp hmake).2 id ?_⟩
    exact List.mem_flatMap.mpr ⟨c, hc, Command.mem_identifiers_iff.mpr hid⟩
  literal := fun _ _ literal _ => literal.standsFor
  operand := fun c _ => c.exists_reads

theorem isValid_of_ofNode
    {node : Yaml.Node} {p : Program}
    (h : ofNode node = .ok p) :
    p.IsValid := by
  obtain ⟨hnames, hmake⟩ := ofNode_eq_ok h
  exact isValid_of_make hnames hmake

end Program

/-! ## Runs -/

def RuntimeFault.IsUndefinedSymbol : RuntimeFault → Prop
  | .undefinedSymbol _ => True
  | _ => False

def Error.IsUndefinedSymbol : Error → Prop
  | .runtime fault => fault.IsUndefinedSymbol
  | _ => False

namespace Machine

/-- The machine has cells for the identifiers of the command. -/
def HasCellsOf (machine : Machine) (c : Command) : Prop :=
  ∀ id ∈ c.identifiers, id.attr ≤ machine.cells.length

theorem HasCellsOf.exists_read
    {machine : Machine} {c : Command}
    (h : machine.HasCellsOf c)
    {operand : Operand}
    (hoperand : c.Reads operand) :
    ∃ cell, machine.read operand = .ok cell := by
  cases operand with
  | number literal => exact ⟨literal.cell, rfl⟩
  | identifier id =>
      have hid := h id (Command.mem_identifiers_iff.mpr (.inr hoperand))
      rcases exists_cell? id.positive hid with ⟨cell, hcell⟩
      exact ⟨cell, by simp [read, hcell]⟩

theorem HasCellsOf.convert_failsOnly
    {machine : Machine} {c : Command}
    (h : machine.HasCellsOf c)
    {operand : Operand}
    (hoperand : c.Reads operand)
    {P : RuntimeFault → Prop} :
    FailsOnly P (machine.convert operand) := by
  rcases h.exists_read hoperand with ⟨cell, hcell⟩
  rw [convert, hcell]
  exact .ok _

theorem HasCellsOf.compute_failsOnly
    {machine : Machine} {c : Command}
    (h : machine.HasCellsOf c)
    {left right : Operand}
    (hleft : c.Reads left)
    (hright : c.Reads right)
    (type : ValueType) (op : Operator) :
    FailsOnly (fun fault => ¬fault.IsUndefinedSymbol)
      (machine.compute type op left right) := by
  rcases h.exists_read hleft with ⟨x, hx⟩
  rcases h.exists_read hright with ⟨y, hy⟩
  rw [compute, hx, hy]
  simp only [Success.ok_bind]
  split
  · exact .ok _
  · exact .error not_false

theorem HasCellsOf.evaluate_failsOnly
    {machine : Machine} {c : Command}
    (h : machine.HasCellsOf c) :
    FailsOnly (fun fault => ¬fault.IsUndefinedSymbol)
      (machine.evaluate c) := by
  unfold evaluate
  split
  · cases hoperands : c.operands with
    | left l =>
        exact h.convert_failsOnly
          (.inl (by rw [Command.left?, hoperands]; rfl))
    | right r =>
        exact h.convert_failsOnly
          (.inr (by rw [Command.right?, hoperands]; rfl))
    | both l r =>
        exact h.convert_failsOnly
          (.inr (by rw [Command.right?, hoperands]; rfl))
  · split
    · next left right hoperands =>
        have hleft : c.Reads left :=
          .inl (by rw [Command.left?, hoperands]; rfl)
        have hright : c.Reads right :=
          .inr (by rw [Command.right?, hoperands]; rfl)
        exact h.compute_failsOnly hleft hright _ _
    · exact .error not_false

theorem HasCellsOf.step_failsOnly
    {machine : Machine} {c : Command}
    (h : machine.HasCellsOf c) :
    FailsOnly (fun fault => ¬fault.IsUndefinedSymbol) (machine.step c) := by
  rcases exists_cell? c.receiver.positive
    (h c.receiver List.mem_cons_self) with ⟨cell, hcell⟩
  rw [step_of_some hcell]
  exact h.evaluate_failsOnly.map _

/-- A command stores in a cell and adds none, so that those of the commands
behind it have theirs too. -/
theorem fault_of_execute
    {machine : Machine} {code : List Command}
    (h : ∀ c ∈ code, machine.HasCellsOf c)
    {capacity : Option Nat} {e : Error}
    (hfault : (machine.execute capacity code).fault = some e) :
    ¬e.IsUndefinedSymbol := by
  induction code generalizing machine capacity with
  | nil => simp [execute] at hfault
  | cons c rest ih =>
      rcases List.forall_mem_cons.mp h with ⟨hfirst, hrest⟩
      cases hstep : machine.step c with
      | error fault =>
          rw [execute_cons_of_error hstep] at hfault
          obtain rfl : .runtime fault = e := Option.some.inj hfault
          exact hfirst.step_failsOnly fault hstep
      | ok result =>
          rcases result with ⟨next, line⟩
          rcases step_eq_ok hstep with ⟨_, cell, _, rfl⟩
          by_cases hfull : capacity = some 0
          · rw [execute_cons_of_full hstep hfull] at hfault
            obtain rfl : .internal .traceFull = e := Option.some.inj hfault
            exact not_false
          · rw [execute_cons_of_step hstep hfull] at hfault
            have hnext : ∀ c' ∈ rest,
                (machine.store c.receiver.attr cell).HasCellsOf c' := by
              intro c' hc' id hid
              rw [length_store]
              exact hrest c' hc' id hid
            exact ih hnext hfault

section Start

variable {σ : Type}
  {ask : String → ValueType → StateM σ (Except ValueFault Cell)}

theorem length_of_fill
    {rows : List SymbolRow} {state : σ} {cells : List Cell}
    (h : ((fill ask rows).run state).1 = .ok cells) :
    cells.length = rows.length := by
  induction rows generalizing state cells with
  | nil =>
      obtain rfl : [] = cells := Except.ok.inj h
      rfl
  | cons row rest ih =>
      cases hrow : row.provenance with
      | program =>
          rw [fill_program ask hrow] at h
          rcases Success.map_eq_ok_iff.mp h with ⟨others, hothers, rfl⟩
          rw [List.length_cons, List.length_cons, ih hothers]
      | user =>
          rw [fill_user ask hrow] at h
          split at h
          · contradiction
          · rcases Success.map_eq_ok_iff.mp h with ⟨others, hothers, rfl⟩
            rw [List.length_cons, List.length_cons, ih hothers]

/-- Without a value for each symbol there is no machine, and the fault tells
which one is missing. -/
theorem fill_failsOnly
    (rows : List SymbolRow) (state : σ) :
    FailsOnly (fun fault => ¬fault.IsUndefinedSymbol)
      ((fill ask rows).run state).1 := by
  induction rows generalizing state with
  | nil => exact .ok _
  | cons row rest ih =>
      cases hrow : row.provenance with
      | program =>
          rw [fill_program ask hrow]
          exact (ih state).map _
      | user =>
          rw [fill_user ask hrow]
          split
          · exact .error not_false
          · exact (ih _).map _

end Start

end Machine

theorem Program.IsValid.interpret_failsOnly
    {p : Program}
    (h : p.IsValid)
    {σ : Type}
    (ask : String → ValueType → StateM σ (Except ValueFault Cell))
    (capacity : Option Nat) (state : σ) :
    FailsOnly (fun e => ¬e.IsUndefinedSymbol)
      ((p.interpret ask capacity).run state).1.result := by
  have hstart := Machine.start_run ask p.symbols state
  have hinterpret : ((p.interpret ask capacity).run state).1.result =
      ((carryOut ask capacity p.code p.symbols).run state).1.result.map
        Machine.result? := rfl
  rw [hinterpret, carryOut_run_eq, hstart]
  refine FailsOnly.map ?_ _
  cases hfill : ((Machine.fill ask p.symbols.rows).run state).1 with
  | error fault => exact .error (Machine.fill_failsOnly _ _ _ hfill)
  | ok cells =>
      have hlength := Machine.length_of_fill hfill
      have hcells : ∀ c ∈ p.code, (Machine.mk cells none).HasCellsOf c := by
        intro c hc id hid
        rcases (h.identifier c hc id (Command.mem_identifiers_iff.mp hid)).2
          with ⟨row, hrow, _⟩
        rw [hlength]
        exact SymbolTable.le_size_of_get? hrow
      intro e he
      simp only [Except.map, Machine.Run.outcome] at he
      split at he
      · next fault hfault =>
            exact Except.error.inj he ▸ Machine.fault_of_execute hcells hfault
      · contradiction

/-- Whatever the fields of a document hold, a program that is loaded from them
is valid, and no run of it, whatever the values that it is given, comes upon a
symbol that is not there. -/
theorem loaded_program_isValid
    {node : Yaml.Node} {p : Program}
    (h : Program.ofNode node = .ok p) :
    p.IsValid ∧ ∀ {σ : Type}
      (ask : String → ValueType → StateM σ (Except ValueFault Cell))
      (capacity : Option Nat) (state : σ),
      FailsOnly (fun e => ¬e.IsUndefinedSymbol)
        ((p.interpret ask capacity).run state).1.result := by
  have hvalid := Program.isValid_of_ofNode h
  exact ⟨hvalid, hvalid.interpret_failsOnly⟩

/-- A document whose fields are shuffled, with a field that is not known, an
attribute in base sixteen, and a constant with a zero behind it. -/
def shuffledNode : Yaml.Node :=
  let text (s : String) : Yaml.Node := .scalar none false s
  let plain (s : String) : Yaml.Node := .scalar none true s
  .mapping none
    [(text "symbols",
        .sequence none
          [.mapping none
              [(text "provenance", text "user"), (text "name", text "x"),
                (text "type", text "float")],
            .mapping none
              [(text "type", text "float"), (text "name", text "T1"),
                (text "provenance", text "program")]]),
      (text "remarks", .sequence none []),
      (text "code",
        .sequence none
          [.mapping none
            [(text "right",
                .mapping (some "number")
                  [(text "kind", text "float"), (text "text", text "2.50")]),
              (text "left",
                .mapping (some "identifier")
                  [(text "type", text "float"),
                    (text "attribute", plain "0x1"),
                    (text "provenance", text "user")]),
              (text "receiver",
                .mapping none
                  [(text "attribute", plain "2"),
                    (text "provenance", text "program"),
                    (text "type", text "float")]),
              (text "operator", text "multiply")]])]

theorem loaded_program_isValid_shuffled :
    ∃ p, Program.ofNode shuffledNode = .ok p ∧
      p.code.map Command.text = ["mul <id,2> <id,1> 2.50"] ∧
      p.symbols.rows = [⟨"x", .float, .user⟩, ⟨"T1", .float, .program⟩] ∧
      p.IsValid ∧ FailsOnly (fun e => ¬e.IsUndefinedSymbol)
        ((p.interpret askZero none).run ()).1.result := by
  have hparts : (Program.ofNode shuffledNode).toOption.map
      (fun p => (p.code.map Command.text, p.symbols.rows)) =
      some (["mul <id,2> <id,1> 2.50"],
        [⟨"x", .float, .user⟩, ⟨"T1", .float, .program⟩]) := by
    decide +kernel
  obtain ⟨p, hload, hp⟩ := Success.exists_of_toOption hparts
  obtain ⟨hcode, hrows⟩ := Prod.mk.inj hp
  obtain ⟨hvalid, hruns⟩ := loaded_program_isValid hload
  exact ⟨p, hload, hcode, hrows, hvalid, hruns askZero none ()⟩

/-- The same holds of a program that is loaded from a text. -/
theorem loaded_text_isValid
    {text : String} {p : Program}
    (h : Program.ofText text = .ok p) :
    p.IsValid ∧ ∀ {σ : Type}
      (ask : String → ValueType → StateM σ (Except ValueFault Cell))
      (capacity : Option Nat) (state : σ),
      FailsOnly (fun e => ¬e.IsUndefinedSymbol)
        ((p.interpret ask capacity).run state).1.result := by
  have hvalid := Program.isValid_of_ofNode (Program.ofNode_of_ofText h)
  exact ⟨hvalid, hvalid.interpret_failsOnly⟩

end ThreeAddress
