import ThreeAddress.Compile
import ThreeAddress.Proofs.Lowering

/-!
# Running an expression

The machine of generated code has the cells that the source of values
supplies, followed by a zero for each temporary.  Since temporaries are never
asked for, the source is asked the same questions whatever code is generated.
With the course of lowered code this determines what a run comes to.
-/

namespace ThreeAddress

namespace Machine

variable {σ : Type}

def zeros (rows : List SymbolRow) : List Cell :=
  rows.map fun row => .zero row.type

theorem fill_program
    (ask : String → ValueType → StateM σ (Except ValueFault Cell))
    {row : SymbolRow}
    (hrow : row.provenance = .program)
    (rest : List SymbolRow) (state : σ) :
    (fill ask (row :: rest)).run state =
      (((fill ask rest).run state).1.map (Cell.zero row.type :: ·),
        ((fill ask rest).run state).2) := by
  simp only [fill, hrow]
  rfl

theorem fill_user
    (ask : String → ValueType → StateM σ (Except ValueFault Cell))
    {row : SymbolRow}
    (hrow : row.provenance = .user)
    (rest : List SymbolRow) (state : σ) :
    (fill ask (row :: rest)).run state =
      match (ask row.name row.type).run state with
      | (.error fault, after) => (.error (.noValue row.name fault), after)
      | (.ok cell, after) =>
        (((fill ask rest).run after).1.map (cell :: ·),
          ((fill ask rest).run after).2) := by
  simp only [fill, hrow]
  cases hask : (ask row.name row.type).run state with
  | mk answer after =>
      rw [StateT.run_bind, hask]
      cases answer <;> rfl

theorem fill_append_temporaries
    (ask : String → ValueType → StateM σ (Except ValueFault Cell))
    (rows : List SymbolRow) {temporaries : List SymbolRow}
    (htemporaries : ∀ row ∈ temporaries, row.provenance = .program)
    (state : σ) :
    (fill ask (rows ++ temporaries)).run state =
      (((fill ask rows).run state).1.map (· ++ zeros temporaries),
        ((fill ask rows).run state).2) := by
  induction rows generalizing state with
  | nil =>
      induction temporaries with
      | nil => rfl
      | cons row rest ih =>
          obtain ⟨hrow, hrest⟩ := List.forall_mem_cons.mp htemporaries
          rw [List.nil_append] at ih ⊢
          rw [fill_program ask hrow, ih hrest]
          rfl
  | cons row rest ih =>
      rw [List.cons_append]
      cases hrow : row.provenance with
      | program =>
          rw [fill_program ask hrow, fill_program ask hrow, ih]
          cases ((fill ask rest).run state).1 <;> rfl
      | user =>
          rw [fill_user ask hrow, fill_user ask hrow]
          cases (ask row.name row.type).run state with
          | mk answer after =>
              cases answer with
              | error fault => rfl
              | ok cell =>
                  simp only [ih]
                  cases ((fill ask rest).run after).1 <;> rfl

theorem start_run
    (ask : String → ValueType → StateM σ (Except ValueFault Cell))
    (table : SymbolTable) (state : σ) :
    (start ask table).run state =
      (((fill ask table.rows).run state).1.map (⟨·, none⟩),
        ((fill ask table.rows).run state).2) :=
  rfl

def withTemporaries (cells : List Cell) (temporaries : List SymbolRow) :
    Machine :=
  ⟨cells ++ zeros temporaries, none⟩

theorem start_run_of_addsTemporaries
    (ask : String → ValueType → StateM σ (Except ValueFault Cell))
    {table : SymbolTable} {temporaries : List SymbolRow}
    {after : SymbolTable}
    (hrows : after.rows = table.rows ++ temporaries)
    (htemporaries : ∀ row ∈ temporaries, row.provenance = .program)
    (state : σ) :
    (start ask after).run state =
      (((fill ask table.rows).run state).1.map
        (withTemporaries · temporaries),
        ((fill ask table.rows).run state).2) := by
  rw [start_run, hrows, fill_append_temporaries ask table.rows htemporaries]
  cases ((fill ask table.rows).run state).1 <;> rfl

/-- A machine on which the code of a tree can be carried out: it has enough
cells, the tree's identifiers have theirs, and nothing was carried out yet. -/
structure IsReady (cellOf : Nat → Cell) (tree : Tree) (table : SymbolTable)
    (machine : Machine) : Prop where
  length_le : table.size ≤ machine.cells.length
  cells : ∀ id ∈ tree.identifiers,
    machine.cell? id.attr = some (cellOf id.attr)
  last : machine.last = none

theorem isReady_withTemporaries
    {cellOf : Nat → Cell} {cells : List Cell} {tree : Tree}
    {table after : SymbolTable} {temporaries : List SymbolRow}
    (huses : tree.UsesRows table)
    (hlength : cells.length = table.size)
    (hcells : ∀ n, ∀ h : n < cells.length, cells[n] = cellOf (n + 1))
    (hrows : after.rows = table.rows ++ temporaries) :
    IsReady cellOf tree after (withTemporaries cells temporaries) := by
  refine ⟨?_, ?_, rfl⟩
  · simp only [SymbolTable.size] at hlength
    simp [SymbolTable.size, hrows, withTemporaries, zeros, hlength]
  · intro id hid
    obtain ⟨n, hn⟩ := Nat.exists_eq_succ_of_ne_zero id.positive.ne'
    have hbound : n < cells.length := by
      have := (huses id hid).2
      omega
    simp [hn, withTemporaries, cell?, List.getElem?_append_left hbound,
      hcells n hbound, List.getElem?_eq_getElem hbound]

end Machine

/-! ## Sources that supply values -/

section Supply

variable {σ : Type}

/-- Asked for rows one after the other, the source answers with the cells of
their attributes; the first row has the given attribute. -/
def SuppliesFrom
    (ask : String → ValueType → StateM σ (Except ValueFault Cell))
    (cellOf : Nat → Cell) : Nat → List SymbolRow → σ → Prop
  | _, [], _ => True
  | attr, row :: rest, state =>
    ∃ after, (ask row.name row.type).run state = (.ok (cellOf attr), after) ∧
      SuppliesFrom ask cellOf (attr + 1) rest after

/-- The source answers with the given cells when it is asked for the symbols
of a table. -/
def Supplies (ask : String → ValueType → StateM σ (Except ValueFault Cell))
    (cellOf : Nat → Cell) (table : SymbolTable) (state : σ) : Prop :=
  SuppliesFrom ask cellOf 1 table.rows state

theorem fill_of_suppliesFrom
    {ask : String → ValueType → StateM σ (Except ValueFault Cell)}
    {cellOf : Nat → Cell} {attr : Nat} {rows : List SymbolRow} {state : σ}
    (huser : ∀ row ∈ rows, row.provenance = .user)
    (h : SuppliesFrom ask cellOf attr rows state) :
    ((Machine.fill ask rows).run state).1 =
      .ok ((List.range' attr rows.length).map cellOf) := by
  induction rows generalizing attr state with
  | nil => rfl
  | cons row rest ih =>
      obtain ⟨hrow, hrest⟩ := List.forall_mem_cons.mp huser
      obtain ⟨after, hask, hsupplies⟩ := h
      rw [Machine.fill_user ask hrow, hask]
      simp only [ih hrest hsupplies]
      rfl

/-- A run of lowered code starts on a machine that is ready for it. -/
theorem start_of_supplies
    {ask : String → ValueType → StateM σ (Except ValueFault Cell)}
    {cellOf : Nat → Cell} {tree : Tree} {table after : SymbolTable}
    {state : σ}
    (huser : table.IsUser)
    (huses : tree.UsesRows table)
    (hadds : table.AddsTemporaries after)
    (hsupplies : Supplies ask cellOf table state) :
    ∃ machine, ((Machine.start ask after).run state).1 = .ok machine ∧
      Machine.IsReady cellOf tree after machine := by
  obtain ⟨temporaries, hrows, htemporaries⟩ := hadds
  have hfill := fill_of_suppliesFrom huser hsupplies
  refine ⟨.withTemporaries ((List.range' 1 table.rows.length).map cellOf)
    temporaries, ?_, Machine.isReady_withTemporaries huses ?_ ?_ hrows⟩
  · rw [Machine.start_run_of_addsTemporaries ask hrows htemporaries, hfill]
    rfl
  · simp [SymbolTable.size]
  · intro n hn
    simp [Nat.add_comm]

end Supply

/-! ## Compiled expressions -/

/-- What is known of a compiled expression: the symbols are the user's, and
its tree comes from analyzing the parsed one, fits together, and refers to
rows. -/
structure Compiled.IsSound (c : Compiled) (parsed : Tree) : Prop where
  parsed_eq : parse c.tokens = .ok parsed
  isExpression : parsed.IsExpression
  analyzed : parsed.analyze = .ok c.tree
  consistent : c.tree.Consistent
  isUser : c.symbols.IsUser
  declares : ∀ id ∈ c.tree.identifiers, c.symbols.Declares id

theorem exists_isSound
    {source : String} {c : Compiled}
    (h : compile source = .ok c) :
    ∃ parsed, c.IsSound parsed := by
  simp only [compile, Success.bind_eq_ok_iff, Success.mapError_eq_ok_iff,
    Success.pure_eq_ok_iff] at h
  obtain ⟨⟨tokens, table⟩, hscan, parsed, hparse, tree, hanalyze, rfl⟩ := h
  obtain ⟨huser, htokens⟩ := scan_declares hscan
  -- Scanned tokens hold no conversions, so that what was parsed is an
  -- expression.
  rcases parse_cases fun t ht => (htokens t ht).1 with
    ⟨other, hderives, hother⟩ | ⟨fault, hfault⟩
  · obtain rfl : other = parsed := by simpa [hother] using hparse
    obtain ⟨hconsistent, hids⟩ :=
      Tree.analyze_consistent hderives.isExpression hanalyze
    refine ⟨other, hparse, hderives.isExpression, hanalyze,
      hconsistent, huser, ?_⟩
    intro id hid
    rw [hids] at hid
    obtain ⟨t, ht, htoken⟩ := List.mem_filterMap.mp hid
    exact (htokens t (hderives.postOrder_subset ht)).2 id htoken
  · simp [hfault] at hparse

theorem Compiled.IsSound.usesRows
    {c : Compiled} {parsed : Tree}
    (h : c.IsSound parsed) :
    c.tree.UsesRows c.symbols := by
  intro id hid
  have hdeclares := h.declares id hid
  exact ⟨h.isUser.provenance_eq hdeclares, hdeclares.attr_le_size⟩

/-! ## The run of an expression -/

section Run

variable {σ : Type}
  {ask : String → ValueType → StateM σ (Except ValueFault Cell)}

/-- What a run of commands comes to. -/
def Machine.Run.outcome (run : Machine.Run) : Outcome Machine :=
  ⟨match run.fault with
    | some e => .error e
    | none => .ok run.machine, run.trace⟩

theorem carryOut_run_eq
    (capacity : Option Nat) (code : List Command) (table : SymbolTable)
    (state : σ) :
    (carryOut ask capacity code table).run state =
      match (Machine.start ask table).run state with
      | (.error fault, after) => (⟨.error (.runtime fault), []⟩, after)
      | (.ok machine, after) =>
        ((machine.execute capacity code).outcome, after) := by
  rw [carryOut, StateT.run_bind]
  cases hstart : (Machine.start ask table).run state with
  | mk answer after =>
      cases answer with
      | error fault => rfl
      | ok machine =>
          change (match (machine.execute capacity code).fault with
            | some e => pure ⟨.error e, (machine.execute capacity code).trace⟩
            | none => pure ⟨.ok (machine.execute capacity code).machine,
                (machine.execute capacity code).trace⟩ :
            StateM σ (Outcome Machine)).run after =
              ((machine.execute capacity code).outcome, after)
          rw [Machine.Run.outcome]
          cases (machine.execute capacity code).fault <;> rfl

theorem carryOut_run
    {code : List Command} {table : SymbolTable} {state : σ}
    {machine : Machine}
    (hstart : ((Machine.start ask table).run state).1 = .ok machine) :
    ((carryOut ask none code table).run state).1 =
      (machine.execute none code).outcome := by
  rw [carryOut_run_eq]
  cases hrun : (Machine.start ask table).run state with
  | mk answer after =>
      obtain rfl : answer = .ok machine := by simpa [hrun] using hstart
      rfl

theorem generate_eq_ok
    {mode : Mode} {c : Compiled} {tree : Tree} {lowered : Tree.Lowered}
    (hprepare : Tree.prepare mode c.tree = .ok tree)
    (hlower : Tree.lower mode tree c.symbols = .ok lowered) :
    c.generate mode = .ok (lowered.code, lowered.table) := by
  simp [Compiled.generate, Tree.generate, hprepare, hlower]

theorem evaluate_run
    {source : String} {mode : Mode} {c : Compiled} {code : List Command}
    {table : SymbolTable}
    (hcompile : compile source = .ok c)
    (hgenerate : c.generate mode = .ok (code, table))
    (state : σ) :
    ((evaluate ask none source mode).run state).1 =
      ⟨((carryOut ask none code table).run state).1.result.bind
          (finalCell c.tree.token),
        ((carryOut ask none code table).run state).1.trace⟩ := by
  simp only [evaluate, hcompile, hgenerate]
  rfl

theorem finalCell_of_result?
    {root : Token} {machine : Machine} {cell : Cell}
    (h : machine.result? = some cell) :
    finalCell root machine = .ok cell := by
  simp [finalCell, h]

theorem finalCell_operand
    {cellOf : Nat → Cell} {t : Token} {res : Resolution}
    {table : SymbolTable} {machine : Machine}
    (ht : t.isOperand = true)
    (hready : Machine.IsReady cellOf (.leaf t res) table machine) :
    finalCell t machine = .ok (t.cell cellOf) := by
  have hresult : machine.result? = none := by
    simp [Machine.result?, hready.last]
  cases hkind : t.kind with
  | operator op | bracket side => simp [Token.isOperand, hkind] at ht
  | number literal => simp [finalCell, hresult, hkind, Token.cell]
  | identifier id =>
      have hcell := hready.cells id (by simp [Token.identifier?, hkind])
      simp [finalCell, hresult, hkind, Token.cell, hcell]

/-- A run takes the course of the tree that its code is generated from.  Only
the tree as it was compiled may be a single operand. -/
theorem evaluate_eq_course
    {cellOf : Nat → Cell} {source : String} {mode : Mode} {c : Compiled}
    {tree : Tree} {state : σ}
    (hcompile : compile source = .ok c)
    (hprepare : Tree.prepare mode c.tree = .ok tree)
    (hroot : tree.isLeaf = true → tree = c.tree)
    (htree : tree.Consistent)
    (huser : c.symbols.IsUser)
    (huses : tree.UsesRows c.symbols)
    (hsupplies : Supplies ask cellOf c.symbols state) :
    ((evaluate ask none source mode).run state).1 =
      ⟨(tree.course cellOf).outcome.mapError .runtime,
        (tree.course cellOf).trace⟩ := by
  obtain ⟨lowered, hlower, hlow⟩ :=
    Tree.exists_lower_realizes mode htree huses
  obtain ⟨machine, hstart, hready⟩ :=
    start_of_supplies huser huses (hlow cellOf).addsTemporaries hsupplies
  obtain ⟨htrace, hend⟩ :=
    (hlow cellOf).follows machine hready.length_le hready.cells
  rw [evaluate_run hcompile (generate_eq_ok hprepare hlower),
    carryOut_run hstart, Machine.Run.outcome, htrace]
  cases houtcome : (tree.course cellOf).outcome with
  | error fault =>
      simp only [houtcome] at hend
      rw [hend]
      rfl
  | ok cell =>
      simp only [houtcome] at hend
      obtain ⟨hfault, hreached⟩ := hend
      have hfinal :
          finalCell c.tree.token (machine.execute none lowered.code).machine =
          .ok cell := by
        cases tree with
        | leaf t res =>
            -- No command is carried out, and the value is read off the root.
            obtain rfl : ⟨t, [], c.symbols⟩ = lowered := Except.ok.inj hlower
            obtain rfl : t.cell cellOf = cell := Except.ok.inj houtcome
            rw [← hroot rfl]
            exact finalCell_operand htree.1 hready
        | leftOnly t res l | rightOnly t res r | binary t res l r =>
            exact finalCell_of_result? (hreached.result rfl)
      simp [hfault, hfinal, Except.bind]

end Run

end ThreeAddress
