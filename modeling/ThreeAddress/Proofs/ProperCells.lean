import ThreeAddress.Proofs.Dialogues
import ThreeAddress.Proofs.Worth

/-!
# Cells stay proper

A cell is proper if it holds an integer of 32 bits or a finite number.  Only
the result of a computation is tested for being finite, but what else gets
into a cell is proper too: a number of the program, the value of an integer
that is converted, what is left of a number in an integer symbol, and the
answers of a prompt.  So a machine that starts with proper cells has no
others, whatever commands are carried out on it, and however often they fail.
-/

namespace ThreeAddress

namespace Cell

theorem isProper_zero
    (type : ValueType) :
    (zero type).IsProper := by
  cases type <;> rfl

theorem IsProper.isFinite_value
    {x : Cell}
    (h : x.IsProper) :
    x.value.isFinite = true :=
  Single.isFinite_iff.mpr h.exists_worth

theorem inWordRange_of_readInteger?
    {text : String} {n : Int}
    (h : readInteger? text = some n) :
    inWordRange n = true := by
  have hsigned : ∀ (row : List Char) (sign : Int),
      (if Numeral.isNumeral row && inWordRange (sign * Numeral.value row) then
        some (sign * Numeral.value row)
      else none) = some n →
          inWordRange n = true := by
    intro row sign hread
    split at hread
    · next htest =>
        rw [← Option.some.inj hread]
        exact (Bool.and_eq_true_iff.mp htest).2
    · contradiction
  unfold readInteger? at h
  split at h <;> exact hsigned _ _ h

theorem isProper_of_read?
    {type : ValueType} {text : String} {cell : Cell}
    (h : read? type text = some cell) :
    cell.IsProper := by
  cases type with
  | integer =>
      rcases Option.map_eq_some_iff.mp h with ⟨n, hn, rfl⟩
      exact inWordRange_of_readInteger? hn
  | float =>
      rcases Option.map_eq_some_iff.mp h with ⟨x, hx, rfl⟩
      exact (Option.filter_eq_some_iff.mp hx).2

end Cell

namespace Machine

/-- Every cell holds an integer of 32 bits or a finite number. -/
def IsProper (machine : Machine) : Prop :=
  ∀ cell ∈ machine.cells, cell.IsProper

/-! ## One command -/

theorem IsProper.read
    {machine : Machine}
    (h : machine.IsProper)
    {operand : Operand} {cell : Cell}
    (hread : machine.read operand = .ok cell) :
    cell.IsProper := by
  cases operand with
  | number literal =>
      rw [← Except.ok.inj hread]
      exact literal.isProper_cell
  | identifier id =>
      cases hcell : machine.cell? id.attr with
      | none => simp [Machine.read, hcell] at hread
      | some found =>
          obtain rfl : found = cell := by
            simpa [Machine.read, hcell] using hread
          apply h
          cases hattr : id.attr with
          | zero => simp [hattr, cell?] at hcell
          | succ n =>
              rw [hattr] at hcell
              exact List.mem_of_getElem? hcell

theorem IsProper.evaluate
    {machine : Machine}
    (h : machine.IsProper)
    {c : Command} {cell : Cell} {line : String}
    (hevaluate : machine.evaluate c = .ok (cell, line)) :
    cell.IsProper := by
  rcases evaluate_eq_ok hevaluate with
    ⟨_, operand, x, hx, rfl⟩ | ⟨_, left, right, x, y, _, _, hfinite, rfl⟩
  · exact (h.read hx).isFinite_value
  · exact Cell.isProper_narrow c.receiver.type hfinite

theorem IsProper.step
    {machine next : Machine}
    (h : machine.IsProper)
    {c : Command} {line : String}
    (hstep : machine.step c = .ok (next, line)) :
    next.IsProper := by
  rcases step_eq_ok hstep with ⟨_, cell, hevaluate, rfl⟩
  intro other hother
  rcases List.mem_or_eq_of_mem_set hother with hold | rfl
  · exact h other hold
  · exact h.evaluate hevaluate

/-! ## Runs, one after the other -/

/-- The machines that a run passes: the one it starts on, and the one after
each command that is carried out. -/
def passes (capacity : Option Nat) (machine : Machine) :
    List Command → List Machine
  | [] => [machine]
  | c :: rest =>
    machine ::
      match machine.step c with
      | .error _ => []
      | .ok (next, _) =>
        if capacity = some 0 then [next]
        else passes (capacity.map (· - 1)) next rest

/-- The machines that several runs pass.  Each run goes on from where the one
before it was stopped or came to its end, and has a trace of its own. -/
def passesAll (machine : Machine) :
    List (Option Nat × List Command) → List Machine
  | [] => [machine]
  | (capacity, code) :: later =>
    machine.passes capacity code ++
      passesAll (machine.execute capacity code).machine later

theorem mem_passes_execute
    (capacity : Option Nat) (machine : Machine) (code : List Command) :
    (machine.execute capacity code).machine ∈
      machine.passes capacity code := by
  induction code generalizing capacity machine with
  | nil => exact List.mem_singleton_self machine
  | cons c rest ih =>
      rw [passes]
      cases hstep : machine.step c with
      | error fault =>
          rw [execute_cons_of_error hstep]
          exact List.mem_singleton_self machine
      | ok result =>
          apply List.mem_cons_of_mem
          by_cases hfull : capacity = some 0
          · rw [execute_cons_of_full hstep hfull]
            simp only [if_pos hfull]
            exact List.mem_singleton_self result.1
          · rw [execute_cons_of_step hstep hfull]
            simp only [if_neg hfull]
            exact ih _ _

section Kept

variable {P : Machine → Prop}

/-- What every command keeps holds all along a run. -/
theorem of_mem_passes
    (hkept : ∀ machine c next line,
      P machine → machine.step c = .ok (next, line) → P next)
    (capacity : Option Nat) {machine : Machine}
    (h : P machine)
    (code : List Command) :
    ∀ point ∈ machine.passes capacity code, P point := by
  induction code generalizing capacity machine with
  | nil =>
      intro point hpoint
      rw [List.mem_singleton.mp hpoint]
      exact h
  | cons c rest ih =>
      rw [passes, List.forall_mem_cons]
      refine ⟨h, ?_⟩
      cases hstep : machine.step c with
      | error fault => simp
      | ok result =>
          have hnext := hkept machine c result.1 result.2 h hstep
          by_cases hfull : capacity = some 0
          · simpa [hfull] using hnext
          · simp only [if_neg hfull]
            exact ih _ hnext

theorem of_mem_passesAll
    (hkept : ∀ machine c next line,
      P machine → machine.step c = .ok (next, line) → P next)
    {machine : Machine}
    (h : P machine)
    (runs : List (Option Nat × List Command)) :
    ∀ point ∈ machine.passesAll runs, P point := by
  induction runs generalizing machine with
  | nil =>
      intro point hpoint
      rw [List.mem_singleton.mp hpoint]
      exact h
  | cons run later ih =>
      have hpoints := of_mem_passes hkept run.1 h run.2
      intro point hpoint
      rcases List.mem_append.mp hpoint with hfirst | hlater
      · exact hpoints point hfirst
      · exact ih (hpoints _ (mem_passes_execute run.1 machine run.2))
          point hlater

end Kept

/-! ## The start of a run -/

section Start

variable {σ : Type}

/-- The source answers with a proper cell, if it answers at all. -/
def AnswersProperly
    (ask : String → ValueType → StateM σ (Except ValueFault Cell)) : Prop :=
  ∀ name type before cell after,
    (ask name type).run before = (.ok cell, after) → cell.IsProper

variable {ask : String → ValueType → StateM σ (Except ValueFault Cell)}

theorem isProper_of_fill
    (hask : AnswersProperly ask)
    {rows : List SymbolRow} {state : σ} {cells : List Cell}
    (h : ((fill ask rows).run state).1 = .ok cells) :
    ∀ cell ∈ cells, cell.IsProper := by
  induction rows generalizing state cells with
  | nil =>
      obtain rfl : [] = cells := Except.ok.inj h
      simp
  | cons row rest ih =>
      cases hrow : row.provenance with
      | program =>
          rw [fill_program ask hrow] at h
          rcases Success.map_eq_ok_iff.mp h with ⟨others, hothers, rfl⟩
          exact List.forall_mem_cons.mpr
            ⟨Cell.isProper_zero row.type, ih hothers⟩
      | user =>
          rw [fill_user ask hrow] at h
          split at h
          · contradiction
          · next cell after hanswer =>
              rcases Success.map_eq_ok_iff.mp h with ⟨others, hothers, rfl⟩
              exact List.forall_mem_cons.mpr
                ⟨hask _ _ _ _ _ hanswer, ih hothers⟩

theorem isProper_of_start
    (hask : AnswersProperly ask)
    {table : SymbolTable} {state : σ} {machine : Machine}
    (h : ((start ask table).run state).1 = .ok machine) :
    machine.IsProper := by
  rw [start_run] at h
  rcases Success.map_eq_ok_iff.mp h with ⟨cells, hcells, rfl⟩
  exact isProper_of_fill hask hcells

end Start

theorem isProper_of_ask
    {name written : String} {type : ValueType}
    {lines : List (Option String)} {cell : Cell} {after : Prompt}
    (h : Prompt.ask name type ⟨lines, written⟩ = (.ok cell, after)) :
    cell.IsProper := by
  induction lines generalizing written with
  | nil =>
      rw [Prompt.ask_of_end] at h
      cases congrArg Prod.fst h
  | cons line rest ih =>
      cases line with
      | none =>
          rw [Prompt.ask_of_bytes] at h
          cases congrArg Prod.fst h
      | some line =>
          cases hanswer : Dialogue.answer? type line with
          | some found =>
              rw [Prompt.ask_of_value _ _ _ hanswer] at h
              obtain rfl : found = cell := Except.ok.inj (congrArg Prod.fst h)
              exact Cell.isProper_of_read? hanswer
          | none =>
              rw [Prompt.ask_of_none _ _ _ hanswer] at h
              exact ih h

theorem answersProperly_prompt : AnswersProperly Prompt.ask := by
  intro name type before cell after hanswer
  exact isProper_of_ask hanswer

theorem answersProperly_valueTable
    {values : ValueTable}
    (hvalues : ∀ entry ∈ values, entry.2.isFinite = true) :
    AnswersProperly fun name type =>
      (pure (values.ask name type) : StateM Unit _) := by
  intro name type before cell after hanswer
  have hask : values.ask name type = .ok cell := congrArg Prod.fst hanswer
  unfold ValueTable.ask at hask
  split at hask
  · next x hx =>
      rw [← Except.ok.inj hask]
      apply Cell.isProper_narrow
      rcases List.lookup_eq_some_iff.mp hx with ⟨first, rest, rfl, _⟩
      exact hvalues (name, x) (by simp)
  · contradiction

/-- A prompt answers with proper cells only, and so does a table of finite
values.  If the source of values does, then at every point of any number of
runs, also after runs that were stopped, every cell holds an integer of 32
bits or a finite number. -/
theorem cells_isProper_at_every_point :
    AnswersProperly Prompt.ask ∧
      (∀ values : ValueTable, (∀ entry ∈ values, entry.2.isFinite = true) →
        AnswersProperly fun name type =>
          (pure (values.ask name type) : StateM Unit _)) ∧
      ∀ {σ : Type}
        (ask : String → ValueType → StateM σ (Except ValueFault Cell))
        (table : SymbolTable) (state : σ) (machine : Machine),
        AnswersProperly ask → ((start ask table).run state).1 = .ok machine →
          ∀ runs, ∀ point ∈ machine.passesAll runs, ∀ cell ∈ point.cells,
            cell.IsProper := by
  refine ⟨answersProperly_prompt, fun values =>
    answersProperly_valueTable, ?_⟩
  intro σ ask table state machine hask hstart runs
  have hkept : ∀ (machine : Machine) c next line, machine.IsProper →
      machine.step c = .ok (next, line) → next.IsProper :=
    fun machine c next line hproper hstep => hproper.step hstep
  exact of_mem_passesAll hkept (isProper_of_start hask hstart) runs

/-- The least integer of 32 bits, and the largest finite number. -/
def extremeValues : ValueTable :=
  [("x", .ofInt (-2 ^ 31)), ("y", .ofInt (2 ^ 128 - 2 ^ 104))]

def extremeTable : SymbolTable :=
  ⟨[⟨"x", .integer, .user⟩, ⟨"y", .float, .user⟩, ⟨"T1", .integer, .program⟩]⟩

/-- A conversion into an integer symbol and a product that is not finite;
then, in a trace without room, a product that is out of the range of
integers. -/
def extremeRuns : List (Option Nat × List Command) :=
  let x : Operand := .identifier ⟨1, .integer, .user, Nat.succ_pos 0⟩
  let y : Operand := .identifier ⟨2, .float, .user, Nat.succ_pos 1⟩
  let receiver : Identifier := ⟨3, .integer, .program, Nat.succ_pos 2⟩
  [(none, [⟨.toFloat, receiver, .right x⟩, ⟨.multiply, receiver, .both y y⟩]),
    (some 0, [⟨.subtract, receiver, .both y x⟩])]

/-- The cell of the temporary holds a finite float first, stays as it is when
the product fails, and holds the largest integer in the end. -/
theorem cells_isProper_at_extremes :
    ∃ machine,
      ((start (fun name type =>
            (pure (extremeValues.ask name type) : StateM Unit _))
          extremeTable).run ()).1 = .ok machine ∧
      (machine.passesAll extremeRuns).map (·.cell? 3) =
        [some (.integer 0), some (.float (.ofInt (-2 ^ 31))),
          some (.float (.ofInt (-2 ^ 31))), some (.integer (2 ^ 31 - 1)),
          some (.integer (2 ^ 31 - 1))] ∧
      ∀ point ∈ machine.passesAll extremeRuns, ∀ cell ∈ point.cells,
        cell.IsProper := by
  obtain ⟨machine, hstart, hcells⟩ : ∃ machine,
      ((start (fun name type =>
            (pure (extremeValues.ask name type) : StateM Unit _))
          extremeTable).run ()).1 = .ok machine ∧
      (machine.passesAll extremeRuns).map (·.cell? 3) =
        [some (.integer 0), some (.float (.ofInt (-2 ^ 31))),
          some (.float (.ofInt (-2 ^ 31))), some (.integer (2 ^ 31 - 1)),
          some (.integer (2 ^ 31 - 1))] :=
    ⟨_, rfl, by decide +kernel⟩
  obtain ⟨_, htable, hpoints⟩ := cells_isProper_at_every_point
  have hask := htable extremeValues (by decide +kernel)
  exact ⟨machine, hstart, hcells,
    hpoints _ _ _ machine hask hstart extremeRuns⟩

end Machine

end ThreeAddress
