import ThreeAddress.Proofs.CellTypes

/-!
# Runs in batches

Commands may be carried out in batches: a machine goes on from where the last
batch left it.  A batch that comes to its end joins the next one into one run.
A batch stops in one of two ways.  Either a command fails, and leaves no mark;
or the trace does not take the line of a command that has been carried out.
In both cases the machine is the one after the commands that were carried out,
and of its cells only those of their receivers may have changed.

The commands `code.take k` without a limit on the trace serve as the measure:
they are what the first `k` commands do alone.
-/

namespace ThreeAddress

namespace Machine

/-- The first `k` commands are carried out, the trace takes their lines, and
the next command fails. -/
structure FailsAt (machine : Machine) (capacity : Option Nat)
    (code : List Command) (k : Nat) (fault : RuntimeFault) : Prop where
  comesTo : (machine.execute none (code.take k)).fault = none
  fails : ∃ c, code[k]? = some c ∧
    (machine.execute none (code.take k)).machine.step c = .error fault
  room : ∀ n, capacity = some n → k ≤ n

/-- The first `k` commands are carried out and fill the trace, and the next
command succeeds. -/
structure RefusedAt (machine : Machine) (capacity : Option Nat)
    (code : List Command) (k : Nat) : Prop where
  comesTo : (machine.execute none (code.take k)).fault = none
  succeeds : ∃ c next line, code[k]? = some c ∧
    (machine.execute none (code.take k)).machine.step c = .ok (next, line)
  full : capacity = some k

section Cons

variable {capacity : Option Nat} {machine next : Machine} {c : Command}
  {line : String}

theorem execute_none_cons_of_step
    (hstep : machine.step c = .ok (next, line))
    (rest : List Command) :
    machine.execute none (c :: rest) =
      { next.execute none rest with
        trace := line :: (next.execute none rest).trace } :=
  execute_cons_of_step hstep (by simp) rest

theorem FailsAt.cons
    {rest : List Command} {k : Nat} {fault : RuntimeFault}
    (hstep : machine.step c = .ok (next, line))
    (hroom : capacity ≠ some 0)
    (h : next.FailsAt (capacity.map (· - 1)) rest k fault) :
    machine.FailsAt capacity (c :: rest) (k + 1) fault := by
  have hrun := execute_none_cons_of_step hstep (rest.take k)
  refine ⟨?_, ?_, ?_⟩
  · rw [List.take_succ_cons, hrun]
    exact h.comesTo
  · rw [List.take_succ_cons, hrun, List.getElem?_cons_succ]
    exact h.fails
  · rintro n rfl
    have hn : n ≠ 0 := fun hzero => hroom (congrArg some hzero)
    have := h.room (n - 1) rfl
    omega

theorem RefusedAt.cons
    {rest : List Command} {k : Nat}
    (hstep : machine.step c = .ok (next, line))
    (hroom : capacity ≠ some 0)
    (h : next.RefusedAt (capacity.map (· - 1)) rest k) :
    machine.RefusedAt capacity (c :: rest) (k + 1) := by
  have hrun := execute_none_cons_of_step hstep (rest.take k)
  refine ⟨?_, ?_, ?_⟩
  · rw [List.take_succ_cons, hrun]
    exact h.comesTo
  · rw [List.take_succ_cons, hrun, List.getElem?_cons_succ]
    exact h.succeeds
  · rcases Option.map_eq_some_iff.mp h.full with ⟨n, rfl, hn⟩
    have hzero : n ≠ 0 := fun hzero => hroom (congrArg some hzero)
    exact congrArg some (by omega)

end Cons

/-! ## How a run ends -/

/-- A trace that has room for the line of every command is as good as one
without a limit. -/
theorem execute_of_room
    {capacity : Option Nat} {code : List Command}
    (hroom : ∀ n, capacity = some n → code.length ≤ n)
    (machine : Machine) :
    machine.execute capacity code = machine.execute none code := by
  induction code generalizing capacity machine with
  | nil => rfl
  | cons c rest ih =>
      cases hstep : machine.step c with
      | error fault => simp only [execute_cons_of_error hstep]
      | ok result =>
          have hnonzero : capacity ≠ some 0 := fun hzero => by
            simpa using hroom 0 hzero
          have hrest :
              ∀ n, capacity.map (· - 1) = some n → rest.length ≤ n := by
            intro n hn
            rcases Option.map_eq_some_iff.mp hn with ⟨m, hm, rfl⟩
            have := hroom m hm
            rw [List.length_cons] at this
            omega
          rw [execute_cons_of_step hstep hnonzero,
            execute_none_cons_of_step hstep, ih hrest]

theorem length_trace_of_end
    {capacity : Option Nat} {machine : Machine} {code : List Command}
    (h : (machine.execute capacity code).fault = none) :
    (machine.execute capacity code).trace.length = code.length := by
  induction code generalizing capacity machine with
  | nil => rfl
  | cons c rest ih =>
      cases hstep : machine.step c with
      | error fault => simp [execute_cons_of_error hstep] at h
      | ok result =>
          by_cases hfull : capacity = some 0
          · simp [execute_cons_of_full hstep hfull] at h
          · rw [execute_cons_of_step hstep hfull] at h ⊢
            exact congrArg (· + 1) (ih h)

theorem carriedOut_append_of_end
    {capacity : Option Nat} {machine : Machine} {code : List Command}
    (h : (machine.execute capacity code).fault = none)
    (later : List Command) :
    machine.carriedOut capacity (code ++ later) =
      code ++ (machine.execute capacity code).machine.carriedOut
        (capacity.map (· - code.length)) later := by
  induction code generalizing capacity machine with
  | nil => cases capacity <;> simp [execute]
  | cons c rest ih =>
      cases hstep : machine.step c with
      | error fault => simp [execute_cons_of_error hstep] at h
      | ok result =>
          by_cases hfull : capacity = some 0
          · simp [execute_cons_of_full hstep hfull] at h
          · rw [execute_cons_of_step hstep hfull] at h ⊢
            simp only [List.cons_append, carriedOut, hstep, if_neg hfull]
            rw [ih h, map_sub_one_map_sub, List.length_cons]

theorem stops_of_fault
    {capacity : Option Nat} {machine : Machine} {code : List Command}
    {error : Error}
    (h : (machine.execute capacity code).fault = some error) :
    (∃ k fault, error = .runtime fault ∧
      machine.FailsAt capacity code k fault) ∨
      error = .internal .traceFull ∧
      ∃ k, machine.RefusedAt capacity code k := by
  induction code generalizing capacity machine with
  | nil => simp [execute] at h
  | cons c rest ih =>
      cases hstep : machine.step c with
      | error fault =>
          simp only [execute_cons_of_error hstep, Option.some.injEq] at h
          exact .inl ⟨0, fault, h.symm, rfl,
            ⟨c, rfl, hstep⟩, fun n _ => Nat.zero_le n⟩
      | ok result =>
          by_cases hfull : capacity = some 0
          · simp only [execute_cons_of_full hstep hfull,
              Option.some.injEq] at h
            exact .inr ⟨h.symm, 0, rfl,
              ⟨c, result.1, result.2, rfl, hstep⟩, hfull⟩
          · rw [execute_cons_of_step hstep hfull] at h
            rcases ih h with
              ⟨k, fault, herror, hfails⟩ | ⟨herror, k, hrefused⟩
            · exact .inl ⟨k + 1, fault, herror, hfails.cons hstep hfull⟩
            · exact .inr ⟨herror, k + 1, hrefused.cons hstep hfull⟩

theorem eq_take_append
    {code : List Command} {k : Nat} {c : Command}
    (h : code[k]? = some c) :
    code = code.take k ++ c :: code.drop (k + 1) ∧
      (code.take k).length = k := by
  obtain ⟨hk, rfl⟩ := List.getElem?_eq_some_iff.mp h
  rw [← List.drop_eq_getElem_cons hk, List.take_append_drop]
  exact ⟨rfl, List.length_take_of_le hk.le⟩

/-- A command that fails leaves no mark. -/
theorem FailsAt.execute_eq
    {capacity : Option Nat} {machine : Machine} {code : List Command}
    {k : Nat} {fault : RuntimeFault}
    (h : machine.FailsAt capacity code k fault) :
    machine.execute capacity code =
        { machine.execute none (code.take k) with
          fault := some (.runtime fault) } ∧
      machine.carriedOut capacity code = code.take k := by
  rcases h.fails with ⟨c, hc, hstep⟩
  obtain ⟨hcode, hlength⟩ := eq_take_append hc
  -- The first `k` lines fit, so that the limit of the trace has not been felt
  -- yet.
  have hdone : machine.execute capacity (code.take k) =
      machine.execute none (code.take k) :=
    execute_of_room (by rw [hlength]; exact h.room) machine
  have hend : (machine.execute capacity (code.take k)).fault = none := by
    rw [hdone]
    exact h.comesTo
  constructor
  · conv_lhs => rw [hcode, execute_append_of_end hend, hdone]
    simp only [execute_cons_of_error hstep, List.append_nil]
  · conv_lhs => rw [hcode, carriedOut_append_of_end hend, hdone]
    simp only [carriedOut, hstep, List.append_nil]

/-- A command whose line is not taken has been carried out. -/
theorem RefusedAt.execute_eq
    {capacity : Option Nat} {machine : Machine} {code : List Command}
    {k : Nat}
    (h : machine.RefusedAt capacity code k) :
    machine.execute capacity code =
        ⟨(machine.execute none (code.take (k + 1))).machine,
          (machine.execute none (code.take k)).trace,
            some (.internal .traceFull)⟩ ∧
      (machine.execute none (code.take (k + 1))).fault = none ∧
      machine.carriedOut capacity code = code.take (k + 1) := by
  rcases h with ⟨hcomes, ⟨c, next, line, hc, hstep⟩, rfl⟩
  obtain ⟨hcode, hlength⟩ := eq_take_append hc
  have hsucc : code.take (k + 1) = code.take k ++ [c] := by
    rw [List.take_add_one, hc, Option.toList_some]
  have hdone : machine.execute (some k) (code.take k) =
      machine.execute none (code.take k) :=
    execute_of_room (by simp) machine
  have hend : (machine.execute (some k) (code.take k)).fault = none := by
    rw [hdone]
    exact hcomes
  have hcapacity : (some k).map (· - (code.take k).length) = some 0 := by
    rw [hlength, Option.map_some, Nat.sub_self]
  have hafter : machine.execute none (code.take (k + 1)) =
      ⟨next, (machine.execute none (code.take k)).trace ++ [line], none⟩ := by
    rw [hsucc, execute_append_of_end hcomes, Option.map_none,
      execute_none_cons_of_step hstep]
    rfl
  rw [hafter]
  refine ⟨?_, rfl, ?_⟩
  · conv_lhs => rw [hcode, execute_append_of_end hend, hcapacity, hdone]
    simp only [execute_cons_of_full hstep rfl, List.append_nil]
  · conv_lhs => rw [hcode, carriedOut_append_of_end hend, hcapacity, hdone]
    rw [hsucc]
    simp only [carriedOut, hstep, if_true]

/-! ## What a run leaves alone -/

theorem isSome_cell?
    (machine : Machine) (attr : Nat) :
    (machine.cell? attr).isSome ↔ 0 < attr ∧ attr ≤ machine.cells.length := by
  cases attr with
  | zero => simp [cell?]
  | succ n => simp [cell?]

theorem length_cells_execute
    (capacity : Option Nat) (machine : Machine) (code : List Command) :
    (machine.execute capacity code).machine.cells.length =
      machine.cells.length := by
  induction code generalizing capacity machine with
  | nil => rfl
  | cons c rest ih =>
      cases hstep : machine.step c with
      | error fault => rw [execute_cons_of_error hstep]
      | ok result =>
          rcases result with ⟨next, line⟩
          rcases step_eq_ok hstep with ⟨_, cell, _, rfl⟩
          by_cases hfull : capacity = some 0
          · rw [execute_cons_of_full hstep hfull, length_store]
          · rw [execute_cons_of_step hstep hfull, ih, length_store]

theorem cell?_execute_of_notMem
    {capacity : Option Nat} {machine : Machine} {code : List Command}
    {attr : Nat}
    (h : ∀ c ∈ machine.carriedOut capacity code, c.receiver.attr ≠ attr) :
    (machine.execute capacity code).machine.cell? attr =
      machine.cell? attr := by
  induction code generalizing capacity machine with
  | nil => rfl
  | cons c rest ih =>
      cases hstep : machine.step c with
      | error fault => rw [execute_cons_of_error hstep]
      | ok result =>
          rcases result with ⟨next, line⟩
          rcases step_eq_ok hstep with ⟨_, cell, _, rfl⟩
          simp only [carriedOut, hstep, List.forall_mem_cons] at h
          have hstore : (machine.store c.receiver.attr cell).cell? attr =
              machine.cell? attr :=
            cell?_store_of_ne c.receiver.positive (Ne.symm h.1) cell
          by_cases hfull : capacity = some 0
          · rw [execute_cons_of_full hstep hfull, hstore]
          · rw [if_neg hfull] at h
            rw [execute_cons_of_step hstep hfull, ih h.2, hstore]

/-! ## Batches -/

/-- Runs of commands compose, and stop cleanly.  A run that comes to its end
is continued by any later commands as if both were one list.  A run that is
stopped leaves the machine as it is after the commands carried out alone: `k`
of them with `k` lines if command `k` fails, and `k + 1` of them with `k`
lines if the line of command `k` is not taken.  There is no third way to stop.
A run gives no attribute a cell and takes none away, and changes no cell but
those of the receivers of the commands it carried out. -/
theorem execute_in_batches
    (machine : Machine) (capacity : Option Nat) (code : List Command) :
    let run := machine.execute capacity code
    (run.fault = none →
      run.trace.length = code.length ∧
      machine.carriedOut capacity code = code ∧
      ∀ later, machine.execute capacity (code ++ later) =
        let next := run.machine.execute (capacity.map (· - code.length)) later
        ⟨next.machine, run.trace ++ next.trace, next.fault⟩) ∧
    (∀ k fault, machine.FailsAt capacity code k fault →
      run.fault = some (.runtime fault) ∧
        run.machine = (machine.execute none (code.take k)).machine ∧
        run.trace = (machine.execute none (code.take k)).trace ∧
        run.trace.length = k ∧
        machine.carriedOut capacity code = code.take k) ∧
    (∀ k, machine.RefusedAt capacity code k →
      run.fault = some (.internal .traceFull) ∧
        (machine.execute none (code.take (k + 1))).fault = none ∧
        run.machine = (machine.execute none (code.take (k + 1))).machine ∧
        run.trace = (machine.execute none (code.take k)).trace ∧
        run.trace.length = k ∧
        machine.carriedOut capacity code = code.take (k + 1)) ∧
    (∀ error, run.fault = some error →
      (∃ k fault, error = .runtime fault ∧
        machine.FailsAt capacity code k fault) ∨
        error = .internal .traceFull ∧
        ∃ k, machine.RefusedAt capacity code k) ∧
    (∀ attr, (run.machine.cell? attr).isSome = (machine.cell? attr).isSome) ∧
    (∀ attr, run.machine.cell? attr ≠ machine.cell? attr →
      ∃ c ∈ machine.carriedOut capacity code, c.receiver.attr = attr) := by
  intro run
  refine ⟨?_, ?_, ?_, ?_, ?_, ?_⟩
  · intro hend
    refine ⟨length_trace_of_end hend,
      ?_, fun later => execute_append_of_end hend later⟩
    simpa [carriedOut] using carriedOut_append_of_end hend []
  · intro k fault hfails
    obtain ⟨hrun, hcarried⟩ := hfails.execute_eq
    rcases hfails.fails with ⟨c, hc, _⟩
    have hlength := length_trace_of_end hfails.comesTo
    rw [(eq_take_append hc).2] at hlength
    dsimp only [run]
    rw [hrun]
    exact ⟨rfl, rfl, rfl, hlength, hcarried⟩
  · intro k hrefused
    obtain ⟨hrun, hdone, hcarried⟩ := hrefused.execute_eq
    rcases hrefused.succeeds with ⟨c, next, line, hc, _⟩
    have hlength := length_trace_of_end hrefused.comesTo
    rw [(eq_take_append hc).2] at hlength
    dsimp only [run]
    rw [hrun]
    exact ⟨rfl, hdone, rfl, rfl, hlength, hcarried⟩
  · intro error herror
    exact stops_of_fault herror
  · intro attr
    rw [Bool.eq_iff_iff, isSome_cell?, isSome_cell?, length_cells_execute]
  · intro attr hchanged
    by_contra hnone
    exact hchanged
      (cell?_execute_of_notMem fun c hc hattr => hnone ⟨c, hc, hattr⟩)

/-- The code of a quotient, whose division stores where the addition has
stored. -/
def divisionBatch : List Command :=
  ((compile "(a + 1) / b" >>= (·.generate .optimal)).toOption.map
    Prod.fst).getD []

/-- The division fails and leaves the machine as the addition left it; a trace
without room for a line stops the run after the addition, and has no line of
it. -/
theorem divisionBatch_stops :
    let machine : Machine := ⟨[.integer 6, .integer 0, .integer 0], none⟩
    let after : Machine := ⟨[.integer 6, .integer 0, .integer 7], some 3⟩
    divisionBatch.map Command.text =
        ["add <id,3> <id,1> 1", "div <id,3> <id,3> <id,2>"] ∧
      machine.FailsAt none divisionBatch 1
        (.nonFinite (.integer 7) .divide (.integer 0)) ∧
      (machine.execute none divisionBatch).machine = after ∧
      (machine.execute none divisionBatch).trace = ["6 + 1 = 7"] ∧
      machine.RefusedAt (some 0) divisionBatch 0 ∧
      (machine.execute (some 0) divisionBatch).machine = after ∧
      (machine.execute (some 0) divisionBatch).trace = [] := by
  intro machine after
  obtain ⟨hdone, htrace, hend⟩ :
      (machine.execute none (divisionBatch.take 1)).machine = after ∧
      (machine.execute none (divisionBatch.take 1)).trace = ["6 + 1 = 7"] ∧
      (machine.execute none (divisionBatch.take 1)).fault = none := by
    decide +kernel
  have hadds : (divisionBatch[0]?).map machine.step =
      some (.ok (after, "6 + 1 = 7")) := by
    decide +kernel
  have hdivides : (divisionBatch[1]?).map after.step =
      some (.error (.nonFinite (.integer 7) .divide (.integer 0))) := by
    decide +kernel
  obtain ⟨addition, haddition, hsum⟩ := Option.map_eq_some_iff.mp hadds
  obtain ⟨division, hdivision, hfault⟩ := Option.map_eq_some_iff.mp hdivides
  have hfails : machine.FailsAt none divisionBatch 1
      (.nonFinite (.integer 7) .divide (.integer 0)) :=
    ⟨hend, ⟨division, hdivision, by rwa [hdone]⟩, by simp⟩
  have hrefused : machine.RefusedAt (some 0) divisionBatch 0 :=
    ⟨rfl, ⟨addition, after, "6 + 1 = 7", haddition, hsum⟩, rfl⟩
  obtain ⟨_, hmachine, hlines, _⟩ :=
    (machine.execute_in_batches none divisionBatch).2.1 _ _ hfails
  obtain ⟨_, _, hmachine', hlines', _⟩ :=
    (machine.execute_in_batches (some 0) divisionBatch).2.2.1 _ hrefused
  exact ⟨by decide +kernel, hfails, hmachine.trans hdone, hlines.trans htrace,
    hrefused, hmachine'.trans hdone, hlines'⟩

end Machine

end ThreeAddress
