import ThreeAddress.Machine
import ThreeAddress.Proofs.Success

/-!
# Runs as courses

A course is what can be told of a run without looking at the machine: the
lines of the trace, and a value or the fault that stopped it.  Courses compose
like the commands they describe.  `Follows` says that a run of commands takes
a given course, and leaves behind a machine of which something is known when
it comes to its end.
-/

namespace ThreeAddress

/-- The lines of a trace, and what is reached at its end. -/
structure Course (α : Type) where
  trace : List String
  outcome : Except RuntimeFault α

namespace Course

def value {α : Type} (a : α) : Course α := ⟨[], .ok a⟩

def ofStep {α : Type} : Except RuntimeFault (α × String) → Course α
  | .ok (a, line) => ⟨[line], .ok a⟩
  | .error fault => ⟨[], .error fault⟩

def bind {α β : Type} (course : Course α) (next : α → Course β) : Course β :=
  match course.outcome with
  | .ok a => ⟨course.trace ++ (next a).trace, (next a).outcome⟩
  | .error fault => ⟨course.trace, .error fault⟩

theorem bind_outcome
    {α β : Type} (course : Course α) (next : α → Course β) :
    (course.bind next).outcome =
      course.outcome.bind fun a => (next a).outcome := by
  cases h : course.outcome <;> simp [bind, h, Except.bind]

end Course

namespace Machine

/-! ## Cells -/

theorem cell?_store_self
    {machine : Machine} {attr : Nat}
    (hpositive : 0 < attr)
    (hattr : attr ≤ machine.cells.length)
    (cell : Cell) :
    (machine.store attr cell).cell? attr = some cell := by
  obtain ⟨n, rfl⟩ := Nat.exists_eq_succ_of_ne_zero hpositive.ne'
  simp only [cell?, store, Nat.succ_eq_add_one, Nat.add_sub_cancel]
  exact List.getElem?_set_self (by omega)

theorem cell?_store_of_ne
    {machine : Machine} {attr other : Nat}
    (hpositive : 0 < attr)
    (hne : other ≠ attr)
    (cell : Cell) :
    (machine.store attr cell).cell? other = machine.cell? other := by
  obtain ⟨n, rfl⟩ := Nat.exists_eq_succ_of_ne_zero hpositive.ne'
  cases other with
  | zero => rfl
  | succ k =>
      simp only [cell?, store, Nat.succ_eq_add_one, Nat.add_sub_cancel]
      exact List.getElem?_set_ne (by omega)

@[simp] theorem length_store
    (machine : Machine) (attr : Nat) (cell : Cell) :
    (machine.store attr cell).cells.length = machine.cells.length := by
  simp [store]

theorem exists_cell?
    {machine : Machine} {attr : Nat}
    (hpositive : 0 < attr)
    (hattr : attr ≤ machine.cells.length) :
    ∃ cell, machine.cell? attr = some cell := by
  obtain ⟨n, rfl⟩ := Nat.exists_eq_succ_of_ne_zero hpositive.ne'
  exact ⟨_, List.getElem?_eq_getElem (Nat.lt_of_succ_le hattr)⟩

theorem le_length_of_cell?
    {machine : Machine} {attr : Nat} {cell : Cell}
    (h : machine.cell? attr = some cell) :
    attr ≤ machine.cells.length := by
  cases attr with
  | zero => exact Nat.zero_le _
  | succ n => exact (List.getElem?_eq_some_iff.mp h).1

theorem result?_store
    {machine : Machine} {attr : Nat}
    (hpositive : 0 < attr)
    (hattr : attr ≤ machine.cells.length)
    (cell : Cell) :
    (machine.store attr cell).result? = some cell :=
  cell?_store_self hpositive hattr cell

/-! ## Commands -/

def converted (x : Cell) : Cell × String :=
  (.float x.value, x.text ++ " -> " ++ (Cell.float x.value).text)

/-- An operation on two cells: the result as the given type, and the line of
the trace. -/
def computed (type : ValueType) (op : Operator) (x y : Cell) :
    Except RuntimeFault (Cell × String) :=
  if (op.apply x.value y.value).isFinite then
    .ok (.narrow type (op.apply x.value y.value),
      x.text ++ " " ++ op.lexeme ++ " " ++ y.text ++ " = " ++
        (Cell.narrow type (op.apply x.value y.value)).text)
  else .error (.nonFinite x op y)

def stored (machine : Machine) (attr : Nat) (result : Cell × String) :
    Machine × String :=
  (machine.store attr result.1, result.2)

section Update

variable {machine : Machine} {c : Command}

theorem run_get_bind
    {α : Type} (f : Machine → ExceptT RuntimeFault (StateM Machine) α)
    (machine : Machine) :
    (get >>= f).run machine = (f machine).run machine := rfl

theorem run_update_of_none
    (h : machine.cell? c.receiver.attr = none) :
    (update c).run machine =
      (.error (.undefinedSymbol c.receiver.attr), machine) := by
  rw [update, run_get_bind, if_pos (by simp [h])]
  rfl

theorem run_update_of_error
    {old : Cell} {fault : RuntimeFault}
    (hold : machine.cell? c.receiver.attr = some old)
    (h : machine.evaluate c = .error fault) :
    (update c).run machine = (.error fault, machine) := by
  rw [update, run_get_bind, if_neg (by simp [hold]), h]
  rfl

theorem run_update_of_ok
    {old : Cell} {result : Cell × String}
    (hold : machine.cell? c.receiver.attr = some old)
    (h : machine.evaluate c = .ok result) :
    (update c).run machine =
      (.ok result.2, machine.store c.receiver.attr result.1) := by
  rw [update, run_get_bind, if_neg (by simp [hold]), h]
  rfl

/-- A command that fails leaves the machine as it was: the first change comes
behind the last check. -/
theorem eq_of_run_update_error
    {left : Machine} {fault : RuntimeFault}
    (h : (update c).run machine = (.error fault, left)) :
    left = machine := by
  cases hold : machine.cell? c.receiver.attr with
  | none =>
      rw [run_update_of_none hold] at h
      exact (Prod.mk.inj h).2.symm
  | some old =>
      cases hresult : machine.evaluate c with
      | error fault' =>
          rw [run_update_of_error hold hresult] at h
          exact (Prod.mk.inj h).2.symm
      | ok result =>
          rw [run_update_of_ok hold hresult] at h
          cases (Prod.mk.inj h).1

theorem step_eq_ok_iff
    {next : Machine} {line : String} :
    machine.step c = .ok (next, line) ↔
      (update c).run machine = (.ok line, next) := by
  unfold step
  rcases (update c).run machine with ⟨fault | line', left⟩
  · exact iff_of_false nofun nofun
  · constructor
    · rintro ⟨⟩
      rfl
    · rintro ⟨⟩
      rfl

theorem step_eq_error_iff
    {fault : RuntimeFault} :
    machine.step c = .error fault ↔
      (update c).run machine = (.error fault, machine) := by
  unfold step
  rcases hrun : (update c).run machine with ⟨fault' | line, left⟩
  · obtain rfl := eq_of_run_update_error hrun
    constructor
    · rintro ⟨⟩
      rfl
    · rintro ⟨⟩
      rfl
  · exact iff_of_false nofun nofun

theorem step_of_none
    (h : machine.cell? c.receiver.attr = none) :
    machine.step c = .error (.undefinedSymbol c.receiver.attr) :=
  step_eq_error_iff.mpr (run_update_of_none h)

theorem step_of_some
    {old : Cell}
    (hold : machine.cell? c.receiver.attr = some old) :
    machine.step c =
      (machine.evaluate c).map (machine.stored c.receiver.attr) := by
  cases hresult : machine.evaluate c with
  | error fault =>
      exact step_eq_error_iff.mpr (run_update_of_error hold hresult)
  | ok result =>
      exact step_eq_ok_iff.mpr (run_update_of_ok hold hresult)

end Update

theorem step_convert
    {machine : Machine} {id : Identifier} {a : Operand} {x : Cell}
    (hid : id.attr ≤ machine.cells.length)
    (ha : machine.read a = .ok x) :
    machine.step ⟨.toFloat, id, .right a⟩ =
      .ok (machine.stored id.attr (converted x)) := by
  obtain ⟨old, hold⟩ := exists_cell? id.positive hid
  rw [step_of_some hold]
  simp only [evaluate, convert, ha]
  rfl

theorem step_compute
    {machine : Machine} {op : Operator} {id : Identifier} {a b : Operand}
    {x y : Cell}
    (hop : op ≠ .toFloat)
    (hid : id.attr ≤ machine.cells.length)
    (ha : machine.read a = .ok x)
    (hb : machine.read b = .ok y) :
    machine.step ⟨op, id, .both a b⟩ =
      (computed id.type op x y).map (machine.stored id.attr) := by
  obtain ⟨old, hold⟩ := exists_cell? id.positive hid
  rw [step_of_some hold]
  simp only [evaluate, if_neg hop, compute, ha, hb, computed]
  by_cases hfinite : (op.apply x.value y.value).isFinite = true
  · simp only [Success.ok_bind, if_pos hfinite]
    rfl
  · simp only [Success.ok_bind, if_neg hfinite]
    rfl

theorem step_eq_ok
    {machine next : Machine} {c : Command} {line : String}
    (h : machine.step c = .ok (next, line)) :
    (∃ old, machine.cell? c.receiver.attr = some old) ∧
      ∃ cell, machine.evaluate c = .ok (cell, line) ∧
        next = machine.store c.receiver.attr cell := by
  cases hold : machine.cell? c.receiver.attr with
  | none => simp [step_of_none hold] at h
  | some old =>
      rw [step_of_some hold, Success.map_eq_ok_iff] at h
      rcases h with ⟨⟨cell, line'⟩, hevaluate, hstored⟩
      obtain ⟨rfl, rfl⟩ := Prod.mk.inj hstored
      exact ⟨⟨old, rfl⟩, cell, hevaluate, rfl⟩

/-- A command stores the value of its operand, or the finite result of its
operator as the type of its receiver. -/
theorem evaluate_eq_ok
    {machine : Machine} {c : Command} {cell : Cell} {line : String}
    (h : machine.evaluate c = .ok (cell, line)) :
    (c.operator = .toFloat ∧ ∃ operand x, machine.read operand = .ok x ∧
        cell = .float x.value) ∨
      (c.operator ≠ .toFloat ∧ ∃ left right x y, machine.read left = .ok x ∧
        machine.read right = .ok y ∧
        (c.operator.apply x.value y.value).isFinite = true ∧
        cell = .narrow c.receiver.type
          (c.operator.apply x.value y.value)) := by
  unfold evaluate at h
  split at h
  · next hop =>
      have hconvert :
          ∃ operand, machine.convert operand = .ok (cell, line) := by
        cases hoperands : c.operands <;>
          exact ⟨_, by simpa [hoperands] using h⟩
      rcases hconvert with ⟨operand, hconvert⟩
      simp only [convert, Success.bind_eq_ok_iff, Success.pure_eq_ok_iff,
        Prod.mk.injEq] at hconvert
      rcases hconvert with ⟨x, hx, hcell, _⟩
      exact .inl ⟨hop, operand, x, hx, hcell.symm⟩
  · next hop =>
      split at h
      · next left right _ =>
          simp only [compute, Success.bind_eq_ok_iff] at h
          rcases h with ⟨x, hx, y, hy, h⟩
          split at h
          · next hfinite =>
              have hcell := (Prod.mk.inj (Except.ok.inj h)).1
              exact .inr ⟨hop, left, right, x, y, hx, hy, hfinite, hcell.symm⟩
          · contradiction
      · contradiction

/-! ## Runs -/

/-- The run takes the course, and what it leaves behind at the end of it is as
described. -/
def Follows {α : Type} (run : Run) (course : Course α)
    (ends : α → Machine → Prop) : Prop :=
  run.trace = course.trace ∧
    match course.outcome with
    | .ok a => run.fault = none ∧ ends a run.machine
    | .error fault => run.fault = some (.runtime fault)

theorem execute_cons_of_error
    {machine : Machine} {c : Command} {fault : RuntimeFault}
    (hstep : machine.step c = .error fault)
    (capacity : Option Nat) (rest : List Command) :
    machine.execute capacity (c :: rest) =
      ⟨machine, [], some (.runtime fault)⟩ := by
  simp only [execute, step_eq_error_iff.mp hstep]

theorem execute_cons_of_full
    {capacity : Option Nat} {machine next : Machine} {c : Command}
    {line : String}
    (hstep : machine.step c = .ok (next, line))
    (hfull : capacity = some 0)
    (rest : List Command) :
    machine.execute capacity (c :: rest) =
      ⟨next, [], some (.internal .traceFull)⟩ := by
  simp only [execute, step_eq_ok_iff.mp hstep, if_pos hfull]

theorem execute_cons_of_step
    {capacity : Option Nat} {machine next : Machine} {c : Command}
    {line : String}
    (hstep : machine.step c = .ok (next, line))
    (hroom : capacity ≠ some 0)
    (rest : List Command) :
    machine.execute capacity (c :: rest) =
      { next.execute (capacity.map (· - 1)) rest with
        trace := line ::
          (next.execute (capacity.map (· - 1)) rest).trace } := by
  simp only [execute, step_eq_ok_iff.mp hstep, if_neg hroom]

theorem execute_append_of_fault
    {capacity : Option Nat} {machine : Machine} {first : List Command}
    {error : Error}
    (h : (machine.execute capacity first).fault = some error)
    (second : List Command) :
    machine.execute capacity (first ++ second) =
      machine.execute capacity first := by
  induction first generalizing capacity machine with
  | nil => simp [execute] at h
  | cons c rest ih =>
      cases hstep : machine.step c with
      | error fault => simp [execute_cons_of_error hstep]
      | ok result =>
          by_cases hfull : capacity = some 0
          · simp only [List.cons_append, execute_cons_of_full hstep hfull]
          · rw [execute_cons_of_step hstep hfull] at h ⊢
            rw [List.cons_append, execute_cons_of_step hstep hfull, ih h]

theorem map_sub_one_map_sub
    (capacity : Option Nat) (n : Nat) :
    (capacity.map (· - 1)).map (· - n) = capacity.map (· - (n + 1)) := by
  cases capacity <;> simp [Nat.sub_sub, Nat.add_comm]

/-- A run that came to its end goes on with whatever follows. -/
theorem execute_append_of_end
    {capacity : Option Nat} {machine : Machine} {first : List Command}
    (h : (machine.execute capacity first).fault = none)
    (second : List Command) :
    machine.execute capacity (first ++ second) =
      { (machine.execute capacity first).machine.execute
          (capacity.map (· - first.length)) second with
        trace := (machine.execute capacity first).trace ++
          ((machine.execute capacity first).machine.execute
            (capacity.map (· - first.length)) second).trace } := by
  induction first generalizing capacity machine with
  | nil => cases capacity <;> simp [execute]
  | cons c rest ih =>
      cases hstep : machine.step c with
      | error fault => simp [execute_cons_of_error hstep] at h
      | ok result =>
          by_cases hfull : capacity = some 0
          · simp [execute_cons_of_full hstep hfull] at h
          · rw [execute_cons_of_step hstep hfull] at h ⊢
            rw [List.cons_append, execute_cons_of_step hstep hfull, ih h,
              map_sub_one_map_sub, List.length_cons]
            rfl

/-- Commands behind each other follow courses behind each other. -/
theorem Follows.append
    {α β : Type} {machine : Machine} {first second : List Command}
    {course : Course α} {next : α → Course β} {between : α → Machine → Prop}
    {ends : β → Machine → Prop}
    (hfirst : Follows (machine.execute none first) course between)
    (hsecond : ∀ a middle, between a middle →
      Follows (middle.execute none second) (next a) ends) :
    Follows (machine.execute none (first ++ second))
      (course.bind next) ends := by
  obtain ⟨htrace, hend⟩ := hfirst
  cases houtcome : course.outcome with
  | error fault =>
      simp only [houtcome] at hend
      rw [execute_append_of_fault hend, Follows, Course.bind, houtcome]
      exact ⟨htrace, hend⟩
  | ok a =>
      simp only [houtcome] at hend
      obtain ⟨hnone, hbetween⟩ := hend
      obtain ⟨htrace', hend'⟩ := hsecond a _ hbetween
      rw [execute_append_of_end hnone, Option.map_none, Follows,
        Course.bind, houtcome]
      exact ⟨by simp [htrace, htrace'], hend'⟩

theorem follows_step
    {machine : Machine} {c : Command} {attr : Nat}
    {result : Except RuntimeFault (Cell × String)}
    {ends : Cell → Machine → Prop}
    (hstep : machine.step c = result.map (machine.stored attr))
    (hends : ∀ cell, ends cell (machine.store attr cell)) :
    Follows (machine.execute none [c]) (.ofStep result) ends := by
  cases result with
  | error fault =>
      have hrun := execute_cons_of_error hstep none []
      simp [hrun, Follows, Course.ofStep]
  | ok pair =>
      obtain ⟨cell, line⟩ := pair
      have hrun := execute_cons_of_step hstep (Option.some_ne_none 0).symm []
      rw [hrun]
      exact ⟨rfl, rfl, hends cell⟩

end Machine

end ThreeAddress
