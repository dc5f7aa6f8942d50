import ThreeAddress.Proofs.Rewriting
import ThreeAddress.Proofs.Running

/-!
# Reused receivers cannot be seen

In optimal mode a command may write over an operand that is a temporary.  No
later command reads that temporary for its old value, and so nothing that a
run shows depends on it: code with reused receivers and code with fresh ones
take the same course, which is that of the tree they are lowered from.
-/

namespace ThreeAddress

namespace Machine

/-- The index of the command that stops a run, if one does. -/
def stopIndex? (machine : Machine) : List Command → Option Nat
  | [] => none
  | c :: rest =>
    match machine.step c with
    | .error _ => some 0
    | .ok (next, _) => (next.stopIndex? rest).map (· + 1)

theorem stopIndex?_eq
    (machine : Machine) (code : List Command) :
    machine.stopIndex? code = (machine.execute none code).fault.map fun _ =>
      (machine.execute none code).trace.length := by
  induction code generalizing machine with
  | nil => rfl
  | cons c rest ih =>
      cases hstep : machine.step c with
      | error fault => simp [stopIndex?, hstep, execute_cons_of_error hstep]
      | ok result =>
          rw [execute_cons_of_step hstep (Option.some_ne_none 0).symm]
          simp only [stopIndex?, hstep, ih, Option.map_none, List.length_cons]
          cases (execute none result.1 rest).fault <;> rfl

/-- Two runs show the same: they write the same lines, and come to the same
result or are stopped by the same fault at the same command. -/
structure RunsAlike (first : Machine) (code : List Command)
    (second : Machine) (other : List Command) : Prop where
  trace_eq : (first.execute none code).trace =
    (second.execute none other).trace
  fault_eq : (first.execute none code).fault =
    (second.execute none other).fault
  stopIndex?_eq : first.stopIndex? code = second.stopIndex? other
  result?_eq : (first.execute none code).fault = none →
    ∃ cell, (first.execute none code).machine.result? = some cell ∧
      (second.execute none other).machine.result? = some cell
  isRuntime : ∀ e, (first.execute none code).fault = some e →
    ∃ fault, e = .runtime fault

theorem runsAlike_of_follows
    {first second : Machine} {code other : List Command}
    {course : Course Cell} {ends ends' : Cell → Machine → Prop}
    (hfirst : Follows (first.execute none code) course ends)
    (hsecond : Follows (second.execute none other) course ends')
    (hends : ∀ cell machine, ends cell machine → machine.result? = some cell)
    (hends' : ∀ cell machine,
      ends' cell machine → machine.result? = some cell) :
    RunsAlike first code second other := by
  obtain ⟨htrace, hend⟩ := hfirst
  obtain ⟨htrace', hend'⟩ := hsecond
  have htraces := htrace.trans htrace'.symm
  cases houtcome : course.outcome with
  | error fault =>
      simp only [houtcome] at hend hend'
      refine ⟨htraces, hend.trans hend'.symm, ?_, ?_, ?_⟩
      · rw [Machine.stopIndex?_eq, Machine.stopIndex?_eq, hend,
          hend', htraces]
      · simp [hend]
      · simp [hend]
  | ok cell =>
      simp only [houtcome] at hend hend'
      obtain ⟨hfault, hcell⟩ := hend
      obtain ⟨hfault', hcell'⟩ := hend'
      refine ⟨htraces, hfault.trans hfault'.symm, ?_, ?_, ?_⟩
      · rw [Machine.stopIndex?_eq, Machine.stopIndex?_eq, hfault,
          hfault', htraces]
      · exact fun _ => ⟨cell, hends cell _ hcell, hends' cell _ hcell'⟩
      · simp [hfault]

end Machine

/-- The code that is generated in optimal mode shows the same in every run as
the code of the simplified tree with a fresh temporary for each command. -/
theorem optimal_runsAlike_fresh
    {source : String} {c : Compiled} {tree : Tree}
    (hcompile : compile source = .ok c)
    (hoptimize : c.tree.optimize = .ok tree) :
    ∃ reused reusedTable fresh freshTable,
      c.tree.generate .optimal c.symbols = .ok (reused, reusedTable) ∧
      tree.generate .plain c.symbols = .ok (fresh, freshTable) ∧
      ∀ {σ : Type}
        (ask : String → ValueType → StateM σ (Except ValueFault Cell))
        (state : σ) (cellOf : Nat → Cell),
          Supplies ask cellOf c.symbols state →
          ∃ first second,
            ((Machine.start ask reusedTable).run state).1 = .ok first ∧
            ((Machine.start ask freshTable).run state).1 = .ok second ∧
            first.RunsAlike reused second fresh := by
  obtain ⟨parsed, hsound⟩ := exists_isSound hcompile
  obtain ⟨hsimplify, hleaf⟩ := Tree.optimize_eq_ok hoptimize
  obtain ⟨htree, hids⟩ :=
    Tree.simplifyIn_consistent hsound.consistent hsimplify
  have huses : tree.UsesRows c.symbols :=
    fun id hid => hsound.usesRows id (hids hid)
  obtain ⟨reused, hreused, hreusedRuns⟩ :=
    Tree.exists_lower_realizes .optimal htree huses
  obtain ⟨fresh, hfresh, hfreshRuns⟩ :=
    Tree.exists_lower_realizes .plain htree huses
  refine ⟨reused.code, reused.table, fresh.code, fresh.table, ?_, ?_, ?_⟩
  · simp [Tree.generate, Tree.prepare, hoptimize, hreused]
  · simp [Tree.generate, Tree.prepare, hfresh]
  intro σ ask state cellOf hsupplies
  have hreusedRun := hreusedRuns cellOf
  have hfreshRun := hfreshRuns cellOf
  obtain ⟨first, hfirst, hfirstReady⟩ :=
    start_of_supplies hsound.isUser huses hreusedRun.addsTemporaries hsupplies
  obtain ⟨second, hsecond, hsecondReady⟩ :=
    start_of_supplies hsound.isUser huses hfreshRun.addsTemporaries hsupplies
  refine ⟨first, second, hfirst, hsecond, Machine.runsAlike_of_follows
    (hreusedRun.follows first hfirstReady.length_le hfirstReady.cells)
    (hfreshRun.follows second hsecondReady.length_le hsecondReady.cells)
    ?_ ?_⟩
  · exact fun _ _ hreached => hreached.result hleaf
  · exact fun _ _ hreached => hreached.result hleaf

/-- Both operands of the product are temporaries, and one of them is written
over. -/
theorem product_of_temporaries_runsAlike :
    let ask (name : String) (_ : ValueType) : StateM Unit
      (Except ValueFault Cell) :=
      pure (.ok (.integer (if name = "a" then 3 else 1)))
    ∃ c tree reused reusedTable fresh freshTable first second,
      compile "(a + b) * (a - b)" = .ok c ∧ c.tree.optimize = .ok tree ∧
      c.tree.generate .optimal c.symbols = .ok (reused, reusedTable) ∧
      tree.generate .plain c.symbols = .ok (fresh, freshTable) ∧
      ((Machine.start ask reusedTable).run ()).1 = .ok first ∧
      ((Machine.start ask freshTable).run ()).1 = .ok second ∧
      first.RunsAlike reused second fresh := by
  intro ask
  obtain ⟨c, tree, hcompile, hrows, hoptimize⟩ : ∃ c tree,
      compile "(a + b) * (a - b)" = .ok c ∧
      c.symbols.rows = [⟨"a", .integer, .user⟩, ⟨"b", .integer, .user⟩] ∧
      c.tree.optimize = .ok tree :=
    ⟨_, _, rfl, rfl, rfl⟩
  have hsupplies :
      Supplies ask (fun attr => .integer (if attr = 1 then 3 else 1))
      c.symbols () := by
    rw [Supplies, hrows]
    exact ⟨(), rfl, (), rfl, trivial⟩
  obtain ⟨reused, reusedTable, fresh, freshTable, hreused, hfresh, hruns⟩ :=
    optimal_runsAlike_fresh hcompile hoptimize
  obtain ⟨first, second, hfirst, hsecond, halike⟩ := hruns ask () _ hsupplies
  exact ⟨c, tree, reused, reusedTable, fresh, freshTable, first, second,
    hcompile, hoptimize, hreused, hfresh, hfirst, hsecond, halike⟩

end ThreeAddress
