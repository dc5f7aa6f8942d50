import ThreeAddress.Files
import ThreeAddress.Proofs.RoundTrip
import ThreeAddress.Proofs.TableSize

/-!
# Programs that are written and read again

The program of an expression is its optimal code.  Writing it and reading it
back changes nothing, and its code is never empty, so that a run of it comes
to the result of its last command.  That is what running the expression itself
comes to.  Both runs are compared as computations over any monad: they ask the
same questions in the same order.
-/

namespace ThreeAddress

/-- The outcome of an expression as that of a program, which may be without a
result. -/
def Outcome.ofExpression (outcome : Outcome Cell) : Outcome (Option Cell) :=
  ⟨outcome.result.map some, outcome.trace⟩

/-! ## Runs that come to their end -/

theorem Machine.exists_result?_execute
    {capacity : Option Nat} {machine : Machine} {code : List Command}
    (hcode : code ≠ [])
    (h : (machine.execute capacity code).fault = none) :
    ∃ cell, (machine.execute capacity code).machine.result? = some cell := by
  induction code generalizing capacity machine with
  | nil => contradiction
  | cons c rest ih =>
      cases hstep : machine.step c with
      | error fault => simp [execute_cons_of_error hstep] at h
      | ok result =>
          rcases result with ⟨next, line⟩
          rcases step_eq_ok hstep with ⟨⟨old, hold⟩, cell, _, rfl⟩
          by_cases hfull : capacity = some 0
          · simp [execute_cons_of_full hstep hfull] at h
          · rw [execute_cons_of_step hstep hfull] at h ⊢
            cases rest with
            | nil =>
                exact ⟨cell, result?_store c.receiver.positive
                  (le_length_of_cell? hold) cell⟩
            | cons c' rest => exact ih (List.cons_ne_nil _ _) h

section Interpretation

variable {m : Type → Type} [Monad m] [LawfulMonad m]

/-- Code that is not empty has a last command, whose result is that of the
expression as well as that of the program. -/
theorem interpret_eq_carryOut
    (ask : String → ValueType → m (Except ValueFault Cell))
    (capacity : Option Nat) {code : List Command}
    (hcode : code ≠ [])
    (table : SymbolTable) (root : Token) :
    Program.interpret ask capacity ⟨code, table⟩ =
      Outcome.ofExpression <$> do
        let outcome ← carryOut ask capacity code table
        return ⟨outcome.result.bind (finalCell root), outcome.trace⟩ := by
  simp only [Program.interpret, carryOut, map_bind, map_pure, bind_assoc]
  refine bind_congr fun started => ?_
  cases started with
  | error fault => simp [Outcome.ofExpression, Except.bind, Except.map]
  | ok machine =>
      cases hfault : (machine.execute capacity code).fault with
      | some e => simp [Outcome.ofExpression, Except.bind, Except.map, hfault]
      | none =>
          rcases Machine.exists_result?_execute hcode hfault with
            ⟨cell, hcell⟩
          simp [Outcome.ofExpression, Except.bind, Except.map, hfault, hcell,
            finalCell_of_result? hcell]

end Interpretation

/-! ## The program of an expression -/

/-- The program of a compiled expression holds its optimal code, which is not
empty, over a table that can be written and read. -/
structure Compiled.HasProgram (c : Compiled) (p : Program) : Prop where
  exists_optimize : ∃ tree, c.tree.optimize = .ok tree
  generate_eq : c.generate .optimal = .ok (p.code, p.symbols)
  make_eq : Program.make p.code p.symbols = .ok p
  code_ne_nil : p.code ≠ []
  built : p.symbols.Built

theorem Compiled.IsSound.program_cases
    {source : String} {c : Compiled} {parsed : Tree}
    (hcompile : compile source = .ok c)
    (h : c.IsSound parsed) :
    (∃ halted, c.tree.optimize = .error halted ∧
        c.generate .optimal = .error halted.error) ∨
      ∃ p, c.HasProgram p ∧ 2 * p.symbols.size ≤ 3 * source.length + 1 := by
  rcases h.generate_cases .optimal with
    ⟨e, hprepare, hgenerate⟩ | ⟨prepared, lowered, hprepare, hlower,
      hlinked, hgenerate⟩
  · cases hoptimize : c.tree.optimize with
    | error halted =>
        rw [Tree.prepare, hoptimize] at hprepare
        obtain rfl : halted.error = e := Except.error.inj hprepare
        exact .inl ⟨halted, rfl, hgenerate⟩
    | ok tree => simp [Tree.prepare, hoptimize] at hprepare
  · have hoptimize := Success.mapError_eq_ok_iff.mp hprepare
    have hleaf := (Tree.optimize_eq_ok hoptimize).2
    have hbuilt := hlinked.built (scan_built (scan_of_compile hcompile)).1
    refine .inr ⟨⟨lowered.code, lowered.table⟩, ?_,
      two_mul_size_le hcompile hprepare hlower hlinked⟩
    exact ⟨⟨prepared, hoptimize⟩, hgenerate,
      Program.make_of_declares hlinked.code,
      Tree.lower_code_ne_nil hlower hleaf, hbuilt⟩

/-- What becomes of a source text on the way to its program: the front end
refuses it, simplification does, or it has one. -/
inductive ProgramOutcome (source : String) : Except Error Output → Prop
  | refused {e : Error} (hcompile : compile source = .error e) :
      ProgramOutcome source (.error e)
  | halted {c : Compiled} {halted : Halted}
      (hcompile : compile source = .ok c)
      (hoptimize : c.tree.optimize = .error halted)
      (hgenerate : c.generate .optimal = .error halted.error) :
      ProgramOutcome source (.error halted.error)
  | program {c : Compiled} {p : Program} (hcompile : compile source = .ok c)
      (hp : c.HasProgram p)
      (hsize : 2 * p.symbols.size ≤ 3 * source.length + 1) :
      ProgramOutcome source (.ok (.program p))

theorem programOutcome
    (source : String) (mode : Mode) :
    ProgramOutcome source (translate source .program mode) := by
  cases hcompile : compile source with
  | error e =>
      simp only [translate, hcompile]
      exact .refused hcompile
  | ok c =>
      rcases exists_isSound hcompile with ⟨parsed, hsound⟩
      rcases hsound.program_cases hcompile with
        ⟨halted, hoptimize, hgenerate⟩ | ⟨p, hp, hsize⟩
      · simp only [translate, hcompile, Success.ok_bind, hgenerate]
        exact .halted hcompile hoptimize hgenerate
      · simp only [translate, hcompile, Success.ok_bind,
          hp.generate_eq, hp.make_eq]
        exact .program hcompile hp hsize

theorem translate_program_eq_error_iff
    {source : String} {mode : Mode} {e : Error} :
    translate source .program mode = .error e ↔
      compile source = .error e ∨
        ∃ c halted, compile source = .ok c ∧ c.tree.optimize = .error halted ∧
          halted.error = e := by
  have houtcome := programOutcome source mode
  generalize translate source .program mode = answer at houtcome
  cases houtcome with
  | refused hcompile => simp [hcompile]
  | halted hcompile hoptimize hgenerate => simp [hcompile, hoptimize]
  | program hcompile hp hsize =>
      rcases hp.exists_optimize with ⟨tree, hoptimize⟩
      simp [hcompile, hoptimize]

/-- An expression without a program cannot be run in optimal mode, and nothing
is asked for it. -/
theorem evaluate_of_translate_error
    {source : String} {mode : Mode} {e : Error}
    (h : translate source .program mode = .error e)
    {m : Type → Type} [Monad m]
    (ask : String → ValueType → m (Except ValueFault Cell))
    (capacity : Option Nat) :
    evaluate ask capacity source .optimal = pure ⟨.error e, []⟩ := by
  have houtcome := programOutcome source mode
  rw [h] at houtcome
  cases houtcome with
  | refused hcompile => simp only [evaluate, hcompile]
  | halted hcompile hoptimize hgenerate =>
      simp only [evaluate, hcompile, hgenerate]

/-! ## Runs of the program -/

theorem Compiled.HasProgram.interpret_eq
    {source : String} {c : Compiled} {p : Program}
    (hcompile : compile source = .ok c)
    (h : c.HasProgram p)
    {m : Type → Type} [Monad m] [LawfulMonad m]
    (ask : String → ValueType → m (Except ValueFault Cell))
    (capacity : Option Nat) :
    p.interpret ask capacity =
      Outcome.ofExpression <$> evaluate ask capacity source .optimal := by
  have hinterpret :=
    interpret_eq_carryOut ask capacity h.code_ne_nil p.symbols c.tree.token
  simp only [evaluate, hcompile, h.generate_eq]
  exact hinterpret

theorem interpretFile_run
    {σ : Type} [Files (StateM σ)]
    (ask : String → ValueType → StateM σ (Except ValueFault Cell))
    {path : Path} {p : Program} {text : String} {state after : σ}
    (htext : Program.ofText text = .ok p)
    (hread : (Files.readFile path : StateM σ _).run state =
      (.ok text, after)) :
    (interpretFile ask path).run state =
      (p.interpret ask none).run after := by
  have hprogram :
      (readProgram path : StateM σ _).run state = (.ok p, after) := by
    rw [readProgram, StateT.run_bind, hread]
    change ((Program.ofText text).mapError
      (InternalFault.programDocument path.text), after) = _
    rw [htext]
    rfl
  rw [interpretFile, StateT.run_bind, hprogram]
  rfl

/-- Optimal code can be run at once, or written as a program and run after it
is read again, with the same questions, the same trace and the same result.
There is no program exactly if the text is no expression or cannot be
simplified, and then running it fails with the same error before anything is
asked.  The text is short enough for attributes of 64 bits to count its
symbols. -/
theorem saved_program_runs_alike
    {source : String}
    (hsource : source.length < 2 ^ 63)
    (mode : Mode) :
    (∀ e, translate source .program mode = .error e ↔
      compile source = .error e ∨
        ∃ c halted, compile source = .ok c ∧ c.tree.optimize = .error halted ∧
          halted.error = e) ∧
      (∀ e, translate source .program mode = .error e →
        ∀ {m : Type → Type} [Monad m]
          (ask : String → ValueType → m (Except ValueFault Cell))
          (capacity : Option Nat),
          evaluate ask capacity source .optimal = pure ⟨.error e, []⟩) ∧
      ∀ output, translate source .program mode = .ok output →
        ∃ p, output = .program p ∧ Program.ofText p.toText = .ok p ∧
          (∀ {m : Type → Type} [Monad m] [LawfulMonad m]
            (ask : String → ValueType → m (Except ValueFault Cell))
            (capacity : Option Nat),
            p.interpret ask capacity =
              Outcome.ofExpression <$>
                evaluate ask capacity source .optimal) ∧
          ∀ {σ : Type} [Files (StateM σ)]
            (ask : String → ValueType → StateM σ (Except ValueFault Cell))
            (path : Path)
            (state after : σ),
            (Files.readFile path : StateM σ _).run state =
              (.ok p.toText, after) →
              (interpretFile ask path).run state =
                (Outcome.ofExpression <$>
                  evaluate ask none source .optimal).run after := by
  refine ⟨fun e => translate_program_eq_error_iff, fun e =>
    evaluate_of_translate_error, ?_⟩
  intro output houtput
  have houtcome := programOutcome source mode
  rw [houtput] at houtcome
  cases houtcome with
  | @program c p hcompile hp hsize =>
      have hread : Program.ofText p.toText = .ok p :=
        Program.ofText_of_hasNames hp.built.hasNames (by omega) hp.make_eq
      refine ⟨p, rfl, hread, hp.interpret_eq hcompile, ?_⟩
      intro σ _ ask path state after hfile
      rw [interpretFile_run ask hread hfile, hp.interpret_eq hcompile]

/-- Values are asked for in the order of the names, and the names are written
down. -/
def askInOrder (name : String) (_ : ValueType) :
    StateM (List String) (Except ValueFault Cell) := do
  modify (· ++ [name])
  return .ok (.integer 3)

theorem saved_program_runs_alike_negative_divisor :
    ∃ p, translate "(b + a / 4) / (2 - 5)" .program .plain =
        .ok (.program p) ∧
      Program.ofText p.toText = .ok p ∧
      p.interpret askInOrder none =
        Outcome.ofExpression <$>
          evaluate askInOrder none "(b + a / 4) / (2 - 5)" .optimal ∧
      ((p.interpret askInOrder none).run []).2 = ["b", "a"] := by
  have hlength : "(b + a / 4) / (2 - 5)".length < 2 ^ 63 := by decide +kernel
  have hasked : ((Outcome.ofExpression <$>
      evaluate askInOrder none "(b + a / 4) / (2 - 5)" .optimal).run []).2 =
        ["b", "a"] := by
    decide +kernel
  rcases saved_program_runs_alike hlength .plain with ⟨_, hrefused, hprogram⟩
  cases htranslate : translate "(b + a / 4) / (2 - 5)" .program .plain with
  | error e =>
      rw [hrefused e htranslate] at hasked
      contradiction
  | ok output =>
      rcases hprogram output htranslate with ⟨p, rfl, hread, hinterpret, _⟩
      refine ⟨p, rfl, hread, hinterpret askInOrder none, ?_⟩
      rw [hinterpret askInOrder none]
      exact hasked

end ThreeAddress
