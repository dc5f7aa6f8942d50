import ThreeAddress.Proofs.GeneratedCode
import ThreeAddress.Proofs.Range
import ThreeAddress.Proofs.Scanning
import ThreeAddress.Proofs.Worth

/-!
# Ways to fail

Every stage fails in a way of its own.  Scanning, parsing and typing report
what is wrong with the source text, simplification reports what it cannot go
on with, and a run reports a result that is not finite.  The checks in
between, of literals, identifiers, commands, trees and programs, are passed by
whatever an earlier stage hands on.
-/

namespace ThreeAddress

/-- The source text is no expression. -/
def Error.IsFrontEnd : Error → Prop
  | .lexical _ _ | .grammar _ | .semantic _ _ => True
  | _ => False

def Error.IsSimplify : Error → Prop
  | .simplify _ => True
  | _ => False

/-- A computed operation leaves the range of its type. -/
def Error.IsOverflow : Error → Prop
  | .simplify (.overflow _ _) => True
  | _ => False

theorem Error.IsOverflow.exists_eq
    {e : Error}
    (h : e.IsOverflow) :
    ∃ position operation, e = .simplify (.overflow position operation) := by
  unfold IsOverflow at h
  split at h
  · exact ⟨_, _, rfl⟩
  · exact h.elim

def Error.IsNonFinite : Error → Prop
  | .runtime (.nonFinite _ _ _) => True
  | _ => False

theorem Error.IsNonFinite.exists_eq
    {fault : RuntimeFault}
    (h : (Error.runtime fault).IsNonFinite) :
    ∃ l op r, fault = .nonFinite l op r := by
  cases fault with
  | nonFinite l op r => exact ⟨l, op, r, rfl⟩
  | _ => exact h.elim

/-- Whenever the computation fails, its error is one of the given ones. -/
def FailsOnly {ε α : Type} (P : ε → Prop) (x : Except ε α) : Prop :=
  ∀ e, x = .error e → P e

namespace FailsOnly

variable {ε ε' α β : Type} {P Q : ε → Prop}

theorem ok
    (a : α) :
    FailsOnly P (.ok a) := by
  intro e h
  contradiction

theorem error
    {e : ε}
    (h : P e) :
    FailsOnly P (.error e : Except ε α) := by
  intro e' he
  rwa [← Except.error.inj he]

theorem mono
    {x : Except ε α}
    (h : FailsOnly P x)
    (hPQ : ∀ e, P e → Q e) :
    FailsOnly Q x :=
  fun e he => hPQ e (h e he)

theorem bind
    {x : Except ε α} {f : α → Except ε β}
    (hx : FailsOnly P x)
    (hf : ∀ a, x = .ok a → FailsOnly P (f a)) :
    FailsOnly P (x >>= f) := by
  cases x with
  | error e => exact error (hx e rfl)
  | ok a => exact hf a rfl

theorem map
    {x : Except ε α}
    (h : FailsOnly P x)
    (f : α → β) :
    FailsOnly P (x.map f) := by
  cases x with
  | error e => exact error (h e rfl)
  | ok a => exact ok (f a)

theorem mapError
    {R : ε' → Prop} {x : Except ε α} {f : ε → ε'}
    (h : FailsOnly P x)
    (hf : ∀ e, P e → R (f e)) :
    FailsOnly R (x.mapError f) := by
  cases x with
  | error e => exact error (hf e (h e rfl))
  | ok a => exact ok a

end FailsOnly

/-! ## The source text -/

theorem scan_failsOnly
    (source : String) :
    FailsOnly Error.IsFrontEnd (scan source) := by
  intro e he
  rcases (Lexeme.readAll_eq_error_iff Lexeme.start_pos_of_mem_cut).mp he with
    ⟨_, lexeme, _, _, hfault, _⟩
  cases lexeme with
  | mark start kind => exact hfault.elim
  | run start text => cases hfault <;> trivial

theorem parse_failsOnly
    {source : String} {tokens : List Token} {table : SymbolTable}
    (h : scan source = .ok (tokens, table)) :
    FailsOnly Error.IsFrontEnd (parse tokens) := by
  intro e he
  rcases parse_cases fun t ht => ((scan_declares h).2 t ht).1 with
    ⟨tree, _, htree⟩ | ⟨fault, hfault⟩
  · simp [htree] at he
  · obtain rfl : .grammar fault = e := by simpa [hfault] using he
    trivial

namespace Tree

theorem analyze_failsOnly
    (tree : Tree) :
    FailsOnly (fun halted => halted.error.IsFrontEnd) tree.analyze := by
  induction tree with
  | leaf t res => exact .ok _
  | leftOnly t res l ih =>
      exact .bind (ih.mapError fun _ h => h) fun _ _ => .ok _
  | rightOnly t res r ih =>
      rw [analyze]
      split
      · exact .error trivial
      · exact .bind (ih.mapError fun _ h => h) fun _ _ => .ok _
  | binary t res l r ihl ihr =>
      rw [analyze]
      split
      · exact .error trivial
      · exact .bind (ihl.mapError fun _ h => h) fun _ _ =>
          .bind (ihr.mapError fun _ h => h) fun _ _ => .ok _

end Tree

theorem compile_failsOnly
    (source : String) :
    FailsOnly Error.IsFrontEnd (compile source) :=
  (scan_failsOnly source).bind fun _ hscan =>
    (parse_failsOnly hscan).bind fun tree _ =>
      .bind (tree.analyze_failsOnly.mapError fun _ h => h) fun _ _ => .ok _

/-! ## Simplification -/

/-- A literal has no sign. -/
theorem Literal.exists_value_eq
    (literal : Literal) :
    ∃ n hn, literal.value = .finite false n hn := by
  have hproper := literal.isProper_cell
  have hstands := literal.standsFor
  rw [value]
  generalize literal.type = type, literal.text.toList = text,
    literal.cell = cell at hproper hstands ⊢
  cases hstands with
  | integer digits inRange => exact Single.exists_ofInt_natCast_eq hproper
  | float before behind inRange =>
      exact Decimal.exists_finite_toSingle false
        (decimal_lt_limit_iff.mp inRange)

namespace Tree

/-- A value that can be computed has a literal for its magnitude. -/
theorem exists_magnitude
    {type : ValueType} {x : Single}
    (h : isFoldable type x = true) :
    ∃ literal, magnitude type x = .ok literal := by
  cases x with
  | nan | infinite s => simp [isFoldable, Single.isFinite] at h
  | finite s n hn =>
      cases type with
      | float => exact Literal.exists_ofSingle hn
      | integer =>
          have hlimit : n < 2 ^ 31 * Single.unit := by
            simpa [isFoldable, Single.isFinite, Single.belowWordLimit] using h
          have hquotient : n / Single.unit < 2 ^ 31 :=
            (Nat.div_lt_iff_lt_mul Single.unit_pos).mpr hlimit
          have htruncate : (Single.finite false n hn).truncate =
              (n / Single.unit : ℕ) := by
            change clampToWord ((n / Single.unit : ℕ) : Int) = _
            generalize n / Single.unit = whole at hquotient
            rw [clampToWord]
            omega
          rw [magnitude, Single.abs, htruncate]
          exact Literal.exists_ofInt hquotient

theorem foldConstants_failsOnly
    (node : Tree) :
    FailsOnly Error.IsOverflow node.foldConstants := by
  unfold foldConstants
  split
  · next l r op _ _ _ =>
      refine FailsOnly.map ?_ some
      unfold fold
      dsimp only
      split
      · next hfoldable =>
          rcases exists_magnitude hfoldable with ⟨size, hsize⟩
          rw [hsize]
          exact .ok _
      · exact .error trivial
  · exact .ok none

theorem foldCast_failsOnly
    (node : Tree) :
    FailsOnly Error.IsOverflow node.foldCast := by
  unfold foldCast
  split
  · next literal _ _ =>
      rcases literal.exists_value_eq with ⟨n, hn, hvalue⟩
      rcases Literal.exists_ofSingle hn with ⟨converted, hconverted⟩
      rw [hvalue, hconverted]
      exact .ok _
  · exact .ok none

theorem replacement?_failsOnly
    (node : Tree) :
    FailsOnly Error.IsOverflow node.replacement? := by
  refine node.foldConstants_failsOnly.bind fun folded _ => ?_
  cases folded with
  | some tree => exact .ok _
  | none =>
      refine node.foldCast_failsOnly.bind fun folded _ => ?_
      cases folded with
      | some tree => exact .ok _
      | none => exact .ok _

theorem reduceNode_failsOnly
    (slot : Slot) (node : Tree) :
    FailsOnly Error.IsSimplify (node.reduceNode slot) := by
  have hreplacement : FailsOnly Error.IsSimplify node.replacement? := by
    refine node.replacement?_failsOnly.mono fun e he => ?_
    rcases he.exists_eq with ⟨position, operation, rfl⟩
    trivial
  refine hreplacement.bind fun replaced _ => ?_
  cases replaced with
  | none => exact .ok _
  | some tree =>
      cases slot with
      | operand => exact .ok _
      | divisor position =>
          dsimp only
          split
          · exact .error trivial
          · exact .ok _

theorem reduceCast_failsOnly
    (slot : Slot) (child : Option Tree) :
    FailsOnly Error.IsSimplify (reduceCast slot child) := by
  cases child with
  | none => exact .ok _
  | some child =>
      rw [reduceCast]
      split
      · exact (child.reduceNode_failsOnly slot).map some
      · exact .ok _

theorem settle_failsOnly
    (slot : Slot) (node : Tree) :
    FailsOnly (fun halted => halted.error.IsSimplify) (settle slot node) := by
  refine .bind ((reduceCast_failsOnly _ _).mapError fun _ h => h)
    fun _ _ => ?_
  refine .bind ((reduceCast_failsOnly _ _).mapError fun _ h => h)
    fun _ _ => ?_
  exact (reduceNode_failsOnly slot _).mapError fun _ h => h

theorem simplifyIn_failsOnly
    (slot : Slot) (tree : Tree) :
    FailsOnly (fun halted => halted.error.IsSimplify)
      (simplifyIn slot tree) := by
  induction tree generalizing slot with
  | leaf t res => exact .ok _
  | leftOnly t res l ih | rightOnly t res r ih =>
      exact .bind ((ih _).mapError fun _ h => h) fun _ _ =>
        settle_failsOnly slot _
  | binary t res l r ihl ihr =>
      refine .bind ((ihl _).mapError fun _ h => h) fun _ _ => ?_
      exact .bind ((ihr _).mapError fun _ h => h) fun _ _ =>
        settle_failsOnly slot _

theorem prepare_failsOnly
    (mode : Mode) (tree : Tree) :
    FailsOnly Error.IsSimplify (prepare mode tree) := by
  cases mode with
  | plain => exact .ok tree
  | optimal =>
      refine FailsOnly.mapError ?_ fun _ h => h
      refine (simplifyIn_failsOnly .operand tree).bind fun simplified _ => ?_
      split
      · exact .error trivial
      · exact .ok _

end Tree

/-! ## Code -/

theorem Tree.Consistent.exists_generate_plain
    {tree : Tree}
    (htree : tree.Consistent)
    (table : SymbolTable) :
    ∃ generated, tree.generate .plain table = .ok generated := by
  rcases htree.generate_cases .plain table with
    ⟨e, hprepare, _⟩ | ⟨_, _, _, _, hgenerate⟩
  · contradiction
  · exact ⟨_, hgenerate⟩

/-- Code generation fails only where simplification does, and then the table
is the one that was given. -/
theorem Tree.Consistent.generate_failsOnly
    {tree : Tree}
    (htree : tree.Consistent)
    (mode : Mode) (table : SymbolTable) :
    FailsOnly (fun failure => failure.1.IsSimplify ∧ failure.2 = table)
      (tree.generate mode table) := by
  rcases htree.generate_cases mode table with
    ⟨e, hprepare, hgenerate⟩ | ⟨_, _, _, _, hgenerate⟩
  · rw [hgenerate]
    exact .error ⟨tree.prepare_failsOnly mode e hprepare, rfl⟩
  · rw [hgenerate]
    exact .ok _

theorem Tree.flatten_failsOnly
    (mode : Mode) (tree : Tree) :
    FailsOnly Error.IsSimplify (tree.flatten mode) :=
  (tree.prepare_failsOnly mode).bind fun _ _ => .ok _

theorem Compiled.IsSound.generate_failsOnly
    {c : Compiled} {parsed : Tree}
    (h : c.IsSound parsed)
    (mode : Mode) :
    FailsOnly Error.IsSimplify (c.generate mode) :=
  (h.consistent.generate_failsOnly mode c.symbols).mapError fun _ hfailure =>
    hfailure.1

theorem translate_failsOnly
    (source : String) (stage : Stage) (mode : Mode) :
    FailsOnly (fun e => e.IsFrontEnd ∨ e.IsSimplify)
      (translate source stage mode) := by
  have hscan :
      FailsOnly (fun e => e.IsFrontEnd ∨ e.IsSimplify) (scan source) :=
    (scan_failsOnly source).mono fun _ => .inl
  have hcompile :
      FailsOnly (fun e => e.IsFrontEnd ∨ e.IsSimplify) (compile source) :=
    (compile_failsOnly source).mono fun _ => .inl
  cases stage with
  | tokens => exact hscan.bind fun _ _ => .ok _
  | parsed =>
      refine hscan.bind fun _ h => ?_
      exact ((parse_failsOnly h).mono fun _ => .inl).bind fun _ _ => .ok _
  | typed => exact hcompile.bind fun _ _ => .ok _
  | postOrder =>
      refine hcompile.bind fun c _ => ?_
      exact ((c.tree.flatten_failsOnly mode).mono fun _ => .inr).bind
        fun _ _ => .ok _
  | code =>
      refine hcompile.bind fun c h => ?_
      rcases exists_isSound h with ⟨parsed, hsound⟩
      exact ((hsound.generate_failsOnly mode).mono fun _ => .inr).bind
        fun _ _ => .ok _
  | program =>
      refine hcompile.bind fun c h => ?_
      rcases exists_isSound h with ⟨parsed, hsound⟩
      refine ((hsound.generate_failsOnly .optimal).mono fun _ => .inr).bind ?_
      intro generated hgenerated
      -- The code that comes out is accepted as a program.
      rcases hsound.generate_cases .optimal with
        ⟨e, _, hgenerate⟩ | ⟨_, _, _, _, hlinked, hgenerate⟩
      · rw [hgenerate] at hgenerated
        contradiction
      · obtain rfl := Except.ok.inj (hgenerated.symm.trans hgenerate)
        dsimp only
        rw [Program.make_of_declares hlinked.code]
        exact .ok _

/-! ## Runs -/

theorem Tree.course_failsOnly
    (cellOf : Nat → Cell) (tree : Tree) :
    FailsOnly (fun fault => (Error.runtime fault).IsNonFinite)
      (tree.course cellOf).outcome := by
  induction tree with
  | leaf t res => exact .ok _
  | leftOnly t res l ih => exact ih
  | rightOnly t res r ih =>
      rw [course, Course.bind_outcome]
      exact ih.bind fun _ _ => .ok _
  | binary t res l r ihl ihr =>
      rw [course, Course.bind_outcome]
      refine ihl.bind fun x _ => ?_
      rw [Course.bind_outcome]
      refine ihr.bind fun y _ => ?_
      unfold Machine.computed
      split
      · exact .ok _
      · exact .error trivial

theorem evaluate_failsOnly
    {σ : Type}
    {ask : String → ValueType → StateM σ (Except ValueFault Cell)}
    {source : String} {state : σ} (mode : Mode)
    (hsupplies : ∀ c, compile source = .ok c → ∃ cellOf,
      Supplies ask cellOf c.symbols state) :
    FailsOnly (fun e => e.IsFrontEnd ∨ e.IsSimplify ∨ e.IsNonFinite)
      ((evaluate ask none source mode).run state).1.result := by
  cases hcompile : compile source with
  | error e =>
      simp only [evaluate, hcompile]
      exact .error (.inl (compile_failsOnly source e hcompile))
  | ok c =>
      rcases exists_isSound hcompile with ⟨parsed, hsound⟩
      rcases hsound.generate_cases mode with
        ⟨e, _, hgenerate⟩ | ⟨tree, _, hprepare, _, _, _⟩
      · simp only [evaluate, hcompile, hgenerate]
        exact .error
          (.inr (.inl (hsound.generate_failsOnly mode e hgenerate)))
      · rcases hsupplies c hcompile with ⟨cellOf, hcells⟩
        rcases hsound.consistent.prepare hprepare with ⟨htree, hids⟩
        rw [evaluate_eq_course hcompile hprepare (Tree.eq_of_prepare hprepare)
          htree hsound.isUser
          (fun id hid => hsound.usesRows id (hids hid)) hcells]
        exact (tree.course_failsOnly cellOf).mapError fun _ h => .inr (.inr h)

/-- A source text that is no expression is reported as such.  Of an
expression, plain code and its post-order can always be had, and optimal ones
unless simplification refuses it, in which case the table is left as it was.
No stage fails otherwise, and neither does a run whose values are all
supplied, except for a result that is not finite. -/
theorem failures_of_source
    (source : String) :
    FailsOnly Error.IsFrontEnd (compile source) ∧
      (∀ c, compile source = .ok c → ∀ table,
        (∃ generated, c.tree.generate .plain table = .ok generated) ∧
          (∃ tokens, c.tree.flatten .plain = .ok tokens) ∧
          FailsOnly (fun failure => failure.1.IsSimplify ∧ failure.2 = table)
            (c.tree.generate .optimal table) ∧
          FailsOnly Error.IsSimplify (c.tree.flatten .optimal)) ∧
      (∀ stage mode,
        FailsOnly (fun e => e.IsFrontEnd ∨ e.IsSimplify)
          (translate source stage mode)) ∧
      ∀ {σ : Type}
        (ask : String → ValueType → StateM σ (Except ValueFault Cell))
        (state : σ) (mode : Mode),
        (∀ c, compile source = .ok c → ∃ cellOf,
          Supplies ask cellOf c.symbols state) →
          FailsOnly (fun e => e.IsFrontEnd ∨ e.IsSimplify ∨ e.IsNonFinite)
            ((evaluate ask none source mode).run state).1.result := by
  refine ⟨compile_failsOnly source, ?_, translate_failsOnly source, ?_⟩
  · intro c hcompile table
    rcases exists_isSound hcompile with ⟨parsed, hsound⟩
    exact ⟨hsound.consistent.exists_generate_plain table, ⟨_, rfl⟩,
      hsound.consistent.generate_failsOnly .optimal table,
        c.tree.flatten_failsOnly .optimal⟩
  · intro σ ask state mode hsupplies
    exact evaluate_failsOnly mode hsupplies

/-- Simplification finds that the divisor is zero and leaves the table as it
was.  A run of the plain code ends with a quotient that is not finite. -/
theorem failures_of_vanishing_divisor :
    let ask (_ : String) (_ : ValueType) : StateM Unit
      (Except ValueFault Cell) :=
      pure (.ok (.integer 1))
    ∃ c e fault after, compile "a / (b - b)" = .ok c ∧
      c.tree.generate .optimal c.symbols = .error (e, after) ∧
      (e.IsSimplify ∧ after = c.symbols) ∧
      (∃ generated, c.tree.generate .plain c.symbols = .ok generated) ∧
      (∃ cellOf, Supplies ask cellOf c.symbols ()) ∧
      ((evaluate ask none "a / (b - b)" .plain).run ()).1.result =
          .error fault ∧
      (fault.IsFrontEnd ∨ fault.IsSimplify ∨ fault.IsNonFinite) := by
  intro ask
  obtain ⟨c, e, after, fault, hcompile, hrows, hgenerate, hresult⟩ :
      ∃ c e after fault, compile "a / (b - b)" = .ok c ∧
      c.symbols.rows = [⟨"a", .integer, .user⟩, ⟨"b", .integer, .user⟩] ∧
      c.tree.generate .optimal c.symbols = .error (e, after) ∧
      ((evaluate ask none "a / (b - b)" .plain).run ()).1.result =
        .error fault :=
    ⟨_, _, _, _, rfl, rfl, rfl, rfl⟩
  have hsupplies : ∃ cellOf, Supplies ask cellOf c.symbols () := by
    refine ⟨fun _ => .integer 1, ?_⟩
    rw [Supplies, hrows]
    exact ⟨(), rfl, (), rfl, trivial⟩
  rcases failures_of_source "a / (b - b)" with ⟨_, hcode, _, hrun⟩
  rcases hcode c hcompile c.symbols with ⟨hplain, _, hoptimal, _⟩
  have hfault := hrun ask () .plain
    (fun other hother => Except.ok.inj (hcompile.symm.trans hother) ▸
      hsupplies) fault hresult
  exact ⟨c, e, fault, after, hcompile, hgenerate, hoptimal _ hgenerate,
    hplain, hsupplies, hresult, hfault⟩

end ThreeAddress
