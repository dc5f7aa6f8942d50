import ThreeAddress.Proofs.Failures
import ThreeAddress.Proofs.RenamedTexts

/-!
# Names do not matter

Behind the scanner a symbol is an attribute, a type and a provenance.  Code is
generated from these, and temporaries are new rows whatever they are called,
so that a text with other names has the same code, even if the names are those
that temporaries have in the other table.  A run asks for the symbols under
their new names, and shows the same otherwise.
-/

namespace ThreeAddress

/-! ## Tables -/

/-- The second row is the first one under another name, of which only that of
a symbol of the user is told. -/
structure SymbolRow.IsRenamed (rename : String → String)
    (row row' : SymbolRow) : Prop where
  type_eq : row'.type = row.type
  provenance_eq : row'.provenance = row.provenance
  name_eq : row.provenance = .user → row'.name = rename row.name

namespace SymbolTable

/-- The tables have the same types and provenances under the same attributes,
and the symbols of the user have their new names. -/
def IsRenamed (rename : String → String) (table table' : SymbolTable) :
    Prop :=
  List.Forall₂ (SymbolRow.IsRenamed rename) table.rows table'.rows

variable {rename : String → String} {table table' : SymbolTable}

theorem isRenamed_rename
    (rename : String → String) (table : SymbolTable) :
    table.IsRenamed rename (table.rename rename) := by
  rw [IsRenamed, SymbolTable.rename, List.forall₂_map_right_iff,
    List.forall₂_same]
  exact fun row _ => ⟨rfl, rfl, fun _ => rfl⟩

theorem IsRenamed.defineTemporary
    (h : table.IsRenamed rename table')
    (type : ValueType) :
    (table'.defineTemporary type).1 = (table.defineTemporary type).1 ∧
      (table.defineTemporary type).2.IsRenamed rename
        (table'.defineTemporary type).2 := by
  have hsize : table'.size = table.size := h.length_eq.symm
  constructor
  · simp only [SymbolTable.defineTemporary, hsize]
  · refine List.rel_append h (.cons ⟨rfl, rfl, ?_⟩ .nil)
    intro huser
    contradiction

end SymbolTable

/-! ## Code -/

namespace Command

theorem ofTokens_unplaced
    (t receiver : Token) (left right : Option Token) :
    ofTokens t.unplaced receiver (left.map Token.unplaced)
        (right.map Token.unplaced) =
      ofTokens t receiver left right := by
  cases left <;> cases right <;> rfl

end Command

namespace Tree

variable {rename : String → String} {table table' : SymbolTable}

theorem reusable?_unplaced
    (type : ValueType) (left right : Option Token) :
    reusable? type (left.map Token.unplaced) (right.map Token.unplaced) =
      reusable? type left right := by
  cases left <;> cases right <;> rfl

theorem receiver_isRenamed
    (mode : Mode) (type : ValueType)
    {left right left' right' : Option Token}
    (hleft : left'.map Token.unplaced = left.map Token.unplaced)
    (hright : right'.map Token.unplaced = right.map Token.unplaced)
    (htable : table.IsRenamed rename table') :
    (receiver mode type left' right' table').1 =
        (receiver mode type left right table).1 ∧
      (receiver mode type left right table).2.IsRenamed rename
        (receiver mode type left' right' table').2 := by
  cases mode with
  | plain => exact htable.defineTemporary type
  | optimal =>
      have hreusable :
          reusable? type left' right' = reusable? type left right := by
        rw [← reusable?_unplaced, hleft, hright, reusable?_unplaced]
      simp only [receiver, hreusable]
      cases reusable? type left right with
      | some id => exact ⟨rfl, htable⟩
      | none => exact htable.defineTemporary type

/-- Lowered trees with the same commands: the tokens of their values may stand
at other places, and the symbols may have other names. -/
structure Lowered.IsRenamed (rename : String → String) (low low' : Lowered) :
    Prop where
  token_eq : low'.token.unplaced = low.token.unplaced
  code_eq : low'.code = low.code
  table : low.table.IsRenamed rename low'.table

theorem exists_emit_isRenamed
    {mode : Mode} {t t' : Token} {res : Resolution}
    {left right left' right' : Option Token} {code : List Command}
    {low : Lowered}
    (ht : t'.unplaced = t.unplaced)
    (hleft : left'.map Token.unplaced = left.map Token.unplaced)
    (hright : right'.map Token.unplaced = right.map Token.unplaced)
    (htable : table.IsRenamed rename table')
    (h : emit mode t res left right code table = .ok low) :
    ∃ low', emit mode t' res left' right' code table' = .ok low' ∧
      low.IsRenamed rename low' := by
  rcases emit_eq_ok h with ⟨type, command, htype, hcommand, rfl⟩
  rcases receiver_isRenamed mode type hleft hright htable with ⟨hid, hafter⟩
  dsimp only at hcommand
  rw [← Command.ofTokens_unplaced, ← ht, ← hleft, ← hright,
    Command.ofTokens_unplaced, ← hid] at hcommand
  refine ⟨⟨.synthesized
      (.identifier (receiver mode type left' right' table').1),
      code ++ [command], (receiver mode type left' right' table').2⟩, ?_, ?_⟩
  · simp only [emit, htype, hcommand]
  · exact ⟨by rw [hid], rfl, hafter⟩

theorem exists_lower_isRenamed
    {mode : Mode} {tree tree' : Tree} {low : Lowered}
    (htree : tree'.unplaced = tree.unplaced)
    (htable : table.IsRenamed rename table')
    (h : lower mode tree table = .ok low) :
    ∃ low', lower mode tree' table' = .ok low' ∧
      low.IsRenamed rename low' := by
  induction tree generalizing tree' table table' low with
  | leaf t res =>
      cases tree' with
      | leaf t' res' =>
          simp only [unplaced, leaf.injEq] at htree
          obtain rfl : ⟨t, [], table⟩ = low := Except.ok.inj h
          exact ⟨⟨t', [], table'⟩, rfl, htree.1, rfl, htable⟩
      | leftOnly t' res' l' | rightOnly t' res' r' | binary t' res' l' r' =>
          contradiction
  | leftOnly t res l ih =>
      cases tree' with
      | leftOnly t' res' l' =>
          simp only [unplaced, leftOnly.injEq] at htree
          rcases htree with ⟨ht, rfl, hl⟩
          rcases Success.bind_eq_ok_iff.mp h with ⟨left, hleft, hemit⟩
          rcases ih hl htable hleft with ⟨left', hleft', hrenamed⟩
          rw [lower, hleft', Success.ok_bind, hrenamed.code_eq]
          refine exists_emit_isRenamed ht ?_ rfl hrenamed.table hemit
          exact congrArg some hrenamed.token_eq
      | leaf t' res' | rightOnly t' res' r' | binary t' res' l' r' =>
          contradiction
  | rightOnly t res r ih =>
      cases tree' with
      | rightOnly t' res' r' =>
          simp only [unplaced, rightOnly.injEq] at htree
          rcases htree with ⟨ht, rfl, hr⟩
          rcases Success.bind_eq_ok_iff.mp h with ⟨right, hright, hemit⟩
          rcases ih hr htable hright with ⟨right', hright', hrenamed⟩
          rw [lower, hright', Success.ok_bind, hrenamed.code_eq]
          refine exists_emit_isRenamed ht rfl ?_ hrenamed.table hemit
          exact congrArg some hrenamed.token_eq
      | leaf t' res' | leftOnly t' res' l' | binary t' res' l' r' =>
          contradiction
  | binary t res l r ihl ihr =>
      cases tree' with
      | binary t' res' l' r' =>
          simp only [unplaced, binary.injEq] at htree
          rcases htree with ⟨ht, rfl, hl, hr⟩
          rcases Success.bind_eq_ok_iff.mp h with ⟨left, hleft, h⟩
          rcases Success.bind_eq_ok_iff.mp h with ⟨right, hright, hemit⟩
          rcases ihl hl htable hleft with ⟨left', hleft', hrenamedl⟩
          rcases ihr hr hrenamedl.table hright with
            ⟨right', hright', hrenamedr⟩
          rw [lower, hleft', Success.ok_bind, hright', Success.ok_bind,
            hrenamedl.code_eq, hrenamedr.code_eq]
          refine exists_emit_isRenamed ht ?_ ?_ hrenamedr.table hemit
          · exact congrArg some hrenamedl.token_eq
          · exact congrArg some hrenamedr.token_eq
      | leaf t' res' | leftOnly t' res' l' | rightOnly t' res' r' =>
          contradiction

end Tree

/-- The same code over a renamed table, or refusals of the same kind. -/
inductive GeneratesAlike (rename : String → String) :
    Except Error (List Command × SymbolTable) →
      Except Error (List Command × SymbolTable) → Prop
  | code {code : List Command} {table table' : SymbolTable}
      (renamed : table.IsRenamed rename table') :
      GeneratesAlike rename (.ok (code, table)) (.ok (code, table'))
  | refused {fault fault' : SimplifyFault}
      (same : fault'.unplaced = fault.unplaced) :
      GeneratesAlike rename (.error (.simplify fault))
        (.error (.simplify fault'))

theorem generatesAlike_of_unplaced_eq
    {rename : String → String} {c c' : Compiled} {parsed : Tree}
    (hsound : c.IsSound parsed)
    (htree : c'.tree.unplaced = c.tree.unplaced)
    (htable : c.symbols.IsRenamed rename c'.symbols)
    (mode : Mode) :
    GeneratesAlike rename (c.generate mode) (c'.generate mode) := by
  have hprepares := Tree.prepare_unplaced mode c'.tree
  rw [htree, ← Tree.prepare_unplaced] at hprepares
  rcases hsound.generate_cases mode with
    ⟨e, hprepare, hgenerate⟩ | ⟨prepared, lowered, hprepare, hlower,
      _, hgenerate⟩
  · rw [hprepare] at hprepares
    rcases Success.bimap_eq_error_iff.mp hprepares with ⟨e', hprepare', hsame⟩
    have hgenerate' : c'.generate mode = .error e' := by
      rw [Compiled.generate, Tree.generate, hprepare']
      rfl
    rw [hgenerate, hgenerate']
    have hsimplify := c.tree.prepare_failsOnly mode e hprepare
    have hsimplify' := c'.tree.prepare_failsOnly mode e' hprepare'
    cases e with
    | simplify fault =>
        cases e' with
        | simplify fault' => exact .refused (Error.simplify.inj hsame)
        | _ => exact hsimplify'.elim
    | _ => exact hsimplify.elim
  · rw [hprepare] at hprepares
    rcases Success.bimap_eq_ok_iff.mp hprepares with
      ⟨prepared', hprepare', hsame⟩
    rcases Tree.exists_lower_isRenamed hsame htable hlower with
      ⟨lowered', hlower', hrenamed⟩
    rw [hgenerate, generate_eq_ok hprepare' hlower', hrenamed.code_eq]
    exact .code hrenamed.table

theorem Compiled.IsSound.addsTemporaries_of_generate
    {c : Compiled} {parsed : Tree}
    (h : c.IsSound parsed)
    (mode : Mode) (code : List Command) (table : SymbolTable)
    (hgenerate : c.generate mode = .ok (code, table)) :
    c.symbols.AddsTemporaries table := by
  rcases h.generate_cases mode with
    ⟨e, _, herror⟩ | ⟨prepared, lowered, _, _, hlinked, hok⟩
  · rw [herror] at hgenerate
    contradiction
  · rw [hok] at hgenerate
    rcases Prod.mk.inj (Except.ok.inj hgenerate) with ⟨_, rfl⟩
    exact hlinked.addsTemporaries

/-- The renamed text is compiled to the same tree but for places, over the
renamed symbols. -/
theorem exists_compile_renameText
    {source : String} {c : Compiled} {rename : String → String}
    (hcompile : compile source = .ok c)
    (hinjective : Set.InjOn rename (namesIn source))
    (hvalid : ∀ name ∈ namesIn source, IsNameText (rename name).toList) :
    ∃ c', compile (renameText rename source) = .ok c' ∧
      c'.symbols = c.symbols.rename rename ∧
      c'.tree.unplaced = c.tree.unplaced ∧
      ∀ row ∈ c.symbols.rows, row.name ∈ namesIn source := by
  rcases exists_isSound hcompile with ⟨parsed, hsound⟩
  rcases exists_scan_renameText (scan_of_compile hcompile)
    hinjective hvalid with
    ⟨⟨tokens, hscan, htokens⟩, hnames⟩
  rcases (hsound.derives hcompile).exists_of_unplaced_eq htokens with
    ⟨parsed', hderives, hparsed⟩
  rcases Tree.exists_analyze_of_unplaced_eq hsound.analyzed hparsed with
    ⟨tree, hanalyze, htree⟩
  refine ⟨⟨tokens, c.symbols.rename rename, tree⟩, ?_, rfl, htree, hnames⟩
  rw [compile, hscan, Success.ok_bind]
  dsimp only
  rw [hderives.parse_eq, Success.ok_bind, hanalyze]
  rfl

/-! ## Runs -/

def ValueFault.rename (rename : String → String) : ValueFault → ValueFault
  | .notGiven name => .notGiven (rename name)
  | fault => fault

def RuntimeFault.rename (rename : String → String) :
    RuntimeFault → RuntimeFault
  | .noValue name fault => .noValue (rename name) (fault.rename rename)
  | fault => fault

/-- The error with the new name of the symbol that it tells of. -/
def Error.rename (rename : String → String) : Error → Error
  | .runtime fault => .runtime (fault.rename rename)
  | e => e

def Outcome.mapError {α : Type} (f : Error → Error) (outcome : Outcome α) :
    Outcome α :=
  ⟨outcome.result.mapError f, outcome.trace⟩

namespace Machine

/-- Only asking for values is about names. -/
theorem step_failsOnly
    (rename : String → String) (machine : Machine) (c : Command) :
    FailsOnly (fun fault => fault.rename rename = fault)
      (machine.step c) := by
  have hread : ∀ operand, FailsOnly (fun fault => fault.rename rename = fault)
      (machine.read operand) := by
    intro operand
    unfold read
    split
    · exact .ok _
    · split
      · exact .ok _
      · exact .error rfl
  cases hcell : machine.cell? c.receiver.attr with
  | none =>
      rw [step_of_none hcell]
      exact .error rfl
  | some old =>
    rw [step_of_some hcell]
    refine FailsOnly.map ?_ _
    unfold Machine.evaluate
    split
    · split
      all_goals exact (hread _).bind fun _ _ => .ok _
    · split
      · refine (hread _).bind fun l _ => (hread _).bind fun r _ => ?_
        dsimp only
        split
        · exact .ok _
        · exact .error rfl
      · exact .error rfl

theorem fault_execute_rename
    (rename : String → String) (capacity : Option Nat) (machine : Machine)
    (code : List Command) :
    (machine.execute capacity code).fault.map (Error.rename rename) =
      (machine.execute capacity code).fault := by
  induction code generalizing capacity machine with
  | nil => rfl
  | cons c rest ih =>
      cases hstep : machine.step c with
      | error fault =>
          have hsame := step_failsOnly rename machine c fault hstep
          simp only [execute_cons_of_error hstep, Option.map_some,
            Error.rename, hsame]
      | ok result =>
          by_cases hfull : capacity = some 0
          · rw [execute_cons_of_full hstep hfull]
            rfl
          · rw [execute_cons_of_step hstep hfull]
            exact ih _ _

end Machine

theorem finalCell_rename
    (rename : String → String) {root root' : Token}
    (h : root'.unplaced = root.unplaced)
    (machine : Machine) :
    (finalCell root' machine).mapError Error.unplaced =
      (finalCell root machine).mapError fun e =>
        (e.rename rename).unplaced := by
  have hkind : root'.kind = root.kind := Token.unplaced_eq_iff.mp h
  unfold finalCell
  rw [hkind]
  split
  · rfl
  · split
    · rfl
    · split <;> rfl
    · exact congrArg
        (fun t => Except.error (Error.internal (.noCommands t))) h

section Lawful

variable {m : Type → Type} [Monad m] [LawfulMonad m]
variable {rename : String → String}
  {ask ask' : String → ValueType → m (Except ValueFault Cell)}

theorem fill_rename
    {rows rows' : List SymbolRow}
    (hrows : List.Forall₂ (SymbolRow.IsRenamed rename) rows rows')
    (hask : ∀ row ∈ rows, row.provenance = .user → ∀ type,
      ask' (rename row.name) type =
        Except.mapError (ValueFault.rename rename) <$> ask row.name type) :
    Machine.fill ask' rows' =
      Except.mapError (RuntimeFault.rename rename) <$>
        Machine.fill ask rows := by
  induction hrows with
  | nil =>
      rw [Machine.fill, Machine.fill, map_pure]
      rfl
  | @cons row row' rest rest' hrow hrest ih =>
      rcases List.forall_mem_cons.mp hask with ⟨hfirst, hothers⟩
      have hfill := ih hothers
      cases hprovenance : row.provenance with
      | program =>
          simp only [Machine.fill, hrow.provenance_eq, hrow.type_eq,
            hprovenance, hfill, map_bind, map_pure, bind_map_left]
          refine bind_congr fun cells => ?_
          cases cells <;> rfl
      | user =>
          simp only [Machine.fill, hrow.provenance_eq, hrow.type_eq,
            hprovenance, hrow.name_eq hprovenance, hfirst hprovenance, hfill,
            map_bind, bind_map_left]
          refine bind_congr fun answer => ?_
          cases answer with
          | error fault =>
              simp only [Except.mapError, map_pure]
              rfl
          | ok cell =>
              simp only [Except.mapError, map_bind, map_pure]
              refine bind_congr fun cells => ?_
              cases cells <;> rfl

theorem carryOut_rename
    {table table' : SymbolTable}
    (htable : table.IsRenamed rename table')
    (hask : ∀ row ∈ table.rows, row.provenance = .user → ∀ type,
      ask' (rename row.name) type =
        Except.mapError (ValueFault.rename rename) <$> ask row.name type)
    (capacity : Option Nat) (code : List Command) :
    carryOut ask' capacity code table' =
      Outcome.mapError (Error.rename rename) <$>
        carryOut ask capacity code table := by
  simp only [carryOut, Machine.start, fill_rename htable hask, map_bind,
    bind_assoc, pure_bind, bind_map_left]
  refine bind_congr fun cells => ?_
  cases cells with
  | error fault =>
      simp only [Except.mapError, Except.map, map_pure]
      rfl
  | ok cells =>
      simp only [Except.mapError, Except.map]
      have hfault :=
        Machine.fault_execute_rename rename capacity ⟨cells, none⟩ code
      cases h : (Machine.execute capacity ⟨cells, none⟩ code).fault with
      | none =>
          simp only [map_pure]
          rfl
      | some e =>
          rw [h] at hfault
          simp only [map_pure, Outcome.mapError, Except.mapError,
            Option.some.inj hfault]

theorem evaluate_rename
    {source source' : String} {c c' : Compiled} {parsed : Tree}
    {mode : Mode}
    (hsound : c.IsSound parsed)
    (hcompile : compile source = .ok c)
    (hcompile' : compile source' = .ok c')
    (hgenerate : GeneratesAlike rename (c.generate mode) (c'.generate mode))
    (hroot : c'.tree.token.unplaced = c.tree.token.unplaced)
    (hask : ∀ row ∈ c.symbols.rows, ∀ type, ask' (rename row.name) type =
      Except.mapError (ValueFault.rename rename) <$> ask row.name type)
    (capacity : Option Nat) :
    Outcome.mapError Error.unplaced <$> evaluate ask' capacity source' mode =
      Outcome.mapError (fun e => (e.rename rename).unplaced) <$>
        evaluate ask capacity source mode := by
  simp only [evaluate, hcompile, hcompile']
  have hadds := hsound.addsTemporaries_of_generate mode
  generalize c.generate mode = generated,
    c'.generate mode = generated' at hgenerate hadds ⊢
  cases hgenerate with
  | refused same =>
      simp only [map_pure, Outcome.mapError, Except.mapError, Error.rename,
        Error.unplaced, same]
  | @code code table table' renamed =>
      have hrows : ∀ row ∈ table.rows, row.provenance = .user → ∀ type,
          ask' (rename row.name) type =
            Except.mapError (ValueFault.rename rename) <$>
              ask row.name type := by
        rcases hadds code table rfl with ⟨temporaries, hrows, hprogram⟩
        intro row hrow huser
        rw [hrows] at hrow
        rcases List.mem_append.mp hrow with hmem | hmem
        · exact hask row hmem
        · rw [hprogram row hmem] at huser
          contradiction
      simp only [carryOut_rename renamed hrows, map_bind, map_pure,
        bind_map_left]
      refine bind_congr fun outcome => congrArg pure ?_
      rcases outcome with ⟨result, trace⟩
      cases result with
      | error e => rfl
      | ok machine =>
          exact congrArg (Outcome.mk · trace)
            (finalCell_rename rename hroot machine)

end Lawful

/-- A text with other names is compiled as well.  Its code is the same in
either mode, or simplification refuses it for the same reason, and the tables
have the same types and provenances under the same attributes.  With values
under the new names, runs write the same trace and come to the same result, or
to the same fault but for the names and places that it tells. -/
theorem renamed_text_behaves_alike
    {source : String} {c : Compiled} {rename : String → String}
    (hcompile : compile source = .ok c)
    (hinjective : Set.InjOn rename (namesIn source))
    (hvalid : ∀ name ∈ namesIn source, IsNameText (rename name).toList) :
    ∃ c', compile (renameText rename source) = .ok c' ∧
      c.symbols.IsRenamed rename c'.symbols ∧
      ∀ mode, GeneratesAlike rename (c.generate mode) (c'.generate mode) ∧
        ∀ {m : Type → Type} [Monad m] [LawfulMonad m]
          (ask ask' : String → ValueType → m (Except ValueFault Cell))
          (capacity : Option Nat),
          (∀ name ∈ namesIn source, ∀ type, ask' (rename name) type =
            Except.mapError (ValueFault.rename rename) <$> ask name type) →
          Outcome.mapError Error.unplaced <$>
              evaluate ask' capacity (renameText rename source) mode =
            Outcome.mapError (fun e => (e.rename rename).unplaced) <$>
              evaluate ask capacity source mode := by
  rcases exists_isSound hcompile with ⟨parsed, hsound⟩
  rcases exists_compile_renameText hcompile hinjective hvalid with
    ⟨c', hcompile', hsymbols, htree, hnames⟩
  have htable : c.symbols.IsRenamed rename c'.symbols :=
    hsymbols ▸ SymbolTable.isRenamed_rename rename c.symbols
  refine ⟨c', hcompile', htable, ?_⟩
  intro mode
  have hgenerate := generatesAlike_of_unplaced_eq hsound htree htable mode
  refine ⟨hgenerate, ?_⟩
  intro m _ _ ask ask' capacity hask
  have hroot : c'.tree.token.unplaced = c.tree.token.unplaced := by
    rw [← Tree.token_unplaced, htree, Tree.token_unplaced]
  exact evaluate_rename hsound hcompile hcompile' hgenerate hroot
    (fun row hrow => hask row.name (hnames row hrow)) capacity

/-- The new name of a symbol is the one that the first temporary has
otherwise. -/
theorem renamed_text_behaves_alike_temporaryName :
    let rename := Equiv.swap "b" "T1"
    let ask (name : String) (_ : ValueType) : Id (Except ValueFault Cell) :=
      pure (.ok (if name = "b" then .integer 5 else .float (.ofInt 3)))
    ∃ c c', compile "a[f] * (b - 2)" = .ok c ∧
      compile "a[f] * (T1 - 2)" = .ok c' ∧
      renameText rename "a[f] * (b - 2)" = "a[f] * (T1 - 2)" ∧
      c.symbols.IsRenamed rename c'.symbols ∧
      GeneratesAlike rename (c.generate .plain) (c'.generate .plain) ∧
      Outcome.mapError Error.unplaced <$>
          evaluate (fun name => ask (rename name))
            none "a[f] * (T1 - 2)" .plain =
        Outcome.mapError (fun e => (e.rename rename).unplaced) <$>
          evaluate ask none "a[f] * (b - 2)" .plain := by
  intro rename ask
  have hrename : renameText rename "a[f] * (b - 2)" = "a[f] * (T1 - 2)" := by
    decide +kernel
  have hvalid : ∀ name ∈ namesIn "a[f] * (b - 2)",
      IsNameText (rename name).toList := by
    rintro name ⟨start, text, type, _, hname⟩
    rw [← isName_iff]
    by_cases hb : name = "b"
    · rw [hb, Equiv.swap_apply_left]
      decide +kernel
    · by_cases hT : name = "T1"
      · rw [hT, Equiv.swap_apply_right]
        decide +kernel
      · rw [Equiv.swap_apply_of_ne_of_ne hb hT]
        exact hname.isName
  have haccepted :
      (compile "a[f] * (b - 2)").toOption.map (fun _ => ()) = some () := by
    decide +kernel
  obtain ⟨c, hcompile, -⟩ := Success.exists_of_toOption haccepted
  rcases renamed_text_behaves_alike hcompile
    rename.injective.injOn hvalid with
    ⟨c', hcompile', htable, hmodes⟩
  rcases hmodes .plain with ⟨hgenerate, hruns⟩
  rw [hrename] at hcompile' hruns
  refine ⟨c, c', hcompile, hcompile', hrename, htable, hgenerate,
    hruns ask _ none ?_⟩
  intro name _ type
  rw [Equiv.swap_apply_self]
  rfl

end ThreeAddress
