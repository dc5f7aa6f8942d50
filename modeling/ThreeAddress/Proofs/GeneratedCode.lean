import ThreeAddress.Proofs.Names
import ThreeAddress.Proofs.Rewriting
import ThreeAddress.Proofs.Running

/-!
# Generated code and its symbols

The table of a compiled expression is built by defining one symbol after the
other, and lowering goes on from there with temporaries.  So the table that
comes with the code is one that could have been built by hand, and every
identifier of the code refers to a row of it: to a symbol of the expression,
or to a temporary that was added before the command was.
-/

namespace ThreeAddress

/-! ## Scanned texts -/

namespace Lexeme

theorem define_of_declare
    {table after : SymbolTable} {start attr : Nat} {lexeme name : String}
    {type : ValueType}
    (h : declare table start lexeme name type = .ok (attr, after)) :
    after = table ∨ table.define name type .user = .ok (attr, after) := by
  unfold declare at h
  split at h
  · split at h
    · next htype =>
        exact .inl (Prod.mk.inj (Except.ok.inj h)).2.symm
    · contradiction
  · exact .inr (Success.mapError_eq_ok_iff.mp h)

/-- Reading a run leaves the table alone, or defines a symbol of the user; in
that case the run is an identifier. -/
theorem define_of_readRun
    {table after : SymbolTable} {start : Nat} {text : List Char}
    {kind : TokenKind}
    (h : readRun table start text = .ok (kind, after)) :
    after = table ∨ (∃ id, kind = .identifier id) ∧
      ∃ name type attr, table.define name type .user = .ok (attr, after) := by
  rcases readRun_eq_ok h with
    ⟨id, name, rfl, _, _, hdeclare⟩ | ⟨literal, rfl, _, rfl⟩
  · rcases define_of_declare hdeclare with hsame | hdefine
    · exact .inl hsame
    · exact .inr ⟨⟨id, rfl⟩, name, id.type, id.attr, hdefine⟩
  · exact .inl rfl

theorem define_of_read
    {lexeme : Lexeme} {table after : SymbolTable} {token : Token}
    (h : lexeme.read table = .ok (token, after)) :
    after = table ∨ token.isOperand = true ∧
      ∃ name type attr, table.define name type .user = .ok (attr, after) := by
  cases lexeme with
  | mark start kind =>
      exact .inl (read_mark_eq_ok h).2
  | run start text =>
      rcases read_run_eq_ok h with ⟨kind, rfl, hrun⟩
      rcases define_of_readRun hrun with hsame | ⟨⟨id, rfl⟩, hdefine⟩
      · exact .inl hsame
      · exact .inr ⟨rfl, hdefine⟩

theorem readAll_built
    {lexemes : List Lexeme} {table after : SymbolTable}
    {tokens : List Token}
    (htable : table.Built)
    (h : readAll table lexemes = .ok (tokens, after)) :
    after.Built ∧ after.size ≤
        table.size + tokens.countP Token.isOperand := by
  induction lexemes generalizing table tokens with
  | nil =>
      obtain ⟨rfl, rfl⟩ := readAll_nil_eq_ok h
      exact ⟨htable, le_rfl⟩
  | cons lexeme rest ih =>
      rcases readAll_cons_eq_ok h with
        ⟨token, middle, others, hread, hreadAll, rfl⟩
      rw [List.countP_cons]
      rcases define_of_read hread with
        rfl | ⟨hoperand, name, type, attr, hdefine⟩
      · rcases ih htable hreadAll with ⟨hbuilt, hsize⟩
        exact ⟨hbuilt, by omega⟩
      · rcases ih (htable.define hdefine) hreadAll with ⟨hbuilt, hsize⟩
        have hmiddle : middle.size = table.size + 1 := by
          rw [(SymbolTable.define_eq_ok_iff.mp hdefine).2.2.2]
          exact SymbolTable.size_push table _
        rw [if_pos hoperand]
        exact ⟨hbuilt, by omega⟩

end Lexeme

theorem scan_built
    {source : String} {tokens : List Token} {table : SymbolTable}
    (h : scan source = .ok (tokens, table)) :
    table.Built ∧ table.size ≤ tokens.countP Token.isOperand := by
  have hread := Lexeme.readAll_built .empty h
  simpa [SymbolTable.size, SymbolTable.empty] using hread

/-! ## The identifiers of a command -/

namespace Command

theorem identifier?_of_readOperand
    {token : Option Token} {operand : Option Operand}
    (h : readOperand token = .ok operand)
    {id : Identifier}
    (hid : operand.bind Operand.identifier? = some id) :
    ∃ t ∈ token, t.identifier? = some id := by
  cases token with
  | none =>
      obtain rfl : none = operand := Except.ok.inj h
      simp at hid
  | some t =>
      refine ⟨t, rfl, ?_⟩
      rcases Success.map_eq_ok_iff.mp h with ⟨a, ha, rfl⟩
      cases hkind : t.kind with
      | operator op | bracket side => simp [Operand.ofToken, hkind] at ha
      | number literal =>
          obtain rfl : Operand.number literal = a := by
            simpa [Operand.ofToken, hkind] using ha
          simp [Operand.identifier?] at hid
      | identifier other =>
          obtain rfl : Operand.identifier other = a := by
            simpa [Operand.ofToken, hkind] using ha
          simpa [Token.identifier?, hkind, Operand.identifier?] using hid

/-- The identifiers of a command are those of the tokens it was made of. -/
theorem identifier?_of_ofTokens
    {t receiver : Token} {left right : Option Token} {c : Command}
    (h : ofTokens t receiver left right = .ok c)
    {id : Identifier}
    (hid : id ∈ c.identifiers) :
    ∃ token ∈ receiver :: (left.toList ++ right.toList),
      token.identifier? = some id := by
  unfold ofTokens at h
  split at h
  · contradiction
  · split at h
    · contradiction
    · next other hreceiver =>
        simp only [Success.bind_eq_ok_iff] at h
        rcases h with ⟨l, hl, r, hr, hparts⟩
        have hoperand : ∀ operand, l = some operand ∨ r = some operand →
            operand.identifier? = some id →
              ∃ token ∈ left.toList ++ right.toList,
                token.identifier? = some id := by
          intro operand hplace hoperand
          rcases hplace with rfl | rfl
          · rcases identifier?_of_readOperand hl hoperand with
              ⟨token, htoken, hid⟩
            exact ⟨token, List.mem_append_left _
              (Option.mem_toList.mpr htoken), hid⟩
          · rcases identifier?_of_readOperand hr hoperand with
              ⟨token, htoken, hid⟩
            exact ⟨token, List.mem_append_right _
              (Option.mem_toList.mpr htoken), hid⟩
        have hcases :
            id = other ∨ ∃ operand, (l = some operand ∨ r = some operand) ∧
            operand.identifier? = some id := by
          cases l <;> cases r <;>
            simp [ofParts, Operands.ofOptions?] at hparts <;> subst hparts <;>
            simpa [identifiers, Operands.toList, List.mem_filterMap] using hid
        rcases hcases with rfl | ⟨operand, hplace, hid⟩
        · exact ⟨receiver, List.mem_cons_self, hreceiver⟩
        · rcases hoperand operand hplace hid with ⟨token, htoken, hid⟩
          exact ⟨token, List.mem_cons_of_mem _ htoken, hid⟩

end Command

/-! ## Lowered trees -/

namespace Tree

theorem receiver_built
    (mode : Mode) (type : ValueType) (left right : Option Token)
    {table : SymbolTable}
    (h : table.Built) :
    (receiver mode type left right table).2.Built := by
  cases mode with
  | plain => exact h.defineTemporary type
  | optimal =>
      cases hreusable : reusable? type left right with
      | none =>
          simp only [receiver, hreusable]
          exact h.defineTemporary type
      | some id =>
          simp only [receiver, hreusable]
          exact h

theorem IsReceiver.size_le
    {type : ValueType} {operands : List Token} {table after : SymbolTable}
    {id : Identifier}
    (h : IsReceiver type operands table id after) :
    after.size ≤ table.size + 1 := by
  rcases h.row with ⟨_, name, rfl⟩ | ⟨rfl, _⟩
  · exact (SymbolTable.size_push table _).le
  · exact Nat.le_succ _

theorem IsReceiver.declares
    {type : ValueType} {operands : List Token} {table after : SymbolTable}
    {id : Identifier}
    (h : IsReceiver type operands table id after)
    (hoperands : ∀ t ∈ operands, ∀ id,
      t.identifier? = some id → table.Declares id) :
    after.Declares id := by
  rcases h.row with ⟨hattr, name, rfl⟩ | ⟨rfl, t, ht, hid⟩
  · refine ⟨⟨name, type, .program⟩, ?_, h.type_eq.symm, h.provenance_eq.symm⟩
    rw [hattr]
    exact SymbolTable.get?_size_add_one_push table _
  · exact hoperands t ht id hid

/-- What a node adds to the code of its operands: one command, whose receiver
is the token of the node. -/
theorem emit_eq_ok
    {mode : Mode} {t : Token} {res : Resolution} {left right : Option Token}
    {code : List Command} {table : SymbolTable} {lowered : Lowered}
    (h : emit mode t res left right code table = .ok lowered) :
    ∃ type command, res.type? = some type ∧
      Command.ofTokens t lowered.token left right = .ok command ∧
      lowered =
        ⟨.synthesized (.identifier (receiver mode type left right table).1),
          code ++ [command], (receiver mode type left right table).2⟩ := by
  unfold emit at h
  split at h
  · contradiction
  · next type htype =>
      simp only at h
      split at h
      · contradiction
      · next command hcommand =>
          obtain rfl := Except.ok.inj h
          exact ⟨type, command, htype, hcommand, rfl⟩

/-- What is known of the symbols of lowered code: temporaries are added to the
table, at most one for each command, and the token and the code refer to
rows. -/
structure IsLinked (table : SymbolTable) (lowered : Lowered) : Prop where
  addsTemporaries : table.AddsTemporaries lowered.table
  built : table.Built → lowered.table.Built
  size_le : lowered.table.size ≤ table.size + lowered.code.length
  token : ∀ id, lowered.token.identifier? = some id →
    lowered.table.Declares id
  code : ∀ c ∈ lowered.code, ∀ id ∈ c.identifiers, lowered.table.Declares id

theorem IsLinked.append
    {table : SymbolTable} {l r : Lowered}
    (hl : IsLinked table l)
    (hr : IsLinked l.table r) :
    IsLinked table ⟨r.token, l.code ++ r.code, r.table⟩ where
  addsTemporaries := hl.addsTemporaries.trans hr.addsTemporaries
  built := fun htable => hr.built (hl.built htable)
  size_le := by
    have hfirst := hl.size_le
    have hsecond := hr.size_le
    simp only [List.length_append]
    omega
  token := hr.token
  code := by
    intro c hc id hid
    rcases List.mem_append.mp hc with hmem | hmem
    · exact hr.addsTemporaries.extends.declares (hl.code c hmem id hid)
    · exact hr.code c hmem id hid

/-- A node whose operands have their rows has its own. -/
theorem IsLinked.emit
    {mode : Mode} {t token : Token} {res : Resolution}
    {left right : Option Token} {code : List Command}
    {start table : SymbolTable} {lowered : Lowered}
    (h : IsLinked start ⟨token, code, table⟩)
    (hoperands : ∀ t ∈ left.toList ++ right.toList, ∀ id,
      t.identifier? = some id → table.Declares id)
    (hemit : Tree.emit mode t res left right code table = .ok lowered) :
    IsLinked start lowered := by
  rcases emit_eq_ok hemit with ⟨type, command, _, hcommand, rfl⟩
  have hreceiver := isReceiver_receiver mode type left right table
  have hextends := hreceiver.addsTemporaries.extends
  have hdeclares := hreceiver.declares hoperands
  constructor
  case addsTemporaries =>
      exact h.addsTemporaries.trans hreceiver.addsTemporaries
  case built =>
      exact fun hstart => receiver_built mode type left right (h.built hstart)
  case size_le =>
    have hcode := h.size_le
    have hrow := hreceiver.size_le
    simp only [List.length_append, List.length_singleton]
    simp only at hcode
    omega
  case token =>
    intro id hid
    obtain rfl : _ = id := Option.some.inj hid
    exact hdeclares
  case code =>
    intro c hc id hid
    rcases List.mem_append.mp hc with hmem | hmem
    · exact hextends.declares (h.code c hmem id hid)
    · obtain rfl := List.mem_singleton.mp hmem
      rcases Command.identifier?_of_ofTokens hcommand hid with
        ⟨other, hother, hid⟩
      rcases List.mem_cons.mp hother with rfl | hoperand
      · obtain rfl : _ = id := Option.some.inj hid
        exact hdeclares
      · exact hextends.declares (hoperands other hoperand id hid)

theorem Consistent.lower_isLinked
    {mode : Mode} {tree : Tree} {table : SymbolTable} {lowered : Lowered}
    (htree : tree.Consistent)
    (hids : ∀ id ∈ tree.identifiers, table.Declares id)
    (h : lower mode tree table = .ok lowered) :
    IsLinked table lowered := by
  induction tree generalizing table lowered with
  | leaf t res =>
      obtain rfl : ⟨t, [], table⟩ = lowered := Except.ok.inj h
      refine ⟨.refl table, id, le_rfl, ?_, by simp⟩
      intro id hid
      exact hids id (by simp [hid])
  | leftOnly t res l ih => exact htree.elim
  | rightOnly t res r ih =>
      rcases htree with ⟨hop, _, _, hr⟩
      rw [identifiers_rightOnly (Token.identifier?_of_operator? hop)] at hids
      rcases Success.bind_eq_ok_iff.mp h with ⟨right, hright, hemit⟩
      have hlinked := ih hr hids hright
      exact hlinked.emit (by simpa using hlinked.token) hemit
  | binary t res l r ihl ihr =>
      rcases htree with ⟨ht, _, _, hl, hr⟩
      rw [identifiers_binary ht.identifier?_eq,
        List.forall_mem_append] at hids
      rcases Success.bind_eq_ok_iff.mp h with ⟨left, hleft, h⟩
      rcases Success.bind_eq_ok_iff.mp h with ⟨right, hright, hemit⟩
      have hlinkedl := ihl hl hids.1 hleft
      have hlinkedr := ihr hr
        (fun id hid => hlinkedl.addsTemporaries.extends.declares
          (hids.2 id hid)) hright
      refine (hlinkedl.append hlinkedr).emit ?_ hemit
      intro operand hoperand id hid
      have hcases : operand = left.token ∨ operand = right.token := by
        simpa using hoperand
      rcases hcases with rfl | rfl
      · exact hlinkedr.addsTemporaries.extends.declares
          (hlinkedl.token id hid)
      · exact hlinkedr.token id hid

/-- Lowering a tree that fits together never fails, whatever the table. -/
theorem Consistent.exists_lower
    (mode : Mode) {tree : Tree}
    (htree : tree.Consistent)
    (table : SymbolTable) :
    ∃ lowered, lower mode tree table = .ok lowered ∧
      ∃ operand, Operand.ofToken lowered.token = .ok operand := by
  induction tree generalizing table with
  | leaf t res => exact ⟨⟨t, [], table⟩, rfl, exists_operand htree.1⟩
  | leftOnly t res l ih => exact htree.elim
  | rightOnly t res r ih =>
      rcases htree with ⟨hop, rfl, _, hr⟩
      rcases ih hr table with ⟨right, hright, a, ha⟩
      rcases emit_cast mode hop ha right.code right.table with
        ⟨id, after, _, hemit⟩
      have hlower : lower mode (.rightOnly t .float r) table =
          emit mode t .float none (some right.token) right.code
            right.table := by
        simp only [lower, hright, Success.ok_bind]
      exact ⟨_, hlower.trans hemit, .identifier id, rfl⟩
  | binary t res l r ihl ihr =>
      rcases htree with ⟨⟨op, hop, _⟩, rfl, _, hl, hr⟩
      rcases ihl hl table with ⟨left, hleft, a, ha⟩
      rcases ihr hr left.table with ⟨right, hright, b, hb⟩
      have htype : ∃ type, l.result.type? = some type := by
        rcases hl.result_cases with hres | hres
        · exact ⟨.integer, by rw [hres]; rfl⟩
        · exact ⟨.float, by rw [hres]; rfl⟩
      rcases htype with ⟨type, htype⟩
      rcases emit_binary mode hop htype ha hb (left.code ++ right.code)
        right.table with
        ⟨id, after, _, hemit⟩
      have hlower : lower mode (.binary t l.result l r) table =
          emit mode t l.result (some left.token) (some right.token)
            (left.code ++ right.code) right.table := by
        simp only [lower, hleft, hright, Success.ok_bind]
      exact ⟨_, hlower.trans hemit, .identifier id, rfl⟩

theorem lower_code_ne_nil
    {mode : Mode} {tree : Tree} {table : SymbolTable} {lowered : Lowered}
    (h : lower mode tree table = .ok lowered)
    (htree : tree.isLeaf = false) :
    lowered.code ≠ [] := by
  have hadded : ∀ {t res left right code table},
      emit mode t res left right code table = .ok lowered →
        lowered.code ≠ [] := by
    intro t res left right code table hemit
    rcases emit_eq_ok hemit with ⟨type, command, _, _, rfl⟩
    exact List.append_ne_nil_of_right_ne_nil _ (List.cons_ne_nil _ _)
  cases tree with
  | leaf t res => contradiction
  | leftOnly t res l | rightOnly t res r =>
      rcases Success.bind_eq_ok_iff.mp h with ⟨_, _, hemit⟩
      exact hadded hemit
  | binary t res l r =>
      rcases Success.bind_eq_ok_iff.mp h with ⟨_, _, h⟩
      rcases Success.bind_eq_ok_iff.mp h with ⟨_, _, hemit⟩
      exact hadded hemit

end Tree

/-! ## Code of compiled expressions -/

/-- Code whose identifiers refer to rows is accepted as a program. -/
theorem Program.make_of_declares
    {code : List Command} {table : SymbolTable}
    (h : ∀ c ∈ code, ∀ id ∈ c.identifiers, table.Declares id) :
    make code table = .ok ⟨code, table⟩ := by
  refine make_eq_ok_iff.mpr ⟨rfl, ?_⟩
  intro id hid
  rcases List.mem_flatMap.mp hid with ⟨c, hc, hid⟩
  rcases h c hc id hid with ⟨row, hrow, htype, _⟩
  exact ⟨row, hrow, htype⟩

theorem scan_of_compile
    {source : String} {c : Compiled}
    (h : compile source = .ok c) :
    scan source = .ok (c.tokens, c.symbols) := by
  simp only [compile, Success.bind_eq_ok_iff, Success.mapError_eq_ok_iff,
    Success.pure_eq_ok_iff] at h
  rcases h with ⟨⟨tokens, table⟩, hscan, _, _, _, _, rfl⟩
  exact hscan

theorem derives_of_parse
    {source : String} {tokens : List Token} {table : SymbolTable}
    {tree : Tree}
    (hscan : scan source = .ok (tokens, table))
    (hparse : parse tokens = .ok tree) :
    Derives .expression tokens tree := by
  rcases parse_cases fun t ht => ((scan_declares hscan).2 t ht).1 with
    ⟨other, hderives, hother⟩ | ⟨fault, hfault⟩
  · obtain rfl : other = tree := Except.ok.inj (hother.symm.trans hparse)
    exact hderives
  · rw [hfault] at hparse
    contradiction

/-- The tokens of a compiled expression are derived from the grammar. -/
theorem Compiled.IsSound.derives
    {source : String} {c : Compiled} {parsed : Tree}
    (h : c.IsSound parsed)
    (hcompile : compile source = .ok c) :
    Derives .expression c.tokens parsed :=
  derives_of_parse (scan_of_compile hcompile) h.parsed_eq

/-- The tree that code is generated from fits together and has no identifiers
that the compiled one has not. -/
theorem Tree.Consistent.prepare
    {mode : Mode} {tree prepared : Tree}
    (htree : tree.Consistent)
    (h : Tree.prepare mode tree = .ok prepared) :
    prepared.Consistent ∧ prepared.identifiers ⊆ tree.identifiers := by
  cases mode with
  | plain =>
      obtain rfl := Except.ok.inj h
      exact ⟨htree, List.Subset.refl _⟩
  | optimal =>
      have hoptimize := Success.mapError_eq_ok_iff.mp h
      exact Tree.simplifyIn_consistent htree (Tree.optimize_eq_ok hoptimize).1

/-- Only a tree that is one as it was compiled is left as a single operand. -/
theorem Tree.eq_of_prepare
    {mode : Mode} {tree prepared : Tree}
    (h : Tree.prepare mode tree = .ok prepared)
    (hleaf : prepared.isLeaf = true) :
    prepared = tree := by
  cases mode with
  | plain => exact (Except.ok.inj h).symm
  | optimal =>
      have hoptimize := Success.mapError_eq_ok_iff.mp h
      rw [(optimize_eq_ok hoptimize).2] at hleaf
      contradiction

/-- Code generation fails where simplification does, with the table as it was
given, and lowers what is left otherwise. -/
theorem Tree.Consistent.generate_cases
    {tree : Tree}
    (htree : tree.Consistent)
    (mode : Mode) (table : SymbolTable) :
    (∃ e, Tree.prepare mode tree = .error e ∧
        tree.generate mode table = .error (e, table)) ∨
      ∃ prepared lowered, Tree.prepare mode tree = .ok prepared ∧
        lower mode prepared table = .ok lowered ∧
        tree.generate mode table = .ok (lowered.code, lowered.table) := by
  cases hprepare : Tree.prepare mode tree with
  | error e =>
      refine .inl ⟨e, rfl, ?_⟩
      rw [generate, hprepare]
      rfl
  | ok prepared =>
      rcases (htree.prepare hprepare).1.exists_lower mode table with
        ⟨lowered, hlower, _⟩
      refine .inr ⟨prepared, lowered, rfl, hlower, ?_⟩
      rw [generate, hprepare, Success.mapError_ok, Success.ok_bind, hlower]
      rfl

theorem Compiled.IsSound.generate_cases
    {c : Compiled} {parsed : Tree}
    (h : c.IsSound parsed)
    (mode : Mode) :
    (∃ e, Tree.prepare mode c.tree = .error e ∧ c.generate mode = .error e) ∨
      ∃ prepared lowered, Tree.prepare mode c.tree = .ok prepared ∧
        Tree.lower mode prepared c.symbols = .ok lowered ∧
        Tree.IsLinked c.symbols lowered ∧
        c.generate mode = .ok (lowered.code, lowered.table) := by
  rcases h.consistent.generate_cases mode c.symbols with
    ⟨e, hprepare, hgenerate⟩ | ⟨prepared, lowered, hprepare,
      hlower, hgenerate⟩
  · refine .inl ⟨e, hprepare, ?_⟩
    rw [Compiled.generate, hgenerate]
    rfl
  · rcases h.consistent.prepare hprepare with ⟨hprepared, hids⟩
    refine .inr ⟨prepared, lowered, hprepare, hlower,
      hprepared.lower_isLinked
        (fun id hid => h.declares id (hids hid)) hlower, ?_⟩
    rw [Compiled.generate, hgenerate]
    rfl

end ThreeAddress
