import ThreeAddress.Proofs.Temporaries

/-!
# Generated code is well formed

Code computes a tree if it computes the operands first and then stores the
result of the operator: the commands are the operators of the tree in
post-order, and each reads what its operands left.  `Computes` says so without
a word on tables or on the choice of receivers, which is where the two modes
differ.  Types and the order of reads and writes follow from it by induction
on the tree.  The rows of the receivers are those of the table that code
generation returns.
-/

namespace ThreeAddress

def Operand.type : Operand → ValueType
  | .identifier id => id.type
  | .number literal => literal.type

namespace Command

/-- A conversion reads an integer on the right and stores a float; any other
command reads two operands of the type that it stores. -/
def IsTyped (c : Command) : Prop :=
  if c.operator = .toFloat then
    ∃ a, c.operands = .right a ∧ a.type = .integer ∧ c.receiver.type = .float
  else
    ∃ a b, c.operands = .both a b ∧ a.type = c.receiver.type ∧
      b.type = c.receiver.type

/-- A temporary is read only after a command has stored in it. -/
def ReadsStored (code : List Command) : Prop :=
  ∀ k c, code[k]? = some c → ∀ id, .identifier id ∈ c.operands.toList →
    id.provenance = .program → ∃ d ∈ code.take k, d.receiver = id

theorem ReadsStored.append
    {first second : List Command}
    (hfirst : ReadsStored first)
    (hsecond : ReadsStored second) :
    ReadsStored (first ++ second) := by
  intro k c hc id hid hprogram
  rw [List.take_append]
  by_cases hk : k < first.length
  · rw [List.getElem?_append_left hk] at hc
    rcases hfirst k c hc id hid hprogram with ⟨d, hd, hreceiver⟩
    exact ⟨d, List.mem_append_left _ hd, hreceiver⟩
  · rw [List.getElem?_append_right (not_lt.mp hk)] at hc
    rcases hsecond _ c hc id hid hprogram with ⟨d, hd, hreceiver⟩
    exact ⟨d, List.mem_append_right _ hd, hreceiver⟩

theorem ReadsStored.concat
    {code : List Command} {c : Command}
    (hcode : ReadsStored code)
    (hc : ∀ id, .identifier id ∈ c.operands.toList →
      id.provenance = .program → ∃ d ∈ code, d.receiver = id) :
    ReadsStored (code ++ [c]) := by
  intro k other hother id hid hprogram
  by_cases hk : k < code.length
  · rw [List.getElem?_append_left hk] at hother
    rw [List.take_append_of_le_length hk.le]
    exact hcode k other hother id hid hprogram
  · rw [List.getElem?_append_right (not_lt.mp hk)] at hother
    obtain rfl := List.mem_singleton.mp (List.mem_of_getElem? hother)
    rcases hc id hid hprogram with ⟨d, hd, hreceiver⟩
    refine ⟨d, ?_, hreceiver⟩
    rw [List.take_append, List.take_of_length_le (not_lt.mp hk)]
    exact List.mem_append_left _ hd

theorem receiver_of_ofTokens
    {t token : Token} {left right : Option Token} {c : Command}
    {id : Identifier}
    (h : ofTokens t token left right = .ok c)
    (hid : token.identifier? = some id) :
    c.receiver = id := by
  unfold ofTokens at h
  split at h
  · contradiction
  · simp only [hid, Success.bind_eq_ok_iff] at h
    rcases h with ⟨l, _, r, _, hparts⟩
    unfold ofParts at hparts
    split at hparts
    · rw [← Except.ok.inj hparts]
    · contradiction

end Command

namespace Tree

/-- The code computes the tree, and leaves its value for the operand to
read. -/
inductive Computes : Tree → List Command → Operand → Prop
  | operand {t : Token} {res : Resolution} {a : Operand}
      (ha : Operand.ofToken t = .ok a) :
      Computes (.leaf t res) [] a
  | conversion {t : Token} {res : Resolution} {r : Tree} {op : Operator}
      {id : Identifier}
      {code : List Command} {a : Operand} (hop : t.operator? = some op)
      (htype : res.type? = some id.type) (hprogram : id.provenance = .program)
      (hr : Computes r code a) :
      Computes (.rightOnly t res r) (code ++ [⟨op, id, .right a⟩])
        (.identifier id)
  | operation {t : Token} {res : Resolution} {l r : Tree} {op : Operator}
      {id : Identifier}
      {code code' : List Command} {a b : Operand}
      (hop : t.operator? = some op)
      (htype : res.type? = some id.type) (hprogram : id.provenance = .program)
      (hl : Computes l code a) (hr : Computes r code' b) :
      Computes (.binary t res l r) (code ++ code' ++ [⟨op, id, .both a b⟩])
        (.identifier id)

/-! ## Lowered trees -/

theorem Consistent.lower_computes
    {mode : Mode} {tree : Tree} {table : SymbolTable} {lowered : Lowered}
    (htree : tree.Consistent)
    (h : lower mode tree table = .ok lowered) :
    ∃ a, Operand.ofToken lowered.token = .ok a ∧
      Computes tree lowered.code a := by
  induction tree generalizing table lowered with
  | leaf t res =>
      obtain rfl : ⟨t, [], table⟩ = lowered := Except.ok.inj h
      rcases exists_operand htree.1 with ⟨a, ha⟩
      exact ⟨a, ha, .operand ha⟩
  | leftOnly t res l ih => exact htree.elim
  | rightOnly t res r ih =>
      rcases htree with ⟨hop, rfl, _, hr⟩
      rcases Success.bind_eq_ok_iff.mp h with ⟨right, hright, hemit⟩
      rcases ih hr hright with ⟨a, ha, hcode⟩
      rcases emit_cast mode hop ha right.code right.table with
        ⟨id, after, hreceiver, hemit'⟩
      obtain rfl := Except.ok.inj (hemit.symm.trans hemit')
      exact ⟨.identifier id, rfl,
        .conversion hop (congrArg some hreceiver.type_eq.symm)
        hreceiver.provenance_eq hcode⟩
  | binary t res l r ihl ihr =>
      rcases htree with ⟨⟨op, hop, _⟩, _, _, hl, hr⟩
      rcases Success.bind_eq_ok_iff.mp h with ⟨left, hleft, h⟩
      rcases Success.bind_eq_ok_iff.mp h with ⟨right, hright, hemit⟩
      rcases ihl hl hleft with ⟨a, ha, hcodel⟩
      rcases ihr hr hright with ⟨b, hb, hcoder⟩
      rcases emit_eq_ok hemit with ⟨type, _, htype, _, _⟩
      rcases emit_binary mode hop htype ha hb (left.code ++ right.code)
        right.table with
        ⟨id, after, hreceiver, hemit'⟩
      obtain rfl := Except.ok.inj (hemit.symm.trans hemit')
      exact ⟨.identifier id, rfl, .operation hop (htype.trans (congrArg some
        hreceiver.type_eq.symm)) hreceiver.provenance_eq hcodel hcoder⟩

/-- With fresh receivers the commands write the rows behind the table, one
after the other. -/
theorem receivers_of_emit_plain
    {t : Token} {res : Resolution} {left right : Option Token}
    {code : List Command} {start : Nat} {table : SymbolTable}
    {lowered : Lowered}
    (hcode : code.map (·.receiver.attr) = List.range' start code.length)
    (hsize : table.size + 1 = start + code.length)
    (h : emit .plain t res left right code table = .ok lowered) :
    lowered.code.map (·.receiver.attr) =
      List.range' start lowered.code.length := by
  rcases emit_eq_ok h with ⟨type, command, _, hcommand, rfl⟩
  have hreceiver : command.receiver.attr = table.size + 1 :=
    congrArg Identifier.attr (Command.receiver_of_ofTokens hcommand rfl)
  rw [List.map_append, hcode, List.length_append, List.length_singleton,
    List.range'_append_1.symm, List.map_singleton, hreceiver, hsize]
  rfl

theorem receivers_of_lower_plain
    {tree : Tree} {table : SymbolTable} {lowered : Lowered}
    (h : lower .plain tree table = .ok lowered) :
    lowered.code.map (·.receiver.attr) =
      List.range' (table.size + 1) lowered.code.length := by
  induction tree generalizing table lowered with
  | leaf t res =>
      obtain rfl : ⟨t, [], table⟩ = lowered := Except.ok.inj h
      rfl
  | leftOnly t res child ih | rightOnly t res child ih =>
      rcases Success.bind_eq_ok_iff.mp h with ⟨operand, hoperand, hemit⟩
      refine receivers_of_emit_plain (ih hoperand) ?_ hemit
      rw [size_of_lower_plain hoperand, length_code_of_lower hoperand]
      omega
  | binary t res l r ihl ihr =>
      rcases Success.bind_eq_ok_iff.mp h with ⟨left, hleft, h⟩
      rcases Success.bind_eq_ok_iff.mp h with ⟨right, hright, hemit⟩
      have hsizel := size_of_lower_plain hleft
      have hsizer := size_of_lower_plain hright
      rw [← length_code_of_lower hleft] at hsizel
      rw [← length_code_of_lower hright] at hsizer
      refine receivers_of_emit_plain ?_ ?_ hemit
      · rw [List.map_append, ihl hleft, ihr hright, List.length_append,
          ← List.range'_append_1, hsizel, Nat.add_right_comm]
      · rw [List.length_append]
        omega

/-! ## Code that computes a tree -/

/-- One command for each operator, in post-order, with a receiver of its
type. -/
theorem Computes.operators_eq
    {tree : Tree} {code : List Command} {a : Operand}
    (h : Computes tree code a) :
    code.map (fun c => (c.operator, some c.receiver.type)) =
      tree.nodes.filterMap fun node =>
        node.1.operator?.map (·, node.2.type?) := by
  induction h with
  | @operand t res a ha =>
      have hleaf : t.operator? = none := by
        cases hkind : t.kind <;> simp_all [Operand.ofToken, Token.operator?]
      simp [nodes, hleaf]
  | conversion hop htype hprogram hr ih =>
      simp [nodes, hop, htype, ih, List.filterMap_append]
  | operation hop htype hprogram hl hr ihl ihr =>
      simp [nodes, hop, htype, ihl, ihr, List.filterMap_append]

theorem Computes.provenance_eq
    {tree : Tree} {code : List Command} {a : Operand}
    (h : Computes tree code a) :
    ∀ c ∈ code, c.receiver.provenance = .program := by
  induction h with
  | operand ha => simp
  | conversion hop htype hprogram hr ih =>
      rw [List.forall_mem_append, List.forall_mem_singleton]
      exact ⟨ih, hprogram⟩
  | operation hop htype hprogram hl hr ihl ihr =>
      rw [List.forall_mem_append, List.forall_mem_append,
        List.forall_mem_singleton]
      exact ⟨⟨ihl, ihr⟩, hprogram⟩

theorem Computes.type_eq
    {tree : Tree} {code : List Command} {a : Operand}
    (h : Computes tree code a)
    (htree : tree.Consistent) :
    tree.result.type? = some a.type := by
  cases h with
  | @operand t res a ha =>
      rcases htree with ⟨_, rfl⟩
      cases hkind : t.kind with
      | operator op | bracket side => simp [Operand.ofToken, hkind] at ha
      | number literal =>
          obtain rfl : Operand.number literal = a := by
            simpa [Operand.ofToken, hkind] using ha
          cases htype : literal.type <;>
            simp [result, Resolution.ofToken, Token.type?, hkind, htype,
              Operand.type, Resolution.ofType, Resolution.type?]
      | identifier id =>
          obtain rfl : Operand.identifier id = a := by
            simpa [Operand.ofToken, hkind] using ha
          cases htype : id.type <;>
            simp [result, Resolution.ofToken, Token.type?, hkind, htype,
              Operand.type, Resolution.ofType, Resolution.type?]
  | conversion hop htype hprogram hr => exact htype
  | operation hop htype hprogram hl hr => exact htype

theorem Computes.isTyped
    {tree : Tree} {code : List Command} {a : Operand}
    (h : Computes tree code a)
    (htree : tree.Consistent) :
    ∀ c ∈ code, c.IsTyped := by
  induction h with
  | operand ha => simp
  | @conversion t res r op id code a hop htype hprogram hr ih =>
      rcases htree with ⟨hcast, rfl, hinteger, hconsistent⟩
      obtain rfl : op = .toFloat := Option.some.inj (hop.symm.trans hcast)
      rw [List.forall_mem_append, List.forall_mem_singleton]
      have hoperand := hr.type_eq hconsistent
      rw [hinteger] at hoperand
      exact ⟨ih hconsistent, a, rfl, (Option.some.inj hoperand).symm,
        (Option.some.inj htype).symm⟩
  | @operation t res l r op id code code' a b hop htype hprogram hl
      hr ihl ihr =>
      rcases htree with ⟨⟨op', hop', hne⟩, hresl, hresr, hconsl, hconsr⟩
      obtain rfl : op' = op := Option.some.inj (hop'.symm.trans hop)
      rw [List.forall_mem_append, List.forall_mem_append,
        List.forall_mem_singleton]
      refine ⟨⟨ihl hconsl, ihr hconsr⟩, ?_⟩
      have hleft := hl.type_eq hconsl
      have hright := hr.type_eq hconsr
      rw [hresl, htype] at hleft
      rw [hresr, htype] at hright
      rw [Command.IsTyped, if_neg hne]
      exact ⟨a, b, rfl, (Option.some.inj hleft).symm,
        (Option.some.inj hright).symm⟩

theorem Computes.exists_receiver
    {tree : Tree} {code : List Command} {a : Operand}
    (h : Computes tree code a)
    (huser : ∀ id ∈ tree.identifiers, id.provenance = .user)
    {id : Identifier}
    (hid : .identifier id = a)
    (hprogram : id.provenance = .program) :
    ∃ d ∈ code, d.receiver = id := by
  cases h with
  | @operand t res a ha =>
      subst hid
      have hkind : t.identifier? = some id := by
        cases hkind : t.kind <;> simp_all [Operand.ofToken, Token.identifier?]
      have := huser id (by simp [hkind])
      simp [hprogram] at this
  | conversion hop htype hprogram hr | operation hop htype hprogram hl hr =>
      obtain rfl := Operand.identifier.inj hid
      exact ⟨_, List.mem_append_right _ (List.mem_singleton_self _), rfl⟩

theorem Computes.readsStored
    {tree : Tree} {code : List Command} {a : Operand}
    (h : Computes tree code a)
    (huser : ∀ id ∈ tree.identifiers, id.provenance = .user) :
    Command.ReadsStored code := by
  induction h with
  | operand ha => simp [Command.ReadsStored]
  | @conversion t res r op id code a hop htype hprogram hr ih =>
      rw [identifiers_rightOnly (Token.identifier?_of_operator? hop)] at huser
      refine (ih huser).concat ?_
      intro other hother
      exact hr.exists_receiver huser (List.mem_singleton.mp hother)
  | @operation t res l r op id code code' a b hop htype hprogram hl
      hr ihl ihr =>
      rw [identifiers_binary (Token.identifier?_of_operator? hop),
        List.forall_mem_append] at huser
      refine ((ihl huser.1).append (ihr huser.2)).concat ?_
      intro other hother hprogram'
      -- A temporary among the operands is what one of the subtrees left.
      have hcases : .identifier other = a ∨ .identifier other = b := by
        simpa [Operands.toList] using hother
      rcases hcases with hleft | hright
      · rcases hl.exists_receiver huser.1 hleft hprogram' with
          ⟨d, hd, hreceiver⟩
        exact ⟨d, List.mem_append_left _ hd, hreceiver⟩
      · rcases hr.exists_receiver huser.2 hright hprogram' with
          ⟨d, hd, hreceiver⟩
        exact ⟨d, List.mem_append_right _ hd, hreceiver⟩

end Tree

/-! ## Code of compiled expressions -/

theorem SymbolTable.AddsTemporaries.size_lt_attr
    {table after : SymbolTable} {id : Identifier}
    (hadds : table.AddsTemporaries after)
    (huser : table.IsUser)
    (hid : after.Declares id)
    (hprogram : id.provenance = .program) :
    table.size < id.attr := by
  by_contra hle
  obtain ⟨n, hn⟩ := Nat.exists_eq_succ_of_ne_zero id.positive.ne'
  have hrow : n < table.rows.length := by
    change ¬table.rows.length < id.attr at hle
    omega
  have hget : table.get? id.attr = some table.rows[n] := by
    rw [hn]
    exact List.getElem?_eq_getElem hrow
  rcases hid with ⟨row, hrow', _, hprovenance⟩
  obtain rfl := Option.some.inj
    ((hadds.extends.get?_eq hget).symm.trans hrow')
  have := huser _ (SymbolTable.mem_rows_of_get? hget)
  rw [hprovenance, hprogram] at this
  contradiction

/-- What is asked of the code of a tree, with the tables before and after
it. -/
structure Tree.HasWellFormedCode (tree : Tree) (mode : Mode)
    (before : SymbolTable) (code : List Command) (after : SymbolTable) :
    Prop where
  addsTemporaries : before.AddsTemporaries after
  /-- The operators and their types, in post-order. -/
  operators : code.map (fun c => (c.operator, some c.receiver.type)) =
    tree.nodes.filterMap fun node => node.1.operator?.map (·, node.2.type?)
  computes : ∃ value, tree.Computes code value
  receivers : ∀ c ∈ code, c.receiver.provenance = .program ∧
    before.size < c.receiver.attr ∧ c.receiver.attr ≤ after.size
  declares : ∀ c ∈ code, ∀ id ∈ c.identifiers, after.Declares id
  readsStored : Command.ReadsStored code
  typed : ∀ c ∈ code, c.IsTyped
  inOrder : mode = .plain →
    ∀ k c, code[k]? = some c → c.receiver.attr = before.size + 1 + k
  once : mode = .plain → ∀ attr, before.size < attr → attr ≤ after.size →
    ∃! k : Nat, ∃ c, code[k]? = some c ∧ c.receiver.attr = attr

theorem existsUnique_receiver
    {before after : SymbolTable} {code : List Command}
    (hsize : after.size = before.size + code.length)
    (horder : ∀ k c,
      code[k]? = some c → c.receiver.attr = before.size + 1 + k)
    {attr : Nat}
    (hbefore : before.size < attr)
    (hafter : attr ≤ after.size) :
    ∃! k : Nat, ∃ c, code[k]? = some c ∧ c.receiver.attr = attr := by
  have hk : attr - (before.size + 1) < code.length := by omega
  have hget := List.getElem?_eq_getElem hk
  refine ⟨attr - (before.size + 1), ⟨_, hget, ?_⟩, ?_⟩
  · rw [horder _ _ hget]
    omega
  · rintro k ⟨c, hc, hattr⟩
    have := horder k c hc
    omega

/-- The code of a compiled expression is well formed in every mode in which it
is generated.  The table is the old one with temporaries behind it.  The
commands are the operators of the tree in post-order and compute it; they
write temporaries of the new rows only, agree with the table on every
identifier, read no temporary that no earlier command wrote, and fit the types
of their operands.  In plain mode they write the new rows one after the other,
and each of them once. -/
theorem generate_hasWellFormedCode
    {source : String} {c : Compiled} {mode : Mode} {code : List Command}
    {after : SymbolTable}
    (hcompile : compile source = .ok c)
    (hgenerate : c.generate mode = .ok (code, after)) :
    ∃ tree, Tree.prepare mode c.tree = .ok tree ∧
      tree.HasWellFormedCode mode c.symbols code after := by
  rcases exists_isSound hcompile with ⟨parsed, hsound⟩
  rcases hsound.generate_cases mode with
    ⟨e, _, herror⟩ | ⟨tree, lowered, hprepare, hlower, hlinked, hok⟩
  · rw [herror] at hgenerate
    contradiction
  · obtain ⟨rfl, rfl⟩ :=
      Prod.mk.inj (Except.ok.inj (hok.symm.trans hgenerate))
    rcases hsound.consistent.prepare hprepare with ⟨htree, hids⟩
    have huser : ∀ id ∈ tree.identifiers, id.provenance = .user :=
      fun id hid =>
      hsound.isUser.provenance_eq (hsound.declares id (hids hid))
    rcases htree.lower_computes hlower with ⟨value, _, hcomputes⟩
    have hplain : mode = .plain →
        lowered.table.size = c.symbols.size + lowered.code.length ∧
        ∀ k d, lowered.code[k]? = some d →
          d.receiver.attr = c.symbols.size + 1 + k := by
      rintro rfl
      refine ⟨?_, ?_⟩
      · rw [Tree.size_of_lower_plain hlower, Tree.length_code_of_lower hlower]
      · intro k d hd
        have hreceivers :=
          congrArg (·[k]?) (Tree.receivers_of_lower_plain hlower)
        have hk : k < lowered.code.length :=
          (List.getElem?_eq_some_iff.mp hd).1
        simpa [hd, List.getElem?_range' hk] using hreceivers
    refine ⟨tree, hprepare, hlinked.addsTemporaries, hcomputes.operators_eq,
      ⟨value, hcomputes⟩, ?_, hlinked.code, hcomputes.readsStored huser,
      hcomputes.isTyped htree, fun hmode => (hplain hmode).2, ?_⟩
    · intro d hd
      have hprogram := hcomputes.provenance_eq d hd
      have hdeclares := hlinked.code d hd d.receiver List.mem_cons_self
      exact ⟨hprogram,
        hlinked.addsTemporaries.size_lt_attr hsound.isUser hdeclares hprogram,
        hdeclares.attr_le_size⟩
    · intro hmode attr hbefore hafter
      exact existsUnique_receiver (hplain hmode).1
        (hplain hmode).2 hbefore hafter

/-- The product is written over by the sum in optimal mode; in plain mode each
of the four commands has a row of its own. -/
theorem generate_hasWellFormedCode_converted_sum :
    ∃ c reused reusedTable fresh freshTable,
      compile "(a + 2 * b) / x[f]" = .ok c ∧
      c.generate .optimal = .ok (reused, reusedTable) ∧
      reused.map Command.text =
        ["mul <id,4> 2 <id,2>", "add <id,4> <id,1> <id,4>",
          "i2f <id,5> <id,4>", "div <id,5> <id,5> <id,3>"] ∧
      (∃ tree, Tree.prepare .optimal c.tree = .ok tree ∧
        tree.HasWellFormedCode .optimal c.symbols reused reusedTable) ∧
      c.generate .plain = .ok (fresh, freshTable) ∧
      fresh.map (·.receiver.attr) = [4, 5, 6, 7] ∧
      ∃ tree, Tree.prepare .plain c.tree = .ok tree ∧
        tree.HasWellFormedCode .plain c.symbols fresh freshTable := by
  have hcode : (compile "(a + 2 * b) / x[f]").toOption.map (fun c =>
      ((c.generate .optimal).toOption.map fun out => out.1.map Command.text,
        (c.generate .plain).toOption.map fun out =>
          out.1.map (·.receiver.attr))) =
      some (some ["mul <id,4> 2 <id,2>", "add <id,4> <id,1> <id,4>",
          "i2f <id,5> <id,4>", "div <id,5> <id,5> <id,3>"],
        some [4, 5, 6, 7]) := by
    decide +kernel
  obtain ⟨c, hcompile, hc⟩ := Success.exists_of_toOption hcode
  obtain ⟨hreused, hfresh⟩ := Prod.mk.inj hc
  obtain ⟨⟨reused, reusedTable⟩, hoptimal, htexts⟩ :=
    Success.exists_of_toOption hreused
  obtain ⟨⟨fresh, freshTable⟩, hplain, hattrs⟩ :=
    Success.exists_of_toOption hfresh
  exact ⟨c, reused, reusedTable, fresh, freshTable, hcompile, hoptimal,
    htexts, generate_hasWellFormedCode hcompile hoptimal, hplain, hattrs,
    generate_hasWellFormedCode hcompile hplain⟩

end ThreeAddress
