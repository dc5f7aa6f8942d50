import ThreeAddress.Command.Generate
import ThreeAddress.Proofs.Execution
import ThreeAddress.Proofs.Symbols
import ThreeAddress.Proofs.Typing

/-!
# Lowered code carries out its tree

The course of a tree is read off the tree itself: operands are evaluated from
left to right, and every operator writes one line.  Lowered code takes that
course in either mode.  The argument is the same for fresh and for reused
receivers, because the receivers of a subtree are rows behind the table that
its lowering starts from: whatever was computed before is left alone.
-/

namespace ThreeAddress

/-- The cell that an operand stands for, if the symbols have the given cells.
Any other token counts as zero. -/
def Token.cell (cellOf : Nat → Cell) (t : Token) : Cell :=
  match t.kind with
  | .number literal => literal.cell
  | .identifier id => cellOf id.attr
  | _ => .zero .integer

namespace Tree

/-- The course of a tree with resolved types, if the symbols have the given
cells. -/
def course (cellOf : Nat → Cell) : Tree → Course Cell
  | .leaf t _ => .value (t.cell cellOf)
  | .leftOnly _ _ l => l.course cellOf
  | .rightOnly _ _ r =>
    (r.course cellOf).bind fun x => .ofStep (.ok (Machine.converted x))
  | .binary t res l r =>
    (l.course cellOf).bind fun x =>
      (r.course cellOf).bind fun y =>
        .ofStep (Machine.computed (res.type?.getD .float)
          (t.operator?.getD .toFloat) x y)

/-! ## Receivers -/

/-- What is known of a receiver: it is a new row of the right type, or an
operand that is a temporary of that type. -/
structure IsReceiver (type : ValueType) (operands : List Token)
    (table : SymbolTable) (id : Identifier) (after : SymbolTable) : Prop where
  type_eq : id.type = type
  provenance_eq : id.provenance = .program
  row : (id.attr = table.size + 1 ∧ ∃ name,
      after = table.push ⟨name, type, .program⟩) ∨
    (after = table ∧ ∃ t ∈ operands, t.identifier? = some id)

theorem isReceiver_defineTemporary
    (type : ValueType) (operands : List Token) (table : SymbolTable) :
    IsReceiver type operands table (table.defineTemporary type).1
      (table.defineTemporary type).2 :=
  ⟨rfl, rfl, .inl ⟨rfl, _, rfl⟩⟩

theorem isReceiver_receiver
    (mode : Mode) (type : ValueType) (left right : Option Token)
    (table : SymbolTable) :
    IsReceiver type (left.toList ++ right.toList) table
      (receiver mode type left right table).1
      (receiver mode type left right table).2 := by
  cases mode with
  | plain => exact isReceiver_defineTemporary type _ table
  | optimal =>
      cases hreusable : reusable? type left right with
      | none =>
          simp only [receiver, hreusable]
          exact isReceiver_defineTemporary type _ table
      | some id =>
          simp only [receiver, hreusable]
          have hfound := List.find?_some hreusable
          obtain ⟨t, ht, hid⟩ :=
            List.mem_filterMap.mp (List.mem_of_find?_eq_some hreusable)
          obtain ⟨hprovenance, htype⟩ :
              id.provenance = .program ∧ id.type = type := by
                simpa using hfound
          exact ⟨htype, hprovenance, .inr ⟨rfl, t, ht, hid⟩⟩

theorem IsReceiver.addsTemporaries
    {type : ValueType} {operands : List Token} {table after : SymbolTable}
    {id : Identifier}
    (h : IsReceiver type operands table id after) :
    table.AddsTemporaries after := by
  rcases h.row with ⟨_, name, rfl⟩ | ⟨rfl, _⟩
  · exact SymbolTable.addsTemporaries_push _ _ _
  · exact .refl after

/-! ## The command of a node -/

theorem emit_binary
    (mode : Mode) {t lt rt : Token} {res : Resolution} {op : Operator}
    {type : ValueType} {a b : Operand}
    (ht : t.operator? = some op)
    (hres : res.type? = some type)
    (ha : Operand.ofToken lt = .ok a)
    (hb : Operand.ofToken rt = .ok b)
    (code : List Command) (table : SymbolTable) :
    ∃ id after, IsReceiver type [lt, rt] table id after ∧
      emit mode t res (some lt) (some rt) code table =
        .ok ⟨.synthesized (.identifier id), code ++ [⟨op, id, .both a b⟩],
          after⟩ := by
  refine ⟨_, _, isReceiver_receiver mode type (some lt) (some rt) table, ?_⟩
  simp only [emit, hres, Command.ofTokens, ht, Command.readOperand, ha, hb]
  rfl

theorem emit_cast
    (mode : Mode) {t rt : Token} {a : Operand}
    (ht : t.operator? = some .toFloat)
    (ha : Operand.ofToken rt = .ok a)
    (code : List Command) (table : SymbolTable) :
    ∃ id after, IsReceiver .float [rt] table id after ∧
      emit mode t .float none (some rt) code table =
        .ok ⟨.synthesized (.identifier id),
          code ++ [⟨.toFloat, id, .right a⟩],
          after⟩ := by
  refine ⟨_, _, isReceiver_receiver mode .float none (some rt) table, ?_⟩
  simp only [emit, Resolution.type?, Command.ofTokens, ht,
    Command.readOperand, ha]
  rfl

theorem exists_operand
    {t : Token}
    (h : t.isOperand = true) :
    ∃ a, Operand.ofToken t = .ok a := by
  cases hkind : t.kind with
  | operator op | bracket side => simp [Token.isOperand, hkind] at h
  | number literal =>
      exact ⟨.number literal, by simp [Operand.ofToken, hkind]⟩
  | identifier id => exact ⟨.identifier id, by simp [Operand.ofToken, hkind]⟩

theorem read_eq_of_cell?_eq
    {t : Token} {a : Operand} {machine other : Machine}
    (ha : Operand.ofToken t = .ok a)
    (hcells : ∀ id, t.identifier? = some id →
      other.cell? id.attr = machine.cell? id.attr) :
    other.read a = machine.read a := by
  cases hkind : t.kind with
  | operator op | bracket side => simp [Operand.ofToken, hkind] at ha
  | number literal =>
      obtain rfl : Operand.number literal = a := by
        simpa [Operand.ofToken, hkind] using ha
      rfl
  | identifier id =>
      obtain rfl : Operand.identifier id = a := by
        simpa [Operand.ofToken, hkind] using ha
      have hcell := hcells id (by simp [Token.identifier?, hkind])
      simp [Machine.read, hcell]

theorem read_of_token_cell
    {cellOf : Nat → Cell} {t : Token} {a : Operand} {machine : Machine}
    (ha : Operand.ofToken t = .ok a)
    (hcells : ∀ id, t.identifier? = some id →
      machine.cell? id.attr = some (cellOf id.attr)) :
    machine.read a = .ok (t.cell cellOf) := by
  cases hkind : t.kind with
  | operator op | bracket side => simp [Operand.ofToken, hkind] at ha
  | number literal =>
      obtain rfl : Operand.number literal = a := by
        simpa [Operand.ofToken, hkind] using ha
      simp [Machine.read, Token.cell, hkind]
  | identifier id =>
      obtain rfl : Operand.identifier id = a := by
        simpa [Operand.ofToken, hkind] using ha
      have hcell := hcells id (by simp [Token.identifier?, hkind])
      simp [Machine.read, hcell, Token.cell, hkind]

/-! ## Lowered subtrees -/

/-- What is known of a lowered subtree: the rows it adds stand behind those of
the table it starts from, and so does the temporary that holds its value. -/
structure IsLowered (table : SymbolTable) (lowered : Lowered) : Prop where
  addsTemporaries : table.AddsTemporaries lowered.table
  operand : ∃ a, Operand.ofToken lowered.token = .ok a
  bounded : ∀ id, lowered.token.identifier? = some id →
    id.attr ≤ lowered.table.size
  fresh : ∀ id, lowered.token.identifier? = some id →
    id.provenance = .program → table.size < id.attr

/-- The machine in which the value of a subtree has been reached: its token
reads as the value, which is the latest result unless the subtree is a leaf,
and the rows up to the bound are as they were. -/
structure Reached (isLeaf : Bool) (bound : Nat) (before : Machine)
    (token : Token) (cell : Cell) (after : Machine) : Prop where
  length_eq : after.cells.length = before.cells.length
  frame : ∀ attr ≤ bound, after.cell? attr = before.cell? attr
  reads : ∀ a, Operand.ofToken token = .ok a → after.read a = .ok cell
  result : isLeaf = false → after.result? = some cell

/-- A lowered subtree, with the course that its code takes on every machine
which has the cells of its identifiers. -/
structure Realizes (cellOf : Nat → Cell) (tree : Tree) (table : SymbolTable)
    (lowered : Lowered) : Prop extends IsLowered table lowered where
  follows : ∀ machine : Machine, lowered.table.size ≤ machine.cells.length →
    (∀ id ∈ tree.identifiers, machine.cell? id.attr = some (cellOf id.attr)) →
      Machine.Follows (machine.execute none lowered.code) (tree.course cellOf)
        (Reached tree.isLeaf table.size machine lowered.token)

/-- The identifiers of a tree are the user's, and their rows are in the
table. -/
def UsesRows (tree : Tree) (table : SymbolTable) : Prop :=
  ∀ id ∈ tree.identifiers, id.provenance = .user ∧ id.attr ≤ table.size

theorem usesRows_rightOnly
    {t : Token}
    (ht : t.identifier? = none)
    {res : Resolution} {r : Tree} {table : SymbolTable} :
    (Tree.rightOnly t res r).UsesRows table ↔ r.UsesRows table := by
  rw [UsesRows, identifiers_rightOnly ht, UsesRows]

theorem usesRows_binary
    {t : Token}
    (ht : t.identifier? = none)
    {res : Resolution} {l r : Tree} {table : SymbolTable} :
    (Tree.binary t res l r).UsesRows table ↔
      l.UsesRows table ∧ r.UsesRows table := by
  rw [UsesRows, identifiers_binary ht, List.forall_mem_append,
    UsesRows, UsesRows]

theorem UsesRows.mono
    {tree : Tree} {table after : SymbolTable}
    (h : tree.UsesRows table)
    (hadds : table.AddsTemporaries after) :
    tree.UsesRows after := by
  intro id hid
  obtain ⟨huser, hattr⟩ := h id hid
  exact ⟨huser, hattr.trans hadds.size_le⟩

theorem realizes_leaf
    {t : Token}
    (ht : t.isOperand = true)
    (res : Resolution) {table : SymbolTable} (cellOf : Nat → Cell)
    (huses : (Tree.leaf t res).UsesRows table) :
    Realizes cellOf (.leaf t res) table ⟨t, [], table⟩ := by
  have hid :
      ∀ id, t.identifier? = some id → id ∈ (Tree.leaf t res).identifiers := by
    intro id hid
    simp [hid]
  refine ⟨⟨.refl table, exists_operand ht, ?_, ?_⟩, ?_⟩
  · intro id h
    exact (huses id (hid id h)).2
  · intro id h hprogram
    have huser := (huses id (hid id h)).1
    simp [huser] at hprogram
  · intro machine _ hcells
    refine ⟨rfl, rfl, rfl, fun _ _ => rfl, ?_, by simp [isLeaf]⟩
    intro a ha
    exact read_of_token_cell ha fun id h => hcells id (hid id h)

theorem IsReceiver.size_lt
    {type : ValueType} {operands : List Token}
    {base table after : SymbolTable} {id : Identifier}
    (h : IsReceiver type operands table id after)
    (hbase : base.AddsTemporaries table)
    (hoperands : ∀ t ∈ operands, ∀ id, t.identifier? = some id →
      id.provenance = .program → base.size < id.attr) :
    base.size < id.attr := by
  rcases h.row with ⟨hattr, _⟩ | ⟨_, t, ht, hid⟩
  · have := hbase.size_le
    omega
  · exact hoperands t ht id hid h.provenance_eq

theorem IsReceiver.attr_le
    {type : ValueType} {operands : List Token} {table after : SymbolTable}
    {id : Identifier}
    (h : IsReceiver type operands table id after)
    (hoperands : ∀ t ∈ operands, ∀ id, t.identifier? = some id →
      id.attr ≤ table.size) :
    id.attr ≤ after.size := by
  rcases h.row with ⟨hattr, name, rfl⟩ | ⟨rfl, t, ht, hid⟩
  · simp [hattr]
  · exact hoperands t ht id hid

theorem isLowered_receiver
    {base after : SymbolTable} {id : Identifier}
    (hadds : base.AddsTemporaries after)
    (hattr : id.attr ≤ after.size)
    (hfresh : base.size < id.attr)
    (code : List Command) :
    IsLowered base ⟨.synthesized (.identifier id), code, after⟩ := by
  have hid :
      ∀ other, (Token.synthesized (.identifier id)).identifier? = some other →
      id = other := by
    intro other h
    simpa [Token.synthesized, Token.identifier?] using h
  refine ⟨hadds, ⟨.identifier id, rfl⟩, ?_, ?_⟩
  · intro other h
    rw [← hid other h]
    exact hattr
  · intro other h _
    rw [← hid other h]
    exact hfresh

/-- The receiver of an operator stands behind the table that its operands were
lowered from, and in the table that comes of it. -/
theorem IsReceiver.bounds
    {type : ValueType} {table after : SymbolTable} {left right : Lowered}
    {id : Identifier}
    (hleft : IsLowered table left)
    (hright : IsLowered left.table right)
    (h : IsReceiver type [left.token, right.token] right.table id after) :
    table.size < id.attr ∧ id.attr ≤ after.size := by
  have hadds := hleft.addsTemporaries
  constructor
  · refine h.size_lt (hadds.trans hright.addsTemporaries) ?_
    simp only [List.mem_cons, List.not_mem_nil, or_false]
    rintro token (rfl | rfl) other hother hprogram
    · exact hleft.fresh other hother hprogram
    · exact hadds.size_le.trans_lt (hright.fresh other hother hprogram)
  · refine h.attr_le ?_
    simp only [List.mem_cons, List.not_mem_nil, or_false]
    rintro token (rfl | rfl) other hother
    · exact (hleft.bounded other hother).trans hright.addsTemporaries.size_le
    · exact hright.bounded other hother

theorem reached_store
    {bound : Nat} {before machine : Machine} {id : Identifier}
    (hlength : machine.cells.length = before.cells.length)
    (hframe : ∀ attr ≤ bound, machine.cell? attr = before.cell? attr)
    (hbound : bound < id.attr)
    (hattr : id.attr ≤ machine.cells.length)
    (cell : Cell) :
    Reached false bound before (.synthesized (.identifier id)) cell
      (machine.store id.attr cell) := by
  refine ⟨by simpa using hlength, ?_, ?_,
    fun _ => Machine.result?_store id.positive hattr cell⟩
  · intro attr hle
    rw [Machine.cell?_store_of_ne id.positive (by omega), hframe attr hle]
  · intro a ha
    obtain rfl : Operand.identifier id = a := by
      simpa [Operand.ofToken, Token.synthesized] using ha
    simp [Machine.read, Machine.cell?_store_self id.positive hattr]

theorem realizes_cast
    (mode : Mode) {cellOf : Nat → Cell} {t : Token} {r : Tree}
    {table : SymbolTable} {low : Lowered}
    (ht : t.operator? = some .toFloat)
    (hlow : Realizes cellOf r table low) :
    ∃ lowered, emit mode t .float none (some low.token) low.code low.table =
        .ok lowered ∧
      Realizes cellOf (.rightOnly t .float r) table lowered := by
  obtain ⟨a, ha⟩ := hlow.operand
  obtain ⟨id, after, hreceiver, hemit⟩ :=
    emit_cast mode ht ha low.code low.table
  have hfresh : table.size < id.attr :=
    hreceiver.size_lt hlow.addsTemporaries (by simpa using hlow.fresh)
  have hattr : id.attr ≤ after.size :=
    hreceiver.attr_le (by simpa using hlow.bounded)
  have hadds := hlow.addsTemporaries.trans hreceiver.addsTemporaries
  refine ⟨_, hemit, isLowered_receiver hadds hattr hfresh _, ?_⟩
  intro machine hlength hcells
  have hrows := hreceiver.addsTemporaries.size_le
  rw [identifiers_rightOnly (Token.identifier?_of_operator? ht)] at hcells
  refine (hlow.follows machine (hrows.trans hlength) hcells).append ?_
  intro x middle hx
  have hattr' : id.attr ≤ middle.cells.length := by
    rw [hx.length_eq]
    exact hattr.trans hlength
  refine Machine.follows_step (Machine.step_convert hattr' (hx.reads a ha)) ?_
  intro cell
  exact reached_store hx.length_eq hx.frame hfresh hattr' cell

theorem realizes_binary
    (mode : Mode) {cellOf : Nat → Cell} {t : Token} {res : Resolution}
    {type : ValueType} {l r : Tree} {table : SymbolTable}
    {left right : Lowered}
    (ht : t.IsArithmetic)
    (hres : res.type? = some type)
    (huses : r.UsesRows table)
    (hleft : Realizes cellOf l table left)
    (hright : Realizes cellOf r left.table right) :
    ∃ lowered, emit mode t res (some left.token) (some right.token)
        (left.code ++ right.code) right.table = .ok lowered ∧
      Realizes cellOf (.binary t res l r) table lowered := by
  obtain ⟨op, hop, hne⟩ := ht
  obtain ⟨a, ha⟩ := hleft.operand
  obtain ⟨b, hb⟩ := hright.operand
  obtain ⟨id, after, hreceiver, hemit⟩ :=
    emit_binary mode hop hres ha hb (left.code ++ right.code) right.table
  obtain ⟨hfresh, hattr⟩ :=
    hreceiver.bounds hleft.toIsLowered hright.toIsLowered
  have haddsLeft := hleft.addsTemporaries
  have haddsRight := haddsLeft.trans hright.addsTemporaries
  have hadds := haddsRight.trans hreceiver.addsTemporaries
  refine ⟨_, hemit, isLowered_receiver hadds hattr hfresh _, ?_⟩
  intro machine hlength hcells
  change after.size ≤ machine.cells.length at hlength
  have hrows := hreceiver.addsTemporaries.size_le
  have hrowsLeft := hright.addsTemporaries.size_le
  rw [identifiers_binary (Token.identifier?_of_operator? hop)] at hcells
  rw [List.append_assoc]
  have hrunLeft := hleft.follows machine (by omega) fun id hid =>
    hcells id (List.mem_append_left _ hid)
  refine hrunLeft.append ?_
  intro x middle hx
  have hcellsRight : ∀ id ∈ r.identifiers,
      middle.cell? id.attr = some (cellOf id.attr) := by
    intro id hid
    rw [hx.frame id.attr (huses id hid).2]
    exact hcells id (List.mem_append_right _ hid)
  have hrunRight :=
    hright.follows middle (by rw [hx.length_eq]; omega) hcellsRight
  refine hrunRight.append ?_
  intro y final hy
  -- The left value is still there: the right subtree writes only rows behind
  -- it.
  have hsame : final.read a = middle.read a :=
    read_eq_of_cell?_eq ha fun other hother =>
      hy.frame other.attr (hleft.bounded other hother)
  have hreadLeft : final.read a = .ok x := hsame.trans (hx.reads a ha)
  have hlengthFinal : final.cells.length = machine.cells.length :=
    hy.length_eq.trans hx.length_eq
  have hattr' : id.attr ≤ final.cells.length := by
    rw [hlengthFinal]
    exact hattr.trans hlength
  have hstep := Machine.step_compute hne hattr' hreadLeft (hy.reads b hb)
  rw [hreceiver.type_eq] at hstep
  simp only [hres, hop, Option.getD_some]
  refine Machine.follows_step hstep ?_
  intro cell
  refine reached_store hlengthFinal ?_ hfresh hattr' cell
  intro attr hle
  rw [hy.frame attr (hle.trans haddsLeft.size_le), hx.frame attr hle]

theorem exists_lower_realizes_with
    (mode : Mode) (cellOf : Nat → Cell) {tree : Tree}
    (htree : tree.Consistent)
    {table : SymbolTable}
    (huses : tree.UsesRows table) :
    ∃ lowered, lower mode tree table = .ok lowered ∧
      Realizes cellOf tree table lowered := by
  induction tree generalizing table with
  | leaf t res => exact ⟨_, rfl, realizes_leaf htree.1 res cellOf huses⟩
  | leftOnly t res l ih => exact htree.elim
  | rightOnly t res r ih =>
      obtain ⟨ht, rfl, _, hr⟩ := htree
      have husesRight :=
        (usesRows_rightOnly (Token.identifier?_of_operator? ht)).mp huses
      obtain ⟨low, hlower, hlow⟩ := ih hr husesRight
      obtain ⟨lowered, hemit, hlowered⟩ := realizes_cast mode ht hlow
      exact ⟨lowered, by simpa [lower, hlower] using hemit, hlowered⟩
  | binary t res l r ihl ihr =>
      obtain ⟨ht, hl, hr, hconsl, hconsr⟩ := htree
      obtain ⟨husesLeft, husesRight⟩ :=
        (usesRows_binary ht.identifier?_eq).mp huses
      obtain ⟨type, htype⟩ : ∃ type, res.type? = some type := by
        rw [← hl]
        rcases hconsl.result_cases with h | h <;> exact ⟨_, by rw [h]; rfl⟩
      obtain ⟨left, hlowerLeft, hleft⟩ := ihl hconsl husesLeft
      obtain ⟨right, hlowerRight, hright⟩ :=
        ihr hconsr (husesRight.mono hleft.addsTemporaries)
      obtain ⟨lowered, hemit, hlowered⟩ :=
        realizes_binary mode ht htype husesRight hleft hright
      exact ⟨lowered, by simpa [lower, hlowerLeft, hlowerRight] using hemit,
        hlowered⟩

/-- Lowering a consistent tree succeeds in either mode, and its code takes the
course of the tree, whatever cells the symbols have. -/
theorem exists_lower_realizes
    (mode : Mode) {tree : Tree}
    (htree : tree.Consistent)
    {table : SymbolTable}
    (huses : tree.UsesRows table) :
    ∃ lowered, lower mode tree table = .ok lowered ∧
      ∀ cellOf, Realizes cellOf tree table lowered := by
  obtain ⟨lowered, hlower, _⟩ :=
    exists_lower_realizes_with mode (fun _ => .zero .integer) htree huses
  refine ⟨lowered, hlower, ?_⟩
  intro cellOf
  obtain ⟨other, hother, hrealizes⟩ :=
    exists_lower_realizes_with mode cellOf htree huses
  obtain rfl : other = lowered := Except.ok.inj (hother.symm.trans hlower)
  exact hrealizes

end Tree

end ThreeAddress
