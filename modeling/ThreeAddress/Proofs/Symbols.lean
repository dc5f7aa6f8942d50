import Mathlib.Tactic
import ThreeAddress.Program
import ThreeAddress.Proofs.Success
import ThreeAddress.Token.Scan

/-!
# Identifiers and the rows they refer to

An identifier carries the type and the provenance of its row.  The scanner
makes an identifier from the row that it has just found or added, and rows are
only ever added at the end, so that every identifier of a scanned text refers
to a row of the final table.
-/

namespace ThreeAddress

namespace SymbolTable

/-- The identifier refers to a row and agrees with it. -/
def Declares (table : SymbolTable) (id : Identifier) : Prop :=
  ∃ row, table.get? id.attr = some row ∧ row.type = id.type ∧
    row.provenance = id.provenance

def IsUser (table : SymbolTable) : Prop :=
  ∀ row ∈ table.rows, row.provenance = .user

theorem isUser_empty : IsUser .empty := by
  simp [IsUser, empty]

/-- The other table has the same rows, and possibly more behind them. -/
def Extends (table other : SymbolTable) : Prop := table.rows <+: other.rows

theorem Extends.refl
    (table : SymbolTable) :
    table.Extends table :=
  List.prefix_rfl

theorem Extends.trans
    {first second third : SymbolTable}
    (h : first.Extends second)
    (h' : second.Extends third) :
    first.Extends third :=
  List.IsPrefix.trans h h'

theorem extends_push
    (table : SymbolTable) (row : SymbolRow) :
    table.Extends (table.push row) :=
  List.prefix_append _ _

theorem Extends.size_le
    {table other : SymbolTable}
    (h : table.Extends other) :
    table.size ≤ other.size :=
  List.IsPrefix.length_le h

@[simp] theorem size_push
    (table : SymbolTable) (row : SymbolRow) :
    (table.push row).size = table.size + 1 := by
  simp [size, push]

theorem get?_size_add_one_push
    (table : SymbolTable) (row : SymbolRow) :
    (table.push row).get? (table.size + 1) = some row := by
  simp [get?, push, size]

theorem Extends.get?_eq
    {table other : SymbolTable}
    (h : table.Extends other)
    {attr : Nat} {row : SymbolRow}
    (hrow : table.get? attr = some row) :
    other.get? attr = some row := by
  cases attr with
  | zero => simp [get?] at hrow
  | succ n =>
      obtain ⟨hn, hget⟩ := List.getElem?_eq_some_iff.mp hrow
      have hsame := List.IsPrefix.getElem h hn
      have hn' : n < other.rows.length :=
        hn.trans_le (List.IsPrefix.length_le h)
      exact List.getElem?_eq_some_iff.mpr ⟨hn', hsame.symm.trans hget⟩

theorem Extends.declares
    {table other : SymbolTable}
    (h : table.Extends other)
    {id : Identifier}
    (hid : table.Declares id) :
    other.Declares id := by
  obtain ⟨row, hrow, htype, hprovenance⟩ := hid
  exact ⟨row, h.get?_eq hrow, htype, hprovenance⟩

/-- The other table has temporaries behind the rows of this one. -/
def AddsTemporaries (table other : SymbolTable) : Prop :=
  ∃ temporaries, other.rows = table.rows ++ temporaries ∧
    ∀ row ∈ temporaries, row.provenance = .program

theorem AddsTemporaries.refl
    (table : SymbolTable) :
    table.AddsTemporaries table :=
  ⟨[], by simp, by simp⟩

theorem AddsTemporaries.trans
    {first second third : SymbolTable}
    (h : first.AddsTemporaries second)
    (h' : second.AddsTemporaries third) :
    first.AddsTemporaries third := by
  obtain ⟨rows, hrows, hprogram⟩ := h
  obtain ⟨rows', hrows', hprogram'⟩ := h'
  refine ⟨rows ++ rows', by rw [hrows', hrows, List.append_assoc], ?_⟩
  intro row hrow
  rcases List.mem_append.mp hrow with hmem | hmem
  · exact hprogram row hmem
  · exact hprogram' row hmem

theorem addsTemporaries_push
    (table : SymbolTable) (name : String) (type : ValueType) :
    table.AddsTemporaries (table.push ⟨name, type, .program⟩) :=
  ⟨[⟨name, type, .program⟩], rfl, by simp⟩

theorem AddsTemporaries.extends
    {table other : SymbolTable}
    (h : table.AddsTemporaries other) :
    table.Extends other := by
  obtain ⟨rows, hrows, _⟩ := h
  rw [Extends, hrows]
  exact List.prefix_append _ _

theorem AddsTemporaries.size_le
    {table other : SymbolTable}
    (h : table.AddsTemporaries other) :
    table.size ≤ other.size :=
  h.extends.size_le

theorem get?_eq_some_iff
    {table : SymbolTable} {attr : Nat} {row : SymbolRow} :
    table.get? attr = some row ↔
      ∃ n, attr = n + 1 ∧ table.rows[n]? = some row := by
  cases attr <;> simp [get?]

theorem mem_rows_of_get?
    {table : SymbolTable} {attr : Nat} {row : SymbolRow}
    (h : table.get? attr = some row) :
    row ∈ table.rows := by
  obtain ⟨n, _, hget⟩ := get?_eq_some_iff.mp h
  exact List.mem_of_getElem? hget

theorem le_size_of_get?
    {table : SymbolTable} {attr : Nat} {row : SymbolRow}
    (h : table.get? attr = some row) :
    attr ≤ table.size := by
  obtain ⟨n, hn, hget⟩ := get?_eq_some_iff.mp h
  have := (List.getElem?_eq_some_iff.mp hget).1
  simp only [size]
  omega

theorem Declares.attr_le_size
    {table : SymbolTable} {id : Identifier}
    (h : table.Declares id) :
    id.attr ≤ table.size := by
  obtain ⟨row, hrow, _⟩ := h
  exact le_size_of_get? hrow

theorem IsUser.provenance_eq
    {table : SymbolTable}
    (h : table.IsUser)
    {id : Identifier}
    (hid : table.Declares id) :
    id.provenance = .user := by
  obtain ⟨row, hrow, _, hprovenance⟩ := hid
  rw [← hprovenance]
  exact h row (mem_rows_of_get? hrow)

theorem get?_of_lookup?
    {table : SymbolTable} {name : String} {attr : Nat} {row : SymbolRow}
    (h : table.lookup? name = some (attr, row)) :
    table.get? attr = some row := by
  have hmem : (attr, row) ∈ table.entries := List.mem_of_find?_eq_some h
  obtain ⟨⟨other, n⟩, hother, heq⟩ := List.mem_map.mp hmem
  obtain ⟨rfl, rfl⟩ : n + 1 = attr ∧ other = row := by simpa using heq
  exact List.mk_mem_zipIdx_iff_getElem?.mp hother

theorem name_of_lookup?
    {table : SymbolTable} {name : String} {attr : Nat} {row : SymbolRow}
    (h : table.lookup? name = some (attr, row)) :
    row.name = name := by
  simpa using List.find?_some h

theorem define_eq_ok_iff
    {table other : SymbolTable} {name : String} {type : ValueType}
    {provenance : Provenance} {attr : Nat} :
    table.define name type provenance = .ok (attr, other) ↔
      isName name.toList = true ∧ table.binds name = false ∧
        attr = table.size + 1 ∧
        other = table.push ⟨name, type, provenance⟩ := by
  unfold define
  split_ifs with hname hbinds
  · simp_all
  · simp [hbinds]
  · rw [Bool.not_eq_true, Bool.not_eq_false'] at hname
    rw [Bool.not_eq_true] at hbinds
    rw [Except.ok.injEq, Prod.mk.injEq]
    exact ⟨fun h => ⟨hname, hbinds, h.1.symm, h.2.symm⟩,
      fun h => ⟨h.2.2.1.symm, h.2.2.2.symm⟩⟩

end SymbolTable

theorem Identifier.make_eq_ok
    {attr : Nat} {type : ValueType} {provenance : Provenance}
    {id : Identifier}
    (h : Identifier.make attr type provenance = .ok id) :
    id.attr = attr ∧ id.type = type ∧ id.provenance = provenance := by
  unfold Identifier.make at h
  split at h
  · obtain rfl := Except.ok.inj h
    exact ⟨rfl, rfl, rfl⟩
  · contradiction

/-! ## The identifiers of a scanned text -/

namespace Lexeme

/-- What reading a lexeme adds to the tokens and to the table. -/
structure Reads (table : SymbolTable) (kind : TokenKind)
    (after : SymbolTable) :
    Prop where
  extends_after : table.Extends after
  isUser : table.IsUser → after.IsUser
  declares : table.IsUser → ∀ id, kind = .identifier id → after.Declares id
  plain : kind ≠ .operator .toFloat

theorem declare_eq_ok
    {table after : SymbolTable} {start attr : Nat} {lexeme name : String}
    {type : ValueType}
    (h : declare table start lexeme name type = .ok (attr, after)) :
    (∃ row, table.lookup? name = some (attr, row) ∧ row.type = type ∧
      after = table) ∨
      (table.lookup? name = none ∧ attr = table.size + 1 ∧
        after = table.push ⟨name, type, .user⟩) := by
  unfold declare at h
  split at h
  · next other row hlookup =>
      split at h
      · next htype =>
          obtain ⟨rfl, rfl⟩ : other = attr ∧ table = after := by simpa using h
          exact .inl ⟨row, hlookup, htype, rfl⟩
      · contradiction
  · next hlookup =>
      exact .inr ⟨hlookup,
        (SymbolTable.define_eq_ok_iff.mp
          (Success.mapError_eq_ok_iff.mp h)).2.2⟩

theorem reads_of_declare
    {table after : SymbolTable} {start : Nat} {lexeme name : String}
    {id : Identifier}
    (hprovenance : id.provenance = .user)
    (h : declare table start lexeme name id.type = .ok (id.attr, after)) :
    Reads table (.identifier id) after := by
  rcases declare_eq_ok h with ⟨row, hlookup, htype, rfl⟩ | ⟨_, hattr, rfl⟩
  · refine ⟨.refl after, fun huser => huser, ?_, by simp⟩
    rintro huser _ ⟨⟩
    have hrow := SymbolTable.get?_of_lookup? hlookup
    exact ⟨row, hrow, htype,
      (huser row (SymbolTable.mem_rows_of_get? hrow)).trans hprovenance.symm⟩
  · refine ⟨SymbolTable.extends_push _ _, ?_, ?_, by simp⟩
    · intro huser row hrow
      rcases List.mem_append.mp hrow with hold | hnew
      · exact huser row hold
      · obtain rfl : row = ⟨name, id.type, .user⟩ := by simpa using hnew
        rfl
    · rintro _ _ ⟨⟩
      refine ⟨⟨name, id.type, .user⟩, ?_, rfl, hprovenance.symm⟩
      rw [hattr]
      exact SymbolTable.get?_size_add_one_push _ _

/-- A run is read as an identifier that was declared, or as a number. -/
theorem readRun_eq_ok
    {table after : SymbolTable} {start : Nat} {text : List Char}
    {kind : TokenKind}
    (h : readRun table start text = .ok (kind, after)) :
    (∃ id name, kind = .identifier id ∧ id.provenance = .user ∧
        typedName? text = some (name, id.type) ∧
        declare table start (String.ofList text) name id.type =
          .ok (id.attr, after)) ∨
      ∃ literal, kind = .number literal ∧
        readNumber start text = .ok literal ∧
        after = table := by
  unfold readRun at h
  split at h
  · contradiction
  · split at h
    · unfold readIdentifier at h
      split at h
      · contradiction
      · next name type htyped =>
          simp only [Success.bind_eq_ok_iff, Success.mapError_eq_ok_iff,
            Success.pure_eq_ok_iff, Prod.exists, Prod.mk.injEq] at h
          obtain ⟨attr, table', hdeclare, id, hmake, rfl, rfl⟩ := h
          obtain ⟨rfl, rfl, hprovenance⟩ := Identifier.make_eq_ok hmake
          exact .inl ⟨id, name, rfl, hprovenance, htyped, hdeclare⟩
    · split at h
      · simp only [Success.bind_eq_ok_iff, Success.pure_eq_ok_iff,
          Prod.mk.injEq] at h
        obtain ⟨literal, hliteral, rfl, rfl⟩ := h
        exact .inr ⟨literal, rfl, hliteral, rfl⟩
      · contradiction

theorem readRun_reads
    {table after : SymbolTable} {start : Nat} {text : List Char}
    {kind : TokenKind}
    (h : readRun table start text = .ok (kind, after)) :
    Reads table kind after := by
  rcases readRun_eq_ok h with
    ⟨id, name, rfl, hprovenance, _, hdeclare⟩ | ⟨literal, rfl, _, rfl⟩
  · exact reads_of_declare hprovenance hdeclare
  · exact ⟨.refl after, fun huser => huser, by simp, by simp⟩

/-- A lexeme whose mark, if it is one, is a mark of the source. -/
def IsPlain : Lexeme → Prop
  | .mark _ kind => ∃ c, markKind? c = some kind
  | .run _ _ => True

theorem markKind?_plain
    {c : Char} {kind : TokenKind}
    (h : markKind? c = some kind) :
    kind ≠ .operator .toFloat ∧ ∀ id, kind ≠ .identifier id := by
  unfold markKind? at h
  split at h
  · simp [← Option.some.inj h]
  · simp [← Option.some.inj h]
  · obtain ⟨op, hop, rfl⟩ := Option.map_eq_some_iff.mp h
    refine ⟨?_, by simp⟩
    rintro ⟨⟩
    unfold Operator.ofChar? at hop
    split at hop <;> simp at hop

theorem isPlain_of_mem_extend
    {start : Nat} {c : Char} {rest : List Lexeme}
    (hrest : ∀ lexeme ∈ rest, lexeme.IsPlain) :
    ∀ lexeme ∈ extend start c rest, lexeme.IsPlain := by
  intro lexeme hmem
  unfold extend at hmem
  split at hmem
  · split at hmem
    · rcases List.mem_cons.mp hmem with rfl | htail
      · trivial
      · exact hrest lexeme (List.mem_cons_of_mem _ htail)
    · rcases List.mem_cons.mp hmem with rfl | htail
      · trivial
      · exact hrest lexeme htail
  · rcases List.mem_cons.mp hmem with rfl | htail
    · trivial
    · exact hrest lexeme htail

theorem isPlain_of_mem_cut
    {start : Nat} {text : List Char} :
    ∀ lexeme ∈ cut start text, lexeme.IsPlain := by
  induction text generalizing start with
  | nil => simp [cut]
  | cons c rest ih =>
      rw [cut]
      split
      · exact ih
      · split
        · next kind hkind =>
            intro lexeme hmem
            rcases List.mem_cons.mp hmem with rfl | htail
            · exact ⟨c, hkind⟩
            · exact ih lexeme htail
        · exact isPlain_of_mem_extend ih

theorem eq_of_placed
    {kind : TokenKind} {start : Nat} {token : Token}
    (h : Token.placed kind start = .ok token) :
    token = ⟨kind, some start⟩ := by
  unfold Token.placed at h
  split at h
  · contradiction
  · exact (Except.ok.inj h).symm

theorem read_mark_eq_ok
    {start : Nat} {kind : TokenKind} {table after : SymbolTable}
    {token : Token}
    (h : read table (.mark start kind) = .ok (token, after)) :
    token = ⟨kind, some start⟩ ∧ after = table := by
  simp only [read, Success.bind_eq_ok_iff, Success.mapError_eq_ok_iff,
    Success.pure_eq_ok_iff, Prod.mk.injEq] at h
  obtain ⟨placed, hplaced, rfl, rfl⟩ := h
  exact ⟨eq_of_placed hplaced, rfl⟩

theorem read_run_eq_ok
    {start : Nat} {text : List Char} {table after : SymbolTable}
    {token : Token}
    (h : read table (.run start text) = .ok (token, after)) :
    ∃ kind, token = ⟨kind, some start⟩ ∧
      readRun table start text = .ok (kind, after) := by
  simp only [read, Success.bind_eq_ok_iff, Success.mapError_eq_ok_iff,
    Success.pure_eq_ok_iff, Prod.exists, Prod.mk.injEq] at h
  obtain ⟨kind, table', hrun, placed, hplaced, rfl, rfl⟩ := h
  exact ⟨kind, eq_of_placed hplaced, hrun⟩

theorem readAll_cons_eq_ok
    {lexeme : Lexeme} {rest : List Lexeme} {table after : SymbolTable}
    {tokens : List Token}
    (h : readAll table (lexeme :: rest) = .ok (tokens, after)) :
    ∃ token middle others, lexeme.read table = .ok (token, middle) ∧
      readAll middle rest = .ok (others, after) ∧
      tokens = token :: others := by
  simp only [readAll, Success.bind_eq_ok_iff, Success.pure_eq_ok_iff,
    Prod.exists, Prod.mk.injEq] at h
  obtain ⟨token, middle, hread, others, final, hreadAll, rfl, rfl⟩ := h
  exact ⟨token, middle, others, hread, hreadAll, rfl⟩

theorem readAll_nil_eq_ok
    {table after : SymbolTable} {tokens : List Token}
    (h : readAll table [] = .ok (tokens, after)) :
    tokens = [] ∧ after = table := by
  obtain ⟨rfl, rfl⟩ : [] = tokens ∧ table = after := by
    simpa [readAll] using h
  exact ⟨rfl, rfl⟩

theorem read_reads
    {lexeme : Lexeme} {table after : SymbolTable} {token : Token}
    (hplain : lexeme.IsPlain)
    (h : lexeme.read table = .ok (token, after)) :
    Reads table token.kind after := by
  cases lexeme with
  | mark start kind =>
      obtain ⟨rfl, rfl⟩ := read_mark_eq_ok h
      obtain ⟨c, hc⟩ := hplain
      obtain ⟨hoperator, hidentifier⟩ := markKind?_plain hc
      exact ⟨.refl after, fun huser => huser,
        fun _ id hid => (hidentifier id hid).elim, hoperator⟩
  | run start text =>
      obtain ⟨kind, rfl, hrun⟩ := read_run_eq_ok h
      exact readRun_reads hrun

/-- Reading goes on with a table that only grows, so that the identifiers read
first refer to rows of the last table too. -/
theorem readAll_reads
    {lexemes : List Lexeme} {table after : SymbolTable}
    {tokens : List Token}
    (hplain : ∀ lexeme ∈ lexemes, lexeme.IsPlain)
    (huser : table.IsUser)
    (h : readAll table lexemes = .ok (tokens, after)) :
    table.Extends after ∧ after.IsUser ∧
      ∀ t ∈ tokens, t.kind ≠ .operator .toFloat ∧
        ∀ id, t.kind = .identifier id → after.Declares id := by
  induction lexemes generalizing table tokens with
  | nil =>
      obtain ⟨rfl, rfl⟩ := readAll_nil_eq_ok h
      exact ⟨.refl after, huser, by simp⟩
  | cons lexeme rest ih =>
      obtain ⟨hfirst, hrest⟩ := List.forall_mem_cons.mp hplain
      obtain ⟨token, middle, others, hread, hreadAll, rfl⟩ :=
        readAll_cons_eq_ok h
      have hreads := read_reads hfirst hread
      obtain ⟨hextends, hfinal, hothers⟩ :=
        ih hrest (hreads.isUser huser) hreadAll
      refine ⟨hreads.extends_after.trans hextends, hfinal, ?_⟩
      rw [List.forall_mem_cons]
      refine ⟨⟨hreads.plain, ?_⟩, hothers⟩
      intro id hid
      exact hextends.declares (hreads.declares huser id hid)

end Lexeme

/-- What scanning promises about its tokens and its table. -/
theorem scan_declares
    {source : String} {tokens : List Token} {table : SymbolTable}
    (h : scan source = .ok (tokens, table)) :
    table.IsUser ∧ ∀ t ∈ tokens, t.operator? ≠ some .toFloat ∧
      ∀ id, t.identifier? = some id → table.Declares id := by
  obtain ⟨_, huser, htokens⟩ := Lexeme.readAll_reads Lexeme.isPlain_of_mem_cut
    SymbolTable.isUser_empty h
  refine ⟨huser, ?_⟩
  intro t ht
  obtain ⟨hoperator, hdeclares⟩ := htokens t ht
  constructor
  · cases hkind : t.kind <;> simp_all [Token.operator?]
  · intro id hid
    apply hdeclares
    cases hkind : t.kind <;> simp_all [Token.identifier?]

/-! ## The identifiers of a program -/

namespace Program

theorem checkIdentifier_eq_ok_iff
    {table : SymbolTable} {id : Identifier} :
    checkIdentifier table id = .ok () ↔
      ∃ row, table.get? id.attr = some row ∧ row.type = id.type := by
  unfold checkIdentifier
  split
  · next hnone => simp [hnone]
  · next row hrow => simp [hrow]

theorem make_eq_ok_iff
    {code : List Command} {table : SymbolTable} {p : Program} :
    make code table = .ok p ↔ p = ⟨code, table⟩ ∧
      ∀ id ∈ code.flatMap Command.identifiers,
        ∃ row, table.get? id.attr = some row ∧ row.type = id.type := by
  simp only [make, Success.bind_eq_ok_iff, Success.forM_eq_ok_iff,
    Success.pure_eq_ok_iff, checkIdentifier_eq_ok_iff]
  constructor
  · rintro ⟨_, hrows, rfl⟩
    exact ⟨rfl, hrows⟩
  · rintro ⟨rfl, hrows⟩
    exact ⟨(), hrows, rfl⟩

end Program

end ThreeAddress
