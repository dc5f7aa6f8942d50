import ThreeAddress.Proofs.Scanning

/-!
# The characters that tokens stand for

A mark is the token of its character, and a run is a number or an identifier.
So the tokens of a text share out its characters: blanks belong to none of
them, and every other character belongs to one.  What a run is read as depends
on the table only in the attribute of a name, which leads to the same row in
every table that comes later.
-/

namespace ThreeAddress

/-- The character is a token on its own. -/
inductive IsMark : Char → TokenKind → Prop
  | plus : IsMark '+' (.operator .add)
  | minus : IsMark '-' (.operator .subtract)
  | star : IsMark '*' (.operator .multiply)
  | slash : IsMark '/' (.operator .divide)
  | opening : IsMark '(' (.bracket .opening)
  | closing : IsMark ')' (.bracket .closing)

/-- The token stands for the characters of the source at the given places,
which are counted from one. -/
inductive StandsAt (source : List Char) (table : SymbolTable) :
    Token → Set Nat → Prop
  | mark {n : Nat} {c : Char} {kind : TokenKind}
      (character : source[n]? = some c)
      (isMark : IsMark c kind) : StandsAt source table
        ⟨kind, some (n + 1)⟩ {n + 1}
  | number {start : Nat} {text : List Char} {literal : Literal}
      (isRun : IsRun 1 source start text)
      (standsFor : StandsFor literal.type text literal.cell) :
      StandsAt source table ⟨.number literal, some start⟩
        (Set.Ico start (start + text.length))
  | identifier {start : Nat} {text : List Char} {name : String}
      {id : Identifier}
      (isRun : IsRun 1 source start text)
      (isTypedName : IsTypedName text name id.type)
      (row : table.get? id.attr = some ⟨name, id.type, .user⟩) :
      StandsAt source table ⟨.identifier id, some start⟩
        (Set.Ico start (start + text.length))

theorem StandsAt.mono
    {source : List Char} {table other : SymbolTable} {token : Token}
    {span : Set Nat}
    (h : StandsAt source table token span)
    (hother : table.Extends other) :
    StandsAt source other token span := by
  cases h with
  | mark hc hmark => exact .mark hc hmark
  | number hrun hvalue => exact .number hrun hvalue
  | identifier hrun hname hrow =>
      exact .identifier hrun hname (hother.get?_eq hrow)

namespace Lexeme

/-! ## Places of lexemes -/

theorem markKind?_eq_some_iff
    {c : Char} {kind : TokenKind} :
    markKind? c = some kind ↔ IsMark c kind := by
  constructor
  · intro h
    by_cases hc : c ∈ ['+', '-', '*', '/', '(', ')']
    · simp only [List.mem_cons, List.not_mem_nil, or_false] at hc
      rcases hc with rfl | rfl | rfl | rfl | rfl | rfl
      · exact Option.some.inj h ▸ .plus
      · exact Option.some.inj h ▸ .minus
      · exact Option.some.inj h ▸ .star
      · exact Option.some.inj h ▸ .slash
      · exact Option.some.inj h ▸ .opening
      · exact Option.some.inj h ▸ .closing
    · simp [markKind?_eq_none_iff.mpr hc] at h
  · intro h
    cases h <;> rfl

/-- The places of the characters. -/
def span : Lexeme → Set Nat
  | .mark start _ => {start}
  | .run start text => Set.Ico start (start + text.length)

theorem start_le_of_mem_span
    {lexeme : Lexeme} {place : Nat}
    (h : place ∈ lexeme.span) :
    lexeme.start ≤ place := by
  cases lexeme with
  | mark start kind => exact (Set.mem_singleton_iff.mp h).ge
  | run start text => exact (Set.mem_Ico.mp h).1

theorem notMem_span_of_lt
    {first place : Nat} {source : List Char}
    (h : place < first) :
    ∀ lexeme ∈ cut first source, place ∉ lexeme.span := by
  intro lexeme hmem hplace
  have hstart := le_start_of_mem_cut lexeme hmem
  have hle := start_le_of_mem_span hplace
  omega

theorem disjoint_span_cut
    (first : Nat) (source : List Char) :
    (cut first source).Pairwise fun a b =>
        ∀ place ∈ a.span, place ∉ b.span := by
  induction source using runs_induction generalizing first with
  | nil => simp [cut]
  | separator c rest hc ih =>
      rcases cut_cons_of_separates hc first rest with hcut | ⟨kind, hcut⟩
      · rw [hcut]
        exact ih (first + 1)
      · rw [hcut]
        refine List.pairwise_cons.mpr ⟨?_, ih (first + 1)⟩
        intro lexeme hmem place hplace
        rw [Set.mem_singleton_iff.mp hplace]
        exact notMem_span_of_lt (Nat.lt_succ_self first) lexeme hmem
  | run run after hrun hafter ih =>
      rw [cut_append hrun hafter]
      refine List.pairwise_cons.mpr ⟨?_, ih (first + run.length)⟩
      intro lexeme hmem place hplace
      exact notMem_span_of_lt (Set.mem_Ico.mp hplace).2 lexeme hmem

/-- The lexemes leave out the blanks and nothing else. -/
theorem notMem_span_cut_iff
    {first n : Nat} {source : List Char} {c : Char}
    (h : source[n]? = some c) :
    (∀ lexeme ∈ cut first source, first + n ∉ lexeme.span) ↔
      Text.isBlank c = true := by
  induction source using runs_induction generalizing first n with
  | nil => simp at h
  | separator d rest hd ih =>
      have hrest : ∀ m, rest[m]? = some c →
          ((∀ lexeme ∈ cut (first + 1) rest, first + (m + 1) ∉ lexeme.span) ↔
            Text.isBlank c = true) := by
        intro m hm
        rw [Nat.add_comm m 1, ← Nat.add_assoc]
        exact ih hm
      by_cases hblank : Text.isBlank d = true
      · rw [cut_cons_of_isBlank hblank]
        cases n with
        | zero =>
            obtain rfl : d = c := by simpa using h
            simpa [hblank] using notMem_span_of_lt (Nat.lt_succ_self first)
        | succ m => exact hrest m h
      · rcases exists_cut_cons_of_not_isBlank hd hblank first rest with
          ⟨kind, hcut⟩
        rw [hcut, List.forall_mem_cons]
        cases n with
        | zero =>
            obtain rfl : d = c := by simpa using h
            simp [hblank, span]
        | succ m =>
            rw [hrest m h]
            simp [span]
  | run run after hrun hafter ih =>
      rw [cut_append hrun hafter, List.forall_mem_cons]
      by_cases hn : n < run.length
      · have hmem : c ∈ run := by
          rw [List.getElem?_append_left hn] at h
          exact List.mem_of_getElem? h
        have hblank : ¬Text.isBlank c = true :=
          fun hblank => hrun.2 c hmem (.inl hblank)
        simp [hblank, span, hn]
      · rw [List.getElem?_append_right (Nat.le_of_not_lt hn)] at h
        have hplace : first + n = first + run.length + (n - run.length) := by
          omega
        have hself : first + n ∉ span (.run first run) := by
          rw [span, Set.mem_Ico]
          omega
        rw [and_iff_right hself, hplace]
        exact ih h

/-! ## Reading runs -/

/-- What a run can be read as: a number, a name that has a row, or a name that
gets the next row. -/
inductive ReadsRun (table : SymbolTable) (text : List Char) :
    TokenKind → SymbolTable → Prop
  | number {literal : Literal}
      (standsFor : StandsFor literal.type text literal.cell) :
      ReadsRun table text (.number literal) table
  | known {name : String} {id : Identifier} {row : SymbolRow}
      (isTypedName : IsTypedName text name id.type)
      (found : table.lookup? name = some (id.attr, row))
      (agrees : row.type = id.type) :
      ReadsRun table text (.identifier id) table
  | new {name : String} {id : Identifier}
      (isTypedName : IsTypedName text name id.type)
      (unknown : table.lookup? name = none)
      (next : id.attr = table.size + 1) :
      ReadsRun table text (.identifier id) (table.push ⟨name, id.type, .user⟩)

theorem standsFor_of_readNumber
    {start : Nat} {text : List Char} {literal : Literal}
    (h : readNumber start text = .ok literal) :
    StandsFor literal.type text literal.cell := by
  by_cases hconstant : ∃ value limit, IsConstant text value limit
  · rcases hconstant with ⟨value, limit, hconstant⟩
    rw [← Literal.type_cell]
    cases hconstant with
    | integer hrow =>
        rw [readNumber_integer hrow] at h
        split_ifs at h with hrange
        rw [Literal.cell_ofInt (Success.mapError_eq_ok_iff.mp h)]
        exact .integer hrow (by exact_mod_cast hrange)
    | decimal hwhole hfraction =>
        rw [readNumber_decimal hwhole hfraction rfl] at h
        split_ifs at h with hfinite
        rw [Decimal.isFinite_toSingle_iff] at hfinite
        rcases Decimal.exists_finite_toSingle false hfinite with
          ⟨n, hn, hsingle⟩
        rw [hsingle] at h
        rw [Literal.cell_ofSingle (Success.mapError_eq_ok_iff.mp h),
          ← hsingle]
        exact .float hwhole hfraction (decimal_lt_limit_iff.mpr hfinite)
  · push Not at hconstant
    rw [readNumber_of_not_isConstant hconstant] at h
    contradiction

theorem readsRun_of_readRun
    {table after : SymbolTable} {start : Nat} {text : List Char}
    {kind : TokenKind}
    (h : readRun table start text = .ok (kind, after)) :
    ReadsRun table text kind after := by
  rcases readRun_eq_ok h with
    ⟨id, name, rfl, _, htyped, hdeclare⟩ | ⟨literal, rfl, hliteral, rfl⟩
  · have hname := typedName?_eq_some_iff.mp htyped
    rcases declare_eq_ok hdeclare with
      ⟨row, hfound, htype, rfl⟩ | ⟨hunknown, hattr, rfl⟩
    · exact .known hname hfound htype
    · exact .new hname hunknown hattr
  · exact .number (standsFor_of_readNumber hliteral)

theorem ReadsRun.exists_row
    {table after : SymbolTable} {text : List Char} {id : Identifier}
    (huser : table.IsUser)
    (h : ReadsRun table text (.identifier id) after) :
    ∃ name, IsTypedName text name id.type ∧
      after.get? id.attr = some ⟨name, id.type, .user⟩ := by
  cases h with
  | @known name _ row hname hfound htype =>
      have hrow := SymbolTable.get?_of_lookup? hfound
      have hsame : row = ⟨name, id.type, .user⟩ := by
        rw [← SymbolTable.name_of_lookup? hfound, ← htype,
          ← huser row (SymbolTable.mem_rows_of_get? hrow)]
      exact ⟨name, hname, hrow.trans (congrArg some hsame)⟩
  | new hname hunknown hattr =>
      refine ⟨_, hname, ?_⟩
      rw [hattr]
      exact SymbolTable.get?_size_add_one_push table _

theorem ReadsRun.standsAt
    {table after : SymbolTable} {start : Nat} {source text : List Char}
    {kind : TokenKind}
    (huser : table.IsUser)
    (hrun : IsRun 1 source start text)
    (h : ReadsRun table text kind after) :
    StandsAt source after ⟨kind, some start⟩ (span (.run start text)) := by
  have hidentifier : ∀ id, ReadsRun table text (.identifier id) after →
      StandsAt source after ⟨.identifier id, some start⟩
        (span (.run start text)) := by
    intro id hid
    rcases hid.exists_row huser with ⟨name, hname, hrow⟩
    exact .identifier hrun hname hrow
  cases h with
  | number hvalue => exact .number hrun hvalue
  | known hname hfound htype =>
      exact hidentifier _ (.known hname hfound htype)
  | new hname hunknown hattr =>
      exact hidentifier _ (.new hname hunknown hattr)

/-! ## Reading a text -/

theorem standsAt_of_read
    {table after : SymbolTable} {source : List Char} {lexeme : Lexeme}
    {token : Token}
    (huser : table.IsUser)
    (hmem : lexeme ∈ cut 1 source)
    (h : lexeme.read table = .ok (token, after)) :
    StandsAt source after token lexeme.span := by
  cases lexeme with
  | mark start kind =>
      obtain ⟨rfl, rfl⟩ := read_mark_eq_ok h
      rcases exists_char_of_mark_mem_cut hmem with ⟨n, c, rfl, hc, hkind⟩
      rw [span, Nat.add_comm]
      exact .mark hc (markKind?_eq_some_iff.mp hkind)
  | run start text =>
      rcases read_run_eq_ok h with ⟨kind, rfl, hread⟩
      exact (readsRun_of_readRun hread).standsAt huser
        (run_mem_cut_iff.mp hmem)

/-- The tokens stand where their lexemes do, each with the row of its name,
since that row is still there when all lexemes have been read. -/
theorem forall₂_standsAt_of_readAll
    {source : List Char} {lexemes : List Lexeme} {table after : SymbolTable}
    {tokens : List Token}
    (huser : table.IsUser)
    (hsource : ∀ lexeme ∈ lexemes, lexeme ∈ cut 1 source)
    (h : readAll table lexemes = .ok (tokens, after)) :
    List.Forall₂ (StandsAt source after) tokens (lexemes.map span) := by
  induction lexemes generalizing table tokens with
  | nil =>
      obtain ⟨rfl, _⟩ := readAll_nil_eq_ok h
      exact .nil
  | cons lexeme rest ih =>
      rw [List.forall_mem_cons] at hsource
      rcases readAll_cons_eq_ok h with
        ⟨token, middle, others, hread, hrest, rfl⟩
      have hmiddle : middle.IsUser :=
        (read_reads (isPlain_of_mem_cut lexeme hsource.1) hread).isUser huser
      have hplain : ∀ lexeme ∈ rest, lexeme.IsPlain := fun lexeme hmem =>
        isPlain_of_mem_cut lexeme (hsource.2 lexeme hmem)
      have hextends := (readAll_reads hplain hmiddle hrest).1
      exact .cons ((standsAt_of_read huser hsource.1 hread).mono hextends)
        (ih hmiddle hsource.2 hrest)

theorem position_of_read
    {table after : SymbolTable} {lexeme : Lexeme} {token : Token}
    (h : lexeme.read table = .ok (token, after)) :
    token.position = some lexeme.start := by
  cases lexeme with
  | mark start kind =>
      obtain ⟨rfl, _⟩ := read_mark_eq_ok h
      rfl
  | run start text =>
      rcases read_run_eq_ok h with ⟨kind, rfl, _⟩
      rfl

theorem positions_of_readAll
    {lexemes : List Lexeme} {table after : SymbolTable}
    {tokens : List Token}
    (h : readAll table lexemes = .ok (tokens, after)) :
    tokens.map Token.position = (lexemes.map start).map some := by
  induction lexemes generalizing table tokens with
  | nil =>
      obtain ⟨rfl, _⟩ := readAll_nil_eq_ok h
      rfl
  | cons lexeme rest ih =>
      rcases readAll_cons_eq_ok h with
        ⟨token, middle, others, hread, hrest, rfl⟩
      rw [List.map_cons, ih hrest, position_of_read hread]
      rfl

end Lexeme

/-- The positions of the tokens of a text increase from one on.  Each operator
or bracket stands for the character at its place, and each number or
identifier for a run.  No two tokens have a character in common, and the
characters that no token has are the blanks. -/
theorem tokens_cover_source
    {source : String} {tokens : List Token} {table : SymbolTable}
    (h : scan source = .ok (tokens, table)) :
    (∃ places : List Nat, tokens.map Token.position = places.map some ∧
      places.Pairwise (· < ·) ∧ ∀ place ∈ places, 1 ≤ place) ∧
    ∃ spans : List (Set Nat),
      List.Forall₂ (StandsAt source.toList table) tokens spans ∧
      spans.Pairwise (fun span span' => ∀ place ∈ span, place ∉ span') ∧
      ∀ n c, source.toList[n]? = some c →
        (Text.isBlank c = true ↔ ∀ span ∈ spans, n + 1 ∉ span) := by
  constructor
  · refine ⟨(Lexeme.cut 1 source.toList).map Lexeme.start,
      Lexeme.positions_of_readAll h,
      List.pairwise_map.mpr (Lexeme.pairwise_start_cut 1 source.toList), ?_⟩
    rw [List.forall_mem_map]
    exact Lexeme.le_start_of_mem_cut
  · refine ⟨(Lexeme.cut 1 source.toList).map Lexeme.span,
      Lexeme.forall₂_standsAt_of_readAll SymbolTable.isUser_empty
        (fun _ hmem => hmem) h,
      List.pairwise_map.mpr (Lexeme.disjoint_span_cut 1 source.toList), ?_⟩
    intro n c hc
    rw [List.forall_mem_map, Nat.add_comm n 1, Lexeme.notMem_span_cut_iff hc]

/-- Marks stand next to each other and next to runs, the blank is none of
ASCII, and the last run ends with the text. -/
theorem tokens_cover_adjacent_lexemes :
    ∃ tokens table, scan "((a[F]\u2003-0.50)*a[f]/07" = .ok (tokens, table) ∧
      tokens.map (fun t => (t.position, t.text)) =
        [(some 1, "("), (some 2, "("), (some 3, "<id,1>"), (some 8, "-"),
          (some 9, "0.5"), (some 13, ")"), (some 14, "*"),
          (some 15, "<id,1>"), (some 19, "/"), (some 20, "7")] ∧
      ∃ spans : List (Set Nat),
        List.Forall₂ (StandsAt "((a[F]\u2003-0.50)*a[f]/07".toList table)
          tokens spans ∧
        spans.Pairwise (fun span span' => ∀ place ∈ span, place ∉ span') ∧
        ∀ n c, "((a[F]\u2003-0.50)*a[f]/07".toList[n]? = some c →
          (Text.isBlank c = true ↔ ∀ span ∈ spans, n + 1 ∉ span) := by
  have htokens : (scan "((a[F]\u2003-0.50)*a[f]/07").toOption.map
      (fun out => out.1.map fun t => (t.position, t.text)) =
        some [(some 1, "("), (some 2, "("), (some 3, "<id,1>"), (some 8, "-"),
          (some 9, "0.5"), (some 13, ")"), (some 14, "*"),
          (some 15, "<id,1>"), (some 19, "/"), (some 20, "7")] := by
    decide +kernel
  obtain ⟨⟨tokens, table⟩, hscan, htexts⟩ :=
    Success.exists_of_toOption htokens
  exact ⟨tokens, table, hscan, htexts, (tokens_cover_source hscan).2⟩

end ThreeAddress
