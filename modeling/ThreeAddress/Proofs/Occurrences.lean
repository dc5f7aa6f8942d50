import ThreeAddress.Proofs.Coverage
import ThreeAddress.Proofs.GeneratedCode
import ThreeAddress.Proofs.Histories
import ThreeAddress.Proofs.RenamedTexts

/-!
# Symbols and the occurrences of their names

The table of a text has one row for each name that occurs in it, and the rows
stand in the order of the first occurrences.  While the text is read, the
table lists the names that have been read so far.  A name that is listed has
its first occurrence already, and a name that is not occurs behind all others,
so it gets the next row.
-/

namespace ThreeAddress

/-- The places at which the name occurs. -/
def placesOf (source name : String) : Set Nat :=
  {start | ∃ text type, IsRun 1 source.toList start text ∧
    IsTypedName text name type}

/-- The token stands at an occurrence of the name. -/
def Token.HasName (source : String) (t : Token) (name : String) : Prop :=
  ∃ start ∈ placesOf source name, t.position = some start

/-- The rows are those of the names that occur in the text, in the order of
their first occurrences, and with the types that they have there. -/
structure SymbolTable.ListsNames (table : SymbolTable) (source : String) :
    Prop where
  exists_row_iff : ∀ name, (∃ row ∈ table.rows, row.name = name) ↔
    name ∈ namesIn source
  distinct : (table.rows.map SymbolRow.name).Nodup
  isUser : ∀ row ∈ table.rows, row.provenance = .user
  firstDeclares : ∀ row ∈ table.rows,
    FirstDeclares source.toList row.name row.type
  exists_get?_iff : ∀ attr, (∃ row, table.get? attr = some row) ↔
    1 ≤ attr ∧ attr ≤ table.size
  order : ∀ attr attr' row row',
    table.get? attr = some row → table.get? attr' = some row' →
    attr < attr' → ∃ place place', IsLeast (placesOf source row.name) place ∧
      IsLeast (placesOf source row'.name) place' ∧ place < place'

theorem IsRun.unique
    {first start : Nat} {source text text' : List Char}
    (h : IsRun first source start text)
    (h' : IsRun first source start text') :
    text = text' := by
  rcases h with ⟨before, after, hsource, hstart, htext, _, hafter⟩
  rcases h' with ⟨before', after', hsource', hstart', htext', _, hafter'⟩
  have hlength : before.length = before'.length := by omega
  have hbehind := (List.append_inj (hsource.symm.trans hsource') hlength).2
  exact eq_of_append_eq_append htext' htext hafter hafter' hbehind

theorem Token.HasName.unique
    {source : String} {t : Token} {name name' : String}
    (h : t.HasName source name)
    (h' : t.HasName source name') :
    name = name' := by
  rcases h with ⟨start, ⟨text, type, hrun, hname⟩, hposition⟩
  rcases h' with ⟨start', ⟨text', type', hrun', hname'⟩, hposition'⟩
  obtain rfl : start = start' :=
    Option.some.inj (hposition.symm.trans hposition')
  obtain rfl := hrun.unique hrun'
  exact (hname.unique hname').1

theorem SymbolTable.HasNames.typeOf?_eq_some_iff
    {table : SymbolTable}
    (h : table.HasNames)
    {name : String} {type : ValueType} :
    table.typeOf? name = some type ↔
      ∃ row ∈ table.rows, row.name = name ∧ row.type = type := by
  rw [typeOf?, Option.map_eq_some_iff]
  constructor
  · rintro ⟨⟨attr, row⟩, hlookup, htype⟩
    exact ⟨row, mem_rows_of_get? (get?_of_lookup? hlookup),
      name_of_lookup? hlookup, htype⟩
  · rintro ⟨row, hmem, hname, htype⟩
    rcases List.getElem?_of_mem hmem with ⟨n, hn⟩
    have hrow : table.get? (n + 1) = some row := hn
    exact ⟨(n + 1, row), h.lookup?_eq_some_iff.mpr ⟨hrow, hname⟩, htype⟩

namespace Lexeme

/-! ## First occurrences -/

/-- The first lexeme with the name has the given place. -/
def FirstAt (lexemes : List Lexeme) (name : String) (place : Nat) : Prop :=
  ∃ before lexeme after, lexemes = before ++ lexeme :: after ∧
    ((∃ type, declares? name lexeme = some type) ∧ lexeme.start = place) ∧
      ∀ earlier ∈ before, declares? name earlier = none

theorem FirstAt.append
    {seen : List Lexeme} {name : String} {place : Nat}
    (h : FirstAt seen name place)
    (rest : List Lexeme) :
    FirstAt (seen ++ rest) name place := by
  rcases h with ⟨before, lexeme, after, rfl, hlexeme, hbefore⟩
  exact ⟨before, lexeme, after ++ rest, by simp, hlexeme, hbefore⟩

theorem FirstAt.exists_mem
    {seen : List Lexeme} {name : String} {place : Nat}
    (h : FirstAt seen name place) :
    ∃ lexeme ∈ seen, lexeme.start = place := by
  rcases h with ⟨before, lexeme, after, rfl, ⟨_, hstart⟩, _⟩
  exact ⟨lexeme, by simp, hstart⟩

theorem firstAt_cut_iff
    {source name : String} {place : Nat} :
    FirstAt (cut 1 source.toList) name place ↔
      IsLeast (placesOf source name) place := by
  rw [FirstAt, exists_leftmost_cut_iff (by simp [declares?])
    (by simp [declares?])]
  simp only [declares?_run_eq_some_iff,
    Option.eq_none_iff_forall_ne_some, ne_eq]
  constructor
  · rintro ⟨start, text, hrun, ⟨⟨type, hname⟩, rfl⟩, hearlier⟩
    refine ⟨⟨text, type, hrun, hname⟩, ?_⟩
    rintro start' ⟨text', type', hrun', hname'⟩
    by_contra hlt
    exact hearlier start' text' hrun' (Nat.lt_of_not_le hlt) type' hname'
  · rintro ⟨⟨text, type, hrun, hname⟩, hleast⟩
    refine ⟨place, text, hrun, ⟨⟨type, hname⟩, rfl⟩, ?_⟩
    intro start' text' hrun' hlt type' hname'
    exact absurd (hleast ⟨text', type', hrun', hname'⟩) (Nat.not_le_of_lt hlt)

/-! ## The table while a text is read -/

/-- The name occurs first before the other one does. -/
def OccursBefore (seen : List Lexeme) (name name' : String) : Prop :=
  ∃ place place', FirstAt seen name place ∧ FirstAt seen name' place' ∧
    place < place'

theorem OccursBefore.append
    {seen : List Lexeme} {name name' : String}
    (h : OccursBefore seen name name')
    (rest : List Lexeme) :
    OccursBefore (seen ++ rest) name name' := by
  rcases h with ⟨place, place', hplace, hplace', hlt⟩
  exact ⟨place, place', hplace.append rest, hplace'.append rest, hlt⟩

/-- The table lists the names that occur in what has been read. -/
structure Lists (table : SymbolTable) (seen : List Lexeme) : Prop where
  records : Records table seen
  occurs : ∀ row ∈ table.rows, ∃ place, FirstAt seen row.name place
  order : table.rows.Pairwise fun row row' =>
    OccursBefore seen row.name row'.name

theorem lists_empty : Lists .empty [] :=
  ⟨records_empty, by simp [SymbolTable.empty], by simp [SymbolTable.empty]⟩

theorem Lists.unchanged
    {table : SymbolTable} {seen : List Lexeme} {lexeme : Lexeme}
    (h : Lists table seen)
    (hlexeme : ∀ name,
      table.typeOf? name = (table.typeOf? name).or (declares? name lexeme)) :
    Lists table (seen ++ [lexeme]) where
  records := h.records.append_singleton hlexeme
  occurs := by
    intro row hrow
    rcases h.occurs row hrow with ⟨place, hplace⟩
    exact ⟨place, hplace.append [lexeme]⟩
  order := by
    apply h.order.imp
    intro row row' hbefore
    exact hbefore.append [lexeme]

theorem Lists.push
    {table : SymbolTable} {seen : List Lexeme} {start : Nat}
    {text : List Char} {name : String} {type : ValueType}
    (h : Lists table seen)
    (hlater : ∀ earlier ∈ seen, earlier.start < start)
    (hname : IsTypedName text name type)
    (hunknown : table.lookup? name = none) :
    Lists (table.push ⟨name, type, .user⟩) (seen ++ [.run start text]) := by
  have hnone : seen.findSome? (declares? name) = none := by
    rw [← h.records name, SymbolTable.typeOf?, hunknown, Option.map_none]
  have hfirst : FirstAt (seen ++ [.run start text]) name start :=
    ⟨seen, .run start text, [], rfl,
      ⟨⟨type, declares?_run_eq_some_iff.mpr hname⟩, rfl⟩,
      List.findSome?_eq_none_iff.mp hnone⟩
  constructor
  · apply h.records.append_singleton
    intro other
    rw [SymbolTable.typeOf?_push, declares?_of_isTypedName hname]
  · intro row hrow
    rcases List.mem_append.mp hrow with hold | hnew
    · rcases h.occurs row hold with ⟨place, hplace⟩
      exact ⟨place, hplace.append _⟩
    · obtain rfl := List.mem_singleton.mp hnew
      exact ⟨start, hfirst⟩
  · rw [SymbolTable.push, List.pairwise_append]
    refine ⟨?_, List.pairwise_singleton _ _, ?_⟩
    · apply h.order.imp
      intro row row' hbefore
      exact hbefore.append _
    · -- What has been read stands before the run, the first occurrences
      -- among it.
      intro row hold row' hnew
      obtain rfl := List.mem_singleton.mp hnew
      rcases h.occurs row hold with ⟨place, hplace⟩
      rcases hplace.exists_mem with ⟨lexeme, hmem, rfl⟩
      exact ⟨lexeme.start, start, hplace.append _, hfirst, hlater lexeme hmem⟩

theorem lists_of_readsRun
    {table after : SymbolTable} {seen : List Lexeme} {start : Nat}
    {text : List Char} {kind : TokenKind}
    (h : Lists table seen)
    (hlater : ∀ earlier ∈ seen, earlier.start < start)
    (hread : ReadsRun table text kind after) :
    Lists after (seen ++ [.run start text]) := by
  cases hread with
  | number hvalue =>
      apply h.unchanged
      intro name
      rcases hvalue.exists_isConstant with ⟨value, limit, hconstant⟩
      rw [declares?_of_isConstant hconstant, Option.or_none]
  | @known name id row hname hfound htype =>
      apply h.unchanged
      intro other
      rw [declares?_of_isTypedName hname]
      by_cases hother : name = other
      · have hknown : table.typeOf? other = some row.type := by
          rw [SymbolTable.typeOf?, ← hother, hfound, Option.map_some]
        rw [hknown, Option.some_or]
      · rw [if_neg hother, Option.or_none]
  | new hname hunknown _ => exact h.push hlater hname hunknown

theorem lists_of_read
    {table after : SymbolTable} {seen : List Lexeme} {lexeme : Lexeme}
    {token : Token}
    (h : Lists table seen)
    (hlater : ∀ earlier ∈ seen, earlier.start < lexeme.start)
    (hread : lexeme.read table = .ok (token, after)) :
    Lists after (seen ++ [lexeme]) := by
  cases lexeme with
  | mark start kind =>
      obtain ⟨_, rfl⟩ := read_mark_eq_ok hread
      exact h.unchanged fun name => Option.or_none.symm
  | run start text =>
      rcases read_run_eq_ok hread with ⟨kind, _, hrun⟩
      exact lists_of_readsRun h hlater (readsRun_of_readRun hrun)

theorem lists_of_readAll
    {table after : SymbolTable} {seen lexemes : List Lexeme}
    {tokens : List Token}
    (h : Lists table seen)
    (horder : (seen ++ lexemes).Pairwise (·.start < ·.start))
    (hread : readAll table lexemes = .ok (tokens, after)) :
    Lists after (seen ++ lexemes) := by
  induction lexemes generalizing table seen tokens with
  | nil =>
      obtain ⟨_, rfl⟩ := readAll_nil_eq_ok hread
      rw [List.append_nil]
      exact h
  | cons lexeme rest ih =>
      rcases readAll_cons_eq_ok hread with
        ⟨token, middle, others, hfirst, hrest, _⟩
      have hlater : ∀ earlier ∈ seen, earlier.start < lexeme.start :=
        fun earlier hmem =>
        (List.pairwise_append.mp horder).2.2 earlier hmem lexeme
          List.mem_cons_self
      rw [List.append_cons] at horder ⊢
      exact ih (lists_of_read h hlater hfirst) horder hrest

end Lexeme

/-! ## The table of a text -/

theorem Lexeme.Lists.listsNames
    {source : String} {table : SymbolTable}
    (h : Lists table (cut 1 source.toList))
    (hnames : table.HasNames)
    (huser : table.IsUser) :
    table.ListsNames source := by
  have htype :
      ∀ name type, (∃ row ∈ table.rows, row.name = name ∧ row.type = type) ↔
      FirstDeclares source.toList name type := by
    intro name type
    rw [← hnames.typeOf?_eq_some_iff, h.records name,
      ← firstIn_cut_iff, FirstIn]
  refine ⟨?_, hnames.distinct, huser,
    ?_, fun _ => SymbolTable.exists_get?_iff, ?_⟩
  · intro name
    constructor
    · rintro ⟨row, hrow, hname⟩
      rcases (htype name row.type).mp ⟨row, hrow, hname, rfl⟩ with
        ⟨start, text, hrun, htyped, _⟩
      exact ⟨start, text, row.type, hrun, htyped⟩
    · rintro ⟨start, text, type, hrun, htyped⟩
      rcases exists_firstDeclares hrun htyped with ⟨first, hfirst⟩
      rcases (htype name first).mpr hfirst with ⟨row, hrow, hname, _⟩
      exact ⟨row, hrow, hname⟩
  · intro row hrow
    exact (htype row.name row.type).mp ⟨row, hrow, rfl, rfl⟩
  · intro attr attr' row row' hrow hrow' hlt
    rcases SymbolTable.get?_eq_some_iff.mp hrow with ⟨n, rfl, hn⟩
    rcases SymbolTable.get?_eq_some_iff.mp hrow' with ⟨n', rfl, hn'⟩
    rcases List.getElem?_eq_some_iff.mp hn with ⟨hbound, rfl⟩
    rcases List.getElem?_eq_some_iff.mp hn' with ⟨hbound', rfl⟩
    rcases List.pairwise_iff_getElem.mp h.order n n' hbound hbound'
      (Nat.lt_of_succ_lt_succ hlt) with
      ⟨place, place', hplace, hplace', hless⟩
    exact ⟨place, place', firstAt_cut_iff.mp hplace,
      firstAt_cut_iff.mp hplace', hless⟩

theorem exists_standsAt_of_mem
    {source : String} {tokens : List Token} {table : SymbolTable}
    (h : scan source = .ok (tokens, table))
    {t : Token}
    (ht : t ∈ tokens) :
    ∃ span, StandsAt source.toList table t span := by
  have hstands := Lexeme.forall₂_standsAt_of_readAll SymbolTable.isUser_empty
    (fun _ hmem => hmem) h
  rcases List.getElem_of_mem ht with ⟨n, hn, rfl⟩
  exact ⟨_, hstands.get hn (hstands.length_eq ▸ hn)⟩

theorem exists_row_of_identifier?
    {source : String} {tokens : List Token} {table : SymbolTable}
    (h : scan source = .ok (tokens, table))
    {t : Token}
    (ht : t ∈ tokens)
    {id : Identifier}
    (hid : t.identifier? = some id) :
    ∃ row, table.get? id.attr = some row ∧ row.type = id.type ∧
      t.HasName source row.name := by
  rcases exists_standsAt_of_mem h ht with ⟨span, hstands⟩
  cases hstands with
  | mark _ hmark => cases hmark <;> contradiction
  | number _ _ => contradiction
  | @identifier start text name id' hrun hname hrow =>
      obtain rfl : id' = id := Option.some.inj hid
      exact ⟨_, hrow, rfl, start, ⟨text, id'.type, hrun, hname⟩, rfl⟩

/-- The table of a text lists the names that occur in it.  Every identifier
refers to the row of the name at which it stands and has the type of that row,
so that two identifiers have the same attribute exactly if they have the same
name. -/
theorem symbols_match_occurrences
    {source : String} {tokens : List Token} {table : SymbolTable}
    (h : scan source = .ok (tokens, table)) :
    table.ListsNames source ∧
    (∀ t ∈ tokens, ∀ id, t.identifier? = some id →
      ∃ row, table.get? id.attr = some row ∧ row.type = id.type ∧
        t.HasName source row.name) ∧
    ∀ t ∈ tokens, ∀ t' ∈ tokens, ∀ id id' name name',
      t.identifier? = some id →
      t'.identifier? = some id' → t.HasName source name →
      t'.HasName source name' →
        (id.attr = id'.attr ↔ name = name') := by
  have hnames := (scan_built h).1.hasNames
  refine ⟨?_, fun t ht id hid => exists_row_of_identifier? h ht hid, ?_⟩
  · apply Lexeme.Lists.listsNames _ hnames (scan_declares h).1
    exact Lexeme.lists_of_readAll Lexeme.lists_empty
      (Lexeme.pairwise_start_cut 1 source.toList) h
  · intro t ht t' ht' id id' name name' hid hid' hname hname'
    rcases exists_row_of_identifier? h ht hid with ⟨row, hrow, _, hown⟩
    rcases exists_row_of_identifier? h ht' hid' with ⟨row', hrow', _, hown'⟩
    rw [hname.unique hown, hname'.unique hown']
    constructor
    · intro hattr
      rw [hattr] at hrow
      rw [Option.some.inj (hrow.symm.trans hrow')]
    · intro hsame
      exact hnames.attr_eq hrow hrow' hsame

/-- Without a suffix or with that of its type, the name is the same, and so is
its row. -/
theorem symbols_match_suffix_variants :
    ∃ tokens table, scan "x+y[f]*(x[i]-z9/x[I])+y[F]" = .ok (tokens, table) ∧
      table.rows = [⟨"x", .integer, .user⟩, ⟨"y", .float, .user⟩,
        ⟨"z9", .integer, .user⟩] ∧
      (tokens.filterMap Token.identifier?).map Identifier.attr =
        [1, 2, 1, 3, 1, 2] ∧
      table.ListsNames "x+y[f]*(x[i]-z9/x[I])+y[F]" ∧
      ∀ t ∈ tokens, ∀ id, t.identifier? = some id →
        ∃ row, table.get? id.attr = some row ∧ row.type = id.type ∧
          t.HasName "x+y[f]*(x[i]-z9/x[I])+y[F]" row.name := by
  have hsymbols : (scan "x+y[f]*(x[i]-z9/x[I])+y[F]").toOption.map
      (fun out => (out.2.rows,
          (out.1.filterMap Token.identifier?).map Identifier.attr)) =
        some ([⟨"x", .integer, .user⟩, ⟨"y", .float, .user⟩,
          ⟨"z9", .integer, .user⟩], [1, 2, 1, 3, 1, 2]) := by
    decide +kernel
  obtain ⟨⟨tokens, table⟩, hscan, hfound⟩ :=
    Success.exists_of_toOption hsymbols
  obtain ⟨hrows, hattrs⟩ := Prod.mk.inj hfound
  have hmatch := symbols_match_occurrences hscan
  exact ⟨tokens, table, hscan, hrows, hattrs, hmatch.1, hmatch.2.1⟩

end ThreeAddress
