import ThreeAddress.Proofs.Places
import ThreeAddress.Proofs.Scanning

/-!
# Renamed texts

Renaming the words of a text moves what stands behind them, but not much else.
The runs of the renamed text are the renamed runs, in the same order, and
reading them gives the same tokens but for their places.  The symbols get the
rows that they had, under their new names, since an injective renaming finds a
name where it would have been found under the old one.
-/

namespace ThreeAddress

/-- The names that occur in a text. -/
def namesIn (source : String) : Set String :=
  {name | ∃ start text type, IsRun 1 source.toList start text ∧
    IsTypedName text name type}

/-- The word with another name.  What follows the name is the suffix, which is
kept, and a word without a name is kept altogether. -/
def renameWord (rename : String → String) (text : List Char) : List Char :=
  if text.head?.any isNameStart then
    (rename (String.ofList (text.takeWhile isNameChar))).toList ++
      text.dropWhile isNameChar
  else text

/-- Renames the words of a text, of which the beginning of the first is
given. -/
def renameFrom (rename : String → String) : List Char → List Char → List Char
  | word, [] => renameWord rename word
  | word, c :: rest =>
    if Separates c then
      renameWord rename word ++ c :: renameFrom rename [] rest
    else renameFrom rename (word ++ [c]) rest

/-- The text with other names, everything else being kept as it is. -/
def renameText (rename : String → String) (source : String) : String :=
  String.ofList (renameFrom rename [] source.toList)

section Texts

variable {rename : String → String}

/-! ## Words -/

theorem IsWordCharacter.toNat_mem
    {c : Char}
    (h : IsWordCharacter c) :
    46 ≤ c.toNat ∧ c.toNat ≤ 122 := by
  rcases h with (hlower | hupper | rfl) | hdigit | hother
  · simp only [Char.le_def, UInt32.le_iff_toNat_le] at hlower
    change 97 ≤ c.toNat ∧ c.toNat ≤ 122 at hlower
    omega
  · simp only [Char.le_def, UInt32.le_iff_toNat_le] at hupper
    change 65 ≤ c.toNat ∧ c.toNat ≤ 90 at hupper
    omega
  · decide
  · simp only [IsDecimalDigit, Char.le_def, UInt32.le_iff_toNat_le] at hdigit
    change 48 ≤ c.toNat ∧ c.toNat ≤ 57 at hdigit
    omega
  · simp only [List.mem_cons, List.not_mem_nil, or_false] at hother
    rcases hother with rfl | rfl | rfl <;> decide

theorem IsWordCharacter.not_separates
    {c : Char}
    (h : IsWordCharacter c) :
    ¬Separates c := by
  rintro (hblank | hmark)
  · have hrange := h.toNat_mem
    simp [Text.isBlank] at hblank
    omega
  · rw [← isRunChar_iff] at h
    simp only [List.mem_cons, List.not_mem_nil, or_false] at hmark
    rcases hmark with rfl | rfl | rfl | rfl | rfl | rfl <;>
      exact absurd h (by decide)

theorem IsNameText.takeWhile_append
    {name rest : List Char}
    (h : IsNameText name)
    (hrest : ∀ c ∈ rest.head?, isNameChar c = false) :
    (name ++ rest).takeWhile isNameChar = name ∧
      (name ++ rest).dropWhile isNameChar = rest := by
  have hname : ∀ c ∈ name, isNameChar c = true := by
    intro c hc
    exact isNameChar_iff.mpr (h.isLetter_or_isDecimalDigit c hc)
  rw [List.takeWhile_append_of_pos hname, List.dropWhile_append_of_pos hname]
  cases rest with
  | nil => simp
  | cons c rest => simp [hrest c rfl]

theorem renameWord_append
    (rename : String → String) {name rest : List Char}
    (h : IsNameText name)
    (hrest : ∀ c ∈ rest.head?, isNameChar c = false) :
    renameWord rename (name ++ rest) =
      (rename (String.ofList name)).toList ++ rest := by
  rcases h.takeWhile_append hrest with ⟨htake, hdrop⟩
  have hstart : (name ++ rest).head?.any isNameStart = true := by
    cases h with
    | mk hfirst hothers => simpa using isNameStart_iff.mpr hfirst
  rw [renameWord, if_pos hstart, htake, hdrop]

theorem IsTypedName.renameWord
    {text : List Char} {name : String} {type : ValueType}
    (h : IsTypedName text name type)
    (hvalid : IsNameText (rename name).toList) :
    IsTypedName (renameWord rename text) (rename name) type := by
  cases h with
  | plain hrow =>
      rw [← List.append_nil text, renameWord_append rename hrow (by simp),
        List.append_nil, List.append_nil]
      simpa using IsTypedName.plain hvalid
  | suffixed hrow hletter =>
      rw [renameWord_append rename hrow (by simp [isNameChar])]
      simpa using IsTypedName.suffixed hvalid hletter

theorem IsConstant.renameWord_eq
    {text : List Char} {value limit : ℚ}
    (h : IsConstant text value limit) :
    renameWord rename text = text := by
  rw [renameWord, if_neg]
  rw [Option.any_eq_true]
  rintro ⟨c, hc, hstart⟩
  exact h.not_isLetter c (List.mem_of_mem_head? hc)
    (isNameStart_iff.mp hstart)

theorem IsTypedName.isUnbroken
    {text : List Char} {name : String} {type : ValueType}
    (h : IsTypedName text name type) :
    IsUnbroken text := by
  rcases h.exists_isLetter with ⟨c, hc, _⟩
  exact ⟨List.ne_nil_of_mem hc, fun d hd =>
    (h.isWordCharacter d hd).not_separates⟩

theorem IsConstant.isUnbroken
    {text : List Char} {value limit : ℚ}
    (h : IsConstant text value limit) :
    IsUnbroken text := by
  rcases h.exists_isDecimalDigit with ⟨c, hc, _⟩
  exact ⟨List.ne_nil_of_mem hc, fun d hd =>
    (h.isWordCharacter d hd).not_separates⟩

/-! ## Texts -/

theorem renameFrom_separator
    (rename : String → String) {c : Char}
    (hc : Separates c)
    (rest : List Char) :
    renameFrom rename [] (c :: rest) = c :: renameFrom rename [] rest := by
  rw [renameFrom, if_pos hc]
  rfl

theorem renameFrom_of_stopsRun
    (rename : String → String) (word : List Char) {after : List Char}
    (hafter : StopsRun after) :
    renameFrom rename word after =
      renameWord rename word ++ renameFrom rename [] after := by
  cases after with
  | nil => exact (List.append_nil _).symm
  | cons c rest =>
      have hc := hafter c rfl
      rw [renameFrom_separator rename hc, renameFrom, if_pos hc]

theorem renameFrom_append
    (rename : String → String) (word : List Char) {run after : List Char}
    (hrun : ∀ c ∈ run, ¬Separates c)
    (hafter : StopsRun after) :
    renameFrom rename word (run ++ after) =
      renameWord rename (word ++ run) ++ renameFrom rename [] after := by
  induction run generalizing word with
  | nil =>
      rw [List.nil_append, List.append_nil]
      exact renameFrom_of_stopsRun rename word hafter
  | cons c run ih =>
      rcases List.forall_mem_cons.mp hrun with ⟨hc, hrest⟩
      rw [List.cons_append, renameFrom, if_neg hc, ih (word ++ [c]) hrest,
        List.append_assoc, List.singleton_append]

theorem stopsRun_renameFrom
    (rename : String → String) {after : List Char}
    (hafter : StopsRun after) :
    StopsRun (renameFrom rename [] after) := by
  cases after with
  | nil => simp [StopsRun, renameFrom, renameWord]
  | cons c rest =>
      have hc := hafter c rfl
      rw [renameFrom_separator rename hc]
      simpa [StopsRun] using hc

end Texts

/-! ## Lexemes -/

namespace Lexeme

/-- The second lexeme is the first one, at another place and with another name
for one of the given names. -/
inductive IsRenamed (rename : String → String) (names : Set String) :
    Lexeme → Lexeme → Prop
  | mark {start start' : Nat} {kind : TokenKind} :
      IsRenamed rename names (.mark start kind) (.mark start' kind)
  | name {start start' : Nat} {text text' : List Char} {name : String}
      {type : ValueType}
      (mem : name ∈ names) (isTypedName : IsTypedName text name type)
      (renamed : IsTypedName text' (rename name) type) :
      IsRenamed rename names (.run start text) (.run start' text')
  | constant {start start' : Nat} {text : List Char} {value limit : ℚ}
      (isConstant : IsConstant text value limit) :
      IsRenamed rename names (.run start text) (.run start' text)

variable {rename : String → String} {names : Set String}

theorem isRenamed_run
    {text : List Char}
    (hword : IsWord text)
    (hnames : ∀ name type, IsTypedName text name type →
      name ∈ names ∧ IsNameText (rename name).toList)
    (start start' : Nat) :
    IsRenamed rename names (.run start text)
        (.run start' (renameWord rename text)) ∧
      IsUnbroken (renameWord rename text) := by
  cases hword with
  | identifier hname =>
      rcases hnames _ _ hname with ⟨hmem, hvalid⟩
      have hrenamed := hname.renameWord hvalid
      exact ⟨.name hmem hname hrenamed, hrenamed.isUnbroken⟩
  | constant hconstant hrange =>
      rw [hconstant.renameWord_eq]
      exact ⟨.constant hconstant, hconstant.isUnbroken⟩

theorem forall₂_isRenamed_cut
    {source : List Char} {first : Nat}
    (hwords : ∀ start text, .run start text ∈ cut first source → IsWord text ∧
      ∀ name type, IsTypedName text name type →
        name ∈ names ∧ IsNameText (rename name).toList)
    (first' : Nat) :
    List.Forall₂ (IsRenamed rename names) (cut first source)
      (cut first' (renameFrom rename [] source)) := by
  induction source using runs_induction generalizing first first' with
  | nil => exact .nil
  | separator c rest hc ih =>
      rw [renameFrom_separator rename hc]
      by_cases hblank : Text.isBlank c = true
      · have hcut :
            ∀ first rest, cut first (c :: rest) = cut (first + 1) rest := by
          intro first rest
          rw [cut, if_pos hblank]
        rw [hcut] at hwords ⊢
        rw [hcut]
        exact ih hwords (first' + 1)
      · cases hkind : markKind? c with
        | none =>
            exact absurd (hc.resolve_left hblank)
              (markKind?_eq_none_iff.mp hkind)
        | some kind =>
            have hcut : ∀ first rest,
                cut first (c :: rest) =
                  .mark first kind :: cut (first + 1) rest := by
              intro first rest
              rw [cut, if_neg hblank, hkind]
            rw [hcut] at hwords ⊢
            rw [hcut]
            refine .cons .mark (ih ?_ (first' + 1))
            exact fun start text hmem =>
              hwords start text (List.mem_cons_of_mem _ hmem)
  | run run after hrun hafter ih =>
      rw [cut_append hrun hafter] at hwords ⊢
      rcases hwords first run List.mem_cons_self with ⟨hword, hnames⟩
      rcases isRenamed_run hword hnames first first' with
        ⟨hrenamed, hunbroken⟩
      rw [renameFrom_append rename [] hrun.2 hafter, List.nil_append,
        cut_append hunbroken (stopsRun_renameFrom rename hafter)]
      refine .cons hrenamed (ih ?_ _)
      exact fun start text hmem =>
        hwords start text (List.mem_cons_of_mem _ hmem)

end Lexeme

/-! ## Symbols -/

def SymbolRow.rename (rename : String → String) (row : SymbolRow) :
    SymbolRow :=
  { row with name := rename row.name }

namespace SymbolTable

def rename (rename : String → String) (table : SymbolTable) : SymbolTable :=
  ⟨table.rows.map (SymbolRow.rename rename)⟩

variable {rename : String → String} {names : Set String}

theorem rename_push
    (rename : String → String) (table : SymbolTable) (row : SymbolRow) :
    (table.push row).rename rename =
      (table.rename rename).push (row.rename rename) := by
  simp [SymbolTable.rename, push]

theorem size_rename
    (rename : String → String) (table : SymbolTable) :
    (table.rename rename).size = table.size :=
  List.length_map _

/-- A name is found where it was found under its old name. -/
theorem lookup?_rename
    {table : SymbolTable} {name : String}
    (hinjective : Set.InjOn rename names)
    (htable : ∀ row ∈ table.rows, row.name ∈ names)
    (hname : name ∈ names) :
    (table.rename rename).lookup? (rename name) =
      (table.lookup? name).map fun found =>
        (found.1, found.2.rename rename) := by
  have hentries : (table.rename rename).entries =
      table.entries.map fun found => (found.1, found.2.rename rename) := by
    simp only [entries, SymbolTable.rename, List.zipIdx_map, List.map_map]
    rfl
  rw [lookup?, lookup?, hentries, List.find?_map]
  congr 1
  refine List.find?_congr fun found hfound => ?_
  rcases List.mem_map.mp hfound with ⟨⟨row, n⟩, hrow, rfl⟩
  have hmem := htable row
      (List.mem_of_getElem? (List.mk_mem_zipIdx_iff_getElem?.mp hrow))
  rw [Bool.eq_iff_iff]
  simpa [SymbolRow.rename] using hinjective.eq_iff hmem hname

theorem define_rename
    {table after : SymbolTable} {name : String} {type : ValueType}
    {provenance : Provenance} {attr : Nat}
    (h : table.define name type provenance = .ok (attr, after))
    (hvalid : isName (rename name).toList = true)
    (hfree : (table.rename rename).lookup? (rename name) = none) :
    (table.rename rename).define (rename name) type provenance =
      .ok (attr, after.rename rename) := by
  rcases define_eq_ok_iff.mp h with ⟨_, _, rfl, rfl⟩
  rw [define_eq_ok_iff, size_rename, rename_push]
  exact ⟨hvalid, binds_eq_false_of_lookup? hfree, rfl, rfl⟩

end SymbolTable

/-! ## Tokens -/

namespace Lexeme

variable {rename : String → String} {names : Set String}

theorem readNumber_of_eq_ok
    {start : Nat} {text : List Char} {literal : Literal}
    (h : readNumber start text = .ok literal)
    (start' : Nat) :
    readNumber start' text = .ok literal := by
  rw [readNumber] at h ⊢
  by_cases hnumeral : Numeral.isNumeral text = true
  · rw [if_pos hnumeral] at h ⊢
    split at h
    · next hrange => exact (if_pos hrange).trans h
    · contradiction
  · rw [if_neg hnumeral] at h ⊢
    split at h
    · next hpoint =>
        rw [if_pos hpoint]
        cases hread : (Single.read? (String.ofList text)).filter
          Single.isFinite with
        | none =>
            rw [hread] at h
            contradiction
        | some x =>
            rw [hread] at h
            exact h
    · contradiction

theorem declare_rename
    {table after : SymbolTable} {start attr : Nat} {lexeme name : String}
    {type : ValueType}
    (hinjective : Set.InjOn rename names)
    (htable : ∀ row ∈ table.rows, row.name ∈ names)
    (hname : name ∈ names)
    (hvalid : isName (rename name).toList = true)
    (h : declare table start lexeme name type = .ok (attr, after))
    (start' : Nat) (lexeme' : String) :
    declare (table.rename rename) start' lexeme' (rename name) type =
        .ok (attr, after.rename rename) ∧
      ∀ row ∈ after.rows, row.name ∈ names := by
  have hlookup := SymbolTable.lookup?_rename hinjective htable hname
  rw [declare] at h ⊢
  cases hfound : table.lookup? name with
  | some found =>
      rw [hfound] at h hlookup
      dsimp only at h
      split at h
      · next htype =>
          rcases Prod.mk.inj (Except.ok.inj h) with ⟨rfl, rfl⟩
          rw [hlookup]
          exact ⟨if_pos htype, htable⟩
      · contradiction
  | none =>
      rw [hfound] at h hlookup
      have hdefine := Success.mapError_eq_ok_iff.mp h
      rw [hlookup]
      refine ⟨Success.mapError_eq_ok_iff.mpr
        (SymbolTable.define_rename hdefine hvalid hlookup), ?_⟩
      rw [(SymbolTable.define_eq_ok_iff.mp hdefine).2.2.2, SymbolTable.push,
        List.forall_mem_append]
      exact ⟨htable, by simpa using hname⟩

theorem readRun_rename
    {table after : SymbolTable} {start start' : Nat}
    {text text' : List Char} {kind : TokenKind}
    (hinjective : Set.InjOn rename names)
    (htable : ∀ row ∈ table.rows, row.name ∈ names)
    (hrenamed : IsRenamed rename names (.run start text) (.run start' text'))
    (h : readRun table start text = .ok (kind, after)) :
    readRun (table.rename rename) start' text' =
        .ok (kind, after.rename rename) ∧
      ∀ row ∈ after.rows, row.name ∈ names := by
  cases hrenamed with
  | name hmem hname hname' =>
      rw [readRun_of_isTypedName hname, readIdentifier,
        typedName?_eq_some_iff.mpr hname] at h
      rw [readRun_of_isTypedName hname', readIdentifier,
        typedName?_eq_some_iff.mpr hname']
      simp only [Success.bind_eq_ok_iff, Success.pure_eq_ok_iff, Prod.exists,
        Prod.mk.injEq] at h
      rcases h with ⟨attr, middle, hdeclare, id, hid, rfl, rfl⟩
      rcases declare_rename hinjective htable hmem hname'.isName hdeclare
        start' (String.ofList text') with ⟨hdeclare', hnames⟩
      refine ⟨?_, hnames⟩
      dsimp only
      rw [hdeclare', Success.ok_bind]
      dsimp only
      rw [hid]
      rfl
  | constant hconstant =>
      rw [readRun_of_isConstant hconstant, Success.bind_eq_ok_iff] at h
      rcases h with ⟨literal, hliteral, hresult⟩
      rcases Prod.mk.inj (Except.ok.inj hresult) with ⟨rfl, rfl⟩
      rw [readRun_of_isConstant hconstant,
        readNumber_of_eq_ok hliteral start']
      exact ⟨rfl, htable⟩

theorem read_rename
    {table after : SymbolTable} {lexeme lexeme' : Lexeme} {token : Token}
    (hinjective : Set.InjOn rename names)
    (htable : ∀ row ∈ table.rows, row.name ∈ names)
    (hrenamed : IsRenamed rename names lexeme lexeme')
    (hstart : 0 < lexeme'.start)
    (h : lexeme.read table = .ok (token, after)) :
    (∃ token', lexeme'.read (table.rename rename) =
        .ok (token', after.rename rename) ∧
      token'.unplaced = token.unplaced) ∧
      ∀ row ∈ after.rows, row.name ∈ names := by
  cases lexeme' with
  | mark start' kind =>
      cases hrenamed
      obtain ⟨rfl, rfl⟩ := read_mark_eq_ok h
      refine ⟨⟨⟨kind, some start'⟩, read_mark hstart kind _, ?_⟩, htable⟩
      rw [Token.unplaced_eq_iff]
  | run start' text' =>
      cases lexeme with
      | mark start kind => cases hrenamed
      | run start text =>
          rcases read_run_eq_ok h with ⟨kind, rfl, hrun⟩
          rcases readRun_rename hinjective htable hrenamed hrun with
            ⟨hrun', hnames⟩
          refine ⟨⟨⟨kind, some start'⟩, read_run hstart hrun', ?_⟩, hnames⟩
          rw [Token.unplaced_eq_iff]

theorem readAll_rename
    {table after : SymbolTable} {lexemes lexemes' : List Lexeme}
    {tokens : List Token}
    (hinjective : Set.InjOn rename names)
    (htable : ∀ row ∈ table.rows, row.name ∈ names)
    (hrenamed : List.Forall₂ (IsRenamed rename names) lexemes lexemes')
    (hstart : ∀ lexeme ∈ lexemes', 0 < lexeme.start)
    (h : readAll table lexemes = .ok (tokens, after)) :
    (∃ tokens', readAll (table.rename rename) lexemes' =
        .ok (tokens', after.rename rename) ∧
      tokens'.map Token.unplaced = tokens.map Token.unplaced) ∧
      ∀ row ∈ after.rows, row.name ∈ names := by
  induction hrenamed generalizing table tokens with
  | nil =>
      obtain ⟨rfl, rfl⟩ := readAll_nil_eq_ok h
      exact ⟨⟨[], rfl, rfl⟩, htable⟩
  | cons hfirst hrest ih =>
      rcases List.forall_mem_cons.mp hstart with ⟨hstartFirst, hstartRest⟩
      rcases readAll_cons_eq_ok h with
        ⟨token, middle, others, hread, hreadAll, rfl⟩
      rcases read_rename hinjective htable hfirst hstartFirst hread with
        ⟨⟨token', hread', htoken⟩, hmiddle⟩
      rcases ih hmiddle hstartRest hreadAll with
        ⟨⟨others', hreadAll', hothers⟩, hfinal⟩
      refine ⟨⟨token' :: others', ?_, ?_⟩, hfinal⟩
      · rw [readAll, hread', Success.ok_bind]
        dsimp only
        rw [hreadAll']
        rfl
      · rw [List.map_cons, List.map_cons, htoken, hothers]

end Lexeme

/-- The renamed text has the same tokens but for their places, and its symbols
are the renamed ones. -/
theorem exists_scan_renameText
    {source : String} {rename : String → String} {tokens : List Token}
    {table : SymbolTable}
    (hscan : scan source = .ok (tokens, table))
    (hinjective : Set.InjOn rename (namesIn source))
    (hvalid : ∀ name ∈ namesIn source, IsNameText (rename name).toList) :
    (∃ tokens', scan (renameText rename source) =
        .ok (tokens', table.rename rename) ∧
      tokens'.map Token.unplaced = tokens.map Token.unplaced) ∧
      ∀ row ∈ table.rows, row.name ∈ namesIn source := by
  have hsound :=
    (Lexeme.readAll_eq_ok_iff Lexeme.start_pos_of_mem_cut).mp ⟨_, hscan⟩
  have hwords : ∀ start text, .run start text ∈ Lexeme.cut 1 source.toList →
      IsWord text ∧
      ∀ name type, IsTypedName text name type →
        name ∈ namesIn source ∧ IsNameText (rename name).toList := by
    intro start text hmem
    refine ⟨(hsound _ hmem).1, ?_⟩
    intro name type hname
    have hoccurs : name ∈ namesIn source :=
      ⟨start, text, type, Lexeme.run_mem_cut_iff.mp hmem, hname⟩
    exact ⟨hoccurs, hvalid name hoccurs⟩
  have hcut := Lexeme.forall₂_isRenamed_cut hwords 1
  have hstart : ∀ lexeme ∈ Lexeme.cut 1 (renameFrom rename [] source.toList),
      0 < lexeme.start :=
    Lexeme.start_pos_of_mem_cut
  have hread := Lexeme.readAll_rename hinjective (by simp [SymbolTable.empty])
      hcut hstart hscan
  rwa [scan, renameText, String.toList_ofList]

end ThreeAddress
