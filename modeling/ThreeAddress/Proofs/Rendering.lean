import ThreeAddress.Proofs.Occurrences

/-!
# Tokens written back

The tokens of a text can be written out again, an identifier by its name and
the suffix of its type, and with blanks between them they are read as the same
tokens.  A piece is cut from the text as it was put in, since no piece has a
blank in it and one that is no mark has no mark in it.  An identifier finds or
gets the same row, whatever suffix it had.  A number is written as its value
is printed, not as it was read, and printing is chosen so that the value and
the text come back.
-/

namespace ThreeAddress

/-! ## Writing tokens -/

def ValueType.suffixLetter : ValueType → Char
  | .integer => 'i'
  | .float => 'f'

/-- The name with the suffix of its type. -/
def SymbolRow.rendered (row : SymbolRow) : List Char :=
  row.name.toList ++ ['[', row.type.suffixLetter, ']']

/-- The token as source text, an identifier by its row. -/
def Token.rendered (table : SymbolTable) (t : Token) : List Char :=
  match t.kind with
  | .identifier id => (table.get? id.attr).elim [] SymbolRow.rendered
  | _ => t.text.toList

/-- The pieces in their order, with blanks between them. -/
inductive JoinedByBlanks : List (List Char) → List Char → Prop
  | none : JoinedByBlanks [] []
  | one (piece : List Char) : JoinedByBlanks [piece] piece
  | more {piece gap next text : List Char} {pieces : List (List Char)}
      (nonempty : gap ≠ [])
      (blank : ∀ c ∈ gap, Text.isBlank c = true)
      (rest : JoinedByBlanks (next :: pieces) text) :
      JoinedByBlanks (piece :: next :: pieces) (piece ++ (gap ++ text))

theorem ValueType.isSuffixLetter
    (type : ValueType) :
    IsSuffixLetter type.suffixLetter type := by
  cases type with
  | integer => exact .lowerInteger
  | float => exact .lowerFloat

theorem SymbolRow.isTypedName_rendered
    {row : SymbolRow}
    (h : isName row.name.toList = true) :
    IsTypedName row.rendered row.name row.type := by
  have htyped :=
    IsTypedName.suffixed (isName_iff.mp h) row.type.isSuffixLetter
  rwa [String.ofList_toList] at htyped

theorem Token.rendered_identifier
    {table : SymbolTable} {id : Identifier} {row : SymbolRow}
    (h : table.get? id.attr = some row)
    (position : Option Nat) :
    rendered table ⟨.identifier id, position⟩ = row.rendered := by
  simp only [rendered, h, Option.elim_some]

namespace IsMark

variable {c : Char} {kind : TokenKind}

theorem separates
    (h : IsMark c kind) :
    Separates c := by
  cases h <;> decide

theorem not_isBlank
    (h : IsMark c kind) :
    ¬Text.isBlank c = true := by
  cases h <;> decide

theorem unique
    {kind' : TokenKind}
    (h : IsMark c kind)
    (h' : IsMark c kind') :
    kind = kind' :=
  Option.some.inj ((Lexeme.markKind?_eq_some_iff.mpr h).symm.trans
    (Lexeme.markKind?_eq_some_iff.mpr h'))

theorem rendered_eq
    (h : IsMark c kind)
    (table : SymbolTable) (position : Option Nat) :
    Token.rendered table ⟨kind, position⟩ = [c] := by
  cases h <;> simp [Token.rendered, Token.text, Operator.lexeme]

end IsMark

/-! ## Cutting the pieces -/

namespace Lexeme

/-- The lexeme is what the piece is cut to. -/
inductive IsCutFrom : List Char → Lexeme → Prop
  | mark {start : Nat} {c : Char} {kind : TokenKind}
      (isMark : IsMark c kind) :
      IsCutFrom [c] (.mark start kind)
  | run {start : Nat} {text : List Char} (isUnbroken : IsUnbroken text) :
      IsCutFrom text (.run start text)

def IsPiece (piece : List Char) : Prop :=
  (∃ c kind, piece = [c] ∧ IsMark c kind) ∨ IsUnbroken piece

theorem IsCutFrom.eq_mark
    {c : Char} {kind : TokenKind} {lexeme : Lexeme}
    (h : IsCutFrom [c] lexeme)
    (hmark : IsMark c kind) :
    lexeme = .mark lexeme.start kind := by
  cases h with
  | mark hmark' => rw [hmark.unique hmark']; rfl
  | run hunbroken =>
      exact absurd hmark.separates (hunbroken.2 c List.mem_cons_self)

theorem IsCutFrom.eq_run
    {text : List Char} {lexeme : Lexeme}
    (h : IsCutFrom text lexeme)
    (htext : IsUnbroken text) :
    lexeme = .run lexeme.start text := by
  cases h with
  | mark hmark => exact absurd hmark.separates (htext.2 _ List.mem_cons_self)
  | run hunbroken => rfl

theorem cut_blanks
    {gap : List Char}
    (hgap : ∀ c ∈ gap, Text.isBlank c = true)
    (first : Nat) (text : List Char) :
    cut first (gap ++ text) = cut (first + gap.length) text := by
  induction gap generalizing first with
  | nil => rfl
  | cons c gap ih =>
      rcases List.forall_mem_cons.mp hgap with ⟨hc, hgap⟩
      rw [List.cons_append, cut_cons_of_isBlank hc, ih hgap, List.length_cons]
      congr 1
      omega

theorem IsPiece.exists_cut
    {piece after : List Char}
    (h : IsPiece piece)
    (hafter : StopsRun after)
    (first : Nat) :
    ∃ lexeme, IsCutFrom piece lexeme ∧
      cut first (piece ++ after) =
        lexeme :: cut (first + piece.length) after := by
  rcases h with ⟨c, kind, rfl, hmark⟩ | hunbroken
  · refine ⟨.mark first kind, .mark hmark, ?_⟩
    rw [List.singleton_append, cut, if_neg hmark.not_isBlank,
      markKind?_eq_some_iff.mpr hmark]
    rfl
  · exact ⟨.run first piece, .run hunbroken,
      cut_append hunbroken hafter first⟩

theorem stopsRun_of_isBlank
    {gap : List Char}
    (hne : gap ≠ [])
    (hgap : ∀ c ∈ gap, Text.isBlank c = true)
    (text : List Char) :
    StopsRun (gap ++ text) := by
  rcases List.exists_cons_of_ne_nil hne with ⟨c, others, rfl⟩
  intro d hd
  obtain rfl : c = d := by simpa using hd
  exact .inl (hgap c List.mem_cons_self)

/-- The pieces are cut apart at the blanks and nowhere else. -/
theorem forall₂_isCutFrom
    {pieces : List (List Char)} {text : List Char}
    (h : JoinedByBlanks pieces text)
    (hpieces : ∀ piece ∈ pieces, IsPiece piece)
    (first : Nat) :
    List.Forall₂ IsCutFrom pieces (cut first text) := by
  induction h generalizing first with
  | none => exact .nil
  | one piece =>
      have hstops : StopsRun [] := by simp [StopsRun]
      rcases (hpieces piece List.mem_cons_self).exists_cut hstops first with
        ⟨lexeme, hcut, htext⟩
      rw [List.append_nil] at htext
      rw [htext]
      exact .cons hcut .nil
  | more hne hblank _ ih =>
      rcases List.forall_mem_cons.mp hpieces with ⟨hpiece, hrest⟩
      rcases hpiece.exists_cut (stopsRun_of_isBlank hne hblank _) first with
        ⟨lexeme, hcut, htext⟩
      rw [htext, cut_blanks hblank]
      exact .cons hcut (ih hrest _)

end Lexeme

theorem StandsAt.isPiece
    {source : List Char} {table : SymbolTable} {t : Token} {span : Set Nat}
    (h : StandsAt source table t span) :
    Lexeme.IsPiece (t.rendered table) := by
  cases h with
  | mark _ hmark => exact .inl ⟨_, _, hmark.rendered_eq table _, hmark⟩
  | @number start text literal _ _ =>
      rcases literal.standsFor.exists_isConstant with
        ⟨value, limit, hconstant⟩
      exact .inr hconstant.isUnbroken
  | identifier _ hname hrow =>
      right
      rw [Token.rendered_identifier hrow]
      exact (SymbolRow.isTypedName_rendered hname.isName).isUnbroken

/-! ## Reading numbers again -/

namespace Lexeme

theorem readNumber_digits
    {n : Nat}
    (h : n < 2 ^ 31)
    (start : Nat) :
    readNumber start (Numeral.digits n) =
      (Literal.ofInt n).mapError .object := by
  rw [readNumber_integer
    (isNumeral_iff_isDigitRow.mp (Numeral.isNumeral_digits n)),
    Numeral.value_digits, if_pos h]

theorem readNumber_toPointText
    {n : Nat}
    (hn : Single.Fits n)
    (start : Nat) :
    readNumber start (Single.toPointText (.finite false n hn)).toList =
      (Literal.ofSingle (.finite false n hn)).mapError .object := by
  rcases Single.exists_toPointText hn with ⟨d, hpointed, hsingle⟩
  rcases d.exists_shownAs with ⟨whole, fraction, hshown⟩
  have hwhole : IsDigitRow whole := isNumeral_iff_isDigitRow.mp
    (Numeral.isNumeral_iff.mpr ⟨hshown.whole_ne_nil, hshown.whole_isDigit⟩)
  have hfraction : IsDigitRow fraction := isNumeral_iff_isDigitRow.mp
    (Numeral.isNumeral_iff.mpr
      ⟨hshown.fraction_ne_nil, hshown.fraction_isDigit⟩)
  rw [hpointed, hshown.pointed_eq,
    readNumber_decimal hwhole hfraction (hshown.toSingle_eq.trans hsingle)]
  rfl

/-- The text of a number that was read is read as the same number. -/
theorem readNumber_text
    {start : Nat} {text : List Char} {literal : Literal}
    (h : readNumber start text = .ok literal)
    (start' : Nat) :
    readNumber start' literal.text.toList = .ok literal := by
  by_cases hconstant : ∃ value limit, IsConstant text value limit
  · rcases hconstant with ⟨value, limit, hconstant⟩
    cases hconstant with
    | integer hrow =>
        rw [readNumber_integer hrow] at h
        split_ifs at h with hrange
        have htext := Literal.text_of_ofText (Success.mapError_eq_ok_iff.mp h)
        rw [Numeral.intText, if_neg (by omega), Int.natAbs_natCast] at htext
        rw [htext, Numeral.text, String.toList_ofList,
          readNumber_digits hrange]
        exact h
    | decimal hwhole hfraction =>
        rw [readNumber_decimal hwhole hfraction rfl] at h
        split_ifs at h with hfinite
        rw [Decimal.isFinite_toSingle_iff] at hfinite
        rcases Decimal.exists_finite_toSingle false hfinite with
          ⟨n, hn, hsingle⟩
        rw [hsingle] at h
        have htext := Literal.text_of_ofText (Success.mapError_eq_ok_iff.mp h)
        rw [htext, readNumber_toPointText]
        exact h
  · push Not at hconstant
    rw [readNumber_of_not_isConstant hconstant] at h
    contradiction

/-! ## Reading names again -/

theorem declare_of_eq_ok
    {table after : SymbolTable} {start attr : Nat} {lexeme name : String}
    {type : ValueType}
    (h : declare table start lexeme name type = .ok (attr, after))
    (start' : Nat) (lexeme' : String) :
    declare table start' lexeme' name type = .ok (attr, after) := by
  rw [declare] at h ⊢
  cases hfound : table.lookup? name with
  | none =>
      rw [hfound] at h
      exact h
  | some found =>
      rw [hfound] at h
      dsimp only at h ⊢
      split at h
      · next htype =>
          rw [if_pos htype]
          exact h
      · contradiction

theorem readRun_of_declare
    {table after : SymbolTable} {start : Nat} {text : List Char}
    {name : String} {id : Identifier}
    (hname : IsTypedName text name id.type)
    (hprovenance : id.provenance = .user)
    (h : declare table start (String.ofList text) name id.type =
      .ok (id.attr, after)) :
    readRun table start text = .ok (.identifier id, after) := by
  have hmake : Identifier.make id.attr id.type .user = .ok id := by
    rw [Identifier.make, dif_pos id.positive, ← hprovenance]
  rw [readRun_of_isTypedName hname, readIdentifier,
    typedName?_eq_some_iff.mpr hname]
  simp only [h, Success.ok_bind, hmake, Success.mapError_ok]
  rfl

/-! ## Reading the text again -/

/-- A run that was read is read again from what is written for it. -/
theorem readRun_rendered
    {table after final : SymbolTable} {start : Nat} {text : List Char}
    {kind : TokenKind}
    (huser : table.IsUser)
    (hfinal : after.Extends final)
    (h : readRun table start text = .ok (kind, after))
    (start' : Nat) (position : Option Nat) :
    IsUnbroken (Token.rendered final ⟨kind, position⟩) ∧
      readRun table start' (Token.rendered final ⟨kind, position⟩) =
        .ok (kind, after) := by
  rcases readRun_eq_ok h with
    ⟨id, name, rfl, hprovenance, htyped, hdeclare⟩ | ⟨literal, rfl,
      hliteral, rfl⟩
  · rcases (readsRun_of_readRun h).exists_row huser with ⟨name', hname, hrow⟩
    obtain rfl : name' = name :=
      (hname.unique (typedName?_eq_some_iff.mp htyped)).1
    have hrendered : IsTypedName (SymbolRow.rendered ⟨name', id.type, .user⟩)
        name' id.type :=
      SymbolRow.isTypedName_rendered hname.isName
    rw [Token.rendered_identifier (hfinal.get?_eq hrow)]
    exact ⟨hrendered.isUnbroken,
      readRun_of_declare hrendered hprovenance
        (declare_of_eq_ok hdeclare start' _)⟩
  · rcases literal.standsFor.exists_isConstant with ⟨value, limit, hconstant⟩
    refine ⟨hconstant.isUnbroken, ?_⟩
    -- The literal has its printed text, not the one that was read.
    change readRun after start' literal.text.toList = _
    rw [readRun_of_isConstant hconstant, readNumber_text hliteral]
    rfl

theorem read_rendered
    {table after final : SymbolTable} {lexeme lexeme' : Lexeme}
    {token : Token}
    (huser : table.IsUser)
    (hplain : lexeme.IsPlain)
    (hfinal : after.Extends final)
    (h : lexeme.read table = .ok (token, after))
    (hcut : IsCutFrom (token.rendered final) lexeme')
    (hstart : 0 < lexeme'.start) :
    lexeme'.read table = .ok (⟨token.kind, some lexeme'.start⟩, after) := by
  cases lexeme with
  | mark start kind =>
      obtain ⟨rfl, rfl⟩ := read_mark_eq_ok h
      rcases hplain with ⟨c, hc⟩
      have hmark := markKind?_eq_some_iff.mp hc
      rw [hmark.rendered_eq] at hcut
      rw [hcut.eq_mark hmark]
      exact read_mark hstart kind after
  | run start text =>
      rcases read_run_eq_ok h with ⟨kind, rfl, hrun⟩
      rcases readRun_rendered huser hfinal hrun lexeme'.start
        (some start) with
        ⟨hunbroken, hread⟩
      rw [hcut.eq_run hunbroken]
      exact read_run hstart hread

/-- Reading goes through the same tables. -/
theorem readAll_rendered
    {lexemes lexemes' : List Lexeme} {table final : SymbolTable}
    {tokens : List Token}
    (huser : table.IsUser)
    (hplain : ∀ lexeme ∈ lexemes, lexeme.IsPlain)
    (h : readAll table lexemes = .ok (tokens, final))
    (hcut : List.Forall₂ (fun t => IsCutFrom (t.rendered final))
      tokens lexemes')
    (hstart : ∀ lexeme ∈ lexemes', 0 < lexeme.start) :
    ∃ tokens', readAll table lexemes' = .ok (tokens', final) ∧
      tokens'.map Token.kind = tokens.map Token.kind := by
  induction lexemes generalizing table tokens lexemes' with
  | nil =>
      obtain ⟨rfl, rfl⟩ := readAll_nil_eq_ok h
      cases hcut
      exact ⟨[], rfl, rfl⟩
  | cons lexeme rest ih =>
      rcases readAll_cons_eq_ok h with
        ⟨token, middle, others, hread, hreadAll, rfl⟩
      rcases List.forall_mem_cons.mp hplain with ⟨hplainFirst, hplainRest⟩
      cases hcut with
      | @cons _ lexeme' _ rest' hcutFirst hcutRest =>
          rcases List.forall_mem_cons.mp hstart with ⟨hstartFirst, hstartRest⟩
          -- The row of a name is written from the last table, which has it
          -- still.
          have hmiddle : middle.IsUser :=
            (read_reads hplainFirst hread).isUser huser
          have hextends := (readAll_reads hplainRest hmiddle hreadAll).1
          have hread' :=
            read_rendered huser hplainFirst hextends hread
              hcutFirst hstartFirst
          rcases ih hmiddle hplainRest hreadAll hcutRest hstartRest with
            ⟨others', hreadAll', hkinds⟩
          refine ⟨⟨token.kind, some lexeme'.start⟩ :: others', ?_, ?_⟩
          · rw [readAll, hread', Success.ok_bind]
            dsimp only
            rw [hreadAll']
            rfl
          · rw [List.map_cons, List.map_cons, hkinds]

end Lexeme

/-- The tokens of a text, written back and joined by blanks, are scanned to
the same tokens but for their places, and to the same table. -/
theorem scan_rendered
    {source : String} {tokens : List Token} {table : SymbolTable}
    (h : scan source = .ok (tokens, table))
    {text : List Char}
    (htext : JoinedByBlanks (tokens.map (Token.rendered table)) text) :
    ∃ tokens', scan (String.ofList text) = .ok (tokens', table) ∧
      tokens'.map Token.kind = tokens.map Token.kind := by
  have hpieces : ∀ piece ∈ tokens.map (Token.rendered table),
      Lexeme.IsPiece piece := by
    rw [List.forall_mem_map]
    intro t ht
    rcases exists_standsAt_of_mem h ht with ⟨span, hstands⟩
    exact hstands.isPiece
  have hcut := List.forall₂_map_left_iff.mp
      (Lexeme.forall₂_isCutFrom htext hpieces 1)
  rw [scan, String.toList_ofList]
  exact Lexeme.readAll_rendered SymbolTable.isUser_empty
    Lexeme.isPlain_of_mem_cut h hcut Lexeme.start_pos_of_mem_cut

/-- Zeros are gone, a decimal has been rounded to zero, and the blanks are of
many kinds. -/
theorem scan_rendered_normalized :
    ∃ tokens table tokens',
      scan "x[F]-007/0.0000000000000000000000000000000000000000000001" =
        .ok (tokens, table) ∧
      tokens.map Token.text = ["<id,1>", "-", "7", "/", "0.0"] ∧
      scan "x[f] -\t7\u2003/\n\u00a00.0" = .ok (tokens', table) ∧
      tokens'.map Token.kind = tokens.map Token.kind := by
  have hpieces :
      (scan "x[F]-007/0.0000000000000000000000000000000000000000000001"
        |>.toOption.map fun out =>
          (out.1.map Token.text, out.1.map (Token.rendered out.2))) =
        some (["<id,1>", "-", "7", "/", "0.0"],
          [['x', '[', 'f', ']'], ['-'], ['7'], ['/'], ['0', '.', '0']]) := by
    decide +kernel
  have htext : JoinedByBlanks [['x', '[', 'f', ']'], ['-'], ['7'], ['/'],
      ['0', '.', '0']]
      ['x', '[', 'f', ']', ' ', '-', '\t', '7', '\u2003', '/', '\n', '\u00a0',
        '0', '.', '0'] :=
    .more (List.cons_ne_nil ' ' []) (by simp [Text.isBlank]) <|
      .more (List.cons_ne_nil '\t' []) (by simp [Text.isBlank]) <|
      .more (List.cons_ne_nil '\u2003' []) (by simp [Text.isBlank]) <|
      .more (List.cons_ne_nil '\n' ['\u00a0'])
        (by simp [Text.isBlank]) (.one _)
  obtain ⟨⟨tokens, table⟩, hscan, hfound⟩ :=
    Success.exists_of_toOption hpieces
  obtain ⟨htexts, hrendered⟩ := Prod.mk.inj hfound
  rw [← hrendered] at htext
  obtain ⟨tokens', hscan', hkinds⟩ := scan_rendered hscan htext
  exact ⟨tokens, table, tokens', hscan, htexts, hscan', hkinds⟩

end ThreeAddress
