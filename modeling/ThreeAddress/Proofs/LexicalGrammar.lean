import ThreeAddress.Token.Scan
import ThreeAddress.Proofs.Literals
import ThreeAddress.Proofs.Range

/-!
# The lexical grammar

A word is a name with an optional type suffix, or a constant in the range of
its type.  The grammar is stated on the characters alone, and the readers of
names and constants decide it.
-/

namespace ThreeAddress

def IsLetter (c : Char) : Prop :=
  ('a' ≤ c ∧ c ≤ 'z') ∨ ('A' ≤ c ∧ c ≤ 'Z') ∨ c = '_'

def IsDecimalDigit (c : Char) : Prop := '0' ≤ c ∧ c ≤ '9'

/-- The characters that words consist of. -/
def IsWordCharacter (c : Char) : Prop :=
  IsLetter c ∨ IsDecimalDigit c ∨ c ∈ ['.', '[', ']']

def IsDigitRow (row : List Char) : Prop :=
  row ≠ [] ∧ ∀ c ∈ row, IsDecimalDigit c

inductive IsNameText : List Char → Prop
  | mk {c : Char} {rest : List Char} (first : IsLetter c)
      (others : ∀ d ∈ rest, IsLetter d ∨ IsDecimalDigit d) :
        IsNameText (c :: rest)

inductive IsSuffixLetter : Char → ValueType → Prop
  | lowerInteger : IsSuffixLetter 'i' .integer
  | upperInteger : IsSuffixLetter 'I' .integer
  | lowerFloat : IsSuffixLetter 'f' .float
  | upperFloat : IsSuffixLetter 'F' .float

/-- The text is the name, with the suffix of the type or with none. -/
inductive IsTypedName : List Char → String → ValueType → Prop
  | plain {name : List Char} (isName : IsNameText name) :
      IsTypedName name (String.ofList name) .integer
  | suffixed {name : List Char} {letter : Char} {type : ValueType}
      (isName : IsNameText name) (isSuffix : IsSuffixLetter letter type) :
      IsTypedName (name ++ ['[', letter, ']']) (String.ofList name) type

/-- The text is a constant of the given value, which is in range below the
given limit: integers have 31 bits, and decimals from 2¹²⁸ - 2¹⁰³ on are
nearer to infinity than to a number of single precision. -/
inductive IsConstant : List Char → ℚ → ℚ → Prop
  | integer {row : List Char} (digits : IsDigitRow row) :
      IsConstant row (Numeral.value row) (2 ^ 31)
  | decimal {whole fraction : List Char} (before : IsDigitRow whole)
      (behind : IsDigitRow fraction) :
      IsConstant (whole ++ '.' :: fraction)
        (Numeral.value (whole ++ fraction) / 10 ^ fraction.length)
        (2 ^ 128 - 2 ^ 103)

inductive IsWord (text : List Char) : Prop
  | identifier {name : String} {type : ValueType}
      (isTypedName : IsTypedName text name type)
  | constant {value limit : ℚ} (isConstant : IsConstant text value limit)
      (inRange : value < limit)

/-- The text is a constant of the type, in range, and stands for the cell. -/
inductive StandsFor : ValueType → List Char → Cell → Prop
  | integer {row : List Char} (digits : IsDigitRow row)
      (inRange : (Numeral.value row : ℚ) < 2 ^ 31) :
      StandsFor .integer row (.integer (Numeral.value row))
  | float {whole fraction : List Char} (before : IsDigitRow whole)
      (behind : IsDigitRow fraction)
      (inRange :
        (Numeral.value (whole ++ fraction) / 10 ^ fraction.length : ℚ) <
        2 ^ 128 - 2 ^ 103) :
      StandsFor .float (whole ++ '.' :: fraction)
        (.float (Decimal.toSingle false
          ⟨Numeral.value (whole ++ fraction), -fraction.length⟩))

/-! ## Characters -/

theorem isDigit_iff
    {c : Char} :
    c.isDigit = true ↔ IsDecimalDigit c := by
  simp [Char.isDigit, IsDecimalDigit, Char.le_def]

theorem isNameStart_iff
    {c : Char} :
    isNameStart c = true ↔ IsLetter c := by
  change ((decide ('A' ≤ c ∧ c ≤ 'Z') ||
      (decide ('a' ≤ c) && decide (c ≤ 'z'))) || c == '_') = true ↔ _
  simp only [Bool.or_eq_true, Bool.and_eq_true, decide_eq_true_eq,
    beq_iff_eq, IsLetter]
  tauto

theorem isNameChar_iff
    {c : Char} :
    isNameChar c = true ↔ IsLetter c ∨ IsDecimalDigit c := by
  rw [← isNameStart_iff, ← isDigit_iff]
  simp only [isNameChar, isNameStart, Char.isAlphanum, Bool.or_eq_true]
  tauto

theorem isRunChar_iff
    {c : Char} :
    Lexeme.isRunChar c = true ↔ IsWordCharacter c := by
  rw [IsWordCharacter, ← or_assoc, ← isNameChar_iff]
  simp [Lexeme.isRunChar, isNameChar, or_assoc]

theorem IsDecimalDigit.not_isLetter
    {c : Char}
    (h : IsDecimalDigit c) :
    ¬IsLetter c := by
  rintro (hlower | hupper | rfl)
  · exact absurd (Char.le_trans hlower.1 h.2) (by decide)
  · exact absurd (Char.le_trans hupper.1 h.2) (by decide)
  · exact absurd h.2 (by decide)

theorem isNumeral_iff_isDigitRow
    {row : List Char} :
    Numeral.isNumeral row = true ↔ IsDigitRow row := by
  simp [Numeral.isNumeral_iff, IsDigitRow, isDigit_iff]

/-! ## Names -/

theorem isName_iff
    {text : List Char} :
    isName text = true ↔ IsNameText text := by
  cases text with
  | nil => simpa [isName] using fun h : IsNameText [] => nomatch h
  | cons c rest =>
      simp only [isName, Bool.and_eq_true, List.all_eq_true, isNameStart_iff,
        isNameChar_iff]
      constructor
      · rintro ⟨hfirst, hothers⟩
        exact .mk hfirst hothers
      · rintro ⟨hfirst, hothers⟩
        exact ⟨hfirst, hothers⟩

theorem IsNameText.isLetter_or_isDecimalDigit
    {name : List Char}
    (h : IsNameText name) :
    ∀ c ∈ name, IsLetter c ∨ IsDecimalDigit c := by
  rcases h with ⟨hfirst, hothers⟩
  exact List.forall_mem_cons.mpr ⟨.inl hfirst, hothers⟩

theorem IsNameText.exists_isLetter
    {name : List Char}
    (h : IsNameText name) :
    ∃ c ∈ name, IsLetter c := by
  rcases h with ⟨hfirst, _⟩
  exact ⟨_, List.mem_cons_self, hfirst⟩

theorem suffixType?_eq_some_iff
    {letter : Char} {type : ValueType} :
    Lexeme.suffixType? letter = some type ↔ IsSuffixLetter letter type := by
  constructor
  · intro h
    unfold Lexeme.suffixType? at h
    split at h
    · exact Option.some.inj h ▸ .lowerInteger
    · exact Option.some.inj h ▸ .upperInteger
    · exact Option.some.inj h ▸ .lowerFloat
    · exact Option.some.inj h ▸ .upperFloat
    · contradiction
  · rintro (_ | _ | _ | _) <;> rfl

theorem IsSuffixLetter.isLetter
    {letter : Char} {type : ValueType}
    (h : IsSuffixLetter letter type) :
    IsLetter letter := by
  rw [← isNameStart_iff]
  cases h <;> rfl

theorem splitSuffix_suffixed
    {letter : Char} {type : ValueType}
    (h : IsSuffixLetter letter type)
    (name : List Char) :
    Lexeme.splitSuffix (name ++ ['[', letter, ']']) = (name, type) := by
  simp [Lexeme.splitSuffix, suffixType?_eq_some_iff.mpr h]

theorem splitSuffix_plain
    {name : List Char}
    (h : IsNameText name) :
    Lexeme.splitSuffix name = (name, .integer) := by
  unfold Lexeme.splitSuffix
  split
  · next letter rest hreverse =>
      have hmem : ']' ∈ name := by
        rw [← List.mem_reverse, hreverse]
        exact List.mem_cons_self
      rcases h.isLetter_or_isDecimalDigit _ hmem with hletter | hdigit
      · exact absurd (isNameStart_iff.mpr hletter) (by decide)
      · exact absurd (isDigit_iff.mpr hdigit) (by decide)
  · rfl

theorem splitSuffix_cases
    (text : List Char) :
    Lexeme.splitSuffix text = (text, .integer) ∨
      ∃ name letter type, text = name ++ ['[', letter, ']'] ∧
        IsSuffixLetter letter type ∧
        Lexeme.splitSuffix text = (name, type) := by
  unfold Lexeme.splitSuffix
  split
  · next letter rest hreverse =>
      cases htype : Lexeme.suffixType? letter with
      | none => exact .inl rfl
      | some type =>
          right
          refine ⟨rest.reverse, letter, type, ?_,
            suffixType?_eq_some_iff.mp htype, rfl⟩
          rw [← List.reverse_reverse text, hreverse]
          simp
  · exact .inl rfl

theorem typedName?_eq_some_iff
    {text : List Char} {name : String} {type : ValueType} :
    Lexeme.typedName? text = some (name, type) ↔
      IsTypedName text name type := by
  have hread : ∀ {row : List Char} {found : ValueType},
      Lexeme.splitSuffix text = (row, found) →
        (Lexeme.typedName? text = some (name, type) ↔
        IsNameText row ∧ String.ofList row = name ∧ found = type) := by
    intro row found hsplit
    simp [Lexeme.typedName?, hsplit, isName_iff]
  constructor
  · intro h
    rcases splitSuffix_cases text with
      hsplit | ⟨row, letter, found, rfl, hletter, hsplit⟩
    · rcases (hread hsplit).mp h with ⟨hname, rfl, rfl⟩
      exact .plain hname
    · rcases (hread hsplit).mp h with ⟨hname, rfl, rfl⟩
      exact .suffixed hname hletter
  · intro h
    cases h with
    | plain hname =>
        exact (hread (splitSuffix_plain hname)).mpr ⟨hname, rfl, rfl⟩
    | suffixed hname hletter =>
        exact (hread (splitSuffix_suffixed hletter _)).mpr ⟨hname, rfl, rfl⟩

theorem typedName?_eq_none_iff
    {text : List Char} :
    Lexeme.typedName? text = none ↔
      ∀ name type, ¬IsTypedName text name type := by
  simp only [← typedName?_eq_some_iff, Option.eq_none_iff_forall_ne_some,
    Prod.forall, ne_eq]

theorem IsTypedName.unique
    {text : List Char} {name name' : String} {type type' : ValueType}
    (h : IsTypedName text name type)
    (h' : IsTypedName text name' type') :
    name = name' ∧ type = type' := by
  rw [← typedName?_eq_some_iff] at h h'
  simpa using h.symm.trans h'

theorem IsTypedName.isName
    {text : List Char} {name : String} {type : ValueType}
    (h : IsTypedName text name type) :
    ThreeAddress.isName name.toList = true := by
  cases h with
  | plain hname => simpa [isName_iff] using hname
  | suffixed hname _ => simpa [isName_iff] using hname

theorem IsTypedName.exists_isLetter
    {text : List Char} {name : String} {type : ValueType}
    (h : IsTypedName text name type) :
    ∃ c ∈ text, IsLetter c := by
  cases h with
  | plain hname => exact hname.exists_isLetter
  | suffixed hname _ =>
      rcases hname.exists_isLetter with ⟨c, hc, hletter⟩
      exact ⟨c, List.mem_append_left _ hc, hletter⟩

theorem IsTypedName.isWordCharacter
    {text : List Char} {name : String} {type : ValueType}
    (h : IsTypedName text name type) :
    ∀ c ∈ text, IsWordCharacter c := by
  have hname : ∀ {row : List Char}, IsNameText row → ∀ c ∈ row,
      IsWordCharacter c := by
    intro row hrow c hc
    rcases hrow.isLetter_or_isDecimalDigit c hc with hletter | hdigit
    · exact .inl hletter
    · exact .inr (.inl hdigit)
  cases h with
  | plain hrow => exact hname hrow
  | suffixed hrow hletter =>
      intro c hc
      rcases List.mem_append.mp hc with hc | hc
      · exact hname hrow c hc
      · simp only [List.mem_cons, List.not_mem_nil, or_false] at hc
        rcases hc with rfl | rfl | rfl
        · exact .inr (.inr (by simp))
        · exact .inl hletter.isLetter
        · exact .inr (.inr (by simp))

/-! ## Constants -/

theorem IsConstant.isDecimalDigit_or_eq
    {text : List Char} {value limit : ℚ}
    (h : IsConstant text value limit) :
    ∀ c ∈ text, IsDecimalDigit c ∨ c = '.' := by
  cases h with
  | integer hrow => exact fun c hc => .inl (hrow.2 c hc)
  | decimal hwhole hfraction =>
      intro c hc
      rw [List.mem_append, List.mem_cons] at hc
      rcases hc with hc | rfl | hc
      · exact .inl (hwhole.2 c hc)
      · exact .inr rfl
      · exact .inl (hfraction.2 c hc)

theorem IsConstant.isWordCharacter
    {text : List Char} {value limit : ℚ}
    (h : IsConstant text value limit) :
    ∀ c ∈ text, IsWordCharacter c := by
  intro c hc
  rcases h.isDecimalDigit_or_eq c hc with hdigit | rfl
  · exact .inr (.inl hdigit)
  · exact .inr (.inr (by simp))

theorem IsConstant.not_isLetter
    {text : List Char} {value limit : ℚ}
    (h : IsConstant text value limit) :
    ∀ c ∈ text, ¬IsLetter c := by
  intro c hc
  rcases h.isDecimalDigit_or_eq c hc with hdigit | rfl
  · exact hdigit.not_isLetter
  · rw [← isNameStart_iff]
    decide

theorem IsConstant.exists_isDecimalDigit
    {text : List Char} {value limit : ℚ}
    (h : IsConstant text value limit) :
    ∃ c ∈ text, IsDecimalDigit c := by
  cases h with
  | integer hrow =>
      rcases List.exists_mem_of_ne_nil _ hrow.1 with ⟨c, hc⟩
      exact ⟨c, hc, hrow.2 c hc⟩
  | decimal hwhole _ =>
      rcases List.exists_mem_of_ne_nil _ hwhole.1 with ⟨c, hc⟩
      exact ⟨c, List.mem_append_left _ hc, hwhole.2 c hc⟩

theorem read?_decimal
    {whole fraction : List Char}
    (hwhole : IsDigitRow whole)
    (hfraction : IsDigitRow fraction) :
    Single.read? (String.ofList (whole ++ '.' :: fraction)) = some
      (Decimal.toSingle false
        ⟨Numeral.value (whole ++ fraction), -fraction.length⟩) := by
  rw [← isNumeral_iff_isDigitRow, Numeral.isNumeral_iff] at hwhole hfraction
  exact Single.read?_of_digits String.toList_ofList hwhole.1
    hwhole.2 hfraction.2

theorem decimal_lt_limit_iff
    {whole fraction : List Char} :
    (Numeral.value (whole ++ fraction) / 10 ^ fraction.length : ℚ) <
        2 ^ 128 - 2 ^ 103 ↔
      Numeral.value (whole ++ fraction) <
        (2 ^ 128 - 2 ^ 103) * 10 ^ fraction.length := by
  have hlimit : (2 ^ 128 - 2 ^ 103 : ℚ) = ((2 ^ 128 - 2 ^ 103 : ℕ) : ℚ) := by
    norm_num
  rw [div_lt_iff₀ (by positivity), hlimit]
  exact_mod_cast Iff.rfl

theorem StandsFor.exists_isConstant
    {type : ValueType} {text : List Char} {cell : Cell}
    (h : StandsFor type text cell) :
    ∃ value limit, IsConstant text value limit := by
  cases h with
  | integer hrow _ => exact ⟨_, _, .integer hrow⟩
  | float hwhole hfraction _ => exact ⟨_, _, .decimal hwhole hfraction⟩

theorem Literal.standsFor
    (literal : Literal) :
    StandsFor literal.type literal.text.toList literal.cell := by
  have hreads := literal.reads
  cases htype : literal.type with
  | integer =>
      rw [htype, read] at hreads
      split_ifs at hreads with hnumeral hrange
      rw [← Except.ok.inj hreads]
      exact .integer (isNumeral_iff_isDigitRow.mp hnumeral)
        (by exact_mod_cast hrange)
  | float =>
      rw [htype] at hreads
      rcases read_float_eq_ok hreads with ⟨x, hread, hfinite, hcell⟩
      have hpoint : isPointNumeral literal.text.toList = true := by
        by_contra hpoint
        simp [read, hpoint] at hreads
      rcases isPointNumeral_iff.mp hpoint with
        ⟨whole, fraction, htext, hwhole, hfraction⟩
      rw [isNumeral_iff_isDigitRow] at hwhole hfraction
      have hsingle := read?_decimal hwhole hfraction
      rw [← htext, String.ofList_toList, hread] at hsingle
      rw [Option.some.inj hsingle, Decimal.isFinite_toSingle_iff] at hfinite
      rw [htext, hcell, Option.some.inj hsingle]
      exact .float hwhole hfraction (decimal_lt_limit_iff.mpr hfinite)

theorem readNumber_integer
    {row : List Char}
    (h : IsDigitRow row)
    (start : Nat) :
    Lexeme.readNumber start row =
      if Numeral.value row < 2 ^ 31 then
        (Literal.ofInt (Numeral.value row)).mapError .object
      else .error
        (.lexical start (.constantOutOfRange (String.ofList row))) := by
  rw [Lexeme.readNumber, if_pos (isNumeral_iff_isDigitRow.mpr h)]

theorem readNumber_decimal
    {whole fraction : List Char}
    (hwhole : IsDigitRow whole)
    (hfraction : IsDigitRow fraction)
    {x : Single}
    (hx : Decimal.toSingle false
      ⟨Numeral.value (whole ++ fraction), -fraction.length⟩ = x)
    (start : Nat) :
    Lexeme.readNumber start (whole ++ '.' :: fraction) =
      if x.isFinite then (Literal.ofSingle x).mapError .object
      else .error (.lexical start
        (.constantOutOfRange
          (String.ofList (whole ++ '.' :: fraction)))) := by
  have hnumeral : ¬Numeral.isNumeral (whole ++ '.' :: fraction) = true := by
    intro hnumeral
    have hpoint := (isNumeral_iff_isDigitRow.mp hnumeral).2 '.' (by simp)
    exact absurd (isDigit_iff.mpr hpoint) (by decide)
  have hpoint : Literal.isPointNumeral (whole ++ '.' :: fraction) = true :=
    Literal.isPointNumeral_iff.mpr
      ⟨whole, fraction, rfl, isNumeral_iff_isDigitRow.mpr hwhole,
        isNumeral_iff_isDigitRow.mpr hfraction⟩
  rw [Lexeme.readNumber, if_neg hnumeral, if_pos hpoint,
    read?_decimal hwhole hfraction, hx, Option.filter_some]
  split_ifs <;> rfl

theorem readNumber_of_lt
    {text : List Char} {value limit : ℚ}
    (h : IsConstant text value limit)
    (hrange : value < limit)
    (start : Nat) :
    ∃ literal, Lexeme.readNumber start text = .ok literal := by
  cases h with
  | integer hrow =>
      have hbits : Numeral.value text < 2 ^ 31 := by exact_mod_cast hrange
      rcases Literal.exists_ofInt hbits with ⟨literal, hliteral⟩
      refine ⟨literal, ?_⟩
      rw [readNumber_integer hrow, if_pos hbits, hliteral,
        Success.mapError_ok]
  | decimal hwhole hfraction =>
      rw [decimal_lt_limit_iff] at hrange
      rcases Decimal.exists_finite_toSingle false hrange with ⟨n, hn, hsingle⟩
      rcases Literal.exists_ofSingle hn with ⟨literal, hliteral⟩
      refine ⟨literal, ?_⟩
      rw [readNumber_decimal hwhole hfraction hsingle, hliteral]
      rfl

theorem readNumber_of_le
    {text : List Char} {value limit : ℚ}
    (h : IsConstant text value limit)
    (hrange : limit ≤ value)
    (start : Nat) :
    Lexeme.readNumber start text =
      .error (.lexical start (.constantOutOfRange (String.ofList text))) := by
  cases h with
  | integer hrow =>
      have hbits : ¬Numeral.value text < 2 ^ 31 := by
        exact_mod_cast not_lt.mpr hrange
      rw [readNumber_integer hrow, if_neg hbits]
  | decimal hwhole hfraction =>
      have hinfinite := mt decimal_lt_limit_iff.mpr (not_lt.mpr hrange)
      rw [← Decimal.isFinite_toSingle_iff false] at hinfinite
      rw [readNumber_decimal hwhole hfraction rfl, if_neg hinfinite]

theorem readNumber_of_not_isConstant
    {text : List Char}
    (h : ∀ value limit, ¬IsConstant text value limit)
    (start : Nat) :
    Lexeme.readNumber start text =
      .error (.lexical start (.malformedConstant (String.ofList text))) := by
  have hnumeral : ¬Numeral.isNumeral text = true := by
    intro hnumeral
    exact h _ _ (.integer (isNumeral_iff_isDigitRow.mp hnumeral))
  have hpoint : ¬Literal.isPointNumeral text = true := by
    intro hpoint
    rcases Literal.isPointNumeral_iff.mp hpoint with
      ⟨whole, fraction, rfl, hwhole, hfraction⟩
    exact h _ _ (.decimal (isNumeral_iff_isDigitRow.mp hwhole)
      (isNumeral_iff_isDigitRow.mp hfraction))
  rw [Lexeme.readNumber, if_neg hnumeral, if_neg hpoint]

end ThreeAddress
