import ThreeAddress.Proofs.LexicalGrammar
import ThreeAddress.Proofs.Runs
import ThreeAddress.Proofs.Symbols

/-!
# Accepted texts and reported faults

Scanning accepts a text if every run is a word and all words of one name have
one type.  Otherwise it reports the fault of the leftmost run that is none, or
whose type is not that of the first word of its name.
-/

namespace ThreeAddress

/-- The error that a run at the given place has, if the names are declared as
given.  A character that no word has is reported first. -/
inductive Faulty (declared : String → ValueType → Prop) (start : Nat)
    (text : List Char) :
    Error → Prop
  | unexpectedCharacter {before after : List Char} {c : Char}
      (split : text = before ++ c :: after) (proper : ∀ d ∈ before,
        IsWordCharacter d)
      (improper : ¬IsWordCharacter c) :
      Faulty declared start text
        (.lexical (start + before.length) (.unexpectedCharacter c))
  | leadingDigit (proper : ∀ c ∈ text, IsWordCharacter c)
      (letter : ∃ c ∈ text, IsLetter c)
      (noName : ∀ name type, ¬IsTypedName text name type)
      (digit : ∃ c ∈ text.head?, IsDecimalDigit c) :
      Faulty declared start text
        (.lexical start (.leadingDigit (String.ofList text)))
  | malformedTypeSuffix (proper : ∀ c ∈ text, IsWordCharacter c)
      (letter : ∃ c ∈ text, IsLetter c) (noName : ∀ name type,
        ¬IsTypedName text name type)
      (noDigit : ∀ c ∈ text.head?, ¬IsDecimalDigit c) :
      Faulty declared start text
        (.lexical start (.malformedTypeSuffix (String.ofList text)))
  | typeMismatch {name : String} {type other : ValueType}
      (isTypedName : IsTypedName text name type) (first : declared name other)
      (differs : other ≠ type) :
      Faulty declared start text
        (.semantic start (.typeMismatch (String.ofList text)))
  | malformedConstant (proper : ∀ c ∈ text, IsWordCharacter c)
      (noLetter : ∀ c ∈ text, ¬IsLetter c) (digit : ∃ c ∈ text,
        IsDecimalDigit c)
      (noConstant : ∀ value limit, ¬IsConstant text value limit) :
      Faulty declared start text
        (.lexical start (.malformedConstant (String.ofList text)))
  | constantOutOfRange {value limit : ℚ}
      (isConstant : IsConstant text value limit)
      (outOfRange : limit ≤ value) :
      Faulty declared start text
        (.lexical start (.constantOutOfRange (String.ofList text)))
  | unrecognizedLexeme (proper : ∀ c ∈ text, IsWordCharacter c)
      (noLetter : ∀ c ∈ text, ¬IsLetter c) (noDigit : ∀ c ∈ text,
        ¬IsDecimalDigit c) :
      Faulty declared start text
        (.lexical start (.unrecognizedLexeme (String.ofList text)))

/-- The run is a word, and as a name it has the type that is declared. -/
def IsSound (declared : String → ValueType → Prop) (text : List Char) :
    Prop :=
  IsWord text ∧
    ∀ name type other, IsTypedName text name type → declared name other →
      other = type

namespace SymbolTable

def typeOf? (table : SymbolTable) (name : String) : Option ValueType :=
  (table.lookup? name).map (·.2.type)

theorem typeOf?_push
    (table : SymbolTable) (row : SymbolRow) (name : String) :
    (table.push row).typeOf? name =
      (table.typeOf? name).or
        (if row.name = name then some row.type else none) := by
  have hentries : (table.push row).entries =
      table.entries ++ [(table.size + 1, row)] := by
    simp [entries, push, size, List.zipIdx_append]
  rw [typeOf?, typeOf?, lookup?, lookup?, hentries, List.find?_append,
    Option.map_or]
  congr 1
  by_cases hname : row.name = name <;> simp [hname]

theorem binds_eq_false_of_lookup?
    {table : SymbolTable} {name : String}
    (h : table.lookup? name = none) :
    table.binds name = false := by
  rw [lookup?, List.find?_eq_none] at h
  rw [binds, List.any_eq_false]
  intro row hrow
  rcases List.getElem?_of_mem hrow with ⟨n, hn⟩
  have hmem : (n + 1, row) ∈ table.entries :=
    List.mem_map.mpr ⟨(row, n), List.mk_mem_zipIdx_iff_getElem?.mpr hn, rfl⟩
  exact h _ hmem

theorem pos_of_lookup?
    {table : SymbolTable} {name : String} {attr : Nat} {row : SymbolRow}
    (h : table.lookup? name = some (attr, row)) :
    0 < attr := by
  rcases get?_eq_some_iff.mp (get?_of_lookup? h) with ⟨n, rfl, _⟩
  exact Nat.succ_pos n

end SymbolTable

namespace Lexeme

/-! ## Classes of runs -/

theorem intruder?_eq_some_iff
    {start place : Nat} {c : Char} {text : List Char} :
    intruder? start text = some (place, c) ↔
      ∃ before after, text = before ++ c :: after ∧
      (∀ d ∈ before, IsWordCharacter d) ∧ ¬IsWordCharacter c ∧
        place = start + before.length := by
  induction text generalizing start with
  | nil => simp [intruder?]
  | cons d rest ih =>
      rw [intruder?]
      split_ifs with hd <;> rw [isRunChar_iff] at hd
      · rw [ih]
        constructor
        · rintro ⟨before, after, rfl, hbefore, hc, rfl⟩
          refine ⟨d :: before, after, rfl,
            List.forall_mem_cons.mpr ⟨hd, hbefore⟩, hc, ?_⟩
          rw [List.length_cons]
          omega
        · rintro ⟨before, after, hsplit, hbefore, hc, rfl⟩
          cases before with
          | nil => exact absurd ((List.cons.inj hsplit).1 ▸ hd) hc
          | cons e before =>
              refine ⟨before, after, (List.cons.inj hsplit).2,
                (List.forall_mem_cons.mp hbefore).2, hc, ?_⟩
              rw [List.length_cons]
              omega
      · constructor
        · intro h
          rcases Option.some.inj h with ⟨rfl, rfl⟩
          exact ⟨[], rest, rfl, by simp, hd, rfl⟩
        · rintro ⟨before, after, hsplit, hbefore, hc, rfl⟩
          cases before with
          | nil => simp [(List.cons.inj hsplit).1]
          | cons e before =>
              rw [(List.cons.inj hsplit).1] at hd
              exact absurd (hbefore e List.mem_cons_self) hd

theorem intruder?_eq_none_iff
    {start : Nat} {text : List Char} :
    intruder? start text = none ↔ ∀ c ∈ text, IsWordCharacter c := by
  induction text generalizing start with
  | nil => simp [intruder?]
  | cons d rest ih =>
      rw [intruder?, List.forall_mem_cons]
      split_ifs with hd <;> rw [isRunChar_iff] at hd
      · simp [ih, hd]
      · simp [hd]

theorem any_isNameStart_iff
    {text : List Char} :
    text.any isNameStart = true ↔ ∃ c ∈ text, IsLetter c := by
  simp [List.any_eq_true, isNameStart_iff]

theorem not_any_isNameStart
    {text : List Char}
    (h : ∀ c ∈ text, ¬IsLetter c) :
    ¬text.any isNameStart = true := by
  rw [any_isNameStart_iff]
  rintro ⟨c, hc, hletter⟩
  exact h c hc hletter

theorem any_isDigit_iff
    {text : List Char} :
    text.any Char.isDigit = true ↔ ∃ c ∈ text, IsDecimalDigit c := by
  simp [List.any_eq_true, isDigit_iff]

theorem readRun_of_isLetter
    {text : List Char}
    (hproper : ∀ c ∈ text, IsWordCharacter c)
    (hletter : ∃ c ∈ text, IsLetter c)
    (table : SymbolTable) (start : Nat) :
    readRun table start text = readIdentifier table start text := by
  rw [readRun, intruder?_eq_none_iff.mpr hproper]
  exact if_pos (any_isNameStart_iff.mpr hletter)

theorem readRun_of_isDecimalDigit
    {text : List Char}
    (hproper : ∀ c ∈ text, IsWordCharacter c)
    (hletter : ∀ c ∈ text, ¬IsLetter c)
    (hdigit : ∃ c ∈ text, IsDecimalDigit c)
    (table : SymbolTable) (start : Nat) :
    readRun table start text =
      (readNumber start text >>= fun literal =>
        pure (.number literal, table)) := by
  rw [readRun, intruder?_eq_none_iff.mpr hproper]
  exact (if_neg (not_any_isNameStart hletter)).trans
    (if_pos (any_isDigit_iff.mpr hdigit))

theorem readRun_of_neither
    {text : List Char}
    (hproper : ∀ c ∈ text, IsWordCharacter c)
    (hletter : ∀ c ∈ text, ¬IsLetter c)
    (hdigit : ∀ c ∈ text, ¬IsDecimalDigit c)
    (table : SymbolTable) (start : Nat) :
    readRun table start text =
      .error (.lexical start (.unrecognizedLexeme (String.ofList text))) := by
  have hnoDigit : ¬text.any Char.isDigit = true := by
    rw [any_isDigit_iff]
    rintro ⟨c, hc, h⟩
    exact hdigit c hc h
  rw [readRun, intruder?_eq_none_iff.mpr hproper]
  exact (if_neg (not_any_isNameStart hletter)).trans (if_neg hnoDigit)

theorem readRun_of_isTypedName
    {text : List Char} {name : String} {type : ValueType}
    (h : IsTypedName text name type)
    (table : SymbolTable) (start : Nat) :
    readRun table start text = readIdentifier table start text :=
  readRun_of_isLetter h.isWordCharacter h.exists_isLetter table start

theorem readRun_of_isConstant
    {text : List Char} {value limit : ℚ}
    (h : IsConstant text value limit)
    (table : SymbolTable) (start : Nat) :
    readRun table start text =
      (readNumber start text >>= fun literal =>
        pure (.number literal, table)) :=
  readRun_of_isDecimalDigit h.isWordCharacter h.not_isLetter
    h.exists_isDecimalDigit table start

/-- Which kind of word a run can at most be. -/
theorem run_cases
    (text : List Char) :
    (∃ before c after, text = before ++ c :: after ∧
      (∀ d ∈ before, IsWordCharacter d) ∧ ¬IsWordCharacter c) ∨
      (∃ name type, IsTypedName text name type) ∨
      (∃ value limit, IsConstant text value limit) ∨
      (∀ c ∈ text, IsWordCharacter c) ∧
        (((∃ c ∈ text, IsLetter c) ∧
          ∀ name type, ¬IsTypedName text name type) ∨
        (∀ c ∈ text, ¬IsLetter c) ∧
          ∀ value limit, ¬IsConstant text value limit) := by
  cases hintruder : intruder? 0 text with
  | some found =>
      rcases intruder?_eq_some_iff.mp hintruder with
        ⟨before, after, hsplit, hbefore, hc, _⟩
      exact .inl ⟨before, found.2, after, hsplit, hbefore, hc⟩
  | none =>
      have hproper := intruder?_eq_none_iff.mp hintruder
      by_cases hname : ∃ name type, IsTypedName text name type
      · exact .inr (.inl hname)
      by_cases hconstant : ∃ value limit, IsConstant text value limit
      · exact .inr (.inr (.inl hconstant))
      push Not at hname hconstant
      by_cases hletter : ∃ c ∈ text, IsLetter c
      · exact .inr (.inr (.inr ⟨hproper, .inl ⟨hletter, hname⟩⟩))
      · push Not at hletter
        exact .inr (.inr (.inr ⟨hproper, .inr ⟨hletter, hconstant⟩⟩))

/-! ## Reading one run -/

/-- The type with which a lexeme declares the name, if it is an occurrence of
it. -/
def declares? (name : String) : Lexeme → Option ValueType
  | .mark _ _ => none
  | .run _ text =>
    (typedName? text).bind fun found =>
      if found.1 = name then some found.2 else none

theorem declares?_run_eq_some_iff
    {name : String} {start : Nat} {text : List Char} {type : ValueType} :
    declares? name (.run start text) = some type ↔
      IsTypedName text name type := by
  rw [← typedName?_eq_some_iff, declares?, Option.bind_eq_some_iff]
  constructor
  · rintro ⟨⟨found, foundType⟩, htyped, hname⟩
    simp only [Option.ite_none_right_eq_some, Option.some.injEq] at hname
    rw [htyped, hname.1, hname.2]
  · intro htyped
    exact ⟨_, htyped, by simp⟩

theorem declares?_of_isTypedName
    {text : List Char} {name : String} {type : ValueType}
    (h : IsTypedName text name type)
    (other : String) (start : Nat) :
    declares? other (.run start text) = if name = other then some type
        else none := by
  simp [declares?, typedName?_eq_some_iff.mpr h]

theorem declares?_of_isConstant
    {text : List Char} {value limit : ℚ}
    (h : IsConstant text value limit)
    (name : String) (start : Nat) :
    declares? name (.run start text) = none := by
  rw [Option.eq_none_iff_forall_ne_some]
  intro type htype
  rcases (declares?_run_eq_some_iff.mp htype).exists_isLetter with
    ⟨c, hc, hletter⟩
  exact h.not_isLetter c hc hletter

/-- For the names of this run, the table knows the types that are declared,
apart from the type of the run itself. -/
def KnowsTypes (declared : String → ValueType → Prop) (table : SymbolTable)
    (text : List Char) : Prop :=
  ∀ name type other, IsTypedName text name type → other ≠ type →
    (declared name other ↔ table.typeOf? name = some other)

theorem readIdentifier_of_mismatch
    {text : List Char} {name : String} {type other : ValueType}
    {table : SymbolTable}
    (h : IsTypedName text name type)
    (hother : table.typeOf? name = some other)
    (hne : other ≠ type)
    (start : Nat) :
    readIdentifier table start text =
      .error (.semantic start (.typeMismatch (String.ofList text))) := by
  rcases Option.map_eq_some_iff.mp hother with ⟨⟨attr, row⟩, hlookup, rfl⟩
  have hdeclare : declare table start (String.ofList text) name type =
      .error (.semantic start (.typeMismatch (String.ofList text))) := by
    rw [declare, hlookup]
    exact if_neg hne
  rw [readIdentifier, typedName?_eq_some_iff.mpr h]
  dsimp only
  rw [hdeclare]
  rfl

theorem exists_declare
    {table : SymbolTable} {name : String} {type : ValueType}
    (hname : isName name.toList = true)
    (hagree : ∀ other, table.typeOf? name = some other → other = type)
    (start : Nat) (lexeme : String) :
    ∃ attr after, declare table start lexeme name type =
        .ok (attr, after) ∧ 0 < attr ∧
      ∀ other, after.typeOf? other =
        (table.typeOf? other).or
          (if name = other then some type else none) := by
  cases hlookup : table.lookup? name with
  | some found =>
      rcases found with ⟨attr, row⟩
      have htype : table.typeOf? name = some row.type := by
        rw [SymbolTable.typeOf?, hlookup]; rfl
      have hsame := hagree row.type htype
      refine ⟨attr, table, ?_, SymbolTable.pos_of_lookup? hlookup, ?_⟩
      · rw [declare, hlookup]
        exact if_pos hsame
      · intro other
        by_cases hother : name = other
        · rw [← hother, htype]
          rfl
        · rw [if_neg hother, Option.or_none]
  | none =>
      refine ⟨table.size + 1, table.push ⟨name, type, .user⟩, ?_,
        Nat.succ_pos _, SymbolTable.typeOf?_push table ⟨name, type, .user⟩⟩
      rw [declare, hlookup]
      simp [SymbolTable.define, hname,
        SymbolTable.binds_eq_false_of_lookup? hlookup]

theorem exists_readIdentifier
    {text : List Char} {name : String} {type : ValueType}
    {table : SymbolTable}
    (h : IsTypedName text name type)
    (hagree : ∀ other, table.typeOf? name = some other → other = type)
    (start : Nat) :
    ∃ kind after, readIdentifier table start text = .ok (kind, after) ∧
      ∀ other, after.typeOf? other =
        (table.typeOf? other).or (declares? other (.run start text)) := by
  rcases exists_declare h.isName hagree start (String.ofList text) with
    ⟨attr, after, hdeclare, hpos, htypes⟩
  refine ⟨.identifier ⟨attr, type, .user, hpos⟩, after, ?_, ?_⟩
  · rw [readIdentifier, typedName?_eq_some_iff.mpr h]
    dsimp only
    rw [hdeclare]
    simp [Identifier.make, hpos]
  · intro other
    rw [htypes, declares?_of_isTypedName h]

theorem readIdentifier_of_noName
    {text : List Char}
    (h : ∀ name type, ¬IsTypedName text name type)
    (table : SymbolTable) (start : Nat) :
    readIdentifier table start text =
      .error (.lexical start (nameFault text)) := by
  rw [readIdentifier, typedName?_eq_none_iff.mpr h]

theorem nameFault_of_isDecimalDigit
    {text : List Char}
    (h : ∃ c ∈ text.head?, IsDecimalDigit c) :
    nameFault text = .leadingDigit (String.ofList text) := by
  rcases h with ⟨c, hc, hdigit⟩
  rw [nameFault, Option.mem_def.mp hc]
  exact if_pos (isDigit_iff.mpr hdigit)

theorem nameFault_of_not_isDecimalDigit
    {text : List Char}
    (h : ∀ c ∈ text.head?, ¬IsDecimalDigit c) :
    nameFault text = .malformedTypeSuffix (String.ofList text) := by
  rw [nameFault, if_neg]
  rw [Option.any_eq_true]
  rintro ⟨c, hc, hdigit⟩
  exact h c hc (isDigit_iff.mp hdigit)

theorem readRun_of_faulty
    {declared : String → ValueType → Prop} {table : SymbolTable}
    {start : Nat} {text : List Char} {e : Error}
    (hknows : KnowsTypes declared table text)
    (h : Faulty declared start text e) :
    readRun table start text = .error e := by
  cases h with
  | unexpectedCharacter hsplit hproper himproper =>
      rw [readRun, intruder?_eq_some_iff.mpr
        ⟨_, _, hsplit, hproper, himproper, rfl⟩]
  | leadingDigit hproper hletter hnoName hdigit =>
      rw [readRun_of_isLetter hproper hletter,
        readIdentifier_of_noName hnoName, nameFault_of_isDecimalDigit hdigit]
  | malformedTypeSuffix hproper hletter hnoName hnoDigit =>
      rw [readRun_of_isLetter hproper hletter,
        readIdentifier_of_noName hnoName,
        nameFault_of_not_isDecimalDigit hnoDigit]
  | typeMismatch hname hfirst hdiffers =>
      rw [readRun_of_isTypedName hname]
      exact readIdentifier_of_mismatch hname
        ((hknows _ _ _ hname hdiffers).mp hfirst) hdiffers start
  | malformedConstant hproper hnoLetter hdigit hnoConstant =>
      rw [readRun_of_isDecimalDigit hproper hnoLetter hdigit,
        readNumber_of_not_isConstant hnoConstant]
      rfl
  | constantOutOfRange hconstant hrange =>
      rw [readRun_of_isConstant hconstant, readNumber_of_le hconstant hrange]
      rfl
  | unrecognizedLexeme hproper hnoLetter hnoDigit =>
      exact readRun_of_neither hproper hnoLetter hnoDigit table start

theorem faulty_or_isSound
    (declared : String → ValueType → Prop) (start : Nat) (text : List Char) :
    (∃ e, Faulty declared start text e) ∨ IsSound declared text := by
  rcases run_cases text with ⟨before, c, after, hsplit, hproper, himproper⟩ |
    ⟨name, type, hname⟩ | ⟨value, limit, hconstant⟩ |
    ⟨hproper, ⟨hletter, hnoName⟩ | ⟨hnoLetter, hnoConstant⟩⟩
  · exact .inl ⟨_, .unexpectedCharacter hsplit hproper himproper⟩
  · by_cases hdiffers : ∃ other, declared name other ∧ other ≠ type
    · rcases hdiffers with ⟨other, hfirst, hne⟩
      exact .inl ⟨_, .typeMismatch hname hfirst hne⟩
    · right
      refine ⟨.identifier hname, ?_⟩
      intro name' type' other hname' hother
      rcases hname.unique hname' with ⟨rfl, rfl⟩
      by_contra hne
      exact hdiffers ⟨other, hother, hne⟩
  · rcases lt_or_ge value limit with hrange | hrange
    · right
      refine ⟨.constant hconstant hrange, ?_⟩
      intro name type other hname
      rcases hname.exists_isLetter with ⟨c, hc, hletter⟩
      exact absurd hletter (hconstant.not_isLetter c hc)
    · exact .inl ⟨_, .constantOutOfRange hconstant hrange⟩
  · by_cases hdigit : ∃ c ∈ text.head?, IsDecimalDigit c
    · exact .inl ⟨_, .leadingDigit hproper hletter hnoName hdigit⟩
    · push Not at hdigit
      exact .inl ⟨_, .malformedTypeSuffix hproper hletter hnoName hdigit⟩
  · by_cases hdigit : ∃ c ∈ text, IsDecimalDigit c
    · exact .inl ⟨_, .malformedConstant hproper hnoLetter hdigit hnoConstant⟩
    · push Not at hdigit
      exact .inl ⟨_, .unrecognizedLexeme hproper hnoLetter hdigit⟩

theorem exists_readRun_of_isSound
    {declared : String → ValueType → Prop} {table : SymbolTable}
    {text : List Char}
    (hknows : KnowsTypes declared table text)
    (h : IsSound declared text)
    (start : Nat) :
    ∃ kind after, readRun table start text = .ok (kind, after) ∧
      ∀ name, after.typeOf? name =
        (table.typeOf? name).or (declares? name (.run start text)) := by
  rcases h with ⟨hword, hagree⟩
  cases hword with
  | identifier hname =>
      rw [readRun_of_isTypedName hname]
      apply exists_readIdentifier hname
      intro other hother
      by_contra hne
      exact hne (hagree _ _ _ hname ((hknows _ _ _ hname hne).mpr hother))
  | constant hconstant hrange =>
      rcases readNumber_of_lt hconstant hrange start with ⟨literal, hliteral⟩
      refine ⟨.number literal, table, ?_, ?_⟩
      · rw [readRun_of_isConstant hconstant, hliteral]
        rfl
      · intro name
        rw [declares?_of_isConstant hconstant, Option.or_none]

/-! ## Reading all lexemes -/

/-- The type of the first occurrence of the name. -/
def FirstIn (lexemes : List Lexeme) (name : String) (type : ValueType) :
    Prop :=
  lexemes.findSome? (declares? name) = some type

/-- The table has the types of the first occurrences in what has been read. -/
def Records (table : SymbolTable) (seen : List Lexeme) : Prop :=
  ∀ name, table.typeOf? name = seen.findSome? (declares? name)

def Sound (declared : String → ValueType → Prop) : Lexeme → Prop
  | .mark _ _ => True
  | .run _ text => IsSound declared text

def HasFault (declared : String → ValueType → Prop) : Lexeme → Error → Prop
  | .mark _ _, _ => False
  | .run start text, e => Faulty declared start text e

theorem Records.knowsTypes
    {table : SymbolTable} {seen rest : List Lexeme} {start : Nat}
    {text : List Char}
    (h : Records table seen) :
    KnowsTypes (FirstIn (seen ++ .run start text :: rest)) table text := by
  intro name type other hname hne
  have hself : declares? name (.run start text) = some type :=
    declares?_run_eq_some_iff.mpr hname
  rw [FirstIn, List.findSome?_append, List.findSome?_cons, hself, ← h name]
  cases table.typeOf? name with
  | none => simpa using hne.symm
  | some known => simp

theorem hasFault_or_sound
    (declared : String → ValueType → Prop) (lexeme : Lexeme) :
    (∃ e, lexeme.HasFault declared e) ∨ lexeme.Sound declared := by
  cases lexeme with
  | mark start kind => exact .inr trivial
  | run start text => exact faulty_or_isSound declared start text

theorem Records.append_singleton
    {table after : SymbolTable} {seen : List Lexeme} {lexeme : Lexeme}
    (h : Records table seen)
    (hafter : ∀ name,
      after.typeOf? name = (table.typeOf? name).or (declares? name lexeme)) :
    Records after (seen ++ [lexeme]) := by
  intro name
  rw [hafter, h name, List.findSome?_append, List.findSome?_singleton]

theorem placed_of_pos
    {start : Nat}
    (h : 0 < start)
    (kind : TokenKind) :
    Token.placed kind start = .ok ⟨kind, some start⟩ :=
  if_neg h.ne'

theorem read_mark
    {start : Nat}
    (h : 0 < start)
    (kind : TokenKind) (table : SymbolTable) :
    read table (.mark start kind) = .ok (⟨kind, some start⟩, table) := by
  rw [read, placed_of_pos h]
  rfl

theorem read_run
    {start : Nat} {text : List Char} {kind : TokenKind}
    {table after : SymbolTable}
    (h : 0 < start)
    (hrun : readRun table start text = .ok (kind, after)) :
    read table (.run start text) = .ok (⟨kind, some start⟩, after) := by
  simp only [read, hrun, Success.ok_bind, placed_of_pos h,
    Success.mapError_ok]
  rfl

theorem exists_read_of_sound
    {table : SymbolTable} {seen rest : List Lexeme} {lexeme : Lexeme}
    (hrecords : Records table seen)
    (hstart : 0 < lexeme.start)
    (h : lexeme.Sound (FirstIn (seen ++ lexeme :: rest))) :
    ∃ token after, lexeme.read table = .ok (token, after) ∧
      Records after (seen ++ [lexeme]) := by
  cases lexeme with
  | mark start kind =>
      refine ⟨⟨kind, some start⟩, table, read_mark hstart kind table, ?_⟩
      exact hrecords.append_singleton fun name => Option.or_none.symm
  | run start text =>
      rcases exists_readRun_of_isSound hrecords.knowsTypes h start with
        ⟨kind, after, hread, htypes⟩
      exact ⟨⟨kind, some start⟩, after, read_run hstart hread,
        hrecords.append_singleton htypes⟩

theorem read_of_hasFault
    {table : SymbolTable} {seen rest : List Lexeme} {lexeme : Lexeme}
    {e : Error}
    (hrecords : Records table seen)
    (h : lexeme.HasFault (FirstIn (seen ++ lexeme :: rest)) e) :
    lexeme.read table = .error e := by
  cases lexeme with
  | mark start kind => exact h.elim
  | run start text =>
      rw [read, readRun_of_faulty hrecords.knowsTypes h]
      rfl

/-- Sound lexemes are passed over, and reading goes on with what they
declare. -/
theorem exists_readAll_append
    {table : SymbolTable} {seen before after : List Lexeme}
    (hrecords : Records table seen)
    (hstart : ∀ lexeme ∈ before, 0 < lexeme.start)
    (hsound : ∀ lexeme ∈ before,
      lexeme.Sound (FirstIn (seen ++ (before ++ after)))) :
    ∃ tokens middle, Records middle (seen ++ before) ∧
      readAll table (before ++ after) =
        (readAll middle after).map fun result =>
          (tokens ++ result.1, result.2) := by
  induction before generalizing table seen with
  | nil =>
      refine ⟨[], table, by simpa using hrecords, ?_⟩
      rw [List.nil_append]
      cases readAll table after <;> rfl
  | cons lexeme before ih =>
      rw [List.forall_mem_cons] at hstart hsound
      rcases exists_read_of_sound hrecords hstart.1 hsound.1 with
        ⟨token, next, hread, hnext⟩
      have hassoc : seen ++ (lexeme :: before ++ after) =
          (seen ++ [lexeme]) ++ (before ++ after) := by simp
      rw [hassoc] at hsound
      rcases ih hnext hstart.2 hsound.2 with ⟨tokens, middle, hmiddle, hrest⟩
      refine ⟨token :: tokens, middle, by simpa using hmiddle, ?_⟩
      rw [List.cons_append, readAll, hread, Success.ok_bind]
      dsimp only
      rw [hrest]
      cases readAll middle after <;> rfl

theorem sound_or_exists_hasFault
    (declared : String → ValueType → Prop) (lexemes : List Lexeme) :
    (∀ lexeme ∈ lexemes, lexeme.Sound declared) ∨
      ∃ before lexeme after e, lexemes = before ++ lexeme :: after ∧
        lexeme.HasFault declared e ∧
        ∀ earlier ∈ before, earlier.Sound declared := by
  induction lexemes with
  | nil => simp
  | cons lexeme rest ih =>
      rcases hasFault_or_sound declared lexeme with ⟨e, hfault⟩ | hsound
      · exact .inr ⟨[], lexeme, rest, e, rfl, hfault, by simp⟩
      · rcases ih with hall | ⟨before, faulty, after, e, rfl, hfault, hbefore⟩
        · exact .inl (List.forall_mem_cons.mpr ⟨hsound, hall⟩)
        · exact .inr ⟨lexeme :: before, faulty, after, e, rfl, hfault,
            List.forall_mem_cons.mpr ⟨hsound, hbefore⟩⟩

theorem records_empty : Records .empty [] := fun _ => rfl

theorem exists_readAll_of_sound
    {lexemes : List Lexeme}
    (hstart : ∀ lexeme ∈ lexemes, 0 < lexeme.start)
    (h : ∀ lexeme ∈ lexemes, lexeme.Sound (FirstIn lexemes)) :
    ∃ result, readAll .empty lexemes = .ok result := by
  have hsound : ∀ lexeme ∈ lexemes,
      lexeme.Sound (FirstIn ([] ++ (lexemes ++ []))) := by
    simpa using h
  rcases exists_readAll_append records_empty hstart hsound with
    ⟨tokens, middle, _, hread⟩
  rw [List.append_nil] at hread
  exact ⟨_, hread⟩

theorem readAll_of_hasFault
    {before after : List Lexeme} {lexeme : Lexeme} {e : Error}
    (hstart : ∀ earlier ∈ before, 0 < earlier.start)
    (hbefore : ∀ earlier ∈ before,
      earlier.Sound (FirstIn (before ++ lexeme :: after)))
    (h : lexeme.HasFault (FirstIn (before ++ lexeme :: after)) e) :
    readAll .empty (before ++ lexeme :: after) = .error e := by
  rcases exists_readAll_append records_empty hstart hbefore with
    ⟨tokens, middle, hmiddle, hread⟩
  rw [hread, readAll, read_of_hasFault hmiddle h]
  rfl

theorem readAll_eq_ok_iff
    {lexemes : List Lexeme}
    (hstart : ∀ lexeme ∈ lexemes, 0 < lexeme.start) :
    (∃ result, readAll .empty lexemes = .ok result) ↔
      ∀ lexeme ∈ lexemes, lexeme.Sound (FirstIn lexemes) := by
  constructor
  · rintro ⟨result, hresult⟩
    rcases sound_or_exists_hasFault (FirstIn lexemes) lexemes with
      hall | ⟨before, lexeme, after, e, rfl, hfault, hbefore⟩
    · exact hall
    · have herror :=
        readAll_of_hasFault (List.forall_mem_append.mp hstart).1
          hbefore hfault
      simp [hresult] at herror
  · exact exists_readAll_of_sound hstart

theorem readAll_eq_error_iff
    {lexemes : List Lexeme}
    (hstart : ∀ lexeme ∈ lexemes, 0 < lexeme.start)
    {e : Error} :
    readAll .empty lexemes = .error e ↔
      ∃ before lexeme after, lexemes = before ++ lexeme :: after ∧
        lexeme.HasFault (FirstIn lexemes) e ∧
          ∀ earlier ∈ before, earlier.Sound (FirstIn lexemes) := by
  constructor
  · intro herror
    rcases sound_or_exists_hasFault (FirstIn lexemes) lexemes with
      hall | ⟨before, lexeme, after, e', rfl, hfault, hbefore⟩
    · rcases exists_readAll_of_sound hstart hall with ⟨result, hresult⟩
      simp [hresult] at herror
    · have hfirst :=
        readAll_of_hasFault (List.forall_mem_append.mp hstart).1
          hbefore hfault
      rw [← Except.error.inj (hfirst.symm.trans herror)]
      exact ⟨before, lexeme, after, rfl, hfault, hbefore⟩
  · rintro ⟨before, lexeme, after, rfl, hfault, hbefore⟩
    exact readAll_of_hasFault (List.forall_mem_append.mp hstart).1
      hbefore hfault

/-! ## Lexemes of a source text -/

theorem exists_leftmost_iff
    {lexemes : List Lexeme} {P Q : Lexeme → Prop}
    (horder : lexemes.Pairwise (·.start < ·.start)) :
    (∃ before lexeme after, lexemes = before ++ lexeme :: after ∧ P lexeme ∧
        ∀ earlier ∈ before, Q earlier) ↔
      ∃ lexeme ∈ lexemes, P lexeme ∧
        ∀ earlier ∈ lexemes, earlier.start < lexeme.start → Q earlier := by
  constructor
  · rintro ⟨before, lexeme, after, rfl, hlexeme, hbefore⟩
    refine ⟨lexeme, by simp, hlexeme, ?_⟩
    intro earlier hmem hearlier
    rcases List.pairwise_append.mp horder with ⟨_, hafter, _⟩
    rw [List.mem_append, List.mem_cons] at hmem
    rcases hmem with hmem | rfl | hmem
    · exact hbefore earlier hmem
    · exact absurd hearlier (lt_irrefl _)
    · exact absurd hearlier
        ((List.pairwise_cons.mp hafter).1 earlier hmem).asymm
  · rintro ⟨lexeme, hmem, hlexeme, hearlier⟩
    rcases List.append_of_mem hmem with ⟨before, after, rfl⟩
    refine ⟨before, lexeme, after, rfl, hlexeme, ?_⟩
    intro earlier hbefore
    apply hearlier earlier (List.mem_append_left _ hbefore)
    exact (List.pairwise_append.mp horder).2.2 earlier hbefore lexeme
      List.mem_cons_self

end Lexeme

/-- The leftmost run that is an occurrence of the name has the type. -/
def FirstDeclares (source : List Char) (name : String) (type : ValueType) :
    Prop :=
  ∃ start text, IsRun 1 source start text ∧ IsTypedName text name type ∧
    ∀ start' text', IsRun 1 source start' text' → start' < start →
      ∀ type', ¬IsTypedName text' name type'

/-- All occurrences of one name have the same type. -/
def TypesAgree (source : List Char) : Prop :=
  ∀ start text start' text' name type type', IsRun 1 source start text →
    IsRun 1 source start' text' → IsTypedName text name type →
      IsTypedName text' name type' → type = type'

namespace Lexeme

/-- A property of runs that no mark has or that every mark has, over a cut
text. -/
theorem exists_leftmost_cut_iff
    {source : List Char} {P Q : Lexeme → Prop}
    (hP : ∀ start kind, ¬P (.mark start kind))
    (hQ : ∀ start kind, Q (.mark start kind)) :
    (∃ before lexeme after, cut 1 source = before ++ lexeme :: after ∧
      P lexeme ∧ ∀ earlier ∈ before, Q earlier) ↔
      ∃ start text, IsRun 1 source start text ∧ P (.run start text) ∧
        ∀ start' text', IsRun 1 source start' text' → start' < start →
        Q (.run start' text') := by
  simp only [exists_leftmost_iff (pairwise_start_cut 1 source),
    ← run_mem_cut_iff]
  constructor
  · rintro ⟨lexeme, hmem, hlexeme, hearlier⟩
    cases lexeme with
    | mark start kind => exact absurd hlexeme (hP start kind)
    | run start text =>
        exact ⟨start, text, hmem, hlexeme, fun start' text' hmem' =>
          hearlier _ hmem'⟩
  · rintro ⟨start, text, hmem, hrun, hearlier⟩
    refine ⟨.run start text, hmem, hrun, ?_⟩
    intro earlier hmem' hlt
    cases earlier with
    | mark start' kind => exact hQ start' kind
    | run start' text' => exact hearlier start' text' hmem' hlt

theorem firstIn_cut_iff
    {source : List Char} {name : String} {type : ValueType} :
    FirstIn (cut 1 source) name type ↔ FirstDeclares source name type := by
  rw [FirstIn, List.findSome?_eq_some_iff,
    exists_leftmost_cut_iff (by simp [declares?]) (by simp [declares?])]
  simp only [FirstDeclares, Option.eq_none_iff_forall_ne_some, ne_eq,
    declares?_run_eq_some_iff]

theorem firstIn_cut
    (source : List Char) :
    FirstIn (cut 1 source) = FirstDeclares source := by
  funext name type
  exact propext firstIn_cut_iff

theorem sound_cut_iff
    {source : List Char} {declared : String → ValueType → Prop} :
    (∀ lexeme ∈ cut 1 source, lexeme.Sound declared) ↔
      ∀ start text, IsRun 1 source start text → IsSound declared text := by
  simp only [← run_mem_cut_iff]
  constructor
  · exact fun h start text hmem => h _ hmem
  · intro h lexeme hmem
    cases lexeme with
    | mark start kind => trivial
    | run start text => exact h start text hmem

theorem start_pos_of_mem_cut
    {source : List Char} :
    ∀ lexeme ∈ cut 1 source, 0 < lexeme.start :=
  le_start_of_mem_cut

theorem exists_firstDeclares
    {source : List Char} {start : Nat} {text : List Char} {name : String}
    {type : ValueType}
    (hrun : IsRun 1 source start text)
    (hname : IsTypedName text name type) :
    ∃ first, FirstDeclares source name first := by
  simp only [← firstIn_cut_iff, FirstIn]
  rw [← Option.isSome_iff_exists, List.findSome?_isSome_iff]
  exact ⟨.run start text, run_mem_cut_iff.mpr hrun,
    Option.isSome_iff_exists.mpr ⟨type, declares?_run_eq_some_iff.mpr hname⟩⟩

end Lexeme

theorem forall_isSound_iff
    {source : List Char} :
    (∀ start text,
      IsRun 1 source start text → IsSound (FirstDeclares source) text) ↔
      (∀ start text, IsRun 1 source start text → IsWord text) ∧
        TypesAgree source := by
  constructor
  · intro h
    refine ⟨fun start text hrun => (h start text hrun).1, ?_⟩
    intro start text start' text' name type type' hrun hrun' hname hname'
    rcases Lexeme.exists_firstDeclares hrun hname with ⟨first, hfirst⟩
    rw [← (h start text hrun).2 name type first hname hfirst]
    exact (h start' text' hrun').2 name type' first hname' hfirst
  · rintro ⟨hwords, hagree⟩ start text hrun
    refine ⟨hwords start text hrun, ?_⟩
    rintro name type other hname ⟨start', text', hrun', hname', _⟩
    exact hagree start' text' start text name other type hrun' hrun
      hname' hname

/-- Scanning accepts exactly the texts whose runs are words that agree on the
types of their names, and fails exactly with the fault of the leftmost run
that is not of that kind. -/
theorem scan_reports_leftmost_fault
    (source : String) :
    ((∃ result, scan source = .ok result) ↔
      (∀ start text, IsRun 1 source.toList start text → IsWord text) ∧
        TypesAgree source.toList) ∧
    ∀ e, scan source = .error e ↔
      ∃ start text, IsRun 1 source.toList start text ∧
        Faulty (FirstDeclares source.toList) start text e ∧
          ∀ start' text', IsRun 1 source.toList start' text' →
            start' < start →
            IsSound (FirstDeclares source.toList) text' := by
  constructor
  · rw [scan, Lexeme.readAll_eq_ok_iff Lexeme.start_pos_of_mem_cut,
      Lexeme.firstIn_cut, Lexeme.sound_cut_iff, forall_isSound_iff]
  · intro e
    rw [scan, Lexeme.readAll_eq_error_iff Lexeme.start_pos_of_mem_cut,
      Lexeme.firstIn_cut]
    exact Lexeme.exists_leftmost_cut_iff (fun start kind => not_false)
      (fun start kind => trivial)

end ThreeAddress
