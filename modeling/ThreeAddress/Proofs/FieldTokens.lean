import ThreeAddress.Proofs.RowTokens

/-!
# Tokens of written fields

A text of proper fields is scanned row by row.  What a row has to know of the
rows before it is their margin, so that the tokens of the text are those of
the first field, followed by those of the others from the margin behind it.
-/

namespace ThreeAddress.Yaml

open State

/-- What is known in front of a row: the columns of the blocks, and a plain
scalar that could still go on. -/
structure Margin where
  columns : List Nat
  pending : Option String

def Margin.state (m : Margin) : State :=
  { clear m.columns m.pending.isNone with
    unfinished := m.pending.map fun text =>
      ⟨.plain, text.toList, ['\n'], []⟩ }

namespace Content

def tokens : Content → List Token
  | .nothing | .plain _ => []
  | .quoted text => [.scalar false text]
  | .emptyList => [.emptySequence]

/-- A plain scalar is only known to end at the next row. -/
def pending? : Content → Option String
  | .plain text => some text
  | _ => none

/-- The text is written so that it can be read back. -/
def IsProper : Content → Prop
  | .plain text => IsBare text.toList
  | .quoted text => ∀ c ∈ text.toList, isNameChar c = true ∨ c = '.'
  | _ => True

theorem toList_text_plain
    (text : String) :
    (Content.plain text).text.toList = ' ' :: text.toList := by
  simp [Content.text]

theorem toList_text_quoted
    (text : String) :
    (Content.quoted text).text.toList =
      ' ' :: '\'' :: (text.toList ++ ['\'']) := by
  simp [Content.text]

theorem toList_text_emptyList :
    Content.emptyList.text.toList = [' ', '[', ']'] := rfl

theorem atGap_text
    (content : Content) :
    atGap content.text.toList = true := by
  cases content <;> simp [text, atGap, isBlank]

end Content

theorem scanFrom_content
    {content : Content}
    (h : content.IsProper)
    {columns : List Nat} {place : Place}
    (hwithin : Within columns place.column)
    {fuel : Nat}
    (hfuel : content.text.toList.length < fuel) :
    scanFrom fuel (clear columns false) (.lineEnd '\n')
        place content.text.toList =
      ⟨content.tokens, some (Margin.state ⟨columns, content.pending?⟩)⟩ := by
  have hnext : Within columns (place.past [' ']).column :=
    hwithin.mono (Nat.le_add_right _ _)
  cases content with
  | nothing =>
      rcases Nat.exists_eq_add_of_lt hfuel with ⟨k, rfl⟩
      rfl
  | plain text =>
      rcases List.exists_cons_of_ne_nil h.1 with ⟨c, others, hsplit⟩
      have hblank := isBlank_of_isNameChar (h.2 c (by simp [hsplit]))
      rw [Content.toList_text_plain, hsplit,
        scanFrom_blank _ _ _ _ hblank, ← hsplit]
      exact scanFrom_plain h hnext (Nat.zero_lt_of_lt hfuel)
  | quoted text =>
      have hquote : '\'' ∉ text.toList := by
        intro hmem
        rcases h _ hmem with hname | hpoint
        · exact absurd hname (by decide)
        · exact absurd hpoint (by decide)
      rw [Content.toList_text_quoted, List.length_cons,
        List.length_cons] at hfuel
      rw [Content.toList_text_quoted, scanFrom_blank _ _ _ _ rfl,
        scanFrom_quoted hquote hnext (by omega), String.ofList_toList]
      rfl
  | emptyList =>
      rw [Content.toList_text_emptyList, List.length_cons] at hfuel
      rw [Content.toList_text_emptyList, scanFrom_blank _ _ _ _ rfl,
        scanFrom_emptyList hnext (by omega)]
      rfl

theorem Field.tagText_some
    (name : String) :
    (Field.tagText (some name)).toList = ' ' :: '!' :: name.toList := by
  simp [Field.tagText]

theorem scanFrom_tagged
    {tag : Option String} {content : Content}
    (htag : ∀ name ∈ tag, ∀ c ∈ name.toList, isNameChar c = true)
    (hcontent : content.IsProper)
    {columns : List Nat} {place : Place}
    (hwithin : Within columns place.column)
    {fuel : Nat}
    (hfuel :
      ((Field.tagText tag).toList ++ content.text.toList).length < fuel) :
    scanFrom fuel (clear columns false) (.lineEnd '\n') place
        ((Field.tagText tag).toList ++ content.text.toList) =
      ⟨tag.toList.map .tag ++ content.tokens,
        some (Margin.state ⟨columns, content.pending?⟩)⟩ := by
  cases tag with
  | none => exact scanFrom_content hcontent hwithin hfuel
  | some name =>
      have hnext : Within columns (place.past [' ']).column :=
        hwithin.mono (Nat.le_add_right _ _)
      rw [Field.tagText_some, List.cons_append, List.cons_append] at hfuel ⊢
      simp only [List.length_cons, List.length_append] at hfuel
      rcases Nat.exists_eq_add_of_le' (Nat.zero_lt_of_lt hfuel) with ⟨k, rfl⟩
      rcases scanFrom_tag (htag name rfl) content.atGap_text hnext k
        (.lineEnd '\n') with
        ⟨place', hplace, hscan⟩
      rw [scanFrom_blank _ _ _ _ rfl, hscan,
        scanFrom_content hcontent (hnext.mono hplace) (by omega),
          String.ofList_toList]
      rfl

namespace Field

/-- The key, the tag and the content are written so that they can be read
back. -/
structure IsProper (f : Field) : Prop where
  key : IsBare f.key.toList
  size : byteSize f.key.toList ≤ keyLimit
  tag : ∀ name ∈ f.tag, IsBare name.toList
  content : f.content.IsProper

/-- The field without its indentation and its dash. -/
def entryText (f : Field) : List Char :=
  f.key.toList ++ ':' :: ((tagText f.tag).toList ++ f.content.text.toList)

/-- The field without its indentation. -/
def body (f : Field) : List Char :=
  (if f.dashed then ['-', ' '] else []) ++ f.entryText

theorem toList_text
    (f : Field) :
    f.text.toList = List.replicate f.indent ' ' ++ f.body := by
  cases hdashed : f.dashed <;> simp [text, body, entryText, hdashed]

theorem exists_entryText_eq_cons
    {f : Field}
    (hf : f.IsProper) :
    ∃ c rest, f.entryText = c :: rest ∧ isBlank c = false := by
  rcases List.exists_cons_of_ne_nil hf.key.1 with ⟨c, others, hkey⟩
  refine ⟨c, others ++
    ':' :: ((tagText f.tag).toList ++ f.content.text.toList), ?_,
    isBlank_of_isNameChar (hf.key.2 c (by simp [hkey]))⟩
  rw [entryText, hkey, List.cons_append]

theorem exists_body_eq_cons
    {f : Field}
    (hf : f.IsProper) :
    ∃ c rest, f.body = c :: rest ∧ isBlank c = false := by
  cases hdashed : f.dashed with
  | false => simpa [body, hdashed] using exists_entryText_eq_cons hf
  | true => exact ⟨'-', ' ' :: f.entryText, by simp [body, hdashed], rfl⟩

def keyColumn (f : Field) : Nat := if f.dashed then f.indent + 2 else f.indent

end Field

namespace Margin

/-- The columns in which the key of a field is looked at. -/
def base (m : Margin) (f : Field) : List Nat :=
  if f.dashed then opened (remaining m.columns f.indent) f.indent
  else remaining m.columns f.indent

def after (m : Margin) (f : Field) : Margin :=
  ⟨opened (m.base f) f.keyColumn, f.content.pending?⟩

def blockTokens (m : Margin) (f : Field) : List Token :=
  closing m.columns f.indent ++
    (if f.dashed then opening (remaining m.columns f.indent)
      f.indent .sequenceStart ++ [.entry]
      else []) ++
    opening (m.base f) f.keyColumn .mappingStart

def fieldTokens (f : Field) : List Token :=
  [.key, .scalar true f.key, .value] ++ f.tag.toList.map .tag ++
    f.content.tokens

/-- The tokens that the row of a field completes. -/
def tokens (m : Margin) (f : Field) : List Token :=
  m.pending.toList.map (.scalar true) ++ m.blockTokens f ++ fieldTokens f

end Margin

theorem scanFrom_entryText
    {f : Field}
    (hf : f.IsProper)
    (columns : List Nat) (place : Place) {fuel : Nat}
    (hfuel : f.entryText.length < fuel) :
    scanFrom fuel (clear columns true) (.lineEnd '\n') place f.entryText =
      ⟨closing columns place.column ++
          opening (remaining columns place.column) place.column
            .mappingStart ++
          Margin.fieldTokens f,
        some (Margin.state
          ⟨opened (remaining columns place.column) place.column,
            f.content.pending?⟩)⟩ := by
  have hgap : atGap ((Field.tagText f.tag).toList ++ f.content.text.toList) =
      true := by
    cases f.tag with
    | none => exact f.content.atGap_text
    | some name => simp [Field.tagText_some, atGap, isBlank]
  have hpos := List.length_pos_iff.mpr hf.key.1
  rw [Field.entryText, List.length_append, List.length_cons] at hfuel
  rcases Nat.exists_eq_add_of_le' (show 2 ≤ fuel by omega) with ⟨k, rfl⟩
  have hwithin : Within (opened (remaining columns place.column) place.column)
      (place.past (f.key.toList ++ [':'])).column :=
    (within_remaining columns place.column).opened.mono (Nat.le_add_right _ _)
  rw [Field.entryText, scanFrom_key hf.key hf.size hgap,
    scanFrom_tagged (fun name hname => (hf.tag name hname).2) hf.content
      hwithin (by omega),
    String.ofList_toList]
  simp [Scan.prepend, Margin.fieldTokens]

theorem scanFrom_body
    {f : Field}
    (hf : f.IsProper)
    (m : Margin) {place : Place}
    (hplace : place.column = f.indent)
    {fuel : Nat}
    (hfuel : f.body.length < fuel) :
    scanFrom fuel (clear m.columns true) (.lineEnd '\n') place f.body =
      ⟨m.blockTokens f ++ Margin.fieldTokens f, some (m.after f).state⟩ := by
  cases hdashed : f.dashed with
  | false =>
      have hbody : f.body = f.entryText := by simp [Field.body, hdashed]
      rw [hbody] at hfuel ⊢
      rw [scanFrom_entryText hf _ _ hfuel, hplace]
      simp [Margin.blockTokens, Margin.after, Margin.base,
        Field.keyColumn, hdashed]
  | true =>
      have hbody : f.body = '-' :: ' ' :: f.entryText := by
        simp [Field.body, hdashed]
      have hwithin : Within (opened (remaining m.columns f.indent) f.indent)
          (f.indent + 2) :=
        (within_remaining m.columns f.indent).opened.mono
          (Nat.le_add_right _ _)
      have hcolumn :
          ((place.past ['-']).past [' ']).column = f.indent + 2 := by
        simp [Place.past, hplace]
      rcases f.exists_entryText_eq_cons hf with ⟨c, rest, hentry, hblank⟩
      rw [hbody, List.length_cons, List.length_cons] at hfuel
      rcases Nat.exists_eq_add_of_le' (show 1 ≤ fuel by omega) with ⟨k, rfl⟩
      rw [hbody, scanFrom_dash, hentry, scanFrom_blank _ _ _ _ hblank,
        ← hentry, scanFrom_entryText hf _ _ (by omega), hcolumn, hplace,
        hwithin.closing_eq, hwithin.remaining_eq]
      simp [Scan.prepend, Margin.blockTokens, Margin.after, Margin.base,
        Field.keyColumn, hdashed]

namespace Margin

/-- A plain scalar of the rows before does not go on in the row of the
field. -/
def Admits (m : Margin) (f : Field) : Prop :=
  m.pending.isSome = true → ∃ column rest, m.columns = column :: rest ∧
      f.indent ≤ column

theorem scanRow_of_pending
    {f : Field}
    (hf : f.IsProper)
    {columns : List Nat} {text : String}
    (h : Admits ⟨columns, some text⟩ f) :
    scanRow (state ⟨columns, some text⟩) f.row =
      (scanFrom (f.body.length + 1) (clear columns true) (.lineEnd '\n')
        (Place.start.past (List.replicate f.indent ' ')) f.body).prepend
          [.scalar true text] := by
  rcases f.exists_body_eq_cons hf with ⟨c, rest, hbody, hblank⟩
  have hblanks : ∀ d ∈ List.replicate f.indent ' ', isBlank d = true := by
    intro d hd
    rw [List.eq_of_mem_replicate hd]
    rfl
  have htake :
      f.text.toList.takeWhile isBlank = List.replicate f.indent ' ' := by
    rw [f.toList_text, hbody, List.takeWhile_append_of_pos hblanks]
    simp [hblank]
  have hdrop : f.text.toList.dropWhile isBlank = f.body := by
    rw [f.toList_text, hbody, List.dropWhile_append_of_pos hblanks]
    simp [hblank]
  have htab :
      ((List.replicate f.indent ' ').take
      (clear columns false).scalarColumn).contains
      '\t' = false := by
    simp
  have hcolumn : (Place.start.past (List.replicate f.indent ' ')).column <
      (clear columns false).scalarColumn := by
    rcases h rfl with ⟨column, others, rfl, hle⟩
    simpa [Place.past, Place.start, clear, scalarColumn, Nat.lt_succ_iff]
      using hle
  have hresume : scanRow (state ⟨columns, some text⟩) f.row =
      resumePlain (clear columns false)
        ⟨.plain, text.toList, ['\n'], []⟩ f.row := by
    rw [scanRow, if_neg (by simp [Field.row])]
    rfl
  rw [hresume, resumePlain]
  simp only [Field.row, htake, hdrop, htab, hcolumn, hbody, List.isEmpty_cons,
    Bool.false_eq_true, if_false, decide_true, Bool.true_or, if_true]
  rw [put_clear, String.ofList_toList]
  rfl

theorem scanRow_field
    {f : Field}
    (hf : f.IsProper)
    {m : Margin}
    (h : m.Admits f) :
    scanRow m.state f.row = ⟨m.tokens f, some (m.after f).state⟩ := by
  have hplace :
      (Place.start.past (List.replicate f.indent ' ')).column = f.indent := by
    simp [Place.past, Place.start]
  rcases m with ⟨columns, pending⟩
  cases pending with
  | none =>
      rcases f.exists_body_eq_cons hf with ⟨c, rest, hbody, hblank⟩
      have hscan : scanRow (state ⟨columns, none⟩) f.row =
          scanFrom (f.text.toList.length + 1) (clear columns true)
            (.lineEnd '\n') .start f.text.toList := by
        rw [scanRow, if_neg (by simp [Field.row])]
        rfl
      have hfuel : f.body.length < f.text.toList.length + 1 := by
        rw [f.toList_text, List.length_append]
        omega
      rw [hscan]
      generalize f.text.toList.length + 1 = fuel at hfuel
      rw [f.toList_text, hbody, scanFrom_replicate _ _ _ _ _ hblank, ← hbody,
        scanFrom_body hf ⟨columns, none⟩ hplace hfuel]
      rfl
  | some text =>
      rw [scanRow_of_pending hf h,
        scanFrom_body hf ⟨columns, some text⟩ hplace (Nat.lt_succ_self _)]
      simp [Scan.prepend, tokens]

/-! ## Texts of fields -/

/-- The tokens from here to the end of the text, which consists of the
fields. -/
def finish (m : Margin) (fields : List Field) : List Token :=
  (scanRows m.state (fields.map Field.row ++ [⟨[], .textEnd⟩])).tokens

theorem scanRow_textEnd_of_pending
    (columns : List Nat) {text : String}
    (htext : IsBare text.toList) :
    scanRow (state ⟨columns, some text⟩) ⟨[], .textEnd⟩ =
      ⟨[.scalar true text], some (clear columns true)⟩ := by
  have hresume : scanRow (state ⟨columns, some text⟩) ⟨[], .textEnd⟩ =
      resumePlain (clear columns false) ⟨.plain, text.toList, ['\n'], []⟩
        ⟨[], .textEnd⟩ := by
    rw [scanRow, if_neg (by simp)]
    rfl
  rw [hresume, resumePlain]
  simp only [List.takeWhile_nil, List.dropWhile_nil, List.take_nil,
    List.contains_nil, Bool.false_eq_true, if_false, List.isEmpty_nil,
    if_true, suspend, stripEnd_self htext.2, put_clear, String.ofList_toList]
  rfl

theorem finish_nil
    (columns : List Nat) {pending : Option String}
    (hpending : ∀ text ∈ pending, IsBare text.toList) :
    finish ⟨columns, pending⟩ [] = pending.toList.map (.scalar true) ++
      List.replicate columns.length .blockEnd ++ [.textEnd] := by
  cases pending with
  | none => rfl
  | some text =>
      rw [finish, List.map_nil, List.nil_append, scanRows,
        scanRow_textEnd_of_pending columns (hpending text rfl)]
      rfl

theorem finish_cons
    {f : Field}
    (hf : f.IsProper)
    {m : Margin}
    (h : m.Admits f)
    (rest : List Field) :
    m.finish (f :: rest) = m.tokens f ++ (m.after f).finish rest := by
  rw [finish, List.map_cons, List.cons_append, scanRows, scanRow_field hf h]
  rfl

theorem admits_of_settled
    (columns : List Nat) (f : Field) :
    Admits ⟨columns, none⟩ f := by
  simp [Admits]

/-- The fields go on further to the left than the given column, or end. -/
def Outdents (column : Nat) (fields : List Field) : Prop :=
  ∀ f ∈ fields.head?, f.IsProper ∧ f.indent < column

theorem Outdents.mono
    {column other : Nat} {fields : List Field}
    (h : Outdents column fields)
    (hle : column ≤ other) :
    Outdents other fields :=
  fun f hf => ⟨(h f hf).1, (h f hf).2.trans_le hle⟩

/-- A plain scalar ends in front of a row that is not further to the right
than its key. -/
theorem finish_of_pending
    {column : Nat} {fields : List Field}
    (h : Outdents (column + 1) fields)
    (columns : List Nat) {text : String}
    (htext : IsBare text.toList) :
    finish ⟨column :: columns, some text⟩ fields =
      .scalar true text :: finish ⟨column :: columns, none⟩ fields := by
  cases fields with
  | nil =>
      rw [finish_nil _ (by simpa using htext), finish_nil _ (by simp)]
      rfl
  | cons f rest =>
      rcases h f rfl with ⟨hf, hlt⟩
      rw [finish_cons hf fun _ =>
        ⟨column, columns, rfl, Nat.le_of_lt_succ hlt⟩,
        finish_cons hf (admits_of_settled _ f)]
      rfl

theorem finish_of_outdents
    {column : Nat} {fields : List Field}
    (h : Outdents column fields)
    (columns : List Nat) :
    finish ⟨column :: columns, none⟩ fields =
      .blockEnd :: finish ⟨columns, none⟩ fields := by
  cases fields with
  | nil =>
      rw [finish_nil _ (by simp), finish_nil _ (by simp)]
      rfl
  | cons f rest =>
      rcases h f rfl with ⟨hf, hlt⟩
      have hbase :
          base ⟨column :: columns, none⟩ f = base ⟨columns, none⟩ f := by
        simp [base, remaining, hlt]
      have hafter :
          after ⟨column :: columns, none⟩ f = after ⟨columns, none⟩ f := by
        rw [after, after, hbase]
      rw [finish_cons hf (admits_of_settled _ f), hafter,
        finish_cons hf (admits_of_settled _ f), tokens, tokens, blockTokens,
        blockTokens, hbase]
      simp [closing, remaining, hlt, List.replicate_succ]

/-- The tokens of a row that stands in the column of its block. -/
theorem finish_cons_aligned
    {f : Field}
    (hf : f.IsProper)
    (hdashed : f.dashed = false)
    {column : Nat}
    (hindent : f.indent = column)
    (columns : List Nat) (rest : List Field) :
    finish ⟨column :: columns, none⟩ (f :: rest) = fieldTokens f ++
      finish ⟨column :: columns, f.content.pending?⟩ rest := by
  subst hindent
  rw [finish_cons hf (admits_of_settled _ f)]
  simp [tokens, blockTokens, after, base, Field.keyColumn, hdashed, closing,
    remaining, opening, opened]

/-- The first row of a block opens it, and is then read like one of its other
rows. -/
theorem finish_of_opens
    {f : Field}
    (hf : f.IsProper)
    {columns : List Nat}
    (hopened : opened (base ⟨columns, none⟩ f) f.keyColumn =
      f.keyColumn :: base ⟨columns, none⟩ f)
    (rest : List Field) :
    finish ⟨columns, none⟩ (f :: rest) = blockTokens ⟨columns, none⟩ f ++
      finish ⟨f.keyColumn :: base ⟨columns, none⟩ f, none⟩
        ({ f with indent := f.keyColumn, dashed := false } :: rest) := by
  have hmoved :
      Field.IsProper { f with indent := f.keyColumn, dashed := false } :=
    ⟨hf.key, hf.size, hf.tag, hf.content⟩
  rw [finish_cons hf (admits_of_settled _ f), after, hopened,
    finish_cons_aligned hmoved rfl rfl, tokens, List.append_assoc]
  rfl

end Margin

theorem IsBare.isInline
    {text : List Char}
    (h : IsBare text) :
    ∀ c ∈ text, IsInline c :=
  fun c hc => isInline_of_isNameChar (h.2 c hc)

theorem isInline_of_mem_marks :
    ∀ c ∈ [' ', '-', ':', '!', '\'', '.', '[', ']'], IsInline c := by
  have hrange : [' ', '-', ':', '!', '\'', '.', '[', ']'].all
      (fun c => 0x20 ≤ c.toNat ∧ c.toNat ≤ 0x7E) = true := by decide
  intro c hc
  have hc' := List.all_eq_true.mp hrange c hc
  rw [decide_eq_true_iff] at hc'
  exact isInline_of_le hc'.1 hc'.2

theorem Content.IsProper.isInline
    {content : Content}
    (h : content.IsProper) :
    ∀ c ∈ content.text.toList, IsInline c := by
  have hmark := isInline_of_mem_marks
  cases content with
  | nothing => simp [Content.text]
  | plain text =>
      rw [toList_text_plain, List.forall_mem_cons]
      exact ⟨hmark _ (by decide), IsBare.isInline h⟩
  | quoted text =>
      rw [toList_text_quoted, List.forall_mem_cons, List.forall_mem_cons,
        List.forall_mem_append, List.forall_mem_singleton]
      refine ⟨hmark _ (by decide), hmark _ (by decide), ?_,
        hmark _ (by decide)⟩
      intro c hc
      rcases h c hc with hname | rfl
      · exact isInline_of_isNameChar hname
      · exact hmark _ (by decide)
  | emptyList =>
      rw [toList_text_emptyList, List.forall_mem_cons, List.forall_mem_cons,
        List.forall_mem_singleton]
      exact ⟨hmark _ (by decide), hmark _ (by decide), hmark _ (by decide)⟩

theorem Field.IsProper.isInline
    {f : Field}
    (hf : f.IsProper) :
    ∀ c ∈ f.text.toList, IsInline c := by
  have hmark := isInline_of_mem_marks
  have htag : ∀ c ∈ (tagText f.tag).toList, IsInline c := by
    cases htag : f.tag with
    | none => simp [tagText]
    | some name =>
        rw [tagText_some, List.forall_mem_cons, List.forall_mem_cons]
        exact ⟨hmark _ (by decide), hmark _ (by decide),
          (hf.tag name htag).isInline⟩
  have hentry : ∀ c ∈ f.entryText, IsInline c := by
    rw [entryText, List.forall_mem_append, List.forall_mem_cons,
      List.forall_mem_append]
    exact ⟨hf.key.isInline, hmark _ (by decide), htag, hf.content.isInline⟩
  rw [f.toList_text, body, List.forall_mem_append, List.forall_mem_append]
  refine ⟨?_, ?_, hentry⟩
  · intro c hc
    rw [List.eq_of_mem_replicate hc]
    exact hmark _ (by decide)
  · cases f.dashed with
    | false => simp
    | true =>
        rw [if_pos rfl, List.forall_mem_cons, List.forall_mem_singleton]
        exact ⟨hmark _ (by decide), hmark _ (by decide)⟩

theorem tokensOf_fields
    {fields : List Field}
    (h : ∀ f ∈ fields, f.IsProper) :
    tokensOf (String.join (fields.map (·.text ++ "\n"))) =
      Margin.finish ⟨[], none⟩ fields := by
  rw [tokensOf, rowsOf_fields fun f hf => (h f hf).isInline]
  rfl

end ThreeAddress.Yaml
