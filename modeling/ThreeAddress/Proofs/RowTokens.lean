import ThreeAddress.Proofs.Layout

/-!
# The pieces of a row

A row of a written field consists of blanks, a dash, a key with its colon, a
tag and a scalar.  Each lemma here says what the scanner makes of one piece,
when no block is open to the right of it: the tokens it completes, and the
state in which it goes on behind the piece.
-/

namespace ThreeAddress.Yaml

namespace Scan

variable {α β : Type}

/-- Puts tokens in front. -/
def prepend (tokens : List Token) (x : Scan α) : Scan α :=
  ⟨tokens ++ x.tokens, x.result?⟩

@[simp] theorem prepend_nil
    (x : Scan α) :
    x.prepend [] = x := rfl

@[simp] theorem prepend_prepend
    (front back : List Token) (x : Scan α) :
    (x.prepend back).prepend front = x.prepend (front ++ back) := by
  simp [prepend]

@[simp] theorem pure_bind
    (a : α) (f : α → Scan β) :
    (pure a >>= f) = f a := rfl

@[simp] theorem emit_bind
    (tokens : List Token) (f : Unit → Scan β) :
    (emit tokens >>= f) = (f ()).prepend tokens := rfl

@[simp] theorem prepend_bind
    (tokens : List Token) (x : Scan α) (f : α → Scan β) :
    (x.prepend tokens >>= f) = (x >>= f).prepend tokens := by
  change andThen _ _ = prepend _ (andThen _ _)
  simp only [andThen, prepend]
  cases x.result? <;> simp

end Scan

namespace State

/-- Nothing is held back and nothing goes on. -/
def clear (columns : List Nat) (keyAllowed : Bool) : State :=
  ⟨columns, keyAllowed, none, [], none⟩

end State

open State

theorem Place.past_nil
    (place : Place) :
    place.past [] = place := rfl

theorem byteSize_append
    (text other : List Char) :
    byteSize (text ++ other) = byteSize text + byteSize other := by
  induction text with
  | nil => simp [byteSize]
  | cons c rest ih =>
      change c.utf8Size + byteSize (rest ++ other) =
        c.utf8Size + byteSize rest + byteSize other
      rw [ih, Nat.add_assoc]

theorem Place.past_past
    (place : Place) (text other : List Char) :
    (place.past text).past other = place.past (text ++ other) := by
  simp [Place.past, byteSize_append, Nat.add_assoc]

/-- A text that is written without quotes. -/
def IsBare (text : List Char) : Prop :=
  text ≠ [] ∧ ∀ c ∈ text, isNameChar c = true

theorem isBare_iff
    {text : List Char} :
    IsBare text ↔ (!text.isEmpty && text.all isNameChar) = true := by
  simp [IsBare]

instance (text : List Char) : Decidable (IsBare text) :=
  decidable_of_iff _ isBare_iff.symm

theorem isBlank_of_isNameChar
    {c : Char}
    (h : isNameChar c = true) :
    isBlank c = false := by
  simp [isBlank, ne_of_isNameChar h (show isNameChar ' ' = false by decide),
    ne_of_isNameChar h (show isNameChar '\t' = false by decide)]

theorem splitPlain_append
    {word : List Char}
    (h : ∀ c ∈ word, isNameChar c = true)
    (behindBlank : Bool) {rest : List Char}
    (hgap : atGap rest = true) :
    splitPlain behindBlank (word ++ ':' :: rest) = (word, ':' :: rest) := by
  induction word generalizing behindBlank with
  | nil => simp [splitPlain, hgap]
  | cons c word ih =>
      rcases List.forall_mem_cons.mp h with ⟨hc, hword⟩
      have hcolon :=
        ne_of_isNameChar hc (show isNameChar ':' = false by decide)
      have hcomment :=
        ne_of_isNameChar hc (show isNameChar '#' = false by decide)
      rw [List.cons_append, splitPlain, ih hword]
      simp [hcolon, hcomment]

theorem splitPlain_self
    {word : List Char}
    (h : ∀ c ∈ word, isNameChar c = true)
    (behindBlank : Bool) :
    splitPlain behindBlank word = (word, []) := by
  induction word generalizing behindBlank with
  | nil => rfl
  | cons c word ih =>
      rcases List.forall_mem_cons.mp h with ⟨hc, hword⟩
      have hcolon :=
        ne_of_isNameChar hc (show isNameChar ':' = false by decide)
      have hcomment :=
        ne_of_isNameChar hc (show isNameChar '#' = false by decide)
      rw [splitPlain, ih hword]
      simp [hcolon, hcomment]

theorem stripEnd_self
    {word : List Char}
    (h : ∀ c ∈ word, isNameChar c = true) :
    stripEnd word = word := by
  have hdrop : word.reverse.dropWhile isBlank = word.reverse := by
    cases hreverse : word.reverse with
    | nil => rfl
    | cons c rest =>
        have hc := h c (List.mem_reverse.mp (by simp [hreverse]))
        simp [isBlank_of_isNameChar hc]
  rw [stripEnd, hdrop, List.reverse_reverse]

theorem Opening.ofText_bare
    {c : Char}
    (hc : isNameChar c = true)
    (column : Nat) (rest : List Char) :
    Opening.ofText column (c :: rest) = .plain := by
  have hne : ∀ d : Char, isNameChar d = false → c ≠ d :=
    fun d hd => ne_of_isNameChar hc hd
  have hmark : documentMark? (c :: rest) = none := by
    unfold documentMark?
    split
    · next heq => exact absurd (List.cons.inj heq).1 (hne _ (by decide))
    · next heq => exact absurd (List.cons.inj heq).1 (hne _ (by decide))
    · rfl
  have hcollection : emptyCollection? (c :: rest) = none := by
    unfold emptyCollection?
    split
    · next heq => exact absurd (List.cons.inj heq).1 (hne _ (by decide))
    · next heq => exact absurd (List.cons.inj heq).1 (hne _ (by decide))
    · rfl
  have hstarts : startsPlain (c :: rest) = true := by
    have hindicator : c ∉ indicators := by
      intro hmem
      have hnone : indicators.all (!isNameChar ·) = true := by decide
      exact hne c (by simpa using List.all_eq_true.mp hnone c hmem) rfl
    simp [startsPlain, hne '-' (by decide), hne '?' (by decide),
      hne ':' (by decide), isBlank_of_isNameChar hc, hindicator]
  simp [Opening.ofText, hmark, hcollection, hstarts, hne '-' (by decide),
    hne '?' (by decide), hne ':' (by decide), hne '[' (by decide),
    hne '\x7b' (by decide), hne ']' (by decide), hne '\x7d' (by decide),
    hne ',' (by decide), hne '!' (by decide), hne '\'' (by decide),
    hne '"' (by decide)]

theorem takeWhile_isSkipped
    (s : State) {c : Char}
    (hc : isBlank c = false)
    (rest : List Char) :
    (c :: rest).takeWhile s.isSkipped = [] := by
  simp only [isBlank, Bool.or_eq_false_iff] at hc
  simp [isSkipped, hc.1, hc.2]

theorem dropWhile_isSkipped
    (s : State) {c : Char}
    (hc : isBlank c = false)
    (rest : List Char) :
    (c :: rest).dropWhile s.isSkipped = c :: rest := by
  simp only [isBlank, Bool.or_eq_false_iff] at hc
  simp [isSkipped, hc.1, hc.2]

/-- A row goes on with a character that does not start a comment. -/
theorem row_goes_on
    {c : Char}
    (hc : c ≠ '#')
    (rest : List Char) :
    ((c :: rest).isEmpty || decide ((c :: rest).head? = some '#')) =
      false := by
  simp [hc]

/-- The blanks in front of a token are passed over. -/
theorem scanFrom_replicate
    (fuel : Nat) (s : State) (ending : Ending) (place : Place) (n : Nat)
    {c : Char}
    (hc : isBlank c = false)
    (rest : List Char) :
    scanFrom fuel s ending place (List.replicate n ' ' ++ c :: rest) =
      scanFrom fuel s ending (place.past (List.replicate n ' '))
        (c :: rest) := by
  have hblanks : ∀ d ∈ List.replicate n ' ', s.isSkipped d = true := by
    intro d hd
    rw [List.eq_of_mem_replicate hd]
    rfl
  cases fuel with
  | zero => rfl
  | succ fuel =>
      rw [scanFrom, scanFrom, List.takeWhile_append_of_pos hblanks,
        List.dropWhile_append_of_pos hblanks, takeWhile_isSkipped s hc,
          dropWhile_isSkipped s hc,
        List.append_nil, Place.past_nil]

theorem scanFrom_blank
    (fuel : Nat) (s : State) (ending : Ending) (place : Place) {c : Char}
    (hc : isBlank c = false)
    (rest : List Char) :
    scanFrom fuel s ending place (' ' :: c :: rest) =
      scanFrom fuel s ending (place.past [' ']) (c :: rest) :=
  scanFrom_replicate fuel s ending place 1 hc rest

/-! ## Columns -/

def closing (columns : List Nat) (column : Nat) : List Token :=
  List.replicate (columns.takeWhile (column < ·)).length .blockEnd

/-- The columns that stay when the blocks further to the right are left. -/
def remaining (columns : List Nat) (column : Nat) : List Nat :=
  columns.dropWhile (column < ·)

def opening (columns : List Nat) (column : Nat) (token : Token) :
    List Token :=
  if columns.head?.all (· < column) then [token] else []

/-- The columns with a block in the given one. -/
def opened (columns : List Nat) (column : Nat) : List Nat :=
  if columns.head?.all (· < column) then column :: columns else columns

/-- No block stands further to the right. -/
def Within (columns : List Nat) (column : Nat) : Prop :=
  ∀ c ∈ columns.head?, c ≤ column

theorem Within.remaining_eq
    {columns : List Nat} {column : Nat}
    (h : Within columns column) :
    remaining columns column = columns := by
  cases columns with
  | nil => rfl
  | cons c rest => simp [remaining, h c rfl]

theorem Within.closing_eq
    {columns : List Nat} {column : Nat}
    (h : Within columns column) :
    closing columns column = [] := by
  cases columns with
  | nil => rfl
  | cons c rest => simp [closing, h c rfl]

theorem within_remaining
    (columns : List Nat) (column : Nat) :
    Within (remaining columns column) column := by
  intro c hc
  have hhead := List.head?_dropWhile_not (column < ·) columns
  rw [remaining] at hc
  rw [Option.mem_def.mp hc] at hhead
  simpa using hhead

theorem Within.mono
    {columns : List Nat} {column other : Nat}
    (h : Within columns column)
    (hle : column ≤ other) :
    Within columns other :=
  fun c hc => (h c hc).trans hle

theorem Within.opened
    {columns : List Nat} {column : Nat}
    (h : Within columns column) :
    Within (opened columns column) column := by
  unfold Yaml.opened
  split
  · simp [Within]
  · exact h

theorem leave_of_within
    {columns : List Nat} {column : Nat}
    (h : Within columns column)
    (keyAllowed : Bool) (key : Option Key) (waiting : List Token)
    (unfinished : Option Unfinished) :
    (⟨columns, keyAllowed, key, waiting, unfinished⟩ : State).leave column =
      ([], ⟨columns, keyAllowed, key, waiting, unfinished⟩) := by
  change (closing columns column,
    (⟨remaining columns column, _, _, _, _⟩ : State)) = _
  rw [h.closing_eq, h.remaining_eq]

theorem enter_eq
    (s : State) (column : Nat) (token : Token) :
    s.enter column token =
      (opening s.columns column token,
        { s with columns := opened s.columns column }) := by
  unfold enter opening opened
  split <;> rfl

/-! ## Keys and dashes -/

theorem scanFrom_plainKey
    {key rest : List Char}
    (hkey : IsBare key)
    (hsize : byteSize key ≤ keyLimit)
    (hgap : atGap rest = true)
    (columns : List Nat) (fuel : Nat) (ending : Ending) (place : Place) :
    scanFrom (fuel + 1) (clear columns true) ending place
        (key ++ ':' :: rest) =
      (scanFrom fuel ⟨remaining columns place.column, false,
        some ⟨place, (remaining columns place.column).head? =
          some place.column,
          [.scalar true (String.ofList key)]⟩, [],
            none⟩ ending (place.past key)
          (':' :: rest)).prepend (closing columns place.column) := by
  rcases List.exists_cons_of_ne_nil hkey.1 with ⟨c, others, rfl⟩
  have hc := hkey.2 c List.mem_cons_self
  have hblank := isBlank_of_isNameChar hc
  have hcomment : c ≠ '#' := ne_of_isNameChar hc (by decide)
  have hsplit := splitPlain_append hkey.2 false hgap
  have hmore : (':' :: rest).isEmpty = false := rfl
  have hlimit : (place.past (c :: others)).offset ≤ place.offset + keyLimit :=
    Nat.add_le_add_left hsize _
  rw [List.cons_append] at hsplit ⊢
  rw [scanFrom, takeWhile_isSkipped _ hblank, dropWhile_isSkipped _ hblank]
  simp only [Place.past_nil, row_goes_on hcomment, Bool.false_eq_true,
    if_false, review, clear, Scan.pure_bind, leave, Opening.ofText_bare hc,
    hsplit, hmore, startKey, if_true, stripEnd_self hkey.2, add,
    List.nil_append, hlimit, Scan.emit_bind, Scan.prepend_bind]
  rfl

theorem scanFrom_colon
    {columns : List Nat} {keyPlace place : Place} {required : Bool}
    {held : List Token} {rest : List Char}
    (hwithin : Within columns place.column)
    (hlimit : place.offset ≤ keyPlace.offset + keyLimit)
    (hgap : atGap rest = true)
    (fuel : Nat) (ending : Ending) :
    scanFrom (fuel + 1)
        ⟨columns, false, some ⟨keyPlace, required, held⟩, [], none⟩
        ending place (':' :: rest) =
      (scanFrom fuel (clear (opened columns keyPlace.column) false) ending
        (place.past [':']) rest).prepend
          (opening columns keyPlace.column .mappingStart ++ .key :: held ++
            [.value]) := by
  have hopening : Opening.ofText place.column (':' :: rest) = .value := by
    simp [Opening.ofText, documentMark?, emptyCollection?, hgap]
  rw [scanFrom, takeWhile_isSkipped _ rfl, dropWhile_isSkipped _ rfl]
  simp only [Place.past_nil, row_goes_on (show ':' ≠ '#' by decide),
    Bool.false_eq_true, if_false, review, hlimit, if_true, Scan.pure_bind,
    leave_of_within hwithin, hopening, enter_eq, Scan.emit_bind]
  rfl

theorem scanFrom_key
    {key rest : List Char}
    (hkey : IsBare key)
    (hsize : byteSize key ≤ keyLimit)
    (hgap : atGap rest = true)
    (columns : List Nat) (fuel : Nat) (ending : Ending) (place : Place) :
    scanFrom (fuel + 2) (clear columns true) ending place
        (key ++ ':' :: rest) =
      (scanFrom fuel
        (clear (opened (remaining columns place.column) place.column) false)
        ending (place.past (key ++ [':'])) rest).prepend
          (closing columns place.column ++
            opening (remaining columns place.column) place.column
              .mappingStart ++
            [.key, .scalar true (String.ofList key), .value]) := by
  have hwithin :
      Within (remaining columns place.column) (place.past key).column :=
    (within_remaining columns place.column).mono (Nat.le_add_right _ _)
  have hlimit : (place.past key).offset ≤ place.offset + keyLimit :=
    Nat.add_le_add_left hsize _
  rw [scanFrom_plainKey hkey hsize hgap, scanFrom_colon hwithin hlimit hgap,
    Scan.prepend_prepend, Place.past_past]
  simp

theorem scanFrom_dash
    {rest : List Char} (columns : List Nat) (fuel : Nat) (ending : Ending)
    (place : Place) :
    scanFrom (fuel + 1) (clear columns true) ending place
        ('-' :: ' ' :: rest) =
      (scanFrom fuel
        (clear (opened (remaining columns place.column) place.column) true)
        ending (place.past ['-']) (' ' :: rest)).prepend
          (closing columns place.column ++
            opening (remaining columns place.column) place.column
              .sequenceStart ++
            [.entry]) := by
  have hopening :
      Opening.ofText place.column ('-' :: ' ' :: rest) = .entry := by
    simp [Opening.ofText, documentMark?, emptyCollection?, atGap, isBlank]
  rw [scanFrom, takeWhile_isSkipped _ rfl, dropWhile_isSkipped _ rfl]
  simp only [Place.past_nil, row_goes_on (show '-' ≠ '#' by decide),
    Bool.false_eq_true, if_false, review, clear, Scan.pure_bind, leave,
    hopening, enter_eq, Scan.emit_bind, Bool.not_true]
  rfl

/-! ## What stands behind a key -/

theorem scanFrom_plain
    {word : List Char}
    (hword : IsBare word)
    {columns : List Nat} {place : Place}
    (hwithin : Within columns place.column)
    {fuel : Nat}
    (hfuel : 0 < fuel) :
    scanFrom fuel (clear columns false) (.lineEnd '\n') place word =
      ⟨[], some { clear columns false with
          unfinished := some ⟨.plain, word, ['\n'], []⟩ }⟩ := by
  rcases Nat.exists_eq_add_of_le' hfuel with ⟨k, rfl⟩
  rcases List.exists_cons_of_ne_nil hword.1 with ⟨c, others, rfl⟩
  have hc := hword.2 c List.mem_cons_self
  have hblank := isBlank_of_isNameChar hc
  have hcomment : c ≠ '#' := ne_of_isNameChar hc (by decide)
  rw [scanFrom, takeWhile_isSkipped _ hblank, dropWhile_isSkipped _ hblank]
  simp only [Place.past_nil, row_goes_on hcomment, Bool.false_eq_true,
    if_false, review, clear, Scan.pure_bind, leave_of_within hwithin,
    Opening.ofText_bare hc, splitPlain_self hword.2, List.isEmpty_nil,
    startKey, if_true, suspend, stripEnd_self hword.2, List.nil_append]
  rfl

theorem put_clear
    (columns : List Nat) (keyAllowed : Bool) (token : Token) :
    (clear columns keyAllowed).put [] token =
      ⟨[token], some (clear columns keyAllowed)⟩ :=
  rfl

theorem readSingle_append
    {text : List Char}
    (h : '\'' ∉ text) :
    readSingle (text ++ ['\'']) = (text, some []) := by
  induction text with
  | nil => rfl
  | cons c rest ih =>
      rw [List.mem_cons, not_or] at h
      rw [List.cons_append, readSingle, ih h.2]
      · exact fun more hquote => absurd hquote.symm h.1
      · exact fun hquote => absurd hquote.symm h.1

theorem scanFrom_quoted
    {text : List Char}
    (htext : '\'' ∉ text)
    {columns : List Nat} {place : Place}
    (hwithin : Within columns place.column)
    {fuel : Nat}
    (hfuel : 2 ≤ fuel)
    (ending : Ending) :
    scanFrom fuel (clear columns false) ending place
        ('\'' :: (text ++ ['\''])) =
      ⟨[.scalar false (String.ofList text)], some (clear columns true)⟩ := by
  rcases Nat.exists_eq_add_of_le' hfuel with ⟨k, rfl⟩
  have hopening : Opening.ofText place.column ('\'' :: (text ++ ['\''])) =
      .quote .single := by
    simp [Opening.ofText, documentMark?, emptyCollection?]
  rw [scanFrom, takeWhile_isSkipped _ rfl, dropWhile_isSkipped _ rfl]
  simp only [Place.past_nil, row_goes_on (show '\'' ≠ '#' by decide),
    Bool.false_eq_true, if_false, review, clear, Scan.pure_bind,
    leave_of_within hwithin, hopening, List.drop_succ_cons, List.drop_zero,
    readQuoted, readSingle_append htext]
  rfl

theorem scanFrom_emptyList
    {columns : List Nat} {place : Place}
    (hwithin : Within columns place.column)
    {fuel : Nat}
    (hfuel : 2 ≤ fuel)
    (ending : Ending) :
    scanFrom fuel (clear columns false) ending place ['[', ']'] =
      ⟨[.emptySequence], some (clear columns true)⟩ := by
  rcases Nat.exists_eq_add_of_le' hfuel with ⟨k, rfl⟩
  have hempty : emptyCollection? ['[', ']'] = some (.emptySequence, []) := rfl
  have hopening : Opening.ofText place.column ['[', ']'] =
      .collection .emptySequence [] := by
    simp [Opening.ofText, documentMark?, hempty]
  rw [scanFrom, takeWhile_isSkipped _ rfl, dropWhile_isSkipped _ rfl]
  simp only [Place.past_nil, row_goes_on (show '[' ≠ '#' by decide),
    Bool.false_eq_true, if_false, review, clear, Scan.pure_bind,
    leave_of_within hwithin, hopening]
  rfl

theorem readTag_append
    {name rest : List Char}
    (hname : ∀ c ∈ name, isNameChar c = true)
    (hgap : atGap rest = true) :
    readTag (name ++ rest) = some (String.ofList name, rest) := by
  have htag : ∀ c ∈ name, isTagChar c = true := by
    intro c hc
    have := hname c hc
    simp only [isNameChar, Bool.or_eq_true, beq_iff_eq] at this
    rcases this with halphanum | rfl
    · simp [isTagChar, halphanum]
    · decide
  have hstop :
      rest.takeWhile isTagChar = [] ∧ rest.dropWhile isTagChar = rest := by
    cases rest with
    | nil => exact ⟨rfl, rfl⟩
    | cons c more =>
        have hc : isTagChar c = false := by
          simp only [atGap, isBlank, Bool.or_eq_true, beq_iff_eq] at hgap
          rcases hgap with rfl | rfl <;> decide
        simp [hc]
  rw [readTag, List.takeWhile_append_of_pos htag,
    List.dropWhile_append_of_pos htag, hstop.1, hstop.2, List.append_nil]
  exact if_pos hgap

theorem scanFrom_tag
    {name rest : List Char}
    (hname : ∀ c ∈ name, isNameChar c = true)
    (hgap : atGap rest = true)
    {columns : List Nat} {place : Place}
    (hwithin : Within columns place.column)
    (fuel : Nat) (ending : Ending) :
    ∃ place', place.column ≤ place'.column ∧
      scanFrom (fuel + 1) (clear columns false) ending place
        ('!' :: (name ++ rest)) =
        (scanFrom fuel (clear columns false) ending place' rest).prepend
          [.tag (String.ofList name)] := by
  have hopening :
      Opening.ofText place.column ('!' :: (name ++ rest)) = .tag := by
    simp [Opening.ofText, documentMark?, emptyCollection?]
  refine ⟨place.upTo ('!' :: (name ++ rest)) rest, Nat.le_add_right _ _, ?_⟩
  rw [scanFrom, takeWhile_isSkipped _ rfl, dropWhile_isSkipped _ rfl]
  simp only [Place.past_nil, row_goes_on (show '!' ≠ '#' by decide),
    Bool.false_eq_true, if_false, review, clear, Scan.pure_bind,
    leave_of_within hwithin, hopening, List.drop_succ_cons, List.drop_zero,
    readTag_append hname hgap]
  rfl

end ThreeAddress.Yaml
