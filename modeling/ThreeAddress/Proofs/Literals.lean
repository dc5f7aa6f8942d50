import ThreeAddress.Proofs.Printing
import ThreeAddress.Proofs.Success
import ThreeAddress.Value

/-!
# What literals stand for

A literal has the cell that its text is read as, and the cell has the type of
the literal.  The literal of a number without a sign stands for that number
again.
-/

namespace ThreeAddress

namespace Literal

theorem ofText_eq_ok
    {type : ValueType} {text : String} {literal : Literal}
    (h : ofText type text = .ok literal) :
    literal.type = type ∧ read type text = .ok literal.cell := by
  unfold ofText at h
  split at h
  · next cell hread =>
      rw [← Except.ok.inj h]
      exact ⟨rfl, hread⟩
  · contradiction

theorem text_of_ofText
    {type : ValueType} {text : String} {literal : Literal}
    (h : ofText type text = .ok literal) :
    literal.text = text := by
  unfold ofText at h
  split at h
  · rw [← Except.ok.inj h]
  · contradiction

theorem ofText_text
    (literal : Literal) :
    ofText literal.type literal.text = .ok literal := by
  unfold ofText
  split
  · next cell hread =>
      obtain rfl : literal.cell = cell :=
        Except.ok.inj (literal.reads.symm.trans hread)
      rfl
  · next e he => simp [literal.reads] at he

theorem exists_ofText
    {type : ValueType} {text : String} {cell : Cell}
    (h : read type text = .ok cell) :
    ∃ literal, ofText type text = .ok literal := by
  unfold ofText
  split
  · exact ⟨_, rfl⟩
  · next e he => simp [h] at he

theorem read_integer_eq_ok
    {text : String} {cell : Cell}
    (h : read .integer text = .ok cell) :
    Numeral.value text.toList < 2 ^ 31 ∧
      cell = .integer (Numeral.value text.toList) := by
  rw [read] at h
  split_ifs at h with hnumeral hrange
  exact ⟨hrange, (Except.ok.inj h).symm⟩

theorem read_float_eq_ok
    {text : String} {cell : Cell}
    (h : read .float text = .ok cell) :
    ∃ x, Single.read? text = some x ∧ x.isFinite = true ∧
      cell = .float x := by
  rw [read] at h
  split_ifs at h with hnumeral
  split at h
  · next x hx =>
      obtain ⟨hread, hfinite⟩ := Option.filter_eq_some_iff.mp hx
      exact ⟨x, hread, hfinite, (Except.ok.inj h).symm⟩
  · contradiction

theorem type_cell
    (literal : Literal) :
    literal.cell.type = literal.type := by
  have hreads := literal.reads
  cases htype : literal.type with
  | integer =>
      rw [htype] at hreads
      rw [(read_integer_eq_ok hreads).2]
      rfl
  | float =>
      rw [htype] at hreads
      obtain ⟨x, _, _, hcell⟩ := read_float_eq_ok hreads
      rw [hcell]
      rfl

theorem type_zero
    (type : ValueType) :
    (Literal.zero type).type = type := by
  cases type <;> rfl

theorem cell_ofInt
    {n : Nat} {literal : Literal}
    (h : ofInt n = .ok literal) :
    literal.cell = .integer n := by
  have hnonneg : ¬((n : Int) < 0) := by omega
  have hread := (ofText_eq_ok h).2
  rw [Numeral.intText, if_neg hnonneg, Int.natAbs_natCast] at hread
  rw [(read_integer_eq_ok hread).2, Numeral.text, String.toList_ofList,
    Numeral.value_digits]

theorem cell_ofSingle
    {n : Nat} {hn : Single.Fits n} {literal : Literal}
    (h : ofSingle (.finite false n hn) = .ok literal) :
    literal.cell = .float (.finite false n hn) := by
  obtain ⟨x, hread, _, hcell⟩ := read_float_eq_ok (ofText_eq_ok h).2
  rw [Single.read?_toPointText hn] at hread
  rw [hcell, Option.some.inj hread]

/-! ## Numbers that have a literal -/

theorem isPointNumeral_iff
    {text : List Char} :
    isPointNumeral text = true ↔
      ∃ whole fraction, text = whole ++ '.' :: fraction ∧
      Numeral.isNumeral whole = true ∧ Numeral.isNumeral fraction = true := by
  rw [isPointNumeral, Bool.and_eq_true]
  constructor
  · rintro ⟨hwhole, hfraction⟩
    have hsplit :
        text.takeWhile (· != '.') ++ text.dropWhile (· != '.') = text :=
      List.takeWhile_append_dropWhile
    have hhead := List.head?_dropWhile_not (· != '.') text
    cases hdrop : text.dropWhile (· != '.') with
    | nil => simp [hdrop, Numeral.isNumeral] at hfraction
    | cons c rest =>
        obtain rfl : c = '.' := by simpa [hdrop] using hhead
        rw [hdrop] at hsplit hfraction
        exact ⟨_, rest, hsplit.symm, hwhole, hfraction⟩
  · rintro ⟨whole, fraction, rfl, hwhole, hfraction⟩
    have hpoint : ∀ c ∈ whole, (c != '.') = true := by
      intro c hc
      rw [bne_iff_ne]
      rintro rfl
      exact Decimal.not_mem_of_isDigit (Numeral.isNumeral_iff.mp hwhole).2 hc
    rw [List.takeWhile_append_of_pos hpoint,
      List.dropWhile_append_of_pos hpoint]
    simp [hwhole, hfraction]

theorem isDigit_or_eq_point
    (literal : Literal) {c : Char}
    (hc : c ∈ literal.text.toList) :
    c.isDigit = true ∨ c = '.' := by
  have hreads := literal.reads
  cases htype : literal.type with
  | integer =>
      rw [htype, read] at hreads
      split_ifs at hreads with hnumeral hrange
      exact .inl ((Numeral.isNumeral_iff.mp hnumeral).2 c hc)
  | float =>
      rw [htype, read] at hreads
      split_ifs at hreads with hnumeral
      rcases isPointNumeral_iff.mp hnumeral with
        ⟨whole, fraction, htext, hwhole, hfraction⟩
      rw [htext, List.mem_append, List.mem_cons] at hc
      rcases hc with hc | hc | hc
      · exact .inl ((Numeral.isNumeral_iff.mp hwhole).2 c hc)
      · exact .inr hc
      · exact .inl ((Numeral.isNumeral_iff.mp hfraction).2 c hc)

theorem exists_ofInt
    {n : Nat}
    (h : n < 2 ^ 31) :
    ∃ literal, ofInt n = .ok literal := by
  have hnonneg : ¬((n : Int) < 0) := by omega
  have hread : read .integer (Numeral.text n) = .ok (.integer n) := by
    rw [Numeral.text, read, String.toList_ofList, Numeral.value_digits,
      if_pos h, if_pos (Numeral.isNumeral_digits n)]
  rw [ofInt, Numeral.intText, if_neg hnonneg, Int.natAbs_natCast]
  exact exists_ofText hread

theorem exists_ofSingle
    {n : Nat}
    (hn : Single.Fits n) :
    ∃ literal, ofSingle (.finite false n hn) = .ok literal := by
  have hpoint : isPointNumeral
      (Single.toPointText (.finite false n hn)).toList = true := by
    rcases Single.exists_toPointText hn with ⟨d, hpointed, _⟩
    rcases d.exists_shownAs with ⟨whole, fraction, hshown⟩
    rw [isPointNumeral_iff]
    exact ⟨whole, fraction, hpointed.trans hshown.pointed_eq,
      Numeral.isNumeral_iff.mpr ⟨hshown.whole_ne_nil, hshown.whole_isDigit⟩,
      Numeral.isNumeral_iff.mpr
        ⟨hshown.fraction_ne_nil, hshown.fraction_isDigit⟩⟩
  have hread : read .float (Single.toPointText (.finite false n hn)) =
      .ok (.float (.finite false n hn)) := by
    rw [read, if_pos hpoint, Single.read?_toPointText hn]
    rfl
  exact exists_ofText hread

end Literal

end ThreeAddress
