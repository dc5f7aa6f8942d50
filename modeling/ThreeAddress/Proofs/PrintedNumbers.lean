import ThreeAddress.Proofs.ProperCells
import ThreeAddress.Proofs.ShortestDecimals

/-!
# Cells and literals read back

The text of a finite number is a sign, if it has one, and the positional
notation of a decimal of fewest digits.  A cell shows it with a fraction and
is read from that text, minus zero as well.  A literal has no sign: the finite
numbers without one have a literal that stands for them, and the others are
refused for the form of their text.
-/

namespace ThreeAddress

/-! ## Signs -/

namespace Decimal

open Single

theorem toSingle_true
    (d : Decimal) :
    d.toSingle true = -d.toSingle false := by
  simp only [toSingle, ofRatio]
  split <;> rfl

theorem toSingle_eq_iff
    {d : Decimal} {negative : Bool} {n : Nat} {hn : Fits n} :
    d.toSingle negative = .finite negative n hn ↔ d.RoundsTo n := by
  constructor
  · intro hsingle
    simp only [toSingle, ofRatio] at hsingle
    split at hsingle
    · exact (Single.finite.inj hsingle).2
    · contradiction
  · intro hrounds
    have hplain := toSingle_of_roundsTo hrounds hn
    cases negative with
    | false => exact hplain
    | true =>
        rw [toSingle_true, hplain]
        rfl

theorem exists_read?_pointed
    (d : Decimal) :
    ∃ shown : Decimal, read? d.pointed = some shown ∧
      ∀ negative, shown.toSingle negative = d.toSingle negative := by
  rcases d.exists_shownAs with ⟨whole, fraction, hshown⟩
  refine ⟨⟨Numeral.value (whole ++ fraction), -fraction.length⟩,
    ?_, fun negative => ?_⟩
  · rw [hshown.pointed_eq]
    exact read?_append hshown.whole_ne_nil hshown.whole_isDigit
      hshown.fraction_isDigit
  · cases negative with
    | false => exact hshown.toSingle_eq
    | true => rw [toSingle_true, toSingle_true, hshown.toSingle_eq]

/-- The decimal is read as the number, and no decimal of fewer digits is. -/
structure IsShortest (d : Decimal) (negative : Bool) (x : Single) : Prop where
  toSingle_eq : d.toSingle negative = x
  length_le : ∀ other : Decimal, other.toSingle negative = x →
    (Numeral.digits d.coefficient).length ≤
      (Numeral.digits other.coefficient).length

end Decimal

namespace Single

/-- The text of a finite number is its sign and a decimal of fewest digits. -/
theorem exists_isShortest
    (negative : Bool) {n : Nat}
    (hn : Fits n) :
    ∃ d : Decimal, toText (.finite negative n hn) =
        (if negative then "-" else "") ++ String.ofList d.toText ∧
      d.IsShortest negative (.finite negative n hn) := by
  rcases Nat.eq_zero_or_pos n with rfl | hpos
  · have hdigits : Numeral.digits 0 = ['0'] := by
      rw [Numeral.digits]
      rfl
    refine ⟨⟨0, 0⟩, ?_, Decimal.toSingle_eq_iff.mpr ?_, fun other _ => ?_⟩
    · rw [toText, magnitudeText, if_pos rfl]
      change _ = _ ++ String.ofList (Numeral.digits 0 ++ [])
      rw [hdigits]
      rfl
    · simp [Decimal.RoundsTo]
    · change (Numeral.digits 0).length ≤ _
      rw [hdigits]
      exact List.length_pos_of_ne_nil
        (Numeral.digits_ne_nil other.coefficient)
  · refine ⟨Decimal.shortest n, ?_, ?_, fun other hother => ?_⟩
    · rw [toText, magnitudeText, if_neg hpos.ne']
    · exact Decimal.toSingle_eq_iff.mpr (Decimal.roundsTo_shortest hn.2)
    · exact Decimal.length_digits_shortest_le hn hpos
        (Decimal.toSingle_eq_iff.mp hother)

theorem toList_toPointText_negative
    {n : Nat}
    (hn : Fits n) :
    (toPointText (.finite true n hn)).toList =
      '-' :: (toPointText (.finite false n hn)).toList := by
  have htext : (toText (.finite true n hn)).toList =
      '-' :: (toText (.finite false n hn)).toList := by
    simp [toText]
  unfold toPointText
  rw [htext]
  split_ifs <;> simp_all

theorem read?_toPointText_negative
    {n : Nat}
    (hn : Fits n) :
    read? (toPointText (.finite true n hn)) = some (.finite true n hn) := by
  rcases exists_toPointText hn with ⟨d, hpointed, hsingle⟩
  rcases d.exists_read?_pointed with ⟨shown, hread, hshown⟩
  have hlist := toList_toPointText_negative hn
  rw [hpointed] at hlist
  simp only [read?, hlist, hread, Option.map_some, hshown]
  rw [Decimal.toSingle_true, hsingle]
  rfl

end Single

/-! ## Cells -/

namespace Cell

theorem readInteger?_intText
    {n : Int}
    (h : inWordRange n = true) :
    readInteger? (Numeral.intText n) = some n := by
  rcases List.exists_cons_of_ne_nil (Numeral.digits_ne_nil n.natAbs) with
    ⟨c, rest, hdigits⟩
  have hvalue := Numeral.value_digits n.natAbs
  have hnumeral := Numeral.isNumeral_digits n.natAbs
  by_cases hneg : n < 0
  · have hlist :
        (Numeral.intText n).toList = '-' :: Numeral.digits n.natAbs := by
      simp [Numeral.intText, hneg, Numeral.text]
    have hself : -1 * (n.natAbs : Int) = n := by omega
    simp only [readInteger?, hlist, hvalue, hself, hnumeral, h,
      Bool.and_self, if_true]
  · have hlist : (Numeral.intText n).toList = Numeral.digits n.natAbs := by
      rw [Numeral.intText, if_neg hneg, Numeral.text, String.toList_ofList]
    have hself : 1 * (n.natAbs : Int) = n := by omega
    have hdigit : c.isDigit = true :=
      Numeral.isDigit_of_mem_digits (hdigits ▸ List.mem_cons_self)
    unfold readInteger?
    split
    · next hminus =>
        rw [hlist, hdigits] at hminus
        simp [(List.cons.inj hminus).1] at hdigit
    · next hplus =>
        rw [hlist, hdigits] at hplus
        simp [(List.cons.inj hplus).1] at hdigit
    · simp only [hlist, hvalue, hself, hnumeral, h, Bool.and_self, if_true]

theorem read?_text_iff
    (cell : Cell) :
    read? cell.type cell.text = some cell ↔ cell.IsProper := by
  constructor
  · exact isProper_of_read?
  · intro hproper
    cases cell with
    | integer n =>
        change (readInteger? (Numeral.intText n)).map Cell.integer =
          some (.integer n)
        rw [readInteger?_intText hproper]
        rfl
    | float x =>
        cases x with
        | nan | infinite negative => contradiction
        | finite negative n hn =>
            have hread :
                Single.read? (Single.toPointText (.finite negative n hn)) =
                some (.finite negative n hn) := by
              cases negative with
              | false => exact Single.read?_toPointText hn
              | true => exact Single.read?_toPointText_negative hn
            change ((Single.read?
                (Single.toPointText (.finite negative n hn))).filter
              Single.isFinite).map Cell.float =
              some (.float (.finite negative n hn))
            rw [hread]
            rfl

end Cell

/-! ## Literals -/

namespace Literal

theorem ofText_eq_error
    {type : ValueType} {text : String} {e : ObjectError}
    (h : read type text = .error e) :
    ofText type text = .error e := by
  unfold ofText
  split
  · next cell hcell => simp [h] at hcell
  · next e' he => rw [← Except.error.inj (h.symm.trans he)]

/-- Digits with a point do not start with a sign. -/
theorem isPointNumeral_cons_of_not_isDigit
    {c : Char}
    (hc : c.isDigit = false)
    (rest : List Char) :
    isPointNumeral (c :: rest) = false := by
  rw [← Bool.not_eq_true, isPointNumeral_iff]
  rintro ⟨whole, fraction, htext, hwhole, _⟩
  obtain ⟨hne, hdigit⟩ := Numeral.isNumeral_iff.mp hwhole
  rcases List.exists_cons_of_ne_nil hne with ⟨d, others, rfl⟩
  rw [(List.cons.inj htext).1, hdigit d List.mem_cons_self] at hc
  contradiction

theorem ofSingle_of_head
    {x : Single} {c : Char} {rest : List Char}
    (htext : x.toPointText.toList = c :: rest)
    (hc : c.isDigit = false) :
    ofSingle x = .error (.literalForm x.toPointText .float) := by
  refine ofText_eq_error ?_
  rw [read, htext, isPointNumeral_cons_of_not_isDigit hc,
    if_neg Bool.false_ne_true]

theorem ofSingle_eq_error
    {x : Single}
    (h : x.isFinite = false ∨ ∃ n hn, x = .finite true n hn) :
    ofSingle x = .error (.literalForm x.toPointText .float) := by
  rcases h with hinfinite | ⟨n, hn, rfl⟩
  · cases x with
    | nan => exact ofSingle_of_head (c := 'N') rfl rfl
    | infinite negative =>
        cases negative with
        | false => exact ofSingle_of_head (c := 'i') rfl rfl
        | true => exact ofSingle_of_head (c := '-') rfl rfl
    | finite negative n hn => contradiction
  · exact ofSingle_of_head (Single.toList_toPointText_negative hn) rfl

end Literal

theorem Single.fits_zero : Single.Fits 0 := by decide +kernel

theorem Single.fits_one : Single.Fits 1 := by decide +kernel

theorem Single.fits_largest :
    Single.Fits ((2 ^ 24 - 1) * 2 ^ 253) := by decide +kernel

/-- What is printed reads back.  A finite number without a sign has a literal
that stands for it, and any other number has none.  A cell is read from its
text just if it holds an integer of 32 bits or a finite number, minus zero
among them.  The text of a number has the fewest digits that are read as it,
and digits are read as the number nearest to them. -/
theorem printed_numbers_read_back :
    (∀ (n : Nat) (hn : Single.Fits n), ∃ literal,
      Literal.ofSingle (.finite false n hn) = .ok literal ∧
        literal.value = .finite false n hn) ∧
    (∀ x : Single, (x.isFinite = false ∨ ∃ n hn, x = .finite true n hn) →
      Literal.ofSingle x = .error (.literalForm x.toPointText .float)) ∧
    (∀ cell : Cell, Cell.read? cell.type cell.text = some cell ↔
      cell.IsProper) ∧
    (∀ (negative : Bool) (n : Nat) (hn : Single.Fits n), ∃ d : Decimal,
      Single.toText (.finite negative n hn) =
          (if negative then "-" else "") ++ String.ofList d.toText ∧
        d.IsShortest negative (.finite negative n hn)) ∧
    (∀ (negative : Bool) (d : Decimal) (n : Nat) (hn : Single.Fits n),
      d.toSingle negative = .finite negative n hn →
      Single.IsNearest n d.quanta) := by
  refine ⟨fun n hn => ?_, fun x => Literal.ofSingle_eq_error,
    Cell.read?_text_iff, fun negative n hn =>
    Single.exists_isShortest negative hn, fun negative d n hn hsingle =>
    (Decimal.toSingle_eq_iff.mp hsingle).isNearest⟩
  rcases Literal.exists_ofSingle hn with ⟨literal, hliteral⟩
  refine ⟨literal, hliteral, ?_⟩
  rw [Literal.value, Literal.cell_ofSingle hliteral]
  rfl

/-- The least number above zero and the largest one, minus zero, minus
infinity and the least integer. -/
theorem printed_extremes_read_back :
    (∃ literal, Literal.ofSingle (.finite false 1 Single.fits_one) =
        .ok literal ∧ literal.value = .finite false 1 Single.fits_one) ∧
    ((Single.infinite true).isFinite = false ∧
      Literal.ofSingle (.infinite true) =
        .error (.literalForm "-inf.0" .float)) ∧
    Literal.ofSingle (.finite true 0 Single.fits_zero) =
        .error (.literalForm "-0.0" .float) ∧
    (Cell.IsProper (.float (.finite true 0 Single.fits_zero)) ∧
      Cell.read? .float "-0.0" =
        some (.float (.finite true 0 Single.fits_zero))) ∧
    (Cell.IsProper (.float (.finite false _ Single.fits_largest)) ∧
      Cell.read? .float "340282350000000000000000000000000000000.0" =
        some (.float (.finite false _ Single.fits_largest))) ∧
    (Cell.IsProper (.integer (-2147483648)) ∧
      Cell.read? .integer "-2147483648" = some (.integer (-2147483648))) ∧
    (∃ d : Decimal, Single.toText (.finite true 1 Single.fits_one) =
        "-" ++ String.ofList d.toText ∧
      d.IsShortest true (.finite true 1 Single.fits_one)) ∧
    (Decimal.toSingle false ⟨1, -45⟩ = .finite false 1 Single.fits_one ∧
      Single.IsNearest 1 (Decimal.quanta ⟨1, -45⟩)) := by
  obtain ⟨hliteral, hrefused, hcell, hshortest, hnearest⟩ :=
    printed_numbers_read_back
  have hzero :
      (Cell.float (.finite true 0 Single.fits_zero)).text = "-0.0" := by
    decide +kernel
  have hlargest : (Cell.float (.finite false _ Single.fits_largest)).text =
      "340282350000000000000000000000000000000.0" := by decide +kernel
  have hinteger : (Cell.integer (-2147483648)).text = "-2147483648" := by
    decide +kernel
  have hleast :
      Decimal.toSingle false ⟨1, -45⟩ = .finite false 1 Single.fits_one := by
    decide +kernel
  refine ⟨hliteral 1 Single.fits_one, ⟨rfl, hrefused _ (.inl rfl)⟩,
    hrefused _ (.inr ⟨0, Single.fits_zero, rfl⟩), ⟨rfl, ?_⟩,
      ⟨rfl, ?_⟩, ⟨rfl, ?_⟩,
    hshortest true 1 Single.fits_one, hleast,
      hnearest false _ 1 Single.fits_one hleast⟩
  · rw [← hzero]
    exact (hcell (.float _)).mpr rfl
  · rw [← hlargest]
    exact (hcell (.float _)).mpr rfl
  · rw [← hinteger]
    exact (hcell (.integer _)).mpr rfl

end ThreeAddress
