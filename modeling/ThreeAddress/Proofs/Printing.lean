import ThreeAddress.Single.Decimal
import ThreeAddress.Proofs.Numerals
import ThreeAddress.Proofs.Rounding
import Mathlib.Data.List.TakeWhile

/-!
# Printed numbers read back

The shortest decimal of a number lies in the interval of the reals that round
to it, so it rounds to the number again.  Its text is digits, a point, digits,
and is read as the same decimal.  A finite number without a sign therefore
comes back from its text.
-/

namespace ThreeAddress

namespace Single

theorem spacing_eq
    {n g : Nat}
    (hhigh : n < 2 ^ (24 + g))
    (hlow : g = 0 ∨ 2 ^ (23 + g) ≤ n) :
    spacing n = 2 ^ g := by
  rcases Nat.eq_zero_or_pos n with rfl | hpos
  · rcases hlow with rfl | hlow
    · rfl
    · have := Nat.two_pow_pos (23 + g)
      omega
  · have hlog : n.log2 < 24 + g := (Nat.log2_lt hpos.ne').mpr hhigh
    unfold spacing
    congr 1
    rcases hlow with rfl | hlow
    · omega
    · have : 23 + g ≤ n.log2 := (Nat.le_log2 hpos.ne').mpr hlow
      omega

theorem exists_spacing_eq
    (n : Nat) :
    ∃ g, spacing n = 2 ^ g ∧ n < 2 ^ (24 + g) ∧
      (g = 0 ∨ 2 ^ (23 + g) ≤ n) := by
  refine ⟨n.log2 - 23, rfl, ?_, ?_⟩
  · exact Nat.lt_log2_self.trans_le
      (Nat.pow_le_pow_right (by decide) (by omega))
  · rcases Nat.eq_zero_or_pos (n.log2 - 23) with hzero | hpos
    · exact .inl hzero
    · have hn : n ≠ 0 := by
        rintro rfl
        simp at hpos
      refine .inr ((Nat.pow_le_pow_right (by decide) ?_).trans
        (Nat.log2_self_le hn))
      omega

theorem ofRatio_mul_right
    (s : Bool) (num den : Nat) {k : Nat}
    (hk : 0 < k) :
    ofRatio s (num * k) (den * k) = ofRatio s num den := by
  simp only [ofRatio, round_mul_right num den hk]

end Single

namespace Decimal

open Single

/-! ## Decimals that round to a number -/

/-- The quotient is nearer to the magnitude `n` than to its neighbours, which
are a spacing away; below a power of two the neighbour is half as far. -/
structure IsNear (n s num den : Nat) : Prop where
  low : 4 * n * den ≤ 4 * num + 2 * s * den
  high : 4 * num ≤ 4 * n * den + 2 * s * den
  tie : n / s % 2 = 0 ∨
    (4 * n * den < 4 * num + 2 * s * den ∧
      4 * num < 4 * n * den + 2 * s * den)
  power : s ≠ 1 → n = 2 ^ 23 * s → 4 * n * den ≤ 4 * num + s * den

theorem Interval.contains_cases
    {i : Interval} {num den : Nat}
    (h : i.contains num den = true) :
    i.low * den ≤ 4 * num ∧ 4 * num ≤ i.high * den ∧
      (i.closed = true ∨
        (i.low * den < 4 * num ∧ 4 * num < i.high * den)) := by
  unfold Interval.contains at h
  split at h
  · next hclosed =>
      simp only [Bool.and_eq_true, decide_eq_true_eq] at h
      exact ⟨h.1, h.2, .inl hclosed⟩
  · simp only [Bool.and_eq_true, decide_eq_true_eq] at h
    exact ⟨h.1.le, h.2.le, .inr h⟩

theorem isNear_of_contains
    {n num den : Nat}
    (h : (Interval.around n).contains num den = true) :
    IsNear n (spacing n) num den := by
  obtain ⟨hlow, hhigh, htie⟩ := Interval.contains_cases h
  have hs := spacing_pos n
  simp only [Interval.around, beq_iff_eq] at hlow hhigh htie
  generalize spacing n = s at *
  obtain ⟨reach, hreach, hle⟩ : ∃ reach,
      (if s ≠ 1 ∧ n = 2 ^ 23 * s then s else 2 * s) = reach ∧
        reach ≤ 2 * s := by
    refine ⟨_, rfl, ?_⟩
    split <;> omega
  have hsplit : 4 * n * den ≤ (4 * n - reach) * den + reach * den := by
    rw [← Nat.add_mul]
    exact Nat.mul_le_mul_right den (by omega)
  have hwidth : reach * den ≤ 2 * s * den := Nat.mul_le_mul_right den hle
  rw [hreach] at hlow htie
  rw [Nat.add_mul] at hhigh htie
  refine ⟨by omega, hhigh, htie.imp_right fun hstrict => by omega, ?_⟩
  intro hne hpower
  rw [if_pos ⟨hne, hpower⟩] at hreach
  subst hreach
  omega

theorem round_eq_of_spacing_eq
    {n s num den : Nat}
    (hden : 0 < den)
    (hs : 0 < s)
    (hdvd : s ∣ n)
    (hspacing : spacing (num / den) = s)
    (h : IsNear n s num den) :
    Single.round num den = n := by
  obtain ⟨m, rfl⟩ := hdvd
  obtain ⟨hlow, hhigh, htie, _⟩ := h
  have hproduct : 4 * (s * m) * den = 4 * (m * (den * s)) := by ring
  have hwidth : 2 * s * den = 2 * (den * s) := by ring
  rw [Nat.mul_div_cancel_left m hs] at htie
  rw [hproduct, hwidth] at hlow hhigh htie
  rw [Single.round, hspacing, Nat.mul_comm s m,
    roundHalfEven_eq (q := m) (Nat.mul_pos hden hs)] <;> omega

theorem div_lt_of_isNear
    {n g num den : Nat}
    (hden : 0 < den)
    (hdvd : 2 ^ g ∣ n)
    (hbelow : n < 2 ^ (24 + g))
    (h : IsNear n (2 ^ g) num den) :
    num / den < 2 ^ (24 + g) := by
  obtain ⟨m, rfl⟩ := hdvd
  have hnext : (2 ^ g * m + 2 ^ g) * den ≤ 2 ^ (24 + g) * den := by
    rw [Nat.add_comm 24, Nat.pow_add] at hbelow ⊢
    have hlt : m < 2 ^ 24 := Nat.lt_of_mul_lt_mul_left hbelow
    rw [← Nat.mul_succ]
    exact Nat.mul_le_mul_right den (Nat.mul_le_mul_left _ hlt)
  have hpos := Nat.mul_pos (Nat.two_pow_pos g) hden
  have hhigh := h.high
  rw [Nat.div_lt_iff_lt_mul hden]
  rw [Nat.add_mul] at hnext
  linarith

theorem eq_of_isNear_of_lt
    {n g num den : Nat}
    (hden : 0 < den)
    (hdvd : 2 ^ g ∣ n)
    (habove : 2 ^ 23 * 2 ^ g ≤ n)
    (hless : num < 2 ^ 23 * 2 ^ g * den)
    (h : IsNear n (2 ^ g) num den) :
    n = 2 ^ 23 * 2 ^ g := by
  obtain ⟨m, rfl⟩ := hdvd
  rw [Nat.mul_comm (2 ^ g) m] at habove h ⊢
  have hm : 2 ^ 23 ≤ m :=
    Nat.le_of_mul_le_mul_right habove (Nat.two_pow_pos g)
  rcases Nat.eq_or_lt_of_le hm with rfl | hlt
  · rfl
  · have hnext : (2 ^ 23 + 1) * 2 ^ g ≤ m * 2 ^ g :=
      Nat.mul_le_mul_right _ hlt
    have hscaled := Nat.mul_le_mul_right den hnext
    have hpos := Nat.mul_pos (Nat.two_pow_pos g) hden
    have hlow := h.low
    nlinarith

theorem round_eq_two_pow
    {g num den : Nat}
    (hden : 0 < den)
    (hlow : 4 * 2 ^ (24 + g) * den ≤ 4 * num + 2 * 2 ^ g * den)
    (hhigh : num < 2 ^ (24 + g) * den) :
    Single.round num den = 2 ^ (24 + g) := by
  have hpower : 2 ^ (24 + g) = 2 ^ g * 2 ^ 24 := by
    rw [Nat.add_comm, Nat.pow_add]
  have hhalf : 2 ^ (23 + g) = 2 ^ 23 * 2 ^ g := Nat.pow_add 2 23 g
  -- Below the power the spacing is half of the spacing above it.
  have hspacing : spacing (num / den) = 2 ^ g := by
    refine spacing_eq ((Nat.div_lt_iff_lt_mul hden).mpr hhigh) (.inr ?_)
    rw [Nat.le_div_iff_mul_le hden, hhalf]
    rw [hpower] at hlow
    nlinarith [Nat.mul_pos (Nat.two_pow_pos g) hden]
  refine round_eq_of_spacing_eq hden (Nat.two_pow_pos g) ⟨2 ^ 24, hpower⟩
    hspacing ⟨hlow, by nlinarith, .inl ?_, ?_⟩
  · rw [hpower, Nat.mul_div_cancel_left _ (Nat.two_pow_pos g)]
    decide
  · intro _ hlowest
    rw [hpower, Nat.mul_comm] at hlowest
    have := Nat.eq_of_mul_eq_mul_right (Nat.two_pow_pos g) hlowest
    contradiction

/-- What lies in the interval around a magnitude rounds to it. -/
theorem round_eq_of_contains
    {n num den : Nat}
    (hden : 0 < den)
    (hdvd : spacing n ∣ n)
    (h : (Interval.around n).contains num den = true) :
    Single.round num den = n := by
  have hnear := isNear_of_contains h
  obtain ⟨g, hg, hbelow, habove⟩ := exists_spacing_eq n
  rw [hg] at hdvd hnear
  by_cases hsame : g = 0 ∨ 2 ^ (23 + g) ≤ num / den
  · have hquotient := div_lt_of_isNear hden hdvd hbelow hnear
    exact round_eq_of_spacing_eq hden (Nat.two_pow_pos g) hdvd
      (spacing_eq hquotient hsame) hnear
  · -- The quotient lies below the power of two that the magnitude then is.
    obtain ⟨hpos, hless⟩ := not_or.mp hsame
    have hhalf : 2 ^ (23 + g) = 2 ^ 23 * 2 ^ g := Nat.pow_add 2 23 g
    rw [Nat.not_le, Nat.div_lt_iff_lt_mul hden, hhalf] at hless
    have hpower :=
      eq_of_isNear_of_lt hden hdvd (hhalf ▸ habove.resolve_left hpos)
        hless hnear
    have hlow := hnear.power (by simpa using hpos) hpower
    obtain ⟨k, rfl⟩ := Nat.exists_eq_succ_of_ne_zero hpos
    have hdouble : 2 ^ 23 * 2 ^ (k + 1) = 2 ^ (24 + k) := by ring
    rw [Nat.succ_eq_add_one, hdouble] at hpower hless
    rw [hpower, Nat.succ_eq_add_one, Nat.pow_succ'] at hlow
    rw [hpower]
    exact round_eq_two_pow hden hlow hless

/-- The quotient of quanta that a decimal stands for rounds to `n`. -/
def RoundsTo (d : Decimal) (n : Nat) : Prop :=
  Single.round (d.coefficient * (power d.exponent).1 * unit)
    (power d.exponent).2 = n

theorem power_snd_pos
    (e : Int) :
    0 < (power e).2 := by
  cases e with
  | ofNat e => exact Nat.one_pos
  | negSucc e => exact Nat.pow_pos (by decide)

theorem roundsTo_of_onGrid?
    {n : Nat}
    (hdvd : spacing n ∣ n)
    {e : Int} {d : Decimal}
    (h : onGrid? n e = some d) :
    d.RoundsTo n := by
  have hcontains : d.exponent = e ∧ (Interval.around n).contains
      (d.coefficient * ((power e).1 * unit)) (power e).2 = true := by
    simp only [onGrid?] at h
    split at h
    · next hbelow =>
        rw [← Option.some.inj h]
        exact ⟨rfl, (Bool.and_eq_true _ _ ▸ hbelow).1⟩
    · split at h
      · next habove =>
          rw [← Option.some.inj h]
          exact ⟨rfl, habove⟩
      · contradiction
  obtain ⟨rfl, hcontains⟩ := hcontains
  rw [RoundsTo, Nat.mul_assoc]
  exact round_eq_of_contains (power_snd_pos _) hdvd hcontains

theorem roundsTo_exact
    {n : Nat}
    (hdvd : spacing n ∣ n) :
    (⟨n * 5 ^ 149, -149⟩ : Decimal).RoundsTo n := by
  have hpower : power (-149) = (1, 10 ^ 149) := rfl
  have hten : 5 ^ 149 * unit = 10 ^ 149 := by decide +kernel
  rw [RoundsTo, hpower, Nat.mul_one, Nat.mul_assoc, hten]
  exact round_of_spacing_dvd hdvd (Nat.pow_pos (by decide))

theorem roundsTo_shortest
    {n : Nat}
    (hdvd : spacing n ∣ n) :
    (shortest n).RoundsTo n := by
  unfold shortest
  cases hfind : grids.findSome? (onGrid? n) with
  | none => exact roundsTo_exact hdvd
  | some d =>
      obtain ⟨e, _, he⟩ := List.exists_of_findSome?_eq_some hfind
      exact roundsTo_of_onGrid? hdvd he

theorem toSingle_of_roundsTo
    {d : Decimal} {n : Nat}
    (h : d.RoundsTo n)
    (hn : Fits n) :
    d.toSingle false = .finite false n hn := by
  rw [RoundsTo] at h
  simp only [toSingle, ofRatio, h, dif_pos hn.1]

/-! ## Texts that are read as a decimal -/

theorem splitAtPoint_append
    {whole fraction : List Char}
    (hwhole : ∀ c ∈ whole, c.isDigit = true)
    (hfraction : ∀ c ∈ fraction, c.isDigit = true) :
    splitAtPoint (whole ++ '.' :: fraction) = (whole, fraction, []) := by
  have hpoint : ('.' : Char).isDigit = false := rfl
  have htake : (whole ++ '.' :: fraction).takeWhile Char.isDigit = whole := by
    rw [List.takeWhile_append_of_pos hwhole]
    simp [hpoint]
  have hdrop : (whole ++ '.' :: fraction).dropWhile Char.isDigit =
      '.' :: fraction := by
    rw [List.dropWhile_append_of_pos hwhole]
    simp [hpoint]
  simp only [splitAtPoint, htake, hdrop]
  rw [List.takeWhile_eq_self_iff.mpr hfraction,
    List.dropWhile_eq_nil_iff.mpr hfraction]

theorem read?_append
    {whole fraction : List Char}
    (hne : whole ≠ [])
    (hwhole : ∀ c ∈ whole, c.isDigit = true)
    (hfraction : ∀ c ∈ fraction, c.isDigit = true) :
    read? (whole ++ '.' :: fraction) =
      some ⟨Numeral.value (whole ++ fraction), -fraction.length⟩ := by
  have hempty : (whole ++ fraction).isEmpty = false := by
    cases whole with
    | nil => contradiction
    | cons c rest => rfl
  simp only [read?, splitAtPoint_append hwhole hfraction, hempty,
    readExponent, List.length_append]
  simp

def pointed (d : Decimal) : List Char :=
  if d.toText.contains '.' then d.toText else d.toText ++ ['.', '0']

theorem not_mem_of_isDigit
    {row : List Char}
    (h : ∀ c ∈ row, c.isDigit = true) :
    '.' ∉ row := by
  intro hmem
  exact Bool.false_ne_true (h '.' hmem)

/-- The decimal is shown with the given digits before and behind the point,
and they stand for it. -/
structure ShownAs (d : Decimal) (whole fraction : List Char) : Prop where
  pointed_eq : d.pointed = whole ++ '.' :: fraction
  whole_ne_nil : whole ≠ []
  fraction_ne_nil : fraction ≠ []
  whole_isDigit : ∀ c ∈ whole, c.isDigit = true
  fraction_isDigit : ∀ c ∈ fraction, c.isDigit = true
  toSingle_eq :
    (⟨Numeral.value (whole ++ fraction), -fraction.length⟩ :
      Decimal).toSingle false = d.toSingle false

theorem shownAs_whole
    (coefficient e : Nat) :
    ShownAs ⟨coefficient, .ofNat e⟩
      (Numeral.digits coefficient ++ List.replicate e '0') ['0'] := by
  have hwhole : ∀ c ∈ Numeral.digits coefficient ++ List.replicate e '0',
      c.isDigit = true := by
    intro c hc
    rcases List.mem_append.mp hc with hc | hc
    · exact Numeral.isDigit_of_mem_digits hc
    · rw [List.eq_of_mem_replicate hc]
      rfl
  have hvalue : Numeral.value
      (Numeral.digits coefficient ++ List.replicate e '0' ++ ['0']) =
        coefficient * 10 ^ e * 10 := by
    rw [Numeral.value_append, Numeral.value_append, Numeral.value_digits,
      Numeral.value_replicate_zero, List.length_replicate]
    rfl
  refine ⟨?_, by simp [Numeral.digits_ne_nil], by simp, hwhole, by simp, ?_⟩
  · simpa [pointed, toText] using not_mem_of_isDigit hwhole
  · rw [hvalue]
    change ofRatio false (coefficient * 10 ^ e * 10 * 1 * unit) (1 * 10) =
      ofRatio false (coefficient * 10 ^ e * unit) 1
    rw [← ofRatio_mul_right false _ 1 (show 0 < 10 by decide), Nat.mul_one,
      Nat.mul_right_comm]

theorem shownAs_fraction
    (coefficient e : Nat) :
    ShownAs ⟨coefficient, .negSucc e⟩
      (Numeral.digits (coefficient / 10 ^ (e + 1)))
      (Numeral.padded (e + 1) (coefficient % 10 ^ (e + 1))) := by
  have hlength := Numeral.length_padded (Nat.succ_pos e)
    (Nat.mod_lt coefficient (Nat.pow_pos (by decide)))
  have hvalue : Numeral.value (Numeral.digits (coefficient / 10 ^ (e + 1)) ++
      Numeral.padded (e + 1) (coefficient % 10 ^ (e + 1))) = coefficient := by
    rw [Numeral.value_append, Numeral.value_digits,
      Numeral.value_padded, hlength]
    exact Nat.div_add_mod' coefficient (10 ^ (e + 1))
  have hfraction : Numeral.padded (e + 1) (coefficient % 10 ^ (e + 1)) ≠ [] :=
    List.ne_nil_of_length_eq_add_one hlength
  refine ⟨by simp [pointed, toText], Numeral.digits_ne_nil _, hfraction,
    fun c => Numeral.isDigit_of_mem_digits, fun c =>
      Numeral.isDigit_of_mem_padded, ?_⟩
  rw [hvalue, hlength]
  rfl

theorem exists_shownAs
    (d : Decimal) :
    ∃ whole fraction, ShownAs d whole fraction := by
  obtain ⟨coefficient, exponent⟩ := d
  cases exponent with
  | ofNat e => exact ⟨_, _, shownAs_whole coefficient e⟩
  | negSucc e => exact ⟨_, _, shownAs_fraction coefficient e⟩

end Decimal

namespace Single

theorem read?_of_digits
    {text : String} {whole fraction : List Char}
    (h : text.toList = whole ++ '.' :: fraction)
    (hne : whole ≠ [])
    (hwhole : ∀ c ∈ whole, c.isDigit = true)
    (hfraction : ∀ c ∈ fraction, c.isDigit = true) :
    read? text = some
      (Decimal.toSingle false
        ⟨Numeral.value (whole ++ fraction), -fraction.length⟩) := by
  have hread := Decimal.read?_append hne hwhole hfraction
  rcases List.exists_cons_of_ne_nil hne with ⟨c, rest, rfl⟩
  have hdigit : c.isDigit = true := hwhole c List.mem_cons_self
  unfold read?
  split
  · next hminus =>
      rw [h, List.cons_append] at hminus
      simp [(List.cons.inj hminus).1] at hdigit
  · next hplus =>
      rw [h, List.cons_append] at hplus
      simp [(List.cons.inj hplus).1] at hdigit
  · rw [h, hread, Option.map_some]

theorem read?_pointed
    {text : String} {d : Decimal}
    (h : text.toList = d.pointed) :
    read? text = some (d.toSingle false) := by
  rcases d.exists_shownAs with ⟨whole, fraction, hshown⟩
  rw [read?_of_digits (h.trans hshown.pointed_eq) hshown.whole_ne_nil
    hshown.whole_isDigit hshown.fraction_isDigit, hshown.toSingle_eq]

theorem exists_magnitudeText
    {n : Nat}
    (hn : Fits n) :
    ∃ d : Decimal,
      magnitudeText n = d.toText ∧ d.toSingle false = .finite false n hn := by
  unfold magnitudeText
  split
  · next hzero =>
      subst hzero
      refine ⟨⟨0, 0⟩, ?_, Decimal.toSingle_of_roundsTo ?_ hn⟩
      · simp [Decimal.toText, Numeral.digits]
      · simp [Decimal.RoundsTo]
  · exact ⟨Decimal.shortest n, rfl,
      Decimal.toSingle_of_roundsTo (Decimal.roundsTo_shortest hn.2) hn⟩

theorem exists_toPointText
    {n : Nat}
    (hn : Fits n) :
    ∃ d : Decimal, (toPointText (.finite false n hn)).toList = d.pointed ∧
      d.toSingle false = .finite false n hn := by
  rcases exists_magnitudeText hn with ⟨d, htext, hsingle⟩
  have hlist : (toText (.finite false n hn)).toList = d.toText := by
    simp [toText, htext]
  refine ⟨d, ?_, hsingle⟩
  unfold toPointText Decimal.pointed
  rw [hlist]
  split
  · exact hlist
  · rw [String.toList_append, hlist]
    rfl

/-- A finite number without a sign reads back from its text. -/
theorem read?_toPointText
    {n : Nat}
    (hn : Fits n) :
    read? (toPointText (.finite false n hn)) = some (.finite false n hn) := by
  rcases exists_toPointText hn with ⟨d, hpointed, hsingle⟩
  rw [read?_pointed hpointed, hsingle]

end Single

end ThreeAddress
