import ThreeAddress.Proofs.Printing

/-!
# The largest numbers

Rounding yields a finite number as long as the exact one lies below the middle
of the largest finite magnitude and the limit, and an infinite one from there
on.
-/

namespace ThreeAddress

namespace Single

theorem le_roundHalfEven_iff
    {num den q : Nat}
    (hden : 0 < den)
    (heven : q % 2 = 0) :
    q ≤ roundHalfEven num den ↔ 2 * (q * den) ≤ 2 * num + den := by
  have hdiv : num = num / den * den + num % den :=
    (Nat.div_add_mod' num den).symm
  have hrem : num % den < den := Nat.mod_lt num hden
  unfold roundHalfEven
  dsimp only
  generalize num / den = floor at *
  generalize num % den = rem at *
  rcases Nat.lt_trichotomy (floor + 1) q with hlt | rfl | hgt
  · have hmul : (floor + 2) * den ≤ q * den := Nat.mul_le_mul_right den hlt
    rw [Nat.add_mul] at hmul
    split_ifs <;> omega
  · rw [Nat.add_mul]
    split_ifs <;> omega
  · have hmul : q * den ≤ floor * den := Nat.mul_le_mul_right den (by omega)
    split_ifs <;> omega

theorem limit_eq : limit = 2 ^ 24 * 2 ^ 253 := by decide +kernel

theorem round_lt_limit_of_lt
    {num den g : Nat}
    (hden : 0 < den)
    (hg : g < 253)
    (hspacing : spacing (num / den) = 2 ^ g)
    (hhigh : num / den < 2 ^ (24 + g)) :
    round num den < limit ∧ 2 * num < (2 ^ 25 - 1) * (den * 2 ^ 253) := by
  have hprecision := roundHalfEven_le_precision num den
  rw [hspacing] at hprecision
  have hpow : 2 * 2 ^ g ≤ 2 ^ 253 := by
    rw [← Nat.pow_succ']
    exact Nat.pow_le_pow_right (by decide) hg
  have hpos := Nat.two_pow_pos g
  rw [round, hspacing, limit_eq]
  generalize 2 ^ 253 = top at *
  constructor
  · calc roundHalfEven num (den * 2 ^ g) * 2 ^ g
        ≤ 2 ^ 24 * 2 ^ g := Nat.mul_le_mul_right _ hprecision
      _ < 2 ^ 24 * top := by omega
  · rw [Nat.pow_add, Nat.div_lt_iff_lt_mul hden] at hhigh
    calc 2 * num
        < 2 * (2 ^ 24 * 2 ^ g * den) := by omega
      _ = 2 ^ 24 * (den * (2 * 2 ^ g)) := by ring
      _ ≤ 2 ^ 24 * (den * top) := by gcongr
      _ ≤ (2 ^ 25 - 1) * (den * top) := Nat.mul_le_mul_right _ (by decide)

theorem limit_le_round_of_lt
    {num den g : Nat}
    (hden : 0 < den)
    (hg : 253 < g)
    (hspacing : spacing (num / den) = 2 ^ g)
    (hlow : 2 ^ (23 + g) ≤ num / den) :
    limit ≤ round num den ∧ (2 ^ 25 - 1) * (den * 2 ^ 253) ≤ 2 * num := by
  have hpow : 2 * 2 ^ 253 ≤ 2 ^ g := by
    rw [← Nat.pow_succ']
    exact Nat.pow_le_pow_right (by decide) hg
  rw [Nat.pow_add, Nat.le_div_iff_mul_le hden] at hlow
  have hsame : 2 ^ 23 * (den * 2 ^ g) = 2 ^ 23 * 2 ^ g * den := by ring
  have hfactor : 2 ^ 23 ≤ roundHalfEven num (den * 2 ^ g) := by
    rw [le_roundHalfEven_iff (Nat.mul_pos hden (Nat.two_pow_pos g))
      (by decide)]
    omega
  rw [round, hspacing, limit_eq]
  generalize 2 ^ 253 = top at *
  constructor
  · calc 2 ^ 24 * top = 2 ^ 23 * (2 * top) := by ring
      _ ≤ 2 ^ 23 * 2 ^ g := Nat.mul_le_mul_left _ hpow
      _ ≤ roundHalfEven num (den * 2 ^ g) * 2 ^ g :=
          Nat.mul_le_mul_right _ hfactor
  · calc (2 ^ 25 - 1) * (den * top)
        ≤ 2 ^ 25 * (den * top) := Nat.mul_le_mul_right _ (by decide)
      _ = 2 * (2 ^ 23 * (den * (2 * top))) := by ring
      _ ≤ 2 * (2 ^ 23 * (den * 2 ^ g)) := by gcongr
      _ ≤ 2 * num := by omega

/-- Below the middle of the largest finite magnitude and the limit a quotient
is rounded to a finite magnitude. -/
theorem round_lt_limit_iff
    {num den : Nat}
    (hden : 0 < den) :
    round num den < limit ↔ 2 * num < (2 ^ 25 - 1) * (den * 2 ^ 253) := by
  rcases exists_spacing_eq (num / den) with ⟨g, hspacing, hhigh, hlow⟩
  rcases Nat.lt_trichotomy g 253 with hlt | rfl | hgt
  · have hboth := round_lt_limit_of_lt hden hlt hspacing hhigh
    exact iff_of_true hboth.1 hboth.2
  · rw [round, hspacing, limit_eq, Nat.mul_lt_mul_right (Nat.two_pow_pos _),
      ← Nat.not_le, le_roundHalfEven_iff
      (Nat.mul_pos hden (Nat.two_pow_pos _)) (by decide), Nat.not_le]
    generalize 2 ^ 253 = top
    omega
  · have hboth := limit_le_round_of_lt hden hgt hspacing
        (hlow.resolve_left (by omega))
    exact iff_of_false hboth.1.not_gt hboth.2.not_gt

theorem isFinite_ofRatio_iff
    {negative : Bool} {num den : Nat} :
    (ofRatio negative num den).isFinite = true ↔ round num den < limit := by
  unfold ofRatio
  split <;> simp [isFinite, *]

theorem exists_finite_ofRatio
    {negative : Bool} {num den : Nat}
    (h : round num den < limit) :
    ∃ n hn, ofRatio negative num den = .finite negative n hn :=
  ⟨_, _, dif_pos h⟩

end Single

namespace Decimal

theorem toSingle_eq_ofRatio
    (negative : Bool) (coefficient places : Nat) :
    toSingle negative ⟨coefficient, -(places : Int)⟩ =
      Single.ofRatio negative (coefficient * Single.unit) (10 ^ places) := by
  cases places with
  | zero => simp [toSingle, power]
  | succ k =>
      change Single.ofRatio negative (coefficient * 1 * Single.unit)
        (10 ^ (k + 1)) = _
      rw [Nat.mul_one]

/-- From 2¹²⁸ - 2¹⁰³ on a decimal is rounded to infinity. -/
theorem isFinite_toSingle_iff
    (negative : Bool) {coefficient places : Nat} :
    (toSingle negative ⟨coefficient, -(places : Int)⟩).isFinite = true ↔
      coefficient < (2 ^ 128 - 2 ^ 103) * 10 ^ places := by
  have hmiddle : (2 ^ 25 - 1) * (10 ^ places * 2 ^ 253) =
      2 * ((2 ^ 128 - 2 ^ 103) * 10 ^ places * Single.unit) := by
    rw [show (2 ^ 253 : Nat) = 2 * 2 ^ 103 * Single.unit by decide +kernel,
      show (2 ^ 128 - 2 ^ 103 : Nat) = (2 ^ 25 - 1) * 2 ^ 103 by
        decide +kernel]
    ring
  rw [toSingle_eq_ofRatio, Single.isFinite_ofRatio_iff,
    Single.round_lt_limit_iff (Nat.pow_pos (by decide)), hmiddle,
    Nat.mul_lt_mul_left (by decide), Nat.mul_lt_mul_right Single.unit_pos]

theorem exists_finite_toSingle
    (negative : Bool) {coefficient places : Nat}
    (h : coefficient < (2 ^ 128 - 2 ^ 103) * 10 ^ places) :
    ∃ n hn, toSingle negative ⟨coefficient, -(places : Int)⟩ =
      .finite negative n hn := by
  have hfinite := (isFinite_toSingle_iff negative).mpr h
  rw [toSingle_eq_ofRatio] at hfinite ⊢
  exact Single.exists_finite_ofRatio (Single.isFinite_ofRatio_iff.mp hfinite)

end Decimal

end ThreeAddress
