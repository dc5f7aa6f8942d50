import ThreeAddress.Proofs.Range

/-!
# Nearest numbers

Rounding takes a quotient to the magnitude of 24 significant bits that is
nearest to it, and of two that are equally near to the one whose last bit is
zero.  The neighbours of a magnitude show how far the quotients reach that
round to it: they are those of the interval around it.
-/

namespace ThreeAddress

namespace Single

/-! ## The nearest multiple -/

theorem natAbs_roundHalfEven_sub
    (num : Nat) {den : Nat}
    (hden : 0 < den) :
    (2 * ((roundHalfEven num den * den : Nat) : Int) - 2 * num).natAbs < den ∨
      (2 * ((roundHalfEven num den * den : Nat) : Int) - 2 * num).natAbs =
          den ∧
        roundHalfEven num den % 2 = 0 := by
  have hdiv : num = num / den * den + num % den :=
    (Nat.div_add_mod' num den).symm
  have hrem : num % den < den := Nat.mod_lt num hden
  unfold roundHalfEven
  dsimp only
  generalize num / den = k at *
  generalize num % den = r at *
  have hsucc : (k + 1) * den = k * den + den := Nat.succ_mul k den
  split_ifs <;> omega

theorem abs_roundHalfEven_sub
    (num : Nat) {den : Nat}
    (hden : 0 < den) :
    |(roundHalfEven num den : ℚ) - num / den| < 1 / 2 ∨
      |(roundHalfEven num den : ℚ) - num / den| = 1 / 2 ∧
      roundHalfEven num den % 2 = 0 := by
  have hpos : (0 : ℚ) < 2 * den := by
    have : (0 : ℚ) < den := by exact_mod_cast hden
    positivity
  have hscale : |(roundHalfEven num den : ℚ) - num / den| * (2 * den) =
      ((2 * ((roundHalfEven num den * den : Nat) : Int) - 2 * num).natAbs :
        Nat) := by
    rw [Nat.cast_natAbs, Int.cast_abs]
    nth_rewrite 1 [← abs_of_pos hpos]
    rw [← abs_mul]
    congr 1
    push_cast
    field_simp
  have hhalf : (1 / 2 : ℚ) * (2 * den) = den := by ring
  rcases natAbs_roundHalfEven_sub num hden with hlt | ⟨heq, heven⟩
  · left
    rw [← mul_lt_mul_iff_of_pos_right hpos, hscale, hhalf]
    exact_mod_cast hlt
  · right
    refine ⟨?_, heven⟩
    rw [← mul_left_inj' hpos.ne', hscale, hhalf]
    exact_mod_cast heq

/-- Two multiples of a step are a step apart, so not both are near to one
number. -/
theorem le_abs_sub_add_abs_sub
    {k r : Nat}
    (hne : k ≠ r)
    {s : ℚ}
    (hs : 0 ≤ s)
    (x : ℚ) :
    s ≤ |(r : ℚ) * s - x| + |(k : ℚ) * s - x| := by
  have hstep : (1 : ℚ) ≤ |(r : ℚ) - k| := by
    exact_mod_cast Int.one_le_abs (show (r : ℤ) - k ≠ 0 by omega)
  calc s ≤ |(r : ℚ) - k| * s := le_mul_of_one_le_left hs hstep
    _ = |((r : ℚ) * s - x) - (k * s - x)| := by
        rw [← abs_of_nonneg hs, ← abs_mul, abs_of_nonneg hs]
        congr 1
        ring
    _ ≤ |(r : ℚ) * s - x| + |(k : ℚ) * s - x| := abs_sub _ _

/-! ## The nearest magnitude -/

/-- Every other magnitude of 24 significant bits is farther from `x` than `n`,
or it is as far and the last bit of `n` is zero. -/
def IsNearest (n : Nat) (x : ℚ) : Prop :=
  ∀ m, spacing m ∣ m → m ≠ n →
    |(n : ℚ) - x| < |(m : ℚ) - x| ∨
      |(n : ℚ) - x| = |(m : ℚ) - x| ∧ n / spacing n % 2 = 0

/-- A magnitude is a multiple of the spacing at `q`, unless it lies below the
power of two at which that spacing begins. -/
theorem spacing_dvd_or_lt
    {m : Nat}
    (hm : spacing m ∣ m)
    (q : Nat) :
    spacing q ∣ m ∨ (m < 2 ^ 23 * spacing q ∧ 2 ^ 23 * spacing q ≤ q) := by
  rcases exists_spacing_eq m with ⟨h, hspacing, hbelow, _⟩
  rcases exists_spacing_eq q with ⟨g, hg, _, habove⟩
  rw [hg]
  rw [hspacing] at hm
  rcases Nat.lt_or_ge h g with hlt | hge
  · right
    rw [← Nat.pow_add]
    refine ⟨hbelow.trans_le (Nat.pow_le_pow_right (by decide) (by omega)), ?_⟩
    exact habove.resolve_left (by omega)
  · exact .inl ((Nat.pow_dvd_pow 2 hge).trans hm)

theorem lastBit_round
    (num : Nat) {den : Nat}
    (hden : 0 < den)
    (heven : roundHalfEven num (den * spacing (num / den)) % 2 = 0) :
    round num den / spacing (round num den) % 2 = 0 := by
  have hprecision := roundHalfEven_le_precision num den
  rcases exists_spacing_eq (num / den) with ⟨g, hg, _, habove⟩
  have hpos := Nat.two_pow_pos g
  have hfactor : g = 0 ∨ 2 ^ 23 ≤ roundHalfEven num (den * 2 ^ g) := by
    refine habove.imp_right fun hle => ?_
    rw [le_roundHalfEven_iff (Nat.mul_pos hden hpos) (by decide)]
    rw [Nat.le_div_iff_mul_le hden, Nat.pow_add] at hle
    have hsame : 2 ^ 23 * (den * 2 ^ g) = 2 ^ 23 * 2 ^ g * den := by ring
    omega
  rw [hg] at heven hprecision
  rw [round, hg]
  generalize roundHalfEven num (den * 2 ^ g) = r at *
  rcases Nat.lt_or_eq_of_le hprecision with hlt | rfl
  · have hspacing : spacing (r * 2 ^ g) = 2 ^ g := by
      refine spacing_eq ?_ (hfactor.imp_right fun hle => ?_)
      · rw [Nat.pow_add]
        exact Nat.mul_lt_mul_of_pos_right hlt hpos
      · rw [Nat.pow_add]
        exact Nat.mul_le_mul_right _ hle
    rwa [hspacing, Nat.mul_div_cancel r hpos]
  · -- The factor has grown to a power of two, and the spacing with it.
    have hspacing : spacing (2 ^ 24 * 2 ^ g) = 2 ^ (g + 1) := by
      rw [← Nat.pow_add]
      exact spacing_eq (Nat.pow_lt_pow_right (by decide) (by omega))
        (.inr (Nat.pow_le_pow_right (by decide) (by omega)))
    have hquotient : 2 ^ 24 * 2 ^ g = 2 ^ 23 * 2 ^ (g + 1) := by ring
    rw [hspacing, hquotient, Nat.mul_div_cancel _ (Nat.two_pow_pos _)]
    decide

theorem abs_round_sub
    (num : Nat) {den : Nat}
    (hden : 0 < den) :
    |(round num den : ℚ) - num / den| < (spacing (num / den) : ℚ) / 2 ∨
      |(round num den : ℚ) - num / den| = (spacing (num / den) : ℚ) / 2 ∧
        roundHalfEven num (den * spacing (num / den)) % 2 = 0 := by
  have hnear := abs_roundHalfEven_sub num
      (Nat.mul_pos hden (spacing_pos (num / den)))
  unfold round
  dsimp only
  generalize roundHalfEven num (den * spacing (num / den)) = r at *
  have hs : (0 : ℚ) < spacing (num / den) := by
    exact_mod_cast spacing_pos (num / den)
  have hd : (0 : ℚ) < den := by exact_mod_cast hden
  have hscale : |((r * spacing (num / den) : Nat) : ℚ) - num / den| =
      |(r : ℚ) - num / ((den * spacing (num / den) : Nat) : ℚ)| * spacing
        (num / den) := by
    nth_rewrite 1 [← abs_of_pos hs]
    rw [← abs_mul]
    congr 1
    push_cast
    field_simp
  rw [hscale]
  rcases hnear with hlt | ⟨heq, heven⟩
  · left
    linarith [mul_lt_mul_of_pos_right hlt hs]
  · right
    refine ⟨?_, heven⟩
    rw [heq]
    ring

/-- Among the multiples of the spacing the nearest one is taken. -/
theorem abs_round_sub_multiple
    (num : Nat) {den : Nat}
    (hden : 0 < den)
    {k : Nat}
    (hne : k * spacing (num / den) ≠ round num den) :
    |(round num den : ℚ) - num / den| <
        |(k : ℚ) * spacing (num / den) - num / den| ∨
      |(round num den : ℚ) - num / den| =
        |(k : ℚ) * spacing (num / den) - num / den| ∧
        round num den / spacing (round num den) % 2 = 0 := by
  have hs : (0 : ℚ) ≤ spacing (num / den) := by positivity
  have hfactor : k ≠ roundHalfEven num (den * spacing (num / den)) := by
    rintro rfl
    exact hne rfl
  have happart := le_abs_sub_add_abs_sub hfactor hs (num / den)
  have hmultiple : (round num den : ℚ) =
      (roundHalfEven num (den * spacing (num / den)) : ℚ) * spacing
        (num / den) := by
    rw [round]
    push_cast
    rfl
  rw [← hmultiple] at happart
  rcases abs_round_sub num hden with hlt | ⟨heq, heven⟩
  · exact .inl (by linarith)
  · have hle : |(round num den : ℚ) - num / den| ≤
        |(k : ℚ) * spacing (num / den) - num / den| := by linarith
    rcases hle.lt_or_eq with hlt | heq
    · exact .inl hlt
    · exact .inr ⟨heq, lastBit_round num hden heven⟩

/-- Rounding is correct: nothing is nearer to the quotient, and a tie goes to
the magnitude whose last bit is zero. -/
theorem isNearest_round
    (num : Nat) {den : Nat}
    (hden : 0 < den) :
    IsNearest (round num den) (num / den) := by
  intro m hm hne
  rcases spacing_dvd_or_lt hm (num / den) with ⟨k, rfl⟩ | ⟨hlt, hle⟩
  · rw [Nat.mul_comm] at hne ⊢
    push_cast
    exact abs_round_sub_multiple num hden hne
  · -- The power of two between the two is nearer than what lies below it.
    left
    have hpower : ((2 ^ 23 : Nat) : ℚ) * spacing (num / den) ≤ num / den := by
      calc ((2 ^ 23 : Nat) : ℚ) * spacing (num / den) ≤
        ((num / den : Nat) : ℚ) := by
            exact_mod_cast hle
        _ ≤ num / den := Nat.cast_div_le
    have hbelow : (m : ℚ) < ((2 ^ 23 : Nat) : ℚ) * spacing (num / den) := by
      exact_mod_cast hlt
    have hreach : |(round num den : ℚ) - num / den| ≤
        |((2 ^ 23 : Nat) : ℚ) * spacing (num / den) - num / den| := by
      by_cases hsame : 2 ^ 23 * spacing (num / den) = round num den
      · rw [← hsame, Nat.cast_mul]
      · rcases abs_round_sub_multiple num hden hsame with hlt | ⟨heq, _⟩
        · exact hlt.le
        · exact heq.le
    rw [abs_of_nonpos (sub_nonpos.mpr hpower)] at hreach
    rw [abs_of_nonpos (a := (m : ℚ) - num / den) (by linarith)]
    linarith

/-- The number lies on the nearer side of the middle of `n` and any other
magnitude, or it is the middle and the last bit of `n` is zero. -/
theorem IsNearest.middle
    {n m : Nat} {x : ℚ}
    (h : IsNearest n x)
    (hm : spacing m ∣ m)
    (hne : m ≠ n) :
    0 < ((m : ℚ) - n) * (n + m - 2 * x) ∨
      (n + m : ℚ) = 2 * x ∧ n / spacing n % 2 = 0 := by
  have hproduct :
      ((m : ℚ) - n) * (n + m - 2 * x) = (m - x) ^ 2 - (n - x) ^ 2 := by ring
  rcases h m hm hne with hlt | ⟨heq, heven⟩
  · left
    rw [hproduct, sub_pos]
    exact sq_lt_sq.mpr hlt
  · refine .inr ⟨?_, heven⟩
    rw [← sq_eq_sq_iff_abs_eq_abs] at heq
    rw [heq, sub_self] at hproduct
    have hapart : (m : ℚ) - n ≠ 0 := sub_ne_zero.mpr (by exact_mod_cast hne)
    exact sub_eq_zero.mp ((mul_eq_zero.mp hproduct).resolve_left hapart)

end Single

namespace Decimal

open Single

/-! ## The interval around a magnitude -/

namespace Interval

/-- The number of quanta lies between the ends, or it is an end that belongs
to the interval. -/
def Holds (i : Interval) (x : ℚ) : Prop :=
  (i.low < 4 * x ∨ i.low = 4 * x ∧ i.closed = true) ∧
    (4 * x < i.high ∨ 4 * x = i.high ∧ i.closed = true)

theorem contains_iff_holds
    {i : Interval} {num den : Nat}
    (hden : 0 < den) :
    i.contains num den = true ↔ i.Holds (num / den) := by
  have hpos : (0 : ℚ) < den := by exact_mod_cast hden
  have hquotient : 4 * ((num : ℚ) / den) = ((4 * num : Nat) : ℚ) / den := by
    push_cast
    ring
  rw [Holds, hquotient, lt_div_iff₀ hpos, eq_div_iff hpos.ne',
    div_lt_iff₀ hpos, div_eq_iff hpos.ne']
  norm_cast
  unfold contains
  cases i.closed with
  | true =>
      simp only [if_true, Bool.and_eq_true, decide_eq_true_eq, and_true]
      omega
  | false => simp

/-- The ends are the middles of the magnitude and its neighbours. -/
theorem exists_low_eq
    {n : Nat}
    (hdvd : spacing n ∣ n)
    (hpos : 0 < n) :
    ∃ m, spacing m ∣ m ∧ m < n ∧ (around n).low = 2 * (n + m) := by
  have hs := spacing_pos n
  have hfloor := div_spacing_lt n
  by_cases hnarrow : spacing n ≠ 1 ∧ n = 2 ^ 23 * spacing n
  · -- Below the power of two the spacing is half as wide.
    obtain ⟨g, hg⟩ : ∃ g, spacing n = 2 * 2 ^ g := by
      rcases exists_spacing_eq n with ⟨h, hspacing, _⟩
      cases h with
      | zero => exact absurd hspacing hnarrow.1
      | succ g => exact ⟨g, by rw [hspacing, Nat.pow_succ']⟩
    refine ⟨(2 ^ 24 - 1) * 2 ^ g, spacing_dvd_of_le (by decide), ?_, ?_⟩
    · have := Nat.two_pow_pos g
      omega
    · simp only [around, if_pos hnarrow]
      omega
  · rcases exists_spacing_eq n with ⟨g, hg, _⟩
    rw [hg] at hdvd hfloor
    rcases hdvd with ⟨k, hk⟩
    obtain ⟨j, rfl⟩ := Nat.exists_eq_succ_of_ne_zero (n := k) (by
      rintro rfl
      simp [hk] at hpos)
    have hnext : 2 ^ g * (j + 1) = j * 2 ^ g + 2 ^ g := by ring
    rw [Nat.succ_eq_add_one, hnext] at hk
    have hj : j ≤ 2 ^ 24 := by
      rw [hk, ← Nat.succ_mul,
        Nat.mul_div_cancel _ (Nat.two_pow_pos g)] at hfloor
      omega
    refine ⟨j * 2 ^ g, spacing_dvd_of_le hj, by omega, ?_⟩
    simp only [around, if_neg hnarrow]
    omega

theorem exists_high_eq
    {n : Nat}
    (hdvd : spacing n ∣ n) :
    ∃ m, spacing m ∣ m ∧ n < m ∧ (around n).high = 2 * (n + m) := by
  have hs := spacing_pos n
  have hfloor := div_spacing_lt n
  refine ⟨n + spacing n, ?_, by omega, by simp only [around]; omega⟩
  rcases exists_spacing_eq n with ⟨g, hg, _⟩
  have hmultiple : n + spacing n = (n / spacing n + 1) * 2 ^ g := by
    rw [Nat.add_mul, Nat.one_mul, ← hg, Nat.div_mul_cancel hdvd]
  rw [hmultiple]
  exact spacing_dvd_of_le hfloor

theorem holds_of_isNearest
    {n : Nat}
    (hdvd : spacing n ∣ n)
    {x : ℚ}
    (hx : 0 ≤ x)
    (h : IsNearest n x) :
    (around n).Holds x := by
  have hclosed (heven : n / spacing n % 2 = 0) :
      (around n).closed = true := by
    simpa [around] using heven
  constructor
  · rcases Nat.eq_zero_or_pos n with rfl | hpos
    · have hlow : (around 0).low = 0 := by simp [around]
      rw [hlow, Nat.cast_zero]
      rcases hx.lt_or_eq with hlt | rfl
      · exact .inl (by linarith)
      · exact .inr ⟨by simp, hclosed (by simp)⟩
    · rcases exists_low_eq hdvd hpos with ⟨m, hm, hlt, hlow⟩
      have hlt' : (m : ℚ) < n := by exact_mod_cast hlt
      rw [hlow]
      push_cast
      rcases h.middle hm hlt.ne with hside | ⟨heq, heven⟩
      · exact .inl (by nlinarith)
      · exact .inr ⟨by linarith, hclosed heven⟩
  · rcases exists_high_eq hdvd with ⟨m, hm, hlt, hhigh⟩
    have hlt' : (n : ℚ) < m := by exact_mod_cast hlt
    rw [hhigh]
    push_cast
    rcases h.middle hm hlt.ne' with hside | ⟨heq, heven⟩
    · exact .inl (by nlinarith)
    · exact .inr ⟨by linarith, hclosed heven⟩

/-- The interval around a magnitude is made of the quotients that round to
it. -/
theorem holds_around_iff
    {n num den : Nat}
    (hdvd : spacing n ∣ n)
    (hden : 0 < den) :
    (around n).Holds (num / den) ↔ Single.round num den = n := by
  constructor
  · intro hholds
    exact round_eq_of_contains hden hdvd
      ((contains_iff_holds hden).mpr hholds)
  · rintro rfl
    exact holds_of_isNearest hdvd (by positivity) (isNearest_round num hden)

theorem holds_around_self
    {n : Nat}
    (hdvd : spacing n ∣ n) :
    (around n).Holds n := by
  have hself : Single.round n 1 = n := by
    simpa using round_of_spacing_dvd hdvd Nat.one_pos
  simpa using (holds_around_iff hdvd Nat.one_pos).mpr hself

theorem Holds.between
    {i : Interval} {a b x : ℚ}
    (ha : i.Holds a)
    (hb : i.Holds b)
    (hax : a ≤ x)
    (hxb : x ≤ b) :
    i.Holds x := by
  constructor
  · rcases ha.1 with hlt | ⟨heq, hclosed⟩
    · exact .inl (by linarith)
    · rcases hax.lt_or_eq with hlt | rfl
      · exact .inl (by linarith)
      · exact .inr ⟨heq, hclosed⟩
  · rcases hb.2 with hlt | ⟨heq, hclosed⟩
    · exact .inl (by linarith)
    · rcases hxb.lt_or_eq with hlt | rfl
      · exact .inl (by linarith)
      · exact .inr ⟨heq, hclosed⟩

end Interval

end Decimal

end ThreeAddress
