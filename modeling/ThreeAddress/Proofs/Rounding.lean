import Mathlib.Tactic
import ThreeAddress.Value

/-!
# Rounding

A magnitude that fits is the result of rounding itself, and rounding depends
on the quotient only.  Every operation rounds an exact result once, so what a
finite number is worth, a whole number of quanta with a sign, determines what
becomes of it: the sign of zero plays no part.
-/

namespace ThreeAddress

namespace Single

theorem spacing_pos
    (n : Nat) :
    0 < spacing n := Nat.two_pow_pos _

theorem unit_pos : 0 < unit := Nat.two_pow_pos _

/-! ## The nearest whole number -/

/-- The quotient is nearest to `q`: it is at most one half away, and less if
`q` is odd. -/
theorem roundHalfEven_eq
    {num den q : Nat}
    (hden : 0 < den)
    (hlow : 2 * (q * den) ≤ 2 * num + den)
    (hhigh : 2 * num ≤ 2 * (q * den) + den)
    (htie : q % 2 = 0 ∨
      (2 * (q * den) < 2 * num + den ∧ 2 * num < 2 * (q * den) + den)) :
    roundHalfEven num den = q := by
  have hdiv : num = num / den * den + num % den :=
    (Nat.div_add_mod' num den).symm
  have hrem : num % den < den := Nat.mod_lt num hden
  unfold roundHalfEven
  dsimp only
  generalize num / den = k at hdiv ⊢
  generalize num % den = r at hdiv hrem ⊢
  -- Within one half of the quotient there are only its floor and the next
  -- number.
  have hq : q = k ∨ q = k + 1 := by
    rcases Nat.lt_trichotomy q k with hlt | rfl | hgt
    · have := Nat.mul_le_mul_right den (Nat.succ_le_of_lt hlt)
      rw [Nat.succ_mul] at this
      omega
    · exact .inl rfl
    · rcases Nat.eq_or_lt_of_le (Nat.succ_le_of_lt hgt) with rfl | hgt
      · exact .inr rfl
      · have := Nat.mul_le_mul_right den (Nat.succ_le_of_lt hgt)
        rw [Nat.succ_mul, Nat.succ_mul] at this
        omega
  rcases hq with rfl | rfl
  · split_ifs <;> omega
  · have hsucc : (k + 1) * den = k * den + den := Nat.succ_mul k den
    split_ifs <;> omega

theorem roundHalfEven_mul_right
    (num den : Nat) {k : Nat}
    (hk : 0 < k) :
    roundHalfEven (num * k) (den * k) = roundHalfEven num den := by
  have hless : 2 * (num % den * k) < den * k ↔ 2 * (num % den) < den := by
    rw [← Nat.mul_assoc]
    exact Nat.mul_lt_mul_right hk
  have hmore : den * k < 2 * (num % den * k) ↔ den < 2 * (num % den) := by
    rw [← Nat.mul_assoc]
    exact Nat.mul_lt_mul_right hk
  simp only [roundHalfEven, Nat.mul_div_mul_right _ _ hk,
    Nat.mul_mod_mul_right, hless, hmore]

/-! ## The nearest number that fits -/

theorem round_mul_right
    (num den : Nat) {k : Nat}
    (hk : 0 < k) :
    round (num * k) (den * k) = round num den := by
  simp only [round, Nat.mul_div_mul_right _ _ hk]
  rw [Nat.mul_right_comm, roundHalfEven_mul_right _ _ hk]

theorem round_of_spacing_dvd
    {n : Nat}
    (h : spacing n ∣ n)
    {den : Nat}
    (hden : 0 < den) :
    round (n * den) den = n := by
  have hreduce := round_mul_right n 1 hden
  rw [Nat.one_mul] at hreduce
  obtain ⟨q, hq⟩ := h
  have hexact : roundHalfEven n (spacing n) = q := by
    refine roundHalfEven_eq (spacing_pos n) ?_ ?_ (.inr ⟨?_, ?_⟩) <;>
      · have := spacing_pos n
        have : q * spacing n = n := by rw [Nat.mul_comm, ← hq]
        omega
  rw [hreduce, round, Nat.div_one, Nat.one_mul, hexact, Nat.mul_comm, ← hq]

@[simp] theorem round_zero
    (den : Nat) :
    round 0 den = 0 := by
  simp [round, roundHalfEven]

theorem round_le_two_pow
    {n k : Nat}
    (h : n ≤ 2 ^ k) :
    round n 1 ≤ 2 ^ k := by
  rcases Nat.eq_zero_or_pos n with rfl | hpos
  · simp
  rcases Nat.lt_or_eq_of_le h with hlt | rfl
  · have hlog : n.log2 < k := (Nat.log2_lt hpos.ne').mpr hlt
    have hdvd : spacing n ∣ 2 ^ k := Nat.pow_dvd_pow 2 (by omega)
    obtain ⟨q, hq⟩ := hdvd
    rw [round, Nat.div_one, Nat.one_mul]
    have hfloor : n / spacing n < q := by
      rw [Nat.div_lt_iff_lt_mul (spacing_pos n), Nat.mul_comm, ← hq]
      exact hlt
    calc roundHalfEven n (spacing n) * spacing n
        ≤ q * spacing n :=
          Nat.mul_le_mul_right _ ((roundHalfEven_le _ _).trans hfloor)
      _ = 2 ^ k := by rw [Nat.mul_comm, ← hq]
  · have hdvd : spacing (2 ^ k) ∣ 2 ^ k := by
      simpa using spacing_dvd_of_le (m := 1) (g := k) (by decide)
    simpa using (round_of_spacing_dvd hdvd Nat.one_pos).le

theorem unit_dvd_round
    {n : Nat}
    (h : unit ∣ n) :
    unit ∣ round n 1 := by
  rw [round, Nat.div_one, Nat.one_mul]
  rcases Nat.le_total (n.log2 - 23) 149 with hle | hge
  · -- The spacing is a fraction of one, so that the number is a multiple of
    -- it.
    have hdvd : spacing n ∣ n := (Nat.pow_dvd_pow 2 hle).trans h
    have hexact := round_of_spacing_dvd hdvd Nat.one_pos
    rw [round, Nat.mul_one, Nat.div_one, Nat.one_mul] at hexact
    rwa [hexact]
  · exact (Nat.pow_dvd_pow 2 hge).trans (Nat.dvd_mul_left _ _)

/-! ## What a number is worth -/

/-- The signed number of quanta that a finite number is worth. -/
def quanta? : Single → Option Int
  | .finite s n _ => some (signedQuanta s n)
  | _ => none

/-- The rounded quotient of quanta, if it is that of a finite number. -/
def nearest? (num : Int) (den : Nat) : Option Int :=
  if round num.natAbs den < limit then
    some (signedQuanta (num < 0) (round num.natAbs den))
  else none

theorem isFinite_iff
    {x : Single} :
    x.isFinite = true ↔ ∃ a, x.quanta? = some a := by
  cases x <;> simp [isFinite, quanta?]

theorem isFinite_eq_of_quanta?_eq
    {x y : Single}
    (h : x.quanta? = y.quanta?) :
    x.isFinite = y.isFinite := by
  rw [Bool.eq_iff_iff, isFinite_iff, isFinite_iff, h]

@[simp] theorem natAbs_signedQuanta
    (s : Bool) (n : Nat) :
    (signedQuanta s n).natAbs = n := by
  cases s <;> simp [signedQuanta]

@[simp] theorem signedQuanta_zero
    (s : Bool) :
    signedQuanta s 0 = 0 := by
  cases s <;> rfl

theorem signedQuanta_natAbs
    (a : Int) :
    signedQuanta (a < 0) a.natAbs = a := by
  by_cases h : a < 0
  · simp only [signedQuanta, h, decide_true, if_true]
    omega
  · simp only [signedQuanta, h, decide_false, Bool.false_eq_true, if_false]
    omega

theorem fits_of_quanta?
    {x : Single} {a : Int}
    (h : x.quanta? = some a) :
    Fits a.natAbs := by
  cases x with
  | nan | infinite s => simp [quanta?] at h
  | finite s n hfits =>
      obtain rfl : signedQuanta s n = a := by simpa [quanta?] using h
      simpa using hfits

theorem quanta?_ofRatio
    {s : Bool} {num den : Nat} {a : Int}
    (habs : a.natAbs = num)
    (hsign : a ≠ 0 → s = decide (a < 0)) :
    (ofRatio s num den).quanta? = nearest? a den := by
  subst habs
  unfold ofRatio nearest?
  split
  · rcases eq_or_ne a 0 with rfl | hne
    · simp [quanta?]
    · rw [hsign hne]
      rfl
  · rfl

theorem mul_natCast_neg_iff
    {a : Int} {k : Nat}
    (hk : 0 < k) :
    a * (k : Int) < 0 ↔ a < 0 := by
  constructor
  · intro hneg
    exact neg_of_mul_neg_left hneg (Int.natCast_nonneg k)
  · intro hneg
    exact mul_neg_of_neg_of_pos hneg (by exact_mod_cast hk)

theorem nearest?_mul_right
    (a : Int) (den : Nat) {k : Nat}
    (hk : 0 < k) :
    nearest? (a * k) (den * k) = nearest? a den := by
  have hround : round (a * k).natAbs (den * k) = round a.natAbs den := by
    rw [Int.natAbs_mul, Int.natAbs_natCast]
    exact round_mul_right _ _ hk
  simp only [nearest?, hround, mul_natCast_neg_iff hk]

theorem nearest?_of_fits
    {a : Int}
    (h : Fits a.natAbs)
    {den : Nat}
    (hden : 0 < den) :
    nearest? (a * den) den = some a := by
  have hreduce := nearest?_mul_right a 1 hden
  rw [Nat.one_mul] at hreduce
  have hround : round a.natAbs 1 = a.natAbs := by
    simpa using round_of_spacing_dvd h.2 Nat.one_pos
  rw [hreduce, nearest?, hround, if_pos h.1, signedQuanta_natAbs]

theorem nearest?_self
    {a : Int}
    (h : Fits a.natAbs) :
    nearest? a 1 = some a := by
  simpa using nearest?_of_fits h Nat.one_pos

theorem nearest?_zero
    (den : Nat) :
    nearest? 0 den = some 0 := by
  have hlimit : 0 < limit := by decide +kernel
  simp [nearest?, hlimit]

theorem natAbs_of_nearest?
    {a b : Int} {den : Nat}
    (h : nearest? a den = some b) :
    b.natAbs = round a.natAbs den := by
  unfold nearest? at h
  split at h
  · rw [← Option.some.inj h, natAbs_signedQuanta]
  · contradiction

/-! ## Operations -/

theorem quanta?_neg
    (x : Single) :
    (-x).quanta? = x.quanta?.map (- ·) := by
  cases x with
  | nan | infinite s => rfl
  | finite s n h =>
      change some (signedQuanta (!s) n) = some (-signedQuanta s n)
      cases s <;> simp [signedQuanta]

theorem exists_finite
    {x : Single} {a : Int}
    (h : x.quanta? = some a) :
    ∃ s n hfits, x = .finite s n hfits ∧ signedQuanta s n = a := by
  cases x with
  | nan | infinite s => simp [quanta?] at h
  | finite s n hfits => exact ⟨s, n, hfits, rfl, by simpa [quanta?] using h⟩

theorem isNonneg_iff
    {x : Single} {a : Int}
    (h : x.quanta? = some a) :
    x.isNonneg = true ↔ 0 ≤ a := by
  obtain ⟨s, n, _, rfl, rfl⟩ := exists_finite h
  cases s with
  | false => simp [isNonneg, signedQuanta]
  | true =>
      simp only [isNonneg, signedQuanta, if_true, Bool.not_true,
        Bool.false_or, beq_iff_eq]
      omega

theorem quanta?_add
    {x y : Single} {a b : Int}
    (hx : x.quanta? = some a)
    (hy : y.quanta? = some b) :
    (x + y).quanta? = nearest? (a + b) 1 := by
  obtain ⟨s, m, hm, rfl, rfl⟩ := exists_finite hx
  obtain ⟨t, n, hn, rfl, rfl⟩ := exists_finite hy
  exact quanta?_ofRatio rfl fun hne => if_neg hne

theorem quanta?_sub
    {x y : Single} {a b : Int}
    (hx : x.quanta? = some a)
    (hy : y.quanta? = some b) :
    (x - y).quanta? = nearest? (a - b) 1 := by
  have hneg : (-y).quanta? = some (-b) := by rw [quanta?_neg, hy]; rfl
  rw [Int.sub_eq_add_neg]
  exact quanta?_add hx hneg

theorem signedQuanta_mul
    (s t : Bool) (m n : Nat) :
    signedQuanta s m * signedQuanta t n = signedQuanta (s ^^ t) (m * n) := by
  cases s <;> cases t <;> simp [signedQuanta]

theorem decide_signedQuanta_neg
    {s : Bool} {n : Nat}
    (h : signedQuanta s n ≠ 0) :
    decide (signedQuanta s n < 0) = s := by
  cases s with
  | false => simp [signedQuanta]
  | true =>
      simp only [signedQuanta, if_true] at h ⊢
      exact decide_eq_true (by omega)

/-- Apart from zero, which has two signs, a finite number is determined by its
count of quanta. -/
theorem eq_of_quanta?_eq
    {x y : Single} {a : Int}
    (ha : a ≠ 0)
    (hx : x.quanta? = some a)
    (hy : y.quanta? = some a) :
    x = y := by
  rcases exists_finite hx with ⟨s, m, hm, rfl, hsm⟩
  rcases exists_finite hy with ⟨t, n, hn, rfl, htn⟩
  have hmagnitude : m = n := by
    rw [← natAbs_signedQuanta s m, ← natAbs_signedQuanta t n, hsm, htn]
  subst hmagnitude
  have hsign : s = t := by
    have hs := decide_signedQuanta_neg (hsm ▸ ha)
    have ht := decide_signedQuanta_neg (htn ▸ ha)
    rw [← hs, ← ht, hsm, htn]
  subst hsign
  rfl

theorem quanta?_mul
    {x y : Single} {a b : Int}
    (hx : x.quanta? = some a)
    (hy : y.quanta? = some b) :
    (x * y).quanta? = nearest? (a * b) unit := by
  obtain ⟨s, m, hm, rfl, rfl⟩ := exists_finite hx
  obtain ⟨t, n, hn, rfl, rfl⟩ := exists_finite hy
  rw [signedQuanta_mul]
  exact quanta?_ofRatio (natAbs_signedQuanta _ _) fun hne =>
    (decide_signedQuanta_neg hne).symm

theorem quanta?_div_zero
    {x y : Single} {a : Int}
    (hx : x.quanta? = some a)
    (hy : y.quanta? = some 0) :
    (x / y).quanta? = none := by
  obtain ⟨s, m, hm, rfl, rfl⟩ := exists_finite hx
  obtain ⟨t, n, hn, rfl, hzero⟩ := exists_finite hy
  obtain rfl : n = 0 := by simpa using congrArg Int.natAbs hzero
  change (if (0 : Nat) = 0 then if m = 0 then nan else infinite (s ^^ t)
    else ofRatio (s ^^ t) (m * unit) 0).quanta? = none
  rw [if_pos rfl]
  split <;> rfl

theorem sign_signedQuanta
    (s : Bool) {n : Nat}
    (h : n ≠ 0) :
    (signedQuanta s n).sign = signedQuanta s 1 := by
  cases s with
  | false =>
      exact Int.sign_eq_one_of_pos
        (Int.natCast_pos.mpr (Nat.pos_of_ne_zero h))
  | true =>
      simp only [signedQuanta, if_true, Int.sign_neg]
      rw [Int.sign_eq_one_of_pos (Int.natCast_pos.mpr (Nat.pos_of_ne_zero h))]
      rfl

theorem quanta?_div
    {x y : Single} {a b : Int}
    (hx : x.quanta? = some a)
    (hy : y.quanta? = some b)
    (hb : b ≠ 0) :
    (x / y).quanta? = nearest? (a * b.sign * unit) b.natAbs := by
  obtain ⟨s, m, hm, rfl, rfl⟩ := exists_finite hx
  obtain ⟨t, n, hn, rfl, rfl⟩ := exists_finite hy
  have hpos : n ≠ 0 := by
    rintro rfl
    simp at hb
  have hnum : signedQuanta s m * (signedQuanta t n).sign * unit =
      signedQuanta (s ^^ t) (m * unit) := by
    rw [sign_signedQuanta t hpos, signedQuanta_mul, Nat.mul_one]
    exact (signedQuanta_mul (s ^^ t) false m unit).trans
      (by rw [Bool.xor_false])
  rw [hnum, natAbs_signedQuanta]
  change (if n = 0 then if m = 0 then nan else infinite (s ^^ t)
    else ofRatio (s ^^ t) (m * unit) n).quanta? = _
  rw [if_neg hpos]
  exact quanta?_ofRatio (natAbs_signedQuanta _ _) fun hne =>
    (decide_signedQuanta_neg hne).symm

end Single

/-- The worth of a result, from the worth of the operands. -/
def Operator.applyQuanta? : Operator → Int → Int → Option Int
  | .add, a, b => Single.nearest? (a + b) 1
  | .subtract, a, b => Single.nearest? (a - b) 1
  | .multiply, a, b => Single.nearest? (a * b) Single.unit
  | .divide, a, b =>
    if b = 0 then none
    else Single.nearest? (a * b.sign * Single.unit) b.natAbs
  | .toFloat, _, b => some b

theorem Operator.quanta?_apply
    (op : Operator) {x y : Single} {a b : Int}
    (hx : x.quanta? = some a)
    (hy : y.quanta? = some b) :
    (op.apply x y).quanta? = op.applyQuanta? a b := by
  cases op with
  | add => exact Single.quanta?_add hx hy
  | subtract => exact Single.quanta?_sub hx hy
  | multiply => exact Single.quanta?_mul hx hy
  | divide =>
      rw [applyQuanta?]
      split
      · next hzero =>
          subst hzero
          exact Single.quanta?_div_zero hx hy
      · next hne => exact Single.quanta?_div hx hy hne
  | toFloat => exact hy

namespace Single

/-! ## Integers -/

theorem quanta?_ofInt
    (n : Int) :
    (ofInt n).quanta? = nearest? (n * unit) 1 := by
  refine quanta?_ofRatio
    (by rw [Int.natAbs_mul, Int.natAbs_natCast]) fun _ => ?_
  simp only [mul_natCast_neg_iff unit_pos]

theorem natAbs_le_of_inWordRange
    {n : Int}
    (h : inWordRange n = true) :
    n.natAbs ≤ 2 ^ 31 := by
  simp only [inWordRange, Bool.and_eq_true, decide_eq_true_eq] at h
  omega

/-- The number of an integer of 32 bits is whole, and at most 2³¹. -/
theorem exists_quanta?_ofInt
    {n : Int}
    (h : inWordRange n = true) :
    ∃ k : Int, (ofInt n).quanta? = some (k * unit) ∧ k.natAbs ≤ 2 ^ 31 := by
  have hbound : (n * unit).natAbs ≤ 2 ^ 180 := by
    rw [Int.natAbs_mul, Int.natAbs_natCast]
    exact Nat.mul_le_mul_right unit (natAbs_le_of_inWordRange h)
  have hround := round_le_two_pow hbound
  obtain ⟨k, hk⟩ := unit_dvd_round (n := (n * unit).natAbs)
    (by rw [Int.natAbs_mul, Int.natAbs_natCast]; exact Nat.dvd_mul_left _ _)
  have hfinite : round (n * unit).natAbs 1 < limit :=
    hround.trans_lt (by decide +kernel)
  refine ⟨signedQuanta (n * unit < 0) k, ?_, ?_⟩
  · rw [quanta?_ofInt, nearest?, if_pos hfinite, hk, Nat.mul_comm]
    exact congrArg some ((signedQuanta_mul _ false k unit).trans
      (by rw [Bool.xor_false])).symm
  · rw [natAbs_signedQuanta]
    rw [hk] at hround
    exact Nat.le_of_mul_le_mul_left hround unit_pos

theorem exists_ofInt_natCast_eq
    {n : Nat}
    (h : inWordRange n = true) :
    ∃ m hm, ofInt n = .finite false m hm := by
  obtain ⟨k, hk, _⟩ := exists_quanta?_ofInt h
  have hsign : decide ((n : Int) < 0) = false := decide_eq_false (by omega)
  unfold ofInt ofRatio at hk ⊢
  split
  · next hlimit => exact ⟨_, ⟨hlimit, spacing_dvd_round _ _⟩, by rw [hsign]⟩
  · next hlimit =>
      rw [dif_neg hlimit] at hk
      simp [quanta?] at hk

theorem truncate_eq
    {x : Single} {a : Int}
    (h : x.quanta? = some a) :
    x.truncate = clampToWord (a.tdiv unit) := by
  obtain ⟨s, n, hn, rfl, rfl⟩ := exists_finite h
  rw [truncate]
  congr 1
  cases s with
  | false => exact (Int.ofNat_tdiv n unit).symm
  | true => simp [signedQuanta, Int.neg_tdiv]

theorem inWordRange_truncate
    (x : Single) :
    inWordRange x.truncate = true := by
  have hclamp (n : Int) : inWordRange (clampToWord n) = true := by
    rw [inWordRange, Bool.and_eq_true, decide_eq_true_iff, decide_eq_true_iff,
      clampToWord]
    omega
  cases x with
  | nan => rfl
  | infinite s => cases s <;> rfl
  | finite s n h => exact hclamp _

/-- Of a whole number of at most 2³¹ truncation leaves an integer with the
same number, although 2³¹ itself is out of range. -/
theorem quanta?_ofInt_truncate
    {x : Single} {k : Int}
    (hx : x.quanta? = some (k * unit))
    (hk : k.natAbs ≤ 2 ^ 31) :
    (ofInt x.truncate).quanta? = x.quanta? := by
  have hunit : (unit : Int) ≠ 0 := by exact_mod_cast unit_pos.ne'
  rw [truncate_eq hx, Int.mul_tdiv_cancel _ hunit, hx]
  rcases eq_or_ne k (2 ^ 31) with rfl | hne
  · -- What is left is 2³¹ - 1, and its number is 2³¹ again.
    decide +kernel
  · have hclamp : clampToWord k = k := by
      unfold clampToWord
      omega
    rw [hclamp, quanta?_ofInt]
    exact nearest?_self (fits_of_quanta? hx)

theorem unit_dvd_of_nearest?
    {a b : Int}
    (ha : (unit : Int) ∣ a)
    (h : nearest? a 1 = some b) :
    (unit : Int) ∣ b := by
  rw [← Int.natAbs_dvd_natAbs, Int.natAbs_natCast] at ha ⊢
  rw [natAbs_of_nearest? h]
  exact unit_dvd_round ha

end Single

theorem Operator.unit_dvd_applyQuanta?
    {op : Operator}
    (hop : op = .add ∨ op = .subtract ∨ op = .multiply)
    {a b c : Int}
    (ha : (Single.unit : Int) ∣ a)
    (hb : (Single.unit : Int) ∣ b)
    (h : op.applyQuanta? a b = some c) :
    (Single.unit : Int) ∣ c := by
  rcases hop with rfl | rfl | rfl
  · exact Single.unit_dvd_of_nearest? (dvd_add ha hb) h
  · exact Single.unit_dvd_of_nearest? (dvd_sub ha hb) h
  · obtain ⟨k, rfl⟩ := hb
    have hreduce := Single.nearest?_mul_right (a * k) 1 Single.unit_pos
    rw [Nat.one_mul] at hreduce
    rw [applyQuanta?, mul_comm (Single.unit : Int) k, ← mul_assoc,
      hreduce] at h
    exact Single.unit_dvd_of_nearest? (dvd_mul_of_dvd_left ha k) h

/-! ## Identities -/

namespace Operator

open Single

theorem applyQuanta?_zero_right
    {op : Operator}
    (hop : op = .add ∨ op = .subtract)
    {a : Int}
    (h : Fits a.natAbs) :
    op.applyQuanta? a 0 = some a := by
  rcases hop with rfl | rfl
  · simpa [applyQuanta?] using nearest?_self h
  · simpa [applyQuanta?] using nearest?_self h

theorem applyQuanta?_add_zero_left
    {a : Int}
    (h : Fits a.natAbs) :
    Operator.add.applyQuanta? 0 a = some a := by
  simpa [applyQuanta?] using nearest?_self h

theorem applyQuanta?_one_right
    {op : Operator}
    (hop : op = .multiply ∨ op = .divide)
    {a : Int}
    (h : Fits a.natAbs) :
    op.applyQuanta? a unit = some a := by
  have hexact := nearest?_of_fits h unit_pos
  rcases hop with rfl | rfl
  · exact hexact
  · have hpos : (0 : Int) < unit := by exact_mod_cast unit_pos
    simpa [applyQuanta?, unit_pos.ne', Int.sign_eq_one_of_pos hpos]
      using hexact

theorem applyQuanta?_multiply_comm
    (a b : Int) :
    Operator.multiply.applyQuanta? a b =
      Operator.multiply.applyQuanta? b a := by
  rw [applyQuanta?, applyQuanta?, Int.mul_comm]

theorem applyQuanta?_multiply_zero_right
    (a : Int) :
    Operator.multiply.applyQuanta? a 0 = some 0 := by
  simpa [applyQuanta?] using nearest?_zero unit

theorem applyQuanta?_subtract_self
    (a : Int) :
    Operator.subtract.applyQuanta? a a = some 0 := by
  simpa [applyQuanta?] using nearest?_zero 1

theorem applyQuanta?_subtract_zero_left
    {a : Int}
    (h : Fits a.natAbs) :
    Operator.subtract.applyQuanta? 0 a = some (-a) := by
  have hneg : Fits (-a).natAbs := by rwa [Int.natAbs_neg]
  simpa [applyQuanta?] using nearest?_self hneg

end Operator

end ThreeAddress
