import ThreeAddress.Proofs.NearestNumbers

/-!
# Decimals of fewest digits

The decimals that are read as a number are those in the interval around it.
The grids of the powers of ten are searched from the coarsest on, and on each
of them only the two neighbours of the number need a test.  A decimal of fewer
digits than the first one that is found would leave room for a power of ten
between the two, which lies on a coarser grid.
-/

namespace ThreeAddress

namespace Decimal

open Single

/-! ## Decimals as numbers of quanta -/

/-- The exact number of quanta that a decimal stands for. -/
def quanta (d : Decimal) : ℚ := d.coefficient * 10 ^ d.exponent * unit

theorem power_fst_div_snd
    (e : Int) :
    ((power e).1 : ℚ) / (power e).2 = 10 ^ e := by
  cases e with
  | ofNat e => simp [power]
  | negSucc e => simp [power, zpow_negSucc]

theorem quanta_eq_div
    (c : Nat) (e : Int) :
    (⟨c, e⟩ : Decimal).quanta =
      ((c * ((power e).1 * unit) : Nat) : ℚ) / (power e).2 := by
  rw [quanta, ← power_fst_div_snd]
  push_cast
  ring

theorem quanta_le_quanta
    {c c' : Nat}
    (hc : c ≤ c')
    {e e' : Int}
    (he : e ≤ e') :
    (⟨c, e⟩ : Decimal).quanta ≤ (⟨c', e'⟩ : Decimal).quanta := by
  simp only [quanta]
  gcongr
  norm_num

theorem quanta_mul_pow
    (c k : Nat) (e : Int) :
    (⟨c * 10 ^ k, e⟩ : Decimal).quanta = (⟨c, e + k⟩ : Decimal).quanta := by
  simp only [quanta, zpow_add₀ (show (10 : ℚ) ≠ 0 by norm_num), zpow_natCast]
  push_cast
  ring

theorem holds_quanta_iff
    {n : Nat}
    (hdvd : spacing n ∣ n)
    (d : Decimal) :
    (Interval.around n).Holds d.quanta ↔ d.RoundsTo n := by
  obtain ⟨c, e⟩ := d
  rw [quanta_eq_div, Interval.holds_around_iff hdvd (power_snd_pos e),
    RoundsTo, Nat.mul_assoc]

theorem RoundsTo.isNearest
    {d : Decimal} {n : Nat}
    (h : d.RoundsTo n) :
    IsNearest n d.quanta := by
  obtain ⟨c, e⟩ := d
  rw [RoundsTo, Nat.mul_assoc] at h
  rw [quanta_eq_div, ← h]
  exact isNearest_round _ (power_snd_pos e)

/-! ## One grid -/

theorem step_pos
    (e : Int) :
    0 < (power e).1 * unit := by
  refine Nat.mul_pos ?_ unit_pos
  cases e with
  | ofNat e => exact Nat.pow_pos (by decide)
  | negSucc e => exact Nat.one_pos

theorem quanta_floor_le
    (n : Nat) (e : Int) :
    (⟨n * (power e).2 / ((power e).1 * unit), e⟩ : Decimal).quanta ≤ n := by
  have hden : (0 : ℚ) < (power e).2 := by exact_mod_cast power_snd_pos e
  rw [quanta_eq_div, div_le_iff₀ hden]
  exact_mod_cast Nat.div_mul_le_self _ _

theorem le_quanta_floor_succ
    (n : Nat) (e : Int) :
    n ≤ (⟨n * (power e).2 / ((power e).1 * unit) + 1, e⟩ :
        Decimal).quanta := by
  have hden : (0 : ℚ) < (power e).2 := by exact_mod_cast power_snd_pos e
  rw [quanta_eq_div, le_div_iff₀ hden]
  exact_mod_cast
    ((Nat.div_lt_iff_lt_mul (step_pos e)).mp (Nat.lt_succ_self _)).le

theorem contains_iff_roundsTo
    {n : Nat}
    (hdvd : spacing n ∣ n)
    (c : Nat) (e : Int) :
    (Interval.around n).contains (c * ((power e).1 * unit))
    (power e).2 = true ↔
      (⟨c, e⟩ : Decimal).RoundsTo n := by
  rw [← holds_quanta_iff hdvd, quanta_eq_div,
    Interval.contains_iff_holds (power_snd_pos e)]

/-- A grid on which neither neighbour of the magnitude is read as it has no
decimal that is. -/
theorem not_roundsTo_of_onGrid?_eq_none
    {n : Nat}
    (hdvd : spacing n ∣ n)
    {e : Int}
    (h : onGrid? n e = none)
    (c : Nat) :
    ¬(⟨c, e⟩ : Decimal).RoundsTo n := by
  have hself := Interval.holds_around_self hdvd
  have hbelow := quanta_floor_le n e
  have habove := le_quanta_floor_succ n e
  simp only [onGrid?] at h
  generalize n * (power e).2 / ((power e).1 * unit) = floor at *
  obtain ⟨hfloor, hnext⟩ : ¬(⟨floor, e⟩ : Decimal).RoundsTo n ∧
      ¬(⟨floor + 1, e⟩ : Decimal).RoundsTo n := by
    simp only [← contains_iff_roundsTo hdvd]
    split_ifs at h with hfirst hsecond
    simp only [Bool.and_eq_true, Bool.or_eq_true, Bool.not_eq_true',
      ← Bool.not_eq_true] at hfirst
    exact ⟨fun hfloor => hfirst ⟨hfloor, .inr hsecond⟩, hsecond⟩
  rw [← holds_quanta_iff hdvd] at hfloor hnext ⊢
  intro hholds
  rcases Nat.lt_or_ge floor c with hlt | hge
  · exact hnext (hself.between hholds habove (quanta_le_quanta hlt le_rfl))
  · exact hfloor (hholds.between hself (quanta_le_quanta hge le_rfl) hbelow)

/-! ## All grids -/

theorem mem_grids
    {e : Int} :
    e ∈ grids ↔ -149 ≤ e ∧ e ≤ 38 := by
  simp only [grids, List.mem_map, List.mem_range]
  constructor
  · rintro ⟨i, hi, rfl⟩
    omega
  · rintro ⟨hlow, hhigh⟩
    exact ⟨(38 - e).toNat, by omega, by omega⟩

theorem pairwise_grids : grids.Pairwise (· > ·) := by
  rw [grids, List.pairwise_map]
  exact List.pairwise_lt_range.imp fun hlt => by omega

theorem exponent_of_onGrid?
    {n : Nat} {e : Int} {d : Decimal}
    (h : onGrid? n e = some d) :
    d.exponent = e := by
  simp only [onGrid?] at h
  split_ifs at h <;> rw [← Option.some.inj h]

/-- The search stops on the first grid with a hit, so the coarser ones have
none. -/
theorem onGrid?_eq_none_of_lt
    {n : Nat}
    (hdvd : spacing n ∣ n)
    {e : Int}
    (hlt : (shortest n).exponent < e)
    (hle : e ≤ 38) :
    onGrid? n e = none := by
  unfold shortest at hlt
  cases hfind : grids.findSome? (onGrid? n) with
  | none =>
      -- On the last grid the magnitude lies exactly.
      have hlast := List.findSome?_eq_none_iff.mp hfind (-149)
          (mem_grids.mpr (by omega))
      exact absurd (roundsTo_exact hdvd)
        (not_roundsTo_of_onGrid?_eq_none hdvd hlast _)
  | some d =>
      rcases List.findSome?_eq_some_iff.mp hfind with
        ⟨coarser, first, finer, hgrids, hhit, hmiss⟩
      rw [hfind, Option.getD_some, exponent_of_onGrid? hhit] at hlt
      have hfirst : first ∈ grids := by simp [hgrids]
      have hmem : e ∈ grids :=
        mem_grids.mpr ⟨by have := mem_grids.mp hfirst; omega, hle⟩
      have hsorted := pairwise_grids
      rw [hgrids] at hsorted hmem
      rcases List.mem_append.mp hmem with hcoarser | hrest
      · exact hmiss e hcoarser
      · have hfiner :=
          (List.pairwise_cons.mp (List.pairwise_append.mp hsorted).2.1).1
        rcases List.mem_cons.mp hrest with rfl | hrest
        · omega
        · have := hfiner e hrest
          omega

/-- A multiple of 10³⁹ is zero or too large. -/
theorem not_roundsTo_of_exponent
    {n : Nat}
    (hn : Fits n)
    (hpos : 0 < n)
    (c : Nat) {e : Int}
    (he : 38 < e) :
    ¬(⟨c, e⟩ : Decimal).RoundsTo n := by
  intro hrounds
  obtain ⟨k, rfl⟩ : ∃ k : Nat, e = k := ⟨e.toNat, by omega⟩
  change Single.round (c * 10 ^ k * unit) 1 = n at hrounds
  rcases Nat.eq_zero_or_pos c with rfl | hc
  · rw [Nat.zero_mul, Nat.zero_mul, round_zero] at hrounds
    omega
  · have hlimit := hn.1
    rw [← hrounds, round_lt_limit_iff Nat.one_pos] at hlimit
    have hten : 10 ^ 39 ≤ c * 10 ^ k := calc
      10 ^ 39 ≤ 1 * 10 ^ k := by
        rw [Nat.one_mul]
        exact Nat.pow_le_pow_right (by decide) (by omega)
      _ ≤ c * 10 ^ k := Nat.mul_le_mul_right _ hc
    have hlarge : (2 ^ 25 - 1) * (1 * 2 ^ 253) ≤ 2 * (10 ^ 39 * unit) := by
      decide +kernel
    have := Nat.mul_le_mul_right unit hten
    omega

theorem not_roundsTo_of_lt
    {n : Nat}
    (hn : Fits n)
    (hpos : 0 < n)
    (c : Nat) {e : Int}
    (hlt : (shortest n).exponent < e) :
    ¬(⟨c, e⟩ : Decimal).RoundsTo n := by
  rcases Int.lt_or_le 38 e with hlarge | hle
  · exact not_roundsTo_of_exponent hn hpos c hlarge
  · exact not_roundsTo_of_onGrid?_eq_none hn.2
      (onGrid?_eq_none_of_lt hn.2 hlt hle) c

/-! ## Fewest digits -/

/-- No decimal of fewer digits is read as the magnitude. -/
theorem length_digits_shortest_le
    {n : Nat}
    (hn : Fits n)
    (hpos : 0 < n)
    {d : Decimal}
    (h : d.RoundsTo n) :
    (Numeral.digits (shortest n).coefficient).length ≤
      (Numeral.digits d.coefficient).length := by
  by_contra hshorter
  obtain ⟨c, e⟩ := d
  have hexponent : e ≤ (shortest n).exponent := by
    by_contra hcoarser
    exact not_roundsTo_of_lt hn hpos c (by omega) h
  have hbelow := Numeral.lt_pow_length_digits c
  have hwidth := List.length_pos_of_ne_nil (Numeral.digits_ne_nil c)
  generalize hlength : (Numeral.digits c).length = width at *
  have habove : 10 ^ width ≤ (shortest n).coefficient := by
    by_contra hless
    exact hshorter (Numeral.length_digits_le hwidth (by omega))
  -- A power of ten lies between the two decimals, on a coarser grid than the
  -- found one.
  have hlow : (⟨c, e⟩ : Decimal).quanta ≤
      (⟨10 ^ width, (shortest n).exponent⟩ : Decimal).quanta :=
    quanta_le_quanta hbelow.le hexponent
  have hhigh : (⟨10 ^ width, (shortest n).exponent⟩ : Decimal).quanta ≤
      (shortest n).quanta :=
    quanta_le_quanta habove le_rfl
  have hfound := (holds_quanta_iff hn.2 _).mpr (roundsTo_shortest hn.2)
  have hbetween := ((holds_quanta_iff hn.2 _).mpr h).between hfound hlow hhigh
  rw [← Nat.one_mul (10 ^ width), quanta_mul_pow,
    holds_quanta_iff hn.2] at hbetween
  exact not_roundsTo_of_lt hn hpos 1 (by omega) hbetween

end Decimal

end ThreeAddress
