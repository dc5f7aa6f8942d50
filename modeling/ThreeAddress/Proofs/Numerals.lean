import Mathlib.Tactic
import ThreeAddress.Text

/-!
# Digits and what they stand for

The digits of a number stand for the number, and rows of digits behind each
other stand for a sum in which the first is shifted.
-/

namespace ThreeAddress.Numeral

theorem foldl_value
    (row : List Char) (n : Nat) :
    row.foldl (fun n c => 10 * n + (c.toNat - '0'.toNat)) n =
      n * 10 ^ row.length + value row := by
  unfold value
  induction row generalizing n with
  | nil => simp
  | cons c rest ih =>
      simp only [List.foldl_cons, List.length_cons]
      rw [ih, ih (10 * 0 + _), Nat.pow_succ]
      ring

theorem value_append
    (row other : List Char) :
    value (row ++ other) = value row * 10 ^ other.length + value other := by
  rw [value, List.foldl_append, foldl_value other]
  rfl

theorem value_digitChar
    {n : Nat}
    (h : n < 10) :
    value [Nat.digitChar n] = n := by
  revert n
  decide

theorem isDigit_digitChar
    {n : Nat}
    (h : n < 10) :
    (Nat.digitChar n).isDigit = true := by
  revert n
  decide

theorem value_digits
    (n : Nat) :
    value (digits n) = n := by
  induction n using digits.induct with
  | case1 n h =>
      rw [digits, if_pos h]
      exact value_digitChar h
  | case2 n h ih =>
      rw [digits, if_neg h, value_append, ih,
        value_digitChar (Nat.mod_lt n (by decide))]
      simp only [List.length_singleton, Nat.pow_one]
      omega

theorem isDigit_of_mem_digits
    {n : Nat} {c : Char}
    (hc : c ∈ digits n) :
    c.isDigit = true := by
  induction n using digits.induct with
  | case1 n h =>
      rw [digits, if_pos h, List.mem_singleton] at hc
      rw [hc]
      exact isDigit_digitChar h
  | case2 n h ih =>
      rw [digits, if_neg h, List.mem_append, List.mem_singleton] at hc
      rcases hc with hc | rfl
      · exact ih hc
      · exact isDigit_digitChar (Nat.mod_lt n (by decide))

theorem digits_ne_nil
    (n : Nat) :
    digits n ≠ [] := by
  rw [digits]
  split <;> simp

theorem head?_digits_ne_zero
    {n : Nat}
    (hn : 0 < n) :
    (digits n).head? ≠ some '0' := by
  have hdigit : ∀ k < 10, 0 < k → Nat.digitChar k ≠ '0' := by decide
  induction n using digits.induct with
  | case1 n h =>
      rw [digits, if_pos h]
      simpa using hdigit n h hn
  | case2 n h ih =>
      rw [digits, if_neg h, List.head?_append_of_ne_nil _ (digits_ne_nil _)]
      exact ih (by omega)

theorem isNumeral_iff
    {row : List Char} :
    isNumeral row = true ↔ row ≠ [] ∧ ∀ c ∈ row, c.isDigit = true := by
  simp [isNumeral]

theorem isNumeral_digits
    (n : Nat) :
    isNumeral (digits n) = true :=
  isNumeral_iff.mpr ⟨digits_ne_nil n, fun _ => isDigit_of_mem_digits⟩

theorem length_digits_le
    {n width : Nat}
    (hwidth : 0 < width)
    (h : n < 10 ^ width) :
    (digits n).length ≤ width := by
  induction n using digits.induct generalizing width with
  | case1 n hn =>
      rw [digits, if_pos hn]
      exact hwidth
  | case2 n hn ih =>
      obtain ⟨k, rfl⟩ := Nat.exists_eq_succ_of_ne_zero hwidth.ne'
      have hk : 0 < k := by
        rcases Nat.eq_zero_or_pos k with rfl | hk
        · simp at h
          omega
        · exact hk
      have hdiv : n / 10 < 10 ^ k := by
        rw [Nat.div_lt_iff_lt_mul (by decide), ← Nat.pow_succ]
        exact h
      rw [digits, if_neg hn, List.length_append]
      simpa using ih hk hdiv

theorem lt_pow_length_digits
    (n : Nat) :
    n < 10 ^ (digits n).length := by
  induction n using digits.induct with
  | case1 n hn =>
      rw [digits, if_pos hn]
      exact hn
  | case2 n hn ih =>
      rw [digits, if_neg hn, List.length_append, List.length_singleton,
        Nat.pow_succ]
      omega

theorem value_replicate_zero
    (k : Nat) :
    value (List.replicate k '0') = 0 := by
  induction k with
  | zero => rfl
  | succ k ih =>
      have hzero : value ['0'] = 0 := rfl
      rw [List.replicate_succ, ← List.singleton_append, value_append, ih,
        hzero, Nat.zero_mul]

theorem value_padded
    (width n : Nat) :
    value (padded width n) = n := by
  rw [padded, value_append, value_replicate_zero, value_digits, Nat.zero_mul,
    Nat.zero_add]

theorem length_padded
    {width n : Nat}
    (hwidth : 0 < width)
    (h : n < 10 ^ width) :
    (padded width n).length = width := by
  have := length_digits_le hwidth h
  simp only [padded, List.length_append, List.length_replicate]
  omega

theorem isDigit_of_mem_padded
    {width n : Nat} {c : Char}
    (hc : c ∈ padded width n) :
    c.isDigit = true := by
  rw [padded, List.mem_append] at hc
  rcases hc with hc | hc
  · rw [List.eq_of_mem_replicate hc]
    rfl
  · exact isDigit_of_mem_digits hc

end ThreeAddress.Numeral
