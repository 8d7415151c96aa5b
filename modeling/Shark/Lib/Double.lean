import Mathlib.Data.Nat.Log
import Mathlib.Tactic

/-!
# Integers as doubles

`toDouble n` is the integer nearest to `n` that a double holds exactly, ties to even: the number
itself up to `2 ^ 53`, and a multiple of a power of two above. Rounding twice is rounding once
(`toDouble_toDouble`) and a number below a power of two is rounded to that power at most
(`toDouble_le_two_pow`).
-/

namespace Shark.Lib

/-- The significand of `n` when its low `e` bits are rounded away, ties to even. -/
def roundBits (e n : Nat) : Nat :=
  if 2 ^ (e - 1) < n % 2 ^ e ∨ (n % 2 ^ e = 2 ^ (e - 1) ∧ n / 2 ^ e % 2 = 1) then n / 2 ^ e + 1
  else n / 2 ^ e

/-- Rounding an integer to the nearest double, ties to even. -/
def toDouble (n : Int) : Int :=
  if n.natAbs ≤ 2 ^ 53 then n
  else n.sign * (roundBits (Nat.log 2 n.natAbs - 52) n.natAbs * 2 ^ (Nat.log 2 n.natAbs - 52) : Nat)

theorem toDouble_of_le {n : Int} (h : n.natAbs ≤ 2 ^ 53) : toDouble n = n := if_pos h

theorem roundBits_of_dvd {e n : Nat} (h : 2 ^ e ∣ n) : roundBits e n = n / 2 ^ e := by
  have h0 : n % 2 ^ e = 0 := Nat.mod_eq_zero_of_dvd h
  have hpos : 0 < 2 ^ (e - 1) := Nat.two_pow_pos _
  rw [roundBits, if_neg (by omega)]

theorem roundBits_le (e n : Nat) : roundBits e n ≤ n / 2 ^ e + 1 := by
  unfold roundBits
  split <;> omega

theorem le_roundBits (e n : Nat) : n / 2 ^ e ≤ roundBits e n := by
  unfold roundBits
  split <;> omega

/-- A number whose bits below the significand are zero is a double. -/
theorem toDouble_of_dvd {n : Int} (h : 2 ^ (Nat.log 2 n.natAbs - 52) ∣ n.natAbs) : toDouble n = n := by
  unfold toDouble
  split
  · rfl
  · rw [roundBits_of_dvd h, Nat.div_mul_cancel h, Int.sign_mul_natAbs]

/-- The bounds of the significand before rounding. -/
theorem significand_bounds {n : Nat} (h : 2 ^ 53 < n) :
    2 ^ 52 ≤ n / 2 ^ (Nat.log 2 n - 52) ∧ n / 2 ^ (Nat.log 2 n - 52) < 2 ^ 53 := by
  have hlog : 53 ≤ Nat.log 2 n := (Nat.le_log_iff_pow_le (by norm_num) (by omega)).mpr h.le
  have hlo : 2 ^ Nat.log 2 n ≤ n := Nat.pow_log_le_self 2 (by omega)
  have hhi : n < 2 ^ (Nat.log 2 n + 1) := Nat.lt_pow_succ_log_self (by norm_num) n
  constructor
  · rw [Nat.le_div_iff_mul_le (Nat.two_pow_pos _), ← pow_add]
    rwa [show 52 + (Nat.log 2 n - 52) = Nat.log 2 n by omega]
  · rw [Nat.div_lt_iff_lt_mul (Nat.two_pow_pos _), ← pow_add]
    rwa [show 53 + (Nat.log 2 n - 52) = Nat.log 2 n + 1 by omega]

/-- A rounded significand stands for a number whose bits below the significand are zero: it is
below `2 ^ 53`, or it is `2 ^ 53` and the exponent goes up by one. -/
theorem dvd_of_significand {q e : Nat} (hlo : 2 ^ 52 ≤ q) (hhi : q ≤ 2 ^ 53) :
    2 ^ (Nat.log 2 (q * 2 ^ e) - 52) ∣ q * 2 ^ e := by
  have hmul : Nat.log 2 (q * 2 ^ e) = Nat.log 2 q + e := by
    induction e with
    | zero => simp
    | succ e ih =>
      rw [pow_succ, ← mul_assoc, Nat.log_mul_base (by norm_num) (by positivity), ih]
      omega
  rcases hhi.lt_or_eq with hlt | rfl
  · have hlog : Nat.log 2 q = 52 := (Nat.log_eq_iff (by norm_num)).mpr ⟨hlo, hlt⟩
    rw [hmul, hlog, Nat.add_sub_cancel_left]
    exact Nat.dvd_mul_left _ _
  · rw [hmul, Nat.log_pow (by norm_num), ← pow_add]
    exact pow_dvd_pow 2 (by omega)

/-- **Rounding twice is rounding once.** -/
theorem toDouble_toDouble (n : Int) : toDouble (toDouble n) = toDouble n := by
  by_cases h : n.natAbs ≤ 2 ^ 53
  · rw [toDouble_of_le h, toDouble_of_le h]
  · have hb := significand_bounds (by omega : 2 ^ 53 < n.natAbs)
    have hlo := le_roundBits (Nat.log 2 n.natAbs - 52) n.natAbs
    have hhi := roundBits_le (Nat.log 2 n.natAbs - 52) n.natAbs
    have hd := dvd_of_significand (e := Nat.log 2 n.natAbs - 52) (hb.1.trans hlo) (hhi.trans (by omega))
    have he : toDouble n = n.sign *
        (roundBits (Nat.log 2 n.natAbs - 52) n.natAbs * 2 ^ (Nat.log 2 n.natAbs - 52) : Nat) := if_neg h
    apply toDouble_of_dvd
    have habs : (toDouble n).natAbs =
        roundBits (Nat.log 2 n.natAbs - 52) n.natAbs * 2 ^ (Nat.log 2 n.natAbs - 52) := by
      have hn : n ≠ 0 := by rintro rfl; simp at h
      rw [he, Int.natAbs_mul, Int.natAbs_sign_of_ne_zero hn, one_mul, Int.natAbs_natCast]
    rwa [habs]

theorem toDouble_nonneg {n : Int} (h : 0 ≤ n) : 0 ≤ toDouble n := by
  unfold toDouble
  split
  · exact h
  · exact mul_nonneg (Int.sign_nonneg_iff.mpr h) (by positivity)

/-- A number below a power of two is rounded to that power at most. -/
theorem toDouble_le_two_pow {n k : Nat} (h : n < 2 ^ k) : toDouble n ≤ 2 ^ k := by
  by_cases hn : n ≤ 2 ^ 53
  · rw [toDouble_of_le (by simpa using hn)]
    exact_mod_cast h.le
  · have hb := significand_bounds (by omega : 2 ^ 53 < n)
    have hlog : 53 ≤ Nat.log 2 n := (Nat.le_log_iff_pow_le (by norm_num) (by omega)).mpr (by omega)
    have hk : Nat.log 2 n < k := (Nat.log_lt_iff_lt_pow (by norm_num) (by omega)).mpr h
    have hround := roundBits_le (Nat.log 2 n - 52) n
    have hpos : 0 < n := by omega
    have hsign : Int.sign (n : Int) = 1 := Int.sign_eq_one_of_pos (by exact_mod_cast hpos)
    have hle : roundBits (Nat.log 2 n - 52) n * 2 ^ (Nat.log 2 n - 52) ≤ 2 ^ k := by
      calc roundBits (Nat.log 2 n - 52) n * 2 ^ (Nat.log 2 n - 52)
          ≤ 2 ^ 53 * 2 ^ (Nat.log 2 n - 52) := Nat.mul_le_mul_right _ (hround.trans (by omega))
        _ = 2 ^ (Nat.log 2 n + 1) := by rw [← pow_add]; congr 1; omega
        _ ≤ 2 ^ k := Nat.pow_le_pow_right (by norm_num) hk
    rw [toDouble, if_neg (by simpa using hn), hsign, one_mul, Int.natAbs_natCast]
    exact_mod_cast hle

end Shark.Lib
