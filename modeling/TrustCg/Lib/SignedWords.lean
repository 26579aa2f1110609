import Mathlib.Algebra.Order.Ring.Abs
import Mathlib.Data.BitVec
import Mathlib.Tactic.Linarith
import Mathlib.Tactic.Ring

/-!
# Words read as signed numbers

The number of a word after the operations that a compiler emits for signed arithmetic.

* `toInt_setWidth_of_range` : a number that fits keeps its value.
* `biased_shift_toInt` : division by a power of two with a bias for negative dividends.
* `toInt_add_signBit` : adding the sign bit, which rounds a floor towards zero.
-/

namespace TrustCg.SignedWords

open BitVec

variable {w k : ℕ}

theorem toNat_eq_toInt_add (y : BitVec w) :
    (y.toNat : ℤ) = y.toInt + if y.toInt < 0 then 2 ^ w else 0 := by
  have hcast : ((2 ^ w : ℕ) : ℤ) = 2 ^ w := by push_cast; rfl
  rw [toInt_eq_toNat_cond]
  split
  · rw [if_neg (by omega), add_zero]
  rw [if_pos (by omega)]
  omega

theorem toInt_sshiftRight_eq (x : BitVec w) (n : ℕ) :
    (x.sshiftRight n).toInt = x.toInt / 2 ^ n := by
  rw [toInt_sshiftRight, Int.shiftRight_eq_div_pow]
  rfl

theorem sshiftRight_pred_and (x y : BitVec w) (hw : 1 ≤ w) :
    x.sshiftRight (w - 1) &&& y = if x.toInt < 0 then y else BitVec.ofNat w 0 := by
  have hlow : -2 ^ (w - 1) ≤ x.toInt := le_toInt x
  have hhigh : x.toInt < 2 ^ (w - 1) := toInt_lt
  have hpos : (0 : ℤ) < 2 ^ (w - 1) := by positivity
  split
  · have hall : x.sshiftRight (w - 1) = BitVec.allOnes w := by
      apply eq_of_toInt_eq
      rw [toInt_sshiftRight_eq, toInt_allOnes, if_pos (by omega), Int.ediv_eq_iff_of_pos hpos]
      constructor <;> linarith
    rw [hall, allOnes_and]
  have hzero : x.sshiftRight (w - 1) = BitVec.ofNat w 0 := by
    apply eq_of_toInt_eq
    rw [toInt_sshiftRight_eq, Int.ediv_eq_zero_of_lt (by omega) hhigh]
    simp
  rw [hzero, zero_and]

theorem ofInt_add_mul_two_pow (z k : ℤ) : BitVec.ofInt w (z + k * 2 ^ w) = BitVec.ofInt w z := by
  apply eq_of_toInt_eq
  rw [toInt_ofInt, toInt_ofInt]
  have hcast : ((2 ^ w : ℕ) : ℤ) = 2 ^ w := by push_cast; rfl
  rw [← hcast, mul_comm, Int.add_mul_bmod_self_left]

theorem two_pow_eq {w : ℕ} (hw : 1 ≤ w) : (2 : ℤ) ^ w = 2 * 2 ^ (w - 1) := by
  rw [← pow_succ', Nat.sub_add_cancel hw]

theorem toInt_setWidth_of_range {b w : ℕ} (hw : 1 ≤ w) (hwb : w ≤ b) (y : BitVec b)
    (hlow : -2 ^ (w - 1) ≤ y.toInt) (hhigh : y.toInt < 2 ^ (w - 1)) :
    (y.setWidth w).toInt = y.toInt := by
  have hpow := two_pow_eq (w := w) (by omega)
  have hsplit : (2 : ℤ) ^ b = ((2 ^ w : ℕ) : ℤ) * 2 ^ (b - w) := by
    push_cast
    rw [← pow_add]
    congr 1
    omega
  have hself : y.toInt.bmod (2 ^ w) = y.toInt := by
    apply Int.bmod_eq_of_le_mul_two
    · push_cast
      linarith
    push_cast
    linarith
  rw [toInt_setWidth, toNat_eq_toInt_add]
  split
  · rw [hsplit, Int.add_mul_bmod_self_left, hself]
  · rw [add_zero, hself]

theorem shiftLeft_eq_mul {w : ℕ} (y : BitVec w) (k : ℕ) : y <<< k = y * BitVec.ofInt w (2 ^ k) := by
  apply eq_of_toNat_eq
  have hpow : BitVec.ofInt w (2 ^ k) = BitVec.ofNat w (2 ^ k) := by
    rw [← ofInt_natCast]
    rfl
  rw [hpow, toNat_shiftLeft, toNat_mul, toNat_ofNat, Nat.mul_mod_mod, Nat.shiftLeft_eq]

theorem ediv_range {z e A N P : ℤ} (hz : |z| ≤ A) (he : |e| < N) (hA : 0 < A) (hP : N ≤ P) :
    -A ≤ z * e / P ∧ z * e / P < A := by
  have hP0 : 0 < P := by linarith [abs_nonneg e]
  have habs : |z * e| < A * P := by
    rw [abs_mul]
    calc |z| * |e| ≤ A * |e| := mul_le_mul_of_nonneg_right hz (abs_nonneg e)
      _ < A * P := (mul_lt_mul_iff_right₀ hA).mpr (by linarith)
  obtain ⟨hlow, hhigh⟩ := abs_lt.mp habs
  constructor
  · rw [Int.le_ediv_iff_mul_le hP0]
    linarith
  · rwa [Int.ediv_lt_iff_lt_mul hP0]

/-- The bias of a negative dividend: as many ones as the divisor has zeros. -/
theorem bias_toNat (x : BitVec w) (hk : 1 ≤ k) (hkw : k < w) :
    (((x.sshiftRight (k - 1)) >>> (w - k)).toNat : ℤ) = if x.toInt < 0 then 2 ^ k - 1 else 0 := by
  have hlow : -2 ^ (w - 1) ≤ x.toInt := le_toInt x
  have hhigh : x.toInt < 2 ^ (w - 1) := toInt_lt
  have hpow : (2 : ℤ) ^ (w - 1) = 2 ^ (k - 1) * 2 ^ (w - k) := by
    rw [← pow_add]
    congr 1
    omega
  have hpow' : (2 : ℤ) ^ w = 2 ^ k * 2 ^ (w - k) := by
    rw [← pow_add]
    congr 1
    omega
  have hA : (0 : ℤ) < 2 ^ (k - 1) := by positivity
  have hB : (0 : ℤ) < 2 ^ (w - k) := by positivity
  rw [toNat_ushiftRight, Nat.shiftRight_eq_div_pow, Int.natCast_ediv, toNat_eq_toInt_add,
    toInt_sshiftRight_eq]
  push_cast
  set v := x.toInt / 2 ^ (k - 1) with hv
  by_cases hneg : x.toInt < 0
  · have hvneg : v < 0 := Int.ediv_neg_of_neg_of_pos hneg hA
    have hvlow : -2 ^ (w - k) ≤ v := by
      rw [hv, Int.le_ediv_iff_mul_le hA]
      linarith
    rw [if_pos hvneg, if_pos hneg, hpow', Int.add_mul_ediv_right _ _ hB.ne']
    have hq : v / 2 ^ (w - k) = -1 := by
      rw [Int.ediv_eq_iff_of_pos hB]
      constructor <;> linarith
    rw [hq]
    ring
  have hvpos : 0 ≤ v := Int.ediv_nonneg (by omega) hA.le
  have hvhigh : v < 2 ^ (w - k) := by
    rw [hv, Int.ediv_lt_iff_lt_mul hA]
    linarith
  rw [if_neg (by omega), if_neg hneg, add_zero, Int.ediv_eq_zero_of_lt hvpos hvhigh]

theorem ediv_add_bias (x : ℤ) (k : ℕ) :
    (x + if x < 0 then 2 ^ k - 1 else 0) / 2 ^ k = x.tdiv (2 ^ k) := by
  have hpos : (0 : ℤ) < 2 ^ k := by positivity
  split
  next hneg =>
    obtain ⟨y, rfl⟩ : ∃ y : ℤ, x = -y := ⟨-x, by ring⟩
    rw [Int.neg_tdiv, Int.tdiv_eq_ediv_of_nonneg (by omega), Int.ediv_eq_iff_of_pos hpos]
    have h1 := Int.mul_ediv_add_emod y (2 ^ k)
    have h2 := Int.emod_nonneg y hpos.ne'
    have h3 := Int.emod_lt_of_pos y hpos
    constructor <;> nlinarith
  · rw [add_zero, Int.tdiv_eq_ediv_of_nonneg (by omega)]

/-- Adding a bias to a negative word stays within the word. -/
theorem toInt_add_bias {x b : BitVec w} {c : ℤ} (hw : 1 ≤ w) (hc : 0 ≤ c) (hlt : c < 2 ^ (w - 1))
    (hbias : (b.toNat : ℤ) = if x.toInt < 0 then c else 0) :
    (x + b).toInt = x.toInt + if x.toInt < 0 then c else 0 := by
  have hlow : -2 ^ (w - 1) ≤ x.toInt := le_toInt x
  have hhigh : x.toInt < 2 ^ (w - 1) := toInt_lt
  have hpow := two_pow_eq hw
  have hb : b.toInt = if x.toInt < 0 then c else 0 := by
    rw [toInt_eq_toNat_of_lt, hbias]
    have hcast : ((2 * b.toNat : ℕ) : ℤ) < ((2 ^ w : ℕ) : ℤ) := by
      push_cast
      rw [hbias, hpow]
      split <;> linarith
    exact_mod_cast hcast
  rw [toInt_add, hb]
  apply Int.bmod_eq_of_le_mul_two
  · push_cast
    rw [hpow]
    split <;> linarith
  push_cast
  rw [hpow]
  split <;> linarith

theorem biased_shift_toInt (x : BitVec w) (hk : 1 ≤ k) (hkw : k < w) :
    ((x + (x.sshiftRight (k - 1)) >>> (w - k)).sshiftRight k).toInt = x.toInt.tdiv (2 ^ k) := by
  have hle : (2 : ℤ) ^ k ≤ 2 ^ (w - 1) := pow_le_pow_right₀ (by decide) (by omega)
  have hone : (1 : ℤ) ≤ 2 ^ k := one_le_pow₀ (by decide)
  rw [toInt_sshiftRight_eq, toInt_add_bias (by omega) (by linarith) (by linarith)
    (bias_toNat x hk hkw), ediv_add_bias]

theorem toInt_add_signBit (y : BitVec w) (hw : 2 ≤ w) :
    (y + y >>> (w - 1)).toInt = y.toInt + if y.toInt < 0 then 1 else 0 := by
  have hlow : -2 ^ (w - 1) ≤ y.toInt := le_toInt y
  have hhigh : y.toInt < 2 ^ (w - 1) := toInt_lt
  have hpow := two_pow_eq (w := w) (by omega)
  have hone : (2 : ℤ) ^ 1 ≤ 2 ^ (w - 1) := pow_le_pow_right₀ (by decide) (by omega)
  have hbit : ((y >>> (w - 1)).toNat : ℤ) = if y.toInt < 0 then 1 else 0 := by
    have hB : (0 : ℤ) < 2 ^ (w - 1) := by positivity
    rw [toNat_ushiftRight, Nat.shiftRight_eq_div_pow, Int.natCast_ediv, toNat_eq_toInt_add]
    push_cast
    split
    · rw [Int.ediv_eq_iff_of_pos hB, hpow]
      constructor <;> linarith
    · rw [add_zero, Int.ediv_eq_zero_of_lt (by omega) hhigh]
  exact toInt_add_bias (by omega) (by decide) (by linarith) hbit

theorem toInt_high (y : BitVec 64) : ((y >>> 32).setWidth 32).toInt = y.toInt / 2 ^ 32 := by
  have hlow : -2 ^ 63 ≤ y.toInt := le_toInt y
  have hhigh : y.toInt < 2 ^ 63 := toInt_lt
  have hsame : (y >>> 32).setWidth 32 = (y.sshiftRight 32).setWidth 32 := by
    apply eq_of_getLsbD_eq
    intro i hi
    have hi64 : i < 64 := by omega
    have hi32 : 32 + i < 64 := by omega
    simp [getElem_sshiftRight, hi, hi64, hi32]
  rw [hsame, toInt_setWidth_of_range (by decide) (by decide), toInt_sshiftRight_eq]
  · rw [toInt_sshiftRight_eq]
    omega
  rw [toInt_sshiftRight_eq]
  omega

end TrustCg.SignedWords
