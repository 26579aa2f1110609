import Mathlib.Data.BitVec

/-!
# Bit vectors carried in machine words

A vector of `w` bits kept in a word of `n ≥ w` bits, its upper bits clear.  Arithmetic on
the words followed by a mask is arithmetic on the vectors; a word shifted up and
arithmetically down again is the sign extension of the vector.

* `mask`, `signed` : the two ways of reading the low `w` bits of a word.
* `mask_eq`, `signed_eq` : what they are on every word.
* `mask_add`, `mask_shiftLeft`, `mask_sshiftRight`, … : the operations on carried vectors.
-/

namespace TrustCg.Carrier

open BitVec

variable {n w : ℕ}

/-- The low `w` bits of a word. -/
def mask (v : BitVec n) (w : ℕ) : BitVec n :=
  if n ≤ w then v else v &&& (BitVec.ofNat n 1 <<< w - BitVec.ofNat n 1)

/-- The low `w` bits of a word, read as a signed number. -/
def signed (v : BitVec n) (w : ℕ) : BitVec n :=
  if w = 0 then BitVec.ofNat n 0
  else if n ≤ w then v
  else (v <<< (n - w)).sshiftRight (n - w)

theorem toNat_lowOnes (h : w < n) :
    (BitVec.ofNat n 1 <<< w - BitVec.ofNat n 1).toNat = 2 ^ w - 1 := by
  have hpow : 2 ^ w < 2 ^ n := Nat.pow_lt_pow_right (by omega) h
  have hone : 1 ≤ 2 ^ w := Nat.one_le_two_pow
  have h1 : 1 % 2 ^ n = 1 := Nat.mod_eq_of_lt (by omega)
  rw [toNat_sub_of_le]
  · simp [Nat.shiftLeft_eq, Nat.mod_eq_of_lt hpow, h1]
  · simpa [le_def, Nat.shiftLeft_eq, Nat.mod_eq_of_lt hpow, h1] using hone

theorem mask_eq (v : BitVec n) (w : ℕ) : mask v w = (v.setWidth w).setWidth n := by
  rw [mask]
  split
  next h => rw [setWidth_setWidth_of_le _ h, setWidth_eq]
  next h =>
    apply eq_of_toNat_eq
    have hlt : v.toNat % 2 ^ w < 2 ^ n := lt_of_le_of_lt (Nat.mod_le _ _) v.isLt
    rw [toNat_and, toNat_lowOnes (by omega), Nat.and_two_pow_sub_one_eq_mod]
    simp [Nat.mod_eq_of_lt hlt]

theorem signed_eq (hw : 0 < w) (hn : w ≤ n) (v : BitVec n) :
    signed v w = (v.setWidth w).signExtend n := by
  rw [signed, if_neg (by omega)]
  split
  next h =>
    obtain rfl : w = n := by omega
    rw [setWidth_eq, signExtend_eq]
  next h =>
    apply eq_of_getLsbD_eq
    intro i hi
    have hmsb : (v <<< (n - w)).msb = (v.setWidth w).msb := by
      rw [msb_eq_getLsbD_last, msb_eq_getLsbD_last, getLsbD_shiftLeft,
        getLsbD_setWidth, show n - 1 - (n - w) = w - 1 by omega]
      simp only [show n - 1 < n by omega, show ¬ n - 1 < n - w by omega,
        show w - 1 < w by omega, decide_true, decide_false, Bool.not_false, Bool.true_and]
    rw [getLsbD_sshiftRight, getLsbD_signExtend, hmsb]
    by_cases hiw : i < w
    · simp only [show ¬ n ≤ i by omega, hi, hiw, show n - w + i < n by omega, if_true,
        getLsbD_shiftLeft, getLsbD_setWidth, show ¬ n - w + i < n - w by omega,
        show n - w + i - (n - w) = i by omega, decide_true, decide_false, Bool.not_false,
        Bool.true_and]
    simp only [show ¬ n ≤ i by omega, hi, hiw, show ¬ n - w + i < n by omega, if_false,
      decide_true, decide_false, Bool.not_false, Bool.true_and]

theorem sshiftRight_of_le {k : ℕ} (h : w ≤ k) (a : BitVec w) :
    a.sshiftRight k = if a.msb then BitVec.allOnes w else BitVec.ofNat w 0 := by
  apply eq_of_getLsbD_eq
  intro i hi
  rw [getLsbD_sshiftRight]
  cases hm : a.msb <;> simp [hi, show ¬ k + i < w by omega]

/-! ## Operations on carried vectors -/

section
variable (hn : w ≤ n) (a b : BitVec w)
include hn

theorem setWidth_carried : ((a.setWidth n).setWidth w) = a := by
  rw [setWidth_setWidth_of_le _ hn, setWidth_eq]

theorem mask_carried : mask (a.setWidth n) w = a.setWidth n := by
  rw [mask_eq, setWidth_carried hn]

theorem mask_add : mask (a.setWidth n + b.setWidth n) w = (a + b).setWidth n := by
  rw [mask_eq, setWidth_add _ _ hn, setWidth_carried hn, setWidth_carried hn]

theorem mask_sub : mask (a.setWidth n - b.setWidth n) w = (a - b).setWidth n := by
  rw [mask_eq, sub_eq_add_neg, setWidth_add _ _ hn, setWidth_neg_of_le hn,
    setWidth_carried hn, setWidth_carried hn, ← sub_eq_add_neg]

theorem mask_mul : mask (a.setWidth n * b.setWidth n) w = (a * b).setWidth n := by
  rw [mask_eq, setWidth_mul _ _ hn, setWidth_carried hn, setWidth_carried hn]

theorem mask_neg : mask (-a.setWidth n) w = (-a).setWidth n := by
  rw [mask_eq, setWidth_neg_of_le hn, setWidth_carried hn]

theorem mask_and : mask (a.setWidth n &&& b.setWidth n) w = (a &&& b).setWidth n := by
  rw [← setWidth_and, mask_carried hn]

theorem mask_or : mask (a.setWidth n ||| b.setWidth n) w = (a ||| b).setWidth n := by
  rw [← setWidth_or, mask_carried hn]

theorem mask_xor : mask (a.setWidth n ^^^ b.setWidth n) w = (a ^^^ b).setWidth n := by
  rw [← setWidth_xor, mask_carried hn]

theorem toNat_carried : (a.setWidth n).toNat = a.toNat := by
  have hlt : a.toNat < 2 ^ n := lt_of_lt_of_le a.isLt (Nat.pow_le_pow_right (by omega) hn)
  rw [toNat_setWidth, Nat.mod_eq_of_lt hlt]

theorem mask_shiftLeft (k : ℕ) : mask (a.setWidth n <<< k) w = (a <<< k).setWidth n := by
  rw [mask_eq]
  congr 1
  apply eq_of_getLsbD_eq
  intro i hi
  simp only [getLsbD_setWidth, getLsbD_shiftLeft, hi, show i < n by omega,
    show i - k < n by omega, decide_true, Bool.true_and]

theorem mask_ushiftRight (k : ℕ) : mask (a.setWidth n >>> k) w = (a >>> k).setWidth n := by
  rw [mask_eq]
  congr 1
  apply eq_of_getLsbD_eq
  intro i hi
  simp only [getLsbD_setWidth, getLsbD_ushiftRight, hi, decide_true, Bool.true_and]
  by_cases hk : k + i < n
  · simp [hk]
  · simp [hk, getLsbD_of_ge a (k + i) (by omega)]

theorem signed_carried (hw : 0 < w) : signed (a.setWidth n) w = a.signExtend n := by
  rw [signed_eq hw hn, setWidth_carried hn]

theorem msb_signExtend_of_le (hw : 0 < w) : (a.signExtend n).msb = a.msb := by
  rw [msb_eq_getLsbD_last, getLsbD_signExtend]
  by_cases h : n - 1 < w
  · rw [if_pos h, msb_eq_getLsbD_last, show n - 1 = w - 1 by omega]
    simp [show w - 1 < n by omega]
  · simp [h, show n - 1 < n by omega]

theorem mask_sshiftRight (hw : 0 < w) (k : ℕ) :
    mask ((a.signExtend n).sshiftRight k) w = (a.sshiftRight k).setWidth n := by
  rw [mask_eq]
  congr 1
  apply eq_of_getLsbD_eq
  intro i hi
  rw [getLsbD_setWidth, getLsbD_sshiftRight, getLsbD_sshiftRight,
    getLsbD_signExtend, msb_signExtend_of_le hn _ hw]
  simp only [hi, show ¬ n ≤ i by omega, show ¬ w ≤ i by omega, decide_true, decide_false,
    Bool.not_false, Bool.true_and]
  by_cases hk : k + i < w
  · simp [hk, show k + i < n by omega]
  · by_cases hkn : k + i < n <;> simp [hk, hkn]

theorem mask_allOnes : mask (BitVec.allOnes n) w = (BitVec.allOnes w).setWidth n := by
  rw [mask_eq]
  congr 1
  apply eq_of_getLsbD_eq
  intro i hi
  simp [hi, show i < n by omega]

end

theorem mask_signExtend {k : ℕ} (hk : k ≤ n) (a : BitVec w) :
    mask (a.signExtend n) k = (a.signExtend k).setWidth n := by
  rw [mask_eq]
  congr 1
  apply eq_of_getLsbD_eq
  intro i hi
  rw [getLsbD_setWidth, getLsbD_signExtend, getLsbD_signExtend]
  simp [hi, show i < n by omega]

end TrustCg.Carrier
