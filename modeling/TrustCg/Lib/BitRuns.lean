import Mathlib.Data.Nat.Bitwise
import Mathlib.Tactic.Ring

/-!
# Rotated runs of ones and their repetition

A machine word that repeats one element of `e` bits, where the element is a run
of `c` ones rotated right by `r`, has a closed form for every bit
(`runBit`).  The module gives that form to the operations such words are built
with: the low mask, the rotation inside an element, and the loop that ors
shifted copies of an element into a word.
-/

namespace TrustCg.BitRuns

open BitVec Bool

/-- Bit `i` of the endless repetition of an `e`-bit element that is `c` ones
rotated right by `r`. -/
def runBit (e c r i : ℕ) : Bool := decide ((i % e + r) % e < c)

/-- The word with its `n` low bits set. -/
def lowOnes (W n : ℕ) : BitVec W := BitVec.ofNat W (2 ^ n - 1)

/-- Rotation right by `r` inside the low `e` bits of a word. -/
def rotateLow {W : ℕ} (v : BitVec W) (r e : ℕ) : BitVec W :=
  (v >>> r ||| v <<< (e - r)) &&& lowOnes W e

/-- Or into `out` the copies of `pattern` at `shift`, `shift + e`, and so on below
`limit`.  The fuel bounds the number of copies. -/
def orCopies {W : ℕ} (pattern : BitVec W) (e limit : ℕ) : ℕ → ℕ → BitVec W → BitVec W
  | 0, _, out => out
  | fuel + 1, shift, out =>
    if shift < limit then orCopies pattern e limit fuel (shift + e) (out ||| pattern <<< shift)
    else out

section

variable {W e c r : ℕ}

@[simp] theorem getLsbD_lowOnes (n i : ℕ) :
    (lowOnes W n).getLsbD i = (decide (i < W) && decide (i < n)) := by
  simp [lowOnes, getLsbD_ofNat, Nat.testBit_two_pow_sub_one]

theorem lowOnes_and_lowOnes {m n : ℕ} (h : m ≤ n) : lowOnes W m &&& lowOnes W n = lowOnes W m := by
  apply eq_of_getLsbD_eq
  intro i hi
  simp only [getLsbD_and, getLsbD_lowOnes, hi, decide_true, Bool.true_and]
  rw [Bool.eq_iff_iff]
  simp only [and_eq_true, decide_eq_true_eq]
  omega

theorem runBit_mod (e c r i : ℕ) : runBit e c r (i % e) = runBit e c r i := by
  rw [runBit, runBit, Nat.mod_mod]

variable {i : ℕ}

theorem add_mod_of_lt {r e : ℕ} (hi : i < e) (hr : r < e) :
    (i + r) % e = if i + r < e then i + r else i + r - e := by
  split
  · exact Nat.mod_eq_of_lt ‹_›
  · rw [Nat.mod_eq_sub_mod (by omega), Nat.mod_eq_of_lt (by omega)]

theorem getLsbD_rotateLow (hW : e ≤ W) (hc : c ≤ e) (hr : r < e) (i : ℕ) :
    (rotateLow (lowOnes W c) r e).getLsbD i = (decide (i < e) && runBit e c r i) := by
  by_cases hi : i < e
  · have hmod := add_mod_of_lt hi hr
    simp only [rotateLow, runBit, getLsbD_and, getLsbD_or,
      getLsbD_ushiftRight, getLsbD_shiftLeft, getLsbD_lowOnes,
      Nat.mod_eq_of_lt hi, hmod, hi, decide_true, Bool.and_true, Bool.true_and]
    rw [Bool.eq_iff_iff]
    simp only [or_eq_true, and_eq_true, not_eq_true', decide_eq_true_eq, decide_eq_false_iff_not]
    split <;> constructor <;> omega
  · simp [rotateLow, hi]

/-- A run that does not fill its element has a set bit and a clear bit in it. -/
theorem exists_runBit_true (hc : 1 ≤ c) (hr : r < e) : ∃ i < e, runBit e c r i = true := by
  by_cases h0 : r = 0
  · subst h0
    exact ⟨0, hr, by simp [runBit, Nat.zero_mod]; omega⟩
  refine ⟨e - r, by omega, ?_⟩
  have hlt : e - r < e := by omega
  rw [runBit, Nat.mod_eq_of_lt hlt, Nat.sub_add_cancel hr.le, Nat.mod_self]
  exact decide_eq_true hc

theorem exists_runBit_false (hc : c < e) (hr : r < e) : ∃ i < e, runBit e c r i = false := by
  refine ⟨e - 1 - r, by omega, ?_⟩
  have hlt : e - 1 - r < e := by omega
  have hsum : e - 1 - r + r < e := by omega
  rw [runBit, Nat.mod_eq_of_lt hlt, Nat.mod_eq_of_lt hsum]
  simp only [decide_eq_false_iff_not, not_lt]
  omega

/-- A run has no shorter period: its end would be repeated. -/
theorem exists_runBit_shift_ne (hc : 1 ≤ c) (hce : c < e) (hr : r < e) {p : ℕ} (hp : 0 < p)
    (hpe : p < e) : ∃ i < e, runBit e c r ((i + p) % e) ≠ runBit e c r i := by
  have hat : ∀ x, runBit e c r ((x + (e - r)) % e) = decide (x % e < c) := by
    intro x
    rw [runBit, Nat.mod_mod, Nat.mod_add_mod, show x + (e - r) + r = x + e by omega,
      Nat.add_mod_right]
  by_contra hall
  push Not at hall
  have hshift : ∀ x, decide ((x + p) % e < c) = decide (x % e < c) := by
    intro x
    rw [← hat x, ← hall _ (Nat.mod_lt (x + (e - r)) (by omega)), Nat.mod_add_mod, ← hat,
      show x + p + (e - r) = x + (e - r) + p by omega]
  have hlast := hshift (c - 1)
  have hend := hshift c
  rw [decide_eq_decide, add_mod_of_lt (by omega) hpe, Nat.mod_eq_of_lt (by omega)] at hlast hend
  split at hlast <;> split at hend <;> omega

variable {limit : ℕ}

/-- No copy from `shift` on starts below a limit that `shift` has reached. -/
theorem not_copy_lt_of_le {shift : ℕ} (he : 0 < e) (hdvd : e ∣ shift) (hlim : limit ≤ shift)
    (hle : shift ≤ i) : ¬ i / e * e < limit := by
  obtain ⟨k, rfl⟩ := hdvd
  have hk : k ≤ i / e := (Nat.le_div_iff_mul_le he).2 (by rw [Nat.mul_comm]; exact hle)
  have hcopy := Nat.mul_le_mul_right e hk
  rw [Nat.mul_comm k e] at hcopy
  omega

section

variable (pattern : BitVec W) (he : 0 < e) (hpat : ∀ i, e ≤ i → pattern.getLsbD i = false)
include he hpat

/-- The bits the loop sets: bit `i` comes from the copy it lies in. -/
theorem getLsbD_orCopies (limit : ℕ) (fuel shift : ℕ) (out : BitVec W) (hdvd : e ∣ shift)
    (hfuel : limit ≤ shift + fuel * e) :
    ∀ i, i < W → (orCopies pattern e limit fuel shift out).getLsbD i
        = (out.getLsbD i || (decide (shift ≤ i) && decide (i / e * e < limit)
            && pattern.getLsbD (i % e))) := by
  induction fuel generalizing shift out with
  | zero =>
    intro i hi
    have hlim : limit ≤ shift := by omega
    by_cases hle : shift ≤ i
    · simp [orCopies, not_copy_lt_of_le he hdvd hlim hle]
    · simp [orCopies, hle]
  | succ fuel ih =>
    intro i hi
    obtain ⟨k, hk⟩ := hdvd
    by_cases hlt : shift < limit
    · rw [orCopies, if_pos hlt]
      have hnext : e ∣ shift + e := ⟨k + 1, by rw [hk]; ring⟩
      rw [ih (shift + e) _ hnext (by rw [Nat.succ_mul] at hfuel; omega) i hi]
      simp only [getLsbD_or, getLsbD_shiftLeft, hi, decide_true, Bool.true_and]
      -- bit `i` is below the copy at `shift`, inside it, or above it
      rcases lt_or_ge i shift with hbelow | hge
      · simp [hbelow, Nat.not_le.2 hbelow, show ¬ shift + e ≤ i by omega]
      rcases lt_or_ge i (shift + e) with hin | habove
      · have hdiv : i / e = k := by
          rw [Nat.div_eq_iff he]
          constructor
          · rw [Nat.mul_comm]; omega
          · rw [Nat.mul_comm]; omega
        have hmod : i % e = i - shift := by
          have := Nat.div_add_mod i e
          rw [hdiv, ← hk] at this
          omega
        have hcopy : i / e * e < limit := by rw [hdiv, Nat.mul_comm, ← hk]; exact hlt
        simp [hge, hcopy, hmod, show ¬ i < shift by omega, show ¬ shift + e ≤ i by omega]
      · have hpast : pattern.getLsbD (i - shift) = false := hpat _ (by omega)
        simp [hge, habove, hpast, show ¬ i < shift by omega]
    · rw [orCopies, if_neg hlt]
      by_cases hle : shift ≤ i
      · simp [not_copy_lt_of_le he ⟨k, hk⟩ (not_lt.1 hlt) hle]
      · simp [hle]

theorem getLsbD_orCopies_zero (hW : i < W) (hi : i < limit) :
    (orCopies pattern e limit limit 0 0#W).getLsbD i = pattern.getLsbD (i % e) := by
  rw [getLsbD_orCopies pattern he hpat limit limit 0 0#W (dvd_zero e)
    (by rw [Nat.zero_add]; exact Nat.le_mul_of_pos_right limit he) i hW]
  have hcopy : i / e * e < limit := lt_of_le_of_lt (Nat.div_mul_le_self i e) hi
  simp [hcopy]

end

end

end TrustCg.BitRuns
