import Mathlib.Data.Nat.Prime.Basic
import TrustCg.Lower.MagicUdiv

/-!
# Magic multipliers

The search for a multiplier, and the check of a signed one.  `magicu` and `magics` follow
the quotients of powers of two until the error is small enough; what they return is only a
candidate, and the band checks decide.  `magics` works on absolute values and
reduces the multiplier to a signed word, so the emitted sequence corrects the product by
the dividend when the signs of multiplier and divisor disagree.

* `magicu_magic_lt`, `magics_magic_range` : a candidate fits its register.
* `smagicBandHolds_sound` : an accepted signed candidate divides every dividend of the
  width, the most negative one included, rounding towards zero.
-/

namespace TrustCg.Lower

open TrustCg.Limbs TrustCg.Reciprocal

/-! ## The searches -/

/-- The state of a search: quotient and remainder of the growing power of two by the worst
dividend and by the divisor. -/
structure MagicSearch where
  q1 : ℕ
  r1 : ℕ
  q2 : ℕ
  r2 : ℕ
  deriving DecidableEq, Repr

/-- The end of the search; `delta` is the error of rounding up. -/
def MagicSearch.done (s : MagicSearch) (delta : ℕ) : Bool :=
  !(s.q1 < delta || (s.q1 == delta && s.r1 == 0))

/-- One doubling in `magicu`, which follows `2 ^ p - 1` over the divisor. -/
def MagicSearch.stepU (nc d : ℕ) (s : MagicSearch) : MagicSearch where
  q1 := if s.r1 ≥ nc - s.r1 then 2 * s.q1 + 1 else 2 * s.q1
  r1 := if s.r1 ≥ nc - s.r1 then 2 * s.r1 - nc else 2 * s.r1
  q2 := if s.r2 + 1 ≥ d - s.r2 then 2 * s.q2 + 1 else 2 * s.q2
  r2 := if s.r2 + 1 ≥ d - s.r2 then 2 * s.r2 + 1 - d else 2 * s.r2 + 1

/-- One doubling in `magics_bits`. -/
def MagicSearch.stepS (anc ad : ℕ) (s : MagicSearch) : MagicSearch where
  q1 := if 2 * s.r1 ≥ anc then 2 * s.q1 + 1 else 2 * s.q1
  r1 := if 2 * s.r1 ≥ anc then 2 * s.r1 - anc else 2 * s.r1
  q2 := if 2 * s.r2 ≥ ad then 2 * s.q2 + 1 else 2 * s.q2
  r2 := if 2 * s.r2 ≥ ad then 2 * s.r2 - ad else 2 * s.r2

/-- The loop of both searches: the exponent and the last quotient by the divisor.  `left`
counts down to the bound `2 * w + 4` on the exponent past which the search gives up. -/
def magicLoop (step : MagicSearch → MagicSearch) (delta : MagicSearch → ℕ) (w : ℕ) :
    ℕ → MagicSearch → Option (ℕ × ℕ)
  | left, s =>
    let s := step s
    if s.done (delta s) then some (2 * w + 5 - left, s.q2)
    else
      match left with
      | 0 => none
      | left + 1 => magicLoop step delta w left s

/-- The magic number of an unsigned divisor. -/
def magicu (d : ℕ) (width : MagicWidth) : Option MagicU :=
  let w := width.bits
  if d ≤ 1 then none
  else if w < 64 ∧ d ≥ 2 ^ w then none
  else
    let ones := 2 ^ w - 1
    let nc := ones - (ones - d + 1) % d
    let twoP0 := 2 ^ (w - 1)
    let start : MagicSearch :=
      ⟨twoP0 / nc, twoP0 - twoP0 / nc * nc, (twoP0 - 1) / d, twoP0 - 1 - (twoP0 - 1) / d * d⟩
    (magicLoop (MagicSearch.stepU nc d) (fun s => d - 1 - s.r2) w (w + 5) start).map fun (p, q2) =>
      ⟨(q2 + 1) % 2 ^ w, p - w, decide (q2 + 1 ≥ 2 ^ w)⟩

/-- A signed magic number. -/
structure MagicS where
  magic : ℤ
  shift : ℕ
  deriving DecidableEq, Repr

/-- The low `w` bits as a signed word. -/
def signReduce (w : ℕ) (m : ℤ) : ℤ :=
  if m % 2 ^ w ≥ 2 ^ (w - 1) then m % 2 ^ w - 2 ^ w else m % 2 ^ w

variable (d : ℤ)

/-- The search for `M` and the shift. -/
def magicsBits (w : ℕ) : Option (ℤ × ℕ) :=
  if ¬ (2 ≤ w ∧ w ≤ 64) then none
  else if d < -2 ^ (w - 1) ∨ d > 2 ^ (w - 1) - 1 ∨ d = 0 ∨ d = 1 ∨ d = -1 then none
  else
    let ad := d.natAbs
    if ad &&& (ad - 1) = 0 then none
    else
      let twoWm1 := 2 ^ (w - 1)
      let t := twoWm1 + if d < 0 then 1 else 0
      let anc := t - 1 - t % ad
      let start : MagicSearch :=
        ⟨twoWm1 / anc, twoWm1 - twoWm1 / anc * anc, twoWm1 / ad, twoWm1 - twoWm1 / ad * ad⟩
      (magicLoop (MagicSearch.stepS anc ad) (fun s => ad - s.r2) w (w + 5) start).map
        fun (p, q2) => (signReduce w (if d < 0 then -((q2 : ℤ) + 1) else (q2 : ℤ) + 1), p - w)

/-- The magic number of a signed divisor. -/
def magics (width : MagicWidth) : Option MagicS :=
  (magicsBits d width.bits).map fun (magic, shift) => ⟨magic, shift⟩

variable {width : MagicWidth}

theorem magicu_magic_lt {d : ℕ} {m : MagicU} (h : magicu d width = some m) :
    m.magic < 2 ^ width.bits := by
  unfold magicu at h
  dsimp only at h
  split_ifs at h
  obtain ⟨⟨p, q2⟩, -, rfl⟩ := Option.map_eq_some_iff.1 h
  exact Nat.mod_lt _ (Nat.two_pow_pos _)

theorem signReduce_range {w : ℕ} (hw : 1 ≤ w) (m : ℤ) :
    -2 ^ (w - 1) ≤ signReduce w m ∧ signReduce w m < 2 ^ (w - 1) := by
  have hpow : (2 : ℤ) ^ w = 2 * 2 ^ (w - 1) := by
    rw [← pow_succ']
    congr 1
    omega
  have hpos : (0 : ℤ) < 2 ^ w := by positivity
  unfold signReduce
  split <;> constructor <;> omega

theorem magics_magic_range {d : ℤ} {m : MagicS} (h : magics d width = some m) :
    -2 ^ (width.bits - 1) ≤ m.magic ∧ m.magic < 2 ^ (width.bits - 1) := by
  obtain ⟨⟨magic, shift⟩, hbits, rfl⟩ := Option.map_eq_some_iff.1 h
  unfold magicsBits at hbits
  dsimp only at hbits
  split at hbits
  · cases hbits
  split at hbits
  · cases hbits
  split at hbits
  · cases hbits
  obtain ⟨⟨p, q2⟩, -, hpair⟩ := Option.map_eq_some_iff.1 hbits
  cases hpair
  exact signReduce_range (by cases width <;> decide) _

example : magicu 7 .w32 = some ⟨613566757, 3, true⟩ := by decide
example : magics 7 .w32 = some ⟨-1840700269, 2⟩ := by decide
example : magics (-5) .w64 = some ⟨-7378697629483820647, 1⟩ := by decide +kernel

/-! ## The signed band check -/

theorem lowLimbs_lt (v : ℕ) : ∀ l ∈ [v % 2 ^ 64, v / 2 ^ 64 % 2 ^ 64, 0, 0], l < 2 ^ 64 := by
  intro l hl
  simp only [List.mem_cons, List.not_mem_nil, or_false] at hl
  omega

/-- The number in the two low limbs. -/
def U256.fromU128 (v : ℕ) : U256 where
  limbs := [v % 2 ^ 64, v / 2 ^ 64 % 2 ^ 64, 0, 0]
  length_eq := rfl
  limb_lt := lowLimbs_lt v

/-- The `<=` that `PartialOrd` derives from `cmp`. -/
def U256.le (a b : U256) : Bool := a.cmp b != .gt

theorem U256.toNat_fromU128 {v : ℕ} (h : v < 2 ^ 128) : (U256.fromU128 v).toNat = v := by
  simp only [U256.toNat, U256.fromU128, Nat.ofDigits_cons, Nat.ofDigits_nil]
  omega

theorem U256.le_iff_toNat_le (a b : U256) : a.le b = true ↔ a.toNat ≤ b.toNat := by
  have hcmp := cmpLimbs_eq_compare a.limbs b.limbs (a.length_eq.trans b.length_eq.symm)
    a.limb_lt b.limb_lt
  rw [U256.le, U256.cmp, hcmp, bne_iff_ne, ne_eq, compare_gt_iff_gt, not_lt]
  rfl

/-- The multiplier the corrected sequence applies in effect, up to the divisor's sign. -/
def MagicS.effective (m : MagicS) (width : MagicWidth) : ℕ :=
  if decide (0 < d) == decide (0 < m.magic) then m.magic.natAbs
  else 2 ^ width.bits - m.magic.natAbs

/-- The bound on the magnitude of the dividends whose quotient is rounded down. -/
def signedBound (width : MagicWidth) : ℕ :=
  2 ^ (width.bits - 1) + if d < 0 then 1 else 0

/-- `smagic_band_holds`.  The multiplier is a signed word of the operation width, so the
`u128` subtraction in the effective multiplier does not wrap. -/
def smagicBandHolds (m : MagicS) (width : MagicWidth) : Bool :=
  let w := width.bits
  if d = 0 ∨ d = 1 ∨ d = -1 then false
  else if h : m.shift ≥ w ∨ w + m.shift + 1 ≥ 256 then false
  else
    let ad := d.natAbs
    if ad &&& (ad - 1) = 0 then false
    else
      let prod := (U256.fromU128 (m.effective d width)).wrappingMul (U256.fromU128 ad)
      let lo := U256.oneShl (w + m.shift) (by omega)
      let t := signedBound d width
      let anc := U256.fromU128 (t - 1 - t % ad)
      lo.le prod && (prod.wrappingMul anc).lt ((lo.wrappingMul anc).wrappingAdd lo)

/-- The multiple of the dividend that the sequence adds to the high product. -/
def MagicS.correction (m : MagicS) : ℤ :=
  if 0 < d ∧ m.magic < 0 then 1 else if d < 0 ∧ 0 < m.magic then -1 else 0

theorem and_pred_eq_zero_of_pow (k : ℕ) : 2 ^ k &&& (2 ^ k - 1) = 0 := by
  rw [Nat.and_two_pow_sub_one_eq_mod, Nat.mod_self]

theorem mul_ne_two_pow {a d n : ℕ} (hd : d &&& (d - 1) ≠ 0) : a * d ≠ 2 ^ n := by
  intro h
  obtain ⟨k, -, rfl⟩ := (Nat.dvd_prime_pow Nat.prime_two).1 (Dvd.intro_left a h)
  exact hd (and_pred_eq_zero_of_pow k)

theorem MagicS.effective_eq (m : MagicS) (width : MagicWidth) :
    m.effective d width = if 0 < d ↔ 0 < m.magic then m.magic.natAbs
      else 2 ^ width.bits - m.magic.natAbs := by
  unfold MagicS.effective
  by_cases hd : 0 < d <;> by_cases hm : 0 < m.magic <;> simp [hd, hm]

theorem two_pow_bits (width : MagicWidth) : 2 ^ width.bits = 2 * 2 ^ (width.bits - 1) := by
  cases width <;> rfl

theorem two_pow_intCast (n : ℕ) : (2 : ℤ) ^ n = ((2 ^ n : ℕ) : ℤ) := by push_cast; rfl

section

variable {d : ℤ} {m : MagicS} (hlow : -2 ^ (width.bits - 1) ≤ d)
    (hhigh : d < 2 ^ (width.bits - 1)) (hmlow : -2 ^ (width.bits - 1) ≤ m.magic)
    (hmhigh : m.magic < 2 ^ (width.bits - 1)) (h : smagicBandHolds d m width = true)
include hlow hhigh hmlow hmhigh

/-- The check computes the band of the effective multiplier. -/
theorem smagicBandHolds_iff_band : smagicBandHolds d m width = true ↔
      m.shift < width.bits ∧ 1 < d.natAbs ∧ d.natAbs &&& (d.natAbs - 1) ≠ 0
        ∧ Band (signedBound d width) d.natAbs (m.effective d width)
          (2 ^ (width.bits + m.shift)) := by
  have hbits := width.bits_le
  have hpow : 2 ^ (width.bits - 1) ≤ 2 ^ 63 := Nat.pow_le_pow_right (by decide) (by omega)
  have hpow' := two_pow_intCast (width.bits - 1)
  have hwpow : 2 ^ width.bits ≤ 2 ^ 64 := Nat.pow_le_pow_right (by decide) hbits
  have had : d.natAbs ≤ 2 ^ 63 := by omega
  have heff : m.effective d width ≤ 2 ^ 64 := by
    unfold MagicS.effective
    split <;> omega
  have ht : signedBound d width ≤ 2 ^ 63 + 1 := by
    unfold signedBound
    split <;> omega
  unfold smagicBandHolds
  dsimp only
  split
  · simp only [Bool.false_eq_true, false_iff]
    omega
  rename_i hd
  split
  · simp only [Bool.false_eq_true, false_iff]
    omega
  rename_i hshift
  split
  · simp only [Bool.false_eq_true, false_iff]
    exact fun hband => hband.2.2.1 ‹_›
  rename_i hnotpow
  have hone : 1 < d.natAbs := by omega
  have hloval : 2 ^ (width.bits + m.shift) ≤ 2 ^ 127 := Nat.pow_le_pow_right (by decide) (by omega)
  set anc := signedBound d width - 1 - signedBound d width % d.natAbs with hanc
  have hlo : (U256.oneShl (width.bits + m.shift) (by omega)).toNat = 2 ^ (width.bits + m.shift) :=
    U256.toNat_oneShl _
  have hanc256 : (U256.fromU128 anc).toNat = anc := U256.toNat_fromU128 (by omega)
  have heff256 : (U256.fromU128 (m.effective d width)).toNat = m.effective d width :=
    U256.toNat_fromU128 (by omega)
  have had256 : (U256.fromU128 d.natAbs).toNat = d.natAbs := U256.toNat_fromU128 (by omega)
  obtain ⟨hprod, hband⟩ := U256.band_iff (by rw [heff256]; omega) (by rw [had256]; omega)
    (by rw [hlo]; omega) (by rw [hanc256]; omega)
  rw [Bool.and_eq_true, U256.le_iff_toNat_le, hprod, hband, hlo, heff256, had256, hanc256, Band,
    worstDividend, ← hanc]
  exact ⟨fun hband => ⟨by omega, hone, hnotpow, hband⟩, fun hband => hband.2.2.2⟩

include h

/-- The check rejects the multiplier zero: it would pass for `2 ^ w`, whose error is too
large. -/
theorem magic_ne_zero : m.magic ≠ 0 := by
  obtain ⟨-, hone, hnotpow, hPle, hupper⟩ := (smagicBandHolds_iff_band hlow hhigh hmlow hmhigh).1 h
  intro hzero
  by_cases hd : 0 < d
  · have heff : m.effective d width = 2 ^ width.bits := by
      rw [MagicS.effective_eq, if_neg (by omega), hzero]
      rfl
    rw [heff] at hPle hupper
    have hpow' := two_pow_intCast (width.bits - 1)
    have hbound : d.natAbs ≤ signedBound d width := by unfold signedBound; split <;> omega
    have hanc : d.natAbs - 1 ≤ worstDividend (signedBound d width) d.natAbs := by
      rw [worstDividend_eq (by omega) hbound]
      omega
    have hgt : 2 ^ m.shift < d.natAbs := by
      have hle : 2 ^ width.bits * 2 ^ m.shift ≤ 2 ^ width.bits * d.natAbs := by rwa [← pow_add]
      refine lt_of_le_of_ne (Nat.le_of_mul_le_mul_left hle (Nat.two_pow_pos _)) fun heq => ?_
      exact mul_ne_two_pow hnotpow (show 1 * d.natAbs = 2 ^ m.shift by omega)
    generalize worstDividend (signedBound d width) d.natAbs = anc at hupper hanc
    have hsmall : d.natAbs * anc < 2 ^ m.shift * anc + 2 ^ m.shift := by
      refine Nat.lt_of_mul_lt_mul_left (a := 2 ^ width.bits) ?_
      calc 2 ^ width.bits * (d.natAbs * anc) = 2 ^ width.bits * d.natAbs * anc := by ring
        _ < 2 ^ (width.bits + m.shift) * anc + 2 ^ (width.bits + m.shift) := hupper
        _ = 2 ^ width.bits * (2 ^ m.shift * anc + 2 ^ m.shift) := by rw [pow_add]; ring
    have hlarge : (2 ^ m.shift + 1) * anc ≤ d.natAbs * anc := Nat.mul_le_mul_right _ hgt
    have hexp : (2 ^ m.shift + 1) * anc = 2 ^ m.shift * anc + anc := by ring
    omega
  · have heff : m.effective d width = 0 := by
      rw [MagicS.effective_eq, if_pos (by omega), hzero]
      rfl
    rw [heff, Nat.zero_mul] at hPle
    exact absurd hPle (Nat.not_le.2 (Nat.two_pow_pos _))

/-- The sequence with its correction multiplies by the effective multiplier, with the sign
of the divisor. -/
theorem magic_add_correction : m.magic + m.correction d * 2 ^ width.bits
        = (if d < 0 then -1 else 1) * (m.effective d width : ℤ)
      ∧ m.effective d width < 2 ^ width.bits := by
  have hone := ((smagicBandHolds_iff_band hlow hhigh hmlow hmhigh).1 h).2.1
  have hne := magic_ne_zero hlow hhigh hmlow hmhigh h
  have hhalf := two_pow_bits width
  have hpow' := two_pow_intCast (width.bits - 1)
  have hpowW : (2 : ℤ) ^ width.bits = 2 * ((2 ^ (width.bits - 1) : ℕ) : ℤ) := by
    exact_mod_cast hhalf
  rw [MagicS.effective_eq, MagicS.correction]
  rcases (by omega : 0 < d ∨ d < 0) with hd | hd <;> rcases lt_or_gt_of_ne hne with hm | hm
  · rw [if_pos ⟨hd, hm⟩, if_neg (by omega), if_neg (by omega)]
    constructor <;> omega
  · rw [if_neg (by omega), if_neg (by omega), if_neg (by omega), if_pos (by omega)]
    constructor <;> omega
  · rw [if_neg (by omega), if_neg (by omega), if_pos hd, if_pos (by omega)]
    constructor <;> omega
  rw [if_neg (by omega), if_pos ⟨hd, hm⟩, if_pos hd, if_neg (by omega)]
  constructor <;> omega

/-- **An accepted signed candidate divides.**  The corrected product, scaled down and
rounded towards zero, is the truncated quotient for every dividend of the width. -/
theorem smagicBandHolds_sound {x : ℤ} (hx : -2 ^ (width.bits - 1) ≤ x)
    (hx' : x < 2 ^ (width.bits - 1)) :
    let q := x * (m.magic + m.correction d * 2 ^ width.bits) / 2 ^ (width.bits + m.shift)
    q + (if q < 0 then 1 else 0) = x.tdiv d := by
  obtain ⟨hshift, hone, hnotpow, hband⟩ := (smagicBandHolds_iff_band hlow hhigh hmlow hmhigh).1 h
  obtain ⟨heff, hefflt⟩ := magic_add_correction hlow hhigh hmlow hmhigh h
  have hw : 2 ≤ width.bits := by cases width <;> decide
  have hpow' := two_pow_intCast (width.bits - 1)
  have hhalf := two_pow_bits width
  have hscale := two_pow_intCast (width.bits + m.shift)
  have hne : m.effective d width * d.natAbs ≠ 2 ^ (width.bits + m.shift) := mul_ne_two_pow hnotpow
  have hP : 0 < 2 ^ (width.bits + m.shift) := Nat.two_pow_pos _
  rw [heff, hscale]
  by_cases hd : d < 0
  · -- a negative divisor negates the dividend; its bound leaves room for the last one
    have hbound : signedBound d width = 2 ^ (width.bits - 1) + 1 := by rw [signedBound, if_pos hd]
    rw [hbound] at hband
    have hdiv : x.tdiv d = (-x).tdiv d.natAbs := by
      rw [show d = -(d.natAbs : ℤ) by omega, Int.tdiv_neg, Int.neg_tdiv, Int.natAbs_neg,
        Int.natAbs_natCast]
    rw [hdiv, if_pos hd,
      show x * (-1 * (m.effective d width : ℤ)) = -x * m.effective d width by ring]
    exact hband.ediv_add_sign hone (by omega) hP hne (by omega)
  have hbound : signedBound d width = 2 ^ (width.bits - 1) := by
    rw [signedBound, if_neg hd, Nat.add_zero]
  rw [hbound] at hband
  have hdiv : x.tdiv d = x.tdiv d.natAbs := by rw [show (d.natAbs : ℤ) = d by omega]
  rw [hdiv, if_neg hd, Int.one_mul]
  by_cases hmin : x = -2 ^ (width.bits - 1)
  · -- the most negative dividend lies one past the bound
    have heven : 2 ^ (width.bits - 1) % 2 = 0 := by
      rw [show width.bits - 1 = width.bits - 2 + 1 by omega, pow_succ]
      omega
    have hPT : 2 ^ (width.bits + m.shift) = 2 ^ (m.shift + 1) * 2 ^ (width.bits - 1) := by
      rw [← pow_add]
      congr 1
      omega
    have hx0 : x = -((2 ^ (width.bits - 1) : ℕ) : ℤ) := by rw [hmin, hpow']
    rw [hx0]
    exact hband.ediv_add_sign_bound hone (by omega) hP hne heven hPT (by omega)
  · exact hband.ediv_add_sign hone (by omega) hP hne (by omega)

end

end TrustCg.Lower
