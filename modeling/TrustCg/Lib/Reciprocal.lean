import Mathlib.Data.Nat.Log
import Mathlib.Tactic.Linarith
import Mathlib.Tactic.Ring

/-!
# Division by a scaled reciprocal

When does `x ↦ x * m / P` compute `x / d` for every dividend below a bound `N`?
The multiplier `m` has to round `P / d` up, and its error, amplified by the
worst dividend, has to stay below one unit.  The worst dividend is the largest
one that is `-1` modulo the divisor (`worstDividend`), and with it the condition
is exact: `mul_div_eq_div_iff` is an equivalence, for an arbitrary scale `P` and
an arbitrary bound `N`.

The same band serves dividends of either sign: rounding the scaled product down and
adding one to a negative result rounds towards zero (`Band.ediv_add_sign`), up to and
including the dividend `-N` when the bound is even and divides the scale
(`Band.ediv_add_sign_bound`).

For the scales that are powers of two the multiplier that rounds up is in the band once the
scale is large enough (`enough_clog`), and until then it has one bit more than the
dividends (`roundUp_lt`).
-/

namespace TrustCg.Reciprocal

open Nat (clog mul_le_mul_right)

/-- The largest dividend below `N` that is congruent to `-1` modulo `d`. -/
def worstDividend (N d : ℕ) : ℕ := N - 1 - N % d

/-- The band of usable multipliers: `m` rounds `P / d` up, and the error at the
worst dividend is less than one unit of the scale. -/
def Band (N d m P : ℕ) : Prop :=
  P ≤ m * d ∧ m * d * worstDividend N d < P * worstDividend N d + P

section

variable {N d m P : ℕ} {y x T : ℕ}

theorem worstDividend_lt (hd : 0 < d) (hdN : d ≤ N) : worstDividend N d < N := by
  unfold worstDividend
  omega

theorem worstDividend_eq (hd : 0 < d) (hdN : d ≤ N) :
    worstDividend N d = (N / d - 1) * d + (d - 1) := by
  have hq : 1 ≤ N / d := (Nat.one_le_div_iff hd).2 hdN
  have hdiv := Nat.div_add_mod N d
  have hsub : (N / d - 1) * d = d * (N / d) - d := by rw [Nat.sub_mul, Nat.one_mul, Nat.mul_comm]
  have hle : d ≤ d * (N / d) := Nat.le_mul_of_pos_right d hq
  unfold worstDividend
  omega

theorem worstDividend_pos (hd : 1 < d) (hdN : d ≤ N) : 0 < worstDividend N d := by
  rw [worstDividend_eq (by omega) hdN]
  omega

theorem worstDividend_mod (hd : 0 < d) (hdN : d ≤ N) : worstDividend N d % d = d - 1 := by
  rw [worstDividend_eq hd hdN, Nat.mul_comm, Nat.mul_add_mod, Nat.mod_eq_of_lt (by omega)]

/-- The dividends past the worst one are the last, incomplete block of residues. -/
theorem eq_of_worstDividend_lt (hd : 0 < d) (hdN : d ≤ N) (hx : x < N)
    (hworst : worstDividend N d < x) : x = worstDividend N d + 1 + x % d ∧ x % d < N % d := by
  have hNq := Nat.div_add_mod N d
  have hxq := Nat.div_add_mod x d
  have hNd : d ≤ d * (N / d) := Nat.le_mul_of_pos_right d ((Nat.one_le_div_iff hd).2 hdN)
  have hstart : worstDividend N d + 1 = d * (N / d) := by unfold worstDividend; omega
  have hge : N / d ≤ x / d := by
    rw [Nat.le_div_iff_mul_le hd, Nat.mul_comm]
    omega
  have heq : x / d = N / d := le_antisymm (Nat.div_le_div_right hx.le) hge
  rw [heq] at hxq
  constructor <;> omega

/-- For one dividend: the scaled product gives the quotient exactly when the
remainder and the amplified error together stay below `d` units. -/
theorem mul_div_eq_iff (hd : 0 < d) (hP : 0 < P) (hlow : P ≤ m * d) (x : ℕ) :
    x * m / P = x / d ↔ x % d * P + x * (m * d - P) < d * P := by
  obtain ⟨e, he⟩ := Nat.exists_eq_add_of_le hlow
  have hsub : m * d - P = e := by omega
  have hx := Nat.div_add_mod x d
  -- everything is compared after scaling by `d`
  have hscale : x * m * d = (x / d * d + x % d) * P + x * e := by
    calc x * m * d = x * (m * d) := by ring
      _ = x * P + x * e := by rw [he]; ring
      _ = (x / d * d + x % d) * P + x * e := by rw [Nat.mul_comm (x / d) d, hx]
  have hlo : x / d * P ≤ x * m := by
    have : x / d * P * d ≤ x * m * d := by rw [hscale]; nlinarith [Nat.zero_le (x % d * P + x * e)]
    exact Nat.le_of_mul_le_mul_right this hd
  rw [hsub, Nat.div_eq_iff hP]
  constructor
  · rintro ⟨-, h⟩
    have : x * m * d < (x / d + 1) * P * d := by
      have hlt : x * m < (x / d + 1) * P := by
        have : (x / d + 1) * P = x / d * P + P := by ring
        omega
      exact (Nat.mul_lt_mul_right hd).2 hlt
    rw [hscale] at this
    nlinarith
  intro h
  refine ⟨hlo, ?_⟩
  have : x * m * d < (x / d + 1) * P * d := by rw [hscale]; nlinarith
  have hlt := (Nat.mul_lt_mul_right hd).1 this
  have : (x / d + 1) * P = x / d * P + P := by ring
  omega

/-- A multiplier in the band divides every dividend below the bound. -/
theorem Band.mul_div_eq (hd : 1 < d) (hdN : d ≤ N) (hP : 0 < P) (h : Band N d m P)
    (hx : x < N) : x * m / P = x / d := by
  obtain ⟨hlow, hup⟩ := h
  have hd0 : 0 < d := by omega
  rw [mul_div_eq_iff hd0 hP hlow]
  obtain ⟨e, he⟩ := Nat.exists_eq_add_of_le hlow
  have hsub : m * d - P = e := by omega
  have hworst : e * worstDividend N d < P := by rw [he] at hup; nlinarith
  have hmod := Nat.mod_lt x hd0
  rw [hsub]
  by_cases hle : x ≤ worstDividend N d
  · have h1 : x * e ≤ e * worstDividend N d := by
      rw [Nat.mul_comm]; exact Nat.mul_le_mul_left e hle
    have h2 : x % d * P ≤ (d - 1) * P := mul_le_mul_right P (by omega)
    have h3 : (d - 1) * P + P = d * P := by rw [← Nat.succ_mul]; congr 1; omega
    omega
  -- past the worst dividend the remainder is small again: two units are free
  obtain ⟨hrem, hlt⟩ := eq_of_worstDividend_lt hd0 hdN hx (not_le.1 hle)
  have hNm := Nat.mod_lt N hd0
  have hsmall : x % d + 1 ≤ worstDividend N d := by
    have := worstDividend_eq hd0 hdN
    omega
  have h1 : x * e = e * worstDividend N d + (x % d + 1) * e := by
    conv_lhs => rw [hrem]
    ring
  have h2 : (x % d + 1) * e ≤ e * worstDividend N d := by
    rw [Nat.mul_comm]; exact Nat.mul_le_mul_left e hsmall
  have h3 : (x % d + 2) * P ≤ d * P := mul_le_mul_right P (by omega)
  have h4 : (x % d + 2) * P = x % d * P + 2 * P := by ring
  omega

/-- Outside the band some dividend below the bound gets a wrong quotient: the
divisor itself if the multiplier rounds down, the worst dividend otherwise. -/
theorem exists_ne_of_not_band (hd : 1 < d) (hdN : d < N) (hP : 0 < P) (h : ¬ Band N d m P) :
    ∃ x < N, x * m / P ≠ x / d := by
  have hd0 : 0 < d := by omega
  by_cases hlow : P ≤ m * d
  · refine ⟨worstDividend N d, worstDividend_lt hd0 hdN.le, ?_⟩
    rw [Ne, mul_div_eq_iff hd0 hP hlow, worstDividend_mod hd0 hdN.le, not_lt]
    have hup : P * worstDividend N d + P ≤ m * d * worstDividend N d := by
      by_contra hlt
      exact h ⟨hlow, not_le.1 hlt⟩
    obtain ⟨e, he⟩ := Nat.exists_eq_add_of_le hlow
    have hsub : m * d - P = e := by omega
    rw [hsub]
    have h3 : (d - 1) * P + P = d * P := by rw [← Nat.succ_mul]; congr 1; omega
    rw [he] at hup
    nlinarith
  refine ⟨d, hdN, ?_⟩
  rw [Nat.div_self hd0, Nat.div_eq_of_lt (by rw [Nat.mul_comm]; omega)]
  exact Nat.zero_ne_one

/-- **The band is exact.**  Multiplying by `m` and dropping the scale divides
every dividend below `N` by `d` if and only if `m` lies in the band. -/
theorem mul_div_eq_div_iff (hd : 1 < d) (hdN : d < N) (hP : 0 < P) :
    (∀ x < N, x * m / P = x / d) ↔ Band N d m P := by
  constructor
  · intro h
    by_contra hband
    obtain ⟨x, hx, hne⟩ := exists_ne_of_not_band hd hdN hP hband
    exact hne (h x hx)
  intro h x hx
  exact h.mul_div_eq hd hdN.le hP hx

/-! ## Dividends of either sign -/

theorem neg_mul_ediv {k : ℕ} (hP : 0 < P) (hlow : k * P < y * m) (hup : y * m ≤ (k + 1) * P) :
    -(y : ℤ) * m / P = -(k + 1 : ℤ) := by
  have hP' : (0 : ℤ) < P := by exact_mod_cast hP
  rw [Int.ediv_eq_iff_of_pos hP']
  constructor <;> nlinarith

theorem div_mul_lt (hd : 0 < d) (hlow : P < m * d) (hy : 0 < y) : y / d * P < y * m := by
  have hscale : y / d * P * d < y * m * d := by
    calc y / d * P * d = y / d * d * P := by ring
      _ ≤ y * P := mul_le_mul_right P (Nat.div_mul_le_self y d)
      _ < y * (m * d) := (Nat.mul_lt_mul_left hy).2 hlow
      _ = y * m * d := by ring
  exact (Nat.mul_lt_mul_right hd).1 hscale

/-- Rounding down, corrected for a negative result, is rounding towards zero. -/
theorem ediv_add_sign_of_neg (hd : 0 < d) (hP : 0 < P) (hlow : P < m * d) (hy : 0 < y)
    (hup : y * m ≤ (y / d + 1) * P) :
    -(y : ℤ) * m / P + (if -(y : ℤ) * m / P < 0 then 1 else 0) = (-(y : ℤ)).tdiv d := by
  rw [neg_mul_ediv hP (div_mul_lt hd hlow hy) hup, if_pos (by linarith), Int.neg_tdiv,
    Int.ofNat_tdiv]
  ring

/-- **Either sign.**  Within the bound, a multiplier in the band that is not exact gives
the quotient rounded towards zero. -/
theorem Band.ediv_add_sign (hd : 1 < d) (hdN : d ≤ N) (hP : 0 < P) (h : Band N d m P)
    (hne : m * d ≠ P) {z : ℤ} (hz : z.natAbs < N) :
    z * m / P + (if z * m / P < 0 then 1 else 0) = z.tdiv d := by
  have hdiv := h.mul_div_eq hd hdN hP hz
  rcases Int.natAbs_eq z with hpos | hneg
  · rw [hpos]
    have hq : (z.natAbs : ℤ) * m / P = ((z.natAbs / d : ℕ) : ℤ) := by exact_mod_cast hdiv
    rw [hq, if_neg (not_lt.2 (Int.natCast_nonneg _)), Int.ofNat_tdiv, Int.add_zero]
  rcases Nat.eq_zero_or_pos z.natAbs with hzero | hy
  · obtain rfl : z = 0 := by omega
    simp
  rw [hneg]
  refine ediv_add_sign_of_neg (by omega) hP (lt_of_le_of_ne h.1 (Ne.symm hne)) hy ?_
  have hlt : z.natAbs * m < (z.natAbs / d + 1) * P := by
    rw [← Nat.div_lt_iff_lt_mul hP, hdiv]
    exact Nat.lt_succ_self _
  exact hlt.le

/-- The bound itself: unless it is `-1` modulo the divisor, the next quotient is two units
away; and if it is, a multiplier too large by one leaves the band or the range. -/
theorem Band.bound_mul_le (hd : 1 < d) (hdN : d < N) (h : Band N d m P) (heven : N % 2 = 0)
    (hPT : P = T * N) (hm : m ≤ 2 * N) : N * m ≤ (N / d + 1) * P := by
  have hd0 : 0 < d := by omega
  obtain ⟨hlow, hup⟩ := h
  obtain ⟨e, he⟩ := Nat.exists_eq_add_of_le hlow
  have hworst : e * worstDividend N d < P := by rw [he] at hup; nlinarith
  have hdiv := Nat.div_add_mod N d
  have hmod := Nat.mod_lt N hd0
  by_cases hlast : N % d = d - 1
  · have hN : d * (N / d + 1) = N + 1 := by
      have hexp : d * (N / d + 1) = d * (N / d) + d := by ring
      omega
    have hw : worstDividend N d = N - d := by unfold worstDividend; omega
    have hthree : 3 ≤ N / d + 1 := by
      -- the factor is odd, and it is not one because the divisor is below the bound
      generalize N / d + 1 = q at hN
      by_contra hlt
      have hq : q = 0 ∨ q = 1 ∨ q = 2 := by omega
      rcases hq with rfl | rfl | rfl <;> omega
    rw [hPT]
    have hgoal : m ≤ (N / d + 1) * T := by
      by_contra hgt
      have hover : (N / d + 1) * T + 1 ≤ m := by omega
      have herr : T + d ≤ e := by
        have h1 : ((N / d + 1) * T + 1) * d ≤ m * d := mul_le_mul_right d hover
        have h2 : ((N / d + 1) * T + 1) * d = T * N + T + d := by
          calc ((N / d + 1) * T + 1) * d = T * (d * (N / d + 1)) + d := by ring
            _ = T * N + T + d := by rw [hN]; ring
        omega
      obtain ⟨f, hf⟩ := Nat.exists_eq_add_of_le hdN.le
      have hNd : N - d = f := by omega
      rw [hw, hNd] at hworst
      have hsmall : f < T := by
        have h3 : (T + d) * f < T * N := by
          calc (T + d) * f ≤ e * f := mul_le_mul_right f herr
            _ < P := hworst
            _ = T * N := hPT
        have h4 : (T + d) * f = T * f + d * f := by ring
        have h5 : T * N = T * f + d * T := by rw [hf]; ring
        exact Nat.lt_of_mul_lt_mul_left (show d * f < d * T by omega)
      have h6 : 3 * T ≤ (N / d + 1) * T := mul_le_mul_right T hthree
      have h7 : 3 * d ≤ d * (N / d + 1) := by
        rw [Nat.mul_comm 3 d]; exact Nat.mul_le_mul_left d hthree
      omega
    calc N * m ≤ N * ((N / d + 1) * T) := Nat.mul_le_mul_left N hgoal
      _ = (N / d + 1) * (T * N) := by ring
  · have hsmall : N % d + 1 ≤ worstDividend N d := by
      have := worstDividend_eq hd0 hdN.le
      omega
    have hsplit : N = worstDividend N d + (N % d + 1) := by unfold worstDividend; omega
    have h1 : N * e < 2 * P := by
      have h2 : (N % d + 1) * e ≤ worstDividend N d * e := mul_le_mul_right e hsmall
      have h3 : N * e = worstDividend N d * e + (N % d + 1) * e := by
        conv_lhs => rw [hsplit]
        ring
      rw [Nat.mul_comm] at hworst
      omega
    have hscale : N * m * d ≤ (N / d + 1) * P * d := by
      have h4 : N * m * d = N * P + N * e := by
        calc N * m * d = N * (m * d) := by ring
          _ = N * P + N * e := by rw [he]; ring
      have h5 : N * P = d * (N / d) * P + N % d * P := by
        conv_lhs => rw [← hdiv]
        ring
      have h6 : (N % d + 2) * P ≤ d * P := mul_le_mul_right P (by omega)
      have h7 : (N % d + 2) * P = N % d * P + 2 * P := by ring
      have h8 : (N / d + 1) * P * d = d * (N / d) * P + d * P := by ring
      omega
    exact Nat.le_of_mul_le_mul_right hscale hd0

/-- **The most negative dividend.** -/
theorem Band.ediv_add_sign_bound (hd : 1 < d) (hdN : d < N) (hP : 0 < P) (h : Band N d m P)
    (hne : m * d ≠ P) (heven : N % 2 = 0) (hPT : P = T * N) (hm : m ≤ 2 * N) :
    -(N : ℤ) * m / P + (if -(N : ℤ) * m / P < 0 then 1 else 0) = (-(N : ℤ)).tdiv d :=
  ediv_add_sign_of_neg (by omega) hP (lt_of_le_of_ne h.1 (Ne.symm hne)) (by omega)
    (h.bound_mul_le hd hdN heven hPT hm)

/-! ## The multiplier of a scale -/

/-- What rounding `P / d` up adds, in units of `1 / d`. -/
def excess (P d : ℕ) : ℕ := d - 1 - (P - 1) % d

theorem roundUp_mul (hd : 0 < d) (hP : 0 < P) : ((P - 1) / d + 1) * d = P + excess P d := by
  have hdiv := Nat.div_add_mod (P - 1) d
  have hmod := Nat.mod_lt (P - 1) hd
  rw [Nat.add_mul, Nat.mul_comm _ d, excess]
  omega

/-- The scale `2 ^ p` is large enough: what rounding up adds is in the band. -/
def Enough (N d p : ℕ) : Prop := excess (2 ^ p) d * worstDividend N d < 2 ^ p

theorem band_roundUp_iff (hd : 0 < d) {p : ℕ} :
    Band N d ((2 ^ p - 1) / d + 1) (2 ^ p) ↔ Enough N d p := by
  rw [Band, roundUp_mul hd (Nat.two_pow_pos p), Nat.add_mul, Enough]
  omega

/-- The test of a product by quotient and remainder. -/
theorem mul_lt_iff_div_mod {n a e : ℕ} (hn : 0 < n) :
    e * n < a ↔ ¬ (a / n < e ∨ a / n = e ∧ a % n = 0) := by
  rw [Nat.div_lt_iff_lt_mul hn, Nat.div_mod_unique hn, Nat.mul_comm n e]
  omega

/-- Quotient and remainder of a doubled number from those of the number. -/
theorem double_div_mod {n a b : ℕ} (hn : 0 < n) (hb : b ≤ 1) {c : Prop} [Decidable c]
    (hc : c ↔ n ≤ 2 * (a % n) + b) :
    (2 * a + b) / n = (if c then 2 * (a / n) + 1 else 2 * (a / n))
      ∧ (2 * a + b) % n = if c then 2 * (a % n) + b - n else 2 * (a % n) + b := by
  have hdiv := Nat.div_add_mod a n
  have hmod := Nat.mod_lt a hn
  rw [Nat.div_mod_unique hn]
  by_cases h : c
  · rw [if_pos h, if_pos h, Nat.mul_add, Nat.mul_left_comm]
    rw [hc] at h
    omega
  rw [if_neg h, if_neg h, Nat.mul_left_comm]
  rw [hc] at h
  omega

/-- Doubling the scale at most doubles the excess. -/
theorem excess_two_mul_le (hd : 0 < d) (hP : 0 < P) : excess (2 * P) d ≤ 2 * excess P d := by
  have hdouble := (double_div_mod (a := P - 1) hd le_rfl Iff.rfl).2
  rw [excess, excess, show 2 * P - 1 = 2 * (P - 1) + 1 by omega, hdouble]
  split <;> omega

theorem Enough.mono {p q : ℕ} (hd : 0 < d) (h : Enough N d p) (hpq : p ≤ q) : Enough N d q := by
  induction q, hpq using Nat.le_induction with
  | base => exact h
  | succ q _ ih =>
    have hle := mul_le_mul_right (worstDividend N d)
      (excess_two_mul_le (d := d) hd (Nat.two_pow_pos q))
    rw [Nat.mul_assoc] at hle
    rw [Enough] at ih ⊢
    rw [pow_succ']
    omega

/-- A scale that exceeds the dividends by a power of two above the divisor is enough. -/
theorem enough_clog {v : ℕ} (hd : 0 < d) (hn : worstDividend N d ≤ 2 ^ v) :
    Enough N d (v + clog 2 d) := by
  have hlt : excess (2 ^ (v + clog 2 d)) d < d := by unfold excess; omega
  calc _ ≤ excess (2 ^ (v + clog 2 d)) d * 2 ^ v := Nat.mul_le_mul_left _ hn
    _ < d * 2 ^ v := Nat.mul_lt_mul_of_pos_right hlt (Nat.two_pow_pos v)
    _ ≤ 2 ^ clog 2 d * 2 ^ v := mul_le_mul_right _ (Nat.le_pow_clog (by decide) d)
    _ = 2 ^ (v + clog 2 d) := by rw [Nat.add_comm, pow_add]

/-- Up to that scale the multiplier has one bit more than the dividends. -/
theorem roundUp_lt {v r : ℕ} (hd : 1 < d) (hdv : d ≤ 2 ^ (v + 1)) (hr : r ≤ v + clog 2 d) :
    (2 ^ r - 1) / d + 1 < 2 ^ (v + 1) := by
  have hlt : 2 ^ (clog 2 d - 1) < d := Nat.pow_pred_clog_lt_self (by decide) hd
  have hle : 2 ^ r ≤ 2 ^ (v + 1) * (d - 1) := calc
    _ ≤ 2 ^ (v + 1 + (clog 2 d - 1)) := Nat.pow_le_pow_right (by decide) (by omega)
    _ ≤ _ := by rw [pow_add]; exact Nat.mul_le_mul_left _ (by omega)
  have hpos := Nat.two_pow_pos r
  have hquot : (2 ^ r - 1) / d < 2 ^ (v + 1) - 1 := by
    rw [Nat.div_lt_iff_lt_mul (by omega), Nat.sub_mul]
    rw [Nat.mul_sub] at hle
    omega
  omega

theorem pred_div_eq (hd : 0 < d) (h : P % d ≠ 0) :
    (P - 1) / d = P / d ∧ excess P d = d - P % d := by
  have hdiv := Nat.div_add_mod P d
  have hmod := Nat.mod_lt P hd
  obtain ⟨hquot, hrem⟩ := (Nat.div_mod_unique (c := P % d - 1) (d := P / d) (a := P - 1) hd).2
    ⟨by omega, by omega⟩
  refine ⟨hquot, ?_⟩
  rw [excess, hrem]
  omega

end

end TrustCg.Reciprocal
