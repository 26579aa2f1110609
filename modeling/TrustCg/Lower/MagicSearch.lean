import TrustCg.Lower.MagicDiv

/-!
# The magic searches end

Both searches double the exponent's scale and keep its quotients and remainders by the worst
dividend and by the divisor.  So each stops at the first scale whose rounded quotient is in
the band, and that is never late.

* `magicLoop_eq` : the loop ends by any exponent that is good, at one that is.
* `magicu_accepted_iff` : the candidate of `magicu` passes the check, except at 64 bits when
  the exponent 127 is too small: then the shift is 64, which `band_holds` rejects.
* `magics_accepted` : the candidate of `magics` always passes.
-/

namespace TrustCg.Lower

open Reciprocal

/-- A search at exponent `p`; `c` is one where the divisor is held against `2 ^ p - 1`. -/
def MagicSearch.atExponent (c n d p : ℕ) : MagicSearch :=
  ⟨2 ^ p / n, 2 ^ p % n, (2 ^ p - c) / d, (2 ^ p - c) % d⟩

section

variable {n d w : ℕ}

theorem MagicSearch.stepU_atExponent (hn : 0 < n) (hd : 0 < d) (p : ℕ) :
    stepU n d (atExponent 1 n d p) = atExponent 1 n d (p + 1) := by
  have hr1 := Nat.mod_lt (2 ^ p) hn
  have hr2 := Nat.mod_lt (2 ^ p - 1) hd
  have h1 := double_div_mod (a := 2 ^ p) (c := 2 ^ p % n ≥ n - 2 ^ p % n) hn (Nat.zero_le 1)
    (by omega)
  have h2 := double_div_mod (a := 2 ^ p - 1)
    (c := (2 ^ p - 1) % d + 1 ≥ d - (2 ^ p - 1) % d) hd le_rfl (by omega)
  have hpos := Nat.two_pow_pos p
  rw [Nat.add_zero, Nat.add_zero] at h1
  rw [atExponent.eq_1 _ _ _ (p + 1), pow_succ',
    show 2 * 2 ^ p - 1 = 2 * (2 ^ p - 1) + 1 by omega, h1.1, h1.2, h2.1, h2.2]
  rfl

theorem MagicSearch.stepS_atExponent (hn : 0 < n) (hd : 0 < d) (p : ℕ) :
    stepS n d (atExponent 0 n d p) = atExponent 0 n d (p + 1) := by
  have h : ∀ k, 0 < k → _ := fun k hk => double_div_mod (a := 2 ^ p) hk (Nat.zero_le 1) Iff.rfl
  simp only [Nat.add_zero] at h
  rw [atExponent.eq_1 _ _ _ (p + 1), pow_succ', Nat.sub_zero, (h n hn).1, (h n hn).2,
    (h d hd).1, (h d hd).2]
  rfl

theorem MagicSearch.done_atExponent (hn : 0 < n) (c p e : ℕ) :
    (atExponent c n d p).done e = true ↔ e * n < 2 ^ p := by
  change (!(decide (2 ^ p / n < e) || (2 ^ p / n == e && 2 ^ p % n == 0))) = true ↔ _
  simp [mul_lt_iff_div_mod hn, imp_iff_not_or]

/-- The loop stops by any exponent that is good, at one that is. -/
theorem magicLoop_eq {step : MagicSearch → MagicSearch} (delta : MagicSearch → ℕ)
    {S : ℕ → MagicSearch} {Good : ℕ → Prop} {q : ℕ} (hstep : ∀ p, step (S p) = S (p + 1))
    (hdone : ∀ p, (S p).done (delta (S p)) = true ↔ Good p) (hgood : Good q) (hq : q ≤ 2 * w + 5) :
    ∀ left p, p + left = 2 * w + 4 → p < q →
      ∃ r, p < r ∧ r ≤ q ∧ Good r ∧ magicLoop step delta w left (S p) = some (r, (S r).q2) := by
  intro left
  induction left with
  | zero =>
    intro p hp hpq
    obtain rfl : q = p + 1 := by omega
    refine ⟨p + 1, by omega, le_rfl, hgood, ?_⟩
    rw [magicLoop, hstep, if_pos ((hdone _).2 hgood), show 2 * w + 5 - 0 = p + 1 by omega]
  | succ left ih =>
    intro p hp hpq
    by_cases hstop : Good (p + 1)
    · refine ⟨p + 1, by omega, hpq, hstop, ?_⟩
      rw [magicLoop, hstep, if_pos ((hdone _).2 hstop),
        show 2 * w + 5 - (left + 1) = p + 1 by omega]
    obtain ⟨r, hpr, hrest⟩ := ih (p + 1) (by omega)
      (lt_of_le_of_ne hpq fun heq => hstop (heq ▸ hgood))
    refine ⟨r, by omega, ?_⟩
    rw [magicLoop, hstep, if_neg (mt (hdone _).1 hstop)]
    exact hrest

end

section

variable {d q : ℕ} {width : MagicWidth}

theorem magicu_eq (hd : 1 < d) (hdw : d < 2 ^ width.bits) (hw : width.bits ≤ q)
    (hq : q ≤ width.bits + Nat.clog 2 d) (hgood : Enough (2 ^ width.bits) d q) :
    ∃ r, width.bits ≤ r ∧ r ≤ q ∧ Enough (2 ^ width.bits) d r
      ∧ magicu d width = some ⟨((2 ^ r - 1) / d + 1) % 2 ^ width.bits, r - width.bits,
          decide ((2 ^ r - 1) / d + 1 ≥ 2 ^ width.bits)⟩ := by
  have hd0 : 0 < d := by omega
  have hbits : 1 ≤ width.bits := by cases width <;> decide
  have hclog := Nat.clog_le_of_le_pow hdw.le
  have hn := worstDividend_pos hd hdw.le
  obtain ⟨r, hr, hrq, hgood', hloop⟩ := magicLoop_eq (w := width.bits)
    (S := MagicSearch.atExponent 1 (worstDividend (2 ^ width.bits) d) d)
    (fun s => d - 1 - s.r2) (MagicSearch.stepU_atExponent hn hd0)
    (fun p => MagicSearch.done_atExponent hn 1 p _) hgood (by omega) (width.bits + 5)
    (width.bits - 1) (by omega) (by omega)
  refine ⟨r, by omega, hrq, hgood', ?_⟩
  unfold magicu
  dsimp only
  rw [if_neg (by omega), if_neg (by omega), nc_eq_worstDividend hdw, ← Nat.mod_eq_sub_div_mul,
    ← Nat.mod_eq_sub_div_mul]
  exact congrArg (Option.map _) hloop

/-- Whether `magicu` ends with a candidate that `band_holds` accepts: at 64 bits the shift must
stay below 64, so the exponent 127 has to be enough. -/
theorem magicu_accepted_iff (hd : 1 < d) (hdw : d < 2 ^ width.bits) :
    (∃ m, magicu d width = some m ∧ m.magic < 2 ^ width.bits ∧ (m.add = true → 1 ≤ m.shift)
        ∧ bandHolds d m width = true)
      ↔ (width = .w64 → Enough (2 ^ 64) d 127) := by
  have hd0 : 0 < d := by omega
  have hclog := Nat.clog_le_of_le_pow hdw.le
  have hmax := enough_clog hd0 (worstDividend_lt hd0 hdw.le).le
  constructor
  · rintro ⟨m, hm, -, -, hband⟩ rfl
    have hshift : m.shift < 64 := Nat.lt_of_not_ge fun hge => by
      rw [bandHolds, if_pos hge] at hband
      cases hband
    obtain ⟨r, hr, -, hgood, heq⟩ := magicu_eq hd hdw (by omega) le_rfl hmax
    cases hm.symm.trans heq
    have hsub : r - 64 < 64 := hshift
    exact hgood.mono hd0 (by omega)
  intro h
  obtain ⟨q, hw, hq, hlt, hgood⟩ : ∃ q, width.bits ≤ q ∧ q ≤ width.bits + Nat.clog 2 d ∧ q < 128
      ∧ Enough (2 ^ width.bits) d q := by
    by_cases hfits : width.bits + Nat.clog 2 d < 128
    · exact ⟨_, by omega, le_rfl, hfits, hmax⟩
    cases width with
    | w32 => simp only [MagicWidth.bits] at hfits hclog; omega
    | w64 => exact ⟨127, by decide, by omega, by decide, h rfl⟩
  obtain ⟨r, hr, hrq, hgood', heq⟩ := magicu_eq hd hdw hw hq hgood
  have hpow : 2 ^ (width.bits + 1) = 2 * 2 ^ width.bits := pow_succ' 2 width.bits
  have hM := roundUp_lt hd (by omega) (hrq.trans hq)
  have hbits := width.bits_le
  have hshift : r - width.bits < 64 := by
    cases width <;> simp only [MagicWidth.bits] at hclog hr hrq hq ⊢ <;> omega
  refine ⟨_, heq, Nat.mod_lt _ (Nat.two_pow_pos _), fun hadd => ?_, ?_⟩
  · refine Nat.sub_pos_of_lt (lt_of_le_of_ne hr fun hrw => ?_)
    have hadd' : (2 ^ r - 1) / d + 1 ≥ 2 ^ width.bits := of_decide_eq_true hadd
    have hhalf : (2 ^ width.bits - 1) / d ≤ (2 ^ width.bits - 1) / 2 :=
      Nat.div_le_div_left hd (by decide)
    rw [← hrw] at hadd'
    omega
  rw [bandHolds_iff_band_of_lt hd hdw (Nat.mod_lt _ (Nat.two_pow_pos _)) hshift
    (show width.bits + (r - width.bits) < 128 by omega)]
  have hmult : MagicU.multiplier ⟨((2 ^ r - 1) / d + 1) % 2 ^ width.bits, r - width.bits,
      decide ((2 ^ r - 1) / d + 1 ≥ 2 ^ width.bits)⟩ width = (2 ^ r - 1) / d + 1 := by
    unfold MagicU.multiplier
    simp only [decide_eq_true_eq]
    split
    · rw [Nat.mod_eq_sub_mod ‹_›, Nat.mod_eq_of_lt (by omega)]
      omega
    · exact Nat.mod_eq_of_lt (by omega)
  rw [hmult, Nat.add_sub_cancel' hr, band_roundUp_iff hd0]
  exact hgood'

end

section

variable {d : ℤ} {width : MagicWidth}

/-- The signed word of a multiplier stands for that multiplier, whatever the signs. -/
theorem effective_signReduce (hd : d ≠ 0) {M : ℕ} (hpos : 0 < M) (hlt : M < 2 ^ width.bits)
    (shift : ℕ) : MagicS.effective d
      ⟨signReduce width.bits (if d < 0 then -(M : ℤ) else M), shift⟩ width = M := by
  have hhalf := two_pow_bits width
  have hpow := two_pow_intCast (width.bits - 1)
  have hpow' := two_pow_intCast width.bits
  have hmod : (if d < 0 then -(M : ℤ) else M) % 2 ^ width.bits
      = if d < 0 then 2 ^ width.bits - (M : ℤ) else M := by
    split
    · rw [← Int.add_emod_right, Int.emod_eq_of_lt (by omega) (by omega)]
      ring
    · exact Int.emod_eq_of_lt (by omega) (by omega)
  rw [MagicS.effective_eq, signReduce, hmod]
  rcases lt_or_gt_of_ne hd with hneg | hneg
  · simp only [if_pos hneg]
    split <;> split <;> omega
  simp only [if_neg (not_lt.2 hneg.le)]
  split <;> split <;> omega

theorem magics_accepted (hlow : -2 ^ (width.bits - 1) ≤ d) (hhigh : d < 2 ^ (width.bits - 1))
    (hzero : d ≠ 0) (hpow : ∀ k, d.natAbs ≠ 2 ^ k) :
    ∃ m, magics d width = some m ∧ smagicBandHolds d m width = true := by
  have hcast := two_pow_intCast (width.bits - 1)
  have hbits : 2 ≤ width.bits ∧ width.bits ≤ 64 := by cases width <;> decide
  have had : 1 < d.natAbs := by
    have hone := hpow 0
    omega
  have hadw : d.natAbs < 2 ^ (width.bits - 1) := lt_of_le_of_ne (by omega) (hpow _)
  have hnotpow : d.natAbs &&& (d.natAbs - 1) ≠ 0 := by
    rw [ne_eq, Nat.and_sub_one_eq_zero_iff_isPowerOfTwo (by omega)]
    exact fun ⟨k, hk⟩ => hpow k hk
  -- the divisor never divides the scale, so the two searches round up alike
  have hround (p : ℕ) := pred_div_eq (by omega) fun hmod : 2 ^ p % d.natAbs = 0 =>
    mul_ne_two_pow hnotpow (Nat.div_mul_cancel (Nat.dvd_of_mod_eq_zero hmod))
  have hbound : d.natAbs ≤ signedBound d width
      ∧ signedBound d width ≤ 2 ^ (width.bits - 1) + 1 := by
    unfold signedBound
    split <;> omega
  have hn := worstDividend_pos had hbound.1
  have hnlt := worstDividend_lt (by omega) hbound.1
  have hclog := Nat.clog_le_of_le_pow hadw.le
  have hclog' : 0 < Nat.clog 2 d.natAbs := Nat.clog_pos (by decide) had
  obtain ⟨r, hr, hrq, hgood, hloop⟩ := magicLoop_eq (w := width.bits)
    (S := MagicSearch.atExponent 0 (worstDividend (signedBound d width) d.natAbs) d.natAbs)
    (fun s => d.natAbs - s.r2) (MagicSearch.stepS_atExponent hn (by omega))
    (fun p => MagicSearch.done_atExponent hn 0 p _)
    (q := width.bits - 1 + Nat.clog 2 d.natAbs)
    ((hround _).2 ▸ enough_clog (by omega) (by omega)) (by omega) (width.bits + 5)
    (width.bits - 1) (by omega) (by omega)
  have hM := roundUp_lt (v := width.bits - 1) had (by rw [pow_succ]; omega) hrq
  rw [Nat.sub_add_cancel (by omega)] at hM
  have hmagics : magics d width = some ⟨signReduce width.bits
      (if d < 0 then -(((2 ^ r - 1) / d.natAbs + 1 : ℕ) : ℤ)
        else (((2 ^ r - 1) / d.natAbs + 1 : ℕ) : ℤ)), r - width.bits⟩ := by
    unfold magics magicsBits
    dsimp only
    rw [if_neg (not_not.2 hbits), if_neg (by omega), if_neg hnotpow, ← Nat.mod_eq_sub_div_mul,
      ← Nat.mod_eq_sub_div_mul, (hround r).1]
    exact congrArg (fun out => Option.map _ (Option.map _ out)) hloop
  refine ⟨_, hmagics, ?_⟩
  obtain ⟨hmlow, hmhigh⟩ := magics_magic_range hmagics
  rw [smagicBandHolds_iff_band hlow hhigh hmlow hmhigh,
    effective_signReduce hzero (Nat.succ_pos _) hM]
  refine ⟨show r - width.bits < width.bits by omega, had, hnotpow, ?_⟩
  rw [Nat.add_sub_cancel' (by omega), band_roundUp_iff (by omega), Enough, (hround r).2]
  exact hgood

end

/-- **The searches and their checks.**  Both end with a candidate, and its check accepts it,
but for the unsigned divisors of 64 bits whose shift is 64. -/
theorem magic_candidates_accepted_iff (d : ℕ) (e : ℤ) (width : MagicWidth) (hd : 1 < d)
    (hdw : d < 2 ^ width.bits) (hlow : -2 ^ (width.bits - 1) ≤ e)
    (hhigh : e < 2 ^ (width.bits - 1)) (hzero : e ≠ 0) (hpow : ∀ k, e.natAbs ≠ 2 ^ k) :
    ((∃ m, magicu d width = some m ∧ m.magic < 2 ^ width.bits ∧ (m.add = true → 1 ≤ m.shift)
          ∧ bandHolds d m width = true)
        ∧ ∃ m, magics e width = some m ∧ smagicBandHolds e m width = true)
      ↔ (width = .w64 → Enough (2 ^ 64) d 127) := by
  rw [and_iff_left (magics_accepted hlow hhigh hzero hpow)]
  exact magicu_accepted_iff hd hdw

theorem magic_candidates_accepted_iff_seven :
    (∃ m, magicu 7 .w64 = some m ∧ m.magic < 2 ^ 64 ∧ (m.add = true → 1 ≤ m.shift)
          ∧ bandHolds 7 m .w64 = true)
      ∧ ∃ m, magics (-5) .w64 = some m ∧ smagicBandHolds (-5) m .w64 = true :=
  (magic_candidates_accepted_iff 7 (-5) .w64 (by decide) (by decide) (by decide) (by decide)
    (by decide) fun k hk => mul_ne_two_pow (a := 1) (d := 5) (by decide) (by simpa using hk)).2
    fun _ => show _ < _ by decide

theorem magicu_rejected_of_shift_64 :
    ∃ m, magicu (2 ^ 64 - 2) .w64 = some m ∧ m.shift = 64
      ∧ bandHolds (2 ^ 64 - 2) m .w64 = false :=
  ⟨⟨3, 64, true⟩, by decide +kernel, rfl, by decide +kernel⟩

end TrustCg.Lower
