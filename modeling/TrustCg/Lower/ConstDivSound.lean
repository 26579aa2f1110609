import TrustCg.Lower.ConstDivQuotient

/-!
# Division and remainder by a constant are computed

* `finish_delivers` : the remainder, by one shifted operand for a divisor next to a power
  of two and by a multiply-subtract otherwise.
* `tryConstDivRem_computes` : whatever is emitted computes the quotient or the remainder.
-/

namespace TrustCg.Lower.A64

open Emission SignedWords

/-! ## The remainder -/

section

variable {width : MagicWidth} {next : ℕ} {ρ : Regs} {x q : VReg}
  {X Q c : BitVec (opClass width).bits}

theorem isPowerOfTwo_eq {n : ℕ} (h : isPowerOfTwo n = true) : n = 2 ^ n.log2 := by
  simpa [isPowerOfTwo] using h

variable {minus : Bool}

theorem mersenne_spec {smullDivDisabled : Bool} {a k : ℕ}
    (h : mersenne smullDivDisabled width a = some (k, minus)) :
    1 ≤ k ∧ k < width.bits ∧ (a : ℤ) = 2 ^ k + (if minus then -1 else 1) := by
  unfold mersenne at h
  split at h
  · cases h
  rename_i ha
  split at h
  next hpow =>
    have hk := isPowerOfTwo_eq hpow.2
    dsimp only at h
    split at h
    · cases h
      refine ⟨by omega, by omega, ?_⟩
      rw [if_pos rfl]
      have : ((a + 1 : ℕ) : ℤ) = 2 ^ (a + 1).log2 := by exact_mod_cast hk
      omega
    · cases h
  split at h
  next hpow =>
    have hk := isPowerOfTwo_eq hpow
    dsimp only at h
    split at h
    · cases h
      refine ⟨by omega, by omega, ?_⟩
      rw [if_neg (by decide)]
      have : ((a - 1 : ℕ) : ℤ) = 2 ^ (a - 1).log2 := by exact_mod_cast hk
      omega
    · cases h
  · cases h

theorem interpret_eq (isSigned : Bool) {w : ℕ} (c : BitVec w) :
    interpret isSigned c = if isSigned && decide (c.toInt < 0) then -(magnitude isSigned c : ℤ)
      else magnitude isSigned c := by
  cases isSigned with
  | false => rfl
  | true =>
    rw [interpret, magnitude, if_pos rfl, if_pos rfl, Bool.true_and]
    by_cases hneg : c.toInt < 0
    · rw [if_pos (decide_eq_true hneg)]
      omega
    rw [if_neg (by simpa using hneg)]
    omega

/-- The product with a divisor next to a power of two, by one shift. -/
theorem mul_divisor_eq {w k : ℕ} {isSigned : Bool} {c : BitVec w}
    (ha : (magnitude isSigned c : ℤ) = 2 ^ k + (if minus then -1 else 1)) (y : BitVec w) :
    y * c = if isSigned && decide (c.toInt < 0) then -(y <<< k + (if minus then -y else y))
      else y <<< k + (if minus then -y else y) := by
  have hword := ofInt_interpret isSigned c
  have hone : BitVec.ofInt w (if minus then -1 else 1) = if minus then -1 else 1 := by
    cases minus with
    | false => exact BitVec.ofInt_ofNat w 1
    | true => exact (BitVec.ofInt_neg ..).trans (congrArg (- ·) (BitVec.ofInt_ofNat w 1))
  rw [interpret_eq, ha] at hword
  rw [shiftLeft_eq_mul]
  conv_lhs => rw [← hword]
  split
  · rw [BitVec.ofInt_neg, BitVec.ofInt_add, hone]
    split <;> ring
  rw [BitVec.ofInt_add, hone]
  split <;> ring

section

variable (smullDivDisabled isSigned isRem : Bool)

/-- **The remainder.**  The shifted forms for `2 ^ k - 1` and `2 ^ k + 1` and the
multiply-subtract all compute `x - q * c`. -/
theorem finish_delivers (hx : Has next ρ x (opClass width) X)
    (hq : Has next ρ q (opClass width) (quotient isSigned X c)) :
    Computes (finish smullDivDisabled isSigned isRem width c x q) next ρ (opClass width)
      (if isRem then remainder isSigned X c else quotient isSigned X c) := by
  unfold finish
  cases isRem with
  | false => exact .pure hq
  | true =>
    rw [if_pos rfl, remainder_eq]
    simp only [Bool.not_true, Bool.false_eq_true, if_false]
    generalize quotient isSigned X c = Q at hq
    have hbits := bits_opClass width
    split
    next k heq =>
      obtain ⟨hk, hkw, ha⟩ := mersenne_spec heq
      refine .definePair rfl rfl ⟨rfl, hk, by dsimp only; omega⟩ ⟨rfl, trivial⟩
        (hq.value_subShift hq _) fun n σ hn hσ ht => ?_
      rw [mul_divisor_eq ha, if_pos rfl]
      split
      · rw [(hx.keep hn hσ).value_sub ht]
        ring
      rw [(hx.keep hn hσ).value_add ht]
      ring
    next k heq =>
      obtain ⟨hk, hkw, ha⟩ := mersenne_spec heq
      rw [mul_divisor_eq ha, if_neg Bool.false_ne_true]
      split
      · refine .definePair rfl rfl ⟨rfl, trivial⟩ ⟨rfl, hk, by dsimp only; omega⟩
          (hx.value_add hq _) fun n σ hn hσ hu => ?_
        rw [hu.value_addShift (hq.keep hn hσ)]
        ring
      refine .definePair rfl rfl ⟨rfl, trivial⟩ ⟨rfl, hk, by dsimp only; omega⟩
        (hx.value_sub hq _) fun n σ hn hσ hu => ?_
      rw [hu.value_subShift (hq.keep hn hσ)]
      ring
    · refine .bind (Computes.magicMat _) fun cimm n1 t1 hn1 hk1 hcimm => ?_
      have hword : BitVec.ofInt (opClass width).bits
          (if isSigned ∨ width = .w64 then c.toInt else c.toNat) = c := by
        split
        · exact BitVec.ofInt_toInt
        · exact ofInt_interpret false c
      rw [hword] at hcimm
      refine Computes.define rfl trivial ((view_setWidth ..).trans ?_)
      rw [← (hx.keep hn1 hk1).view_eq, ← (hq.keep hn1 hk1).view_eq, ← hcimm.view_eq]
      rfl

theorem tryConstDivRem_delivers (imm : BitVec 64) (hx : Has next ρ x (opClass width) X) :
    OptComputes (tryConstDivRem smullDivDisabled isSigned isRem width imm x) next ρ (opClass width)
      (if isRem then remainder isSigned X (view (opClass width) imm)
      else quotient isSigned X (view (opClass width) imm)) := by
  unfold tryConstDivRem
  dsimp only
  generalize view (opClass width) imm = c
  split
  · exact .pure fun q hq => nomatch hq
  split
  · exact .pure fun q hq => nomatch hq
  rename_i hsigned hunsigned
  have hfinish : ∀ q n t, next ≤ n → (∀ r < next, target.reg t r = target.reg ρ r) →
      Has n t q (opClass width) (quotient isSigned X c) →
      OptComputes (some <$> finish smullDivDisabled isSigned isRem width c x q) n t (opClass width)
        (if isRem then remainder isSigned X c else quotient isSigned X c) := by
    intro q n t hn hkeep hq
    exact .map (finish_delivers smullDivDisabled isSigned isRem (hx.keep hn hkeep) hq)
      fun r n t hr r' hr' => Option.some.inj hr' ▸ hr
  split
  next hpow =>
    have hone : 2 ≤ magnitude isSigned c := by
      cases isSigned with
      | false =>
        simp only [Bool.not_false, true_and] at hunsigned
        exact Nat.lt_of_not_le hunsigned
      | true =>
        simp only [true_and, not_or] at hsigned
        rw [magnitude, if_pos rfl]
        omega
    have hk : 1 ≤ (magnitude isSigned c).log2 := (Nat.le_log2 (by omega)).mpr hone
    exact .bind (Computes.powQuotient isSigned hk (isPowerOfTwo_eq hpow) hx) hfinish
  · have hc : isSigned = false → 1 < c.toNat := by
      rintro rfl
      simpa using hunsigned
    refine .bind (magicQuotient_delivers smullDivDisabled isSigned hc hx)
      fun r n t hn hkeep hr => ?_
    cases r with
    | none => exact .pure fun q hq => nomatch hq
    | some q => exact hfinish q n t hn hkeep (hr q rfl)

end

end

/-- **Division by a constant.**  When the selector answers with a register, it has appended
instructions that the encoder accepts; from any register file they keep the registers in use
and leave the quotient, rounded towards zero, or the remainder of the dividend in that
register, whatever the other registers hold. -/
theorem tryConstDivRem_computes (smullDivDisabled isSigned isRem : Bool) (width : MagicWidth)
    (imm : BitVec 64) {x q : VReg} {next : ℕ} (hx : x.id < next) (code : List Inst)
    (h : (tryConstDivRem smullDivDisabled isSigned isRem width imm x ⟨next, code⟩).1 = some q) :
    ∃ new, (tryConstDivRem smullDivDisabled isSigned isRem width imm x ⟨next, code⟩).2.code
        = code ++ new
      ∧ (∀ i ∈ new, i.Encodes)
      ∧ ∀ ρ : Regs, (∀ r < next, target.exec new ρ r = ρ r)
        ∧ view (opClass width) (target.exec new ρ q.id)
          = if isRem then
              remainder isSigned (view (opClass width) (ρ x.id)) (view (opClass width) imm)
            else quotient isSigned (view (opClass width) (ρ x.id)) (view (opClass width) imm) := by
  have hrun : ∀ ρ : Regs, _ := fun ρ => tryConstDivRem_delivers smullDivDisabled isSigned isRem imm
      (⟨hx, rfl⟩ : Has next ρ x (opClass width) (view (opClass width) (ρ x.id))) code
  obtain ⟨new, hcode, hvalid, -⟩ := hrun fun _ => 0
  refine ⟨new, hcode, hvalid, fun ρ => ?_⟩
  obtain ⟨new', hcode', -, -, hkeep, hq⟩ := hrun ρ
  obtain rfl : new = new' := List.append_cancel_left (hcode.symm.trans hcode')
  exact ⟨hkeep, (hq q h).view_eq⟩

/-- The remainder by `-7` at 32 bits, of the dividend in register 0. -/
theorem tryConstDivRem_computes_neg_seven :
    (0 < 1 ∧ (tryConstDivRem false true true .w32 (-7) ⟨0, .gpr32⟩ ⟨1, []⟩).1
      = some ⟨8, .gpr32⟩) ∧
    ∃ new, (tryConstDivRem false true true .w32 (-7) ⟨0, .gpr32⟩ ⟨1, []⟩).2.code = [] ++ new
      ∧ (∀ i ∈ new, i.Encodes)
      ∧ ∀ ρ : Regs, (∀ r < 1, target.exec new ρ r = ρ r)
        ∧ view .gpr32 (target.exec new ρ 8)
          = remainder true (view .gpr32 (ρ 0)) (view .gpr32 (-7)) :=
  ⟨⟨by decide, by decide +kernel⟩,
    tryConstDivRem_computes false true true .w32 (-7) (x := ⟨0, .gpr32⟩)
      (q := ⟨8, .gpr32⟩) Nat.zero_lt_one []
      (by decide +kernel)⟩

end TrustCg.Lower.A64
