import TrustCg.Lower.ConstDiv

/-!
# The quotient by a constant

Each form of the quotient computes it: the shifts for a power of two, the long multiply, and
the multiply in 64-bit registers, signed and unsigned.

* `Computes.powQuotient` : powers of two.
* `toInt_corrected` : the signed high product after its correction and shift is exact.
* `magicQuotient_delivers` : a candidate that is accepted gives the quotient.
* `evalMagicS_eq_tdiv` : so does the sequence that x86 composes from unsigned multiplies.
-/

namespace TrustCg.Lower.A64

open Emission SignedWords BitVec

/-! ## The unsigned quotient -/

variable {width : MagicWidth} {cls : RegClass} {next : ℕ} {ρ : Regs} {x mulhi : VReg}

section

variable {d : ℕ} {m : MagicU} {a product : VReg} {X c : BitVec 32} {w magic : ℕ} {x64 : VReg}

theorem Computes.narrow (width : MagicWidth) {v : BitVec (opClass width).bits}
    (h : Has next ρ a (opClass width) v) : Computes (narrow width a) next ρ (opClass width) v := by
  unfold A64.narrow
  split
  next hw =>
    obtain rfl := hw.1
    exact .define rfl trivial ((view_setWidth ..).trans h.view_eq)
  · exact .pure h

theorem Computes.addBack {X H : BitVec cls.bits} {s : ℕ} (hx : Has next ρ x cls X)
    (hm : Has next ρ mulhi cls H) (hs : 1 ≤ s) (hle : s ≤ cls.bits) :
    Computes (addBack cls x mulhi s) next ρ cls ((H + (X - H) >>> 1) >>> (s - 1)) := by
  refine .bind (Computes.sub hx hm) fun sub n1 t1 hn1 hk1 hsub => ?_
  refine .bind (Computes.lsr hsub (by cases cls <;> decide))
    fun sub1 n2 t2 hn2 hk2 hsub1 => ?_
  refine .bind (Computes.add ((hm.keep hn1 hk1).keep hn2 hk2) hsub1)
    fun t n3 t3 _ _ ht => ?_
  split
  next hone =>
    subst hone
    exact .pure ht
  · exact Computes.lsr ht (by omega)

theorem toNat_addBack (X H : BitVec w) (s : ℕ) : ((H + (X - H) >>> 1) >>> (s - 1)).toNat
      = (H.toNat + (X.toNat + 2 ^ w - H.toNat) % 2 ^ w / 2) % 2 ^ w / 2 ^ (s - 1) := by
  rw [toNat_ushiftRight, toNat_add, toNat_ushiftRight, toNat_sub,
    Nat.shiftRight_eq_div_pow, Nat.shiftRight_eq_div_pow, pow_one,
    show 2 ^ w - H.toNat + X.toNat = X.toNat + 2 ^ w - H.toNat by omega]

theorem high_lt (hmagic : magic < 2 ^ 32) :
    X.toNat * magic < 2 ^ 64 ∧ X.toNat * magic / 2 ^ 32 < 2 ^ 32 := by
  have hprod : X.toNat * magic < 2 ^ 32 * 2 ^ 32 := Nat.mul_lt_mul'' X.isLt hmagic
  exact ⟨hprod, Nat.div_lt_of_lt_mul hprod⟩

theorem evalMagic_eq_cases {X : ℕ} (hX : X < 2 ^ width.bits) (hm : AcceptedU d m width) :
    evalMagic X m width = if m.add then
        (X * m.magic / 2 ^ width.bits
          + (X + 2 ^ width.bits - X * m.magic / 2 ^ width.bits) % 2 ^ width.bits / 2)
            % 2 ^ width.bits / 2 ^ (m.shift - 1)
      else X * m.magic / 2 ^ width.bits / 2 ^ m.shift := by
  unfold evalMagic
  simp only [Nat.mod_eq_of_lt hX, Nat.mod_eq_of_lt hm.magic_lt]

theorem Computes.umagicTail32 (hm : AcceptedU c.toNat m .w32) (hx : Has next ρ x .gpr32 X)
    (hp : Has next ρ product .gpr64 (BitVec.ofNat 64 (X.toNat * m.magic))) :
    Computes (umagicTail32 m x product) next ρ .gpr32 (quotient false X c) := by
  obtain ⟨hprod, hhigh⟩ := high_lt (X := X) hm.magic_lt
  have heval := hm.eval X.toNat X.isLt
  rw [evalMagic_eq_cases X.isLt hm] at heval
  unfold A64.umagicTail32
  cases hadd : m.add with
  | false =>
    have hs : m.shift < 32 := hm.shift_lt hadd
    rw [hadd] at heval
    refine (Computes.low (Computes.lsr hp (show 32 + m.shift < 64 by omega))).of_eq ?_
    apply eq_quotient_of_toNat
    rw [toNat_setWidth, toNat_ushiftRight, toNat_ofNat,
      Nat.mod_eq_of_lt hprod, Nat.shiftRight_eq_div_pow, pow_add, ← Nat.div_div_eq_div_mul]
    exact (Nat.mod_eq_of_lt (Nat.lt_of_le_of_lt (Nat.div_le_self ..) hhigh)).trans heval
  | true =>
    rw [hadd] at heval
    refine .bind (Computes.lsr hp (show 32 < 64 by decide))
      fun mulhi64 n1 t1 hn1 hk1 hmulhi64 => ?_
    refine .bind (Computes.narrow .w32 hmulhi64.low)
      fun mulhi n2 t2 hn2 hk2 hmulhi => ?_
    refine (Computes.addBack ((hx.keep hn1 hk1).keep hn2 hk2) hmulhi (hm.shift_pos hadd)
      hm.shift_le).of_eq ?_
    have hH : ((BitVec.ofNat 64 (X.toNat * m.magic) >>> 32).setWidth 32).toNat
        = X.toNat * m.magic / 2 ^ 32 := by
      rw [toNat_setWidth, toNat_ushiftRight, toNat_ofNat,
        Nat.mod_eq_of_lt hprod, Nat.shiftRight_eq_div_pow, Nat.mod_eq_of_lt hhigh]
    apply eq_quotient_of_toNat
    rw [toNat_addBack, hH]
    exact heval

theorem Computes.umagicTail64 {X c : BitVec 64} (hm : AcceptedU c.toNat m .w64)
    (hx : Has next ρ x .gpr64 X)
    (hp : Has next ρ mulhi .gpr64 (BitVec.ofNat 64 (X.toNat * m.magic / 2 ^ 64))) :
    Computes (umagicTail64 m x mulhi) next ρ .gpr64 (quotient false X c) := by
  have hprod : X.toNat * m.magic < 2 ^ 64 * 2 ^ 64 := Nat.mul_lt_mul'' X.isLt hm.magic_lt
  have hH : (BitVec.ofNat 64 (X.toNat * m.magic / 2 ^ 64)).toNat = X.toNat * m.magic / 2 ^ 64 := by
    rw [toNat_ofNat, Nat.mod_eq_of_lt (Nat.div_lt_of_lt_mul hprod)]
  have heval := hm.eval X.toNat X.isLt
  rw [evalMagic_eq_cases X.isLt hm] at heval
  unfold A64.umagicTail64
  cases hadd : m.add with
  | false =>
    rw [hadd] at heval
    have hvalue : BitVec.ofNat 64 (X.toNat * m.magic / 2 ^ 64) >>> m.shift
        = quotient false X c := by
      apply eq_quotient_of_toNat
      rw [toNat_ushiftRight, hH, Nat.shiftRight_eq_div_pow]
      exact heval
    rw [← hvalue]
    simp only [Bool.not_false, if_true]
    split
    next hzero =>
      rw [hzero, ushiftRight_zero]
      exact .pure hp
    · exact .lsr hp (hm.shift_lt hadd)
  | true =>
    rw [hadd] at heval
    refine (Computes.addBack hx hp (hm.shift_pos hadd) hm.shift_le).of_eq ?_
    apply eq_quotient_of_toNat
    rw [toNat_addBack, hH]
    exact heval

theorem ofInt_toInt_magic {b : ℕ} (h : magic < 2 ^ w) (hwb : w ≤ b) :
    (BitVec.ofInt b (BitVec.ofNat b magic).toInt).toNat = magic := by
  rw [ofInt_toInt, toNat_ofNat,
    Nat.mod_eq_of_lt (Nat.lt_of_lt_of_le h (Nat.pow_le_pow_right (by decide) hwb))]

theorem Computes.umullQuotient (hm : AcceptedU c.toNat m .w32) (hx : Has next ρ x .gpr32 X) :
    Computes (umullQuotient m x) next ρ .gpr32 (quotient false X c) := by
  refine .bind (Computes.magicMat _) fun mm n1 t1 hn1 hk1 hmm => ?_
  have hx1 := hx.keep hn1 hk1
  refine .bind (Computes.umull hx1 hmm) fun xp n2 t2 hn2 hk2 hxp => ?_
  have hx2 := hx1.keep hn2 hk2
  rw [ofInt_toInt_magic hm.magic_lt (Nat.le_refl 32)] at hxp
  refine .bind (Computes.umagicTail32 hm hx2 hxp) fun q n3 t3 _ _ hq => ?_
  exact Computes.narrow .w32 hq

/-- The 64-bit image of a dividend. -/
def extend (isSigned : Bool) (width : MagicWidth) (X : BitVec (opClass width).bits) : BitVec 64 :=
  if isSigned then X.signExtend 64 else X.setWidth 64

theorem Computes.widen (isSigned : Bool) {X : BitVec (opClass width).bits}
    (hx : Has next ρ x (opClass width) X) :
    Computes (widen width isSigned x) next ρ .gpr64 (extend isSigned width X) := by
  unfold A64.widen extend
  cases width with
  | w32 =>
    refine .define rfl trivial ?_
    rw [view_gpr64, ← hx.view_eq]
    cases isSigned <;> rfl
  | w64 =>
    have hsame : (if isSigned then X.signExtend 64 else X.setWidth 64) = X := by
      cases isSigned with
      | false => exact setWidth_eq X
      | true => exact signExtend_eq X
    rw [hsame]
    exact .pure hx

section

variable {X c : BitVec (opClass width).bits} (hm : AcceptedU c.toNat m width)
    (hx : Has next ρ x (opClass width) X) (hx64 : Has next ρ x64 .gpr64 (extend false width X))
include hm hx hx64

theorem Computes.umagicProduct {mm : VReg}
    (hmm : Has next ρ mm .gpr64 (BitVec.ofInt 64 (BitVec.ofNat 64 m.magic).toInt)) :
    Computes (umagicProduct width m x x64 mm) next ρ (opClass width) (quotient false X c) := by
  have hmagic := ofInt_toInt_magic hm.magic_lt width.bits_le
  cases width with
  | w32 =>
    refine .bind (Computes.mul hx64 hmm) fun xp n1 t1 hn1 hk1 hxp => ?_
    have hprod : extend false .w32 X * BitVec.ofInt 64 (BitVec.ofNat 64 m.magic).toInt
        = BitVec.ofNat 64 (X.toNat * m.magic) := by
      apply eq_of_toNat_eq
      rw [toNat_mul, hmagic, toNat_ofNat, extend, if_neg (by decide),
        toNat_setWidth_of_le (by decide)]
    rw [hprod] at hxp
    exact Computes.umagicTail32 hm (hx.keep hn1 hk1) hxp
  | w64 =>
    refine .bind (Computes.umulh hx64 hmm) fun mulhi n1 t1 hn1 hk1 hmulhi => ?_
    have hsame : extend false .w64 X = X := setWidth_eq X
    rw [hmagic, hsame] at hmulhi
    rw [hsame] at hx64
    exact Computes.umagicTail64 hm (hx64.keep hn1 hk1) hmulhi

theorem Computes.umagicQuotient :
    Computes (umagicQuotient width m x x64) next ρ (opClass width) (quotient false X c) := by
  refine .bind (Computes.magicMat _) fun mm n1 t1 hn1 hk1 hmm => ?_
  refine .bind (Computes.umagicProduct hm (hx.keep hn1 hk1) (hx64.keep hn1 hk1) hmm)
    fun q n2 t2 _ _ hq => ?_
  exact Computes.narrow width hq

end

end

/-! ## The signed quotient -/

section

variable {d : ℤ} {m : MagicS}

section

variable {b : ℕ} {X H : BitVec b}

/-- **The signed quotient before rounding.**  Neither the correction nor the shift leaves the
operation width, so the words compute the exact number. -/
theorem toInt_corrected (hm : AcceptedS d m width) (hwb : width.bits ≤ b)
    (hX : -2 ^ (width.bits - 1) ≤ X.toInt) (hX' : X.toInt < 2 ^ (width.bits - 1))
    (hH : H.toInt = X.toInt * m.magic / 2 ^ width.bits) :
    ((H + BitVec.ofInt b (m.correction d) * X).sshiftRight m.shift).toInt
      = X.toInt * (m.magic + m.correction d * 2 ^ width.bits) / 2 ^ (width.bits + m.shift) := by
  have hw : 2 ≤ width.bits := by cases width <;> decide
  have hpos : (0 : ℤ) < 2 ^ (width.bits - 1) := by positivity
  have habs : |X.toInt| ≤ 2 ^ (width.bits - 1) := abs_le.mpr ⟨hX, hX'.le⟩
  obtain ⟨hlow, hhigh⟩ := ediv_range habs hm.abs_lt hpos le_rfl
  have hpow : (2 : ℤ) * 2 ^ (width.bits - 1) ≤ ((2 ^ b : ℕ) : ℤ) := by
    rw [← pow_succ']
    exact pow_le_pow_right₀ (by decide) (by omega)
  have hsum : (H + BitVec.ofInt b (m.correction d) * X).toInt
      = X.toInt * (m.magic + m.correction d * 2 ^ width.bits) / 2 ^ width.bits := by
    have hword : H + BitVec.ofInt b (m.correction d) * X
        = BitVec.ofInt b (X.toInt * (m.magic + m.correction d * 2 ^ width.bits)
            / 2 ^ width.bits) := by
      rw [show X.toInt * (m.magic + m.correction d * 2 ^ width.bits)
          = X.toInt * m.magic + m.correction d * X.toInt * 2 ^ width.bits by ring,
        Int.add_mul_ediv_right _ _ (by positivity), ← hH, ofInt_add, ofInt_mul,
        ofInt_toInt, ofInt_toInt]
    rw [hword, toInt_ofInt]
    apply Int.bmod_eq_of_le_mul_two
    · linarith
    · linarith
  rw [toInt_sshiftRight_eq, hsum, Int.ediv_ediv_of_nonneg (by positivity), ← pow_add]

theorem add_correction_mul : H + BitVec.ofInt b (m.correction d) * X
    = if 0 < d ∧ m.magic < 0 then H + X else if d < 0 ∧ 0 < m.magic then H - X else H := by
  unfold MagicS.correction
  split
  · rw [BitVec.ofInt_ofNat, BitVec.one_mul]
  split
  · rw [BitVec.ofInt_neg, BitVec.ofInt_ofNat, BitVec.neg_mul, BitVec.one_mul, sub_eq_add_neg]
  · rw [BitVec.ofInt_ofNat, BitVec.zero_mul, BitVec.add_zero]

end

theorem Computes.smagicTail {X H : BitVec cls.bits} (hx : Has next ρ x cls X)
    (hmulhi : Has next ρ mulhi cls H) (hs : m.shift < cls.bits) :
    Computes (smagicTail cls d m x mulhi) next ρ cls
      ((H + BitVec.ofInt cls.bits (m.correction d) * X).sshiftRight m.shift) := by
  have hcorr : Computes (signCorrection cls d m x mulhi) next ρ cls
      (H + BitVec.ofInt cls.bits (m.correction d) * X) := by
    rw [add_correction_mul]
    unfold signCorrection
    split
    · exact .add hmulhi hx
    split
    · exact .sub hmulhi hx
    · exact .pure hmulhi
  refine .bind hcorr fun corrected n1 t1 _ _ hcorrected => ?_
  split
  next hzero =>
    rw [hzero, sshiftRight_zero]
    exact .pure hcorrected
  · exact Computes.asr hcorrected hs

theorem Computes.addSignBit {v : BitVec cls.bits} (h : Has next ρ x cls v) :
    Computes (addSignBit cls x) next ρ cls (v + v >>> (cls.bits - 1)) := by
  refine .bind (Computes.lsr h (by cases cls <;> decide)) fun sb n1 t1 hn1 hk1 hsb => ?_
  exact Computes.add (h.keep hn1 hk1) hsb

theorem toInt_range (c : BitVec (opClass width).bits) :
    -2 ^ (width.bits - 1) ≤ c.toInt ∧ c.toInt < 2 ^ (width.bits - 1) := by
  rw [← bits_opClass width]
  exact ⟨le_toInt c, toInt_lt⟩

theorem quotient_of_rounded (hm : AcceptedS d m width) {X c v : BitVec (opClass width).bits}
    (hc : c.toInt = d) (hv : v.toInt = X.toInt * (m.magic + m.correction d * 2 ^ width.bits)
      / 2 ^ (width.bits + m.shift)) : v + v >>> ((opClass width).bits - 1) = quotient true X c := by
  apply eq_quotient_of_toInt
  rw [toInt_add_signBit v (by cases width <;> decide), hv, hc]
  exact hm.eval _ (toInt_range X).1 (toInt_range X).2

theorem mul_range {z e : ℤ} (hz : -2 ^ 31 ≤ z) (hz' : z < 2 ^ 31) (he : -2 ^ 31 ≤ e)
    (he' : e < 2 ^ 31) : -2 ^ 63 ≤ z * e ∧ z * e < 2 ^ 63 := by
  constructor <;> nlinarith

theorem Computes.smullQuotient {X c : BitVec 32} (hm : AcceptedS c.toInt m .w32)
    (hx : Has next ρ x .gpr32 X) :
    Computes (smullQuotient c.toInt m x) next ρ .gpr32 (quotient true X c) := by
  have hX : -2 ^ 31 ≤ X.toInt := le_toInt X
  have hX' : X.toInt < 2 ^ 31 := toInt_lt
  obtain ⟨hlow, hhigh⟩ := mul_range hX hX' hm.magic_low hm.magic_high
  have hmagic : (BitVec.ofInt 32 m.magic).toInt = m.magic :=
    toInt_ofInt_eq_self (by decide) hm.magic_low hm.magic_high
  refine .bind (Computes.magicMat _) fun mm n1 t1 hn1 hk1 hmm => ?_
  have hx1 := hx.keep hn1 hk1
  refine .bind (Computes.smull hx1 hmm) fun xp n2 t2 hn2 hk2 hxp => ?_
  have hx2 := hx1.keep hn2 hk2
  refine .bind (Computes.lsr hxp (show 32 < 64 by decide))
    fun mulhi n3 t3 hn3 hk3 hmulhi => ?_
  refine .bind (Computes.smagicTail (d := c.toInt) (m := m) (hx2.keep hn3 hk3) hmulhi.low
    hm.shift_lt) fun shifted n4 t4 _ _ hshifted => ?_
  refine (Computes.addSignBit hshifted).of_eq (quotient_of_rounded hm rfl ?_)
  apply toInt_corrected hm (Nat.le_refl 32) hX hX'
  rw [toInt_high, hmagic, toInt_ofInt_eq_self (by decide) hlow hhigh]
  rfl

theorem toInt_extend (X : BitVec (opClass width).bits) : (extend true width X).toInt = X.toInt :=
  toInt_signExtend_of_le (opClass width).bits_le

theorem extend_eq_ofInt (X : BitVec (opClass width).bits) :
    extend true width X = BitVec.ofInt 64 X.toInt := by
  rw [← toInt_extend, ofInt_toInt]

theorem Computes.smulhi {X : BitVec (opClass width).bits} {x64 mm : VReg} (hm : AcceptedS d m width)
    (hx64 : Has next ρ x64 .gpr64 (extend true width X))
    (hmm : Has next ρ mm .gpr64 (BitVec.ofInt 64 m.magic)) :
    ∃ H : BitVec 64, H.toInt = X.toInt * m.magic / 2 ^ width.bits
      ∧ Computes (smulhi width x64 mm) next ρ .gpr64 H := by
  cases width with
  | w32 =>
    have hX : -2 ^ 31 ≤ X.toInt := le_toInt X
    have hX' : X.toInt < 2 ^ 31 := toInt_lt
    obtain ⟨hlow, hhigh⟩ := mul_range hX hX' hm.magic_low hm.magic_high
    refine ⟨_, ?_, Computes.bind (Computes.mul hx64 hmm) fun xp n1 t1 _ _ hxp =>
      Computes.asr hxp (show 32 < 64 by decide)⟩
    rw [toInt_sshiftRight_eq, extend_eq_ofInt, ← ofInt_mul,
      toInt_ofInt_eq_self (by decide) hlow hhigh]
    rfl
  | w64 =>
    have hX : |X.toInt| ≤ 2 ^ 63 := abs_le.mpr ⟨le_toInt X, toInt_lt.le⟩
    have hM : |m.magic| < 2 ^ 64 := by
      have hlow : -2 ^ 63 ≤ m.magic := hm.magic_low
      have hhigh : m.magic < 2 ^ 63 := hm.magic_high
      rw [abs_lt]
      omega
    obtain ⟨hlow, hhigh⟩ := ediv_range hX hM (by decide) le_rfl
    have hmagic : (BitVec.ofInt 64 m.magic).toInt = m.magic :=
      toInt_ofInt_eq_self (by decide) hm.magic_low hm.magic_high
    refine ⟨_, ?_, Computes.smulh hx64 hmm⟩
    rw [toInt_extend, hmagic]
    exact toInt_ofInt_eq_self (by decide) hlow hhigh

/-- A 64-bit register whose number fits the operation width, read at that width. -/
theorem Has.atWidth (width : MagicWidth) {r : VReg} {V : BitVec 64} (h : Has next ρ r .gpr64 V)
    (hlow : -2 ^ (width.bits - 1) ≤ V.toInt) (hhigh : V.toInt < 2 ^ (width.bits - 1)) :
    ∃ v : BitVec (opClass width).bits, v.toInt = V.toInt ∧ Has next ρ r (opClass width) v := by
  cases width with
  | w32 =>
    exact ⟨V.setWidth 32, toInt_setWidth_of_range (by decide) (by decide) V hlow hhigh, h.low⟩
  | w64 => exact ⟨V, rfl, h⟩

theorem Computes.smagicQuotient {X c : BitVec (opClass width).bits} {x64 : VReg}
    (hm : AcceptedS c.toInt m width) (hx64 : Has next ρ x64 .gpr64 (extend true width X)) :
    Computes (smagicQuotient width c.toInt m x64) next ρ (opClass width) (quotient true X c) := by
  obtain ⟨hX, hX'⟩ := toInt_range X
  refine .bind (Computes.magicMat _) fun mm n1 t1 hn1 hk1 hmm => ?_
  have hx1 := hx64.keep hn1 hk1
  obtain ⟨H, hH, hmulhi⟩ := Computes.smulhi hm hx1 hmm
  refine .bind hmulhi fun mulhi n2 t2 hn2 hk2 hmulhi => ?_
  refine .bind (Computes.smagicTail (d := c.toInt) (m := m) (hx1.keep hn2 hk2) hmulhi
    (Nat.lt_of_lt_of_le hm.shift_lt width.bits_le)) fun shifted64 n3 t3 _ _ hshifted64 => ?_
  have hvalue := toInt_corrected (X := extend true width X) (H := H) hm width.bits_le
    (by rwa [toInt_extend]) (by rwa [toInt_extend]) (by rwa [toInt_extend])
  rw [toInt_extend] at hvalue
  obtain ⟨hlow, hhigh⟩ := ediv_range (abs_le.mpr ⟨hX, hX'.le⟩) hm.abs_lt (by positivity)
    (pow_le_pow_right₀ (by decide) (Nat.le_add_right width.bits m.shift))
  obtain ⟨v, hv, hshifted⟩ := hshifted64.atWidth width (by rwa [hvalue]) (by rwa [hvalue])
  refine .bind (Computes.narrow width hshifted) fun shifted n4 t4 _ _ hshifted => ?_
  exact (Computes.addSignBit hshifted).of_eq (quotient_of_rounded hm rfl (hv.trans hvalue))

end

/-! ## The quotient -/

section

variable {X c : BitVec (opClass width).bits}

theorem magnitude_lt (isSigned : Bool) {w : ℕ} (hw : 1 ≤ w) (c : BitVec w) :
    magnitude isSigned c < 2 ^ w := by
  cases isSigned with
  | false => exact c.isLt
  | true =>
    have hlow : -2 ^ (w - 1) ≤ c.toInt := le_toInt c
    have hhigh : c.toInt < 2 ^ (w - 1) := toInt_lt
    have hlt : (2 : ℤ) ^ (w - 1) < 2 ^ w := pow_lt_pow_right₀ (by decide) (by omega)
    rw [magnitude, if_pos rfl]
    zify
    rw [abs_lt]
    constructor <;> linarith

/-- **Powers of two.** -/
theorem Computes.powQuotient (isSigned : Bool) {k : ℕ} (hk : 1 ≤ k)
    (hpow : magnitude isSigned c = 2 ^ k) (hx : Has next ρ x (opClass width) X) :
    Computes (powQuotient (opClass width) isSigned (decide (c.toInt < 0)) x k) next ρ
      (opClass width) (quotient isSigned X c) := by
  have hkw : k < (opClass width).bits := by
    have hlt := magnitude_lt isSigned (by cases width <;> decide) c
    rw [hpow] at hlt
    exact (Nat.pow_lt_pow_iff_right (by decide)).mp hlt
  unfold A64.powQuotient
  cases isSigned with
  | false =>
    have hc : c.toNat = 2 ^ k := hpow
    refine (Computes.lsr hx hkw).of_eq (eq_quotient_of_toNat ?_)
    rw [toNat_ushiftRight, Nat.shiftRight_eq_div_pow, hc]
  | true =>
    have hc : (c.toInt.natAbs : ℤ) = 2 ^ k := by exact_mod_cast hpow
    have hvalue := biased_shift_toInt X hk hkw
    refine .bind (Computes.asr hx (by omega)) fun t1 n1 s1 hn1 hk1 ht1 => ?_
    refine .bind (Computes.lsr ht1 (by omega)) fun t2 n2 s2 hn2 hk2 ht2 => ?_
    refine .bind (Computes.add ((hx.keep hn1 hk1).keep hn2 hk2) ht2)
      fun sum n3 s3 _ _ hsum => ?_
    refine .bind (Computes.asr hsum hkw) fun q n4 s4 _ _ hq => ?_
    by_cases hneg : c.toInt < 0
    · rw [decide_eq_true hneg, if_pos rfl]
      refine (Computes.neg hq).of_eq ?_
      rw [quotient, interpret, interpret, if_pos rfl, if_pos rfl,
        show c.toInt = -2 ^ k by omega, Int.tdiv_neg, ← hvalue, ofInt_neg, ofInt_toInt]
    rw [decide_eq_false hneg, if_neg (by decide)]
    refine (Computes.pure hq).of_eq (eq_quotient_of_toInt ?_)
    rw [hvalue, show c.toInt = 2 ^ k by omega]

/-- The result of a selector that may decline. -/
def OptComputes (act : SelM (Option VReg)) (next : ℕ) (ρ : Regs) (cls : RegClass)
    (v : BitVec cls.bits) : Prop :=
  Delivers target act next ρ fun r n t => ∀ q, r = some q → Has n t q cls v

theorem OptComputes.onCandidate {M : Type} {cls : RegClass} {candidate : Option M}
    {act : M → SelM VReg} {v : BitVec cls.bits}
    (h : ∀ m, candidate = some m → Computes (act m) next ρ cls v) :
    OptComputes (onCandidate candidate act) next ρ cls v := by
  cases candidate with
  | none => exact .pure fun q hq => nomatch hq
  | some m => exact .map (h m rfl) fun q n t hq r hr => Option.some.inj hr ▸ hq

/-- **Reciprocals.**  A candidate that is accepted gives the quotient. -/
theorem magicQuotient_delivers (smullDivDisabled isSigned : Bool)
    (hc : isSigned = false → 1 < c.toNat) (hx : Has next ρ x (opClass width) X) :
    OptComputes (magicQuotient smullDivDisabled isSigned width c x) next ρ (opClass width)
      (quotient isSigned X c) := by
  have hcw : c.toNat < 2 ^ width.bits := by
    rw [← bits_opClass width]
    exact c.isLt
  obtain ⟨hlow, hhigh⟩ := toInt_range c
  unfold magicQuotient
  split
  next hw =>
    obtain rfl := hw.1
    cases isSigned with
    | false =>
      refine .onCandidate fun m hm => ?_
      exact .umullQuotient (acceptU_sound (hc rfl) hcw hm) hx
    | true =>
      refine .onCandidate fun m hm => ?_
      exact .smullQuotient (acceptS_sound hlow hhigh hm) hx
  · refine .bind (Computes.widen isSigned hx) fun x64 n1 t1 hn1 hk1 hx64 => ?_
    cases isSigned with
    | false =>
      refine OptComputes.onCandidate fun m hm => ?_
      exact Computes.umagicQuotient (acceptU_sound (hc rfl) hcw hm) (hx.keep hn1 hk1) hx64
    | true =>
      refine OptComputes.onCandidate fun m hm => ?_
      exact Computes.smagicQuotient (acceptS_sound hlow hhigh hm) hx64

end

end TrustCg.Lower.A64

namespace TrustCg.Lower

open SignedWords BitVec A64

/-! ## The signed sequence on x86 -/

variable {w : ℕ}

/-- The high word of the signed product, which x86 composes from the unsigned one. -/
def smulhi (x : BitVec w) (magic : ℤ) : BitVec w :=
  let umulhi := BitVec.ofNat w (x.toNat * (BitVec.ofInt w magic).toNat / 2 ^ w)
  let sm := umulhi - (x.sshiftRight (w - 1) &&& BitVec.ofInt w magic)
  if magic < 0 then sm - x else sm

theorem smulhi_eq (x : BitVec w) {magic : ℤ} (hw : 1 ≤ w) (hlow : -2 ^ (w - 1) ≤ magic)
    (hhigh : magic < 2 ^ (w - 1)) : smulhi x magic = BitVec.ofInt w (x.toInt * magic / 2 ^ w) := by
  have hM := toInt_ofInt_eq_self hw hlow hhigh
  have hx := toNat_eq_toInt_add x
  have hm := toNat_eq_toInt_add (BitVec.ofInt w magic)
  have hP : (2 : ℤ) ^ w ≠ 0 := by positivity
  rw [hM] at hm
  unfold smulhi
  rw [sshiftRight_pred_and _ _ hw, ← BitVec.ofInt_natCast]
  push_cast
  rw [hx, hm]
  by_cases hxneg : x.toInt < 0 <;> by_cases hmneg : magic < 0 <;>
    simp only [hxneg, hmneg, if_true, if_false, add_zero]
  · rw [show (x.toInt + 2 ^ w) * (magic + 2 ^ w)
        = x.toInt * magic + (magic + x.toInt + 1 * 2 ^ w) * 2 ^ w by ring,
      Int.add_mul_ediv_right _ _ hP, ← add_assoc, ofInt_add_mul_two_pow, ofInt_add, ofInt_add,
      ofInt_toInt]
    grind
  · rw [show (x.toInt + 2 ^ w) * magic = x.toInt * magic + magic * 2 ^ w by ring,
      Int.add_mul_ediv_right _ _ hP, ofInt_add]
    grind
  · rw [show x.toInt * (magic + 2 ^ w) = x.toInt * magic + x.toInt * 2 ^ w by ring,
      Int.add_mul_ediv_right _ _ hP, ofInt_add, ofInt_toInt]
    grind
  · grind

/-- The quotient that `try_select_magic_sdiv` leaves in its result register. -/
def evalMagicS (d : ℤ) (m : MagicS) (x : BitVec w) : BitVec w :=
  let high := smulhi x m.magic
  let q0 := if 0 < d ∧ m.magic < 0 then high + x
    else if d < 0 ∧ 0 < m.magic then high - x else high
  let q1 := if m.shift = 0 then q0 else q0.sshiftRight m.shift
  q1 + q1 >>> (w - 1)

/-- **An accepted signed candidate divides.**  The words of the sequence hold the truncated
quotient, for every dividend of the width. -/
theorem evalMagicS_eq_tdiv (d : ℤ) (m : MagicS) (width : MagicWidth)
    (hlow : -2 ^ (width.bits - 1) ≤ d) (hhigh : d < 2 ^ (width.bits - 1))
    (hmlow : -2 ^ (width.bits - 1) ≤ m.magic) (hmhigh : m.magic < 2 ^ (width.bits - 1))
    (h : smagicBandHolds d m width = true) (x : BitVec width.bits) :
    (evalMagicS d m x).toInt = x.toInt.tdiv d := by
  have hw : 2 ≤ width.bits := by cases width <;> decide
  have hx : -2 ^ (width.bits - 1) ≤ x.toInt := le_toInt x
  have hx' : x.toInt < 2 ^ (width.bits - 1) := toInt_lt
  have hm := acceptedS_of_band hlow hhigh hmlow hmhigh h
  have hpow : (2 : ℤ) ^ width.bits = 2 * 2 ^ (width.bits - 1) := by
    exact_mod_cast two_pow_bits width
  have hpos : (0 : ℤ) < 2 ^ (width.bits - 1) := by positivity
  have hrange := ediv_range (abs_le.mpr ⟨hx, hx'.le⟩)
    (abs_lt.mpr ⟨by linarith, by linarith⟩ : |m.magic| < 2 ^ width.bits) hpos le_rfl
  have hhigh' := toInt_ofInt_eq_self (by omega) hrange.1 hrange.2
  have hq := toInt_corrected hm le_rfl hx hx' hhigh'
  rw [add_correction_mul] at hq
  have hshift : ∀ q : BitVec width.bits,
      (if m.shift = 0 then q else q.sshiftRight m.shift) = q.sshiftRight m.shift := by
    intro q
    split
    next hzero => rw [hzero, sshiftRight_zero]
    · rfl
  unfold evalMagicS
  dsimp only
  rw [smulhi_eq x (by omega) hmlow hmhigh, hshift, toInt_add_signBit _ hw, hq]
  exact hm.eval _ hx hx'

theorem evalMagicS_eq_tdiv_seven :
    (evalMagicS 7 ⟨-1840700269, 2⟩ (BitVec.ofInt 32 (-100))).toInt = -14 :=
  evalMagicS_eq_tdiv 7 ⟨-1840700269, 2⟩ .w32 (by decide) (by decide) (by decide) (by decide)
    (by decide +kernel) (BitVec.ofInt 32 (-100))

end TrustCg.Lower
