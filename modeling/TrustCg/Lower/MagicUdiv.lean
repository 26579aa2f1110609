import TrustCg.Lib.Limbs
import TrustCg.Lib.Reciprocal

/-!
# Unsigned division by a magic multiplier

The instruction selector replaces `x / d` for a constant `d` by a multiply and a
shift, after `band_holds` has accepted the multiplier with a hand-written 256-bit
integer.  The module models the integer (`U256`, four 64-bit limbs), the band
check, the evaluation model of the emitted sequence (`evalMagic`) and the
sequence of x86 instructions itself (`emitMagicUdiv`).

* `toNat_wrappingMul`, `toNat_wrappingAdd`, `lt_iff_toNat_lt` : the limb loops
  are exact on every value the check forms.
* `bandHolds_iff_band` : the check decides the band of usable multipliers.
* `bandHolds_iff_evalMagic` : it accepts a candidate exactly when the sequence
  divides every dividend.
* `run_emitMagicUdiv_quotient`, `run_emitMagicUdiv_rem` : the emitted instructions
  compute the quotient, or the remainder, of an accepted candidate.
-/

namespace TrustCg.Lower

open TrustCg.Limbs TrustCg.Reciprocal List
open Function (update update_self)

/-! ## The 256-bit integer -/

/-- `U256`: four little-endian 64-bit limbs. -/
structure U256 where
  limbs : List ℕ
  length_eq : limbs.length = 4
  limb_lt : ∀ l ∈ limbs, l < 2 ^ 64

namespace U256

/-- The number the limbs stand for. -/
def toNat (a : U256) : ℕ := Nat.ofDigits (2 ^ 64) a.limbs

/-- `U256::from_u64`; the argument is cut to 64 bits, as its type does. -/
def fromU64 (v : ℕ) : U256 where
  limbs := [v % 2 ^ 64, 0, 0, 0]
  length_eq := rfl
  limb_lt := by
    intro l hl
    simp only [mem_cons, not_mem_nil, or_false] at hl
    have := Nat.mod_lt v (show 0 < 2 ^ 64 by decide)
    omega

/-- `U256::one_shl`; the source asserts the bound on the shift. -/
def oneShl (shift : ℕ) (h : shift < 256) : U256 where
  limbs := [0, 0, 0, 0].set (shift / 64) (2 ^ (shift % 64))
  length_eq := by simp
  limb_lt := by
    have hbit : 2 ^ (shift % 64) < 2 ^ 64 :=
      Nat.pow_lt_pow_right (by decide) (Nat.mod_lt _ (by decide))
    have hlimb : shift / 64 < 4 := by omega
    intro l hl
    rcases mem_or_eq_of_mem_set hl with hl | rfl
    · simp only [mem_cons, not_mem_nil, or_false] at hl
      omega
    · exact hbit

/-- Addition modulo `2 ^ 256`. -/
def wrappingAdd (a b : U256) : U256 where
  limbs := addChain (2 ^ 64) a.limbs b.limbs 0
  length_eq := by rw [length_addChain _ _ _ _ (a.length_eq.trans b.length_eq.symm), a.length_eq]
  limb_lt := addChain_lt (by decide) _ _ _

/-- Multiplication modulo `2 ^ 256`. -/
def wrappingMul (a b : U256) : U256 where
  limbs := mulRows (2 ^ 64) a.limbs b.limbs [0, 0, 0, 0]
  length_eq := by rw [length_mulRows _ _ _ _ (by simp [b.length_eq])]; rfl
  limb_lt := mulRows_lt (by decide) _ _ _ (by simp)

/-- `Ord::cmp` of the source. -/
def cmp (a b : U256) : Ordering := cmpLimbs a.limbs b.limbs

/-- The `<` that `PartialOrd` derives from `cmp`. -/
def lt (a b : U256) : Bool := a.cmp b == .lt

theorem toNat_fromU64 {v : ℕ} (h : v < 2 ^ 64) : (fromU64 v).toNat = v := by
  simpa [toNat, fromU64, Nat.ofDigits_cons] using h

theorem toNat_oneShl {shift : ℕ} (h : shift < 256) : (oneShl shift h).toNat = 2 ^ shift := by
  have hzeros : (oneShl shift h).toNat
      = Nat.ofDigits (2 ^ 64) ((List.replicate 4 0).set (shift / 64) (2 ^ (shift % 64))) := rfl
  rw [hzeros, ofDigits_set_zeros _ _ _ _ (by omega), ← pow_mul, ← pow_add, Nat.div_add_mod]

theorem toNat_wrappingAdd {a b : U256} (h : a.toNat + b.toNat < 2 ^ 256) :
    (a.wrappingAdd b).toNat = a.toNat + b.toNat := by
  refine ofDigits_addChain_of_lt (by decide) (a.length_eq.trans b.length_eq.symm) ?_
  rw [a.length_eq]
  exact h

theorem toNat_wrappingMul {a b : U256} (h : a.toNat * b.toNat < 2 ^ 256) :
    (a.wrappingMul b).toNat = a.toNat * b.toNat := by
  have hexact := ofDigits_mulRows_of_lt (B := 2 ^ 64) (by decide)
    (a.length_eq.trans b.length_eq.symm) (by rw [a.length_eq]; exact h)
  rw [a.length_eq] at hexact
  exact hexact

theorem lt_iff_toNat_lt (a b : U256) : a.lt b = true ↔ a.toNat < b.toNat := by
  have hcmp := cmpLimbs_eq_compare a.limbs b.limbs (a.length_eq.trans b.length_eq.symm)
    a.limb_lt b.limb_lt
  rw [lt, cmp, hcmp, beq_iff_eq, compare_lt_iff_lt]
  rfl

end U256

/-! ## The band check -/

/-- `MagicU`: a multiplier, a shift and whether the add-back form is used. -/
structure MagicU where
  magic : ℕ
  shift : ℕ
  add : Bool
  deriving DecidableEq, Repr

/-- The widths of the division. -/
inductive MagicWidth
  | w32
  | w64
  deriving DecidableEq, Repr

/-- The number of bits. -/
def MagicWidth.bits : MagicWidth → ℕ
  | .w32 => 32
  | .w64 => 64

theorem MagicWidth.bits_le (width : MagicWidth) : width.bits ≤ 64 := by
  cases width <;> decide

/-- `band_holds`: the exact check of a candidate, in 256-bit arithmetic.  The
callers pass a divisor of the operation width, so the `u128` subtractions do not
wrap. -/
def bandHolds (d : ℕ) (m : MagicU) (width : MagicWidth) : Bool :=
  let w := width.bits
  if m.shift ≥ 64 then false
  else
    if h : w + m.shift ≥ 128 then false
    else
      let mult :=
        if m.add then (U256.fromU64 m.magic).wrappingAdd (U256.oneShl w (by omega))
        else U256.fromU64 m.magic
      let prod := mult.wrappingMul (U256.fromU64 d)
      let lo := U256.oneShl (w + m.shift) (by omega)
      if prod.lt lo then false
      else
        let ones := 2 ^ w - 1
        let nc := U256.fromU64 ((ones - (ones - d + 1) % d) % 2 ^ 64)
        (prod.wrappingMul nc).lt ((lo.wrappingMul nc).wrappingAdd lo)

/-- `eval_magic`: the sequence the selector emits, evaluated on a dividend, at the
width `w` of the registers. -/
def evalMagic (x : ℕ) (m : MagicU) (width : MagicWidth) : ℕ :=
  let w := width.bits
  let x := x % 2 ^ w
  let q := x * (m.magic % 2 ^ w) / 2 ^ w
  if m.add then
    let t := (q + (x + 2 ^ w - q) % 2 ^ w / 2) % 2 ^ w
    t / 2 ^ (m.shift - 1)
  else q / 2 ^ m.shift

/-- A candidate of the operation width, as `magicu` builds them. -/
structure MagicU.Fits (m : MagicU) (width : MagicWidth) : Prop where
  magic_lt : m.magic < 2 ^ width.bits
  shift_lt : m.shift < width.bits
  shift_pos : m.add = true → 1 ≤ m.shift

/-- The multiplier the sequence applies in effect: with add-back it has one bit
more than the register. -/
def MagicU.multiplier (m : MagicU) (width : MagicWidth) : ℕ :=
  if m.add then m.magic + 2 ^ width.bits else m.magic

section

variable {d : ℕ} {m : MagicU} {width : MagicWidth}

theorem MagicU.multiplier_lt (hmagic : m.magic < 2 ^ width.bits) : m.multiplier width < 2 ^ 65 := by
  have hw : 2 ^ width.bits ≤ 2 ^ 64 := Nat.pow_le_pow_right (by decide) width.bits_le
  unfold multiplier
  split <;> omega

theorem toNat_mult (hlt : m.magic < 2 ^ width.bits) (h : width.bits < 256) :
    (if m.add then (U256.fromU64 m.magic).wrappingAdd (U256.oneShl width.bits h)
      else U256.fromU64 m.magic).toNat = m.multiplier width := by
  have hw : 2 ^ width.bits ≤ 2 ^ 64 := Nat.pow_le_pow_right (by decide) width.bits_le
  have hmagic : (U256.fromU64 m.magic).toNat = m.magic := U256.toNat_fromU64 (hlt.trans_le hw)
  unfold MagicU.multiplier
  split
  · rw [U256.toNat_wrappingAdd, hmagic, U256.toNat_oneShl]
    rw [hmagic, U256.toNat_oneShl]
    omega
  · exact hmagic

/-- The dividend the source calls `nc` is the worst one. -/
theorem nc_eq_worstDividend {w : ℕ} (hdw : d < 2 ^ w) :
    2 ^ w - 1 - (2 ^ w - 1 - d + 1) % d = worstDividend (2 ^ w) d := by
  have hrem : (2 ^ w - 1 - d + 1) % d = 2 ^ w % d := by
    have hsplit : 2 ^ w = (2 ^ w - 1 - d + 1) + d := by omega
    conv_rhs => rw [hsplit, Nat.add_mod_right]
  rw [hrem, worstDividend]

/-- The test of the band in 256 bits: the products and the sum are exact. -/
theorem U256.band_iff {M D L n : U256} (hM : M.toNat ≤ 2 ^ 65) (hD : D.toNat < 2 ^ 64)
    (hL : L.toNat ≤ 2 ^ 127) (hn : n.toNat < 2 ^ 64) :
    (M.wrappingMul D).toNat = M.toNat * D.toNat
      ∧ (((M.wrappingMul D).wrappingMul n).lt ((L.wrappingMul n).wrappingAdd L) = true
        ↔ M.toNat * D.toNat * n.toNat < L.toNat * n.toNat + L.toNat) := by
  have hprod : M.toNat * D.toNat ≤ 2 ^ 65 * 2 ^ 64 := Nat.mul_le_mul hM hD.le
  have hprodn : M.toNat * D.toNat * n.toNat ≤ 2 ^ 65 * 2 ^ 64 * 2 ^ 64 := Nat.mul_le_mul hprod hn.le
  have hLn : L.toNat * n.toNat ≤ 2 ^ 127 * 2 ^ 64 := Nat.mul_le_mul hL hn.le
  have hval : (M.wrappingMul D).toNat = M.toNat * D.toNat := toNat_wrappingMul (by omega)
  have hLval : (L.wrappingMul n).toNat = L.toNat * n.toNat := toNat_wrappingMul (by omega)
  refine ⟨hval, ?_⟩
  rw [lt_iff_toNat_lt, toNat_wrappingAdd (by rw [hLval]; omega),
    toNat_wrappingMul (by rw [hval]; omega), hval, hLval]

/-- The check computes the band. -/
theorem bandHolds_iff_band_of_lt (hd : 1 < d) (hdw : d < 2 ^ width.bits)
    (hmagic : m.magic < 2 ^ width.bits) (hshift : m.shift < 64)
    (hsum : width.bits + m.shift < 128) :
    bandHolds d m width = true ↔
      Band (2 ^ width.bits) d (m.multiplier width) (2 ^ (width.bits + m.shift)) := by
  have hbits := width.bits_le
  have hw : 2 ^ width.bits ≤ 2 ^ 64 := Nat.pow_le_pow_right (by decide) hbits
  have hlo : 2 ^ (width.bits + m.shift) ≤ 2 ^ 127 := Nat.pow_le_pow_right (by decide) (by omega)
  have hmult := MagicU.multiplier_lt hmagic
  have hnc := worstDividend_lt (N := 2 ^ width.bits) (by omega : 0 < d) hdw.le
  have hd64 : (U256.fromU64 d).toNat = d := U256.toNat_fromU64 (by omega)
  have hnc64 : (U256.fromU64 (worstDividend (2 ^ width.bits) d)).toNat
      = worstDividend (2 ^ width.bits) d := U256.toNat_fromU64 (by omega)
  have hlo64 : (U256.oneShl (width.bits + m.shift) (by omega)).toNat
      = 2 ^ (width.bits + m.shift) := U256.toNat_oneShl _
  set mult := (if m.add then
      (U256.fromU64 m.magic).wrappingAdd (U256.oneShl width.bits (by omega))
    else U256.fromU64 m.magic) with hmultdef
  have hmultval : mult.toNat = m.multiplier width := toNat_mult hmagic (by omega)
  obtain ⟨hprod, hband⟩ := U256.band_iff (M := mult) (by rw [hmultval]; omega)
    (by rw [hd64]; omega) (by rw [hlo64]; omega) (by rw [hnc64]; omega)
  unfold bandHolds Band
  simp only [ge_iff_le, nc_eq_worstDividend hdw]
  rw [if_neg (by omega), dif_neg (by omega), Nat.mod_eq_of_lt (by omega), ← hmultdef]
  rw [hmultval, hd64] at hprod hband
  split
  next hlt =>
    rw [U256.lt_iff_toNat_lt, hprod, hlo64] at hlt
    simp only [Bool.false_eq_true, false_iff]
    omega
  next hlt =>
    rw [U256.lt_iff_toNat_lt, hprod, hlo64, not_lt] at hlt
    rw [hband, hnc64, hlo64]
    exact (and_iff_right hlt).symm

theorem bandHolds_iff_band (hd : 1 < d) (hdw : d < 2 ^ width.bits) (hm : m.Fits width) :
    bandHolds d m width = true ↔
      Band (2 ^ width.bits) d (m.multiplier width) (2 ^ (width.bits + m.shift)) := by
  have hbits := width.bits_le
  have hshift := hm.shift_lt
  exact bandHolds_iff_band_of_lt hd hdw hm.magic_lt (by omega) (by omega)

/-! ## The emitted sequence -/

/-- Adding back half of the difference is the halved sum, although the sum itself
is one bit longer than the register. -/
theorem add_half_sub_mod {x q N : ℕ} (hq : q ≤ x) (hx : x < N) :
    (q + (x + N - q) % N / 2) % N = (x + q) / 2 := by
  have hsub : (x + N - q) % N = x - q := by
    rw [show x + N - q = x - q + N by omega, Nat.add_mod_right, Nat.mod_eq_of_lt (by omega)]
  rw [hsub, Nat.mod_eq_of_lt (by omega)]
  omega

/-- The sequence evaluates to the scaled product with the effective multiplier. -/
theorem evalMagic_eq_of_lt (hmagic : m.magic < 2 ^ width.bits) (hpos : m.add = true → 1 ≤ m.shift)
    {x : ℕ} (hx : x < 2 ^ width.bits) :
    evalMagic x m width = x * m.multiplier width / 2 ^ (width.bits + m.shift) := by
  have hN : 0 < 2 ^ width.bits := Nat.two_pow_pos _
  have hq : x * m.magic / 2 ^ width.bits ≤ x := by
    refine Nat.div_le_of_le_mul ?_
    rw [Nat.mul_comm (2 ^ width.bits) x]
    exact Nat.mul_le_mul_left x hmagic.le
  unfold evalMagic MagicU.multiplier
  simp only [Nat.mod_eq_of_lt hx, Nat.mod_eq_of_lt hmagic]
  cases hadd : m.add with
  | false => simp only [Bool.false_eq_true, if_false, pow_add, Nat.div_div_eq_div_mul]
  | true =>
    have hs := hpos hadd
    have hsum : x + x * m.magic / 2 ^ width.bits
        = x * (m.magic + 2 ^ width.bits) / 2 ^ width.bits := by
      rw [Nat.mul_add, Nat.add_mul_div_right _ _ hN, Nat.add_comm]
    have hpow : 2 * 2 ^ (m.shift - 1) = 2 ^ m.shift := by rw [← pow_succ']; congr 1; omega
    simp only [if_true]
    rw [add_half_sub_mod hq hx, Nat.div_div_eq_div_mul, hpow, hsum, Nat.div_div_eq_div_mul,
      ← pow_add]

theorem evalMagic_eq (hm : m.Fits width) {x : ℕ} (hx : x < 2 ^ width.bits) :
    evalMagic x m width = x * m.multiplier width / 2 ^ (width.bits + m.shift) :=
  evalMagic_eq_of_lt hm.magic_lt hm.shift_pos hx

/-- **The band check is exact.**  A candidate of the operation width is accepted
precisely when its sequence is the unsigned division by `d` on every dividend. -/
theorem bandHolds_iff_evalMagic (hd : 1 < d) (hdw : d < 2 ^ width.bits) (hm : m.Fits width) :
    bandHolds d m width = true ↔ ∀ x < 2 ^ width.bits, evalMagic x m width = x / d := by
  rw [bandHolds_iff_band hd hdw hm, ← mul_div_eq_div_iff hd hdw (Nat.two_pow_pos _)]
  constructor
  · intro h x hx
    rw [evalMagic_eq hm hx, h x hx]
  intro h x hx
  rw [← evalMagic_eq hm hx, h x hx]

end

/-! ## The x86 instructions -/

/-- The registers of the sequence: the fixed pair of the widening multiply and
virtual registers. -/
inductive Reg
  | rax
  | rdx
  | vreg (id : ℕ)
  deriving DecidableEq, Repr

/-- The instructions `try_select_magic_udiv` emits. -/
inductive Inst
  | copy (dst src : Reg)
  | movRI (dst : Reg) (imm : ℤ)
  | mul (src : Reg)
  | subRR (dst a b : Reg)
  | addRR (dst a b : Reg)
  | imulRR (dst a b : Reg)
  | shrRI (dst src : Reg) (amount : ℕ)
  deriving DecidableEq, Repr

/-- The cast `as i64` of an unsigned word. -/
def asI64 (v : ℕ) : ℤ := if v < 2 ^ 63 then v else (v : ℤ) - 2 ^ 64

/-- One instruction at register width `w`. -/
def Inst.step (w : ℕ) (regs : Reg → ℕ) : Inst → Reg → ℕ
  | .copy dst src => update regs dst (regs src)
  | .movRI dst imm => update regs dst (imm % 2 ^ w).toNat
  | .mul src =>
    update (update regs .rax (regs .rax * regs src % 2 ^ w))
      .rdx (regs .rax * regs src / 2 ^ w)
  | .subRR dst a b => update regs dst ((regs a + 2 ^ w - regs b) % 2 ^ w)
  | .addRR dst a b => update regs dst ((regs a + regs b) % 2 ^ w)
  | .imulRR dst a b => update regs dst (regs a * regs b % 2 ^ w)
  | .shrRI dst src amount => update regs dst (regs src / 2 ^ amount)

/-- A straight-line sequence. -/
def run (w : ℕ) (code : List Inst) (regs : Reg → ℕ) : Reg → ℕ :=
  code.foldl (Inst.step w) regs

/-- The quotient part of `try_select_magic_udiv`: the instructions, the register
of the quotient and the next unused virtual register.  `x` holds the dividend
and `fresh` is the next unused virtual register on entry. -/
def emitQuotient (m : MagicU) (x : Reg) (fresh : ℕ) : List Inst × Reg × ℕ :=
  let magicReg := Reg.vreg fresh
  let mulhi := Reg.vreg (fresh + 1)
  let head := [.copy .rax x, .movRI magicReg (asI64 m.magic), .mul magicReg, .copy mulhi .rdx]
  if m.add then
    let sub := Reg.vreg (fresh + 2)
    let sub1 := Reg.vreg (fresh + 3)
    let t := Reg.vreg (fresh + 4)
    let q := Reg.vreg (fresh + 5)
    (head ++ [.subRR sub x mulhi, .shrRI sub1 sub 1, .addRR t mulhi sub1,
      .shrRI q t (m.shift - 1)], q, fresh + 6)
  else if m.shift = 0 then (head, mulhi, fresh + 2)
  else (head ++ [.shrRI (.vreg (fresh + 2)) mulhi m.shift], .vreg (fresh + 2), fresh + 3)

/-- `try_select_magic_udiv` once the candidate is accepted: the quotient, or the
remainder `x - q * K` with the divisor `K` materialised from its constant. -/
def emitMagicUdiv (isRem : Bool) (imm : ℤ) (m : MagicU) (x : Reg) (fresh : ℕ) : List Inst × Reg :=
  let (code, q, next) := emitQuotient m x fresh
  let dst := Reg.vreg next
  if isRem then
    let k := Reg.vreg (next + 1)
    let qk := Reg.vreg (next + 2)
    (code ++ [.movRI k imm, .imulRR qk q k, .subRR dst x qk], dst)
  else (code ++ [.copy dst q], dst)

theorem asI64_emod {v w : ℕ} (hv : v < 2 ^ w) (hw : w ≤ 64) : (asI64 v % 2 ^ w).toNat = v := by
  have hdvd : (2 : ℤ) ^ w ∣ 2 ^ 64 := pow_dvd_pow 2 hw
  have hmod : asI64 v % 2 ^ w = (v : ℤ) % 2 ^ w := by
    unfold asI64
    split
    · rfl
    · rw [Int.sub_emod, Int.emod_eq_zero_of_dvd hdvd, sub_zero, Int.emod_emod_of_dvd _ dvd_rfl]
  have hcast : ((v : ℤ) % 2 ^ w) = ((v % 2 ^ w : ℕ) : ℤ) := by push_cast; rfl
  rw [hmod, hcast, Int.toNat_natCast, Nat.mod_eq_of_lt hv]

section

variable {m : MagicU} {width : MagicWidth} {x : Reg} {fresh : ℕ} {regs : Reg → ℕ}

/-- The dividend's register is a virtual one that was allocated before. -/
def Allocated (x : Reg) (fresh : ℕ) : Prop := ∃ id < fresh, x = .vreg id

section

variable (hm : m.Fits width) (hx : Allocated x fresh) (hval : regs x < 2 ^ width.bits)
include hm hx hval

/-- The emitted instructions compute what `eval_magic` evaluates, and leave the
dividend in place. -/
theorem run_emitQuotient :
    run width.bits (emitQuotient m x fresh).1 regs (emitQuotient m x fresh).2.1
        = evalMagic (regs x) m width
      ∧ run width.bits (emitQuotient m x fresh).1 regs x = regs x
      ∧ fresh < (emitQuotient m x fresh).2.2
      ∧ ∃ id < (emitQuotient m x fresh).2.2, (emitQuotient m x fresh).2.1 = .vreg id := by
  obtain ⟨id, hid, rfl⟩ := hx
  have himm := asI64_emod hm.magic_lt width.bits_le
  have hne : ∀ k, id ≠ fresh + k := by intro k; omega
  have hne' : id ≠ fresh := by omega
  cases hadd : m.add <;> by_cases hs : m.shift = 0 <;>
    simp [emitQuotient, evalMagic, hadd, run, Inst.step, himm, hne, hne', hs,
      Nat.mod_eq_of_lt hval, Nat.mod_eq_of_lt hm.magic_lt]

theorem run_emitMagicUdiv_quotient (imm : ℤ) :
    run width.bits (emitMagicUdiv false imm m x fresh).1 regs (emitMagicUdiv false imm m x fresh).2
      = evalMagic (regs x) m width := by
  obtain ⟨hq, -⟩ := run_emitQuotient hm hx hval
  simp only [emitMagicUdiv, Bool.false_eq_true, if_false, run, foldl_append, foldl_cons,
    foldl_nil, Inst.step, update_self]
  exact hq

end

/-- Subtracting the low half of `q * d` is exact: the remainder fits. -/
theorem sub_low_product {x N : ℕ} (hx : x < N) (d : ℕ) : (x + N - x / d * d % N) % N = x % d := by
  have hle : x / d * d ≤ x := Nat.div_mul_le_self x d
  rw [Nat.mod_eq_sub_div_mul (x := x) (k := d)]
  generalize x / d * d = qd at hle
  rw [Nat.mod_eq_of_lt (by omega : qd < N), show x + N - qd = x - qd + N by omega,
    Nat.add_mod_right, Nat.mod_eq_of_lt (by omega)]

/-- The remainder form of an accepted candidate leaves the remainder, although the
low product and the difference are taken modulo the register width. -/
theorem run_emitMagicUdiv_rem {d : ℕ} {imm : ℤ} (hd : 1 < d) (hdw : d < 2 ^ width.bits)
    (himm : (imm % 2 ^ width.bits).toNat = d) (hm : m.Fits width)
    (hband : bandHolds d m width = true) (hx : Allocated x fresh) (hval : regs x < 2 ^ width.bits) :
    run width.bits (emitMagicUdiv true imm m x fresh).1 regs (emitMagicUdiv true imm m x fresh).2
      = regs x % d := by
  obtain ⟨hq, hkeep, hnext, qid, hqid, hqreg⟩ := run_emitQuotient hm hx hval
  obtain ⟨id, hid, rfl⟩ := hx
  have hdiv := (bandHolds_iff_evalMagic hd hdw hm).1 hband _ hval
  set next := (emitQuotient m (.vreg id) fresh).2.2 with hnextdef
  have hids : id ≠ next ∧ id ≠ next + 1 ∧ id ≠ next + 2 ∧ qid ≠ next + 1 := by omega
  rw [hqreg] at hq
  simp only [emitMagicUdiv, if_true, ← hnextdef, hqreg]
  rw [run, foldl_append]
  change List.foldl (Inst.step width.bits) (run width.bits _ regs) _ _ = _
  simpa [Inst.step, himm, hids, hq, hkeep, hdiv] using sub_low_product hval d

theorem run_emitMagicUdiv_rem_seven :
    run 32 (emitMagicUdiv true 7 ⟨613566757, 3, true⟩ (.vreg 0) 1).1 (fun _ => 100)
      (emitMagicUdiv true 7 ⟨613566757, 3, true⟩ (.vreg 0) 1).2 = 2 :=
  @run_emitMagicUdiv_rem _ .w32 _ _ _ 7 _ (by decide) (by decide) (by decide)
    ⟨by decide, by decide, by decide⟩ (by decide) ⟨0, by decide, rfl⟩ (by decide)

end

section

variable {d : ℕ} {m : MagicU} {width : MagicWidth}

/-- **Accepting a magic multiplier is deciding correctness.**  For a divisor and a
candidate of the operation width: an accepted candidate divides every dividend,
a rejected one is wrong on some dividend, and the instructions the selector
emits for the candidate compute the evaluated sequence from any register file
that holds the dividend. -/
theorem bandHolds_decides_division (hd : 1 < d) (hdw : d < 2 ^ width.bits) (hm : m.Fits width) :
    (bandHolds d m width = true → ∀ x < 2 ^ width.bits, evalMagic x m width = x / d)
      ∧ (bandHolds d m width = false → ∃ x < 2 ^ width.bits, evalMagic x m width ≠ x / d)
      ∧ ∀ (imm : ℤ) (x : Reg) (fresh : ℕ) (regs : Reg → ℕ), Allocated x fresh →
          regs x < 2 ^ width.bits →
          run width.bits (emitMagicUdiv false imm m x fresh).1 regs
            (emitMagicUdiv false imm m x fresh).2 = evalMagic (regs x) m width := by
  refine ⟨(bandHolds_iff_evalMagic hd hdw hm).1, ?_, ?_⟩
  · intro hreject
    by_contra hall
    have haccept : bandHolds d m width = true := by
      refine (bandHolds_iff_evalMagic hd hdw hm).2 ?_
      intro x hx
      by_contra hne
      exact hall ⟨x, hx, hne⟩
    rw [hreject] at haccept
    cases haccept
  intro imm x fresh regs hx hval
  exact run_emitMagicUdiv_quotient hm hx hval imm

/-- Division by seven at 32 bits needs the add-back form; its multiplier passes the
check and the one below it does not. -/
theorem bandHolds_decides_division_seven :
    (∀ x < 2 ^ 32, evalMagic x ⟨613566757, 3, true⟩ .w32 = x / 7)
      ∧ ∃ x < 2 ^ 32, evalMagic x ⟨613566756, 3, true⟩ .w32 ≠ x / 7 :=
  ⟨(@bandHolds_decides_division 7 ⟨613566757, 3, true⟩ .w32 (by decide) (by decide)
      ⟨by decide, by decide, by decide⟩).1 (by decide),
    (@bandHolds_decides_division 7 ⟨613566756, 3, true⟩ .w32 (by decide) (by decide)
      ⟨by decide, by decide, by decide⟩).2.1 (by decide)⟩

end

end TrustCg.Lower
