import TrustCg.Lib.SignedWords
import TrustCg.Lower.A64Emit
import TrustCg.Lower.MagicDiv

/-!
# Division and remainder by a constant on AArch64

`try_select_const_div_rem` replaces a division by a constant with shifts for a power of
two and with a multiply by a magic number otherwise, and `finish_const_div_rem` turns the
quotient into a remainder.  The 32-bit forms use a long multiply, or a multiply in 64-bit
registers when `TCG_NO_SMULL_DIV` is set; the 64-bit forms use a high multiply.

* `tryConstDivRem` : the selector, over an emitter of instructions.
* `quotient`, `remainder` : what it should compute.
* `acceptU_sound`, `acceptS_sound` : what an accepted candidate guarantees.
-/

namespace TrustCg.Lower.A64

open Emission Reciprocal SignedWords

/-! ## The selector -/

/-- The class of the operation width. -/
@[reducible] def opClass : MagicWidth → RegClass
  | .w32 => .gpr32
  | .w64 => .gpr64

variable (width : MagicWidth)

theorem bits_opClass : (opClass width).bits = width.bits := by
  cases width <;> rfl

/-- The closure `narrow`: a 64-bit temporary brought down to the operation width. -/
def narrow (src : VReg) : SelM VReg :=
  if width = .w32 ∧ src.cls ≠ .gpr32 then define .gpr32 fun dst => .movR dst (.vreg src)
  else return src

/-- `n` is a power of two. -/
def isPowerOfTwo (n : ℕ) : Bool := n == 2 ^ n.log2

variable (cls : RegClass)

/-- The quotient by `2 ^ k`, negated for a negative divisor. -/
def powQuotient (isSigned negative : Bool) (x : VReg) (k : ℕ) : SelM VReg :=
  if !isSigned then magicShiftImm .lsrRI cls (.vreg x) k
  else do
    let t1 ← magicShiftImm .asrRI cls (.vreg x) (k - 1)
    let t2 ← magicShiftImm .lsrRI cls (.vreg t1) (cls.bits - k)
    let sum ← magicRR .addRR cls (.vreg x) (.vreg t2)
    let q ← magicShiftImm .asrRI cls (.vreg sum) k
    if negative then magicRR .subRR cls .xzr (.vreg q) else return q

/-- The add-back form: `t = mulhi + ((x - mulhi) >> 1)`, then the rest of the shift. -/
def addBack (x mulhi : VReg) (shift : ℕ) : SelM VReg := do
  let sub ← magicRR .subRR cls (.vreg x) (.vreg mulhi)
  let sub1 ← magicShiftImm .lsrRI cls (.vreg sub) 1
  let t ← magicRR .addRR cls (.vreg mulhi) (.vreg sub1)
  if shift = 1 then return t else magicShiftImm .lsrRI cls (.vreg t) (shift - 1)

variable (m : MagicU)

/-- The unsigned quotient at 32 bits from the 64-bit product. -/
def umagicTail32 (x product : VReg) : SelM VReg :=
  if !m.add then magicShiftImm .lsrRI .gpr64 (.vreg product) (32 + m.shift)
  else do
    let mulhi64 ← magicShiftImm .lsrRI .gpr64 (.vreg product) 32
    let mulhi ← narrow .w32 mulhi64
    addBack .gpr32 x mulhi m.shift

/-- The unsigned quotient at 64 bits from the high product. -/
def umagicTail64 (x mulhi : VReg) : SelM VReg :=
  if !m.add then
    if m.shift = 0 then return mulhi else magicShiftImm .lsrRI .gpr64 (.vreg mulhi) m.shift
  else addBack .gpr64 x mulhi m.shift

variable (d : ℤ)

/-- The sign correction, chosen from the signs of divisor and multiplier. -/
def signCorrection (m : MagicS) (x mulhi : VReg) : SelM VReg :=
  if 0 < d ∧ m.magic < 0 then magicRR .addRR cls (.vreg mulhi) (.vreg x)
  else if d < 0 ∧ 0 < m.magic then magicRR .subRR cls (.vreg mulhi) (.vreg x)
  else return mulhi

/-- The signed quotient before rounding: the correction and the shift. -/
def smagicTail (m : MagicS) (x mulhi : VReg) : SelM VReg := do
  let corrected ← signCorrection cls d m x mulhi
  if m.shift = 0 then return corrected
  else magicShiftImm .asrRI cls (.vreg corrected) m.shift

/-- Adding the sign bit rounds towards zero. -/
def addSignBit (shifted : VReg) : SelM VReg := do
  let sb ← magicShiftImm .lsrRI cls (.vreg shifted) (cls.bits - 1)
  magicRR .addRR cls (.vreg shifted) (.vreg sb)

/-- The unsigned candidate, once it is accepted. -/
def acceptU (d : ℕ) (width : MagicWidth) : Option MagicU :=
  (magicu d width).filter fun m => bandHolds d m width && !(m.add && m.shift == 0)

/-- The signed candidate, once it is accepted. -/
def acceptS (width : MagicWidth) : Option MagicS :=
  (magics d width).filter fun m => smagicBandHolds d m width

/-- The long-multiply form at 32 bits, unsigned. -/
def umullQuotient (x : VReg) : SelM VReg := do
  let mm ← magicMat .gpr32 (BitVec.ofNat 32 m.magic).toInt
  let xp ← magicRR64 .umull (.vreg x) (.vreg mm)
  let q ← umagicTail32 m x xp
  narrow .w32 q

/-- The long-multiply form at 32 bits, signed. -/
def smullQuotient (m : MagicS) (x : VReg) : SelM VReg := do
  let mm ← magicMat .gpr32 m.magic
  let xp ← magicRR64 .smull (.vreg x) (.vreg mm)
  let mulhi ← magicShiftImm .lsrRI .gpr64 (.vreg xp) 32
  let shifted ← smagicTail .gpr32 d m x mulhi
  addSignBit .gpr32 shifted

/-- The unsigned quotient from the multiplier in a 64-bit register. -/
def umagicProduct (x x64 mm : VReg) : SelM VReg :=
  match width with
  | .w32 => do
    let xp ← magicRR64 .mulRR (.vreg x64) (.vreg mm)
    umagicTail32 m x xp
  | .w64 => do
    let mulhi ← magicRR64 .umulh (.vreg x64) (.vreg mm)
    umagicTail64 m x64 mulhi

/-- The unsigned form in 64-bit registers. -/
def umagicQuotient (x x64 : VReg) : SelM VReg := do
  let mm ← magicMat .gpr64 (BitVec.ofNat 64 m.magic).toInt
  let q ← umagicProduct width m x x64 mm
  narrow width q

/-- The high part of the signed product. -/
def smulhi (x64 mm : VReg) : SelM VReg :=
  match width with
  | .w32 => do
    let xp ← magicRR64 .mulRR (.vreg x64) (.vreg mm)
    magicShiftImm .asrRI .gpr64 (.vreg xp) 32
  | .w64 => magicRR64 .smulh (.vreg x64) (.vreg mm)

/-- The signed form in 64-bit registers. -/
def smagicQuotient (m : MagicS) (x64 : VReg) : SelM VReg := do
  let mm ← magicMat .gpr64 m.magic
  let mulhi ← smulhi width x64 mm
  let shifted64 ← smagicTail .gpr64 d m x64 mulhi
  let shifted ← narrow width shifted64
  addSignBit (opClass width) shifted

variable (isSigned : Bool)

/-- The dividend in a 64-bit register. -/
def widen (x : VReg) : SelM VReg :=
  match width with
  | .w32 => define .gpr64 fun dst => .ext (if isSigned then .sxtw else .uxtw) dst (.vreg x)
  | .w64 => return x

/-- The code for an accepted candidate; without one the selector declines. -/
def onCandidate {M : Type} (candidate : Option M) (act : M → SelM VReg) : SelM (Option VReg) :=
  match candidate with
  | none => return none
  | some m => some <$> act m

/-- The quotient by a divisor that is not a power of two. -/
def magicQuotient (smullDivDisabled isSigned : Bool) (width : MagicWidth)
    (c : BitVec (opClass width).bits) (x : VReg) : SelM (Option VReg) :=
  if width = .w32 ∧ !smullDivDisabled then
    if !isSigned then onCandidate (acceptU c.toNat width) fun m => umullQuotient m x
    else onCandidate (acceptS c.toInt width) fun m => smullQuotient c.toInt m x
  else do
    let x64 ← widen width isSigned x
    if !isSigned then onCandidate (acceptU c.toNat width) fun m => umagicQuotient width m x x64
    else onCandidate (acceptS c.toInt width) fun m => smagicQuotient width c.toInt m x64

/-- The magnitude `2 ^ k - 1` or `2 ^ k + 1` of a divisor, with `k` below the width. -/
def mersenne (smullDivDisabled : Bool) (width : MagicWidth) (a : ℕ) : Option (ℕ × Bool) :=
  if smullDivDisabled ∨ a < 3 then none
  else if a ≠ 2 ^ 64 - 1 ∧ isPowerOfTwo (a + 1) then
    let k := (a + 1).log2
    if 1 ≤ k ∧ k < width.bits then some (k, true) else none
  else if isPowerOfTwo (a - 1) then
    let k := (a - 1).log2
    if 1 ≤ k ∧ k < width.bits then some (k, false) else none
  else none

/-- The magnitude of the divisor at the operation width. -/
def magnitude {w : ℕ} (c : BitVec w) : ℕ :=
  if isSigned then c.toInt.natAbs else c.toNat

/-- `finish_const_div_rem`. -/
def finish (smullDivDisabled isSigned isRem : Bool) (width : MagicWidth)
    (c : BitVec (opClass width).bits) (x quotient : VReg) : SelM VReg :=
  let opw := opClass width
  let neg := isSigned && decide (c.toInt < 0)
  if !isRem then return quotient
  else
    match mersenne smullDivDisabled width (magnitude isSigned c) with
    | some (k, true) =>
      definePair opw (fun _ t => .shifted .subRRShift t (.vreg quotient) (.vreg quotient) k)
        fun dst t => .bin (if neg then .subRR else .addRR) dst (.vreg x) (.vreg t)
    | some (k, false) =>
      definePair opw
        (fun _ u => .bin (if neg then .addRR else .subRR) u (.vreg x) (.vreg quotient))
        fun dst u =>
          .shifted (if neg then .addRRShift else .subRRShift) dst (.vreg u) (.vreg quotient) k
    | none => do
      let cimm ← magicMat opw (if isSigned ∨ width = .w64 then c.toInt else c.toNat)
      define opw fun dst => .msub dst (.vreg quotient) (.vreg cimm) (.vreg x)

/-- `try_select_const_div_rem`, for a dividend of 32 or 64 bits in `x` and a divisor whose
constant has the bits `imm`: the register of the result, or `none` where the selector
declines. -/
def tryConstDivRem (smullDivDisabled isSigned isRem : Bool) (width : MagicWidth)
    (imm : BitVec 64) (x : VReg) : SelM (Option VReg) :=
  let c := view (opClass width) imm
  if isSigned ∧ (c.toInt = 0 ∨ c.toInt = 1 ∨ c.toInt = -1) then return none
  else if !isSigned ∧ c.toNat ≤ 1 then return none
  else if isPowerOfTwo (magnitude isSigned c) then do
    let q ← powQuotient (opClass width) isSigned (decide (c.toInt < 0)) x
      (magnitude isSigned c).log2
    some <$> finish smullDivDisabled isSigned isRem width c x q
  else do
    match ← magicQuotient smullDivDisabled isSigned width c x with
    | none => return none
    | some q => some <$> finish smullDivDisabled isSigned isRem width c x q

/-! ## What the result should be -/

/-- The number a word stands for. -/
def interpret {w : ℕ} (x : BitVec w) : ℤ :=
  if isSigned then x.toInt else x.toNat

/-- The quotient rounded towards zero, as a word. -/
def quotient {w : ℕ} (x c : BitVec w) : BitVec w :=
  BitVec.ofInt w ((interpret isSigned x).tdiv (interpret isSigned c))

/-- The remainder, which has the sign of the dividend, as a word. -/
def remainder {w : ℕ} (x c : BitVec w) : BitVec w :=
  BitVec.ofInt w ((interpret isSigned x).tmod (interpret isSigned c))

section

variable {w : ℕ} {x c q : BitVec w}

theorem ofInt_interpret (isSigned : Bool) (x : BitVec w) :
    BitVec.ofInt w (interpret isSigned x) = x := by
  cases isSigned with
  | false => rw [interpret, if_neg (by decide), BitVec.ofInt_natCast, BitVec.ofNat_toNat,
      BitVec.setWidth_eq]
  | true => rw [interpret, if_pos rfl, BitVec.ofInt_toInt]

theorem eq_quotient_of_toNat (h : q.toNat = x.toNat / c.toNat) : q = quotient false x c := by
  have hq := ofInt_interpret false q
  rw [interpret, if_neg (by decide), h, Int.natCast_ediv,
    ← Int.tdiv_eq_ediv_of_nonneg (Int.natCast_nonneg _)] at hq
  exact hq.symm

theorem eq_quotient_of_toInt (h : q.toInt = x.toInt.tdiv c.toInt) : q = quotient true x c := by
  have hq := ofInt_interpret true q
  rw [interpret, if_pos rfl, h] at hq
  exact hq.symm

theorem remainder_eq (isSigned : Bool) (x c : BitVec w) :
    remainder isSigned x c = x - quotient isSigned x c * c := by
  rw [remainder, Int.tmod_def, sub_eq_add_neg, BitVec.ofInt_add, BitVec.ofInt_neg, BitVec.ofInt_mul,
    ofInt_interpret, ofInt_interpret, quotient]
  ring

end

/-! ## Accepted candidates -/

section

variable {d : ℕ} {m : MagicU} {width : MagicWidth}

/-- What the selector may rely on once it has accepted a candidate. -/
structure AcceptedU (d : ℕ) (m : MagicU) (width : MagicWidth) : Prop where
  magic_lt : m.magic < 2 ^ width.bits
  shift_lt : m.add = false → m.shift < width.bits
  shift_pos : m.add = true → 1 ≤ m.shift
  shift_le : m.shift ≤ width.bits
  eval : ∀ x < 2 ^ width.bits, evalMagic x m width = x / d

theorem bandHolds_shift (h : bandHolds d m width = true) :
    m.shift < 64 ∧ width.bits + m.shift < 128 := by
  unfold bandHolds at h
  dsimp only at h
  split at h
  · cases h
  split at h
  · cases h
  omega

/-- The band bounds the shift: the scale is at most the product of multiplier and divisor. -/
theorem shift_lt_of_band {w s e mult : ℕ} (hd : d < 2 ^ w) (hmult : mult < 2 ^ e)
    (h : Band (2 ^ w) d mult (2 ^ (w + s))) : s < e := by
  have hlow : 2 ^ (w + s) ≤ mult * d := h.1
  have hprod : mult * d < 2 ^ (w + e) := by
    rw [Nat.add_comm, pow_add]
    exact Nat.mul_lt_mul'' hmult hd
  have := (Nat.pow_lt_pow_iff_right (by decide)).mp (Nat.lt_of_le_of_lt hlow hprod)
  omega

theorem acceptU_sound (hd : 1 < d) (hdw : d < 2 ^ width.bits) (h : acceptU d width = some m) :
    AcceptedU d m width := by
  obtain ⟨hmagicu, hok⟩ := Option.filter_eq_some_iff.mp h
  rw [Bool.and_eq_true, Bool.not_eq_true'] at hok
  obtain ⟨hband, hadd⟩ := hok
  have hmagic := magicu_magic_lt hmagicu
  obtain ⟨hs64, hs128⟩ := bandHolds_shift hband
  have hB := (bandHolds_iff_band_of_lt hd hdw hmagic hs64 hs128).mp hband
  have hpos : m.add = true → 1 ≤ m.shift := by
    intro ha
    rw [ha, Bool.true_and, beq_eq_false_iff_ne] at hadd
    omega
  have hmult : m.multiplier width < 2 ^ (width.bits + 1) := by
    unfold MagicU.multiplier
    rw [pow_succ]
    split <;> omega
  refine ⟨hmagic, fun ha => ?_, hpos, ?_, fun x hx => ?_⟩
  · rw [MagicU.multiplier, ha] at hB
    exact shift_lt_of_band hdw hmagic hB
  · exact Nat.le_of_lt_succ (shift_lt_of_band hdw hmult hB)
  · rw [evalMagic_eq_of_lt hmagic hpos hx, hB.mul_div_eq hd hdw.le (Nat.two_pow_pos _) hx]

end

section

variable {d : ℤ} {m : MagicS} {width : MagicWidth}

/-- What the selector may rely on once it has accepted a signed candidate. -/
structure AcceptedS (d : ℤ) (m : MagicS) (width : MagicWidth) : Prop where
  magic_low : -2 ^ (width.bits - 1) ≤ m.magic
  magic_high : m.magic < 2 ^ (width.bits - 1)
  shift_lt : m.shift < width.bits
  abs_lt : |m.magic + m.correction d * 2 ^ width.bits| < 2 ^ width.bits
  eval : ∀ x : ℤ, -2 ^ (width.bits - 1) ≤ x → x < 2 ^ (width.bits - 1) →
    let q := x * (m.magic + m.correction d * 2 ^ width.bits) / 2 ^ (width.bits + m.shift)
    q + (if q < 0 then 1 else 0) = x.tdiv d

section

variable (hlow : -2 ^ (width.bits - 1) ≤ d) (hhigh : d < 2 ^ (width.bits - 1))
include hlow hhigh

theorem acceptedS_of_band (hmlow : -2 ^ (width.bits - 1) ≤ m.magic)
    (hmhigh : m.magic < 2 ^ (width.bits - 1)) (hband : smagicBandHolds d m width = true) :
    AcceptedS d m width := by
  obtain ⟨heff, hefflt⟩ := magic_add_correction hlow hhigh hmlow hmhigh hband
  refine ⟨hmlow, hmhigh, ((smagicBandHolds_iff_band hlow hhigh hmlow hmhigh).1 hband).1, ?_,
    fun x hx hx' => smagicBandHolds_sound hlow hhigh hmlow hmhigh hband hx hx'⟩
  rw [heff, abs_lt]
  split <;> constructor <;> linarith

theorem acceptS_sound (h : acceptS d width = some m) : AcceptedS d m width := by
  obtain ⟨hmagics, hband⟩ := Option.filter_eq_some_iff.mp h
  obtain ⟨hmlow, hmhigh⟩ := magics_magic_range hmagics
  exact acceptedS_of_band hlow hhigh hmlow hmhigh hband

end

end

end TrustCg.Lower.A64
