import Mathlib.Algebra.GroupWithZero.Nat
import Mathlib.Algebra.Ring.Int.Defs
import TrustCg.Lib.Emission

/-!
# AArch64 data instructions

The instructions that the selector emits on general registers, over virtual registers.
A register holds 64 bits; an instruction works at the width of its destination's class,
reads the low bits of its sources and clears the bits above its result.

* `Inst.value`, `step` : what an instruction computes and where it goes.
* `emitIconst`, `movzChain` : how a constant is put into a register.
* `exec_emitIconst`, `exec_movzChain` : the register then holds it at its width.
-/

namespace TrustCg.Lower.A64

open BitVec

/-! ## Registers and instructions -/

/-- The classes of general registers. -/
inductive RegClass
  | gpr32
  | gpr64
  deriving DecidableEq, Repr

/-- The width of a class. -/
@[reducible] def RegClass.bits : RegClass → ℕ
  | .gpr32 => 32
  | .gpr64 => 64

variable (cls : RegClass)

theorem RegClass.bits_le : cls.bits ≤ 64 := by
  cases cls <;> decide

/-- A virtual register. -/
structure VReg where
  id : ℕ
  cls : RegClass
  deriving DecidableEq, Repr

/-- A source operand: a virtual register or the zero register. -/
inductive Operand
  | vreg (v : VReg)
  | xzr
  deriving DecidableEq, Repr

/-- The contents of the virtual registers. -/
abbrev Regs := ℕ → BitVec 64

/-- The contents of an operand. -/
def Operand.read (ρ : Regs) : Operand → BitVec 64
  | .vreg v => ρ v.id
  | .xzr => 0

/-- The low part of a register that an instruction of a class sees. -/
def view (v : BitVec 64) : BitVec cls.bits := v.setWidth cls.bits

/-- The two-source instructions. -/
inductive BinOp
  | addRR
  | subRR
  | mulRR
  | umulh
  | smulh
  | umull
  | smull
  deriving DecidableEq, Repr

/-- The shifts by an immediate. -/
inductive ShiftOp
  | lsrRI
  | asrRI
  deriving DecidableEq, Repr

/-- The additions and subtractions of a shifted register. -/
inductive ShiftedOp
  | addRRShift
  | subRRShift
  deriving DecidableEq, Repr

/-- The extensions. -/
inductive ExtOp
  | sxtw
  | uxtw
  | uxtb
  | uxth
  deriving DecidableEq, Repr

/-- The data instructions. -/
inductive Inst
  | movz (dst : VReg) (imm : ℕ)
  | movn (dst : VReg) (imm : ℕ)
  | movk (dst : VReg) (imm shift : ℕ)
  | movR (dst : VReg) (src : Operand)
  | ext (op : ExtOp) (dst : VReg) (src : Operand)
  | bin (op : BinOp) (dst : VReg) (a b : Operand)
  | shiftImm (op : ShiftOp) (dst : VReg) (src : Operand) (amount : ℕ)
  | shifted (op : ShiftedOp) (dst : VReg) (a b : Operand) (amount : ℕ)
  | msub (dst : VReg) (n m a : Operand)
  | subRI (dst : VReg) (src : Operand) (imm : ℕ)
  deriving DecidableEq, Repr

/-- The destination. -/
def Inst.dst : Inst → VReg
  | .movz dst _ | .movn dst _ | .movk dst _ _ | .movR dst _ | .ext _ dst _ | .bin _ dst _ _
  | .shiftImm _ dst _ _ | .shifted _ dst _ _ _ | .msub dst _ _ _ | .subRI dst _ _ => dst

/-- The two-source operations; the long and high multiplies have one width only. -/
def BinOp.value (a b : BitVec 64) : BinOp → BitVec 64
  | .addRR => (view cls a + view cls b).setWidth 64
  | .subRR => (view cls a - view cls b).setWidth 64
  | .mulRR => (view cls a * view cls b).setWidth 64
  | .umulh => BitVec.ofNat 64 (a.toNat * b.toNat / 2 ^ 64)
  | .smulh => BitVec.ofInt 64 (a.toInt * b.toInt / 2 ^ 64)
  | .umull => BitVec.ofNat 64 ((view .gpr32 a).toNat * (view .gpr32 b).toNat)
  | .smull => BitVec.ofInt 64 ((view .gpr32 a).toInt * (view .gpr32 b).toInt)

/-- The shifts. -/
def ShiftOp.value (a : BitVec 64) (amount : ℕ) : ShiftOp → BitVec 64
  | .lsrRI => (view cls a >>> amount).setWidth 64
  | .asrRI => ((view cls a).sshiftRight amount).setWidth 64

/-- The operations with a shifted second source. -/
def ShiftedOp.value (a b : BitVec 64) (amount : ℕ) : ShiftedOp → BitVec 64
  | .addRRShift => (view cls a + view cls b <<< amount).setWidth 64
  | .subRRShift => (view cls a - view cls b <<< amount).setWidth 64

/-- The extensions. -/
def ExtOp.value (a : BitVec 64) : ExtOp → BitVec 64
  | .sxtw => (a.setWidth 32).signExtend 64
  | .uxtw => (a.setWidth 32).setWidth 64
  | .uxtb => (a.setWidth 8).setWidth 64
  | .uxth => (a.setWidth 16).setWidth 64

/-- The result of an instruction, as the register will hold it. -/
def Inst.value (ρ : Regs) : Inst → BitVec 64
  | .movz dst imm => (BitVec.ofNat dst.cls.bits imm).setWidth 64
  | .movn dst imm => (~~~ BitVec.ofNat dst.cls.bits imm).setWidth 64
  | .movk dst imm shift =>
    (view dst.cls (ρ dst.id) &&& ~~~ (BitVec.ofNat dst.cls.bits 0xFFFF <<< shift)
      ||| BitVec.ofNat dst.cls.bits imm <<< shift).setWidth 64
  | .movR dst src => (view dst.cls (src.read ρ)).setWidth 64
  | .ext op _ src => op.value (src.read ρ)
  | .bin op dst a b => op.value dst.cls (a.read ρ) (b.read ρ)
  | .shiftImm op dst src amount => op.value dst.cls (src.read ρ) amount
  | .shifted op dst a b amount => op.value dst.cls (a.read ρ) (b.read ρ) amount
  | .msub dst n m a =>
    (view dst.cls (a.read ρ) - view dst.cls (n.read ρ) * view dst.cls (m.read ρ)).setWidth 64
  | .subRI dst src imm =>
    (view dst.cls (src.read ρ) - BitVec.ofNat dst.cls.bits imm).setWidth 64

/-- The operands that the encoder accepts. -/
def Inst.Encodes : Inst → Prop
  | .movz _ imm | .movn _ imm => imm < 2 ^ 16
  | .movk dst imm shift => imm < 2 ^ 16 ∧ shift % 16 = 0 ∧ shift < dst.cls.bits
  | .shiftImm _ dst _ amount => amount < dst.cls.bits
  | .shifted _ dst _ _ amount => 1 ≤ amount ∧ amount < dst.cls.bits
  | .subRI _ _ imm => imm < 2 ^ 12
  | .movR .. | .ext .. | .bin .. | .msub .. => True

/-- One instruction. -/
def step (i : Inst) (ρ : Regs) : Regs := Function.update ρ i.dst.id (i.value ρ)

/-- The instructions as a target of an emitter. -/
def target : Emission.Target Inst Regs (BitVec 64) :=
  ⟨step, fun ρ r => ρ r, Inst.Encodes⟩

@[simp] theorem view_setWidth (v : BitVec cls.bits) :
    view cls (v.setWidth 64) = v := by
  have hle : 2 ^ cls.bits ≤ 2 ^ 64 := Nat.pow_le_pow_right (by decide) cls.bits_le
  apply eq_of_toNat_eq
  rw [view, toNat_setWidth, toNat_setWidth,
    Nat.mod_eq_of_lt (Nat.lt_of_lt_of_le v.isLt hle), Nat.mod_eq_of_lt v.isLt]

theorem step_self (i : Inst) (ρ : Regs) : step i ρ i.dst.id = i.value ρ := Function.update_self ..

theorem step_of_ne {i : Inst} {r : ℕ} (h : r ≠ i.dst.id) (ρ : Regs) : step i ρ r = ρ r :=
  Function.update_of_ne h ..

/-! ## Constants -/

/-- The bit pattern of an `i64`. -/
def asU64 (imm : ℤ) : ℕ := (imm % 2 ^ 64).toNat

/-- A halfword of a constant. -/
def chunk (value idx : ℕ) : ℕ := value / 2 ^ (16 * idx) % 2 ^ 16

/-- The `MOVK`s for the halfwords from the second up to `n` that differ from `seed`. -/
def movks (dst : VReg) (value seed : ℕ) : ℕ → List Inst
  | 0 => []
  | n + 1 => movks dst value seed n ++ if chunk value (n + 1) = seed then []
      else [.movk dst (chunk value (n + 1)) (16 * (n + 1))]

variable (dst : VReg)

/-- A `MOVZ` and the `MOVK`s after it, over a number of halfwords. -/
def movzChain (value chunks : ℕ) : List Inst :=
  .movz dst (chunk value 0) :: movks dst value 0 (chunks - 1)

/-- The number of instructions of such a sequence. -/
def seedCount (value seed chunks : ℕ) : ℕ :=
  1 + ((List.range' 1 (chunks - 1)).filter fun idx => chunk value idx ≠ seed).length

/-- The choice of `emit_preferred_movn`. -/
def prefersMovn (value chunks : ℕ) : Bool :=
  let movz := seedCount value 0 chunks
  let movn := seedCount value 0xFFFF chunks
  !(movn > movz || (movn == movz && chunk value 0 != 0xFFFF))

/-- The halfwords of a type of at most 32 bits or one of 64. -/
def chunkCount (is32 : Bool) : ℕ := if is32 then 2 else 4

/-- `emit_iconst_materialization`. -/
def emitIconst (is32 : Bool) (imm : ℤ) : List Inst :=
  if 0 ≤ imm ∧ imm ≤ 0xFFFF then [.movz dst imm.toNat]
  else if -0x10000 ≤ imm ∧ imm < 0 then [.movn dst (asU64 (-imm - 1) % 2 ^ 16)]
  else if prefersMovn (asU64 imm) (chunkCount is32) then
    .movn dst (0xFFFF - chunk (asU64 imm) 0)
      :: movks dst (asU64 imm) 0xFFFF (chunkCount is32 - 1)
  else movzChain dst (asU64 imm) (chunkCount is32)

theorem testBit_chunk (value idx j : ℕ) :
    (chunk value idx).testBit j = (decide (j < 16) && value.testBit (16 * idx + j)) := by
  rw [chunk, Nat.testBit_mod_two_pow, Nat.testBit_div_two_pow, Nat.add_comm j]

/-- A register holds the low halfwords of a value and its seed above them. -/
def Holds (value : ℕ) (seed : Bool) (n : ℕ) (ρ : Regs) : Prop :=
  ∀ j < dst.cls.bits, (view dst.cls (ρ dst.id)).getLsbD j
    = if j < 16 * n then value.testBit j else seed

/-- A `MOVK` replaces one halfword. -/
theorem getLsbD_movk (value idx : ℕ) (ρ : Regs) {j : ℕ} (hj : j < dst.cls.bits) :
    (view dst.cls (step (.movk dst (chunk value idx) (16 * idx)) ρ dst.id)).getLsbD j
      = if 16 * idx ≤ j ∧ j < 16 * idx + 16 then value.testBit j
        else (view dst.cls (ρ dst.id)).getLsbD j := by
  rw [show step _ ρ dst.id = _ from step_self (.movk dst (chunk value idx) (16 * idx)) ρ,
    Inst.value, view_setWidth]
  have hones : (0xFFFF : ℕ).testBit (j - 16 * idx) = decide (j - 16 * idx < 16) :=
    Nat.testBit_two_pow_sub_one 16 _
  simp only [getLsbD_or, getLsbD_and, getLsbD_not, getLsbD_shiftLeft,
    getLsbD_ofNat, hj, hones, testBit_chunk, decide_true, Bool.true_and]
  by_cases hlow : 16 * idx ≤ j
  · have hnot : ¬ j < 16 * idx := by omega
    have hlt : j - 16 * idx < dst.cls.bits := by omega
    by_cases hhigh : j < 16 * idx + 16
    · have h16 : j - 16 * idx < 16 := by omega
      rw [if_pos ⟨hlow, hhigh⟩]
      simp [hnot, h16, hlt, Nat.add_sub_cancel' hlow]
    have h16 : ¬ j - 16 * idx < 16 := by omega
    rw [if_neg (by omega)]
    simp [hnot, h16, hlt]
  have hlt : j < 16 * idx := by omega
  rw [if_neg (by omega)]
  simp [hlt]

/-- The halfword that a seed stands for. -/
def seedChunk (seed : Bool) : ℕ := if seed then 0xFFFF else 0

variable {value : ℕ}

variable {seed : Bool}

theorem testBit_of_chunk_eq {idx : ℕ} (h : chunk value idx = seedChunk seed) {j : ℕ}
    (hlow : 16 * idx ≤ j) (hhigh : j < 16 * idx + 16) : value.testBit j = seed := by
  have hbit := testBit_chunk value idx (j - 16 * idx)
  have h16 : j - 16 * idx < 16 := by omega
  rw [h, Nat.add_sub_cancel' hlow, decide_eq_true h16, Bool.true_and] at hbit
  rw [← hbit]
  cases seed with
  | false => exact Nat.zero_testBit _
  | true =>
    rw [seedChunk, if_pos rfl, show (0xFFFF : ℕ) = 2 ^ 16 - 1 from rfl,
      Nat.testBit_two_pow_sub_one, decide_eq_true h16]

/-- **The fill.**  Each `MOVK` extends the low part, and a halfword that is skipped already
has its value. -/
theorem exec_movks (value : ℕ) (seed : Bool) (n : ℕ) (ρ : Regs) (h : Holds dst value seed 1 ρ) :
    Holds dst value seed (n + 1) (target.exec (movks dst value (seedChunk seed) n) ρ) := by
  induction n generalizing ρ with
  | zero => exact h
  | succ n ih =>
    intro j hj
    have hprev := ih ρ h j hj
    rw [movks, Emission.Target.exec_append]
    by_cases hchunk : chunk value (n + 1) = seedChunk seed
    · rw [if_pos hchunk, Emission.Target.exec_nil, hprev]
      by_cases hlow : j < 16 * (n + 1)
      · rw [if_pos hlow, if_pos (by omega)]
      rw [if_neg hlow]
      split
      · exact (testBit_of_chunk_eq hchunk (by omega) (by omega)).symm
      · rfl
    rw [if_neg hchunk, Emission.Target.exec_cons, Emission.Target.exec_nil]
    rw [show target.step = step from rfl, getLsbD_movk dst value (n + 1) _ hj]
    by_cases hhere : 16 * (n + 1) ≤ j ∧ j < 16 * (n + 1) + 16
    · rw [if_pos hhere, if_pos (by omega)]
    rw [if_neg hhere, hprev]
    by_cases hlow : j < 16 * (n + 1)
    · rw [if_pos hlow, if_pos (by omega)]
    · rw [if_neg hlow, if_neg (by omega)]

variable {dst : VReg}

theorem view_eq_of_holds {n : ℕ} {ρ : Regs} (h : Holds dst value seed n ρ)
    (hn : dst.cls.bits ≤ 16 * n) : view dst.cls (ρ dst.id) = BitVec.ofNat dst.cls.bits value := by
  apply eq_of_getLsbD_eq
  intro j hj
  rw [h j hj, if_pos (by omega), getLsbD_ofNat, decide_eq_true hj, Bool.true_and]

variable {chunks : ℕ}

/-- **A `MOVZ` chain.**  With enough halfwords for the width, the register holds the value. -/
theorem exec_movzChain (dst : VReg) (hchunks : 1 ≤ chunks) (hwidth : dst.cls.bits ≤ 16 * chunks)
    (ρ : Regs) :
    view dst.cls (target.exec (movzChain dst value chunks) ρ dst.id)
      = BitVec.ofNat dst.cls.bits value := by
  have hfill := exec_movks dst value false (chunks - 1) (step (.movz dst (chunk value 0)) ρ) (by
    intro j hj
    rw [show step _ ρ dst.id = _ from step_self (.movz dst (chunk value 0)) ρ, Inst.value,
      view_setWidth, getLsbD_ofNat, decide_eq_true hj, Bool.true_and, testBit_chunk]
    by_cases h16 : j < 16
    · simp [h16]
    · simp [h16])
  rw [Nat.sub_add_cancel hchunks] at hfill
  exact view_eq_of_holds hfill hwidth

theorem exec_movnChain (hchunks : 1 ≤ chunks) (hwidth : dst.cls.bits ≤ 16 * chunks) (ρ : Regs) :
    view dst.cls (target.exec
        (.movn dst (0xFFFF - chunk value 0) :: movks dst value 0xFFFF (chunks - 1)) ρ dst.id)
      = BitVec.ofNat dst.cls.bits value := by
  have hfill := exec_movks dst value true (chunks - 1)
    (step (.movn dst (0xFFFF - chunk value 0)) ρ) (by
    intro j hj
    have hsub : (0xFFFF - chunk value 0).testBit j
        = (decide (j < 16) && !(chunk value 0).testBit j) := by
      have hlt : chunk value 0 < 2 ^ 16 := Nat.mod_lt _ (by decide)
      rw [show 0xFFFF - chunk value 0 = 2 ^ 16 - (chunk value 0 + 1) by omega]
      exact Nat.testBit_two_pow_sub_succ hlt j
    rw [show step _ ρ dst.id = _ from step_self (.movn dst (0xFFFF - chunk value 0)) ρ, Inst.value,
      view_setWidth, getLsbD_not, getLsbD_ofNat, decide_eq_true hj, Bool.true_and,
      Bool.true_and, hsub, testBit_chunk]
    by_cases h16 : j < 16
    · simp [h16]
    · simp [h16])
  rw [Nat.sub_add_cancel hchunks] at hfill
  exact view_eq_of_holds hfill hwidth

theorem ofNat_asU64 (imm : ℤ) : BitVec.ofNat cls.bits (asU64 imm) = BitVec.ofInt cls.bits imm := by
  have hdvd : ((2 ^ cls.bits : ℕ) : ℤ) ∣ 2 ^ 64 := by cases cls <;> decide
  have hlow := Int.emod_nonneg imm (show (2 : ℤ) ^ 64 ≠ 0 by decide)
  apply eq_of_toNat_eq
  rw [toNat_ofNat, toNat_ofInt, asU64, ← Int.emod_emod_of_dvd imm hdvd,
    Int.toNat_emod hlow (Int.natCast_nonneg _)]
  rfl

theorem exec_singleton (i : Inst) (ρ : Regs) : target.exec [i] ρ i.dst.id = i.value ρ :=
  step_self i ρ

variable {is32 : Bool}

/-- **Constants.**  The register holds the constant at its width. -/
theorem exec_emitIconst (dst : VReg) (hcls : is32 = decide (dst.cls = .gpr32)) (imm : ℤ)
    (ρ : Regs) :
    view dst.cls (target.exec (emitIconst dst is32 imm) ρ dst.id)
      = BitVec.ofInt dst.cls.bits imm := by
  have hwidth : dst.cls.bits ≤ 16 * chunkCount is32 := by
    rw [hcls]
    cases dst.cls <;> decide
  have hchunks : 1 ≤ chunkCount is32 := by cases is32 <;> decide
  unfold emitIconst
  split
  next h =>
    have hrun := exec_singleton (.movz dst imm.toNat) ρ
    rw [show (Inst.movz dst imm.toNat).dst = dst from rfl] at hrun
    rw [hrun, Inst.value, view_setWidth, ← ofInt_natCast, Int.toNat_of_nonneg h.1]
  split
  next h =>
    have hsmall : asU64 (-imm - 1) % 2 ^ 16 = (-imm - 1).toNat := by
      rw [asU64, Int.emod_eq_of_lt (by omega) (by omega)]
      omega
    have hrun := exec_singleton (.movn dst (asU64 (-imm - 1) % 2 ^ 16)) ρ
    rw [show (Inst.movn dst (asU64 (-imm - 1) % 2 ^ 16)).dst = dst from rfl] at hrun
    rw [hrun, Inst.value, view_setWidth, hsmall, ← ofInt_natCast,
      Int.toNat_of_nonneg (by omega), not_eq_neg_add, ← ofInt_neg,
      show -(-imm - 1) = imm + ((1 : ℕ) : ℤ) by omega, ofInt_add, ofInt_natCast, add_sub_cancel]
  rw [← ofNat_asU64]
  split
  · exact exec_movnChain hchunks hwidth ρ
  · exact exec_movzChain dst hchunks hwidth ρ

theorem exec_of_dst (dst : VReg) {r : ℕ} (hr : r ≠ dst.id) (code : List Inst) (ρ : Regs)
    (h : ∀ i ∈ code, i.dst = dst) : target.exec code ρ r = ρ r := by
  induction code generalizing ρ with
  | nil => rfl
  | cons i code ih =>
    rw [Emission.Target.exec_cons, ih _ fun j hj => h j (.tail _ hj)]
    exact step_of_ne (by rw [h i List.mem_cons_self]; exact hr) ρ

theorem chunk_lt (value idx : ℕ) : chunk value idx < 2 ^ 16 := Nat.mod_lt _ (by decide)

/-- Only halfwords inside the register are written, if the others equal the seed. -/
theorem movks_writes {seed : ℕ} (n : ℕ)
    (hn : ∀ idx ≤ n, 16 * idx < dst.cls.bits ∨ chunk value idx = seed) :
    ∀ i ∈ movks dst value seed n, i.dst = dst ∧ i.Encodes := by
  induction n with
  | zero => intro i hi; cases hi
  | succ n ih =>
    intro i hi
    rw [movks] at hi
    rcases List.mem_append.mp hi with hi | hi
    · exact ih (fun idx hidx => hn idx (Nat.le_succ_of_le hidx)) i hi
    split at hi
    · cases hi
    next hchunk =>
      rw [List.mem_singleton.mp hi]
      exact ⟨rfl, chunk_lt .., by omega, (hn (n + 1) (Nat.le_refl _)).resolve_right hchunk⟩

theorem movzChain_writes (dst : VReg)
    (h : ∀ idx < chunks, 16 * idx < dst.cls.bits ∨ chunk value idx = 0) (hchunks : 1 ≤ chunks) :
    ∀ i ∈ movzChain dst value chunks, i.dst = dst ∧ i.Encodes := by
  intro i hi
  rcases List.mem_cons.mp hi with rfl | hi
  · exact ⟨rfl, chunk_lt ..⟩
  · exact movks_writes _ (fun idx hidx => h idx (by omega)) i hi

/-- The instructions for a constant write its register and have encodings. -/
theorem emitIconst_writes (dst : VReg) (imm : ℤ) (hcls : is32 = decide (dst.cls = .gpr32)) :
    ∀ i ∈ emitIconst dst is32 imm, i.dst = dst ∧ i.Encodes := by
  have hwidth : 16 * chunkCount is32 = dst.cls.bits := by
    rw [hcls]
    cases dst.cls <;> decide
  have hchunks : 1 ≤ chunkCount is32 := by cases is32 <;> decide
  intro i hi
  unfold emitIconst at hi
  split at hi
  next h =>
    rw [List.mem_singleton.mp hi]
    exact ⟨rfl, by rw [Inst.Encodes]; omega⟩
  split at hi
  · rw [List.mem_singleton.mp hi]
    exact ⟨rfl, Nat.mod_lt _ (by decide)⟩
  split at hi
  · rcases List.mem_cons.mp hi with rfl | hi
    · exact ⟨rfl, Nat.lt_of_le_of_lt (Nat.sub_le ..) (by decide)⟩
    · exact movks_writes _ (fun idx hidx => .inl (by omega)) i hi
  · exact movzChain_writes dst (fun idx hidx => .inl (by omega)) hchunks i hi

end TrustCg.Lower.A64
