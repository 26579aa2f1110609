import TrustCg.Lower.A64

/-!
# Emitting AArch64 data instructions

The selector's emission helpers, each with the value its register shows afterwards.

* `define`, `magicRR`, `magicShiftImm`, `magicMat`, `definePair` : the helpers.
* `Has`, `Computes` : a register in use shows a value; a generator's result does.
-/

namespace TrustCg.Lower.A64

open Emission

/-! ## The helpers -/

/-- An emitter of instructions. -/
abbrev SelM := Emit Inst

/-- A fresh register and the instruction that writes it. -/
def define (cls : RegClass) (f : VReg → Inst) : SelM VReg := do
  let r ← fresh
  push (f ⟨r, cls⟩)
  return ⟨r, cls⟩

/-- A fresh register for `op a b`. -/
def magicRR (op : BinOp) (cls : RegClass) (a b : Operand) : SelM VReg :=
  define cls fun dst => .bin op dst a b

/-- The same on 64 bits. -/
def magicRR64 (op : BinOp) (a b : Operand) : SelM VReg := magicRR op .gpr64 a b

/-- A fresh register for a shift. -/
def magicShiftImm (op : ShiftOp) (cls : RegClass) (src : Operand) (amount : ℕ) : SelM VReg :=
  define cls fun dst => .shiftImm op dst src amount

/-- A fresh register for a constant. -/
def magicMat (cls : RegClass) (imm : ℤ) : SelM VReg := do
  let r ← fresh
  pushAll (emitIconst ⟨r, cls⟩ (decide (cls = .gpr32)) imm)
  return ⟨r, cls⟩

/-- Two instructions, the first into a temporary that is allocated after the result. -/
def definePair (cls : RegClass) (first second : VReg → VReg → Inst) : SelM VReg := do
  let dst ← fresh
  let t ← fresh
  push (first ⟨dst, cls⟩ ⟨t, cls⟩)
  push (second ⟨dst, cls⟩ ⟨t, cls⟩)
  return ⟨dst, cls⟩

/-! ## What each generator delivers -/

/-- A register that is in use and shows a value at a class. -/
structure Has (next : ℕ) (ρ : Regs) (r : VReg) (cls : RegClass) (v : BitVec cls.bits) : Prop where
  lt : r.id < next
  view_eq : view cls (ρ r.id) = v

/-- A generator whose result shows a value. -/
def Computes (act : SelM VReg) (next : ℕ) (ρ : Regs) (cls : RegClass) (v : BitVec cls.bits) :
    Prop :=
  Delivers target act next ρ fun q n t => Has n t q cls v

section

variable {next : ℕ} {ρ : Regs} {cls : RegClass} {r : VReg} {act : SelM VReg}

theorem Has.keep {v : BitVec cls.bits} (h : Has next ρ r cls v) {n : ℕ} {t : Regs}
    (hn : next ≤ n) (hkeep : ∀ r < next, target.reg t r = target.reg ρ r) : Has n t r cls v :=
  ⟨Nat.lt_of_lt_of_le h.lt hn, (congrArg (view cls) (hkeep r.id h.lt)).trans h.view_eq⟩

theorem Has.low {v : BitVec 64} (h : Has next ρ r .gpr64 v) :
    Has next ρ r .gpr32 (v.setWidth 32) := by
  refine ⟨h.lt, ?_⟩
  rw [← h.view_eq, view, view]
  exact (BitVec.setWidth_setWidth_of_le _ (by decide)).symm

theorem Computes.bind {v : BitVec cls.bits} {α : Type} {k : VReg → SelM α}
    {R : α → ℕ → Regs → Prop} (h : Computes act next ρ cls v)
    (hk : ∀ r n t, next ≤ n → (∀ r < next, target.reg t r = target.reg ρ r) → Has n t r cls v →
      Delivers target (k r) n t R) : Delivers target (act >>= k) next ρ R :=
  Delivers.bind h hk

theorem Computes.pure {v : BitVec cls.bits} (h : Has next ρ r cls v) :
    Computes (Pure.pure r) next ρ cls v :=
  Delivers.pure h

theorem Computes.of_eq {u v : BitVec cls.bits}
    (h : Computes act next ρ cls u) (huv : u = v) : Computes act next ρ cls v :=
  huv ▸ h

theorem Computes.low {v : BitVec 64} (h : Computes act next ρ .gpr64 v) :
    Computes act next ρ .gpr32 (v.setWidth 32) :=
  Delivers.mono h fun _ _ _ hq => hq.low

theorem Computes.define {f : VReg → Inst} {dcls : RegClass} {v : BitVec cls.bits}
    (hdst : (f ⟨next, dcls⟩).dst = ⟨next, dcls⟩) (henc : (f ⟨next, dcls⟩).Encodes)
    (hv : view cls ((f ⟨next, dcls⟩).value ρ) = v) : Computes (define dcls f) next ρ cls v := by
  refine .run ⟨next, dcls⟩ [f ⟨next, dcls⟩] (fun _ => rfl)
    (List.forall_mem_singleton.mpr henc) (Nat.le_succ next) (fun r hr => step_of_ne ?_ ρ)
    ⟨Nat.lt_succ_self next, ?_⟩
  · rw [hdst]
    exact Nat.ne_of_lt hr
  have hself := step_self (f ⟨next, dcls⟩) ρ
  rw [hdst] at hself
  rw [← hv, ← hself]
  rfl

/-- `magic_mat` puts the constant into its register. -/
theorem Computes.magicMat (imm : ℤ) :
    Computes (magicMat cls imm) next ρ cls (BitVec.ofInt cls.bits imm) := by
  have hwrites := emitIconst_writes ⟨next, cls⟩ imm rfl
  refine .run ⟨next, cls⟩ (emitIconst ⟨next, cls⟩ (decide (cls = .gpr32)) imm)
    (fun _ => rfl)
    (fun i hi => (hwrites i hi).2) (Nat.le_succ next) (fun r hr => ?_)
    ⟨Nat.lt_succ_self next, exec_emitIconst ⟨next, cls⟩ rfl imm ρ⟩
  exact exec_of_dst ⟨next, cls⟩ (Nat.ne_of_lt hr) _ ρ fun i hi => (hwrites i hi).1

variable {a b src : VReg} {u v : BitVec cls.bits} {k : ℕ}

theorem Computes.lsr (h : Has next ρ src cls v) (hk : k < cls.bits) :
    Computes (magicShiftImm .lsrRI cls (.vreg src) k) next ρ cls (v >>> k) :=
  Computes.define rfl hk ((view_setWidth ..).trans (by rw [← h.view_eq]; rfl))

theorem Computes.asr (h : Has next ρ src cls v) (hk : k < cls.bits) :
    Computes (magicShiftImm .asrRI cls (.vreg src) k) next ρ cls (v.sshiftRight k) :=
  Computes.define rfl hk ((view_setWidth ..).trans (by rw [← h.view_eq]; rfl))

section

variable (ha : Has next ρ a cls u) (hb : Has next ρ b cls v)
include ha hb

theorem Has.value_add (r : ℕ) :
    view cls ((Inst.bin .addRR ⟨r, cls⟩ (.vreg a) (.vreg b)).value ρ) = u + v := by
  rw [← ha.view_eq, ← hb.view_eq]
  exact view_setWidth ..

theorem Has.value_sub (r : ℕ) :
    view cls ((Inst.bin .subRR ⟨r, cls⟩ (.vreg a) (.vreg b)).value ρ) = u - v := by
  rw [← ha.view_eq, ← hb.view_eq]
  exact view_setWidth ..

theorem Has.value_addShift (r : ℕ) :
    view cls ((Inst.shifted .addRRShift ⟨r, cls⟩ (.vreg a) (.vreg b) k).value ρ) = u + v <<< k := by
  rw [← ha.view_eq, ← hb.view_eq]
  exact view_setWidth ..

theorem Has.value_subShift (r : ℕ) :
    view cls ((Inst.shifted .subRRShift ⟨r, cls⟩ (.vreg a) (.vreg b) k).value ρ) = u - v <<< k := by
  rw [← ha.view_eq, ← hb.view_eq]
  exact view_setWidth ..

theorem Computes.add : Computes (magicRR .addRR cls (.vreg a) (.vreg b)) next ρ cls (u + v) :=
  Computes.define rfl trivial (ha.value_add hb next)

theorem Computes.sub : Computes (magicRR .subRR cls (.vreg a) (.vreg b)) next ρ cls (u - v) :=
  Computes.define rfl trivial (ha.value_sub hb next)

theorem Computes.mul : Computes (magicRR .mulRR cls (.vreg a) (.vreg b)) next ρ cls (u * v) :=
  Computes.define rfl trivial
    ((view_setWidth ..).trans (by rw [← ha.view_eq, ← hb.view_eq]; rfl))

end

theorem Computes.neg (hb : Has next ρ b cls v) :
    Computes (magicRR .subRR cls .xzr (.vreg b)) next ρ cls (-v) := by
  refine .define rfl trivial ((view_setWidth ..).trans ?_)
  have hzero : view cls (Operand.xzr.read ρ) = BitVec.ofNat cls.bits 0 := BitVec.setWidth_zero ..
  rw [hzero, BitVec.zero_sub]
  exact congrArg (- ·) hb.view_eq

end

section

variable {next : ℕ} {ρ : Regs} {a b : VReg}

theorem view_gpr64 (v : BitVec 64) : view .gpr64 v = v := BitVec.setWidth_eq v

section

variable {u v : BitVec 32} (ha : Has next ρ a .gpr32 u) (hb : Has next ρ b .gpr32 v)
include ha hb

theorem Computes.umull :
    Computes (magicRR64 .umull (.vreg a) (.vreg b)) next ρ .gpr64
      (BitVec.ofNat 64 (u.toNat * v.toNat)) := by
  refine .define rfl trivial ?_
  rw [← ha.view_eq, ← hb.view_eq]
  exact view_gpr64 _

theorem Computes.smull :
    Computes (magicRR64 .smull (.vreg a) (.vreg b)) next ρ .gpr64
      (BitVec.ofInt 64 (u.toInt * v.toInt)) := by
  refine .define rfl trivial ?_
  rw [← ha.view_eq, ← hb.view_eq]
  exact view_gpr64 _

end

section

variable {u v : BitVec 64} (ha : Has next ρ a .gpr64 u) (hb : Has next ρ b .gpr64 v)
include ha hb

theorem Computes.umulh :
    Computes (magicRR64 .umulh (.vreg a) (.vreg b)) next ρ .gpr64
      (BitVec.ofNat 64 (u.toNat * v.toNat / 2 ^ 64)) := by
  refine .define rfl trivial ?_
  rw [← ha.view_eq, ← hb.view_eq, view_gpr64, view_gpr64 (ρ a.id), view_gpr64 (ρ b.id)]
  rfl

theorem Computes.smulh :
    Computes (magicRR64 .smulh (.vreg a) (.vreg b)) next ρ .gpr64
      (BitVec.ofInt 64 (u.toInt * v.toInt / 2 ^ 64)) := by
  refine .define rfl trivial ?_
  rw [← ha.view_eq, ← hb.view_eq, view_gpr64, view_gpr64 (ρ a.id), view_gpr64 (ρ b.id)]
  rfl

end

theorem Computes.definePair {cls : RegClass} {u v : BitVec cls.bits}
    {first second : VReg → VReg → Inst} {dst t : VReg} (hdst : dst = ⟨next, cls⟩)
    (ht : t = ⟨next + 1, cls⟩) (hfirst : (first dst t).dst = t ∧ (first dst t).Encodes)
    (hsecond : (second dst t).dst = dst ∧ (second dst t).Encodes)
    (hu : view cls ((first dst t).value ρ) = u)
    (hv : ∀ n σ, next ≤ n → (∀ r < next, target.reg σ r = target.reg ρ r) → Has n σ t cls u →
      view cls ((second dst t).value σ) = v) :
    Computes (definePair cls first second) next ρ cls v := by
  have hrun : ∀ code, A64.definePair cls first second ⟨next, code⟩
      = (dst, ⟨next + 2, code ++ [first dst t, second dst t]⟩) := by
    intro code
    rw [hdst, ht, List.append_cons]
    rfl
  have hkeep : ∀ r < next, step (first dst t) ρ r = ρ r := by
    intro r hr
    refine step_of_ne ?_ ρ
    rw [hfirst.1, ht]
    exact Nat.ne_of_lt (Nat.lt_succ_of_lt hr)
  have hT : Has (next + 2) (step (first dst t) ρ) t cls u := by
    have hself := step_self (first dst t) ρ
    rw [hfirst.1] at hself
    exact ⟨by rw [ht]; exact Nat.lt_succ_self _, (congrArg (view cls) hself).trans hu⟩
  refine .run _ _ hrun ?_ (Nat.le_add_right next 2) (fun r hr => ?_) ⟨?_, ?_⟩
  · exact List.forall_mem_cons.mpr ⟨hfirst.2, List.forall_mem_singleton.mpr hsecond.2⟩
  · refine (step_of_ne ?_ _).trans (hkeep r hr)
    rw [hsecond.1, hdst]
    exact Nat.ne_of_lt hr
  · rw [hdst]
    exact Nat.lt_add_of_pos_right (by decide)
  have hlast := step_self (second dst t) (step (first dst t) ρ)
  rw [hsecond.1] at hlast
  exact (congrArg (view cls) hlast).trans (hv _ _ (Nat.le_add_right next 2) hkeep hT)

end

end TrustCg.Lower.A64
