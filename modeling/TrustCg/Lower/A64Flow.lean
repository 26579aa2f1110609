import Mathlib.Data.BitVec
import TrustCg.Lib.Loop
import TrustCg.Lower.A64

/-!
# AArch64 compares and branches

Control flow over virtual registers: comparisons that set the flags, conditional and
unconditional branches, and the indirect branch through a table of offsets.  A program has
the blocks that a lowering created; a branch to any other block leaves it.

* `Flags.compare`, `Cond.holds` : the flags of `CMP` and the conditions over them.
* `holds_eq`, `holds_lt`, `holds_hi` : the conditions as comparisons of words.
* `Exits` : the run leaves through a block; it leaves through one only (`Exits.unique`).
-/

namespace TrustCg.Lower.A64

open BitVec

/-! ## Flags -/

/-- `N`, `Z`, `C` and `V`. -/
structure Flags where
  n : Bool
  z : Bool
  c : Bool
  v : Bool
  deriving DecidableEq, Repr

/-- The flags of `CMP a, b`. -/
def Flags.compare {w : ℕ} (a b : BitVec w) : Flags where
  n := (a - b).msb
  z := a - b == 0
  c := decide (b.toNat ≤ a.toNat)
  v := a.msb != b.msb && (a - b).msb != a.msb

/-- The conditions that a switch branches on. -/
inductive Cond
  | eq
  | lt
  | hi
  deriving DecidableEq, Repr

/-- A condition over the flags. -/
def Cond.holds (f : Flags) : Cond → Bool
  | .eq => f.z
  | .lt => f.n != f.v
  | .hi => f.c && !f.z

section

variable {w : ℕ} (a b : BitVec w)

theorem holds_eq : Cond.eq.holds (.compare a b) = decide (a = b) := by
  rw [Cond.holds, Flags.compare, Bool.eq_iff_iff, beq_iff_eq, decide_eq_true_iff]
  exact sub_eq_zero

theorem holds_hi : Cond.hi.holds (.compare a b) = decide (b.toNat < a.toNat) := by
  have hz : (a - b == 0) = decide (a = b) := holds_eq a b
  rw [Cond.holds, Flags.compare, hz, Bool.eq_iff_iff]
  simp only [Bool.and_eq_true, decide_eq_true_iff, Bool.not_eq_true', decide_eq_false_iff_not,
    ← toNat_inj]
  omega

theorem holds_lt : Cond.lt.holds (.compare a b) = decide (a.toInt < b.toInt) := by
  rcases Nat.eq_zero_or_pos w with rfl | hw
  · rw [eq_nil a, eq_nil b]
    rfl
  have hpow : 2 ^ w = 2 * 2 ^ (w - 1) := by
    rw [← Nat.pow_succ']
    congr 1
    omega
  have hsub : (2 ^ w - b.toNat + a.toNat) % 2 ^ w
      = if b.toNat ≤ a.toNat then a.toNat - b.toNat else 2 ^ w - b.toNat + a.toNat := by
    split
    · rw [show 2 ^ w - b.toNat + a.toNat = a.toNat - b.toNat + 2 ^ w by omega, Nat.add_mod_right,
        Nat.mod_eq_of_lt (by omega)]
    · exact Nat.mod_eq_of_lt (by omega)
  rw [Cond.holds, Flags.compare, Bool.eq_iff_iff, bne_iff_ne, ne_eq, Bool.eq_iff_iff]
  simp only [msb_eq_decide, toNat_sub, hsub, toInt_eq_toNat_cond,
    Bool.and_eq_true, bne_iff_ne, ne_eq, decide_eq_decide, decide_eq_true_iff]
  split <;> split <;> split <;> omega

end

/-! ## Programs -/

/-- A block's number. -/
abbrev Block := ℕ

/-- The instructions of a lowered switch. -/
inductive FlowInst
  | data (i : Inst)
  | cmpRI (a : VReg) (imm : ℕ)
  | cmpRR (a b : VReg)
  | bCond (cc : Cond) (target : Block)
  | b (target : Block)
  | adr (dst : VReg) (table : ℕ)
  | ldrswRO (dst base index : VReg)
  | br (target : VReg)
  deriving DecidableEq, Repr

/-- The blocks of a lowering, the ones it created, and the memory image: where the tables
are, the words at an address, and the block that starts there. -/
structure Program where
  blocks : Block → List FlowInst
  created : Block → Bool
  tableAddr : ℕ → BitVec 64
  word : BitVec 64 → BitVec 32
  blockAt : BitVec 64 → Option Block

/-- Where a run is: before some code, outside the lowering, or at a bad address. -/
inductive Position
  | code (rest : List FlowInst)
  | left (target : Block)
  | fault
  deriving DecidableEq, Repr

/-- The machine. -/
structure Machine where
  pos : Position
  regs : Regs
  flags : Flags

variable (P : Program)

/-- Control goes to a block. -/
def Program.enter (b : Block) : Position :=
  if P.created b then .code (P.blocks b) else .left b

/-- One instruction; a compare works at the width of its first operand. -/
def Program.exec (m : Machine) (rest : List FlowInst) : FlowInst → Machine
  | .data i => ⟨.code rest, A64.step i m.regs, m.flags⟩
  | .cmpRI a imm =>
    ⟨.code rest, m.regs, .compare (view a.cls (m.regs a.id)) (BitVec.ofNat a.cls.bits imm)⟩
  | .cmpRR a b =>
    ⟨.code rest, m.regs, .compare (view a.cls (m.regs a.id)) (view a.cls (m.regs b.id))⟩
  | .bCond cc target =>
    ⟨if cc.holds m.flags then P.enter target else .code rest, m.regs, m.flags⟩
  | .b target => ⟨P.enter target, m.regs, m.flags⟩
  | .adr dst table => ⟨.code rest, Function.update m.regs dst.id (P.tableAddr table), m.flags⟩
  | .ldrswRO dst base index =>
    ⟨.code rest, Function.update m.regs dst.id
      ((P.word (m.regs base.id + m.regs index.id <<< 2)).signExtend 64), m.flags⟩
  | .br target =>
    ⟨match P.blockAt (m.regs target.id) with
      | some b => P.enter b
      | none => .fault, m.regs, m.flags⟩

/-- A step; code that runs out is a fault. -/
def Program.step (m : Machine) : Option Machine :=
  match m.pos with
  | .code (i :: rest) => some (P.exec m rest i)
  | .code [] => some { m with pos := .fault }
  | .left _ | .fault => none

/-- The run leaves through a block. -/
def Exits (m : Machine) (target : Block) : Prop :=
  ∃ fuel m', Loop.run P.step fuel m = some m' ∧ m'.pos = .left target

section

variable {P : Program} {m : Machine} {rest : List FlowInst} {ρ : Regs} {f : Flags} {t : Block}

theorem Exits.unique {t' : Block} (h : Exits P m t) (h' : Exits P m t') : t = t' := by
  obtain ⟨n, m1, hrun, hpos⟩ := h
  obtain ⟨n', m2, hrun', hpos'⟩ := h'
  have h1 := Loop.run_mono _ _ _ _ (Nat.le_max_left n n') hrun
  have h2 := Loop.run_mono _ _ _ _ (Nat.le_max_right n n') hrun'
  rw [h1] at h2
  cases h2
  exact Position.left.inj (hpos.symm.trans hpos')

theorem Exits.step {i : FlowInst} (h : Exits P (P.exec ⟨.code (i :: rest), ρ, f⟩ rest i) t) :
    Exits P ⟨.code (i :: rest), ρ, f⟩ t := by
  obtain ⟨n, m', hrun, hpos⟩ := h
  exact ⟨n + 1, m', hrun, hpos⟩

theorem exits_left : Exits P ⟨.left t, ρ, f⟩ t := ⟨1, ⟨.left t, ρ, f⟩, rfl, rfl⟩

theorem exits_enter {b : Block} (h : P.created b = false) : Exits P ⟨P.enter b, ρ, f⟩ b := by
  rw [Program.enter, h]
  exact exits_left

theorem Exits.bCond {cc : Cond} {b : Block}
    (htaken : cc.holds f = true → Exits P ⟨P.enter b, ρ, f⟩ t)
    (hnot : cc.holds f = false → Exits P ⟨.code rest, ρ, f⟩ t) :
    Exits P ⟨.code (.bCond cc b :: rest), ρ, f⟩ t := by
  refine .step ?_
  rw [Program.exec]
  cases hcc : cc.holds f with
  | true => exact htaken hcc
  | false => exact hnot hcc

theorem Exits.data : ∀ (code : List Inst) (ρ : Regs),
    Exits P ⟨.code rest, target.exec code ρ, f⟩ t →
    Exits P ⟨.code (code.map .data ++ rest), ρ, f⟩ t := by
  intro code
  induction code with
  | nil => intro ρ h; exact h
  | cons i code ih => intro ρ h; exact .step (ih _ h)

end

end TrustCg.Lower.A64
