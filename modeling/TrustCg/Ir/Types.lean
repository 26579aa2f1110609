import TrustCg.Ir.Opcode
import TrustCg.RegAlloc.Types

/-!
# Machine functions before register allocation

The shared machine IR the optimizer works on: operands, instructions whose operand
list does not tell definitions from uses, blocks with predecessor and successor
lists, and a function as an arena of instructions and an arena of blocks.
Registers, ids and flags are the ones the register allocator uses as well.

A block or instruction index out of range, where the source would panic, names an
empty block or an instruction that does nothing.
-/

namespace TrustCg.Ir

open RegAlloc (RegClass VReg PReg BlockId InstId StackSlotId InstFlags)

/-- The width of a class. -/
def sizeBits : RegClass → ℕ
  | .gpr64 => 64
  | .gpr32 => 32
  | .fpr128 => 128
  | .fpr64 => 64
  | .fpr32 => 32
  | .fpr16 => 16
  | .fpr8 => 8
  | .system => 32

/-- Registers outside the numbering. -/
inductive SpecialReg
  | sp
  | xzr
  | wzr
  deriving DecidableEq, Repr

/-- `MachOperand`; a floating-point immediate is kept as its bit pattern. -/
inductive MachOperand
  | vreg (v : VReg)
  | preg (p : PReg)
  | imm (value : ℤ)
  | fimm (bits : BitVec 64)
  | block (b : BlockId)
  | stackSlot (s : StackSlotId)
  | frameIndex (i : ℤ)
  | memOp (base : PReg) (offset : ℤ)
  | special (r : SpecialReg)
  | symbol (name : String)
  | jumpTableIndex (i : ℕ)
  | incomingArg (offset : ℤ)
  deriving DecidableEq, Repr

/-- The vreg, if the operand is one. -/
def MachOperand.asVreg : MachOperand → Option VReg
  | .vreg v => some v
  | _ => none

theorem MachOperand.asVreg_eq_some {op : MachOperand} {v : VReg} :
    op.asVreg = some v ↔ op = .vreg v := by
  cases op <;> simp [asVreg]

/-- `MachInst`, without the proof annotation and the source location. -/
structure MachInst where
  opcode : AArch64Opcode
  operands : List MachOperand
  implicitDefs : List PReg := []
  implicitUses : List PReg := []
  flags : InstFlags := 0
  deriving DecidableEq, Repr

/-- A block with its edges. -/
structure MachBlock where
  insts : List InstId
  preds : List BlockId
  succs : List BlockId
  deriving DecidableEq, Repr

/-- `MachFunction`: its two arenas, the layout order and the entry block. -/
structure MachFunction where
  insts : List MachInst
  blocks : List MachBlock
  blockOrder : List BlockId
  entry : BlockId
  deriving DecidableEq, Repr

namespace MachFunction

variable {f : MachFunction} {b c : BlockId}

/-- The instruction list of a block. -/
def blockInsts (f : MachFunction) (b : BlockId) : List InstId :=
  (f.blocks[b]?.map MachBlock.insts).getD []

/-- The predecessor list of a block. -/
def preds (f : MachFunction) (b : BlockId) : List BlockId :=
  (f.blocks[b]?.map MachBlock.preds).getD []

/-- The successor list of a block. -/
def succs (f : MachFunction) (b : BlockId) : List BlockId :=
  (f.blocks[b]?.map MachBlock.succs).getD []

theorem succs_of_ge (h : f.blocks.length ≤ b) : f.succs b = [] := by
  rw [succs, List.getElem?_eq_none h]
  rfl

/-- Control can go from `b` to `c` by the successor lists. -/
def Edge (f : MachFunction) (b c : BlockId) : Prop := c ∈ f.succs b

instance (f : MachFunction) (b c : BlockId) : Decidable (f.Edge b c) :=
  inferInstanceAs (Decidable (_ ∈ _))

/-- Control can reach the block from the entry. -/
def Reachable (f : MachFunction) (b : BlockId) : Prop := Flow.Reachable f.entry f.Edge b

/-- Every block control can be in: the entry and whatever a successor list names. -/
def mentioned (f : MachFunction) : List BlockId := f.entry :: f.blocks.flatMap MachBlock.succs

theorem mem_mentioned_of_mem_succs (h : c ∈ f.succs b) : c ∈ f.mentioned := by
  rw [succs] at h
  cases hb : f.blocks[b]? with
  | none => rw [hb] at h; simp at h
  | some block =>
    rw [hb] at h
    refine .tail _ (List.mem_flatMap.2 ⟨block, List.mem_of_getElem? hb, h⟩)

end MachFunction

end TrustCg.Ir
