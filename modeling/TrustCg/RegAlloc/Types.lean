import Mathlib.Data.Int.Notation
import Mathlib.Data.Nat.Notation
import TrustCg.Lib.Flow

/-!
# The register allocator's view of a machine function

The types of `machine_types.rs`: operands, instructions with their definitions and
uses told apart, blocks with predecessor and successor lists, and a function as an
arena of instructions, an arena of blocks and a layout order.  Blocks,
instructions and stack slots are named by index, as in the source.

`Edge` and `Path` are the control-flow graph the successor lists describe.
-/

namespace TrustCg.RegAlloc

/-- Register classes. -/
inductive RegClass
  | gpr64
  | gpr32
  | fpr128
  | fpr64
  | fpr32
  | fpr16
  | fpr8
  | system
  deriving DecidableEq, Repr

/-- `VReg`: two registers are the same only if their classes agree as well. -/
structure VReg where
  id : ℕ
  cls : RegClass
  deriving DecidableEq, Repr

/-- `PReg`, a physical register number. -/
abbrev PReg := ℕ

/-- A block's number. -/
abbrev BlockId := ℕ

/-- An index of the arena. -/
abbrev InstId := ℕ

/-- A slot's number. -/
abbrev StackSlotId := ℕ

/-- `InstFlags`, a bit field. -/
abbrev InstFlags := ℕ

namespace InstFlags

/-- `IS_CALL` -/
def isCall : InstFlags := 0x01
/-- `IS_BRANCH` -/
def isBranch : InstFlags := 0x02
/-- `IS_RETURN` -/
def isReturn : InstFlags := 0x04
/-- `IS_TERMINATOR` -/
def isTerminator : InstFlags := 0x08
/-- `HAS_SIDE_EFFECTS` -/
def hasSideEffects : InstFlags := 0x10
/-- `IS_PSEUDO` -/
def isPseudo : InstFlags := 0x20
/-- `READS_MEMORY` -/
def readsMemory : InstFlags := 0x40
/-- `WRITES_MEMORY` -/
def writesMemory : InstFlags := 0x80
/-- `IS_PHI` -/
def isPhi : InstFlags := 0x100

/-- All bits of `other` are set. -/
def contains (flags other : InstFlags) : Bool := flags &&& other == other

end InstFlags

/-- `PSEUDO_SPILL_STORE`. -/
def pseudoSpillStore : ℕ := 0xFFF0

/-- `PSEUDO_SPILL_LOAD`. -/
def pseudoSpillLoad : ℕ := 0xFFF1

/-- `RegAllocOperand`; a floating-point immediate is kept as its bit pattern. -/
inductive Operand
  | vreg (v : VReg)
  | preg (p : PReg)
  | imm (value : ℤ)
  | fimm (bits : BitVec 64)
  | block (b : BlockId)
  | stackSlot (s : StackSlotId)
  deriving DecidableEq, Repr

/-- The vreg, if the operand is one. -/
def Operand.asVreg : Operand → Option VReg
  | .vreg v => some v
  | _ => none

/-- `RegAllocInst`. -/
structure MachInst where
  opcode : ℕ
  defs : List Operand
  uses : List Operand
  implicitDefs : List PReg
  implicitUses : List PReg
  flags : InstFlags
  tiedOperands : List (ℕ × ℕ)
  deriving DecidableEq, Repr

/-- The vregs that are written. -/
def MachInst.vregDefs (inst : MachInst) : List VReg := inst.defs.filterMap Operand.asVreg

/-- The vregs that are read. -/
def MachInst.vregUses (inst : MachInst) : List VReg := inst.uses.filterMap Operand.asVreg

/-- `RegAllocBlock`. -/
structure MachBlock where
  insts : List InstId
  preds : List BlockId
  succs : List BlockId
  loopDepth : ℕ
  deriving DecidableEq, Repr

/-- `RegAllocFunction`, without its name and the table of stack slots, which no
function of the model reads. -/
structure MachFunction where
  insts : List MachInst
  blocks : List MachBlock
  blockOrder : List BlockId
  entryBlock : BlockId
  nextVreg : ℕ
  deriving DecidableEq, Repr

namespace MachFunction

/-- The successor list of a block; an index out of range has none. -/
def succs (f : MachFunction) (b : BlockId) : List BlockId :=
  match f.blocks[b]? with
  | some block => block.succs
  | none => []

variable (f : MachFunction)

/-- The instruction list of a block; an index out of range has none. -/
def blockInsts (b : BlockId) : List InstId :=
  match f.blocks[b]? with
  | some block => block.insts
  | none => []

/-- Control can go from `b` to `c`: `c` is a successor of `b` and exists. -/
def Edge (b c : BlockId) : Prop := c ∈ f.succs b ∧ c < f.blocks.length

instance (b c : BlockId) : Decidable (f.Edge b c) :=
  inferInstanceAs (Decidable (_ ∧ _))

/-- Control can enter `b` from the entry block after the blocks of `trail`. -/
def Path (b : BlockId) (trail : List BlockId) : Prop :=
  f.entryBlock < f.blocks.length ∧ Flow.Trail f.entryBlock f.Edge b trail

/-- Control can reach the block. -/
def Reachable (f : MachFunction) (b : BlockId) : Prop :=
  f.entryBlock < f.blocks.length ∧ Flow.Reachable f.entryBlock f.Edge b

variable {f : MachFunction} {b c : BlockId} {trail : List BlockId}

theorem Path.reachable (h : f.Path b trail) : f.Reachable b := ⟨h.1, trail, h.2⟩

theorem Reachable.lt (h : f.Reachable b) : b < f.blocks.length :=
  Flow.Reachable.mem_of_closed (S := fun b => b < f.blocks.length) h.1 (fun _ _ _ hab => hab.2) h.2

theorem Reachable.step (h : f.Reachable b) (hbc : f.Edge b c) : f.Reachable c :=
  ⟨h.1, Flow.Reachable.step h.2 hbc⟩

theorem lt_of_mem_succs (h : c ∈ f.succs b) : b < f.blocks.length := by
  unfold succs at h
  split at h
  next block hb => exact (List.getElem?_eq_some_iff.1 hb).1
  · simp at h

end MachFunction

end TrustCg.RegAlloc
