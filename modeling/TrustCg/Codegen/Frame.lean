import TrustCg.Ir.Types
import TrustCg.RegAlloc.Regs

/-!
# Stack frames

`compute_frame_layout` and `emit_prologue` of `frame.rs`: which callee-saved pairs a
function saves, how large its frame is, and the instructions that set the frame up.

`compute_frame_layout_inner` reads a few facts off the function (`FrameFacts`); every
combination of them is allowed here.  Sizes are `u32` and wrap.  `PrologueState` is what a
prologue does to the machine: it moves `SP`, sets `FP`, and stores registers.
-/

namespace TrustCg.Codegen

open Ir (MachInst)
open RegAlloc (PReg pregClass)

/-! ## The layout -/

/-- Two registers saved by one STP. -/
structure CalleeSavedPair where
  reg1 : PReg
  reg2 : PReg
  fpOffset : ℤ
  isFpr : Bool
  deriving DecidableEq, Repr

/-- The layout of a frame. -/
structure FrameLayout where
  calleeSavedPairs : List CalleeSavedPair
  calleeSavedAreaSize : BitVec 32
  spillAreaSize : BitVec 32
  localAreaSize : BitVec 32
  outgoingArgAreaSize : BitVec 32
  totalFrameSize : BitVec 32
  usesFramePointer : Bool
  isLeaf : Bool
  usesRedZone : Bool
  fpToSpillOffset : BitVec 32
  hasDynamicAlloc : Bool
  deriving DecidableEq, Repr

/-- What `compute_frame_layout_inner` finds out about a function: `gprUsed` has bit
`n` for `X(19+n)` and `fprUsed` bit `n` for `V(8+n)`. -/
structure FrameFacts where
  hasDynamicAlloc : Bool
  hasCalls : Bool
  gprUsed : BitVec 16
  fprUsed : BitVec 8
  hasFramePointerDependencies : Bool
  hasStackProtector : Bool
  stackSlotArea : BitVec 32
  deriving DecidableEq, Repr

/-- Bytes below SP that a leaf may use. -/
def redZoneSize : BitVec 32 := 128

/-- The alignment of SP. -/
def stackAlignment : BitVec 32 := 16

/-- `align_up` of `frame.rs`. -/
def alignUp (value align : BitVec 32) : BitVec 32 := (value + align - 1) &&& ~~~(align - 1)

/-- `gpr_pair_regs`: the pairs with their bits of `gprUsed`. -/
def gprPairRegs : List (PReg × PReg × BitVec 16) :=
  [(19, 20, 0b11), (21, 22, 0b1100), (23, 24, 0b110000), (25, 26, 0b11000000),
    (27, 28, 0b1100000000)]

/-- The pairs of saved vector registers. -/
def fprPairRegs : List (PReg × PReg × BitVec 8) :=
  [(72, 73, 0b11), (74, 75, 0b1100), (76, 77, 0b110000), (78, 79, 0b11000000)]

/-- The loop that pushes the pairs in use, with `csa_offset`. -/
def pushPairs {w : ℕ} (used : BitVec w) (isFpr : Bool) :
    List (PReg × PReg × BitVec w) → List CalleeSavedPair × ℤ → List CalleeSavedPair × ℤ
  | [], acc => acc
  | (reg1, reg2, mask) :: regs, (pairs, csaOffset) =>
    if used &&& mask ≠ 0 then
      pushPairs used isFpr regs
        (pairs ++ [⟨reg1, reg2, csaOffset - 16, isFpr⟩], csaOffset - 16)
    else pushPairs used isFpr regs (pairs, csaOffset)

/-- The pair of the frame pointer and the link register. -/
def fpLrPair : CalleeSavedPair := ⟨29, 30, 0, false⟩

variable (facts : FrameFacts)

/-- The callee-saved pairs of a function. -/
def calleeSavedPairs (usesFramePointer : Bool) : List CalleeSavedPair :=
  let start := if usesFramePointer then [fpLrPair] else []
  (pushPairs facts.fprUsed true fprPairRegs
    (pushPairs facts.gprUsed false gprPairRegs (start, -16))).1

variable (outgoingArgSize : BitVec 32)

/-- The outgoing argument area; a leaf has none. -/
def outgoingArgArea : BitVec 32 :=
  if facts.hasCalls then alignUp outgoingArgSize stackAlignment else 0

/-- A leaf that fits the red zone. -/
def canUseZeroFrame (enableRedZone : Bool) : Bool :=
  enableRedZone && !facts.hasCalls && !facts.hasDynamicAlloc
    && outgoingArgArea facts outgoingArgSize == 0 && facts.gprUsed == 0 && facts.fprUsed == 0
    && !facts.hasStackProtector && !facts.hasFramePointerDependencies

/-- `compute_frame_layout_inner`. -/
def computeFrameLayout (enableRedZone : Bool) : FrameLayout :=
  let isLeaf := !facts.hasCalls
  let outgoingArgAreaSize := outgoingArgArea facts outgoingArgSize
  let canUseZeroFrame := canUseZeroFrame facts outgoingArgSize enableRedZone
  let usesFramePointer := !canUseZeroFrame
  let stackSlotArea := if canUseZeroFrame then 0 else facts.stackSlotArea
  let pairs := calleeSavedPairs facts usesFramePointer
  let calleeSavedAreaSize := BitVec.ofNat 32 pairs.length * 16
  let totalFrameSize :=
    alignUp (calleeSavedAreaSize + stackSlotArea + outgoingArgAreaSize) stackAlignment
  let usesRedZone := enableRedZone && isLeaf && !facts.hasDynamicAlloc && stackSlotArea == 0
    && outgoingArgAreaSize == 0 && decide (totalFrameSize ≤ redZoneSize)
  { calleeSavedPairs := pairs
    calleeSavedAreaSize := calleeSavedAreaSize
    spillAreaSize := stackSlotArea
    localAreaSize := 0
    outgoingArgAreaSize := outgoingArgAreaSize
    totalFrameSize := totalFrameSize
    usesFramePointer := usesFramePointer
    isLeaf := isLeaf
    usesRedZone := usesRedZone
    fpToSpillOffset := -(calleeSavedAreaSize - 16)
    hasDynamicAlloc := facts.hasDynamicAlloc }

/-- How far SP moves after the pushes. -/
def FrameLayout.spAdjustment (layout : FrameLayout) : BitVec 32 :=
  layout.totalFrameSize - layout.calleeSavedAreaSize

/-! ## The prologue -/

/-- `STP reg1, reg2, [SP, #offset]!` -/
def makeStpPreIndex (reg1 reg2 : PReg) (offset : ℤ) : MachInst :=
  { opcode := .StpPreIndex, operands := [.preg reg1, .preg reg2, .special .sp, .imm offset] }

/-- `STP reg1, reg2, [SP, #offset]` -/
def makeStpOffset (reg1 reg2 : PReg) (offset : ℤ) : MachInst :=
  { opcode := .StpRI, operands := [.preg reg1, .preg reg2, .special .sp, .imm offset] }

/-- `ADD FP, SP, #imm` -/
def makeAddFpSpImm (imm : ℤ) : MachInst :=
  { opcode := .AddRI, operands := [.preg 29, .special .sp, .imm imm] }

/-- `MOV FP, SP` -/
def makeMovSpToFp : MachInst := makeAddFpSpImm 0

/-- `SUB SP, SP, #imm` -/
def makeSubSpImm (imm : ℤ) : MachInst :=
  { opcode := .SubRI, operands := [.special .sp, .special .sp, .imm imm] }

/-- `AARCH64_SP_ADJUST_CHUNK`: the largest multiple of 16 that fits a 12-bit immediate. -/
def spAdjustChunk : ℕ := 4095 / 16 * 16

/-- The amounts `push_sp_imm_chunks` splits an adjustment into. -/
def spImmChunks : ℕ → ℕ → List ℕ
  | 0, _ => []
  | fuel + 1, imm =>
    if 0 < imm then min imm spAdjustChunk :: spImmChunks fuel (imm - min imm spAdjustChunk)
    else []

/-- `push_sub_sp_imm`; every chunk is at least one byte. -/
def subSpImm (imm : BitVec 32) : List MachInst :=
  (spImmChunks imm.toNat imm.toNat).map fun chunk : ℕ => makeSubSpImm chunk

/-- The D view of a vector register. -/
def lower64FprAlias (reg : PReg) : PReg :=
  match pregClass reg with
  | .fpr128 => reg + 32
  | .fpr32 => reg - 32
  | _ => reg

/-- `storage_regs_for_callee_saved_pair`. -/
def storageRegs (pair : CalleeSavedPair) : PReg × PReg :=
  if pair.isFpr then (lower64FprAlias pair.reg1, lower64FprAlias pair.reg2)
  else (pair.reg1, pair.reg2)

/-- The store of the extra pair `i`, from the bottom of the callee-saved area up: the
lowest one allocates the area, and each pair is stored with its registers reversed. -/
def storeExtraPair (pairs : List CalleeSavedPair) (csa : ℤ) (i : ℕ) : MachInst :=
  let regs := storageRegs (pairs.getD i fpLrPair)
  let spOffset : ℤ := (pairs.length - 1 - i : ℕ) * 16
  if spOffset = 0 then makeStpPreIndex regs.2 regs.1 (-csa)
  else makeStpOffset regs.2 regs.1 spOffset

/-- The prologue: pushes, FP, then SP. -/
def emitPrologue (layout : FrameLayout) : List MachInst :=
  let pairs := layout.calleeSavedPairs
  if layout.usesRedZone && layout.spAdjustment == 0 && pairs.length ≤ 1 then
    if layout.usesFramePointer && !pairs.isEmpty then
      [makeStpPreIndex 29 30 (-16), makeMovSpToFp]
    else []
  else if pairs.isEmpty then subSpImm layout.spAdjustment
  else
    let csa : ℤ := layout.calleeSavedAreaSize.toNat
    (List.range' 1 (pairs.length - 1)).reverse.map (storeExtraPair pairs csa)
      ++ [if pairs.length - 1 = 0 then makeStpPreIndex 29 30 (-csa)
          else makeStpOffset 29 30 (csa - 16)]
      ++ (if layout.usesFramePointer then [makeAddFpSpImm (csa - 16)] else [])
      ++ (if 0 < layout.spAdjustment then subSpImm layout.spAdjustment else [])

/-! ## What a prologue does -/

/-- The stack and frame pointers and the registers stored so far, with their
addresses. -/
structure PrologueState where
  sp : ℤ
  fp : ℤ
  stores : List (PReg × ℤ)
  deriving DecidableEq, Repr

/-- One prologue instruction. -/
def PrologueState.step (inst : MachInst) (s : PrologueState) : Option PrologueState :=
  match inst.opcode, inst.operands with
  | .StpPreIndex, [.preg r1, .preg r2, .special .sp, .imm offset] =>
    some { s with
      sp := s.sp + offset
      stores := s.stores ++ [(r1, s.sp + offset), (r2, s.sp + offset + 8)] }
  | .StpRI, [.preg r1, .preg r2, .special .sp, .imm offset] =>
    some { s with stores := s.stores ++ [(r1, s.sp + offset), (r2, s.sp + offset + 8)] }
  | .AddRI, [.preg 29, .special .sp, .imm imm] => some { s with fp := s.sp + imm }
  | .SubRI, [.special .sp, .special .sp, .imm imm] => some { s with sp := s.sp - imm }
  | _, _ => none

/-- A sequence of prologue instructions. -/
def PrologueState.run : List MachInst → PrologueState → Option PrologueState
  | [], s => some s
  | inst :: insts, s => (s.step inst).bind (PrologueState.run insts)

end TrustCg.Codegen
