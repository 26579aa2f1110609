import Mathlib.Data.List.DropRight
import TrustCg.Lib.ParallelCopy
import TrustCg.RegAlloc.Exec
import TrustCg.RegAlloc.Liveness

/-!
# Phi elimination

`split_critical_edges` gives every edge that needs a phi copy and leaves a block with
several successors a block of its own; `eliminate_phis` then puts the copies of a
predecessor, resolved into a sequence, before its terminators and removes the phis.

The meaning of a function with phis is `Machine.edgeStep`: a block executes its other
instructions, control leaves over one of its successor edges, and the phis of the block
it enters select, all at once, the value for the predecessor slot of that edge.  Where a
block reaches a successor over several edges, the first of them enters at its first
slot, and so on (`MachFunction.slot`).
-/

namespace TrustCg.RegAlloc

open ParallelCopy (parCopy)

/-! ## Phis -/

/-- The instruction is a phi. -/
def MachInst.isPhi (inst : MachInst) : Bool := InstFlags.contains inst.flags InstFlags.isPhi

/-- What `find_terminator_pos` passes over: terminators, branches and returns. -/
def MachInst.isTail (inst : MachInst) : Bool :=
  InstFlags.contains inst.flags InstFlags.isTerminator
    || InstFlags.contains inst.flags InstFlags.isBranch
    || InstFlags.contains inst.flags InstFlags.isReturn

/-- Destination and source of a phi for a predecessor slot. -/
def MachInst.phiMove (inst : MachInst) (slot : ℕ) : Option (VReg × VReg) :=
  match inst.defs.head?.bind Operand.asVreg, inst.uses[slot]?.bind Operand.asVreg with
  | some dest, some src => some (dest, src)
  | _, _ => none

namespace MachFunction

/-- The predecessor list of a block; an index out of range has none. -/
def preds (f : MachFunction) (b : BlockId) : List BlockId :=
  match f.blocks[b]? with
  | some block => block.preds
  | none => []

variable (f : MachFunction)

/-- An instruction of the arena is a phi. -/
def isPhiAt (id : InstId) : Bool :=
  match f.insts[id]? with
  | some inst => inst.isPhi
  | none => false

/-- An instruction of the arena belongs to the tail of a block. -/
def isTailAt (id : InstId) : Bool :=
  match f.insts[id]? with
  | some inst => inst.isTail
  | none => false

/-- The phis of a block. -/
def phis (b : BlockId) : List MachInst :=
  ((f.blockInsts b).filterMap fun id => f.insts[id]?).filter MachInst.isPhi

/-- What the phis of a block assign when it is entered at a slot. -/
def phiMoves (b : BlockId) (slot : ℕ) : List (VReg × VReg) :=
  (f.phis b).filterMap fun inst => inst.phiMove slot

/-- The other instructions of a block. -/
def body (b : BlockId) : List InstId :=
  (f.blockInsts b).filter fun id => !f.isPhiAt id

end MachFunction

/-! ## Splitting -/

variable (f : MachFunction)

/-- Some phi differs on the edge. -/
def edgeNeedsPhiCopy (src dst : BlockId) : Bool :=
  match f.blocks[dst]? with
  | none => false
  | some block =>
    match block.preds.idxOf? src with
    | none => false
    | some predIndex =>
      block.insts.any fun id =>
        match f.insts[id]? with
        | none => false
        | some inst =>
          inst.isPhi && match inst.phiMove predIndex with
            | some (dest, source) => source != dest
            | none => false

/-- The edges that `split_critical_edges` collects. -/
def criticalEdges : List (BlockId × BlockId) :=
  f.blockOrder.flatMap fun b =>
    if (f.succs b).length > 1 then
      ((f.succs b).filter fun c => edgeNeedsPhiCopy f b c).map fun c => (b, c)
    else []

/-- The unconditional jump of a split block. -/
def jumpInst (dst : BlockId) : MachInst :=
  ⟨pseudoJump, [], [.block dst], [], [], InstFlags.isBranch ||| InstFlags.isTerminator, []⟩

/-- A block operand names another block. -/
def Operand.retarget (name : BlockId → BlockId) : Operand → Operand
  | .block b => .block (name b)
  | op => op

/-- The block operands of an instruction name other blocks. -/
def MachInst.retarget (name : BlockId → BlockId) (inst : MachInst) : MachInst :=
  { inst with uses := inst.uses.map (Operand.retarget name) }

/-- The block operands of an instruction that name the old target name the new one. -/
def redirectInst (old new : BlockId) : MachInst → MachInst :=
  MachInst.retarget fun b => if b = old then new else b

/-- An id in a list of successors or predecessors is replaced. -/
def replaceId (old new : BlockId) (ids : List BlockId) : List BlockId :=
  ids.map fun b => if b = old then new else b

/-- One round of the loop of `split_critical_edges`. -/
def splitEdge (edge : BlockId × BlockId) : MachFunction :=
  let jumpId := f.insts.length
  let newId := f.blocks.length
  let newBlock : MachBlock :=
    { insts := [jumpId]
      preds := [edge.1]
      succs := [edge.2]
      loopDepth := (f.blocks[edge.2]?.map MachBlock.loopDepth).getD 0 }
  let rewired := (f.blocks ++ [newBlock]).modify edge.1 fun block =>
    { block with succs := replaceId edge.2 newId block.succs }
  { f with
    insts := (f.blockInsts edge.1).foldl
      (fun insts id => insts.modify id (redirectInst edge.2 newId)) (f.insts ++ [jumpInst edge.2])
    blocks := rewired.modify edge.2 fun block =>
      { block with preds := replaceId edge.1 newId block.preds }
    blockOrder :=
      match f.blockOrder.idxOf? edge.2 with
      | some pos => f.blockOrder.insertIdx pos newId
      | none => f.blockOrder ++ [newId] }

/-- `split_critical_edges`, with the number of edges split. -/
def splitCriticalEdges : MachFunction × ℕ :=
  ((criticalEdges f).foldl splitEdge f, (criticalEdges f).length)

/-! ## Elimination -/

/-- The vreg of `alloc_vreg` for the class of `dst`; numbers are 32 bits wide and wrap. -/
def allocVreg (id : ℕ) (dst : VReg) : VReg := ⟨id % 2 ^ 32, dst.cls⟩

/-- `resolve_parallel_copies`, with the next number; the temporaries come from `alloc_vreg`. -/
def resolveParallelCopies (nextVreg : ℕ) (copies : List (VReg × VReg)) : List (VReg × VReg) × ℕ :=
  let resolved := ParallelCopy.resolve allocVreg nextVreg copies
  (resolved.1, resolved.2 % 2 ^ 32)

/-- How many temporaries `resolve_parallel_copies` allocates. -/
def temporaries (nextVreg : ℕ) (copies : List (VReg × VReg)) : ℕ :=
  (ParallelCopy.resolve allocVreg nextVreg copies).2 - nextVreg

/-- The copies that the phis of a block ask of its predecessors. -/
def blockCopies (b : BlockId) : List (BlockId × VReg × VReg) :=
  (f.phis b).flatMap fun inst => (f.preds b).zipIdx.filterMap fun (pred, slot) =>
      match inst.phiMove slot with
      | some (dest, src) => if src ≠ dest then some (pred, dest, src) else none
      | none => none

/-- All copies that the phis ask for, with the predecessors they go to. -/
def phiCopies : List (BlockId × VReg × VReg) := f.blockOrder.flatMap (blockCopies f)

/-- The copies for one predecessor. -/
def copiesByPred (pred : BlockId) : List (VReg × VReg) :=
  ((phiCopies f).filter fun entry => entry.1 == pred).map Prod.snd

/-- All phis with their blocks. -/
def phiInstsToRemove : List (BlockId × InstId) :=
  f.blockOrder.flatMap fun b => ((f.blockInsts b).filter fun id => match f.insts[id]? with
      | some inst => inst.isPhi && (inst.defs.head?.bind Operand.asVreg).isSome
      | none => false).map fun id => (b, id)

/-- `find_terminator_pos`: the end of the list without its tail. -/
def findTerminatorPos (ids : List InstId) : ℕ :=
  (ids.rdropWhile f.isTailAt).length

/-- The copy instruction that elimination inserts. -/
def phiCopyInst (copy : VReg × VReg) : MachInst :=
  ⟨pseudoCopy, [.vreg copy.1], [.vreg copy.2], [], [], 0, []⟩

/-- The copies of one predecessor go before its tail, one after the other. -/
def insertCopies (pred : BlockId) (copies : List (VReg × VReg)) : MachFunction :=
  let resolved := resolveParallelCopies f.nextVreg copies
  let insertPos := findTerminatorPos f (f.blockInsts pred)
  { f with
    insts := f.insts ++ resolved.1.map phiCopyInst
    nextVreg := resolved.2
    blocks := f.blocks.modify pred fun block =>
      { block with
        insts := block.insts.take insertPos
          ++ List.range' f.insts.length resolved.1.length ++ block.insts.drop insertPos } }

/-- One round of the two insertion loops: the copies of a predecessor are taken out of the
map and inserted. -/
def placeCopies (acc : MachFunction × (BlockId → List (VReg × VReg))) (pred : BlockId) :
    MachFunction × (BlockId → List (VReg × VReg)) :=
  if acc.2 pred = [] then acc
  else (insertCopies acc.1 pred (acc.2 pred), Function.update acc.2 pred [])

/-- A phi is removed from its block. -/
def removePhi (phi : BlockId × InstId) : MachFunction :=
  { f with
    blocks := f.blocks.modify phi.1 fun block =>
      { block with insts := block.insts.filter fun id => id != phi.2 } }

/-- `eliminate_phis`: first the predecessors in block order, then the others by id. -/
def eliminatePhis : MachFunction :=
  let placed := (f.blockOrder ++ List.range f.blocks.length).foldl placeCopies (f, copiesByPred f)
  (phiInstsToRemove f).foldl removePhi placed.1

/-! ## Running a function with phis -/

/-- The place of occurrence number `n` of `x`. -/
def nthIndex (x : BlockId) : List BlockId → ℕ → Option ℕ
  | [], _ => none
  | y :: l, n =>
    if y = x then
      match n with
      | 0 => some 0
      | n + 1 => (nthIndex x l n).map (· + 1)
    else (nthIndex x l n).map (· + 1)

/-- The predecessor slot of successor edge `i` of block `b`, which leads to `c`. -/
def MachFunction.slot (b : BlockId) (i : ℕ) (c : BlockId) : Option ℕ :=
  nthIndex b (f.preds c) (((f.succs b).take i).count c)

section

variable {Val World : Type*} (m : Machine Val World)

/-- The phis of a block that is entered at a slot. -/
def enterBlock (f : MachFunction) (c : BlockId) (slot : Option ℕ) (regs : VReg → Val) :
    VReg → Val :=
  match slot with
  | some k => parCopy (f.phiMoves c k) regs
  | none => regs

/-- A block is executed and left over successor edge `i`; its target is entered. -/
def Machine.edgeStep (f : MachFunction) (here : BlockId × ExecState Val World) (i : ℕ) :
    Option (BlockId × ExecState Val World) :=
  match (f.succs here.1)[i]? with
  | none => none
  | some c =>
    let left := (m.execInsts f (f.body here.1) here.2).1
    some (c, ⟨enterBlock f c (f.slot here.1 i c) left.regs, left.world⟩)

/-- The same, but blocks from `n` on are passed through. -/
def Machine.throughStep (f : MachFunction) (n : ℕ) (here : BlockId × ExecState Val World) (i : ℕ) :
    Option (BlockId × ExecState Val World) :=
  match m.edgeStep f here i with
  | none => none
  | some next => if next.1 < n then some next else m.edgeStep f next 0

end

/-! ## What the pass relies on -/

/-- What SSA form promises: the layout order lists every block once, ids are in range and
no instruction stands in two blocks, successor and predecessor lists agree edge for edge, a
phi defines one vreg and has a vreg for every predecessor, and no two phis of a block define
the same vreg. -/
structure MachFunction.SsaForm (f : MachFunction) : Prop where
  order : f.blockOrder.Nodup
  listed : ∀ b, b ∈ f.blockOrder ↔ b < f.blocks.length
  ids : ∀ b < f.blocks.length, ∀ id ∈ f.blockInsts b, id < f.insts.length
  linked : ∀ b < f.blocks.length, ∀ c < f.blocks.length, ∀ id ∈ f.blockInsts b,
    id ∈ f.blockInsts c → b = c
  vregs : ∀ v ∈ f.vregs, v.id < f.nextVreg
  succs_lt : ∀ b < f.blocks.length, ∀ c ∈ f.succs b, c < f.blocks.length
  preds_lt : ∀ c < f.blocks.length, ∀ b ∈ f.preds c, b < f.blocks.length
  agree : ∀ b < f.blocks.length, ∀ c < f.blocks.length, (f.succs b).count c = (f.preds c).count b
  phis : ∀ b < f.blocks.length, ∀ inst ∈ f.phis b, (inst.defs.head?.bind Operand.asVreg).isSome
    ∧ ∀ slot < (f.preds b).length, (inst.uses[slot]?.bind Operand.asVreg).isSome
  distinct : ∀ b < f.blocks.length, ((f.phis b).map fun inst => inst.defs.head?).Nodup

variable (f : MachFunction)

/-- Successor and predecessor lists agree edge for edge. -/
def MachFunction.ListsAgree : Prop :=
  ∀ b c, (f.succs b).count c = (f.preds c).count b

theorem MachFunction.SsaForm.listsAgree {f : MachFunction} (h : f.SsaForm) : f.ListsAgree := by
  intro b c
  have hout : ∀ x, ¬x < f.blocks.length → f.succs x = [] ∧ f.preds x = [] := by
    intro x hx
    have hnone : f.blocks[x]? = none := List.getElem?_eq_none (Nat.le_of_not_lt hx)
    exact ⟨by rw [MachFunction.succs, hnone], by rw [MachFunction.preds, hnone]⟩
  by_cases hb : b < f.blocks.length
  · by_cases hc : c < f.blocks.length
    · exact h.agree b hb c hc
    rw [(hout c hc).2, List.count_nil]
    exact List.count_eq_zero.2 fun hmem => hc (h.succs_lt b hb c hmem)
  rw [(hout b hb).1, List.count_nil]
  refine (List.count_eq_zero.2 fun hmem => ?_).symm
  by_cases hc : c < f.blocks.length
  · exact hb (h.preds_lt c hc b hmem)
  rw [(hout c hc).2] at hmem
  exact absurd hmem List.not_mem_nil

/-- No edge that is split has a parallel edge. -/
def MachFunction.SplitsSingleEdges : Prop :=
  ∀ b < f.blocks.length, ∀ c ∈ f.succs b, edgeNeedsPhiCopy f b c = true → (f.succs b).count c = 1

/-- No edge that needs a copy has a parallel edge. -/
def MachFunction.CopiesOnSingleEdges : Prop :=
  ∀ b < f.blocks.length, ∀ c ∈ f.succs b, 2 ≤ (f.succs b).count c →
    ∀ k < (f.preds c).length, (f.preds c)[k]? = some b → ∀ move ∈ f.phiMoves c k, move.1 = move.2

/-- An instruction neither reads nor writes the destination of a copy and does not write its
source. -/
def MachInst.Clear (inst : MachInst) (move : VReg × VReg) : Prop :=
  move.1 ∉ inst.vregUses ∧ move.1 ∉ inst.vregDefs ∧ move.2 ∉ inst.vregDefs

instance (inst : MachInst) (move : VReg × VReg) : Decidable (inst.Clear move) :=
  inferInstanceAs (Decidable (_ ∧ _ ∧ _))

/-- The tail of a block does not touch a copy. -/
def MachFunction.TailClear (b : BlockId) (move : VReg × VReg) : Prop :=
  ∀ inst ∈ ((f.blockInsts b).rtakeWhile f.isTailAt).filterMap fun id => f.insts[id]?,
    inst.isPhi = false → inst.Clear move

instance (b : BlockId) (move : VReg × VReg) : Decidable (f.TailClear b move) :=
  inferInstanceAs (Decidable (∀ inst ∈ _, _ → _))

/-- The tail of a block with one successor does not touch the copies for it. -/
def MachFunction.TailsClear : Prop :=
  ∀ b < f.blocks.length, ∀ c ∈ f.succs b, (f.succs b).length = 1 →
    ∀ k < (f.preds c).length, (f.preds c)[k]? = some b → ∀ move ∈ f.phiMoves c k,
      move.1 ≠ move.2 → f.TailClear b move

/-- The jump at the end of a split block does nothing but jump. -/
def Machine.JumpSilent {Val World : Type*} (m : Machine Val World) : Prop :=
  ∀ dst world, (m.exec (jumpInst dst).shape [] world).2 = world

end TrustCg.RegAlloc
