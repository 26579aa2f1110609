import TrustCg.Lib.Loop
import TrustCg.RegAlloc.PhiElim

/-!
# Splitting edges

What `split_critical_edges` makes of a function, in closed form (`SplitOf`): after the
edges of a list without repetitions have been split, the split blocks stand behind the
old blocks, one for each edge, and every old successor or predecessor list has the split
block in the place of the other end of a split edge.

* `splitEdge_splitOf`, `splitCriticalEdges_spec` : one round and the whole loop keep the
  closed form, and the branches name the blocks that the lists name (`Retargeted`).
* `SplitOf.throughStep` : running through the split blocks is running the old function.
* `SplitOf.ssaForm` : the result is again in SSA form, its lists agree.
* `listsAgree_iff_splitsSingleEdges` : they agree exactly if no edge that is split has a
  parallel edge; the second round for an edge would put a block on no edge at all.
-/

namespace TrustCg.RegAlloc

open List

/-! ## Instructions up to their block operands -/

/-- An operand without the name of a block. -/
def Operand.unblock : Operand → Operand
  | .block _ => .block 0
  | op => op

/-- An instruction without the names of the blocks among its uses. -/
def MachInst.unblock (inst : MachInst) : MachInst :=
  { inst with uses := inst.uses.map Operand.unblock }

@[simp]
theorem Operand.asVreg_unblock (op : Operand) : op.unblock.asVreg = op.asVreg := by
  cases op <;> rfl

@[simp]
theorem Operand.shape_unblock (op : Operand) : op.unblock.shape = op.shape := by
  cases op <;> rfl

section

variable (inst : MachInst)

@[simp]
theorem MachInst.isPhi_unblock : inst.unblock.isPhi = inst.isPhi := rfl

@[simp]
theorem MachInst.isTail_unblock : inst.unblock.isTail = inst.isTail := rfl

@[simp]
theorem MachInst.defs_unblock : inst.unblock.defs = inst.defs := rfl

@[simp]
theorem MachInst.vregDefs_unblock : inst.unblock.vregDefs = inst.vregDefs := rfl

end

theorem asVreg_comp_unblock : Operand.asVreg ∘ Operand.unblock = Operand.asVreg :=
  funext Operand.asVreg_unblock

section

variable (inst : MachInst)

@[simp]
theorem MachInst.vregUses_unblock : inst.unblock.vregUses = inst.vregUses := by
  rw [MachInst.vregUses, MachInst.unblock, filterMap_map, asVreg_comp_unblock]
  rfl

@[simp]
theorem MachInst.shape_unblock : inst.unblock.shape = inst.shape := by
  have hcomp : Operand.shape ∘ Operand.unblock = Operand.shape := funext Operand.shape_unblock
  simp [MachInst.shape, MachInst.unblock, hcomp]

theorem MachInst.useAt_unblock (k : ℕ) :
    inst.unblock.uses[k]?.bind Operand.asVreg = inst.uses[k]?.bind Operand.asVreg := by
  rw [MachInst.unblock, getElem?_map]
  cases inst.uses[k]? with
  | none => rfl
  | some op => exact Operand.asVreg_unblock op

@[simp]
theorem MachInst.phiMove_unblock (k : ℕ) : inst.unblock.phiMove k = inst.phiMove k := by
  rw [MachInst.phiMove, MachInst.phiMove, useAt_unblock, defs_unblock]

@[simp]
theorem MachInst.asCopy_unblock : inst.unblock.asCopy = inst.asCopy := by
  have huse : inst.unblock.uses.head?.bind Operand.asVreg
      = inst.uses.head?.bind Operand.asVreg := by
    rw [head?_eq_getElem?, head?_eq_getElem?]
    exact inst.useAt_unblock 0
  rw [MachInst.asCopy, MachInst.asCopy, huse]
  rfl

end

@[simp]
theorem Machine.step_unblock {Val World : Type*} (m : Machine Val World) (inst : MachInst) :
    m.step inst.unblock = m.step inst := by
  funext st
  simp only [Machine.step, MachInst.asCopy_unblock, MachInst.vregUses_unblock,
    MachInst.shape_unblock, MachInst.vregDefs_unblock]

theorem unblock_retarget (name : BlockId → BlockId) (inst : MachInst) :
    (inst.retarget name).unblock = inst.unblock := by
  have hcomp : Operand.unblock ∘ Operand.retarget name = Operand.unblock := by
    funext op
    cases op <;> rfl
  rw [MachInst.retarget, MachInst.unblock, map_map, hcomp]
  rfl

theorem retarget_retarget (inner outer : BlockId → BlockId) (inst : MachInst) :
    (inst.retarget inner).retarget outer = inst.retarget (outer ∘ inner) := by
  have hcomp : Operand.retarget outer ∘ Operand.retarget inner
      = Operand.retarget (outer ∘ inner) := by
    funext op
    cases op <;> rfl
  simp only [MachInst.retarget, map_map, hcomp]

theorem retarget_id (inst : MachInst) : inst.retarget id = inst := by
  have hop : Operand.retarget id = id := by
    funext op
    cases op <;> rfl
  simp only [MachInst.retarget, hop, map_id]

/-- The instructions of a list of ids are the same in two functions, up to block names. -/
def SameAt (f g : MachFunction) (id : InstId) : Prop :=
  (g.insts[id]?).map MachInst.unblock = (f.insts[id]?).map MachInst.unblock

variable {f g : MachFunction}

section

variable {id : InstId}

/-- What does not look at block names has the same value on both sides. -/
theorem SameAt.map_eq {β : Type*} (h : SameAt f g id) {look : MachInst → β}
    (hlook : ∀ inst, look inst.unblock = look inst) :
    (g.insts[id]?).map look = (f.insts[id]?).map look := by
  have hcomp : look = look ∘ MachInst.unblock := funext fun inst => (hlook inst).symm
  rw [hcomp, ← Option.map_map, h, Option.map_map]

theorem isPhiAt_eq (f : MachFunction) (id : InstId) :
    f.isPhiAt id = ((f.insts[id]?).map MachInst.isPhi).getD false := by
  unfold MachFunction.isPhiAt
  cases f.insts[id]? <;> rfl

theorem isTailAt_eq (f : MachFunction) (id : InstId) :
    f.isTailAt id = ((f.insts[id]?).map MachInst.isTail).getD false := by
  unfold MachFunction.isTailAt
  cases f.insts[id]? <;> rfl

theorem SameAt.isPhiAt (h : SameAt f g id) : g.isPhiAt id = f.isPhiAt id := by
  rw [isPhiAt_eq, isPhiAt_eq, h.map_eq MachInst.isPhi_unblock]

theorem SameAt.isTailAt (h : SameAt f g id) : g.isTailAt id = f.isTailAt id := by
  rw [isTailAt_eq, isTailAt_eq, h.map_eq MachInst.isTail_unblock]

section

variable {Val World : Type*} (m : Machine Val World)

theorem execInsts_cons_eq (f : MachFunction) (id : InstId) (ids : List InstId)
    (st : ExecState Val World) :
    (m.execInsts f (id :: ids) st).1
      = (m.execInsts f ids
          (((f.insts[id]?).map fun inst => (m.step inst st).1).getD st)).1 := by
  rw [Machine.execInsts]
  cases f.insts[id]? <;> rfl

theorem execInsts_congr (ids : List InstId) (st : ExecState Val World)
    (h : ∀ id ∈ ids, SameAt f g id) : (m.execInsts g ids st).1 = (m.execInsts f ids st).1 := by
  induction ids generalizing st with
  | nil => rfl
  | cons id ids ih =>
    obtain ⟨hid, hids⟩ := forall_mem_cons.1 h
    rw [execInsts_cons_eq, execInsts_cons_eq,
      hid.map_eq fun inst => by rw [m.step_unblock], ih _ hids]

end

variable {b : BlockId}

/-- Two blocks with the same instructions have the same phis, up to block names. -/
theorem phis_congr {c : BlockId} (hinsts : g.blockInsts c = f.blockInsts b)
    (h : ∀ id ∈ f.blockInsts b, SameAt f g id) :
    (g.phis c).map MachInst.unblock = (f.phis b).map MachInst.unblock := by
  have hfilter : ∀ l : List MachInst, (l.filter MachInst.isPhi).map MachInst.unblock
      = (l.map MachInst.unblock).filter MachInst.isPhi := by
    intro l
    rw [filter_map]
    rfl
  rw [MachFunction.phis, MachFunction.phis, hfilter, hfilter, hinsts, map_filterMap, map_filterMap]
  congr 1
  exact filterMap_congr h

theorem phiMoves_congr {c : BlockId}
    (hphis : (g.phis c).map MachInst.unblock = (f.phis b).map MachInst.unblock) (k : ℕ) :
    g.phiMoves c k = f.phiMoves b k := by
  have hmoves : ∀ (f : MachFunction) (b : BlockId), f.phiMoves b k
      = ((f.phis b).map MachInst.unblock).filterMap fun inst => inst.phiMove k := by
    intro f b
    rw [MachFunction.phiMoves, filterMap_map]
    exact filterMap_congr fun inst _ => (inst.phiMove_unblock k).symm
  rw [hmoves, hmoves, hphis]

theorem enterBlock_of_phis_nil {Val : Type*} (h : f.phis b = []) (slot : Option ℕ)
    (regs : VReg → Val) : enterBlock f b slot regs = regs := by
  cases slot with
  | none => rfl
  | some k => rw [enterBlock, MachFunction.phiMoves, h]; rfl

end

/-! ## One round -/

variable {b c x : BlockId}

section

theorem getElem?_concat {α : Type*} (l : List α) (a : α) (x : ℕ) :
    (l ++ [a])[x]? = if x = l.length then some a else l[x]? := by
  rcases Nat.lt_trichotomy x l.length with hlt | rfl | hgt
  · rw [getElem?_append_left hlt, if_neg hlt.ne]
  · rw [getElem?_concat_length, if_pos rfl]
  · rw [getElem?_eq_none (by simp; omega), if_neg hgt.ne', getElem?_eq_none hgt.le]

theorem splitEdge_blocks (f : MachFunction) (b c x : BlockId) :
    ∃ loopDepth, (splitEdge f (b, c)).blocks[x]?
      = (if x = f.blocks.length then some ⟨[f.insts.length], [b], [c], loopDepth⟩
          else f.blocks[x]?).map fun block =>
          { block with
            succs := if b = x then replaceId c f.blocks.length block.succs else block.succs
            preds := if c = x then replaceId b f.blocks.length block.preds else block.preds } := by
  refine ⟨(f.blocks[c]?.map MachBlock.loopDepth).getD 0, ?_⟩
  rw [splitEdge, getElem?_modify, getElem?_modify, Option.map_eq_map, Option.map_eq_map,
    Option.map_map, getElem?_concat]
  congr 1
  funext block
  simp only [Function.comp]
  split <;> split <;> rfl

theorem splitEdge_blocks_length (f : MachFunction) (edge : BlockId × BlockId) :
    (splitEdge f edge).blocks.length = f.blocks.length + 1 := by
  rw [splitEdge, length_modify, length_modify, length_append, length_singleton]

/-- The lists of a block after one round. -/
theorem splitEdge_lists (hb : b < f.blocks.length) (hc : c < f.blocks.length) :
    (splitEdge f (b, c)).succs x = (if x = f.blocks.length then [c]
      else if b = x then replaceId c f.blocks.length (f.succs x) else f.succs x)
    ∧ (splitEdge f (b, c)).preds x = (if x = f.blocks.length then [b]
      else if c = x then replaceId b f.blocks.length (f.preds x) else f.preds x)
    ∧ (splitEdge f (b, c)).blockInsts x
      = if x = f.blocks.length then [f.insts.length] else f.blockInsts x := by
  obtain ⟨loopDepth, hblock⟩ := splitEdge_blocks f b c x
  unfold MachFunction.succs MachFunction.preds MachFunction.blockInsts
  rw [hblock]
  by_cases hx : x = f.blocks.length
  · simp [hx, hb.ne, hc.ne]
  cases f.blocks[x]? <;> simp [hx, replaceId]

theorem unblock_foldl_redirect (old new : BlockId) (k : InstId) (ids : List InstId)
    (insts : List MachInst) :
    ((ids.foldl (fun insts id => insts.modify id (redirectInst old new)) insts)[k]?).map
      MachInst.unblock = (insts[k]?).map MachInst.unblock := by
  induction ids generalizing insts with
  | nil => rfl
  | cons id ids ih =>
    rw [foldl_cons, ih, getElem?_modify, Option.map_eq_map, Option.map_map]
    congr 1
    funext inst
    rw [Function.comp]
    split
    · exact unblock_retarget _ inst
    · rfl

theorem length_foldl_redirect (old new : BlockId) (ids : List InstId) (insts : List MachInst) :
    (ids.foldl (fun insts id => insts.modify id (redirectInst old new)) insts).length
      = insts.length := by
  induction ids generalizing insts with
  | nil => rfl
  | cons id ids ih => rw [foldl_cons, ih, length_modify]

/-- Redirecting twice is redirecting once. -/
theorem getElem?_foldl_redirect {old new : BlockId} (hne : new ≠ old) (k : InstId)
    (ids : List InstId) (insts : List MachInst) :
    (ids.foldl (fun insts id => insts.modify id (redirectInst old new)) insts)[k]?
      = (insts[k]?).map fun inst => if k ∈ ids then redirectInst old new inst else inst := by
  have htwice : ∀ inst, redirectInst old new (redirectInst old new inst)
      = redirectInst old new inst := by
    intro inst
    rw [redirectInst, retarget_retarget]
    congr 1
    funext b
    rw [Function.comp]
    split <;> simp_all
  induction ids generalizing insts with
  | nil => simp
  | cons id ids ih =>
    rw [foldl_cons, ih, getElem?_modify, Option.map_eq_map, Option.map_map]
    congr 1
    funext inst
    rw [Function.comp]
    by_cases hid : id = k
    · subst hid
      by_cases hmem : id ∈ ids <;> simp [hmem, htwice]
    · have hmem : k ∈ id :: ids ↔ k ∈ ids := by simp [Ne.symm hid]
      simp only [if_neg hid, hmem]

theorem splitEdge_insts_length (f : MachFunction) (edge : BlockId × BlockId) :
    (splitEdge f edge).insts.length = f.insts.length + 1 := by
  rw [splitEdge, length_foldl_redirect, length_append, length_singleton]

theorem splitEdge_unblock (f : MachFunction) (b c : BlockId) (k : InstId) :
    ((splitEdge f (b, c)).insts[k]?).map MachInst.unblock
      = ((f.insts ++ [jumpInst c])[k]?).map MachInst.unblock := by
  rw [splitEdge, unblock_foldl_redirect]

theorem splitEdge_order_perm (f : MachFunction) (edge : BlockId × BlockId) :
    (splitEdge f edge).blockOrder.Perm (f.blocks.length :: f.blockOrder) := by
  rw [splitEdge]
  split
  next pos hpos =>
    refine perm_insertIdx _ _ ?_
    rw [idxOf?_eq_some_iff] at hpos
    exact hpos.1.le
  · exact perm_append_singleton _ _

end

/-! ## The closed form -/

/-- The end of an edge, or the block that was put there when the edge was split. -/
def splitName (n : ℕ) (done : List (BlockId × BlockId)) (edge : BlockId × BlockId)
    (blockEnd : BlockId) : BlockId :=
  if edge ∈ done then n + done.idxOf edge else blockEnd

/-- **The closed form.**  `g` is `f` after the edges `done` were split. -/
structure SplitOf (f : MachFunction) (done : List (BlockId × BlockId)) (g : MachFunction) :
    Prop where
  blocks : g.blocks.length = f.blocks.length + done.length
  arena : g.insts.length = f.insts.length + done.length
  old : ∀ id < f.insts.length, SameAt f g id
  jumps : ∀ j < done.length,
    (g.insts[f.insts.length + j]?).map MachInst.unblock = some (jumpInst 0).unblock
  succs : ∀ b < f.blocks.length,
    g.succs b = (f.succs b).map fun c => splitName f.blocks.length done (b, c) c
  preds : ∀ c < f.blocks.length,
    g.preds c = (f.preds c).map fun b => splitName f.blocks.length done (b, c) b
  blockInsts : ∀ b < f.blocks.length, g.blockInsts b = f.blockInsts b
  split : ∀ j edge, done[j]? = some edge → g.blockInsts (f.blocks.length + j) = [f.insts.length + j]
      ∧ g.preds (f.blocks.length + j) = [edge.1] ∧ g.succs (f.blocks.length + j) = [edge.2]
  order : g.blockOrder.Perm (f.blockOrder ++ List.range' f.blocks.length done.length)
  nextVreg : g.nextVreg = f.nextVreg
  entryBlock : g.entryBlock = f.entryBlock

section

variable {done : List (BlockId × BlockId)} {edge : BlockId × BlockId} {n : ℕ} {y : BlockId}
    {j : ℕ}

theorem splitName_append (hedge : edge ∉ done) (other : BlockId × BlockId) (blockEnd : BlockId) :
    splitName n (done ++ [edge]) other blockEnd
      = if other = edge then n + done.length else splitName n done other blockEnd := by
  unfold splitName
  by_cases heq : other = edge
  · subst heq
    rw [if_pos (by simp), if_pos rfl, idxOf_append_of_notMem hedge, idxOf_cons_self, Nat.add_zero]
  rw [if_neg heq]
  by_cases hmem : other ∈ done
  · rw [if_pos (mem_append_left _ hmem), if_pos hmem, idxOf_append_of_mem hmem]
  · rw [if_neg (by simp [hmem, heq]), if_neg hmem]

variable (key : BlockId → BlockId × BlockId)

/-- The other ends of the edges at a block, when one more of them is split. -/
theorem replaceId_map_splitName
    (hkey : Function.Injective key) (hy : y < n) (hnew : key y ∉ done) (l : List BlockId) :
    replaceId y (n + done.length) (l.map fun x => splitName n done (key x) x)
      = l.map fun x => splitName n (done ++ [key y]) (key x) x := by
  rw [replaceId, map_map]
  refine map_congr_left fun x _ => ?_
  rw [splitName_append hnew, Function.comp]
  by_cases hxy : x = y
  · rw [hxy, if_pos rfl, splitName, if_neg hnew, if_pos rfl]
  rw [if_neg (hkey.ne hxy)]
  refine if_neg fun heq => ?_
  unfold splitName at heq
  split at heq
  · rw [← heq] at hy
    simp at hy
  · exact hxy heq

theorem map_splitName_append_of_ne (hnew : edge ∉ done)
    (hne : ∀ x, key x ≠ edge) (l : List BlockId) :
    (l.map fun x => splitName n done (key x) x)
      = l.map fun x => splitName n (done ++ [edge]) (key x) x :=
  map_congr_left fun x _ => by rw [splitName_append hnew, if_neg (hne x)]

theorem SplitOf.refl (f : MachFunction) : SplitOf f [] f where
  blocks := rfl
  arena := rfl
  old := fun _ _ => rfl
  jumps := fun j hj => absurd hj (Nat.not_lt_zero j)
  succs := fun b _ => by simp [splitName]
  preds := fun c _ => by simp [splitName]
  blockInsts := fun _ _ => rfl
  split := fun j edge h => absurd h (by simp)
  order := by simp
  nextVreg := rfl
  entryBlock := rfl

theorem splitEdge_splitOf (h : SplitOf f done g) (hb : b < f.blocks.length)
    (hc : c < f.blocks.length) (hnew : (b, c) ∉ done) :
    SplitOf f (done ++ [(b, c)]) (splitEdge g (b, c)) := by
  have hlen := h.blocks
  have hle : f.blocks.length ≤ g.blocks.length := by omega
  have hbg : b < g.blocks.length := hb.trans_le hle
  have hcg : c < g.blocks.length := hc.trans_le hle
  have hold : ∀ x < f.blocks.length, x ≠ g.blocks.length := fun x hx => by omega
  have hlast : ∀ j e, (done ++ [(b, c)])[j]? = some e → done[j]? = some e ∧ j < done.length
      ∨ j = done.length ∧ e = (b, c) := by
    intro j e he
    rw [getElem?_concat] at he
    split at he
    · exact .inr ⟨‹_›, (Option.some_inj.1 he).symm⟩
    · exact .inl ⟨he, (List.getElem?_eq_some_iff.1 he).1⟩
  refine ⟨?_, ?_, ?_, ?_, ?_, ?_, ?_, ?_, ?_, h.nextVreg, h.entryBlock⟩
  · rw [splitEdge_blocks_length, length_append, length_singleton, hlen, Nat.add_assoc]
  · rw [splitEdge_insts_length, length_append, length_singleton, h.arena, Nat.add_assoc]
  · intro id hid
    have harena := h.arena
    rw [SameAt, splitEdge_unblock, getElem?_concat, if_neg (by omega)]
    exact h.old id hid
  · intro j hj
    rw [splitEdge_unblock, getElem?_concat, h.arena]
    rw [length_append, length_singleton] at hj
    split
    · rfl
    · exact h.jumps j (by omega)
  · intro x hx
    rw [(splitEdge_lists hbg hcg).1, if_neg (hold x hx), h.succs x hx]
    split
    next hbx =>
      subst hbx
      rw [hlen]
      exact replaceId_map_splitName (fun y => (b, y)) (Prod.mk_right_injective b) hc hnew _
    next hbx =>
      exact map_splitName_append_of_ne (fun y => (x, y)) hnew
        (fun y heq => hbx (congrArg Prod.fst heq).symm) _
  · intro x hx
    rw [(splitEdge_lists hbg hcg).2.1, if_neg (hold x hx), h.preds x hx]
    split
    next hcx =>
      subst hcx
      rw [hlen]
      exact replaceId_map_splitName (fun y => (y, c)) (Prod.mk_left_injective c) hb hnew _
    next hcx =>
      exact map_splitName_append_of_ne (fun y => (y, x)) hnew
        (fun y heq => hcx (congrArg Prod.snd heq).symm) _
  · intro x hx
    rw [(splitEdge_lists hbg hcg).2.2, if_neg (hold x hx), h.blockInsts x hx]
  · intro j e he
    obtain ⟨hsuccs, hpreds, hinsts⟩ := splitEdge_lists (x := f.blocks.length + j) hbg hcg
    rw [hsuccs, hpreds, hinsts, hlen, h.arena]
    rcases hlast j e he with ⟨hj, hlt⟩ | ⟨rfl, rfl⟩
    · have hne : f.blocks.length + j ≠ f.blocks.length + done.length := by omega
      have hfar : ∀ x < f.blocks.length, x ≠ f.blocks.length + j := fun x hx => by omega
      rw [if_neg hne, if_neg hne, if_neg hne, if_neg (hfar c hc), if_neg (hfar b hb)]
      exact h.split j e hj
    rw [if_pos rfl, if_pos rfl, if_pos rfl]
    exact ⟨rfl, rfl, rfl⟩
  · rw [length_append, length_singleton, range'_concat, ← append_assoc, Nat.one_mul, ← hlen]
    exact ((splitEdge_order_perm g (b, c)).trans (h.order.cons _)).trans
      (perm_append_singleton _ _).symm

/-- **Branches follow the lists.**  In the instructions of an old block the names of the split
blocks stand where they stand in its successor list, and the jump of a split block names the
end of its edge. -/
structure Retargeted (f : MachFunction) (done : List (BlockId × BlockId)) (g : MachFunction) :
    Prop where
  old : ∀ b < f.blocks.length, ∀ id ∈ f.blockInsts b, g.insts[id]?
    = (f.insts[id]?).map (MachInst.retarget fun c => splitName f.blocks.length done (b, c) c)
  jumps : ∀ j edge, done[j]? = some edge →
    g.insts[f.insts.length + j]? = some (jumpInst edge.2)

theorem Retargeted.refl (f : MachFunction) : Retargeted f [] f := by
  refine ⟨fun b _ k _ => ?_, fun j edge h => absurd h (by simp)⟩
  have hname : (fun c => splitName f.blocks.length [] (b, c) c) = id := by
    funext c
    simp [splitName]
  rw [hname, funext retarget_id, Option.map_id']

/-- The names in an instruction of the block, when one more of its edges is split. -/
theorem redirectInst_retarget (hc : c < n) (hnew : (b, c) ∉ done) (inst : MachInst) :
    redirectInst c (n + done.length)
        (inst.retarget fun x => splitName n done (b, x) x)
      = inst.retarget fun x => splitName n (done ++ [(b, c)]) (b, x) x := by
  rw [redirectInst, retarget_retarget]
  congr 1
  funext x
  have hmap := replaceId_map_splitName (fun y => (b, y)) (Prod.mk_right_injective b) hc hnew [x]
  simpa [replaceId] using hmap

theorem splitEdge_retargeted (hssa : f.SsaForm) (hof : SplitOf f done g)
    (h : Retargeted f done g) (hb : b < f.blocks.length) (hc : c < f.blocks.length)
    (hnew : (b, c) ∉ done) : Retargeted f (done ++ [(b, c)]) (splitEdge g (b, c)) := by
  have hlen := hof.blocks
  have harena := hof.arena
  have hat : ∀ k, (splitEdge g (b, c)).insts[k]? = ((g.insts ++ [jumpInst c])[k]?).map
      fun inst => if k ∈ f.blockInsts b then redirectInst c g.blocks.length inst else inst := by
    intro k
    rw [splitEdge, ← hof.blockInsts b hb]
    refine getElem?_foldl_redirect (Nat.ne_of_gt ?_) k _ _
    rw [hlen]
    exact Nat.lt_add_right _ hc
  refine ⟨fun x hx id hid => ?_, fun j e he => ?_⟩
  · have hlt : id < g.insts.length := Nat.lt_of_lt_of_le (hssa.ids x hx id hid) (by omega)
    rw [hat, getElem?_append_left hlt, h.old x hx id hid, Option.map_map]
    congr 1
    funext inst
    rw [Function.comp]
    by_cases hxb : x = b
    · subst hxb
      rw [if_pos hid, hlen, redirectInst_retarget hc hnew]
    · rw [if_neg fun hmem => hxb (hssa.linked x hx b hb id hid hmem)]
      congr 1
      funext y
      rw [splitName_append hnew, if_neg fun heq => hxb (congrArg Prod.fst heq)]
  have hfar : f.insts.length + j ∉ f.blockInsts b := fun hmem =>
    absurd (hssa.ids b hb _ hmem) (Nat.not_lt.2 (Nat.le_add_right _ _))
  rw [hat, getElem?_concat, harena]
  simp only [if_neg hfar, Option.map_id']
  rw [getElem?_concat] at he
  split at he
  next hj =>
    rw [hj, if_pos rfl]
    cases he
    rfl
  next hj =>
    rw [if_neg (by omega)]
    exact h.jumps j e he

/-! ## Names and counts -/

theorem splitName_eq_old (hy : y < n) :
    splitName n done (key x) x = y ↔ x = y ∧ key y ∉ done := by
  unfold splitName
  split
  next hx =>
    refine ⟨fun heq => ?_, ?_⟩
    · rw [← heq] at hy
      simp at hy
    · rintro ⟨rfl, hnew⟩
      exact absurd hx hnew
  next hx => exact ⟨fun heq => ⟨heq, heq ▸ hx⟩, And.left⟩

theorem splitName_eq_new {other : BlockId × BlockId} (hx : x < n)
    (hedge : edge ∈ done) : splitName n done other x = n + done.idxOf edge ↔ other = edge := by
  unfold splitName
  refine ⟨fun heq => ?_, ?_⟩
  · split at heq
    next hother => exact (idxOf_inj hother).1 (Nat.add_left_cancel heq)
    · rw [heq] at hx
      simp at hx
  rintro rfl
  exact if_pos hedge

theorem nthIndex_map (l : List BlockId) (k : ℕ) (h : ∀ z ∈ l, rename z = y ↔ z = x) :
    nthIndex y (l.map rename) k = nthIndex x l k := by
  induction l generalizing k with
  | nil => rfl
  | cons z l ih =>
    obtain ⟨hz, hl⟩ := forall_mem_cons.1 h
    cases k <;> simp only [map_cons, nthIndex, hz, ih _ hl]

theorem count_map_of_iff (l : List BlockId)
    (h : ∀ z ∈ l, rename z = y ↔ z = x) : (l.map rename).count y = l.count x := by
  rw [List.count, countP_map, List.count]
  refine countP_congr fun z hz => ?_
  simpa using h z hz

/-! ## Running through the split blocks -/

theorem SplitOf.jump_at (h : SplitOf f done g) (hj : j < done.length) :
    ∃ inst, g.insts[f.insts.length + j]? = some inst ∧ inst.unblock = (jumpInst 0).unblock :=
  Option.map_eq_some_iff.1 (h.jumps j hj)

theorem SplitOf.isPhiAt_jump (h : SplitOf f done g) (hj : j < done.length) :
    g.isPhiAt (f.insts.length + j) = false := by
  obtain ⟨inst, hinst, hjump⟩ := h.jump_at hj
  rw [isPhiAt_eq, hinst, Option.map_some, ← inst.isPhi_unblock, hjump]
  rfl

theorem SplitOf.phis_split (h : SplitOf f done g) (hedge : done[j]? = some edge) :
    g.phis (f.blocks.length + j) = [] := by
  obtain ⟨inst, hinst, hjump⟩ := h.jump_at (List.getElem?_eq_some_iff.1 hedge).1
  have hphi : inst.isPhi = false := by rw [← inst.isPhi_unblock, hjump]; rfl
  rw [MachFunction.phis, (h.split j edge hedge).1]
  simp [hinst, hphi]

theorem SplitOf.exec_split {Val World : Type*} {m : Machine Val World} (hjump : m.JumpSilent)
    (h : SplitOf f done g) (hedge : done[j]? = some edge) (st : ExecState Val World) :
    (m.execInsts g (g.body (f.blocks.length + j)) st).1 = st := by
  have hj := (List.getElem?_eq_some_iff.1 hedge).1
  obtain ⟨inst, hinst, hunblock⟩ := h.jump_at hj
  have hstep : (m.step (jumpInst 0) st).1 = st := by
    rw [Machine.step, show (jumpInst 0).asCopy = none from rfl]
    exact congrArg (ExecState.mk st.regs) (hjump 0 st.world)
  rw [MachFunction.body, (h.split j edge hedge).1, filter_cons_of_pos (by
    rw [h.isPhiAt_jump hj]; rfl), filter_nil, execInsts_cons_eq, hinst, Option.map_some,
    ← m.step_unblock, hunblock, m.step_unblock]
  exact hstep

section

variable (h : SplitOf f done g)
    (hids : ∀ b < f.blocks.length, ∀ id ∈ f.blockInsts b, id < f.insts.length)
    (hb : b < f.blocks.length)
include h hids hb

theorem SplitOf.body_old : g.body b = f.body b := by
  rw [MachFunction.body, MachFunction.body, h.blockInsts b hb]
  refine filter_congr fun id hid => ?_
  rw [(h.old id (hids b hb id hid)).isPhiAt]

theorem SplitOf.exec_old {Val World : Type*} (m : Machine Val World) (st : ExecState Val World) :
    (m.execInsts g (g.body b) st).1 = (m.execInsts f (f.body b) st).1 := by
  rw [h.body_old hids hb]
  refine execInsts_congr m _ _ fun id hid => ?_
  exact h.old id (hids b hb id (mem_of_mem_filter hid))

theorem SplitOf.phis_old : (g.phis b).map MachInst.unblock = (f.phis b).map MachInst.unblock :=
  phis_congr (h.blockInsts b hb) fun id hid => h.old id (hids b hb id hid)

end

/-- **Simulation.**  An edge of the old function is one edge of the new one, or two with the
split block between them. -/
theorem SplitOf.throughStep {Val World : Type*} {m : Machine Val World} (hjump : m.JumpSilent)
    (h : SplitOf f done g) (hssa : f.SsaForm)
    (hsingle : ∀ edge ∈ done, (f.succs edge.1).count edge.2 = 1) (hb : b < f.blocks.length)
    (st : ExecState Val World) (i : ℕ) :
    m.throughStep g f.blocks.length (b, st) i = m.edgeStep f (b, st) i := by
  have hsuccs := h.succs b hb
  rw [Machine.throughStep, Machine.edgeStep, Machine.edgeStep, hsuccs, getElem?_map]
  cases hi : (f.succs b)[i]? with
  | none => rfl
  | some c =>
    have hc : c < f.blocks.length := hssa.succs_lt b hb c (mem_of_getElem? hi)
    have hmoves := phiMoves_congr (h.phis_old hssa.ids hc)
    simp only [Option.map_some]
    rw [h.exec_old hssa.ids hb]
    by_cases hdone : (b, c) ∈ done
    · have hj : done[done.idxOf (b, c)]? = some (b, c) := getElem?_idxOf hdone
      -- the edge was split: its only copy is edge `i`, and the block behind it is a jump
      have htake : ((f.succs b).take i).count c = 0 := by
        have hcount : (f.succs b).count c = 1 := hsingle _ hdone
        obtain ⟨hlt, hget⟩ := List.getElem?_eq_some_iff.1 hi
        rw [← take_append_drop i (f.succs b), count_append,
          drop_eq_getElem_cons hlt, hget, count_cons_self] at hcount
        omega
      rw [splitName, if_pos hdone, if_neg (by simp)]
      obtain ⟨-, -, hnext⟩ := h.split _ _ hj
      have hslot : g.slot (f.blocks.length + done.idxOf (b, c)) 0 c = f.slot b i c := by
        rw [MachFunction.slot, MachFunction.slot, htake, h.preds c hc]
        refine nthIndex_map _ _ fun x hx => ?_
        rw [splitName_eq_new (hssa.preds_lt c hc x hx) hdone]
        exact ⟨fun heq => congrArg Prod.fst heq, fun heq => by rw [heq]⟩
      rw [Machine.edgeStep, hnext]
      simp only [getElem?_cons_zero, enterBlock_of_phis_nil (h.phis_split hj)]
      rw [h.exec_split hjump hj, hslot]
      simp only [enterBlock, hmoves]
    · rw [splitName, if_neg hdone, if_pos hc]
      have hslot : g.slot b i c = f.slot b i c := by
        rw [MachFunction.slot, MachFunction.slot, h.preds c hc, hsuccs, ← map_take,
          count_map_of_iff (x := c) _ fun x _ => by
            rw [splitName_eq_old (fun x => (b, x)) hc, and_iff_left hdone]]
        refine nthIndex_map _ _ fun x _ => ?_
        rw [splitName_eq_old (fun x => (x, c)) hb, and_iff_left hdone]
      rw [hslot]
      simp only [enterBlock, hmoves]

/-! ## SSA form of the result -/

section

variable (key : BlockId → BlockId × BlockId)

theorem count_map_splitName_old (hy : y < n) (l : List BlockId) :
    (l.map fun x => splitName n done (key x) x).count y
      = if key y ∈ done then 0 else l.count y := by
  split
  next hmem =>
    refine count_eq_zero.2 fun hin => ?_
    obtain ⟨x, -, hx⟩ := mem_map.1 hin
    exact ((splitName_eq_old key hy).1 hx).2 hmem
  next hnot =>
    refine count_map_of_iff l fun x _ => ?_
    rw [splitName_eq_old key hy, and_iff_left hnot]

theorem count_map_splitName_new (hedge : edge ∈ done) (hkey : ∀ x, key x = edge ↔ x = y)
    (l : List BlockId) (hl : ∀ x ∈ l, x < n) :
    (l.map fun x => splitName n done (key x) x).count (n + done.idxOf edge) = l.count y :=
  count_map_of_iff l fun x hx => (splitName_eq_new (hl x hx) hedge).trans (hkey x)

theorem count_map_splitName_other (hedge : edge ∈ done) (hkey : ∀ x, key x ≠ edge)
    (l : List BlockId) (hl : ∀ x ∈ l, x < n) :
    (l.map fun x => splitName n done (key x) x).count (n + done.idxOf edge) = 0 := by
  refine count_eq_zero.2 fun hin => ?_
  obtain ⟨x, hx, heq⟩ := mem_map.1 hin
  exact hkey x ((splitName_eq_new (hl x hx) hedge).1 heq)

end

section

variable (h : SplitOf f done g)
include h

theorem SplitOf.block_cases (hx : x < g.blocks.length) :
    x < f.blocks.length ∨ ∃ j edge, x = f.blocks.length + j ∧ done[j]? = some edge := by
  have hlen := h.blocks
  by_cases hold : x < f.blocks.length
  · exact .inl hold
  obtain ⟨j, hj⟩ := Nat.exists_eq_add_of_le (Nat.le_of_not_lt hold)
  have hlt : j < done.length := by
    have : f.blocks.length + j < g.blocks.length := hj ▸ hx
    omega
  exact .inr ⟨j, done[j], hj, getElem?_eq_getElem hlt⟩

theorem SplitOf.agree (hssa : f.SsaForm) (hnodup : done.Nodup)
    (hlt : ∀ edge ∈ done, edge.1 < f.blocks.length ∧ edge.2 < f.blocks.length)
    (hsingle : ∀ edge ∈ done, (f.succs edge.1).count edge.2 = 1) (hb : b < g.blocks.length)
    (hc : c < g.blocks.length) : (g.succs b).count c = (g.preds c).count b := by
  have hidx : ∀ j edge, done[j]? = some edge → done.idxOf edge = j := by
    intro j edge hj
    obtain ⟨hlt, rfl⟩ := List.getElem?_eq_some_iff.1 hj
    exact hnodup.idxOf_getElem j hlt
  rcases h.block_cases hb with hb | ⟨i, e, rfl, hi⟩ <;>
    rcases h.block_cases hc with hc | ⟨j, e', rfl, hj⟩
  · rw [h.succs b hb, h.preds c hc, count_map_splitName_old (fun y => (b, y)) hc,
      count_map_splitName_old (fun y => (y, c)) hb, hssa.agree b hb c hc]
  · have hmem := mem_of_getElem? hj
    rw [h.succs b hb, (h.split j e' hj).2.1, ← hidx j e' hj]
    by_cases hbe : b = e'.1
    · rw [count_map_splitName_new (y := e'.2) (fun y => (b, y)) hmem
          (fun x => by rw [hbe, Prod.ext_iff]; simp) _ (hssa.succs_lt b hb), hbe, hsingle e' hmem]
      simp
    rw [count_map_splitName_other (fun y => (b, y)) hmem
        (fun x heq => hbe (congrArg Prod.fst heq)) _ (hssa.succs_lt b hb)]
    simp [Ne.symm hbe]
  · have hmem := mem_of_getElem? hi
    rw [h.preds c hc, (h.split i e hi).2.2, ← hidx i e hi]
    by_cases hce : c = e.2
    · rw [count_map_splitName_new (y := e.1) (fun y => (y, c)) hmem
          (fun x => by rw [hce, Prod.ext_iff]; simp) _ (hssa.preds_lt c hc), hce,
        ← hssa.agree _ (hlt e hmem).1 _ (hlt e hmem).2, hsingle e hmem]
      simp
    rw [count_map_splitName_other (fun y => (y, c)) hmem
        (fun x heq => hce (congrArg Prod.snd heq)) _ (hssa.preds_lt c hc)]
    simp [Ne.symm hce]
  have he := (hlt e (mem_of_getElem? hi)).2
  have he' := (hlt e' (mem_of_getElem? hj)).1
  have hfar : ∀ x < f.blocks.length, ∀ k, f.blocks.length + k ≠ x := fun x hx k => by omega
  rw [(h.split i e hi).2.2, (h.split j e' hj).2.1, count_eq_zero.2, count_eq_zero.2]
  · exact fun hmem => hfar _ he' i (mem_singleton.1 hmem)
  · exact fun hmem => hfar _ he j (mem_singleton.1 hmem)

/-- What a phi of the result has in common with a phi of the old function. -/
theorem SplitOf.mem_phis_old (hssa : f.SsaForm) (hb : b < f.blocks.length)
    (hinst : inst ∈ g.phis b) : ∃ old ∈ f.phis b, old.unblock = inst.unblock := by
  have hmem : inst.unblock ∈ (f.phis b).map MachInst.unblock := by
    rw [← h.phis_old hssa.ids hb]
    exact mem_map_of_mem hinst
  exact mem_map.1 hmem

theorem SplitOf.inst_cases {id : InstId} (hinst : g.insts[id]? = some inst) :
    (∃ old, f.insts[id]? = some old ∧ old.unblock = inst.unblock)
      ∨ f.insts.length ≤ id ∧ inst.unblock = (jumpInst 0).unblock := by
  have harena := h.arena
  by_cases hid : id < f.insts.length
  · exact .inl (Option.map_eq_some_iff.1 ((h.old id hid).symm.trans (by rw [hinst]; rfl)))
  obtain ⟨j, rfl⟩ := Nat.exists_eq_add_of_le (Nat.le_of_not_lt hid)
  have hlt := (List.getElem?_eq_some_iff.1 hinst).1
  have hjump := h.jumps j (by omega)
  rw [hinst] at hjump
  exact .inr ⟨Nat.le_add_right _ _, Option.some_inj.1 hjump⟩

theorem SplitOf.ssaForm (hssa : f.SsaForm) (hnodup : done.Nodup)
    (hlt : ∀ edge ∈ done, edge.1 < f.blocks.length ∧ edge.2 < f.blocks.length)
    (hsingle : ∀ edge ∈ done, (f.succs edge.1).count edge.2 = 1) : g.SsaForm := by
  have hlen := h.blocks
  have harena := h.arena
  have hblocks : f.blocks.length ≤ g.blocks.length := by omega
  have hinsts : f.insts.length ≤ g.insts.length := by omega
  have hname : ∀ (l : List BlockId) (key : BlockId → BlockId × BlockId),
      (∀ x ∈ l, x < f.blocks.length) →
      ∀ y ∈ l.map fun x => splitName f.blocks.length done (key x) x, y < g.blocks.length := by
    intro l key hl y hy
    obtain ⟨x, hx, rfl⟩ := mem_map.1 hy
    unfold splitName
    split
    next hmem =>
      rw [hlen]
      exact Nat.add_lt_add_left (idxOf_lt_length_of_mem hmem) _
    · exact (hl x hx).trans_le hblocks
  refine ⟨?_, ?_, ?_, ?_, ?_, ?_, ?_, ?_, ?_, ?_⟩
  · refine h.order.nodup_iff.2 (nodup_append'.2 ⟨hssa.order, nodup_range', ?_⟩)
    intro x hx hx'
    have h1 := (hssa.listed x).1 hx
    have h2 := (mem_range'_1.1 hx').1
    exact absurd h1 (Nat.not_lt.2 h2)
  · intro x
    rw [h.order.mem_iff, mem_append, hssa.listed, mem_range'_1, hlen]
    have hiff : ∀ x n k : ℕ, x < n ∨ n ≤ x ∧ x < n + k ↔ x < n + k := by omega
    exact hiff x _ _
  · intro x hx id hid
    rcases h.block_cases hx with hx | ⟨j, e, rfl, hj⟩
    · rw [h.blockInsts x hx] at hid
      exact (hssa.ids x hx id hid).trans_le hinsts
    rw [(h.split j e hj).1, mem_singleton] at hid
    rw [hid, harena]
    exact Nat.add_lt_add_left (List.getElem?_eq_some_iff.1 hj).1 _
  · intro x hx y hy id hid hid'
    have hold : ∀ z < f.blocks.length, id ∈ g.blockInsts z → id < f.insts.length := by
      intro z hz hmem
      rw [h.blockInsts z hz] at hmem
      exact hssa.ids z hz id hmem
    have hfresh : ∀ j e, done[j]? = some e → id ∈ g.blockInsts (f.blocks.length + j) →
        ¬ id < f.insts.length := by
      intro j e hj hmem
      rw [(h.split j e hj).1, mem_singleton] at hmem
      rw [hmem]
      exact Nat.not_lt.2 (Nat.le_add_right _ _)
    rcases h.block_cases hx with hx | ⟨i, e, rfl, hi⟩ <;>
      rcases h.block_cases hy with hy | ⟨j, e', rfl, hj⟩
    · rw [h.blockInsts x hx] at hid
      rw [h.blockInsts y hy] at hid'
      exact hssa.linked x hx y hy id hid hid'
    · exact absurd (hold x hx hid) (hfresh j e' hj hid')
    · exact absurd (hold y hy hid') (hfresh i e hi hid)
    rw [(h.split i e hi).1, mem_singleton] at hid
    rw [(h.split j e' hj).1, mem_singleton] at hid'
    rw [Nat.add_left_cancel (hid.symm.trans hid')]
  · intro v hv
    obtain ⟨inst, hinst, hmem⟩ := mem_flatMap.1 hv
    obtain ⟨id, hid⟩ := mem_iff_getElem?.1 hinst
    rw [← inst.vregDefs_unblock, ← inst.vregUses_unblock] at hmem
    rw [h.nextVreg]
    rcases h.inst_cases hid with ⟨old, hat, heq⟩ | ⟨-, heq⟩
    · rw [← heq, old.vregDefs_unblock, old.vregUses_unblock] at hmem
      exact hssa.vregs v (mem_vregs hat hmem)
    rw [heq] at hmem
    cases hmem
  · intro x hx y hy
    rcases h.block_cases hx with hx | ⟨j, e, rfl, hj⟩
    · rw [h.succs x hx] at hy
      exact hname _ (fun y => (x, y)) (hssa.succs_lt x hx) y hy
    rw [(h.split j e hj).2.2, mem_singleton] at hy
    exact hy ▸ (hlt e (mem_of_getElem? hj)).2.trans_le hblocks
  · intro x hx y hy
    rcases h.block_cases hx with hx | ⟨j, e, rfl, hj⟩
    · rw [h.preds x hx] at hy
      exact hname _ (fun y => (y, x)) (hssa.preds_lt x hx) y hy
    rw [(h.split j e hj).2.1, mem_singleton] at hy
    exact hy ▸ (hlt e (mem_of_getElem? hj)).1.trans_le hblocks
  · exact fun b hb c hc => h.agree hssa hnodup hlt hsingle hb hc
  · intro x hx inst hinst
    rcases h.block_cases hx with hx | ⟨j, e, rfl, hj⟩
    · obtain ⟨old, hmem, heq⟩ := h.mem_phis_old hssa hx hinst
      obtain ⟨hdef, huses⟩ := hssa.phis x hx old hmem
      rw [← inst.defs_unblock, ← heq]
      refine ⟨hdef, fun slot hslot => ?_⟩
      rw [← inst.useAt_unblock, ← heq, old.useAt_unblock]
      refine huses slot ?_
      rwa [h.preds x hx, length_map] at hslot
    rw [h.phis_split hj] at hinst
    simp at hinst
  · intro x hx
    rcases h.block_cases hx with hx | ⟨j, e, rfl, hj⟩
    · have hheads : ∀ l : List MachInst, l.map (fun inst => inst.defs.head?)
          = (l.map MachInst.unblock).map fun inst => inst.defs.head? := by
        intro l
        rw [map_map]
        rfl
      rw [hheads, h.phis_old hssa.ids hx, ← hheads]
      exact hssa.distinct x hx
    rw [h.phis_split hj]
    exact nodup_nil

end

end

/-! ## The edges that are split -/

section

theorem mem_criticalEdges : (b, c) ∈ criticalEdges f
    ↔ b ∈ f.blockOrder ∧ 1 < (f.succs b).length ∧ c ∈ f.succs b
      ∧ edgeNeedsPhiCopy f b c = true := by
  simp only [criticalEdges, mem_flatMap, mem_ite_nil_right, mem_map, mem_filter, Prod.mk.injEq]
  constructor
  · rintro ⟨_, hx, hlen, _, ⟨hin, hneeds⟩, rfl, rfl⟩
    exact ⟨hx, hlen, hin, hneeds⟩
  · rintro ⟨hb, hlen, hc, hneeds⟩
    exact ⟨b, hb, hlen, c, ⟨hc, hneeds⟩, rfl, rfl⟩

theorem criticalEdges_lt (hssa : f.SsaForm) : ∀ edge ∈ criticalEdges f,
    edge.1 < f.blocks.length ∧ edge.2 < f.blocks.length := by
  rintro ⟨b, c⟩ hedge
  obtain ⟨hb, -, hc, -⟩ := mem_criticalEdges.1 hedge
  have hlt := (hssa.listed b).1 hb
  exact ⟨hlt, hssa.succs_lt b hlt c hc⟩

section

variable (hssa : f.SsaForm) (hsplit : f.SplitsSingleEdges)
include hssa hsplit

theorem criticalEdges_single : ∀ edge ∈ criticalEdges f, (f.succs edge.1).count edge.2 = 1 := by
  rintro ⟨b, c⟩ hedge
  obtain ⟨hb, -, hc, hneeds⟩ := mem_criticalEdges.1 hedge
  exact hsplit b ((hssa.listed b).1 hb) c hc hneeds

theorem criticalEdges_nodup : (criticalEdges f).Nodup := by
  rw [criticalEdges, nodup_flatMap]
  refine ⟨fun b hb => ?_, ?_⟩
  · split
    · refine .map (Prod.mk_right_injective b) ?_
      refine nodup_iff_count_le_one.2 fun c => ?_
      by_cases hc : c ∈ (f.succs b).filter fun c => edgeNeedsPhiCopy f b c
      · obtain ⟨hin, hneeds⟩ := mem_filter.1 hc
        rw [← hsplit b ((hssa.listed b).1 hb) c hin hneeds]
        exact List.Sublist.count_le c filter_sublist
      rw [count_eq_zero.2 hc]
      exact Nat.zero_le 1
    · exact nodup_nil
  refine hssa.order.imp fun hne edge h1 h2 => hne ?_
  simp only [mem_ite_nil_right, mem_map] at h1 h2
  obtain ⟨-, y, -, rfl⟩ := h1
  obtain ⟨-, z, -, heq⟩ := h2
  exact (congrArg Prod.fst heq).symm

/-- **The closed form of `split_critical_edges`.** -/
theorem splitCriticalEdges_spec : SplitOf f (criticalEdges f) (splitCriticalEdges f).1
    ∧ Retargeted f (criticalEdges f) (splitCriticalEdges f).1 := by
  refine @Loop.foldl_of_split _ _ _ _ _
    (fun done g => SplitOf f done g ∧ Retargeted f done g) ⟨.refl f, .refl f⟩ ?_
  intro done edge rest hedges h
  obtain ⟨hb, hc⟩ := criticalEdges_lt hssa edge (by simp [hedges])
  -- no edge comes twice
  have hnodup := criticalEdges_nodup hssa hsplit
  rw [hedges] at hnodup
  have hnew : edge ∉ done := fun hmem => disjoint_of_nodup_append hnodup hmem mem_cons_self
  exact ⟨splitEdge_splitOf h.1 hb hc hnew, splitEdge_retargeted hssa h.1 h.2 hb hc hnew⟩

end

/-! ## Parallel edges -/

theorem count_replaceId_of_ne {old new x : BlockId} (hold : x ≠ old) (hnew : x ≠ new)
    (l : List BlockId) : (replaceId old new l).count x = l.count x := by
  refine count_map_of_iff l fun y _ => ?_
  split
  next heq => exact ⟨fun h => absurd h.symm hnew, fun h => absurd (h.symm.trans heq) hold⟩
  · exact Iff.rfl

theorem count_le_count_replaceId (old new : BlockId) (l : List BlockId) :
    l.count old ≤ (replaceId old new l).count new := by
  rw [replaceId, List.count, List.count, countP_map]
  refine countP_mono_left fun y _ hy => ?_
  simp only [Function.comp, beq_iff_eq] at hy ⊢
  exact if_pos hy

/-- A block was put on parallel edges from `b`: it lists `b` once. -/
def Crossed (f g : MachFunction) (b : BlockId) : Prop :=
  ∃ d, f.blocks.length ≤ d ∧ d < g.blocks.length ∧ 2 ≤ (g.succs b).count d ∧ g.preds d = [b]

theorem Crossed.splitEdge (h : Crossed f g b) (hle : f.blocks.length ≤ g.blocks.length)
    (hb : b < f.blocks.length) {edge : BlockId × BlockId}
    (hlt : edge.1 < f.blocks.length ∧ edge.2 < f.blocks.length) :
    Crossed f (RegAlloc.splitEdge g edge) b := by
  obtain ⟨d, hd, hdlt, hcount, hpreds⟩ := h
  have hlists := fun x => splitEdge_lists (x := x) (hlt.1.trans_le hle) (hlt.2.trans_le hle)
  refine ⟨d, hd, ?_, ?_, ?_⟩
  · rw [splitEdge_blocks_length]
    exact Nat.lt_succ_of_lt hdlt
  · rw [(hlists b).1, if_neg (hb.trans_le hle).ne]
    split
    · rwa [count_replaceId_of_ne (hlt.2.trans_le hd).ne' hdlt.ne]
    · exact hcount
  rwa [(hlists d).2.1, if_neg hdlt.ne, if_neg (hlt.2.trans_le hd).ne]

/-- Until an edge is split, its parallel edges stay; then they share a block. -/
theorem foldl_splitEdge_crossed (hb : b < f.blocks.length) (hc : c < f.blocks.length)
    (edges : List (BlockId × BlockId)) (g : MachFunction) (hle : f.blocks.length ≤ g.blocks.length)
    (hlt : ∀ edge ∈ edges, edge.1 < f.blocks.length ∧ edge.2 < f.blocks.length)
    (h : Crossed f g b ∨ (b, c) ∈ edges ∧ 2 ≤ (g.succs b).count c) :
    Crossed f (edges.foldl splitEdge g) b := by
  induction edges generalizing g with
  | nil => exact h.resolve_right fun hmem => absurd hmem.1 not_mem_nil
  | cons edge edges ih =>
    obtain ⟨hedge, hlt⟩ := forall_mem_cons.1 hlt
    have hbg : b < g.blocks.length := hb.trans_le hle
    have hcg : c < g.blocks.length := hc.trans_le hle
    refine ih _ (by rw [splitEdge_blocks_length]; omega) hlt ?_
    rcases h with h | ⟨hmem, hcount⟩
    · exact .inl (h.splitEdge hle hb hedge)
    by_cases heq : edge = (b, c)
    · subst heq
      refine .inl ⟨g.blocks.length, hle, ?_, ?_, ?_⟩
      · rw [splitEdge_blocks_length]
        exact Nat.lt_succ_self _
      · rw [(splitEdge_lists hbg hcg).1, if_neg hbg.ne, if_pos rfl]
        exact hcount.trans (count_le_count_replaceId _ _ _)
      · rw [(splitEdge_lists hbg hcg).2.1, if_pos rfl]
    refine .inr ⟨(mem_cons.1 hmem).resolve_left (Ne.symm heq), ?_⟩
    rw [(splitEdge_lists (hedge.1.trans_le hle) (hedge.2.trans_le hle)).1, if_neg hbg.ne]
    split
    next hfst =>
      have hsnd : c ≠ edge.2 := fun hsnd => heq (Prod.ext hfst hsnd.symm)
      rwa [count_replaceId_of_ne hsnd hcg.ne]
    · exact hcount

/-- **The lists agree after splitting exactly if no edge that is split has a parallel
edge.** -/
theorem splitCriticalEdges_listsAgree_iff (hssa : f.SsaForm) :
    (splitCriticalEdges f).1.ListsAgree ↔ f.SplitsSingleEdges := by
  refine ⟨fun hagree b hb c hc hneeds => ?_, fun hsplit b c => ?_⟩
  · have hpos : 0 < (f.succs b).count c := count_pos_iff.2 hc
    by_contra hne
    have hcount : 2 ≤ (f.succs b).count c := by omega
    have hlen : 1 < (f.succs b).length := lt_of_lt_of_le hcount count_le_length
    have hedge : (b, c) ∈ criticalEdges f :=
      mem_criticalEdges.2 ⟨(hssa.listed b).2 hb, hlen, hc, hneeds⟩
    obtain ⟨d, -, -, htwo, hpreds⟩ := foldl_splitEdge_crossed hb (hssa.succs_lt b hb c hc)
      (criticalEdges f) f le_rfl (criticalEdges_lt hssa) (.inr ⟨hedge, hcount⟩)
    have hone : (((criticalEdges f).foldl splitEdge f).succs b).count d = 1 := by
      rw [← count_singleton_self (a := b), ← hpreds]
      exact hagree b d
    omega
  have hform := (splitCriticalEdges_spec hssa hsplit).1.ssaForm hssa
    (criticalEdges_nodup hssa hsplit) (criticalEdges_lt hssa) (criticalEdges_single hssa hsplit)
  exact hform.listsAgree b c

end

end TrustCg.RegAlloc
