import TrustCg.RegAlloc.PhiPlace

/-!
# Phi elimination is correct where no copy is needed on a parallel edge

Splitting and elimination together.  Where no edge that needs a copy has a parallel edge,
splitting makes the function ready for elimination, and the two simulations compose to one
over whole paths (`eliminatePhis_simulates`).

The lists of the result agree exactly if no edge that is split has a parallel edge.  The
smallest function where one has is `dupEdge`: both edges of its first block lead to the
second, whose phi selects a different vreg for each.  The first round of the loop
redirects both edges to one block; the block made for the second edge is never reached,
and the phi is given the second value on either edge (`eliminatePhis_dupEdge`).
-/

namespace TrustCg.RegAlloc

open List

/-! ## After splitting -/

section

variable {f : MachFunction} {b c : BlockId}

theorem edgeNeedsPhiCopy_iff : edgeNeedsPhiCopy f b c = true
    ↔ ∃ k, (f.preds c).idxOf? b = some k ∧ ∃ move ∈ f.phiMoves c k, move.1 ≠ move.2 := by
  unfold edgeNeedsPhiCopy MachFunction.phiMoves MachFunction.phis MachFunction.preds
    MachFunction.blockInsts
  cases f.blocks[c]? with
  | none => simp
  | some block =>
    dsimp only
    cases block.preds.idxOf? b with
    | none => simp
    | some k =>
      rw [any_eq_true]
      refine ⟨?_, ?_⟩
      · rintro ⟨id, hid, hneeds⟩
        split at hneeds
        · simp at hneeds
        rename_i inst hinst
        rw [Bool.and_eq_true] at hneeds
        obtain ⟨hphi, hmove⟩ := hneeds
        split at hmove
        next dest source hat =>
          refine ⟨k, rfl, (dest, source), mem_filterMap.2 ⟨inst, ?_, hat⟩, ?_⟩
          · exact mem_filter.2 ⟨mem_filterMap.2 ⟨id, hid, hinst⟩, hphi⟩
          · exact Ne.symm (by simpa using hmove)
        · simp at hmove
      rintro ⟨k', hk, move, hmem, hne⟩
      cases hk
      obtain ⟨inst, hinst, hat⟩ := mem_filterMap.1 hmem
      obtain ⟨hin, hphi⟩ := mem_filter.1 hinst
      obtain ⟨id, hid, hget⟩ := mem_filterMap.1 hin
      refine ⟨id, hid, ?_⟩
      rw [hget]
      simpa [hphi, hat] using Ne.symm hne

theorem MachFunction.CopiesOnSingleEdges.splitsSingleEdges (h : f.CopiesOnSingleEdges) :
    f.SplitsSingleEdges := by
  intro b hb c hc hneeds
  have hpos : 0 < (f.succs b).count c := count_pos_iff.2 hc
  by_contra hne
  obtain ⟨k, hk, move, hmove, hdiff⟩ := edgeNeedsPhiCopy_iff.1 hneeds
  obtain ⟨hlt, hget, -⟩ := idxOf?_eq_some_iff.1 hk
  refine hdiff (h b hb c hc (by omega) k hlt ?_ move hmove)
  rw [getElem?_eq_getElem hlt, hget]

/-- A needed copy puts its edge among those that are split, unless it is the only one. -/
theorem succs_of_not_critical (hssa : f.SsaForm) (hcopies : f.CopiesOnSingleEdges)
    (hb : b < f.blocks.length) {k : ℕ} (hk : (f.preds c)[k]? = some b)
    {move : VReg × VReg} (hmove : move ∈ f.phiMoves c k) (hne : move.1 ≠ move.2)
    (hout : (b, c) ∉ criticalEdges f) : f.succs b = [c] := by
  have hlt := (List.getElem?_eq_some_iff.1 hk).1
  have hpos : 0 < (f.preds c).count b := count_pos_iff.2 (mem_of_getElem? hk)
  rw [← hssa.listsAgree b c] at hpos
  have hin : c ∈ f.succs b := count_pos_iff.1 hpos
  have hone : (f.succs b).count c ≤ 1 := by
    by_contra hmany
    exact hne (hcopies b hb c hin (by omega) k hlt hk move hmove)
  have hfirst : (f.preds c).idxOf? b = some k := by
    rw [hssa.listsAgree b c] at hone
    refine List.idxOf?_eq_some_iff.2 ⟨hlt, (List.getElem?_eq_some_iff.1 hk).2, fun j hj heq => ?_⟩
    have hjk : (f.preds c)[j]? = some b := by rw [getElem?_eq_getElem (hj.trans hlt), heq]
    exact absurd (getElem?_inj_of_count_le_one hone hjk hk) hj.ne
  have hneeds : edgeNeedsPhiCopy f b c = true :=
    edgeNeedsPhiCopy_iff.2 ⟨k, hfirst, move, hmove, hne⟩
  have hlen : ¬1 < (f.succs b).length := fun hlen =>
    hout (mem_criticalEdges.2 ⟨(hssa.listed b).2 hb, hlen, hin, hneeds⟩)
  obtain ⟨x, hx⟩ := length_eq_one_iff.1 (show (f.succs b).length = 1 by
    have := length_pos_of_mem hin
    omega)
  rw [hx] at hin ⊢
  rw [mem_singleton.1 hin]

/-- The copies that a block asks for, without the predecessors they go to. -/
theorem map_snd_blockCopies (f : MachFunction) (b : BlockId) : (blockCopies f b).map Prod.snd
    = ((f.phis b).map MachInst.unblock).flatMap fun inst =>
      (List.range' 0 (f.preds b).length).filterMap fun k =>
        (inst.phiMove k).filter fun move => move.2 ≠ move.1 := by
  rw [blockCopies, map_flatMap, flatMap_map]
  refine flatMap_congr fun inst _ => ?_
  rw [← zipIdx_map_snd 0 (f.preds b), filterMap_map, map_filterMap]
  refine filterMap_congr fun entry _ => ?_
  obtain ⟨pred, k⟩ := entry
  dsimp only [Function.comp]
  rw [inst.phiMove_unblock]
  cases inst.phiMove k with
  | none => rfl
  | some move =>
    obtain ⟨d, s⟩ := move
    by_cases hne : s = d <;> simp [hne, Option.filter]

/-- Splitting asks for no new copy. -/
theorem SplitOf.length_phiCopies {g : MachFunction} {done : List (BlockId × BlockId)}
    (hof : SplitOf f done g) (hssa : f.SsaForm) :
    (phiCopies g).length = (phiCopies f).length := by
  have hold : ∀ x ∈ f.blockOrder, (blockCopies g x).length = (blockCopies f x).length := by
    intro x hx
    have hlt := (hssa.listed x).1 hx
    rw [← length_map Prod.snd, map_snd_blockCopies, hof.phis_old hssa.ids hlt, hof.preds x hlt,
      length_map, ← map_snd_blockCopies, length_map]
  have hnew : ∀ x ∈ List.range' f.blocks.length done.length, (blockCopies g x).length = 0 := by
    intro x hx
    obtain ⟨hge, hlt⟩ := mem_range'_1.1 hx
    obtain ⟨j, rfl⟩ := Nat.exists_eq_add_of_le hge
    rw [blockCopies, hof.phis_split (getElem?_eq_getElem (Nat.lt_of_add_lt_add_left hlt))]
    rfl
  rw [phiCopies, phiCopies, length_flatMap, length_flatMap, (hof.order.map _).sum_nat,
    map_append, sum_append, map_congr_left hold, map_congr_left hnew]
  simp

/-- **Splitting makes the function ready for elimination.** -/
theorem splitCriticalEdges_ready (hssa : f.SsaForm) (hcopies : f.CopiesOnSingleEdges)
    (htails : f.TailsClear) (hroom : f.nextVreg + (phiCopies f).length < 2 ^ 32) :
    (splitCriticalEdges f).1.Ready := by
  have hsplit := hcopies.splitsSingleEdges
  have hof := (splitCriticalEdges_spec hssa hsplit).1
  have hform := hof.ssaForm hssa (criticalEdges_nodup hssa hsplit) (criticalEdges_lt hssa)
    (criticalEdges_single hssa hsplit)
  refine ⟨hform, by rwa [hof.nextVreg, hof.length_phiCopies hssa], ?_, ?_⟩
  · intro c hc k p hpred move hmove hne
    rcases hof.block_cases hc with hc | ⟨j, e, rfl, hj⟩
    · rw [phiMoves_congr (hof.phis_old hssa.ids hc)] at hmove
      rw [hof.preds c hc, getElem?_map, Option.map_eq_some_iff] at hpred
      obtain ⟨x, hx, rfl⟩ := hpred
      have hxlt := hssa.preds_lt c hc x (mem_of_getElem? hx)
      by_cases hcrit : (x, c) ∈ criticalEdges f
      · rw [splitName, if_pos hcrit]
        exact (hof.split _ _ (getElem?_idxOf hcrit)).2.2
      rw [splitName, if_neg hcrit, hof.succs x hxlt,
        succs_of_not_critical hssa hcopies hxlt hx hmove hne hcrit]
      simp only [map_cons, map_nil, splitName, if_neg hcrit]
    rw [MachFunction.phiMoves, hof.phis_split hj] at hmove
    cases hmove
  intro b hb c hc hlen k hk hpred move hmove hne inst hmem hphi
  obtain ⟨id, hid, hinst⟩ := mem_filterMap.1 hmem
  rcases hof.inst_cases hinst with ⟨old, hold, heq⟩ | ⟨-, heq⟩
  · rw [MachInst.Clear, ← inst.vregUses_unblock, ← inst.vregDefs_unblock, ← heq,
      old.vregUses_unblock, old.vregDefs_unblock]
    rw [← inst.isPhi_unblock, ← heq, old.isPhi_unblock] at hphi
    have hidlt := (List.getElem?_eq_some_iff.1 hold).1
    have hsub := (rtakeWhile_suffix _ _).subset hid
    rcases hof.block_cases hb with hb | ⟨j, e, rfl, hj⟩
    · -- the one edge of an old block was not split
      obtain ⟨c', hc'⟩ : ∃ c', f.succs b = [c'] := by
        rw [hof.succs b hb, length_map] at hlen
        exact length_eq_one_iff.1 hlen
      have hcrit : (b, c') ∉ criticalEdges f := fun hmem => by
        have := (mem_criticalEdges.1 hmem).2.1
        rw [hc'] at this
        simp at this
      rw [hof.succs b hb, hc', map_singleton, splitName, if_neg hcrit, mem_singleton] at hc
      subst hc
      have hin : c ∈ f.succs b := by rw [hc']; exact mem_singleton_self c
      have hclt := hssa.succs_lt b hb c hin
      rw [phiMoves_congr (hof.phis_old hssa.ids hclt)] at hmove
      rw [hof.preds c hclt, getElem?_map, Option.map_eq_some_iff] at hpred
      obtain ⟨x, hx, hxb⟩ := hpred
      obtain rfl := ((splitName_eq_old (fun y => (y, c)) hb).1 hxb).1
      refine htails x hb c hin (by rw [hc']; rfl) k (List.getElem?_eq_some_iff.1 hx).1 hx move
        hmove hne old (mem_filterMap.2 ⟨id, ?_, hold⟩) hphi
      rw [hof.blockInsts x hb, rtakeWhile_congr (r := f.isTailAt)] at hid
      · exact hid
      · exact fun id hid => (hof.old id (hssa.ids x hb id hid)).isTailAt
    · rw [(hof.split j e hj).1, mem_singleton] at hsub
      exact absurd hidlt (by rw [hsub]; simp)
  · rw [MachInst.Clear, ← inst.vregUses_unblock, ← inst.vregDefs_unblock, heq]
    exact ⟨not_mem_nil, not_mem_nil, not_mem_nil⟩

/-! ## The lists of the result -/

theorem placeCopies_lists (acc : MachFunction × (BlockId → List (VReg × VReg))) (p x : BlockId) :
    (placeCopies acc p).1.succs x = acc.1.succs x
      ∧ (placeCopies acc p).1.preds x = acc.1.preds x := by
  unfold placeCopies
  split
  · exact ⟨rfl, rfl⟩
  · exact edges_modify rfl _

theorem eliminatePhis_lists (g : MachFunction) (x : BlockId) :
    (eliminatePhis g).succs x = g.succs x ∧ (eliminatePhis g).preds x = g.preds x := by
  have hplace : ∀ preds : List BlockId,
      (preds.foldl placeCopies (g, copiesByPred g)).1.succs x = g.succs x
        ∧ (preds.foldl placeCopies (g, copiesByPred g)).1.preds x = g.preds x := fun preds =>
    foldlRecOn (motive := fun acc => acc.1.succs x = g.succs x ∧ acc.1.preds x = g.preds x)
      preds _ ⟨rfl, rfl⟩ fun acc h p _ =>
        ⟨(placeCopies_lists acc p x).1.trans h.1, (placeCopies_lists acc p x).2.trans h.2⟩
  obtain ⟨-, -, hfields⟩ := foldl_removePhi (phiInstsToRemove g)
    ((g.blockOrder ++ List.range g.blocks.length).foldl placeCopies (g, copiesByPred g)).1
  exact ⟨(hfields x).1.trans (hplace _).1, (hfields x).2.1.trans (hplace _).2⟩

theorem eliminatePhis_listsAgree_iff (hssa : f.SsaForm) :
    (eliminatePhis (splitCriticalEdges f).1).ListsAgree ↔ f.SplitsSingleEdges := by
  rw [← splitCriticalEdges_listsAgree_iff hssa]
  unfold MachFunction.ListsAgree
  simp only [(eliminatePhis_lists _ _).1, (eliminatePhis_lists _ _).2]

/-! ## The branches of the result -/

/-- **The branches of `h` name its successors.**  A block of `f` has its successors in `h`
under new names, its instructions but the phis are those of `f` with the same names in them,
and a name that is not the old one is that of a block behind the old ones which ends in a
jump to the old successor and has no other one. -/
structure BranchesFollow (f h : MachFunction) (name : BlockId → BlockId → BlockId) : Prop where
  succs : ∀ b < f.blocks.length, h.succs b = (f.succs b).map (name b)
  insts : ∀ b < f.blocks.length, ∀ id ∈ f.body b,
    id ∈ h.body b ∧ h.insts[id]? = (f.insts[id]?).map (MachInst.retarget (name b))
  ends : ∀ b c, name b c = c ∨ f.blocks.length ≤ name b c ∧ h.succs (name b c) = [c]
    ∧ ∃ id, (h.body (name b c)).getLast? = some id ∧ h.insts[id]? = some (jumpInst c)

theorem eliminatePhis_branchesFollow (hssa : f.SsaForm) (hcopies : f.CopiesOnSingleEdges)
    (htails : f.TailsClear) (hroom : f.nextVreg + (phiCopies f).length < 2 ^ 32) :
    BranchesFollow f (eliminatePhis (splitCriticalEdges f).1)
      fun b c => splitName f.blocks.length (criticalEdges f) (b, c) c := by
  obtain ⟨hof, hretargeted⟩ := splitCriticalEdges_spec hssa hcopies.splitsSingleEdges
  have helim := eliminatePhis_eliminated (splitCriticalEdges_ready hssa hcopies htails hroom)
  have harena := hof.arena
  have hblocks := hof.blocks
  refine ⟨fun b hb => (helim.succs b).trans (hof.succs b hb), fun b hb id hid => ?_, fun b c => ?_⟩
  · have hlt := hssa.ids b hb id (mem_of_mem_filter hid)
    obtain ⟨ids, next, -, -, hbody, -⟩ := helim.body b (Nat.lt_of_lt_of_le hb (by omega))
    refine ⟨?_, ?_⟩
    · rw [← hof.body_old hssa.ids hb, MachFunction.body, ← headInsts_append_tailInsts,
        filter_append, mem_append] at hid
      rw [hbody, mem_append, mem_append]
      exact hid.imp_left .inl
    · rw [helim.old id (Nat.lt_of_lt_of_le hlt (by omega)),
        hretargeted.old b hb id (mem_of_mem_filter hid)]
  by_cases hcrit : (b, c) ∈ criticalEdges f
  · have hj := getElem?_idxOf hcrit
    have hlt := idxOf_lt_length_iff.2 hcrit
    have hat := hretargeted.jumps _ _ hj
    rw [splitName, if_pos hcrit]
    refine .inr ⟨Nat.le_add_right _ _, (helim.succs _).trans (hof.split _ _ hj).2.2,
      f.insts.length + (criticalEdges f).idxOf (b, c), ?_, ?_⟩
    · obtain ⟨ids, next, -, -, hbody, -⟩ :=
        helim.body (f.blocks.length + (criticalEdges f).idxOf (b, c)) (by omega)
      have htail : (splitCriticalEdges f).1.tailInsts
          (f.blocks.length + (criticalEdges f).idxOf (b, c))
          = [f.insts.length + (criticalEdges f).idxOf (b, c)] := by
        have hlast : (splitCriticalEdges f).1.isTailAt
            (f.insts.length + (criticalEdges f).idxOf (b, c)) = true := by
          rw [isTailAt_eq, hat, Option.map_some, Option.getD_some]
          exact (by decide : (jumpInst 0).unblock.isTail = true)
        rw [MachFunction.tailInsts, (hof.split _ _ hj).1, ← nil_append [_],
          rtakeWhile_concat_pos _ _ _ hlast, rtakeWhile_nil]
      rw [hbody, htail, filter_cons_of_pos (by rw [hof.isPhiAt_jump hlt]; rfl), filter_nil,
        getLast?_concat]
    · rw [helim.old _ (by omega), hat]
  · exact .inl (by rw [splitName, if_neg hcrit])

/-! ## Whole paths -/

variable {Val World : Type*} {m : Machine Val World} {st st' : ExecState Val World}

section

variable (hjump : m.JumpSilent) (hssa : f.SsaForm) (hcopies : f.CopiesOnSingleEdges)
    (htails : f.TailsClear) (hroom : f.nextVreg + (phiCopies f).length < 2 ^ 32)
include hjump hssa hcopies htails hroom

theorem edgeStep_simulates (hb : b < f.blocks.length) (hagree : StateAgree f.nextVreg st st')
    (i : ℕ) :
    RunsAgree f.nextVreg (m.edgeStep f (b, st) i)
      (m.throughStep (eliminatePhis (splitCriticalEdges f).1) f.blocks.length (b, st') i) := by
  have hsplit := hcopies.splitsSingleEdges
  have hof := (splitCriticalEdges_spec hssa hsplit).1
  have hready := splitCriticalEdges_ready hssa hcopies htails hroom
  have helim := eliminatePhis_eliminated hready
  rw [← hof.throughStep hjump hssa (criticalEdges_single hssa hsplit) hb, ← hof.nextVreg]
  rw [← hof.nextVreg] at hagree
  have hstep := helim.edgeStep (m := m) (b := b) hready hagree i
  unfold Machine.throughStep
  generalize m.edgeStep (splitCriticalEdges f).1 (b, st) i = next at hstep ⊢
  generalize m.edgeStep (eliminatePhis (splitCriticalEdges f).1) (b, st') i = next' at hstep ⊢
  cases hstep with
  | none => exact .none
  | @some here here' hrel =>
    obtain ⟨hblock, hstate⟩ := hrel
    dsimp only
    rw [hblock]
    split
    · exact .some ⟨hblock, hstate⟩
    obtain ⟨c, stc⟩ := here
    obtain ⟨c', stc'⟩ := here'
    obtain rfl : c' = c := hblock
    exact helim.edgeStep hready hstate 0

theorem path_simulates (path : List ℕ) (b : BlockId) (st st' : ExecState Val World)
    (hb : b < f.blocks.length) (hagree : StateAgree f.nextVreg st st') :
    RunsAgree f.nextVreg (path.foldlM (m.edgeStep f) (b, st)) (path.foldlM
        (m.throughStep (eliminatePhis (splitCriticalEdges f).1) f.blocks.length) (b, st')) := by
  induction path generalizing b st st' with
  | nil => exact .some ⟨rfl, hagree⟩
  | cons i path ih =>
    have hstep := edgeStep_simulates hjump hssa hcopies htails hroom hb hagree i
    rw [foldlM_cons, foldlM_cons]
    have htarget : ∀ here, m.edgeStep f (b, st) i = some here → here.1 < f.blocks.length := by
      intro here hhere
      unfold Machine.edgeStep at hhere
      split at hhere
      · simp at hhere
      next c hc =>
        rw [← Option.some_inj.1 hhere]
        exact hssa.succs_lt b hb c (mem_of_getElem? hc)
    generalize m.edgeStep f (b, st) i = next at hstep htarget ⊢
    generalize m.throughStep (eliminatePhis (splitCriticalEdges f).1) f.blocks.length (b, st') i
      = next' at hstep ⊢
    cases hstep with
    | none => exact .none
    | @some here here' hrel =>
      obtain ⟨c, stc⟩ := here
      obtain ⟨c', stc'⟩ := here'
      obtain ⟨hblock, hstate⟩ := hrel
      obtain rfl : c' = c := hblock
      exact ih c' stc stc' (htarget _ rfl) hstate

end

end

/-- **Splitting and elimination are correct where no copy is needed on a parallel edge.**
The lists of the result agree exactly if no edge that is split has a parallel edge.  If no
edge that needs a copy has one, the tails behind the copies do not touch them and there are
numbers for as many vregs as there are copies, the result is free of phis, its branches name
its successors, and it takes every path in step with the original: on entry to an original
block all original vregs hold the same values, the phis of the block included. -/
theorem eliminatePhis_simulates (f : MachFunction) (hssa : f.SsaForm) :
    ((eliminatePhis (splitCriticalEdges f).1).ListsAgree ↔ f.SplitsSingleEdges)
      ∧ (f.CopiesOnSingleEdges → f.TailsClear → f.nextVreg + (phiCopies f).length < 2 ^ 32 →
        (∀ b, (eliminatePhis (splitCriticalEdges f).1).phis b = [])
          ∧ (eliminatePhis (splitCriticalEdges f).1).ListsAgree
          ∧ (∃ name, BranchesFollow f (eliminatePhis (splitCriticalEdges f).1) name)
          ∧ ∀ (Val World : Type) (m : Machine Val World), m.JumpSilent →
            ∀ (path : List ℕ) (b : BlockId) (st : ExecState Val World), b < f.blocks.length →
              RunsAgree f.nextVreg (path.foldlM (m.edgeStep f) (b, st))
                (path.foldlM (m.throughStep (eliminatePhis (splitCriticalEdges f).1)
                  f.blocks.length) (b, st))) := by
  refine ⟨eliminatePhis_listsAgree_iff hssa, fun hcopies htails hroom => ⟨?_, ?_, ?_, ?_⟩⟩
  · exact (eliminatePhis_eliminated (splitCriticalEdges_ready hssa hcopies htails hroom)).phiFree
  · exact (eliminatePhis_listsAgree_iff hssa).2 hcopies.splitsSingleEdges
  · exact ⟨_, eliminatePhis_branchesFollow hssa hcopies htails hroom⟩
  intro Val World m hjump path b st hb
  exact path_simulates hjump hssa hcopies htails hroom path b st st hb ⟨rfl, fun _ _ => rfl⟩

/-! ## Two functions -/

/-- An instruction over general vregs. -/
def testInst (opcode : ℕ) (defs uses : List ℕ) (flags : InstFlags) : MachInst :=
  ⟨opcode, defs.map fun id => .vreg ⟨id, .gpr64⟩, uses.map fun id => .vreg ⟨id, .gpr64⟩, [], [],
    flags, []⟩

/-- A loop whose two phis swap their values every time around; its back edge is critical. -/
def swapLoop : MachFunction :=
  { insts := [testInst 1 [0] [] 0, testInst 2 [1] [] 0, testInst 9 [] [] 0x0A,
      testInst 0 [2] [0, 3] 0x100, testInst 0 [3] [1, 2] 0x100, testInst 7 [] [2, 3] 0,
      testInst 9 [] [] 0x0A, testInst 8 [] [2] 0]
    blocks := [⟨[0, 1, 2], [], [1], 0⟩, ⟨[3, 4, 5, 6], [0, 1], [1, 2], 0⟩, ⟨[7], [1], [], 0⟩]
    blockOrder := [0, 1, 2]
    entryBlock := 0
    nextVreg := 4 }

theorem swapLoop_ssaForm : swapLoop.SsaForm where
  order := by decide
  listed := fun b => (mem_range : b ∈ List.range 3 ↔ b < 3)
  ids := by decide
  linked := by decide
  vregs := by decide
  succs_lt := by decide
  preds_lt := by decide
  agree := by decide
  phis := by decide
  distinct := by decide

/-- The swapping loop keeps in step with its elimination. -/
theorem eliminatePhis_simulates_swapLoop :
    (eliminatePhis (splitCriticalEdges swapLoop).1).ListsAgree
      ∧ ∀ path : List ℕ, RunsAgree 4
        (path.foldlM (opcodeMachine.edgeStep swapLoop) (0, ⟨fun _ => 0, ()⟩))
        (path.foldlM (opcodeMachine.throughStep (eliminatePhis (splitCriticalEdges swapLoop).1) 3)
          (0, ⟨fun _ => 0, ()⟩)) := by
  obtain ⟨-, hsim⟩ := eliminatePhis_simulates swapLoop swapLoop_ssaForm
  obtain ⟨-, hlists, -, hpaths⟩ := hsim (by unfold MachFunction.CopiesOnSingleEdges; decide)
    (by unfold MachFunction.TailsClear; decide) (by decide)
  refine ⟨hlists, fun path => ?_⟩
  exact hpaths ℕ Unit opcodeMachine (fun _ _ => rfl) path 0 _ (by decide)

/-- Both edges of the first block lead to the second, whose phi tells them apart. -/
def dupEdge : MachFunction :=
  { insts := [testInst 1 [0] [] 0, testInst 2 [1] [] 0, testInst 9 [] [] 0x0A,
      testInst 0 [2] [0, 1] 0x100, testInst 7 [] [2] 0]
    blocks := [⟨[0, 1, 2], [], [1, 1], 0⟩, ⟨[3, 4], [0, 0], [], 0⟩]
    blockOrder := [0, 1]
    entryBlock := 0
    nextVreg := 3 }

/-- **A parallel edge defeats the pass.**  The function is in SSA form, but the lists of the
result disagree, and over the first edge the phi is given the value for the second. -/
theorem eliminatePhis_dupEdge : dupEdge.SsaForm
      ∧ ¬(eliminatePhis (splitCriticalEdges dupEdge).1).ListsAgree
      ∧ (opcodeMachine.edgeStep dupEdge (0, ⟨fun _ => 0, ()⟩) 0).map
          (fun here => (here.1, here.2.regs ⟨2, .gpr64⟩)) = some (1, 1)
      ∧ (opcodeMachine.throughStep (eliminatePhis (splitCriticalEdges dupEdge).1) 2
          (0, ⟨fun _ => 0, ()⟩) 0).map
          (fun here => (here.1, here.2.regs ⟨2, .gpr64⟩)) = some (1, 2) := by
  refine ⟨⟨by decide, ?_, by decide, by decide, by decide, by decide, by decide, by decide,
    by decide, by decide⟩, fun hagree => ?_, by decide, by decide⟩
  · exact fun b => (mem_range : b ∈ List.range 2 ↔ b < 2)
  · exact absurd (hagree 0 2) (by decide)

end TrustCg.RegAlloc
