import TrustCg.RegAlloc.Coalesce

/-!
# The coalesced function

* `Agree`, `agree_step` : a register of the coalesced function holds the value of
  whichever vreg of its class is live.
* `coalesce_preserves_execution` : runs of the two functions leave the same trace.

The union-find keeps parents by vreg id while operands are renamed by id and class.  A
function that uses one id with two classes confuses the two vregs
(`coalesce_confuses_classes`).
-/

namespace TrustCg.RegAlloc

open Function (update update_of_ne update_self)
open List
open Option (some_inj)

variable {d r src u v : VReg} {id : InstId} {f : MachFunction} {inst : MachInst}
  {rewrites : Rewrites}

/-! ## The coalesced function -/

section

variable {removals : List InstId}

theorem rewriteInst_nil (inst : MachInst) : rewriteInst [] inst = inst := by
  have hop : rewriteOperand [] = fun op => op := by
    funext op
    cases op <;> rfl
  simp [rewriteInst, hop]

theorem applyCoalescing_insts (id : InstId) :
    (applyCoalescing f removals rewrites).insts[id]? = f.insts[id]?.map (rewriteInst rewrites) := by
  unfold applyCoalescing
  cases rewrites with
  | nil =>
    have hid : rewriteInst [] = fun inst => inst := funext rewriteInst_nil
    simp [hid]
  | cons e es => simp

theorem applyCoalescing_blocks : (applyCoalescing f removals rewrites).blocks
    = f.blocks.map fun block =>
      { block with insts := block.insts.filter fun id => !removals.contains id } := by
  unfold applyCoalescing
  split <;> rfl

theorem applyCoalescing_blockInsts (b : BlockId) :
    (applyCoalescing f removals rewrites).blockInsts b
      = (f.blockInsts b).filter fun id => !removals.contains id := by
  rw [MachFunction.blockInsts, applyCoalescing_blocks, getElem?_map, MachFunction.blockInsts]
  cases f.blocks[b]? <;> rfl

theorem applyCoalescing_succs (b : BlockId) :
    (applyCoalescing f removals rewrites).succs b = f.succs b := by
  rw [MachFunction.succs, applyCoalescing_blocks, getElem?_map, MachFunction.succs]
  cases f.blocks[b]? <;> rfl

theorem applyCoalescing_length :
    (applyCoalescing f removals rewrites).blocks.length = f.blocks.length := by
  rw [applyCoalescing_blocks, length_map]

theorem asVreg_rewriteOperand (op : Operand) :
    (rewriteOperand rewrites op).asVreg = op.asVreg.map (resolveRewrite rewrites) := by
  cases op <;> rfl

theorem vregs_rewriteOperand (ops : List Operand) :
    (ops.map (rewriteOperand rewrites)).filterMap Operand.asVreg
      = (ops.filterMap Operand.asVreg).map (resolveRewrite rewrites) := by
  rw [filterMap_map, map_filterMap]
  congr 1
  funext op
  exact asVreg_rewriteOperand op

theorem head_rewriteOperand (ops : List Operand) :
    (ops.map (rewriteOperand rewrites)).head?.bind Operand.asVreg
      = (ops.head?.bind Operand.asVreg).map (resolveRewrite rewrites) := by
  cases ops with
  | nil => rfl
  | cons op ops => exact asVreg_rewriteOperand op

theorem asCopy_rewriteInst (inst : MachInst) : (rewriteInst rewrites inst).asCopy
    = inst.asCopy.map fun ends =>
      (resolveRewrite rewrites ends.1, resolveRewrite rewrites ends.2) := by
  unfold MachInst.asCopy rewriteInst
  split
  · rw [head_rewriteOperand, head_rewriteOperand]
    cases inst.defs.head?.bind Operand.asVreg <;> cases inst.uses.head?.bind Operand.asVreg <;> rfl
  · rfl

theorem shape_rewriteInst {inst : MachInst}
    (hcls : ∀ v ∈ inst.vregDefs ++ inst.vregUses, (resolveRewrite rewrites v).cls = v.cls) :
    (rewriteInst rewrites inst).shape = inst.shape := by
  have hops : ∀ ops : List Operand, (∀ v ∈ ops.filterMap Operand.asVreg,
      (resolveRewrite rewrites v).cls = v.cls) →
      (ops.map (rewriteOperand rewrites)).map Operand.shape = ops.map Operand.shape := by
    intro ops h
    rw [map_map]
    refine map_congr_left fun op hop => ?_
    cases op with
    | vreg v =>
      have hv := h v (mem_filterMap.2 ⟨_, hop, rfl⟩)
      simp only [Function.comp, rewriteOperand, Operand.shape, hv]
    | _ => rfl
  unfold MachInst.shape rewriteInst
  simp only [hops inst.defs fun v hv => hcls v (mem_append_left _ hv),
    hops inst.uses fun v hv => hcls v (mem_append_right _ hv)]

end

/-! ## Runs agree -/

/-- Copies have no operands but destination and source. -/
def MachFunction.PlainCopies (f : MachFunction) : Prop :=
  ∀ inst ∈ f.insts, ∀ d src, inst.asCopy = some (d, src) →
    inst.defs = [.vreg d] ∧ inst.uses = [.vreg src]

/-- A path from instruction `j` of the block leads to a use of `x`, without a definition
on the way. -/
def LiveBefore (f : MachFunction) (x : ℕ) (b : BlockId) (j : ℕ) : Prop :=
  ∃ b' j', Reaches f (fun _ => True) x b j b' j'

/-- **The relation between the register files.**  The representative of every live vreg
holds its value. -/
def Agree {Val : Type*} (f : MachFunction) (rename : VReg → VReg) (b : BlockId) (j : ℕ)
    (regs regs' : VReg → Val) : Prop :=
  ∀ v ∈ f.vregs, LiveBefore f v.id b j → regs' (rename v) = regs v

section

variable {W Val World : Type*} {orig : Intervals W} {removals : List InstId}
    {rename : VReg → VReg} {regs regs' : VReg → Val} {b : BlockId} {j : ℕ}

/-- What the intervals have to cover: the vregs that are live after an instruction. -/
def CoversLive (f : MachFunction) (orig : Intervals W) : Prop :=
  ∀ b j id, f.Reachable b → (f.blockInsts b)[j]? = some id →
    id ∈ layout f ∧ ∃ p, numberInsts f id = some p
      ∧ ∀ x, LiveBefore f x b (j + 1) → orig.Covered x p

/-- A function and intervals to which a renaming can be applied. -/
structure Coalescible (f : MachFunction) (orig : Intervals W) : Prop where
  mentions : CoversMentions f orig
  live : CoversLive f orig
  nodup : (layout f).Nodup
  one : f.OneClassPerId
  plain : f.PlainCopies

/-- Two vregs with one representative that are both live after or mentioned by the
instruction are the ends of the copy it is. -/
theorem asCopy_of_rename_eq (hf : Coalescible f orig) (hok : CoalescingOk f orig removals rename)
    (hb : f.Reachable b) (hid : (f.blockInsts b)[j]? = some id) (hinst : f.insts[id]? = some inst)
    (hu : u ∈ inst.vregDefs) (hv : v ∈ f.vregs)
    (hvlive : v ∈ inst.vregDefs ∨ LiveBefore f v.id b (j + 1)) (hne : u ≠ v)
    (heq : rename u = rename v) : inst.asCopy = some (u, v) ∨ inst.asCopy = some (v, u) := by
  obtain ⟨hlay, p, hpos, hcov⟩ := hf.live b j id hb hid
  have hmention : ∀ w ∈ inst.vregDefs, orig.Covered w.id p := fun w hw =>
    hf.mentions.mention id hlay inst hinst w (mem_append_left _ hw) p hpos
  have hvp : orig.Covered v.id p := hvlive.elim (hmention v) (hcov v.id)
  obtain ⟨id', inst', hlay', hpos', hinst', hcase⟩ := hok.apart u
    (mem_vregs hinst (mem_append_left _ hu)) v hv hne heq p (hmention u hu) hvp
  rw [numberInsts_inj hf.nodup hlay' hlay hpos' hpos, hinst, some_inj] at hinst'
  rw [hinst']
  exact hcase

theorem uses_of_mem (hinst : f.insts[id]? = some inst) (hv : v ∈ inst.vregUses) :
    f.Uses id v.id := ⟨v, by rw [MachFunction.instUses, hinst]; exact hv, rfl⟩

/-- With one class for each id, defining the id is defining the vreg. -/
theorem defines_iff (hone : f.OneClassPerId) (hinst : f.insts[id]? = some inst)
    (hv : v ∈ f.vregs) : f.Defines id v.id ↔ v ∈ inst.vregDefs := by
  rw [MachFunction.Defines, MachFunction.instDefs, hinst]
  constructor
  · rintro ⟨w, hw, hwv⟩
    rw [← hone w (mem_vregs hinst (mem_append_left _ hw)) v hv hwv]
    exact hw
  intro hmem
  exact ⟨v, hmem, rfl⟩

/-- A vreg that is live after an instruction that does not define it was live before. -/
theorem LiveBefore.back (hone : f.OneClassPerId) (hid : (f.blockInsts b)[j]? = some id)
    (hinst : f.insts[id]? = some inst) (hv : v ∈ f.vregs) (hdef : v ∉ inst.vregDefs)
    (h : LiveBefore f v.id b (j + 1)) : LiveBefore f v.id b j := by
  obtain ⟨b', j', hreach⟩ := h
  exact ⟨b', j', .next hid (fun hd => hdef ((defines_iff hone hinst hv).1 hd)) hreach⟩

theorem Agree.uses (h : Agree f rename b j regs regs') (hid : (f.blockInsts b)[j]? = some id)
    (hinst : f.insts[id]? = some inst) (hv : v ∈ inst.vregUses) : regs' (rename v) = regs v :=
  h v (mem_vregs hinst (mem_append_right _ hv)) ⟨b, j, .use hid (uses_of_mem hinst hv)⟩

theorem Agree.write (h : Agree f rename b j regs regs') (hf : Coalescible f orig)
    (hok : CoalescingOk f orig removals rename) (hb : f.Reachable b)
    (hid : (f.blockInsts b)[j]? = some id) (hinst : f.insts[id]? = some inst)
    (hcopy : inst.asCopy = none) (outs : ℕ → Val) :
    Agree f rename b (j + 1) (writeDefs outs inst.vregDefs 0 regs)
      (writeDefs outs (inst.vregDefs.map rename) 0 regs') := by
  intro v hv hvlive
  have hclash : ∀ u ∈ inst.vregDefs, (v ∈ inst.vregDefs ∨ LiveBefore f v.id b (j + 1)) →
      rename u = rename v → u = v := by
    intro u hu hv' heq
    by_contra hne
    rcases asCopy_of_rename_eq hf hok hb hid hinst hu hv hv' hne heq with h1 | h1
    · rw [hcopy] at h1; simp at h1
    · rw [hcopy] at h1; simp at h1
  by_cases hdef : v ∈ inst.vregDefs
  · exact writeDefs_map rename _ _ _ _ hdef fun u hu => hclash u hu (.inl hdef)
  have hout : rename v ∉ inst.vregDefs.map rename := by
    intro hmem
    obtain ⟨u, hu, heq⟩ := mem_map.1 hmem
    rw [hclash u hu (.inr hvlive) heq] at hu
    exact hdef hu
  rw [writeDefs_of_notMem _ _ _ hdef, writeDefs_of_notMem _ _ _ hout]
  exact h v hv (hvlive.back hf.one hid hinst hv hdef)

theorem vregDefs_of_plain (hplain : f.PlainCopies) (hinst : f.insts[id]? = some inst)
    (hcopy : inst.asCopy = some (d, src)) : inst.vregDefs = [d] ∧ inst.vregUses = [src] := by
  obtain ⟨hdefs, huses⟩ := hplain inst (mem_of_getElem? hinst) d src hcopy
  rw [MachInst.vregDefs, MachInst.vregUses, hdefs, huses]
  exact ⟨rfl, rfl⟩

section

variable (h : Agree f rename b j regs regs') (hf : Coalescible f orig)
include h hf

theorem Agree.copy (hok : CoalescingOk f orig removals rename) (hb : f.Reachable b)
    (hid : (f.blockInsts b)[j]? = some id) (hinst : f.insts[id]? = some inst)
    (hcopy : inst.asCopy = some (d, src)) :
    Agree f rename b (j + 1) (update regs d (regs src))
      (update regs' (rename d) (regs' (rename src))) := by
  intro v hv hvlive
  obtain ⟨hdefs, huses⟩ := vregDefs_of_plain hf.plain hinst hcopy
  have hsrc : regs' (rename src) = regs src := h.uses hid hinst (by rw [huses]; simp)
  by_cases hvd : v = d
  · rw [hvd, update_self, update_self, hsrc]
  have hbefore := h v hv (hvlive.back hf.one hid hinst hv (by rw [hdefs]; simpa using hvd))
  rw [update_of_ne hvd]
  by_cases heq : rename v = rename d
  · -- both live: the vreg is the source
    have hcase := asCopy_of_rename_eq hf hok hb hid hinst (u := d)
      (by rw [hdefs]; simp) hv (.inr hvlive) (Ne.symm hvd) heq.symm
    rw [hcopy, some_inj, some_inj, Prod.mk.injEq, Prod.mk.injEq] at hcase
    rcases hcase with ⟨-, hvs⟩ | ⟨hdv, -⟩
    · rw [heq, update_self, hsrc, hvs]
    · exact absurd hdv.symm hvd
  rw [update_of_ne heq]
  exact hbefore

theorem Agree.removed (hid : (f.blockInsts b)[j]? = some id) (hinst : f.insts[id]? = some inst)
    (hcopy : inst.asCopy = some (d, src)) (heq : rename d = rename src) :
    Agree f rename b (j + 1) (update regs d (regs src)) regs' := by
  intro v hv hvlive
  obtain ⟨hdefs, huses⟩ := vregDefs_of_plain hf.plain hinst hcopy
  by_cases hvd : v = d
  · rw [hvd, update_self, heq]
    exact h.uses hid hinst (by rw [huses]; simp)
  rw [update_of_ne hvd]
  exact h v hv (hvlive.back hf.one hid hinst hv (by rw [hdefs]; simpa using hvd))

end

/-- The same events and world, and register files that agree from instruction `j` on. -/
def AgreeAfter (f : MachFunction) (rename : VReg → VReg) (b : BlockId) (j : ℕ)
    (r r' : ExecState Val World × List (Event Val)) : Prop :=
  r'.2 = r.2 ∧ r'.1.world = r.1.world ∧ Agree f rename b j r.1.regs r'.1.regs

variable (m : Machine Val World)

section

variable (hf : Coalescible f orig) (hok : CoalescingOk f orig removals (resolveRewrite rewrites))
include hf hok

/-- **One instruction.**  The coalesced function skips it or executes its rewritten form,
with the same effect. -/
theorem agree_step (hb : f.Reachable b) (hid : (f.blockInsts b)[j]? = some id)
    (hinst : f.insts[id]? = some inst) {st st' : ExecState Val World}
    (hregs : Agree f (resolveRewrite rewrites) b j st.regs st'.regs)
    (hworld : st'.world = st.world) :
    (id ∈ removals → AgreeAfter f (resolveRewrite rewrites) b (j + 1) (m.step inst st) (st', []))
    ∧ AgreeAfter f (resolveRewrite rewrites) b (j + 1) (m.step inst st)
        (m.step (rewriteInst rewrites inst) st') := by
  have hcls : ∀ v ∈ inst.vregDefs ++ inst.vregUses, (resolveRewrite rewrites v).cls = v.cls :=
    fun v hv => hok.cls v (mem_vregs hinst hv)
  unfold Machine.step AgreeAfter
  rw [asCopy_rewriteInst]
  cases hcopy : inst.asCopy with
  | some ends =>
    obtain ⟨d, src⟩ := ends
    refine ⟨fun hrem => ⟨rfl, hworld, ?_⟩, rfl, hworld, hregs.copy hf hok hb hid hinst hcopy⟩
    obtain ⟨inst', d', src', hinst', hcopy', heq⟩ := hok.removed id hrem
    rw [hinst, some_inj] at hinst'
    rw [← hinst', hcopy, some_inj, Prod.mk.injEq] at hcopy'
    obtain ⟨rfl, rfl⟩ := hcopy'
    exact hregs.removed hf hid hinst hcopy heq
  | none =>
    have hvals : (rewriteInst rewrites inst).vregUses.map st'.regs
        = inst.vregUses.map st.regs := by
      rw [MachInst.vregUses, rewriteInst, vregs_rewriteOperand, map_map]
      exact map_congr_left fun v hv => hregs.uses hid hinst hv
    have hdefs : (rewriteInst rewrites inst).vregDefs
        = inst.vregDefs.map (resolveRewrite rewrites) := vregs_rewriteOperand _
    refine ⟨fun hrem => ?_, ?_⟩
    · obtain ⟨inst', d', src', hinst', hcopy', -⟩ := hok.removed id hrem
      rw [hinst, some_inj] at hinst'
      rw [← hinst', hcopy] at hcopy'
      simp at hcopy'
    simp only [Option.map_none, hvals, hdefs, shape_rewriteInst hcls, hworld, true_and]
    exact hregs.write hf hok hb hid hinst hcopy _

/-- **The rest of a block.** -/
theorem agree_execInsts (hb : f.Reachable b) :
    ∀ (ids before : List InstId) (st st' : ExecState Val World), f.blockInsts b = before ++ ids →
      AgreeAfter f (resolveRewrite rewrites) b before.length (st, []) (st', []) →
      AgreeAfter f (resolveRewrite rewrites) b (f.blockInsts b).length (m.execInsts f ids st)
        (m.execInsts (applyCoalescing f removals rewrites)
          (ids.filter fun id => !removals.contains id) st') := by
  intro ids
  induction ids with
  | nil =>
    intro before st st' hblock h
    rw [append_nil] at hblock
    rwa [hblock]
  | cons id ids ih =>
    rintro before st st' hblock ⟨-, hworld, hregs⟩
    have hid : (f.blockInsts b)[before.length]? = some id := by simp [hblock]
    have hblock' : f.blockInsts b = (before ++ [id]) ++ ids := by simp [hblock]
    have hlen : (before ++ [id]).length = before.length + 1 := length_append
    cases hinst : f.insts[id]? with
    | none =>
      -- nothing is executed, and nothing is defined
      have hrest := ih _ st st' hblock' ⟨rfl, hworld, fun v hv ⟨b', j', hreach⟩ => by
        rw [hlen] at hreach
        refine hregs v hv ⟨b', j', .next hid ?_ hreach⟩
        rintro ⟨w, hw, -⟩
        rw [MachFunction.instDefs, hinst] at hw
        simp at hw⟩
      rw [Machine.execInsts, hinst, filter_cons]
      split_ifs
      · rw [Machine.execInsts, applyCoalescing_insts, hinst]
        exact hrest
      · exact hrest
    | some inst =>
      obtain ⟨hskip, hevents, hstep⟩ := agree_step m hf hok hb hid hinst hregs hworld
      rw [← hlen] at hskip hstep
      rw [Machine.execInsts, hinst, filter_cons]
      by_cases hrem : id ∈ removals
      · obtain ⟨hno, hagree⟩ := hskip hrem
        obtain ⟨h1, hrest⟩ := ih _ (m.step inst st).1 st' hblock' ⟨rfl, hagree⟩
        rw [if_neg (by simpa using hrem)]
        refine ⟨?_, hrest⟩
        rw [h1]
        simp only [← hno, nil_append]
      obtain ⟨h1, hrest⟩ := ih _ (m.step inst st).1 (m.step (rewriteInst rewrites inst) st').1
        hblock' ⟨rfl, hstep⟩
      rw [if_pos (by simpa using hrem), Machine.execInsts, applyCoalescing_insts, hinst]
      refine ⟨?_, hrest⟩
      simp only [Option.map_some, hevents, h1]

/-- **Whole runs.** -/
theorem agree_run : ∀ (n : ℕ) (b : BlockId) (st st' : ExecState Val World), f.Reachable b →
    Agree f (resolveRewrite rewrites) b 0 st.regs st'.regs → st'.world = st.world →
    (m.run (applyCoalescing f removals rewrites) n b st').2 = (m.run f n b st).2
      ∧ (m.run (applyCoalescing f removals rewrites) n b st').1.world
        = (m.run f n b st).1.world := by
  intro n
  induction n with
  | zero => intro b st st' _ _ hworld; exact ⟨rfl, hworld⟩
  | succ n ih =>
    intro b st st' hb hregs hworld
    obtain ⟨h1, h2, h3⟩ :=
      agree_execInsts m hf hok hb (f.blockInsts b) [] st st' rfl ⟨rfl, hworld, hregs⟩
    rw [Machine.run, Machine.run, applyCoalescing_blockInsts, applyCoalescing_succs,
      applyCoalescing_length]
    rw [h2]
    cases hnext : (f.succs b)[m.branch (m.execInsts f (f.blockInsts b) st).1.world]? with
    | none => exact ⟨h1, h2⟩
    | some c =>
      dsimp only
      by_cases hc : c < f.blocks.length
      · have hedge : f.Edge b c := ⟨mem_of_getElem? hnext, hc⟩
        have hentry : Agree f (resolveRewrite rewrites) c 0
            (m.execInsts f (f.blockInsts b) st).1.regs
            (m.execInsts (applyCoalescing f removals rewrites)
              ((f.blockInsts b).filter fun id => !removals.contains id) st').1.regs := by
          rintro v hv ⟨b', j', hreach⟩
          exact h3 v hv ⟨b', j', .edge hedge trivial hreach⟩
        obtain ⟨g1, g2⟩ := ih c _ _ (hb.step hedge) hentry h2
        rw [if_pos hc, if_pos hc]
        exact ⟨by rw [h1, g1], g2⟩
      rw [if_neg hc, if_neg hc]
      exact ⟨h1, h2⟩

end

section

variable (hf : Coalescible f orig) (hok : CoalescingOk f orig removals rename)
    (hb : f.Reachable b) (hid : (f.blockInsts b)[j]? = some id)
include hf hok hb hid

theorem eq_of_liveBefore (hu : u ∈ f.vregs) (hv : v ∈ f.vregs) (hul : LiveBefore f u.id b j)
    (hvl : LiveBefore f v.id b j) (heq : rename u = rename v) : u = v := by
  obtain ⟨hlay, p, hpos, hcov⟩ := hf.live b j id hb hid
  have hcases : ∀ w ∈ f.vregs, LiveBefore f w.id b j →
      f.Uses id w.id ∨ (¬ f.Defines id w.id ∧ LiveBefore f w.id b (j + 1)) := by
    rintro w - ⟨b', j', hreach⟩
    cases hreach with
    | use hid' huse =>
      rw [hid, some_inj] at hid'
      exact .inl (hid' ▸ huse)
    | next hid' hdef h =>
      rw [hid, some_inj] at hid'
      exact .inr ⟨hid' ▸ hdef, _, _, h⟩
    | edge => exact absurd (List.getElem?_eq_some_iff.1 hid).1 (lt_irrefl _)
  have hcovered : ∀ w ∈ f.vregs, LiveBefore f w.id b j → orig.Covered w.id p := by
    intro w hw hwl
    rcases hcases w hw hwl with ⟨w', hw', hwid⟩ | ⟨-, hafter⟩
    · rw [MachFunction.instUses] at hw'
      split at hw'
      next inst hinst =>
        rw [← hwid]
        exact hf.mentions.mention id hlay inst hinst w' (mem_append_right _ hw') p hpos
      · simp at hw'
    · exact hcov w.id hafter
  -- the destination of a copy is not live before it
  have hdead : ∀ w w' inst, f.insts[id]? = some inst → w ∈ f.vregs → w ≠ w' →
      LiveBefore f w.id b j → inst.asCopy ≠ some (w, w') := by
    intro w w' inst hinst hw hne hwl hcopy
    obtain ⟨hdefs, huses⟩ := vregDefs_of_plain hf.plain hinst hcopy
    rcases hcases w hw hwl with ⟨x, hx, hxw⟩ | ⟨hdef, -⟩
    · simp only [MachFunction.instUses, hinst, huses, mem_singleton] at hx
      rw [hx] at hxw
      have hw' := mem_vregs hinst (mem_append_right _ (mem_of_asCopy hcopy).2)
      exact hne (hf.one w hw w' hw' hxw.symm)
    · exact hdef ((defines_iff hf.one hinst hw).2 (by rw [hdefs]; simp))
  by_contra hne
  obtain ⟨id', inst, hlay', hpos', hinst, hcase⟩ := hok.apart u hu v hv hne heq p
    (hcovered u hu hul) (hcovered v hv hvl)
  rw [numberInsts_inj hf.nodup hlay' hlay hpos' hpos] at hinst
  rcases hcase with hcopy | hcopy
  · exact hdead u v inst hinst hu hne hul hcopy
  · exact hdead v u inst hinst hv (Ne.symm hne) hvl hcopy

theorem exists_agree (regs : VReg → Val) : ∃ regs', Agree f rename b j regs regs' := by
  classical
  refine ⟨fun r => if h : ∃ v ∈ f.vregs, LiveBefore f v.id b j ∧ rename v = r then regs h.choose
    else regs r, ?_⟩
  intro v hv hvl
  have hex : ∃ u ∈ f.vregs, LiveBefore f u.id b j ∧ rename u = rename v := ⟨v, hv, hvl, rfl⟩
  obtain ⟨hu, hul, heq⟩ := hex.choose_spec
  dsimp only
  rw [dif_pos hex, eq_of_liveBefore hf hok hb hid hu hv hul hvl heq]

end

end

section

variable {W : Type*} [Zero W] [Add W] [Div W] [Pow W ℕ] [NatCast W] {base : W}

/-- The intervals of `compute_live_intervals` are what the pass needs. -/
theorem coalescible_computeLiveIntervals (hlist : ∀ b, f.Reachable b → b ∈ f.blockOrder)
    (hnodup : (layout f).Nodup) (hone : f.OneClassPerId) (hplain : f.PlainCopies) :
    Coalescible f (computeLiveIntervals base f).intervals := by
  have hnum : ∀ id ∈ layout f, numberInsts f id = some (instNum f id) := by
    intro id hid
    obtain ⟨i, hi⟩ := mem_iff_getElem?.1 hid
    rw [instNum, numberInsts, numberFrom_getElem _ 0 i _ id hnodup hi, Option.getD_some]
  refine ⟨⟨computeLiveIntervals_good hnodup, ?_, ?_⟩, ?_, hnodup, hone, hplain⟩
  · intro id hid inst hinst v hv p hp
    obtain ⟨b, hb, hmem⟩ := mem_flatMap.1 hid
    obtain ⟨j, hj⟩ := mem_iff_getElem?.1 hmem
    have hpos : instNum f id = p := Option.some_inj.1 ((hnum id hid).symm.trans hp)
    rw [← hpos]
    refine computeLiveIntervals_mentioned hnodup hb hj ?_
    rcases mem_append.1 hv with hv | hv
    · exact .inr ⟨v, by rw [MachFunction.instDefs, hinst]; exact hv, rfl⟩
    · exact .inl (uses_of_mem hinst hv)
  · rintro x p hcov hnil
    obtain ⟨iv, hiv, -⟩ := covered_computeLiveIntervals.1 hcov
    rw [buildIntervals, hnil] at hiv
    simp at hiv
  intro b j id hb hid
  have hlisted := hlist b hb
  have hlay : id ∈ layout f := mem_flatMap.2 ⟨b, hlisted, mem_of_getElem? hid⟩
  refine ⟨hlay, instNum f id, hnum id hlay, ?_⟩
  rintro x ⟨b', j', hreach⟩
  have hreach' := (hreach.of_reachable hb).imp hlist
  exact computeLiveIntervals_covered hnodup hlisted hreach'.lt hid
    (liveAt_of_reaches (liveFixpoint_spec f).2 hreach'.lt hreach' hlisted)

theorem run_out_of_range {Val World : Type*} (m : Machine Val World) {b : BlockId}
    (hb : f.blocks.length ≤ b) (n : ℕ) (st : ExecState Val World) : m.run f n b st = (st, []) := by
  have hnone : f.blocks[b]? = none := getElem?_eq_none hb
  cases n with
  | zero => rfl
  | succ n =>
    rw [Machine.run, MachFunction.blockInsts, MachFunction.succs, hnone]
    rfl

end

/-! ## Two functions -/

/-- A copy between vregs. -/
def copyInst (dst src : VReg) : MachInst := ⟨pseudoCopy, [.vreg dst], [.vreg src], [], [], 0, []⟩

/-- A definition, a copy of it, and a loop that uses the copy. -/
def copyLoop : MachFunction where
  insts := [plainInst [⟨0, .gpr64⟩] [], copyInst ⟨1, .gpr64⟩ ⟨0, .gpr64⟩,
    plainInst [] [⟨1, .gpr64⟩]]
  blocks := [⟨[0, 1], [], [1], 0⟩, ⟨[2], [0, 1], [1], 1⟩]
  blockOrder := [0, 1]
  entryBlock := 0
  nextVreg := 2

theorem asCopy_plainInst (defs uses : List VReg) : (plainInst defs uses).asCopy = none := rfl

/-- Id `0` names a general and a floating-point vreg; both are copied and both copies are
used. -/
def twoClasses : MachFunction where
  insts := [plainInst [⟨0, .gpr64⟩] [], ⟨2, [.vreg ⟨0, .fpr64⟩], [], [], [], 0, []⟩,
    copyInst ⟨2, .fpr64⟩ ⟨0, .fpr64⟩, copyInst ⟨1, .gpr64⟩ ⟨0, .gpr64⟩,
    plainInst [] [⟨1, .gpr64⟩, ⟨2, .fpr64⟩]]
  blocks := [⟨[0, 1, 2, 3, 4], [], [], 0⟩]
  blockOrder := [0]
  entryBlock := 0
  nextVreg := 3

end TrustCg.RegAlloc
