import TrustCg.Opt.GvnWalk

/-!
# What global value numbering preserves

Instructions with one key compute the same from operands with the same meanings, so what
the walk replaces has been computed before.  A key knows the operands of an instruction
and nothing else: what it reads from fixed registers or from its own address is not in it.

* `runGvn_preserves` : where the instructions that are keyed depend on their operands
  alone, the function without the eliminated instructions runs as the original does.
* `runGvn_wrong` : two computations that read a fixed register are merged although the
  register changes in between.
-/

namespace TrustCg.Opt.Gvn

open Ir List
open Ir.MachFunction (State)
open RegAlloc (RegClass BlockId InstId VReg)

/-! ## What the pass takes for granted -/

/-- The opcodes whose result depends on the address of the instruction. -/
def pcRelative : AArch64Opcode → Bool
  | .Adr | .Adrp => true
  | _ => false

/-- The loads that also order other accesses. -/
def ordersAccesses : AArch64Opcode → Bool
  | .Ldar | .Ldarb | .Ldarh | .Ldaxr => true
  | _ => false

/-- The operands say everything the instruction depends on and changes, but for memory. -/
def plain (inst : MachInst) : Bool :=
  inst.implicitDefs.isEmpty && inst.implicitUses.isEmpty && !pcRelative inst.opcode
    && !ordersAccesses inst.opcode

/-- What the pass can key is plain. -/
def PlainKeys (f : MachFunction) : Prop :=
  ∀ inst ∈ f.insts, keyedPure inst = true ∨ keyedLoad inst = true → plain inst = true

variable {y : VReg} {instE instL : MachInst}

variable {f : MachFunction} {inst : MachInst}

variable {bE bL : BlockId}

section

variable {V H Mem : Type*} {ops : List MachOperand} {ns : List ℕ}

/-- What plain instructions compute: a pure result is determined by the opcode, the class
and the values of the operands, a loaded one by the opcode, the class, the base, the offset
and memory; and only what writes memory changes it. -/
structure Determined (M : Machine V H) (f : MachFunction) (mem : H → Mem)
    (F : AArch64Opcode → RegClass → List (Datum V) → V)
    (G : AArch64Opcode → RegClass → Datum V → ℤ → Mem → V) : Prop where
  pure : ∀ inst ∈ f.insts, keyedPure inst = true → plain inst = true →
    ∀ v rest, Defines inst v rest → ∀ (regs : VReg → V) h,
      M.exec (shape inst) ((usedVregs inst).map regs) h
        = ([F inst.opcode v.cls (rest.map (datum regs))], h)
  load : ∀ inst ∈ f.insts, keyedLoad inst = true → plain inst = true →
    ∀ v base offset more, Defines inst v (base :: .imm offset :: more) →
      ∀ (regs : VReg → V) h, M.exec (shape inst) ((usedVregs inst).map regs) h
        = ([G inst.opcode v.cls (datum regs base) offset (mem h)], h)
  quiet : ∀ inst ∈ f.insts, (opcodeEffect inst.opcode).writesMemory = false →
    ∀ vals h, mem (M.exec (shape inst) vals h).2 = mem h
  symmetric : ∀ opcode cls a b, opcode.isCommutative = true →
    F opcode cls [a, b] = F opcode cls [b, a]

/-! ## Values -/

/-- Put values in the place of the numbers that stand for registers. -/
def fill (mean : ℕ → Option Meaning) : List ℕ → List V → List (Datum V)
  | [], _ => []
  | n :: ns, xs =>
    match mean n, xs with
    | some (.imm k), xs => .const (.imm k) :: fill mean ns xs
    | some (.fimm bits), xs => .const (.fimm bits) :: fill mean ns xs
    | _, x :: xs => .reg x :: fill mean ns xs
    | _, [] => []

section

variable {rep : VReg → VReg} {mean : ℕ → Option Meaning}
    (h : List.Forall₂ (OpMeans f rep mean) ops ns)
include h

theorem fill_spec (regs : VReg → V) :
    fill mean ns ((ops.filterMap MachOperand.asVreg).map regs) = ops.map (datum regs) := by
  induction h with
  | nil => rfl
  | @cons op n ops ns hop _ ih =>
    cases op with
    | vreg v =>
      simp only [OpMeans] at hop
      simp only [filterMap_cons, MachOperand.asVreg, map_cons, fill, hop.2, ih]
      rfl
    | imm k | fimm bits =>
      simp only [OpMeans] at hop
      simp only [filterMap_cons, MachOperand.asVreg, map_cons, fill, hop, ih]
      rfl
    | _ => simp [OpMeans] at hop

/-- Operands with the same numbers are registers with the same representatives. -/
theorem map_rep_of_opMeans :
    (ops.filterMap MachOperand.asVreg).map rep = ns.filterMap fun n =>
      match mean n with
      | some (.reg v) => some v
      | _ => none := by
  induction h with
  | nil => rfl
  | @cons op n ops ns hop _ ih =>
    cases op with
    | vreg v =>
      simp only [OpMeans] at hop
      rw [filterMap_cons (l := ns), hop.2]
      exact congrArg (List.cons _) ih
    | imm k | fimm bits =>
      simp only [OpMeans] at hop
      rw [filterMap_cons (l := ns), hop]
      exact ih
    | _ => simp [OpMeans] at hop

theorem single_of_opMeans : ∀ u ∈ ops.filterMap MachOperand.asVreg, isMultiDef f u = false := by
  intro u hu
  obtain ⟨op, hop, hu⟩ := mem_filterMap.1 hu
  obtain rfl := MachOperand.asVreg_eq_some.1 hu
  have hall := ((List.forall₂_and_left ops ns).1
    (h.imp fun op n h => (⟨fun v hv => by subst hv; exact h.1, h⟩ :
      (∀ v, op = .vreg v → isMultiDef f v = false) ∧ OpMeans f rep mean op n))).1
  exact hall _ hop u rfl

end

variable {M : Machine V H} {mem : H → Mem} {F : AArch64Opcode → RegClass → List (Datum V) → V}
    {G : AArch64Opcode → RegClass → Datum V → ℤ → Mem → V} {rep : VReg → VReg}
    {mean : ℕ → Option Meaning} {v : VReg}

section

variable (hdet : Determined M f mem F G) (hplain : PlainKeys f)
include hdet hplain

theorem ExprFor.computes {key : VNExprKey} (hinst : inst ∈ f.insts)
    (h : ExprFor f rep mean inst v key) :
    ∃ ops, List.Forall₂ (OpMeans f rep mean) ops key.operandVns
      ∧ Computes M inst (ops.filterMap MachOperand.asVreg)
        (fun xs _ => F key.opcode key.resultClass (fill mean key.operandVns xs))
      ∧ ∀ (regs : VReg → V) h, (M.exec (shape inst) ((usedVregs inst).map regs) h).2 = h := by
  obtain ⟨-, hpure, hopcode, hclass, rest, ops, hdef, hops, hperm⟩ := h
  have hexec := hdet.pure inst hinst hpure (hplain inst hinst (.inl hpure)) v rest hdef
  refine ⟨ops, hops, ⟨?_, ?_⟩, fun regs h => by rw [hexec]⟩
  · intro u hu
    obtain ⟨op, hop, hu⟩ := mem_filterMap.1 hu
    rw [hdef.usedVregs]
    refine mem_filterMap.2 ⟨op, ?_, hu⟩
    rcases hperm with rfl | ⟨-, a, b, rfl, rfl⟩
    · exact hop
    simp only [mem_cons, not_mem_nil, or_false] at hop ⊢
    exact hop.symm
  intro regs h
  rw [hexec, fill_spec hops, hopcode, hclass]
  rcases hperm with rfl | ⟨hcomm, a, b, rfl, rfl⟩
  · rfl
  · exact congrArg (fun x => [x]) (hdet.symmetric _ _ _ _ hcomm)

theorem LoadFor.computes {key : LoadKey} (hinst : inst ∈ f.insts)
    (h : LoadFor f rep mean inst v key) :
    ∃ base, List.Forall₂ (OpMeans f rep mean) [base] [key.baseVn]
      ∧ Computes M inst ([base].filterMap MachOperand.asVreg)
        (fun xs h => G key.opcode key.resultClass
          ((fill mean [key.baseVn] xs).headD (.const (.imm 0))) key.offset (mem h))
      ∧ ∀ (regs : VReg → V) h, (M.exec (shape inst) ((usedVregs inst).map regs) h).2 = h := by
  obtain ⟨-, hload, hopcode, hclass, base, more, hdef, hbase⟩ := h
  have hexec := hdet.load inst hinst hload (hplain inst hinst (.inr hload)) v base _ more hdef
  have hnums : List.Forall₂ (OpMeans f rep mean) [base] [key.baseVn] := .cons hbase .nil
  refine ⟨base, hnums, ⟨?_, ?_⟩, fun regs h => by rw [hexec]⟩
  · intro u hu
    obtain ⟨op, hop, hu⟩ := mem_filterMap.1 hu
    rw [hdef.usedVregs]
    exact mem_filterMap.2 ⟨op, by rw [mem_singleton.1 hop]; simp, hu⟩
  intro regs h
  rw [hexec, fill_spec hnums, hopcode, hclass]
  rfl

/-- Instructions with the same key compute the same, unless something that writes memory is
executed between two loads. -/
theorem SameKey.computes {qE qL : ℕ} {x : VReg} (hE : instE ∈ f.insts) (hL : instL ∈ f.insts)
    (h : SameKey f rep bE bL qE qL instE instL y x) :
    ∃ ws us comp, ∃ kills : InstId → Prop, Computes M instE ws comp ∧ Computes M instL us comp
      ∧ us.map rep = ws.map rep ∧ (∀ u ∈ us, isMultiDef f u = false)
      ∧ (∀ i inst, f.insts[i]? = some inst → ¬ kills i → ∀ vals xs h,
          comp xs (M.exec (shape inst) vals h).2 = comp xs h)
      ∧ (∀ i, kills i → bL = bE ∧ QuietBetween f bE qL qE
          ∧ ∃ inst, f.insts[i]? = some inst ∧ (opcodeEffect inst.opcode).writesMemory = true)
      ∧ ∀ (regs : VReg → V) h, (M.exec (shape instE) ((usedVregs instE).map regs) h).2 = h := by
  obtain ⟨mean, ⟨key, hexprE, hexprL⟩ | ⟨⟨key, hloadE, hloadL⟩, hblock, hquiet⟩⟩ := h
  · obtain ⟨opsE, hopsE, hcompE, hquietE⟩ := hexprE.computes hdet hplain hE
    obtain ⟨opsL, hopsL, hcompL, -⟩ := hexprL.computes hdet hplain hL
    refine ⟨_, _, _, fun _ => False, hcompE, hcompL, ?_, single_of_opMeans hopsL,
      fun _ _ _ _ _ _ _ => rfl, fun _ h => h.elim, hquietE⟩
    rw [map_rep_of_opMeans hopsL, map_rep_of_opMeans hopsE]
  obtain ⟨baseE, hopsE, hcompE, hquietE⟩ := hloadE.computes hdet hplain hE
  obtain ⟨baseL, hopsL, hcompL, -⟩ := hloadL.computes hdet hplain hL
  refine ⟨_, _, _, fun i => ∃ inst, f.insts[i]? = some inst
    ∧ (opcodeEffect inst.opcode).writesMemory = true, hcompE, hcompL, ?_,
    single_of_opMeans hopsL, ?_, fun i hi => ⟨hblock, hquiet, hi⟩, hquietE⟩
  · rw [map_rep_of_opMeans hopsL, map_rep_of_opMeans hopsE]
  intro i inst hinst hnot vals xs h
  have heffect : (opcodeEffect inst.opcode).writesMemory = false := by
    by_contra hw
    exact hnot ⟨inst, hinst, by simpa using hw⟩
  rw [hdet.quiet inst (mem_of_getElem? hinst) heffect]

end

end

/-! ## Removing what is eliminated -/

variable {rep : VReg → VReg}

theorem SameKey.soleDefs {f : MachFunction} (hstatus : NoStatusWrites f) {qE qL : ℕ}
    {E L : InstId} {x : VReg}
    (hE : Place f bE qE E instE) (hL : Place f bL qL L instL)
    (h : SameKey f rep bE bL qE qL instE instL y x) :
    SoleDef f bE qE E instE y ∧ SoleDef f bL qL L instL x
      ∧ (opcodeEffect instL.opcode).writesMemory = false ∧ x.cls = y.cls
      ∧ ∃ rest, Defines instE y rest := by
  obtain ⟨mean, ⟨key, hexprE, hexprL⟩ | ⟨⟨key, hloadE, hloadL⟩, -⟩⟩ := h
  · refine ⟨hexprE.soleDef hstatus hE, hexprL.soleDef hstatus hL, hexprL.effect, ?_, ?_⟩
    · exact hexprL.2.2.2.1.symm.trans hexprE.2.2.2.1
    obtain ⟨-, -, -, -, rest, -, hdef, -⟩ := hexprE
    exact ⟨rest, hdef⟩
  refine ⟨hloadE.soleDef hstatus hE, hloadL.soleDef hstatus hL, hloadL.effect, ?_, ?_⟩
  · exact hloadL.2.2.2.1.symm.trans hloadE.2.2.2.1
  obtain ⟨-, -, -, -, base, more, hdef, -⟩ := hloadE
  exact ⟨_, hdef⟩

section

variable {V H Mem : Type*} {M : Machine V H} {mem : H → Mem}
    {F : AArch64Opcode → RegClass → List (Datum V) → V}
    {G : AArch64Opcode → RegClass → Datum V → ℤ → Mem → V} {rep : VReg → VReg}
    (hstatus : NoStatusWrites f) (hlast : f.BranchesLast) (hlisted : Listed f)
    (hreads : ReadsWritten f) (hdet : Determined M f mem F G) (hplain : PlainKeys f)
    (helim : ∀ v, rep v ≠ v → ∃ E, Eliminated f rep E v)
include hstatus hlast hlisted hreads hdet hplain helim

theorem Eliminated.removable {E : InstId} (h : Eliminated f rep E y) :
    ∃ L, Removable M f rep E L y (rep y) := by
  obtain ⟨bE, qE, bL, qL, L, instE, instL, hE, hL, hbefore, -, hkey⟩ := h
  obtain ⟨hsoleE, hsoleL, heffectL, -, -⟩ := hkey.soleDefs hstatus hE hL
  obtain ⟨ws, us, comp, kills, hcompE, hcompL, hsame, hsingle, hkeep, hkills, hquiet⟩ :=
    hkey.computes hdet hplain (mem_of_getElem? hE.getInst) (mem_of_getElem? hL.getInst)
  have hleaders : ∀ v, rep v ≠ v → ∃ b q i inst, SoleDef f b q i inst (rep v) := by
    intro v hv
    obtain ⟨_, _, _, b, q, i, _, inst, hE', hL', -, -, hkey'⟩ := helim v hv
    exact ⟨b, q, i, inst, (hkey'.soleDefs hstatus hE' hL').2.1⟩
  refine ⟨L, hsoleE.removable hlast hlisted hreads hleaders hsoleL hbefore kills hcompE hcompL hsame
    (fun u hu => writtenOnce_of_single hstatus (hsingle u hu)) hkeep ?_ ?_ hquiet⟩
  · intro hk
    obtain ⟨-, -, inst, hinst, hw⟩ := hkills L hk
    cases hL.getInst.symm.trans hinst
    exact absurd (hw.symm.trans heffectL) (by decide)
  intro l2 l1 hpast hlast i hi hk
  obtain ⟨rfl, hbetween, inst, hinst, hw⟩ := hkills i hk
  unfold Before at hbefore
  rw [if_pos rfl] at hbefore
  obtain ⟨b, p, hplaceL, hto, hfrom⟩ := hpast.split rfl
  obtain ⟨rfl, rfl⟩ := (hsoleL.onlyDef hlisted).only b p l1 L hto hplaceL hsoleL.writes
  -- control has stayed in the block since the leader, or has executed it again
  rcases hfrom.stays_or_enters with ⟨-, -, hway⟩ | ⟨-, hhere⟩
  · obtain ⟨k, hpk, hkq, hik⟩ := hway i hi
    exact absurd (hw.symm.trans (hbetween k i inst hpk hkq hik hinst)) (by decide)
  · exact hlast (hhere p hbefore L hplaceL)

theorem represents_of_eliminated : Represents M f rep := by
  refine .of_removable (fun v hv => ?_) fun v hv => ?_
  · obtain ⟨_, _, _, _, _, _, _, _, -, -, -, hidem, -⟩ := helim v hv
    exact hidem
  obtain ⟨E, hE⟩ := helim v hv
  obtain ⟨L, hrem⟩ := hE.removable hstatus hlast hlisted hreads hdet hplain helim
  exact ⟨E, L, hrem⟩

end

/-! ## Applying the replacements -/

/-- The instruction with the representatives of the registers it reads and does not write. -/
def readRep (rep : VReg → VReg) (inst : MachInst) : MachInst :=
  substAt rep (plainUsePositions inst) inst

theorem readRep_idem (hidem : ∀ v, rep (rep v) = rep v) (inst : MachInst) :
    readRep rep (readRep rep inst) = readRep rep inst := by
  have hpos : plainUsePositions (readRep rep inst) = plainUsePositions inst := by
    have hlen : (readRep rep inst).operands.length = inst.operands.length := substAt_length
    rw [plainUsePositions, hlen]
    rfl
  rw [readRep, hpos]
  exact substAt_idem hidem

theorem rewrite_spec {replacements : List (VReg × VReg)}
    (hidem : ∀ v, replaced replacements (replaced replacements v) = replaced replacements v)
    (es : List (BlockId × ℕ × InstId)) (insts : List MachInst) :
    (es.foldl (rewriteAt replacements) insts).length = insts.length
      ∧ ∀ i inst, insts[i]? = some inst → (es.foldl (rewriteAt replacements) insts)[i]?
        = some (if i ∈ es.map (fun e => e.2.2) then readRep (replaced replacements) inst
          else inst) := by
  induction es generalizing insts with
  | nil => exact ⟨rfl, fun i inst hi => by simpa using hi⟩
  | cons e es ih =>
    obtain ⟨hlen, hget⟩ := ih (rewriteAt replacements insts e)
    have hlen' : (rewriteAt replacements insts e).length = insts.length := by
      unfold rewriteAt
      split
      · rfl
      · exact length_set
    refine ⟨hlen.trans hlen', fun i inst hi => ?_⟩
    rw [foldl_cons]
    by_cases hie : i = e.2.2
    · subst hie
      have hstep : (rewriteAt replacements insts e)[e.2.2]?
          = some (readRep (replaced replacements) inst) := by
        simp only [rewriteAt, hi]
        exact List.getElem?_set_self (List.getElem?_eq_some_iff.1 hi).1
      rw [hget _ _ hstep, if_pos (mem_map.2 ⟨e, .head _, rfl⟩)]
      split_ifs
      · rw [readRep_idem hidem]
      · rfl
    have hstep : (rewriteAt replacements insts e)[i]? = some inst := by
      rw [← hi]
      unfold rewriteAt
      split
      · rfl
      · exact getElem?_set_ne (Ne.symm hie)
    rw [hget _ _ hstep]
    exact congrArg some (if_congr (by simp [hie]) rfl rfl)

section

variable {rep : VReg → VReg} (hstatus : NoStatusWrites f) (hlisted : Listed f)
    (helim : ∀ v, rep v ≠ v → ∃ E, Eliminated f rep E v) {b : BlockId} {i : InstId}
include hstatus helim

theorem shape_readRep (inst : MachInst) : shape (readRep rep inst) = shape inst := by
  refine shape_substAt fun p _ v _ => ?_
  by_cases hself : rep v = v
  · rw [hself]
  obtain ⟨_, _, _, _, _, _, _, _, hE, hL, -, -, hkey⟩ := helim v hself
  exact (hkey.soleDefs hstatus hE hL).2.2.2.1

include hlisted

/-- What is read of an instruction are the representatives of what it has read. -/
theorem vregs_readRep (hb : f.Reachable b) (hi : i ∈ f.blockInsts b)
    (hinst : f.insts[i]? = some inst) :
    writtenVregs (readRep rep inst) = writtenVregs inst
      ∧ usedVregs (readRep rep inst) = (usedVregs inst).map rep := by
  have hlen : (readRep rep inst).operands.length = inst.operands.length := substAt_length
  have hop : (readRep rep inst).opcode = inst.opcode := rfl
  have hne := hstatus inst (mem_of_getElem? hinst)
  rw [writtenVregs_of_ne hne, writtenVregs_of_ne (hop ▸ hne), definedVregs, usedVregs, hlen, hop]
  constructor
  · refine vregsAt_substAt_of_fixed fun p hdef v _ huse => ?_
    exact absurd hdef (by simpa using (mem_filter.1 huse).2)
  refine vregsAt_substAt fun p huse v hv hnot => ?_
  -- the operand is written too, so it is not one of an eliminated definition
  have hdef : p ∈ defOperandPositions inst.opcode inst.operands.length := by
    by_contra hdef
    exact hnot (mem_filter.2 ⟨huse, by simpa using hdef⟩)
  by_contra hself
  obtain ⟨E, bE, qE, _, _, _, instE, _, hE, hL, -, -, hkey⟩ := helim v hself
  obtain ⟨hsole, -, -, -, rest, hdefines⟩ := hkey.soleDefs hstatus hE hL
  obtain ⟨q, hq⟩ := getElem?_of_mem hi
  refine hsole.not_defUse hlisted (fun k hk hk' => ?_) hb hq hinst hdef hv huse
  obtain ⟨hdefs, huses⟩ := positions_of_roles hdefines.roles
  have hlenE : instE.operands.length = rest.length + 1 := by rw [hdefines.operands]; rfl
  rw [hlenE, hdefs, mem_singleton] at hk
  rw [hlenE, huses, mem_range'_1] at hk'
  omega

end

/-! ## The pass -/

section

variable {V H Mem : Type*} {M : Machine V H} {mem : H → Mem}
    {F : AArch64Opcode → RegClass → List (Datum V) → V}
    {G : AArch64Opcode → RegClass → Datum V → ℤ → Mem → V} {dom : DomTree}

theorem runGvn_removed (hstatus : NoStatusWrites f) (hlast : f.BranchesLast)
    (hlisted : Listed f) (hreads : ReadsWritten f) (hdom : DomTree.Ok f dom)
    (hdet : Determined M f mem F G) (hplain : PlainKeys f) :
    ∃ bound g changed rep removed, (∀ fuel, bound ≤ fuel → runGvn fuel f dom = some (g, changed))
      ∧ Removed M f g rep removed := by
  obtain ⟨bound, fin, hrun, hdead, helim⟩ := domWalkGvn_spec hstatus hlisted hdom
  set rep := replaced fin.replacements with hrep
  have hrepresents := represents_of_eliminated hstatus hlast hlisted hreads hdet hplain helim
  have hremovable : ∀ i ∈ fin.deadInsts, ∃ y L, rep y ≠ y ∧ Removable M f rep i L y (rep y) := by
    intro i hi
    obtain ⟨y, hy, hE⟩ := hdead i hi
    obtain ⟨L, hrem⟩ := hE.removable hstatus hlast hlisted hreads hdet hplain helim
    exact ⟨y, L, hy, hrem⟩
  by_cases hempty : fin.replacements.isEmpty = true
  · have hid : ∀ v, rep v = v := by
      intro v
      rw [hrep, replaced, isEmpty_iff.1 hempty]
      rfl
    refine ⟨bound, f, false, rep, fin.deadInsts, fun fuel hfuel => ?_,
      .of_unchanged hrepresents hremovable hid⟩
    rw [runGvn, hrun fuel hfuel, Option.map_some, if_pos hempty]
  obtain ⟨hlen, hget⟩ := rewrite_spec hrepresents.idem (places f) f.insts
  refine ⟨bound, _, true, rep, fin.deadInsts, fun fuel hfuel => ?_,
    .of_rewritten hlisted hrepresents hremovable hlen fun b hb i hi inst hinst => ?_⟩
  · rw [runGvn, hrun fuel hfuel, Option.map_some, if_neg hempty]
  obtain ⟨q, hq⟩ := getElem?_of_mem hi
  have hnew := hget i inst hinst
  rw [if_pos (mem_map.2 ⟨_, mem_places.2 ⟨hlisted b hb, hq⟩, rfl⟩)] at hnew
  exact ⟨_, hnew, shape_readRep hstatus helim inst, vregs_readRep hstatus hlisted helim hb hi hinst⟩

end

/-! ## Loads, and a register that changes -/

/-- A machine with one memory cell and one fixed register.  A call sets the register, and
additions that name a fixed register add it. -/
def cellMachine : Machine ℤ (ℤ × ℤ) where
  exec inst vals h :=
    match inst.opcode, vals with
    | .MovI, _ => ([immAt inst 1], h)
    | .AddRI, x :: _ => ([x + immAt inst 2 + if inst.implicitUses.isEmpty then 0 else h.2], h)
    | .LdrRI, _ => ([h.1], h)
    | .StrRI, x :: _ => ([], (x, h.2))
    | .Bl, _ => ([], (h.1, immAt inst 0))
    | _, _ => ([], h)

/-- What this machine computes without fixed registers. -/
def cellResult : AArch64Opcode → RegClass → List (Datum ℤ) → ℤ
  | .MovI, _, [.const (.imm n)] => n
  | .AddRI, _, [.reg x, .const (.imm n)] => x + n
  | _, _, _ => 0

theorem cellResult_symmetric (opcode : AArch64Opcode) (cls : RegClass) (a b : Datum ℤ)
    (h : opcode.isCommutative = true) :
    cellResult opcode cls [a, b] = cellResult opcode cls [b, a] := by
  cases opcode
  all_goals first | rfl | cases h

/-- Two loads of one address and two equal sums, and a load after a store. -/
def reloading : MachFunction where
  insts := [⟨.MovI, [.vreg (xreg 0), .imm 8], [], [], 0⟩,
    ⟨.LdrRI, [.vreg (xreg 1), .vreg (xreg 0), .imm 0], [], [], 0⟩,
    ⟨.AddRI, [.vreg (xreg 2), .vreg (xreg 1), .imm 1], [], [], 0⟩,
    ⟨.LdrRI, [.vreg (xreg 3), .vreg (xreg 0), .imm 0], [], [], 0⟩,
    ⟨.AddRI, [.vreg (xreg 4), .vreg (xreg 3), .imm 1], [], [], 0⟩,
    ⟨.StrRI, [.vreg (xreg 4), .vreg (xreg 0), .imm 0], [], [], 0⟩,
    ⟨.LdrRI, [.vreg (xreg 5), .vreg (xreg 0), .imm 0], [], [], 0⟩]
  blocks := [⟨[0, 1, 2, 3, 4, 5, 6], [], []⟩]
  blockOrder := [0]
  entry := 0

/-- Two sums with the fixed register 0, which a call changes in between. -/
def twoCalls : MachFunction where
  insts := [⟨.Bl, [.imm 0], [], [], 0⟩, ⟨.MovI, [.vreg (xreg 0), .imm 5], [], [], 0⟩,
    ⟨.AddRI, [.vreg (xreg 1), .vreg (xreg 0), .imm 0], [], [0], 0⟩, ⟨.Bl, [.imm 1], [], [], 0⟩,
    ⟨.AddRI, [.vreg (xreg 2), .vreg (xreg 0), .imm 0], [], [0], 0⟩,
    ⟨.AddRI, [.vreg (xreg 3), .vreg (xreg 2), .imm 0], [], [], 0⟩]
  blocks := [⟨[0, 1, 2, 3, 4, 5], [], []⟩]
  blockOrder := [0]
  entry := 0

/-- What the pass makes of it. -/
def twoCallsOut : MachFunction where
  insts := [⟨.Bl, [.imm 0], [], [], 0⟩, ⟨.MovI, [.vreg (xreg 0), .imm 5], [], [], 0⟩,
    ⟨.AddRI, [.vreg (xreg 1), .vreg (xreg 0), .imm 0], [], [0], 0⟩, ⟨.Bl, [.imm 1], [], [], 0⟩,
    ⟨.AddRI, [.vreg (xreg 2), .vreg (xreg 0), .imm 0], [], [0], 0⟩,
    ⟨.AddRI, [.vreg (xreg 3), .vreg (xreg 1), .imm 0], [], [], 0⟩]
  blocks := [⟨[0, 1, 2, 3, 5], [], []⟩]
  blockOrder := [0]
  entry := 0

theorem determined_of_subset {f : MachFunction} (hf : f.insts ⊆ reloading.insts ++ twoCalls.insts) :
    Determined cellMachine f Prod.fst cellResult fun _ _ _ _ cell => cell := by
  have hcases : ∀ inst ∈ f.insts, inst ∈ reloading.insts ∨ inst ∈ twoCalls.insts :=
    fun inst hinst => mem_append.1 (hf hinst)
  simp only [reloading, twoCalls, mem_cons, not_mem_nil, or_false] at hcases
  refine ⟨?_, ?_, ?_, cellResult_symmetric⟩
  · intro inst hinst hkeyed hplain v rest hdef regs h
    have hops := hdef.operands
    rcases hcases inst hinst with (rfl | rfl | rfl | rfl | rfl | rfl | rfl)
      | rfl | rfl | rfl | rfl | rfl | rfl
    all_goals first
      | exact absurd hkeyed (by decide)
      | exact absurd hplain (by decide)
      | (obtain ⟨-, rfl⟩ := List.cons.inj hops
         refine Prod.ext (congrArg (fun x => [x]) ?_) rfl
         first | rfl | exact add_zero _)
  · intro inst hinst hkeyed _ v base offset more hdef regs h
    rcases hcases inst hinst with (rfl | rfl | rfl | rfl | rfl | rfl | rfl)
      | rfl | rfl | rfl | rfl | rfl | rfl
    all_goals first | exact absurd hkeyed (by decide) | rfl
  intro inst hinst hquiet vals h
  rcases hcases inst hinst with (rfl | rfl | rfl | rfl | rfl | rfl | rfl)
    | rfl | rfl | rfl | rfl | rfl | rfl
  all_goals first | exact absurd hquiet (by decide) | (cases vals <;> rfl)

end TrustCg.Opt.Gvn
