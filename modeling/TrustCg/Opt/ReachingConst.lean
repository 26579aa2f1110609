import Mathlib.Order.Lattice.Nat
import TrustCg.Opt.Machine
import TrustCg.Opt.ReachingCtx

/-!
# Constants that reach an instruction

`unique_reaching_const` answers whether a register holds a known constant when an
instruction executes: exactly one definition may reach the instruction, and it must be
a `Movz`, a `Movn`, or a `Movk` whose own input resolves the same way.

* `ExecRegs` : what an instruction may do to the registers.  The move-wide instructions
  do what the architecture says, every other one may write anything to the registers
  it writes.
* `run_lastWriter` : along every execution the last write of a register is one of the
  definitions the analysis lets reach.
* `uniqueReachingConst_sound` : in every execution the register holds the constant each
  time the instruction is about to execute, where only branches follow a branch in its
  block, no store exclusive writes its status, and the number has one class.
* `uniqueReachingConst_wrong` : four functions in which it does not.
-/

namespace TrustCg.Opt

open Ir List
open RegAlloc (RegClass BlockId InstId VReg)
open BitVec (eq_of_toNat_eq ofInt shiftLeft_zero toNat_ofNat toNat_setWidth)

/-! ## Executions -/

/-- The registers; of a 32-bit one only the lower half is used. -/
abbrev Regs := VReg → BitVec 64

/-- Operands `[dst, imm16]` or `[dst, imm16, lsl]` of a move-wide instruction that the
hardware has. -/
structure MoveWide (inst : MachInst) (dst : VReg) (imm : BitVec 16) (shift : ℕ) : Prop where
  operands : inst.operands = [.vreg dst, .imm imm.toNat, .imm shift] ∨
    shift = 0 ∧ inst.operands = [.vreg dst, .imm imm.toNat]
  width : dst.cls = .gpr32 ∧ (shift = 0 ∨ shift = 16) ∨
    dst.cls = .gpr64 ∧ (shift = 0 ∨ shift = 16 ∨ shift = 32 ∨ shift = 48)

/-- A write to a 32-bit register clears the upper half. -/
def writeView (cls : RegClass) (x : BitVec 64) : BitVec 64 :=
  if cls = .gpr32 then (x.setWidth 32).setWidth 64 else x

/-- What the move-wide instructions compute; `Movk` keeps the other halfwords. -/
def moveWideValue (opcode : AArch64Opcode) (imm : BitVec 16) (shift : ℕ) (old : BitVec 64) :
    BitVec 64 :=
  match opcode with
  | .Movz => imm.setWidth 64 <<< shift
  | .Movn => ~~~(imm.setWidth 64 <<< shift)
  | _ => (old &&& ~~~(0xFFFF#64 <<< shift)) ||| (imm.setWidth 64 <<< shift)

/-- The instruction may change the registers so. -/
structure ExecRegs (f : MachFunction) (i : InstId) (R R' : Regs) : Prop where
  frame : ∀ v, ¬ Writes f i v → R' v = R v
  moveWide : ∀ inst, f.insts[i]? = some inst →
    inst.opcode = .Movz ∨ inst.opcode = .Movn ∨ inst.opcode = .Movk →
    ∀ dst imm shift, MoveWide inst dst imm shift →
      R' dst = writeView dst.cls (moveWideValue inst.opcode imm shift (R dst))

/-- A register read at the width of its class, in the lower bits. -/
def readView (cls : RegClass) (x : BitVec 64) : BitVec 64 := (x.setWidth (sizeBits cls)).setWidth 64

variable {f : MachFunction} {i : InstId}

theorem definesId_of_isBranchAt (h : f.isBranchAt i = true) (id : ℕ) :
    definesId f i id = false := by
  rw [definesId, idsDefinedAt]
  unfold MachFunction.isBranchAt at h
  cases hi : f.insts[i]? with
  | none => rfl
  | some inst =>
    rw [hi, Option.map_some, Option.getD_some] at h
    have hnone : definedIds inst = [] := by
      rw [definedIds, defOperandPositions_of_isBranch h]
      rfl
    rw [Option.map_some, Option.getD_some, hnone]
    rfl

theorem not_writes_of_definesId (hstatus : NoStatusWrites f) {v : VReg}
    (h : definesId f i v.id = false) : ¬ Writes f i v := by
  rintro ⟨inst, hinst, hv⟩
  rw [hstatus.written hinst] at hv
  obtain ⟨p, hp, hop⟩ := mem_filterMap.1 hv
  have hmem : v.id ∈ idsDefinedAt f i := by
    rw [idsDefinedAt, hinst]
    exact mem_filterMap.2 ⟨p, hp, by rw [hop]; rfl⟩
  rw [definesId_iff.2 hmem] at h
  cases h

variable {b : BlockId}

/-- Where branches come last, what is left of a block when control leaves it does not change
its last definitions. -/
theorem lastDef_of_exits (hbranches : f.BranchesLast) {pos : ℕ} (h : f.Exits b pos) (id : ℕ) :
    lastDef f (f.blockInsts b) id = lastDef f ((f.blockInsts b).take pos) id := by
  have hrest : ((f.blockInsts b).drop pos).reverse.find? (fun i => definesId f i id) = none := by
    rw [find?_eq_none]
    intro i hi
    have hbranch : f.isBranchAt i = true := by
      by_contra hnb
      obtain ⟨k, hk⟩ := getElem?_of_mem (mem_reverse.1 hi)
      rw [getElem?_drop] at hk
      have hlt := hbranches.lt h hk (by simpa using hnb)
      omega
    rw [definesId_of_isBranchAt hbranch]
    exact Bool.false_ne_true
  unfold lastDef
  conv_lhs => rw [← take_append_drop pos (f.blockInsts b)]
  rw [reverse_append, find?_append, hrest, Option.none_or]

variable {sites : BlockId → Finset DefSite} {v : VReg}

section LastWriter

variable {reachable : List BlockId} {s : MachFunction.State Regs} {d u : InstId}

/-- The register holds what an execution of `d` wrote to it. -/
def Wrote (f : MachFunction) (v : VReg) (d : InstId) (R : Regs) : Prop :=
  ∃ s R', f.Run (ExecRegs f) s ∧ f.AboutTo s d ∧ ExecRegs f d s.env R' ∧ R v = R' v

theorem Wrote.congr {R R' : Regs} (h : Wrote f v d R) (heq : R' v = R v) : Wrote f v d R' := by
  obtain ⟨s, R₁, hrun, habout, hexec, hval⟩ := h
  exact ⟨s, R₁, hrun, habout, hexec, heq.trans hval⟩

/-- The last write of each register is the last definition in the block or, where the edge lists
agree, one of the sites that reach the block. -/
def LastWriter (f : MachFunction) (reachable : List BlockId)
    (s : MachFunction.State Regs) : Prop :=
  ∀ v, match lastDef f ((f.blockInsts s.block).take s.pos) v.id with
    | some d => Wrote f v d s.env
    | none => reachableCfgIsSymmetric f reachable = true →
        SiteReaches f reachable v.id s.block .uninit ∨
          ∃ d, SiteReaches f reachable v.id s.block (.inst d) ∧ Wrote f v d s.env

section

variable (hstatus : NoStatusWrites f) (hbranches : f.BranchesLast)
  (hreach : ∀ b, b ∈ reachable ↔ f.Reachable b) (hrun : f.Run (ExecRegs f) s)
include hstatus hbranches hreach hrun

theorem lastWriter_step {t : MachFunction.State Regs} (hs : LastWriter f reachable s)
    (hst : MachFunction.Step f (ExecRegs f) s t) : LastWriter f reachable t := by
  intro v
  have hs := hs v
  cases hst with
  | @inst b pos i R R' hi hexec =>
    have htake : (f.blockInsts b).take (pos + 1) = (f.blockInsts b).take pos ++ [i] := by
      rw [take_add_one, hi]
      rfl
    rw [htake, lastDef_append_singleton]
    by_cases hd : definesId f i v.id = true
    · rw [if_pos hd]
      exact ⟨_, R', hrun, hi, hexec, rfl⟩
    have hsame : R' v = R v :=
      hexec.frame v (not_writes_of_definesId hstatus (by simpa using hd))
    rw [if_neg hd]
    cases hlast : lastDef f ((f.blockInsts b).take pos) v.id with
    | some d =>
      rw [hlast] at hs
      exact hs.congr hsame
    | none =>
      rw [hlast] at hs
      intro hsym
      rcases hs hsym with h | ⟨d, hsite, hwrote⟩
      · exact .inl h
      · exact .inr ⟨d, hsite, hwrote.congr hsame⟩
  | @branch b c pos R hexit hc =>
    rw [take_zero]
    intro hsym
    have hb : f.Reachable b := hrun.reachable
    have hedge : FlowEdge f reachable b c := by
      refine ⟨?_, (hreach b).2 hb⟩
      exact (reachableCfgIsSymmetric_iff.1 hsym b ((hreach b).2 hb) c
        ((hreach c).2 (hb.step hc))).1 hc
    have hall := lastDef_of_exits hbranches hexit v.id
    cases hlast : lastDef f ((f.blockInsts b).take pos) v.id with
    | some d =>
      rw [hlast] at hs hall
      exact .inr ⟨d, .gen hedge ⟨d, hall, rfl⟩, hs⟩
    | none =>
      rw [hlast] at hs hall
      have hkill : ¬ (lastDef f (f.blockInsts b) v.id).isSome = true := by
        rw [hall]
        exact Bool.false_ne_true
      rcases hs hsym with h | ⟨d, hsite, hwrote⟩
      · exact .inl (.pass hedge h hkill)
      · exact .inr ⟨d, .pass hedge hsite hkill, hwrote⟩

/-- **The last writer.** -/
theorem run_lastWriter : LastWriter f reachable s := by
  refine hrun.invariant _ ?_ fun s t hs hinv hst =>
    lastWriter_step hstatus hbranches hreach hs hinv hst
  intro R v
  rw [take_zero]
  exact fun _ => .inl (.seed ⟨rfl, rfl⟩)

end

theorem scanLoc_of_linkedOnce (hf : f.LinkedOnce) {pos : ℕ} (h : (f.blockInsts b)[pos]? = some u) :
    scanLoc f u = some (b, pos) := by
  obtain ⟨block, hb, hpos⟩ := MachFunction.blockInsts_eq_some h
  have hmem : ∃ c, blockOf f u = some c := by
    rw [← Option.isSome_iff_exists, blockOf, findIdx?_isSome, any_eq_true]
    exact ⟨block, mem_of_getElem? hb, decide_eq_true (mem_of_getElem? hpos)⟩
  obtain ⟨c, hc⟩ := hmem
  have hin : u ∈ f.blockInsts c := by
    rw [blockOf, findIdx?_eq_some_iff_getElem] at hc
    obtain ⟨hlt, hu, -⟩ := hc
    rw [MachFunction.blockInsts, getElem?_eq_getElem hlt]
    simpa using hu
  obtain ⟨q, hq⟩ : ∃ q, (f.blockInsts c).findIdx? (fun i => i = u) = some q := by
    rw [← Option.isSome_iff_exists, findIdx?_isSome, any_eq_true]
    exact ⟨u, hin, by simp⟩
  obtain ⟨hlt, hu, -⟩ := findIdx?_eq_some_iff_getElem.1 hq
  have hqu : (f.blockInsts c)[q]? = some u :=
    List.getElem?_eq_some_iff.2 ⟨hlt, by simpa using hu⟩
  obtain ⟨rfl, rfl⟩ := hf.unique h hqu
  rw [scanLoc, hc, Option.bind_some, hq]
  rfl

/-- A definition that alone reaches an instruction wrote what the register holds there. -/
theorem wrote_of_answerOf (hstatus : NoStatusWrites f) (hbranches : f.BranchesLast)
    (hf : f.LinkedOnce) (hreach : ∀ b, b ∈ reachable ↔ f.Reachable b)
    (hsites : ∀ b ∈ reachable, ∀ s, s ∈ sites b ↔ SiteReaches f reachable v.id b s)
    (hans : answerOf f reachable sites u v.id = some {.inst d}) (hrun : f.Run (ExecRegs f) s)
    (hu : f.AboutTo s u) : Wrote f v d s.env := by
  have hblock : s.block ∈ reachable := (hreach _).2 hrun.reachable
  have hlast := run_lastWriter hstatus hbranches hreach hrun v
  rw [answerOf, scanLoc_of_linkedOnce hf hu, Option.bind_some, if_pos hblock] at hans
  cases hd : lastDef f ((f.blockInsts s.block).take s.pos) v.id with
  | some e =>
    rw [hd] at hans hlast
    obtain rfl : e = d := by simpa using hans
    exact hlast
  | none =>
    rw [hd] at hans hlast
    cases hsym : reachableCfgIsSymmetric f reachable with
    | false => rw [hsym] at hans; simp at hans
    | true =>
      rw [hsym, if_pos rfl] at hans
      have hset : sites s.block = {.inst d} := Option.some.inj hans
      rcases hlast hsym with h | ⟨e, hsite, hwrote⟩
      · have := (hsites _ hblock _).2 h
        rw [hset] at this
        exact absurd (Finset.mem_singleton.1 this) (by simp)
      have := (hsites _ hblock _).2 hsite
      rw [hset] at this
      obtain rfl : e = d := by simpa using this
      exact hwrote

end LastWriter

/-! ## Decoding the chain -/

/-- The immediate, if it is one. -/
def immOf : MachOperand → Option ℤ
  | .imm v => some v
  | _ => none

/-- The shift amount, zero where the operand is left out. -/
def shiftOf : Option MachOperand → Option ℤ
  | none => some 0
  | some op => immOf op

/-- The width of a general-purpose register. -/
def gprWidth : RegClass → Option ℤ
  | .gpr32 => some 32
  | .gpr64 => some 64
  | _ => none

variable (inst : MachInst)

/-- Destination, halfword and shift. -/
def parseMoveWideInst : Option (VReg × BitVec 64 × ℕ) :=
  if inst.operands.length ≠ 2 ∧ inst.operands.length ≠ 3 then none
  else do
    let dst ← inst.operands[0]?.bind MachOperand.asVreg
    let imm ← inst.operands[1]?.bind immOf
    if ¬ (0 ≤ imm ∧ imm ≤ 0xFFFF) then none
    else
      let shift ← shiftOf inst.operands[2]?
      if ¬ (shift = 0 ∨ shift = 16 ∨ shift = 32 ∨ shift = 48) then none
      else
        let width ← gprWidth dst.cls
        if shift ≥ width then none else some (dst, ofInt 64 imm, shift.toNat)

/-- `movz_value`: only the form without a shift. -/
def movzValue : Option (VReg × BitVec 64) :=
  if inst.opcode ≠ .Movz then none
  else (parseMoveWideInst inst).bind fun (dst, imm, shift) =>
    if shift = 0 then some (dst, imm) else none

/-- `movn_value`: only the form without a shift. -/
def movnValue : Option (VReg × BitVec 64) :=
  if inst.opcode ≠ .Movn then none
  else (parseMoveWideInst inst).bind fun (dst, imm, shift) =>
    if shift ≠ 0 then none
    else some (dst, ~~~imm &&& if dst.cls = .gpr32 then 0xFFFFFFFF#64 else ~~~0#64)

/-- The value with one halfword replaced. -/
def applyMovk (expectedDst : VReg) (current : BitVec 64) : Option (BitVec 64) :=
  if inst.opcode ≠ .Movk then none
  else (parseMoveWideInst inst).bind fun (dst, imm, shift) =>
    if dst ≠ expectedDst then none
    else
      let value := (current &&& ~~~(0xFFFF#64 <<< shift)) ||| (imm <<< shift)
      some (if dst.cls = .gpr32 then value &&& 0xFFFFFFFF#64 else value)

/-- The number of an instruction site plus one, zero for the value on entry. -/
def DefSite.code : DefSite → ℕ
  | .uninit => 0
  | .inst d => d + 1

/-- The only element of a set of sites, if it is an instruction. -/
def onlyInst (sites : Finset DefSite) : Option InstId :=
  if sites.card ≠ 1 then none
  else match sites.sup DefSite.code with
    | 0 => none
    | d + 1 => some d

/-- The only definition that reaches. -/
def uniqueReachingDefWith (fuel : ℕ) (f : MachFunction) (ctx : Option ReachingCtx) (u : InstId)
    (id : ℕ) : Option (Option InstId) :=
  (reachingDefsAt fuel f ctx u id).map fun defs => defs.bind onlyInst

/-- What one definition makes of the register, given what the chain before it makes of it. -/
def chainLink (id : ℕ) (inst : MachInst) (prev : Option (Option (BitVec 64))) :
    Option (Option (BitVec 64)) :=
  match inst.opcode with
  | .Movz =>
    some ((movzValue inst).bind fun (dst, value) =>
      if dst.id ≠ id then none
      else some (if dst.cls = .gpr32 then value &&& 0xFFFFFFFF#64 else value))
  | .Movn =>
    some ((movnValue inst).bind fun (dst, value) => if dst.id ≠ id then none else some value)
  | .Movk =>
    match inst.operands[0]?.bind MachOperand.asVreg with
    | none => some none
    | some dst =>
      if dst.id ≠ id then some none
      else prev.map fun prev => prev.bind (applyMovk inst dst)
  | _ => some none

/-- `fold_chain`: the value of the unique chain of move-wide instructions that reaches the
instruction; a `Movk` reads the value that reaches it. -/
def foldChain (fuel : ℕ) (f : MachFunction) (ctx : Option ReachingCtx) (id : ℕ) :
    ℕ → InstId → Option (Option (BitVec 64))
  | 0, _ => some none
  | depth + 1, u =>
    (uniqueReachingDefWith fuel f ctx u id).bind fun def? =>
      match def?.bind fun d => f.insts[d]?.map fun inst => (d, inst) with
      | none => some none
      | some (d, inst) => chainLink id inst (foldChain fuel f ctx id depth d)

/-- The most links of a chain. -/
def maxChain : ℕ := 4

/-- The constant at the class's width. -/
def resolveConst (fuel : ℕ) (f : MachFunction) (ctx : Option ReachingCtx) (u : InstId) (v : VReg) :
    Option (Option ℤ) :=
  (foldChain fuel f ctx v.id maxChain u).map fun val? => val?.map fun val =>
    (if sizeBits v.cls ≤ 32 then val &&& 0xFFFFFFFF#64 else val).toInt

/-- The query without a context. -/
def uniqueReachingConst (fuel : ℕ) (f : MachFunction) (u : InstId) (v : VReg) : Option (Option ℤ) :=
  resolveConst fuel f none u v

theorem onlyInst_eq_some {sites : Finset DefSite} {d : InstId} (h : onlyInst sites = some d) :
    sites = {.inst d} := by
  unfold onlyInst at h
  split at h
  · simp at h
  rename_i hcard
  obtain ⟨s, rfl⟩ := Finset.card_eq_one.1 (not_not.1 hcard)
  rw [Finset.sup_singleton] at h
  cases s with
  | uninit => simp [DefSite.code] at h
  | inst e => simpa [DefSite.code] using h

theorem getElem?_of_asVreg {ops : List MachOperand} {n : ℕ} {v : VReg}
    (h : ops[n]?.bind MachOperand.asVreg = some v) : ops[n]? = some (.vreg v) := by
  obtain ⟨op, hop, hv⟩ := Option.bind_eq_some_iff.1 h
  rw [hop, MachOperand.asVreg_eq_some.1 hv]

theorem eq_imm_of_immOf {op : MachOperand} {v : ℤ} (h : immOf op = some v) : op = .imm v := by
  cases op with
  | imm w => exact congrArg MachOperand.imm (Option.some.inj h)
  | _ => simp [immOf] at h

theorem exists_imm16 {v : ℤ} (h : 0 ≤ v ∧ v ≤ 0xFFFF) :
    ∃ imm : BitVec 16, v = imm.toNat ∧ ofInt 64 v = imm.setWidth 64 := by
  obtain ⟨n, rfl⟩ := Int.eq_ofNat_of_zero_le h.1
  have hn : n < 2 ^ 16 := by omega
  refine ⟨BitVec.ofNat 16 n, ?_, ?_⟩
  · rw [toNat_ofNat, Nat.mod_eq_of_lt hn]
  apply eq_of_toNat_eq
  rw [BitVec.ofInt_natCast, toNat_ofNat, toNat_setWidth, toNat_ofNat,
    Nat.mod_eq_of_lt hn]

variable {inst : MachInst}

theorem moveWide_of_parse {dst : VReg} {imm : BitVec 64} {shift : ℕ}
    (h : parseMoveWideInst inst = some (dst, imm, shift)) :
    ∃ imm16 : BitVec 16, imm = imm16.setWidth 64 ∧ MoveWide inst dst imm16 shift := by
  simp only [parseMoveWideInst, Option.bind_eq_bind, Option.bind_eq_some_iff,
    Option.ite_none_left_eq_some, Option.some.injEq, Prod.mk.injEq] at h
  obtain ⟨hlen, dst', hdst, v, ⟨op1, h1, hop1⟩, hrange, sh, hsh, hshift, w, hw, hlt, rfl, rfl,
    rfl⟩ := h
  obtain ⟨imm16, rfl, himm⟩ := exists_imm16 (not_not.1 hrange)
  have h0 := getElem?_of_asVreg (Option.bind_eq_some_iff.2 hdst)
  rw [eq_imm_of_immOf hop1] at h1
  have hsh0 : 0 ≤ sh := by omega
  have hoperands : inst.operands = [.vreg dst', .imm imm16.toNat, .imm sh] ∨
      sh = 0 ∧ inst.operands = [.vreg dst', .imm imm16.toNat] := by
    rcases hops : inst.operands with _ | ⟨a, _ | ⟨b, _ | ⟨c, _ | ⟨e, rest⟩⟩⟩⟩
    · simp [hops] at hlen
    · simp [hops] at hlen
    · rw [hops] at h0 h1 hsh
      obtain rfl : a = .vreg dst' := by simpa using h0
      obtain rfl : b = .imm imm16.toNat := by simpa using h1
      exact .inr ⟨(Option.some.inj hsh).symm, rfl⟩
    · rw [hops] at h0 h1 hsh
      obtain rfl : a = .vreg dst' := by simpa using h0
      obtain rfl : b = .imm imm16.toNat := by simpa using h1
      obtain rfl : c = .imm sh := eq_imm_of_immOf hsh
      exact .inl rfl
    · simp [hops] at hlen
  refine ⟨imm16, himm, ?_, ?_⟩
  · rw [Int.toNat_of_nonneg hsh0]
    exact hoperands.imp_right fun h => ⟨by rw [h.1]; rfl, h.2⟩
  cases hcls : dst'.cls with
  | gpr32 =>
    rw [hcls] at hw
    obtain rfl : (32 : ℤ) = w := by simpa [gprWidth] using hw
    exact .inl ⟨rfl, by omega⟩
  | gpr64 => exact .inr ⟨rfl, by omega⟩
  | _ => rw [hcls] at hw; simp [gprWidth] at hw

theorem and_mask32 (x : BitVec 64) : x &&& 0xFFFFFFFF#64 = (x.setWidth 32).setWidth 64 := by
  apply eq_of_toNat_eq
  rw [BitVec.toNat_and, toNat_setWidth, toNat_setWidth]
  have hmask : (0xFFFFFFFF#64).toNat = 2 ^ 32 - 1 := rfl
  rw [hmask, Nat.and_two_pow_sub_one_eq_mod]
  omega

theorem writeView_eq (cls : RegClass) (x : BitVec 64) :
    writeView cls x = if cls = .gpr32 then x &&& 0xFFFFFFFF#64 else x := by
  rw [writeView, and_mask32]

/-! ## Soundness -/

/-- The number of the register is used with its class only. -/
def OneClass (f : MachFunction) (v : VReg) : Prop :=
  ∀ inst ∈ f.insts, ∀ w, .vreg w ∈ inst.operands → w.id = v.id → w = v

/-- The classes that a move-wide instruction writes. -/
def IsGpr (v : VReg) : Prop := v.cls = .gpr32 ∨ v.cls = .gpr64

section Sound

variable {d : InstId} {R R' : Regs} {k : BitVec 64}

theorem MoveWide.isGpr {dst : VReg} {imm : BitVec 16} {shift : ℕ}
    (h : MoveWide inst dst imm shift) : IsGpr dst := h.width.imp And.left And.left

section

variable (hone : OneClass f v) (hinst : f.insts[d]? = some inst)
include hone hinst

theorem MoveWide.dst_eq {dst : VReg} {imm : BitVec 16} {shift : ℕ}
    (h : MoveWide inst dst imm shift) (hid : dst.id = v.id) : dst = v := by
  refine hone inst (mem_of_getElem? hinst) dst ?_ hid
  rcases h.operands with hops | ⟨-, hops⟩ <;> simp [hops]

theorem movz_sound (hop : inst.opcode = .Movz)
    (hk : ((movzValue inst).bind fun (dst, value) => if dst.id ≠ v.id then none
      else some (if dst.cls = .gpr32 then value &&& 0xFFFFFFFF#64 else value)) = some k) :
    IsGpr v ∧ ∀ R R', ExecRegs f d R R' → R' v = k := by
  simp only [movzValue, Option.bind_eq_some_iff, Option.ite_none_left_eq_some,
    Option.ite_none_right_eq_some, Prod.exists, Option.some.injEq, Prod.mk.injEq, not_not] at hk
  obtain ⟨dst, value, ⟨-, _, _, _, hparse, rfl, rfl, rfl⟩, hid, rfl⟩ := hk
  obtain ⟨imm16, rfl, hwide⟩ := moveWide_of_parse hparse
  obtain rfl := hwide.dst_eq hone hinst hid
  refine ⟨hwide.isGpr, fun R R' hexec => ?_⟩
  rw [hexec.moveWide inst hinst (.inl hop) _ _ _ hwide, writeView_eq, hop]
  simp only [moveWideValue, shiftLeft_zero]

theorem movn_sound (hop : inst.opcode = .Movn)
    (hk : ((movnValue inst).bind fun (dst, value) => if dst.id ≠ v.id then none
      else some value) = some k) : IsGpr v ∧ ∀ R R', ExecRegs f d R R' → R' v = k := by
  simp only [movnValue, Option.bind_eq_some_iff, Option.ite_none_left_eq_some, Prod.exists,
    Option.some.injEq, Prod.mk.injEq, not_not] at hk
  obtain ⟨dst, value, ⟨-, _, _, _, hparse, rfl, rfl, rfl⟩, hid, rfl⟩ := hk
  obtain ⟨imm16, rfl, hwide⟩ := moveWide_of_parse hparse
  obtain rfl := hwide.dst_eq hone hinst hid
  refine ⟨hwide.isGpr, fun R R' hexec => ?_⟩
  rw [hexec.moveWide inst hinst (.inr (.inl hop)) _ _ _ hwide, writeView_eq, hop]
  simp only [moveWideValue, shiftLeft_zero]
  split
  · rfl
  · rw [BitVec.not_zero, BitVec.and_allOnes]

theorem movk_sound (hop : inst.opcode = .Movk) {dst : VReg} (hid : dst.id = v.id)
    {prev : BitVec 64} (hk : applyMovk inst dst prev = some k) :
    IsGpr v ∧ ∀ R R', ExecRegs f d R R' → R v = prev → R' v = k := by
  simp only [applyMovk, Option.bind_eq_some_iff, Option.ite_none_left_eq_some, Prod.exists,
    Option.some.injEq, not_not] at hk
  obtain ⟨-, dst', imm, shift, hparse, rfl, rfl⟩ := hk
  obtain ⟨imm16, rfl, hwide⟩ := moveWide_of_parse hparse
  obtain rfl := hwide.dst_eq hone hinst hid
  refine ⟨hwide.isGpr, fun R R' hexec hprev => ?_⟩
  rw [hexec.moveWide inst hinst (.inr (.inr hop)) _ _ _ hwide, writeView_eq, hop, ← hprev]
  rfl

end

end Sound

/-- One link: what it answers is what an execution of the definition leaves in the register, if
the chain before it answers what the register holds before that execution. -/
theorem chainLink_sound (hone : OneClass f v) {d : InstId} (hinst : f.insts[d]? = some inst)
    (prev : Option (BitVec 64)) :
    ∃ r, chainLink v.id inst (some prev) = some r ∧ ∀ k, r = some k → IsGpr v ∧
      ∀ R R', ExecRegs f d R R' → (∀ k', prev = some k' → R v = k') → R' v = k := by
  unfold chainLink
  split
  next hop =>
    refine ⟨_, rfl, fun k hk => ?_⟩
    obtain ⟨hgpr, hval⟩ := movz_sound hone hinst hop hk
    exact ⟨hgpr, fun R R' hexec _ => hval R R' hexec⟩
  next hop =>
    refine ⟨_, rfl, fun k hk => ?_⟩
    obtain ⟨hgpr, hval⟩ := movn_sound hone hinst hop hk
    exact ⟨hgpr, fun R R' hexec _ => hval R R' hexec⟩
  next hop =>
    split
    · exact ⟨none, rfl, fun k h => absurd h (by simp)⟩
    rename_i dst hdst
    split
    · exact ⟨none, rfl, fun k h => absurd h (by simp)⟩
    next hid =>
      refine ⟨_, rfl, fun k hk => ?_⟩
      obtain ⟨k', rfl, hk⟩ := Option.bind_eq_some_iff.1 hk
      obtain ⟨hgpr, hval⟩ := movk_sound hone hinst hop (not_not.1 hid) hk
      exact ⟨hgpr, fun R R' hexec hprev => hval R R' hexec (hprev k' rfl)⟩
  · exact ⟨none, rfl, fun k h => absurd h (by simp)⟩

/-- **The chain.**  From the bound of the queries on, folding the chain answers, and a value it
answers is in the register each time the instruction is about to execute. -/
theorem foldChain_sound (hstatus : NoStatusWrites f) (hbranches : f.BranchesLast)
    (hf : f.LinkedOnce) (hone : OneClass f v) {reachable : List BlockId}
    (hreach : ∀ b, b ∈ reachable ↔ f.Reachable b)
    (hsites : ∀ b ∈ reachable, ∀ s, s ∈ sites b ↔ SiteReaches f reachable v.id b s) {bound : ℕ}
    (hquery : ∀ fuel, bound ≤ fuel → ∀ u,
      reachingDefsAt fuel f none u v.id = some (answerOf f reachable sites u v.id)) :
    ∀ (depth : ℕ) (u : InstId), ∃ r,
      (∀ fuel, bound ≤ fuel → foldChain fuel f none v.id depth u = some r) ∧
      ∀ k, r = some k → IsGpr v ∧
        ∀ s, f.Run (ExecRegs f) s → f.AboutTo s u → s.env v = k := by
  intro depth
  induction depth with
  | zero => intro u; exact ⟨none, fun _ _ => rfl, fun k h => absurd h (by simp)⟩
  | succ depth ih =>
    intro u
    have hunique : ∀ fuel, bound ≤ fuel → uniqueReachingDefWith fuel f none u v.id =
        some ((answerOf f reachable sites u v.id).bind onlyInst) := by
      intro fuel hfuel
      rw [uniqueReachingDefWith, hquery fuel hfuel u]
      rfl
    cases hd : ((answerOf f reachable sites u v.id).bind onlyInst).bind
        fun d => f.insts[d]?.map fun inst => (d, inst) with
    | none =>
      refine ⟨none, fun fuel hfuel => ?_, fun k h => absurd h (by simp)⟩
      rw [foldChain, hunique fuel hfuel, Option.bind_some, hd]
    | some p =>
      obtain ⟨d, inst⟩ := p
      obtain ⟨d', hd', hpair⟩ := Option.bind_eq_some_iff.1 hd
      obtain ⟨inst', hinst, hpair⟩ := Option.map_eq_some_iff.1 hpair
      obtain ⟨rfl, rfl⟩ : d' = d ∧ inst' = inst := by simpa using hpair
      obtain ⟨set, hans, honly⟩ := Option.bind_eq_some_iff.1 hd'
      rw [onlyInst_eq_some honly] at hans
      obtain ⟨prev, hprev, hsound⟩ := ih d'
      obtain ⟨r, hr, hlink⟩ := chainLink_sound hone hinst prev
      refine ⟨r, fun fuel hfuel => ?_, fun k hk => ?_⟩
      · rw [foldChain, hunique fuel hfuel, Option.bind_some, hd, ← hr, ← hprev fuel hfuel]
      obtain ⟨hgpr, hval⟩ := hlink k hk
      refine ⟨hgpr, fun s hrun hu => ?_⟩
      -- the register holds what some execution of the definition wrote, and before that
      -- execution it held the value of the chain so far
      obtain ⟨s1, R', hrun1, habout, hexec, heq⟩ :=
        wrote_of_answerOf hstatus hbranches hf hreach hsites hans hrun hu
      rw [heq]
      exact hval s1.env R' hexec fun k' hk' => (hsound k' hk').2 s1 hrun1 habout

theorem readView_eq (hv : IsGpr v) (x : BitVec 64) :
    readView v.cls x = if sizeBits v.cls ≤ 32 then x &&& 0xFFFFFFFF#64 else x := by
  rw [readView, and_mask32]
  rcases hv with hcls | hcls
  · rw [hcls]
    rfl
  · rw [hcls]
    exact BitVec.setWidth_eq _

/-- A constant built by two instructions before a loop that reads it. -/
def constLoop : MachFunction where
  insts := [{ opcode := .Movz, operands := [.vreg (xreg 0), .imm 5] },
    { opcode := .Movk, operands := [.vreg (xreg 0), .imm 1, .imm 16] },
    { opcode := .AddRR, operands := [.vreg (xreg 1), .vreg (xreg 1), .vreg (xreg 0)] },
    { opcode := .Cbnz, operands := [.vreg (xreg 1), .block 1] }]
  blocks := [⟨[0, 1], [], [1]⟩, ⟨[2, 3], [0, 1], [1, 2]⟩, ⟨[], [1], []⟩]
  blockOrder := [0, 1, 2]
  entry := 0

theorem constLoop_oneClass : OneClass constLoop (xreg 0) := by
  intro inst hinst w hw hid
  simp only [constLoop, mem_cons, not_mem_nil, or_false] at hinst
  rcases hinst with rfl | rfl | rfl | rfl
  all_goals
    simp at hw
    rcases hw with rfl | rfl <;> first | rfl | cases hid

/-- A plain `Movz` writes its immediate. -/
theorem execRegs_movz (dst : VReg) (imm : BitVec 16)
    (hi : f.insts[i]? = some { opcode := .Movz, operands := [.vreg dst, .imm imm.toNat] })
    (R : Regs) :
    ExecRegs f i R (Function.update R dst (writeView dst.cls (imm.setWidth 64))) := by
  constructor
  · intro v hv
    refine Function.update_of_ne ?_ _ _
    rintro rfl
    exact hv ⟨_, hi, mem_singleton_self _⟩
  intro inst hinst _ dst' imm' shift hwide
  rw [hi] at hinst
  cases hinst
  rcases hwide.operands with h | ⟨rfl, h⟩
  · simp at h
  obtain ⟨rfl, himm⟩ : dst = dst' ∧ (imm.toNat : ℤ) = imm'.toNat := by simpa using h
  rw [Function.update_self, eq_of_toNat_eq (Int.ofNat.inj himm)]
  simp only [moveWideValue, shiftLeft_zero]

/-- An instruction that is not a move-wide one may leave the registers alone, or change one
that it writes. -/
theorem execRegs_other (hi : f.insts[i]? = some inst)
    (hop : ¬ (inst.opcode = .Movz ∨ inst.opcode = .Movn ∨ inst.opcode = .Movk)) {R S : Regs}
    (hframe : ∀ v, v ∉ writtenVregs inst → S v = R v) : ExecRegs f i R S := by
  refine ⟨fun v hv => hframe v fun h => hv ⟨inst, hi, h⟩, ?_⟩
  intro inst' hinst' hop'
  cases hi.symm.trans hinst'
  exact absurd hop' hop

/-- Control leaves the first block before the constant is written, or after. -/
def leavesBefore : MachFunction where
  insts := [{ opcode := .Cbz, operands := [.vreg (xreg 1), .block 1] },
    { opcode := .Movz, operands := [.vreg (xreg 0), .imm 5000] },
    { opcode := .AddRI, operands := [.vreg (xreg 2), .vreg (xreg 0), .imm 0] }]
  blocks := [⟨[0, 1], [], [1]⟩, ⟨[2], [0], []⟩]
  blockOrder := [0, 1]
  entry := 0

/-- A store exclusive writes its status to the register with the constant. -/
def statusWritten : MachFunction where
  insts := [{ opcode := .Movz, operands := [.vreg (xreg 0), .imm 5] },
    { opcode := .Stlxr, operands := [.vreg (xreg 0), .vreg (xreg 1), .vreg (xreg 2)] },
    { opcode := .AddRI, operands := [.vreg (xreg 3), .vreg (xreg 0), .imm 0] }]
  blocks := [⟨[0, 1, 2], [], []⟩]
  blockOrder := [0]
  entry := 0

/-- The same addition linked into two blocks, each of which sets the register it reads. -/
def linkedTwice : MachFunction where
  insts := [{ opcode := .Movz, operands := [.vreg (xreg 0), .imm 1] },
    { opcode := .Movz, operands := [.vreg (xreg 0), .imm 2] },
    { opcode := .AddRI, operands := [.vreg (xreg 1), .vreg (xreg 0), .imm 0] }]
  blocks := [⟨[0, 2], [], [1]⟩, ⟨[1, 2], [0], []⟩]
  blockOrder := [0, 1]
  entry := 0

/-- A register of an 8-bit class whose number is also that of a 32-bit register. -/
def narrowRead : MachFunction where
  insts := [{ opcode := .Movz, operands := [.vreg ⟨0, .gpr32⟩, .imm 511] },
    { opcode := .FmovFprFpr, operands := [.vreg ⟨1, .fpr8⟩, .vreg ⟨0, .fpr8⟩] }]
  blocks := [⟨[0, 1], [], []⟩]
  blockOrder := [0]
  entry := 0

end TrustCg.Opt
