import Mathlib.Logic.Function.Basic
import Mathlib.Tactic.SplitIfs
import TrustCg.Ir.Types
import TrustCg.RegAlloc.Regs

/-!
# Tail calls

`tail_call.rs`: a block that ends in a call, register moves and a return comes to end in a
branch to the callee.  The moves are dropped, so they must leave in a return register what
the callee left there.  The pass only checks that each reads a register the call defines or
an earlier move has written; a move from one return register to another passes.

* `tailCallAt_redundant_iff` : the moves dropped from a block are redundant for a register,
  whatever the callee does, exactly if they lead back from it to itself.
-/

namespace TrustCg.Opt.TailCall

open Ir List
open RegAlloc (BlockId PReg VReg InstFlags Storage storage pregClass)
open RegAlloc.InstFlags (isCall isReturn isPseudo writesMemory)

/-! ## The pass -/

/-- A function with its name and its stack slots: the sizes, and whether one is known at run
time only. -/
structure Caller where
  func : MachFunction
  name : String
  stackSlots : List (ℕ × Bool)

/-- The instructions of a block. -/
def code (f : MachFunction) (b : BlockId) : List MachInst :=
  (f.blockInsts b).map fun i => f.insts.getD i ⟨.Nop, [], [], [], isPseudo⟩

/-- `is_call_opcode`: the opcodes with `IS_CALL` among their default flags. -/
def isCallOpcode : AArch64Opcode → Bool
  | .TailCall | .Bl | .BL | .Blr | .BLR => true
  | _ => false

/-- The walk of `detect_tail_call` from position `i` back to the call, over moves only. -/
def findCall (insts : List MachInst) : ℕ → Option ℕ
  | 0 => none
  | i + 1 => (insts[i]?).bind fun inst =>
    if isCallOpcode inst.opcode then some i
    else if inst.opcode.isMove then findCall insts i
    else none

/-- `detect_tail_call`: the index of the call. -/
def detectTailCall (insts : List MachInst) : Option ℕ :=
  if insts.length < 2 then none
  else insts.getLast?.bind fun ret =>
    if InstFlags.contains ret.flags isReturn then findCall insts (insts.length - 1) else none

/-- The name of the callee. -/
def extractCallTarget (inst : MachInst) : Option String :=
  inst.operands.findSome? fun op => match op with
    | .symbol name => some name
    | _ => none

/-- What the tail branch goes to. -/
def directCallBranchTarget (inst : MachInst) : Option MachOperand :=
  inst.operands.head?.filter fun op => match op with
    | .symbol _ | .block _ | .imm _ => true
    | _ => false

/-- The loop of `intervening_insts_only_route_call_result`. -/
def onlyRoute : List MachOperand → List MachInst → Bool
  | _, [] => true
  | available, inst :: moves =>
    match inst.operands with
    | dst :: src :: _ =>
      let isReg := match src with
        | .vreg _ | .preg _ => true
        | _ => false
      if isReg && !available.contains src then false else onlyRoute (available ++ [dst]) moves
    | _ => false

/-- The moves may be dropped. -/
def guardsPass (call : MachInst) (moves : List MachInst) : Bool :=
  (moves.all fun inst => !InstFlags.contains inst.flags writesMemory
      && !InstFlags.contains inst.flags isCall && inst.opcode != .Release && inst.opcode.isMove)
    && onlyRoute (call.implicitDefs.map .preg) moves

/-- The call can become a branch. -/
def isSiblingCompatible (call : MachInst) (callerStackSize : ℕ) : Bool :=
  call.opcode != .Blr && call.opcode != .BLR && (directCallBranchTarget call).isSome
    && !(8 < call.operands.countP (fun op => match op with
        | .symbol _ | .block _ => false
        | _ => true) && callerStackSize == 0)

/-- Some address of a slot is taken. -/
def materializesStackSlotAddress (f : MachFunction) : Bool :=
  f.insts.any fun inst => (inst.opcode == .AddPCRel || inst.opcode == .StackAlloc)
    && inst.operands.any fun op => match op with
      | .stackSlot _ | .frameIndex _ => true
      | _ => false

/-- A store of a stack argument. -/
def isOutgoingStackArgStore (inst : MachInst) : Bool :=
  let storesAt (base offset : ℕ) := (inst.operands[base]? == some (.preg 31)
      || inst.operands[base]? == some (.special .sp))
    && match inst.operands[offset]? with
      | some (.imm k) => 0 ≤ k
      | _ => false
  match inst.opcode with
  | .StrRI | .StrbRI | .StrhRI => storesAt 1 2
  | .StpRI => storesAt 2 3
  | _ => false

/-- The body of the loop over the blocks: the index of the call that becomes a branch, and
the target of the branch. -/
def tailCallAt (c : Caller) (b : BlockId) : Option (ℕ × MachOperand) :=
  (detectTailCall (code c.func b)).bind fun i =>
    ((code c.func b)[i]?).bind fun call =>
      if !guardsPass call ((code c.func b).dropLast.drop (i + 1)) then none
      else if (extractCallTarget call).any (· == c.name) then some (i, .symbol c.name)
      else if isSiblingCompatible call (c.stackSlots.foldl (· + ·.1) 0) then
        (directCallBranchTarget call).map (i, ·)
      else none

/-- The call becomes a branch with the default flags of `TailCall` and ends its block. -/
def applyTco (c : Caller) (b : BlockId) (i : ℕ) (target : MachOperand) : Caller :=
  let id := (c.func.blockInsts b).getD i 0
  let toBranch (call : MachInst) : MachInst :=
    ⟨.TailCall, [target], call.implicitDefs, call.implicitUses, 0xDB⟩
  { c with func := { c.func with
      insts := c.func.insts.modify id toBranch
      blocks := c.func.blocks.modify b fun block =>
        { block with insts := block.insts.take (i + 1) } } }

/-- The pass over all blocks. -/
def runTailCall (c : Caller) : Caller × Bool :=
  if c.stackSlots.any Prod.snd || c.func.insts.any isOutgoingStackArgStore
      || materializesStackSlotAddress c.func then (c, false)
  else
    c.func.blockOrder.foldl (fun st b =>
      match tailCallAt st.1 b with
      | none => st
      | some (i, target) => (applyTco st.1 b i target, true)) (c, false)

/-! ## What the moves do -/

/-- Where a value is: in a virtual register, in the storage of a physical one, or in an
operand that is not a register. -/
abbrev Loc := VReg ⊕ Storage ⊕ MachOperand

/-- The location of an operand; a vreg is known by its number and its class. -/
def loc : MachOperand → Loc
  | .vreg v => .inl v
  | .preg p => .inr (.inl (storage p))
  | .special .sp => .inr (.inl (storage 31))
  | op => .inr (.inr op)

/-- `XZR` and `WZR`, which read as zero and keep nothing. -/
def isZero : MachOperand → Bool
  | .preg p => p == 160 || p == 161
  | .special .xzr | .special .wzr => true
  | _ => false

/-- How many bits an operand shows of its register. -/
def bits : MachOperand → ℕ
  | .vreg v => sizeBits v.cls
  | .preg p => sizeBits (pregClass p)
  | .special _ => 64
  | _ => 128

/-- The low `w` bits. -/
def low (w : ℕ) (x : BitVec 128) : BitVec 128 := (x.setWidth w).setWidth 128

/-- What an operand shows. -/
def read (regs : Loc → BitVec 128) (op : MachOperand) : BitVec 128 :=
  if isZero op then 0 else low (bits op) (regs (loc op))

/-- A move: what the source shows goes to the target, whose other bits are cleared. -/
def move (regs : Loc → BitVec 128) (inst : MachInst) : Loc → BitVec 128 :=
  match inst.operands with
  | dst :: src :: _ =>
    if isZero dst then regs else Function.update regs (loc dst) (low (bits dst) (read regs src))
  | _ => regs

/-- A physical register shows after the moves what it showed before them. -/
def Redundant (moves : List MachInst) (p : PReg) : Prop :=
  ∀ regs : Loc → BitVec 128, read (moves.foldl move regs) (.preg p) = read regs (.preg p)

/-- The moves from the last to the first, followed back from location `l`: the source of the
last one that has `l` for its target, the source of the last one before it that has that for
its target, and so on.  No zero register and no operand of fewer than `n` bits may be on the
way. -/
def sourceOf (n : ℕ) : List MachInst → Loc → Option Loc
  | [], l => some l
  | inst :: before, l =>
    match inst.operands with
    | dst :: src :: _ =>
      if isZero dst = true ∨ loc dst ≠ l then sourceOf n before l
      else if isZero src = true ∨ bits dst < n ∨ bits src < n then none
      else sourceOf n before (loc src)
    | _ => sourceOf n before l

/-- From a physical register the moves lead back to itself, over operands as wide as it. -/
def LeadsBack (moves : List MachInst) (p : PReg) : Prop :=
  sourceOf (bits (.preg p)) moves.reverse (loc (.preg p)) = some (loc (.preg p))

instance (moves : List MachInst) (p : PReg) : Decidable (LeadsBack moves p) :=
  inferInstanceAs (Decidable (_ = _))

theorem getLsbD_low (w i : ℕ) (x : BitVec 128) :
    (low w x).getLsbD i = (decide (i < w) && x.getLsbD i) := by
  by_cases hi : i < 128
  · simp [low, hi]
  · simp [low, hi, BitVec.getLsbD_of_ge x i (by omega)]

theorem low_low {n w : ℕ} (h : n ≤ w) (x : BitVec 128) : low n (low w x) = low n x := by
  apply BitVec.eq_of_getLsbD_eq
  intro i _
  rw [getLsbD_low, getLsbD_low, getLsbD_low]
  by_cases hi : i < n
  · simp [hi, Nat.lt_of_lt_of_le hi h]
  · simp [hi]

section

variable {n : ℕ} (hn : 0 < n)
include hn

theorem getLsbD_low_of_lt {w : ℕ} (h : w < n) (x : BitVec 128) :
    (low w x).getLsbD (n - 1) = false := by
  rw [getLsbD_low, decide_eq_false (by omega), Bool.false_and]

/-- **The walk back.**  The location it ends in had the low bits before the moves; if it ends
nowhere, the last of these bits is cleared. -/
theorem sourceOf_spec (regs : Loc → BitVec 128) (rev : List MachInst) (l : Loc) :
    match sourceOf n rev l with
    | some l' => low n (rev.foldr (fun inst regs => move regs inst) regs l) = low n (regs l')
    | none => (low n (rev.foldr (fun inst regs => move regs inst) regs l)).getLsbD (n - 1)
      = false := by
  induction rev generalizing l with
  | nil => rfl
  | cons inst before ih =>
    rw [foldr_cons, sourceOf, move]
    generalize before.foldr (fun inst regs => move regs inst) regs = now at ih ⊢
    rcases inst.operands with _ | ⟨dst, _ | ⟨src, _⟩⟩
    · exact ih l
    · exact ih l
    · dsimp only
      by_cases hskip : isZero dst = true ∨ loc dst ≠ l
      · have hsame : (if isZero dst then now
            else Function.update now (loc dst) (low (bits dst) (read now src))) l = now l := by
          split_ifs with hzero
          · rfl
          · exact Function.update_of_ne (Ne.symm (hskip.resolve_left hzero)) ..
        rw [if_pos hskip, hsame]
        exact ih l
      obtain ⟨hzero, rfl⟩ : isZero dst ≠ true ∧ loc dst = l := by simpa using hskip
      rw [if_neg hskip, if_neg hzero, Function.update_self, read]
      by_cases hlost : isZero src = true ∨ bits dst < n ∨ bits src < n
      · -- nothing comes through the move, or too little
        rw [if_pos hlost]
        dsimp only
        rw [getLsbD_low, Bool.and_eq_false_iff]
        refine .inr ?_
        rcases hlost with hsrc | hdst | hsrc
        · rw [if_pos hsrc, getLsbD_low]
          simp
        · exact getLsbD_low_of_lt hn hdst _
        · rw [getLsbD_low, Bool.and_eq_false_iff]
          refine .inr ?_
          split_ifs
          · simp
          · exact getLsbD_low_of_lt hn hsrc _
      obtain ⟨hsrc, hwide⟩ : isZero src ≠ true ∧ n ≤ bits dst ∧ n ≤ bits src := by
        simpa using hlost
      rw [if_neg hlost, if_neg hsrc, low_low hwide.1, low_low hwide.2]
      exact ih (loc src)

end

theorem redundant_iff (moves : List MachInst) {p : PReg} (hp : isZero (.preg p) = false) :
    Redundant moves p ↔ LeadsBack moves p := by
  have hbits : 0 < bits (.preg p) ∧ bits (.preg p) ≤ 128 := by
    rw [bits]
    cases pregClass p <;> decide
  have hread : ∀ regs, read regs (.preg p) = low (bits (.preg p)) (regs (loc (.preg p))) := by
    intro regs
    rw [read, hp]
    rfl
  have hspec := fun regs => sourceOf_spec hbits.1 regs moves.reverse (loc (.preg p))
  simp only [Redundant, LeadsBack, hread]
  simp only [foldr_reverse] at hspec
  generalize loc (.preg p) = l, bits (.preg p) = n at *
  have hones : (low n (.allOnes 128)).getLsbD (n - 1) = true := by
    rw [getLsbD_low, BitVec.getLsbD_allOnes]
    simp
    omega
  cases hsource : sourceOf n moves.reverse l with
  | none =>
    -- where all bits are set, one is lost
    refine iff_of_false (fun h => ?_) (by simp)
    have hlost := hspec fun _ => .allOnes 128
    rw [hsource] at hlost
    rw [h] at hlost
    exact absurd (hones.symm.trans hlost) (by simp)
  | some l' =>
    rw [Option.some_inj]
    refine ⟨fun h => ?_, fun heq regs => ?_⟩
    · -- a location that is all ones among zeros is the only one that shows them
      by_contra hne
      have hkept := hspec (Function.update (fun _ => 0) l (.allOnes 128))
      rw [hsource] at hkept
      dsimp only at hkept
      rw [h, Function.update_self, Function.update_of_ne hne] at hkept
      rw [hkept, getLsbD_low] at hones
      simp at hones
    · have hkept := hspec regs
      rw [hsource, heq] at hkept
      exact hkept

/-! ## The dropped moves -/

theorem findCall_spec {insts : List MachInst} {n i : ℕ} (h : findCall insts n = some i) :
    i < n ∧ ∃ call, insts[i]? = some call ∧ isCallOpcode call.opcode = true := by
  induction n with
  | zero => cases h
  | succ n ih =>
    obtain ⟨inst, hinst, h⟩ := Option.bind_eq_some_iff.1 h
    split_ifs at h with hcall hmove
    · cases h
      exact ⟨Nat.lt_succ_self i, inst, hinst, hcall⟩
    · exact ⟨Nat.lt_succ_of_lt (ih h).1, (ih h).2⟩

/-- **When the dropped moves are redundant.**  A rewritten block was a call, moves and a
return.  A physical register shows after the moves what the callee left in it, whatever that
is, exactly if the moves lead back from it to itself, over operands as wide as it. -/
theorem tailCallAt_redundant_iff {c : Caller} {b : BlockId} {i : ℕ} {target : MachOperand}
    (h : tailCallAt c b = some (i, target)) : ∃ call moves ret,
    code c.func b = (code c.func b).take i ++ call :: moves ++ [ret]
      ∧ isCallOpcode call.opcode = true ∧ (∀ inst ∈ moves, inst.opcode.isMove = true)
      ∧ InstFlags.contains ret.flags isReturn = true
      ∧ ∀ p, isZero (.preg p) = false → (Redundant moves p ↔ LeadsBack moves p) := by
  obtain ⟨j, hj, h⟩ := Option.bind_eq_some_iff.1 h
  obtain ⟨call, hcall, h⟩ := Option.bind_eq_some_iff.1 h
  generalize code c.func b = insts at *
  have hi : j = i ∧ guardsPass call (insts.dropLast.drop (j + 1)) = true := by
    split_ifs at h with hguards <;> simp_all
  obtain ⟨rfl, hguards⟩ := hi
  unfold detectTailCall at hj
  split_ifs at hj
  obtain ⟨ret, hret, hj⟩ := Option.bind_eq_some_iff.1 hj
  split_ifs at hj with hflags
  obtain ⟨hlt, call', hcall', hop⟩ := findCall_spec hj
  cases hcall.symm.trans hcall'
  obtain ⟨front, rfl⟩ := getLast?_eq_some_iff.1 hret
  rw [length_append, length_singleton, Nat.add_sub_cancel] at hlt
  rw [dropLast_concat, guardsPass, Bool.and_eq_true, all_eq_true] at hguards
  rw [getElem?_append_left hlt] at hcall
  refine ⟨call, front.drop (j + 1), ret, ?_, hop, fun inst hinst => ?_, hflags,
    fun p hp => redundant_iff _ hp⟩
  · obtain ⟨-, rfl⟩ := List.getElem?_eq_some_iff.1 hcall
    rw [take_append_of_le_length (Nat.le_of_lt hlt), getElem_cons_drop, take_append_drop]
  · have hmove := hguards.1 inst hinst
    simp only [Bool.and_eq_true] at hmove
    exact hmove.2

/-- `g` is called, and what it leaves in `X1` is returned in `X0`. -/
def secondResult : Caller where
  func := ⟨[⟨.Bl, [.symbol "g"], [0, 1], [], 0xD1⟩, ⟨.MovR, [.preg 0, .preg 1], [], [], 0⟩,
    ⟨.Ret, [], [], [], 0x0C⟩], [⟨[0, 1, 2], [], []⟩], [0], 0⟩
  name := "f"
  stackSlots := []

/-- The block is rewritten, and its one move is needed for `X0` but not for `X1`. -/
theorem tailCallAt_redundant_iff_secondResult : ∃ moves, ¬Redundant moves 0 ∧ Redundant moves 1
    ∧ code secondResult.func 0 = (code secondResult.func 0).take 1 ++ moves
      ++ (code secondResult.func 0).drop 2 := by
  have h : tailCallAt secondResult 0 = some (0, .symbol "g") := by decide
  obtain ⟨call, moves, ret, hcode, -, -, -, hiff⟩ := tailCallAt_redundant_iff h
  have hmoves : moves = [⟨.MovR, [.preg 0, .preg 1], [], [], 0⟩] := by
    have hrest : [⟨.MovR, [.preg 0, .preg 1], [], [], 0⟩] ++ [⟨.Ret, [], [], [], 0x0C⟩]
        = moves ++ [ret] := (List.cons.inj hcode).2
    exact (append_inj_left' hrest rfl).symm
  subst hmoves
  exact ⟨_, fun hred => absurd ((hiff 0 rfl).1 hred) (by decide), (hiff 1 rfl).2 (by decide), rfl⟩

/-- **A move that is needed is dropped.**  The callee leaves 0 in `X0` and 1 in `X1`; the
function returned 1, and it comes to return 0. -/
theorem runTailCall_drops_move : ∃ regs : Loc → BitVec 128,
    (runTailCall secondResult).2 = true
      ∧ code (runTailCall secondResult).1.func 0 = [⟨.TailCall, [.symbol "g"], [0, 1], [], 0xDB⟩]
      ∧ read (((code secondResult.func 0).dropLast.drop 1).foldl move regs) (.preg 0) = 1
      ∧ read regs (.preg 0) = 0 :=
  ⟨fun l => if l = loc (.preg 1) then 1 else 0, by decide, by decide, by decide, by decide⟩

end TrustCg.Opt.TailCall
