import TrustCg.RegAlloc.LiveSets

/-!
# Executing a machine function

What the passes over machine functions preserve.  A `Machine` gives the instructions
their meaning: from the values of the vregs an instruction uses and from the rest of
the machine state it computes the values of the vregs that are defined and a new state,
and the state decides which successor a block goes to.  An instruction is seen through
its `shape`, which hides the names of vregs and blocks, so a machine cannot tell two
functions apart by the names they use.

Copies from vreg to vreg move a value and leave no trace; every other instruction
leaves an event with its shape and the values it read.
-/

namespace TrustCg.RegAlloc

open Function (update update_of_ne update_self)
open List

/-! ## Opcodes -/

/-- `PSEUDO_COPY`. -/
def pseudoCopy : ℕ := 0xFFE1

/-- `PSEUDO_JUMP`. -/
def pseudoJump : ℕ := 0xFFE2

/-- `IR_COPY_OPCODE`, the discriminant of `AArch64Opcode::Copy`. -/
def irCopyOpcode : ℕ := 276

/-- Both opcodes of copies. -/
def isCopyOpcode (opcode : ℕ) : Bool := opcode == pseudoCopy || opcode == irCopyOpcode

/-- Destination and source of a copy from vreg to vreg. -/
def MachInst.asCopy (inst : MachInst) : Option (VReg × VReg) :=
  if isCopyOpcode inst.opcode then
    match inst.defs.head?.bind Operand.asVreg, inst.uses.head?.bind Operand.asVreg with
    | some dst, some src => some (dst, src)
    | _, _ => none
  else none

/-! ## Shapes -/

/-- What an instruction tells the machine about an operand: vregs and blocks lose their
names. -/
def Operand.shape : Operand → Operand
  | .vreg v => .vreg ⟨0, v.cls⟩
  | .block _ => .block 0
  | op => op

/-- The instruction without the names of vregs and blocks. -/
def MachInst.shape (inst : MachInst) : MachInst :=
  { inst with defs := inst.defs.map Operand.shape, uses := inst.uses.map Operand.shape }

/-! ## Machines -/

/-- The meaning of the instructions and of the end of a block. -/
structure Machine (Val World : Type*) where
  /-- From the shape of an instruction, the values of its vreg uses and the state: the
  values of its vreg definitions, by index, and the new state. -/
  exec : MachInst → List Val → World → (ℕ → Val) × World
  /-- Which successor the state selects. -/
  branch : World → ℕ

/-- A register file and the rest of the state. -/
structure ExecState (Val World : Type*) where
  regs : VReg → Val
  world : World

/-- The shape of an instruction that was executed, and the values it read. -/
abbrev Event (Val : Type*) := MachInst × List Val

section

variable {Val World : Type*}

/-- Values are written to vregs, in order. -/
def writeDefs (outs : ℕ → Val) : List VReg → ℕ → (VReg → Val) → VReg → Val
  | [], _, regs => regs
  | v :: vs, i, regs => writeDefs outs vs (i + 1) (update regs v (outs i))

variable (m : Machine Val World)

/-- One instruction. -/
def Machine.step (inst : MachInst) (st : ExecState Val World) :
    ExecState Val World × List (Event Val) :=
  match inst.asCopy with
  | some (dst, src) => (⟨update st.regs dst (st.regs src), st.world⟩, [])
  | none =>
    let vals := inst.vregUses.map st.regs
    let res := m.exec inst.shape vals st.world
    (⟨writeDefs res.1 inst.vregDefs 0 st.regs, res.2⟩, [(inst.shape, vals)])

/-- A list of instructions of the arena; an id out of range does nothing. -/
def Machine.execInsts (f : MachFunction) :
    List InstId → ExecState Val World → ExecState Val World × List (Event Val)
  | [], st => (st, [])
  | id :: ids, st =>
    match f.insts[id]? with
    | some inst =>
      let head := m.step inst st
      let tail := execInsts f ids head.1
      (tail.1, head.2 ++ tail.2)
    | none => execInsts f ids st

/-- Up to `n` blocks, from block `b` on. -/
def Machine.run (f : MachFunction) :
    ℕ → BlockId → ExecState Val World → ExecState Val World × List (Event Val)
  | 0, _, st => (st, [])
  | n + 1, b, st =>
    let here := m.execInsts f (f.blockInsts b) st
    match (f.succs b)[m.branch here.1.world]? with
    | some c =>
      if c < f.blocks.length then
        let rest := run f n c here.1
        (rest.1, here.2 ++ rest.2)
      else here
    | none => here

end

/-- A machine whose instructions return their opcode. -/
def opcodeMachine : Machine ℕ Unit :=
  ⟨fun inst _ world => (fun _ => inst.opcode, world), fun _ => 0⟩

/-- The vregs that the instructions mention. -/
def MachFunction.vregs (f : MachFunction) : List VReg :=
  f.insts.flatMap fun inst => inst.vregDefs ++ inst.vregUses

variable {inst : MachInst}

theorem mem_vregs {f : MachFunction} {id : InstId} (hinst : f.insts[id]? = some inst) {v : VReg}
    (hv : v ∈ inst.vregDefs ++ inst.vregUses) : v ∈ f.vregs :=
  mem_flatMap.2 ⟨inst, mem_of_getElem? hinst, hv⟩

theorem mem_of_asCopy {d src : VReg} (h : inst.asCopy = some (d, src)) :
    d ∈ inst.vregDefs ∧ src ∈ inst.vregUses := by
  unfold MachInst.asCopy at h
  split at h
  · split at h
    next dst s hd hs =>
      simp only [Option.some_inj, Prod.mk.injEq] at h
      obtain ⟨rfl, rfl⟩ := h
      obtain ⟨op, hop, hdst⟩ := Option.bind_eq_some_iff.1 hd
      obtain ⟨op', hop', hsrc⟩ := Option.bind_eq_some_iff.1 hs
      exact ⟨mem_filterMap.2 ⟨op, mem_of_head? hop, hdst⟩,
        mem_filterMap.2 ⟨op', mem_of_head? hop', hsrc⟩⟩
    · simp at h
  · simp at h

/-! ## Writing -/

section

variable {Val World : Type*} {outs : ℕ → Val} {v : VReg}

theorem writeDefs_of_notMem (vs : List VReg) (i : ℕ) (regs : VReg → Val) (hv : v ∉ vs) :
    writeDefs outs vs i regs v = regs v := by
  induction vs generalizing i regs with
  | nil => rfl
  | cons u vs ih =>
    rw [mem_cons, not_or] at hv
    obtain ⟨hne, hv⟩ := hv
    rw [writeDefs, ih _ _ hv, update_of_ne hne]

theorem writeDefs_congr (vs : List VReg) (i : ℕ) (regs regs' : VReg → Val)
    (h : v ∈ vs ∨ regs' v = regs v) : writeDefs outs vs i regs' v = writeDefs outs vs i regs v := by
  induction vs generalizing i regs regs' with
  | nil => exact h.resolve_left not_mem_nil
  | cons u vs ih =>
    refine ih _ _ _ ?_
    by_cases hvu : v = u
    · subst hvu
      exact .inr (by rw [update_self, update_self])
    rw [update_of_ne hvu, update_of_ne hvu]
    exact h.imp_left fun hmem => (mem_cons.1 hmem).resolve_left hvu

/-- Writing through a renaming that does not confuse the vreg with others. -/
theorem writeDefs_map (rename : VReg → VReg) (vs : List VReg) (i : ℕ) (regs regs' : VReg → Val)
    (hv : v ∈ vs) :
    (∀ u ∈ vs, rename u = rename v → u = v) →
      writeDefs outs (vs.map rename) i regs' (rename v) = writeDefs outs vs i regs v := by
  induction vs generalizing i regs regs' with
  | nil => simp at hv
  | cons u vs ih =>
    intro hinj
    rw [map_cons, writeDefs, writeDefs]
    by_cases hin : v ∈ vs
    · exact ih _ _ _ hin fun w hw => hinj w (.tail _ hw)
    have huv : v = u := (mem_cons.1 hv).resolve_right hin
    subst huv
    have hout : rename v ∉ vs.map rename := by
      intro hmem
      obtain ⟨w, hw, hwv⟩ := mem_map.1 hmem
      rw [hinj w (.tail _ hw) hwv] at hw
      exact hin hw
    rw [writeDefs_of_notMem _ _ _ hout, writeDefs_of_notMem _ _ _ hin, update_self, update_self]

end

end TrustCg.RegAlloc
