import TrustCg.Opt.Machine

/-!
# Copy propagation

`run_copy_prop`: a use of the destination of a register move is made to read the source
of the move, where the move reaches the use and the source is judged not to change in
between.
-/

namespace TrustCg.Opt.CopyProp

open Ir
open RegAlloc (BlockId InstId VReg)

/-! ## The pass -/

/-- A move and its place. -/
structure CopyInfo where
  src : VReg
  block : BlockId
  instIndex : ℕ
  deriving DecidableEq

/-- The place of a definition. -/
structure DefSite where
  block : BlockId
  instIndex : ℕ
  deriving DecidableEq

/-- `collect_defs`: where a register is written. -/
def collectDefs (f : MachFunction) (v : VReg) : List DefSite :=
  (places f).flatMap fun e =>
    ((((f.insts[e.2.2]?).map definedVregs).getD []).filter fun w => w = v).map
      fun _ => ⟨e.1, e.2.1⟩

/-- The copy an instruction adds to the map: a move between registers of one class whose
destination has no other definition. -/
def copyAt (f : MachFunction) (e : BlockId × ℕ × InstId) : Option (VReg × CopyInfo) :=
  match f.insts[e.2.2]? with
  | none => none
  | some inst =>
    if inst.opcode.isMove then
      match inst.operands with
      | .vreg dst :: .vreg src :: _ =>
        if dst.cls = src.cls ∧ (collectDefs f dst).length = 1 then
          some (dst, ⟨src, e.1, e.2.1⟩)
        else none
      | _ => none
    else none

/-- `copy_map`; a later copy replaces an earlier one. -/
def copyMap (f : MachFunction) (v : VReg) : Option CopyInfo :=
  (((places f).filterMap (copyAt f)).reverse.find? fun e => e.1 = v).map Prod.snd

/-- The copy stands before the use. -/
def copyReachesUse (copy : CopyInfo) (b : BlockId) (idx : ℕ) (dom : Option DomTree) : Bool :=
  if copy.block = b then decide (copy.instIndex < idx)
  else (dom.map fun d => d.dominates copy.block b).getD false

/-- The definition stands before the copy. -/
def defKnownBeforeCopy (d : DefSite) (copy : CopyInfo) (dom : Option DomTree) : Bool :=
  if d.block = copy.block then decide (d.instIndex < copy.instIndex)
  else (dom.map fun t => t.dominates d.block copy.block).getD false

/-- A path leads to the target. -/
def blockReaches (fuel : ℕ) (f : MachFunction) (source target : BlockId) : Option Bool :=
  if source = target then some true else Search.seek fuel f.succs target source

/-- The definition may come before the use. -/
def defCanReachUse (fuel : ℕ) (d : DefSite) (b : BlockId) (idx : ℕ) (f : MachFunction)
    (dom : Option DomTree) : Option Bool :=
  if d.block = b then some (decide (d.instIndex < idx))
  else
    match dom with
    | none => some false
    | some t => if t.dominates d.block b then some true else blockReaches fuel f d.block b

/-- No definition changes the source. -/
def sourceIsStableAtUse (fuel : ℕ) (copy : CopyInfo) (b : BlockId) (idx : ℕ)
    (f : MachFunction) (dom : Option DomTree) : List DefSite → Option Bool
  | [] => some true
  | d :: defs =>
    if defKnownBeforeCopy d copy dom then sourceIsStableAtUse fuel copy b idx f dom defs
    else
      (defCanReachUse fuel d b idx f dom).bind fun reaches =>
        if reaches then some false else sourceIsStableAtUse fuel copy b idx f dom defs

/-- The longest chain that is followed. -/
def maxChain : ℕ := 64

/-- The loop of `resolve_use_replacement`: follow copies from the current register.  The
copies and definitions are those of the function `f₀` the pass started with. -/
def followCopies (fuel : ℕ) (f₀ f : MachFunction) (dom : Option DomTree) (b : BlockId) (idx : ℕ) :
    ℕ → List VReg → VReg → Option VReg
  | 0, _, current => some current
  | n + 1, seen, current =>
    if current ∈ seen then some current
    else
      match copyMap f₀ current with
      | none => some current
      | some copy =>
        if copyReachesUse copy b idx dom then
          (sourceIsStableAtUse fuel copy b idx f dom (collectDefs f₀ copy.src)).bind
            fun stable =>
              if stable then followCopies fuel f₀ f dom b idx n (current :: seen) copy.src
              else some current
        else some current

/-- `resolve_use_replacement`, as the register the use ends up with. -/
def resolveUseReplacement (fuel : ℕ) (f₀ f : MachFunction) (dom : Option DomTree) (b : BlockId)
    (idx : ℕ) (original : VReg) : Option VReg :=
  followCopies fuel f₀ f dom b idx maxChain [] original

/-- The operand at a position after the pass; only operands that are read and not written
are looked at. -/
def newOperand (fuel : ℕ) (f₀ f : MachFunction) (dom : Option DomTree) (b : BlockId) (idx : ℕ)
    (inst : MachInst) (e : MachOperand × ℕ) : Option MachOperand :=
  if e.2 ∈ useOperandPositions inst.opcode inst.operands.length
      ∧ e.2 ∉ defOperandPositions inst.opcode inst.operands.length then
    match e.1 with
    | .vreg v => (resolveUseReplacement fuel f₀ f dom b idx v).map .vreg
    | op => some op
  else some e.1

/-- The step of the rewriting loop at one place; the flag records a change. -/
def rewriteAt (fuel : ℕ) (f₀ : MachFunction) (dom : Option DomTree) (st : MachFunction × Bool)
    (e : BlockId × ℕ × InstId) : Option (MachFunction × Bool) :=
  match st.1.insts[e.2.2]? with
  | none => some st
  | some inst =>
    (inst.operands.zipIdx.mapM (newOperand fuel f₀ st.1 dom e.1 e.2.1 inst)).map fun operands =>
      ({ st.1 with insts := st.1.insts.set e.2.2 { inst with operands := operands } },
        st.2 || operands != inst.operands)

/-- `run_copy_prop`: the rewritten function and whether anything has changed. -/
def runCopyProp (fuel : ℕ) (f : MachFunction) (dom : Option DomTree) :
    Option (MachFunction × Bool) :=
  (places f).foldlM (rewriteAt fuel f dom) (f, false)

end TrustCg.Opt.CopyProp
