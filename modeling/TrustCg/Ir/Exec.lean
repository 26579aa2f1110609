import Mathlib.Data.List.Nodup
import TrustCg.Ir.Types

/-!
# Executions of a machine function

Control runs through the instructions of a block one after the other and leaves the
block at a branch, wherever in the block it stands, or at the end of the block.  Where it
goes is one of the successors.  What an instruction does to the rest of the state is a
parameter.

* `Run.invariant` : what holds at the start and is kept by every step holds in every
  state an execution reaches.
-/

namespace TrustCg.Ir

open RegAlloc (BlockId InstId)
open List

/-- A branch of either kind. -/
def AArch64Opcode.isBranch (opcode : AArch64Opcode) : Bool :=
  opcode.isUnconditionalBranch || opcode.isConditionalBranch

namespace MachFunction

variable (f : MachFunction)

/-- The instruction is a branch. -/
def isBranchAt (i : InstId) : Bool :=
  (f.insts[i]?.map fun inst => inst.opcode.isBranch).getD false

/-- Control can leave the block at the position: a branch stands there, or the block ends. -/
def Exits (b : BlockId) (pos : ℕ) : Prop :=
  ∀ i ∈ (f.blockInsts b)[pos]?, f.isBranchAt i = true

instance (b : BlockId) (pos : ℕ) : Decidable (f.Exits b pos) :=
  inferInstanceAs (Decidable (∀ i ∈ _, _))

/-- Only branches follow a branch in its block. -/
def BranchesLast : Prop :=
  ∀ (b : BlockId) (p q : ℕ) (i j : InstId), (f.blockInsts b)[p]? = some i →
    f.isBranchAt i = true → p ≤ q → (f.blockInsts b)[q]? = some j → f.isBranchAt j = true

/-- A block, the position of the next instruction in it, and the rest of the state. -/
structure State (σ : Type*) where
  block : BlockId
  pos : ℕ
  env : σ

variable {σ : Type*}

/-- One step: the next instruction, or a branch out of the block. -/
inductive Step (f : MachFunction) (exec : InstId → σ → σ → Prop) : State σ → State σ → Prop
  | inst {b : BlockId} {pos : ℕ} {i : InstId} {env env' : σ} :
      (f.blockInsts b)[pos]? = some i → exec i env env' →
      Step f exec ⟨b, pos, env⟩ ⟨b, pos + 1, env'⟩
  | branch {b c : BlockId} {pos : ℕ} {env : σ} :
      f.Exits b pos → c ∈ f.succs b → Step f exec ⟨b, pos, env⟩ ⟨c, 0, env⟩

/-- The states an execution from the entry block can reach. -/
inductive Run (f : MachFunction) (exec : InstId → σ → σ → Prop) : State σ → Prop
  | start (env : σ) : Run f exec ⟨f.entry, 0, env⟩
  | step {s t : State σ} : Run f exec s → Step f exec s t → Run f exec t

/-- The instruction is the next one to execute. -/
def AboutTo (f : MachFunction) (s : State σ) (i : InstId) : Prop :=
  (f.blockInsts s.block)[s.pos]? = some i

variable {f : MachFunction} {exec : InstId → σ → σ → Prop}

variable {s : State σ}

/-- **Invariants of executions.** -/
theorem Run.invariant (Inv : State σ → Prop) (hstart : ∀ env, Inv ⟨f.entry, 0, env⟩)
    (hstep : ∀ s t, Run f exec s → Inv s → Step f exec s t → Inv t) (h : Run f exec s) : Inv s := by
  induction h with
  | start env => exact hstart env
  | step hs hst ih => exact hstep _ _ hs ih hst

theorem Run.reachable (h : Run f exec s) : f.Reachable s.block := by
  refine h.invariant (fun s => f.Reachable s.block) (fun _ => Flow.Reachable.refl) ?_
  rintro s t - hs hst
  cases hst with
  | inst _ _ => exact hs
  | branch _ hc => exact hs.step hc

/-- Where branches come last, a block is left after everything else in it. -/
theorem BranchesLast.lt (hlast : f.BranchesLast) {b : BlockId} {p q : ℕ} {i : InstId}
    (h : f.Exits b p) (hi : (f.blockInsts b)[q]? = some i) (hnb : f.isBranchAt i = false) :
    q < p := by
  by_contra hge
  have hq := (List.getElem?_eq_some_iff.1 hi).1
  have hp : (f.blockInsts b)[p]? = some (f.blockInsts b)[p] := getElem?_eq_getElem (by omega)
  have hbranch := hlast b p q _ i hp (h _ hp) (Nat.not_lt.1 hge) hi
  rw [hbranch] at hnb
  cases hnb

/-- Branches come last if they do so in each block that there is. -/
theorem BranchesLast.of_blocks (h : ∀ b < f.blocks.length, ∀ p < (f.blockInsts b).length,
    f.Exits b p → ∀ q < (f.blockInsts b).length, p ≤ q → f.Exits b q) : f.BranchesLast := by
  intro b p q i j hp hbranch hpq hq
  have hb : b < f.blocks.length := by
    by_contra hge
    rw [blockInsts, getElem?_eq_none (Nat.not_lt.1 hge)] at hp
    simp at hp
  refine h b hb p (List.getElem?_eq_some_iff.1 hp).1 ?_ q (List.getElem?_eq_some_iff.1 hq).1 hpq
    j hq
  intro k hk
  cases hp.symm.trans hk
  exact hbranch

/-! ## Instructions linked once -/

/-- Every instruction is linked at most once. -/
def LinkedOnce (f : MachFunction) : Prop := (f.blocks.flatMap MachBlock.insts).Nodup

instance (f : MachFunction) : Decidable f.LinkedOnce := inferInstanceAs (Decidable (List.Nodup _))

variable {b : BlockId}

theorem blockInsts_eq_some {pos : ℕ} {i : InstId} (h : (f.blockInsts b)[pos]? = some i) :
    ∃ block, f.blocks[b]? = some block ∧ block.insts[pos]? = some i := by
  rw [blockInsts] at h
  cases hb : f.blocks[b]? with
  | none => rw [hb] at h; simp at h
  | some block =>
    rw [hb] at h
    exact ⟨block, rfl, h⟩

theorem LinkedOnce.unique (hf : f.LinkedOnce) {c : BlockId} {pos q : ℕ} {i : InstId}
    (h : (f.blockInsts b)[pos]? = some i) (h' : (f.blockInsts c)[q]? = some i) :
    b = c ∧ pos = q := by
  obtain ⟨hnodup, hdisj⟩ := nodup_flatMap.1 hf
  obtain ⟨block, hb, hpos⟩ := blockInsts_eq_some h
  obtain ⟨block', hc, hq⟩ := blockInsts_eq_some h'
  obtain ⟨hblt, rfl⟩ := List.getElem?_eq_some_iff.1 hb
  obtain ⟨hclt, rfl⟩ := List.getElem?_eq_some_iff.1 hc
  have hbc : b = c := by
    -- blocks at different indices have no instruction in common
    by_contra hne
    rcases Nat.lt_or_gt_of_ne hne with hlt | hlt
    · exact pairwise_iff_getElem.1 hdisj b c hblt hclt hlt (mem_of_getElem? hpos)
        (mem_of_getElem? hq)
    exact pairwise_iff_getElem.1 hdisj c b hclt hblt hlt (mem_of_getElem? hq)
      (mem_of_getElem? hpos)
  subst hbc
  refine ⟨rfl, ?_⟩
  obtain ⟨hp, hpe⟩ := List.getElem?_eq_some_iff.1 hpos
  obtain ⟨hq, hqe⟩ := List.getElem?_eq_some_iff.1 hq
  exact (List.Nodup.getElem_inj_iff (hnodup _ (getElem_mem hblt))).1 (hpe.trans hqe.symm)

end MachFunction

end TrustCg.Ir
