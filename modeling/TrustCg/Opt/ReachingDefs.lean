import Mathlib.Data.List.Sort
import TrustCg.Lib.GenKill
import TrustCg.Lib.Saturate
import TrustCg.Lib.Search
import TrustCg.Opt.Effects

/-!
# Reaching definitions, one query at a time

Which definitions of a virtual register can reach an instruction, on code that is not
in SSA form.  A register is identified by its number alone: writing the 32-bit view
clobbers the 64-bit one.

The path of `reaching_defs_at` without a context: find the instruction by scanning,
look for a definition before it in its block, and otherwise solve the dataflow
equations of this one register with a worklist.

* `SiteReaches` : what the equations are about, as a relation on blocks and sites.
* `computeOut_spec` : the worklist ends, and what it leaves on entry to a reachable
  block is that relation.
-/

namespace TrustCg.Opt

open Ir List
open RegAlloc (BlockId InstId VReg)

variable {f : MachFunction} {reachable : List BlockId} {b : BlockId}

/-! ## Definitions of a register -/

/-- `DefSite`: a defining instruction, or the value the register had on function entry. -/
inductive DefSite
  | uninit
  | inst (d : InstId)
  deriving DecidableEq, Repr

/-- `defined_ids`: the numbers of the registers an instruction writes. -/
def definedIds (inst : MachInst) : List ℕ :=
  (defOperandPositions inst.opcode inst.operands.length).filterMap fun pos =>
    (inst.operands[pos]?.bind MachOperand.asVreg).map VReg.id

/-- The numbers of the registers written by an instruction of the arena. -/
def idsDefinedAt (f : MachFunction) (i : InstId) : List ℕ := (f.insts[i]?.map definedIds).getD []

/-- The instruction defines the number. -/
def definesId (f : MachFunction) (i : InstId) (id : ℕ) : Bool :=
  (idsDefinedAt f i).any fun defined => defined == id

variable {id : ℕ}

theorem definesId_iff {i : InstId} : definesId f i id = true ↔ id ∈ idsDefinedAt f i := by
  rw [definesId, any_eq_true]
  constructor
  · rintro ⟨x, hx, he⟩
    rwa [eq_of_beq he] at hx
  intro h
  exact ⟨id, h, BEq.rfl⟩

/-- The last instruction of the list that writes the register. -/
def lastDef (f : MachFunction) (insts : List InstId) (id : ℕ) : Option InstId :=
  insts.reverse.find? fun i => definesId f i id

theorem lastDef_mem {insts : List InstId} {d : InstId} (h : lastDef f insts id = some d) :
    d ∈ insts ∧ definesId f d id = true := by
  rw [lastDef] at h
  have hd := find?_some h
  exact ⟨mem_reverse.1 (mem_of_find?_eq_some h), hd⟩

theorem lastDef_append_singleton (f : MachFunction) (insts : List InstId) (i : InstId) (id : ℕ) :
    lastDef f (insts ++ [i]) id = if definesId f i id then some i else lastDef f insts id := by
  rw [lastDef, reverse_append, reverse_singleton, singleton_append, find?_cons]
  cases definesId f i id <;> rfl

/-! ## The graph -/

/-- `block_of`: the first block that contains the instruction. -/
def blockOf (f : MachFunction) (i : InstId) : Option BlockId :=
  f.blocks.findIdx? fun block => decide (i ∈ block.insts)

/-- `reachable_blocks`: the blocks on some path of successor edges from the entry. -/
def reachableBlocks (fuel : ℕ) (f : MachFunction) : Option (List BlockId) :=
  (Loop.run (Search.popStep f.succs) fuel ⟨[], [f.entry]⟩).map Search.PopState.seen

theorem reachableBlocks_spec (f : MachFunction) :
    ∃ bound reachable, (∀ fuel, bound ≤ fuel → reachableBlocks fuel f = some reachable)
      ∧ ∀ b, b ∈ reachable ↔ f.Reachable b := by
  obtain ⟨bound, seen, hrun, -, hseen⟩ := Search.pop_marks_reachable
    f.succs f.entry f.mentioned.toFinset
    (fun b _ c hc => mem_toFinset.2 (MachFunction.mem_mentioned_of_mem_succs hc))
    (mem_toFinset.2 (.head _))
  refine ⟨bound, seen, ?_, hseen⟩
  intro fuel hfuel
  rw [reachableBlocks, hrun fuel hfuel]
  rfl

/-- `reachable_cfg_is_symmetric`: among the reachable blocks the two edge lists are inverse to
each other. -/
def reachableCfgIsSymmetric (f : MachFunction) (reachable : List BlockId) : Bool :=
  let fromSuccs := reachable.flatMap fun b =>
    ((f.succs b).filter (· ∈ reachable)).map fun s => (b, s)
  let fromPreds := reachable.flatMap fun b =>
    ((f.preds b).filter (· ∈ reachable)).map fun p => (p, b)
  fromSuccs.toFinset = fromPreds.toFinset

theorem reachableCfgIsSymmetric_iff : reachableCfgIsSymmetric f reachable = true ↔
      ∀ a ∈ reachable, ∀ b ∈ reachable, (b ∈ f.succs a ↔ a ∈ f.preds b) := by
  rw [reachableCfgIsSymmetric, decide_eq_true_iff, Finset.ext_iff]
  simp only [mem_toFinset, mem_flatMap, mem_map, mem_filter,
    decide_eq_true_eq, Prod.forall, Prod.mk.injEq]
  constructor
  · intro h a ha b hb
    constructor
    · intro hs
      obtain ⟨b', hb', p, ⟨hp, -⟩, rfl, rfl⟩ := (h a b).1 ⟨a, ha, b, ⟨hs, hb⟩, rfl, rfl⟩
      exact hp
    intro hp
    obtain ⟨a', ha', s, ⟨hs, -⟩, rfl, rfl⟩ := (h a b).2 ⟨b, hb, a, ⟨hp, ha⟩, rfl, rfl⟩
    exact hs
  intro h a b
  constructor
  · rintro ⟨a', ha', s, ⟨hs, hsr⟩, rfl, rfl⟩
    exact ⟨s, hsr, a', ⟨(h a' ha' s hsr).1 hs, ha'⟩, rfl, rfl⟩
  rintro ⟨b', hb', p, ⟨hp, hpr⟩, rfl, rfl⟩
  exact ⟨p, hpr, b', ⟨(h p hpr b' hb').2 hp, hb'⟩, rfl, rfl⟩

/-- A predecessor the dataflow follows: one that control can reach. -/
def FlowEdge (f : MachFunction) (reachable : List BlockId) (p b : BlockId) : Prop :=
  p ∈ f.preds b ∧ p ∈ reachable

/-- The site reaches the entry of the block: along some path it is the last definition of the
register. -/
def SiteReaches (f : MachFunction) (reachable : List BlockId) (id : ℕ) : BlockId → DefSite → Prop :=
  GenKill.Flows (FlowEdge f reachable)
    (fun b s => b = f.entry ∧ s = .uninit)
    (fun a s => ∃ d, lastDef f (f.blockInsts a) id = some d ∧ s = .inst d)
    (fun a _ => (lastDef f (f.blockInsts a) id).isSome = true)

/-! ## The worklist for one register -/

/-- `assemble_in`: what the ends of the predecessors make of the entry of a block. -/
def assembleIn (f : MachFunction) (reachable : List BlockId) (out : BlockId → Finset DefSite)
    (b : BlockId) : Finset DefSite :=
  (f.preds b).foldl (fun inb p => if p ∈ reachable then inb ∪ out p else inb)
    (if b = f.entry then {.uninit} else ∅)

/-- The end of a block: its last definition, or what came in. -/
def transferOut (f : MachFunction) (reachable : List BlockId) (id : ℕ) (b : BlockId)
    (out : BlockId → Finset DefSite) : Finset DefSite :=
  match lastDef f (f.blockInsts b) id with
  | some d => {.inst d}
  | none => assembleIn f reachable out b

/-- The blocks that read the end of `b`, sorted and without duplicates. -/
def dependents (f : MachFunction) (reachable : List BlockId) (b : BlockId) : List BlockId :=
  (reachable.insertionSort (· ≤ ·)).dedup.filter fun c => b ∈ f.preds c ∧ b ∈ reachable

/-- `compute_out`: the ends of the reachable blocks, by a worklist that starts with all of them
in ascending order. -/
def computeOut (fuel : ℕ) (f : MachFunction) (reachable : List BlockId) (id : ℕ) :
    Option (BlockId → Option (Finset DefSite)) :=
  (Loop.run (Saturate.step (transferOut f reachable id) (dependents f reachable)) fuel
    ⟨fun _ => none, (reachable.insertionSort (· ≤ ·)).dedup⟩).map Saturate.Work.out

variable {out : BlockId → Finset DefSite} {s : DefSite}

theorem mem_foldl_union (ps : List BlockId) (acc : Finset DefSite) :
    s ∈ ps.foldl (fun inb p => if p ∈ reachable then inb ∪ out p else inb) acc ↔
      s ∈ acc ∨ ∃ p ∈ ps, p ∈ reachable ∧ s ∈ out p := by
  refine Loop.foldl_iff_or (P := (s ∈ ·)) (fun inb p => ?_) ps acc
  split
  next hp => simp [hp]
  next hp => simp [hp]

theorem mem_assembleIn :
    s ∈ assembleIn f reachable out b ↔
      (b = f.entry ∧ s = .uninit) ∨ ∃ p, FlowEdge f reachable p b ∧ s ∈ out p := by
  rw [assembleIn, mem_foldl_union]
  refine or_congr ?_ ?_
  · by_cases hb : b = f.entry <;> simp [hb]
  constructor
  · rintro ⟨p, hp, hr, hs⟩
    exact ⟨p, ⟨hp, hr⟩, hs⟩
  rintro ⟨p, ⟨hp, hr⟩, hs⟩
  exact ⟨p, hp, hr, hs⟩

section

variable (f : MachFunction) (reachable : List BlockId)

theorem assembleIn_mono (b : BlockId) : Monotone fun out => assembleIn f reachable out b := by
  intro out out' hle s hs
  rcases mem_assembleIn.1 hs with h | ⟨p, hp, hs⟩
  · exact mem_assembleIn.2 (.inl h)
  · exact mem_assembleIn.2 (.inr ⟨p, hp, hle p hs⟩)

theorem transferOut_mono (id : ℕ) (b : BlockId) : Monotone (transferOut f reachable id b) := by
  intro out out' hle
  unfold transferOut
  split
  · exact le_rfl
  · exact assembleIn_mono f reachable b hle

end

/-- The sites that occur at all. -/
def allSites (f : MachFunction) : Finset DefSite :=
  insert .uninit ((f.blocks.flatMap MachBlock.insts).map DefSite.inst).toFinset

theorem uninit_mem_allSites (f : MachFunction) : DefSite.uninit ∈ allSites f :=
  Finset.mem_insert_self _ _

theorem inst_mem_allSites {d : InstId} (h : d ∈ f.blockInsts b) : DefSite.inst d ∈ allSites f := by
  refine Finset.mem_insert_of_mem (mem_toFinset.2 (mem_map_of_mem ?_))
  rw [MachFunction.blockInsts] at h
  cases hb : f.blocks[b]? with
  | none => rw [hb] at h; simp at h
  | some block =>
    rw [hb] at h
    exact mem_flatMap.2 ⟨block, mem_of_getElem? hb, h⟩

theorem transferOut_subset (h : ∀ a, out a ⊆ allSites f) :
    transferOut f reachable id b out ⊆ allSites f := by
  unfold transferOut
  split
  next d hd =>
    rw [Finset.singleton_subset_iff]
    exact inst_mem_allSites (lastDef_mem hd).1
  · intro s hs
    rcases mem_assembleIn.1 hs with ⟨-, rfl⟩ | ⟨p, -, hs⟩
    · exact uninit_mem_allSites f
    · exact h p hs

theorem mem_nodes : b ∈ (reachable.insertionSort (· ≤ ·)).dedup ↔ b ∈ reachable := by
  rw [mem_dedup]
  exact (perm_insertionSort _ reachable).mem_iff

/-- A block that does not read the end of `b` does not depend on it. -/
theorem transferOut_local {c : BlockId} (hc : c ∈ reachable) (hdep : c ∉ dependents f reachable b)
    {out' : BlockId → Finset DefSite} (h : ∀ a, a ≠ b → out a = out' a) :
    transferOut f reachable id c out = transferOut f reachable id c out' := by
  have hkey : ∀ p, FlowEdge f reachable p c → out p = out' p := by
    intro p hp
    refine h p ?_
    rintro rfl
    refine hdep (mem_filter.2 ⟨mem_nodes.2 hc, ?_⟩)
    exact decide_eq_true hp
  unfold transferOut
  split
  · rfl
  ext s
  simp only [mem_assembleIn]
  refine or_congr Iff.rfl ⟨?_, ?_⟩
  · rintro ⟨p, hp, hs⟩
    exact ⟨p, hp, hkey p hp ▸ hs⟩
  rintro ⟨p, hp, hs⟩
  exact ⟨p, hp, (hkey p hp).symm ▸ hs⟩

/-- The site is there at the end of the block. -/
def SiteLeaves (f : MachFunction) (reachable : List BlockId) (id : ℕ) (b : BlockId)
    (s : DefSite) : Prop :=
  match lastDef f (f.blockInsts b) id with
  | some d => s = .inst d
  | none => SiteReaches f reachable id b s

theorem SiteLeaves.step {a : BlockId} (h : SiteLeaves f reachable id a s)
    (hab : FlowEdge f reachable a b) : SiteReaches f reachable id b s := by
  unfold SiteLeaves at h
  cases hd : lastDef f (f.blockInsts a) id with
  | some d =>
    rw [hd] at h
    exact .gen hab ⟨d, hd, h⟩
  | none =>
    rw [hd] at h
    exact .pass hab h (by rw [hd]; exact Bool.false_ne_true)

/-- **The worklist computes the relation.**  It ends, and what the ends of the predecessors make
of the entry of a reachable block are the sites that reach it. -/
theorem computeOut_spec (f : MachFunction) (reachable : List BlockId) (id : ℕ) :
    ∃ bound out, (∀ fuel, bound ≤ fuel → computeOut fuel f reachable id = some out)
      ∧ ∀ b ∈ reachable, ∀ s,
        s ∈ assembleIn f reachable (Saturate.value out) b ↔ SiteReaches f reachable id b s := by
  classical
  obtain ⟨bound, out, hrun, hdone, hleast⟩ := Saturate.worklist_spec
    (transferOut f reachable id) (dependents f reachable)
    (reachable.insertionSort (· ≤ ·)).dedup (· ⊆ allSites f)
    (transferOut_mono f reachable id) Finset.card_strictMono
    (fun x hx => Finset.card_le_card hx) (Finset.empty_subset _)
    (fun b v hv => transferOut_subset hv)
    (fun b c hc => (mem_filter.1 hc).1)
    (fun b c hc hdep v v' h => transferOut_local (mem_nodes.1 hc) hdep h)
  refine ⟨bound, out, ?_, ?_⟩
  · intro fuel hfuel
    rw [computeOut, hrun fuel hfuel]
    rfl
  -- the relation, cut down to the sites that occur, is a solution above the one computed
  have habove : ∀ b s, s ∈ Saturate.value out b → SiteLeaves f reachable id b s := by
    have hsol := hleast (fun b => (allSites f).filter (SiteLeaves f reachable id b)) ?_
    · intro b s hs
      exact (Finset.mem_filter.1 (hsol b hs)).2
    intro b _ s hs
    refine Finset.mem_filter.2 ⟨transferOut_subset (fun _ => Finset.filter_subset _ _) hs, ?_⟩
    unfold transferOut at hs
    unfold SiteLeaves
    cases hd : lastDef f (f.blockInsts b) id with
    | some d =>
      rw [hd] at hs
      exact Finset.mem_singleton.1 hs
    | none =>
      rw [hd] at hs
      rcases mem_assembleIn.1 hs with h | ⟨p, hp, hs⟩
      · exact .seed h
      · exact (Finset.mem_filter.1 hs).2.step hp
  intro b hb s
  refine Iff.symm (GenKill.flows_iff_of_solution (· ∈ reachable)
    (fun b s => s ∈ assembleIn f reachable (Saturate.value out) b)
    (fun a b hab => hab.2) ?_ ?_ hb)
  · rintro b s hb (h | ⟨a, hab, h⟩)
    · exact mem_assembleIn.2 (.inl h)
    refine mem_assembleIn.2 (.inr ⟨a, hab, ?_⟩)
    have hval : Saturate.value out a = transferOut f reachable id a (Saturate.value out) := by
      rw [Saturate.value, hdone a (mem_nodes.2 hab.2)]
      rfl
    rw [hval]
    unfold transferOut
    rcases h with ⟨d, hd, rfl⟩ | ⟨hs, hkill⟩
    · rw [hd]
      exact Finset.mem_singleton_self _
    cases hd : lastDef f (f.blockInsts a) id with
    | some d => rw [hd] at hkill; exact absurd rfl hkill
    | none => exact hs
  intro b s _ hs
  rcases mem_assembleIn.1 hs with h | ⟨p, hp, hs⟩
  · exact .seed h
  · exact (habove p s hs).step hp

end TrustCg.Opt
