import TrustCg.Lib.TreeTour
import TrustCg.Ir.Types

/-!
# The dominator tree

`DomTree::compute` and the queries the passes make of it.

* `compute_spec` : on a function whose lists agree the computation ends, its order is
  that of the reachable blocks, and `dominates` is dominance.
* `compute_dominators` : `idom` is the closest strict dominator; unreachable blocks.
* `DomTree.Ok.preorder` : the walk the value-numbering passes make of the tree lists every
  reachable block once, after its dominators.
-/

namespace TrustCg.Opt

open Ir Dominators TreeTour List
open RegAlloc (BlockId)

/-- `DomTree`, without its dominance frontiers. -/
structure DomTree where
  idom : BlockId → Option BlockId
  children : BlockId → List BlockId
  rpoOrder : List BlockId
  tin : BlockId → Option ℕ
  tout : BlockId → Option ℕ

/-- The blocks in reverse postorder. -/
def computeRpo (fuel : ℕ) (f : MachFunction) : Option (List BlockId) :=
  (Loop.run (Search.orderStep f.blocks.length f.succs) fuel (Search.orderStart f.entry)).map
    fun t => t.postorder.reverse

/-- The blocks whose immediate dominator is `b`, in the order of `rpo`. -/
def childrenOf (idom : BlockId → Option BlockId) (rpo : List BlockId) (b : BlockId) :
    List BlockId :=
  rpo.filter fun c => idom c = some b ∧ c ≠ b

/-- `DomTree::compute`; a block's number is its index in the order. -/
def DomTree.compute (fuel : ℕ) (f : MachFunction) : Option DomTree :=
  (computeRpo fuel f).bind fun rpo =>
    (fixIdom f.entry f.preds (fun b => rpo.idxOf b) rpo fuel (idomStart f.entry)).bind fun idom =>
      (Loop.run (tourStep (childrenOf idom rpo)) fuel (tourStart f.entry)).map fun t =>
        ⟨idom, childrenOf idom rpo, rpo, t.tin, t.tout⟩

/-- Dominance, by the times of the walk. -/
def DomTree.dominates (dom : DomTree) (a b : BlockId) : Bool :=
  if a = b then true
  else
    match dom.tin a, dom.tout a, dom.tin b, dom.tout b with
    | some aIn, some aOut, some bIn, some bOut => decide (aIn ≤ bIn) && decide (bOut ≤ aOut)
    | _, _, _, _ => false

/-- The blocks in preorder of the tree. -/
def domPreorder (fuel : ℕ) (f : MachFunction) (dom : DomTree) : Option (List BlockId) :=
  (Loop.run (preorderStep dom.children) fuel ([], [f.entry])).map Prod.fst

/-! ## What the tree is for -/

/-- The lists of the blocks name existing blocks, and those of reachable blocks agree. -/
structure CfgConsistent (f : MachFunction) : Prop where
  entry_lt : f.entry < f.blocks.length
  succs_lt : ∀ a b, f.Edge a b → b < f.blocks.length
  preds_iff : ∀ a b, f.Reachable a → f.Reachable b → (a ∈ f.preds b ↔ f.Edge a b)

/-- Every path from the entry to `b` goes through `a`. -/
def Dominates (f : MachFunction) (a b : BlockId) : Prop :=
  Dominators.Dominates f.entry f.Edge a b

/-- A tree that answers for the function. -/
structure DomTree.Ok (f : MachFunction) (dom : DomTree) : Prop where
  mem_rpoOrder : ∀ b, b ∈ dom.rpoOrder ↔ f.Reachable b
  nodup_rpoOrder : dom.rpoOrder.Nodup
  dominates_iff : ∀ a b, f.Reachable b → (dom.dominates a b = true ↔ Dominates f a b)
  children_dominates : ∀ b c, c ∈ dom.children b → Dominates f b c
  preorder : ∃ bound order, (∀ fuel, bound ≤ fuel → domPreorder fuel f dom = some order)
    ∧ order.Nodup ∧ (∀ b, b ∈ order ↔ f.Reachable b)
    ∧ ∀ l₁ b l₂, order = l₁ ++ b :: l₂ → ∀ a, Dominates f a b → a ≠ b → a ∈ l₁

variable {f : MachFunction}

variable {b : BlockId}

theorem CfgConsistent.lt_of_reachable (hf : CfgConsistent f) (hb : f.Reachable b) :
    b < f.blocks.length :=
  hb.mem_of_closed (S := fun b => b < f.blocks.length) hf.entry_lt
    fun a c _ hac => hf.succs_lt a c hac

/-- The lists of all blocks agree; this can be evaluated. -/
def listsAgree (f : MachFunction) : Bool :=
  decide (f.entry < f.blocks.length) && (List.range f.blocks.length).all fun b =>
    (f.succs b).all (fun c => decide (c < f.blocks.length) && decide (b ∈ f.preds c))
      && (f.preds b).all fun a => decide (a < f.blocks.length) && decide (b ∈ f.succs a)

theorem CfgConsistent.of_listsAgree (h : listsAgree f = true) : CfgConsistent f := by
  simp only [listsAgree, Bool.and_eq_true, decide_eq_true_eq, all_eq_true, mem_range] at h
  obtain ⟨hentry, hall⟩ := h
  have hsuccs : ∀ a b, b ∈ f.succs a → b < f.blocks.length ∧ a ∈ f.preds b := by
    intro a b hab
    by_cases ha : a < f.blocks.length
    · exact (hall a ha).1 b hab
    rw [MachFunction.succs_of_ge (not_lt.1 ha)] at hab
    simp at hab
  refine ⟨hentry, fun a b hab => (hsuccs a b hab).1, ?_⟩
  intro a b _ hb
  have hlt : b < f.blocks.length := hb.mem_of_closed (S := fun b => b < f.blocks.length) hentry
    fun a c _ hac => (hsuccs a c hac).1
  exact ⟨fun hab => ((hall b hlt).2 a hab).2, fun hab => (hsuccs a b hab).2⟩

section

variable (hf : CfgConsistent f)
include hf

theorem edgeIn_iff {a : BlockId} : Search.EdgeIn f.blocks.length f.succs a b ↔ f.Edge a b :=
  ⟨fun h => h.1, fun h => ⟨h, hf.succs_lt a b h⟩⟩

/-- The reverse post-order numbers the reachable blocks so that each but the entry comes
after one of its predecessors. -/
theorem computeRpo_spec :
    ∃ bound rpo par, (∀ fuel, bound ≤ fuel → computeRpo fuel f = some rpo) ∧ rpo.Nodup
      ∧ Numbering f.entry f.Edge f.preds (fun b => rpo.idxOf b) rpo par := by
  obtain ⟨t, bound, hrun, hmem, hnodup, hentered⟩ :=
    Search.postOrder_spec f.blocks.length f.succs f.entry
  have hedge : Search.EdgeIn f.blocks.length f.succs = f.Edge := by
    funext a b
    exact propext (edgeIn_iff hf)
  rw [hedge] at hmem hentered
  have hnodup' : t.postorder.reverse.Nodup := nodup_reverse.2 hnodup
  have hinc : t.postorder.reverse.Pairwise
      fun a b => t.postorder.reverse.idxOf a < t.postorder.reverse.idxOf b := by
    rw [pairwise_iff_getElem]
    intro i j hi hj hij
    rwa [hnodup'.idxOf_getElem, hnodup'.idxOf_getElem]
  -- a block is entered from one that is finished later
  have hpar : ∀ b, ∃ a, b ∈ t.postorder.reverse → b ≠ f.entry → a ∈ t.postorder.reverse ∧ f.Edge a b
        ∧ t.postorder.reverse.idxOf a < t.postorder.reverse.idxOf b := by
    intro b
    by_cases hb : b ∈ t.postorder ∧ b ≠ f.entry
    · obtain ⟨l₁, l₂, hsplit⟩ := append_of_mem hb.1
      obtain ⟨a, ha, hab⟩ := hentered l₁ b l₂ hsplit hb.2
      have hrev : t.postorder.reverse = l₂.reverse ++ b :: l₁.reverse := by rw [hsplit]; simp
      refine ⟨a, fun _ _ => ⟨?_, hab, ?_⟩⟩
      · rw [hrev]; simp [ha]
      rw [hrev] at hinc ⊢
      exact (pairwise_append.1 hinc).2.2 a (mem_reverse.2 ha) b
        (.head _)
    · refine ⟨b, fun hmem hne => absurd ⟨mem_reverse.1 hmem, hne⟩ hb⟩
  choose par hpar using hpar
  refine ⟨bound, t.postorder.reverse, par, ?_, hnodup', ?_, hinc, ?_, hpar⟩
  · intro fuel hfuel
    rw [computeRpo, hrun fuel hfuel]
    rfl
  · intro b
    rw [mem_reverse]
    exact hmem b
  intro b hb a ha
  exact hf.preds_iff a b ((hmem a).1 (mem_reverse.1 ha)) ((hmem b).1 (mem_reverse.1 hb))

/-- What the computation leaves: a table of parents over the reachable blocks whose chains are
the dominators, and the stamps of a tour of that tree. -/
structure DomTree.Shape (f : MachFunction) (dom : DomTree) : Prop where
  mem_rpoOrder : ∀ b, b ∈ dom.rpoOrder ↔ f.Reachable b
  nodup_rpoOrder : dom.rpoOrder.Nodup
  tree : Tree f.entry (fun b => dom.rpoOrder.idxOf b) dom.idom
  isSome_iff : ∀ b, (dom.idom b).isSome ↔ b ∈ dom.rpoOrder
  anc_iff : ∀ a b, b ∈ dom.rpoOrder → (Anc dom.idom a b ↔ Dominates f a b)
  kids : Kids f.blocks.length dom.idom dom.children
  tin_iff : ∀ b, (dom.tin b).isSome ↔ (dom.idom b).isSome
  tout_iff : ∀ b, (dom.tout b).isSome ↔ (dom.idom b).isSome
  nest : ∀ a b ta tb ua ub, dom.tin a = some ta → dom.tin b = some tb → dom.tout a = some ua →
    dom.tout b = some ub → ((ta ≤ tb ∧ ub ≤ ua) ↔ Anc dom.idom a b)

theorem compute_shape : ∃ bound dom,
    (∀ fuel, bound ≤ fuel → DomTree.compute fuel f = some dom) ∧ DomTree.Shape f dom := by
  obtain ⟨k1, rpo, par, hrpo, hnodup, hnum⟩ := computeRpo_spec hf
  obtain ⟨k2, idom, hidom, htree, hsome, hanc⟩ := fixIdom_spec hnum
  have hkids : Kids f.blocks.length idom (childrenOf idom rpo) := by
    refine ⟨?_, fun b => hnodup.filter _, ?_⟩
    · intro b c
      rw [childrenOf, mem_filter, decide_eq_true_iff]
      refine ⟨fun h => h.2, fun h => ⟨(hsome c).1 (by rw [h.1]; rfl), h⟩⟩
    intro b hb
    exact hf.lt_of_reachable ((hnum.mem_iff b).1 ((hsome b).1 hb))
  obtain ⟨t, k3, ht, hin, hout, hnest⟩ := tour_spec htree hkids
  refine ⟨max k1 (max k2 k3), ⟨idom, childrenOf idom rpo, rpo, t.tin, t.tout⟩, ?_,
    hnum.mem_iff, hnodup, htree, hsome, hanc, hkids, hin, hout, hnest⟩
  intro fuel hfuel
  rw [DomTree.compute, hrpo fuel (by omega), Option.bind_some, hidom fuel (by omega),
    Option.bind_some, ht fuel (by omega)]
  rfl

end

section

variable {dom : DomTree} {a b : BlockId}

section

variable (h : DomTree.Shape f dom)
include h

theorem DomTree.Shape.tin_eq_none (hb : ¬ f.Reachable b) : dom.tin b = none := by
  rw [← Option.not_isSome_iff_eq_none, h.tin_iff, h.isSome_iff, h.mem_rpoOrder]
  exact hb

theorem DomTree.Shape.dominates_iff (hb : f.Reachable b) :
    dom.dominates a b = true ↔ Dominates f a b := by
  have hbmem := (h.mem_rpoOrder b).2 hb
  rw [← h.anc_iff a b hbmem, DomTree.dominates]
  by_cases hab : a = b
  · subst hab
    rw [if_pos rfl]
    exact ⟨fun _ => .refl a, fun _ => rfl⟩
  rw [if_neg hab]
  obtain ⟨tb, htb⟩ := Option.isSome_iff_exists.1 ((h.tin_iff b).2 ((h.isSome_iff b).2 hbmem))
  obtain ⟨ub, hub⟩ := Option.isSome_iff_exists.1 ((h.tout_iff b).2 ((h.isSome_iff b).2 hbmem))
  by_cases ha : (dom.idom a).isSome
  · obtain ⟨ta, hta⟩ := Option.isSome_iff_exists.1 ((h.tin_iff a).2 ha)
    obtain ⟨ua, hua⟩ := Option.isSome_iff_exists.1 ((h.tout_iff a).2 ha)
    rw [hta, hua, htb, hub]
    simp only [Bool.and_eq_true, decide_eq_true_eq]
    exact h.nest a b ta tb ua ub hta htb hua hub
  -- an unreachable block has no stamp and lies on no chain
  have hnot : ¬ Anc dom.idom a b := fun hanc =>
    ha (h.tree.isSome_of_anc hanc ((h.isSome_iff b).2 hbmem))
  rw [h.tin_eq_none fun hr => ha ((h.isSome_iff a).2 ((h.mem_rpoOrder a).2 hr))]
  simp [hnot]

theorem DomTree.Shape.ok : DomTree.Ok f dom := by
  refine ⟨h.mem_rpoOrder, h.nodup_rpoOrder, fun a b hb => h.dominates_iff hb, ?_, ?_⟩
  · intro b c hc
    obtain ⟨hbc, hne⟩ := (h.kids.mem_iff b c).1 hc
    have hmem : c ∈ dom.rpoOrder := (h.isSome_iff c).1 (by rw [hbc]; rfl)
    exact (h.anc_iff b c hmem).1 (.up hbc hne.symm (.refl b))
  obtain ⟨order, bound, hrun, hnd, hmem, hbefore⟩ := preorder_spec h.tree h.kids h.isSome_iff
  refine ⟨bound, order, hrun, hnd, fun b => (hmem b).trans (h.mem_rpoOrder b), ?_⟩
  intro l₁ b l₂ hsplit a hab hne
  have hbmem : b ∈ dom.rpoOrder := (hmem b).1 (by rw [hsplit]; simp)
  exact hbefore l₁ b l₂ hsplit a ((h.anc_iff a b hbmem).2 hab) hne

/-- The parent of a block other than the entry is its closest strict dominator. -/
theorem DomTree.Shape.idom_closest (hb : f.Reachable b) (hne : b ≠ f.entry) :
    ∃ d, dom.idom b = some d ∧ d ≠ b ∧ Dominates f d b
      ∧ ∀ a, Dominates f a b → a ≠ b → Dominates f a d := by
  have hbmem := (h.mem_rpoOrder b).2 hb
  obtain ⟨d, hd⟩ := Option.isSome_iff_exists.1 ((h.isSome_iff b).2 hbmem)
  obtain ⟨hdsome, hdlt⟩ := h.tree.down b d hd hne
  have hdb : d ≠ b := by
    rintro rfl
    exact lt_irrefl _ hdlt
  refine ⟨d, hd, hdb, (h.anc_iff d b hbmem).1 (.up hd hdb (.refl d)), fun a hab hab' => ?_⟩
  cases (h.anc_iff a b hbmem).2 hab with
  | refl => exact absurd rfl hab'
  | up hc _ hanc =>
    cases hc.symm.trans hd
    exact (h.anc_iff a _ ((h.isSome_iff _).1 hdsome)).1 hanc

end

end

/-- **`DomTree::compute` ends with a tree that answers for the function.** -/
theorem compute_spec (hf : CfgConsistent f) : ∃ bound dom,
    (∀ fuel, bound ≤ fuel → DomTree.compute fuel f = some dom) ∧ DomTree.Ok f dom := by
  obtain ⟨bound, dom, hrun, hshape⟩ := compute_shape hf
  exact ⟨bound, dom, hrun, hshape.ok⟩

/-- **The dominator tree.**  The computation ends; on reachable blocks `dominates` is
dominance and `idom` the closest strict dominator, the entry being its own; an unreachable
block has no immediate dominator and stands in relation to itself only. -/
theorem compute_dominators (f : MachFunction) (hf : CfgConsistent f) : ∃ bound dom,
    (∀ fuel, bound ≤ fuel → DomTree.compute fuel f = some dom)
      ∧ (∀ a b, f.Reachable a → f.Reachable b → (dom.dominates a b = true ↔ Dominates f a b))
      ∧ dom.idom f.entry = some f.entry
      ∧ (∀ b, f.Reachable b → b ≠ f.entry → ∃ d, dom.idom b = some d ∧ d ≠ b ∧ Dominates f d b
        ∧ ∀ a, Dominates f a b → a ≠ b → Dominates f a d)
      ∧ ∀ b, ¬ f.Reachable b → dom.idom b = none
        ∧ ∀ a, (dom.dominates a b = true ↔ a = b) ∧ (dom.dominates b a = true ↔ a = b) := by
  obtain ⟨bound, dom, hrun, h⟩ := compute_shape hf
  refine ⟨bound, dom, hrun, fun a b _ hb => h.dominates_iff hb, h.tree.root,
    fun b hb hne => h.idom_closest hb hne, fun b hb => ⟨?_, fun a => ?_⟩⟩
  · rw [← Option.not_isSome_iff_eq_none, h.isSome_iff, h.mem_rpoOrder]
    exact hb
  have hnone := h.tin_eq_none hb
  have hswap : b = a ↔ a = b := eq_comm
  constructor <;> unfold DomTree.dominates <;> split <;> simp_all

/-- Two branches that join. -/
def diamond : MachFunction where
  insts := []
  blocks := [⟨[], [], [1, 2]⟩, ⟨[], [0], [3]⟩, ⟨[], [0], [3]⟩, ⟨[], [1, 2], []⟩]
  blockOrder := [0, 1, 2, 3]
  entry := 0

/-- Neither branch dominates the join, and its immediate dominator is the entry. -/
theorem compute_dominators_join : ∃ bound dom,
    (∀ fuel, bound ≤ fuel → DomTree.compute fuel diamond = some dom)
      ∧ dom.idom 3 = some 0 ∧ dom.dominates 0 3 = true
      ∧ ∀ b, b = 1 ∨ b = 2 → dom.dominates b 3 = false := by
  obtain ⟨bound, dom, hrun, hdom, -, hidom, -⟩ :=
    compute_dominators diamond (.of_listsAgree (by decide))
  have hreach : ∀ b, b = 1 ∨ b = 2 → diamond.Reachable b := by
    rintro b (rfl | rfl) <;> exact Flow.Reachable.refl.step (by decide)
  have h1 : Flow.Trail 0 diamond.Edge 3 [1, 0] := .step (.step .entry (by decide)) (by decide)
  have h2 : Flow.Trail 0 diamond.Edge 3 [2, 0] := .step (.step .entry (by decide)) (by decide)
  obtain ⟨d, hd, hne, hdominates, -⟩ := hidom 3 ⟨_, h1⟩ (by decide)
  -- `d` is on both ways to the join
  obtain rfl : d = 0 := by
    have hleft := hdominates _ h1
    have hright := hdominates _ h2
    simp only [mem_cons, not_mem_nil, or_false, exists_eq_right] at hleft hright
    rcases hleft with rfl | rfl | rfl
    · exact absurd rfl hne
    · exact absurd hright (by decide)
    · rfl
  refine ⟨bound, dom, hrun, hd, (hdom 0 3 .refl ⟨_, h1⟩).2 hdominates, fun b hb => ?_⟩
  rw [← Bool.not_eq_true, hdom b 3 (hreach b hb) ⟨_, h1⟩]
  rcases hb with rfl | rfl
  · exact (Dominators.not_dominates_iff (by decide)).2 ⟨_, h2, by decide⟩
  · exact (Dominators.not_dominates_iff (by decide)).2 ⟨_, h1, by decide⟩

/-- The tree that `DomTree::compute` returns for the function. -/
def Computed (f : MachFunction) (t : DomTree) : Prop :=
  ∃ bound, ∀ fuel, bound ≤ fuel → DomTree.compute fuel f = some t

theorem ok_of_computed {t : DomTree} (hcfg : CfgConsistent f) (h : Computed f t) :
    DomTree.Ok f t := by
  obtain ⟨k, hk⟩ := h
  obtain ⟨k', t', hk', hok⟩ := compute_spec hcfg
  have heq := (hk (max k k') (le_max_left _ _)).symm.trans (hk' (max k k') (le_max_right _ _))
  rwa [Option.some.inj heq]

end TrustCg.Opt
