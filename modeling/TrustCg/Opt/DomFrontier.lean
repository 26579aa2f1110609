import TrustCg.Lib.Outcome
import TrustCg.Opt.Dom

/-!
# Dominance frontiers

`compute_dominance_frontiers` of `dom.rs`: from every predecessor of a block with at least
two of them a runner goes up the tree to the block's immediate dominator.  The entry is its
own immediate dominator, so the runner never marks the entry, and a single edge back to the
entry is not looked at.

* `computeDominanceFrontiers_spec` : what the loops mark, in terms of chains.
* `dominanceFrontiers_iff` : the frontiers are right exactly if nothing goes back to the entry.
-/

namespace TrustCg.Opt

open Ir Dominators List
open RegAlloc (BlockId)

/-- The nodes the runner marks before it meets `stop` or a root. -/
def runner (idom : BlockId → Option BlockId) (stop : BlockId) : ℕ → BlockId → Option (List BlockId)
  | 0, _ => none
  | fuel + 1, b =>
    if b = stop then some []
    else if (idom b).getD b = b then some [b]
    else (runner idom stop fuel ((idom b).getD b)).map (b :: ·)

/-- `compute_dominance_frontiers`: the pairs of a block and a block of its frontier. -/
def computeDominanceFrontiers (fuel : ℕ) (idom : BlockId → Option BlockId) (f : MachFunction)
    (rpoOrder : List BlockId) : Option (List (BlockId × BlockId)) :=
  (rpoOrder.mapM fun block =>
    if (f.preds block).length < 2 then some []
    else ((f.preds block).mapM fun pred => (runner idom ((idom block).getD block) fuel pred).map
      (map (·, block))).map flatten).map flatten

/-- The runner marks the nodes of the chain below `stop`. -/
theorem runner_spec {entry stop b : BlockId} {num : ℕ → ℕ} {idom : BlockId → Option BlockId}
    (h : Tree entry num idom) (fuel : ℕ) (hfuel : num b < fuel) (hstop : Anc idom stop b) :
    ∃ l, (∀ fuel', fuel ≤ fuel' → runner idom stop fuel' b = some l)
      ∧ ∀ a, a ∈ l ↔ Anc idom a b ∧ ¬Anc idom a stop := by
  induction fuel generalizing b with
  | zero => exact absurd hfuel (Nat.not_lt_zero _)
  | succ fuel ih =>
    by_cases hb : b = stop
    · subst hb
      refine ⟨[], fun fuel' hle => ?_, by simp⟩
      obtain ⟨k, rfl⟩ := Nat.exists_eq_add_of_le' (Nat.one_le_of_lt hle)
      rw [runner, if_pos rfl]
    obtain ⟨c, hc, hcb, hanc⟩ := hstop.above (Ne.symm hb)
    obtain ⟨l, hl, hmem⟩ := ih (by have := (h.up hc hcb).2; omega) hanc
    refine ⟨b :: l, fun fuel' hle => ?_, fun a => ?_⟩
    · obtain ⟨k, rfl⟩ := Nat.exists_eq_add_of_le' (Nat.one_le_of_lt hle)
      rw [runner, if_neg hb, hc, Option.getD_some, if_neg hcb, hl k (by omega)]
      rfl
    rw [mem_cons, hmem]
    have hself : ¬Anc idom b stop := fun hbs =>
      absurd (h.num_lt hstop (Ne.symm hb)) (Nat.not_lt.2 (h.num_le hbs))
    constructor
    · rintro (rfl | ⟨hac, hnot⟩)
      · exact ⟨.refl a, hself⟩
      · exact ⟨.up hc hcb hac, hnot⟩
    · rintro ⟨hab, hnot⟩
      by_cases hne : a = b
      · exact .inl hne
      obtain ⟨c', hc', -, hac⟩ := hab.above hne
      cases hc.symm.trans hc'
      exact .inr ⟨hac, hnot⟩

/-- The loops mark what lies above a predecessor but not above the immediate dominator. -/
theorem computeDominanceFrontiers_spec {f : MachFunction} {entry : BlockId} {num : ℕ → ℕ}
    {idom : BlockId → Option BlockId} {rpoOrder : List BlockId} {bound : ℕ}
    (h : Tree entry num idom) (hmem : ∀ b, ∀ p ∈ f.preds b, b ∈ rpoOrder ∧ num p < bound)
    (hstop : ∀ b, ∀ p ∈ f.preds b, Anc idom ((idom b).getD b) p) :
    ∃ df, (∀ fuel, bound ≤ fuel → computeDominanceFrontiers fuel idom f rpoOrder = some df)
      ∧ ∀ a b, (a, b) ∈ df ↔ ¬(f.preds b).length < 2
        ∧ ∃ p ∈ f.preds b, Anc idom a p ∧ ¬Anc idom a ((idom b).getD b) := by
  have hrunner := fun b p hp => runner_spec h bound (hmem b p hp).2 (hstop b p hp)
  choose! marks hmarks hanc using hrunner
  have hmapM : ∀ {α β : Type} {round : α → Option β} {g : α → β} {l : List α},
      (∀ a ∈ l, round a = some (g a)) → l.mapM round = some (l.map g) := fun {_ _ _ _ l} hl => by
    simpa using Outcome.mapM_map_eq_some (g := id) l hl
  refine ⟨rpoOrder.flatMap fun b => if (f.preds b).length < 2 then []
    else (f.preds b).flatMap fun p => (marks b p).map (·, b), fun fuel hfuel => ?_, fun a b => ?_⟩
  · rw [computeDominanceFrontiers, hmapM fun b _ => ?_]
    · rfl
    split_ifs
    · rfl
    rw [hmapM fun p hp => by rw [hmarks b p hp fuel hfuel]; rfl]
    rfl
  rw [mem_flatMap]
  constructor
  · rintro ⟨c, -, hab⟩
    split_ifs at hab with hlen
    · simp at hab
    obtain ⟨p, hp, hab⟩ := mem_flatMap.1 hab
    obtain ⟨x, hx, heq⟩ := mem_map.1 hab
    cases heq
    exact ⟨hlen, p, hp, (hanc b p hp a).1 hx⟩
  · rintro ⟨hlen, p, hp, hap⟩
    refine ⟨b, (hmem b p hp).1, ?_⟩
    rw [if_neg hlen]
    exact mem_flatMap.2 ⟨p, hp, mem_map.2 ⟨a, (hanc b p hp a).2 hap, rfl⟩⟩

section

variable {f : MachFunction} {a b p : BlockId}

/-- What dominates the only predecessor of a block other than the entry strictly dominates
the block. -/
theorem Dominates.of_only_pred (hb : f.Reachable b) (hne : b ≠ f.entry)
    (honly : ∀ c, f.Edge c b → c = p) (h : Dominates f a p) : Dominates f a b ∧ a ≠ b := by
  constructor
  · intro trail ht
    cases ht with
    | entry => exact absurd rfl hne
    | step hc hcb =>
      cases honly _ hcb
      rcases h _ hc with heq | ⟨x, hx, hxa⟩
      · exact .inr ⟨_, .head _, heq⟩
      · exact .inr ⟨x, .tail _ hx, hxa⟩
  · rintro rfl
    obtain ⟨trail, ht, hnot⟩ := hb.exists_first
    cases ht with
    | entry => exact hne rfl
    | step hc hcb =>
      cases honly _ hcb
      rcases h _ hc with rfl | ⟨x, hx, rfl⟩
      · exact hnot (.head _)
      · exact hnot (.tail _ hx)

end

/-- **The dominance frontiers are right exactly if no edge goes back to the entry.** -/
theorem dominanceFrontiers_iff (f : MachFunction) (hentry : f.entry < f.blocks.length)
    (hinv : ∀ a b, a ∈ f.preds b ↔ f.Edge a b) (hreach : ∀ b < f.blocks.length, f.Reachable b) :
    ∃ bound dom df, (∀ fuel, bound ≤ fuel → DomTree.compute fuel f = some dom
        ∧ computeDominanceFrontiers fuel dom.idom f dom.rpoOrder = some df)
      ∧ ((∀ a b, (a, b) ∈ df ↔ (∃ p ∈ f.preds b, Dominates f a p) ∧ ¬(Dominates f a b ∧ a ≠ b))
        ↔ f.preds f.entry = []) := by
  have hlt : ∀ a b, f.Edge a b → a < f.blocks.length ∧ b < f.blocks.length := by
    intro a b hab
    have hmem := (hinv a b).2 hab
    constructor <;> by_contra hge
    · simp [MachFunction.Edge, MachFunction.succs_of_ge (Nat.le_of_not_lt hge)] at hab
    · simp [MachFunction.preds, getElem?_eq_none (Nat.le_of_not_lt hge)] at hmem
  obtain ⟨bound, dom, hrun, h⟩ := compute_shape
    ⟨hentry, fun a b hab => (hlt a b hab).2, fun a b _ _ => hinv a b⟩
  have hmem : ∀ {p b}, p ∈ f.preds b → p ∈ dom.rpoOrder ∧ b ∈ dom.rpoOrder := by
    intro p b hp
    obtain ⟨hp, hb⟩ := hlt p b ((hinv p b).1 hp)
    exact ⟨(h.mem_rpoOrder p).2 (hreach p hp), (h.mem_rpoOrder b).2 (hreach b hb)⟩
  have hstop : ∀ b, ∀ p ∈ f.preds b, Anc dom.idom ((dom.idom b).getD b) p := by
    intro b p hp
    by_cases hb : b = f.entry
    · rw [hb, h.tree.root]
      exact h.tree.anc_entry ((h.isSome_iff p).2 (hmem hp).1)
    obtain ⟨d, hd, hdb, hdom, -⟩ := h.idom_closest ((h.mem_rpoOrder b).1 (hmem hp).2) hb
    have hpass : Flow.MustPass f.entry f.Edge (fun c => c = d) b := hdom
    rw [hd]
    exact (h.anc_iff d p (hmem hp).1).2 (hpass.pred (Ne.symm hdb) ((hinv p b).1 hp))
  obtain ⟨df, hdfrun, hdf⟩ := computeDominanceFrontiers_spec h.tree
    (fun b p hp => ⟨(hmem hp).2, Nat.lt_succ_of_le idxOf_le_length⟩) hstop
  refine ⟨max bound (dom.rpoOrder.length + 1), dom, df,
    fun fuel hfuel => ⟨hrun fuel (by omega), hdfrun fuel (by omega)⟩, ?_⟩
  constructor
  · intro hall
    by_contra hne
    obtain ⟨p, hp⟩ := exists_mem_of_ne_nil _ hne
    have hdom := (h.anc_iff _ p (hmem hp).1).1
      (h.tree.anc_entry ((h.isSome_iff p).2 (hmem hp).1))
    obtain ⟨-, q, -, -, hnot⟩ := (hdf _ _).1
      ((hall _ f.entry).2 ⟨⟨p, hp, hdom⟩, fun hs => hs.2 rfl⟩)
    rw [h.tree.root] at hnot
    exact hnot (.refl _)
  · intro hno a b
    have hidom : ∀ {p}, p ∈ f.preds b → f.Reachable b ∧ b ≠ f.entry := by
      refine fun {p} hp => ⟨(h.mem_rpoOrder b).1 (hmem hp).2, ?_⟩
      rintro rfl
      simp [hno] at hp
    rw [hdf]
    constructor
    · rintro ⟨-, p, hp, hap, hnot⟩
      obtain ⟨d, hd, -, -, hclosest⟩ := h.idom_closest (hidom hp).1 (hidom hp).2
      have hdmem := (h.isSome_iff d).1 (h.tree.down b d hd (hidom hp).2).1
      rw [hd] at hnot
      exact ⟨⟨p, hp, (h.anc_iff a p (hmem hp).1).1 hap⟩,
        fun hs => hnot ((h.anc_iff a d hdmem).2 (hclosest a hs.1 hs.2))⟩
    · rintro ⟨⟨p, hp, hap⟩, hnot⟩
      obtain ⟨d, hd, -, hdom, -⟩ := h.idom_closest (hidom hp).1 (hidom hp).2
      obtain ⟨hdsome, hdlt⟩ := h.tree.down b d hd (hidom hp).2
      refine ⟨fun hlen => hnot ?_, p, hp, (h.anc_iff a p (hmem hp).1).2 hap, ?_⟩
      · refine Dominates.of_only_pred (hidom hp).1 (hidom hp).2 (fun c hc => ?_) hap
        have hpos := length_pos_of_mem hp
        obtain ⟨x, hx⟩ := length_eq_one_iff.1 (show (f.preds b).length = 1 by omega)
        rw [← hinv, hx, mem_singleton] at hc
        rw [hx, mem_singleton] at hp
        exact hc.trans hp.symm
      rw [hd]
      intro had
      refine hnot ⟨((h.anc_iff a d ((h.isSome_iff d).1 hdsome)).1 had).trans hdom, ?_⟩
      rintro rfl
      exact absurd hdlt (Nat.not_lt.2 (h.tree.num_le had))

/-- A block that goes back to itself. -/
def selfLoop : MachFunction := ⟨[], [⟨[], [0], [0]⟩], [0], 0⟩

theorem selfLoop_edge (a b : BlockId) : a ∈ selfLoop.preds b ↔ selfLoop.Edge a b := by
  rcases a with _ | a <;> rcases b with _ | b <;>
    simp [selfLoop, MachFunction.preds, MachFunction.Edge, MachFunction.succs]

theorem selfLoop_reachable : ∀ b < selfLoop.blocks.length, selfLoop.Reachable b := by
  intro b hb
  cases Nat.lt_one_iff.1 hb
  exact .refl

/-- **The entry is missing from its own frontier.** -/
theorem dominanceFrontiers_selfLoop : ∃ dom df, DomTree.compute 9 selfLoop = some dom
    ∧ computeDominanceFrontiers 9 dom.idom selfLoop dom.rpoOrder = some df
    ∧ (∀ a b, a ∈ selfLoop.preds b ↔ selfLoop.Edge a b)
    ∧ (∀ b < selfLoop.blocks.length, selfLoop.Reachable b)
    ∧ ¬((0, 0) ∈ df ↔ (∃ p ∈ selfLoop.preds 0, Dominates selfLoop 0 p)
      ∧ ¬(Dominates selfLoop 0 0 ∧ 0 ≠ 0)) := by
  refine ⟨_, [], rfl, by decide, selfLoop_edge, selfLoop_reachable, fun hiff => ?_⟩
  have hmem := hiff.2 ⟨⟨0, by decide, Dominators.Dominates.refl _ _ 0⟩, by simp⟩
  simp at hmem

theorem dominanceFrontiers_iff_selfLoop : ∃ bound df, ∃ dom : DomTree, ∀ fuel, bound ≤ fuel →
    computeDominanceFrontiers fuel dom.idom selfLoop dom.rpoOrder = some df := by
  obtain ⟨bound, dom, df, hrun, -⟩ := dominanceFrontiers_iff selfLoop (by decide) selfLoop_edge
    selfLoop_reachable
  exact ⟨bound, df, dom, fun fuel hfuel => (hrun fuel hfuel).2⟩

end TrustCg.Opt
