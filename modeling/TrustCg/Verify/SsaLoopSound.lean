import TrustCg.Lib.AssocList
import TrustCg.Verify.SsaLoop

/-!
# What the check of SSA form guarantees

* `Reaches` : the blocks an execution enters, with the values that are defined by then.
* `Runs` : every read of a block sees a defined value; its edges have targets and fit them.
* `compute_settled` : the table of dominators at the end of its passes.  Soundness needs
  no more than this: an entry lies on the chains of all predecessors in the table.
* `checkFunction_runs` : an accepted function without invokes runs so everywhere.
* `checkFunction_misses_read` : behind an invoke nothing is compared, since
  `block_successors` does not list the edges that `terminator_edges` has for it.
-/

namespace TrustCg.Verify.SsaLoop

open TrustCg.Dominators (Anc)
open Search (EdgeIn)
open List
open Option (bind_eq_bind bind_eq_some_iff)
open Prod (fst)

variable {τ : Type}

/-! ## Executions -/

/-- The results of the first `n` instructions. -/
def Block.results (b : Block τ) (n : ℕ) : List ValueId :=
  (b.body.take n).flatMap InstrNode.results

/-- Everything a block defines. -/
def Block.defs (b : Block τ) : List ValueId := b.params.map fst ++ b.results b.body.length

/-- The edges out of a block, with the number of instructions that have their results when
the edge is taken.  An invoke has none when it unwinds. -/
def Block.exits (b : Block τ) : List ((BlockId × List ValueId) × ℕ) :=
  match b.body.getLast? with
  | some ⟨.invoke _ normalDest normalArgs unwindDest, _⟩ =>
    [((normalDest, normalArgs), b.body.length), ((unwindDest, []), b.body.length - 1)]
  | _ => (terminatorEdges b).map fun e => (e, b.body.length)

/-- An execution enters the block with these values defined; the arguments of an edge
bind the parameters of its target in order. -/
inductive Reaches (f : Function τ) : Block τ → Set ValueId → Prop
  /-- execution starts at the entry, with the arguments of the function -/
  | entry {b : Block τ} : f.block f.entry = some b → Reaches f b {v | v ∈ b.params.map fst}
  /-- an edge is taken -/
  | step {b target : Block τ} {D : Set ValueId} {exit : (BlockId × List ValueId) × ℕ} :
      Reaches f b D → exit ∈ b.exits → f.block exit.1.1 = some target →
      Reaches f target (D ∪ {v | v ∈ b.results exit.2} ∪
        {v | v ∈ (target.params.map fst).take exit.1.2.length})

/-- A block entered with `D` defined runs to its end and along any of its edges. -/
structure Runs (f : Function τ) (b : Block τ) (D : Set ValueId) : Prop where
  reads : ∀ i node, b.body[i]? = some node → ∀ v ∈ nonTerminatorValueUses node.inst,
    v ∈ D ∨ v ∈ b.results i
  targets : ∀ exit ∈ b.exits, ∃ target, f.block exit.1.1 = some target ∧
    target.params.length = exit.1.2.length
  args : ∀ exit ∈ b.exits, ∀ v ∈ exit.1.2, v ∈ D ∨ v ∈ b.results exit.2

/-- The block ends in an invoke. -/
def Block.endsInInvoke (b : Block τ) : Bool :=
  match b.body.getLast? with
  | some ⟨.invoke _ _ _ _, _⟩ => true
  | _ => false

variable {b : Block τ}

theorem mem_exits (h : b.endsInInvoke = false) {exit : (BlockId × List ValueId) × ℕ}
    (hexit : exit ∈ b.exits) : exit.1 ∈ terminatorEdges b ∧ exit.2 = b.body.length := by
  unfold Block.exits at hexit
  split at hexit
  next hlast => simp [Block.endsInInvoke, hlast] at h
  obtain ⟨e, he, rfl⟩ := mem_map.1 hexit
  exact ⟨he, rfl⟩

theorem mem_successors (h : b.endsInInvoke = false) {e : BlockId × List ValueId}
    (he : e ∈ terminatorEdges b) : e.1 ∈ blockSuccessors b := by
  unfold terminatorEdges at he
  unfold blockSuccessors
  unfold Block.endsInInvoke at h
  cases hlast : b.body.getLast? with
  | none => simp [hlast] at he
  | some last =>
    obtain ⟨inst, results⟩ := last
    rw [hlast] at he h
    cases inst with
    | br => simp_all
    | condBr => simp at he ⊢; rcases he with rfl | rfl <;> simp
    | switch value default defaultArgs cases =>
      simp only [mem_cons, mem_map] at he ⊢
      rcases he with rfl | ⟨c, hc, rfl⟩
      · exact .inl rfl
      · exact .inr ⟨c, hc, rfl⟩
    | invoke => cases h
    | op | ret | unreachable | coroSuspend | resume => simp at he

/-! ## Chains of the table -/

variable {idom : Idom} {fuel : ℕ}

section Table

variable {num : BlockId → ℕ} {st st' : Idom × Bool} {b a : BlockId} {order preds : List BlockId}
    {cur : Option BlockId}

theorem meetPred_cases {p : BlockId} {next : Option BlockId}
    (h : meetPred fuel idom num cur p = some next) : (¬ (idom p).isSome ∧ next = cur) ∨
      ∃ d, next = some d ∧ Anc idom d p ∧ ∀ c, cur = some c → Anc idom d c := by
  unfold meetPred at h
  split_ifs at h with hp
  · right
    cases cur with
    | none => exact ⟨p, (Option.some.inj h).symm, .refl p, nofun⟩
    | some c =>
      obtain ⟨d, hd, rfl⟩ := Option.map_eq_some_iff.1 h
      obtain ⟨hdc, hdp⟩ := TrustCg.Dominators.intersect_anc hd
      exact ⟨d, rfl, hdp, fun c' hc => Option.some.inj hc ▸ hdc⟩
  · exact .inl ⟨hp, (Option.some.inj h).symm⟩

theorem meet_anc {meet : Option BlockId}
    (h : preds.foldlM (meetPred fuel idom num) cur = some meet) :
    (∀ c, cur = some c → ∃ w, meet = some w ∧ Anc idom w c) ∧
      ∀ p ∈ preds, (idom p).isSome → ∃ w, meet = some w ∧ Anc idom w p := by
  induction preds generalizing cur with
  | nil =>
    cases h
    exact ⟨fun c hc => ⟨c, hc, .refl c⟩, by simp⟩
  | cons p preds ih =>
    rw [foldlM_cons, bind_eq_bind, bind_eq_some_iff] at h
    obtain ⟨next, hnext, hrest⟩ := h
    obtain ⟨hcur, hpreds⟩ := ih hrest
    rcases meetPred_cases hnext with ⟨hp, rfl⟩ | ⟨d, rfl, hdp, hdc⟩
    · exact ⟨hcur, forall_mem_cons.2 ⟨fun h => absurd h hp, hpreds⟩⟩
    obtain ⟨w, rfl, hwd⟩ := hcur d rfl
    exact ⟨fun c hc => ⟨w, rfl, hwd.trans (hdc c hc)⟩,
      forall_mem_cons.2 ⟨fun _ => ⟨w, rfl, hwd.trans hdp⟩, hpreds⟩⟩

variable {cfg : Cfg}

theorem relaxBlock_cases
    (h : relaxBlock fuel cfg num st b = some st') :
    ∃ meet, (cfg.pred b).foldlM (meetPred fuel st.1 num) none = some meet ∧
      ((st' = st ∧ ∀ w, meet = some w → st.1 b = some w) ∨
        ∃ w, st' = (Function.update st.1 b (some w), true)) := by
  rw [relaxBlock, bind_eq_bind, bind_eq_some_iff] at h
  obtain ⟨meet, hmeet, h⟩ := h
  refine ⟨meet, hmeet, ?_⟩
  cases meet with
  | none => exact .inl ⟨(Option.some.inj h).symm, nofun⟩
  | some w =>
    dsimp only at h
    split_ifs at h with hw
    · exact .inl ⟨(Option.some.inj h).symm, fun w' hw' => hw.trans hw'⟩
    · exact .inr ⟨w, (Option.some.inj h).symm⟩

theorem pass_frame {c : BlockId} (hc : c ∉ order)
    (h : order.foldlM (relaxBlock fuel cfg num) st = some st') : st'.1 c = st.1 c := by
  induction order generalizing st st' with
  | nil => rw [Option.some.inj h]
  | cons b order ih =>
    rw [foldlM_cons, bind_eq_bind, bind_eq_some_iff] at h
    obtain ⟨mid, hmid, hrest⟩ := h
    rw [ih (not_mem_of_not_mem_cons hc) hrest]
    obtain ⟨-, -, ⟨rfl, -⟩ | ⟨w, rfl⟩⟩ := relaxBlock_cases hmid
    · rfl
    · exact Function.update_of_ne (ne_of_not_mem_cons hc) _ _

theorem pass_settled
    (h : order.foldlM (relaxBlock fuel cfg num) st = some st') (hflag : st'.2 = false) :
    st' = st ∧ ∀ b ∈ order, ∃ meet, (cfg.pred b).foldlM (meetPred fuel st.1 num) none = some meet ∧
        ∀ w, meet = some w → st.1 b = some w := by
  induction order generalizing st st' with
  | nil => exact ⟨(Option.some.inj h).symm, by simp⟩
  | cons b order ih =>
    rw [foldlM_cons, bind_eq_bind, bind_eq_some_iff] at h
    obtain ⟨mid, hmid, hrest⟩ := h
    obtain ⟨rfl, hsettled⟩ := ih hrest hflag
    obtain ⟨meet, hmeet, ⟨rfl, hb⟩ | ⟨w, rfl⟩⟩ := relaxBlock_cases hmid
    · exact ⟨rfl, forall_mem_cons.2 ⟨⟨meet, hmeet, hb⟩, hsettled⟩⟩
    · cases hflag

theorem idomPasses_settled {fuel : ℕ} {start idom : Idom}
    (h : idomPasses cfg num order fuel start = some idom) :
    (∀ c ∉ order, idom c = start c) ∧ ∃ fuel, ∀ b ∈ order, ∃ meet,
      (cfg.pred b).foldlM (meetPred fuel idom num) none = some meet ∧
        ∀ w, meet = some w → idom b = some w := by
  induction fuel generalizing start idom with
  | zero => cases h
  | succ fuel ih =>
    rw [idomPasses, bind_eq_bind, bind_eq_some_iff] at h
    obtain ⟨st, hpass, h⟩ := h
    cases hflag : st.2 with
    | true =>
      rw [hflag, if_pos rfl] at h
      obtain ⟨hframe, hsettled⟩ := ih h
      exact ⟨fun c hc => (hframe c hc).trans (pass_frame hc hpass), hsettled⟩
    | false =>
      rw [hflag, if_neg Bool.false_ne_true] at h
      obtain ⟨rfl, hsettled⟩ := pass_settled hpass hflag
      cases h
      exact ⟨fun _ _ => rfl, fuel, hsettled⟩

/-- The blocks the walk of the graph can reach. -/
def Cfg.Reachable (cfg : Cfg) : BlockId → Prop :=
  Flow.Reachable cfg.entry (EdgeIn cfg.idBound cfg.succ)

/-- The walk starts with the entry and lists every reachable block. -/
theorem reversePostorder_spec {rpo : List BlockId} (h : cfg.reversePostorder fuel = some rpo) :
    cfg.entry ∉ rpo.drop 1 ∧ ∀ b, cfg.Reachable b → b = cfg.entry ∨ b ∈ rpo.drop 1 := by
  rw [Cfg.reversePostorder, Option.map_eq_some_iff] at h
  obtain ⟨t', hrun, rfl⟩ := h
  obtain ⟨t, bound, hall, hmem, hnodup, hlater⟩ :=
    Search.postOrder_spec cfg.idBound cfg.succ cfg.entry
  have ht : t' = t := Option.some.inj
    ((Loop.run_mono _ _ _ _ (le_max_left fuel bound) hrun).symm.trans (hall _ (le_max_right _ _)))
  subst ht
  have hentry : cfg.entry ∈ t'.postorder := (hmem _).2 .refl
  obtain ⟨done, last, hsplit⟩ : ∃ done last, t'.postorder = done ++ [last] :=
    ⟨_, _, (dropLast_append_getLast (ne_nil_of_mem hentry)).symm⟩
  -- a block that is not the entry is entered from a later one
  have hlast : last = cfg.entry := by
    by_contra hne
    obtain ⟨a, ha, -⟩ := hlater done last [] hsplit hne
    cases ha
  subst hlast
  rw [hsplit] at hnodup hmem ⊢
  have hdrop : (done ++ [cfg.entry]).reverse.drop 1 = done.reverse := by simp
  rw [hdrop]
  refine ⟨fun hin => ?_, fun b hb => ?_⟩
  · exact (nodup_append.1 hnodup).2.2 _ (mem_reverse.1 hin) _ (by simp) rfl
  rcases mem_append.1 ((hmem b).2 hb) with hin | hin
  · exact .inr (mem_reverse.2 hin)
  · exact .inl (mem_singleton.1 hin)

/-- What the finished table satisfies. -/
structure Settled (cfg : Cfg) (idom : Idom) : Prop where
  root : idom cfg.entry = some cfg.entry
  below : ∀ b p, cfg.Reachable b → b ≠ cfg.entry → p ∈ cfg.pred b → (idom p).isSome →
    ∃ w, idom b = some w ∧ Anc idom w p

/-- **The table is settled when the passes end.** -/
theorem compute_settled (h : Dominators.compute fuel cfg = some idom) : Settled cfg idom := by
  rw [Dominators.compute, bind_eq_bind, bind_eq_some_iff] at h
  obtain ⟨rpo, hrpo, h⟩ := h
  obtain ⟨hentry, hall⟩ := reversePostorder_spec hrpo
  obtain ⟨hframe, fuel', hsettled⟩ := idomPasses_settled h
  refine ⟨?_, fun b p hb hne hp hsome => ?_⟩
  · rw [hframe _ hentry, Function.update_self]
  obtain ⟨meet, hmeet, hw⟩ := hsettled b ((hall b hb).resolve_left hne)
  obtain ⟨w, rfl, hanc⟩ := (meet_anc hmeet).2 p hp hsome
  exact ⟨w, hw w rfl, hanc⟩

/-- The climb of `dominates` stays on the chain. -/
theorem climbStep_anc (st st' : BlockId × Option Bool)
    (hi : Anc idom st.1 b ∧ (st.2 = some true → Anc idom a b))
    (h : climbStep idom a st = some st') :
    Anc idom st'.1 b ∧ (st'.2 = some true → Anc idom a b) := by
  unfold climbStep at h
  split at h
  · cases h
  have hup := (TrustCg.Dominators.anc_getD st.1).trans hi.1
  dsimp only at h
  split_ifs at h with hstay hnext <;> cases h
  · exact ⟨hi.1, nofun⟩
  · exact ⟨hi.1, fun _ => hnext ▸ hup⟩
  · exact ⟨hup, nofun⟩

theorem dominates_anc (h : Idom.dominates fuel idom a b = some true) : Anc idom a b := by
  unfold Idom.dominates at h
  by_cases hab : a = b
  · subst hab
    exact .refl a
  rw [if_neg hab] at h
  split at h
  · cases h
  obtain ⟨st, hrun, hst⟩ := Option.map_eq_some_iff.1 h
  obtain ⟨⟨-, hfound⟩, -⟩ :=
    Loop.run_invariant climbStep_anc fuel (b, none) st ⟨.refl b, nofun⟩ hrun
  apply hfound
  cases hs : st.2 with
  | none => simp [hs] at hst
  | some found => simpa [hs] using hst

end Table

/-! ## Edges of the function -/

variable {f : Function τ} {b : Block τ}

section Checks

variable {s : BlockId} {v : ValueId} {useIndex : UseIndex}

theorem mem_blocks_of_block {id : BlockId} (h : f.block id = some b) :
    b ∈ f.blocks ∧ b.id = id := by
  refine ⟨mem_of_find?_eq_some h, ?_⟩
  simpa using find?_some h

section

variable (hb : b ∈ f.blocks) (hs : s ∈ blockSuccessors b)
include hb hs

theorem mem_pred : b.id ∈ (Cfg.ofFunction f).pred s := by
  simp only [Cfg.ofFunction, mem_flatMap, mem_map, mem_filter]
  exact ⟨b, hb, s, ⟨hs, by simp⟩, rfl⟩

theorem mem_succ : s ∈ (Cfg.ofFunction f).succ b.id := by
  simp only [Cfg.ofFunction, mem_flatMap, mem_filter]
  exact ⟨b, ⟨hb, by simp⟩, hs⟩

theorem edgeIn_of_mem : EdgeIn (Cfg.ofFunction f).idBound (Cfg.ofFunction f).succ b.id s := by
  refine ⟨mem_succ hb hs, Nat.lt_succ_of_le (le_max_of_le' 0 ?_ le_rfl)⟩
  refine .tail _ (mem_flatMap.2 ⟨b.id, mem_map.2 ⟨b, hb, rfl⟩, ?_⟩)
  exact .tail _ (mem_succ hb hs)

end

/-! ## Uses -/

theorem mem_of_lastEntry {α : Type} {entries : List (ℕ × α)} {k : ℕ} {a : α}
    (h : lastEntry entries k = some a) : (k, a) ∈ entries := by
  obtain ⟨l1, l2, hsplit, -⟩ := lookup_eq_some_iff.1 h
  rw [← mem_reverse, hsplit]
  simp

/-- With distinct names the parameters that are looked up are those of the block. -/
theorem lastEntry_params (hids : (f.blocks.map Block.id).Nodup) (hb : b ∈ f.blocks) :
    lastEntry (f.blocks.map fun b => (b.id, b.params.map fst)) b.id
      = some (b.params.map fst) := by
  rw [lastEntry, AssocList.lookup_eq_some_iff]
  · exact mem_reverse.2 (mem_map.2 ⟨b, hb, rfl⟩)
  rw [map_reverse, nodup_reverse, map_map]
  exact hids

theorem mem_collectDefs {site : DefSite} (h : (v, site) ∈ collectDefs f) :
    ∃ a ∈ f.blocks, a.id = site.block ∧ v ∈ a.defs ∧
      (site.instIndex = none → v ∈ a.params.map fst) ∧
      ∀ i, site.instIndex = some i → i < a.body.length ∧ ∀ n, i < n → v ∈ a.results n := by
  obtain ⟨a, ha, h⟩ := mem_flatMap.1 h
  rcases mem_append.1 h with hparam | hresult
  · obtain ⟨p, hp, heq⟩ := mem_map.1 hparam
    cases heq
    have hmem : p.1 ∈ a.params.map fst := mem_map.2 ⟨p, hp, rfl⟩
    exact ⟨a, ha, rfl, mem_append_left _ hmem, fun _ => hmem, nofun⟩
  obtain ⟨⟨node, i⟩, hnode, hresult⟩ := mem_flatMap.1 hresult
  obtain ⟨r, hr, heq⟩ := mem_map.1 hresult
  obtain ⟨rfl, rfl⟩ := Prod.mk.inj heq
  obtain ⟨hlt, hget⟩ := List.getElem?_eq_some_iff.1 (List.mk_mem_zipIdx_iff_getElem?.1 hnode)
  have hmem : ∀ n, i < n → r ∈ a.results n := by
    intro n hn
    refine mem_flatMap.2 ⟨node, ?_, hr⟩
    rw [mem_take_iff_getElem]
    exact ⟨i, by omega, hget⟩
  refine ⟨a, ha, rfl, mem_append_right _ (hmem _ hlt), nofun, ?_⟩
  intro j hj
  rw [← Option.some.inj hj]
  exact ⟨hlt, hmem⟩

theorem mem_of_definedBefore {instIndex : Option ℕ}
    (hparam : instIndex = none → v ∈ b.params.map fst)
    (hresult : ∀ i, instIndex = some i → i < b.body.length ∧ ∀ n, i < n → v ∈ b.results n)
    (h : definedBefore instIndex useIndex = true) :
    v ∈ b.params.map fst ∨ v ∈ b.results (useIndex.getD b.body.length) := by
  cases instIndex with
  | none => exact .inl (hparam rfl)
  | some d =>
    obtain ⟨hlt, hmem⟩ := hresult d rfl
    cases useIndex with
    | none => exact .inr (hmem _ hlt)
    | some u => exact .inr (hmem u (by simpa [definedBefore] using h))

variable (hids : (f.blocks.map Block.id).Nodup)
include hids

/-- **What an accepted use means**: the value is defined before it in its block, or in a
block above it in the table. -/
theorem checkOneUse_nil (hb : b ∈ f.blocks) (hsome : (idom b.id).isSome) {context : String}
    (h : checkOneUse fuel f idom v b.id useIndex context = some []) :
    (v ∈ b.params.map fst ∨ v ∈ b.results (useIndex.getD b.body.length)) ∨
      ∃ a ∈ f.blocks, Anc idom a.id b.id ∧ a.id ≠ b.id ∧ v ∈ a.defs := by
  unfold checkOneUse at h
  rw [lastEntry_params hids hb] at h
  dsimp only [Option.getD_some] at h
  by_cases hparam : (b.params.map fst).contains v
  · exact .inl (.inl (contains_iff_mem.1 hparam))
  rw [if_neg hparam] at h
  cases hsite : lastEntry (collectDefs f) v with
  | none => simp [hsite] at h
  | some site =>
    obtain ⟨a, ha, hid, hdef, hnone, hat⟩ := mem_collectDefs (mem_of_lastEntry hsite)
    rw [hsite] at h
    dsimp only at h
    rw [if_neg (by simpa using Option.isSome_iff_ne_none.1 hsome)] at h
    by_cases hsame : site.block = b.id
    · obtain rfl := inj_on_of_nodup_map hids ha hb (hid.trans hsame)
      rw [if_pos hsame] at h
      refine .inl (mem_of_definedBefore hnone hat ?_)
      by_contra hno
      simp [hno] at h
    rw [if_neg hsame, bind_eq_bind, bind_eq_some_iff] at h
    obtain ⟨dominates, hdom, hnil⟩ := h
    cases dominates with
    | false => cases hnil
    | true =>
      rw [← hid] at hdom hsame
      exact .inr ⟨a, ha, dominates_anc hdom, hsame, hdef⟩

omit hids

/-! ## Blocks -/

theorem mapM_flatten_nil {α β : Type} {g : α → Option (List β)} {l : List α} {rs : List (List β)}
    (h : l.mapM g = some rs) (hnil : rs.flatten = []) : ∀ a ∈ l, g a = some [] := by
  induction l generalizing rs with
  | nil => intro a ha; cases ha
  | cons a l ih =>
    simp only [mapM_cons, bind_eq_bind, bind_eq_some_iff,
      Option.pure_def, Option.some.injEq] at h
    obtain ⟨r, hr, rest, hrest, rfl⟩ := h
    rw [flatten_cons, append_eq_nil_iff] at hnil
    exact forall_mem_cons.2 ⟨hr.trans (congrArg some hnil.1), ih hrest hnil.2⟩

variable [DecidableEq τ]

theorem checkBlock_nil (h : checkBlock fuel f idom b = some []) :
    (∀ i node, b.body[i]? = some node → ∀ v ∈ nonTerminatorValueUses node.inst,
      checkOneUse fuel f idom v b.id (some i) "instruction operand" = some []) ∧
    ∀ e ∈ terminatorEdges b, (∃ target, f.block e.1 = some target ∧
      target.params.length = e.2.length) ∧
      ∀ v ∈ e.2, checkOneUse fuel f idom v b.id none "branch argument" = some [] := by
  simp only [checkBlock, bind_eq_bind, bind_eq_some_iff, Option.some.injEq,
    append_eq_nil_iff] at h
  obtain ⟨uses, huses, edges, hedges, hnil, hnil'⟩ := h
  refine ⟨fun i node hnode v hv => ?_, fun e he => ?_⟩
  · have hcheck := mapM_flatten_nil huses hnil _ (mk_mem_zipIdx_iff_getElem?.2 hnode)
    simp only [checkNodeUses, bind_eq_bind, bind_eq_some_iff,
      Option.some.injEq] at hcheck
    obtain ⟨found, hfound, hempty⟩ := hcheck
    exact mapM_flatten_nil hfound hempty v hv
  have hcheck := mapM_flatten_nil hedges hnil' e he
  unfold checkEdgeUses at hcheck
  cases htarget : f.block e.1 with
  | none => simp [htarget] at hcheck
  | some target =>
    simp only [htarget, bind_eq_bind, bind_eq_some_iff, Option.some.injEq,
      append_eq_nil_iff] at hcheck
    obtain ⟨found, hfound, hedge, hempty⟩ := hcheck
    refine ⟨⟨target, rfl, ?_⟩, mapM_flatten_nil hfound hempty⟩
    by_contra hne
    rw [checkEdge, if_pos hne] at hedge
    cases hedge

theorem checkFunction_ok {isTerminator : Inst τ → Bool}
    (h : checkFunction isTerminator fuel f = some (.ok ())) :
    ∃ idom, Settled (Cfg.ofFunction f) idom ∧
      ∀ b ∈ f.blocks, checkBlock fuel f idom b = some [] := by
  have hfinish : ∀ violations : List (SsaViolation τ), finish violations = .ok () →
      violations = [] := by
    intro violations hok
    unfold finish at hok
    split at hok
    next hempty => exact isEmpty_iff.1 hempty
    · cases hok
  unfold checkFunction at h
  by_cases hmalformed : (checkBlockStructure isTerminator f).isEmpty
  · simp only [if_pos hmalformed, bind_eq_bind, bind_eq_some_iff,
      Option.some.injEq] at h
    obtain ⟨idom, hidom, ssa, hssa, loops, -, hok⟩ := h
    simp only [checkSsa, bind_eq_bind, bind_eq_some_iff, Option.some.injEq] at hssa
    obtain ⟨found, hfound, rfl⟩ := hssa
    have hnil := (append_eq_nil_iff.1 (hfinish _ hok)).1
    exact ⟨idom, compute_settled hidom, mapM_flatten_nil hfound hnil⟩
  rw [if_neg hmalformed, Option.some.injEq] at h
  exact absurd (isEmpty_iff.2 (hfinish _ h)) hmalformed

end Checks

/-! ## Executions of an accepted function -/

section Accepted

variable {D : Set ValueId}

/-- What holds when an execution enters a block: the blocks above it have run. -/
structure Entered (f : Function τ) (idom : Idom) (b : Block τ) (D : Set ValueId) : Prop where
  mem : b ∈ f.blocks
  reachable : (Cfg.ofFunction f).Reachable b.id
  tabled : (idom b.id).isSome
  params : ∀ v ∈ b.params.map fst, v ∈ D
  above : ∀ a ∈ f.blocks, Anc idom a.id b.id → a.id ≠ b.id → ∀ v ∈ a.defs, v ∈ D

variable [DecidableEq τ] (hids : (f.blocks.map Block.id).Nodup)
    (hinvoke : ∀ b ∈ f.blocks, b.endsInInvoke = false)
    (hchecks : ∀ b ∈ f.blocks, checkBlock fuel f idom b = some [])
include hids hinvoke hchecks

theorem Entered.runs (h : Entered f idom b D) : Runs f b D := by
  obtain ⟨huses, hedges⟩ := checkBlock_nil (hchecks b h.mem)
  -- an accepted use is a defined value
  have hdefined : ∀ {v useIndex context},
      checkOneUse fuel f idom v b.id useIndex context = some [] →
        v ∈ D ∨ v ∈ b.results (useIndex.getD b.body.length) := by
    intro v useIndex context hcheck
    rcases checkOneUse_nil hids h.mem h.tabled hcheck with (hp | hr) | ⟨a, ha, hanc, hne, hv⟩
    · exact .inl (h.params v hp)
    · exact .inr hr
    · exact .inl (h.above a ha hanc hne v hv)
  refine ⟨fun i node hnode v hv => hdefined (huses i node hnode v hv), fun exit hexit =>
    (hedges _ (mem_exits (hinvoke b h.mem) hexit).1).1, fun exit hexit v hv => ?_⟩
  obtain ⟨he, hall⟩ := mem_exits (hinvoke b h.mem) hexit
  rw [hall]
  exact hdefined ((hedges _ he).2 v hv)

theorem Entered.step (hsettled : Settled (Cfg.ofFunction f) idom) (h : Entered f idom b D)
    {target : Block τ} {exit : (BlockId × List ValueId) × ℕ} (hexit : exit ∈ b.exits)
    (htarget : f.block exit.1.1 = some target) :
    Entered f idom target (D ∪ {v | v ∈ b.results exit.2} ∪
      {v | v ∈ (target.params.map fst).take exit.1.2.length}) := by
  obtain ⟨target', htarget', harity⟩ := (h.runs hids hinvoke hchecks).targets exit hexit
  cases htarget.symm.trans htarget'
  obtain ⟨he, hall⟩ := mem_exits (hinvoke b h.mem) hexit
  have hs := mem_successors (hinvoke b h.mem) he
  obtain ⟨hmem, hid⟩ := mem_blocks_of_block htarget
  have hreach : (Cfg.ofFunction f).Reachable target.id :=
    hid ▸ Flow.Reachable.step h.reachable (edgeIn_of_mem h.mem hs)
  have hbelow : target.id ≠ f.entry → ∃ w, idom target.id = some w ∧ Anc idom w b.id :=
    fun hne => hsettled.below _ _ hreach hne (hid ▸ mem_pred h.mem hs) h.tabled
  have hroot : idom f.entry = some f.entry := hsettled.root
  refine ⟨hmem, hreach, ?_, fun v hv => .inr ?_, fun a ha hanc hne v hv => .inl ?_⟩
  · by_cases hentry : target.id = f.entry
    · rw [hentry, hroot]
      rfl
    obtain ⟨w, hw, -⟩ := hbelow hentry
    rw [hw]
    rfl
  · change v ∈ (target.params.map fst).take exit.1.2.length
    rwa [take_of_length_le (by rw [length_map, harity])]
  -- the first step of the chain of the target goes to a block above `b`, or to `b`
  obtain ⟨c, hc, hcne, hac⟩ := hanc.above hne
  have hentry : target.id ≠ f.entry := by
    intro hentry
    rw [hentry, hroot] at hc
    exact hcne ((Option.some.inj hc).symm.trans hentry.symm)
  obtain ⟨w, hw, hwb⟩ := hbelow hentry
  rw [hw] at hc
  cases hc
  by_cases hab : a.id = b.id
  · obtain rfl := inj_on_of_nodup_map hids ha h.mem hab
    rcases mem_append.1 hv with hp | hr
    · exact .inl (h.params v hp)
    · exact .inr (hall ▸ hr)
  · exact .inl (h.above a ha (hac.trans hwb) hab v hv)

theorem Reaches.entered (hsettled : Settled (Cfg.ofFunction f) idom) (h : Reaches f b D) :
    Entered f idom b D := by
  induction h with
  | @entry b hb =>
    obtain ⟨hmem, hid⟩ := mem_blocks_of_block hb
    have hroot : idom f.entry = some f.entry := hsettled.root
    refine ⟨hmem, hid ▸ Flow.Reachable.refl, by rw [hid, hroot]; rfl, fun v hv => hv, ?_⟩
    intro a _ hanc hne
    obtain ⟨c, hc, hcne, -⟩ := hanc.above hne
    rw [hid, hroot] at hc
    exact absurd ((Option.some.inj hc).symm.trans hid.symm) hcne
  | step _ hexit htarget ih => exact ih.step hids hinvoke hchecks hsettled hexit htarget

end Accepted

/-- **An accepted function runs.** Blocks have distinct names and none ends in an invoke:
then, in whatever block an execution arrives, it reads defined values only, and every edge
it can take has a target and as many arguments as the target has parameters. -/
theorem checkFunction_runs [DecidableEq τ] (isTerminator : Inst τ → Bool) (fuel : ℕ)
    (f : Function τ) (hids : (f.blocks.map Block.id).Nodup)
    (hinvoke : ∀ b ∈ f.blocks, b.endsInInvoke = false)
    (hok : checkFunction isTerminator fuel f = some (.ok ())) (b : Block τ) (D : Set ValueId)
    (h : Reaches f b D) : Runs f b D := by
  obtain ⟨idom, hsettled, hchecks⟩ := checkFunction_ok hok
  exact (h.entered hids hinvoke hchecks hsettled).runs hids hinvoke hchecks

/-- Every case but `op` ends a block. -/
def Inst.endsBlock : Inst τ → Bool
  | .op _ _ => false
  | _ => true

/-- A value that is read where two paths join. -/
def readsAcrossJoin : Function Unit where
  entry := 0
  blocks := [⟨0, [], [⟨.op [] none, [7]⟩, ⟨.condBr 7 1 [7] 2 [], []⟩]⟩,
      ⟨1, [(8, ())], [⟨.op [8] none, []⟩, ⟨.br 2 [], []⟩]⟩, ⟨2, [], [⟨.ret [7], []⟩]⟩]

/-- The function is accepted, and runs in the block of the join. -/
theorem readsAcrossJoin_runs : checkFunction Inst.endsBlock 50 readsAcrossJoin = some (.ok ()) ∧
      ∃ b D, b.id = 2 ∧ Reaches readsAcrossJoin b D ∧ Runs readsAcrossJoin b D := by
  have hreach : ∃ b D, b.id = 2 ∧ Reaches readsAcrossJoin b D :=
    ⟨_, _, rfl, .step (.entry rfl) (.tail _ (mem_singleton.2 rfl)) rfl⟩
  obtain ⟨b, D, hb, h⟩ := hreach
  exact ⟨rfl, b, D, hb, h,
    checkFunction_runs Inst.endsBlock 50 readsAcrossJoin (by decide) (by decide) rfl b D h⟩

/-- The normal destination reads what only the landing pad defines. -/
def readsPadValue : Function Unit where
  entry := 0
  blocks := [⟨0, [], [⟨.invoke [] 1 [] 2, []⟩]⟩, ⟨1, [], [⟨.ret [9], []⟩]⟩,
      ⟨2, [], [⟨.op [] none, [9]⟩, ⟨.resume 9, []⟩]⟩]

/-- The second block of the name has the parameter that the first one reads. -/
def sharedName : Function Unit where
  entry := 0
  blocks := [⟨0, [], [⟨.ret [9], []⟩]⟩, ⟨0, [(9, ())], [⟨.unreachable, []⟩]⟩]

/-- The function defines each value once and is accepted, but an execution reads a value that
is not defined. -/
def Misses (f : Function Unit) : Prop :=
  ((collectDefs f).map fst).Nodup ∧ checkFunction Inst.endsBlock 50 f = some (.ok ()) ∧
    ∃ b D, Reaches f b D ∧ ¬ Runs f b D

/-- In the first function the blocks behind the invoke count as unreachable, in the second two
blocks share a name. -/
theorem checkFunction_misses_read : Misses readsPadValue ∧ Misses sharedName := by
  refine ⟨⟨by decide, rfl, ?_⟩, by decide, rfl, ?_⟩
  · refine ⟨_, _, .step (.entry rfl) (.head _) rfl, fun h => ?_⟩
    have hread := h.reads 0 _ rfl 9 (by decide)
    simp [Block.results] at hread
  refine ⟨_, _, .entry rfl, fun h => ?_⟩
  have hread := h.reads 0 _ rfl 9 (by decide)
  simp [Block.results] at hread

end TrustCg.Verify.SsaLoop
