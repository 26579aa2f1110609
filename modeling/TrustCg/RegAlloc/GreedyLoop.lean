import TrustCg.Lib.Ranking
import TrustCg.RegAlloc.GreedyStore

/-!
# The loop of the greedy allocator

* `round_loopInv` : one round of the loop keeps the invariant of the queue.
* `potential_round` : a round lowers a measure.  Each assignment raises a sum of weights
  over the assigned vregs that evictions of cheaper vregs cannot bring back down, since
  a vreg counts more than all cheaper ones together.
-/

namespace TrustCg.RegAlloc

open Ranges (Range)
open Function (update update_of_ne update_self)
open List
open Option (getD_some some_inj)
open SortedMap (get? get?_insert)

namespace GreedyAllocator

variable {W : Type*} {fl : Floats W} {s s' : GreedyAllocator W} {v u : VReg} {p : PReg}
  {iv : LiveInterval W}

/-! ## The invariant of the loop -/

theorem popMax_eq_none {l : List (PriorityEntry W)} (h : popMax fl l = none) : l = [] := by
  cases l with
  | nil => rfl
  | cons e es =>
    rw [popMax] at h
    split at h
    · simp at h
    · split at h <;> simp at h

theorem popMax_perm (fl : Floats W) (l : List (PriorityEntry W)) (e : PriorityEntry W)
    (rest : List (PriorityEntry W)) (h : popMax fl l = some (e, rest)) : (e :: rest).Perm l := by
  induction l generalizing e rest with
  | nil => simp [popMax] at h
  | cons a l ih =>
    rw [popMax] at h
    cases hpop : popMax fl l with
    | none =>
      simp only [hpop, some_inj, Prod.mk.injEq] at h
      obtain ⟨rfl, rfl⟩ := h
      rw [popMax_eq_none hpop]
    | some res =>
      obtain ⟨best, others⟩ := res
      simp only [hpop] at h
      split at h
      · cases h
        exact (List.Perm.swap ..).trans ((ih _ _ hpop).cons a)
      cases h
      exact .refl _

/-- **The invariant of the queue.**  Whoever has an interval has a register, is spilled,
waits in the queue or is in hand. -/
structure LoopInv (hand : List VReg) (s : GreedyAllocator W) : Prop where
  store : s.StoreInv
  spilled : ∀ v ∈ s.spilled, s.assignment v = none
  queued : ∀ e ∈ s.worklist, ∃ iv, s.intervals e.vreg = some iv
  pending : ∀ v iv, s.intervals v = some iv →
    s.assignment v ≠ none ∨ v ∈ s.spilled ∨ (∃ e ∈ s.worklist, e.vreg = v) ∨ v ∈ hand
  settled : ∀ v iv, s.intervals v = some iv → s.stage v = some .done →
    s.assignment v ≠ none ∨ v ∈ s.spilled

variable {us : List VReg}

section

variable {entry : PriorityEntry W}

section

variable (s : GreedyAllocator W) (v : VReg) (target : Stage)

theorem advanceStage_frame :
    s.advanceStage v target = { s with stage := (s.advanceStage v target).stage } := by
  unfold advanceStage
  split <;> rfl

theorem advanceStage_stage :
    (s.advanceStage v target).stage = s.stage
      ∨ (((s.stage v).getD .new).rank < target.rank
        ∧ (s.advanceStage v target).stage = update s.stage v (some target)) := by
  unfold advanceStage
  split
  next hlt => exact .inr ⟨hlt, rfl⟩
  · exact .inl rfl

end

/-- A change of the stage of a vreg keeps the invariant if a vreg that is done is settled. -/
theorem LoopInv.advanceStage {hand : List VReg} (h : LoopInv hand s) (target : Stage)
    (hdone : target = .done → s.assignment v ≠ none ∨ v ∈ s.spilled) :
    LoopInv hand (s.advanceStage v target) := by
  rw [advanceStage_frame]
  refine ⟨{ h.store with }, h.spilled, h.queued, h.pending, ?_⟩
  intro u iv hiv hstage
  rcases advanceStage_stage s v target with hsame | ⟨-, hnew⟩
  · exact h.settled u iv hiv (by rw [← hsame]; exact hstage)
  rw [hnew] at hstage
  rcases update_some_iff.1 hstage with ⟨rfl, htarget⟩ | ⟨-, hstage⟩
  · exact hdone htarget.symm
  · exact h.settled u iv hiv hstage

theorem LoopInv.assign (h : LoopInv [v] s) (hiv : s.intervals v = some iv)
    (hnew : s.assignment v = none) (hspilled : v ∉ s.spilled) (hfree : s.Free v p iv) :
    LoopInv [] (s.assign v p) := by
  have hframe := assign_frame (p := p) hiv
  refine ⟨assign_storeInv h.store hiv hnew hfree, ?_, ?_, ?_, ?_⟩ <;> rw [hframe]
  · intro u hu
    refine (update_of_ne ?_ ..).trans (h.spilled u hu)
    rintro rfl
    exact hspilled hu
  · exact h.queued
  · intro u jv hjv
    dsimp only
    by_cases huv : u = v
    · simp [huv]
    · simpa [huv] using h.pending u jv hjv
  · intro u jv hjv hstage
    dsimp only
    by_cases huv : u = v
    · simp [huv]
    · simpa [huv] using h.settled u jv hjv hstage

/-- Clearing a register keeps the invariant: the evicted vregs wait in the queue. -/
theorem LoopInv.cleared (h : LoopInv [v] s) (hc : Cleared fl s v iv p us s') : LoopInv [v] s' := by
  obtain ⟨es, hes, hwork⟩ := hc.worklist
  have hmem : ∀ e ∈ es, e.vreg ∈ us := by
    intro e he
    rw [← mem_reverse, ← hes]
    exact mem_map_of_mem he
  have hwaits : ∀ u ∈ us, ∃ e ∈ s'.worklist, e.vreg = u := by
    intro u hu
    rw [← mem_reverse, ← hes] at hu
    obtain ⟨e, he, rfl⟩ := mem_map.1 hu
    exact ⟨e, by rw [hwork]; exact mem_append_left _ he, rfl⟩
  refine ⟨hc.store, ?_, ?_, ?_, ?_⟩
  · intro u hu
    rw [hc.spilled] at hu
    rw [hc.assignment]
    split
    · rfl
    · exact h.spilled u hu
  · intro e he
    rw [hc.intervals]
    rw [hwork] at he
    rcases mem_append.1 he with he | he
    · obtain ⟨-, jv, hjv, -⟩ := hc.evicted _ (hmem e he)
      exact ⟨jv, hjv⟩
    · exact h.queued e he
  · intro u jv hjv
    rw [hc.intervals] at hjv
    by_cases hu : u ∈ us
    · exact .inr (.inr (.inl (hwaits u hu)))
    rw [hc.assignment, if_neg hu, hc.spilled]
    refine (h.pending u jv hjv).imp_right (.imp_right (.imp_left ?_))
    rintro ⟨e, he, ha⟩
    exact ⟨e, by rw [hwork]; exact mem_append_right _ he, ha⟩
  intro u jv hjv hstage
  rw [hc.intervals] at hjv
  rw [hc.stage] at hstage
  split at hstage
  · simp at hstage
  next hu =>
    rw [hc.assignment, if_neg hu, hc.spilled]
    exact h.settled u jv hjv hstage

theorem LoopInv.requeue {target : Stage} (h : LoopInv [entry.vreg] s)
    (hiv : s.intervals entry.vreg = some iv) (htarget : target ≠ .done) :
    LoopInv [] (s.requeue entry target) := by
  have h' := h.advanceStage (v := entry.vreg) target (fun hd => absurd hd htarget)
  unfold GreedyAllocator.requeue
  rw [advanceStage_frame] at h' ⊢
  refine ⟨{ h.store with }, h.spilled, ?_, ?_, h'.settled⟩
  · intro e he
    rcases mem_cons.1 he with rfl | he
    · exact ⟨iv, hiv⟩
    · exact h.queued e he
  intro u jv hjv
  refine (h.pending u jv hjv).imp_right (.imp_right ?_)
  rintro (⟨e, he, ha⟩ | ha)
  · exact .inl ⟨e, .tail _ he, ha⟩
  · exact .inl ⟨entry, .head _, (mem_singleton.1 ha).symm⟩

theorem LoopInv.doSpill (h : LoopInv [v] s) (hiv : s.intervals v = some iv)
    (hnew : s.assignment v = none) : LoopInv [] (s.doSpill v) := by
  unfold GreedyAllocator.doSpill
  rw [hiv]
  dsimp only
  rw [(h.store.filed v iv hiv).1]
  have h' : LoopInv [] { s with spilled := s.spilled ++ [v] } := by
    refine ⟨{ h.store with }, ?_, h.queued, ?_, ?_⟩
    · intro u hu
      rcases mem_append.1 hu with hu | hu
      · exact h.spilled u hu
      rw [mem_singleton.1 hu]
      exact hnew
    · intro u jv hjv
      have hpending := h.pending u jv hjv
      simp only [mem_append]
      grind
    intro u jv hjv hstage
    exact (h.settled u jv hjv hstage).imp_right (mem_append_left _)
  exact h'.advanceStage .done (fun _ => .inr (mem_append_right _ (mem_singleton.2 rfl)))

/-- **What a round can do** with the vreg in hand: drop it, since it is settled; give it a
register that it found; move it to a later stage; or spill it. -/
theorem process_branches (fl : Floats W) (hiv : s.intervals entry.vreg = some iv) :
    (s.process fl entry = s ∧ (s.assignment entry.vreg ≠ none ∨ entry.vreg ∈ s.spilled
      ∨ s.stage entry.vreg = some .done))
    ∨ (s.assignment entry.vreg = none ∧ entry.vreg ∉ s.spilled
      ∧ ((∃ p s', (s.tryAssign entry.vreg = some p ∧ s' = s
            ∨ s.tryEvict fl entry.vreg = some (p, s'))
          ∧ s.process fl entry = (s'.assign entry.vreg p).advanceStage entry.vreg .done)
        ∨ (∃ target, target ≠ .done ∧ ((s.stage entry.vreg).getD .new).rank < target.rank
          ∧ s.process fl entry = s.requeue entry target)
        ∨ (((s.stage entry.vreg).getD .new).rank < Stage.done.rank
          ∧ s.process fl entry = s.doSpill entry.vreg))) := by
  unfold process
  by_cases hskip : (s.isAssigned entry.vreg || s.isSpilled entry.vreg
      || decide ((s.stage entry.vreg).getD .new = .done)) = true
  · rw [if_pos hskip]
    refine .inl ⟨rfl, ?_⟩
    simp only [isAssigned, isSpilled, hiv, Option.isSome_some, Bool.true_and, Bool.or_eq_true,
      decide_eq_true_eq, contains_iff_mem] at hskip
    rcases hskip with (ha | hs) | hd
    · exact .inl (Option.isSome_iff_ne_none.1 ha)
    · exact .inr (.inl hs)
    cases hst : s.stage entry.vreg with
    | none => rw [hst] at hd; cases hd
    | some st =>
      rw [hst, getD_some] at hd
      rw [hd]
      exact .inr (.inr rfl)
  rw [if_neg hskip]
  simp only [isAssigned, isSpilled, hiv, Option.isSome_some, Bool.true_and, Bool.or_eq_true,
    decide_eq_true_eq, contains_iff_mem, not_or, Option.not_isSome_iff_eq_none] at hskip
  obtain ⟨⟨hnew, hspilled⟩, hdone⟩ := hskip
  refine .inr ⟨hnew, hspilled, ?_⟩
  cases hassign : s.tryAssign entry.vreg with
  | some p => exact .inl ⟨p, s, .inl ⟨rfl, rfl⟩, rfl⟩
  | none =>
    by_cases hevict : ((s.stage entry.vreg).getD .new).rank ≤ Stage.evict.rank
    · rw [if_pos hevict]
      cases hres : s.tryEvict fl entry.vreg with
      | some res => exact .inl ⟨res.1, res.2, .inr rfl, rfl⟩
      | none => exact .inr (.inl ⟨.split, by decide, Nat.lt_succ_of_le hevict, rfl⟩)
    rw [if_neg hevict]
    by_cases hsplit : ((s.stage entry.vreg).getD .new).rank ≤ Stage.split.rank
    · rw [if_pos hsplit]
      exact .inr (.inl ⟨.spill, by decide, Nat.lt_succ_of_le hsplit, rfl⟩)
    rw [if_neg hsplit]
    refine .inr (.inr ⟨?_, rfl⟩)
    cases hst : (s.stage entry.vreg).getD .new with
    | done => exact absurd hst hdone
    | _ => decide

/-- **One round keeps the invariant of the queue.** -/
theorem process_loopInv (h : LoopInv [entry.vreg] s)
    (hiv : s.intervals entry.vreg = some iv) : LoopInv [] (s.process fl entry) := by
  rcases process_branches fl hiv with ⟨heq, hset⟩ | ⟨hnew, hspilled, ⟨p, s', hfound, heq⟩
    | ⟨target, htarget, -, heq⟩ | ⟨-, heq⟩⟩ <;> rw [heq]
  · have hset := hset.elim .inl fun hset => hset.elim .inr (h.settled _ iv hiv)
    refine ⟨h.store, h.spilled, h.queued, ?_, h.settled⟩
    intro u jv hjv
    by_cases hu : u = entry.vreg
    · exact hu ▸ hset.imp_right .inl
    · simpa [hu] using h.pending u jv hjv
  · obtain ⟨us, hc⟩ := found_cleared h.store hiv hfound
    have hself : s'.assignment entry.vreg = none := by
      rw [hc.assignment]
      split
      · rfl
      · exact hnew
    have hiv' : s'.intervals entry.vreg = some iv := by rw [hc.intervals]; exact hiv
    have hassigned := (h.cleared hc).assign hiv' hself
      (by rw [hc.spilled]; exact hspilled) hc.free
    refine hassigned.advanceStage .done (fun _ => .inl ?_)
    rw [assign_frame hiv']
    dsimp only
    rw [update_self]
    simp
  · exact h.requeue hiv htarget
  · exact h.doSpill hiv hnew

theorem round_eq_some (h : s.round fl = some s') : ∃ entry rest,
    (entry :: rest).Perm s.worklist ∧ s' = { s with worklist := rest }.process fl entry := by
  unfold round at h
  split at h
  · simp at h
  next entry rest hpop => exact ⟨entry, rest, popMax_perm fl _ _ _ hpop, (Option.some_inj.1 h).symm⟩

theorem LoopInv.pop (h : LoopInv [] s) {rest : List (PriorityEntry W)}
    (hperm : (entry :: rest).Perm s.worklist) :
    LoopInv [entry.vreg] { s with worklist := rest } := by
  refine ⟨{ h.store with }, h.spilled, ?_, ?_, h.settled⟩
  · intro e he
    exact h.queued e (hperm.subset (.tail _ he))
  intro u jv hjv
  refine (h.pending u jv hjv).imp_right (.imp_right ?_)
  rintro (⟨e, he, rfl⟩ | ha)
  · rcases mem_cons.1 (hperm.symm.subset he) with rfl | he
    · exact .inr (mem_singleton.2 rfl)
    · exact .inl ⟨e, he, rfl⟩
  · simp at ha

/-- **A round keeps the invariant.** -/
theorem round_loopInv (h : LoopInv [] s) (hround : s.round fl = some s') : LoopInv [] s' := by
  obtain ⟨entry, rest, hperm, rfl⟩ := round_eq_some hround
  obtain ⟨iv, hiv⟩ := h.queued entry (hperm.subset (.head _))
  exact process_loopInv (h.pop hperm) hiv

end

/-! ## Termination -/

/-- The interval of `u` is lighter than that of `v`. -/
def lighter (fl : Floats W) (intervals : VReg → Option (LiveInterval W)) (u v : VReg) : Bool :=
  match intervals u, intervals v with
  | some iu, some iv => !fl.ge iu.spillWeight iv.spillWeight
  | _, _ => false

/-- The worth of the assigned vregs. -/
def potential (fl : Floats W) (vs : Finset VReg) : ℕ :=
  ∑ v ∈ vs.filter fun v => (s.assignment v).isSome, Ranking.worth (lighter fl s.intervals) vs v

/-- The stages that the vregs have still to go through. -/
def stagesLeft (vs : Finset VReg) : ℕ :=
  ∑ v ∈ vs, (Stage.done.rank - ((s.stage v).getD .new).rank)

/-- What a round lowers, compared from left to right. -/
def progress (fl : Floats W) (vs : Finset VReg) : ℕ × ℕ × ℕ :=
  (∑ v ∈ vs, Ranking.worth (lighter fl s.intervals) vs v - s.potential fl vs, s.stagesLeft vs,
    s.worklist.length)

/-- The vregs with an interval are those of `vs`, and their weights are finite. -/
structure Weighted (finite : W → Prop) (vs : Finset VReg) : Prop where
  mem : ∀ v iv, s.intervals v = some iv → v ∈ vs
  some : ∀ v ∈ vs, ∃ iv, s.intervals v = some iv ∧ finite iv.spillWeight

variable {finite : W → Prop} {vs : Finset VReg}

section

section

variable (hfl : fl.OrderedOn finite) (hw : s.Weighted finite vs)
include hfl hw

theorem lighter_irrefl : ∀ u ∈ vs, lighter fl s.intervals u u = false := by
  intro u hu
  obtain ⟨iu, hiu, hfin⟩ := hw.some u hu
  simp only [lighter, hiu, hfl.ge_refl _ hfin, Bool.not_true]

theorem lighter_trans :
    ∀ a ∈ vs, ∀ b ∈ vs, ∀ c ∈ vs, lighter fl s.intervals a b = true →
      lighter fl s.intervals b c = true → lighter fl s.intervals a c = true := by
  intro a ha b hb c hc hab hbc
  obtain ⟨ia, hia, hfa⟩ := hw.some a ha
  obtain ⟨ib, hib, hfb⟩ := hw.some b hb
  obtain ⟨ic, hic, hfc⟩ := hw.some c hc
  simp only [lighter, hia, hib, hic, Bool.not_eq_true'] at *
  exact hfl.lt_trans _ _ _ hfa hfb hfc hab hbc

end

theorem stagesLeft_advanceStage (target : Stage) (hv : v ∈ vs)
    (hlt : ((s.stage v).getD .new).rank < target.rank) :
    (s.advanceStage v target).stagesLeft vs < s.stagesLeft vs := by
  have hle : target.rank ≤ Stage.done.rank := by cases target <;> decide
  have hstage : (s.advanceStage v target).stage = update s.stage v (some target) := by
    unfold advanceStage
    rw [if_pos hlt]
  unfold stagesLeft
  rw [hstage]
  refine Finset.sum_lt_sum ?_ ⟨v, hv, ?_⟩
  · intro u _
    by_cases huv : u = v
    · subst huv
      rw [update_self, getD_some]
      omega
    · rw [update_of_ne huv]
  rw [update_self, getD_some]
  omega

theorem potential_le (s : GreedyAllocator W) (fl : Floats W) (vs : Finset VReg) :
    s.potential fl vs ≤ ∑ v ∈ vs, Ranking.worth (lighter fl s.intervals) vs v :=
  Finset.sum_le_sum_of_subset (Finset.filter_subset _ _)

/-- Lighter vregs have lost their registers. -/
structure Displaced (fl : Floats W) (s : GreedyAllocator W) (iv : LiveInterval W)
    (us : List VReg) (s' : GreedyAllocator W) : Prop where
  intervals : s'.intervals = s.intervals
  evicted : ∀ u ∈ us, ∃ jv, s.intervals u = some jv ∧ fl.ge jv.spillWeight iv.spillWeight = false
  assignment : ∀ w, s'.assignment w = if w ∈ us then none else s.assignment w

/-- Taking a register after that raises the worth of the assigned vregs. -/
theorem potential_assign (hfl : fl.OrderedOn finite) (hw : s.Weighted finite vs)
    (hiv : s.intervals v = some iv) (hnew : s.assignment v = none) (hc : Displaced fl s iv us s') :
    s.potential fl vs < (s'.assign v p).potential fl vs := by
  have hiv' : s'.intervals v = some iv := by rw [hc.intervals]; exact hiv
  have hframe := assign_frame (p := p) hiv'
  have hints : (s'.assign v p).intervals = s.intervals := by rw [hframe]; exact hc.intervals
  unfold potential
  rw [hints]
  refine Ranking.sum_lt_of_replace (a := v) (E := us.toFinset) ?_ ?_ ?_ ?_
  · simp [hnew]
  · refine Finset.mem_filter.2 ⟨hw.mem v iv hiv, ?_⟩
    rw [hframe]
    simp
  · intro u hu
    obtain ⟨hu, hassigned⟩ := Finset.mem_filter.1 hu
    by_cases hin : u ∈ us
    · exact Finset.mem_union_right _ (mem_toFinset.2 hin)
    refine Finset.mem_union_left _ (Finset.mem_filter.2 ⟨hu, ?_⟩)
    have huv : u ≠ v := by
      rintro rfl
      rw [hnew] at hassigned
      simp at hassigned
    rw [hframe]
    dsimp only
    rw [update_of_ne huv, hc.assignment, if_neg hin]
    exact hassigned
  refine Ranking.sum_worth_lt (lighter_irrefl hfl hw) (lighter_trans hfl hw) (hw.mem v iv hiv) ?_
  intro u hu
  obtain ⟨jv, hjv, hge⟩ := hc.evicted u (mem_toFinset.1 hu)
  refine ⟨hw.mem u jv hjv, ?_⟩
  simp only [lighter, hjv, hiv, hge, Bool.not_false]

/-- All that the queue and the store name are vregs of `vs`.  Unlike the invariant above this
asks nothing of the ranges of the intervals. -/
structure Known (vs : Finset VReg) (s : GreedyAllocator W) : Prop where
  queue : ∀ e ∈ s.worklist, e.vreg ∈ vs
  assigned : ∀ v p, s.assignment v = some p → ∃ iv, s.intervals v = some iv
  stored : ∀ q entry k seg, s.pregSegments.get? q = some entry →
    get? entry k = some seg → seg.2 ∈ vs
  lost : ∀ x ∈ s.segmentOverflow, x.2.2 ∈ vs

namespace Known

section

variable (h : Known vs s)
include h

theorem segAt {q : PReg} {k : ℕ} {seg : ℕ × VReg} (hget : (s.segAt q).get? k = some seg) :
    seg.2 ∈ vs := by
  unfold GreedyAllocator.segAt at hget
  cases hq : s.pregSegments.get? q with
  | none => simp [hq] at hget
  | some entry => exact h.stored q entry k seg hq (by simpa [hq] using hget)

theorem addSegments (hv : v ∈ vs) (ranges : List Range) (key : PReg) :
    Known vs (addSegments v ranges s key) := by
  refine ⟨h.queue, h.assigned, ?_, ?_⟩
  · intro q entry k seg hq hk
    dsimp only [GreedyAllocator.addSegments] at hq
    rw [get?_insert] at hq
    split at hq
    · cases hq
      rcases Segments.foldl_place_owner _ _ hk with hold | hnew
      · exact h.segAt hold
      rw [hnew]
      exact hv
    · exact h.stored q entry k seg hq hk
  intro x hx
  rcases mem_append.1 hx with hx | hx
  · exact h.lost x hx
  obtain ⟨r, -, rfl⟩ := mem_map.1 hx
  exact hv

theorem assign (hv : v ∈ vs) (hiv : s.intervals v = some iv) (p : PReg) :
    Known vs (s.assign v p) := by
  simp only [GreedyAllocator.assign, hiv]
  refine foldlRecOn (motive := Known vs) _ _ ⟨h.queue, fun u q hu => ?_, h.stored, h.lost⟩
    fun t ht key _ => ht.addSegments hv _ key
  by_cases huv : u = v
  · exact ⟨iv, huv ▸ hiv⟩
  · exact h.assigned u q ((update_of_ne huv ..).symm.trans hu)

theorem unassign (v : VReg) : Known vs (s.unassign v) := by
  have hassigned := unassign_assignment (h.assigned v)
  have hints : (s.unassign v).intervals = s.intervals := by rw [unassign_frame]
  refine ⟨?_, fun u p hu => ?_, ?_, ?_⟩
  · rw [unassign_frame]
    exact h.queue
  · rw [hassigned] at hu
    rw [hints]
    exact h.assigned u p (update_none_iff.1 hu).2
  · unfold GreedyAllocator.unassign
    split
    next preg _ _ =>
      intro q entry k seg hq hk
      refine h.segAt ((get?_foldl_retain v (preg :: aliasingPregs preg) _ q k seg).1 ?_).1
      rw [hq]
      exact hk
    · exact h.stored
  unfold GreedyAllocator.unassign
  split
  · exact fun x hx => h.lost x (mem_filter.1 hx).1
  · exact h.lost

theorem evicting (us : List VReg) (hus : ∀ u ∈ us, u ∈ vs) : Known vs (s.evicting fl v us) := by
  refine foldlRecOn (motive := Known vs) us _ { h with } fun t ht u hu => ?_
  have hlost := ht.unassign u
  exact { hlost with queue := forall_mem_cons.2 ⟨hus u hu, hlost.queue⟩ }

theorem mem_of_interfering (hu : u ∈ s.vregsInterferingOnPreg p v iv) : u ∈ vs := by
  simp only [vregsInterferingOnPreg, mem_dedup, mem_mergeSort, mem_append, mem_flatMap,
    mem_filter] at hu
  rcases hu with ⟨⟨key, entry⟩, hin, hu⟩ | ⟨hu, -⟩
  · dsimp only at hu
    split at hu
    · obtain ⟨r, -, hu⟩ := mem_flatMap.1 hu
      obtain ⟨k, e, hget⟩ := Segments.get?_of_mem_hits (mem_filter.1 hu).1
      exact h.stored key entry k (e, u) (SortedMap.mem_entries.1 hin) hget
    · simp at hu
  obtain ⟨x, hx, hxu⟩ := mem_filterMap.1 hu
  dsimp only at hxu
  split at hxu
  · rw [← Option.some.inj hxu]
    exact h.lost x hx
  · simp at hxu

/-- Wherever a round finds a register, lighter vregs at most lose theirs. -/
theorem displaced (hw : s.Weighted finite vs) (hiv : s.intervals v = some iv)
    (hfound : s.tryAssign v = some p ∧ s' = s ∨ s.tryEvict fl v = some (p, s')) :
    Known vs s' ∧ ∃ us, Displaced fl s iv us s' := by
  have hself : Displaced fl s iv [] s := ⟨rfl, by simp, by simp⟩
  rcases hfound with ⟨-, rfl⟩ | hevict
  · exact ⟨h, [], hself⟩
  rcases tryEvict_branches hiv hevict with ⟨rfl, -⟩ | ⟨rfl, hchoice⟩
  · exact ⟨h, [], hself⟩
  obtain ⟨hints, -, hassign, -⟩ := evicting_spec fl h.assigned v
    (s.vregsInterferingOnPreg p v iv)
  refine ⟨h.evicting _ fun u hu => h.mem_of_interfering hu, _, hints, fun u hu => ?_, hassign⟩
  obtain ⟨jv, hjv, -⟩ := hw.some u (h.mem_of_interfering hu)
  exact ⟨jv, hjv, hchoice u hu jv hjv⟩

end

end Known

theorem LoopInv.known (h : LoopInv [] s) (hw : s.Weighted finite vs) : Known vs s := by
  refine ⟨?_, h.store.known, ?_, ?_⟩
  · intro e he
    obtain ⟨iv, hiv⟩ := h.queued e he
    exact hw.mem _ iv hiv
  · intro q entry k seg hq hk
    have hseg : (s.segAt q).get? k = some (seg.1, seg.2) := by rw [segAt, hq]; exact hk
    obtain ⟨p, iv, -, -, hiv, -⟩ := (h.store.segments q ⟨k, seg.1⟩ seg.2).1 hseg
    exact hw.mem _ iv hiv
  rw [h.store.overflow]
  simp

/-- **A round lowers the measure.** -/
theorem potential_round (hfl : fl.OrderedOn finite) (hw : s.Weighted finite vs)
    (h : Known vs s) (hround : s.round fl = some s') :
    s'.intervals = s.intervals ∧ Known vs s'
      ∧ Prod.Lex (· < ·) (Prod.Lex (· < ·) (· < ·)) (s'.progress fl vs) (s.progress fl vs) := by
  obtain ⟨entry, rest, hperm, rfl⟩ := round_eq_some hround
  have hmem := h.queue entry (hperm.subset (.head _))
  obtain ⟨iv, hiv, -⟩ := hw.some _ hmem
  have hlen : rest.length < s.worklist.length := by
    rw [← hperm.length_eq, length_cons]
    exact Nat.lt_succ_self _
  have hpop : Known vs { s with worklist := rest } :=
    { h with queue := fun e he => h.queue e (hperm.subset (.tail _ he)) }
  rcases process_branches fl (s := { s with worklist := rest }) hiv with ⟨heq, -⟩ | ⟨hnew, -,
    ⟨p, s', hfound, heq⟩ | ⟨target, -, hlt, heq⟩ | ⟨hlt, heq⟩⟩
  · rw [heq]
    exact ⟨rfl, hpop, Prod.Lex.right _ (Prod.Lex.right _ hlen)⟩
  · rw [heq, advanceStage_frame]
    obtain ⟨hknown, us, hc⟩ := hpop.displaced ⟨hw.mem, hw.some⟩ hiv hfound
    have hiv' : s'.intervals entry.vreg = some iv := by rw [hc.intervals]; exact hiv
    have hframe := assign_frame (p := p) hiv'
    have hints : (s'.assign entry.vreg p).intervals = s.intervals := by
      rw [hframe]; exact hc.intervals
    have hassigned := hknown.assign hmem hiv' p
    refine ⟨hints, { hassigned with }, Prod.Lex.left _ _ ?_⟩
    have hgain : s.potential fl vs < (s'.assign entry.vreg p).potential fl vs :=
      potential_assign (s := { s with worklist := rest }) hfl ⟨hw.mem, hw.some⟩ hiv hnew hc
    have hbound := potential_le (s'.assign entry.vreg p) fl vs
    rw [hints] at hbound
    change ∑ v ∈ vs, Ranking.worth (lighter fl (s'.assign entry.vreg p).intervals) vs v
      - (s'.assign entry.vreg p).potential fl vs < _
    rw [hints]
    omega
  · rw [heq]
    have hless := stagesLeft_advanceStage (s := { s with worklist := rest }) target hmem hlt
    unfold requeue
    rw [advanceStage_frame] at hless ⊢
    exact ⟨rfl, { hpop with queue := forall_mem_cons.2 ⟨hmem, hpop.queue⟩ },
      Prod.Lex.right _ (Prod.Lex.left _ _ hless)⟩
  rw [heq]
  unfold doSpill
  simp only [hiv]
  have hless := stagesLeft_advanceStage
    (s := { s with worklist := rest, spilled := s.spilled ++ [iv.vreg] }) .done hmem hlt
  rw [advanceStage_frame] at hless ⊢
  exact ⟨rfl, { hpop with }, Prod.Lex.right _ (Prod.Lex.left _ _ hless)⟩

end

end GreedyAllocator

end TrustCg.RegAlloc
