import TrustCg.RegAlloc.GreedyLoop

/-!
# Whole runs of the greedy allocator

* `allocate_terminates` : the loop ends, whatever the ranges of the intervals.
* `allocate_exact` : the store, the queries and the result, for whole runs.
-/

namespace TrustCg.RegAlloc

open Ranges (Range Ordered)
open Function (update_of_ne update_self)
open List
open Option (some_inj)

namespace GreedyAllocator

variable {W : Type*} {fl : Floats W} {s : GreedyAllocator W} {v u : VReg} {p : PReg}
  {iv : LiveInterval W} {finite : W → Prop} {vs : Finset VReg}

/-! ## Whole runs -/

/-- A state in which nothing has been assigned: the vregs with an interval wait. -/
structure Fresh (s : GreedyAllocator W) : Prop where
  filed : ∀ v iv, s.intervals v = some iv → iv.vreg = v ∧ Ordered iv.ranges
  unassigned : s.assignment = fun _ => none
  segments : s.pregSegments = .empty
  overflow : s.segmentOverflow = []
  unspilled : s.spilled = []
  queued : ∀ e ∈ s.worklist, ∃ iv, s.intervals e.vreg = some iv
  pending : ∀ v iv, s.intervals v = some iv → ∃ e ∈ s.worklist, e.vreg = v
  early : ∀ v, s.stage v ≠ some .done

section

theorem Fresh.loopInv (h : Fresh s) : LoopInv [] s := by
  refine ⟨⟨h.filed, by simp [h.unassigned], ?_, h.overflow, by simp [h.unassigned],
    by simp [h.unassigned]⟩, by simp [h.unspilled], h.queued, ?_, ?_⟩
  · intro q r v
    simp [segAt, h.segments, Owed, h.unassigned]
  · intro v iv hiv
    exact .inr (.inr (.inl (h.pending v iv hiv)))
  intro v iv _ hst
  exact absurd hst (h.early v)

theorem Fresh.enqueue (h : Fresh s) (hord : Ordered iv.ranges) : Fresh (s.enqueue iv) := by
  unfold GreedyAllocator.enqueue
  split
  · exact h
  refine ⟨?_, h.unassigned, h.segments, h.overflow, h.unspilled, ?_, ?_, ?_⟩
  · intro v jv hjv
    rcases update_some_iff.1 hjv with ⟨rfl, rfl⟩ | ⟨-, hjv⟩
    · exact ⟨rfl, hord⟩
    · exact h.filed v jv hjv
  · intro e he
    by_cases hv : e.vreg = iv.vreg
    · exact ⟨iv, by dsimp only; rw [hv, update_self]⟩
    rcases mem_cons.1 he with rfl | he
    · exact absurd rfl hv
    obtain ⟨jv, hjv⟩ := h.queued e he
    exact ⟨jv, (update_of_ne hv ..).trans hjv⟩
  · intro v jv hjv
    by_cases hv : v = iv.vreg
    · exact ⟨_, .head _, hv.symm⟩
    obtain ⟨e, he, hev⟩ := h.pending v jv ((update_of_ne hv ..).symm.trans hjv)
    exact ⟨e, .tail _ he, hev⟩
  intro v
  dsimp only
  by_cases hv : v = iv.vreg
  · rw [hv, update_self]
    decide
  rw [update_of_ne hv]
  exact h.early v

theorem Fresh.foldl_enqueue (l : List (LiveInterval W)) (s : GreedyAllocator W) (h : Fresh s)
    (hord : ∀ iv ∈ l, Ordered iv.ranges) : Fresh (l.foldl GreedyAllocator.enqueue s) :=
  foldlRecOn (motive := Fresh) l _ h fun _ hs iv hiv => hs.enqueue (hord iv hiv)

theorem foldl_enqueue_intervals (v : VReg) (l : List (LiveInterval W)) (s : GreedyAllocator W) :
    (l.foldl enqueue s).intervals v
      = ((l.reverse.find? fun iv => !iv.isFixed && iv.vreg == v).or (s.intervals v)) := by
  induction l generalizing s with
  | nil => rfl
  | cons iv l ih =>
    rw [foldl_cons, ih, reverse_cons, find?_append, Option.or_assoc]
    congr 1
    unfold enqueue
    cases hfix : iv.isFixed with
    | true => simp [hfix]
    | false =>
      by_cases hv : v = iv.vreg
      · subst hv
        simp [hfix]
      have hne : (iv.vreg == v) = false := by simpa using fun h => hv h.symm
      simp [hfix, hne, update_of_ne hv]

end

section

variable {intervals : List (LiveInterval W)} {allocatable : RegClass → Option (List PReg)}
  {hints : VReg → Option (List PReg)} {reservedRegs : List (PReg × List ℕ)}
  {hintExempt : VReg × PReg → Option (List ℕ)}

theorem newWithReserved_fresh (hord : ∀ iv ∈ intervals, Ordered iv.ranges) :
    Fresh (newWithReserved intervals allocatable hints reservedRegs hintExempt) :=
  Fresh.foldl_enqueue intervals _ ⟨by simp, rfl, rfl, rfl, rfl, by simp, by simp, by simp⟩ hord

theorem newWithReserved_intervals (v : VReg) :
    (newWithReserved intervals allocatable hints reservedRegs hintExempt).intervals v
      = intervals.reverse.find? fun iv => !iv.isFixed && iv.vreg == v := by
  rw [newWithReserved, foldl_enqueue_intervals]
  simp

theorem exists_newWithReserved_intervals {jv : LiveInterval W} (hjv : jv ∈ intervals)
    (hfree : jv.isFixed = false) : ∃ iv ∈ intervals,
      (newWithReserved intervals allocatable hints reservedRegs hintExempt).intervals jv.vreg
        = some iv := by
  obtain ⟨iv, hiv⟩ : ∃ iv, intervals.reverse.find?
      (fun iv => !iv.isFixed && iv.vreg == jv.vreg) = some iv := by
    rw [← Option.isSome_iff_exists, find?_isSome]
    exact ⟨jv, mem_reverse.2 hjv, by rw [hfree, Bool.not_false, Bool.true_and, beq_self_eq_true]⟩
  exact ⟨iv, mem_reverse.1 (mem_of_find?_eq_some hiv), by rw [newWithReserved_intervals]; exact hiv⟩

theorem newWithReserved_weighted {finite : W → Prop}
    (hfin : ∀ iv ∈ intervals, finite iv.spillWeight) :
    (newWithReserved intervals allocatable hints reservedRegs hintExempt).Weighted finite
      ((intervals.filter fun iv => !iv.isFixed).map LiveInterval.vreg).toFinset := by
  refine ⟨?_, ?_⟩
  · intro v iv hiv
    rw [newWithReserved_intervals] at hiv
    have hmem := mem_reverse.1 (mem_of_find?_eq_some hiv)
    have hcond := find?_some hiv
    simp only [Bool.and_eq_true, beq_iff_eq] at hcond
    rw [mem_toFinset, ← hcond.2]
    exact mem_map_of_mem (mem_filter.2 ⟨hmem, hcond.1⟩)
  intro v hv
  rw [mem_toFinset] at hv
  obtain ⟨jv, hjv, rfl⟩ := mem_map.1 hv
  obtain ⟨hjv, hfree⟩ := mem_filter.1 hjv
  obtain ⟨iv, hmem, hiv⟩ := exists_newWithReserved_intervals hjv (by simpa using hfree)
  exact ⟨iv, hiv, hfin iv hmem⟩

/-- The intervals that the allocator knows are those passed in, if none replaces another. -/
theorem newWithReserved_intervals_iff
    (hdistinct : intervals.Pairwise fun a b => a.isFixed = false → b.isFixed = false →
      a.vreg ≠ b.vreg) (v : VReg) (iv : LiveInterval W) :
    (newWithReserved intervals allocatable hints reservedRegs hintExempt).intervals v = some iv
      ↔ iv ∈ intervals ∧ iv.isFixed = false ∧ iv.vreg = v := by
  have hmem : ∀ jv, (newWithReserved intervals allocatable hints reservedRegs
      hintExempt).intervals v = some jv → jv ∈ intervals ∧ jv.isFixed = false ∧ jv.vreg = v := by
    intro jv hjv
    rw [newWithReserved_intervals] at hjv
    have hcond := find?_some hjv
    simp only [Bool.and_eq_true, beq_iff_eq, Bool.not_eq_true'] at hcond
    exact ⟨mem_reverse.1 (mem_of_find?_eq_some hjv), hcond⟩
  refine ⟨hmem iv, ?_⟩
  rintro ⟨hiv, hfree, rfl⟩
  obtain ⟨jv, -, hjv⟩ := exists_newWithReserved_intervals hiv hfree
  obtain ⟨hjmem, hjfree, hvreg⟩ := hmem jv hjv
  rw [hjv, some_inj]
  by_contra hne
  have : Std.Symm fun a b : LiveInterval W => a.isFixed = false → b.isFixed = false →
      a.vreg ≠ b.vreg := ⟨fun a b h ha hb => (h hb ha).symm⟩
  exact hdistinct.forall hjmem hiv hne hjfree hfree hvreg

end

/-- **The store is exact.**  It holds the ranges of the assigned vregs under their
registers and all aliases, nothing has overflowed, and both queries answer as a scan of
all assigned intervals. -/
structure Exact (s : GreedyAllocator W) : Prop where
  segments : ∀ (q : PReg) (r : Range) (v : VReg),
    (s.segAt q).get? r.start = some (r.stop, v) ↔ s.Owed q r v
  overflow : s.segmentOverflow = []
  interferes : ∀ (iv : LiveInterval W) (p : PReg) (v : VReg), Ordered iv.ranges →
    (s.interferesWithPreg v p iv = true ↔ ∃ u, s.Clash p v iv u)
  interfering : ∀ (iv : LiveInterval W) (p : PReg) (v u : VReg), Ordered iv.ranges →
    (u ∈ s.vregsInterferingOnPreg p v iv ↔ s.Clash p v iv u)
  sorted : ∀ (iv : LiveInterval W) (p : PReg) (v : VReg),
    (s.vregsInterferingOnPreg p v iv).Pairwise (fun a b => a.le b = true)
      ∧ (s.vregsInterferingOnPreg p v iv).Nodup

theorem StoreInv.exact {s : GreedyAllocator W} (h : s.StoreInv) : Exact s where
  segments := h.segments
  overflow := h.overflow
  interferes := fun _ p v hiv => interferesWithPreg_iff h hiv p v
  interfering := fun _ p v u hiv => mem_vregsInterferingOnPreg h hiv p v u
  sorted := fun iv p v => sorted_vregsInterferingOnPreg p v iv

/-- Control returns to the head of the loop with this state. -/
def AtHead (fl : Floats W) (s₀ s : GreedyAllocator W) : Prop :=
  Relation.ReflTransGen (fun a b => a.round fl = some b) s₀ s

/-- The states that a run goes through: between rounds, once an entry has been popped, and
after each eviction that makes room for its vreg. -/
inductive Visits (fl : Floats W) (s₀ : GreedyAllocator W) : GreedyAllocator W → Prop
  | head {s : GreedyAllocator W} : AtHead fl s₀ s → Visits fl s₀ s
  | popped {s : GreedyAllocator W} {entry : PriorityEntry W} {rest : List (PriorityEntry W)} :
      AtHead fl s₀ s → popMax fl s.worklist = some (entry, rest) →
      Visits fl s₀ { s with worklist := rest }
  | evicted {s : GreedyAllocator W} {entry : PriorityEntry W} {rest : List (PriorityEntry W)}
      (others : List VReg) :
      AtHead fl s₀ s → popMax fl s.worklist = some (entry, rest) →
      Visits fl s₀ ({ s with worklist := rest }.evicting fl entry.vreg others)

section

variable {s₀ : GreedyAllocator W}

section

variable (hfl : fl.OrderedOn finite) (hw : s₀.Weighted finite vs)
include hfl hw

theorem AtHead.known (h0 : Known vs s₀) (h : AtHead fl s₀ s) :
    Known vs s ∧ s.Weighted finite vs ∧ s.intervals = s₀.intervals := by
  induction h with
  | refl => exact ⟨h0, hw, rfl⟩
  | tail _ hround ih =>
    obtain ⟨hknown, hw', hints⟩ := ih
    obtain ⟨hsame, hknown', -⟩ := potential_round hfl hw' hknown hround
    have hints' := hsame.trans hints
    exact ⟨hknown', ⟨fun v iv hiv => hw.mem v iv (hints' ▸ hiv),
      fun v hv => hints' ▸ hw.some v hv⟩, hints'⟩

theorem AtHead.loopInv (h0 : LoopInv [] s₀) (h : AtHead fl s₀ s) :
    LoopInv [] s ∧ s.intervals = s₀.intervals := by
  refine ⟨?_, (h.known hfl hw (h0.known hw)).2.2⟩
  induction h with
  | refl => exact h0
  | tail _ hround ih => exact round_loopInv ih hround

theorem Visits.storeInv (h0 : LoopInv [] s₀) (h : Visits fl s₀ s) : s.StoreInv := by
  have hpop : ∀ (t : GreedyAllocator W) (rest : List (PriorityEntry W)), AtHead fl s₀ t →
      ({ t with worklist := rest } : GreedyAllocator W).StoreInv := by
    intro t rest ht
    have := (ht.loopInv hfl hw h0).1.store
    exact { this with }
  cases h with
  | head hhead => exact (hhead.loopInv hfl hw h0).1.store
  | popped hhead _ => exact hpop _ _ hhead
  | evicted others hhead _ => exact evicting_storeInv fl (hpop _ _ hhead) _ others

theorem Visits.intervals (h0 : LoopInv [] s₀) (h : Visits fl s₀ s) :
    s.intervals = s₀.intervals := by
  cases h with
  | head hhead => exact (hhead.loopInv hfl hw h0).2
  | popped hhead _ => exact (hhead.loopInv hfl hw h0).2
  | @evicted t entry rest others hhead _ =>
    obtain ⟨hinv, hints⟩ := hhead.loopInv hfl hw h0
    exact (evicting_spec fl (s := { t with worklist := rest }) hinv.store.known _
      others).intervals.trans hints

theorem allocate_ends (h0 : Known vs s₀) : ∃ s, AtHead fl s₀ s ∧ s.worklist = []
      ∧ ∃ bound, ∀ fuel, bound ≤ fuel → s₀.allocate fl fuel = some s := by
  have hstep : ∀ t t', AtHead fl s₀ t → t.round fl = some t' → AtHead fl s₀ t'
      ∧ Prod.Lex (· < ·) (Prod.Lex (· < ·) (· < ·)) (t'.progress fl vs) (t.progress fl vs) := by
    intro t t' ht hround
    obtain ⟨hknown, hw', -⟩ := ht.known hfl hw h0
    exact ⟨ht.tail hround, (potential_round hfl hw' hknown hround).2.2⟩
  have hwf : WellFounded (Prod.Lex (fun a b : ℕ => a < b)
      (Prod.Lex (fun a b : ℕ => a < b) (fun a b : ℕ => a < b))) :=
    WellFounded.prod_lex Nat.lt_wfRel.wf (WellFounded.prod_lex Nat.lt_wfRel.wf Nat.lt_wfRel.wf)
  obtain ⟨bound, s, hrun, hhead, hend⟩ := Loop.run_ends_of_wf hwf hstep s₀ .refl
  refine ⟨s, hhead, ?_, bound, hrun⟩
  unfold round at hend
  split at hend
  next hpop => exact popMax_eq_none hpop
  · simp at hend

end

end

theorem Known.foldl_enqueue (l : List (LiveInterval W)) (s : GreedyAllocator W)
    (h : Known vs s) (hnone : s.assignment = fun _ => none)
    (hl : ∀ iv ∈ l, iv.isFixed = false → iv.vreg ∈ vs) : Known vs (l.foldl enqueue s) := by
  induction l generalizing s with
  | nil => exact h
  | cons iv l ih =>
    obtain ⟨hiv, hl⟩ := forall_mem_cons.1 hl
    rw [foldl_cons, enqueue]
    split
    · exact ih s h hnone hl
    rename_i hfree
    refine ih _ { h with queue := ?_, assigned := ?_ } hnone hl
    · exact forall_mem_cons.2 ⟨hiv (by simpa using hfree), h.queue⟩
    intro v p hp
    rw [hnone] at hp
    simp at hp

/-- **The loop of `allocate` ends**, on any intervals with finite weights, whatever their ranges:
the queue is empty after finitely many rounds, though an evicted vreg goes back into it. -/
theorem allocate_terminates (fl : Floats W) (finite : W → Prop) (hfl : fl.OrderedOn finite)
    (intervals : List (LiveInterval W)) (allocatable : RegClass → Option (List PReg))
    (hints : VReg → Option (List PReg)) (reservedRegs : List (PReg × List ℕ))
    (hintExempt : VReg × PReg → Option (List ℕ))
    (hfin : ∀ iv ∈ intervals, finite iv.spillWeight) :
    ∃ s, AtHead fl (newWithReserved intervals allocatable hints reservedRegs hintExempt) s
      ∧ s.worklist = [] ∧ ∃ bound, ∀ fuel, bound ≤ fuel →
        (newWithReserved intervals allocatable hints reservedRegs hintExempt).allocate fl fuel
          = some s := by
  refine allocate_ends hfl (newWithReserved_weighted hfin) ?_
  refine .foldl_enqueue intervals _ ⟨by simp, by simp, by simp, by simp⟩ rfl ?_
  intro iv hiv hfree
  exact mem_toFinset.2 (mem_map_of_mem (mem_filter.2 ⟨hiv, by simpa using hfree⟩))

/-- **The greedy allocator.**  On intervals with sorted, disjoint ranges and finite weights,
of which no two that are not fixed have one vreg: at every point of the run the allocator
knows these intervals and its store is exact; the run ends; and then the vreg of every
interval that is not fixed has a register or is spilled, not both, and intervals on
overlapping registers do not overlap. -/
theorem allocate_exact (fl : Floats W) (finite : W → Prop) (hfl : fl.OrderedOn finite)
    (intervals : List (LiveInterval W)) (allocatable : RegClass → Option (List PReg))
    (hints : VReg → Option (List PReg)) (reservedRegs : List (PReg × List ℕ))
    (hintExempt : VReg × PReg → Option (List ℕ))
    (hord : ∀ iv ∈ intervals, Ordered iv.ranges)
    (hfin : ∀ iv ∈ intervals, finite iv.spillWeight)
    (hdistinct : intervals.Pairwise fun a b => a.isFixed = false → b.isFixed = false →
      a.vreg ≠ b.vreg) :
    (∀ s, Visits fl (newWithReserved intervals allocatable hints reservedRegs hintExempt) s →
      Exact s ∧ ∀ v iv, s.intervals v = some iv ↔ iv ∈ intervals ∧ iv.isFixed = false
        ∧ iv.vreg = v)
    ∧ ∃ s, Visits fl (newWithReserved intervals allocatable hints reservedRegs hintExempt) s
      ∧ (∃ bound, ∀ fuel, bound ≤ fuel →
        (newWithReserved intervals allocatable hints reservedRegs hintExempt).allocate fl fuel
          = some s)
      ∧ (∀ iv ∈ intervals, iv.isFixed = false → (s.assignment iv.vreg = none ↔ iv.vreg ∈ s.spilled))
      ∧ ∀ iu ∈ intervals, ∀ iv ∈ intervals, iu.isFixed = false → iv.isFixed = false →
        iu.vreg ≠ iv.vreg → ∀ p q, s.assignment iu.vreg = some p → s.assignment iv.vreg = some q →
        allocatorPregsOverlap p q = true → iu.overlaps iv = false := by
  set s₀ := newWithReserved intervals allocatable hints reservedRegs hintExempt
  have h₀ : LoopInv [] s₀ := (newWithReserved_fresh hord).loopInv
  have hw : s₀.Weighted finite _ := newWithReserved_weighted hfin
  have hknown : ∀ v iv, s₀.intervals v = some iv ↔ iv ∈ intervals ∧ iv.isFixed = false
      ∧ iv.vreg = v := newWithReserved_intervals_iff hdistinct
  refine ⟨fun s hs => ⟨(hs.storeInv hfl hw h₀).exact, fun v iv => ?_⟩, ?_⟩
  · rw [hs.intervals hfl hw h₀, hknown]
  obtain ⟨s, hhead, hempty, hbound⟩ := allocate_ends hfl hw (h₀.known hw)
  obtain ⟨hinv, hints'⟩ := hhead.loopInv hfl hw h₀
  rw [← hints'] at hknown
  refine ⟨s, .head hhead, hbound, ?_, ?_⟩
  · intro iv hiv hfree
    refine ⟨fun hnone => ?_, hinv.spilled iv.vreg⟩
    rcases hinv.pending _ iv ((hknown _ _).2 ⟨hiv, hfree, rfl⟩) with ha | ha | ⟨e, he, -⟩ | ha
    · exact absurd hnone ha
    · exact ha
    · rw [hempty] at he
      simp at he
    · simp at ha
  intro iu hiu iv hiv hfreeu hfreev hne p q hp hq hover
  have hu := (hknown _ _).2 ⟨hiu, hfreeu, rfl⟩
  have hv := (hknown _ _).2 ⟨hiv, hfreev, rfl⟩
  have hapart := hinv.store.apart _ _ p q iu iv hne hp hq (allocatorPregsOverlap_iff.1 hover) hu hv
  rw [← Bool.not_eq_true]
  exact fun hlap => hapart ((Ranges.overlaps_iff (hinv.store.filed _ iu hu).2
    (hinv.store.filed _ iv hv).2).1 hlap)

/-- Weights that are natural numbers. -/
def natFloats : Floats ℕ where
  zero := 0
  max := 1000
  add := fun a b => a + b
  lt := fun a b => a < b
  ge := fun a b => a ≥ b
  totalCmp := compare

/-- One register for two intervals at one place. -/
theorem allocate_terminates_contended : ∃ s bound, s.worklist = [] ∧ ∀ fuel, bound ≤ fuel →
      (newWithReserved [LinearScan.oneRange ⟨0, .gpr64⟩ 0 10 1,
        LinearScan.oneRange ⟨1, .gpr64⟩ 2 6 2] (fun _ => some [0]) (fun _ => none) []
        (fun _ => none)).allocate natFloats fuel = some s := by
  obtain ⟨s, -, hempty, bound, hrun⟩ := allocate_terminates natFloats (fun _ => True)
    ⟨by simp [natFloats], by simp only [natFloats, decide_eq_false_iff_not]; omega⟩
    [LinearScan.oneRange ⟨0, .gpr64⟩ 0 10 1, LinearScan.oneRange ⟨1, .gpr64⟩ 2 6 2]
    (fun _ => some [0]) (fun _ => none) [] (fun _ => none) (by simp)
  exact ⟨s, bound, hempty, hrun⟩

/-- Two overlapping intervals and two registers at both widths: each vreg gets one of its own. -/
theorem allocate_exact_two_registers : ∃ s bound, (∀ fuel, bound ≤ fuel →
        (newWithReserved [LinearScan.oneRange ⟨0, .gpr64⟩ 0 10 1,
          LinearScan.oneRange ⟨1, .gpr32⟩ 2 6 2] LinearScan.twoRegs (fun _ => none) []
          (fun _ => none)).allocate natFloats fuel = some s)
      ∧ s.assignment ⟨0, .gpr64⟩ = some 1 ∧ s.assignment ⟨1, .gpr32⟩ = some 32
      ∧ allocatorPregsOverlap 1 32 = false := by
  obtain ⟨-, s, -, ⟨bound, hrun⟩, -, hapart⟩ := allocate_exact natFloats (fun _ => True)
    ⟨by simp [natFloats], by simp only [natFloats, decide_eq_false_iff_not]; omega⟩
    [LinearScan.oneRange ⟨0, .gpr64⟩ 0 10 1, LinearScan.oneRange ⟨1, .gpr32⟩ 2 6 2]
    LinearScan.twoRegs (fun _ => none) [] (fun _ => none)
    (by simp [LinearScan.oneRange, Ordered]) (by simp) (by decide)
  have hten : ((newWithReserved [LinearScan.oneRange ⟨0, .gpr64⟩ 0 10 1,
      LinearScan.oneRange ⟨1, .gpr32⟩ 2 6 2] LinearScan.twoRegs (fun _ => none) []
      (fun _ => none)).allocate natFloats 10).map (fun s => (s.assignment ⟨0, .gpr64⟩,
        s.assignment ⟨1, .gpr32⟩)) = some (some 1, some 32) := by decide +kernel
  obtain ⟨t, ht, hassigned⟩ := Option.map_eq_some_iff.1 hten
  -- more fuel does not change the result
  obtain rfl : t = s := Option.some.inj
    ((Loop.run_mono _ _ _ _ (le_max_right bound 10) ht).symm.trans (hrun _ (le_max_left _ _)))
  obtain ⟨h0, h1⟩ := Prod.mk.inj hassigned
  refine ⟨t, bound, hrun, h0, h1, ?_⟩
  rw [← Bool.not_eq_true]
  intro hover
  have hlap := hapart (LinearScan.oneRange ⟨0, .gpr64⟩ 0 10 1) (by simp)
    (LinearScan.oneRange ⟨1, .gpr32⟩ 2 6 2) (by simp) rfl rfl (by decide) _ _ h0 h1 hover
  cases hlap

/-- **Distinct vregs matter.**  Of two intervals with one vreg the allocator forgets the first,
and gives its register to another interval that overlaps it. -/
theorem allocate_forgets_first :
    (((newWithReserved [LinearScan.oneRange ⟨0, .gpr64⟩ 0 10 1,
        LinearScan.oneRange ⟨1, .gpr64⟩ 2 6 1, LinearScan.oneRange ⟨0, .gpr64⟩ 20 30 1]
        (fun _ => some [0]) (fun _ => none) [] (fun _ => none)).allocate natFloats 10).map
        fun s => (s.assignment ⟨0, .gpr64⟩, s.assignment ⟨1, .gpr64⟩, s.spilled))
      = some (some 0, some 0, [])
    ∧ (LinearScan.oneRange ⟨0, .gpr64⟩ 0 10 1).overlaps (LinearScan.oneRange ⟨1, .gpr64⟩ 2 6 1)
      = true := by
  decide +kernel

end GreedyAllocator

end TrustCg.RegAlloc
