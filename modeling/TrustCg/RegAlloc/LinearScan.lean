import TrustCg.RegAlloc.Liveness
import TrustCg.RegAlloc.Regs

/-!
# The linear scan allocator

`LinearScan`: intervals are visited by increasing start; intervals that ended are
expired and their registers returned to the free pools; a hinted or a free register
is taken if no reservation and no active interval stands against it; otherwise the
cheapest active interval that blocks a register is spilled, or the current one is.

Three views of the allocation have to agree: the free pools, the active list and the
allocation map.  `ScanInv` ties them together with what is promised about the result,
each step of the loop keeps it (`step_spec`), and `allocate_sound` reads the promise
off the final state.

Spill weights only enter through one comparison, so nothing is assumed about them.
-/

namespace TrustCg.RegAlloc

open Ranges (Covers Ordered Meet)
open Function (update update_of_ne update_self)
open List
open Option (some_inj)
open LiveInterval (stop vreg)

/-- The errors of the allocators that the model can raise. -/
inductive AllocError
  | failed (message : String)
  deriving DecidableEq, Repr

/-- A reservation of overlapping storage at a position where the interval is live, unless
the position is exempt.  Both allocators make this test. -/
def reservationClash {W : Type*} (reservedRegs : List (PReg × List ℕ)) (iv : LiveInterval W)
    (preg : PReg) (exempt : List ℕ) : Bool :=
  reservedRegs.any fun (reservedPreg, points) => allocatorPregsOverlap reservedPreg preg
      && points.any fun pos => iv.isLiveAt pos && !exempt.contains pos

/-- `LinearScan`.  The maps of the source are functions to `Option`; the reservations
are kept as a list since they are walked through. -/
structure LinearScan (W : Type*) where
  intervals : List (LiveInterval W)
  active : List ℕ
  allocatable : RegClass → Option (List PReg)
  allocation : VReg → Option PReg
  spills : List VReg
  freeRegs : RegClass → Option (List PReg)
  reservedRegs : List (PReg × List ℕ)
  hints : VReg → Option (List PReg)
  hintExempt : VReg × PReg → Option (List ℕ)

namespace LinearScan

variable {W : Type*}

/-- `new_with_reserved`, followed by `set_hints`.  The intervals are sorted by start,
and the sort is stable. -/
def newWithReserved (intervals : List (LiveInterval W))
    (targetRegs : RegClass → Option (List PReg)) (reservedRegs : List (PReg × List ℕ))
    (hints : VReg → Option (List PReg)) (hintExempt : VReg × PReg → Option (List ℕ)) :
    LinearScan W where
  intervals := intervals.mergeSort fun a b => a.start ≤ b.start
  active := []
  allocatable := targetRegs
  allocation := fun _ => none
  spills := []
  freeRegs := targetRegs
  reservedRegs := reservedRegs
  hints := hints
  hintExempt := hintExempt

variable (s : LinearScan W)

/-- The end of an interval by index. -/
def endAt (idx : ℕ) : ℕ := ((s.intervals[idx]?).map stop).getD 0

/-- The register an interval holds. -/
def pregAt (idx : ℕ) : Option PReg := (s.intervals[idx]?).bind fun iv => s.allocation iv.vreg

/-- `active_allocation_overlaps_except`; without an exception, `none`. -/
def activeAllocationOverlapsExcept (preg : PReg) (exceptIdx : Option ℕ) : Bool :=
  s.active.any fun idx =>
    if some idx = exceptIdx then false
    else
      match s.pregAt idx with
      | some activePreg => allocatorPregsOverlap activePreg preg
      | none => false

/-- An active interval has the storage. -/
def activeAllocationOverlaps (preg : PReg) : Bool := s.activeAllocationOverlapsExcept preg none

variable (iv : LiveInterval W)

/-- Reservations, but at exempt positions. -/
def reservedInterferesExcept (preg : PReg) (exempt : List ℕ) : Bool :=
  reservationClash s.reservedRegs iv preg exempt

/-- Interference with a reservation. -/
def reservedInterferes (preg : PReg) : Bool :=
  s.reservedRegs.any fun (reservedPreg, points) =>
    allocatorPregsOverlap reservedPreg preg && points.any fun pos => iv.isLiveAt pos

/-! ## Free pools -/

/-- No view of it is free. -/
def removeAliasesFromFreePools (preg : PReg) : LinearScan W :=
  { s with
    freeRegs := (aliasingPregs preg).foldl (fun pools q =>
      update pools (pregClass q) ((pools (pregClass q)).map fun pool =>
        pool.filter fun p => p ≠ q)) s.freeRegs }

/-- `return_preg_to_free_pool_if_unowned`: the register goes back before the first pool
register that the target prefers less. -/
def returnPregToFreePoolIfUnowned (preg : PReg) : LinearScan W :=
  if s.activeAllocationOverlaps preg then s
  else
    match s.allocatable (pregClass preg), s.freeRegs (pregClass preg) with
    | some regs, some pool =>
      if ¬ regs.contains preg ∨ pool.contains preg then s
      else
        let before := pool.takeWhile fun p =>
          !((regs.findIdx? (· == p)).all fun idx => idx > regs.idxOf preg)
        { s with
          freeRegs := update s.freeRegs (pregClass preg)
            (some (before ++ preg :: pool.drop before.length)) }
    | _, _ => s

/-- Every view is free again. -/
def returnPregAndAliasesToFreePools (preg : PReg) : LinearScan W :=
  (preg :: aliasingPregs preg).foldl returnPregToFreePoolIfUnowned s

/-! ## The steps of the scan -/

/-- `expire_old_intervals`: the registers of expired intervals are returned after the
active list has been updated. -/
def expireOldIntervals (pos : ℕ) : LinearScan W :=
  let freed := (s.active.filter fun idx => s.endAt idx ≤ pos).filterMap s.pregAt
  freed.foldl returnPregAndAliasesToFreePools
    { s with active := s.active.filter fun idx => ¬ s.endAt idx ≤ pos }

/-- The hinted register that would be taken: in the pool, not reserved outside its
exempt positions, and not held by an active interval. -/
def hintedFreeReg (cls : RegClass) : Option PReg :=
  (((s.hints iv.vreg).getD []).filter fun p => pregClass p = cls).find? fun hint =>
    ((s.freeRegs cls).getD []).contains hint
      && !s.reservedInterferesExcept iv hint ((s.hintExempt (iv.vreg, hint)).getD [])
      && !s.activeAllocationOverlaps hint

/-- The first register of the pool that nothing stands against. -/
def pooledFreeReg (cls : RegClass) : Option PReg :=
  ((s.freeRegs cls).getD []).find? fun p =>
    !s.reservedInterferes iv p && !s.activeAllocationOverlaps p

/-- `try_alloc_free_reg`: the register found is removed from its pool. -/
def tryAllocFreeReg (cls : RegClass) : Option (PReg × LinearScan W) :=
  ((s.hintedFreeReg iv cls).or (s.pooledFreeReg iv cls)).map fun preg => (preg, { s with
      freeRegs := update s.freeRegs cls
        ((s.freeRegs cls).map fun pool => pool.erase preg) })

/-- `insert_active`: the active list is sorted by end. -/
def insertActive (idx : ℕ) : LinearScan W :=
  { s with
    active := (s.active.takeWhile fun i => ¬ s.endAt i > s.endAt idx)
      ++ idx :: s.active.dropWhile fun i => ¬ s.endAt i > s.endAt idx }

variable (less : W → W → Bool)

/-- The inner loop of `blocked_spill_candidate` at one active interval. -/
def considerActive (candidate : PReg) (best : Option (ℕ × PReg × W))
    (idx : ℕ) : Option (ℕ × PReg × W) :=
  match s.intervals[idx]? with
  | some iv =>
    if iv.isFixed then best
    else
      match s.allocation iv.vreg with
      | some activePreg =>
        if !allocatorPregsOverlap activePreg candidate
            || s.activeAllocationOverlapsExcept candidate (some idx) then best
        else if best.all fun b => less iv.spillWeight b.2.2 then
          some (idx, candidate, iv.spillWeight)
        else best
      | none => best
  | none => best

/-- The active interval to spill instead. -/
def blockedSpillCandidate (current : LiveInterval W) : Option (ℕ × PReg × W) :=
  ((s.allocatable current.vreg.cls).getD []).foldl (fun best candidate =>
    if s.reservedInterferes current candidate then best
    else s.active.foldl (s.considerActive less candidate) best) none

/-- Spills the lighter of the two. -/
def allocateBlockedReg (currentIdx : ℕ) (current : LiveInterval W) :
    Except AllocError (LinearScan W) :=
  match s.blockedSpillCandidate less current with
  | some (spillIdx, preg, weight) =>
    if less weight current.spillWeight then
      match s.intervals[spillIdx]? with
      | some spilled =>
        match s.allocation spilled.vreg with
        | some _ =>
          let s1 := { s with
            allocation := update (update s.allocation spilled.vreg none)
              current.vreg (some preg)
            spills := s.spills ++ [spilled.vreg] }
          let s2 := s1.removeAliasesFromFreePools preg
          .ok ({ s2 with active := s2.active.filter fun i => i ≠ spillIdx }.insertActive
            currentIdx)
        | none =>
          .error (.failed
            ("active interval v" ++ toString spilled.vreg.id ++ " has no allocation"))
      | none => .ok s
    else .ok { s with spills := s.spills ++ [current.vreg] }
  | none => .ok { s with spills := s.spills ++ [current.vreg] }

/-- One round of the loop of `allocate`. -/
def step (s : LinearScan W) (idx : ℕ) : Except AllocError (LinearScan W) :=
  match s.intervals[idx]? with
  | some iv =>
    let s := s.expireOldIntervals iv.start
    if iv.isFixed then .ok s
    else
      match s.tryAllocFreeReg iv iv.vreg.cls with
      | some (preg, s) =>
        let s := { s with allocation := update s.allocation iv.vreg (some preg) }
        .ok ((s.removeAliasesFromFreePools preg).insertActive idx)
      | none => s.allocateBlockedReg less idx iv
  | none => .ok s

/-- `allocate`; the result is read from `allocation` and `spills` of the final state. -/
def allocate : Except AllocError (LinearScan W) :=
  (List.range s.intervals.length).foldlM (step less) s

/-! ## What the tests say -/

variable {s : LinearScan W} {iv : LiveInterval W}

section

variable {preg : PReg}

theorem activeAllocationOverlapsExcept_eq_false {exceptIdx : Option ℕ} :
    s.activeAllocationOverlapsExcept preg exceptIdx = false ↔
      ∀ idx ∈ s.active, some idx ≠ exceptIdx → ∀ iv q, s.intervals[idx]? = some iv →
        s.allocation iv.vreg = some q → allocatorPregsOverlap q preg = false := by
  unfold activeAllocationOverlapsExcept
  rw [any_eq_false]
  constructor
  · intro h idx hidx hne iv q hiv hq
    have hthis := h idx hidx
    rw [if_neg hne, pregAt, hiv, Option.bind_some, hq] at hthis
    simpa using hthis
  intro h idx hidx
  by_cases hne : some idx = exceptIdx
  · simp [hne]
  rw [if_neg hne, pregAt]
  cases hiv : s.intervals[idx]? with
  | none => simp
  | some iv =>
    cases hq : s.allocation iv.vreg with
    | none => simp [hq]
    | some q => simp [hq, h idx hidx hne iv q hiv hq]

theorem reservedInterferesExcept_eq_false (hiv : Ordered iv.ranges) {exempt : List ℕ} :
    s.reservedInterferesExcept iv preg exempt = false ↔
      ∀ r ∈ s.reservedRegs, allocatorPregsOverlap r.1 preg = true → ∀ pos ∈ r.2,
        Covers iv.ranges pos → pos ∈ exempt := by
  have hlive : ∀ pos, iv.isLiveAt pos = true ↔ Covers iv.ranges pos := Ranges.find_iff_covers hiv
  unfold reservedInterferesExcept reservationClash
  rw [any_eq_false]
  constructor
  · intro h r hr hover pos hpos hcov
    have hthis := h r hr
    simp only [hover, Bool.true_and, Bool.not_eq_true, any_eq_false] at hthis
    simpa [(hlive pos).2 hcov] using hthis pos hpos
  intro h r hr
  simp only [Bool.and_eq_true, any_eq_true, not_and, not_exists]
  intro hover pos hpos hlivepos
  simpa using h r hr hover pos hpos ((hlive pos).1 hlivepos)

/-- Exemptions only make a reservation weaker. -/
theorem reservedInterferesExcept_of_none (hiv : Ordered iv.ranges) {exempt : List ℕ}
    (h : s.reservedInterferes iv preg = false) :
    s.reservedInterferesExcept iv preg exempt = false := by
  have hnone : s.reservedInterferesExcept iv preg [] = false := by
    simpa [reservedInterferes, reservedInterferesExcept, reservationClash] using h
  rw [reservedInterferesExcept_eq_false hiv] at hnone ⊢
  intro r hr hover pos hpos hcov
  exact absurd (hnone r hr hover pos hpos hcov) not_mem_nil

end

/-! ## Free pools only hold allocatable registers -/

/-- Every pool is part of the allocatable list of its class. -/
def PoolsOk (s : LinearScan W) : Prop :=
  ∀ c pool, s.freeRegs c = some pool → ∃ regs, s.allocatable c = some regs ∧ ∀ p ∈ pool, p ∈ regs

/-- Only the pools change, and they stay within the allocatable lists. -/
structure PoolStep (s s' : LinearScan W) : Prop where
  frame : s' = { s with freeRegs := s'.freeRegs }
  ok : s.PoolsOk → s'.PoolsOk

theorem PoolStep.refl (s : LinearScan W) : PoolStep s s := ⟨rfl, fun h => h⟩

theorem PoolStep.trans {a b c : LinearScan W} (h1 : PoolStep a b) (h2 : PoolStep b c) :
    PoolStep a c := by
  refine ⟨?_, fun h => h2.ok (h1.ok h)⟩
  rw [h2.frame, h1.frame]

theorem foldl_poolStep {op : LinearScan W → PReg → LinearScan W} (hop : ∀ s p, PoolStep s (op s p))
    (ps : List PReg) (s : LinearScan W) : PoolStep s (ps.foldl op s) := by
  induction ps generalizing s with
  | nil => exact .refl s
  | cons p ps ih => exact (hop s p).trans (ih _)

theorem poolStep_update {c : RegClass} {pool : Option (List PReg)}
    (h : s.PoolsOk → ∀ l, pool = some l → ∃ regs, s.allocatable c = some regs ∧ ∀ p ∈ l, p ∈ regs) :
    PoolStep s { s with freeRegs := update s.freeRegs c pool } := by
  refine ⟨rfl, ?_⟩
  intro hok c' l hl
  dsimp only at hl ⊢
  by_cases hc : c' = c
  · subst hc
    rw [update_self] at hl
    exact h hok l hl
  rw [update_of_ne hc] at hl
  exact hok c' l hl

theorem poolStep_shrink (c : RegClass) (shrink : List PReg → List PReg)
    (h : ∀ l, ∀ p ∈ shrink l, p ∈ l) :
    PoolStep s { s with freeRegs := update s.freeRegs c ((s.freeRegs c).map shrink) } := by
  refine poolStep_update ?_
  intro hok l hl
  obtain ⟨pool, hpool, rfl⟩ := Option.map_eq_some_iff.1 hl
  obtain ⟨regs, hregs, hmem⟩ := hok c pool hpool
  exact ⟨regs, hregs, fun p hp => hmem p (h pool p hp)⟩

section

variable (s : LinearScan W) (preg : PReg)

theorem removeAliasesFromFreePools_poolStep : PoolStep s (s.removeAliasesFromFreePools preg) := by
  unfold removeAliasesFromFreePools
  generalize aliasingPregs preg = qs
  induction qs generalizing s with
  | nil => exact .refl s
  | cons q qs ih =>
    rw [foldl_cons]
    have hstep := poolStep_shrink (s := s) (pregClass q)
      (fun pool => pool.filter fun p => p ≠ q) (fun l p hp => (mem_filter.1 hp).1)
    exact hstep.trans (ih _)

theorem returnPregToFreePoolIfUnowned_poolStep :
    PoolStep s (s.returnPregToFreePoolIfUnowned preg) := by
  unfold returnPregToFreePoolIfUnowned
  split
  · exact .refl s
  split
  next regs pool hregs hpool =>
    split
    · exact .refl s
    rename_i hin
    rw [not_or, not_not] at hin
    refine poolStep_update ?_
    intro hok l hl
    obtain ⟨regs', hregs', hmem⟩ := hok _ pool hpool
    refine ⟨regs', hregs', ?_⟩
    intro p hp
    rw [← Option.some_inj.1 hl] at hp
    rcases mem_append.1 hp with hp | hp
    · exact hmem p ((takeWhile_sublist _).subset hp)
    rcases mem_cons.1 hp with rfl | hp
    · rw [hregs, some_inj] at hregs'
      rw [← hregs']
      simpa using hin.1
    · exact hmem p (mem_of_mem_drop hp)
  · exact .refl s

theorem returnPregAndAliasesToFreePools_poolStep :
    PoolStep s (s.returnPregAndAliasesToFreePools preg) :=
  foldl_poolStep returnPregToFreePoolIfUnowned_poolStep _ s

end

/-- Expiry shortens the active list and otherwise only changes the pools. -/
theorem expireOldIntervals_poolStep (s : LinearScan W) (pos : ℕ) :
    PoolStep { s with active := s.active.filter fun idx => ¬ s.endAt idx ≤ pos }
      (s.expireOldIntervals pos) :=
  foldl_poolStep returnPregAndAliasesToFreePools_poolStep _ _

theorem mem_insertActive {idx i : ℕ} :
    i ∈ (s.insertActive idx).active ↔ i = idx ∨ i ∈ s.active := by
  have hsplit : i ∈ s.active ↔ i ∈ (s.active.takeWhile fun i => ¬ s.endAt i > s.endAt idx)
      ∨ i ∈ s.active.dropWhile fun i => ¬ s.endAt i > s.endAt idx := by
    rw [← mem_append, takeWhile_append_dropWhile]
  rw [insertActive, mem_append, mem_cons, hsplit]
  tauto

/-! ## The invariant of the scan -/

/-- What holds of the allocation, the active list and the spills once the first `n`
intervals of `init` have been visited. -/
structure ScanInv (init : LinearScan W) (allocation : VReg → Option PReg) (active : List ℕ)
    (spills : List VReg) (n : ℕ) : Prop where
  /-- Only visited intervals are active. -/
  active_lt : ∀ idx ∈ active, idx < n
  /-- A visited interval that holds a register is active, or it ends before anything
  that is still to come starts. -/
  expired : ∀ (idx : ℕ) (iv : LiveInterval W), idx < n → init.intervals[idx]? = some iv →
    allocation iv.vreg ≠ none →
    idx ∈ active ∨ ∀ (j : ℕ) (jv : LiveInterval W), n ≤ j → init.intervals[j]? = some jv →
      iv.stop ≤ jv.start
  /-- A visited interval is allocated or spilled, and not both. -/
  decided : ∀ (idx : ℕ) (iv : LiveInterval W), idx < n → init.intervals[idx]? = some iv →
    iv.isFixed = false →
    (allocation iv.vreg ≠ none ∧ iv.vreg ∉ spills) ∨ (allocation iv.vreg = none ∧ iv.vreg ∈ spills)
  /-- Nothing is known of the others, nor of fixed intervals. -/
  fresh : ∀ (idx : ℕ) (iv : LiveInterval W), init.intervals[idx]? = some iv →
    n ≤ idx ∨ iv.isFixed = true → allocation iv.vreg = none ∧ iv.vreg ∉ spills
  inClass : ∀ iv ∈ init.intervals, ∀ p, allocation iv.vreg = some p →
    ∃ regs, init.allocatable iv.vreg.cls = some regs ∧ p ∈ regs
  apart : ∀ iv ∈ init.intervals, ∀ jv ∈ init.intervals, iv.vreg ≠ jv.vreg → ∀ p q,
    allocation iv.vreg = some p → allocation jv.vreg = some q → Meet iv.ranges jv.ranges →
    allocatorPregsOverlap p q = false
  unreserved : ∀ iv ∈ init.intervals, ∀ p, allocation iv.vreg = some p →
    ∀ r ∈ init.reservedRegs, allocatorPregsOverlap r.1 p = true → ∀ pos ∈ r.2,
      Covers iv.ranges pos → pos ∈ (init.hintExempt (iv.vreg, p)).getD []

/-- What the scan needs of its input: ordered ranges, distinct vregs, sorted starts. -/
structure Sorted (init : LinearScan W) : Prop where
  ordered : ∀ iv ∈ init.intervals, Ordered iv.ranges
  distinct : (init.intervals.map vreg).Nodup
  starts : ∀ (i j : ℕ) (iv jv : LiveInterval W), i ≤ j → init.intervals[i]? = some iv →
    init.intervals[j]? = some jv → iv.start ≤ jv.start

variable {init : LinearScan W}

section

variable {allocation : VReg → Option PReg} {active : List ℕ} {spills : List VReg} {n : ℕ}

section

variable (h : Sorted init) {i j : ℕ} {jv : LiveInterval W} (hi : init.intervals[i]? = some iv)
    (hj : init.intervals[j]? = some jv)
include h hi hj

theorem Sorted.inj (heq : iv.vreg = jv.vreg) : i = j := by
  obtain ⟨hilt, rfl⟩ := List.getElem?_eq_some_iff.1 hi
  obtain ⟨hjlt, rfl⟩ := List.getElem?_eq_some_iff.1 hj
  have hmap : ∀ k, (init.intervals.map vreg)[k]? = (init.intervals[k]?).map
      vreg := fun k => getElem?_map ..
  refine (getElem?_inj (by simpa using hilt) h.distinct).1 ?_
  rw [hmap, hmap, hi, hj, Option.map_some, Option.map_some, heq]

theorem Sorted.vreg_ne (hne : i ≠ j) : iv.vreg ≠ jv.vreg := fun heq => hne (h.inj hi hj heq)

end

theorem scanInv_zero (init : LinearScan W) : ScanInv init (fun _ => none) [] [] 0 where
  active_lt := by simp
  expired := by simp
  decided := by simp
  fresh := by simp
  inClass := by simp
  apart := by simp
  unreserved := by simp

variable {active' : List ℕ}

/-- Active intervals that end before the current one starts may be dropped. -/
theorem ScanInv.expire (hs : Sorted init) (h : ScanInv init allocation active spills n)
    (hiv : init.intervals[n]? = some iv) (hsub : ∀ idx ∈ active', idx ∈ active)
    (hkeep : ∀ idx ∈ active, idx ∈ active' ∨ ∀ jv, init.intervals[idx]? = some jv →
      jv.stop ≤ iv.start) :
    ScanInv init allocation active' spills n where
  active_lt := fun idx hidx => h.active_lt idx (hsub idx hidx)
  expired := by
    intro idx jv hlt hjv halloc
    rcases h.expired idx jv hlt hjv halloc with hact | hend
    · rcases hkeep idx hact with hact' | hend
      · exact .inl hact'
      refine .inr fun j kv hj hkv => ?_
      exact le_trans (hend jv hjv) (hs.starts n j iv kv hj hiv hkv)
    · exact .inr hend
  decided := h.decided
  fresh := h.fresh
  inClass := h.inClass
  apart := h.apart
  unreserved := h.unreserved

theorem ScanInv.expired_succ (h : ScanInv init allocation active spills n) (idx : ℕ)
    (jv : LiveInterval W) (hlt : idx < n + 1) (hjv : init.intervals[idx]? = some jv)
    (halloc : allocation jv.vreg ≠ none) : idx ∈ active ∨ ∀ (j : ℕ) (kv : LiveInterval W),
      n + 1 ≤ j → init.intervals[j]? = some kv → jv.stop ≤ kv.start := by
  rcases Nat.lt_succ_iff_lt_or_eq.1 hlt with hlt | rfl
  · exact (h.expired idx jv hlt hjv halloc).imp_right fun hend j kv hj => hend j kv (by omega)
  · exact absurd (h.fresh idx jv hjv (.inl le_rfl)).1 halloc

theorem ScanInv.skip (h : ScanInv init allocation active spills n)
    (hiv : init.intervals[n]? = some iv) (hfixed : iv.isFixed = true) :
    ScanInv init allocation active spills (n + 1) where
  active_lt := fun idx hidx => Nat.lt_succ_of_lt (h.active_lt idx hidx)
  expired := h.expired_succ
  decided := by
    intro idx jv hlt hjv hfree
    rcases Nat.lt_succ_iff_lt_or_eq.1 hlt with hlt | rfl
    · exact h.decided idx jv hlt hjv hfree
    rw [hiv, some_inj] at hjv
    rw [← hjv, hfixed] at hfree
    cases hfree
  fresh := fun idx jv hjv hor => h.fresh idx jv hjv (hor.imp_left fun hle => by omega)
  inClass := h.inClass
  apart := h.apart
  unreserved := h.unreserved

theorem ne_of_unvisited {idx k : ℕ} {jv : LiveInterval W} (hk : k < n)
    (hiv : init.intervals[k]? = some iv) (hfree : iv.isFixed = false)
    (hjv : init.intervals[idx]? = some jv) (hor : n ≤ idx ∨ jv.isFixed = true) : idx ≠ k := by
  rintro rfl
  cases hiv.symm.trans hjv
  rcases hor with hle | hfixed
  · omega
  · exact absurd hfixed (by simp [hfree])

section

variable (hs : Sorted init) (h : ScanInv init allocation active spills n)
include hs h

theorem ScanInv.spill (hiv : init.intervals[n]? = some iv) (hfree : iv.isFixed = false) :
    ScanInv init allocation active (spills ++ [iv.vreg]) (n + 1) where
  active_lt := fun idx hidx => Nat.lt_succ_of_lt (h.active_lt idx hidx)
  expired := h.expired_succ
  decided := by
    intro idx jv hlt hjv hfree'
    rcases Nat.lt_succ_iff_lt_or_eq.1 hlt with hlt | rfl
    · have hne := hs.vreg_ne hjv hiv hlt.ne
      exact (h.decided idx jv hlt hjv hfree').imp
        (fun hd => ⟨hd.1, by simp [hd.2, hne]⟩) (fun hd => ⟨hd.1, by simp [hd.2]⟩)
    cases hiv.symm.trans hjv
    exact .inr ⟨(h.fresh idx iv hiv (.inl le_rfl)).1, by simp⟩
  fresh := by
    intro idx jv hjv hor
    have hne := hs.vreg_ne hjv hiv (ne_of_unvisited (Nat.lt_succ_self n) hiv hfree hjv hor)
    obtain ⟨h1, h2⟩ := h.fresh idx jv hjv (hor.imp_left fun hle => by omega)
    exact ⟨h1, by simp [h2, hne]⟩
  inClass := h.inClass
  apart := h.apart
  unreserved := h.unreserved

theorem ScanInv.evict {k : ℕ} {kv : LiveInterval W} (hkn : k < n)
    (hkv : init.intervals[k]? = some kv) (hfree : kv.isFixed = false) :
    ScanInv init (update allocation kv.vreg none) (active.filter fun i => i ≠ k)
      (spills ++ [kv.vreg]) n := by
  have hother : ∀ {v : VReg} {p : PReg}, update allocation kv.vreg none v = some p →
      allocation v = some p := by
    intro v p hv
    exact (update_none_iff.1 hv).2
  refine ⟨?_, ?_, ?_, ?_, ?_, ?_, ?_⟩
  · exact fun idx hidx => h.active_lt idx (mem_filter.1 hidx).1
  · intro idx jv hlt hjv halloc
    obtain ⟨p, hp⟩ := Option.ne_none_iff_exists'.1 halloc
    obtain ⟨hne, hp⟩ := update_none_iff.1 hp
    rcases h.expired idx jv hlt hjv (by rw [hp]; simp) with hact | hend
    · have hidx : idx ≠ k := by
        rintro rfl
        cases hkv.symm.trans hjv
        exact hne rfl
      exact .inl (mem_filter.2 ⟨hact, by simpa using hidx⟩)
    · exact .inr hend
  · intro idx jv hlt hjv hfree'
    by_cases hidx : idx = k
    · subst hidx
      cases hkv.symm.trans hjv
      exact .inr ⟨update_self .., by simp⟩
    have hne := hs.vreg_ne hjv hkv hidx
    rw [update_of_ne hne]
    exact (h.decided idx jv hlt hjv hfree').imp
      (fun hd => ⟨hd.1, by simp [hd.2, hne]⟩) (fun hd => ⟨hd.1, by simp [hd.2]⟩)
  · intro idx jv hjv hor
    have hne := hs.vreg_ne hjv hkv (ne_of_unvisited hkn hkv hfree hjv hor)
    obtain ⟨h1, h2⟩ := h.fresh idx jv hjv hor
    exact ⟨by rw [update_of_ne hne]; exact h1, by simp [h2, hne]⟩
  · exact fun jv hjv p hp => h.inClass jv hjv p (hother hp)
  · intro jv hjv kv' hkv' hne p q hp hq
    exact h.apart jv hjv kv' hkv' hne p q (hother hp) (hother hq)
  · intro jv hjv p hp
    exact h.unreserved jv hjv p (hother hp)

/-- **The current interval takes a register.**  The register is allocatable, no active
interval holds an overlapping one, and it is not reserved outside exempt positions. -/
theorem ScanInv.assign (hiv : init.intervals[n]? = some iv) {p : PReg}
    (hactive' : ∀ i, i ∈ active' ↔ i = n ∨ i ∈ active)
    (hclass : ∃ regs, init.allocatable iv.vreg.cls = some regs ∧ p ∈ regs)
    (hfree : ∀ idx ∈ active, ∀ jv q, init.intervals[idx]? = some jv →
      allocation jv.vreg = some q → allocatorPregsOverlap q p = false)
    (hreserved : ∀ r ∈ init.reservedRegs, allocatorPregsOverlap r.1 p = true → ∀ pos ∈ r.2,
      Covers iv.ranges pos → pos ∈ (init.hintExempt (iv.vreg, p)).getD [])
    (hfixed : iv.isFixed = false) :
    ScanInv init (update allocation iv.vreg (some p)) active' spills (n + 1) := by
  have hmem : iv ∈ init.intervals := mem_of_getElem? hiv
  -- an interval with a register is the current one, or it held the register before
  have hcases : ∀ jv ∈ init.intervals, ∀ q, update allocation iv.vreg (some p) jv.vreg = some q →
      (jv = iv ∧ q = p) ∨ (jv.vreg ≠ iv.vreg ∧ allocation jv.vreg = some q) := by
    intro jv hjv q hq
    rcases update_some_iff.1 hq with ⟨heq, rfl⟩ | hold
    · obtain ⟨j, hj⟩ := mem_iff_getElem?.1 hjv
      rw [hs.inj hj hiv heq, hiv, some_inj] at hj
      exact .inl ⟨hj.symm, rfl⟩
    · exact .inr hold
  -- an interval that held a register before and meets the current one is active
  have hmeet : ∀ jv ∈ init.intervals, ∀ q, jv.vreg ≠ iv.vreg → allocation jv.vreg = some q →
      Meet jv.ranges iv.ranges → allocatorPregsOverlap q p = false := by
    intro jv hjv q hne hq hmeet
    obtain ⟨j, hj⟩ := mem_iff_getElem?.1 hjv
    have hlt : j < n := by
      by_contra hge
      have := (h.fresh j jv hj (.inl (by omega))).1
      rw [hq] at this
      simp at this
    rcases h.expired j jv hlt hj (by rw [hq]; simp) with hact | hend
    · exact hfree j hact jv q hj hq
    obtain ⟨pos, h1, h2⟩ := hmeet
    have hle := hend n iv le_rfl hiv
    have hlast : pos < jv.stop := (hs.ordered jv hjv).lt_getLast h1
    have hfirst : iv.start ≤ pos := (hs.ordered iv hmem).head_le h2
    omega
  refine ⟨?_, ?_, ?_, ?_, ?_, ?_, ?_⟩
  · intro idx hidx
    rcases (hactive' idx).1 hidx with rfl | hidx
    · exact Nat.lt_succ_self _
    · exact Nat.lt_succ_of_lt (h.active_lt idx hidx)
  · intro idx jv hlt hjv halloc
    rcases Nat.lt_succ_iff_lt_or_eq.1 hlt with hlt | rfl
    · have hne := hs.vreg_ne hjv hiv hlt.ne
      rw [update_of_ne hne] at halloc
      exact (h.expired idx jv hlt hjv halloc).imp
        (fun hact => (hactive' idx).2 (.inr hact)) fun hend j kv hj => hend j kv (by omega)
    · exact .inl ((hactive' idx).2 (.inl rfl))
  · intro idx jv hlt hjv hfree'
    rcases Nat.lt_succ_iff_lt_or_eq.1 hlt with hlt | rfl
    · have hne := hs.vreg_ne hjv hiv hlt.ne
      rw [update_of_ne hne]
      exact h.decided idx jv hlt hjv hfree'
    cases hiv.symm.trans hjv
    refine .inl ⟨by rw [update_self]; simp, ?_⟩
    exact (h.fresh idx iv hiv (.inl le_rfl)).2
  · intro idx jv hjv hor
    have hidx := ne_of_unvisited (Nat.lt_succ_self n) hiv hfixed hjv hor
    rw [update_of_ne (hs.vreg_ne hjv hiv hidx)]
    exact h.fresh idx jv hjv (hor.imp_left fun hle => by omega)
  · intro jv hjv q hq
    rcases hcases jv hjv q hq with ⟨rfl, rfl⟩ | ⟨-, hq⟩
    · exact hclass
    · exact h.inClass jv hjv q hq
  · intro jv hjv kv hkv hne q q' hq hq' hmeets
    rcases hcases jv hjv q hq with ⟨rfl, rfl⟩ | ⟨hne1, hq1⟩
    · rcases hcases kv hkv q' hq' with ⟨rfl, rfl⟩ | ⟨hne2, hq2⟩
      · exact absurd rfl hne
      rw [allocatorPregsOverlap_comm]
      exact hmeet kv hkv q' hne2 hq2 hmeets.symm
    rcases hcases kv hkv q' hq' with ⟨rfl, rfl⟩ | ⟨-, hq2⟩
    · exact hmeet jv hjv q hne1 hq1 hmeets
    · exact h.apart jv hjv kv hkv hne q q' hq1 hq2 hmeets
  · intro jv hjv q hq
    rcases hcases jv hjv q hq with ⟨rfl, rfl⟩ | ⟨-, hq⟩
    · exact hreserved
    · exact h.unreserved jv hjv q hq

end

end

/-! ## The loop -/

section

variable {n : ℕ} (less : W → W → Bool) {s' : LinearScan W} {current : LiveInterval W}

/-- The input of the scan never changes, and the pools hold allocatable registers. -/
structure Frame (init s : LinearScan W) : Prop where
  intervals : s.intervals = init.intervals
  allocatable : s.allocatable = init.allocatable
  reservedRegs : s.reservedRegs = init.reservedRegs
  hintExempt : s.hintExempt = init.hintExempt
  pools : s.PoolsOk

/-- The state after `n` intervals. -/
def Reached (init s : LinearScan W) (n : ℕ) : Prop :=
  Frame init s ∧ ScanInv init s.allocation s.active s.spills n

theorem Frame.poolStep (h : Frame init s) (hstep : PoolStep s s') : Frame init s' := by
  have hframe := hstep.frame
  refine ⟨?_, ?_, ?_, ?_, hstep.ok h.pools⟩
  · rw [hframe]; exact h.intervals
  · rw [hframe]; exact h.allocatable
  · rw [hframe]; exact h.reservedRegs
  · rw [hframe]; exact h.hintExempt

theorem expireOldIntervals_reached (hs : Sorted init) (h : Reached init s n)
    (hiv : init.intervals[n]? = some iv) : Reached init (s.expireOldIntervals iv.start) n := by
  obtain ⟨hframe, hinv⟩ := h
  have hstep := s.expireOldIntervals_poolStep iv.start
  have hframe' : Frame init { s with active := s.active.filter fun i => ¬ s.endAt i ≤ iv.start } :=
    { hframe with }
  refine ⟨hframe'.poolStep hstep, ?_⟩
  rw [hstep.frame]
  refine hinv.expire hs hiv (fun idx hidx => (mem_filter.1 hidx).1) ?_
  intro idx hidx
  by_cases hend : s.endAt idx ≤ iv.start
  · refine .inr fun jv hjv => ?_
    rw [endAt, hframe.intervals, hjv] at hend
    exact hend
  · exact .inl (mem_filter.2 ⟨hidx, by simpa using hend⟩)

/-- A register that `try_alloc_free_reg` finds is allocatable, free and unreserved. -/
theorem tryAllocFreeReg_spec (h : s.PoolsOk) (hiv : Ordered iv.ranges) {preg : PReg}
    (hfound : s.tryAllocFreeReg iv iv.vreg.cls = some (preg, s')) :
    PoolStep s s' ∧ (∃ regs, s.allocatable iv.vreg.cls = some regs ∧ preg ∈ regs)
      ∧ s.activeAllocationOverlaps preg = false
      ∧ s.reservedInterferesExcept iv preg ((s.hintExempt (iv.vreg, preg)).getD []) = false := by
  unfold tryAllocFreeReg at hfound
  obtain ⟨p, hp, heq⟩ := Option.map_eq_some_iff.1 hfound
  rw [Prod.mk.injEq] at heq
  obtain ⟨rfl, rfl⟩ := heq
  have hstep := poolStep_shrink (s := s) iv.vreg.cls (fun pool => pool.erase p)
    fun _ _ => mem_of_mem_erase
  have hpool : ∀ q ∈ (s.freeRegs iv.vreg.cls).getD [],
      ∃ regs, s.allocatable iv.vreg.cls = some regs ∧ q ∈ regs := by
    intro q hq
    cases hfree : s.freeRegs iv.vreg.cls with
    | none => rw [hfree] at hq; simp at hq
    | some pool =>
      rw [hfree] at hq
      obtain ⟨regs, hregs, hmem⟩ := h _ pool hfree
      exact ⟨regs, hregs, hmem q hq⟩
  rcases Option.or_eq_some_iff.1 hp with hhint | ⟨-, hpooled⟩
  · have hcond := find?_some hhint
    simp only [Bool.and_eq_true, contains_iff_mem, Bool.not_eq_true'] at hcond
    exact ⟨hstep, hpool p hcond.1.1, hcond.2, hcond.1.2⟩
  have hcond := find?_some hpooled
  simp only [Bool.and_eq_true, Bool.not_eq_true'] at hcond
  exact ⟨hstep, hpool p (mem_of_find?_eq_some hpooled), hcond.2,
    reservedInterferesExcept_of_none hiv hcond.1⟩

/-- What makes an active interval a candidate for spilling. -/
def Candidate (s : LinearScan W) (current : LiveInterval W) (b : ℕ × PReg × W) : Prop :=
  b.1 ∈ s.active
    ∧ (∃ regs, s.allocatable current.vreg.cls = some regs ∧ b.2.1 ∈ regs)
    ∧ s.reservedInterferes current b.2.1 = false
    ∧ s.activeAllocationOverlapsExcept b.2.1 (some b.1) = false
    ∧ ∃ jv q, s.intervals[b.1]? = some jv ∧ jv.isFixed = false ∧ s.allocation jv.vreg = some q

theorem considerActive_cases (candidate : PReg) (best : Option (ℕ × PReg × W)) (idx : ℕ) :
    s.considerActive less candidate best idx = best
      ∨ ∃ jv q, s.considerActive less candidate best idx = some (idx, candidate, jv.spillWeight)
        ∧ s.intervals[idx]? = some jv ∧ jv.isFixed = false ∧ s.allocation jv.vreg = some q
        ∧ s.activeAllocationOverlapsExcept candidate (some idx) = false := by
  unfold considerActive
  split
  next jv hjv =>
    split
    · exact .inl rfl
    rename_i hfixed
    split
    next q hq =>
      split
      · exact .inl rfl
      rename_i hover
      split
      · refine .inr ⟨jv, q, rfl, hjv, by simpa using hfixed, hq, ?_⟩
        simp only [Bool.or_eq_true, not_or, Bool.not_eq_true] at hover
        exact hover.2
      · exact .inl rfl
    · exact .inl rfl
  · exact .inl rfl

theorem foldl_considerActive {candidate : PReg}
    (hcand : ∃ regs, s.allocatable current.vreg.cls = some regs ∧ candidate ∈ regs)
    (hres : s.reservedInterferes current candidate = false) {best : Option (ℕ × PReg × W)}
    (hbest : ∀ b, best = some b → s.Candidate current b) :
    ∀ b, s.active.foldl (s.considerActive less candidate) best = some b →
      s.Candidate current b := by
  refine List.foldlRecOn (motive := fun best => ∀ b, best = some b → s.Candidate current b)
    _ _ hbest fun best hbest idx hidx b hb => ?_
  rcases considerActive_cases less candidate best idx with heq | ⟨jv, q, heq, h⟩
  · rw [heq] at hb
    exact hbest b hb
  rw [heq, some_inj] at hb
  rw [← hb]
  exact ⟨hidx, hcand, hres, h.2.2.2, jv, q, h.1, h.2.1, h.2.2.1⟩

theorem blockedSpillCandidate_spec {b : ℕ × PReg × W}
    (hb : s.blockedSpillCandidate less current = some b) : s.Candidate current b := by
  refine List.foldlRecOn (motive := fun best => ∀ b, best = some b → s.Candidate current b) _ _
    (fun b h => by cases h) (fun best hbest p hp b hb => ?_) b hb
  by_cases hres : s.reservedInterferes current p = true
  · simp only [if_pos hres] at hb
    exact hbest b hb
  simp only [if_neg hres] at hb
  have hcand : ∃ regs, s.allocatable current.vreg.cls = some regs ∧ p ∈ regs := by
    cases halloc : s.allocatable current.vreg.cls with
    | none => rw [halloc] at hp; simp at hp
    | some regs => rw [halloc] at hp; exact ⟨regs, rfl, hp⟩
  exact foldl_considerActive less hcand (by simpa using hres) hbest b hb

section

variable (hs : Sorted init) (h : Reached init s n) (hiv : init.intervals[n]? = some iv)
include hs h hiv

theorem Reached.assign (hfixed : iv.isFixed = false) {p : PReg}
    (hclass : ∃ regs, s.allocatable iv.vreg.cls = some regs ∧ p ∈ regs)
    (hfree : s.activeAllocationOverlaps p = false)
    (hreserved : s.reservedInterferesExcept iv p ((s.hintExempt (iv.vreg, p)).getD []) = false) :
    Reached init (({ s with
      allocation := update s.allocation iv.vreg (some p) }.removeAliasesFromFreePools
        p).insertActive n) (n + 1) := by
  obtain ⟨hframe, hinv⟩ := h
  have hord := hs.ordered iv (mem_of_getElem? hiv)
  rw [activeAllocationOverlaps, activeAllocationOverlapsExcept_eq_false] at hfree
  rw [reservedInterferesExcept_eq_false hord, hframe.reservedRegs, hframe.hintExempt] at hreserved
  rw [hframe.allocatable] at hclass
  have hstep := removeAliasesFromFreePools_poolStep
    { s with allocation := update s.allocation iv.vreg (some p) } p
  have hframe1 : Frame init
      { s with allocation := update s.allocation iv.vreg (some p) } :=
    { hframe with }
  have hframe2 := hframe1.poolStep hstep
  refine ⟨{ hframe2 with }, hinv.assign hs hiv (fun i => mem_insertActive) hclass ?_ hreserved
    hfixed⟩
  intro idx hidx jv q hjv hq
  exact hfree idx hidx (by simp) jv q (by rw [hframe.intervals]; exact hjv) hq

/-- No register is free: the cheapest blocking interval or the current one is spilled. -/
theorem allocateBlockedReg_reached (hfixed : iv.isFixed = false) :
    ∃ s', s.allocateBlockedReg less n iv = .ok s' ∧ Reached init s' (n + 1) := by
  have hspill : Reached init { s with spills := s.spills ++ [iv.vreg] } (n + 1) :=
    ⟨{ h.1 with }, h.2.spill hs hiv hfixed⟩
  unfold allocateBlockedReg
  cases hcand : s.blockedSpillCandidate less iv with
  | none => exact ⟨_, rfl, hspill⟩
  | some b =>
    obtain ⟨k, p, weight⟩ := b
    dsimp only
    by_cases hless : less weight iv.spillWeight = true
    · rw [if_pos hless]
      obtain ⟨hact, hclass, hres, hover, kv, q, hkv, hkfixed, hq⟩ :=
        blockedSpillCandidate_spec less hcand
      simp only [hkv, hq]
      refine ⟨_, rfl, ?_⟩
      obtain ⟨hframe, hinv⟩ := h
      have hkv' : init.intervals[k]? = some kv := by rw [← hframe.intervals]; exact hkv
      -- the state with the candidate already evicted
      have hevict : Reached init { s with
          allocation := update s.allocation kv.vreg none
          active := s.active.filter fun i => i ≠ k
          spills := s.spills ++ [kv.vreg] } n :=
        ⟨{ hframe with }, hinv.evict hs (hinv.active_lt k hact) hkv' hkfixed⟩
      have hassign := hevict.assign hs hiv hfixed (p := p) hclass ?_ ?_
      · exact hassign
      · rw [activeAllocationOverlaps, activeAllocationOverlapsExcept_eq_false]
        rw [activeAllocationOverlapsExcept_eq_false] at hover
        intro idx hidx _ jv q' hjv hq'
        obtain ⟨hidx, hidxk⟩ := mem_filter.1 hidx
        have hidxk' : idx ≠ k := by simpa using hidxk
        have hjv' : s.intervals[idx]? = some jv := hjv
        have hvne : jv.vreg ≠ kv.vreg :=
          hs.vreg_ne (by rw [← hframe.intervals]; exact hjv') hkv' hidxk'
        dsimp only at hq'
        rw [update_of_ne hvne] at hq'
        exact hover idx hidx (by simpa using hidxk') jv q' hjv' hq'
      exact reservedInterferesExcept_of_none (hs.ordered iv (mem_of_getElem? hiv)) hres
    · rw [if_neg hless]
      exact ⟨_, rfl, hspill⟩

/-- **One interval.** -/
theorem step_spec : ∃ s', step less s n = .ok s' ∧ Reached init s' (n + 1) := by
  have hexp := expireOldIntervals_reached hs h hiv
  unfold step
  rw [h.1.intervals, hiv]
  dsimp only
  by_cases hfixed : iv.isFixed = true
  · rw [if_pos hfixed]
    exact ⟨_, rfl, hexp.1, hexp.2.skip hiv hfixed⟩
  rw [if_neg hfixed]
  have hfree : iv.isFixed = false := by simpa using hfixed
  cases hfound : (s.expireOldIntervals iv.start).tryAllocFreeReg iv iv.vreg.cls with
  | none => exact allocateBlockedReg_reached less hs hexp hiv hfree
  | some found =>
    obtain ⟨preg, s'⟩ := found
    obtain ⟨hstep, hclass, hover, hres⟩ := tryAllocFreeReg_spec hexp.1.pools
      (hs.ordered iv (mem_of_getElem? hiv)) hfound
    have hreached : Reached init s' n := by
      refine ⟨hexp.1.poolStep hstep, ?_⟩
      rw [hstep.frame]
      exact hexp.2
    refine ⟨_, rfl, hreached.assign hs hiv hfree ?_ ?_ ?_⟩
    · rw [hstep.frame]; exact hclass
    · rw [hstep.frame]; exact hover
    · rw [hstep.frame]; exact hres

end

theorem allocate_reached (hs : Sorted init) (hpools : init.PoolsOk)
    (hnew : init.allocation = fun _ => none) (hact : init.active = []) (hsp : init.spills = []) :
    ∃ s, init.allocate less = .ok s ∧ Reached init s init.intervals.length := by
  have hloop : ∀ m ≤ init.intervals.length,
      ∃ s, (List.range m).foldlM (step less) init = .ok s ∧ Reached init s m := by
    intro m
    induction m with
    | zero =>
      intro _
      refine ⟨init, rfl, ⟨rfl, rfl, rfl, rfl, hpools⟩, ?_⟩
      rw [hnew, hact, hsp]
      exact scanInv_zero init
    | succ m ih =>
      intro hm
      obtain ⟨s, hrun, hreached⟩ := ih (by omega)
      obtain ⟨s', hstep, hreached'⟩ := step_spec less hs hreached
        (getElem?_eq_getElem (by omega : m < init.intervals.length))
      refine ⟨s', ?_, hreached'⟩
      rw [range_succ, foldlM_append, hrun]
      change (step less s m >>= fun s => pure s) = _
      rw [hstep]
      rfl
  exact hloop _ le_rfl

end

section

variable (less : W → W → Bool) (intervals : List (LiveInterval W))
  (targetRegs : RegClass → Option (List PReg)) (reservedRegs : List (PReg × List ℕ))
  (hints : VReg → Option (List PReg)) (hintExempt : VReg × PReg → Option (List ℕ))

variable {intervals targetRegs reservedRegs hints hintExempt} in
theorem mem_intervals_new {iv : LiveInterval W} :
    iv ∈ (newWithReserved intervals targetRegs reservedRegs hints hintExempt).intervals
      ↔ iv ∈ intervals :=
  mem_mergeSort

theorem sorted_new (hwf : ∀ iv ∈ intervals, Ordered iv.ranges)
    (hdistinct : (intervals.map vreg).Nodup) :
    Sorted (newWithReserved intervals targetRegs reservedRegs hints hintExempt) where
  ordered := fun iv hiv => hwf iv (mem_intervals_new.1 hiv)
  distinct := ((mergeSort_perm ..).map vreg).nodup_iff.2 hdistinct
  starts := by
    intro i j iv jv hij hi hj
    rcases Nat.eq_or_lt_of_le hij with rfl | hlt
    · rw [hi, some_inj] at hj
      rw [hj]
    have hsorted := @List.pairwise_mergeSort _
      (fun a b : LiveInterval W => decide (a.start ≤ b.start))
      (fun a b c => by simp only [decide_eq_true_eq]; omega)
      (fun a b => by simp only [Bool.or_eq_true, decide_eq_true_eq]; omega) intervals
    obtain ⟨hilt, rfl⟩ := List.getElem?_eq_some_iff.1 hi
    obtain ⟨hjlt, rfl⟩ := List.getElem?_eq_some_iff.1 hj
    exact of_decide_eq_true (pairwise_iff_getElem.1 hsorted i j hilt hjlt hlt)

/-- **Linear scan allocates soundly.**  For well-formed intervals of distinct vregs the
scan succeeds.  Each non-fixed interval ends up with a register or spilled, and not
both; the register is allocatable for the class; overlapping intervals never hold
registers that share storage; and no reserved position of overlapping storage lies in
an allocated interval, unless it is exempted for this vreg and this register. -/
theorem allocate_sound
    (hwf : ∀ iv ∈ intervals, Ordered iv.ranges)
    (hdistinct : (intervals.map vreg).Nodup) :
    ∃ s, (newWithReserved intervals targetRegs reservedRegs hints hintExempt).allocate less = .ok s
      ∧ (∀ iv ∈ intervals, iv.isFixed = false → (s.allocation iv.vreg ≠ none ∧ iv.vreg ∉ s.spills)
            ∨ (s.allocation iv.vreg = none ∧ iv.vreg ∈ s.spills))
      ∧ (∀ iv ∈ intervals, ∀ p, s.allocation iv.vreg = some p →
          ∃ regs, targetRegs iv.vreg.cls = some regs ∧ p ∈ regs)
      ∧ (∀ iv ∈ intervals, ∀ jv ∈ intervals, iv.vreg ≠ jv.vreg → ∀ p q,
          s.allocation iv.vreg = some p → s.allocation jv.vreg = some q →
          Meet iv.ranges jv.ranges → allocatorPregsOverlap p q = false)
      ∧ ∀ iv ∈ intervals, ∀ p, s.allocation iv.vreg = some p → ∀ r ∈ reservedRegs,
          allocatorPregsOverlap r.1 p = true → ∀ pos ∈ r.2, Covers iv.ranges pos →
          pos ∈ (hintExempt (iv.vreg, p)).getD [] := by
  have hs := sorted_new intervals targetRegs reservedRegs hints hintExempt hwf hdistinct
  have hpools : (newWithReserved intervals targetRegs reservedRegs hints hintExempt).PoolsOk :=
    fun c pool hpool => ⟨pool, hpool, fun _ h => h⟩
  obtain ⟨s, hrun, -, hinv⟩ := allocate_reached less hs hpools rfl rfl rfl
  refine ⟨s, hrun, ?_, ?_, ?_, ?_⟩
  · intro iv hiv hfree
    obtain ⟨idx, hidx⟩ := mem_iff_getElem?.1 (mem_intervals_new.2 hiv)
    exact hinv.decided idx iv (List.getElem?_eq_some_iff.1 hidx).1 hidx hfree
  · exact fun iv hiv p hp => hinv.inClass iv (mem_intervals_new.2 hiv) p hp
  · exact fun iv hiv jv hjv => hinv.apart iv (mem_intervals_new.2 hiv) jv (mem_intervals_new.2 hjv)
  · exact fun iv hiv p hp => hinv.unreserved iv (mem_intervals_new.2 hiv) p hp

end

/-! ## Two inputs -/

/-- An interval with one range. -/
def oneRange (v : VReg) (start stop weight : ℕ) : LiveInterval ℕ :=
  ⟨v, [⟨start, stop⟩], weight, false, [], []⟩

/-- The first two registers at both widths. -/
def twoRegs : RegClass → Option (List PReg)
  | .gpr64 => some [0, 1]
  | .gpr32 => some [32, 33]
  | _ => none

/-- A 64-bit and a 32-bit vreg that overlap get registers with different storage. -/
theorem allocate_sound_mixed_width :
    ∃ s, (newWithReserved [oneRange ⟨0, .gpr64⟩ 0 10 1, oneRange ⟨1, .gpr32⟩ 2 6 1] twoRegs
        [(0, [8])] (fun _ => none) (fun _ => none)).allocate (fun a b => a < b) = .ok s
      ∧ s.allocation ⟨0, .gpr64⟩ = some 1 ∧ s.allocation ⟨1, .gpr32⟩ = some 32
      ∧ allocatorPregsOverlap 1 32 = false := by
  obtain ⟨s, hrun, -, -, hapart, -⟩ := allocate_sound (fun a b : ℕ => decide (a < b))
    [oneRange ⟨0, .gpr64⟩ 0 10 1, oneRange ⟨1, .gpr32⟩ 2 6 1] twoRegs [(0, [8])]
    (fun _ => none) (fun _ => none) (by simp [oneRange, Ordered]) (by decide)
  have hsort : List.mergeSort [oneRange ⟨0, .gpr64⟩ 0 10 1, oneRange ⟨1, .gpr32⟩ 2 6 1]
      (fun a b => decide (a.start ≤ b.start))
      = [oneRange ⟨0, .gpr64⟩ 0 10 1, oneRange ⟨1, .gpr32⟩ 2 6 1] :=
    mergeSort_of_pairwise (by decide)
  have hvals : s.allocation ⟨0, .gpr64⟩ = some 1 ∧ s.allocation ⟨1, .gpr32⟩ = some 32 := by
    have hrun' := hrun
    unfold newWithReserved at hrun'
    rw [hsort] at hrun'
    obtain rfl := Except.ok.inj hrun'
    exact ⟨by decide, by decide⟩
  refine ⟨s, hrun, hvals.1, hvals.2, ?_⟩
  refine hapart (oneRange ⟨0, .gpr64⟩ 0 10 1) (by simp) (oneRange ⟨1, .gpr32⟩ 2 6 1) (by simp)
    (by decide) _ _ hvals.1 hvals.2 ⟨2, ?_, ?_⟩
  · simp [oneRange, Covers]
  · simp [oneRange, Covers]

/-- **Distinct vregs matter.**  A list that names one vreg twice can leave it both
allocated and spilled. -/
theorem allocate_twice_both :
    (∀ iv ∈ [oneRange ⟨0, .gpr64⟩ 0 10 1, oneRange ⟨0, .gpr64⟩ 2 6 1], Ordered iv.ranges)
      ∧ ∃ s, (newWithReserved [oneRange ⟨0, .gpr64⟩ 0 10 1, oneRange ⟨0, .gpr64⟩ 2 6 1]
            (fun _ => some [0]) [] (fun _ => none) (fun _ => none)).allocate
          (fun a b => a < b) = .ok s
        ∧ s.allocation ⟨0, .gpr64⟩ = some 0 ∧ ⟨0, .gpr64⟩ ∈ s.spills := by
  refine ⟨by simp [oneRange, Ordered], ?_⟩
  have hsort : List.mergeSort [oneRange ⟨0, .gpr64⟩ 0 10 1, oneRange ⟨0, .gpr64⟩ 2 6 1]
      (fun a b => decide (a.start ≤ b.start))
      = [oneRange ⟨0, .gpr64⟩ 0 10 1, oneRange ⟨0, .gpr64⟩ 2 6 1] :=
    mergeSort_of_pairwise (by decide)
  unfold newWithReserved
  rw [hsort]
  exact ⟨_, rfl, by decide, by decide⟩

end LinearScan

end TrustCg.RegAlloc
