import TrustCg.Lib.Loop
import TrustCg.Lib.SortedMap
import TrustCg.RegAlloc.LinearScan

/-!
# The greedy allocator

`GreedyAllocator::allocate`: intervals leave a priority queue by weight; each one is
assigned a register that nothing interferes with, or evicts cheaper intervals from
one, or moves through the later stages until it is spilled.  Evicted intervals go back
to the queue.

Interference is answered by a store of segments.  Under every assigned register and
under each of its aliases the store keeps the live ranges of the vregs assigned there,
by start, and a query looks at the segments that start inside a range and at one
predecessor.
-/

namespace TrustCg.RegAlloc

open Ranges (Range)
open Function (update)
open List

/-- How far an interval has come. -/
inductive Stage
  | new
  | evict
  | split
  | spill
  | done
  deriving DecidableEq, Repr

/-- The order of the stages. -/
def Stage.rank : Stage → ℕ
  | .new => 0
  | .evict => 1
  | .split => 2
  | .spill => 3
  | .done => 4

/-- The order of the classes. -/
def RegClass.rank : RegClass → ℕ
  | .gpr64 => 0
  | .gpr32 => 1
  | .fpr128 => 2
  | .fpr64 => 3
  | .fpr32 => 4
  | .fpr16 => 5
  | .fpr8 => 6
  | .system => 7

/-- The order of vregs: by id, then by class. -/
def VReg.le (a b : VReg) : Bool :=
  a.id < b.id || (a.id == b.id && a.cls.rank ≤ b.cls.rank)

theorem VReg.le_trans (a b c : VReg) (h1 : a.le b = true) (h2 : b.le c = true) : a.le c = true := by
  simp only [VReg.le, Bool.or_eq_true, Bool.and_eq_true, decide_eq_true_eq, beq_iff_eq] at *
  omega

theorem VReg.le_total (a b : VReg) : (a.le b || b.le a) = true := by
  simp only [VReg.le, Bool.or_eq_true, Bool.and_eq_true, decide_eq_true_eq, beq_iff_eq]
  omega

/-- The floating-point operations the allocator uses on weights. -/
structure Floats (W : Type*) where
  zero : W
  max : W
  add : W → W → W
  lt : W → W → Bool
  ge : W → W → Bool
  totalCmp : W → W → Ordering

/-- On the weights that occur, not being at least is a strict order, as it is for all
floats but `NaN`. -/
structure Floats.OrderedOn {W : Type*} (fl : Floats W) (finite : W → Prop) : Prop where
  ge_refl : ∀ a, finite a → fl.ge a a = true
  lt_trans : ∀ a b c, finite a → finite b → finite c → fl.ge a b = false → fl.ge b c = false →
    fl.ge a c = false

/-- An entry of the queue. -/
structure PriorityEntry (W : Type*) where
  vreg : VReg
  weight : W

/-- `GreedyAllocator`, without what only splitting and statistics use. -/
structure GreedyAllocator (W : Type*) where
  allocatableRegs : RegClass → Option (List PReg)
  hints : VReg → Option (List PReg)
  hintExempt : VReg × PReg → Option (List ℕ)
  reservedRegs : List (PReg × List ℕ)
  maxCascadeDepth : ℕ
  intervals : VReg → Option (LiveInterval W)
  assignment : VReg → Option PReg
  pregAssignments : SortedMap PReg (List VReg)
  pregSegments : SortedMap PReg (Segments VReg)
  segmentOverflow : List (PReg × Range × VReg)
  cascade : VReg → Option ℕ
  nextCascade : ℕ
  stage : VReg → Option Stage
  spilled : List VReg
  worklist : List (PriorityEntry W)

namespace GreedyAllocator

variable {W : Type*}

/-- One round of the loop of `new_with_reserved`: fixed intervals never enter the queue; of
two intervals with one vreg the later is kept. -/
def enqueue (s : GreedyAllocator W) (iv : LiveInterval W) : GreedyAllocator W :=
  if iv.isFixed then s
  else { s with
    worklist := ⟨iv.vreg, iv.spillWeight⟩ :: s.worklist
    stage := update s.stage iv.vreg (some .new)
    intervals := update s.intervals iv.vreg (some iv) }

/-- `new_with_reserved`, followed by `set_hint_exempt`. -/
def newWithReserved (intervals : List (LiveInterval W))
    (allocatable : RegClass → Option (List PReg)) (hints : VReg → Option (List PReg))
    (reservedRegs : List (PReg × List ℕ)) (hintExempt : VReg × PReg → Option (List ℕ)) :
    GreedyAllocator W :=
  intervals.foldl enqueue
    { allocatableRegs := allocatable
      hints := hints
      hintExempt := hintExempt
      reservedRegs := reservedRegs
      maxCascadeDepth := 10
      intervals := fun _ => none
      assignment := fun _ => none
      pregAssignments := .empty
      pregSegments := .empty
      segmentOverflow := []
      cascade := fun _ => none
      nextCascade := 1
      stage := fun _ => none
      spilled := []
      worklist := [] }

/-! ## The queue -/

/-- The order of the queue: by weight, and among equal weights a lower vreg is higher. -/
def entryLt (fl : Floats W) (a b : PriorityEntry W) : Bool :=
  match fl.totalCmp a.weight b.weight with
  | .lt => true
  | .eq => b.vreg.le a.vreg && a.vreg != b.vreg
  | .gt => false

/-- `BinaryHeap::pop`: a highest entry and the others. -/
def popMax (fl : Floats W) :
    List (PriorityEntry W) → Option (PriorityEntry W × List (PriorityEntry W))
  | [] => none
  | e :: es =>
    match popMax fl es with
    | none => some (e, [])
    | some (best, rest) =>
      if entryLt fl e best then some (best, e :: rest) else some (e, es)

variable (s : GreedyAllocator W)

/-! ## Interference -/

/-- Reservations, but at exempt positions. -/
def reservedInterferesExcept (iv : LiveInterval W) (preg : PReg) (exempt : List ℕ) : Bool :=
  reservationClash s.reservedRegs iv preg exempt

/-- Interference with a reservation. -/
def reservedInterferes (iv : LiveInterval W) (preg : PReg) : Bool :=
  s.reservedInterferesExcept iv preg []

/-- `any_assigned_vreg_overlapping` with the test that always holds. -/
def anyAssignedVregOverlapping (preg : PReg) : Bool :=
  s.pregAssignments.entries.any fun (key, vregs) => allocatorPregsOverlap key preg && !vregs.isEmpty

/-- The overflow entries that a query meets. -/
def overflowHits (preg : PReg) (iv : LiveInterval W) : List VReg :=
  s.segmentOverflow.filterMap fun (key, seg, v) =>
    if allocatorPregsOverlap key preg && iv.ranges.any (fun r => seg.overlaps r) then some v
    else none

/-- Interference with an assigned interval. -/
def interferesWithPreg (vreg : VReg) (preg : PReg) (iv : LiveInterval W) : Bool :=
  (s.pregSegments.entries.any fun (key, entry) => allocatorPregsOverlap key preg
        && iv.ranges.any fun r => (Segments.hits entry r).any fun v => v ≠ vreg)
    || (s.overflowHits preg iv).any fun v => v ≠ vreg

/-- `vregs_interfering_on_preg`: collected key by key, then sorted and deduplicated. -/
def vregsInterferingOnPreg (preg : PReg) (exclude : VReg) (iv : LiveInterval W) : List VReg :=
  let found := (s.pregSegments.entries.flatMap fun (key, entry) =>
      if allocatorPregsOverlap key preg then
        iv.ranges.flatMap fun r => (Segments.hits entry r).filter fun v => v ≠ exclude
      else [])
    ++ (s.overflowHits preg iv).filter fun v => v ≠ exclude
  (found.mergeSort VReg.le).dedup

/-- Any interference. -/
def interferes (vreg : VReg) (preg : PReg) : Bool :=
  match s.intervals vreg with
  | some iv => s.reservedInterferes iv preg || s.interferesWithPreg vreg preg iv
  | none => false

/-- The same for a hinted register. -/
def hintedInterferes (vreg : VReg) (preg : PReg) : Bool :=
  match s.intervals vreg with
  | some iv =>
    s.reservedInterferesExcept iv preg ((s.hintExempt (vreg, preg)).getD [])
      || s.interferesWithPreg vreg preg iv
  | none => false

/-! ## Assignment -/

/-- A free register, hints first. -/
def tryAssign (vreg : VReg) : Option PReg :=
  match s.intervals vreg with
  | none => none
  | some iv =>
    match s.allocatableRegs iv.vreg.cls with
    | none => none
    | some regs =>
      (((s.hints iv.vreg).getD []).find? fun p => regs.contains p && !s.hintedInterferes vreg p).or
        (regs.find? fun p => !s.interferes vreg p)

/-- The ranges, under one key. -/
def addSegments (vreg : VReg) (ranges : List Range) (s : GreedyAllocator W) (key : PReg) :
    GreedyAllocator W :=
  let placed := ranges.foldl (Segments.place vreg)
    ((s.pregSegments.get? key).getD .empty, [])
  { s with
    pregSegments := s.pregSegments.insert key placed.1
    segmentOverflow := s.segmentOverflow ++ placed.2.map fun r => (key, r, vreg) }

/-- The vreg is listed under a register. -/
def recordAssignment (vreg : VReg) (m : SortedMap PReg (List VReg)) (key : PReg) :
    SortedMap PReg (List VReg) :=
  m.insert key ((m.get? key).getD [] ++ [vreg])

/-- Gives the register to the vreg. -/
def assign (vreg : VReg) (preg : PReg) : GreedyAllocator W :=
  let views := preg :: aliasingPregs preg
  let lists := views.foldl (recordAssignment vreg) s.pregAssignments
  match s.intervals vreg with
  | some iv =>
    views.foldl (addSegments vreg iv.ranges)
      { s with
        assignment := update s.assignment vreg (some preg)
        pregAssignments := lists }
  | none => { s with pregAssignments := lists }

/-- Takes the register back. -/
def unassign (vreg : VReg) : GreedyAllocator W :=
  match s.intervals vreg, s.assignment vreg with
  | some _, some preg =>
    let views := preg :: aliasingPregs preg
    { s with
      assignment := update s.assignment vreg none
      pregAssignments := views.foldl (fun m key =>
        m.modify key fun l => l.filter fun v => v ≠ vreg) s.pregAssignments
      pregSegments := views.foldl (fun m key =>
        m.modify key fun entry => entry.retain fun _ seg => seg.2 ≠ vreg) s.pregSegments
      segmentOverflow := s.segmentOverflow.filter fun seg => seg.2.2 ≠ vreg }
  | _, _ => s

/-- The vreg has a register. -/
def isAssigned (vreg : VReg) : Bool := (s.intervals vreg).isSome && (s.assignment vreg).isSome

/-- The vreg is spilled. -/
def isSpilled (vreg : VReg) : Bool := (s.intervals vreg).isSome && s.spilled.contains vreg

/-! ## Eviction -/

/-- The check of the interferers on a register: the cost of evicting them and whether
there are any, or `none` if one of them cannot be evicted. -/
def evictionCost (fl : Floats W) (weight : W) (myCascade : ℕ) :
    List VReg → W → Bool → Option (W × Bool)
  | [], cost, found => some (cost, found)
  | v :: vs, cost, found =>
    match s.intervals v with
    | some iv =>
      if fl.ge iv.spillWeight weight then none
      else if (s.cascade v).getD 0 ≥ myCascade ∧ myCascade ≥ s.maxCascadeDepth then none
      else evictionCost fl weight myCascade vs (fl.add cost iv.spillWeight) true
    | none => evictionCost fl weight myCascade vs cost found

/-- The outcome of the search for a register to clear. -/
inductive EvictChoice
  | free (preg : PReg)
  | evict (preg : PReg)
  | stuck

/-- The loop over the candidates of `try_evict`. -/
def chooseEviction (fl : Floats W) (vreg : VReg) (iv : LiveInterval W) (regs : List PReg) :
    List PReg → Option PReg → W → EvictChoice
  | [], some best, _ => .evict best
  | [], none, _ => .stuck
  | preg :: rest, best, bestCost =>
    if ¬ regs.contains preg ∨ s.reservedInterferes iv preg then
      chooseEviction fl vreg iv regs rest best bestCost
    else if ¬ s.anyAssignedVregOverlapping preg then .free preg
    else
      match s.evictionCost fl iv.spillWeight ((s.cascade vreg).getD 0)
        (s.vregsInterferingOnPreg preg vreg iv) fl.zero false with
      | some (cost, true) =>
        if fl.lt cost bestCost then chooseEviction fl vreg iv regs rest (some preg) cost
        else chooseEviction fl vreg iv regs rest best bestCost
      | _ => chooseEviction fl vreg iv regs rest best bestCost

variable (fl : Floats W)

/-- One round of the loop of `evict_interference`. -/
def evictOne (newCascade : ℕ) (s : GreedyAllocator W) (other : VReg) : GreedyAllocator W :=
  let weight := ((s.intervals other).map LiveInterval.spillWeight).getD fl.zero
  let s := s.unassign other
  { s with
    cascade := update s.cascade other (some newCascade)
    stage := update s.stage other (some .evict)
    worklist := ⟨other, weight⟩ :: s.worklist }

/-- The state once the given vregs have been evicted for `vreg`. -/
def evicting (vreg : VReg) (others : List VReg) : GreedyAllocator W :=
  others.foldl (evictOne fl s.nextCascade)
    { s with
      nextCascade := s.nextCascade + 1
      cascade := update s.cascade vreg (some s.nextCascade) }

/-- Everything in the way goes back. -/
def evictInterference (preg : PReg) (vreg : VReg) : GreedyAllocator W :=
  match s.intervals vreg with
  | some iv => s.evicting fl vreg (s.vregsInterferingOnPreg preg vreg iv)
  | none => s.evicting fl vreg []

/-- The cheapest register to clear. -/
def tryEvict (vreg : VReg) : Option (PReg × GreedyAllocator W) :=
  match s.intervals vreg with
  | none => none
  | some iv =>
    match s.allocatableRegs iv.vreg.cls with
    | none => none
    | some regs =>
      match s.chooseEviction fl vreg iv regs ((s.hints iv.vreg).getD [] ++ regs) none
        fl.max with
      | .free preg => some (preg, s)
      | .evict preg => some (preg, s.evictInterference fl preg vreg)
      | .stuck => none

/-! ## The loop -/

/-- Stages only go up. -/
def advanceStage (vreg : VReg) (target : Stage) : GreedyAllocator W :=
  if target.rank > ((s.stage vreg).getD .new).rank then
    { s with stage := update s.stage vreg (some target) }
  else s

/-- Spills, which is the last stage. -/
def doSpill (vreg : VReg) : GreedyAllocator W :=
  advanceStage
    (match s.intervals vreg with
      | some iv => { s with spilled := s.spilled ++ [iv.vreg] }
      | none => s) vreg .done

/-- The vreg moves to a later stage and back into the queue. -/
def requeue (entry : PriorityEntry W) (target : Stage) : GreedyAllocator W :=
  { s.advanceStage entry.vreg target with worklist := entry :: s.worklist }

/-- What happens to the entry that was popped. -/
def process (entry : PriorityEntry W) : GreedyAllocator W :=
  let vreg := entry.vreg
  let stage := (s.stage vreg).getD .new
  if s.isAssigned vreg || s.isSpilled vreg || stage = .done then s
  else
    match s.tryAssign vreg with
    | some preg => (s.assign vreg preg).advanceStage vreg .done
    | none =>
      if stage.rank ≤ Stage.evict.rank then
        match s.tryEvict fl vreg with
        | some (preg, s') => (s'.assign vreg preg).advanceStage vreg .done
        | none => s.requeue entry .split
      else if stage.rank ≤ Stage.split.rank then s.requeue entry .spill
      else s.doSpill vreg

/-- One round of the loop of `allocate`; `none` when the queue is empty. -/
def round : Option (GreedyAllocator W) :=
  match popMax fl s.worklist with
  | none => none
  | some (entry, rest) => some ({ s with worklist := rest }.process fl entry)

/-- `allocate`; the result is read from `assignment` and `spilled` of the final state. -/
def allocate (fuel : ℕ) : Option (GreedyAllocator W) :=
  Loop.run (fun s => s.round fl) fuel s

end GreedyAllocator

end TrustCg.RegAlloc
