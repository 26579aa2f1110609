import Mathlib.Data.List.Sort
import TrustCg.Lib.Loop
import TrustCg.RegAlloc.Liveness
import TrustCg.RegAlloc.Regs

/-!
# The interference check

The validator recomputes the live intervals and reports two vregs that are live at once in one
location.  It puts the intervals into buckets by storage and finds the overlapping ranges of a
bucket with a sweep over their starts.

* `mem_sweep` : the sweep finds the overlapping ranges.
* `checkInterference_iff_interferes` : the report is that of the comparison of all pairs.
-/

namespace TrustCg.RegAlloc.Validator

open List
open Ranges (Range Separated)

/-! ## The check -/

/-- Where a vreg lives. -/
inductive Location
  | reg (p : PReg)
  | slot (s : StackSlotId)
  deriving DecidableEq, Repr

/-- The two locations are the same slot or registers that share storage. -/
def Location.shares : Location → Location → Bool
  | .reg p, .reg q => allocatorPregsOverlap p q
  | .slot s, .slot t => s == t
  | _, _ => false

/-- The errors of the check; of the text of `unsupported` only the data are kept. -/
inductive ValidationError
  | interferenceViolation (a b : VReg) (loc : Location) (point : ℕ)
  | unsupported (vreg : VReg) (slot : StackSlotId) (preg : PReg)
  deriving DecidableEq, Repr

/-- A representative and the indices of its intervals, for each bucket. -/
abbrev Buckets := List (Location × List ℕ)

/-- Two indices of intervals. -/
abbrev Pair := ℕ × ℕ

/-- `(start, end, idx)` of a live range. -/
abbrev Event := ℕ × Pair

/-- The order of pairs. -/
abbrev pairLe : Pair → Pair → Prop := Prod.Lex (· < ·) (· ≤ ·)

/-- The interval joins the first bucket whose representative shares its storage, else it starts a
new one.  `by_location` and `reg_classes` are one list. -/
def joinBucket (loc : Location) (idx : ℕ) : Buckets → Buckets
  | [] => [(loc, [idx])]
  | (rep, members) :: rest =>
    if rep.shares loc then (rep, members ++ [idx]) :: rest
    else (rep, members) :: joinBucket loc idx rest

section

variable {W : Type*} (locations : VReg → Option Location) (intervals : List (LiveInterval W))

/-- Files an interval under its storage. -/
def bucketStep (buckets : Buckets) (entry : LiveInterval W × ℕ) : Buckets :=
  match locations entry.1.vreg with
  | some loc => joinBucket loc entry.2 buckets
  | none => buckets

/-- `BTreeSet::insert`. -/
def insertPair (pair : Pair) (pairs : List Pair) : List Pair :=
  if pair ∈ pairs then pairs else pairs.orderedInsert pairLe pair

/-- One event.  The heap is the ascending list of its elements. -/
def sweepStep (st : List Pair × List Pair) (event : Event) : List Pair × List Pair :=
  let active := st.1.dropWhile fun a => a.1 ≤ event.1
  (active.orderedInsert pairLe event.2,
   active.foldl (fun pairs a => if a.2 ≠ event.2.2
      then insertPair (min a.2 event.2.2, max a.2 event.2.2) pairs else pairs) st.2)

/-- The live ranges of a bucket. -/
def bucketEvents (members : List ℕ) : List Event :=
  members.flatMap fun idx => (intervals[idx]?.elim [] LiveInterval.ranges).map fun r =>
    (r.start, r.stop, idx)

/-- The overlaps of one bucket. -/
def sweepBucket (pairs : List Pair) (members : List ℕ) : List Pair :=
  if members.length < 2 then pairs
  else
    (((bucketEvents intervals members).insertionSort (Prod.Lex (· < ·) pairLe)).foldl sweepStep
      ([], pairs)).2

/-- The overlapping pairs of all buckets. -/
def violatingPairs : List Pair :=
  ((intervals.zipIdx.foldl (bucketStep locations) []).map Prod.snd).foldl (sweepBucket intervals) []

/-- A common position. -/
def overlapPoint (a b : LiveInterval W) : Option ℕ :=
  a.ranges.findSome? fun ra => b.ranges.findSome? fun rb =>
    if ra.overlaps rb then some (max ra.start rb.start) else none

/-- The report of a pair. -/
def violation (pair : Pair) : Option ValidationError :=
  match intervals[pair.1]?, intervals[pair.2]? with
  | some a, some b =>
    if a.vreg = b.vreg then none
    else (locations a.vreg).map fun loc =>
      .interferenceViolation a.vreg b.vreg loc ((overlapPoint a b).getD 0)
  | _, _ => none

variable [Zero W] [Add W] [Div W] [Pow W ℕ] [NatCast W]

/-- `liveness.intervals.values()`. -/
def liveIntervals (base : W) (post : MachFunction) : List (LiveInterval W) :=
  (range post.numVregs).filterMap (computeLiveIntervals base post).intervals

/-- The report with all violations. -/
def checkInterference (base : W) (post : MachFunction) (locations : VReg → Option Location)
    (allocation : VReg → Option PReg) (spills : List (VReg × StackSlotId))
    (report : List ValidationError) : List ValidationError :=
  let intervals := liveIntervals base post
  report ++ (violatingPairs locations intervals).filterMap (violation locations intervals)
    ++ spills.filterMap fun s => (allocation s.1).map (.unsupported s.1 s.2)

end

/-! ## The buckets -/

section

variable {W : Type*} {locations : VReg → Option Location} {intervals : List (LiveInterval W)}
  {buckets : Buckets} {i j idx : ℕ} {loc : Location} {members : List ℕ} {pairs : List Pair}
  {e : Event} {p : Pair} {st : List Pair × List Pair}

/-- What the location occupies. -/
def Location.storage : Location → Storage ⊕ StackSlotId
  | .reg p => .inl (RegAlloc.storage p)
  | .slot s => .inr s

theorem Location.shares_iff {a b : Location} : a.shares b = true ↔ a.storage = b.storage := by
  cases a <;> cases b <;> simp [shares, storage, allocatorPregsOverlap_iff]

/-- The index is in a bucket of that storage. -/
def InBucket (buckets : Buckets) (c : Storage ⊕ StackSlotId) (i : ℕ) : Prop :=
  ∃ b ∈ buckets, b.1.storage = c ∧ i ∈ b.2

theorem inBucket_joinBucket {c : Storage ⊕ StackSlotId} :
    InBucket (joinBucket loc idx buckets) c i
      ↔ InBucket buckets c i ∨ loc.storage = c ∧ i = idx := by
  induction buckets with
  | nil => simp [InBucket, joinBucket]
  | cons b rest ih =>
    unfold InBucket at ih ⊢
    rw [joinBucket]
    split
    next hshares =>
      rw [Location.shares_iff] at hshares
      simp only [exists_mem_cons_iff, mem_append, mem_singleton, ← hshares]
      grind
    · simp only [exists_mem_cons_iff, ih, or_assoc]

theorem nodup_joinBucket (h : (buckets.map (·.1.storage)).Nodup) :
    ((joinBucket loc idx buckets).map (·.1.storage)).Nodup := by
  have hsub : ∀ bs c, c ∈ (joinBucket loc idx bs).map (·.1.storage) →
      c ∈ bs.map (·.1.storage) ∨ c = loc.storage := by
    intro bs
    fun_induction joinBucket loc idx bs <;> grind
  induction buckets with
  | nil => simp [joinBucket]
  | cons b rest ih =>
    rw [joinBucket]
    simp only [Location.shares_iff]
    grind

theorem foldl_bucketStep (locations : VReg → Option Location) (l : List (LiveInterval W × ℕ))
    (buckets : Buckets) (h : (buckets.map (·.1.storage)).Nodup) :
    ((l.foldl (bucketStep locations) buckets).map (·.1.storage)).Nodup
      ∧ ∀ c i, InBucket (l.foldl (bucketStep locations) buckets) c i ↔ InBucket buckets c i
        ∨ ∃ iv loc, (iv, i) ∈ l ∧ locations iv.vreg = some loc ∧ loc.storage = c := by
  induction l generalizing buckets with
  | nil => exact ⟨h, by simp⟩
  | cons e l ih =>
    rw [foldl_cons, bucketStep]
    split
    next loc hloc =>
      refine ⟨(ih _ (nodup_joinBucket h)).1, fun c i => ?_⟩
      rw [(ih _ (nodup_joinBucket h)).2, inBucket_joinBucket]
      grind
    next hloc =>
      refine ⟨(ih _ h).1, fun c i => ?_⟩
      rw [(ih _ h).2]
      grind

/-- **Two intervals meet in a bucket** exactly if their locations share storage. -/
theorem same_bucket_iff :
    (∃ b ∈ intervals.zipIdx.foldl (bucketStep locations) [], i ∈ b.2 ∧ j ∈ b.2)
      ↔ ∃ ia ib, intervals[i]? = some ia ∧ intervals[j]? = some ib ∧ ∃ la lb,
        locations ia.vreg = some la ∧ locations ib.vreg = some lb ∧ la.shares lb = true := by
  obtain ⟨hnodup, hmem⟩ := foldl_bucketStep locations intervals.zipIdx [] (by simp)
  simp only [InBucket, not_mem_nil, false_and, exists_false, false_or,
    mk_mem_zipIdx_iff_getElem?] at hmem
  simp only [Location.shares_iff]
  constructor
  · rintro ⟨b, hb, hi, hj⟩
    have hi' := (hmem b.1.storage i).1 ⟨b, hb, rfl, hi⟩
    have hj' := (hmem b.1.storage j).1 ⟨b, hb, rfl, hj⟩
    grind
  rintro ⟨ia, ib, hia, hib, la, lb, hla, hlb, hst⟩
  obtain ⟨b, hb, hbst, hi⟩ := (hmem lb.storage i).2 ⟨ia, la, hia, hla, hst⟩
  obtain ⟨b', hb', hbst', hj⟩ := (hmem lb.storage j).2 ⟨ib, lb, hib, hlb, rfl⟩
  obtain rfl := inj_on_of_nodup_map hnodup hb hb' (hbst.trans hbst'.symm)
  exact ⟨b, hb, hi, hj⟩

/-! ## The sweep -/

/-- The range of interval `a.2` that ends at `a.1` is active when the event comes. -/
def Catches (a : Pair) (e : Event) (p : Pair) : Prop :=
  e.1 < a.1 ∧ a.2 ≠ e.2.2 ∧ p = (min a.2 e.2.2, max a.2 e.2.2)

theorem mem_insertPair {q : Pair} : p ∈ insertPair q pairs ↔ p ∈ pairs ∨ p = q := by
  unfold insertPair
  split
  · grind
  · rw [mem_orderedInsert, or_comm]

/-- Retiring from the smallest end on leaves the ranges that end later. -/
theorem mem_retired {active : List Pair} (h : active.Pairwise pairLe) {s : ℕ} {a : Pair} :
    a ∈ active.dropWhile (fun a => a.1 ≤ s) ↔ a ∈ active ∧ s < a.1 := by
  induction active with
  | nil => simp
  | cons b active ih =>
    obtain ⟨hb, hactive⟩ := pairwise_cons.1 h
    simp only [Prod.lex_def] at hb
    rw [dropWhile_cons]
    grind

theorem mem_sweepStep (h : st.1.Pairwise pairLe) :
    p ∈ (sweepStep st e).2 ↔ p ∈ st.2 ∨ ∃ a ∈ st.1, Catches a e p := by
  rw [sweepStep, Loop.foldl_iff_or (P := (p ∈ ·)) (Q := fun a : Pair => a.2 ≠ e.2.2
    ∧ p = (min a.2 e.2.2, max a.2 e.2.2)) (by grind [mem_insertPair])]
  simp only [mem_retired h, Catches, and_assoc]

/-- **The sweep.**  An active range is caught by every later event before its end, and two
events catch each other if the ranges overlap. -/
theorem mem_sweep (l : List Event) (st : List Pair × List Pair)
    (hl : l.Pairwise fun e e' => e.1 ≤ e'.1) (hne : ∀ e ∈ l, e.1 < e.2.1)
    (h : st.1.Pairwise pairLe) :
    p ∈ (l.foldl sweepStep st).2 ↔ p ∈ st.2 ∨ (∃ a ∈ st.1, ∃ e ∈ l, Catches a e p)
      ∨ ∃ e ∈ l, ∃ e' ∈ l, e.1 < e'.2.1 ∧ Catches e.2 e' p := by
  induction l generalizing st with
  | nil => simp
  | cons e l ih =>
    obtain ⟨he, hl⟩ := pairwise_cons.1 hl
    obtain ⟨hne', hne⟩ := forall_mem_cons.1 hne
    have hactive : (sweepStep st e).1.Pairwise pairLe :=
      Pairwise.orderedInsert _ _ (h.sublist (dropWhile_sublist _))
    have hmem : ∀ a, a ∈ (sweepStep st e).1 ↔ a = e.2 ∨ a ∈ st.1 ∧ e.1 < a.1 := by
      intro a
      rw [sweepStep, mem_orderedInsert, mem_retired h]
    rw [foldl_cons, ih _ hl hne hactive, mem_sweepStep h]
    have hlater : ∀ a, ∀ x ∈ l, Catches a x p → e.1 < a.1 :=
      fun a x hx hc => (he x hx).trans_lt hc.1
    have hself : ∀ x ∈ l, e.1 < x.2.1 := fun x hx => (he x hx).trans_lt (hne x hx)
    have hirrefl : ¬ Catches e.2 e p := fun hc => hc.2.1 rfl
    have hsymm : ∀ x, x.1 < e.2.1 ∧ Catches x.2 e p ↔ e.1 < x.2.1 ∧ Catches e.2 x p := by
      intro x
      simp only [Catches, min_comm x.2.2, max_comm x.2.2, ne_comm (a := x.2.2)]
      tauto
    simp only [exists_mem_cons_iff, hmem, hsymm]
    grind

/-! ## The report -/

/-- The test of the comparison of all pairs: the locations share storage and two ranges overlap. -/
def Interferes (locations : VReg → Option Location) (a b : LiveInterval W) : Prop :=
  (∃ la lb, locations a.vreg = some la ∧ locations b.vreg = some lb ∧ la.shares lb = true)
    ∧ ∃ r ∈ a.ranges, ∃ t ∈ b.ranges, r.overlaps t = true

theorem Interferes.symm {a b : LiveInterval W} (h : Interferes locations a b) :
    Interferes locations b a := by
  obtain ⟨⟨la, lb, hla, hlb, hst⟩, r, hr, t, ht, hover⟩ := h
  refine ⟨⟨lb, la, hlb, hla, ?_⟩, t, ht, r, hr, ?_⟩
  · rwa [Location.shares_iff, eq_comm, ← Location.shares_iff]
  · rwa [Range.overlaps, Bool.and_comm]

theorem mem_bucketEvents :
    e ∈ bucketEvents intervals members ↔ e.2.2 ∈ members
      ∧ ∃ iv, intervals[e.2.2]? = some iv ∧ ∃ r ∈ iv.ranges, e.1 = r.start ∧ e.2.1 = r.stop := by
  obtain ⟨start, stop, idx⟩ := e
  simp only [bucketEvents, mem_flatMap, mem_map, Prod.mk.injEq]
  constructor
  · rintro ⟨i, hi, r, hr, rfl, rfl, rfl⟩
    cases h : intervals[i]? with
    | none => simp [h] at hr
    | some iv => exact ⟨hi, iv, rfl, r, by simpa [h] using hr, rfl, rfl⟩
  · rintro ⟨hidx, iv, hiv, r, hr, rfl, rfl⟩
    exact ⟨idx, hidx, r, by simpa [hiv] using hr, rfl, rfl, rfl⟩

theorem mem_sweepBucket (hsep : ∀ iv ∈ intervals, Separated iv.ranges) :
    p ∈ sweepBucket intervals pairs members ↔ p ∈ pairs ∨ ∃ e ∈ bucketEvents intervals members,
      ∃ e' ∈ bucketEvents intervals members, e.1 < e'.2.1 ∧ Catches e.2 e' p := by
  unfold sweepBucket
  split
  next hlen =>
    -- the events of a single member do not catch each other
    simp only [mem_bucketEvents, Catches]
    match members, hlen with
    | [], _ => simp
    | [i], _ => grind
  have hsorted := (pairwise_insertionSort (Prod.Lex (· < ·) pairLe)
    (bucketEvents intervals members)).imp (S := fun e e' => e.1 ≤ e'.1) fun h => by
      rw [Prod.lex_def] at h
      omega
  rw [mem_sweep _ _ hsorted ?_ .nil]
  · simp
  intro e he
  rw [mem_insertionSort, mem_bucketEvents] at he
  obtain ⟨-, iv, hiv, r, hr, h1, h2⟩ := he
  rw [h1, h2]
  exact (hsep iv (mem_of_getElem? hiv)).2 r hr

theorem mem_violatingPairs (hsep : ∀ iv ∈ intervals, Separated iv.ranges) :
    p ∈ violatingPairs locations intervals ↔ ∃ i j ia ib, i < j ∧ p = (i, j)
      ∧ intervals[i]? = some ia ∧ intervals[j]? = some ib ∧ Interferes locations ia ib := by
  rw [violatingPairs, Loop.foldl_iff_or (f := sweepBucket intervals) (P := (p ∈ ·))
    fun pairs members => mem_sweepBucket hsep]
  simp only [mem_bucketEvents, not_mem_nil, false_or, mem_map, exists_exists_and_eq_and]
  constructor
  · rintro ⟨b, hb, ⟨_, _, i⟩, ⟨hi, ia, hia, r, hr, rfl, rfl⟩, ⟨_, _, j⟩,
      ⟨hj, ib, hib, t, ht, rfl, rfl⟩, hlt, hlt', hij, rfl⟩
    obtain ⟨ia', ib', hia', hib', hst⟩ := same_bucket_iff.1 ⟨b, hb, hi, hj⟩
    obtain rfl : ia = ia' := by grind
    obtain rfl : ib = ib' := by grind
    have hinter : Interferes locations ia ib :=
      ⟨hst, r, hr, t, ht, by simpa [Range.overlaps] using ⟨hlt, hlt'⟩⟩
    rcases Nat.lt_or_gt_of_ne hij with hlt | hlt
    · exact ⟨i, j, ia, ib, hlt, by grind, hia, hib, hinter⟩
    · exact ⟨j, i, ib, ia, hlt, by grind, hib, hia, hinter.symm⟩
  rintro ⟨i, j, ia, ib, hij, rfl, hia, hib, hst, r, hr, t, ht, hover⟩
  obtain ⟨b, hb, hi, hj⟩ := same_bucket_iff.2 ⟨ia, ib, hia, hib, hst⟩
  simp only [Range.overlaps, Bool.and_eq_true, decide_eq_true_eq] at hover
  exact ⟨b, hb, (r.start, r.stop, i), ⟨hi, ia, hia, r, hr, rfl, rfl⟩, (t.start, t.stop, j),
    ⟨hj, ib, hib, t, ht, rfl, rfl⟩, hover.1, hover.2, hij.ne, by grind⟩

theorem apart_buildIntervals [Zero W] {f : MachFunction} {k : ℕ} (sets : LiveSets k) :
    (buildIntervals f sets : Intervals W).Apart := by
  have hextend : ∀ {ivs : Intervals W} {v s e}, ivs.Apart → (ivs.extend v id s e).Apart :=
    extend_apart fun _ => rfl
  refine foldlRecOn (motive := Intervals.Apart) _ _ (fun x iv h => by cases h) fun ivs h b _ => ?_
  unfold blockPass
  dsimp only
  split
  · refine foldlRecOn (motive := fun acc : Intervals W × (ℕ → Option ℕ) => acc.1.Apart) _ _ ?_
      fun acc hacc id _ => ?_
    · refine foldlRecOn _ _ (foldlRecOn _ _ h fun ivs h x _ => hextend h) fun ivs h x _ => ?_
      split
      · split
        · exact hextend h
        · exact h
      · exact h
    exact foldlRecOn _ _
      (foldlRecOn _ _ hacc fun ivs h v _ => extend_apart (fun _ => rfl) h)
      fun ivs h v _ => extend_apart (fun _ => rfl) h
  · exact h

/-- **The check agrees with the comparison of all pairs.** -/
theorem checkInterference_iff_interferes [Zero W] [Add W] [Div W] [Pow W ℕ] [NatCast W] (base : W)
    (post : MachFunction) (locations : VReg → Option Location) (allocation : VReg → Option PReg)
    (spills : List (VReg × StackSlotId)) (a b : VReg) :
    (∃ loc point, .interferenceViolation a b loc point
        ∈ checkInterference base post locations allocation spills [])
      ↔ a ≠ b ∧ ∃ (i j : ℕ) (ia ib : LiveInterval W), i < j
        ∧ (liveIntervals base post)[i]? = some ia ∧ (liveIntervals base post)[j]? = some ib
        ∧ ia.vreg = a ∧ ib.vreg = b ∧ Interferes locations ia ib := by
  have hsep : ∀ iv ∈ liveIntervals base post, Separated iv.ranges := by
    intro iv hiv
    obtain ⟨x, -, hx⟩ := mem_filterMap.1 hiv
    obtain ⟨iv', hiv', rfl⟩ := Option.map_eq_some_iff.1 hx
    exact apart_buildIntervals _ x iv' hiv'
  simp only [checkInterference, nil_append, mem_append, mem_filterMap, mem_violatingPairs hsep]
  constructor
  · rintro ⟨loc, point, ⟨p, ⟨i, j, ia, ib, hij, rfl, hia, hib, hinter⟩, hp⟩ | ⟨s, -, hs⟩⟩
    · simp only [violation, hia, hib, Option.ite_none_left_eq_some, Option.map_eq_some_iff,
        ValidationError.interferenceViolation.injEq] at hp
      obtain ⟨hne, -, -, rfl, rfl, -⟩ := hp
      exact ⟨hne, i, j, ia, ib, hij, hia, hib, rfl, rfl, hinter⟩
    · simp at hs
  rintro ⟨hne, i, j, ia, ib, hij, hia, hib, rfl, rfl, hinter⟩
  obtain ⟨la, -, hla, -⟩ := hinter.1
  refine ⟨la, (overlapPoint ia ib).getD 0, .inl
    ⟨(i, j), ⟨i, j, ia, ib, hij, rfl, hia, hib, hinter⟩, ?_⟩⟩
  simp [violation, hia, hib, hla, hne]

end

end TrustCg.RegAlloc.Validator
