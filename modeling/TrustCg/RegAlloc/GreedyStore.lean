import TrustCg.RegAlloc.Greedy

/-!
# The store of segments of the greedy allocator

A query is right as long as the segments under one key are disjoint, which in turn rests
on every assignment being preceded by such a query.

* `StoreInv` : the store mirrors the assignment, and intervals on shared storage are
  disjoint; `assign_storeInv` and `unassign_storeInv` keep it.
* `mem_vregsInterferingOnPreg`, `interferesWithPreg_iff` : under the invariant the
  queries agree with a scan of all assigned intervals.
-/

namespace TrustCg.RegAlloc

open Ranges (Range Ordered Meet)
open Function (update update_of_ne update_self)
open List
open Option (getD_some some_inj)
open SortedMap (get?_insert get?_modify)

namespace GreedyAllocator

variable {W : Type*} (s : GreedyAllocator W)

/-! ## The store mirrors the assignment -/

/-- The segments under a key. -/
def segAt (q : PReg) : Segments VReg := (s.pregSegments.get? q).getD .empty

/-- What the store owes: the ranges of every assigned vreg, under its register and each
alias of it. -/
def Owed (q : PReg) (r : Range) (v : VReg) : Prop :=
  ∃ p iv, s.assignment v = some p ∧ q ∈ p :: aliasingPregs p ∧ s.intervals v = some iv
    ∧ r ∈ iv.ranges

/-- **The invariant of the store.** -/
structure StoreInv : Prop where
  /-- Intervals are filed under their vregs and well formed. -/
  filed : ∀ v iv, s.intervals v = some iv → iv.vreg = v ∧ Ordered iv.ranges
  known : ∀ v p, s.assignment v = some p → ∃ iv, s.intervals v = some iv
  /-- The segments are exactly those owed. -/
  segments : ∀ (q : PReg) (r : Range) (v : VReg),
    (s.segAt q).get? r.start = some (r.stop, v) ↔ s.Owed q r v
  overflow : s.segmentOverflow = []
  /-- Intervals assigned to shared storage are disjoint. -/
  apart : ∀ u v p q iv jv, u ≠ v → s.assignment u = some p → s.assignment v = some q →
    storage p = storage q → s.intervals u = some iv → s.intervals v = some jv →
    ¬ Meet iv.ranges jv.ranges
  listed : ∀ v p, s.assignment v = some p → ∃ l, s.pregAssignments.get? p = some l ∧ v ∈ l

variable {s : GreedyAllocator W} {v : VReg} {p : PReg} {iv : LiveInterval W}

section

theorem StoreInv.disjoint (h : s.StoreInv) (q : PReg) : (s.segAt q).Disjoint := by
  refine ⟨?_, ?_⟩
  · intro a e v hget
    obtain ⟨p, iv, -, -, hiv, hr⟩ := (h.segments q ⟨a, e⟩ v).1 hget
    exact (h.filed v iv hiv).2.2 _ hr
  intro a e u a' e' v hget hget' hlt
  obtain ⟨p, iv, hp, hq, hiv, hr⟩ := (h.segments q ⟨a, e⟩ u).1 hget
  obtain ⟨p', jv, hp', hq', hjv, hr'⟩ := (h.segments q ⟨a', e'⟩ v).1 hget'
  have hord := (h.filed u iv hiv).2
  have hord' := (h.filed v jv hjv).2
  by_cases huv : u = v
  · -- two ranges of one interval
    subst huv
    cases hiv.symm.trans hjv
    let apart (r t : Range) := r.stop ≤ t.start ∨ t.stop ≤ r.start
    have : Std.Symm apart := ⟨fun _ _ => Or.symm⟩
    have hsep : iv.ranges.Pairwise apart := hord.1.imp .inl
    have hwf := hord.2 _ hr'
    have hor := hsep.forall hr hr' fun heq => by cases heq; omega
    simp only [apart] at hor hwf
    omega
  -- ranges of vregs on shared storage
  have hst : storage p = storage p' := by rw [← storage_of_mem_views hq, storage_of_mem_views hq']
  by_contra hcon
  have h1 := hord.2 _ hr
  have h2 := hord'.2 _ hr'
  simp only at h1 h2
  refine h.apart u v p p' iv jv huv hp hp' hst hiv hjv ?_
  exact (Ranges.meet_iff hord hord').2 ⟨_, hr, _, hr', by simp only; omega, by simp only; omega⟩

/-- What a query for other vregs on overlapping storage should find: a scan of all
assigned intervals. -/
def Clash (s : GreedyAllocator W) (preg : PReg) (exclude : VReg) (iv : LiveInterval W) (u : VReg) :
    Prop :=
  u ≠ exclude ∧ ∃ q jv, s.assignment u = some q ∧ s.intervals u = some jv
    ∧ allocatorPregsOverlap q preg = true ∧ iv.overlaps jv = true

theorem segAt_of_mem {key : PReg} {entry : Segments VReg}
    (h : (key, entry) ∈ s.pregSegments.entries) : s.segAt key = entry := by
  rw [segAt, SortedMap.mem_entries.1 h, getD_some]

theorem mem_entries_of_seg {key : PReg} {a : ℕ} {seg : ℕ × VReg}
    (h : (s.segAt key).get? a = some seg) : (key, s.segAt key) ∈ s.pregSegments.entries := by
  rw [SortedMap.mem_entries]
  unfold segAt at h ⊢
  cases hk : s.pregSegments.get? key with
  | none => rw [hk] at h; simp at h
  | some entry => rfl

theorem StoreInv.hits_iff (h : s.StoreInv) (hiv : Ordered iv.ranges) (preg : PReg)
    (exclude u : VReg) :
    (u ≠ exclude ∧ ∃ key entry, (key, entry) ∈ s.pregSegments.entries
        ∧ allocatorPregsOverlap key preg = true ∧ ∃ r ∈ iv.ranges, u ∈ Segments.hits entry r)
      ↔ s.Clash preg exclude iv u := by
  refine and_congr_right fun _ => ?_
  constructor
  · rintro ⟨key, entry, hmem, hover, r, hr, hhit⟩
    rw [← segAt_of_mem hmem] at hhit
    obtain ⟨a, e, hseg, h1, h2⟩ := (Segments.mem_hits (h.disjoint key) (hiv.2 r hr)).1 hhit
    obtain ⟨q, jv, hq, hkey, hjv, hr'⟩ := (h.segments key ⟨a, e⟩ u).1 hseg
    refine ⟨q, jv, hq, hjv, ?_, ?_⟩
    · rw [allocatorPregsOverlap_iff] at hover ⊢
      rw [← hover, storage_of_mem_views hkey]
    have hjord := (h.filed u jv hjv).2
    exact (Ranges.overlaps_iff hiv hjord).2 ((Ranges.meet_iff hiv hjord).2
      ⟨r, hr, _, hr', h1, h2⟩)
  rintro ⟨q, jv, hq, hjv, hover, hlap⟩
  have hjord := (h.filed u jv hjv).2
  obtain ⟨r, hr, t, ht, h1, h2⟩ := (Ranges.meet_iff hiv hjord).1
    ((Ranges.overlaps_iff hiv hjord).1 hlap)
  have hseg := (h.segments q t u).2 ⟨q, jv, hq, .head _, hjv, ht⟩
  exact ⟨q, s.segAt q, mem_entries_of_seg hseg, hover, r, hr,
    (Segments.mem_hits (h.disjoint q) (hiv.2 r hr)).2 ⟨t.start, t.stop, hseg, h1, h2⟩⟩

theorem StoreInv.overflowHits_eq (h : s.StoreInv) (preg : PReg) (iv : LiveInterval W) :
    s.overflowHits preg iv = [] := by
  rw [overflowHits, h.overflow]
  rfl

/-- **`interferes_with_preg` is exact.** -/
theorem interferesWithPreg_iff (h : s.StoreInv) (hiv : Ordered iv.ranges) (preg : PReg)
    (exclude : VReg) :
    s.interferesWithPreg exclude preg iv = true ↔ ∃ u, s.Clash preg exclude iv u := by
  unfold interferesWithPreg
  rw [h.overflowHits_eq, any_nil, Bool.or_false, any_eq_true]
  simp only [Bool.and_eq_true, any_eq_true, decide_eq_true_eq, ← h.hits_iff hiv]
  constructor
  · rintro ⟨⟨key, entry⟩, hmem, hover, r, hr, u, hu, hne⟩
    exact ⟨u, hne, key, entry, hmem, hover, r, hr, hu⟩
  rintro ⟨u, hne, key, entry, hmem, hover, r, hr, hu⟩
  exact ⟨⟨key, entry⟩, hmem, hover, r, hr, u, hu, hne⟩

/-- **`vregs_interfering_on_preg` is exact.** -/
theorem mem_vregsInterferingOnPreg (h : s.StoreInv) (hiv : Ordered iv.ranges) (preg : PReg)
    (exclude u : VReg) :
    u ∈ s.vregsInterferingOnPreg preg exclude iv ↔ s.Clash preg exclude iv u := by
  unfold vregsInterferingOnPreg
  rw [h.overflowHits_eq, filter_nil, append_nil]
  simp only [mem_dedup, mem_mergeSort, mem_flatMap, ← h.hits_iff hiv]
  constructor
  · rintro ⟨⟨key, entry⟩, hmem, hin⟩
    simp only at hin
    split at hin
    next hover =>
      obtain ⟨r, hr, hu⟩ := mem_flatMap.1 hin
      obtain ⟨hu, hne⟩ := mem_filter.1 hu
      exact ⟨by simpa using hne, key, entry, hmem, hover, r, hr, hu⟩
    · simp at hin
  rintro ⟨hne, key, entry, hmem, hover, r, hr, hu⟩
  refine ⟨⟨key, entry⟩, hmem, ?_⟩
  simp only [if_pos hover]
  exact mem_flatMap.2 ⟨r, hr, mem_filter.2 ⟨hu, by simpa using hne⟩⟩

theorem sorted_vregsInterferingOnPreg (preg : PReg) (exclude : VReg) (iv : LiveInterval W) :
    (s.vregsInterferingOnPreg preg exclude iv).Pairwise (fun a b => a.le b = true)
      ∧ (s.vregsInterferingOnPreg preg exclude iv).Nodup := by
  refine ⟨List.Pairwise.sublist (dedup_sublist _) ?_, nodup_dedup _⟩
  exact @List.pairwise_mergeSort _ VReg.le VReg.le_trans VReg.le_total _

end

/-! ## Assigning -/

variable {u : VReg}

section

theorem segAt_addSegments (ranges : List Range) (key q : PReg) :
    (addSegments v ranges s key).segAt q
      = if q = key then (ranges.foldl (Segments.place v) (s.segAt key, [])).1 else s.segAt q := by
  unfold segAt addSegments
  simp only [get?_insert]
  by_cases hq : q = key
  · simp [hq]
  · simp [hq]

theorem foldl_addSegments_frame (ranges : List Range) (keys : List PReg) (s : GreedyAllocator W) :
    keys.foldl (addSegments v ranges) s
      = { s with
          pregSegments := (keys.foldl (addSegments v ranges) s).pregSegments
          segmentOverflow := (keys.foldl (addSegments v ranges) s).segmentOverflow } := by
  induction keys generalizing s with
  | nil => rfl
  | cons key keys ih =>
    rw [foldl_cons, ih]
    rfl

theorem foldl_addSegments_spec {ranges : List Range} (hrs : Ordered ranges) (keys : List PReg)
    (s : GreedyAllocator W) (hnodup : keys.Nodup) (hdisj : ∀ q ∈ keys, (s.segAt q).Disjoint)
    (hfree : ∀ q ∈ keys, ∀ r ∈ ranges, Segments.hits (s.segAt q) r = []) :
    (keys.foldl (addSegments v ranges) s).segmentOverflow = s.segmentOverflow
      ∧ ∀ (q : PReg) (r : Range) (u : VReg),
        ((keys.foldl (addSegments v ranges) s).segAt q).get? r.start = some (r.stop, u)
          ↔ (s.segAt q).get? r.start = some (r.stop, u) ∨ (q ∈ keys ∧ u = v ∧ r ∈ ranges) := by
  induction keys generalizing s with
  | nil => simp
  | cons key keys ih =>
    obtain ⟨hkey, hkeys⟩ := nodup_cons.1 hnodup
    obtain ⟨hdkey, hdkeys⟩ := forall_mem_cons.1 hdisj
    obtain ⟨hfkey, hfkeys⟩ := forall_mem_cons.1 hfree
    obtain ⟨hlost, hplaced⟩ := Segments.foldl_place v ranges (s.segAt key) [] hdkey hrs hfkey
    have hsame : ∀ q ∈ keys, (addSegments v ranges s key).segAt q = s.segAt q := by
      intro q hq
      rw [segAt_addSegments, if_neg]
      rintro rfl
      exact hkey hq
    obtain ⟨hover, hseg⟩ := ih (addSegments v ranges s key) hkeys
      (fun q hq => by rw [hsame q hq]; exact hdkeys q hq)
      (fun q hq => by rw [hsame q hq]; exact hfkeys q hq)
    rw [foldl_cons]
    refine ⟨?_, ?_⟩
    · rw [hover]
      change s.segmentOverflow ++ _ = _
      rw [show (ranges.foldl (Segments.place v)
        ((s.pregSegments.get? key).getD .empty, [])).2 = [] from hlost, map_nil, append_nil]
    intro q r u
    rw [hseg, segAt_addSegments]
    by_cases hq : q = key
    · subst hq
      rw [if_pos rfl, hplaced]
      simp [hkey]
    rw [if_neg hq]
    simp [hq]

theorem mem_foldl_recordAssignment (v : VReg) (keys : List PReg) (m : SortedMap PReg (List VReg))
    (q : PReg) (u : VReg) (h : (∃ l, m.get? q = some l ∧ u ∈ l) ∨ (q ∈ keys ∧ u = v)) :
    ∃ l, (keys.foldl (recordAssignment v) m).get? q = some l ∧ u ∈ l := by
  induction keys generalizing m with
  | nil => exact h.resolve_right fun h => absurd h.1 not_mem_nil
  | cons key keys ih =>
    rw [foldl_cons]
    refine ih _ ?_
    by_cases hq : q = key
    · subst hq
      left
      refine ⟨(m.get? q).getD [] ++ [v],
        by rw [recordAssignment, get?_insert, if_pos rfl], ?_⟩
      rcases h with ⟨l, hl, hu⟩ | ⟨-, rfl⟩
      · rw [hl]
        exact mem_append_left _ hu
      · simp
    rcases h with ⟨l, hl, hu⟩ | ⟨hmem, hu⟩
    · exact .inl ⟨l, by rw [recordAssignment, get?_insert, if_neg hq]; exact hl, hu⟩
    · exact .inr ⟨(mem_cons.1 hmem).resolve_left hq, hu⟩

theorem assign_frame (hiv : s.intervals v = some iv) : s.assign v p = { s with
      assignment := update s.assignment v (some p)
      pregAssignments := (p :: aliasingPregs p).foldl (recordAssignment v) s.pregAssignments
      pregSegments := (s.assign v p).pregSegments
      segmentOverflow := (s.assign v p).segmentOverflow } := by
  simp only [assign, hiv]
  exact foldl_addSegments_frame _ _ _

/-- No interval on storage shared with the register overlaps the interval. -/
def Free (s : GreedyAllocator W) (v : VReg) (p : PReg) (iv : LiveInterval W) : Prop :=
  ∀ u q jv, u ≠ v → s.assignment u = some q → storage q = storage p → s.intervals u = some jv →
    ¬ Meet iv.ranges jv.ranges

/-- **Assigning a free register keeps the store exact.** -/
theorem assign_storeInv (h : s.StoreInv) (hiv : s.intervals v = some iv)
    (hnew : s.assignment v = none) (hfree : s.Free v p iv) : (s.assign v p).StoreInv := by
  have hord := (h.filed v iv hiv).2
  have hold : ∀ {u q}, s.assignment u = some q → u ≠ v := by
    rintro u q hq rfl
    rw [hnew] at hq
    simp at hq
  -- nothing under the keys of the register is hit
  have hhits : ∀ q ∈ p :: aliasingPregs p, ∀ r ∈ iv.ranges, Segments.hits (s.segAt q) r = [] := by
    intro q hq r hr
    rw [eq_nil_iff_forall_not_mem]
    intro u hu
    obtain ⟨a, e, hseg, h1, h2⟩ := (Segments.mem_hits (h.disjoint q) (hord.2 r hr)).1 hu
    obtain ⟨p', jv, hp', hq', hjv, hr'⟩ := (h.segments q ⟨a, e⟩ u).1 hseg
    refine hfree u p' jv (hold hp') hp' ?_ hjv ?_
    · rw [← storage_of_mem_views hq', storage_of_mem_views hq]
    · exact (Ranges.meet_iff hord (h.filed u jv hjv).2).2 ⟨r, hr, _, hr', h1, h2⟩
  let s1 : GreedyAllocator W := { s with
    assignment := update s.assignment v (some p)
    pregAssignments := (p :: aliasingPregs p).foldl (recordAssignment v) s.pregAssignments }
  have hassign : s.assign v p = (p :: aliasingPregs p).foldl (addSegments v iv.ranges) s1 := by
    simp only [assign, hiv]
    rfl
  obtain ⟨hover, hseg⟩ := foldl_addSegments_spec (v := v) hord (p :: aliasingPregs p) s1
    (nodup_views p) (fun q _ => h.disjoint q) hhits
  rw [← hassign] at hover hseg
  have hframe := assign_frame (p := p) hiv
  -- assigned vregs are the new one and those assigned before
  have hcases : ∀ u q, (s.assign v p).assignment u = some q →
      (u = v ∧ q = p) ∨ (u ≠ v ∧ s.assignment u = some q) := by
    intro u q hq
    rw [hframe] at hq
    exact update_some_iff.1 hq
  have hints : (s.assign v p).intervals = s.intervals := by rw [hframe]
  refine ⟨?_, ?_, ?_, ?_, ?_, ?_⟩
  · rw [hints]; exact h.filed
  · intro u q hq
    rw [hints]
    rcases hcases u q hq with ⟨rfl, -⟩ | ⟨-, hq⟩
    · exact ⟨iv, hiv⟩
    · exact h.known u q hq
  · intro q r u
    rw [hseg]
    have howed : (s1.segAt q).get? r.start = some (r.stop, u) ↔ s.Owed q r u := h.segments q r u
    rw [howed]
    constructor
    · rintro (⟨p', jv, hp', hq, hjv, hr⟩ | ⟨hq, rfl, hr⟩)
      · refine ⟨p', jv, ?_, hq, by rw [hints]; exact hjv, hr⟩
        rw [hframe]
        exact (update_of_ne (hold hp') ..).trans hp'
      refine ⟨p, iv, ?_, hq, by rw [hints]; exact hiv, hr⟩
      rw [hframe]
      exact update_self ..
    rintro ⟨p', jv, hp', hq, hjv, hr⟩
    rw [hints] at hjv
    rcases hcases u p' hp' with ⟨rfl, rfl⟩ | ⟨-, hp'⟩
    · rw [hiv, some_inj] at hjv
      rw [← hjv] at hr
      exact .inr ⟨hq, rfl, hr⟩
    · exact .inl ⟨p', jv, hp', hq, hjv, hr⟩
  · rw [hover]; exact h.overflow
  · intro u w q q' jv kv hne hq hq' hst hjv hkv
    rw [hints] at hjv hkv
    rcases hcases u q hq with ⟨rfl, rfl⟩ | ⟨hu, hq1⟩
    · cases hiv.symm.trans hjv
      rcases hcases w q' hq' with ⟨rfl, -⟩ | ⟨hw, hq2⟩
      · exact absurd rfl hne
      · exact hfree w q' kv hw hq2 hst.symm hkv
    rcases hcases w q' hq' with ⟨rfl, rfl⟩ | ⟨hw, hq2⟩
    · cases hiv.symm.trans hkv
      exact fun hmeet => hfree u q jv hu hq1 hst hjv hmeet.symm
    · exact h.apart u w q q' jv kv hne hq1 hq2 hst hjv hkv
  · intro u q hq
    rw [hframe]
    refine mem_foldl_recordAssignment v _ _ q u ?_
    rcases hcases u q hq with ⟨rfl, rfl⟩ | ⟨-, hq⟩
    · exact .inr ⟨.head _, rfl⟩
    · exact .inl (h.listed u q hq)

/-! ## Unassigning -/

theorem get?_foldl_retain (v : VReg) (keys : List PReg) (m : SortedMap PReg (Segments VReg))
    (q : PReg) (a : ℕ) (seg : ℕ × VReg) :
    (((keys.foldl (fun m key => m.modify key fun entry =>
        entry.retain fun _ seg => seg.2 ≠ v) m).get? q).getD .empty).get? a = some seg
      ↔ ((m.get? q).getD .empty).get? a = some seg ∧ (q ∈ keys → seg.2 ≠ v) := by
  induction keys generalizing m q a seg with
  | nil => simp
  | cons key keys ih =>
    rw [foldl_cons, ih, get?_modify]
    by_cases hq : q = key
    · subst hq
      rw [if_pos rfl]
      cases hm : m.get? q with
      | none => simp
      | some entry =>
        simp only [Option.map_some, getD_some, SortedMap.get?_retain, decide_eq_true_eq,
          mem_cons, true_or, true_implies]
        tauto
    rw [if_neg hq]
    simp [hq]

theorem mem_foldl_filter {v : VReg} (hne : u ≠ v) (keys : List PReg)
    (m : SortedMap PReg (List VReg)) (q : PReg) (h : ∃ l, m.get? q = some l ∧ u ∈ l) :
    ∃ l, (keys.foldl (fun m key => m.modify key fun l => l.filter fun w => w ≠ v) m).get? q
      = some l ∧ u ∈ l := by
  refine foldlRecOn (motive := fun m => ∃ l, SortedMap.get? m q = some l ∧ u ∈ l) keys _ h ?_
  rintro m ⟨l, hl, hu⟩ key -
  rw [get?_modify]
  split
  · rw [hl, Option.map_some]
    exact ⟨_, rfl, mem_filter.2 ⟨hu, by simpa using hne⟩⟩
  · exact ⟨l, hl, hu⟩

theorem unassign_frame (s : GreedyAllocator W) (v : VReg) : s.unassign v = { s with
      assignment := (s.unassign v).assignment
      pregAssignments := (s.unassign v).pregAssignments
      pregSegments := (s.unassign v).pregSegments
      segmentOverflow := (s.unassign v).segmentOverflow } := by
  unfold unassign
  split <;> rfl

theorem unassign_assignment (h : ∀ p, s.assignment v = some p → ∃ iv, s.intervals v = some iv) :
    (s.unassign v).assignment = update s.assignment v none := by
  unfold unassign
  cases hp : s.assignment v with
  | none =>
    have hsame : update s.assignment v none = s.assignment := by rw [← hp, Function.update_eq_self]
    cases s.intervals v <;> exact hsame.symm
  | some p =>
    obtain ⟨iv, hiv⟩ := h p hp
    rw [hiv]

/-- **Removing an assignment keeps the store exact.** -/
theorem unassign_storeInv (h : s.StoreInv) (v : VReg) : (s.unassign v).StoreInv := by
  cases hp : s.assignment v with
  | none =>
    have hsame : s.unassign v = s := by
      unfold unassign
      rw [hp]
      cases s.intervals v <;> rfl
    rw [hsame]
    exact h
  | some p =>
    obtain ⟨iv, hiv⟩ := h.known v p hp
    have hdef : s.unassign v = { s with
        assignment := update s.assignment v none
        pregAssignments := (p :: aliasingPregs p).foldl (fun m key =>
          m.modify key fun l => l.filter fun w => w ≠ v) s.pregAssignments
        pregSegments := (p :: aliasingPregs p).foldl (fun m key =>
          m.modify key fun entry => entry.retain fun _ seg => seg.2 ≠ v) s.pregSegments
        segmentOverflow := s.segmentOverflow.filter fun seg => seg.2.2 ≠ v } := by
      unfold unassign
      rw [hiv, hp]
    have hcases : ∀ u q, (s.unassign v).assignment u = some q →
        u ≠ v ∧ s.assignment u = some q := by
      intro u q hq
      rw [unassign_assignment (h.known v)] at hq
      exact update_none_iff.1 hq
    have hints : (s.unassign v).intervals = s.intervals := by rw [unassign_frame]
    refine ⟨?_, ?_, ?_, ?_, ?_, ?_⟩
    · rw [hints]; exact h.filed
    · intro u q hq
      rw [hints]
      exact h.known u q (hcases u q hq).2
    · intro q r u
      have hseg : ((s.unassign v).segAt q).get? r.start = some (r.stop, u)
          ↔ s.Owed q r u ∧ (q ∈ p :: aliasingPregs p → u ≠ v) := by
        rw [← h.segments q r u, segAt, hdef]
        exact get?_foldl_retain v _ _ q r.start (r.stop, u)
      rw [hseg]
      constructor
      · rintro ⟨⟨p', jv, hp', hq, hjv, hr⟩, hne⟩
        have huv : u ≠ v := by
          rintro rfl
          rw [hp, some_inj] at hp'
          rw [← hp'] at hq
          exact hne hq rfl
        refine ⟨p', jv, ?_, hq, by rw [hints]; exact hjv, hr⟩
        rw [unassign_assignment (h.known v), update_of_ne huv]
        exact hp'
      rintro ⟨p', jv, hp', hq, hjv, hr⟩
      obtain ⟨huv, hp'⟩ := hcases u p' hp'
      rw [hints] at hjv
      exact ⟨⟨p', jv, hp', hq, hjv, hr⟩, fun _ => huv⟩
    · rw [hdef]
      simp [h.overflow]
    · intro u w q q' jv kv hne hq hq' hst hjv hkv
      rw [hints] at hjv hkv
      exact h.apart u w q q' jv kv hne (hcases u q hq).2 (hcases w q' hq').2 hst hjv hkv
    intro u q hq
    obtain ⟨huv, hq⟩ := hcases u q hq
    rw [hdef]
    exact mem_foldl_filter huv _ _ q (h.listed u q hq)

section

variable (fl : Floats W)

/-- One eviction: the vreg loses its register, goes back to the stage of eviction and
into the queue. -/
theorem evictOne_spec (c : ℕ) (h : ∀ p, s.assignment u = some p → ∃ iv, s.intervals u = some iv) :
    (evictOne fl c s u).assignment = update s.assignment u none
      ∧ (evictOne fl c s u).intervals = s.intervals
      ∧ (evictOne fl c s u).spilled = s.spilled
      ∧ (evictOne fl c s u).stage = update s.stage u (some .evict)
      ∧ ∃ w, (evictOne fl c s u).worklist = ⟨u, w⟩ :: s.worklist := by
  have hframe := unassign_frame s u
  refine ⟨unassign_assignment h, ?_, ?_, ?_,
    ⟨((s.intervals u).map LiveInterval.spillWeight).getD fl.zero, ?_⟩⟩
  all_goals unfold evictOne; rw [hframe]

/-- The vregs of `us` have lost their registers and wait in the queue. -/
structure Evicted (s : GreedyAllocator W) (us : List VReg) (s' : GreedyAllocator W) : Prop where
  intervals : s'.intervals = s.intervals
  spilled : s'.spilled = s.spilled
  assignment : ∀ w, s'.assignment w = if w ∈ us then none else s.assignment w
  stage : ∀ w, s'.stage w = if w ∈ us then some .evict else s.stage w
  worklist : ∃ es : List (PriorityEntry W), es.map PriorityEntry.vreg = us.reverse
    ∧ s'.worklist = es ++ s.worklist

theorem foldl_evictOne_spec (c : ℕ) (us : List VReg) (s : GreedyAllocator W)
    (h : ∀ u p, s.assignment u = some p → ∃ iv, s.intervals u = some iv) :
    Evicted s us (us.foldl (evictOne fl c) s) := by
  induction us generalizing s with
  | nil => exact ⟨rfl, rfl, by simp, by simp, [], rfl, rfl⟩
  | cons u us ih =>
    obtain ⟨h2, h3, h4, h5, w, h6⟩ := evictOne_spec fl c (h u)
    have hknown : ∀ x p, (evictOne fl c s u).assignment x = some p →
        ∃ iv, (evictOne fl c s u).intervals x = some iv := by
      intro x p hx
      rw [h2] at hx
      rw [h3]
      exact h x p (update_none_iff.1 hx).2
    obtain ⟨g2, g3, g4, g5, es, g6, g7⟩ := ih _ hknown
    rw [foldl_cons]
    refine ⟨g2.trans h3, g3.trans h4, fun x => ?_, fun x => ?_, es ++ [⟨u, w⟩], ?_, ?_⟩
    · rw [g4, h2]
      by_cases hx : x = u <;> simp [hx]
    · rw [g5, h5]
      by_cases hx : x = u <;> simp [hx]
    · simp [g6]
    · rw [g7, h6]; simp

theorem evicting_spec (h : ∀ u p, s.assignment u = some p → ∃ iv, s.intervals u = some iv)
    (v : VReg) (us : List VReg) : Evicted s us (s.evicting fl v us) := by
  have hs := foldl_evictOne_spec fl s.nextCascade us { s with
    nextCascade := s.nextCascade + 1
    cascade := update s.cascade v (some s.nextCascade) } h
  exact { hs with }

/-- **The store stays exact while a register is being cleared.** -/
theorem evicting_storeInv (h : s.StoreInv) (v : VReg) (us : List VReg) :
    (s.evicting fl v us).StoreInv :=
  foldlRecOn (motive := StoreInv) us _ { h with } fun _ h u _ => { unassign_storeInv h u with }

end

end

/-! ## Finding a register -/

variable {fl : Floats W} {s' : GreedyAllocator W}

section

theorem free_of_no_clash (h : s.StoreInv) (hiv : s.intervals v = some iv)
    (hno : ¬ ∃ u, s.Clash p v iv u) : s.Free v p iv := by
  intro u q jv hne hq hst hjv hmeet
  refine hno ⟨u, hne, q, jv, hq, hjv, allocatorPregsOverlap_iff.2 hst, ?_⟩
  exact (Ranges.overlaps_iff (h.filed v iv hiv).2 (h.filed u jv hjv).2).2 hmeet

/-- A register found by `try_assign` is free. -/
theorem tryAssign_free (h : s.StoreInv) (hiv : s.intervals v = some iv)
    (hp : s.tryAssign v = some p) : s.Free v p iv := by
  have hno : s.interferesWithPreg v p iv = false := by
    unfold tryAssign at hp
    rw [hiv] at hp
    dsimp only at hp
    split at hp
    · simp at hp
    rcases Option.or_eq_some_iff.1 hp with hhint | ⟨-, hplain⟩
    · have hcond := find?_some hhint
      simp only [hintedInterferes, hiv, Bool.and_eq_true, Bool.not_eq_true',
        Bool.or_eq_false_iff] at hcond
      exact hcond.2.2
    have hcond := find?_some hplain
    simp only [interferes, hiv, Bool.not_eq_true', Bool.or_eq_false_iff] at hcond
    exact hcond.2
  refine free_of_no_clash h hiv ?_
  rw [← interferesWithPreg_iff h (h.filed v iv hiv).2, hno]
  exact Bool.false_ne_true

theorem evictionCost_lighter {weight : W} {myCascade : ℕ} (us : List VReg) (cost : W) (found : Bool)
    (res : W × Bool) (hres : s.evictionCost fl weight myCascade us cost found = some res) :
    ∀ u ∈ us, ∀ jv, s.intervals u = some jv → fl.ge jv.spillWeight weight = false := by
  induction us generalizing cost found res with
  | nil => simp
  | cons w us ih =>
    rw [evictionCost] at hres
    rw [forall_mem_cons]
    cases hw : s.intervals w with
    | none =>
      rw [hw] at hres
      exact ⟨nofun, ih _ _ _ hres⟩
    | some kv =>
      simp only [hw, Option.ite_none_left_eq_some] at hres
      refine ⟨fun jv hjv => ?_, ih _ _ _ hres.2.2⟩
      rw [← Option.some_inj.1 hjv]
      simpa using hres.1

/-- A register that is cleared by eviction holds lighter interferers only. -/
def Evictable (s : GreedyAllocator W) (fl : Floats W) (v : VReg) (iv : LiveInterval W)
    (p : PReg) : Prop :=
  ∀ u ∈ s.vregsInterferingOnPreg p v iv, ∀ jv, s.intervals u = some jv →
    fl.ge jv.spillWeight iv.spillWeight = false

theorem chooseEviction_spec (s : GreedyAllocator W) (fl : Floats W) (v : VReg) (iv : LiveInterval W)
    (regs : List PReg) (candidates : List PReg) (best : Option PReg) (bestCost : W)
    (hbest : ∀ b, best = some b → s.Evictable fl v iv b) :
    match s.chooseEviction fl v iv regs candidates best bestCost with
      | .free p => s.anyAssignedVregOverlapping p = false
      | .evict p => s.Evictable fl v iv p
      | .stuck => True := by
  induction candidates generalizing best bestCost with
  | nil =>
    cases best with
    | none => trivial
    | some b => exact hbest b rfl
  | cons c candidates ih =>
    have hkeep := ih best bestCost hbest
    rw [chooseEviction]
    by_cases hskip : ¬ regs.contains c ∨ s.reservedInterferes iv c
    · rwa [if_pos hskip]
    rw [if_neg hskip]
    by_cases hany : ¬ s.anyAssignedVregOverlapping c
    · rw [if_pos hany]
      simpa using hany
    rw [if_neg hany]
    cases hcost : s.evictionCost fl iv.spillWeight ((s.cascade v).getD 0)
        (s.vregsInterferingOnPreg c v iv) fl.zero false with
    | none => exact hkeep
    | some res =>
      obtain ⟨cost, _ | _⟩ := res
      · exact hkeep
      dsimp only
      by_cases hless : fl.lt cost bestCost = true
      · rw [if_pos hless]
        refine ih (some c) cost fun b hb => ?_
        rw [← Option.some_inj.1 hb]
        exact evictionCost_lighter _ _ _ _ hcost
      rwa [if_neg hless]

/-- The state after clearing a register for `v`: the vregs of `us`, all lighter, have lost
their registers and wait in the queue, and the register is free. -/
structure Cleared (fl : Floats W) (s : GreedyAllocator W) (v : VReg) (iv : LiveInterval W)
    (p : PReg) (us : List VReg) (s' : GreedyAllocator W) : Prop where
  store : s'.StoreInv
  intervals : s'.intervals = s.intervals
  spilled : s'.spilled = s.spilled
  nodup : us.Nodup
  evicted : ∀ u ∈ us, u ≠ v ∧ ∃ jv, s.intervals u = some jv
    ∧ fl.ge jv.spillWeight iv.spillWeight = false
  assignment : ∀ w, s'.assignment w = if w ∈ us then none else s.assignment w
  stage : ∀ w, s'.stage w = if w ∈ us then some .evict else s.stage w
  worklist : ∃ es : List (PriorityEntry W), es.map PriorityEntry.vreg = us.reverse
    ∧ s'.worklist = es ++ s.worklist
  free : s'.Free v p iv

/-- No assigned vreg shares storage with a register that looks unused. -/
theorem free_of_unused (h : s.StoreInv) (hunused : s.anyAssignedVregOverlapping p = false) :
    s.Free v p iv := by
  intro u q jv _ hq hst _ _
  obtain ⟨l, hl, hu⟩ := h.listed u q hq
  have hno := any_eq_false.1 hunused (q, l) (SortedMap.mem_entries.2 hl)
  refine hno ?_
  simp only [Bool.and_eq_true, Bool.not_eq_true']
  exact ⟨allocatorPregsOverlap_iff.2 hst, by cases l <;> simp_all⟩

/-- `try_evict` returns a register that looks unused, or evicts what interferes. -/
theorem tryEvict_branches (hiv : s.intervals v = some iv)
    (hevict : s.tryEvict fl v = some (p, s')) :
    (s' = s ∧ s.anyAssignedVregOverlapping p = false)
      ∨ (s' = s.evicting fl v (s.vregsInterferingOnPreg p v iv) ∧ s.Evictable fl v iv p) := by
  unfold tryEvict at hevict
  rw [hiv] at hevict
  dsimp only at hevict
  split at hevict
  · simp at hevict
  rename_i regs _
  have hchoice := chooseEviction_spec s fl v iv regs
    ((s.hints iv.vreg).getD [] ++ regs) none fl.max (fun b hb => absurd hb (by simp))
  split at hevict
  next q hq =>
    rw [hq] at hchoice
    simp only [some_inj, Prod.mk.injEq] at hevict
    obtain ⟨rfl, rfl⟩ := hevict
    exact .inl ⟨rfl, hchoice⟩
  next q hq =>
    rw [hq] at hchoice
    simp only [some_inj, Prod.mk.injEq, evictInterference, hiv] at hevict
    obtain ⟨rfl, rfl⟩ := hevict
    exact .inr ⟨rfl, hchoice⟩
  · simp at hevict

/-- **A register that is found is clear**: it was free, or `try_evict` has cleared it. -/
theorem found_cleared (h : s.StoreInv) (hiv : s.intervals v = some iv)
    (hfound : s.tryAssign v = some p ∧ s' = s ∨ s.tryEvict fl v = some (p, s')) :
    ∃ us, Cleared fl s v iv p us s' := by
  have hord := (h.filed v iv hiv).2
  have hself : s.Free v p iv → ∃ us, Cleared fl s v iv p us s := fun hfree =>
    ⟨[], h, rfl, rfl, nodup_nil, by simp, by simp, by simp, ⟨[], rfl, rfl⟩, hfree⟩
  rcases hfound with ⟨hassign, rfl⟩ | hevict
  · exact hself (tryAssign_free h hiv hassign)
  rcases tryEvict_branches hiv hevict with ⟨rfl, hunused⟩ | ⟨rfl, hchoice⟩
  · exact hself (free_of_unused h hunused)
  obtain ⟨h2, h3, h4, h5, h6⟩ := evicting_spec fl h.known v (s.vregsInterferingOnPreg p v iv)
  refine ⟨s.vregsInterferingOnPreg p v iv, evicting_storeInv fl h v _, h2, h3,
    (sorted_vregsInterferingOnPreg ..).2, ?_, h4, h5, h6, ?_⟩
  · intro u hu
    obtain ⟨hne, q', jv, -, hjv, -⟩ := (mem_vregsInterferingOnPreg h hord p v u).1 hu
    exact ⟨hne, jv, hjv, hchoice u hu jv hjv⟩
  -- whoever still holds a register did not clash
  refine free_of_no_clash (evicting_storeInv fl h v _) (h2 ▸ hiv) ?_
  rintro ⟨u, hne, q', jv, hq', hjv, hclash⟩
  rw [h4] at hq'
  split at hq'
  · simp at hq'
  next hnot =>
    rw [h2] at hjv
    exact hnot ((mem_vregsInterferingOnPreg h hord p v u).2 ⟨hne, q', jv, hq', hjv, hclash⟩)

end

end GreedyAllocator

end TrustCg.RegAlloc
