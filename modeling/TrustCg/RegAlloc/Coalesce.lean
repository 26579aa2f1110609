import Mathlib.Data.List.Sort
import TrustCg.Lib.UnionFind
import TrustCg.RegAlloc.Exec
import TrustCg.RegAlloc.Liveness

/-!
# Copy coalescing

`coalesce_copies` walks the copies of a function and merges source and destination
when their intervals overlap at most at the copy itself; `apply_coalescing` removes the
copies and renames every vreg to its representative.

* `CoalesceInv` : the invariant of the walk.  Two vregs of one class are both live at a
  position only if the instruction there is a copy between them.
* `coalesceCopies_spec` : the walk ends, and the rewrites lead to the roots.
-/

namespace TrustCg.RegAlloc

open Ranges (Range Covers Separated)
open UnionFind (RootOf Rooted)
open Function (update update_of_ne update_self)
open List
open Option (some_inj)

variable {p : ℕ} {d r src u v : VReg} {done : List VReg}

/-! ## The pass -/

section

variable {W : Type*}

/-- They overlap at the copy alone. -/
def overlapIsCopyPointOnly (dst src : LiveInterval W) (copyInst : InstId)
    (instNumbering : InstId → Option ℕ) : Bool :=
  match instNumbering copyInst with
  | none => false
  | some copyPos =>
    src.ranges.all fun r => dst.ranges.all fun t =>
      !r.overlaps t || !(max r.start t.start < copyPos || min r.stop t.stop > copyPos + 1)

/-- `Vec::dedup`: of equal neighbours one is kept. -/
def vecDedup {α : Type*} [DecidableEq α] : List α → List α
  | [] => []
  | [a] => [a]
  | a :: b :: l => if a = b then vecDedup (b :: l) else a :: vecDedup (b :: l)

/-- Sorted, without repetitions. -/
def sortDedup (l : List ℕ) : List ℕ := vecDedup (l.insertionSort (· ≤ ·))

variable [Zero W] [Add W]

/-- The union of two intervals. -/
def mergeIntervalContents (dst src : LiveInterval W) (dstId : ℕ) (dstClass : RegClass) :
    LiveInterval W :=
  { src.ranges.foldl (fun iv r => iv.addRange r.start r.stop) dst with
    vreg := ⟨dstId, dstClass⟩
    usePositions := sortDedup (dst.usePositions ++ src.usePositions)
    defPositions := sortDedup (dst.defPositions ++ src.defPositions)
    spillWeight := dst.spillWeight + src.spillWeight
    isFixed := dst.isFixed || src.isFixed }

/-- The source's interval joins the other. -/
def mergeInterval (ivs : Intervals W) (dstId : ℕ) (dstClass : RegClass) (srcId : ℕ) : Intervals W :=
  if dstId = srcId then ivs
  else
    let rest := update ivs srcId none
    match rest dstId, ivs srcId with
    | some dst, some src =>
      update rest dstId (some (mergeIntervalContents dst src dstId dstClass))
    | none, some src => update rest dstId (some { src with vreg := ⟨dstId, dstClass⟩ })
    | some dst, none => update rest dstId (some { dst with vreg := ⟨dstId, dstClass⟩ })
    | none, none => rest

/-- The variables of the loop of `coalesce_copies_tuned_with_numbering`.  The vector of
parents covers every id, so it is a function on ids here. -/
structure CoalesceState (W : Type*) where
  parent : ℕ → Option VReg
  seen : List VReg
  intervals : Intervals W
  copiesRemoved : ℕ
  intervalsMerged : ℕ
  removals : List InstId

/-- The test that refuses a merge: the intervals overlap somewhere but at the copy. -/
def mergeRefused (instNumbering : InstId → Option ℕ) (ivs : Intervals W) (dstRoot srcRoot : VReg)
    (instId : InstId) : Bool :=
  let dstInterval := (ivs dstRoot.id).getD (LiveInterval.new dstRoot)
  let srcInterval := (ivs srcRoot.id).getD (LiveInterval.new srcRoot)
  dstInterval.overlaps srcInterval
    && !overlapIsCopyPointOnly dstInterval srcInterval instId instNumbering

/-- The body of the loop, with the default tuning.  The fuel bounds the walks of the
union-find. -/
def coalesceStep (fuel : ℕ) (f : MachFunction) (instNumbering : InstId → Option ℕ)
    (s : CoalesceState W) (instId : InstId) : Option (CoalesceState W) :=
  match f.insts[instId]?.bind MachInst.asCopy with
  | none => some s
  | some (dst, src) =>
    match UnionFind.find VReg.id fuel s.parent dst with
    | none => none
    | some (dstRoot, parent₁) =>
      match UnionFind.find VReg.id fuel parent₁ src with
      | none => none
      | some (srcRoot, parent₂) =>
        let s := { s with parent := parent₂, seen := s.seen ++ [dst, src] }
        if dstRoot = srcRoot then
          some { s with
            removals := s.removals ++ [instId]
            copiesRemoved := s.copiesRemoved + 1 }
        else if dstRoot.cls ≠ srcRoot.cls then some s
        else if mergeRefused instNumbering s.intervals dstRoot srcRoot instId then some s
        else
          some { s with
            parent := update s.parent srcRoot.id (some dstRoot)
            intervals := mergeInterval s.intervals dstRoot.id dstRoot.cls srcRoot.id
            removals := s.removals ++ [instId]
            copiesRemoved := s.copiesRemoved + 1
            intervalsMerged := s.intervalsMerged + 1 }

/-- The rewrites, one entry for each key. -/
abbrev Rewrites := List (VReg × VReg)

/-- `BTreeMap::get`. -/
def Rewrites.get? (rewrites : Rewrites) (v : VReg) : Option VReg :=
  (rewrites.find? fun entry => entry.1 == v).map Prod.snd

/-- `BTreeMap::insert`. -/
def Rewrites.insert (rewrites : Rewrites) (v root : VReg) : Rewrites :=
  (v, root) :: rewrites.filter fun entry => entry.1 != v

/-- One round of the final loop. -/
def rewriteStep (fuel : ℕ) (acc : (ℕ → Option VReg) × Rewrites) (v : VReg) :
    Option ((ℕ → Option VReg) × Rewrites) :=
  match UnionFind.find VReg.id fuel acc.1 v with
  | none => none
  | some (root, parent) =>
    some (parent, if root ≠ v then acc.2.insert v root else acc.2)

/-- `CoalesceResult`, with the interval map the function leaves behind. -/
structure CoalesceResult (W : Type*) where
  copiesRemoved : ℕ
  intervalsMerged : ℕ
  removals : List InstId
  rewrites : Rewrites
  intervals : Intervals W

/-- The blocks in program order. -/
def blockIndices (f : MachFunction) : List BlockId :=
  if f.blockOrder = [] then List.range f.blocks.length else f.blockOrder

/-- Removals and rewrites of all copies. -/
def coalesceCopies (fuel : ℕ) (f : MachFunction) (intervals : Intervals W) :
    Option (CoalesceResult W) :=
  match ((blockIndices f).flatMap f.blockInsts).foldlM (coalesceStep fuel f (numberInsts f))
      ⟨fun _ => none, [], intervals, 0, 0, []⟩ with
  | none => none
  | some s =>
    match (vecDedup (s.seen.insertionSort fun a b => a.id ≤ b.id)).foldlM (rewriteStep fuel)
        (s.parent, []) with
    | none => none
    | some (_, rewrites) =>
      some ⟨s.copiesRemoved, s.intervalsMerged, s.removals, rewrites, s.intervals⟩

end

/-- The walk of `resolve_rewrite`, with the steps that are left. -/
def resolveFrom (rewrites : Rewrites) : ℕ → VReg → VReg
  | 0, v => v
  | steps + 1, v =>
    match rewrites.get? v with
    | some next => if next = v then v else resolveFrom rewrites steps next
    | none => v

variable (rewrites : Rewrites)

/-- The representative of a vreg. -/
def resolveRewrite (v : VReg) : VReg :=
  resolveFrom rewrites rewrites.length v

/-- `rewrite_operands`, for one operand. -/
def rewriteOperand : Operand → Operand
  | .vreg v => .vreg (resolveRewrite rewrites v)
  | op => op

/-- Both operand lists are rewritten. -/
def rewriteInst (inst : MachInst) : MachInst :=
  { inst with
    defs := inst.defs.map (rewriteOperand rewrites)
    uses := inst.uses.map (rewriteOperand rewrites) }

/-- The function with both applied. -/
def applyCoalescing (f : MachFunction) (removals : List InstId) (rewrites : Rewrites) :
    MachFunction :=
  let blocks := f.blocks.map fun block =>
    { block with insts := block.insts.filter fun id => !removals.contains id }
  if rewrites.isEmpty then { f with blocks := blocks }
  else { f with blocks := blocks, insts := f.insts.map (rewriteInst rewrites) }

/-! ## Merged intervals -/

variable {id : InstId}

section

variable {W : Type*} {ivs : Intervals W} {dstId srcId : ℕ} {dstClass : RegClass}

theorem foldl_addRange (rs : List Range) (iv : LiveInterval W) (hsep : Separated iv.ranges)
    (hne : iv.ranges ≠ []) :
    Separated (rs.foldl (fun iv r => iv.addRange r.start r.stop) iv).ranges
      ∧ (rs.foldl (fun iv r => iv.addRange r.start r.stop) iv).ranges ≠ [] := by
  obtain ⟨hsep', hcovers⟩ := iv.addRanges_spec hsep rs
  refine ⟨hsep', ?_⟩
  obtain ⟨r, hr⟩ := exists_mem_of_ne_nil _ hne
  obtain ⟨t, ht, -⟩ := (hcovers r.start).2 (.inl ⟨r, hr, le_rfl, hsep.2 r hr⟩)
  exact ne_nil_of_mem ht

theorem mergeInterval_good [Add W] (hgood : ivs.Good) :
    (mergeInterval ivs dstId dstClass srcId).Good := by
  unfold mergeInterval
  split
  · exact hgood
  rename_i hne
  have hrest : Intervals.Good (update ivs srcId none) := by
    intro x iv hx
    exact hgood x iv (update_none_iff.1 hx).2
  have hinsert : ∀ iv : LiveInterval W, Separated iv.ranges → iv.ranges ≠ [] →
      Intervals.Good (update (update ivs srcId none) dstId (some iv)) := by
    intro iv hsep hnil x jv hx
    rcases update_some_iff.1 hx with ⟨-, rfl⟩ | ⟨-, hx⟩
    · exact ⟨hsep, hnil⟩
    · exact hrest x jv hx
  dsimp only
  split
  next dst src hdst hsrc =>
    obtain ⟨hd1, hd2⟩ := hrest _ _ hdst
    obtain ⟨h1, h2⟩ := foldl_addRange src.ranges dst hd1 hd2
    exact hinsert _ h1 h2
  next src _ hsrc => exact hinsert _ (hgood _ _ hsrc).1 (hgood _ _ hsrc).2
  next dst hdst _ => exact hinsert _ (hrest _ _ hdst).1 (hrest _ _ hdst).2
  · exact hrest

/-- What was covered stays covered, by the destination if it was the source. -/
theorem mergeInterval_covered [Add W] (dstClass : RegClass) (hgood : ivs.Good)
    (hne : dstId ≠ srcId) {x : ℕ} (h : ivs.Covered x p) :
    (mergeInterval ivs dstId dstClass srcId).Covered (if x = srcId then dstId else x) p := by
  obtain ⟨iv, hiv, hcov⟩ := h
  unfold mergeInterval
  rw [if_neg hne]
  dsimp only
  rw [update_of_ne hne]
  have hself : ∀ jv : LiveInterval W, Covers jv.ranges p →
      Intervals.Covered (update (update ivs srcId none) dstId (some jv)) dstId p
      := fun jv hjv => ⟨jv, update_self .., hjv⟩
  have hother : ∀ jv : LiveInterval W, x ≠ srcId → x ≠ dstId →
      Intervals.Covered (update (update ivs srcId none) dstId (some jv)) x p := by
    intro jv hxs hxd
    exact ⟨iv, by rw [update_of_ne hxd, update_of_ne hxs]; exact hiv, hcov⟩
  by_cases hxs : x = srcId
  · subst hxs
    rw [if_pos rfl, hiv]
    cases hd : ivs dstId with
    | none => exact hself _ hcov
    | some dst =>
      have h3 := (dst.addRanges_spec (hgood _ _ hd).1 iv.ranges).2
      exact hself _ ((h3 p).2 (.inr hcov))
  rw [if_neg hxs]
  by_cases hxd : x = dstId
  · subst hxd
    rw [hiv]
    cases hs : ivs srcId with
    | none => exact hself _ hcov
    | some src =>
      have h3 := (iv.addRanges_spec (hgood _ _ hiv).1 src.ranges).2
      exact hself _ ((h3 p).2 (.inl hcov))
  split
  · exact hother _ hxs hxd
  · exact hother _ hxs hxd
  · exact hother _ hxs hxd
  · exact ⟨iv, (update_of_ne hxs ..).trans hiv, hcov⟩

/-- **The test for a merge.**  The intervals have no position in common but that of the
copy. -/
theorem common_position {dst src : LiveInterval W} {num : InstId → Option ℕ}
    (hdst : Separated dst.ranges) (hsrc : Separated src.ranges)
    (htest : (dst.overlaps src && !overlapIsCopyPointOnly dst src id num) = false)
    (hp : Covers dst.ranges p) (hp' : Covers src.ranges p) : num id = some p := by
  have hlap : dst.overlaps src = true :=
    (Ranges.overlaps_iff hdst.ordered hsrc.ordered).2 ⟨p, hp, hp'⟩
  rw [hlap, Bool.true_and, Bool.not_eq_false'] at htest
  unfold overlapIsCopyPointOnly at htest
  split at htest
  · simp at htest
  rename_i pos hpos
  obtain ⟨r, hr, hr1, hr2⟩ := hp'
  obtain ⟨t, ht, ht1, ht2⟩ := hp
  have hpair := all_eq_true.1 (all_eq_true.1 htest r hr) t ht
  simp only [Range.overlaps, Bool.or_eq_true, Bool.not_eq_true', Bool.and_eq_false_iff,
    decide_eq_false_iff_not, Bool.or_eq_false_iff] at hpair
  rw [hpos, some_inj]
  omega

end

/-! ## The invariant of the walk -/

/-- No id is used with two classes. -/
def MachFunction.OneClassPerId (f : MachFunction) : Prop :=
  ∀ u ∈ f.vregs, ∀ v ∈ f.vregs, u.id = v.id → u = v

/-- The instruction at the position is a copy between the two vregs. -/
def CopyAt (f : MachFunction) (p : ℕ) (u v : VReg) : Prop :=
  ∃ id inst, id ∈ layout f ∧ numberInsts f id = some p ∧ f.insts[id]? = some inst
    ∧ (inst.asCopy = some (u, v) ∨ inst.asCopy = some (v, u))

/-- What the walk relies on: the intervals it starts from cover every mention. -/
structure CoversMentions {W : Type*} (f : MachFunction) (orig : Intervals W) : Prop where
  good : orig.Good
  mention : ∀ id ∈ layout f, ∀ inst, f.insts[id]? = some inst →
    ∀ v ∈ inst.vregDefs ++ inst.vregUses, ∀ p, numberInsts f id = some p → orig.Covered v.id p
  listed : ∀ x p, orig.Covered x p → f.blockOrder ≠ []

/-- **The invariant of the walk.** -/
structure CoalesceInv {W : Type*} (f : MachFunction) (orig : Intervals W) (s : CoalesceState W) :
    Prop where
  rooted : Rooted VReg.id s.parent
  /-- Roots are vregs of the function, of the class of their members. -/
  root : ∀ v ∈ f.vregs, ∀ r, RootOf VReg.id s.parent v r → r ∈ f.vregs ∧ r.cls = v.cls
  seen : ∀ v ∈ f.vregs, ∀ r, RootOf VReg.id s.parent v r → r ≠ v → v ∈ s.seen ∧ r ∈ s.seen
  good : s.intervals.Good
  /-- The interval of a root covers its members. -/
  covers : ∀ v ∈ f.vregs, ∀ r p, RootOf VReg.id s.parent v r → orig.Covered v.id p →
    s.intervals.Covered r.id p
  /-- Members of one class meet at copies between them only. -/
  apart : ∀ u ∈ f.vregs, ∀ v ∈ f.vregs, u ≠ v → ∀ r p, RootOf VReg.id s.parent u r →
    RootOf VReg.id s.parent v r → orig.Covered u.id p → orig.Covered v.id p → CopyAt f p u v
  removed : ∀ id ∈ s.removals, ∃ inst d src r, f.insts[id]? = some inst
    ∧ inst.asCopy = some (d, src) ∧ RootOf VReg.id s.parent d r ∧ RootOf VReg.id s.parent src r

variable {f : MachFunction} {inst : MachInst}

section

variable {W : Type*} {orig : Intervals W} {s : CoalesceState W} {dRoot sRoot : VReg}

theorem CopyAt.symm (h : CopyAt f p u v) : CopyAt f p v u := by
  obtain ⟨id, inst, h1, h2, h3, h4⟩ := h
  exact ⟨id, inst, h1, h2, h3, h4.symm⟩

theorem numberInsts_inj (hnodup : (layout f).Nodup) {id' : InstId} (hid : id ∈ layout f)
    (hid' : id' ∈ layout f) (h : numberInsts f id = some p) (h' : numberInsts f id' = some p) :
    id = id' := by
  obtain ⟨i, hi⟩ := mem_iff_getElem?.1 hid
  obtain ⟨j, hj⟩ := mem_iff_getElem?.1 hid'
  rw [numberInsts, numberFrom_getElem _ 0 i _ id hnodup hi, some_inj] at h
  rw [numberInsts, numberFrom_getElem _ 0 j _ id' hnodup hj, some_inj] at h'
  have hij : i = j := by omega
  subst hij
  exact Option.some_inj.1 (hi.symm.trans hj)

theorem CoversMentions.inv (h : CoversMentions f orig) :
    CoalesceInv f orig ⟨fun _ => none, [], orig, 0, 0, []⟩ := by
  have hself : ∀ v r, RootOf VReg.id (fun _ => none) v r → r = v := by
    intro v r hr
    have hv : RootOf VReg.id (fun _ => none) v v := .self rfl
    exact hv.unique hr
  refine ⟨UnionFind.rooted_empty, ?_, ?_, h.good, ?_, ?_, by simp⟩
  · intro v hv r hr
    rw [hself v r hr]
    exact ⟨hv, rfl⟩
  · intro v _ r hr hne
    exact absurd (hself v r hr) hne
  · intro v _ r p hr hp
    rw [hself v r hr]
    exact hp
  intro u _ v _ hne r p hu hv
  exact absurd ((hself u r hu).symm.trans (hself v r hv)) hne

/-- Path compression keeps the invariant, and so does seeing more vregs. -/
theorem CoalesceInv.compress (h : CoalesceInv f orig s) {parent : ℕ → Option VReg}
    (hkeep : ∀ u r, RootOf VReg.id s.parent u r → RootOf VReg.id parent u r) (more : List VReg) :
    CoalesceInv f orig { s with parent := parent, seen := s.seen ++ more } := by
  have hback : ∀ u r, RootOf VReg.id parent u r → RootOf VReg.id s.parent u r := by
    intro u r hr
    obtain ⟨r', hr'⟩ := h.rooted u
    rw [(hkeep u r' hr').unique hr]
    exact hr'
  refine ⟨fun v => ?_, fun v hv r hr => h.root v hv r (hback v r hr), ?_, h.good,
    fun v hv r p hr => h.covers v hv r p (hback v r hr),
    fun u hu v hv hne r p hur hvr => h.apart u hu v hv hne r p (hback u r hur) (hback v r hvr), ?_⟩
  · obtain ⟨r, hr⟩ := h.rooted v
    exact ⟨r, hkeep v r hr⟩
  · intro v hv r hr hne
    obtain ⟨h1, h2⟩ := h.seen v hv r (hback v r hr) hne
    exact ⟨mem_append_left _ h1, mem_append_left _ h2⟩
  intro id hid
  obtain ⟨inst, d, src, r, h1, h2, h3, h4⟩ := h.removed id hid
  exact ⟨inst, d, src, r, h1, h2, hkeep d r h3, hkeep src r h4⟩

theorem CoalesceInv.drop (h : CoalesceInv f orig s) (hinst : f.insts[id]? = some inst)
    (hcopy : inst.asCopy = some (d, src)) (hd : RootOf VReg.id s.parent d r)
    (hsrc : RootOf VReg.id s.parent src r) (n : ℕ) :
    CoalesceInv f orig { s with removals := s.removals ++ [id], copiesRemoved := n } := by
  refine ⟨h.rooted, h.root, h.seen, h.good, h.covers, h.apart, ?_⟩
  intro id' hid'
  rcases mem_append.1 hid' with hid' | hid'
  · exact h.removed id' hid'
  rw [mem_singleton.1 hid']
  exact ⟨inst, d, src, r, hinst, hcopy, hd, hsrc⟩

theorem separated_root [Zero W] (hgood : s.intervals.Good) (r : VReg) :
    Separated ((s.intervals r.id).getD (LiveInterval.new r)).ranges := by
  cases hr : s.intervals r.id with
  | none => exact ⟨List.Pairwise.nil, by simp [LiveInterval.new]⟩
  | some iv => exact (hgood _ _ hr).1

theorem covers_root [Zero W] (h : s.intervals.Covered r.id p) :
    Covers ((s.intervals r.id).getD (LiveInterval.new r)).ranges p := by
  obtain ⟨iv, hiv, hcov⟩ := h
  rw [hiv]
  exact hcov

/-- Where two classes meet, if the test lets them merge, is the copy, and then the
members that meet are its ends. -/
theorem CoalesceInv.meet_at_copy [Zero W] (h : CoalesceInv f orig s)
    (hmentions : CoversMentions f orig) (hnodup : (layout f).Nodup)
    (hid : id ∈ (blockIndices f).flatMap f.blockInsts) (hinst : f.insts[id]? = some inst)
    (hcopy : inst.asCopy = some (d, src)) (hd : RootOf VReg.id s.parent d dRoot)
    (hs : RootOf VReg.id s.parent src sRoot) (hne : dRoot ≠ sRoot)
    (htest : mergeRefused (numberInsts f) s.intervals dRoot sRoot id = false) :
    ∀ u ∈ f.vregs, ∀ v ∈ f.vregs, ∀ p, RootOf VReg.id s.parent u dRoot →
      RootOf VReg.id s.parent v sRoot → orig.Covered u.id p → orig.Covered v.id p →
      CopyAt f p u v := by
  intro u hu v hv p hur hvr hup hvp
  have hpos : numberInsts f id = some p :=
    common_position (separated_root h.good dRoot) (separated_root h.good sRoot) htest
      (covers_root (h.covers u hu dRoot p hur hup)) (covers_root (h.covers v hv sRoot p hvr hvp))
  have hlay : id ∈ layout f := by
    rw [blockIndices, if_neg (hmentions.listed _ _ hup)] at hid
    exact hid
  obtain ⟨hdmem, hsmem⟩ := mem_of_asCopy hcopy
  have hdm := mem_append_left inst.vregUses hdmem
  have hsm := mem_append_right inst.vregDefs hsmem
  have hdp := hmentions.mention id hlay inst hinst d hdm p hpos
  have hsp := hmentions.mention id hlay inst hinst src hsm p hpos
  -- a copy at this position is this copy
  have hthis : ∀ a c : VReg, CopyAt f p a c → (a = d ∧ c = src) ∨ (a = src ∧ c = d) := by
    rintro a c ⟨id', inst', hlay', hpos', hinst', hcase⟩
    rw [numberInsts_inj hnodup hlay' hlay hpos' hpos] at hinst'
    cases hinst.symm.trans hinst'
    rcases hcase with hc | hc
    · rw [hcopy, some_inj, Prod.mk.injEq] at hc
      exact .inl ⟨hc.1.symm, hc.2.symm⟩
    rw [hcopy, some_inj, Prod.mk.injEq] at hc
    exact .inr ⟨hc.2.symm, hc.1.symm⟩
  have hud : u = d := by
    by_contra hcon
    rcases hthis u d (h.apart u hu d (mem_vregs hinst hdm) hcon dRoot p hur hd hup hdp) with
      ⟨h1, -⟩ | ⟨h1, -⟩
    · exact hcon h1
    rw [h1] at hur
    exact hne (hs.unique hur)
  have hvs : v = src := by
    by_contra hcon
    rcases hthis v src (h.apart v hv src (mem_vregs hinst hsm) hcon sRoot p hvr hs hvp hsp) with
      ⟨h1, -⟩ | ⟨h1, -⟩
    · rw [h1] at hvr
      exact hne (hvr.unique hd)
    · exact hcon h1
  rw [hud, hvs]
  exact ⟨id, inst, hlay, hpos, hinst, .inl hcopy⟩

section

variable [Zero W] [Add W] (h : CoalesceInv f orig s) (hmentions : CoversMentions f orig)
    (hnodup : (layout f).Nodup) (hone : f.OneClassPerId)
    (hid : id ∈ (blockIndices f).flatMap f.blockInsts)
include h hmentions hnodup hone hid

/-- **A merge keeps the invariant.** -/
theorem CoalesceInv.merge (hinst : f.insts[id]? = some inst) (hcopy : inst.asCopy = some (d, src))
    (hd : RootOf VReg.id s.parent d dRoot) (hs : RootOf VReg.id s.parent src sRoot)
    (hseen : dRoot ∈ s.seen ∧ sRoot ∈ s.seen) (hne : dRoot ≠ sRoot) (hcls : dRoot.cls = sRoot.cls)
    (htest : mergeRefused (numberInsts f) s.intervals dRoot sRoot id = false) (n m : ℕ) :
    CoalesceInv f orig { s with
      parent := update s.parent sRoot.id (some dRoot)
      intervals := mergeInterval s.intervals dRoot.id dRoot.cls sRoot.id
      removals := s.removals ++ [id]
      copiesRemoved := n
      intervalsMerged := m } := by
  obtain ⟨hdmem, hsmem⟩ := mem_of_asCopy hcopy
  have hdr := (h.root d (mem_vregs hinst (mem_append_left _ hdmem)) dRoot hd).1
  have hsr := (h.root src (mem_vregs hinst (mem_append_right _ hsmem)) sRoot hs).1
  have hids : dRoot.id ≠ sRoot.id := fun heq => hne (hone dRoot hdr sRoot hsr heq)
  -- the roots afterwards
  have hlink : ∀ v r', RootOf VReg.id (update s.parent sRoot.id (some dRoot)) v r' ↔
      ∃ r, RootOf VReg.id s.parent v r ∧ r' = if r.id = sRoot.id then dRoot else r :=
    fun v r' => UnionFind.rootOf_link h.rooted hs.parent_root hd.parent_root hids
  have hback : ∀ v ∈ f.vregs, ∀ r', RootOf VReg.id
      (update s.parent sRoot.id (some dRoot)) v r' →
      (RootOf VReg.id s.parent v sRoot ∧ r' = dRoot)
        ∨ (RootOf VReg.id s.parent v r' ∧ r' ≠ sRoot) := by
    intro v hv r' hr'
    obtain ⟨r, hr, rfl⟩ := (hlink v r').1 hr'
    by_cases heq : r.id = sRoot.id
    · rw [if_pos heq]
      rw [hone r (h.root v hv r hr).1 sRoot hsr heq] at hr
      exact .inl ⟨hr, rfl⟩
    rw [if_neg heq]
    exact .inr ⟨hr, fun hcon => heq (congrArg VReg.id hcon)⟩
  refine ⟨UnionFind.rooted_link h.rooted hs.parent_root hd.parent_root hids, ?_, ?_,
    mergeInterval_good h.good, ?_, ?_, ?_⟩
  · intro v hv r' hr'
    rcases hback v hv r' hr' with ⟨hr, rfl⟩ | ⟨hr, -⟩
    · exact ⟨hdr, hcls.trans (h.root v hv sRoot hr).2⟩
    · exact h.root v hv r' hr
  · intro v hv r' hr' hne'
    rcases hback v hv r' hr' with ⟨hr, rfl⟩ | ⟨hr, -⟩
    · by_cases hvs : sRoot = v
      · rw [← hvs]
        exact ⟨hseen.2, hseen.1⟩
      · exact ⟨(h.seen v hv sRoot hr hvs).1, hseen.1⟩
    · exact h.seen v hv r' hr hne'
  · intro v hv r' p hr' hp
    rcases hback v hv r' hr' with ⟨hr, rfl⟩ | ⟨hr, hne'⟩
    · have := mergeInterval_covered r'.cls h.good hids (h.covers v hv sRoot p hr hp)
      rw [if_pos rfl] at this
      exact this
    have := mergeInterval_covered dRoot.cls h.good hids (h.covers v hv r' p hr hp)
    rw [if_neg fun heq => hne' (hone r' (h.root v hv r' hr).1 sRoot hsr heq)] at this
    exact this
  · intro u hu v hv huv r' p hur hvr hup hvp
    have hmeet := h.meet_at_copy hmentions hnodup hid hinst hcopy hd hs hne htest
    rcases hback u hu r' hur with ⟨hu', rfl⟩ | ⟨hu', -⟩
    · rcases hback v hv r' hvr with ⟨hv', -⟩ | ⟨hv', -⟩
      · exact h.apart u hu v hv huv sRoot p hu' hv' hup hvp
      · exact (hmeet v hv u hu p hv' hu' hvp hup).symm
    rcases hback v hv r' hvr with ⟨hv', rfl⟩ | ⟨hv', -⟩
    · exact hmeet u hu v hv p hu' hv' hup hvp
    · exact h.apart u hu v hv huv r' p hu' hv' hup hvp
  intro id' hid'
  rcases mem_append.1 hid' with hid' | hid'
  · obtain ⟨inst', d', s', r, h1, h2, h3, h4⟩ := h.removed id' hid'
    exact ⟨inst', d', s', _, h1, h2, (hlink d' _).2 ⟨r, h3, rfl⟩, (hlink s' _).2 ⟨r, h4, rfl⟩⟩
  rw [mem_singleton.1 hid']
  exact ⟨inst, d, src, dRoot, hinst, hcopy, (hlink d _).2 ⟨dRoot, hd, (if_neg hids).symm⟩,
    (hlink src _).2 ⟨sRoot, hs, (if_pos rfl).symm⟩⟩

/-- **One instruction of the walk.** -/
theorem coalesceStep_inv :
    ∃ bound s', (∀ fuel, bound ≤ fuel → coalesceStep fuel f (numberInsts f) s id = some s')
      ∧ CoalesceInv f orig s' := by
  cases hcopy : f.insts[id]?.bind MachInst.asCopy with
  | none => exact ⟨0, s, fun fuel _ => by rw [coalesceStep, hcopy], h⟩
  | some ends =>
    obtain ⟨d, src⟩ := ends
    obtain ⟨inst, hinst, hends⟩ := Option.bind_eq_some_iff.1 hcopy
    obtain ⟨hdmem, hsmem⟩ := mem_of_asCopy hends
    have hdm := mem_vregs hinst (mem_append_left _ hdmem)
    have hsm := mem_vregs hinst (mem_append_right _ hsmem)
    obtain ⟨dRoot, hd⟩ := h.rooted d
    obtain ⟨sRoot, hs⟩ := h.rooted src
    obtain ⟨b1, parent₁, hfind1, hkeep1⟩ := UnionFind.find_spec hd
    obtain ⟨b2, parent₂, hfind2, hkeep2⟩ := UnionFind.find_spec (hkeep1 src sRoot hs)
    have hkeep : ∀ u r, RootOf VReg.id s.parent u r → RootOf VReg.id parent₂ u r :=
      fun u r hr => hkeep2 u r (hkeep1 u r hr)
    have h2 := h.compress hkeep [d, src]
    have hseen : ∀ v r, v ∈ f.vregs → v ∈ [d, src] → RootOf VReg.id s.parent v r →
        r ∈ s.seen ++ [d, src] := by
      intro v r hv hmem hr
      by_cases heq : r = v
      · rw [heq]
        exact mem_append_right _ hmem
      · exact mem_append_left _ (h.seen v hv r hr heq).2
    have hrun : ∀ fuel, max b1 b2 ≤ fuel →
        UnionFind.find VReg.id fuel s.parent d = some (dRoot, parent₁)
          ∧ UnionFind.find VReg.id fuel parent₁ src = some (sRoot, parent₂) := fun fuel hfuel =>
      ⟨hfind1 fuel (le_trans (le_max_left _ _) hfuel),
        hfind2 fuel (le_trans (le_max_right _ _) hfuel)⟩
    by_cases hroots : dRoot = sRoot
    · refine ⟨max b1 b2, _, fun fuel hfuel => ?_, h2.drop hinst hends (hkeep d dRoot hd)
        (by rw [hroots]; exact hkeep src sRoot hs) (s.copiesRemoved + 1)⟩
      simp only [coalesceStep, hcopy, hrun fuel hfuel, if_pos hroots]
    by_cases hcls : dRoot.cls = sRoot.cls
    · cases htest : mergeRefused (numberInsts f) s.intervals dRoot sRoot id with
      | true =>
        refine ⟨max b1 b2, _, fun fuel hfuel => ?_, h2⟩
        simp only [coalesceStep, hcopy, hrun fuel hfuel, if_neg hroots, hcls, ne_eq,
          not_true_eq_false, if_false, htest, if_true]
      | false =>
        refine ⟨max b1 b2, _, fun fuel hfuel => ?_, h2.merge hmentions hnodup hone hid hinst
          hends (hkeep d dRoot hd) (hkeep src sRoot hs) ⟨hseen d dRoot hdm (by simp) hd,
            hseen src sRoot hsm (by simp) hs⟩ hroots hcls htest (s.copiesRemoved + 1)
          (s.intervalsMerged + 1)⟩
        simp only [coalesceStep, hcopy, hrun fuel hfuel, if_neg hroots, hcls, ne_eq,
          not_true_eq_false, if_false, htest, Bool.false_eq_true]
    · refine ⟨max b1 b2, _, fun fuel hfuel => ?_, h2⟩
      simp [coalesceStep, hcopy, hrun fuel hfuel, if_neg hroots, ne_eq, hcls, not_false_eq_true]

end

end

/-! ## The rewrites -/

variable {rewrites : Rewrites}

section

theorem mem_vecDedup {α : Type*} [DecidableEq α] (x : α) : ∀ l : List α,
    x ∈ l → x ∈ vecDedup l := by
  intro l
  induction l with
  | nil => intro h; exact h
  | cons a l ih =>
    intro h
    cases l with
    | nil => exact h
    | cons b l =>
      rw [vecDedup]
      split
      next hab =>
        rcases mem_cons.1 h with rfl | h
        · exact ih (by rw [hab]; exact .head _)
        · exact ih h
      · rcases mem_cons.1 h with rfl | h
        · exact .head _
        · exact .tail _ (ih h)

variable {parent : ℕ → Option VReg}

theorem Rewrites.get?_insert (v root w : VReg) :
    (rewrites.insert v root).get? w = if w = v then some root else rewrites.get? w := by
  unfold Rewrites.insert Rewrites.get?
  by_cases hw : w = v
  · simp [hw]
  have hne : (v == w) = false := by simpa using fun h => hw h.symm
  have htest : (fun entry : VReg × VReg => decide ((entry.1 != v) = true ∧ (entry.1 == w) = true))
      = fun entry => entry.1 == w := by
    funext entry
    by_cases he : entry.1 = w
    · simp [he, hw]
    · simp [he]
  rw [if_neg hw, find?_cons, hne, find?_filter, htest]

/-- The rewrites lead from the vregs that were looked at to their roots. -/
structure RewritesOk (parent : ℕ → Option VReg) (done : List VReg) (rewrites : Rewrites) :
    Prop where
  sound : ∀ v r, rewrites.get? v = some r → RootOf VReg.id parent v r ∧ r ≠ v
  complete : ∀ v ∈ done, ∀ r, RootOf VReg.id parent v r → r ≠ v → rewrites.get? v = some r

theorem rewriteStep_ok (hrooted : Rooted VReg.id parent)
    {acc : (ℕ → Option VReg) × Rewrites} (v : VReg)
    (h : (∀ u r, RootOf VReg.id parent u r → RootOf VReg.id acc.1 u r)
      ∧ RewritesOk parent done acc.2) :
    ∃ bound acc', (∀ fuel, bound ≤ fuel → rewriteStep fuel acc v = some acc')
      ∧ (∀ u r, RootOf VReg.id parent u r → RootOf VReg.id acc'.1 u r)
      ∧ RewritesOk parent (done ++ [v]) acc'.2 := by
  obtain ⟨hroots, hok⟩ := h
  obtain ⟨root, hroot⟩ := hrooted v
  obtain ⟨bound, parent', hfind, hkeep⟩ := UnionFind.find_spec (hroots v root hroot)
  refine ⟨bound, (parent', if root ≠ v then acc.2.insert v root else acc.2),
    fun fuel hfuel => by rw [rewriteStep, hfind fuel hfuel],
    fun u r hu => hkeep u r (hroots u r hu), ?_⟩
  by_cases hne : root = v
  · rw [if_neg (by simpa using hne)]
    refine ⟨hok.sound, ?_⟩
    intro u hu r hr hru
    rcases mem_append.1 hu with hu | hu
    · exact hok.complete u hu r hr hru
    rw [mem_singleton.1 hu] at hr hru
    exact absurd ((hroot.unique hr).trans hne) hru
  rw [if_pos hne]
  refine ⟨?_, ?_⟩
  · intro u r hr
    rw [Rewrites.get?_insert] at hr
    split at hr
    next huv =>
      rw [huv, ← Option.some_inj.1 hr]
      exact ⟨hroot, hne⟩
    · exact hok.sound u r hr
  intro u hu r hr hru
  rw [Rewrites.get?_insert]
  split
  next huv =>
    rw [huv] at hr
    rw [hroot.unique hr]
  next huv =>
    rcases mem_append.1 hu with hu | hu
    · exact hok.complete u hu r hr hru
    · exact absurd (mem_singleton.1 hu) huv

section

variable (h : RewritesOk parent done rewrites)
include h

theorem RewritesOk.get?_root (hr : parent r.id = none) : rewrites.get? r = none := by
  cases hget : rewrites.get? r with
  | none => rfl
  | some q =>
    obtain ⟨hq, hne⟩ := h.sound r q hget
    exact absurd ((RootOf.self hr).unique hq) hne

theorem resolveFrom_root (hr : parent r.id = none) (n : ℕ) : resolveFrom rewrites n r = r := by
  cases n with
  | zero => rfl
  | succ n => rw [resolveFrom, h.get?_root hr]

/-- **Rewriting leads to the root.** -/
theorem resolveRewrite_eq (hr : RootOf VReg.id parent v r) (hdone : r ≠ v → v ∈ done) :
    resolveRewrite rewrites v = r := by
  by_cases hne : r = v
  · subst hne
    exact resolveFrom_root h hr.parent_root _
  have hget := h.complete v (hdone hne) r hr hne
  obtain ⟨n, hn⟩ : ∃ n, rewrites.length = n + 1 := by
    cases hrw : rewrites with
    | nil => rw [hrw] at hget; simp [Rewrites.get?] at hget
    | cons e es => exact ⟨es.length, rfl⟩
  rw [resolveRewrite, hn, resolveFrom, hget]
  simp only [if_neg hne]
  exact resolveFrom_root h hr.parent_root n

end

end

/-! ## What the pass returns -/

/-- **A renaming that may be applied.**  It keeps classes, it identifies vregs only if
they are live together at copies between them at most, and the removed instructions are
copies whose ends it identifies. -/
structure CoalescingOk {W : Type*} (f : MachFunction) (orig : Intervals W)
    (removals : List InstId) (rename : VReg → VReg) : Prop where
  cls : ∀ v ∈ f.vregs, (rename v).cls = v.cls
  apart : ∀ u ∈ f.vregs, ∀ v ∈ f.vregs, u ≠ v → rename u = rename v → ∀ p,
    orig.Covered u.id p → orig.Covered v.id p → CopyAt f p u v
  removed : ∀ id ∈ removals, ∃ inst d src, f.insts[id]? = some inst
    ∧ inst.asCopy = some (d, src) ∧ rename d = rename src

/-- **The pass ends, and its result may be applied.** -/
theorem coalesceCopies_spec {W : Type*} [Zero W] [Add W] {f : MachFunction} {orig : Intervals W}
    (hmentions : CoversMentions f orig) (hnodup : (layout f).Nodup) (hone : f.OneClassPerId) :
    ∃ bound res, (∀ fuel, bound ≤ fuel → coalesceCopies fuel f orig = some res)
      ∧ CoalescingOk f orig res.removals (resolveRewrite res.rewrites) := by
  obtain ⟨b1, s, hrun1, hinv⟩ := Loop.foldlM_spec
    (fun fuel => coalesceStep fuel f (numberInsts f)) (fun _ s => CoalesceInv f orig s)
    ((blockIndices f).flatMap f.blockInsts) [] ⟨fun _ => none, [], orig, 0, 0, []⟩
    (fun _ s id hid hs => coalesceStep_inv hs hmentions hnodup hone hid) hmentions.inv
  obtain ⟨b2, acc, hrun2, -, hok⟩ := Loop.foldlM_spec rewriteStep
    (fun done acc => (∀ u r, RootOf VReg.id s.parent u r → RootOf VReg.id acc.1 u r)
      ∧ RewritesOk s.parent done acc.2)
    (vecDedup (s.seen.insertionSort fun a b => a.id ≤ b.id)) [] (s.parent, [])
    (fun done acc v _ h => rewriteStep_ok hinv.rooted v h)
    ⟨fun _ _ h => h, ⟨fun v r h => absurd h (by simp [Rewrites.get?]), by simp⟩⟩
  have hresolve : ∀ v ∈ f.vregs, ∀ r, RootOf VReg.id s.parent v r → resolveRewrite acc.2 v = r := by
    intro v hv r hr
    refine resolveRewrite_eq hok hr fun hne => ?_
    exact mem_vecDedup v _ ((mem_insertionSort _).2 (hinv.seen v hv r hr hne).1)
  refine ⟨max b1 b2, ⟨s.copiesRemoved, s.intervalsMerged, s.removals, acc.2, s.intervals⟩, ?_, ?_,
    ?_, ?_⟩
  · intro fuel hfuel
    have h1 := hrun1 fuel (le_trans (le_max_left _ _) hfuel)
    have h2 := hrun2 fuel (le_trans (le_max_right _ _) hfuel)
    simp only [coalesceCopies, h1, h2]
  · intro v hv
    obtain ⟨r, hr⟩ := hinv.rooted v
    rw [hresolve v hv r hr]
    exact (hinv.root v hv r hr).2
  · intro u hu v hv hne heq p hup hvp
    obtain ⟨r, hr⟩ := hinv.rooted u
    obtain ⟨r', hr'⟩ := hinv.rooted v
    rw [hresolve u hu r hr, hresolve v hv r' hr'] at heq
    rw [← heq] at hr'
    exact hinv.apart u hu v hv hne r p hr hr' hup hvp
  intro id hid
  obtain ⟨inst, d, src, r, hinst, hcopy, hd, hsrc⟩ := hinv.removed id hid
  obtain ⟨hdm, hsm⟩ := mem_of_asCopy hcopy
  refine ⟨inst, d, src, hinst, hcopy, ?_⟩
  rw [hresolve d (mem_vregs hinst (mem_append_left _ hdm)) r hd,
    hresolve src (mem_vregs hinst (mem_append_right _ hsm)) r hsrc]

end TrustCg.RegAlloc
