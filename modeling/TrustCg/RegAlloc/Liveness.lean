import Mathlib.Algebra.Order.Ring.Nat
import TrustCg.Lib.Ranges
import TrustCg.Lib.Updates
import TrustCg.RegAlloc.LiveSets

/-!
# Live intervals

`compute_live_intervals`: instructions are numbered along the layout order, the
dataflow of `TrustCg.RegAlloc.LiveSets` gives the live-in and live-out sets, and
four rules turn them into range lists, block by block: a live-out vreg lives from
its last local definition (or the block start) to the block end, a vreg that is
only live-in lives until its last use, a use extends back to the definition that
reaches it, and a definition covers at least its own position.

* `covered_of_liveAfter` : a vreg that is live after an instruction, as the
  dataflow sees it, covers the position of that instruction.
* `liveAt_of_reaches` : a definition-free path through listed blocks to a use makes
  the vreg live along the way.
* `computeLiveIntervals_covers` : the two together, with the convergence of the
  dataflow and the shape of the range lists.

A path through a block that the layout does not list is not seen, since the
dataflow only visits listed blocks, nor is a use before an instruction that is named again
behind it (`computeLiveIntervals_misses_unlisted`).
-/

namespace TrustCg.RegAlloc

open Ranges (Range Covers Separated)
open Function (update update_of_ne update_self)
open List Option

variable {j j' k : ℕ} {b' : BlockId}

/-! ## Intervals -/

/-- `LiveInterval`; the type of the spill weights is left open. -/
structure LiveInterval (W : Type*) where
  vreg : VReg
  ranges : List Range
  spillWeight : W
  isFixed : Bool
  usePositions : List ℕ
  defPositions : List ℕ
  deriving DecidableEq, Repr

namespace LiveInterval

variable {W : Type*}

/-- An interval without ranges. -/
def new [Zero W] (v : VReg) : LiveInterval W := ⟨v, [], 0, false, [], []⟩

/-- `start`: the start of the first range. -/
def start (iv : LiveInterval W) : ℕ := (iv.ranges.head?.map Range.start).getD 0

/-- `end`: the end of the last range. -/
def stop (iv : LiveInterval W) : ℕ := (iv.ranges.getLast?.map Range.stop).getD 0

variable (iv : LiveInterval W)

/-- `is_live_at`: a binary search over the ranges. -/
def isLiveAt (idx : ℕ) : Bool :=
  (Ranges.binarySearchBy (Ranges.compareAt idx) iv.ranges).isSome

/-- Some position is in both. -/
def overlaps (iv other : LiveInterval W) : Bool := Ranges.overlaps iv.ranges other.ranges

/-- A range, merged with those it touches. -/
def addRange (s e : ℕ) : LiveInterval W :=
  { iv with ranges := Ranges.add iv.ranges s e }

/-- `add_range` for one range after the other. -/
def addRanges (added : List Range) : LiveInterval W :=
  added.foldl (fun iv r => iv.addRange r.start r.stop) iv

theorem addRanges_spec (hsep : Separated iv.ranges) (added : List Range) :
    Separated (iv.addRanges added).ranges
      ∧ ∀ p, Covers (iv.addRanges added).ranges p ↔ Covers iv.ranges p ∨ Covers added p := by
  induction added generalizing iv with
  | nil => exact ⟨hsep, fun p => by simp [addRanges, Covers]⟩
  | cons r added ih =>
    obtain ⟨hsep', hcovers⟩ := ih (iv.addRange r.start r.stop) (Ranges.separated_add hsep)
    refine ⟨hsep', fun p => ?_⟩
    rw [addRanges, foldl_cons, ← addRanges, hcovers, addRange, Ranges.covers_add hsep,
      Ranges.covers_cons]
    tauto

theorem isLiveAt_iff {iv : LiveInterval W} (hsep : Separated iv.ranges) (p : ℕ) :
    iv.isLiveAt p = true ↔ Covers iv.ranges p := Ranges.find_iff_covers hsep.ordered p

/-- **Intervals built by `add_range`**, in any order: the ranges stay sorted and apart, the
binary search finds what was added, and the scan for an overlap finds a common position. -/
theorem addRanges_new_spec [Zero W] (u v : VReg) (added added' : List Range) :
    Separated ((new u : LiveInterval W).addRanges added).ranges
      ∧ (∀ p, ((new u : LiveInterval W).addRanges added).isLiveAt p = true ↔ Covers added p)
      ∧ (((new u : LiveInterval W).addRanges added).overlaps ((new v).addRanges added') = true
        ↔ ∃ p, ((new u : LiveInterval W).addRanges added).isLiveAt p = true
          ∧ ((new v : LiveInterval W).addRanges added').isLiveAt p = true) := by
  have hnil : Separated ([] : List Range) := ⟨.nil, by simp⟩
  obtain ⟨hsep, hcovers⟩ := addRanges_spec (new u : LiveInterval W) hnil added
  obtain ⟨hsep', -⟩ := addRanges_spec (new v : LiveInterval W) hnil added'
  refine ⟨hsep, fun p => ?_, ?_⟩
  · rw [isLiveAt_iff hsep, hcovers]
    simp [new, Ranges.covers_nil]
  rw [overlaps, Ranges.overlaps_iff hsep.ordered hsep'.ordered]
  simp only [isLiveAt_iff hsep, isLiveAt_iff hsep', Ranges.Meet]

/-- A use is recorded. -/
def noteUse (pos : ℕ) (iv : LiveInterval W) : LiveInterval W :=
  { iv with usePositions := iv.usePositions ++ [pos] }

/-- A definition is recorded; it also decides the class of the interval. -/
def noteDef (pos : ℕ) (cls : RegClass) (iv : LiveInterval W) : LiveInterval W :=
  { iv with vreg := { iv.vreg with cls := cls }, defPositions := iv.defPositions ++ [pos] }

end LiveInterval

/-- `merge_vreg_class`: the wider class of the same bank wins, otherwise the first. -/
def mergeVregClass (lhs rhs : RegClass) : RegClass :=
  if lhs = rhs then lhs
  else
    match lhs, rhs with
    | .gpr64, .gpr32 | .gpr64, .system | .gpr32, .gpr64 | .system, .gpr64 => .gpr64
    | .gpr32, .system | .system, .gpr32 => .gpr32
    | .fpr128, .fpr64 | .fpr128, .fpr32 | .fpr128, .fpr16 | .fpr128, .fpr8
    | .fpr64, .fpr128 | .fpr32, .fpr128 | .fpr16, .fpr128 | .fpr8, .fpr128 => .fpr128
    | .fpr64, .fpr32 | .fpr64, .fpr16 | .fpr64, .fpr8
    | .fpr32, .fpr64 | .fpr16, .fpr64 | .fpr8, .fpr64 => .fpr64
    | .fpr32, .fpr16 | .fpr32, .fpr8 | .fpr16, .fpr32 | .fpr8, .fpr32 => .fpr32
    | .fpr16, .fpr8 | .fpr8, .fpr16 => .fpr16
    | _, _ => lhs

variable (f : MachFunction)

/-- The class of each id. -/
def collectVregClasses : ℕ → Option RegClass :=
  (f.insts.flatMap fun inst => inst.vregDefs ++ inst.vregUses).foldl
    (fun classes v => update classes v.id
      (some (match classes v.id with
        | some c => mergeVregClass c v.cls
        | none => v.cls)))
    fun _ => none

/-- The class, `Gpr64` if unknown. -/
def vregClassForId (id : ℕ) (classes : ℕ → Option RegClass) : RegClass :=
  (classes id).getD .gpr64

/-! ## Numbering -/

/-- The instructions along the layout order. -/
def layout : List InstId := f.blockOrder.flatMap f.blockInsts

/-- The counting walk of `number_insts`. -/
def numberFrom : List InstId → ℕ → (InstId → Option ℕ) → InstId → Option ℕ
  | [], _, numbering => numbering
  | id :: ids, idx, numbering => numberFrom ids (idx + 1) (update numbering id (some idx))

/-- Positions along the layout. -/
def numberInsts : InstId → Option ℕ := numberFrom (layout f) 0 fun _ => none

/-- `inst_num_vec`: the numbering with `0` for an instruction that is not laid out. -/
def instNum (id : InstId) : ℕ := (numberInsts f id).getD 0

/-- `inst_loop_depths`: the loop depth at each position. -/
def instLoopDepths : List ℕ :=
  f.blockOrder.flatMap fun b =>
    match f.blocks[b]? with
    | some block => block.insts.map fun _ => block.loopDepth
    | none => []

/-! ## Building the intervals -/

/-- `interval_vec`. -/
abbrev Intervals (W : Type*) := ℕ → Option (LiveInterval W)

section

variable {W : Type*} [Zero W]

/-- Get the interval of a vreg, creating it on the first visit, note something about
it and add a range. -/
def Intervals.extend (ivs : Intervals W) (v : VReg) (note : LiveInterval W → LiveInterval W)
    (s e : ℕ) : Intervals W :=
  update ivs v.id (some ((note ((ivs v.id).getD (LiveInterval.new v))).addRange s e))

variable (f : MachFunction)

variable (num : InstId → ℕ)

/-- The definitions of an instruction become the last ones seen. -/
def recordDefs (m : ℕ → Option ℕ) (id : InstId) : ℕ → Option ℕ :=
  (f.instDefs id).foldl (fun m v => update m v.id (some (num id))) m

/-- `last_defs_in_block`, and `reaching_defs` when the list is a prefix of the block. -/
def lastDefs (ids : List InstId) : ℕ → Option ℕ :=
  ids.foldl (recordDefs f num) fun _ => none

/-- `last_use_end_in_block`. -/
def lastUseEnds (ids : List InstId) : ℕ → Option ℕ :=
  ids.foldl (fun m id =>
    (f.instUses id).foldl (fun m v => update m v.id (some (num id + 1))) m) fun _ => none

/-- `LiveSet::iter`: the ids of the set, ascending. -/
def LiveSet.iter {k : ℕ} (s : LiveSet k) : List ℕ := (List.range k).filter s.get

/-- Live-out vregs live from their last local definition, or from the block start,
to the block end. -/
def liveOutPass (classes : ℕ → Option RegClass) (last : ℕ → Option ℕ) (blockStart blockEnd : ℕ)
    (out : List ℕ) (ivs : Intervals W) : Intervals W :=
  out.foldl (fun ivs x =>
    ivs.extend ⟨x, vregClassForId x classes⟩ id ((last x).getD blockStart) blockEnd) ivs

/-- Vregs that are live-in and not live-out live until their last use. -/
def liveInPass (classes : ℕ → Option RegClass) (lastUse : ℕ → Option ℕ) (blockStart : ℕ)
    (ins : List ℕ) (ivs : Intervals W) : Intervals W :=
  ins.foldl (fun ivs x =>
    match lastUse x with
    | some lastUseEnd =>
      if lastUseEnd > blockStart then
        ivs.extend ⟨x, vregClassForId x classes⟩ id blockStart lastUseEnd
      else ivs
    | none => ivs) ivs

/-- One instruction of the second pass.  The uses see the definitions that reach the
instruction, then its own definitions are noted. -/
def instPass (blockStart : ℕ)
    (acc : Intervals W × (ℕ → Option ℕ)) (id : InstId) : Intervals W × (ℕ → Option ℕ) :=
  let used := (f.instUses id).foldl (fun ivs v =>
    ivs.extend v (LiveInterval.noteUse (num id)) ((acc.2 v.id).getD blockStart) (num id + 1)) acc.1
  ((f.instDefs id).foldl (fun ivs v =>
    ivs.extend v (LiveInterval.noteDef (num id) v.cls) (num id) (num id + 1)) used,
   recordDefs f num acc.2 id)

/-- One block of step 3; an empty block is skipped. -/
def blockPass {k : ℕ} (sets : LiveSets k) (ivs : Intervals W) (b : BlockId) : Intervals W :=
  let ids := f.blockInsts b
  match ids.head?, ids.getLast? with
  | some first, some final =>
    let num := instNum f
    let blockStart := num first
    let blockEnd := num final + 1
    let classes := collectVregClasses f
    let out := liveOutPass classes (lastDefs f num ids) blockStart blockEnd
      (sets.liveOut b).iter ivs
    let both := liveInPass classes (lastUseEnds f num ids) blockStart
      ((sets.liveIn b).iter.filter fun x => !(sets.liveOut b).get x) out
    (ids.foldl (instPass f num blockStart) (both, fun _ => none)).1
  | _, _ => ivs

/-- Step 3 of `compute_live_intervals`. -/
def buildIntervals {k : ℕ} (sets : LiveSets k) : Intervals W :=
  f.blockOrder.foldl (blockPass f sets) fun _ => none

end

section

variable {W : Type*} [Zero W] [Add W] [Div W] [Pow W ℕ] [NatCast W]

/-- `compute_spill_weight`, over any arithmetic. -/
def computeSpillWeight (base : W) (depths : List ℕ) (iv : LiveInterval W) : W :=
  if iv.ranges = [] then 0
  else
    (iv.usePositions ++ iv.defPositions).foldl (fun w pos => w + base ^ ((depths[pos]?).getD 0)) 0
      / ((max (iv.stop - iv.start) 1 : ℕ) : W)

/-- `LivenessResult`, and whether the dataflow gave up at its iteration cap. -/
structure LivenessResult (W : Type*) where
  intervals : Intervals W
  instNumbering : InstId → Option ℕ
  capHit : Bool

/-- `compute_live_intervals`; `base` is `spill_weight_base()`. -/
def computeLiveIntervals (base : W) (f : MachFunction) : LivenessResult W :=
  let fix := liveFixpoint f
  ⟨fun x => (buildIntervals f fix.1 x).map fun iv =>
      { iv with spillWeight := computeSpillWeight base (instLoopDepths f) iv },
   numberInsts f, fix.2⟩

end

/-! ## What an extension covers -/

section

variable {W : Type*}

variable (ivs : Intervals W)

/-- The interval of `x` exists and contains the position. -/
def Intervals.Covered (x p : ℕ) : Prop :=
  ∃ iv, ivs x = some iv ∧ Covers iv.ranges p

/-- Every interval has ranges, and they are sorted with gaps between them. -/
def Intervals.Good : Prop :=
  ∀ x iv, ivs x = some iv → Separated iv.ranges ∧ iv.ranges ≠ []

/-- The part of it that holds for every function. -/
def Intervals.Apart : Prop := ∀ x iv, ivs x = some iv → Separated iv.ranges

theorem Intervals.Good.apart {ivs : Intervals W} (h : ivs.Good) : ivs.Apart :=
  fun x iv hx => (h x iv hx).1

/-- Later intervals: still good, and nothing that was covered is lost. -/
structure Intervals.Grown (ivs ivs' : Intervals W) : Prop where
  good : ivs'.Good
  keep : ∀ x p, ivs.Covered x p → ivs'.Covered x p

theorem Intervals.Grown.refl {ivs : Intervals W} (h : ivs.Good) : ivs.Grown ivs :=
  ⟨h, fun _ _ hc => hc⟩

theorem Intervals.Grown.trans {a b c : Intervals W} (h1 : a.Grown b) (h2 : b.Grown c) : a.Grown c :=
  ⟨h2.good, fun x p hc => h2.keep x p (h1.keep x p hc)⟩

variable [Zero W] {ivs : Intervals W} {v : VReg} {note : LiveInterval W → LiveInterval W} {s e : ℕ}

/-- The ranges of a vreg before an extension; a new interval has none. -/
theorem separated_getD (h : ivs.Apart) (v : VReg) :
    Separated ((ivs v.id).getD (LiveInterval.new v)).ranges := by
  cases hx : ivs v.id with
  | none => exact ⟨List.Pairwise.nil, by simp [LiveInterval.new]⟩
  | some iv => exact h _ _ hx

theorem extend_forall {P : LiveInterval W → Prop} (h : ∀ x iv, ivs x = some iv → P iv)
    (hnew : P ((note ((ivs v.id).getD (LiveInterval.new v))).addRange s e)) :
    ∀ x iv, ivs.extend v note s e x = some iv → P iv := by
  intro x iv hx
  rcases update_some_iff.1 hx with ⟨-, rfl⟩ | ⟨-, hx⟩
  · exact hnew
  · exact h x iv hx

theorem extend_apart (hnote : ∀ iv, (note iv).ranges = iv.ranges) (h : ivs.Apart) :
    (ivs.extend v note s e).Apart := by
  refine extend_forall h ?_
  rw [LiveInterval.addRange, hnote]
  exact Ranges.separated_add (separated_getD h v)

theorem extend_good (hnote : ∀ iv, (note iv).ranges = iv.ranges) (hse : s < e) (hgood : ivs.Good) :
    (ivs.extend v note s e).Good := by
  refine extend_forall hgood ?_
  have hsep := separated_getD hgood.apart v
  rw [LiveInterval.addRange, hnote]
  exact ⟨Ranges.separated_add hsep, Ranges.add_ne_nil hsep hse⟩

/-- **An extension covers the new range and nothing else.** -/
theorem covered_extend (hnote : ∀ iv, (note iv).ranges = iv.ranges) (hgood : ivs.Good) {x p : ℕ} :
    (ivs.extend v note s e).Covered x p ↔ ivs.Covered x p ∨ (x = v.id ∧ s ≤ p ∧ p < e) := by
  by_cases hxv : x = v.id
  · subst hxv
    have hsep := separated_getD hgood.apart v
    have hcov := Ranges.covers_add (s := s) (e := e) hsep p
    simp only [Intervals.Covered, Intervals.extend, update_self, some_inj,
      exists_eq_left', LiveInterval.addRange, hnote, hcov]
    cases hx : ivs v.id with
    | none => simp [LiveInterval.new, Ranges.covers_nil]
    | some iv => simp
  · simp [Intervals.Covered, Intervals.extend, hxv]

theorem foldl_extend {α : Type*} (reg : α → VReg) (note : α → LiveInterval W → LiveInterval W)
    (s e : α → ℕ) (hnote : ∀ a iv, (note a iv).ranges = iv.ranges) :
    ∀ (l : List α) (ivs : Intervals W), (∀ a ∈ l, s a < e a) → ivs.Good →
      ivs.Grown (l.foldl (fun ivs a => ivs.extend (reg a) (note a) (s a) (e a)) ivs)
        ∧ ∀ a ∈ l, ∀ p, s a ≤ p → p < e a →
          (l.foldl (fun ivs a => ivs.extend (reg a) (note a) (s a) (e a)) ivs).Covered (reg a).id p
    := by
  intro l
  induction l with
  | nil =>
    intro ivs _ hgood
    exact ⟨.refl hgood, fun a ha => absurd ha (by simp)⟩
  | cons a l ih =>
    intro ivs hse hgood
    obtain ⟨ha, hl⟩ := forall_mem_cons.1 hse
    have hgood' : (ivs.extend (reg a) (note a) (s a) (e a)).Good := extend_good (hnote a) ha hgood
    obtain ⟨hgrown, hcov⟩ := ih _ hl hgood'
    rw [foldl_cons]
    have hstep : ivs.Grown (ivs.extend (reg a) (note a) (s a) (e a)) :=
      ⟨hgood', fun x p hc => (covered_extend (hnote a) hgood).2 (.inl hc)⟩
    refine ⟨hstep.trans hgrown, ?_⟩
    intro c hc p hp1 hp2
    rcases mem_cons.1 hc with rfl | hc
    · exact hgrown.keep _ _ ((covered_extend (hnote c) hgood).2 (.inr ⟨rfl, hp1, hp2⟩))
    · exact hcov c hc p hp1 hp2

theorem liveInPass_grown (classes : ℕ → Option RegClass) (lastUse : ℕ → Option ℕ) (blockStart : ℕ)
    (ins : List ℕ) (ivs : Intervals W) (hgood : ivs.Good) :
    ivs.Grown (liveInPass classes lastUse blockStart ins ivs) := by
  induction ins generalizing ivs with
  | nil => exact .refl hgood
  | cons x ins ih =>
    rw [liveInPass, foldl_cons]
    cases hlast : lastUse x with
    | none => exact ih ivs hgood
    | some lastUseEnd =>
      by_cases hlt : lastUseEnd > blockStart
      · simp only [if_pos hlt]
        have hgood' := extend_good (v := ⟨x, vregClassForId x classes⟩)
          (fun iv : LiveInterval W => (rfl : (id iv).ranges = iv.ranges)) hlt hgood
        refine Intervals.Grown.trans ⟨hgood', ?_⟩ (ih _ hgood')
        exact fun y p hc => (covered_extend (fun _ => rfl) hgood).2 (.inl hc)
      simp only [if_neg hlt]
      exact ih ivs hgood

end

/-! ## One block -/

variable {f : MachFunction}

section

variable {num : InstId → ℕ} {x : ℕ} {base : ℕ} {ids : List InstId}

/-- The instructions of the list have consecutive numbers. -/
def Consecutive (num : InstId → ℕ) (base : ℕ) (ids : List InstId) : Prop :=
  ∀ j id, ids[j]? = some id → num id = base + j

theorem foldl_update_id (d : ℕ) (vs : List VReg) (m : ℕ → Option ℕ) :
    vs.foldl (fun (m : ℕ → Option ℕ) v => update m v.id (some d)) m x
      = if ∃ v ∈ vs, v.id = x then some d else m x := by
  induction vs generalizing m with
  | nil => simp
  | cons v vs ih =>
    rw [foldl_cons, ih]
    by_cases hvs : ∃ w ∈ vs, w.id = x
    · rw [if_pos hvs, if_pos (by simpa using .inr hvs)]
    rw [if_neg hvs]
    by_cases hv : v.id = x
    · subst hv
      simp
    · rw [update_of_ne (Ne.symm hv), if_neg (by simpa [hv] using hvs)]

theorem recordDefs_apply (m : ℕ → Option ℕ) (id : InstId) (x : ℕ) :
    recordDefs f num m id x = if f.Defines id x then some (num id) else m x := by
  rw [recordDefs, foldl_update_id]
  rfl

theorem lastDefs_append (ids : List InstId) (id : InstId) :
    lastDefs f num (ids ++ [id]) = recordDefs f num (lastDefs f num ids) id := by
  simp [lastDefs]

/-- A recorded definition is the position of a defining instruction. -/
theorem lastDefs_some : ∀ (ids : List InstId) (d : ℕ), lastDefs f num ids x = some d →
    ∃ (j : ℕ) (id : InstId), ids[j]? = some id ∧ f.Defines id x ∧ d = num id := by
  intro ids
  induction ids using List.reverseRecOn with
  | nil => intro d h; simp [lastDefs] at h
  | append_singleton ids id ih =>
    intro d h
    rw [lastDefs_append, recordDefs_apply] at h
    by_cases hdef : f.Defines id x
    · rw [if_pos hdef, some_inj] at h
      exact ⟨ids.length, id, by simp, hdef, h.symm⟩
    rw [if_neg hdef] at h
    obtain ⟨j, id', hj, hdef', hd⟩ := ih d h
    refine ⟨j, id', ?_, hdef', hd⟩
    rw [List.getElem?_append_left (List.getElem?_eq_some_iff.1 hj).1, hj]

/-- Where the range of a use or of a live-out vreg starts: at or before any
instruction after which the vreg is not defined any more. -/
theorem lastDefs_le (hnum : Consecutive num base ids)
    (hno : ∀ i id, j < i → ids[i]? = some id → ¬ f.Defines id x) :
    (lastDefs f num ids x).getD base ≤ base + j := by
  cases hd : lastDefs f num ids x with
  | none => exact Nat.le_add_right base j
  | some d =>
    obtain ⟨i, id, hi, hdef, rfl⟩ := lastDefs_some ids d hd
    have hij : i ≤ j := by
      by_contra hlt
      exact hno i id (by omega) hi hdef
    rw [getD_some, hnum i id hi]
    omega

theorem Consecutive.take (h : Consecutive num base ids) (j : ℕ) :
    Consecutive num base (ids.take j) := by
  intro i id hi
  refine h i id ?_
  rw [getElem?_take] at hi
  split at hi
  · exact hi
  · simp at hi

variable {W : Type*} [Zero W]

theorem instPass_snd (blockStart : ℕ) (ids : List InstId) (ivs : Intervals W) :
    (ids.foldl (instPass f num blockStart) (ivs, fun _ => none)).2 = lastDefs f num ids := by
  induction ids using List.reverseRecOn with
  | nil => rfl
  | append_singleton ids id ih =>
    rw [foldl_append, lastDefs_append, ← ih]
    rfl

theorem instPass_spec (acc : Intervals W × (ℕ → Option ℕ)) (id : InstId)
    (hreach : ∀ x, (acc.2 x).getD base ≤ num id) (hgood : acc.1.Good) :
    acc.1.Grown (instPass f num base acc id).1
      ∧ (∀ x p, f.Uses id x → (acc.2 x).getD base ≤ p → p ≤ num id →
          (instPass f num base acc id).1.Covered x p)
      ∧ ∀ x, f.Defines id x → (instPass f num base acc id).1.Covered x (num id) := by
  have huse := foldl_extend (fun v => v) (fun _ => LiveInterval.noteUse (num id))
    (fun v => (acc.2 v.id).getD base) (fun _ => num id + 1) (fun _ _ => rfl) (f.instUses id)
    acc.1 (fun v _ => Nat.lt_succ_of_le (hreach v.id)) hgood
  obtain ⟨hgrown, hcov⟩ := huse
  have hdef := foldl_extend (fun v => v) (fun v => LiveInterval.noteDef (num id) v.cls)
    (fun _ => num id) (fun _ => num id + 1) (fun _ _ => rfl) (f.instDefs id) _
    (fun _ _ => Nat.lt_succ_self _) hgrown.good
  obtain ⟨hgrown', hcov'⟩ := hdef
  refine ⟨hgrown.trans hgrown', ?_, ?_⟩
  · rintro x p ⟨v, hv, rfl⟩ hp1 hp2
    exact hgrown'.keep _ _ (hcov v hv p hp1 (Nat.lt_succ_of_le hp2))
  rintro x ⟨v, hv, rfl⟩
  exact hcov' v hv _ le_rfl (Nat.lt_succ_self _)

theorem foldl_instPass_spec {ivs : Intervals W} (hgood : ivs.Good) :
    ∀ (ids : List InstId), Consecutive num base ids →
      ivs.Grown (ids.foldl (instPass f num base) (ivs, fun _ => none)).1
        ∧ ∀ j id, ids[j]? = some id →
          (∀ x p, f.Uses id x → (lastDefs f num (ids.take j) x).getD base ≤ p → p ≤ num id →
            (ids.foldl (instPass f num base) (ivs, fun _ => none)).1.Covered x p)
          ∧ ∀ x, f.Defines id x →
            (ids.foldl (instPass f num base) (ivs, fun _ => none)).1.Covered x (num id) := by
  intro ids
  induction ids using List.reverseRecOn with
  | nil => intro _; exact ⟨.refl hgood, fun j id hj => absurd hj (by simp)⟩
  | append_singleton ids id ih =>
    intro hnum
    have hnum' : Consecutive num base ids := by simpa using hnum.take ids.length
    obtain ⟨hgrown, hcov⟩ := ih hnum'
    have hid : num id = base + ids.length := hnum _ _ (by simp)
    have hreach : ∀ x, (lastDefs f num ids x).getD base ≤ num id := by
      intro x
      rw [hid]
      refine lastDefs_le hnum' ?_
      intro i id' hi hget
      have := (List.getElem?_eq_some_iff.1 hget).1
      omega
    have hstep := instPass_spec (f := f)
      (ids.foldl (instPass f num base) (ivs, fun _ => none)) id
      (by rw [instPass_snd]; exact hreach) hgrown.good
    rw [instPass_snd] at hstep
    obtain ⟨hgrown', huse, hdef⟩ := hstep
    rw [foldl_append, foldl_cons, foldl_nil]
    refine ⟨hgrown.trans hgrown', ?_⟩
    intro j id' hj
    by_cases hlt : j < ids.length
    · rw [getElem?_append_left hlt] at hj
      obtain ⟨huse', hdef'⟩ := hcov j id' hj
      rw [take_append_of_le_length hlt.le]
      exact ⟨fun x p h1 h2 h3 => hgrown'.keep _ _ (huse' x p h1 h2 h3),
        fun x h1 => hgrown'.keep _ _ (hdef' x h1)⟩
    have hjlen : j = ids.length := by
      have := (List.getElem?_eq_some_iff.1 hj).1
      rw [length_append, length_singleton] at this
      omega
    subst hjlen
    have hid' : id = id' := by simpa using hj
    subst hid'
    rw [take_left]
    exact ⟨huse, hdef⟩

/-- The numbers of the block, whatever its place in the layout. -/
structure BlockCovered {W : Type*} (f : MachFunction) {k : ℕ} (sets : LiveSets k)
    (ivs : Intervals W) (b : BlockId) (base : ℕ) : Prop where
  num : Consecutive (instNum f) base (f.blockInsts b)
  out : ∀ x p, x < k → (sets.liveOut b).get x = true →
    (lastDefs f (instNum f) (f.blockInsts b) x).getD base ≤ p →
    p < base + (f.blockInsts b).length → ivs.Covered x p
  use : ∀ (j : ℕ) (id : InstId), (f.blockInsts b)[j]? = some id → ∀ x p, f.Uses id x →
    (lastDefs f (instNum f) ((f.blockInsts b).take j) x).getD base ≤ p → p ≤ instNum f id →
    ivs.Covered x p
  defs : ∀ (j : ℕ) (id : InstId), (f.blockInsts b)[j]? = some id → ∀ x, f.Defines id x →
    ivs.Covered x (instNum f id)

/-- What a block whose instructions are numbered in a row gives. -/
theorem blockPass_spec (sets : LiveSets k) {ivs : Intervals W} {b : BlockId}
    (hnum : Consecutive (instNum f) base (f.blockInsts b)) (hgood : ivs.Good) :
    ivs.Grown (blockPass f sets ivs b) ∧ BlockCovered f sets (blockPass f sets ivs b) b base := by
  by_cases hempty : f.blockInsts b = []
  · have hpass : blockPass f sets ivs b = ivs := by
      unfold blockPass
      simp [hempty]
    rw [hpass]
    refine ⟨.refl hgood, hnum, fun x p _ _ hp1 hp2 => ?_, by simp [hempty], by simp [hempty]⟩
    rw [hempty] at hp1 hp2
    exact absurd hp2 (Nat.not_lt.2 hp1)
  obtain ⟨first, hfirst⟩ := ne_none_iff_exists'.1
    (fun h => hempty (head?_eq_none_iff.1 h))
  obtain ⟨final, hfinal⟩ := ne_none_iff_exists'.1
    (fun h => hempty (getLast?_eq_none_iff.1 h))
  have hpos : 0 < (f.blockInsts b).length := length_pos_iff.2 hempty
  have hstart : instNum f first = base := by
    rw [hnum 0 first (by rw [← hfirst, head?_eq_getElem?]), Nat.add_zero]
  have hstop : instNum f final + 1 = base + (f.blockInsts b).length := by
    rw [hnum ((f.blockInsts b).length - 1) final (by rw [← hfinal, getLast?_eq_getElem?])]
    omega
  unfold blockPass
  simp only [hfirst, hfinal, hstart, hstop]
  have hlast : ∀ x, (lastDefs f (instNum f) (f.blockInsts b) x).getD base
      < base + (f.blockInsts b).length := by
    intro x
    have hle := lastDefs_le (f := f) (x := x) (j := (f.blockInsts b).length - 1) hnum (by
      intro i id hi hget
      have := (List.getElem?_eq_some_iff.1 hget).1
      omega)
    omega
  obtain ⟨hgrown1, hcov1⟩ := foldl_extend
    (fun x => ⟨x, vregClassForId x (collectVregClasses f)⟩) (fun _ iv => iv)
    (fun x => (lastDefs f (instNum f) (f.blockInsts b) x).getD base)
    (fun _ => base + (f.blockInsts b).length) (fun _ _ => rfl)
    (sets.liveOut b).iter ivs (fun x _ => hlast x) hgood
  have hgrown2 := liveInPass_grown (collectVregClasses f)
    (lastUseEnds f (instNum f) (f.blockInsts b)) base
    ((sets.liveIn b).iter.filter fun x => !(sets.liveOut b).get x) _ hgrown1.good
  obtain ⟨hgrown3, hcov3⟩ := foldl_instPass_spec hgrown2.good (f.blockInsts b) hnum
  refine ⟨(hgrown1.trans hgrown2).trans hgrown3, hnum, ?_, fun j id hj => (hcov3 j id hj).1,
    fun j id hj => (hcov3 j id hj).2⟩
  intro x p hx hout hp1 hp2
  have hmem : x ∈ (sets.liveOut b).iter := by simp [LiveSet.iter, hx, hout]
  exact hgrown3.keep _ _ (hgrown2.keep _ _ (hcov1 x hmem p hp1 hp2))

end

/-! ## Numbers along the layout -/

theorem numberFrom_of_notMem (ids : List InstId) (idx : ℕ) (m : InstId → Option ℕ) (id : InstId)
    (hid : id ∉ ids) : numberFrom ids idx m id = m id := by
  induction ids generalizing idx m id with
  | nil => rfl
  | cons a ids ih =>
    rw [mem_cons, not_or] at hid
    rw [numberFrom, ih _ _ _ hid.2, update_of_ne hid.1]

/-- In a list that names no instruction twice, the number is the place. -/
theorem numberFrom_getElem (ids : List InstId) (idx j : ℕ) (m : InstId → Option ℕ) (id : InstId)
    (hnodup : ids.Nodup) (hj : ids[j]? = some id) : numberFrom ids idx m id = some (idx + j) := by
  induction ids generalizing idx j m id with
  | nil => simp at hj
  | cons a ids ih =>
    obtain ⟨ha, hids⟩ := nodup_cons.1 hnodup
    rw [numberFrom]
    cases j with
    | zero =>
      have haid : a = id := by simpa using hj
      subst haid
      rw [numberFrom_of_notMem _ _ _ _ ha, update_self, Nat.add_zero]
    | succ j =>
      rw [ih (idx + 1) j _ id hids (by simpa using hj)]
      congr 1
      omega

variable {b : BlockId}

section

theorem consecutive_of_nodup (hnodup : (layout f).Nodup) (hb : b ∈ f.blockOrder) :
    ∃ base, Consecutive (instNum f) base (f.blockInsts b) := by
  obtain ⟨before, after, hsplit⟩ := append_of_mem hb
  refine ⟨(before.flatMap f.blockInsts).length, ?_⟩
  intro j id hj
  have hlay : layout f
      = before.flatMap f.blockInsts ++ (f.blockInsts b ++ after.flatMap f.blockInsts) := by
    rw [layout, hsplit, flatMap_append, flatMap_cons]
  have hget : (layout f)[(before.flatMap f.blockInsts).length + j]? = some id := by
    rw [hlay, getElem?_append_right (Nat.le_add_right _ _), Nat.add_sub_cancel_left,
      List.getElem?_append_left (List.getElem?_eq_some_iff.1 hj).1, hj]
  rw [instNum, numberInsts, numberFrom_getElem _ 0 _ _ id hnodup hget, getD_some, Nat.zero_add]

theorem BlockCovered.grown {W : Type*} {sets : LiveSets k} {ivs ivs' : Intervals W}
    {base : ℕ} (h : BlockCovered f sets ivs b base) (hgrown : ivs.Grown ivs') :
    BlockCovered f sets ivs' b base :=
  ⟨h.num, fun x p h1 h2 h3 h4 => hgrown.keep _ _ (h.out x p h1 h2 h3 h4),
    fun j id hj x p h1 h2 h3 => hgrown.keep _ _ (h.use j id hj x p h1 h2 h3),
    fun j id hj x h1 => hgrown.keep _ _ (h.defs j id hj x h1)⟩

theorem foldl_blockPass_spec {W : Type*} [Zero W] (sets : LiveSets k) (hnodup : (layout f).Nodup)
    (bs : List BlockId) (ivs : Intervals W) (hmem : ∀ b ∈ bs, b ∈ f.blockOrder) (hgood : ivs.Good) :
    ivs.Grown (bs.foldl (blockPass f sets) ivs)
      ∧ ∀ b ∈ bs, ∃ base, BlockCovered f sets (bs.foldl (blockPass f sets) ivs) b base := by
  induction bs generalizing ivs with
  | nil => exact ⟨.refl hgood, fun b hb => absurd hb (by simp)⟩
  | cons c bs ih =>
    obtain ⟨hc, hbs⟩ := forall_mem_cons.1 hmem
    obtain ⟨base, hnum⟩ := consecutive_of_nodup hnodup hc
    obtain ⟨hgrown, hblock⟩ := blockPass_spec sets hnum hgood
    obtain ⟨hgrown', hcov⟩ := ih _ hbs hgrown.good
    rw [foldl_cons]
    refine ⟨hgrown.trans hgrown', ?_⟩
    intro b hb
    rcases mem_cons.1 hb with rfl | hb
    · exact ⟨base, hblock.grown hgrown'⟩
    · exact hcov b hb

/-- **What the built intervals satisfy.** -/
theorem buildIntervals_spec {W : Type*} [Zero W] (sets : LiveSets k) (hnodup : (layout f).Nodup) :
    (buildIntervals f sets : Intervals W).Good
      ∧ ∀ b ∈ f.blockOrder,
        ∃ base, BlockCovered f sets (buildIntervals f sets : Intervals W) b base := by
  obtain ⟨hgrown, hcov⟩ := foldl_blockPass_spec sets hnodup f.blockOrder
    (fun _ => none : Intervals W) (fun _ h => h) (fun x iv h => absurd h (by simp))
  exact ⟨hgrown.good, hcov⟩

end

/-! ## Liveness along paths -/

section

variable {x : ℕ} {via : BlockId → Prop}

/-- Control that is about to execute instruction `j` of block `b` can come to
instruction `j'` of block `b'`, a use of `x`, entering only blocks that satisfy `via`
and executing no definition of `x` on the way. -/
inductive Reaches (f : MachFunction) (via : BlockId → Prop) (x : ℕ) :
    BlockId → ℕ → BlockId → ℕ → Prop
  | use {b : BlockId} {j : ℕ} {id : InstId} (hid : (f.blockInsts b)[j]? = some id)
      (huse : f.Uses id x) : Reaches f via x b j b j
  | next {b b' : BlockId} {j j' : ℕ} {id : InstId} (hid : (f.blockInsts b)[j]? = some id)
      (hdef : ¬ f.Defines id x) (h : Reaches f via x b (j + 1) b' j') : Reaches f via x b j b' j'
  | edge {b c b' : BlockId} {j' : ℕ} (hbc : f.Edge b c) (hvia : via c)
      (h : Reaches f via x c 0 b' j') : Reaches f via x b (f.blockInsts b).length b' j'

/-- The vreg id is live before instruction `j` of the block, as the sets see it. -/
def LiveSets.liveAt {k : ℕ} (sets : LiveSets k) (f : MachFunction) (x : ℕ) (b : BlockId) (j : ℕ) :
    Bool :=
  ((f.blockInsts b).drop j).foldr (bitBefore f x) ((sets.liveOut b).get x)

theorem foldl_max_vregs (vs : List VReg) : ∀ n : ℕ, n ≤ vs.foldl (fun n v => max n (v.id + 1)) n
      ∧ ∀ v ∈ vs, v.id < vs.foldl (fun n v => max n (v.id + 1)) n := by
  induction vs with
  | nil => intro n; exact ⟨le_rfl, by simp⟩
  | cons v vs ih =>
    intro n
    obtain ⟨hle, hmem⟩ := ih (max n (v.id + 1))
    rw [foldl_cons]
    refine ⟨le_trans (le_max_left _ _) hle, ?_⟩
    intro w hw
    rcases mem_cons.1 hw with rfl | hw
    · exact lt_of_lt_of_le (Nat.lt_succ_self _) (le_trans (le_max_right _ _) hle)
    · exact hmem w hw

theorem lt_numVregs {inst : MachInst} (hinst : inst ∈ f.insts) {v : VReg}
    (hv : v ∈ inst.vregDefs ++ inst.vregUses) : v.id < f.numVregs := by
  rw [MachFunction.numVregs, ← foldl_flatMap]
  exact (foldl_max_vregs _ _).2 v (mem_flatMap.2 ⟨inst, hinst, hv⟩)

theorem MachFunction.Uses.lt {id : InstId} (h : f.Uses id x) : x < f.numVregs := by
  obtain ⟨v, hv, rfl⟩ := h
  unfold MachFunction.instUses at hv
  split at hv
  next inst hinst => exact lt_numVregs (mem_of_getElem? hinst) (mem_append_right _ hv)
  · simp at hv

theorem Reaches.lt (h : Reaches f via x b j b' j') : x < f.numVregs := by
  induction h with
  | use _ huse => exact huse.lt
  | next _ _ _ ih => exact ih
  | edge _ _ _ ih => exact ih

theorem liveAt_of_getElem {sets : LiveSets k} {id : InstId} (hid : (f.blockInsts b)[j]? = some id) :
    sets.liveAt f x b j = bitBefore f x id (sets.liveAt f x b (j + 1)) := by
  obtain ⟨hlt, hget⟩ := List.getElem?_eq_some_iff.1 hid
  rw [LiveSets.liveAt, drop_eq_getElem_cons hlt, foldr_cons, hget]
  rfl

/-- At the start of a settled block the vreg is live if it is in the live-in set. -/
theorem liveAt_zero {sets : LiveSets k} (hx : x < k)
    (hsettled : SettledAt f sets b) : sets.liveAt f x b 0 = (sets.liveIn b).get x := by
  rw [hsettled.2, get_newLiveIn hx]
  rfl

/-- **Path liveness is dataflow liveness.**  A definition-free path through settled
blocks to a use makes the vreg live where the path starts. -/
theorem liveAt_of_reaches {sets : LiveSets k} (hsettled : ∀ b, via b → SettledAt f sets b)
    (hx : x < k) (h : Reaches f via x b j b' j') (hb : via b) : sets.liveAt f x b j = true := by
  induction h with
  | use hid huse =>
    rw [liveAt_of_getElem hid]
    simp [bitBefore, huse]
  | next hid hdef _ ih =>
    rw [liveAt_of_getElem hid, ih hb]
    simp [bitBefore, hdef]
  | @edge b c b' j' hbc hvia _ ih =>
    have hc := ih hvia
    rw [liveAt_zero hx (hsettled c hvia)] at hc
    rw [LiveSets.liveAt, drop_length, foldr_nil, (hsettled b hb).1, get_newLiveOut]
    exact any_eq_true.2 ⟨c, hbc.1, hc⟩

/-- A live vreg is used later in the block before it is defined, or it is live-out
and not defined in the rest of the block. -/
theorem liveAt_cases {sets : LiveSets k} (n j : ℕ)
    (hn : (f.blockInsts b).length - j = n) (hlive : sets.liveAt f x b j = true) :
    (∃ (i : ℕ) (id : InstId), j ≤ i ∧ (f.blockInsts b)[i]? = some id ∧ f.Uses id x
        ∧ ∀ i' id', j ≤ i' → i' < i → (f.blockInsts b)[i']? = some id' → ¬ f.Defines id' x)
      ∨ ((sets.liveOut b).get x = true
        ∧ ∀ i' id', j ≤ i' → (f.blockInsts b)[i']? = some id' → ¬ f.Defines id' x) := by
  induction n generalizing j with
  | zero =>
    have hle : (f.blockInsts b).length ≤ j := by omega
    rw [LiveSets.liveAt, drop_eq_nil_of_le hle, foldr_nil] at hlive
    refine .inr ⟨hlive, ?_⟩
    intro i' id' hi' hget
    have := (List.getElem?_eq_some_iff.1 hget).1
    omega
  | succ n ih =>
    have hlt : j < (f.blockInsts b).length := by omega
    have hid := getElem?_eq_getElem hlt
    rw [liveAt_of_getElem hid] at hlive
    by_cases huse : f.Uses (f.blockInsts b)[j] x
    · exact .inl ⟨j, _, le_rfl, hid, huse, fun i' id' h1 h2 => absurd h2 (by omega)⟩
    have hrest : ¬ f.Defines (f.blockInsts b)[j] x ∧ sets.liveAt f x b (j + 1) = true := by
      simpa [bitBefore, huse] using hlive
    -- the first instruction does not define the vreg, so the rest decides
    have hno : ∀ i' id', j ≤ i' → (f.blockInsts b)[i']? = some id' → f.Defines id' x →
        j + 1 ≤ i' := by
      intro i' id' hi' hget hdef
      by_contra hcon
      have hij : i' = j := by omega
      subst hij
      rw [hid, some_inj] at hget
      rw [← hget] at hdef
      exact hrest.1 hdef
    rcases ih (j + 1) (by omega) hrest.2 with ⟨i, id, hle, hget, huse', hnodef⟩ | ⟨hout, hnodef⟩
    · refine .inl ⟨i, id, by omega, hget, huse', ?_⟩
      intro i' id' h1 h2 hget' hdef
      exact hnodef i' id' (hno i' id' h1 hget' hdef) h2 hget' hdef
    refine .inr ⟨hout, ?_⟩
    intro i' id' h1 hget' hdef
    exact hnodef i' id' (hno i' id' h1 hget' hdef) hget' hdef

/-- **Live after an instruction means covered at the instruction.** -/
theorem covered_of_liveAfter {W : Type*} {sets : LiveSets k} {ivs : Intervals W}
    {base : ℕ} {id : InstId} (hblock : BlockCovered f sets ivs b base) (hx : x < k)
    (hid : (f.blockInsts b)[j]? = some id) (hlive : sets.liveAt f x b (j + 1) = true) :
    ivs.Covered x (instNum f id) := by
  have hpos := hblock.num j id hid
  have hlt := (List.getElem?_eq_some_iff.1 hid).1
  rcases liveAt_cases _ (j + 1) rfl hlive with ⟨i, id', hle, hget, huse, hno⟩ | ⟨hout, hno⟩
  · refine hblock.use i id' hget x _ huse ?_ ?_
    · rw [hpos]
      refine lastDefs_le (hblock.num.take i) ?_
      intro i' id'' hi' hget'
      rw [getElem?_take] at hget'
      split at hget'
      · exact hno i' id'' hi' (by assumption) hget'
      · simp at hget'
    rw [hpos, hblock.num i id' hget]
    omega
  refine hblock.out x _ hx hout ?_ (by omega)
  rw [hpos]
  exact lastDefs_le hblock.num fun i' id' hi' hget' => hno i' id' hi' hget'

theorem Reaches.of_reachable (h : Reaches f (fun _ => True) x b j b' j') (hb : f.Reachable b) :
    Reaches f f.Reachable x b j b' j' := by
  induction h with
  | use hid huse => exact .use hid huse
  | next hid hdef _ ih => exact .next hid hdef (ih hb)
  | edge hbc _ _ ih => exact .edge hbc (hb.step hbc) (ih (hb.step hbc))

theorem Reaches.imp {via' : BlockId → Prop} (himp : ∀ b, via b → via' b)
    (h : Reaches f via x b j b' j') : Reaches f via' x b j b' j' := by
  induction h with
  | use hid huse => exact .use hid huse
  | next hid hdef _ ih => exact .next hid hdef ih
  | edge hbc hvia _ ih => exact .edge hbc (himp _ hvia) ih

theorem Reaches.target (h : Reaches f via x b j b' j') (hb : via b) :
    via b' ∧ ∃ id, (f.blockInsts b')[j']? = some id ∧ f.Uses id x := by
  induction h with
  | use hid huse => exact ⟨hb, _, hid, huse⟩
  | next _ _ _ ih => exact ih hb
  | edge _ hvia _ ih => exact ih hvia

end

/-! ## The whole computation -/

section

variable {W : Type*} [Zero W] [Add W] [Div W] [Pow W ℕ] [NatCast W] {base : W} {x : ℕ}

theorem covered_computeLiveIntervals {p : ℕ} : (computeLiveIntervals base f).intervals.Covered x p
      ↔ (buildIntervals f (liveFixpoint f).1 : Intervals W).Covered x p := by
  simp only [Intervals.Covered, computeLiveIntervals]
  cases (buildIntervals f (liveFixpoint f).1 : Intervals W) x <;> simp

theorem computeLiveIntervals_good (hnodup : (layout f).Nodup) :
    (computeLiveIntervals base f).intervals.Good := by
  intro x iv hiv
  simp only [computeLiveIntervals] at hiv
  obtain ⟨iv', hiv', rfl⟩ := map_eq_some_iff.1 hiv
  exact (buildIntervals_spec _ hnodup).1 x iv' hiv'

section

variable (hnodup : (layout f).Nodup) {id : InstId} (hb : b ∈ f.blockOrder)
include hnodup hb

/-- A vreg that the dataflow sees live after an instruction covers its position. -/
theorem computeLiveIntervals_covered (hx : x < f.numVregs) (hid : (f.blockInsts b)[j]? = some id)
    (hlive : (liveFixpoint f).1.liveAt f x b (j + 1) = true) :
    (computeLiveIntervals base f).intervals.Covered x (instNum f id) := by
  obtain ⟨start, hblock⟩ := (buildIntervals_spec (W := W) (liveFixpoint f).1 hnodup).2 b hb
  exact covered_computeLiveIntervals.2 (covered_of_liveAfter hblock hx hid hlive)

theorem computeLiveIntervals_mentioned (hid : (f.blockInsts b)[j]? = some id)
    (hmention : f.Uses id x ∨ f.Defines id x) :
    (computeLiveIntervals base f).intervals.Covered x (instNum f id) := by
  obtain ⟨start, hblock⟩ := (buildIntervals_spec (W := W) (liveFixpoint f).1 hnodup).2 b hb
  refine covered_computeLiveIntervals.2 ?_
  rcases hmention with huse | hdef
  · refine hblock.use j id hid x _ huse ?_ le_rfl
    rw [hblock.num j id hid]
    refine lastDefs_le (hblock.num.take j) ?_
    intro i' id' hi' hget'
    have := (List.getElem?_eq_some_iff.1 hget').1
    rw [length_take] at this
    omega
  · exact hblock.defs j id hid x hdef

/-- The instruction has a position, and the interval of `x` contains it. -/
def LivenessResult.Contains (r : LivenessResult W) (x : ℕ) (id : InstId) : Prop :=
  ∃ p, r.instNumbering id = some p ∧ r.intervals.Covered x p

theorem contains_of_covered (hid : (f.blockInsts b)[j]? = some id)
    (h : (computeLiveIntervals base f).intervals.Covered x (instNum f id)) :
    (computeLiveIntervals base f).Contains x id := by
  have hmem : id ∈ layout f := mem_flatMap.2 ⟨b, hb, mem_of_getElem? hid⟩
  obtain ⟨i, hi⟩ := mem_iff_getElem?.1 hmem
  have hnum : numberInsts f id = some (0 + i) := numberFrom_getElem _ 0 i _ id hnodup hi
  refine ⟨0 + i, hnum, ?_⟩
  rw [instNum, hnum] at h
  exact h

end

/-- **The live intervals over-approximate path liveness.**  When the layout lists
every reachable block and names no instruction twice, the dataflow converges below
its cap; a vreg with a definition-free path from just after an instruction to a use
has both positions in its interval, provided that the path keeps to listed blocks,
as every path from a reachable block does; all positions of definitions and uses are
in the interval; and every range list is non-empty and sorted with gaps. -/
theorem computeLiveIntervals_covers (base : W) (f : MachFunction)
    (hlist : ∀ b, f.Reachable b → b ∈ f.blockOrder) (hnodup : (layout f).Nodup) :
    (computeLiveIntervals base f).capHit = false
      ∧ (∀ (x : ℕ) (b : BlockId) (j : ℕ) (id : InstId) (b' : BlockId) (j' : ℕ) (id' : InstId),
          b ∈ f.blockOrder → (f.blockInsts b)[j]? = some id →
          (f.blockInsts b')[j']? = some id' →
          Reaches f (· ∈ f.blockOrder) x b (j + 1) b' j'
            ∨ f.Reachable b ∧ Reaches f (fun _ => True) x b (j + 1) b' j' →
          (computeLiveIntervals base f).Contains x id
            ∧ (computeLiveIntervals base f).Contains x id')
      ∧ (∀ (x : ℕ) (b : BlockId) (j : ℕ) (id : InstId),
          b ∈ f.blockOrder → (f.blockInsts b)[j]? = some id →
          f.Uses id x ∨ f.Defines id x → (computeLiveIntervals base f).Contains x id)
      ∧ ∀ x iv, (computeLiveIntervals base f).intervals x = some iv →
          Separated iv.ranges ∧ iv.ranges ≠ [] := by
  obtain ⟨hcap, hsettled⟩ := liveFixpoint_spec f
  refine ⟨hcap, ?_, ?_, computeLiveIntervals_good hnodup⟩
  · intro x b j id b' j' id' hb hid hid' hpath
    have hpath' : Reaches f (· ∈ f.blockOrder) x b (j + 1) b' j' := by
      rcases hpath with h | ⟨hreach, h⟩
      · exact h
      · exact (h.of_reachable hreach).imp hlist
    have hlive := liveAt_of_reaches hsettled hpath'.lt hpath' hb
    obtain ⟨hb', use, huse, hx⟩ := hpath'.target hb
    have huse' : use = id' := some_inj.1 (huse.symm.trans hid')
    subst huse'
    exact ⟨contains_of_covered hnodup hb hid
        (computeLiveIntervals_covered hnodup hb hpath'.lt hid hlive),
      contains_of_covered hnodup hb' huse
        (computeLiveIntervals_mentioned hnodup hb' huse (.inl hx))⟩
  · intro x b j id hb hid hmention
    exact contains_of_covered hnodup hb hid (computeLiveIntervals_mentioned hnodup hb hid hmention)

end

/-! ## A loop, and a block that is not listed -/

/-- An instruction that only defines and uses vregs. -/
def plainInst (defs uses : List VReg) : MachInst :=
  ⟨1, defs.map .vreg, uses.map .vreg, [], [], 0, []⟩

/-- A definition in the entry block, and a loop that redefines nothing and uses it. -/
def loopFunction : MachFunction where
  insts := [plainInst [⟨0, .gpr64⟩] [], plainInst [] [], plainInst [] [⟨0, .gpr64⟩]]
  blocks := [⟨[0, 1], [], [1], 0⟩, ⟨[2], [0, 1], [1], 1⟩]
  blockOrder := [0, 1]
  entryBlock := 0
  nextVreg := 1

/-- In the loop the vreg is live after its use: the next iteration uses it again. -/
theorem computeLiveIntervals_covers_loop :
    (layout loopFunction).Nodup ∧ (computeLiveIntervals (10 : ℕ) loopFunction).capHit = false
      ∧ (computeLiveIntervals (10 : ℕ) loopFunction).Contains 0 1
      ∧ (computeLiveIntervals (10 : ℕ) loopFunction).Contains 0 2 := by
  have hlist : ∀ b, loopFunction.Reachable b → b ∈ loopFunction.blockOrder := by
    intro b hb
    have hmem : b ∈ List.range 2 := mem_range.2 hb.lt
    exact hmem
  have h := computeLiveIntervals_covers (10 : ℕ) loopFunction hlist (by decide)
  have huse : Reaches loopFunction (· ∈ loopFunction.blockOrder) 0 1 0 1 0 :=
    .use rfl (by decide : loopFunction.Uses 2 0)
  have hpath : Reaches loopFunction (· ∈ loopFunction.blockOrder) 0 0 2 1 0 :=
    .edge (c := 1) (by decide) (by decide) huse
  have hcov := h.2.1 0 0 1 1 1 0 2 (by decide) rfl rfl (.inl hpath)
  exact ⟨by decide, h.1, hcov.1, hcov.2⟩

/-- Block `1` is listed but not reachable, and leads to the use in block `3` through
block `2`, which is not listed. -/
def unlistedFunction : MachFunction where
  insts := [plainInst [] [], plainInst [⟨0, .gpr64⟩] [], plainInst [] [],
    plainInst [] [⟨0, .gpr64⟩]]
  blocks := [⟨[0], [], [], 0⟩, ⟨[1, 2], [], [2], 0⟩, ⟨[], [1], [3], 0⟩, ⟨[3], [2], [], 0⟩]
  blockOrder := [0, 1, 3]
  entryBlock := 0
  nextVreg := 1

/-- The definition stands before the use and again behind it. -/
def namedTwice : MachFunction where
  insts := [plainInst [⟨0, .gpr64⟩] [], plainInst [] [⟨0, .gpr64⟩]]
  blocks := [⟨[0, 1, 0], [], [], 0⟩]
  blockOrder := [0]
  entryBlock := 0
  nextVreg := 1

theorem not_contains {r : LivenessResult W} {x p : ℕ} {id : InstId} {ranges : List Range}
    (hp : r.instNumbering id = some p)
    (hranges : (r.intervals x).map LiveInterval.ranges = some ranges) (h : ¬ Covers ranges p) :
    ¬ r.Contains x id := by
  rintro ⟨q, hq, iv, hiv, hcov⟩
  rw [hiv, map_some, some_inj] at hranges
  rw [hranges, some_inj.1 (hq.symm.trans hp)] at hcov
  exact h hcov

/-- **A path through an unlisted block is missed.**  All reachable blocks are listed,
yet the vreg's interval has a hole at instruction `2`, from which a path leads to the
use.  An instruction named twice has the number of its last place, and the use before it
is missed. -/
theorem computeLiveIntervals_misses_unlisted :
    (∀ b, unlistedFunction.Reachable b → b ∈ unlistedFunction.blockOrder)
      ∧ (unlistedFunction.blockInsts 1)[1]? = some 2
      ∧ Reaches unlistedFunction (fun _ => True) 0 1 2 3 0
      ∧ ¬ (computeLiveIntervals (10 : ℕ) unlistedFunction).Contains 0 2
      ∧ (∀ b, namedTwice.Reachable b → b ∈ namedTwice.blockOrder)
      ∧ (namedTwice.blockInsts 0)[1]? = some 1 ∧ namedTwice.Uses 1 0
      ∧ ¬ (computeLiveIntervals (10 : ℕ) namedTwice).Contains 0 1 := by
  refine ⟨?_, rfl, ?_, ?_, fun b hb => ?_, rfl, by decide, ?_⟩
  · intro b hb
    have hentry : b = 0 := by
      refine Flow.Reachable.mem_of_closed (S := fun b => b = 0) rfl ?_ hb.2
      rintro a c rfl hac
      exact absurd hac.1 not_mem_nil
    subst hentry
    decide
  · have huse : Reaches unlistedFunction (fun _ => True) 0 3 0 3 0 :=
      .use rfl (by decide : unlistedFunction.Uses 3 0)
    exact .edge (b := 1) (c := 2) (by decide) trivial
      (.edge (b := 2) (c := 3) (by decide) trivial huse)
  · exact not_contains (p := 2) (by decide) (by decide +kernel :
      _ = some [⟨1, 2⟩, ⟨3, 4⟩]) (by simp [Covers])
  · have hmem : b ∈ List.range 1 := mem_range.2 hb.lt
    exact hmem
  · exact not_contains (p := 1) (by decide) (by decide +kernel : _ = some [⟨2, 3⟩])
      (by simp [Covers])

end TrustCg.RegAlloc
