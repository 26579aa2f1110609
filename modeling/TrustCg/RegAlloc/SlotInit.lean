import Mathlib.Data.List.Sort
import TrustCg.Lib.BitWords
import TrustCg.RegAlloc.Cfg

/-!
# Every reload of a spill slot comes after a store to it

`check_slot_init_dominance` of the allocation validator: a forward analysis over
packed bitsets that computes, for every block, the spill slots that have been
stored on *every* path, and then replays each block to find reloads of a slot
that may not have been stored.

* `roundStep_spec` : what one pass over the blocks preserves, and that a pass
  that changes anything loses a bit.
* `fixpoint_spec` : the loop ends, and where it ends the sets are the slots every
  path stores.
* `checkSlotInitDominance_iff` : the check reports nothing exactly when on every
  path to every reload there is an earlier store to the slot.
-/

namespace TrustCg.RegAlloc

open List

/-- The first slot among the operands. -/
def firstSlot (ops : List Operand) : Option StackSlotId :=
  ops.findSome? fun
    | .stackSlot s => some s
    | _ => none

/-- The slot an instruction accesses if it has the given opcode; an id outside of
the arena is skipped. -/
def slotOf (opcode : ℕ) (f : MachFunction) (id : InstId) : Option StackSlotId :=
  match f.insts[id]? with
  | none => none
  | some inst => if inst.opcode = opcode then firstSlot inst.uses else none

/-- The slot an instruction reloads. -/
def loadedSlot (f : MachFunction) (id : InstId) : Option StackSlotId := slotOf pseudoSpillLoad f id

/-- The slot an instruction stores. -/
def storedSlot (f : MachFunction) (id : InstId) : Option StackSlotId := slotOf pseudoSpillStore f id

/-- `ValidationError::SpillSlotUninitializedReload`. -/
structure UninitializedReload where
  block : BlockId
  inst : InstId
  slot : StackSlotId
  uninitPred : Option BlockId
  deriving DecidableEq, Repr

/-! ## The check -/

/-- Insertion into an ordered set. -/
def insertSlot (set : List StackSlotId) (s : StackSlotId) : List StackSlotId :=
  if s ∈ set then set else set.orderedInsert (· ≤ ·) s

/-- `validated_set`: the slots with a reload, in ascending order. -/
def validatedSlots (f : MachFunction) : List StackSlotId :=
  ((f.blocks.flatMap MachBlock.insts).filterMap (loadedSlot f)).foldl insertSlot []

/-- `slot_idx`: the dense index of a validated slot. -/
def slotIdx (validated : List StackSlotId) (s : StackSlotId) : Option (Fin validated.length) :=
  if h : s ∈ validated then some ⟨validated.idxOf s, idxOf_lt_length_of_mem h⟩ else none

section

variable (f : MachFunction) (reachable : BlockId → Bool) (validated : List StackSlotId)

/-- The predecessors of a block, recomputed from the successor lists of the
reachable blocks. -/
def recomputedPreds (c : BlockId) : List BlockId :=
  (List.range f.blocks.length).flatMap fun b =>
    if reachable b then ((f.succs b).filter fun s => s = c ∧ s < f.blocks.length).map fun _ => b
    else []

/-- The bits one store sets. -/
def storeBits (acc : BitWords validated.length) (id : InstId) : BitWords validated.length :=
  match (storedSlot f id).bind (slotIdx validated) with
  | some i => acc.set i
  | none => acc

variable (b : BlockId)

/-- `gen_sets`: the validated slots stored in a reachable block. -/
def genSet : BitWords validated.length :=
  if reachable b then (f.blockInsts b).foldl (storeBits f validated) (BitWords.empty _)
  else BitWords.empty _

variable (out : BlockId → BitWords validated.length)

/-- `in_state`: the intersection over the reachable predecessors; nothing is
stored before the entry block. -/
def inState : BitWords validated.length :=
  if b = f.entryBlock then BitWords.empty _
  else
    match (recomputedPreds f reachable b).filter fun p => reachable p with
    | [] => BitWords.empty _
    | first :: rest => rest.foldl (fun acc p => acc.inter (out p)) (out first)

/-- The exit state of a block computed from its predecessors'. -/
def outState : BitWords validated.length :=
  (inState f reachable validated b out).union (genSet f reachable validated b)

/-- The optimistic seed. -/
def initialOut : BitWords validated.length :=
  if b = f.entryBlock ∨ reachable b = false then genSet f reachable validated b
  else BitWords.full _

/-- The body of the pass: recompute one block and note a change. -/
def roundStep (acc : (BlockId → BitWords validated.length) × Bool) (b : BlockId) :
    (BlockId → BitWords validated.length) × Bool :=
  if b ≥ f.blocks.length ∨ reachable b = false ∨ b = f.entryBlock then acc
  else
    let newOut := outState f reachable validated b acc.1
    if newOut ≠ acc.1 b then (Function.update acc.1 b newOut, true) else acc

/-- One iteration of the fixpoint loop; it ends after a pass without a change. -/
def fixpointStep (rpo : List BlockId) (out : BlockId → BitWords validated.length) :
    Option (BlockId → BitWords validated.length) :=
  let (out', changed) := rpo.foldl (roundStep f reachable validated) (out, false)
  if changed then some out' else none

/-- One instruction of the check pass: a store marks its slot, a reload of a slot
that is not marked is reported with a predecessor that lacks it. -/
def replayStep
    (acc : BitWords validated.length × List UninitializedReload) (id : InstId) :
    BitWords validated.length × List UninitializedReload :=
  let cur := storeBits f validated acc.1 id
  match loadedSlot f id with
  | some slot =>
    match slotIdx validated slot with
    | some i =>
      if acc.1.get i then (cur, acc.2)
      else
        let uninitPred := (recomputedPreds f reachable b).find? fun p =>
          reachable p && !(out p).get i
        (cur, acc.2 ++ [⟨b, id, slot, uninitPred⟩])
    | none => (cur, acc.2)
  | none => (cur, acc.2)

/-- The reports of one block. -/
def replayBlock (b : BlockId) : List UninitializedReload :=
  if b ≥ f.blocks.length ∨ reachable b = false then []
  else
    ((f.blockInsts b).foldl (replayStep f reachable validated b out)
      (inState f reachable validated b out, [])).2

end

/-- `check_slot_init_dominance`: the errors it adds to the report. -/
def checkSlotInitDominance (fuel : ℕ) (f : MachFunction) : Option (List UninitializedReload) :=
  if f.blocks.length = 0 then some []
  else
    let validated := validatedSlots f
    if validated = [] then some []
    else do
      let reachable ← reachableBlocks fuel f
      let rpo ← cfgReversePostOrder fuel f
      let out ← Loop.run (fixpointStep f reachable validated rpo) fuel
        (initialOut f reachable validated)
      some (rpo.flatMap (replayBlock f reachable validated out))

/-! ## Slots and their indices -/

theorem mem_insertSlot (set : List StackSlotId) (s t : StackSlotId) :
    t ∈ insertSlot set s ↔ t = s ∨ t ∈ set := by
  unfold insertSlot
  split
  next h => exact ⟨.inr, fun ht => ht.elim (fun heq => heq ▸ h) id⟩
  · exact mem_orderedInsert _

theorem mem_foldl_insertSlot (slots set : List StackSlotId) (t : StackSlotId) :
    t ∈ slots.foldl insertSlot set ↔ t ∈ slots ∨ t ∈ set := by
  rw [Loop.foldl_iff_or (P := (t ∈ ·)) fun set s =>
    (mem_insertSlot set s t).trans or_comm, or_comm]
  simp

theorem mem_validatedSlots (f : MachFunction) (s : StackSlotId) :
    s ∈ validatedSlots f ↔ ∃ b, ∃ id ∈ f.blockInsts b, loadedSlot f id = some s := by
  rw [validatedSlots, mem_foldl_insertSlot]
  simp only [not_mem_nil, or_false, mem_filterMap, mem_flatMap]
  constructor
  · rintro ⟨id, ⟨block, hblock, hid⟩, hs⟩
    obtain ⟨b, hb, rfl⟩ := getElem_of_mem hblock
    refine ⟨b, id, ?_, hs⟩
    rw [MachFunction.blockInsts, getElem?_eq_getElem hb]
    exact hid
  rintro ⟨b, id, hid, hs⟩
  unfold MachFunction.blockInsts at hid
  split at hid
  next block hblock => exact ⟨id, ⟨block, mem_of_getElem? hblock, hid⟩, hs⟩
  · simp at hid

variable {validated : List StackSlotId} {f : MachFunction}

section

variable {s : StackSlotId} {i : Fin validated.length}

theorem slotIdx_eq_some_iff :
    slotIdx validated s = some i ↔ s ∈ validated ∧ validated.idxOf s = i := by
  unfold slotIdx
  split
  next h =>
    rw [Option.some_inj, Fin.ext_iff]
    exact ⟨fun hi => ⟨h, hi⟩, fun hi => hi.2⟩
  next h =>
    constructor
    · intro hi; simp at hi
    · intro hi; exact absurd hi.1 h

theorem get_storeBits (acc : BitWords validated.length) (id : InstId)
    (hs : slotIdx validated s = some i) :
    (storeBits f validated acc id).get i = true ↔ acc.get i = true ∨ storedSlot f id = some s := by
  unfold storeBits
  cases hstored : storedSlot f id with
  | none => simp
  | some t =>
    rw [slotIdx_eq_some_iff] at hs
    cases ht : slotIdx validated t with
    | none =>
      have hts : t ≠ s := by
        rintro rfl
        rw [slotIdx, dif_pos hs.1] at ht
        simp at ht
      simp [ht, hts]
    | some j =>
      rw [slotIdx_eq_some_iff] at ht
      have hiff : (i : ℕ) = j ↔ t = s := by
        rw [← hs.2, ← ht.2, idxOf_inj hs.1]
        exact eq_comm
      simp only [Option.bind_some, slotIdx, dif_pos ht.1]
      rw [BitWords.get_set]
      simp only [Option.some_inj, ht.2, hiff]
      by_cases hts : t = s
      · simp [hts]
      · simp [hts]

theorem get_foldl_storeBits
    (hs : slotIdx validated s = some i) (ids : List InstId) (acc : BitWords validated.length) :
    (ids.foldl (storeBits f validated) acc).get i = true
      ↔ acc.get i = true ∨ ∃ id ∈ ids, storedSlot f id = some s :=
  Loop.foldl_iff_or (P := fun acc => acc.get i = true) (fun acc id => get_storeBits acc id hs) ids
    acc

end

/-! ## The fixpoint -/

section

variable {reachable : BlockId → Bool} {b : BlockId}

theorem mem_recomputedPreds (p c : BlockId) :
    p ∈ recomputedPreds f reachable c ↔ reachable p = true ∧ f.Edge p c := by
  simp only [recomputedPreds, mem_flatMap, mem_range]
  constructor
  · rintro ⟨b, hb, hp⟩
    split at hp
    next hr =>
      simp only [mem_map, mem_filter, decide_eq_true_eq] at hp
      obtain ⟨s, ⟨hs, rfl, hlt⟩, rfl⟩ := hp
      exact ⟨hr, hs, hlt⟩
    · simp at hp
  rintro ⟨hr, hmem, hlt⟩
  refine ⟨p, MachFunction.lt_of_mem_succs hmem, ?_⟩
  rw [if_pos hr]
  exact mem_map.2 ⟨c, mem_filter.2 ⟨hmem, decide_eq_true ⟨rfl, hlt⟩⟩, rfl⟩

theorem get_foldl_inter {k : ℕ} (out : BlockId → BitWords k) (i : ℕ) (ps : List BlockId)
    (acc : BitWords k) :
    (ps.foldl (fun acc p => acc.inter (out p)) acc).get i = true
      ↔ acc.get i = true ∧ ∀ p ∈ ps, (out p).get i = true := by
  induction ps generalizing acc with
  | nil => simp
  | cons p ps ih =>
    rw [foldl_cons, ih, BitWords.get_inter, Bool.and_eq_true, and_assoc]
    simp

variable (hreach : ∀ b, reachable b = true ↔ f.Reachable b)
  {out : BlockId → BitWords validated.length}

include hreach

section

variable (hb : f.Reachable b) (hne : b ≠ f.entryBlock) (i : ℕ)
include hb hne

/-- The entry state of a block other than the entry block is what all reachable
predecessors agree on; there is at least one. -/
theorem get_inState :
    (inState f reachable validated b out).get i = true
      ↔ ∀ p, f.Reachable p → f.Edge p b → (out p).get i = true := by
  have hmem : ∀ p, p ∈ (recomputedPreds f reachable b).filter (fun p => reachable p)
      ↔ f.Reachable p ∧ f.Edge p b := by
    intro p
    rw [mem_filter, mem_recomputedPreds, hreach]
    exact ⟨fun h => h.1, fun h => ⟨h, h.1⟩⟩
  unfold inState
  rw [if_neg hne]
  split
  next hnil =>
    obtain ⟨p, hp, hpb⟩ := Flow.Reachable.exists_pred hb.2 hne
    have := (hmem p).2 ⟨⟨hb.1, hp⟩, hpb⟩
    rw [hnil] at this
    simp at this
  next first rest hcons =>
    rw [get_foldl_inter, ← forall_mem_cons (p := fun p => (out p).get i = true), ← hcons]
    simp only [hmem, and_imp]

theorem get_outState :
    (outState f reachable validated b out).get i = true
      ↔ (genSet f reachable validated b).get i = true
        ∨ ∀ p, f.Reachable p → f.Edge p b → (out p).get i = true := by
  rw [outState, BitWords.get_union, Bool.or_eq_true, get_inState hreach hb hne, or_comm]

end

omit hreach

/-- What the sets keep during the iteration: they never drop a slot that every
path stores, and recomputing a block only takes slots away. -/
structure FlowInv (f : MachFunction) (reachable : BlockId → Bool) (validated : List StackSlotId)
    (out : BlockId → BitWords validated.length) : Prop where
  entry_eq : out f.entryBlock = genSet f reachable validated f.entryBlock
  above : ∀ b (i : Fin validated.length), f.Reachable b → Flow.MustPass f.entryBlock f.Edge
      (fun a => (genSet f reachable validated a).get i = true) b → (out b).get i = true
  shrinks : ∀ b (i : Fin validated.length), f.Reachable b → b ≠ f.entryBlock →
    (outState f reachable validated b out).get i = true → (out b).get i = true

include hreach

theorem flowInv_initialOut : FlowInv f reachable validated (initialOut f reachable validated) := by
  have hfull : ∀ b, f.Reachable b → b ≠ f.entryBlock →
      initialOut f reachable validated b = BitWords.full _ := by
    intro b hb hne
    have hr := (hreach b).2 hb
    rw [initialOut, if_neg]
    simp [hne, hr]
  refine ⟨by simp [initialOut], ?_, ?_⟩
  · intro b i hb hmust
    by_cases hne : b = f.entryBlock
    · subst hne
      rw [Flow.mustPass_entry_iff] at hmust
      simpa [initialOut] using hmust
    rw [hfull b hb hne, BitWords.get_full]
    exact decide_eq_true i.isLt
  intro b i hb hne _
  rw [hfull b hb hne, BitWords.get_full]
  exact decide_eq_true i.isLt

theorem FlowInv.update (hinv : FlowInv f reachable validated out)
    (hb : f.Reachable b) (hne : b ≠ f.entryBlock) :
    FlowInv f reachable validated
      (Function.update out b (outState f reachable validated b out)) := by
  -- the new sets lie below the old ones
  have hle : ∀ c (i : Fin validated.length), (Function.update out b
      (outState f reachable validated b out) c).get i = true → (out c).get i = true := by
    intro c i hc
    rw [Function.update_apply] at hc
    split_ifs at hc with hcb
    · exact hcb ▸ hinv.shrinks b i hb hne hc
    · exact hc
  refine ⟨?_, ?_, ?_⟩
  · rw [Function.update_of_ne hne.symm]
    exact hinv.entry_eq
  · intro c i hc hmust
    rw [Function.update_apply]
    split_ifs with hcb
    · subst hcb
      rw [get_outState hreach hc hne]
      by_cases hgen : (genSet f reachable validated c).get i = true
      · exact .inl hgen
      · exact .inr fun p hp hpc => hinv.above p i hp (hmust.pred hgen hpc)
    · exact hinv.above c i hc hmust
  intro c i hc hcne hnew
  have hold : (outState f reachable validated c out).get i = true := by
    rw [get_outState hreach hc hcne] at hnew ⊢
    exact hnew.imp_right fun hpreds p hp hpc => hle p i (hpreds p hp hpc)
  rw [Function.update_apply]
  split_ifs with hcb
  · exact hcb ▸ hold
  · exact hinv.shrinks c i hc hcne hold

omit hreach

/-- The number of bits set in all blocks. -/
def outBits (f : MachFunction) (out : BlockId → BitWords validated.length) : ℕ :=
  ∑ b ∈ Finset.range f.blocks.length, (out b).toFinset.card

theorem outBits_update_lt (hb : b < f.blocks.length)
    {new : BitWords validated.length} (hne : new ≠ out b)
    (hle : ∀ i : Fin validated.length, new.get i = true → (out b).get i = true) :
    outBits f (Function.update out b new) < outBits f out := by
  have hsub : new.toFinset ⊂ (out b).toFinset := by
    refine Finset.ssubset_iff_subset_ne.2 ⟨?_, fun h => hne (BitWords.toFinset_injective h)⟩
    intro i hi
    rw [BitWords.mem_toFinset] at hi ⊢
    by_cases hik : i < validated.length
    · exact hle ⟨i, hik⟩ hi
    rw [new.get_of_ge (not_lt.1 hik)] at hi
    cases hi
  refine Finset.sum_lt_sum ?_ ⟨b, Finset.mem_range.2 hb, ?_⟩
  · intro c _
    rw [Function.update_apply]
    split_ifs with hcb
    · exact hcb ▸ (Finset.card_lt_card hsub).le
    · exact le_rfl
  rw [Function.update_self]
  exact Finset.card_lt_card hsub

/-- What a pass over some blocks does: the invariant is kept, and either nothing changes and
the blocks satisfy their equations, or the change is noted and a bit is lost. -/
def Passed (f : MachFunction) (reachable : BlockId → Bool) (bs : List BlockId)
    (st st' : (BlockId → BitWords validated.length) × Bool) : Prop :=
  FlowInv f reachable validated st'.1
    ∧ ((st' = st ∧ ∀ b ∈ bs, f.Reachable b → b ≠ f.entryBlock →
          outState f reachable validated b st.1 = st.1 b)
      ∨ (st'.2 = true ∧ outBits f st'.1 < outBits f st.1))

include hreach

/-- **One block of a pass.** -/
theorem roundStep_spec {st : (BlockId → BitWords validated.length) × Bool}
    (hinv : FlowInv f reachable validated st.1) (b : BlockId) :
    Passed f reachable [b] st (roundStep f reachable validated st b) := by
  simp only [Passed, forall_mem_singleton]
  unfold roundStep
  by_cases hskip : b ≥ f.blocks.length ∨ reachable b = false ∨ b = f.entryBlock
  · rw [if_pos hskip]
    refine ⟨hinv, .inl ⟨rfl, ?_⟩⟩
    intro hb hne
    rcases hskip with h | h | h
    · exact absurd hb.lt (not_lt.2 h)
    · rw [(hreach b).2 hb] at h
      cases h
    · exact absurd h hne
  rw [if_neg hskip]
  simp only [not_or, ge_iff_le, not_le, Bool.not_eq_false] at hskip
  obtain ⟨hlt, hr, hne⟩ := hskip
  have hb := (hreach b).1 hr
  by_cases hnew : outState f reachable validated b st.1 = st.1 b
  · simp only [hnew, ne_eq, not_true, if_false]
    exact ⟨hinv, .inl ⟨trivial, fun _ _ => trivial⟩⟩
  simp only [ne_eq, hnew, not_false_iff, if_true]
  refine ⟨hinv.update hreach hb hne, .inr ⟨trivial, ?_⟩⟩
  exact outBits_update_lt hlt hnew fun i hi => hinv.shrinks b i hb hne hi

/-- **A whole pass.** -/
theorem round_spec (bs : List BlockId) (st : (BlockId → BitWords validated.length) × Bool)
    (hinv : FlowInv f reachable validated st.1) :
    Passed f reachable bs st (bs.foldl (roundStep f reachable validated) st) := by
  induction bs generalizing st with
  | nil => exact ⟨hinv, .inl ⟨rfl, by simp⟩⟩
  | cons b bs ih =>
    rw [foldl_cons]
    obtain ⟨hinv', ⟨heq, hfix⟩ | ⟨hchanged, hlt⟩⟩ := roundStep_spec hreach hinv b
    · rw [heq]
      obtain ⟨hinv'', hcase⟩ := ih st hinv
      refine ⟨hinv'', hcase.imp_left fun h => ⟨h.1, forall_mem_cons.2 ⟨?_, h.2⟩⟩⟩
      exact hfix b (.head _)
    obtain ⟨hinv'', ⟨heq', -⟩ | ⟨hchanged', hlt'⟩⟩ := ih _ hinv'
    · rw [heq']
      exact ⟨hinv', .inr ⟨hchanged, hlt⟩⟩
    · exact ⟨hinv'', .inr ⟨hchanged', hlt'.trans hlt⟩⟩

/-- One iteration: it ends the loop with all equations satisfied, or loses a bit. -/
theorem fixpointStep_cases (hinv : FlowInv f reachable validated out) (rpo : List BlockId) :
    (fixpointStep f reachable validated rpo out = none ∧ ∀ b ∈ rpo, f.Reachable b →
        b ≠ f.entryBlock → outState f reachable validated b out = out b)
      ∨ ∃ out', fixpointStep f reachable validated rpo out = some out'
        ∧ FlowInv f reachable validated out' ∧ outBits f out' < outBits f out := by
  obtain ⟨hinv', ⟨heq, hfix⟩ | ⟨hchanged, hlt⟩⟩ := round_spec hreach rpo (out, false) hinv
  · exact .inl ⟨by simp [fixpointStep, heq], hfix⟩
  · exact .inr ⟨_, by simp [fixpointStep, hchanged], hinv', hlt⟩

/-- **The fixpoint.**  The loop ends on every graph, and its sets are exactly the
slots that every path from the entry stores. -/
theorem fixpoint_spec (validated : List StackSlotId) {rpo : List BlockId}
    (hrpo : ∀ b, f.Reachable b → b ∈ rpo) :
    ∃ out bound, (∀ fuel, bound ≤ fuel →
        Loop.run (fixpointStep f reachable validated rpo) fuel (initialOut f reachable validated)
          = some out)
      ∧ ∀ b (i : Fin validated.length), f.Reachable b →
        ((out b).get i = true ↔ Flow.MustPass f.entryBlock f.Edge
          (fun a => (genSet f reachable validated a).get i = true) b) := by
  have hstep : ∀ out out', FlowInv f reachable validated out →
      fixpointStep f reachable validated rpo out = some out' →
      FlowInv f reachable validated out' ∧ outBits f out' < outBits f out := by
    intro out out' hinv h
    rcases fixpointStep_cases hreach hinv rpo with ⟨hnone, -⟩ | ⟨_, hsome, hnext⟩
    · cases hnone.symm.trans h
    · cases hsome.symm.trans h
      exact hnext
  have hinit : FlowInv f reachable validated (initialOut f reachable validated) :=
    flowInv_initialOut hreach
  obtain ⟨out, hout, hinv, hdone⟩ := Loop.run_ends hstep _ hinit
  refine ⟨out, _, hout, ?_⟩
  -- a pass without a change leaves every block at its equation
  obtain ⟨-, hfix⟩ | ⟨_, hsome, -⟩ := fixpointStep_cases hreach hinv rpo
  swap
  · cases hdone.symm.trans hsome
  intro b i hb
  have hsol : Flow.IsSolution f.entryBlock f.Edge
      (fun a => (genSet f reachable validated a).get i = true) (fun a => (out a).get i = true) := by
    refine ⟨by simp only [hinv.entry_eq], ?_⟩
    intro c hc hne
    have hcr : f.Reachable c := ⟨hb.1, hc⟩
    rw [← hfix c (hrpo c hcr) hcr hne, get_outState hreach hcr hne]
    exact or_congr_right ⟨fun h a ha hac => h a ⟨hb.1, ha⟩ hac, fun h a ha hac => h a ha.2 hac⟩
  exact hsol.iff_mustPass (fun c hc => hinv.above c i ⟨hb.1, hc⟩) hb.2

omit hreach

/-! ## The check pass -/

/-- Every reload among `ids` is of a slot that is marked or stored before it. -/
def ReloadsCovered (f : MachFunction) (cur : BitWords validated.length) (ids : List InstId) :
    Prop :=
  ∀ before id after s i, ids = before ++ id :: after → loadedSlot f id = some s →
    slotIdx validated s = some i → cur.get i = true ∨ ∃ id' ∈ before, storedSlot f id' = some s

theorem reloadsCovered_cons {cur : BitWords validated.length} {id : InstId} {ids : List InstId} :
    ReloadsCovered f cur (id :: ids)
      ↔ (∀ s i, loadedSlot f id = some s → slotIdx validated s = some i → cur.get i = true)
        ∧ ReloadsCovered f (storeBits f validated cur id) ids := by
  constructor
  · intro h
    refine ⟨?_, ?_⟩
    · intro s i hs hi
      rcases h [] id ids s i rfl hs hi with h | ⟨id', hid', -⟩
      · exact h
      · simp at hid'
    intro before id' after s i heq hs hi
    rw [get_storeBits cur id hi]
    rcases h (id :: before) id' after s i (by rw [heq]; rfl) hs hi with h | ⟨d, hd, hstore⟩
    · exact .inl (.inl h)
    rcases mem_cons.1 hd with rfl | hd
    · exact .inl (.inr hstore)
    · exact .inr ⟨d, hd, hstore⟩
  rintro ⟨hhead, htail⟩ before id' after s i heq hs hi
  cases before with
  | nil =>
    obtain ⟨rfl, rfl⟩ := List.cons.inj heq
    exact .inl (hhead s i hs hi)
  | cons d before =>
    obtain ⟨rfl, rfl⟩ := List.cons.inj heq
    rcases htail before id' after s i rfl hs hi with h | ⟨e, he, hstore⟩
    · rw [get_storeBits cur id hi] at h
      rcases h with h | h
      · exact .inl h
      · exact .inr ⟨id, .head _, h⟩
    · exact .inr ⟨e, .tail _ he, hstore⟩

/-- One instruction of the pass: it adds a report exactly for a reload of a slot
that is not marked. -/
theorem replayStep_spec (reachable : BlockId → Bool) (out : BlockId → BitWords validated.length)
    (b : BlockId) (cur : BitWords validated.length)
    (errors : List UninitializedReload) (id : InstId) :
    ∃ new, replayStep f reachable validated b out (cur, errors) id
        = (storeBits f validated cur id, errors ++ new)
      ∧ (new = [] ↔ ∀ s i, loadedSlot f id = some s → slotIdx validated s = some i →
          cur.get i = true) := by
  unfold replayStep
  cases hload : loadedSlot f id with
  | none => exact ⟨[], by simp, by simp⟩
  | some s =>
    cases hidx : slotIdx validated s with
    | none =>
      refine ⟨[], by simp [hidx], ⟨fun _ t i ht hi => ?_, fun _ => rfl⟩⟩
      rw [← Option.some.inj ht, hidx] at hi
      simp at hi
    | some i =>
      cases hget : cur.get i with
      | true =>
        refine ⟨[], by simp [hidx, hget], ⟨fun _ t j ht hj => ?_, fun _ => rfl⟩⟩
        rw [← Option.some.inj ht, hidx] at hj
        rw [← Option.some.inj hj, hget]
      | false =>
        refine ⟨_, by simp [hidx, hget]; rfl, ⟨fun h => absurd h (by simp), fun h => ?_⟩⟩
        rw [h s i rfl hidx] at hget
        cases hget

/-- The pass over a block reports nothing exactly when its reloads are covered. -/
theorem replay_errors_nil_iff (b : BlockId) (ids : List InstId) (cur : BitWords validated.length)
    (errors : List UninitializedReload) :
    (ids.foldl (replayStep f reachable validated b out) (cur, errors)).2 = []
      ↔ errors = [] ∧ ReloadsCovered f cur ids := by
  induction ids generalizing cur errors with
  | nil =>
    constructor
    · intro h
      refine ⟨h, ?_⟩
      intro before id after s i heq
      simp at heq
    · exact fun h => h.1
  | cons id ids ih =>
    obtain ⟨new, hstep, hnew⟩ := replayStep_spec reachable out b cur errors id
    rw [foldl_cons, hstep, ih, reloadsCovered_cons, append_eq_nil_iff, hnew, and_assoc]

include hreach

/-- A bit of the entry state says that every path into the block has a store. -/
theorem get_inState_iff_paths {s : StackSlotId} {i : Fin validated.length}
    (hs : slotIdx validated s = some i)
    (hout : ∀ b (i : Fin validated.length), f.Reachable b → ((out b).get i = true ↔
      Flow.MustPass f.entryBlock f.Edge
        (fun a => (genSet f reachable validated a).get i = true) b)) (hb : f.Reachable b) :
    (inState f reachable validated b out).get i = true
      ↔ ∀ trail, f.Path b trail → ∃ a ∈ trail, ∃ id ∈ f.blockInsts a, storedSlot f id = some s := by
  have hgen : ∀ a, f.Reachable a → ((genSet f reachable validated a).get i = true
      ↔ ∃ id ∈ f.blockInsts a, storedSlot f id = some s) := by
    intro a ha
    rw [genSet, if_pos ((hreach a).2 ha), get_foldl_storeBits hs]
    simp
  have htrail : ∀ c trail, Flow.Trail f.entryBlock f.Edge c trail → ∀ a ∈ trail, f.Reachable a := by
    intro c trail ht
    induction ht with
    | entry => intro a ha; simp at ha
    | step ht _ ih =>
      intro a ha
      rcases mem_cons.1 ha with rfl | ha
      · exact ⟨hb.1, _, ht⟩
      · exact ih a ha
  by_cases hne : b = f.entryBlock
  · subst hne
    constructor
    · intro h
      rw [inState, if_pos rfl, BitWords.get_empty] at h
      cases h
    intro h
    obtain ⟨a, ha, -⟩ := h [] ⟨hb.1, .entry⟩
    simp at ha
  rw [get_inState hreach hb hne]
  constructor
  · rintro h trail ⟨-, ht⟩
    have hall := htrail b trail ht
    cases ht with
    | entry => exact absurd rfl hne
    | @step a _ trail ha hab =>
      have har : f.Reachable a := ⟨hb.1, _, ha⟩
      rcases (hout a i har).1 (h a har hab) trail ha with hev | ⟨d, hd, hev⟩
      · exact ⟨a, .head _, (hgen a har).1 hev⟩
      · exact ⟨d, .tail _ hd, (hgen d (hall d (.tail _ hd))).1 hev⟩
  intro h p hp hpb
  refine (hout p i hp).2 ?_
  intro trail ht
  obtain ⟨a, ha, hstore⟩ := h (p :: trail) ⟨hb.1, ht.step hpb⟩
  rcases mem_cons.1 ha with rfl | ha
  · exact .inl ((hgen a hp).2 hstore)
  · exact .inr ⟨a, ha, (hgen a (htrail p trail ht a ha)).2 hstore⟩

end

/-! ## The check against paths -/

/-- Before the instruction that follows `before` in its block, on a path through
the blocks of `trail`, the slot has been stored. -/
def StoredBefore (f : MachFunction) (trail : List BlockId) (before : List InstId)
    (s : StackSlotId) : Prop :=
  (∃ a ∈ trail, ∃ id ∈ f.blockInsts a, storedSlot f id = some s)
    ∨ ∃ id ∈ before, storedSlot f id = some s

/-- On every path from the entry block to a reload there is an earlier store to the
reloaded slot. -/
def ReloadsInitialized (f : MachFunction) : Prop :=
  ∀ b trail, f.Path b trail → ∀ before id after s, f.blockInsts b = before ++ id :: after →
    loadedSlot f id = some s → StoredBefore f trail before s

/-- **The check is exact and always answers.**  For every function the check ends
with some list of errors, and the list is empty if and only if on every path to
every reload there is an earlier store to the slot. -/
theorem checkSlotInitDominance_iff (f : MachFunction) :
    ∃ errors, (∃ bound, ∀ fuel, bound ≤ fuel → checkSlotInitDominance fuel f = some errors)
      ∧ (errors = [] ↔ ReloadsInitialized f) := by
  by_cases hempty : f.blocks.length = 0
  · refine ⟨[], ⟨0, fun fuel _ => by rw [checkSlotInitDominance, if_pos hempty]⟩, ?_⟩
    refine ⟨fun _ => ?_, fun _ => rfl⟩
    intro b trail hpath
    exact absurd hpath.reachable.lt (by rw [hempty]; exact Nat.not_lt_zero _)
  by_cases hnone : validatedSlots f = []
  · refine ⟨[], ⟨0, fun fuel _ => by
      rw [checkSlotInitDominance, if_neg hempty]; simp only [hnone, if_true]⟩, ?_⟩
    refine ⟨fun _ => ?_, fun _ => rfl⟩
    intro b trail _ before id after s hblock hload
    have hval : s ∈ validatedSlots f :=
      (mem_validatedSlots f s).2 ⟨b, id, by rw [hblock]; simp, hload⟩
    rw [hnone] at hval
    simp at hval
  obtain ⟨reachable, hreachrun, hreach⟩ := reachableBlocks_spec f
  obtain ⟨rpo, boundrpo, hrporun, hrpo⟩ := cfgReversePostOrder_spec f
  obtain ⟨out, boundout, houtrun, hout⟩ := fixpoint_spec hreach (validatedSlots f) hrpo
  refine ⟨rpo.flatMap (replayBlock f reachable (validatedSlots f) out),
    ⟨max (2 * f.blocks.length + 2) (max boundrpo boundout), ?_⟩, ?_⟩
  · intro fuel hfuel
    rw [checkSlotInitDominance, if_neg hempty]
    simp only [hnone, if_false, hreachrun fuel (by omega), hrporun fuel (by omega),
      Option.bind_eq_bind, Option.bind_some, houtrun fuel (by omega)]
  rw [flatMap_eq_nil_iff]
  constructor
  · intro h b trail hpath before id after s hblock hload
    have hb := hpath.reachable
    have hval : s ∈ validatedSlots f :=
      (mem_validatedSlots f s).2 ⟨b, id, by rw [hblock]; simp, hload⟩
    have hidx : slotIdx (validatedSlots f) s = some ⟨_, idxOf_lt_length_of_mem hval⟩ := by
      rw [slotIdx, dif_pos hval]
    have hreplay := h b (hrpo b hb)
    rw [replayBlock, if_neg (by simp [hb.lt, (hreach b).2 hb]), replay_errors_nil_iff] at hreplay
    rcases hreplay.2 before id after s _ hblock hload hidx with hin | hlocal
    · exact .inl ((get_inState_iff_paths hreach hidx hout hb).1 hin trail hpath)
    · exact .inr hlocal
  intro h b _
  rw [replayBlock]
  split
  · rfl
  rename_i hskip
  simp only [not_or, Bool.not_eq_false] at hskip
  have hb := (hreach b).1 hskip.2
  rw [replay_errors_nil_iff]
  refine ⟨rfl, ?_⟩
  intro before id after s i hblock hload hidx
  by_cases hlocal : ∃ id' ∈ before, storedSlot f id' = some s
  · exact .inr hlocal
  refine .inl ((get_inState_iff_paths hreach hidx hout hb).2 ?_)
  intro trail hpath
  rcases h b trail hpath before id after s hblock hload with hstore | hstore
  · exact hstore
  · exact absurd hstore hlocal

end TrustCg.RegAlloc
