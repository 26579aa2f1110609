import TrustCg.RegAlloc.PhiSplit

/-!
# Placing the copies of the phis

`eliminate_phis` on a function where every edge that needs a copy is the only one out of
its block (`MachFunction.Ready`).

* `copiesByPred_eq` : the copies pooled for such a block are those of one edge.
* `placeCopies_placed`, `eliminatePhis_eliminated` : what the insertion and removal loops
  make of every block.
* `Eliminated.edgeStep` : the result simulates the function, edge by edge.
-/

namespace TrustCg.RegAlloc

open ParallelCopy (parCopy seqCopy)
open Function (update_of_ne update_self)
open List

/-! ## States that agree on the old vregs -/

section

variable {Val World : Type*} {m : Machine Val World} {n : ℕ} {st st' : ExecState Val World}
  {inst : MachInst} {moves : List (VReg × VReg)}

/-- Two states agree on the vregs with ids below `n` and on the world. -/
structure StateAgree (n : ℕ) (st st' : ExecState Val World) : Prop where
  world : st'.world = st.world
  regs : ∀ v : VReg, v.id < n → st'.regs v = st.regs v

theorem StateAgree.step (h : StateAgree n st st')
    (hinst : ∀ v ∈ inst.vregDefs ++ inst.vregUses, v.id < n) :
    StateAgree n (m.step inst st).1 (m.step inst st').1 := by
  unfold Machine.step
  split
  next d s hcopy =>
    have hs : s.id < n := hinst s (mem_append_right _ (mem_of_asCopy hcopy).2)
    refine ⟨h.world, fun v hv => ?_⟩
    dsimp only
    by_cases hvd : v = d
    · rw [hvd, update_self, update_self, h.regs s hs]
    · rw [update_of_ne hvd, update_of_ne hvd, h.regs v hv]
  · have hvals : inst.vregUses.map st'.regs = inst.vregUses.map st.regs :=
      map_congr_left fun v hv => h.regs v (hinst v (mem_append_right _ hv))
    rw [hvals, h.world]
    exact ⟨rfl, fun v hv => writeDefs_congr _ _ _ _ (.inr (h.regs v hv))⟩

/-- An instruction may be moved before a parallel copy that it does not touch. -/
theorem step_parCopy (hnodup : (moves.map Prod.fst).Nodup)
    (hclear : ∀ move ∈ moves, inst.Clear move) (st : ExecState Val World) :
    (m.step inst ⟨parCopy moves st.regs, st.world⟩).1
      = ⟨parCopy moves (m.step inst st).1.regs, (m.step inst st).1.world⟩ := by
  have hreads : ∀ u ∈ inst.vregUses, parCopy moves st.regs u = st.regs u := by
    intro u hu
    refine ParallelCopy.parCopy_of_notMem fun hmem => ?_
    obtain ⟨move, hmove, rfl⟩ := mem_map.1 hmem
    exact (hclear move hmove).1 hu
  have hwrites : ∀ move ∈ moves, move.1 ∉ inst.vregDefs ∧ move.2 ∉ inst.vregDefs :=
    fun move hmove => (hclear move hmove).2
  unfold Machine.step
  split
  next d s hcopy =>
    obtain ⟨hd, hs⟩ := mem_of_asCopy hcopy
    dsimp only
    rw [hreads s hs]
    congr 1
    funext v
    refine ParallelCopy.parCopy_comm hnodup (fun v => v = d) st.regs ?_ ?_ ?_ ?_
    · intro move hmove
      obtain ⟨h1, h2⟩ := hwrites move hmove
      exact ⟨fun heq => h1 (heq ▸ hd), fun heq => h2 (heq ▸ hd)⟩
    · exact fun v hv => update_of_ne hv ..
    · exact fun v hv => update_of_ne hv ..
    rintro v rfl
    rw [update_self, update_self]
  · have hvals : inst.vregUses.map (parCopy moves st.regs) = inst.vregUses.map st.regs :=
      map_congr_left hreads
    dsimp only
    rw [hvals]
    congr 1
    funext v
    refine ParallelCopy.parCopy_comm hnodup (fun v => v ∈ inst.vregDefs) st.regs hwrites ?_ ?_ ?_
    · exact fun v hv => writeDefs_of_notMem _ _ _ hv
    · exact fun v hv => writeDefs_of_notMem _ _ _ hv
    · exact fun v hv => writeDefs_congr _ _ _ _ (.inl hv)

/-! ## Lists of instructions -/

variable {f g : MachFunction}

theorem execInsts_append (m : Machine Val World) (f : MachFunction) (more : List InstId)
    (ids : List InstId) (st : ExecState Val World) :
    (m.execInsts f (ids ++ more) st).1 = (m.execInsts f more (m.execInsts f ids st).1).1 := by
  induction ids generalizing st with
  | nil => rfl
  | cons id ids ih => rw [cons_append, execInsts_cons_eq, execInsts_cons_eq, ih]

theorem StateAgree.execInsts_parCopy (hf : ∀ v ∈ f.vregs, v.id < n)
    (hnodup : (moves.map Prod.fst).Nodup) (ids : List InstId) (st st' : ExecState Val World)
    (hsame : ∀ id ∈ ids, g.insts[id]? = f.insts[id]?)
    (hclear : ∀ id ∈ ids, ∀ inst ∈ f.insts[id]?, ∀ move ∈ moves, inst.Clear move)
    (h : StateAgree n ⟨parCopy moves st.regs, st.world⟩ st') :
    StateAgree n ⟨parCopy moves (m.execInsts f ids st).1.regs, (m.execInsts f ids st).1.world⟩
      (m.execInsts g ids st').1 := by
  induction ids generalizing st st' with
  | nil => exact h
  | cons id ids ih =>
    obtain ⟨hid, hids⟩ := forall_mem_cons.1 hsame
    obtain ⟨hhere, hrest⟩ := forall_mem_cons.1 hclear
    rw [execInsts_cons_eq, execInsts_cons_eq, hid]
    refine ih _ _ hids hrest ?_
    cases hinst : f.insts[id]? with
    | none => exact h
    | some inst =>
      have hstep := h.step (m := m) fun v hv => hf v (mem_vregs hinst hv)
      rwa [step_parCopy hnodup (hhere inst hinst)] at hstep

theorem StateAgree.execInsts (hf : ∀ v ∈ f.vregs, v.id < n) (ids : List InstId)
    (hsame : ∀ id ∈ ids, g.insts[id]? = f.insts[id]?) (h : StateAgree n st st') :
    StateAgree n (m.execInsts f ids st).1 (m.execInsts g ids st').1 := by
  have hnil : (([] : List (VReg × VReg)).map Prod.fst).Nodup := nodup_nil
  exact execInsts_parCopy hf hnil ids st st' hsame (fun _ _ _ _ => forall_mem_nil _) h

theorem execInsts_copies (ids : List InstId) (copies : List (VReg × VReg))
    (st : ExecState Val World)
    (h : (ids.map fun id => g.insts[id]?) = (copies.map fun copy => some (phiCopyInst copy))) :
    (m.execInsts g ids st).1 = ⟨seqCopy copies st.regs, st.world⟩ := by
  induction ids generalizing copies st with
  | nil =>
    rw [map_nil, eq_comm, map_eq_nil_iff] at h
    rw [h]
    rfl
  | cons id ids ih =>
    cases copies with
    | nil => simp at h
    | cons copy copies =>
      obtain ⟨hid, hids⟩ := List.cons.inj h
      dsimp only at hid
      rw [execInsts_cons_eq, hid, ih copies _ hids]
      rfl

end

/-! ## The copies of a predecessor -/

/-- Every edge that needs a copy is the only one out of its block, and the numbers of the
temporaries do not wrap: at most one is taken for each copy. -/
structure MachFunction.Ready (f : MachFunction) : Prop where
  ssa : f.SsaForm
  room : f.nextVreg + (phiCopies f).length < 2 ^ 32
  single : ∀ c < f.blocks.length, ∀ k p, (f.preds c)[k]? = some p → ∀ move ∈ f.phiMoves c k,
    move.1 ≠ move.2 → f.succs p = [c]
  tails : f.TailsClear

variable {copies : List (VReg × VReg)}

section

variable {f : MachFunction} {b c p : BlockId} {k : ℕ} {i : ℕ} {inst : MachInst}
  {entry : BlockId × VReg × VReg} {move : VReg × VReg}

theorem phiEntry_eq_some {pred : BlockId} : (match inst.phiMove k with
      | some (dest, src) => if src ≠ dest then some (pred, dest, src) else none
      | none => none) = some entry
    ↔ pred = entry.1 ∧ inst.phiMove k = some entry.2 ∧ entry.2.2 ≠ entry.2.1 := by
  obtain ⟨p, d, s⟩ := entry
  cases inst.phiMove k with
  | none => simp
  | some move =>
    simp only [Option.ite_none_right_eq_some, Option.some_inj, Prod.ext_iff]
    grind

theorem mem_blockCopies : entry ∈ blockCopies f c
    ↔ ∃ k, (f.preds c)[k]? = some entry.1 ∧ entry.2 ∈ f.phiMoves c k ∧ entry.2.2 ≠ entry.2.1 := by
  simp only [blockCopies, mem_flatMap, mem_filterMap, Prod.exists, mk_mem_zipIdx_iff_getElem?,
    MachFunction.phiMoves]
  constructor
  · rintro ⟨inst, hinst, _, k, hk, hmove⟩
    obtain ⟨rfl, hphi, hne⟩ := phiEntry_eq_some.1 hmove
    exact ⟨k, hk, ⟨inst, hinst, hphi⟩, hne⟩
  · rintro ⟨k, hk, ⟨inst, hinst, hphi⟩, hne⟩
    exact ⟨inst, hinst, _, k, hk, phiEntry_eq_some.2 ⟨rfl, hphi, hne⟩⟩

theorem mem_copiesByPred : move ∈ copiesByPred f p
    ↔ ∃ c ∈ f.blockOrder, ∃ k, (f.preds c)[k]? = some p ∧ move ∈ f.phiMoves c k
      ∧ move.2 ≠ move.1 := by
  simp only [copiesByPred, phiCopies, mem_map, mem_filter, mem_flatMap, mem_blockCopies,
    beq_iff_eq]
  constructor
  · rintro ⟨entry, ⟨⟨c, hc, k, hk⟩, rfl⟩, rfl⟩
    exact ⟨c, hc, k, hk⟩
  · rintro ⟨c, hc, k, hk⟩
    exact ⟨(p, move), ⟨⟨c, hc, k, hk⟩, rfl⟩, rfl⟩

theorem head_of_phiMove (h : inst.phiMove k = some move) :
    inst.defs.head? = some (.vreg move.1) := by
  unfold MachInst.phiMove at h
  split at h
  next dest src hd hs =>
    cases h
    obtain ⟨op, hop, hv⟩ := Option.bind_eq_some_iff.1 hd
    cases op with
    | vreg v => rw [hop, ← Option.some_inj.1 hv]
    | _ => simp [Operand.asVreg] at hv
  · simp at h

theorem MachFunction.SsaForm.phiMoves_nodup (h : f.SsaForm) (hb : b < f.blocks.length) (k : ℕ) :
    ((f.phiMoves b k).map Prod.fst).Nodup := by
  have hheads := h.distinct b hb
  rw [List.Nodup, pairwise_map] at hheads
  rw [List.Nodup, pairwise_map, MachFunction.phiMoves, pairwise_filterMap]
  refine hheads.imp ?_
  intro a a' hne move hmove move' hmove' heq
  exact hne (by rw [head_of_phiMove hmove, head_of_phiMove hmove', heq])

theorem pairwise_of_count_le_one {α : Type*} [DecidableEq α] {x : α} : ∀ l : List α,
    l.count x ≤ 1 → l.Pairwise fun y z => y = x → z ≠ x := by
  intro l
  induction l with
  | nil => intro _; exact .nil
  | cons y l ih =>
    intro h
    rw [count_cons] at h
    refine .cons ?_ (ih (by omega))
    rintro z hz rfl rfl
    have := count_pos_iff.2 hz
    simp at h
    omega

theorem getElem?_inj_of_count_le_one {α : Type*} [DecidableEq α] {x : α} {l : List α}
    (h : l.count x ≤ 1) {j : ℕ} (hi : l[i]? = some x) (hj : l[j]? = some x) : i = j := by
  have hpairs := pairwise_iff_getElem.1 (pairwise_of_count_le_one l h)
  obtain ⟨hilt, hix⟩ := List.getElem?_eq_some_iff.1 hi
  obtain ⟨hjlt, hjx⟩ := List.getElem?_eq_some_iff.1 hj
  rcases Nat.lt_trichotomy i j with hlt | heq | hgt
  · exact absurd hjx (hpairs i j hilt hjlt hlt hix)
  · exact heq
  · exact absurd hix (hpairs j i hjlt hilt hgt hjx)

/-- The destinations of the copies pooled for a block are distinct. -/
theorem MachFunction.Ready.copiesByPred_nodup (h : f.Ready) (p : BlockId) :
    ((copiesByPred f p).map Prod.fst).Nodup := by
  have hsingle : ∀ c ∈ f.blockOrder, ∀ entry ∈ blockCopies f c, f.succs entry.1 = [c] := by
    intro c hc entry hentry
    obtain ⟨k, hk, hmove, hne⟩ := mem_blockCopies.1 hentry
    exact h.single c ((h.ssa.listed c).1 hc) k entry.1 hk entry.2 hmove hne.symm
  rw [copiesByPred, phiCopies, map_map, List.Nodup, pairwise_map, pairwise_filter,
    pairwise_flatMap]
  refine ⟨fun c hc => ?_, h.ssa.order.imp_of_mem ?_⟩
  · have hlt := (h.ssa.listed c).1 hc
    rw [blockCopies, pairwise_flatMap]
    refine ⟨fun inst hinst => ?_, ?_⟩
    · -- one phi asks once for a copy, since the edge comes once
      by_cases hp : f.succs p = [c]
      · have hcount : (f.preds c).count p ≤ 1 := by
          rw [← h.ssa.listsAgree p c, hp]
          simp
        have hpairs := pairwise_of_count_le_one _ hcount
        rw [← zipIdx_map_fst 0 (f.preds c), pairwise_map] at hpairs
        rw [pairwise_filterMap]
        refine hpairs.imp ?_
        intro a a' hne e he e' he' hpe hpe'
        exact absurd ((phiEntry_eq_some.1 he').1.trans (beq_iff_eq.1 hpe'))
          (hne ((phiEntry_eq_some.1 he).1.trans (beq_iff_eq.1 hpe)))
      refine pairwise_of_forall_mem_list fun e he e' _ hpe _ => ?_
      have := hsingle c hc e (mem_flatMap.2 ⟨inst, hinst, he⟩)
      rw [beq_iff_eq.1 hpe] at this
      exact absurd this hp
    have hheads := h.ssa.distinct c hlt
    rw [List.Nodup, pairwise_map] at hheads
    refine hheads.imp ?_
    intro inst inst' hne e he e' he' _ _ heq
    obtain ⟨a, -, ha⟩ := mem_filterMap.1 he
    obtain ⟨a', -, ha'⟩ := mem_filterMap.1 he'
    rw [head_of_phiMove (phiEntry_eq_some.1 ha).2.1,
      head_of_phiMove (phiEntry_eq_some.1 ha').2.1] at hne
    exact hne (congrArg (fun v => some (Operand.vreg v)) heq)
  · intro c c' hc hc' hne e he e' he' hpe hpe'
    have h1 := hsingle c hc e he
    have h2 := hsingle c' hc' e' he'
    rw [beq_iff_eq.1 hpe] at h1
    rw [beq_iff_eq.1 hpe', h1] at h2
    exact absurd (List.cons.inj h2).1 hne

theorem copiesByPred_lt (h : f.SsaForm) (p : BlockId) :
    ∀ move ∈ copiesByPred f p, move.1.id < f.nextVreg ∧ move.2.id < f.nextVreg := by
  intro move hmove
  obtain ⟨c, -, k, -, hmem, -⟩ := mem_copiesByPred.1 hmove
  obtain ⟨inst, hinst, hphi⟩ := mem_filterMap.1 hmem
  obtain ⟨id, -, hid⟩ := mem_filterMap.1 (mem_of_mem_filter hinst)
  have hdef : move.1 ∈ inst.vregDefs :=
    mem_filterMap.2 ⟨_, mem_of_head? (head_of_phiMove hphi), rfl⟩
  have huse : move.2 ∈ inst.vregUses := by
    unfold MachInst.phiMove at hphi
    split at hphi
    next dest src hd hs =>
      cases hphi
      obtain ⟨op, hop, hv⟩ := Option.bind_eq_some_iff.1 hs
      exact mem_filterMap.2 ⟨op, mem_of_getElem? hop, hv⟩
    · simp at hphi
  exact ⟨h.vregs _ (mem_vregs hid (mem_append_left _ hdef)),
    h.vregs _ (mem_vregs hid (mem_append_right _ huse))⟩

theorem resolve_allocVreg (next : ℕ) (copies : List (VReg × VReg)) :
    (ParallelCopy.resolve allocVreg next copies).2 = next + temporaries next copies :=
  (Nat.add_sub_of_le (ParallelCopy.resolve_next allocVreg next copies).1).symm

theorem temporaries_le (next : ℕ) (copies : List (VReg × VReg)) :
    temporaries next copies ≤ copies.length := by
  have hbound := (ParallelCopy.resolve_next allocVreg next copies).2
  rw [resolve_allocVreg] at hbound
  omega

section

variable {Val : Type*} {next : ℕ} (hroom : next + temporaries next copies < 2 ^ 32)
include hroom

/-- While the numbers do not wrap, the temporaries are the next vregs. -/
theorem resolve_eq_of_room : ParallelCopy.resolve allocVreg next copies
    = ParallelCopy.resolve (fun id dst => ⟨id, dst.cls⟩) next copies := by
  refine ParallelCopy.resolve_congr fun n hn => ?_
  rw [resolve_allocVreg] at hn
  funext dst
  rw [allocVreg, Nat.mod_eq_of_lt (hn.trans hroom)]

theorem resolveParallelCopies_next :
    (resolveParallelCopies next copies).2 = next + temporaries next copies := by
  rw [resolveParallelCopies, resolve_allocVreg, Nat.mod_eq_of_lt hroom]

/-- `resolve_parallel_copies` is correct on the vregs below the first temporary. -/
theorem resolveParallelCopies_spec (hnodup : (copies.map Prod.fst).Nodup)
    (hbelow : ∀ copy ∈ copies, copy.1.id < next ∧ copy.2.id < next) (regs : VReg → Val) (v : VReg)
    (hv : v.id < next) :
    seqCopy (resolveParallelCopies next copies).1 regs v = parCopy copies regs v := by
  rw [resolveParallelCopies, resolve_eq_of_room hroom]
  exact (ParallelCopy.resolve_spec VReg.id (fun _ _ => rfl) hnodup hbelow regs).2 v hv

end

/-- **`resolve_parallel_copies` on any list.**  While the numbers of the temporaries do not
wrap, each destination ends with what its source held before the first copy, nothing but
destinations and temporaries changes, and the loop ends within as many rounds as there are
copies, whatever rounds it is given on top. -/
theorem resolveParallelCopies_sequentializes {Val : Type*} (copies : List (VReg × VReg))
    (next : ℕ) (hroom : next + temporaries next copies < 2 ^ 32)
    (hnodup : (copies.map Prod.fst).Nodup)
    (hbelow : ∀ copy ∈ copies, copy.1.id < next ∧ copy.2.id < next) (regs : VReg → Val) :
    (∀ copy ∈ copies, seqCopy (resolveParallelCopies next copies).1 regs copy.1 = regs copy.2)
      ∧ (∀ v : VReg, v ∉ copies.map Prod.fst →
        ¬(next ≤ v.id ∧ v.id < next + temporaries next copies) →
        seqCopy (resolveParallelCopies next copies).1 regs v = regs v)
      ∧ ∀ rounds, copies.length ≤ rounds →
        ParallelCopy.resolveLoop allocVreg rounds
          ⟨copies.filter fun copy => copy.1 != copy.2, [], next⟩
          = ⟨[], (resolveParallelCopies next copies).1, next + temporaries next copies⟩ := by
  have heffect := resolveParallelCopies_spec hroom hnodup hbelow regs
  refine ⟨fun copy hcopy => ?_, fun v hv hold => ?_, fun rounds hrounds => ?_⟩
  · rw [heffect _ (hbelow copy hcopy).1, ParallelCopy.parCopy_of_mem hnodup hcopy]
  · rcases Nat.lt_or_ge v.id next with hlt | hge
    · rw [heffect v hlt, ParallelCopy.parCopy_of_notMem hv]
    rw [resolveParallelCopies, resolve_eq_of_room hroom]
    refine ParallelCopy.seqCopy_resolve_of_le VReg.id (fun _ _ => rfl) hnodup hbelow ?_
    rw [← resolve_eq_of_room hroom, resolve_allocVreg]
    exact Nat.not_lt.1 fun hlt => hold ⟨hge, hlt⟩
  obtain ⟨hnil, hsame⟩ := ParallelCopy.resolveLoop_ends allocVreg rounds _
    ⟨copies.filter fun copy => copy.1 != copy.2, [], next⟩
    ((length_filter_le ..).trans hrounds) le_rfl
  rw [hsame] at hnil ⊢
  rw [← resolve_allocVreg]
  exact congrArg (ParallelCopy.State.mk · _ _) hnil

/-- A swap. -/
theorem resolveParallelCopies_sequentializes_swap :
    seqCopy (resolveParallelCopies 2 [(⟨0, .gpr64⟩, ⟨1, .gpr64⟩), (⟨1, .gpr64⟩, ⟨0, .gpr64⟩)]).1 id
      ⟨0, .gpr64⟩ = ⟨1, .gpr64⟩ :=
  (resolveParallelCopies_sequentializes [(⟨0, .gpr64⟩, ⟨1, .gpr64⟩), (⟨1, .gpr64⟩, ⟨0, .gpr64⟩)] 2
    (by decide) (by decide) (by decide) id).1 (⟨0, .gpr64⟩, ⟨1, .gpr64⟩) (by decide)

/-- Two swaps. -/
def twoSwaps : List (VReg × VReg) :=
  [(⟨1, .gpr64⟩, ⟨2, .gpr64⟩), (⟨2, .gpr64⟩, ⟨1, .gpr64⟩), (⟨3, .gpr64⟩, ⟨4, .gpr64⟩),
    (⟨4, .gpr64⟩, ⟨3, .gpr64⟩)]

/-- **The numbers wrap.**  With the last number for the first temporary the second one is
vreg 0, which is neither a destination nor above all vregs, and which the copies overwrite. -/
theorem resolveParallelCopies_wraps :
    (twoSwaps.map Prod.fst).Nodup
      ∧ (∀ copy ∈ twoSwaps, copy.1.id < 2 ^ 32 - 1 ∧ copy.2.id < 2 ^ 32 - 1)
      ∧ (resolveParallelCopies (2 ^ 32 - 1) twoSwaps).2 = 1
      ∧ seqCopy (resolveParallelCopies (2 ^ 32 - 1) twoSwaps).1 id ⟨0, .gpr64⟩ = ⟨3, .gpr64⟩ := by
  decide +kernel

/-! ## Entering a block -/

theorem nthIndex_of_lt_count {x : BlockId} (l : List BlockId) (n : ℕ) (h : n < l.count x) :
    ∃ k, nthIndex x l n = some k ∧ l[k]? = some x := by
  induction l generalizing n with
  | nil => simp at h
  | cons y l ih =>
    have hstep : ∀ n, n < l.count x →
        ∃ k, (nthIndex x l n).map (· + 1) = some k ∧ (y :: l)[k]? = some x := by
      intro n hn
      obtain ⟨k, hk, hget⟩ := ih n hn
      exact ⟨k + 1, by rw [hk]; rfl, hget⟩
    by_cases hyx : y = x
    · rw [hyx, count_cons_self] at h
      cases n with
      | zero => exact ⟨0, by simp only [nthIndex, if_pos hyx], by rw [hyx]; rfl⟩
      | succ n =>
        simp only [nthIndex, if_pos hyx]
        exact hstep n (by omega)
    rw [count_cons_of_ne hyx] at h
    cases n <;>
    · simp only [nthIndex, if_neg hyx]
      exact hstep _ h

theorem MachFunction.SsaForm.slot_spec (h : f.SsaForm) (hi : (f.succs b)[i]? = some c) :
    ∃ k, f.slot b i c = some k ∧ (f.preds c)[k]? = some b := by
  refine nthIndex_of_lt_count _ _ ?_
  obtain ⟨hlt, hget⟩ := List.getElem?_eq_some_iff.1 hi
  rw [← h.listsAgree b c]
  nth_rewrite 2 [← take_append_drop i (f.succs b)]
  rw [count_append, drop_eq_getElem_cons hlt, hget, count_cons_self]
  omega

/-- **The phis of the block that is entered assign what was pooled for the block that was
left.** -/
theorem MachFunction.Ready.enterBlock_eq {Val : Type*} (h : f.Ready) (hi : (f.succs b)[i]? = some c)
    (regs : VReg → Val) : enterBlock f c (f.slot b i c) regs = parCopy (copiesByPred f b) regs := by
  have hb : b < f.blocks.length := MachFunction.lt_of_mem_succs (mem_of_getElem? hi)
  have hc := h.ssa.succs_lt b hb c (mem_of_getElem? hi)
  obtain ⟨k, hk, hpred⟩ := h.ssa.slot_spec hi
  have hpooled : ∀ move ∈ copiesByPred f b, move ∈ f.phiMoves c k ∧ move.2 ≠ move.1 := by
    intro move hmove
    obtain ⟨c', hc', k', hpred', hmem, hne⟩ := mem_copiesByPred.1 hmove
    have hone := h.single c' ((h.ssa.listed c').1 hc') k' b hpred' move hmem hne.symm
    have hcc : c = c' := by
      have hin := mem_of_getElem? hi
      rw [hone] at hin
      exact mem_singleton.1 hin
    subst hcc
    have hcount : (f.preds c).count b ≤ 1 := by
      rw [← h.ssa.listsAgree b c, hone]
      simp
    rw [getElem?_inj_of_count_le_one hcount hpred hpred']
    exact ⟨hmem, hne⟩
  rw [hk, enterBlock]
  funext v
  have hnodup := h.ssa.phiMoves_nodup hc k
  refine (ParallelCopy.parCopy_congr hnodup (h.copiesByPred_nodup b) ?_ ?_).symm
  · intro s hs
    by_cases hvs : v = s
    · refine .inr ⟨fun hmem => ?_, by rw [hvs]⟩
      obtain ⟨move, hmove, hfst⟩ := mem_map.1 hmem
      obtain ⟨hin, hne⟩ := hpooled move hmove
      rw [inj_on_of_nodup_map hnodup hin hs hfst] at hne
      exact hne hvs.symm
    have hin : (v, s) ∈ copiesByPred f b :=
      mem_copiesByPred.2 ⟨c, (h.ssa.listed c).2 hc, k, hpred, hs, Ne.symm hvs⟩
    exact .inl ⟨s, hin, rfl⟩
  intro hout
  refine ⟨fun hmem => hout ?_, rfl⟩
  obtain ⟨move, hmove, hfst⟩ := mem_map.1 hmem
  exact mem_map.2 ⟨move, (hpooled move hmove).1, hfst⟩

end

/-! ## The insertion loops -/

variable {ids : List InstId}

section

variable {f g : MachFunction} {p x : BlockId} {done : List BlockId}
  {acc : MachFunction × (BlockId → List (VReg × VReg))}

/-- What stands before the tail of a block, and the tail. -/
def MachFunction.headInsts (f : MachFunction) (b : BlockId) : List InstId :=
  (f.blockInsts b).rdropWhile f.isTailAt

/-- The branches at the end of a block. -/
def MachFunction.tailInsts (f : MachFunction) (b : BlockId) : List InstId :=
  (f.blockInsts b).rtakeWhile f.isTailAt

theorem headInsts_append_tailInsts (f : MachFunction) (b : BlockId) :
    f.headInsts b ++ f.tailInsts b = f.blockInsts b := rdropWhile_append_rtakeWhile

section

variable {α : Type*} {q r : α → Bool} (l : List α) (h : ∀ a ∈ l, q a = r a)
include h

theorem rdropWhile_congr : l.rdropWhile q = l.rdropWhile r := by
  induction l using List.reverseRecOn with
  | nil => rfl
  | append_singleton l a ih =>
    rw [rdropWhile_concat, rdropWhile_concat, h a (by simp),
      ih fun b hb => h b (mem_append_left _ hb)]

theorem rtakeWhile_congr : l.rtakeWhile q = l.rtakeWhile r := by
  induction l using List.reverseRecOn with
  | nil => rfl
  | append_singleton l a ih =>
    rw [rtakeWhile_concat, rtakeWhile_concat, h a (by simp),
      ih fun b hb => h b (mem_append_left _ hb)]

end

/-- The instructions of a block are its old ones, with `ids` for the copies before the tail. -/
structure PlacedAt (g h : MachFunction) (p : BlockId) (ids : List InstId)
    (copies : List (VReg × VReg)) : Prop where
  insts : h.blockInsts p = g.headInsts p ++ ids ++ g.tailInsts p
  fresh : ∀ id ∈ ids, g.insts.length ≤ id
  copies : (ids.map fun id => h.insts[id]?) = copies.map fun copy => some (phiCopyInst copy)

/-- **What the insertion loops preserve.**  The copies of the predecessors `done` are
resolved and placed; the others are still pending. -/
structure Placed (g : MachFunction) (done : List BlockId)
    (acc : MachFunction × (BlockId → List (VReg × VReg))) : Prop where
  old : ∀ id < g.insts.length, acc.1.insts[id]? = g.insts[id]?
  arena : g.insts.length ≤ acc.1.insts.length
  fresh : g.nextVreg ≤ acc.1.nextVreg
  room : acc.1.nextVreg + ((phiCopies g).countP fun copy => decide (copy.1 ∉ done))
    ≤ g.nextVreg + (phiCopies g).length
  blocks : acc.1.blocks.length = g.blocks.length
  succs : ∀ b, acc.1.succs b = g.succs b
  preds : ∀ b, acc.1.preds b = g.preds b
  pending : ∀ p, acc.2 p = if p ∈ done then [] else copiesByPred g p
  waiting : ∀ p < g.blocks.length, p ∉ done → PlacedAt g acc.1 p [] []
  placed : ∀ p < g.blocks.length, p ∈ done → ∃ ids next, g.nextVreg ≤ next
    ∧ next + (copiesByPred g p).length < 2 ^ 32
    ∧ PlacedAt g acc.1 p ids (resolveParallelCopies next (copiesByPred g p)).1

theorem placed_init (g : MachFunction) : Placed g [] (g, copiesByPred g) where
  old := fun _ _ => rfl
  arena := le_rfl
  fresh := le_rfl
  room := Nat.add_le_add_left countP_le_length _
  blocks := rfl
  succs := fun _ => rfl
  preds := fun _ => rfl
  pending := fun _ => rfl
  waiting := fun p _ _ =>
    ⟨by rw [append_nil, headInsts_append_tailInsts], fun id hid => absurd hid (by simp), rfl⟩
  placed := fun p _ hp => absurd hp (by simp)

/-- An edit of the instructions of a block leaves the lists of all blocks alone. -/
theorem edges_modify {g : MachFunction} {edit : MachBlock → List InstId}
    (hg : g.blocks = f.blocks.modify p fun block => { block with insts := edit block })
    (x : BlockId) : g.succs x = f.succs x ∧ g.preds x = f.preds x := by
  simp only [MachFunction.succs, MachFunction.preds, hg, getElem?_modify]
  cases f.blocks[x]? with
  | none => exact ⟨rfl, rfl⟩
  | some block => dsimp only [Option.map_eq_map, Option.map_some]; split <;> exact ⟨rfl, rfl⟩

theorem insertCopies_blockInsts_of_ne (copies : List (VReg × VReg)) (hne : p ≠ x) :
    (insertCopies f p copies).blockInsts x = f.blockInsts x := by
  rw [MachFunction.blockInsts, insertCopies, getElem?_modify_ne _ _ hne]
  rfl

theorem insertCopies_blockInsts_self (copies : List (VReg × VReg)) (hp : p < f.blocks.length) :
    (insertCopies f p copies).blockInsts p
      = (f.blockInsts p).take (findTerminatorPos f (f.blockInsts p))
        ++ List.range' f.insts.length (resolveParallelCopies f.nextVreg copies).1.length
        ++ (f.blockInsts p).drop (findTerminatorPos f (f.blockInsts p)) := by
  have hblock : f.blockInsts p = f.blocks[p].insts := by
    rw [MachFunction.blockInsts, getElem?_eq_getElem hp]
  rw [hblock, MachFunction.blockInsts, insertCopies, getElem?_modify_eq,
    getElem?_eq_getElem hp, hblock]
  rfl

theorem map_getElem?_range' {α : Type*} (l : List α) : ∀ more : List α,
    ((List.range' l.length more.length).map fun id => (l ++ more)[id]?) = more.map some := by
  intro more
  refine ext_getElem (by simp) fun i h1 h2 => ?_
  simp only [getElem_map, getElem_range', Nat.one_mul]
  rw [getElem?_append_right (Nat.le_add_right _ _), Nat.add_sub_cancel_left]
  exact getElem?_eq_getElem _

variable {h : MachFunction}

/-- More instructions in the arena do not matter to copies that are placed. -/
theorem PlacedAt.insertCopies {more : List (VReg × VReg)} (hat : PlacedAt g h x ids copies)
    (hne : p ≠ x) : PlacedAt g (RegAlloc.insertCopies h p more) x ids copies := by
  refine ⟨by rw [insertCopies_blockInsts_of_ne _ hne]; exact hat.insts, hat.fresh, ?_⟩
  rw [← hat.copies]
  refine map_congr_left fun id hid => ?_
  have hsome : h.insts[id]? ∈ copies.map fun copy => some (phiCopyInst copy) := by
    rw [← hat.copies]
    exact mem_map_of_mem hid
  obtain ⟨copy, -, hcopy⟩ := mem_map.1 hsome
  exact List.getElem?_append_left (List.getElem?_eq_some_iff.1 hcopy.symm).1

theorem PlacedAt.insert_self (hssa : g.SsaForm)
    (hold : ∀ id < g.insts.length, h.insts[id]? = g.insts[id]?)
    (harena : g.insts.length ≤ h.insts.length) (hblocks : h.blocks.length = g.blocks.length)
    (hp : p < g.blocks.length) (hat : PlacedAt g h p [] []) (copies : List (VReg × VReg)) :
    ∃ ids, PlacedAt g (RegAlloc.insertCopies h p copies) p ids
      (resolveParallelCopies h.nextVreg copies).1 := by
  have hinsts : h.blockInsts p = g.blockInsts p := by
    rw [hat.insts, append_nil, headInsts_append_tailInsts]
  have htail : ∀ id ∈ g.blockInsts p, h.isTailAt id = g.isTailAt id := by
    intro id hid
    rw [isTailAt_eq, isTailAt_eq, hold id (hssa.ids p hp id hid)]
  have hpos : findTerminatorPos h (h.blockInsts p) = (g.headInsts p).length := by
    rw [findTerminatorPos, hinsts, rdropWhile_congr _ htail]
    rfl
  refine ⟨List.range' h.insts.length (resolveParallelCopies h.nextVreg copies).1.length, ?_, ?_, ?_⟩
  · rw [insertCopies_blockInsts_self _ (hblocks ▸ hp), hpos, hinsts,
      ← headInsts_append_tailInsts g p, take_left, drop_left]
  · intro id hid
    exact harena.trans (mem_range'_1.1 hid).1
  have hmap := map_getElem?_range' h.insts
    ((resolveParallelCopies h.nextVreg copies).1.map phiCopyInst)
  rw [length_map, map_map] at hmap
  exact hmap

/-- The copies that wait for `p` or for a predecessor behind it. -/
theorem countP_waiting (hp : p ∉ done) :
    (phiCopies g).countP (fun copy => decide (copy.1 ∉ done))
      = (phiCopies g).countP (fun copy => decide (copy.1 ∉ done ++ [p]))
        + (copiesByPred g p).length := by
  rw [copiesByPred, length_map, ← countP_eq_length_filter]
  induction phiCopies g with
  | nil => rfl
  | cons copy rest ih =>
    rw [countP_cons, countP_cons, countP_cons, ih]
    by_cases heq : copy.1 = p
    · simp only [heq, hp, mem_append, mem_singleton, not_false_eq_true, decide_true, or_true,
        not_true_eq_false, decide_false, beq_self_eq_true, ↓reduceIte, Bool.false_eq_true]
      omega
    · simp only [mem_append, mem_singleton, heq, or_false, beq_eq_false_iff_ne.2 heq,
        Bool.false_eq_true, ↓reduceIte]
      omega

theorem placeCopies_placed (hready : g.Ready) (h : Placed g done acc) (hp : p < g.blocks.length) :
    Placed g (done ++ [p]) (placeCopies acc p) := by
  have hmem : ∀ q, q ∈ done ++ [p] ↔ q ∈ done ∨ q = p := fun q => by simp
  unfold placeCopies
  split
  next hnil =>
    refine ⟨h.old, h.arena, h.fresh, ?_, h.blocks, h.succs, h.preds, ?_, ?_, ?_⟩
    · refine (Nat.add_le_add_left (countP_mono_left fun copy _ hcopy => ?_) _).trans h.room
      rw [decide_eq_true_iff, hmem, not_or] at hcopy
      exact decide_eq_true hcopy.1
    · intro q
      by_cases hq : q = p
      · rw [hq, hnil, if_pos ((hmem p).2 (.inr rfl))]
      rw [h.pending q]
      simp only [hmem, hq, or_false]
    · exact fun q hq hnot => h.waiting q hq fun hin => hnot ((hmem q).2 (.inl hin))
    intro q hq hin
    by_cases hdone : q ∈ done
    · exact h.placed q hq hdone
    obtain rfl : q = p := ((hmem q).1 hin).resolve_left hdone
    have hnone : copiesByPred g q = [] := by rw [← hnil, h.pending q, if_neg hdone]
    rw [hnone]
    exact ⟨[], g.nextVreg, le_rfl, (Nat.le_add_right _ _).trans_lt hready.room,
      h.waiting q hq hdone⟩
  next hne =>
    have hdone : p ∉ done := fun hin => hne (by rw [h.pending p, if_pos hin])
    have hcopies : acc.2 p = copiesByPred g p := by rw [h.pending p, if_neg hdone]
    rw [hcopies]
    have hwaiting := h.room
    have hspace := hready.room
    rw [countP_waiting hdone] at hwaiting
    have hroom : acc.1.nextVreg + (copiesByPred g p).length < 2 ^ 32 := by omega
    have htaken := temporaries_le acc.1.nextVreg (copiesByPred g p)
    have hnext : (insertCopies acc.1 p (copiesByPred g p)).nextVreg
        = acc.1.nextVreg + temporaries acc.1.nextVreg (copiesByPred g p) :=
      resolveParallelCopies_next (by omega)
    refine ⟨?_, ?_, ?_, ?_, ?_, ?_, ?_, ?_, ?_, ?_⟩
    · intro id hid
      rw [← h.old id hid]
      exact getElem?_append_left (hid.trans_le h.arena)
    · refine h.arena.trans ?_
      dsimp only [insertCopies]
      rw [length_append]
      exact Nat.le_add_right _ _
    · dsimp only
      rw [hnext]
      exact h.fresh.trans (Nat.le_add_right _ _)
    · dsimp only
      rw [hnext]
      omega
    · rw [← h.blocks]
      exact length_modify ..
    · exact fun b => (edges_modify rfl b).1.trans (h.succs b)
    · exact fun b => (edges_modify rfl b).2.trans (h.preds b)
    · intro q
      dsimp only
      by_cases hq : q = p
      · rw [hq, update_self, if_pos ((hmem p).2 (.inr rfl))]
      rw [update_of_ne hq, h.pending q]
      simp only [hmem, hq, or_false]
    · intro q hq hnot
      rw [hmem, not_or] at hnot
      exact (h.waiting q hq hnot.1).insertCopies (Ne.symm hnot.2)
    intro q hq hin
    by_cases hqp : q = p
    · subst hqp
      obtain ⟨ids, hids⟩ := (h.waiting q hq hdone).insert_self hready.ssa h.old h.arena
        h.blocks hq (copiesByPred g q)
      exact ⟨ids, acc.1.nextVreg, h.fresh, hroom, hids⟩
    obtain ⟨ids, next, hle, hlt, hat⟩ := h.placed q hq (((hmem q).1 hin).resolve_right hqp)
    exact ⟨ids, next, hle, hlt, hat.insertCopies (Ne.symm hqp)⟩

/-! ## The removal loop -/

theorem removePhi_blockInsts (f : MachFunction) (phi : BlockId × InstId) (x : BlockId) :
    (removePhi f phi).blockInsts x = (f.blockInsts x).filter fun id => (x, id) ≠ phi := by
  rw [MachFunction.blockInsts, removePhi, getElem?_modify, MachFunction.blockInsts]
  cases f.blocks[x]? with
  | none => rfl
  | some block =>
    dsimp only [Option.map_eq_map, Option.map_some]
    by_cases hx : phi.1 = x
    · rw [if_pos hx]
      refine filter_congr fun id _ => ?_
      rw [Bool.eq_iff_iff, bne_iff_ne, decide_eq_true_iff, Ne, Ne, Prod.ext_iff]
      simp [hx]
    rw [if_neg hx, filter_eq_self.2]
    intro id _
    exact decide_eq_true fun heq => hx (congrArg Prod.fst heq).symm

theorem foldl_removePhi (phis : List (BlockId × InstId)) (f : MachFunction) :
    (phis.foldl removePhi f).insts = f.insts
      ∧ (phis.foldl removePhi f).blocks.length = f.blocks.length
      ∧ ∀ x, (phis.foldl removePhi f).succs x = f.succs x
        ∧ (phis.foldl removePhi f).preds x = f.preds x
        ∧ (phis.foldl removePhi f).blockInsts x
          = (f.blockInsts x).filter fun id => (x, id) ∉ phis := by
  induction phis generalizing f with
  | nil => exact ⟨rfl, rfl, fun x => ⟨rfl, rfl, by simp⟩⟩
  | cons phi phis ih =>
    obtain ⟨hinsts, hblocks, hfields⟩ := ih (removePhi f phi)
    refine ⟨hinsts, hblocks.trans (length_modify ..), fun x => ?_⟩
    obtain ⟨hsuccs, hpreds, hids⟩ := hfields x
    have hedges := edges_modify (g := removePhi f phi) rfl x
    refine ⟨hsuccs.trans hedges.1, hpreds.trans hedges.2, ?_⟩
    rw [foldl_cons, hids, removePhi_blockInsts, filter_filter]
    refine filter_congr fun id _ => ?_
    simp [Bool.and_comm]

theorem mem_phiInstsToRemove (hssa : f.SsaForm) {id : InstId} : (x, id) ∈ phiInstsToRemove f
    ↔ id ∈ f.blockInsts x ∧ f.isPhiAt id = true := by
  rw [phiInstsToRemove, mem_flatMap]
  refine ⟨?_, ?_⟩
  · rintro ⟨b, hb, hmem⟩
    obtain ⟨id', hid', heq⟩ := mem_map.1 hmem
    cases heq
    obtain ⟨hin, hphi⟩ := mem_filter.1 hid'
    refine ⟨hin, ?_⟩
    unfold MachFunction.isPhiAt
    split at hphi
    · rw [Bool.and_eq_true] at hphi
      exact hphi.1
    · simp at hphi
  rintro ⟨hin, hphi⟩
  have hx : x < f.blocks.length := by
    unfold MachFunction.blockInsts at hin
    split at hin
    · exact (List.getElem?_eq_some_iff.1 ‹_›).1
    · cases hin
  refine ⟨x, (hssa.listed x).2 hx, mem_map.2 ⟨id, mem_filter.2 ⟨hin, ?_⟩, rfl⟩⟩
  unfold MachFunction.isPhiAt at hphi
  split at hphi
  next inst hinst =>
    have hmem : inst ∈ f.phis x := mem_filter.2 ⟨mem_filterMap.2 ⟨id, hin, hinst⟩, hphi⟩
    rw [Bool.and_eq_true]
    exact ⟨hphi, (hssa.phis x hx inst hmem).1⟩
  · simp at hphi

end

/-! ## The whole pass -/

/-- **What elimination makes of a function.**  Every block keeps its instructions but the
phis, with resolved copies before the tail. -/
structure Eliminated (g h : MachFunction) : Prop where
  blocks : h.blocks.length = g.blocks.length
  succs : ∀ b, h.succs b = g.succs b
  preds : ∀ b, h.preds b = g.preds b
  old : ∀ id < g.insts.length, h.insts[id]? = g.insts[id]?
  phiFree : ∀ b, h.phis b = []
  body : ∀ b < g.blocks.length, ∃ ids next, g.nextVreg ≤ next
    ∧ next + (copiesByPred g b).length < 2 ^ 32
    ∧ h.body b = (g.headInsts b).filter (fun id => !g.isPhiAt id) ++ ids
      ++ (g.tailInsts b).filter (fun id => !g.isPhiAt id)
    ∧ (ids.map fun id => h.insts[id]?)
      = (resolveParallelCopies next (copiesByPred g b)).1.map fun copy => some (phiCopyInst copy)

section

variable {g h : MachFunction} {b : BlockId}

theorem isPhi_phiCopyInst (copy : VReg × VReg) : (phiCopyInst copy).isPhi = false := by
  show InstFlags.contains 0 InstFlags.isPhi = false
  decide

section

variable (hphi : ∀ id ∈ h.blockInsts b, h.isPhiAt id = false)
include hphi

theorem phis_eq_nil : h.phis b = [] := by
  rw [MachFunction.phis, filter_eq_nil_iff]
  intro inst hinst hp
  obtain ⟨id, hid, hat⟩ := mem_filterMap.1 hinst
  have := hphi id hid
  rw [isPhiAt_eq, hat, Option.map_some, hp] at this
  simp at this

theorem body_eq_blockInsts : h.body b = h.blockInsts b := by
  rw [MachFunction.body, filter_eq_self]
  intro id hid
  rw [hphi id hid]
  rfl

end

theorem PlacedAt.removed (hssa : g.SsaForm) (hb : b < g.blocks.length) {placed : MachFunction}
    (hat : PlacedAt g placed b ids copies)
    (hold : ∀ id < g.insts.length, placed.insts[id]? = g.insts[id]?)
    (hinsts : h.insts = placed.insts)
    (hids : h.blockInsts b = (placed.blockInsts b).filter fun id => (b, id) ∉ phiInstsToRemove g) :
    (∀ id ∈ h.blockInsts b, h.isPhiAt id = false)
      ∧ h.blockInsts b = (g.headInsts b).filter (fun id => !g.isPhiAt id) ++ ids
        ++ (g.tailInsts b).filter (fun id => !g.isPhiAt id) := by
  have hkept : ∀ l ⊆ g.blockInsts b,
      (l.filter fun id => (b, id) ∉ phiInstsToRemove g) = l.filter fun id => !g.isPhiAt id := by
    intro l hl
    refine filter_congr fun id hid => ?_
    rw [Bool.eq_iff_iff, decide_eq_true_iff, mem_phiInstsToRemove hssa]
    simp [hl hid]
  have hfresh : (ids.filter fun id => (b, id) ∉ phiInstsToRemove g) = ids := by
    refine filter_eq_self.2 fun id hid => decide_eq_true fun hmem => ?_
    have hlt := hssa.ids b hb id ((mem_phiInstsToRemove hssa).1 hmem).1
    exact absurd (hat.fresh id hid) (Nat.not_le.2 hlt)
  have hhead : g.headInsts b ⊆ g.blockInsts b := ( rdropWhile_prefix _ _).subset
  have htail : g.tailInsts b ⊆ g.blockInsts b := (rtakeWhile_suffix _ _).subset
  have hblock : h.blockInsts b = (g.headInsts b).filter (fun id => !g.isPhiAt id) ++ ids
      ++ (g.tailInsts b).filter (fun id => !g.isPhiAt id) := by
    rw [hids, hat.insts, filter_append, filter_append, hfresh, hkept _ hhead, hkept _ htail]
  have hnot : ∀ l ⊆ g.blockInsts b, ∀ id ∈ l.filter (fun id => !g.isPhiAt id),
      h.isPhiAt id = false := by
    intro l hl id hid
    obtain ⟨hin, hnot⟩ := mem_filter.1 hid
    rw [isPhiAt_eq, hinsts, hold id (hssa.ids b hb id (hl hin)), ← isPhiAt_eq]
    simpa using hnot
  refine ⟨fun id hid => ?_, hblock⟩
  rw [hblock, mem_append, mem_append] at hid
  rcases hid with (hid | hid) | hid
  · exact hnot _ hhead id hid
  · have hcopy : placed.insts[id]? ∈ copies.map fun copy => some (phiCopyInst copy) := by
      rw [← hat.copies]
      exact mem_map_of_mem hid
    obtain ⟨copy, -, heq⟩ := mem_map.1 hcopy
    rw [isPhiAt_eq, hinsts, ← heq]
    exact isPhi_phiCopyInst copy
  · exact hnot _ htail id hid

theorem eliminatePhis_eliminated (hready : g.Ready) : Eliminated g (eliminatePhis g) := by
  have hssa := hready.ssa
  have hplaced : Placed g (g.blockOrder ++ List.range g.blocks.length)
      ((g.blockOrder ++ List.range g.blocks.length).foldl placeCopies (g, copiesByPred g)) := by
    refine Loop.foldl_of_split (placed_init g) ?_
    intro done p rest hpreds h
    have hp : p ∈ g.blockOrder ++ List.range g.blocks.length := by simp [hpreds]
    refine placeCopies_placed hready h ?_
    rcases mem_append.1 hp with hp | hp
    · exact (hssa.listed p).1 hp
    · exact mem_range.1 hp
  obtain ⟨hinsts, hblocks, hfields⟩ := foldl_removePhi (phiInstsToRemove g)
    ((g.blockOrder ++ List.range g.blocks.length).foldl placeCopies (g, copiesByPred g)).1
  have hblock : ∀ b < g.blocks.length, _ := fun b hb =>
    hplaced.placed b hb (mem_append_left _ ((hssa.listed b).2 hb))
  refine ⟨hblocks.trans hplaced.blocks, fun b => (hfields b).1.trans (hplaced.succs b),
    fun b => (hfields b).2.1.trans (hplaced.preds b), ?_, ?_, ?_⟩
  · intro id hid
    rw [eliminatePhis, hinsts]
    exact hplaced.old id hid
  · intro b
    by_cases hb : b < g.blocks.length
    · obtain ⟨ids, next, -, -, hat⟩ := hblock b hb
      exact phis_eq_nil (hat.removed hssa hb hplaced.old hinsts (hfields b).2.2).1
    have hnone : (eliminatePhis g).blocks[b]? = none := by
      refine getElem?_eq_none ?_
      rw [eliminatePhis, hblocks, hplaced.blocks]
      exact Nat.le_of_not_lt hb
    rw [MachFunction.phis, MachFunction.blockInsts, hnone]
    rfl
  intro b hb
  obtain ⟨ids, next, hnext, hroom, hat⟩ := hblock b hb
  obtain ⟨hphi, hids⟩ := hat.removed hssa hb hplaced.old hinsts (hfields b).2.2
  refine ⟨ids, next, hnext, hroom, (body_eq_blockInsts hphi).trans hids, ?_⟩
  rw [← hat.copies, eliminatePhis, hinsts]

/-! ## Simulation -/

/-- The two runs are at the same block, in states that agree. -/
def RunsAgree {Val World : Type*} (n : ℕ) :
    Option (BlockId × ExecState Val World) → Option (BlockId × ExecState Val World) → Prop :=
  Option.Rel fun here here' => here'.1 = here.1 ∧ StateAgree n here.2 here'.2

variable {Val World : Type*} {m : Machine Val World} {st st' : ExecState Val World}

theorem MachFunction.Ready.tail_clear (h : g.Ready) (hb : b < g.blocks.length) :
    ∀ id ∈ (g.tailInsts b).filter (fun id => !g.isPhiAt id), ∀ inst ∈ g.insts[id]?,
      ∀ move ∈ copiesByPred g b, inst.Clear move := by
  intro id hid inst hinst move hmove
  obtain ⟨hin, hphi⟩ := mem_filter.1 hid
  obtain ⟨c, hc, k, hpred, hmem, hne⟩ := mem_copiesByPred.1 hmove
  have hone := h.single c ((h.ssa.listed c).1 hc) k b hpred move hmem hne.symm
  refine h.tails b hb c (by rw [hone]; exact mem_singleton_self c) (by rw [hone]; rfl) k
    (List.getElem?_eq_some_iff.1 hpred).1 hpred move hmem hne.symm inst
    (mem_filterMap.2 ⟨id, hin, hinst⟩) ?_
  rw [isPhiAt_eq, Option.mem_def.1 hinst] at hphi
  simpa using hphi

theorem Eliminated.exec_body (he : Eliminated g h) (hready : g.Ready) (hb : b < g.blocks.length)
    (hagree : StateAgree g.nextVreg st st') :
    StateAgree g.nextVreg
      ⟨parCopy (copiesByPred g b) (m.execInsts g (g.body b) st).1.regs,
        (m.execInsts g (g.body b) st).1.world⟩
      (m.execInsts h (h.body b) st').1 := by
  have hssa := hready.ssa
  have hnodup := hready.copiesByPred_nodup b
  have hlt := copiesByPred_lt hssa b
  obtain ⟨ids, next, hnext, hroom, hbody, hcopies⟩ := he.body b hb
  have hsame : ∀ l ⊆ g.blockInsts b, ∀ id ∈ l.filter (fun id => !g.isPhiAt id),
      h.insts[id]? = g.insts[id]? := fun l hl id hid =>
    he.old id (hssa.ids b hb id (hl (mem_of_mem_filter hid)))
  have hold : g.body b = (g.headInsts b).filter (fun id => !g.isPhiAt id)
      ++ (g.tailInsts b).filter (fun id => !g.isPhiAt id) := by
    rw [MachFunction.body, ← headInsts_append_tailInsts, filter_append]
  rw [hold, hbody, execInsts_append, execInsts_append, execInsts_append,
    execInsts_copies _ _ _ hcopies]
  have hhead := hagree.execInsts (m := m) hssa.vregs _
    (hsame (g.headInsts b) ( rdropWhile_prefix _ _).subset)
  refine StateAgree.execInsts_parCopy hssa.vregs hnodup _ _ _
    (hsame (g.tailInsts b) (rtakeWhile_suffix _ _).subset) (hready.tail_clear hb)
    ⟨hhead.world, fun v hv => ?_⟩
  -- the sequence is the parallel copy, and that reads and writes old vregs only
  have hspec := resolveParallelCopies_spec
    ((Nat.add_le_add_left (temporaries_le _ _) _).trans_lt hroom) hnodup
    (fun move hmove => (hlt move hmove).imp hnext.trans_lt' hnext.trans_lt')
    (m.execInsts h ((g.headInsts b).filter fun id => !g.isPhiAt id) st').1.regs v
    (hv.trans_le hnext)
  refine hspec.trans ?_
  refine ParallelCopy.parCopy_congr hnodup hnodup (fun s hs => .inl ⟨s, hs, ?_⟩)
    fun hout => ⟨hout, hhead.regs v hv⟩
  exact hhead.regs s (hlt _ hs).2

/-- **Simulation.**  The result takes the same edge to the same block, with the same values
in the old vregs. -/
theorem Eliminated.edgeStep (he : Eliminated g h) (hready : g.Ready)
    (hagree : StateAgree g.nextVreg st st') (i : ℕ) :
    RunsAgree g.nextVreg (m.edgeStep g (b, st) i) (m.edgeStep h (b, st') i) := by
  rw [Machine.edgeStep, Machine.edgeStep, he.succs b]
  cases hi : (g.succs b)[i]? with
  | none => exact .none
  | some c =>
    have hb := MachFunction.lt_of_mem_succs (mem_of_getElem? hi)
    dsimp only
    rw [enterBlock_of_phis_nil (he.phiFree c), hready.enterBlock_eq hi]
    exact .some ⟨rfl, he.exec_body hready hb hagree⟩

end

end TrustCg.RegAlloc
