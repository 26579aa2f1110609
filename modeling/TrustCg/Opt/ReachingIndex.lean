import Mathlib.Data.List.TakeWhile
import TrustCg.Lib.SortedMap
import TrustCg.Opt.ReachingDefs

/-!
# The index of a function for reaching-definitions queries

`ReachingCtx` walks a function once and records where each instruction is linked and
at which positions of each block each register is written.

* `indexLoc_eq` : the location of an instruction is the one a scan finds, also for an
  instruction that is linked twice.
* `get?_indexDefs` : the positions of a register are the ascending positions of the
  instructions that write it, each once.
* `getLast?_positionsOf`, `takeWhile_positionsOf` : the last position, and the last one
  below a use, are those of the last definition in the block and before the use.
-/

namespace TrustCg.Opt

open Ir List
open RegAlloc (BlockId InstId)

/-- The indexes of `ReachingCtx`; the memoised product solution is a function of the rest. -/
structure ReachingCtx where
  reachable : List BlockId
  cfgSymmetric : Bool
  loc : InstId → Option (BlockId × ℕ)
  defs : BlockId → Option (SortedMap ℕ (List ℕ))

/-- An instruction linked twice stays where it was met first. -/
def linkInst (bid : BlockId) (loc : InstId → Option (BlockId × ℕ)) (e : InstId × ℕ) :
    InstId → Option (BlockId × ℕ) :=
  if (loc e.1).isSome then loc else Function.update loc e.1 (some (bid, e.2))

variable (f : MachFunction)

/-- Where each instruction is linked. -/
def indexLoc : InstId → Option (BlockId × ℕ) :=
  f.blocks.zipIdx.foldl (fun loc e => e.1.insts.zipIdx.foldl (linkInst e.2) loc) fun _ => none

/-- A position that writes the register; one instruction counts once. -/
def recordDef (pos : ℕ) (perBlock : SortedMap ℕ (List ℕ)) (id : ℕ) : SortedMap ℕ (List ℕ) :=
  if ((perBlock.get? id).getD []).getLast? = some pos then perBlock
  else perBlock.insert id ((perBlock.get? id).getD [] ++ [pos])

/-- The ascending positions of a block that write each register. -/
def indexDefs (insts : List InstId) : SortedMap ℕ (List ℕ) :=
  insts.zipIdx.foldl (fun m e => (idsDefinedAt f e.1).foldl (recordDef e.2) m) SortedMap.empty

/-- The context of a function. -/
def ReachingCtx.new (fuel : ℕ) (f : MachFunction) : Option ReachingCtx :=
  (reachableBlocks fuel f).map fun reachable =>
    { reachable := reachable
      cfgSymmetric := reachableCfgIsSymmetric f reachable
      loc := indexLoc f
      defs := fun b => f.blocks[b]?.map fun block => indexDefs f block.insts }

/-- Where a block defines the number. -/
def ReachingCtx.defPositions (ctx : ReachingCtx) (b : BlockId) (id : ℕ) : Option (List ℕ) :=
  (ctx.defs b).bind fun perBlock => perBlock.get? id

theorem foldl_linkInst (bid : BlockId) (u : InstId) (insts : List InstId) (n : ℕ)
    (loc : InstId → Option (BlockId × ℕ)) :
    (insts.zipIdx n).foldl (linkInst bid) loc u =
      (loc u).or ((insts.findIdx? fun i => i = u).map fun p => (bid, n + p)) := by
  induction insts generalizing n loc with
  | nil => simp
  | cons i insts ih =>
    rw [zipIdx_cons, foldl_cons, ih, findIdx?_cons]
    unfold linkInst
    by_cases hiu : i = u
    · subst hiu
      cases hloc : loc i with
      | some x => simp [hloc]
      | none => simp
    have hkeep : (if (loc i).isSome then loc
        else Function.update loc i (some (bid, n))) u = loc u := by
      split
      · rfl
      · rw [Function.update_of_ne (Ne.symm hiu)]
    rw [hkeep]
    simp only [hiu, decide_false, Bool.false_eq_true, if_false, Option.map_map]
    congr 2
    funext p
    simp only [Function.comp_apply, Prod.mk.injEq, true_and]
    omega

/-- Where the one-shot path finds an instruction: the first position in the first block. -/
def scanLoc (u : InstId) : Option (BlockId × ℕ) :=
  (blockOf f u).bind fun b => ((f.blockInsts b).findIdx? fun i => i = u).map fun p => (b, p)

theorem foldl_blocks (u : InstId) (blocks : List MachBlock) (n : ℕ)
    (loc : InstId → Option (BlockId × ℕ)) :
    (blocks.zipIdx n).foldl (fun loc e => e.1.insts.zipIdx.foldl (linkInst e.2) loc) loc u =
      (loc u).or ((blocks.findIdx? fun block => decide (u ∈ block.insts)).bind fun k =>
        (((blocks[k]?.map MachBlock.insts).getD []).findIdx? fun i => i = u).map
          fun p => (n + k, p)) := by
  induction blocks generalizing n loc with
  | nil => simp
  | cons block blocks ih =>
    rw [zipIdx_cons, foldl_cons, ih, foldl_linkInst, findIdx?_cons]
    by_cases hu : u ∈ block.insts
    · obtain ⟨p, hp⟩ : ∃ p, block.insts.findIdx? (fun i => i = u) = some p := by
        rw [← Option.isSome_iff_exists, findIdx?_isSome, any_eq_true]
        exact ⟨u, hu, by simp⟩
      cases loc u with
      | some x => simp
      | none => simp [hu, hp]
    have hp : block.insts.findIdx? (fun i => i = u) = none := by
      rw [findIdx?_eq_none_iff]
      intro i hi
      simpa using fun h : i = u => hu (h ▸ hi)
    rw [hp, Option.map_none, Option.or_none]
    simp only [hu, decide_false, Bool.false_eq_true, if_false]
    congr 1
    rw [Option.bind_map]
    congr 1
    funext k
    simp only [Function.comp_apply, getElem?_cons_succ]
    congr 1
    funext p
    rw [Nat.add_assoc, Nat.add_comm 1 k]

theorem indexLoc_eq (u : InstId) : indexLoc f u = scanLoc f u := by
  rw [indexLoc, foldl_blocks, Option.none_or, scanLoc, blockOf]
  simp only [Nat.zero_add]
  rfl

/-- The positions at which the register is written. -/
def positionsOf (id : ℕ) (es : List (InstId × ℕ)) : List ℕ :=
  (es.filter fun e => definesId f e.1 id).map Prod.snd

theorem get?_foldl_recordDef (pos id : ℕ) (ids : List ℕ) (m : SortedMap ℕ (List ℕ)) :
    (ids.foldl (recordDef pos) m).get? id =
      if id ∈ ids ∧ ((m.get? id).getD []).getLast? ≠ some pos then
        some ((m.get? id).getD [] ++ [pos])
      else m.get? id := by
  induction ids generalizing m with
  | nil => simp
  | cons x ids ih =>
    rw [foldl_cons, ih]
    unfold recordDef
    by_cases hlast : ((m.get? x).getD []).getLast? = some pos
    · rw [if_pos hlast]
      by_cases hx : id = x
      · subst hx
        simp [hlast]
      · simp [hx]
    rw [if_neg hlast, SortedMap.get?_insert]
    by_cases hx : id = x
    · subst hx
      simp [hlast]
    · simp [hx]

theorem get?_indexDefs (insts : List InstId) (id : ℕ) :
    (indexDefs f insts).get? id = if positionsOf f id insts.zipIdx = [] then none
      else some (positionsOf f id insts.zipIdx) := by
  have hgen : ∀ es : List (InstId × ℕ), es.Pairwise (fun a b => a.2 < b.2) →
      (es.foldl (fun m e => (idsDefinedAt f e.1).foldl (recordDef e.2) m)
        (SortedMap.empty : SortedMap ℕ (List ℕ))).get? id =
      if positionsOf f id es = [] then none else some (positionsOf f id es) := by
    intro es
    induction es using List.reverseRecOn with
    | nil => intro _; rfl
    | append_singleton es e ih =>
      intro hsorted
      obtain ⟨hes, -, hlt⟩ := pairwise_append.1 hsorted
      rw [foldl_append, foldl_cons, foldl_nil, get?_foldl_recordDef, ih hes]
      -- the positions met so far are below the new one
      have hlast : (positionsOf f id es).getLast? ≠ some e.2 := by
        intro h
        obtain ⟨a, ha, hae⟩ := mem_map.1 (mem_of_getLast? h)
        have := hlt a (mem_filter.1 ha).1 e (mem_singleton_self e)
        omega
      have hgetD : (if positionsOf f id es = [] then none else some (positionsOf f id es)).getD []
          = positionsOf f id es := by
        split
        next h => rw [h]; rfl
        · rfl
      rw [hgetD]
      have hpos : positionsOf f id (es ++ [e]) =
          if definesId f e.1 id then positionsOf f id es ++ [e.2] else positionsOf f id es := by
        unfold positionsOf
        rw [filter_append, map_append]
        cases hd : definesId f e.1 id <;> simp [hd]
      rw [hpos]
      by_cases hd : id ∈ idsDefinedAt f e.1
      · rw [if_pos ⟨hd, hlast⟩, if_pos (definesId_iff.2 hd), if_neg (by simp)]
      · rw [if_neg (fun h => hd h.1), if_neg (fun h => hd (definesId_iff.1 h))]
  refine hgen insts.zipIdx ?_
  rw [pairwise_iff_getElem]
  intro i j hi hj hij
  simpa using hij

section

variable (f : MachFunction) (id : ℕ) (insts : List InstId)

theorem getLast?_positionsOf :
    ((positionsOf f id insts.zipIdx).getLast?.bind fun p => insts[p]?) = lastDef f insts id := by
  induction insts using List.reverseRecOn with
  | nil => rfl
  | append_singleton insts i ih =>
    rw [lastDef_append_singleton, ← ih, zipIdx_append]
    unfold positionsOf
    rw [filter_append, map_append]
    cases hd : definesId f i id with
    | true => simp [hd]
    | false =>
      simp only [zipIdx_singleton, filter_cons, hd, Bool.false_eq_true, if_false,
        filter_nil, map_nil, append_nil]
      cases hlast : ((insts.zipIdx.filter fun e => definesId f e.1 id).map Prod.snd).getLast? with
      | none => rfl
      | some p =>
        obtain ⟨e, he, rfl⟩ := mem_map.1 (mem_of_getLast? hlast)
        have hlt := snd_lt_of_mem_zipIdx (mem_filter.1 he).1
        rw [Option.bind_some, Option.bind_some, getElem?_append_left (by simpa using hlt)]

theorem takeWhile_positionsOf (n k : ℕ) :
    (positionsOf f id (insts.zipIdx n)).takeWhile (fun p => p < n + k) =
      positionsOf f id ((insts.take k).zipIdx n) := by
  induction insts generalizing n k with
  | nil => simp [positionsOf]
  | cons i insts ih =>
    cases k with
    | zero =>
      rw [take_zero, zipIdx_nil]
      cases hps : positionsOf f id ((i :: insts).zipIdx n) with
      | nil => rfl
      | cons p ps =>
        have hp : p ∈ positionsOf f id ((i :: insts).zipIdx n) := by rw [hps]; simp
        obtain ⟨e, he, rfl⟩ := mem_map.1 hp
        have hge := le_snd_of_mem_zipIdx (mem_filter.1 he).1
        rw [takeWhile_cons_of_neg (by simpa using hge)]
        rfl
    | succ k =>
      have hstep := ih (n + 1) k
      rw [show n + 1 + k = n + (k + 1) by omega] at hstep
      rw [take_succ_cons, zipIdx_cons, zipIdx_cons]
      unfold positionsOf at hstep ⊢
      cases hd : definesId f i id with
      | true =>
        rw [filter_cons_of_pos (by simpa using hd),
          filter_cons_of_pos (by simpa using hd), map_cons, map_cons,
          takeWhile_cons_of_pos (by simp), hstep]
      | false => rw [filter_cons_of_neg (by simp [hd]), filter_cons_of_neg (by simp [hd]), hstep]

end

end TrustCg.Opt
