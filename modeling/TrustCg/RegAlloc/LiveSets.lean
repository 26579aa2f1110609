import TrustCg.Lib.BitWords
import TrustCg.Lib.Sweep
import TrustCg.RegAlloc.Types

/-!
# Live-in and live-out sets

The backward dataflow of `compute_live_intervals`: packed bitsets over vreg ids,
recomputed for the blocks of the layout order from last to first until a round
changes nothing, with a cap of `2 * blocks + 10` rounds.

Every bit evolves on its own, so the rounds are the sweeps of `TrustCg.Sweep`, one
system for each vreg id (`get_liveRounds`).  After as many rounds as there are blocks
the live-in sets are stable, one round later the live-out sets are, and the next
round ends the loop: the cap is never hit (`liveFixpoint_spec`).
-/

namespace TrustCg.RegAlloc

open Function (update update_of_ne update_self)
open List Bool

namespace MachFunction

variable (f : MachFunction)

variable (id : InstId)

/-- The vregs an instruction of the arena defines; an id out of range has none. -/
def instDefs : List VReg :=
  match f.insts[id]? with
  | some inst => inst.vregDefs
  | none => []

/-- The vregs an instruction of the arena uses; an id out of range has none. -/
def instUses : List VReg :=
  match f.insts[id]? with
  | some inst => inst.vregUses
  | none => []

/-- The instruction defines the vreg id. -/
def Defines (x : ℕ) : Prop := ∃ v ∈ f.instDefs id, v.id = x

/-- The instruction uses the vreg id. -/
def Uses (x : ℕ) : Prop := ∃ v ∈ f.instUses id, v.id = x

instance (x : ℕ) : Decidable (f.Defines id x) :=
  inferInstanceAs (Decidable (∃ v ∈ f.instDefs id, v.id = x))

instance (x : ℕ) : Decidable (f.Uses id x) :=
  inferInstanceAs (Decidable (∃ v ∈ f.instUses id, v.id = x))

/-- The bitset width: `next_vreg`, widened to cover every id that appears. -/
def numVregs : ℕ :=
  f.insts.foldl
    (fun n inst => (inst.vregDefs ++ inst.vregUses).foldl (fun n v => max n (v.id + 1)) n)
    f.nextVreg

end MachFunction

/-! ## The dataflow -/

/-- A set of vreg ids. -/
abbrev LiveSet (k : ℕ) := BitWords k

/-- `LiveSet::insert`; the width covers every id that appears. -/
def LiveSet.insert {k : ℕ} (s : LiveSet k) (x : ℕ) : LiveSet k :=
  if h : x < k then s.set ⟨x, h⟩ else s

/-- `LiveSet::remove`. -/
def LiveSet.erase {k : ℕ} (s : LiveSet k) (x : ℕ) : LiveSet k :=
  if h : x < k then s.remove ⟨x, h⟩ else s

/-- The live-in and live-out sets of all blocks. -/
structure LiveSets (k : ℕ) where
  liveIn : BlockId → LiveSet k
  liveOut : BlockId → LiveSet k

section

variable (f : MachFunction) {k : ℕ}

/-- The local effect of an instruction, backwards: its definitions are removed,
then its uses are added. -/
def transferInst (s : LiveSet k) (id : InstId) : LiveSet k :=
  (f.instUses id).foldl (fun s v => s.insert v.id)
    ((f.instDefs id).foldl (fun s v => LiveSet.erase s v.id) s)

/-- The union of the live-in sets of the successors. -/
def newLiveOut (liveIn : BlockId → LiveSet k) (b : BlockId) : LiveSet k :=
  (f.succs b).foldl (fun acc s => acc.union (liveIn s)) (BitWords.empty k)

/-- The live-in set of a block from its live-out set. -/
def newLiveIn (out : LiveSet k) (b : BlockId) : LiveSet k :=
  (f.blockInsts b).reverse.foldl (transferInst f) out

/-- One block of a round. -/
def liveStep (acc : LiveSets k × Bool) (b : BlockId) : LiveSets k × Bool :=
  let newOut := newLiveOut f acc.1.liveIn b
  let newIn := newLiveIn f newOut b
  if newIn ≠ acc.1.liveIn b ∨ newOut ≠ acc.1.liveOut b then
    (⟨update acc.1.liveIn b newIn, update acc.1.liveOut b newOut⟩, true)
  else acc

/-- One round: the blocks in reverse layout order. -/
def liveRound (sets : LiveSets k) : LiveSets k × Bool :=
  f.blockOrder.reverse.foldl (liveStep f) (sets, false)

/-- The loop, with the number of rounds that are left; the second component tells
that the cap was hit while the sets were still changing. -/
def liveLoop : ℕ → LiveSets k → LiveSets k × Bool
  | 0, sets => (sets, true)
  | rounds + 1, sets =>
    if (liveRound f sets).2 then liveLoop rounds (liveRound f sets).1
    else ((liveRound f sets).1, false)

/-- All sets are empty at first. -/
def emptySets (k : ℕ) : LiveSets k := ⟨fun _ => BitWords.empty k, fun _ => BitWords.empty k⟩

/-- The whole dataflow: `2 * blocks + 10` rounds are allowed. -/
def liveFixpoint : LiveSets f.numVregs × Bool :=
  liveLoop f (f.blocks.length * 2 + 10) (emptySets f.numVregs)

end

/-! ## One bit at a time -/

section

variable {f : MachFunction} {k x : ℕ} {b : BlockId}

theorem get_insert (s : LiveSet k) (hx : x < k) (y : ℕ) :
    (s.insert y).get x = if y = x then true else s.get x := by
  unfold LiveSet.insert
  split
  · rw [BitWords.get_set]
    simp only [eq_comm]
  · rw [if_neg (by omega)]

theorem get_erase (s : LiveSet k) (hx : x < k) (y : ℕ) :
    (LiveSet.erase s y).get x = if y = x then false else s.get x := by
  unfold LiveSet.erase
  split
  · rw [BitWords.get_remove]
    simp only [eq_comm]
  · rw [if_neg (by omega)]

/-- A loop that sets the bits of some vregs to one value. -/
theorem get_foldl {step : LiveSet k → ℕ → LiveSet k} {bit : Bool}
    (hstep : ∀ s y, (step s y).get x = if y = x then bit else s.get x) (vs : List VReg)
    (s : LiveSet k) : (vs.foldl (fun s v => step s v.id) s).get x
      = if ∃ v ∈ vs, v.id = x then bit else s.get x := by
  induction vs generalizing s with
  | nil => simp
  | cons v vs ih =>
    simp only [foldl_cons, ih, hstep, exists_mem_cons_iff]
    by_cases hv : v.id = x <;> simp [hv]

/-- The bit of a vreg id before an instruction, from the bit after it. -/
def bitBefore (f : MachFunction) (x : ℕ) (id : InstId) (after : Bool) : Bool :=
  decide (f.Uses id x) || (!decide (f.Defines id x) && after)

theorem get_transferInst (hx : x < k) (s : LiveSet k) (id : InstId) :
    (transferInst f s id).get x = bitBefore f x id (s.get x) := by
  rw [transferInst, get_foldl fun s => get_insert s hx, get_foldl fun s => get_erase s hx]
  unfold bitBefore MachFunction.Uses MachFunction.Defines
  split_ifs <;> simp only [*] <;> simp

theorem get_newLiveIn (hx : x < k) (out : LiveSet k) (b : BlockId) :
    (newLiveIn f out b).get x = (f.blockInsts b).foldr (bitBefore f x) (out.get x) := by
  rw [newLiveIn, foldl_reverse]
  induction f.blockInsts b with
  | nil => rfl
  | cons id ids ih => rw [foldr_cons, foldr_cons, get_transferInst hx, ih]

theorem get_newLiveOut (liveIn : BlockId → LiveSet k) (b : BlockId) :
    (newLiveOut f liveIn b).get x = (f.succs b).any fun s => (liveIn s).get x := by
  have hfold : ∀ (succs : List BlockId) (acc : LiveSet k),
      (succs.foldl (fun acc s => acc.union (liveIn s)) acc).get x
        = (acc.get x || succs.any fun s => (liveIn s).get x) := by
    intro succs
    induction succs with
    | nil => intro acc; simp
    | cons s succs ih =>
      intro acc
      rw [foldl_cons, ih, BitWords.get_union, any_cons, Bool.or_assoc]
  rw [newLiveOut, hfold, BitWords.get_empty, Bool.false_or]

/-- The equation of one vreg id at one block. -/
def liveBit (f : MachFunction) (x : ℕ) (b : BlockId) (v : BlockId → Bool) : Bool :=
  (f.blockInsts b).foldr (bitBefore f x) ((f.succs b).any v)

theorem bitBefore_mono (id : InstId) {u v : Bool} (h : u ≤ v) :
    bitBefore f x id u ≤ bitBefore f x id v := by
  unfold bitBefore
  cases decide (f.Uses id x) <;> cases decide (f.Defines id x) <;> simp [h]

theorem liveBit_mono (b : BlockId) : Monotone (liveBit f x b) := by
  intro u v h
  have hany : (f.succs b).any u ≤ (f.succs b).any v := by
    cases hu : (f.succs b).any u with
    | false => exact Bool.false_le _
    | true =>
      obtain ⟨s, hs, hus⟩ := any_eq_true.1 hu
      have hvs : v s = true := Bool.eq_true_of_true_le (hus ▸ h s)
      rw [any_eq_true.2 ⟨s, hs, hvs⟩]
  unfold liveBit
  induction f.blockInsts b with
  | nil => exact hany
  | cons id ids ih => exact bitBefore_mono id ih

theorem liveBit_out_of_range (hb : f.blocks.length ≤ b) (v : BlockId → Bool) :
    liveBit f x b v = false := by
  have hnone : f.blocks[b]? = none := getElem?_eq_none hb
  simp [liveBit, MachFunction.blockInsts, MachFunction.succs, hnone]

/-! ## Rounds -/

/-- Both equations of a block hold. -/
def SettledAt (f : MachFunction) (sets : LiveSets k) (b : BlockId) : Prop :=
  sets.liveOut b = newLiveOut f sets.liveIn b ∧ sets.liveIn b = newLiveIn f (sets.liveOut b) b

section

variable (sets : LiveSets k) (changed : Bool) (b : BlockId)

/-- One block of a round: either it is settled and nothing happens, or its sets are
recomputed and the change is noted. -/
theorem liveStep_cases :
    (SettledAt f sets b ∧ liveStep f (sets, changed) b = (sets, changed))
      ∨ (¬ SettledAt f sets b ∧ liveStep f (sets, changed) b
          = (⟨update sets.liveIn b (newLiveIn f (newLiveOut f sets.liveIn b) b),
              update sets.liveOut b (newLiveOut f sets.liveIn b)⟩, true)) := by
  by_cases h : SettledAt f sets b
  · refine .inl ⟨h, if_neg ?_⟩
    simp [← h.1, ← h.2]
  · refine .inr ⟨h, if_pos ?_⟩
    by_contra hno
    obtain ⟨hin, hout⟩ := not_or.1 hno
    have hout := not_ne_iff.1 hout
    exact h ⟨hout.symm, by rw [← hout, not_ne_iff.1 hin]⟩

/-- The sets after a step, whether or not it changed anything. -/
theorem liveStep_sets :
    (liveStep f (sets, changed) b).1
      = ⟨update sets.liveIn b (newLiveIn f (newLiveOut f sets.liveIn b) b),
          update sets.liveOut b (newLiveOut f sets.liveIn b)⟩ := by
  rcases liveStep_cases sets changed b with ⟨hsettled, heq⟩ | ⟨-, heq⟩
  · rw [heq, ← hsettled.1, ← hsettled.2, Function.update_eq_self, Function.update_eq_self]
  · rw [heq]

end

theorem get_foldl_liveStep (hx : x < k) (bs : List BlockId) (sets : LiveSets k) (changed : Bool)
    (b : BlockId) :
    ((bs.foldl (liveStep f) (sets, changed)).1.liveIn b).get x
      = Sweep.sweep (liveBit f x) bs (fun b => (sets.liveIn b).get x) b := by
  induction bs generalizing sets changed b with
  | nil => rfl
  | cons c bs ih =>
    rw [foldl_cons, Sweep.sweep, foldl_cons]
    have hrelax : (fun b => ((liveStep f (sets, changed) c).1.liveIn b).get x)
        = Sweep.relax (liveBit f x) (fun b => (sets.liveIn b).get x) c := by
      funext b
      simp only [liveStep_sets]
      by_cases hbc : b = c
      · subst hbc
        rw [Sweep.relax, update_self, update_self, get_newLiveIn hx, get_newLiveOut]
        rfl
      · rw [Sweep.relax, update_of_ne hbc, update_of_ne hbc]
    rw [← hrelax]
    exact ih _ _ b

/-- The sets after `r` rounds. -/
def liveRounds (f : MachFunction) (k : ℕ) : ℕ → LiveSets k
  | 0 => emptySets k
  | r + 1 => (liveRound f (liveRounds f k r)).1

theorem get_liveRounds (hx : x < k) (r : ℕ) (b : BlockId) :
    ((liveRounds f k r).liveIn b).get x = Sweep.sweeps (liveBit f x) f.blockOrder.reverse r b := by
  induction r generalizing b with
  | zero => rw [liveRounds, emptySets, BitWords.get_empty]; rfl
  | succ r ih =>
    rw [liveRounds, liveRound, get_foldl_liveStep hx, Sweep.sweeps]
    congr 1
    funext b
    exact ih b

/-- After as many rounds as there are blocks the live-in sets satisfy their
equations. -/
theorem liveIn_stable (hb : b ∈ f.blockOrder) :
    newLiveIn f (newLiveOut f (liveRounds f k f.blocks.length).liveIn b) b
      = (liveRounds f k f.blocks.length).liveIn b := by
  refine BitWords.ext_get ?_
  intro x hx
  have hout : ∀ c ∉ Finset.range f.blocks.length, ∀ v, liveBit f x c v = false := by
    intro c hc v
    exact liveBit_out_of_range (by simpa using hc) v
  have hstable := Sweep.sweeps_stable (fun b => liveBit_mono b) f.blockOrder.reverse _ hout
  rw [Finset.card_range] at hstable
  have heq := Sweep.eq_of_sweep_eq (fun b => liveBit_mono b) _ _
    (Sweep.pre_sweeps (fun b => liveBit_mono b) _ _) hstable b (mem_reverse.2 hb)
  rw [get_newLiveIn hx, get_newLiveOut, get_liveRounds hx, ← heq]
  simp only [get_liveRounds hx]
  rfl

/-- A round from stable live-in sets keeps them and computes the live-out sets. -/
theorem foldl_liveStep_of_stable (liveIn : BlockId → LiveSet k) (bs : List BlockId)
    (liveOut : BlockId → LiveSet k) (changed : Bool)
    (hstable : ∀ b ∈ bs, newLiveIn f (newLiveOut f liveIn b) b = liveIn b) :
    (bs.foldl (liveStep f) (⟨liveIn, liveOut⟩, changed)).1.liveIn = liveIn
      ∧ ∀ b, (b ∈ bs ∨ liveOut b = newLiveOut f liveIn b) →
        (bs.foldl (liveStep f) (⟨liveIn, liveOut⟩, changed)).1.liveOut b
          = newLiveOut f liveIn b := by
  induction bs generalizing liveOut changed with
  | nil =>
    refine ⟨rfl, ?_⟩
    rintro b (hb | hb)
    · simp at hb
    · exact hb
  | cons c bs ih =>
    obtain ⟨hc, hbs⟩ := forall_mem_cons.1 hstable
    rw [foldl_cons]
    have hstep : liveStep f (⟨liveIn, liveOut⟩, changed) c
        = (⟨liveIn, update liveOut c (newLiveOut f liveIn c)⟩,
          (liveStep f (⟨liveIn, liveOut⟩, changed) c).2) :=
      Prod.ext (by rw [liveStep_sets, hc, Function.update_eq_self]) rfl
    rw [hstep]
    obtain ⟨h1, h2⟩ := ih (update liveOut c (newLiveOut f liveIn c)) _ hbs
    refine ⟨h1, fun b hb => h2 b ?_⟩
    by_cases hbc : b = c
    · exact .inr (by rw [hbc, update_self])
    · rw [update_of_ne hbc]
      exact hb.imp_left fun hb => (mem_cons.1 hb).resolve_left hbc

/-- A round reports no change exactly when all blocks of the order are settled. -/
theorem foldl_liveStep_unchanged (bs : List BlockId) (sets : LiveSets k) (changed : Bool) :
    ((∀ b ∈ bs, SettledAt f sets b) → bs.foldl (liveStep f) (sets, changed) = (sets, changed))
      ∧ ((bs.foldl (liveStep f) (sets, changed)).2 = false → changed = false
        ∧ ∀ b ∈ bs, SettledAt f sets b) := by
  induction bs generalizing sets changed with
  | nil => exact ⟨fun _ => rfl, fun h => ⟨h, by simp⟩⟩
  | cons c bs ih =>
    rw [foldl_cons]
    rcases liveStep_cases sets changed c with ⟨hsettled, heq⟩ | ⟨hnot, heq⟩
    · rw [heq]
      refine ⟨fun h => (ih sets changed).1 (forall_mem_cons.1 h).2, fun h => ?_⟩
      obtain ⟨h1, h2⟩ := (ih sets changed).2 h
      exact ⟨h1, forall_mem_cons.2 ⟨hsettled, h2⟩⟩
    refine ⟨fun h => absurd (forall_mem_cons.1 h).1 hnot, fun h => ?_⟩
    rw [heq] at h
    exact absurd ((ih _ true).2 h).1 (by decide)

/-- Two rounds after the live-in sets are stable the round reports no change. -/
theorem liveRounds_settled (hb : b ∈ f.blockOrder) :
    SettledAt f (liveRounds f k (f.blocks.length + 1)) b := by
  have hround := foldl_liveStep_of_stable (liveRounds f k f.blocks.length).liveIn
    f.blockOrder.reverse (liveRounds f k f.blocks.length).liveOut false
    (fun c hc => liveIn_stable (mem_reverse.1 hc))
  obtain ⟨hin, hout⟩ := hround
  have hb' := hout b (.inl (mem_reverse.2 hb))
  refine ⟨?_, ?_⟩
  · rw [liveRounds, liveRound]
    exact hb'.trans (by rw [hin])
  rw [liveRounds, liveRound]
  rw [hin, hb']
  exact (liveIn_stable hb).symm

/-- The loop from the state after `r` rounds, with enough rounds left. -/
theorem liveLoop_spec {n : ℕ} (hn : ∀ b ∈ f.blockOrder, SettledAt f (liveRounds f k n) b)
    (left r : ℕ) :
    r ≤ n → n < r + left → ∃ sets, liveLoop f left (liveRounds f k r) = (sets, false)
        ∧ ∀ b ∈ f.blockOrder, SettledAt f sets b := by
  induction left generalizing r with
  | zero => intro h1 h2; omega
  | succ left ih =>
    intro h1 h2
    have hround := foldl_liveStep_unchanged (f := f) f.blockOrder.reverse (liveRounds f k r) false
    rw [liveLoop]
    cases hchanged : (liveRound f (liveRounds f k r)).2 with
    | true =>
      have hlt : r < n := by
        refine lt_of_le_of_ne h1 ?_
        rintro rfl
        have := hround.1 fun b hb => hn b (mem_reverse.1 hb)
        rw [liveRound, this] at hchanged
        cases hchanged
      simp only [if_true]
      exact ih (r + 1) hlt (by omega)
    | false =>
      have hsettled := (hround.2 hchanged).2
      simp only [false_eq_true, if_false]
      refine ⟨_, rfl, ?_⟩
      rw [liveRound, hround.1 hsettled]
      exact fun b hb => hsettled b (mem_reverse.2 hb)

/-- **The dataflow converges before its cap.**  The loop ends with all listed
blocks settled and without having used up its rounds. -/
theorem liveFixpoint_spec (f : MachFunction) :
    (liveFixpoint f).2 = false ∧ ∀ b ∈ f.blockOrder, SettledAt f (liveFixpoint f).1 b := by
  obtain ⟨sets, heq, hsettled⟩ :=
    liveLoop_spec (f := f) (k := f.numVregs) (fun b hb => liveRounds_settled hb)
      (f.blocks.length * 2 + 10) 0 (Nat.zero_le _) (by omega)
  have hfix : liveFixpoint f = (sets, false) := heq
  rw [hfix]
  exact ⟨rfl, hsettled⟩

end

end TrustCg.RegAlloc
