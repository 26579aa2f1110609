import TrustCg.Lib.BitWords
import TrustCg.Opt.ReachingIndex

/-!
# Reaching definitions for many queries

With a context, the cross-block answers for all registers come from one fixpoint over
packed bit vectors, with a bit for every generating site, one for each register that
some reachable block writes (its value on function entry) and one shared by all the
others.

* `sweeps_spec` : the product fixpoint ends in the bits that reach each block.
* `build_spec` : its projection to a register is the relation the worklist of that
  register computes.
* `reachingDefsAt` : the query, with or without a context.
* `reachingDefsAt_new` : with the context of the function the query gives the answer it
  gives without one, whatever the graph.
-/

namespace TrustCg.Opt

open Ir List
open RegAlloc (BlockId InstId)
open BitWords (get_empty get_foldl_insert le_iff)

variable {x : ℕ × List ℕ} {i : ℕ} {b : BlockId}

/-! ## The universe of the product -/

/-- A site that generates a definition: the last write of a register in a block. -/
structure GenSite where
  block : BlockId
  id : ℕ
  inst : InstId

/-- The generating sites in the order of their bits: reachable blocks ascending, registers
ascending within a block. -/
def genSites (f : MachFunction) (ctx : ReachingCtx) : List GenSite :=
  (ctx.reachable.insertionSort (· ≤ ·)).flatMap fun b =>
    match ctx.defs b with
    | none => []
    | some perBlock =>
      perBlock.entries.filterMap fun e =>
        (e.2.getLast?.bind fun last => (f.blockInsts b)[last]?).map fun i => ⟨b, e.1, i⟩

/-- Give a site's bit to its register; the bit for the value on entry is filled in later. -/
def addSite (perId : SortedMap ℕ (ℕ × List ℕ)) (e : GenSite × ℕ) : SortedMap ℕ (ℕ × List ℕ) :=
  let old := (perId.get? e.1.id).getD (2 ^ 64 - 1, [])
  perId.insert e.1.id (old.1, old.2 ++ [e.2])

variable (sites : List GenSite)

/-- The site bits of each register. -/
def siteBits : SortedMap ℕ (ℕ × List ℕ) :=
  sites.zipIdx.foldl addSite SortedMap.empty

/-- The bits for values on entry follow the site bits, in the order of the registers. -/
def numberUninit (first : ℕ) (perId : SortedMap ℕ (ℕ × List ℕ)) : SortedMap ℕ (ℕ × List ℕ) :=
  perId.entries.zipIdx.foldl (fun m e => m.modify e.1.1 fun x => (first + e.2, x.2)) perId

/-- For each register its bit for the value on entry and its site bits. -/
def perId : SortedMap ℕ (ℕ × List ℕ) :=
  numberUninit sites.length (siteBits sites)

/-- The bit shared by the registers that no reachable block writes. -/
def sharedUninit : ℕ := sites.length + (siteBits sites).entries.length

/-- The number of bits. -/
def numBits : ℕ := sharedUninit sites + 1

theorem foldl_addSite (id : ℕ) (es : List (GenSite × ℕ)) :
    (((es.foldl addSite .empty).get? id).isSome ↔ ∃ e ∈ es, e.1.id = id)
      ∧ ∀ i, i ∈ (((es.foldl addSite .empty).get? id).getD (2 ^ 64 - 1, [])).2
        ↔ ∃ e ∈ es, e.1.id = id ∧ e.2 = i := by
  induction es using List.reverseRecOn with
  | nil => simp
  | append_singleton es e ih =>
    rw [foldl_append, foldl_cons, foldl_nil, addSite, SortedMap.get?_insert]
    simp only [mem_append, mem_singleton, or_and_right, exists_or, exists_eq_left]
    by_cases hid : id = e.1.id
    · subst hid
      simp only [if_pos, Option.getD_some, mem_append, mem_singleton, ih.2]
      simp [eq_comm]
    · simpa only [if_neg hid, Ne.symm hid, false_and, or_false] using ih

theorem foldl_numberUninit (first : ℕ) (es : List (ℕ × (ℕ × List ℕ))) (n : ℕ)
    (m : SortedMap ℕ (ℕ × List ℕ)) (hsorted : es.Pairwise (fun a b => a.1 < b.1)) :
    (∀ id, (∀ e ∈ es, e.1 ≠ id) → ((es.zipIdx n).foldl
        (fun m e => m.modify e.1.1 fun x => (first + e.2, x.2)) m).get? id = m.get? id) ∧
      (∀ j e, es[j]? = some e → ((es.zipIdx n).foldl
        (fun m e => m.modify e.1.1 fun x => (first + e.2, x.2)) m).get? e.1 =
          (m.get? e.1).map fun x => (first + (n + j), x.2)) := by
  induction es generalizing n m with
  | nil => exact ⟨fun _ _ => rfl, fun j e h => absurd h (by simp)⟩
  | cons a es ih =>
    obtain ⟨ha, hes⟩ := pairwise_cons.1 hsorted
    obtain ⟨hother, hkey⟩ := ih (n + 1) (m.modify a.1 fun x => (first + n, x.2)) hes
    rw [zipIdx_cons, foldl_cons]
    constructor
    · intro id hid
      rw [hother id fun e he => hid e (.tail _ he), SortedMap.get?_modify,
        if_neg (Ne.symm (hid a (.head _)))]
    intro j e he
    cases j with
    | zero =>
      obtain rfl : a = e := by simpa using he
      rw [hother a.1 fun c hc => (ha c hc).ne', SortedMap.get?_modify, if_pos rfl]
      rfl
    | succ j =>
      have hmem : e ∈ es := mem_of_getElem? (by simpa using he)
      rw [hkey j e (by simpa using he), SortedMap.get?_modify, if_neg (ha e hmem).ne',
        show n + 1 + j = n + (j + 1) by omega]

/-- A register's bits: its sites, and the bit of its own that follows all sites. -/
structure BitsOf (sites : List GenSite) (id : ℕ) (x : ℕ × List ℕ) : Prop where
  written : ∃ s ∈ sites, s.id = id
  sites_iff : ∀ i, i ∈ x.2 ↔ ∃ s, sites[i]? = some s ∧ s.id = id
  uninit : ∃ j, ((siteBits sites).entries[j]?.map Prod.fst) = some id ∧ x.1 = sites.length + j

theorem perId_cases (id : ℕ) : ((perId sites).get? id = none ∧ ∀ s ∈ sites, s.id ≠ id) ∨
      ∃ x, (perId sites).get? id = some x ∧ BitsOf sites id x := by
  obtain ⟨hsome, hiff⟩ := foldl_addSite id sites.zipIdx
  change ((siteBits sites).get? id).isSome ↔ _ at hsome
  change ∀ i, i ∈ (((siteBits sites).get? id).getD _).2 ↔ _ at hiff
  obtain ⟨hother, hkey⟩ := foldl_numberUninit sites.length (siteBits sites).entries 0
    (siteBits sites) (siteBits sites).sorted
  cases hget : (siteBits sites).get? id with
  | none =>
    left
    rw [hget] at hsome
    constructor
    · rw [perId, numberUninit, hother id, hget]
      rintro ⟨k, x⟩ he rfl
      rw [SortedMap.mem_entries.1 he] at hget
      simp at hget
    intro s hs heq
    obtain ⟨i, hi⟩ := getElem?_of_mem hs
    cases hsome.2 ⟨(s, i), mk_mem_zipIdx_iff_getElem?.2 hi, heq⟩
  | some x =>
    right
    rw [hget] at hsome hiff
    obtain ⟨e, he, heid⟩ := hsome.1 rfl
    obtain ⟨j, hj⟩ := getElem?_of_mem (SortedMap.mem_entries.2 hget)
    refine ⟨(sites.length + j, x.2), ?_, ?_, ?_, j, by rw [hj]; rfl, rfl⟩
    · have hnum := hkey j (id, x) hj
      rw [hget, Nat.zero_add] at hnum
      exact hnum
    · exact ⟨e.1, fst_mem_of_mem_zipIdx he, heid⟩
    intro i
    refine (hiff i).trans ⟨?_, ?_⟩
    · rintro ⟨c, hc, hcid, rfl⟩
      exact ⟨c.1, mk_mem_zipIdx_iff_getElem?.1 hc, hcid⟩
    rintro ⟨s, hs, hsid⟩
    exact ⟨(s, i), mk_mem_zipIdx_iff_getElem?.2 hs, hsid, rfl⟩

variable {id : ℕ} {sites : List GenSite}

section

theorem bitsOf_of_get? (h : (perId sites).get? id = some x) : BitsOf sites id x := by
  rcases perId_cases sites id with ⟨hnone, -⟩ | ⟨x', hget, hbits⟩
  · cases hnone.symm.trans h
  · cases hget.symm.trans h
    exact hbits

theorem BitsOf.uninit_bounds (h : BitsOf sites id x) :
    sites.length ≤ x.1 ∧ x.1 < sharedUninit sites := by
  obtain ⟨j, hj, hx⟩ := h.uninit
  obtain ⟨e, he, -⟩ := Option.map_eq_some_iff.1 hj
  have hlt := (List.getElem?_eq_some_iff.1 he).1
  rw [sharedUninit]
  omega

theorem BitsOf.site_lt (h : BitsOf sites id x) (hi : i ∈ x.2) : i < sites.length := by
  obtain ⟨s, hs, -⟩ := (h.sites_iff i).1 hi
  exact (List.getElem?_eq_some_iff.1 hs).1

/-- Different registers have different bits for their values on entry. -/
theorem BitsOf.id_eq {id' : ℕ} {x' : ℕ × List ℕ} (h : BitsOf sites id x)
    (h' : BitsOf sites id' x') (hu : x.1 = x'.1) : id = id' := by
  obtain ⟨j, hj, hx⟩ := h.uninit
  obtain ⟨j', hj', hx'⟩ := h'.uninit
  obtain rfl : j = j' := by omega
  rw [hj] at hj'
  exact Option.some.inj hj'

/-! ## The product fixpoint -/

/-- The bits of the sites in a block, with their registers. -/
def blockGens (sites : List GenSite) (b : BlockId) : List (ℕ × ℕ) :=
  (sites.zipIdx.filter fun e => e.1.block = b).map fun e => (e.2, e.1.id)

/-- All bits of a register. -/
def bitsOf (sites : List GenSite) (id : ℕ) : List ℕ :=
  match (perId sites).get? id with
  | some (uninitBit, bits) => uninitBit :: bits
  | none => []

/-- What a block kills: all bits of the registers it writes. -/
def killMask (sites : List GenSite) (b : BlockId) : BitWords (numBits sites) :=
  (blockGens sites b).foldl (fun k g => (bitsOf sites g.2).foldl BitWords.insert k)
    (BitWords.empty _)

/-- What a block generates: the bits of its own sites. -/
def genMask (sites : List GenSite) (b : BlockId) : BitWords (numBits sites) :=
  (blockGens sites b).foldl (fun k g => k.insert g.1) (BitWords.empty _)

/-- The bits that hold on function entry. -/
def seedBits (sites : List GenSite) : List ℕ :=
  (perId sites).entries.map (fun e => e.2.1) ++ [sharedUninit sites]

/-- The entries of the blocks at the start: only the entry block has any bits. -/
def initIn (f : MachFunction) (sites : List GenSite) (b : BlockId) : BitWords (numBits sites) :=
  if b = f.entry then (seedBits sites).foldl BitWords.insert (BitWords.empty _)
  else BitWords.empty _

/-- What the predecessors of a block make of its entry. -/
def mergePreds (f : MachFunction) (reachable : List BlockId) (sites : List GenSite) (b : BlockId)
    (ins : BlockId → BitWords (numBits sites)) : BitWords (numBits sites) :=
  (f.preds b).foldl (fun acc p =>
    if p ∈ reachable then acc.union (((ins p).diff (killMask sites p)).union (genMask sites p))
    else acc) (BitWords.empty _)

/-- The solutions of all ids. -/
structure AllIdsReaching where
  sites : List GenSite
  inSets : BlockId → Option (BitWords (numBits sites))

/-- Solves for all ids at once. -/
def AllIdsReaching.build (fuel : ℕ) (f : MachFunction) (ctx : ReachingCtx) :
    Option AllIdsReaching :=
  let sites := genSites f ctx
  (Loop.run (Saturate.round (mergePreds f ctx.reachable sites)
    (ctx.reachable.insertionSort (· ≤ ·))) fuel (initIn f sites, true)).map fun s =>
      { sites := sites
        inSets := fun b => if b ∈ ctx.reachable then some (s.1 b) else none }

/-- `project`: the sites of one register among the bits of a block's entry. -/
def AllIdsReaching.project (all : AllIdsReaching) (b : BlockId) (id : ℕ) : Finset DefSite :=
  match all.inSets b with
  | none => ∅
  | some inb =>
    match (perId all.sites).get? id with
    | some (uninitBit, bits) =>
      (if inb.get uninitBit then {.uninit} else ∅) ∪
        ((bits.filter fun i => inb.get i).filterMap fun i =>
          all.sites[i]?.map fun s => DefSite.inst s.inst).toFinset
    | none => if inb.get (sharedUninit all.sites) then {.uninit} else ∅

theorem mem_blockGens {g : ℕ × ℕ} :
    g ∈ blockGens sites b ↔ ∃ s, sites[g.1]? = some s ∧ s.block = b ∧ s.id = g.2 := by
  rw [blockGens, mem_map]
  constructor
  · rintro ⟨e, he, rfl⟩
    obtain ⟨hmem, hblock⟩ := mem_filter.1 he
    exact ⟨e.1, mk_mem_zipIdx_iff_getElem?.1 hmem, by simpa using hblock, rfl⟩
  rintro ⟨s, hs, hblock, hid⟩
  refine ⟨(s, g.1), mem_filter.2 ⟨mk_mem_zipIdx_iff_getElem?.2 hs, ?_⟩, ?_⟩
  · simpa using hblock
  · exact Prod.ext rfl hid

theorem exists_of_mem_bitsOf (hi : i ∈ bitsOf sites id) :
    ∃ x, BitsOf sites id x ∧ (i = x.1 ∨ i ∈ x.2) := by
  unfold bitsOf at hi
  cases hget : (perId sites).get? id with
  | none => simp [hget] at hi
  | some x => exact ⟨x, bitsOf_of_get? hget, mem_cons.1 (by rwa [hget] at hi)⟩

/-- The shared bit belongs to no register. -/
theorem bitsOf_lt (hi : i ∈ bitsOf sites id) : i < sharedUninit sites := by
  obtain ⟨x, hbits, hi⟩ := exists_of_mem_bitsOf hi
  have hu := hbits.uninit_bounds
  rcases hi with rfl | hi
  · exact hu.2
  · exact (hbits.site_lt hi).trans (by omega)

theorem get_killMask :
    (killMask sites b).get i = true ↔ ∃ s ∈ sites, s.block = b ∧ i ∈ bitsOf sites s.id := by
  rw [killMask, ← foldl_flatMap, get_foldl_insert]
  · rw [get_empty, mem_flatMap]
    constructor
    · rintro (⟨g, hg, hi⟩ | h)
      · obtain ⟨s, hs, hblock, hid⟩ := mem_blockGens.1 hg
        exact ⟨s, mem_of_getElem? hs, hblock, hid ▸ hi⟩
      · cases h
    rintro ⟨s, hs, hblock, hi⟩
    obtain ⟨j, hj⟩ := getElem?_of_mem hs
    exact .inl ⟨(j, s.id), mem_blockGens.2 ⟨s, hj, hblock, rfl⟩, hi⟩
  intro j hj
  obtain ⟨g, -, hg⟩ := mem_flatMap.1 hj
  exact (bitsOf_lt hg).trans (Nat.lt_succ_self _)

theorem get_genMask : (genMask sites b).get i = true ↔ ∃ s, sites[i]? = some s ∧ s.block = b := by
  rw [genMask, ← foldl_map (f := Prod.fst) (g := BitWords.insert), get_foldl_insert]
  · rw [get_empty, mem_map]
    constructor
    · rintro (⟨g, hg, rfl⟩ | h)
      · obtain ⟨s, hs, hblock, -⟩ := mem_blockGens.1 hg
        exact ⟨s, hs, hblock⟩
      · cases h
    rintro ⟨s, hs, hblock⟩
    exact .inl ⟨(i, s.id), mem_blockGens.2 ⟨s, hs, hblock, rfl⟩, rfl⟩
  intro j hj
  obtain ⟨g, hg, rfl⟩ := mem_map.1 hj
  obtain ⟨s, hs, -⟩ := mem_blockGens.1 hg
  have hlt := (List.getElem?_eq_some_iff.1 hs).1
  rw [numBits, sharedUninit]
  omega

theorem mem_seedBits : i ∈ seedBits sites ↔
      (∃ id x, (perId sites).get? id = some x ∧ x.1 = i) ∨ i = sharedUninit sites := by
  rw [seedBits, mem_append, mem_map, mem_singleton]
  refine or_congr ?_ Iff.rfl
  constructor
  · rintro ⟨⟨id, x⟩, he, rfl⟩
    exact ⟨id, x, SortedMap.mem_entries.1 he, rfl⟩
  rintro ⟨id, x, hget, rfl⟩
  exact ⟨(id, x), SortedMap.mem_entries.2 hget, rfl⟩

/-- No site bit holds on entry. -/
theorem seedBits_bounds (hi : i ∈ seedBits sites) : sites.length ≤ i ∧ i < numBits sites := by
  rw [numBits]
  rcases mem_seedBits.1 hi with ⟨id, x, hget, rfl⟩ | rfl
  · have := (bitsOf_of_get? hget).uninit_bounds
    omega
  · rw [sharedUninit]
    omega

end

variable {f : MachFunction}

theorem get_initIn : (initIn f sites b).get i = true ↔ b = f.entry ∧ i ∈ seedBits sites := by
  unfold initIn
  split
  next hb =>
    rw [get_foldl_insert _ _ fun j hj => (seedBits_bounds hj).2, get_empty]
    simp [hb]
  next hb => simp [hb]

variable {reachable : List BlockId}

theorem get_mergePreds {ins : BlockId → BitWords (numBits sites)} :
    (mergePreds f reachable sites b ins).get i = true ↔ ∃ p, FlowEdge f reachable p b ∧
        ((genMask sites p).get i = true ∨
          (ins p).get i = true ∧ ¬ (killMask sites p).get i = true) := by
  have hfold : ∀ (ps : List BlockId) (acc : BitWords (numBits sites)),
      (ps.foldl (fun acc p => if p ∈ reachable then
          acc.union (((ins p).diff (killMask sites p)).union (genMask sites p)) else acc)
        acc).get i = true ↔
      acc.get i = true ∨ ∃ p ∈ ps, p ∈ reachable ∧ ((genMask sites p).get i = true ∨
        (ins p).get i = true ∧ ¬ (killMask sites p).get i = true) := by
    refine Loop.foldl_iff_or (P := fun acc : BitWords _ => acc.get i = true) fun acc p => ?_
    split
    next hp =>
      simp only [BitWords.get_union, BitWords.get_diff, Bool.or_eq_true, Bool.and_eq_true,
        Bool.not_eq_true', hp, true_and, Bool.not_eq_true]
      exact or_congr Iff.rfl or_comm
    next hp => simp [hp]
  rw [mergePreds, hfold, get_empty]
  constructor
  · rintro (h | ⟨p, hp, hr, h⟩)
    · cases h
    · exact ⟨p, ⟨hp, hr⟩, h⟩
  rintro ⟨p, ⟨hp, hr⟩, h⟩
  exact .inr ⟨p, hp, hr, h⟩

theorem mergePreds_mono (f : MachFunction) (reachable : List BlockId) (sites : List GenSite)
    (b : BlockId) : Monotone (mergePreds f reachable sites b) := by
  intro ins ins' hle
  rw [le_iff]
  intro i hi
  obtain ⟨p, hp, h⟩ := get_mergePreds.1 hi
  refine get_mergePreds.2 ⟨p, hp, h.imp_right ?_⟩
  rintro ⟨h, hk⟩
  exact ⟨BitWords.le_iff.1 (hle p) i h, hk⟩

/-- The bit holds on some path on entry to the block. -/
def BitReaches (f : MachFunction) (reachable : List BlockId) (sites : List GenSite) :
    BlockId → ℕ → Prop :=
  GenKill.Flows (FlowEdge f reachable)
    (fun b i => b = f.entry ∧ i ∈ seedBits sites)
    (fun a i => (genMask sites a).get i = true)
    (fun a i => (killMask sites a).get i = true)

theorem BitReaches.lt (h : BitReaches f reachable sites b i) : i < numBits sites := by
  induction h with
  | seed h => exact (seedBits_bounds h.2).2
  | gen _ h =>
    by_contra hi
    rw [BitWords.get_of_ge _ (not_lt.1 hi)] at h
    cases h
  | pass _ _ _ ih => exact ih

/-- The sweeps end, and a bit of a reachable block's entry is set when it reaches there. -/
theorem sweeps_spec (f : MachFunction) (reachable : List BlockId) (sites : List GenSite) :
    ∃ bound ins, (∀ fuel, bound ≤ fuel → Loop.run (Saturate.round (mergePreds f reachable sites)
          (reachable.insertionSort (· ≤ ·))) fuel (initIn f sites, true) = some (ins, false))
      ∧ ∀ b ∈ reachable, ∀ i, (ins b).get i = true ↔ BitReaches f reachable sites b i := by
  classical
  have hmem : ∀ b, b ∈ reachable.insertionSort (· ≤ ·) ↔ b ∈ reachable :=
    fun b => (perm_insertionSort _ reachable).mem_iff
  obtain ⟨bound, ins, hrun, hstart, hsol, hleast⟩ := Saturate.saturate_spec
    (mergePreds_mono f reachable sites) BitWords.card_strictMono BitWords.card_le
    (reachable.insertionSort (· ≤ ·)) (initIn f sites)
  refine ⟨bound, ins, hrun, ?_⟩
  -- the relation, packed, is a solution
  let packed : BlockId → BitWords (numBits sites) := fun b =>
    ((List.range (numBits sites)).filter fun i => BitReaches f reachable sites b i).foldl
      BitWords.insert (BitWords.empty _)
  have hpacked : ∀ b i, (packed b).get i = true ↔ BitReaches f reachable sites b i := by
    intro b i
    rw [get_foldl_insert]
    · rw [get_empty, mem_filter, mem_range, decide_eq_true_eq]
      exact ⟨fun h => (h.resolve_right Bool.false_ne_true).2, fun h => .inl ⟨h.lt, h⟩⟩
    intro j hj
    exact mem_range.1 (mem_filter.1 hj).1
  have hbelow : ins ≤ packed := by
    refine hleast packed ?_ ?_
    · intro b
      rw [le_iff]
      intro i hi
      exact (hpacked b i).2 (.seed (get_initIn.1 hi))
    intro b _
    rw [le_iff]
    intro i hi
    obtain ⟨p, hp, h⟩ := get_mergePreds.1 hi
    rcases h with h | ⟨h, hk⟩
    · exact (hpacked b i).2 (.gen hp h)
    · exact (hpacked b i).2 (.pass hp ((hpacked p i).1 h) hk)
  intro b hb i
  refine Iff.symm (GenKill.flows_iff_of_solution (· ∈ reachable)
    (fun b i => (ins b).get i = true) (fun a b hab => hab.2) ?_ ?_ hb)
  · rintro b i hb (h | ⟨a, hab, h⟩)
    · exact BitWords.le_iff.1 (hstart b) i (get_initIn.2 h)
    · exact BitWords.le_iff.1 (hsol b ((hmem b).2 hb)) i (get_mergePreds.2 ⟨a, hab, h⟩)
  intro b i _ h
  exact (hpacked b i).1 (BitWords.le_iff.1 (hbelow b) i h)

/-! ## The projection to one register -/

/-- The sites of the universe are the last definitions in the reachable blocks. -/
def SitesOf (f : MachFunction) (reachable : List BlockId) (sites : List GenSite) : Prop :=
  ∀ s, s ∈ sites ↔ s.block ∈ reachable ∧ lastDef f (f.blockInsts s.block) s.id = some s.inst

variable {ctx : ReachingCtx}

theorem blockInsts_of_some {block : MachBlock} (hb : f.blocks[b]? = some block) :
    f.blockInsts b = block.insts := by
  rw [MachFunction.blockInsts, hb]
  rfl

theorem sitesOf_genSites
    (hdefs : ctx.defs = fun b => f.blocks[b]?.map fun block => indexDefs f block.insts) :
    SitesOf f ctx.reachable (genSites f ctx) := by
  rintro ⟨b, id, d⟩
  rw [genSites, mem_flatMap]
  have hsorted : ∀ c, c ∈ ctx.reachable.insertionSort (· ≤ ·) ↔ c ∈ ctx.reachable :=
    fun c => (perm_insertionSort _ ctx.reachable).mem_iff
  have hget : ∀ block, f.blocks[b]? = some block → ((indexDefs f block.insts).get? id).bind
      (fun ps => ps.getLast?.bind fun last => (f.blockInsts b)[last]?)
        = lastDef f (f.blockInsts b) id := by
    intro block hb
    rw [blockInsts_of_some hb, ← getLast?_positionsOf f id block.insts, get?_indexDefs]
    split
    next hnil => rw [hnil]; rfl
    · rfl
  constructor
  · rintro ⟨c, hc, hs⟩
    rw [hdefs] at hs
    cases hb : f.blocks[c]? with
    | none => simp [hb] at hs
    | some block =>
      simp only [hb, Option.map_some] at hs
      obtain ⟨⟨id', ps⟩, he, hopt⟩ := mem_filterMap.1 hs
      obtain ⟨i, hi, heq⟩ := Option.map_eq_some_iff.1 hopt
      obtain ⟨rfl, rfl, rfl⟩ : c = b ∧ id' = id ∧ i = d := by simpa using heq
      refine ⟨(hsorted c).1 hc, ?_⟩
      rw [← hget block hb, SortedMap.mem_entries.1 he]
      exact hi
  rintro ⟨hb, hd⟩
  refine ⟨b, (hsorted b).2 hb, ?_⟩
  rw [hdefs]
  cases hblock : f.blocks[b]? with
  | none =>
    rw [MachFunction.blockInsts, hblock] at hd
    simp [lastDef] at hd
  | some block =>
    obtain ⟨ps, hps, hlast⟩ := Option.bind_eq_some_iff.1 ((hget block hblock).trans hd)
    simp only [hblock, Option.map_some]
    refine mem_filterMap.2 ⟨_, SortedMap.mem_entries.2 hps, ?_⟩
    rw [hlast]
    rfl

section Project

theorem killMask_iff (hsites : SitesOf f reachable sites) {a : BlockId} (ha : a ∈ reachable)
    : (killMask sites a).get i = true ↔
      ∃ id, (lastDef f (f.blockInsts a) id).isSome = true ∧ i ∈ bitsOf sites id := by
  rw [get_killMask]
  constructor
  · rintro ⟨s, hs, rfl, hi⟩
    exact ⟨s.id, by rw [((hsites s).1 hs).2]; rfl, hi⟩
  rintro ⟨id, hd, hi⟩
  obtain ⟨d, hd⟩ := Option.isSome_iff_exists.1 hd
  exact ⟨⟨a, id, d⟩, (hsites _).2 ⟨ha, hd⟩, rfl, hi⟩

theorem id_of_mem_bitsOf {id' : ℕ} (hbits : BitsOf sites id x) (hi : i = x.1 ∨ i ∈ x.2)
    (hi' : i ∈ bitsOf sites id') : id' = id := by
  obtain ⟨x', hbits', hi'⟩ := exists_of_mem_bitsOf hi'
  have hu := hbits.uninit_bounds
  have hu' := hbits'.uninit_bounds
  rcases hi with rfl | hi
  · rcases hi' with h | h
    · exact hbits'.id_eq hbits h.symm
    · exact absurd (hbits'.site_lt h) (by omega)
  rcases hi' with rfl | h
  · exact absurd (hbits.site_lt hi) (by omega)
  obtain ⟨s, hs, hid⟩ := (hbits.sites_iff i).1 hi
  obtain ⟨s', hs', hid'⟩ := (hbits'.sites_iff i).1 h
  rw [hs] at hs'
  rw [← hid, ← hid', Option.some.inj hs']

/-- The site a bit of the register stands for. -/
def siteName (sites : List GenSite) (uninitBit i : ℕ) : DefSite :=
  if i = uninitBit then .uninit else ((sites[i]?.map fun s => DefSite.inst s.inst).getD .uninit)

theorem siteName_of_site (hbits : BitsOf sites id x) {s : GenSite} (hs : sites[i]? = some s) :
    siteName sites x.1 i = .inst s.inst := by
  have hlt := (List.getElem?_eq_some_iff.1 hs).1
  have hu := hbits.uninit_bounds
  rw [siteName, if_neg (by omega), hs]
  rfl

variable {s : DefSite}

/-- **A register that some reachable block writes**: its sites that reach a block are named by
its bits that do. -/
theorem siteReaches_iff_bit (hsites : SitesOf f reachable sites)
    (hget : (perId sites).get? id = some x) (hbits : BitsOf sites id x) :
    SiteReaches f reachable id b s ↔
      ∃ i, (i = x.1 ∨ i ∈ x.2) ∧ siteName sites x.1 i = s ∧ BitReaches f reachable sites b i := by
  refine GenKill.flows_iff_of_cover (siteName sites x.1) ?_ ?_ ?_
  · intro b s
    constructor
    · rintro ⟨hb, rfl⟩
      exact ⟨x.1, .inl rfl, if_pos rfl, hb, mem_seedBits.2 (.inl ⟨id, x, hget, rfl⟩)⟩
    rintro ⟨i, hi, rfl, hb, hseed⟩
    refine ⟨hb, ?_⟩
    rcases hi with rfl | hi
    · exact if_pos rfl
    · exact absurd (seedBits_bounds hseed).1 (not_le.2 (hbits.site_lt hi))
  · intro a b s hab
    constructor
    · rintro ⟨d, hd, rfl⟩
      obtain ⟨i, hi⟩ := getElem?_of_mem ((hsites ⟨a, id, d⟩).2 ⟨hab.2, hd⟩)
      exact ⟨i, .inr ((hbits.sites_iff i).2 ⟨_, hi, rfl⟩), siteName_of_site hbits hi,
        get_genMask.2 ⟨_, hi, rfl⟩⟩
    rintro ⟨i, hi, rfl, hgen⟩
    obtain ⟨s, hs, rfl⟩ := get_genMask.1 hgen
    have hlt := (List.getElem?_eq_some_iff.1 hs).1
    have hu := hbits.uninit_bounds
    have hid : s.id = id := by
      rcases hi with rfl | hi
      · omega
      obtain ⟨s', hs', hid⟩ := (hbits.sites_iff i).1 hi
      cases hs.symm.trans hs'
      exact hid
    refine ⟨s.inst, ?_, siteName_of_site hbits hs⟩
    rw [← hid]
    exact ((hsites s).1 (mem_of_getElem? hs)).2
  · intro a b i hab hi
    rw [killMask_iff hsites hab.2]
    constructor
    · intro hd
      refine ⟨id, hd, ?_⟩
      rw [bitsOf, hget]
      exact mem_cons.2 hi
    rintro ⟨id', hd, hi'⟩
    rw [← id_of_mem_bitsOf hbits hi hi']
    exact hd

/-- **A register that no reachable block writes** shares its bit with all the others. -/
theorem siteReaches_iff_shared (hsites : SitesOf f reachable sites)
    (hnone : ∀ s ∈ sites, s.id ≠ id) :
    SiteReaches f reachable id b s ↔
      ∃ i, i = sharedUninit sites ∧ DefSite.uninit = s ∧ BitReaches f reachable sites b i := by
  have hlast : ∀ a ∈ reachable, lastDef f (f.blockInsts a) id = none := by
    intro a ha
    cases hd : lastDef f (f.blockInsts a) id with
    | none => rfl
    | some d => exact absurd rfl (hnone ⟨a, id, d⟩ ((hsites _).2 ⟨ha, hd⟩))
  refine GenKill.flows_iff_of_cover (fun _ => DefSite.uninit) ?_ ?_ ?_
  · intro b s
    constructor
    · rintro ⟨hb, rfl⟩
      exact ⟨_, rfl, rfl, hb, mem_seedBits.2 (.inr rfl)⟩
    rintro ⟨i, rfl, rfl, hb, -⟩
    exact ⟨hb, rfl⟩
  · intro a b s hab
    constructor
    · rintro ⟨d, hd, -⟩
      rw [hlast a hab.2] at hd
      simp at hd
    rintro ⟨i, rfl, rfl, hgen⟩
    obtain ⟨s, hs, -⟩ := get_genMask.1 hgen
    have hlt := (List.getElem?_eq_some_iff.1 hs).1
    rw [sharedUninit] at hlt
    omega
  rintro a b i hab rfl
  rw [killMask_iff hsites hab.2, hlast a hab.2]
  constructor
  · intro h
    cases h
  rintro ⟨id', -, hi⟩
  exact absurd (bitsOf_lt hi) (lt_irrefl _)

end Project

/-- **The product solution, projected, is the solution of the register.** -/
theorem build_spec (f : MachFunction) (ctx : ReachingCtx)
    (hdefs : ctx.defs = fun b => f.blocks[b]?.map fun block => indexDefs f block.insts) :
    ∃ bound all, (∀ fuel, bound ≤ fuel → AllIdsReaching.build fuel f ctx = some all)
      ∧ ∀ b ∈ ctx.reachable, ∀ id s, s ∈ all.project b id ↔ SiteReaches f ctx.reachable id b s := by
  have hsites := sitesOf_genSites hdefs
  obtain ⟨bound, ins, hrun, hins⟩ := sweeps_spec f ctx.reachable (genSites f ctx)
  refine ⟨bound, ⟨genSites f ctx, fun b => if b ∈ ctx.reachable then some (ins b) else none⟩,
    ?_, ?_⟩
  · intro fuel hfuel
    simp only [AllIdsReaching.build, hrun fuel hfuel]
    rfl
  intro b hb id s
  unfold AllIdsReaching.project
  simp only [if_pos hb]
  rcases perId_cases (genSites f ctx) id with ⟨hget, hnone⟩ | ⟨x, hget, hbits⟩
  · rw [hget, siteReaches_iff_shared hsites hnone]
    simp only [exists_eq_left, ← hins b hb]
    by_cases h : (ins b).get (sharedUninit (genSites f ctx)) = true
    · simp [h, eq_comm]
    · simp [h]
  rw [hget, siteReaches_iff_bit hsites hget hbits]
  obtain ⟨uninitBit, bits⟩ := x
  simp only [← hins b hb, Finset.mem_union, mem_toFinset, mem_filterMap, mem_filter]
  constructor
  · rintro (h | ⟨i, ⟨hi, hset⟩, hname⟩)
    · split at h
      next hset =>
        exact ⟨uninitBit, .inl rfl, (if_pos rfl).trans (Finset.mem_singleton.1 h).symm, hset⟩
      · simp at h
    obtain ⟨g, hg, rfl⟩ := Option.map_eq_some_iff.1 hname
    exact ⟨i, .inr hi, siteName_of_site hbits hg, hset⟩
  rintro ⟨i, hi, hname, hset⟩
  rcases hi with rfl | hi
  · left
    rw [if_pos hset, Finset.mem_singleton, ← hname]
    exact if_pos rfl
  right
  obtain ⟨g, hg, hgid⟩ := (hbits.sites_iff i).1 hi
  refine ⟨i, ⟨hi, hset⟩, ?_⟩
  rw [hg, ← hname, siteName_of_site hbits hg]
  rfl

/-! ## The query -/

/-- Where the query finds the instruction. -/
def useLocation (f : MachFunction) (ctx : Option ReachingCtx) (u : InstId) : Option (BlockId × ℕ) :=
  match ctx with
  | some ctx => ctx.loc u
  | none => scanLoc f u

/-- The reachable blocks, from the context or by a search. -/
def reachableOf (fuel : ℕ) (f : MachFunction) (ctx : Option ReachingCtx) : Option (List BlockId) :=
  match ctx with
  | some ctx => some ctx.reachable
  | none => reachableBlocks fuel f

/-- The last definition before the use in its own block: below the partition point of the indexed
positions, or by scanning backwards. -/
def inBlockDef (f : MachFunction) (ctx : Option ReachingCtx) (b : BlockId) (pos id : ℕ) :
    Option InstId :=
  match ctx with
  | some ctx =>
    (ctx.defPositions b id).bind fun positions =>
      (positions.takeWhile fun p => p < pos).getLast?.bind fun p => (f.blockInsts b)[p]?
  | none => lastDef f ((f.blockInsts b).take pos) id

/-- Whether the two edge lists agree. -/
def symmetricOf (f : MachFunction) (ctx : Option ReachingCtx) (reachable : List BlockId) : Bool :=
  match ctx with
  | some ctx => ctx.cfgSymmetric
  | none => reachableCfgIsSymmetric f reachable

/-- The sites on entry to the block: the projected product, or the worklist of the register. -/
def crossBlock (fuel : ℕ) (f : MachFunction) (ctx : Option ReachingCtx) (reachable : List BlockId)
    (b : BlockId) (id : ℕ) : Option (Finset DefSite) :=
  match ctx with
  | some ctx => (AllIdsReaching.build fuel f ctx).map fun all => all.project b id
  | none =>
    (computeOut fuel f reachable id).map fun out => assembleIn f reachable (Saturate.value out) b

/-- `reaching_defs_at`.  The outer `none` is a loop cut off, the inner one the answer of the
source when the instruction is not in a reachable block or the edge lists disagree. -/
def reachingDefsAt (fuel : ℕ) (f : MachFunction) (ctx : Option ReachingCtx) (u : InstId) (id : ℕ) :
    Option (Option (Finset DefSite)) :=
  match useLocation f ctx u with
  | none => some none
  | some (useBlock, usePos) =>
    (reachableOf fuel f ctx).bind fun reachable =>
      if useBlock ∈ reachable then
        match inBlockDef f ctx useBlock usePos id with
        | some d => some (some {.inst d})
        | none =>
          if symmetricOf f ctx reachable then
            (crossBlock fuel f ctx reachable useBlock id).map some
          else some none
      else some none

/-- The answer of a query, given the reachable blocks and the sites on entry to each. -/
def answerOf (f : MachFunction) (reachable : List BlockId) (sites : BlockId → Finset DefSite)
    (u : InstId) (id : ℕ) : Option (Finset DefSite) :=
  (scanLoc f u).bind fun loc =>
    if loc.1 ∈ reachable then
      match lastDef f ((f.blockInsts loc.1).take loc.2) id with
      | some d => some {.inst d}
      | none => if reachableCfgIsSymmetric f reachable then some (sites loc.1) else none
    else none

theorem reachingDefsAt_eq_answerOf {fuel : ℕ} {ctx : Option ReachingCtx} {u : InstId}
    {sites : BlockId → Finset DefSite} (hloc : useLocation f ctx u = scanLoc f u)
    (hreach : reachableOf fuel f ctx = some reachable)
    (hin : ∀ b pos, inBlockDef f ctx b pos id = lastDef f ((f.blockInsts b).take pos) id)
    (hsym : symmetricOf f ctx reachable = reachableCfgIsSymmetric f reachable)
    (hcross : ∀ b ∈ reachable, crossBlock fuel f ctx reachable b id = some (sites b)) :
    reachingDefsAt fuel f ctx u id = some (answerOf f reachable sites u id) := by
  rw [reachingDefsAt, answerOf, hloc]
  cases scanLoc f u with
  | none => rfl
  | some loc =>
    simp only [hreach, Option.bind_some, hin, hsym]
    by_cases hb : loc.1 ∈ reachable
    · rw [if_pos hb, if_pos hb, hcross loc.1 hb]
      cases lastDef f ((f.blockInsts loc.1).take loc.2) id with
      | some d => rfl
      | none => cases reachableCfgIsSymmetric f reachable <;> rfl
    · rw [if_neg hb, if_neg hb]

theorem inBlockDef_new
    (hdefs : ctx.defs = fun b => f.blocks[b]?.map fun block => indexDefs f block.insts)
    (b : BlockId) (pos id : ℕ) :
    inBlockDef f (some ctx) b pos id = lastDef f ((f.blockInsts b).take pos) id := by
  simp only [inBlockDef, ReachingCtx.defPositions, hdefs]
  cases hb : f.blocks[b]? with
  | none =>
    rw [MachFunction.blockInsts, hb]
    simp [lastDef]
  | some block =>
    have htake : (positionsOf f id block.insts.zipIdx).takeWhile (fun p => p < pos) =
        positionsOf f id (block.insts.take pos).zipIdx := by
      have h := takeWhile_positionsOf f id block.insts 0 pos
      rwa [Nat.zero_add] at h
    have hlast := getLast?_positionsOf f id (block.insts.take pos)
    simp only [Option.map_some, Option.bind_some, get?_indexDefs, blockInsts_of_some hb]
    rw [← hlast, ← htake]
    split
    next hnil =>
      rw [hnil]
      rfl
    rw [Option.bind_some]
    -- a position below `pos` is in the part that was taken
    cases hp : ((positionsOf f id block.insts.zipIdx).takeWhile fun p => p < pos).getLast? with
    | none => rfl
    | some p =>
      have hlt : p < pos := by simpa using mem_takeWhile_imp (mem_of_getLast? hp)
      rw [Option.bind_some, Option.bind_some, getElem?_take_of_lt hlt]

/-- The one-shot query, from some bound on, in terms of the relation. -/
theorem reachingDefsAt_none (f : MachFunction) (id : ℕ) :
    ∃ bound reachable sites, (∀ b, b ∈ reachable ↔ f.Reachable b)
      ∧ (∀ b ∈ reachable, ∀ s, s ∈ sites b ↔ SiteReaches f reachable id b s)
      ∧ ∀ fuel, bound ≤ fuel → ∀ u,
        reachingDefsAt fuel f none u id = some (answerOf f reachable sites u id) := by
  obtain ⟨b1, reachable, hreach, hmem⟩ := reachableBlocks_spec f
  obtain ⟨b2, out, hout, hsites⟩ := computeOut_spec f reachable id
  refine ⟨max b1 b2, reachable, _, hmem, hsites, fun fuel hfuel u => ?_⟩
  refine reachingDefsAt_eq_answerOf rfl (hreach fuel (by omega)) (fun _ _ => rfl) rfl ?_
  intro b _
  rw [crossBlock, hout fuel (by omega)]
  rfl

/-- **One answer.**  From some bound on the loops end, and a query through the context of the
function returns what the one-shot query returns: for every function, instruction and register,
also where the graph is irreducible, enters the entry block again, or has edge lists that do not
agree. -/
theorem reachingDefsAt_new (f : MachFunction) (u : InstId) (id : ℕ) :
    ∃ bound answer, ∀ fuel, bound ≤ fuel → ∃ ctx, ReachingCtx.new fuel f = some ctx
        ∧ reachingDefsAt fuel f (some ctx) u id = some answer
        ∧ reachingDefsAt fuel f none u id = some answer := by
  obtain ⟨b₁, reachable, hreach, -⟩ := reachableBlocks_spec f
  obtain ⟨b₂, out, hout, hone⟩ := computeOut_spec f reachable id
  let ctx : ReachingCtx :=
    { reachable := reachable
      cfgSymmetric := reachableCfgIsSymmetric f reachable
      loc := indexLoc f
      defs := fun b => f.blocks[b]?.map fun block => indexDefs f block.insts }
  obtain ⟨b₃, all, hall, hproj⟩ := build_spec f ctx rfl
  refine ⟨max b₁ (max b₂ b₃), answerOf f reachable (fun b => all.project b id) u id,
    fun fuel hfuel => ⟨ctx, ?_, ?_, ?_⟩⟩
  · rw [ReachingCtx.new, hreach fuel (by omega)]
    rfl
  · refine reachingDefsAt_eq_answerOf (indexLoc_eq f u) rfl
      (fun b pos => inBlockDef_new rfl b pos id) rfl ?_
    intro b _
    rw [crossBlock, hall fuel (by omega)]
    rfl
  refine reachingDefsAt_eq_answerOf rfl (hreach fuel (by omega)) (fun _ _ => rfl) rfl ?_
  -- the worklist and the projected product find the same sites
  intro b hb
  rw [crossBlock, hout fuel (by omega), Option.map_some]
  congr 1
  ext s
  rw [hone b hb s, hproj b hb id s]

end TrustCg.Opt
