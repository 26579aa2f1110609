import TrustCg.Opt.CopyProp

/-!
# What copy propagation preserves

A rewritten operand must hold the value of the original one whenever it is read.  The
pass judges a definition of the copied register that stands in the block of the use, at
or after the use, not to reach it.  Around a loop it does (`runCopyProp_wrong`).  Where
every such loop goes through the copy again, the pass preserves every run
(`runCopyProp_sameRuns`).
-/

namespace TrustCg.Opt.CopyProp

open Ir List
open Ir.MachFunction (State Path)
open RegAlloc (BlockId InstId VReg)

variable {inst inst' : MachInst} {d s v : VReg} {copy : CopyInfo} {b back : BlockId} {q : ℕ}
  {g : MachFunction} {i : InstId}

/-! ## Moves -/

theorem operandRoles_of_isMove {opcode : AArch64Opcode} (h : opcode.isMove = true) (n : ℕ) :
    operandRoles opcode (n + 1) = .Def :: List.replicate n .Use := by
  unfold AArch64Opcode.isMove at h
  split at h
  all_goals first | exact absurd h (by decide) | rfl

/-- A move writes its first operand and reads the second one first. -/
theorem vregs_of_isMove {rest : List MachOperand}
    (hmove : inst.opcode.isMove = true) (hops : inst.operands = .vreg d :: .vreg s :: rest) :
    writtenVregs inst = [d] ∧ ∃ us, usedVregs inst = s :: us := by
  obtain ⟨-, hdefs, huses⟩ := vregs_of_roles hops (operandRoles_of_isMove hmove _)
  exact ⟨hdefs, _, huses⟩

/-- The machine executes the moves between registers of one class as copies. -/
def MovesCopy {V H : Type*} (M : Machine V H) (f : MachFunction) : Prop :=
  ∀ inst ∈ f.insts, inst.opcode.isMove = true → ∀ d s rest,
    inst.operands = .vreg d :: .vreg s :: rest → d.cls = s.cls →
    ∀ x xs h, (M.exec (shape inst) (x :: xs) h).1 = [x]

/-! ## Definitions and copies -/

theorem mem_collectDefs {f : MachFunction} (hstatus : NoStatusWrites f) {d : DefSite} :
    d ∈ collectDefs f v ↔ d.block ∈ f.blockOrder
      ∧ ∃ i, (f.blockInsts d.block)[d.instIndex]? = some i ∧ Writes f i v := by
  rw [collectDefs, mem_flatMap]
  constructor
  · rintro ⟨⟨b, q, i⟩, he, hmem⟩
    obtain ⟨w, hfilter, rfl⟩ := mem_map.1 hmem
    obtain ⟨hw, hwv⟩ := mem_filter.1 hfilter
    obtain rfl : w = v := by simpa using hwv
    obtain ⟨hb, hi⟩ := mem_places.1 he
    refine ⟨hb, i, hi, ?_⟩
    cases hinst : f.insts[i]? with
    | none => rw [hinst] at hw; simp at hw
    | some inst =>
      rw [hinst] at hw
      exact ⟨inst, hinst, mem_writtenVregs_of_defined hw⟩
  rintro ⟨hb, i, hi, inst, hinst, hv⟩
  rw [hstatus.written hinst] at hv
  refine ⟨(d.block, d.instIndex, i), mem_places.2 ⟨hb, hi⟩, mem_map.2 ⟨v, ?_, rfl⟩⟩
  rw [mem_filter, hinst]
  exact ⟨hv, by simp⟩

/-- There is a move from `s` to `d`, of one class, at the place. -/
def CopyOf (f : MachFunction) (c : BlockId) (pc : ℕ) (d s : VReg) : Prop :=
  ∃ i inst rest, (f.blockInsts c)[pc]? = some i ∧ f.insts[i]? = some inst
    ∧ inst.opcode.isMove = true ∧ inst.operands = .vreg d :: .vreg s :: rest ∧ d.cls = s.cls

/-- Some move copies `s` to `d`. -/
def CopiedFrom (f : MachFunction) (d s : VReg) : Prop := ∃ c pc, CopyOf f c pc d s

theorem copyMap_spec {f : MachFunction} (h : copyMap f v = some copy) :
    CopyOf f copy.block copy.instIndex v copy.src ∧ copy.block ∈ f.blockOrder
      ∧ (collectDefs f v).length = 1 := by
  unfold copyMap at h
  obtain ⟨⟨w, copy'⟩, hfind, rfl⟩ := Option.map_eq_some_iff.1 h
  obtain rfl : w = v := by simpa using find?_some hfind
  have hmem := mem_reverse.1 (mem_of_find?_eq_some hfind)
  obtain ⟨⟨b, q, i⟩, he, hcopy⟩ := mem_filterMap.1 hmem
  obtain ⟨hb, hi⟩ := mem_places.1 he
  unfold copyAt at hcopy
  split at hcopy
  · simp at hcopy
  rename_i inst hinst
  split_ifs at hcopy with hmove
  split at hcopy
  next dst src rest hops =>
    split_ifs at hcopy with hcond
    cases hcopy
    exact ⟨⟨i, inst, rest, hi, hinst, hmove, hops, hcond.1⟩, hb, hcond.2⟩
  · simp at hcopy

/-! ## Judgements of the pass -/

variable {f : MachFunction} {dom : Option DomTree}

theorem before_of_copyReachesUse (hdom : ∀ t ∈ dom, DomTree.Ok f t) (hb : f.Reachable b)
    (h : copyReachesUse copy b q dom = true) : Before f copy.block copy.instIndex b q := by
  unfold copyReachesUse at h
  unfold Before
  split_ifs at h ⊢ with heq
  · simpa using h
  cases dom with
  | none => simp at h
  | some t => exact ((hdom t rfl).dominates_iff _ _ hb).1 h

/-- What the pass relies on when it takes a definition not to reach a use. -/
def JudgedAway (f : MachFunction) (dom : Option DomTree) (d : DefSite) (b : BlockId) (q : ℕ) :
    Prop :=
  (d.block = b ∧ q ≤ d.instIndex) ∨ (d.block ≠ b ∧ dom = none)
    ∨ (d.block ≠ b ∧ ¬ Relation.TransGen f.Edge d.block b)

/-- With so much fuel the search for a path ends, and finds it. -/
def Searched (f : MachFunction) (bound : ℕ) : Prop :=
  ∀ source ∈ f.blockOrder, ∀ target, ∃ r, (∀ fuel, bound ≤ fuel →
      blockReaches fuel f source target = some r)
    ∧ (r = false → source ≠ target ∧ ¬ Relation.TransGen f.Edge source target)

theorem blockReaches_spec (f : MachFunction) : ∃ bound, Searched f bound := by
  obtain ⟨bound, hseek⟩ := Search.seek_spec f.succs (f.mentioned ++ f.blockOrder).toFinset
    (fun b _ c hc => by
      rw [mem_toFinset]
      exact mem_append_left _ (MachFunction.mem_mentioned_of_mem_succs hc))
  refine ⟨bound, ?_⟩
  intro source hsource target
  by_cases heq : source = target
  · exact ⟨true, fun fuel _ => by rw [blockReaches, if_pos heq], fun h => absurd h (by simp)⟩
  obtain ⟨r, hr, hiff⟩ := hseek target source
    (mem_toFinset.2 (mem_append_right _ hsource))
  refine ⟨r, fun fuel hfuel => by rw [blockReaches, if_neg heq, hr fuel hfuel], fun hrf => ?_⟩
  refine ⟨heq, fun hpath => ?_⟩
  rw [hiff.2 hpath] at hrf
  simp at hrf

variable {bound : ℕ}

section

variable (hbound : Searched f bound)
include hbound

theorem defCanReachUse_spec (dom : Option DomTree) {d : DefSite} (hd : d.block ∈ f.blockOrder)
    (b : BlockId) (q : ℕ) :
    ∃ r, (∀ fuel, bound ≤ fuel → defCanReachUse fuel d b q f dom = some r)
      ∧ (r = false → JudgedAway f dom d b q) := by
  by_cases hdb : d.block = b
  · refine ⟨decide (d.instIndex < q), fun fuel _ => by simp only [defCanReachUse, if_pos hdb], ?_⟩
    intro hr
    exact .inl ⟨hdb, by simpa using hr⟩
  cases dom with
  | none =>
    exact ⟨false, fun fuel _ => by simp only [defCanReachUse, if_neg hdb],
      fun _ => .inr (.inl ⟨hdb, rfl⟩)⟩
  | some t =>
    by_cases ht : t.dominates d.block b = true
    · exact ⟨true, fun fuel _ => by simp only [defCanReachUse, if_neg hdb, if_pos ht],
        fun h => absurd h (by simp)⟩
    obtain ⟨r, hr, hno⟩ := hbound d.block hd b
    refine ⟨r, fun fuel hfuel => ?_, fun hrf => .inr (.inr (hno hrf))⟩
    simp only [defCanReachUse, if_neg hdb, if_neg ht]
    exact hr fuel hfuel

theorem sourceIsStableAtUse_spec (copy : CopyInfo) (dom : Option DomTree) (b : BlockId) (q : ℕ)
    (defs : List DefSite) (hlisted : ∀ d ∈ defs, d.block ∈ f.blockOrder) :
    ∃ r, (∀ fuel, bound ≤ fuel → sourceIsStableAtUse fuel copy b q f dom defs = some r)
      ∧ (r = true → ∀ d ∈ defs, defKnownBeforeCopy d copy dom = true ∨ JudgedAway f dom d b q) := by
  induction defs with
  | nil => exact ⟨true, fun _ _ => rfl, by simp⟩
  | cons d defs ih =>
    obtain ⟨r, hr, hok⟩ := ih fun e he => hlisted e (.tail _ he)
    by_cases hknown : defKnownBeforeCopy d copy dom = true
    · refine ⟨r, fun fuel hfuel => ?_, fun hrt => ?_⟩
      · rw [sourceIsStableAtUse, if_pos hknown, hr fuel hfuel]
      · exact forall_mem_cons.2 ⟨.inl hknown, hok hrt⟩
    obtain ⟨r', hr', haway⟩ := defCanReachUse_spec hbound dom (hlisted d (.head _)) b q
    cases r' with
    | true =>
      refine ⟨false, fun fuel hfuel => ?_, fun h => absurd h (by simp)⟩
      rw [sourceIsStableAtUse, if_neg hknown, hr' fuel hfuel]
      rfl
    | false =>
      refine ⟨r, fun fuel hfuel => ?_, fun hrt => ?_⟩
      · rw [sourceIsStableAtUse, if_neg hknown, hr' fuel hfuel]
        exact hr fuel hfuel
      · exact forall_mem_cons.2 ⟨.inr (haway rfl), hok hrt⟩

end

/-! ## The value of a rewritten operand -/

/-- Every loop that brings a definition of a copied register, at or after a use in the same
block, back to the use goes through the copy. -/
def LoopsPassCopies (f : MachFunction) : Prop :=
  ∀ (b : BlockId) (q : ℕ) (i : InstId) (inst : MachInst) (v d s : VReg) (c : BlockId) (pc q' : ℕ)
    (i' : InstId), (f.blockInsts b)[q]? = some i → f.insts[i]? = some inst →
    v ∈ usedVregs inst → Relation.ReflTransGen (CopiedFrom f) v d → CopyOf f c pc d s → c ≠ b →
    q ≤ q' → (f.blockInsts b)[q']? = some i' → Writes f i' s →
    ¬ Relation.TransGen (fun x y => f.Edge x y ∧ y ≠ c) b b

section

variable {V H : Type*} {M : Machine V H}

theorem apply_copy (hmoves : MovesCopy M f) {c : InstId} {rest : List MachOperand}
    (hinst : f.insts[c]? = some inst) (hmove : inst.opcode.isMove = true)
    (hops : inst.operands = .vreg d :: .vreg s :: rest) (hcls : d.cls = s.cls) (env : Env V H) :
    (M.apply c inst env).regs d = (M.apply c inst env).regs s := by
  obtain ⟨hdefs, us, huses⟩ := vregs_of_isMove hmove hops
  by_cases hds : s = d
  · rw [hds]
  have hs : (M.apply c inst env).regs s = env.regs s :=
    Machine.apply_regs_of_notMem (by rw [hdefs]; simpa using hds)
  rw [hs]
  simp only [Machine.apply, hdefs, huses, map_cons]
  rw [hmoves inst (mem_of_getElem? hinst) hmove d s rest hops hcls]
  exact Function.update_self ..

/-- **One link of a chain of copies.**  Where the pass follows a copy, its two registers
hold the same value. -/
theorem link_holds (hstatus : NoStatusWrites f) (hbranches : f.BranchesLast)
    (hmoves : MovesCopy M f) (hlink : f.LinkedOnce) (hlisted : Listed f)
    (hloops : LoopsPassCopies f) (hdom : ∀ t ∈ dom, DomTree.Ok f t) {v0 : VReg}
    {i0 : InstId} {inst0 : MachInst} {s : State (Env V H)} (hs : M.Run f s)
    (hi0 : f.AboutTo s i0) (hinst0 : f.insts[i0]? = some inst0) (hv0 : v0 ∈ usedVregs inst0)
    (hchain : Relation.ReflTransGen (CopiedFrom f) v0 v) (hcopy : copyMap f v = some copy)
    (hreach : copyReachesUse copy s.block s.pos dom = true) (hstable : ∀ d ∈ collectDefs f copy.src,
      defKnownBeforeCopy d copy dom = true ∨ JudgedAway f dom d s.block s.pos) :
    s.env.regs v = s.env.regs copy.src := by
  obtain ⟨hof, hcb, hone⟩ := copyMap_spec hcopy
  obtain ⟨c, inst, rest, hc, hinst, hmove, hops, hcls⟩ := id hof
  obtain ⟨hdefs, -⟩ := vregs_of_isMove hmove hops
  have hcv : Writes f c v := ⟨inst, hinst, by rw [hdefs]; simp⟩
  have hcnb := not_branch_of_writes hcv
  have hbefore := before_of_copyReachesUse hdom hs.reachable hreach
  -- the last execution of the copy
  have hcl : ∀ l, f.Past s.block s.pos l → c ∈ l := fun l hl => hbefore.mem hbranches hc hcnb hl
  obtain ⟨l2, l1, hl, hlast⟩ := eq_append_cons_of_mem (hcl _ hs.past)
  refine hs.fact (fun regs _ => regs v = regs copy.src) c
    (fun i => Writes f i v ∨ Writes f i copy.src) ?_ ?_ l2 hl ?_
  · intro s0 inst' _ _ _ hinst'
    cases hinst.symm.trans hinst'
    exact apply_copy hmoves hinst hmove hops hcls s0.env
  · intro i inst' env hinst' hnot hF
    have hv : v ∉ writtenVregs inst' := fun h => hnot (.inl ⟨inst', hinst', h⟩)
    have hsrc : copy.src ∉ writtenVregs inst' := fun h => hnot (.inr ⟨inst', hinst', h⟩)
    rw [Machine.apply_regs_of_notMem hv, Machine.apply_regs_of_notMem hsrc]
    exact hF
  intro i hi hkill
  obtain ⟨m2, m1, rfl⟩ := append_of_mem hi
  have hpast : f.Past s.block s.pos (m2 ++ i :: (m1 ++ c :: l1)) := by
    have := hs.past
    rw [hl] at this
    simpa using this
  obtain ⟨b', p', hi', hto, hfrom⟩ := hpast.split rfl
  have hb' : b' ∈ f.blockOrder := hlisted b' hto.reachable
  have hnotm2 : c ∉ m2 := fun h => hlast (mem_append_left _ h)
  rcases hkill with hkill | hkill
  · -- the copy is the only definition of its destination
    have hsame : (⟨b', p'⟩ : DefSite) = ⟨copy.block, copy.instIndex⟩ := by
      obtain ⟨e, he⟩ := length_eq_one_iff.1 hone
      have h1 : (⟨b', p'⟩ : DefSite) ∈ collectDefs f v :=
        (mem_collectDefs hstatus).2 ⟨hb', i, hi', hkill⟩
      have h2 : (⟨copy.block, copy.instIndex⟩ : DefSite) ∈ collectDefs f v :=
        (mem_collectDefs hstatus).2 ⟨hcb, c, hc, hcv⟩
      rw [he, mem_singleton] at h1 h2
      rw [h1, h2]
    obtain ⟨rfl, rfl⟩ := DefSite.mk.inj hsame
    cases hi'.symm.trans hc
    exact hlast (by simp)
  have hsite : (⟨b', p'⟩ : DefSite) ∈ collectDefs f copy.src :=
    (mem_collectDefs hstatus).2 ⟨hb', i, hi', hkill⟩
  -- a definition of the source since the copy would put another copy after it
  refine hnotm2 ?_
  rcases hstable _ hsite with hknown | ⟨heq, hge⟩ | ⟨hne, hnone⟩ | ⟨hne, hno⟩
  · obtain ⟨k2, k1, hk, -⟩ := eq_append_cons_of_mem (hcl _ hs.past)
    have hcreach : f.Reachable copy.block := by
      obtain ⟨b'', p'', hc'', hto', -⟩ := hs.past.split hk
      obtain ⟨rfl, rfl⟩ := hlink.unique hc'' hc
      exact hto'.reachable
    have hknown' : copyReachesUse ⟨copy.src, b', p'⟩ copy.block copy.instIndex dom = true := hknown
    have hbef := before_of_copyReachesUse hdom hcreach hknown'
    refine Path.mem_after (fun b1 p1 _ b2 p2 _ h1 _ h2 _ => hlink.unique h1 h2) ?_ hcl _ hpast
    intro b'' p'' l'' hj hl''
    obtain ⟨rfl, rfl⟩ := hlink.unique hj hc
    exact hbef.mem hbranches hi' (not_branch_of_writes hkill) hl''
  · -- a definition at or after the use comes back around a loop
    dsimp only at heq hge
    subst heq
    by_cases hcb' : copy.block = s.block
    · rcases hfrom.stays_or_enters with ⟨-, hle, -⟩ | ⟨-, hhere⟩
      · exact absurd hle (by omega)
      unfold Before at hbefore
      rw [if_pos hcb'] at hbefore
      rw [hcb'] at hc
      exact hhere _ hbefore c hc
    rcases hfrom.mem_or_avoids hbranches (mem_of_getElem? hc) hcnb with h | ⟨-, hle⟩ | h | ⟨h, -⟩
    · exact h
    · exact absurd hle (by omega)
    · exact absurd h (hloops _ _ _ _ _ _ _ _ _ _ _ hi0 hinst0 hv0 hchain hof hcb' hge hi'
        hkill)
    · exact absurd h.symm hcb'
  · -- without a dominator tree copy and use are in one block
    subst hnone
    rcases hfrom.stays_or_enters with ⟨heq, -⟩ | ⟨-, hhere⟩
    · exact absurd heq hne
    unfold copyReachesUse at hreach
    split_ifs at hreach with hcb'
    · rw [hcb'] at hc
      exact hhere _ (by simpa using hreach) c hc
    · simp at hreach
  dsimp only at hne hno
  rcases hfrom.stays_or_enters with ⟨heq, -⟩ | ⟨hedges, -⟩
  · exact absurd heq hne
  · exact absurd hedges hno

/-! ## The rewriting loop -/

theorem sourceIsStableAtUse_congr (hsuccs : g.succs = f.succs) (fuel : ℕ)
    (copy : CopyInfo) (b : BlockId) (q : ℕ) (defs : List DefSite) :
    sourceIsStableAtUse fuel copy b q g dom defs
      = sourceIsStableAtUse fuel copy b q f dom defs := by
  have hreach : ∀ d, defCanReachUse fuel d b q g dom = defCanReachUse fuel d b q f dom := by
    intro d
    unfold defCanReachUse blockReaches
    rw [hsuccs]
  induction defs with
  | nil => rfl
  | cons d defs ih => rw [sourceIsStableAtUse, sourceIsStableAtUse, ih, hreach]

theorem getElem?_cases {α : Type*} {l l' : List α} (h : l'.length = l.length) (p : ℕ) :
    (l[p]? = none ∧ l'[p]? = none) ∨ ∃ a b, l[p]? = some a ∧ l'[p]? = some b := by
  rcases lt_or_ge p l.length with hp | hp
  · exact .inr ⟨_, _, getElem?_eq_getElem hp, getElem?_eq_getElem (h ▸ hp)⟩
  · exact .inl ⟨getElem?_eq_none hp, getElem?_eq_none (h ▸ hp)⟩

/-- The operand has been left alone, or renamed along a chain of copies to a register that
holds its value. -/
def OperandOk (M : Machine V H) (f : MachFunction) (i : InstId) (inst : MachInst) (p : ℕ)
    (op op' : MachOperand) : Prop :=
  op' = op ∨ (p ∉ defOperandPositions inst.opcode inst.operands.length ∧ ∃ v r, op = .vreg v
    ∧ op' = .vreg r ∧ r.cls = v.cls ∧ Relation.ReflTransGen (CopiedFrom f) v r
    ∧ ∀ s, M.Run f s → f.AboutTo s i → s.env.regs r = s.env.regs v)

/-- The instruction with some operands renamed. -/
structure InstOk (M : Machine V H) (f : MachFunction) (i : InstId) (inst inst' : MachInst) :
    Prop where
  rest : inst' = { inst with operands := inst'.operands }
  length : inst'.operands.length = inst.operands.length
  operand : ∀ (p : ℕ) op op', inst.operands[p]? = some op → inst'.operands[p]? = some op' →
    OperandOk M f i inst p op op'

/-- The function with operands of some instructions renamed. -/
structure Rewritten (M : Machine V H) (f g : MachFunction) : Prop where
  entry : g.entry = f.entry
  blocks : g.blocks = f.blocks
  length : g.insts.length = f.insts.length
  insts : ∀ (i : ℕ) inst inst', f.insts[i]? = some inst → g.insts[i]? = some inst' →
    InstOk M f i inst inst'

section

variable (h : InstOk M f i inst inst')
include h

theorem InstOk.opcode : inst'.opcode = inst.opcode := by
  rw [h.rest]

/-- At each position both lists have an operand, or neither has. -/
theorem InstOk.at (p : ℕ) : (inst.operands[p]? = none ∧ inst'.operands[p]? = none) ∨
    ∃ op op', inst.operands[p]? = some op ∧ inst'.operands[p]? = some op'
      ∧ OperandOk M f i inst p op op' := by
  refine (getElem?_cases h.length p).imp_right ?_
  rintro ⟨op, op', hop, hop'⟩
  exact ⟨op, op', hop, hop', h.operand p op op' hop hop'⟩

/-- What an instruction is besides its register names, and the registers it writes, stay. -/
theorem InstOk.shape : shape inst' = shape inst ∧ definedVregs inst' = definedVregs inst := by
  constructor
  · have hops : inst'.operands.map eraseName = inst.operands.map eraseName := by
      refine ext_getElem? fun p => ?_
      rw [getElem?_map, getElem?_map]
      rcases h.at p with ⟨hn, hn'⟩ | ⟨op, op', hop, hop', rfl | ⟨-, v, r, rfl, rfl, hcls, -⟩⟩
      · rw [hn, hn']
      · rw [hop, hop']
      · rw [hop, hop', Option.map_some, Option.map_some, eraseName, eraseName, hcls]
    calc Opt.shape inst' = Opt.shape { inst with operands := inst'.operands } :=
          congrArg Opt.shape h.rest
      _ = { inst with operands := inst'.operands.map eraseName } := rfl
      _ = Opt.shape inst := by rw [hops]; rfl
  unfold definedVregs vregsAt
  rw [h.opcode, h.length]
  refine filterMap_congr fun p hp => ?_
  rcases h.at p with ⟨hn, hn'⟩ | ⟨op, op', hop, hop', rfl | ⟨hnot, -⟩⟩
  · rw [hn, hn']
  · rw [hop, hop']
  · exact absurd hp hnot

theorem InstOk.reads {s : State (Env V H)} (hs : M.Run f s) (hi : f.AboutTo s i) :
    (usedVregs inst').map s.env.regs = (usedVregs inst).map s.env.regs := by
  unfold usedVregs vregsAt
  rw [h.opcode, h.length, map_filterMap, map_filterMap]
  refine filterMap_congr fun p _ => ?_
  rcases h.at p with ⟨hn, hn'⟩ | ⟨op, op', hop, hop', rfl | ⟨-, v, r, rfl, rfl, -, -, hval⟩⟩
  · rw [hn, hn']
  · rw [hop, hop']
  · rw [hop, hop']
    exact congrArg some (hval s hs hi)

end

theorem Rewritten.sameReads (hstatus : NoStatusWrites f) (h : Rewritten M f g) :
    SameReads M f g := by
  refine ⟨h.entry, h.blocks, fun i => (getElem?_cases h.length i).imp_right ?_⟩
  rintro ⟨inst, inst', hi, hi'⟩
  have hok := h.insts i inst inst' hi hi'
  have hne := hstatus inst (mem_of_getElem? hi)
  have hwritten : writtenVregs inst' = writtenVregs inst := by
    rw [writtenVregs_of_ne hne, writtenVregs_of_ne (hok.opcode ▸ hne), hok.shape.2]
  exact ⟨inst, inst', hi, hi', hok.shape.1, hwritten, fun s hs hab => hok.reads hs hab⟩

theorem Rewritten.refl (M : Machine V H) (f : MachFunction) : Rewritten M f f := by
  refine ⟨rfl, rfl, rfl, ?_⟩
  intro i inst inst' hi hi'
  cases hi.symm.trans hi'
  refine ⟨rfl, rfl, ?_⟩
  intro p op op' hop hop'
  exact .inl (Option.some.inj (hop'.symm.trans hop))

section Loop

variable (hstatus : NoStatusWrites f) (hbranches : f.BranchesLast)
  (hmoves : MovesCopy M f) (hlink : f.LinkedOnce) (hlisted : Listed f)
    (hloops : LoopsPassCopies f) (hdom : ∀ t ∈ dom, DomTree.Ok f t) (hbound : Searched f bound)
include hstatus hbranches hmoves hlink hlisted hloops hdom hbound

/-- **A chain of copies.** -/
theorem followCopies_spec (hsuccs : g.succs = f.succs) (hi : (f.blockInsts b)[q]? = some i)
    (hinst : f.insts[i]? = some inst) (hv : v ∈ usedVregs inst) (n : ℕ) (seen : List VReg)
    (current : VReg) (hchain : Relation.ReflTransGen (CopiedFrom f) v current) :
    ∃ r, (∀ fuel, bound ≤ fuel → followCopies fuel f g dom b q n seen current = some r)
      ∧ r.cls = current.cls ∧ Relation.ReflTransGen (CopiedFrom f) current r
      ∧ ∀ s, M.Run f s → f.AboutTo s i → s.env.regs r = s.env.regs current := by
  induction n generalizing seen current with
  | zero => exact ⟨current, fun _ _ => rfl, rfl, .refl, fun _ _ _ => rfl⟩
  | succ n ih =>
    -- the loop ends at the current register
    have hstop : (∀ fuel, bound ≤ fuel →
        followCopies fuel f g dom b q (n + 1) seen current = some current) →
        ∃ r, (∀ fuel, bound ≤ fuel → followCopies fuel f g dom b q (n + 1) seen current = some r)
          ∧ r.cls = current.cls ∧ Relation.ReflTransGen (CopiedFrom f) current r
          ∧ ∀ s, M.Run f s → f.AboutTo s i → s.env.regs r = s.env.regs current :=
      fun h => ⟨current, h, rfl, .refl, fun _ _ _ => rfl⟩
    by_cases hseen : current ∈ seen
    · exact hstop fun fuel _ => by rw [followCopies, if_pos hseen]
    cases hcopy : copyMap f current with
    | none => exact hstop fun fuel _ => by simp only [followCopies, if_neg hseen, hcopy]
    | some copy =>
      by_cases hreach : copyReachesUse copy b q dom = true
      · obtain ⟨stable, hrun, hok⟩ := sourceIsStableAtUse_spec hbound copy dom b q
          (collectDefs f copy.src) fun d hd => ((mem_collectDefs hstatus).1 hd).1
        have hfollow : ∀ fuel, bound ≤ fuel → followCopies fuel f g dom b q (n + 1) seen current =
              if stable then followCopies fuel f g dom b q n (current :: seen) copy.src
              else some current := by
          intro fuel hfuel
          simp only [followCopies, if_neg hseen, hcopy, if_pos hreach,
            sourceIsStableAtUse_congr hsuccs, hrun fuel hfuel, Option.bind_some]
        cases stable with
        | false => exact hstop fun fuel hfuel => by rw [hfollow fuel hfuel]; rfl
        | true =>
          obtain ⟨hof, -, -⟩ := copyMap_spec hcopy
          have hlinkto : CopiedFrom f current copy.src := ⟨_, _, hof⟩
          obtain ⟨r, hr, hcls, hrest, hvals⟩ := ih (current :: seen) copy.src (hchain.tail hlinkto)
          refine ⟨r, fun fuel hfuel => ?_, ?_, .head hlinkto hrest, ?_⟩
          · rw [hfollow fuel hfuel, if_pos rfl, hr fuel hfuel]
          · obtain ⟨-, -, -, -, -, -, -, hsame⟩ := hof
            exact hcls.trans hsame.symm
          intro s hs habout
          obtain ⟨rfl, rfl⟩ := hlink.unique habout hi
          rw [hvals s hs habout]
          exact (link_holds hstatus hbranches hmoves hlink hlisted hloops hdom hs habout hinst hv
            hchain
            hcopy hreach (hok rfl)).symm
      · exact hstop fun fuel _ => by simp [followCopies, hcopy, if_neg hreach]

theorem newOperand_spec (hg : Rewritten M f g) (hi : (f.blockInsts b)[q]? = some i)
    (hinst : f.insts[i]? = some inst) (hinst' : g.insts[i]? = some inst')
    {e : MachOperand × ℕ} (he : e ∈ inst'.operands.zipIdx) :
    ∃ op, (∀ fuel, bound ≤ fuel → newOperand fuel f g dom b q inst' e = some op)
      ∧ ∀ op0, inst.operands[e.2]? = some op0 → OperandOk M f i inst e.2 op0 op := by
  obtain ⟨op', p⟩ := e
  have hop' : inst'.operands[p]? = some op' := mem_zipIdx_iff_getElem?.1 he
  have hok := hg.insts i inst inst' hinst hinst'
  have hold : ∀ op0, inst.operands[p]? = some op0 → OperandOk M f i inst p op0 op' :=
    fun op0 hop0 => hok.operand p op0 op' hop0 hop'
  by_cases hpos : p ∈ useOperandPositions inst'.opcode inst'.operands.length
      ∧ p ∉ defOperandPositions inst'.opcode inst'.operands.length
  · cases op' with
    | vreg w =>
      -- the register the original instruction reads here
      obtain ⟨v, hv, hchain, hreg⟩ : ∃ v, v ∈ usedVregs inst
          ∧ Relation.ReflTransGen (CopiedFrom f) v w
          ∧ ∀ op0, inst.operands[p]? = some op0 → op0 = .vreg v ∧ w.cls = v.cls
            ∧ ∀ s, M.Run f s → f.AboutTo s i → s.env.regs w = s.env.regs v := by
        obtain ⟨-, hn⟩ | ⟨op, op'', hop, hop'', hold⟩ := hok.at p
        · cases hop'.symm.trans hn
        cases hop'.symm.trans hop''
        have hmem : ∀ v, inst.operands[p]? = some (.vreg v) → v ∈ usedVregs inst := by
          intro v hv
          refine mem_filterMap.2 ⟨p, ?_, by rw [hv]; rfl⟩
          rw [← hok.opcode, ← hok.length]
          exact hpos.1
        rcases hold with heq | ⟨-, v, r, hv, hr, hcls, hchain, hval⟩
        · rw [← heq] at hop
          refine ⟨w, hmem w hop, .refl, fun op0 hop0 => ?_⟩
          exact ⟨Option.some.inj (hop0.symm.trans hop), rfl, fun _ _ _ => rfl⟩
        obtain rfl : w = r := MachOperand.vreg.inj hr
        rw [hv] at hop
        refine ⟨v, hmem v hop, hchain, fun op0 hop0 => ?_⟩
        exact ⟨Option.some.inj (hop0.symm.trans hop), hcls, hval⟩
      have hsuccs : g.succs = f.succs := by
        funext b
        rw [MachFunction.succs, MachFunction.succs, hg.blocks]
      obtain ⟨r, hr, hcls, hrest, hvals⟩ := followCopies_spec hstatus hbranches hmoves hlink hlisted
        hloops hdom
        hbound hsuccs hi hinst hv maxChain [] w hchain
      refine ⟨.vreg r, fun fuel hfuel => ?_, fun op0 hop0 => ?_⟩
      · simp only [newOperand, if_pos hpos, resolveUseReplacement, hr fuel hfuel, Option.map_some]
      obtain ⟨rfl, hcls', hval⟩ := hreg op0 hop0
      refine .inr ⟨?_, v, r, rfl, rfl, hcls.trans hcls', hchain.trans hrest, ?_⟩
      · rw [← hok.opcode, ← hok.length]
        exact hpos.2
      intro s hs habout
      rw [hvals s hs habout, hval s hs habout]
    | _ => exact ⟨_, fun fuel _ => by simp only [newOperand, if_pos hpos], hold⟩
  · exact ⟨op', fun fuel _ => by simp only [newOperand, if_neg hpos], hold⟩

theorem rewriteAt_spec {st : MachFunction × Bool} (hg : Rewritten M f st.1)
    {e : BlockId × ℕ × InstId} (he : e ∈ places f) :
    ∃ st', (∀ fuel, bound ≤ fuel → rewriteAt fuel f dom st e = some st') ∧ Rewritten M f st'.1 := by
  obtain ⟨b, q, i⟩ := e
  obtain ⟨-, hi⟩ := mem_places.1 he
  cases hinst' : st.1.insts[i]? with
  | none => exact ⟨st, fun fuel _ => by simp only [rewriteAt, hinst'], hg⟩
  | some inst' =>
    have hlt : i < f.insts.length := by
      rw [← hg.length]; exact (List.getElem?_eq_some_iff.1 hinst').1
    have hinst := getElem?_eq_getElem hlt
    have hok := hg.insts i _ inst' hinst hinst'
    obtain ⟨ops, hrun, hlen, hops⟩ := Loop.mapM_spec
      (fun fuel => newOperand fuel f st.1 dom b q inst') inst'.operands.zipIdx
      fun e he => newOperand_spec hstatus hbranches hmoves hlink hlisted hloops hdom hbound hg hi
        hinst hinst' he
    rw [length_zipIdx] at hlen
    refine ⟨({ st.1 with insts := st.1.insts.set i { inst' with operands := ops } },
        st.2 || ops != inst'.operands), fun fuel hfuel => by
      simp only [rewriteAt, hinst', hrun fuel hfuel, Option.map_some], hg.entry, hg.blocks, ?_, ?_⟩
    · rw [length_set]; exact hg.length
    intro j inst1 inst2 hj hj'
    by_cases hji : j = i
    · subst hji
      cases hinst.symm.trans hj
      rw [getElem?_set_self (by rw [hg.length]; exact hlt)] at hj'
      cases hj'
      refine ⟨?_, by rw [← hok.length]; exact hlen, ?_⟩
      · rw [hok.rest]
      intro p op op' hop hop'
      have hlt' : p < inst'.operands.length := by
        rw [hok.length]; exact (List.getElem?_eq_some_iff.1 hop).1
      refine hops p (inst'.operands[p], p) op' ?_ hop' op hop
      rw [getElem?_zipIdx, getElem?_eq_getElem hlt']
      simp
    · rw [getElem?_set_ne (Ne.symm hji)] at hj'
      exact hg.insts j inst1 inst2 hj hj'

end Loop

/-- **Copy propagation preserves every run**, if every loop that brings a definition of a
copied register back to a use before it goes through the copy, only branches follow a
branch in its block, and no store exclusive writes its status. -/
theorem runCopyProp_sameRuns (hstatus : NoStatusWrites f) (hbranches : f.BranchesLast)
    (hcfg : CfgConsistent f) (hlink : f.LinkedOnce) (hlisted : Listed f)
    (hloops : LoopsPassCopies f) (hmoves : MovesCopy M f) (hdom : ∀ t ∈ dom, Computed f t) :
    ∃ bound g changed, (∀ fuel, bound ≤ fuel → runCopyProp fuel f dom = some (g, changed))
      ∧ ∀ s, M.Run g s ↔ M.Run f s := by
  obtain ⟨bound, hbound⟩ := blockReaches_spec f
  have hok : ∀ t ∈ dom, DomTree.Ok f t := fun t ht => ok_of_computed hcfg (hdom t ht)
  obtain ⟨bound', ⟨g, changed⟩, hrun, hg⟩ := Loop.foldlM_spec
    (fun fuel => rewriteAt fuel f dom) (fun _ st => Rewritten M f st.1) (places f) [] (f, false)
    (fun _ st e he hst => by
      obtain ⟨st', hst', hg'⟩ := rewriteAt_spec hstatus hbranches hmoves hlink hlisted hloops hok
        hbound hst he
      exact ⟨bound, st', hst', hg'⟩)
    (Rewritten.refl M f)
  exact ⟨bound', g, changed, hrun, fun s => run_iff_of_sameReads (hg.sameReads hstatus)⟩

end

/-! ## A loop through the copy, and one around it -/

/-- `x0 := 5`, then `x1 := x0`, then a block that reads `x1` and counts `x0` up, from which
control goes back to block `back` or leaves. -/
def counting (back : BlockId) : MachFunction where
  insts := [⟨.MovI, [.vreg (xreg 0), .imm 5], [], [], 0⟩,
    ⟨.MovR, [.vreg (xreg 1), .vreg (xreg 0)], [], [], 0⟩,
    ⟨.AddRI, [.vreg (xreg 2), .vreg (xreg 1), .imm 0], [], [], 0⟩,
    ⟨.AddRI, [.vreg (xreg 0), .vreg (xreg 0), .imm 1], [], [], 0⟩]
  blocks := [⟨[0], [], [1]⟩, ⟨[1], if back = 1 then [0, 2] else [0], [2]⟩,
    ⟨[2, 3], if back = 2 then [1, 2] else [1], [back, 3]⟩, ⟨[], [2], []⟩]
  blockOrder := [0, 1, 2, 3]
  entry := 0

theorem counting_place
    (h : ((counting back).blockInsts b)[q]? = some i) :
    (b = 0 ∧ q = 0 ∧ i = 0) ∨ (b = 1 ∧ q = 0 ∧ i = 1) ∨ (b = 2 ∧ q = 0 ∧ i = 2)
      ∨ b = 2 ∧ q = 1 ∧ i = 3 := by
  rcases b with _ | _ | _ | _ | b <;> rcases q with _ | _ | q
  all_goals first
    | (cases h; simp)
    | simp [counting, MachFunction.blockInsts] at h

theorem counting_copy {c : BlockId} {pc : ℕ}
    (h : CopyOf (counting back) c pc d s) : c = 1 ∧ s = xreg 0 := by
  obtain ⟨i, inst, rest, hi, hinst, hmove, hops, -⟩ := h
  rcases counting_place hi with ⟨rfl, rfl, rfl⟩ | ⟨rfl, rfl, rfl⟩ | ⟨rfl, rfl, rfl⟩
    | ⟨rfl, rfl, rfl⟩
  all_goals cases hinst
  · cases hmove
  · simp only [List.cons.injEq, MachOperand.vreg.injEq] at hops
    exact ⟨rfl, hops.2.1.symm⟩
  · cases hmove
  · cases hmove

theorem counting_edge {c : BlockId} (h : (counting back).Edge b c) :
    (b = 0 ∧ c = 1) ∨ (b = 1 ∧ c = 2) ∨ (b = 2 ∧ c = back) ∨ b = 2 ∧ c = 3 := by
  rcases b with _ | _ | _ | _ | b <;>
    simp [counting, MachFunction.Edge, MachFunction.succs] at h ⊢ <;> exact h

theorem counting_loopsPassCopies : LoopsPassCopies (counting 1) := by
  intro b q i inst v d s c pc q' i' _ _ _ _ hcopy _ _ _ _ hloop
  obtain ⟨rfl, -⟩ := counting_copy hcopy
  -- the edges that do not lead to the copy lead forward
  have hup : ∀ x y, (counting 1).Edge x y ∧ y ≠ 1 → x < y := by
    rintro x y ⟨hedge, hy⟩
    rcases counting_edge hedge with ⟨rfl, rfl⟩ | ⟨rfl, rfl⟩ | ⟨rfl, rfl⟩ | ⟨rfl, rfl⟩
    · exact absurd rfl hy
    · decide
    · exact absurd rfl hy
    · decide
  have hlt : Relation.TransGen (· < · : ℕ → ℕ → Prop) b b := Relation.TransGen.mono hup _ _ hloop
  rw [Relation.transGen_eq_self] at hlt
  exact lt_irrefl _ hlt

theorem counting_movesCopy (back : BlockId) : MovesCopy adder (counting back) := by
  intro inst hinst hmove d s rest _ _ y ys h
  simp only [counting, mem_cons, not_mem_nil, or_false] at hinst
  rcases hinst with rfl | rfl | rfl | rfl
  · cases hmove
  · rfl
  · cases hmove
  · cases hmove

/-- The loop that goes back to the copy. -/
theorem runCopyProp_sameRuns_counting :
    ∃ t, Computed (counting 1) t ∧ ∃ bound g changed, (∀ fuel, bound ≤ fuel →
        runCopyProp fuel (counting 1) (some t) = some (g, changed))
      ∧ ∀ s, adder.Run g s ↔ adder.Run (counting 1) s := by
  have hcfg : CfgConsistent (counting 1) := CfgConsistent.of_listsAgree (by decide)
  obtain ⟨bound, t, ht, -⟩ := compute_spec hcfg
  refine ⟨t, ⟨bound, ht⟩, ?_⟩
  refine runCopyProp_sameRuns (by decide) (.of_blocks (by decide)) hcfg (by decide)
    (.of_all hcfg (by decide)) counting_loopsPassCopies (counting_movesCopy 1) ?_
  intro t' ht'
  obtain rfl : t = t' := by simpa using ht'
  exact ⟨bound, ht⟩

/-- Beyond block 0 the constant has been loaded, beyond block 1 it has been copied. -/
theorem counting_readsWritten : ReadsWritten (counting 2) :=
  .of_table (fun b => if b = 0 then [] else if b = 1 then [0] else [0, 1]) rfl (by decide)
    (by decide)

/-- **Around a loop the pass reads a register that has changed.**  The loop goes back to the
use, past the copy.  The pass lets the use read `x0`, and after one turn the two functions
read different values. -/
theorem runCopyProp_wrong : ∃ g s, (DomTree.compute 20 (counting 2)).bind
        (fun t => runCopyProp 20 (counting 2) (some t)) = some (g, true)
      ∧ CfgConsistent (counting 2) ∧ ReadsWritten (counting 2) ∧ MovesCopy adder (counting 2)
      ∧ adder.Run g s ∧ ¬ adder.Run (counting 2) s := by
  let g : MachFunction := { counting 2 with
    insts := (counting 2).insts.set 2
      ⟨.AddRI, [.vreg (xreg 2), .vreg (xreg 0), .imm 0], [], [], 0⟩ }
  let start : State (Env ℤ Unit) := ⟨0, 0, ⟨fun _ => 0, (), []⟩⟩
  let moves : List (Option BlockId) := [none, some 1, none, some 2, none, none, some 2, none]
  let view : State (Env ℤ Unit) → ℕ × ℕ × ℤ × Option (ℕ × List ℤ) :=
    fun s => (s.block, s.pos, s.env.regs (xreg 1), s.env.trace.head?)
  have hplay : (adder.play g moves start).map view = some (2, 1, 5, some (2, [6])) := by
    decide +kernel
  obtain ⟨⟨block, pos, env⟩, hs, hvals⟩ := Option.map_eq_some_iff.1 hplay
  obtain ⟨rfl, rfl, hreg, htrace⟩ : block = 2 ∧ pos = 1 ∧ env.regs (xreg 1) = 5
      ∧ env.trace.head? = some (2, [6]) := by simpa [view] using hvals
  refine ⟨g, _, by decide +kernel, CfgConsistent.of_listsAgree (by decide),
    counting_readsWritten, counting_movesCopy 2, Machine.Run.play moves (.start _ _) hs, ?_⟩
  -- in the original function the value read last is still in `x1`
  intro hrun
  cases hrun with
  | step _ hst =>
    cases hst with
    | @inst b pos i env env' hi hexec =>
      obtain ⟨inst, hinst, rfl⟩ := hexec
      cases hi
      cases hinst
      have hkeep : env.regs (xreg 1) = 5 := by
        rw [← hreg]
        exact (Machine.apply_regs_of_notMem (by decide)).symm
      have hread : env.regs (xreg 1) = 6 := by
        have hevent := Option.some.inj htrace
        exact (List.cons.inj (Prod.mk.inj hevent).2).1
      omega

end TrustCg.Opt.CopyProp
