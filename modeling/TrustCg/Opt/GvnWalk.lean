import TrustCg.Opt.GvnNumber

/-!
# The walk of global value numbering

A leader found in the table of expressions stands in an open scope, which is that of a
dominating block; one found in the table of loads stands in the same block with no write to
memory since.

* `visit_step`, `walk_step` : what the tables say is kept by a visit and by the walk.
* `domWalkGvn_spec` : the walk ends, and whatever it has replaced has been computed by an
  instruction with the same key that comes before on every path.
-/

namespace TrustCg.Opt.Gvn

open Ir List
open RegAlloc (BlockId InstId VReg)
open Function (update)

variable {f : MachFunction} {rep : VReg → VReg} {mean mean' : ℕ → Option Meaning} {st : GvnState}
  {inst : MachInst} {v : VReg} {rest : List MachOperand} {i : InstId}

/-! ## The tables -/

/-- Nothing between two positions of a block writes memory. -/
def QuietBetween (f : MachFunction) (b : BlockId) (p q : ℕ) : Prop :=
  ∀ k j inst, p < k → k < q → (f.blockInsts b)[k]? = some j → f.insts[j]? = some inst →
    (opcodeEffect inst.opcode).writesMemory = false

/-- The instruction at a reachable place. -/
structure Place (f : MachFunction) (b : BlockId) (q : ℕ) (i : InstId) (inst : MachInst) :
    Prop where
  reachable : f.Reachable b
  place : (f.blockInsts b)[q]? = some i
  getInst : f.insts[i]? = some inst

/-- The two instructions have the same key: they are pure, or loads with no write to memory
between them. -/
def SameKey (f : MachFunction) (rep : VReg → VReg) (bE bL : BlockId) (qE qL : ℕ)
    (instE instL : MachInst) (y x : VReg) : Prop :=
  ∃ mean, (∃ key, ExprFor f rep mean instE y key ∧ ExprFor f rep mean instL x key)
    ∨ (∃ key, LoadFor f rep mean instE y key ∧ LoadFor f rep mean instL x key)
      ∧ bL = bE ∧ QuietBetween f bE qL qE

/-- The instruction, which writes `y`, has the key of one that comes before it on every
path and writes the representative of `y`. -/
def Eliminated (f : MachFunction) (rep : VReg → VReg) (E : InstId) (y : VReg) : Prop :=
  ∃ bE qE bL qL L instE instL, Place f bE qE E instE ∧ Place f bL qL L instL
    ∧ Before f bL qL bE qE ∧ rep (rep y) = rep y
    ∧ SameKey f rep bE bL qE qL instE instL y (rep y)

/-- The key has been added in the scope of the block. -/
def Open (opened : List BlockId) (scopes : List (List VNExprKey)) (key : VNExprKey)
    (b : BlockId) : Prop :=
  ∃ keys, (b, keys) ∈ opened.zip scopes ∧ key ∈ keys

/-- The keys added in the open scopes, innermost first. -/
def scopeKeys (st : GvnState) : List (List VNExprKey) :=
  st.table.scopeStack.map ScopeFrame.addedExprs

/-- The register of a leader represents itself and is what its number stands for. -/
structure Leads (rep : VReg → VReg) (mean : ℕ → Option Meaning) (vn : ℕ) (x : VReg) : Prop where
  self : rep x = x
  means : mean vn = some (.reg x)

/-- What holds of the tables after the places of `done`, in the scopes of the blocks
`opened`. -/
structure TableInv (f : MachFunction) (rep : VReg → VReg) (done : List (BlockId × ℕ × InstId))
    (opened : List BlockId) (mean : ℕ → Option Meaning) (st : GvnState) : Prop where
  num : NumInv f rep mean st
  scopes : (scopeKeys st).length = opened.length
  exprs : ∀ key vn L, st.table.exprTable key = some (vn, L) → ∃ b q inst,
    Open opened (scopeKeys st) key b ∧ (b, q, L.instId) ∈ done ∧ Place f b q L.instId inst
      ∧ ExprFor f rep mean inst L.defVreg key ∧ Leads rep mean vn L.defVreg
  dead : ∀ E ∈ st.deadInsts, ∃ y, rep y ≠ y ∧ Eliminated f rep E y
  replacements : ∀ y x, (y, x) ∈ st.replacements → rep y = x ∧ (∃ E, Eliminated f rep E y)
    ∧ ∃ e ∈ done, Writes f e.2.2 y

/-- What holds of the loads before position `q` of the block. -/
def LoadInv (f : MachFunction) (rep : VReg → VReg) (mean : ℕ → Option Meaning) (b : BlockId)
    (q : ℕ) (st : GvnState) : Prop :=
  ∀ key entry, st.table.loadTable key = some entry → ∃ p inst, p < q
    ∧ Place f b p entry.leader.instId inst ∧ LoadFor f rep mean inst entry.leader.defVreg key
    ∧ Leads rep mean entry.vn entry.leader.defVreg ∧ QuietBetween f b p q

/-- What is added to the replacements on the way to a later state is written at the places
of `rest`. -/
def Ahead (f : MachFunction) (rest : List (BlockId × ℕ × InstId)) (st fin : GvnState) : Prop :=
  ∃ new, fin.replacements = new ++ st.replacements
    ∧ ∀ p ∈ new, ∃ e ∈ rest, Writes f e.2.2 p.1

theorem Ahead.of_eq {st fin : GvnState} (h : fin.replacements = st.replacements)
    (rest : List (BlockId × ℕ × InstId)) : Ahead f rest st fin := ⟨[], h, by simp⟩

theorem Ahead.trans {r1 r2 : List (BlockId × ℕ × InstId)} {s t u : GvnState} (h1 : Ahead f r1 s t)
    (h2 : Ahead f r2 t u) : Ahead f (r1 ++ r2) s u := by
  obtain ⟨new1, heq1, hw1⟩ := h1
  obtain ⟨new2, heq2, hw2⟩ := h2
  refine ⟨new2 ++ new1, by rw [heq2, heq1, append_assoc], fun p hp => ?_⟩
  rcases mem_append.1 hp with hp | hp
  · obtain ⟨e, he, hw⟩ := hw2 p hp
    exact ⟨e, mem_append_right _ he, hw⟩
  obtain ⟨e, he, hw⟩ := hw1 p hp
  exact ⟨e, mem_append_left _ he, hw⟩

theorem Leads.mono {rep : VReg → VReg} {mean mean' : ℕ → Option Meaning} {vn : ℕ} {x : VReg}
    (hext : Extends mean mean') (h : Leads rep mean vn x) : Leads rep mean' vn x :=
  ⟨h.self, hext _ _ h.means⟩

variable {opened : List BlockId} {b : BlockId}

section

variable {scopes : List (List VNExprKey)} {top : List VNExprKey} {key : VNExprKey} {c : BlockId}

theorem Open.mem (h : Open opened scopes key b) : b ∈ opened := by
  obtain ⟨keys, hmem, -⟩ := h
  exact (of_mem_zip hmem).1

theorem Open.push (h : Open opened scopes key b) : Open (c :: opened) (top :: scopes) key b := by
  obtain ⟨keys, hmem, hkey⟩ := h
  exact ⟨keys, .tail _ hmem, hkey⟩

theorem Open.add (h : Open (c :: opened) (top :: scopes) key b) (k : VNExprKey) :
    Open (c :: opened) ((k :: top) :: scopes) key b := by
  obtain ⟨keys, hmem, hkey⟩ := h
  rcases mem_cons.1 hmem with heq | hmem
  · obtain ⟨rfl, rfl⟩ := Prod.mk.inj heq
    exact ⟨k :: keys, .head _, .tail _ hkey⟩
  · exact ⟨keys, .tail _ hmem, hkey⟩

theorem Open.pop (h : Open (c :: opened) (top :: scopes) key b) (hkey : key ∉ top) :
    Open opened scopes key b := by
  obtain ⟨keys, hmem, hk⟩ := h
  rcases mem_cons.1 hmem with heq | hmem
  · cases heq
    exact absurd hk hkey
  · exact ⟨keys, hmem, hk⟩

end

variable {done : List (BlockId × ℕ × InstId)}

section

variable {done' : List (BlockId × ℕ × InstId)} {st' : GvnState} {q : ℕ}

theorem TableInv.of_same (hinv : TableInv f rep done opened mean st) (hext : Extends mean mean')
    (hnum : NumInv f rep mean' st') (hsame : SameExprs st st') (hdone : done ⊆ done') :
    TableInv f rep done' opened mean' st' := by
  have hkeys : scopeKeys st' = scopeKeys st := hsame.scopes
  refine ⟨hnum, by rw [hkeys]; exact hinv.scopes, ?_, ?_, ?_⟩
  · intro key vn L hentry
    rw [hsame.exprs] at hentry
    obtain ⟨b, q, inst, hopen, hmem, hplace, hexpr, hleads⟩ := hinv.exprs key vn L hentry
    exact ⟨b, q, inst, by rw [hkeys]; exact hopen, hdone hmem, hplace, hexpr.mono hext,
      hleads.mono hext⟩
  · rw [hsame.deadInsts]
    exact hinv.dead
  intro y x hyx
  rw [hsame.replacements] at hyx
  obtain ⟨hx, hE, e, he, hw⟩ := hinv.replacements y x hyx
  exact ⟨hx, hE, e, hdone he, hw⟩

theorem LoadInv.of_same (hinv : LoadInv f rep mean b q st) (hext : Extends mean mean')
    (hsame : st'.table.loadTable = st.table.loadTable) : LoadInv f rep mean' b q st' := by
  intro key entry hentry
  rw [hsame] at hentry
  obtain ⟨p, inst, hp, hplace, hload, hleads, hquiet⟩ := hinv key entry hentry
  exact ⟨p, inst, hp, hplace, hload.mono hext, hleads.mono hext, hquiet⟩

theorem killLoads_sameExprs (st : GvnState) :
    SameExprs st { st with table := st.table.killLoads } :=
  ⟨onTop_exprTable _ _, onTop_scopes _ fun _ => rfl, rfl, rfl⟩

/-- Only the numbers of the registers matter in the table. -/
theorem NumInv.of_vregs (hinv : NumInv f rep mean st) {table : ScopedValueTable}
    (h : table.vregToVn = st.table.vregToVn) : NumInv f rep mean { st with table := table } :=
  ⟨hinv.fresh, fun v n hv => hinv.vregs v n (h ▸ hv), hinv.imms, hinv.fimms⟩

end

/-! ## Visiting a block -/

theorem writtenOnce_of_single (hstatus : NoStatusWrites f) {v : VReg}
    (h : isMultiDef f v = false) : WrittenOnce f v := by
  rw [isMultiDef, decide_eq_false_iff_not, countDefs] at h
  refine writtenOnce_of_countP hstatus fun hlt => h (lt_of_lt_of_le hlt ?_)
  generalize places f = l
  induction l with
  | nil => exact le_rfl
  | cons e l ih =>
    rw [countP_cons, flatMap_cons, count_append, Nat.add_comm]
    refine Nat.add_le_add ?_ ih
    split_ifs with hmem
    · exact count_pos_iff.2 (by simpa using hmem)
    · exact Nat.zero_le _

section

variable {q : ℕ}

theorem ExprFor.soleDef (hstatus : NoStatusWrites f) (h : ExprFor f rep mean inst v key)
    (hplace : Place f b q i inst) : SoleDef f b q i inst v := by
  obtain ⟨hsingle, -, -, -, rest, ops, hdef, -⟩ := h
  exact ⟨hplace.reachable, hplace.place, hplace.getInst, hdef.writtenVregs,
    writtenOnce_of_single hstatus hsingle⟩

theorem LoadFor.soleDef (hstatus : NoStatusWrites f) {key : LoadKey}
    (h : LoadFor f rep mean inst v key) (hplace : Place f b q i inst) : SoleDef f b q i inst v := by
  obtain ⟨hsingle, -, -, -, base, more, hdef, -⟩ := h
  exact ⟨hplace.reachable, hplace.place, hplace.getInst, hdef.writtenVregs,
    writtenOnce_of_single hstatus hsingle⟩

theorem ExprFor.effect (h : ExprFor f rep mean inst v key) :
    (opcodeEffect inst.opcode).writesMemory = false := by
  obtain ⟨-, hpure, -⟩ := h
  simp only [keyedPure, Bool.and_eq_true, decide_eq_true_eq] at hpure
  rw [hpure.1.1.1]
  rfl

theorem LoadFor.effect {key : LoadKey} (h : LoadFor f rep mean inst v key) :
    (opcodeEffect inst.opcode).writesMemory = false := by
  obtain ⟨-, hload, -⟩ := h
  simp only [keyedLoad, Bool.and_eq_true, decide_eq_true_eq] at hload
  rw [hload.1.1]
  rfl

theorem insertLoad_sameExprs (st : GvnState) (key : LoadKey) (vn : ℕ) (leader : Leader) :
    SameExprs st { st with table := st.table.insertLoad key vn leader } :=
  ⟨onTop_exprTable _ _, onTop_scopes _ fun _ => rfl, rfl, rfl⟩

theorem scopeKeys_insertExpr {top : List VNExprKey} {scopes : List (List VNExprKey)}
    (h : scopeKeys st = top :: scopes) (key : VNExprKey) (vn : ℕ) (leader : Leader) :
    scopeKeys { st with table := st.table.insertExpr key vn leader }
      = (key :: top) :: scopes := by
  rw [scopeKeys] at h
  cases hstack : st.table.scopeStack with
  | nil => rw [hstack] at h; simp at h
  | cons frame frames =>
    rw [hstack, map_cons] at h
    obtain ⟨htop, hrest⟩ := List.cons.inj h
    show ((st.table.insertExpr key vn leader).scopeStack).map ScopeFrame.addedExprs = _
    rw [ScopedValueTable.insertExpr, ScopedValueTable.onTop]
    simp only [hstack, map_cons, htop, hrest]

theorem LoadInv.next (hinv : LoadInv f rep mean b q st) (hi : (f.blockInsts b)[q]? = some i)
    (hquiet : ∀ inst, f.insts[i]? = some inst → (opcodeEffect inst.opcode).writesMemory = false) :
    LoadInv f rep mean b (q + 1) st := by
  intro key entry hentry
  obtain ⟨p, inst, hp, hplace, hload, hleads, hbetween⟩ := hinv key entry hentry
  refine ⟨p, inst, Nat.lt_succ_of_lt hp, hplace, hload, hleads, ?_⟩
  intro k j inst' hpk hkq hj hinst'
  rcases Nat.lt_succ_iff_lt_or_eq.1 hkq with hkq | rfl
  · exact hbetween k j inst' hpk hkq hj hinst'
  cases hi.symm.trans hj
  exact hquiet inst' hinst'

end

variable {order : List BlockId} {fin : GvnState}

section

variable {rest : List (BlockId × ℕ × InstId)} {q : ℕ} {mid : GvnState} {vn p : ℕ}
    {leader : Leader} {a : BlockId}

theorem TableInv.insertExpr {top : List VNExprKey} {scopes : List (List VNExprKey)}
    (hinv : TableInv f rep done (b :: opened) mean st) (hkeys : scopeKeys st = top :: scopes)
    (hplace : Place f b q leader.instId inst) (hmem : (b, q, leader.instId) ∈ done)
    (hexpr : ExprFor f rep mean inst leader.defVreg key)
    (hleads : Leads rep mean vn leader.defVreg) :
    TableInv f rep done (b :: opened) mean
      { st with table := st.table.insertExpr key vn leader } := by
  have hscopes := scopeKeys_insertExpr hkeys key vn leader
  refine ⟨hinv.num.of_vregs (onTop_vregToVn _ _), ?_, ?_, hinv.dead, hinv.replacements⟩
  · rw [hscopes, ← hinv.scopes, hkeys]
    rfl
  intro key' vn' L hentry
  have htable : (st.table.insertExpr key vn leader).exprTable
      = update st.table.exprTable key (some (vn, leader)) := onTop_exprTable _ _
  rw [htable] at hentry
  rw [hscopes]
  rcases update_some_iff.1 hentry with ⟨rfl, hnew⟩ | ⟨hkk, hentry⟩
  · cases hnew
    exact ⟨b, q, inst, ⟨_, .head _, .head _⟩, hmem, hplace, hexpr, hleads⟩
  obtain ⟨a, p, inst', hopen, hrest⟩ := hinv.exprs key' vn' L hentry
  rw [hkeys] at hopen
  exact ⟨a, p, inst', hopen.add key, hrest⟩

theorem TableInv.eliminate (hinv : TableInv f rep done opened mean st) (hv : rep v = leader.defVreg)
    (hne : leader.defVreg ≠ v) (hmean : mean vn = some (.reg leader.defVreg))
    (helim : Eliminated f rep i v) (hw : ∃ e ∈ done, Writes f e.2.2 v) :
    TableInv f rep done opened mean (st.eliminate i v vn leader) := by
  have hsame := setVregVn_same st v vn
  have hset := hinv.of_same (.refl _) (hinv.num.setVregVn (hv ▸ hmean)) hsame.toSameExprs
    (List.Subset.refl done)
  refine ⟨{ hset.num with }, hset.scopes, hset.exprs, ?_, ?_⟩
  · intro E hE
    rcases mem_append.1 hE with hE | hE
    · exact hinv.dead E hE
    rw [mem_singleton.1 hE]
    exact ⟨v, by rw [hv]; exact hne, helim⟩
  intro y x hyx
  rcases mem_cons.1 hyx with heq | hyx
  · cases heq
    exact ⟨hv, ⟨i, helim⟩, hw⟩
  · exact hinv.replacements y x hyx

variable (hlisted : Listed f) (horder : Preorder f order)
  (hsplit : placesIn f order = done ++ (b, q, i) :: rest)
include hlisted horder hsplit

/-- The representative of a register is known when its definition has been visited. -/
theorem replaced_of_ahead (honce : WrittenOnce f v) (hw : Writes f i v)
    (hahead : Ahead f rest st fin) : replaced fin.replacements v = replaced st.replacements v := by
  obtain ⟨new, heq, hnew⟩ := hahead
  have hnone : new.lookup v = none := by
    cases hlookup : new.lookup v with
    | none => rfl
    | some x =>
      obtain ⟨e, he, hwe⟩ := hnew _ (mem_of_lookup hlookup)
      obtain ⟨r1, r2, rfl⟩ := append_of_mem he
      have hsplit' : placesIn f order = (done ++ (b, q, i) :: r1) ++ e :: r2 := by
        simpa using hsplit
      exact absurd hw (not_writes_done hlisted horder honce hsplit' hwe (b, q, i) (by simp))
  rw [replaced, replaced, heq, lookup_append, hnone, Option.none_or]

theorem rep_self_of_new (hinv : TableInv f rep done opened mean st)
    (hdef : SoleDef f b q i inst v) (hrep : rep = replaced fin.replacements)
    (hahead : Ahead f rest mid fin) (hsame : mid.replacements = st.replacements) : rep v = v := by
  rw [hrep, replaced_of_ahead hlisted horder hsplit hdef.once hdef.writes hahead, replaced, hsame]
  cases hlookup : st.replacements.lookup v with
  | none => rfl
  | some x =>
    obtain ⟨-, -, e, he, hwe⟩ := hinv.replacements v x (mem_of_lookup hlookup)
    exact absurd hwe (not_writes_done hlisted horder hdef.once hsplit hdef.writes e he)

theorem eliminate_step (hinv : TableInv f rep (done ++ [(b, q, i)]) opened mean st)
    (hplace : Place f b q i inst) {instL : MachInst}
    (hplaceL : Place f a p leader.instId instL) (hmem : (a, p, leader.instId) ∈ done)
    (hbefore : Before f a p b q) (hkey : SameKey f rep b a q p inst instL v leader.defVreg)
    (hleads : Leads rep mean vn leader.defVreg) (hdef : SoleDef f b q i inst v)
    (hdefL : SoleDef f a p leader.instId instL leader.defVreg)
    (hrep : rep = replaced fin.replacements)
    (hahead : Ahead f rest (st.eliminate i v vn leader) fin) :
    TableInv f rep (done ++ [(b, q, i)]) opened mean (st.eliminate i v vn leader) := by
  have hv : rep v = leader.defVreg := by
    rw [hrep, replaced_of_ahead hlisted horder hsplit hdef.once hdef.writes hahead, replaced]
    simp [GvnState.eliminate]
  have hne : leader.defVreg ≠ v := fun heq =>
    not_writes_done hlisted horder hdef.once hsplit hdef.writes _ hmem (heq ▸ hdefL.writes)
  have helim : Eliminated f rep i v := by
    refine ⟨b, q, a, p, leader.instId, inst, instL, hplace, hplaceL, hbefore, ?_, ?_⟩
    · rw [hv]; exact hleads.self
    · rw [hv]; exact hkey
  exact hinv.eliminate hv hne hleads.means helim ⟨(b, q, i), by simp, hdef.writes⟩

/-- **One visit keeps the tables**, for the representatives at the end of the walk. -/
theorem visit_step (hstatus : NoStatusWrites f) {outer : List BlockId}
    (hdoms : ∀ a ∈ b :: outer, Dominates f a b)
    (hinv : TableInv f rep done (b :: outer) mean st) (hloads : LoadInv f rep mean b q st)
    (hrep : rep = replaced fin.replacements) (hahead : Ahead f rest (visitInst f st i) fin) :
    ∃ mean', Extends mean mean'
      ∧ TableInv f rep (done ++ [(b, q, i)]) (b :: outer) mean' (visitInst f st i)
      ∧ LoadInv f rep mean' b (q + 1) (visitInst f st i) := by
  obtain ⟨hb, hi⟩ := mem_placesIn.1
    (show (b, q, i) ∈ placesIn f order by rw [hsplit]; simp)
  have hreach := (horder.mem_iff b).1 hb
  have hgrow : done ⊆ done ++ [(b, q, i)] := subset_append_left _ _
  cases hinst : f.insts[i]? with
  | none =>
    have h : visitInst f st i = st := by simp only [visitInst, hinst]
    rw [h]
    exact ⟨mean, .refl _, hinv.of_same (.refl _) hinv.num (SameTables.refl st).toSameExprs hgrow,
      hloads.next hi fun inst h => absurd (hinst.symm.trans h) (by simp)⟩
  | some inst =>
    -- the state after the loads have been forgotten where that is needed
    obtain ⟨st0, hst0, hinv0, hloads0, hsame0, hkept⟩ :
        ∃ st0, visitInst f st i = visitDef f st0 i inst
        ∧ TableInv f rep (done ++ [(b, q, i)]) (b :: outer) mean st0
        ∧ LoadInv f rep mean b (q + 1) st0 ∧ SameExprs st st0
        ∧ ∀ key entry, st0.table.loadTable key = some entry →
          st.table.loadTable key = some entry := by
      by_cases hwrites : (opcodeEffect inst.opcode).writesMemory = true
      · refine ⟨{ st with table := st.table.killLoads },
          by simp only [visitInst, hinst, if_pos hwrites],
          hinv.of_same (.refl _) (hinv.num.of_vregs (onTop_vregToVn _ _)) (killLoads_sameExprs st)
            hgrow, ?_, killLoads_sameExprs st, ?_⟩
        all_goals
          intro key entry hentry
          simp [ScopedValueTable.killLoads] at hentry
      refine ⟨st, by simp only [visitInst, hinst, if_neg hwrites],
        hinv.of_same (.refl _) hinv.num (SameTables.refl st).toSameExprs hgrow,
        hloads.next hi ?_, (SameTables.refl st).toSameExprs, fun _ _ h => h⟩
      intro inst' hinst'
      rw [← Option.some.inj (hinst.symm.trans hinst')]
      simpa using hwrites
    rw [hst0] at hahead ⊢
    have hplace : Place f b q i inst := ⟨hreach, hi, hinst⟩
    have hdoneAt : (b, q, i) ∈ done ++ [(b, q, i)] := by simp
    obtain ⟨mean', hext, hout⟩ := visitDef_outcome hinv0.num i inst
    refine ⟨mean', hext, ?_⟩
    have hmid : ∀ {mid}, NumInv f rep mean' mid → SameTables st0 mid →
        TableInv f rep (done ++ [(b, q, i)]) (b :: outer) mean' mid := fun hnum hsame =>
      hinv0.of_same hext hnum hsame.toSameExprs (List.Subset.refl _)
    generalize visitDef f st0 i inst = st' at hahead hout ⊢
    cases hout with
    | numbered hnum hsame =>
      exact ⟨hmid hnum hsame, hloads0.of_same hext hsame.loads⟩
    | @newExpr mid v key hsame hnum hmean hexpr =>
      have hself := rep_self_of_new hlisted horder hsplit hinv (hexpr.soleDef hstatus hplace)
        hrep hahead (hsame.replacements.trans hsame0.replacements)
      rw [hself] at hmean
      obtain ⟨top, scopes, hkeys⟩ : ∃ top scopes, scopeKeys (mid.setFresh v) = top :: scopes :=
        exists_cons_of_length_eq_add_one (hmid hnum hsame).scopes
      refine ⟨(hmid hnum hsame).insertExpr hkeys hplace hdoneAt hexpr ⟨hself, hmean⟩, ?_⟩
      exact (hloads0.of_same hext hsame.loads).of_same (.refl _) (onTop_loadTable _ _)
    | @sameExpr mid v key vn leader hsame hnum hexpr hentry =>
      obtain ⟨a, p, instL, hopen, hmem, hplaceL, hexprL, hleads⟩ :=
        hinv.exprs key vn leader (by rw [← hsame0.exprs]; exact hentry)
      refine ⟨eliminate_step hlisted horder hsplit (hmid hnum hsame) hplace hplaceL hmem
        (before_of_mem_done horder.nodup hsplit hmem (hdoms a hopen.mem))
        ⟨mean', .inl ⟨key, hexpr, hexprL.mono hext⟩⟩ (hleads.mono hext)
        (hexpr.soleDef hstatus hplace) (hexprL.soleDef hstatus hplaceL) hrep hahead, ?_⟩
      exact (hloads0.of_same hext hsame.loads).of_same (.refl _) (onTop_loadTable _ _)
    | @newLoad mid v key hsame hnum hmean hload =>
      have hself := rep_self_of_new hlisted horder hsplit hinv (hload.soleDef hstatus hplace)
        hrep hahead (hsame.replacements.trans hsame0.replacements)
      rw [hself] at hmean
      refine ⟨(hmid hnum hsame).of_same (.refl _) (hnum.of_vregs (onTop_vregToVn _ _))
        (insertLoad_sameExprs _ key mid.next ⟨i, v⟩) (List.Subset.refl _), ?_⟩
      intro key' entry hentry
      have htable : ((mid.setFresh v).table.insertLoad key mid.next ⟨i, v⟩).loadTable
          = update (mid.setFresh v).table.loadTable key (some ⟨mid.next, i, v⟩) :=
        onTop_loadTable _ _
      rw [htable] at hentry
      rcases update_some_iff.1 hentry with ⟨rfl, rfl⟩ | ⟨-, hentry⟩
      · exact ⟨q, inst, Nat.lt_succ_self q, hplace, hload, ⟨hself, hmean⟩,
          fun k j inst' hqk hkq => absurd hkq (by omega)⟩
      exact hloads0.of_same hext hsame.loads key' entry hentry
    | @sameLoad mid v key entry hsame hnum hload hentry =>
      obtain ⟨p, instL, hp, hplaceL, hloadL, hleads, hquiet⟩ :=
        hloads key entry (hkept key entry hentry)
      have hmem : (b, p, entry.leader.instId) ∈ done :=
        mem_done_of_earlierIn horder.nodup hsplit (mem_placesIn.2 ⟨hb, hplaceL.place⟩)
          (.inr ⟨rfl, hp⟩)
      have hbefore : Before f b p b q := by
        unfold Before
        rw [if_pos rfl]
        exact hp
      refine ⟨eliminate_step hlisted horder hsplit (hmid hnum hsame) hplace hplaceL hmem hbefore
        ⟨mean', .inr ⟨⟨key, hload, hloadL.mono hext⟩, rfl, hquiet⟩⟩ (hleads.mono hext)
        (hload.soleDef hstatus hplace) (hloadL.soleDef hstatus hplaceL) hrep hahead, ?_⟩
      exact (hloads0.of_same hext hsame.loads).of_same (.refl _) (onTop_loadTable _ _)

end

/-! ## The walk -/

section

theorem mem_definedVregs_of_primary {rest : List MachOperand}
    (hops : inst.operands = .vreg v :: rest) (hsome : (definedVregs inst).isEmpty = false)
    (hprimary : hasNonPrimaryDef inst = false) : v ∈ definedVregs inst :=
  mem_definedVregs (zero_mem_defOperandPositions hsome hprimary) (by rw [hops]; rfl)

/-- Replacements of registers of `vs` have been added. -/
def Adds (vs : List VReg) (st st' : GvnState) : Prop :=
  ∃ new, st'.replacements = new ++ st.replacements ∧ ∀ p ∈ new, p.1 ∈ vs

section

variable {vs : List VReg} {mid : GvnState}

theorem Adds.of_eq (h : mid.replacements = st.replacements) : Adds vs st mid := ⟨[], h, by simp⟩

variable (hv : v ∈ vs)
include hv

theorem Adds.eliminate (h : mid.replacements = st.replacements) (vn : ℕ) (leader : Leader) :
    Adds vs st (mid.eliminate i v vn leader) :=
  ⟨[(v, leader.defVreg)], congrArg (List.cons _) h, by simpa using hv⟩

theorem visitPure_adds : Adds vs st (visitPure f st i inst v) := by
  have hsame := (makeExprKey_same f st inst).replacements
  unfold visitPure
  rcases hkey : makeExprKey f st inst with ⟨_ | key, mid⟩ <;> rw [hkey] at hsame
  · exact .of_eq hsame
  dsimp only
  split
  · exact .eliminate hv hsame _ _
  · exact .of_eq hsame

theorem visitLoad_adds : Adds vs st (visitLoad f st i inst v) := by
  have hsame := (makeLoadKey_same f st inst).replacements
  unfold visitLoad
  rcases hkey : makeLoadKey f st inst with ⟨_ | key, mid⟩ <;> rw [hkey] at hsame
  · exact .of_eq hsame
  dsimp only
  split
  · exact .eliminate hv hsame _ _
  · exact .of_eq hsame

end

theorem foldl_setFresh_replacements (vs : List VReg) (st : GvnState) :
    (vs.foldl GvnState.setFresh st).replacements = st.replacements := by
  induction vs generalizing st with
  | nil => rfl
  | cons v vs ih => exact ih _

theorem visitDef_adds (f : MachFunction) (st : GvnState) (i : InstId) (inst : MachInst) :
    Adds (definedVregs inst) st (visitDef f st i inst) := by
  unfold visitDef
  split_ifs with hsome hskip
  · exact .of_eq rfl
  · exact .of_eq (foldl_setFresh_replacements _ st)
  simp only [Bool.or_eq_true, not_or, Bool.not_eq_true] at hsome hskip
  split
  next v rest hops =>
    have hmem := mem_definedVregs_of_primary hops hsome hskip.1
    split_ifs
    · exact .of_eq rfl
    split
    · exact visitLoad_adds hmem
    · exact visitPure_adds hmem
    · exact .of_eq rfl
  · exact .of_eq rfl

theorem visitInst_ahead (f : MachFunction) (st : GvnState) (b : BlockId) (q : ℕ) (i : InstId) :
    Ahead f [(b, q, i)] st (visitInst f st i) := by
  unfold visitInst
  split
  · exact .of_eq rfl _
  rename_i inst hinst
  obtain ⟨new, heq, hnew⟩ := visitDef_adds f
    (if (opcodeEffect inst.opcode).writesMemory then { st with table := st.table.killLoads }
      else st) i inst
  refine ⟨new, heq.trans (congrArg (new ++ ·) ?_), fun p hp =>
    ⟨(b, q, i), by simp, inst, hinst, mem_writtenVregs_of_defined (hnew p hp)⟩⟩
  split_ifs <;> rfl

/-- The places of some instructions of a block, from a position on. -/
def placesFrom (b : BlockId) (q : ℕ) (is : List InstId) : List (BlockId × ℕ × InstId) :=
  (is.zipIdx q).map fun e => (b, e.2, e.1)

theorem placesFrom_cons (b : BlockId) (q : ℕ) (i : InstId) (is : List InstId) :
    placesFrom b q (i :: is) = (b, q, i) :: placesFrom b (q + 1) is := by
  rw [placesFrom, zipIdx_cons]
  rfl

theorem placesIn_append (f : MachFunction) (l1 l2 : List BlockId) :
    placesIn f (l1 ++ l2) = placesIn f l1 ++ placesIn f l2 := flatMap_append

theorem placesIn_singleton (f : MachFunction) (b : BlockId) :
    placesIn f [b] = placesFrom b 0 (f.blockInsts b) := by
  rw [placesIn, flatMap_singleton]
  rfl

theorem foldl_visitInst_ahead (f : MachFunction) (b : BlockId) (is : List InstId) (q : ℕ)
    (st : GvnState) : Ahead f (placesFrom b q is) st (is.foldl (visitInst f) st) := by
  induction is generalizing q st with
  | nil => exact .of_eq rfl _
  | cons i is ih =>
    rw [placesFrom_cons]
    exact (visitInst_ahead f st b q i).trans (ih (q + 1) _)

end

/-- The blocks that wait to be entered. -/
def enters (work : List Step) : List BlockId :=
  work.filterMap fun step =>
    match step with
    | .enter b => some b
    | .exit _ => none

theorem enters_children (children : List BlockId) (outer : LoadTable) (work : List Step) :
    enters (children.map .enter ++ .exit outer :: work) = children ++ enters work := by
  rw [enters, filterMap_append, filterMap_map]
  congr 1
  exact filterMap_some

section

variable {dom : DomTree}

theorem walk_terminates : ∀ (n : ℕ) (entered : List BlockId) (u : List BlockId × List BlockId)
    (work : List Step) (st : GvnState),
    Loop.run (TreeTour.preorderStep dom.children) n (entered, enters work) = some u →
    ∃ fuel t, Loop.run (walkStep f dom) fuel (work, st) = some t := by
  intro n
  induction n with
  | zero => intro entered u work st h; simp [Loop.run] at h
  | succ n ih =>
    intro entered u work
    -- leaving scopes does not count as a step of the preorder
    induction work with
    | nil => intro st _; exact ⟨1, _, rfl⟩
    | cons step work ihw =>
      intro st h
      cases step with
      | exit outer =>
        obtain ⟨fuel, t, ht⟩ := ihw _ h
        exact ⟨fuel + 1, t, ht⟩
      | enter b =>
        have h' : Loop.run (TreeTour.preorderStep dom.children) n
            (entered ++ [b], dom.children b ++ enters work) = some u := h
        rw [← enters_children _ st.table.loadTable] at h'
        obtain ⟨fuel, t, ht⟩ := ih _ u _ _ h'
        exact ⟨fuel + 1, t, ht⟩

end

section

variable {later : List (BlockId × ℕ × InstId)}

theorem TableInv.push (hinv : TableInv f rep done opened mean st) (b : BlockId) :
    TableInv f rep done (b :: opened) mean
      { st with table := { st.table.pushScope with loadTable := fun _ => none } } := by
  have hkeys : scopeKeys { st with
      table := { st.table.pushScope with loadTable := fun _ => none } } = [] :: scopeKeys st := rfl
  refine ⟨{ hinv.num with }, ?_, ?_, hinv.dead, hinv.replacements⟩
  · rw [hkeys, length_cons, length_cons, hinv.scopes]
  intro key vn L hentry
  obtain ⟨a, q, inst, hopen, hrest⟩ := hinv.exprs key vn L hentry
  exact ⟨a, q, inst, by rw [hkeys]; exact hopen.push, hrest⟩

theorem TableInv.pop (hinv : TableInv f rep done (b :: opened) mean st) (outer : LoadTable) :
    TableInv f rep done opened mean { st with table :=
      { { st.table with loadTable := fun _ => none }.popScope with loadTable := outer } } := by
  have hlen := hinv.scopes
  cases hstack : st.table.scopeStack with
  | nil => rw [scopeKeys, hstack] at hlen; simp at hlen
  | cons frame frames =>
    have hkeys : scopeKeys st = frame.addedExprs :: frames.map ScopeFrame.addedExprs := by
      rw [scopeKeys, hstack]
      rfl
    simp only [ScopedValueTable.popScope, hstack]
    refine ⟨⟨hinv.num.fresh, ?_, hinv.num.imms, hinv.num.fimms⟩, ?_, ?_, hinv.dead,
      hinv.replacements⟩
    · intro v n hv
      dsimp only [removeKeys] at hv
      split_ifs at hv
      exact hinv.num.vregs v n hv
    · rw [hkeys] at hlen
      exact Nat.succ.inj hlen
    intro key vn L hentry
    dsimp only [removeKeys] at hentry
    split_ifs at hentry with hkey
    obtain ⟨a, q, inst, hopen, hrest⟩ := hinv.exprs key vn L hentry
    rw [hkeys] at hopen
    exact ⟨a, q, inst, hopen.pop hkey, hrest⟩

variable (hstatus : NoStatusWrites f) (hlisted : Listed f) (horder : Preorder f order)
include hstatus hlisted horder

theorem block_step {outer : List BlockId} (hdoms : ∀ a ∈ b :: outer, Dominates f a b)
    (hrep : rep = replaced fin.replacements) (is : List InstId) (q : ℕ)
    (done : List (BlockId × ℕ × InstId)) (mean : ℕ → Option Meaning) (st : GvnState)
    (hsplit : placesIn f order = done ++ (placesFrom b q is ++ later))
    (hinv : TableInv f rep done (b :: outer) mean st) (hloads : LoadInv f rep mean b q st)
    (hahead : Ahead f later (is.foldl (visitInst f) st) fin) :
    ∃ mean', TableInv f rep (done ++ placesFrom b q is) (b :: outer) mean'
      (is.foldl (visitInst f) st) := by
  induction is generalizing q done mean st with
  | nil => exact ⟨mean, by rw [placesFrom, zipIdx_nil, map_nil, append_nil]; exact hinv⟩
  | cons i is ih =>
    rw [placesFrom_cons] at hsplit ⊢
    have hnext : Ahead f (placesFrom b (q + 1) is ++ later) (visitInst f st i) fin :=
      (foldl_visitInst_ahead f b is (q + 1) _).trans hahead
    obtain ⟨mean1, -, hinv1, hloads1⟩ :=
      visit_step hlisted horder (by simpa using hsplit) hstatus hdoms hinv hloads hrep hnext
    obtain ⟨mean2, hinv2⟩ := ih (q + 1) _ mean1 _ (by simpa using hsplit) hinv1 hloads1 hahead
    exact ⟨mean2, by simpa using hinv2⟩

/-- The waiting blocks are dominated by the blocks whose scopes will be open. -/
def WorkOk (f : MachFunction) : List Step → List BlockId → Prop
  | [], _ => True
  | .enter c :: work, opened => (∀ a ∈ opened, Dominates f a c) ∧ WorkOk f work opened
  | .exit _ :: work, opened => ∃ a outer, opened = a :: outer ∧ WorkOk f work outer

omit hstatus hlisted horder in
theorem WorkOk.enters {work : List Step} (hwork : WorkOk f work opened) (children : List BlockId)
    (h : ∀ c ∈ children, ∀ a ∈ opened, Dominates f a c) :
    WorkOk f (children.map .enter ++ work) opened := by
  induction children with
  | nil => exact hwork
  | cons c children ih => exact ⟨h c (.head _), ih fun d hd => h d (.tail _ hd)⟩

/-- **The tables along the walk.**  What is replaced in the rest of the walk is written in the
blocks that it enters. -/
theorem walk_step {dom : DomTree} (hdom : DomTree.Ok f dom) (hrep : rep = replaced fin.replacements)
    (fuel : ℕ) (work work' : List Step) (st : GvnState)
    (h : Loop.run (walkStep f dom) fuel (work, st) = some (work', fin)) :
    ∀ (n : ℕ) (entered stack : List BlockId), Loop.run (TreeTour.preorderStep dom.children) n
        (entered, enters work) = some (order, stack) →
      (∃ later, order = entered ++ later ∧ Ahead f (placesIn f later) st fin)
      ∧ ∀ opened mean, WorkOk f work opened →
        TableInv f rep (placesIn f entered) opened mean st →
        ∃ opened' mean', TableInv f rep (placesIn f order) opened' mean' fin := by
  induction fuel generalizing work work' st with
  | zero => simp [Loop.run] at h
  | succ fuel ih =>
    intro n entered stack hn
    rw [Loop.run] at h
    cases work with
    | nil =>
      cases h
      cases n with
      | zero => simp [Loop.run] at hn
      | succ n =>
        obtain ⟨rfl, -⟩ := Prod.mk.inj (Option.some.inj hn)
        exact ⟨⟨[], (append_nil _).symm, .of_eq rfl _⟩, fun opened mean _ hinv =>
          ⟨opened, mean, hinv⟩⟩
    | cons step work =>
      cases step with
      | exit outer =>
        obtain ⟨hlater, hkeep⟩ := ih _ _ _ h n entered stack hn
        refine ⟨hlater, ?_⟩
        rintro _ mean ⟨a, opened, rfl, hwork⟩ hinv
        exact hkeep opened mean hwork (hinv.pop outer)
      | enter b =>
        cases n with
        | zero => simp [Loop.run] at hn
        | succ n =>
          have hn' : Loop.run (TreeTour.preorderStep dom.children) n
              (entered ++ [b], dom.children b ++ enters work) = some (order, stack) := hn
          rw [← enters_children _ st.table.loadTable] at hn'
          obtain ⟨⟨later, hlater, hahead⟩, hkeep⟩ := ih _ _ _ h n _ _ hn'
          refine ⟨⟨b :: later, by rw [hlater]; simp, ?_⟩, ?_⟩
          · rw [← singleton_append, placesIn_append, placesIn_singleton]
            refine Ahead.trans ?_ hahead
            exact foldl_visitInst_ahead f b (f.blockInsts b) 0 _
          rintro opened mean ⟨hdoms, hwork⟩ hinv
          have hdoms' : ∀ a ∈ b :: opened, Dominates f a b := by
            intro a ha
            rcases mem_cons.1 ha with rfl | ha
            · exact Dominators.Dominates.refl f.entry f.Edge a
            · exact hdoms a ha
          have hsplit : placesIn f order = placesIn f entered
              ++ (placesFrom b 0 (f.blockInsts b) ++ placesIn f later) := by
            rw [show order = entered ++ ([b] ++ later) by simpa using hlater,
              placesIn_append, placesIn_append, placesIn_singleton]
          obtain ⟨mean1, hinv1⟩ := block_step hstatus hlisted horder hdoms' hrep
            (f.blockInsts b) 0 _ mean _ hsplit (hinv.push b)
            (fun key entry hentry => absurd hentry (by simp)) hahead
          rw [← placesIn_singleton, ← placesIn_append] at hinv1
          refine hkeep (b :: opened) mean1 ?_ ?_
          · have hexit : WorkOk f (.exit st.table.loadTable :: work) (b :: opened) :=
              ⟨b, opened, rfl, hwork⟩
            exact hexit.enters _ fun c hc a ha =>
              (hdoms' a ha).trans (hdom.children_dominates b c hc)
          exact hinv1.of_same (.refl _)
            { hinv1.num with }
            ⟨rfl, rfl, rfl, rfl⟩ (List.Subset.refl _)

end

/-- **The state at the end of the walk.** -/
theorem domWalkGvn_spec {dom : DomTree} (hstatus : NoStatusWrites f) (hlisted : Listed f)
    (hdom : DomTree.Ok f dom) :
    ∃ bound fin, (∀ fuel, bound ≤ fuel → domWalkGvn fuel f dom = some fin)
      ∧ (∀ E ∈ fin.deadInsts, ∃ y, replaced fin.replacements y ≠ y
        ∧ Eliminated f (replaced fin.replacements) E y)
      ∧ ∀ y, replaced fin.replacements y ≠ y →
        ∃ E, Eliminated f (replaced fin.replacements) E y := by
  obtain ⟨n, order, hrun, hnodup, hmem, hbefore⟩ := hdom.preorder
  have horder : Preorder f order := ⟨hnodup, hmem, hbefore⟩
  obtain ⟨⟨order', stack⟩, hpre, horder'⟩ := Option.map_eq_some_iff.1 (hrun n le_rfl)
  obtain rfl : order' = order := horder'
  obtain ⟨fuel, ⟨work', fin⟩, hwalk⟩ :=
    walk_terminates (f := f) n [] (order', stack) [.enter f.entry] {} hpre
  have hstart : TableInv f (replaced fin.replacements) (placesIn f []) [] (fun _ => none) {} :=
    ⟨⟨fun _ _ => rfl, fun _ _ h => absurd h (by simp), fun _ _ h => absurd h (by simp),
      fun _ _ h => absurd h (by simp)⟩, rfl, fun _ _ _ h => absurd h (by simp), by simp, by simp⟩
  obtain ⟨opened, mean, hinv⟩ := (walk_step hstatus hlisted horder hdom rfl fuel _ _ _ hwalk n []
    stack hpre).2 [] _ ⟨by simp, trivial⟩ hstart
  refine ⟨fuel, fin, fun k hk => ?_, hinv.dead, fun y hy => ?_⟩
  · rw [domWalkGvn, Loop.run_mono _ _ _ _ hk hwalk]
    rfl
  cases hlookup : fin.replacements.lookup y with
  | none => exact absurd (by rw [replaced, hlookup]; rfl) hy
  | some x => exact (hinv.replacements y x (mem_of_lookup hlookup)).2.1

end TrustCg.Opt.Gvn
