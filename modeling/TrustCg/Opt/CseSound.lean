import TrustCg.Opt.Cse

/-!
# What common-subexpression elimination preserves

The table of available expressions is filled along one walk of the dominator tree, and its
keys hold definition counters that follow this walk and not control flow.  For registers
with one definition the counter is 1 wherever they are read, since no path reads a
register before it is written; so equal keys mean equal operands.

* `runCse_preserves` : the function without the eliminated instructions runs as the
  original one does, with and without the fixpoint for relocated addresses, where only
  branches follow a branch in its block.
* `runCse_reads_unwritten` : it does not when a block is left before the instruction that
  computes the value.
-/

namespace TrustCg.Opt.Cse

open Ir List
open Ir.MachFunction (State)
open RegAlloc (RegClass BlockId InstId VReg)

variable {b : BlockId} {q : ℕ} {i : InstId}

/-! ## Candidates -/

variable {f : MachFunction} {inst : MachInst} {v : VReg}

theorem candidateDef_spec (h : candidateDef f inst = some v) :
    admitted f inst = true ∧ hasMultiDef f v = false ∧ ∃ rest, inst.operands = .vreg v :: rest
      ∧ ∀ w, .vreg w ∈ rest → hasMultiDef f w = false := by
  unfold candidateDef at h
  split_ifs at h with hadm
  split at h
  next v' rest hops =>
    split_ifs at h with hcond
    cases h
    simp only [not_or, Bool.not_eq_true] at hcond
    refine ⟨hadm, hcond.2.1, rest, hops, fun w hw => ?_⟩
    have hany := hcond.2.2
    rw [hasMultiDefVregOperand, any_eq_false] at hany
    simpa [MachOperand.asVreg] using hany _ hw
  · simp at h

theorem roles_of_admitted (hadm : admitted f inst = true) (n : ℕ) :
    operandRoles inst.opcode (n + 1) = .Def :: List.replicate n .Use := by
  simp only [admitted, Bool.and_eq_true, decide_eq_true_eq, Bool.not_eq_true'] at hadm
  obtain ⟨⟨⟨⟨⟨heffect, hvalue, -⟩, -⟩, -⟩, htied⟩, -⟩ := hadm
  exact operandRoles_of_pure heffect hvalue htied n

theorem vregs_of_admitted (hadm : admitted f inst = true) {rest : List MachOperand}
    (hops : inst.operands = .vreg v :: rest) :
    definedVregs inst = [v] ∧ writtenVregs inst = [v]
      ∧ usedVregs inst = rest.filterMap MachOperand.asVreg := by
  exact vregs_of_roles hops (roles_of_admitted hadm _)

theorem vregs_of_candidateDef (h : candidateDef f inst = some v) :
    definedVregs inst = [v] ∧ writtenVregs inst = [v] := by
  obtain ⟨hadm, -, rest, hops, -⟩ := candidateDef_spec h
  obtain ⟨hdefs, hwritten, -⟩ := vregs_of_admitted hadm hops
  exact ⟨hdefs, hwritten⟩

/-- A register that is not defined more than once is written at one place. -/
theorem writtenOnce_of_single (hstatus : NoStatusWrites f) (h : hasMultiDef f v = false) :
    WrittenOnce f v := by
  rw [hasMultiDef, decide_eq_false_iff_not, countDefs] at h
  exact writtenOnce_of_countP hstatus h

/-! ## One visit -/

variable {dom : DomTree} {reloc : Bool}

theorem lookupKey_versions (st : CseState) (b : BlockId) (i : InstId) (v : VReg) (version : ℕ)
    (key : ExprKey) : (st.lookupKey f dom b i v version key).versions = st.versions := by
  unfold CseState.lookupKey
  split
  · split_ifs <;> rfl
  · rfl

theorem visit_versions (st : CseState) (e : BlockId × ℕ × InstId) (v : VReg) :
    (visit f dom reloc st e).versions v
      = st.versions v + if v ∈ definedAt f e.2.2 then 1 else 0 := by
  unfold visit definedAt
  cases f.insts[e.2.2]? with
  | none => simp
  | some inst =>
    have henter : (st.enter inst).versions v
        = st.versions v + if v ∈ definedVregs inst then 1 else 0 := by
      show bump st.versions inst v = _
      unfold bump
      split_ifs <;> rfl
    rw [Option.map_some, Option.getD_some, ← henter]
    dsimp only
    split
    · split_ifs
      · rfl
      · rw [lookupKey_versions]
    · rfl

/-- What a visit of a candidate knows. -/
structure Visit (f : MachFunction) (reloc : Bool) (st : CseState) (e : BlockId × ℕ × InstId)
    (inst : MachInst) (v : VReg) (key : ExprKey) : Prop where
  getInst : f.insts[e.2.2]? = some inst
  candidate : candidateDef f inst = some v
  key_eq : key = (st.enter inst).key f reloc inst v
  hashable : .other ∉ key.operands

/-- **What a visit can do.**  It adds an expression, eliminates the instruction, or does
neither; expressions are only forgotten otherwise. -/
theorem visit_cases (f : MachFunction) (dom : DomTree) (reloc : Bool) (st : CseState)
    (e : BlockId × ℕ × InstId) :
    let st' := visit f dom reloc st e
    (st'.replacements = st.replacements ∧ st'.deadInsts = st.deadInsts
        ∧ ∀ x ∈ st'.available, x ∈ st.available)
      ∨ (∃ inst v key, Visit f reloc st e inst v key
          ∧ st'.replacements = st.replacements ∧ st'.deadInsts = st.deadInsts
          ∧ ∀ x ∈ st'.available, x = (key, ⟨e.2.2, e.1, v⟩) ∨ x ∈ st.available)
      ∨ ∃ inst v key avail, Visit f reloc st e inst v key ∧ (key, avail) ∈ st.available
          ∧ dom.dominates avail.block e.1 = true
          ∧ st'.replacements = ((v, st'.versions v), avail.defVreg) :: st.replacements
          ∧ st'.deadInsts = st.deadInsts ++ [e.2.2]
          ∧ ∀ x ∈ st'.available, x ∈ st.available := by
  intro st'
  have hst' : st' = visit f dom reloc st e := rfl
  unfold visit at hst'
  cases hinst : f.insts[e.2.2]? with
  | none =>
    rw [hinst] at hst'
    exact .inl (by rw [hst']; exact ⟨rfl, rfl, fun x hx => hx⟩)
  | some inst =>
    have hforget : ∀ x ∈ (st.enter inst).available, x ∈ st.available := by
      intro x hx
      unfold CseState.enter at hx
      split_ifs at hx
      · simp at hx
      · exact hx
    have hquiet : st' = st.enter inst → st'.replacements = st.replacements
        ∧ st'.deadInsts = st.deadInsts ∧ ∀ x ∈ st'.available, x ∈ st.available := by
      intro h
      rw [h]
      exact ⟨rfl, rfl, hforget⟩
    rw [hinst] at hst'
    dsimp only at hst'
    split at hst'
    next v version hcand hversion =>
      -- the counter of the written register is the new one
      have hver : version = (st.enter inst).versions v := by
        obtain ⟨-, -, rest, hops, -⟩ := candidateDef_spec hcand
        rw [defVersion, hops, (vregs_of_candidateDef hcand).1] at hversion
        have hbump : some version = some (bump st.versions inst v) := by
          simpa [MachOperand.asVreg] using hversion.symm
        exact Option.some.inj hbump
      split_ifs at hst' with hother
      · exact .inl (hquiet hst')
      have hvisit : Visit f reloc st e inst v ((st.enter inst).key f reloc inst v) :=
        ⟨hinst, hcand, rfl, hother⟩
      have hadded : st' = { st.enter inst with
          available := ((st.enter inst).key f reloc inst v, ⟨e.2.2, e.1, v⟩)
            :: (st.enter inst).available } →
          st'.replacements = st.replacements ∧ st'.deadInsts = st.deadInsts
            ∧ ∀ x ∈ st'.available, x = ((st.enter inst).key f reloc inst v, ⟨e.2.2, e.1, v⟩)
              ∨ x ∈ st.available := by
        intro h
        rw [h]
        refine ⟨rfl, rfl, fun x hx => ?_⟩
        rcases mem_cons.1 hx with hx | hx
        · exact .inl hx
        · exact .inr (hforget x hx)
      unfold CseState.lookupKey at hst'
      split at hst'
      next avail hlookup =>
        split_ifs at hst' with hmulti hdominates
        · exact .inl (hquiet hst')
        · refine .inr (.inr ⟨inst, v, _, avail, hvisit, hforget _ (mem_of_lookup hlookup),
            hdominates, ?_, ?_, ?_⟩)
          · rw [hst', hver]; rfl
          · rw [hst']; rfl
          · rw [hst']; exact hforget
        · exact .inr (.inl ⟨inst, v, _, hvisit, hadded hst'⟩)
      · exact .inr (.inl ⟨inst, v, _, hvisit, hadded hst'⟩)
    · exact .inl (hquiet hst')

/-! ## The walk -/

/-- An operand and its canonical form; registers count as the same when they have the same
representative. -/
def CanonRel (rep : VReg → VReg) : MachOperand → CanonOperand → Prop
  | .vreg u, c => ∃ u', c = .vreg u' 1 ∧ rep u' = rep u
  | .imm n, c => c = .imm n
  | .fimm bits, c => c = .fimm bits
  | .symbol name, c => c = .symbol name
  | _, c => c = .other

/-- The key is that of the instruction, up to the order of commutative operands. -/
def KeyFor (rep : VReg → VReg) (inst : MachInst) (key : ExprKey) : Prop :=
  ∃ v rest ops, inst.operands = .vreg v :: rest ∧ key.opcode = inst.opcode
    ∧ key.resultClass = v.cls ∧ List.Forall₂ (CanonRel rep) ops key.operands
    ∧ (ops = rest ∨ inst.opcode.isCommutative = true ∧ ∃ a b, rest = [a, b] ∧ ops = [b, a])
    ∧ .other ∉ key.operands

/-- A candidate at a reachable place, with its register and its key. -/
structure Keyed (f : MachFunction) (rep : VReg → VReg) (key : ExprKey) (b : BlockId) (q : ℕ)
    (i : InstId) (v : VReg) : Prop where
  reachable : f.Reachable b
  place : (f.blockInsts b)[q]? = some i
  inst : ∃ inst, f.insts[i]? = some inst ∧ candidateDef f inst = some v ∧ KeyFor rep inst key

/-- The instruction, which writes `y`, has the key of one that comes before it on every
path and writes the representative of `y`. -/
def Eliminated (f : MachFunction) (rep : VReg → VReg) (E : InstId) (y : VReg) : Prop :=
  ∃ key bE qE bL qL L, Keyed f rep key bE qE E y ∧ Keyed f rep key bL qL L (rep y)
    ∧ Before f bL qL bE qE ∧ rep (rep y) = rep y

variable {key : ExprKey}

section

variable {rep : VReg → VReg} (h : Keyed f rep key b q i v) (hstatus : NoStatusWrites f)
include h hstatus

theorem Keyed.soleDef :
    ∃ inst, SoleDef f b q i inst v ∧ candidateDef f inst = some v ∧ KeyFor rep inst key := by
  obtain ⟨inst, hinst, hcand, hkey⟩ := h.inst
  exact ⟨inst, ⟨h.reachable, h.place, hinst, (vregs_of_candidateDef hcand).2,
    writtenOnce_of_single hstatus (candidateDef_spec hcand).2.1⟩, hcand, hkey⟩

theorem Keyed.writes : Writes f i v ∧ WrittenOnce f v := by
  obtain ⟨inst, hsole, -⟩ := h.soleDef hstatus
  exact ⟨hsole.writes, hsole.once⟩

end

/-- The representative of a register in the replacements of the walk. -/
def repOf (replacements : Replacements) (v : VReg) : VReg := (replacements.lookup (v, 1)).getD v

/-- What holds of the tables after the places of `done`. -/
structure WalkInv (f : MachFunction) (rep : VReg → VReg) (done : List (BlockId × ℕ × InstId))
    (st : CseState) : Prop where
  versions : ∀ v, st.versions v = done.countP fun e => v ∈ definedAt f e.2.2
  available : ∀ key a, (key, a) ∈ st.available → rep a.defVreg = a.defVreg
    ∧ ∃ q, (a.block, q, a.instId) ∈ done ∧ Keyed f rep key a.block q a.instId a.defVreg
  dead : ∀ E ∈ st.deadInsts, ∃ y, rep y ≠ y ∧ Eliminated f rep E y
  replacements : ∀ y k x, ((y, k), x) ∈ st.replacements → k = 1 ∧ rep y = x
    ∧ (∃ E, Eliminated f rep E y) ∧ (∃ e ∈ done, Writes f e.2.2 y)
    ∧ ∃ e ∈ done, Writes f e.2.2 x

section

variable {order : List BlockId} {done rest : List (BlockId × ℕ × InstId)}
    {e : BlockId × ℕ × InstId} (hlisted : Listed f) (horder : Preorder f order)
include hlisted horder

theorem countP_done (hstatus : NoStatusWrites f) (h : WrittenOnce f v) :
    ∀ (done rest : List (BlockId × ℕ × InstId)), placesIn f order = done ++ rest →
      (∃ e ∈ done, Writes f e.2.2 v) → (done.countP fun e => v ∈ definedAt f e.2.2) = 1 := by
  intro done
  induction done using List.reverseRecOn with
  | nil => rintro rest - ⟨e, he, -⟩; simp at he
  | append_singleton done e ih =>
    rintro rest hsplit ⟨e', he', hw'⟩
    have hsplit' : placesIn f order = done ++ e :: rest := by simpa using hsplit
    rw [countP_append, countP_singleton]
    by_cases hw : Writes f e.2.2 v
    · -- the last place is the one that writes it
      have hzero : (done.countP fun e => v ∈ definedAt f e.2.2) = 0 := by
        rw [countP_eq_zero]
        intro x hx
        simpa [mem_definedAt hstatus] using not_writes_done hlisted horder h hsplit' hw x hx
      rw [hzero, if_pos (by simpa [mem_definedAt hstatus] using hw)]
    have hin : e' ∈ done := by
      rcases mem_append.1 he' with hmem | hmem
      · exact hmem
      · exact absurd (mem_singleton.1 hmem ▸ hw') hw
    rw [ih _ hsplit' ⟨e', hin, hw'⟩, if_neg (by simpa [mem_definedAt hstatus] using hw)]

/-- What has been decided about a register when its definition has been visited is not
changed later. -/
theorem lookup_stable (h : WrittenOnce f v) :
    ∀ (rest done : List (BlockId × ℕ × InstId)) (st : CseState),
      placesIn f order = done ++ rest → (∃ e ∈ done, Writes f e.2.2 v) →
      (rest.foldl (visit f dom reloc) st).replacements.lookup (v, 1)
        = st.replacements.lookup (v, 1) := by
  intro rest
  induction rest with
  | nil => intro done st _ _; rfl
  | cons e rest ih =>
    rintro done st hsplit ⟨e', he', hw'⟩
    have hsplit' : placesIn f order = (done ++ [e]) ++ rest := by simpa using hsplit
    rw [foldl_cons, ih _ _ hsplit' ⟨e', by simp [he'], hw'⟩]
    rcases visit_cases f dom reloc st e with
      ⟨hrepl, -⟩ | ⟨inst, y, key, -, hrepl, -⟩ | ⟨inst, y, key, avail, hvisit, -, -, hrepl, -⟩
    · rw [hrepl]
    · rw [hrepl]
    rw [hrepl, lookup_cons]
    have hne : y ≠ v := by
      intro heq
      subst heq
      refine not_writes_done hlisted horder h hsplit ⟨inst, hvisit.getInst, ?_⟩ e' he' hw'
      rw [(vregs_of_candidateDef hvisit.candidate).2]
      simp
    have hbeq : ((v, 1) == (y, (visit f dom reloc st e).versions y)) = false := by simp [hne.symm]
    rw [hbeq]

end

section

variable {order : List BlockId} {rep : VReg → VReg} {done rest : List (BlockId × ℕ × InstId)}
    {e : BlockId × ℕ × InstId} {st : CseState}

theorem sortPair_cases (ops : List CanonOperand) :
    sortPair ops = ops ∨ ∃ a b, ops = [a, b] ∧ sortPair ops = [b, a] := by
  rcases ops with _ | ⟨a, _ | ⟨b, _ | ⟨c, ops⟩⟩⟩
  · exact .inl rfl
  · exact .inl rfl
  · rw [sortPair]
    split_ifs
    · exact .inr ⟨a, b, rfl, rfl⟩
    · exact .inl rfl
  · exact .inl rfl

/-- The key of an instruction, when its canonical operands are right. -/
theorem keyFor_makeExprKey {versions : VReg → ℕ} {leaders : Option Replacements}
    {operands : List MachOperand} (hops : inst.operands = .vreg v :: operands)
    (hkey : key = makeExprKey inst.opcode v.cls operands versions leaders)
    (hcanon : ∀ op ∈ operands, CanonRel rep op (canonOperand versions leaders op))
    (hother : .other ∉ key.operands) : KeyFor rep inst key := by
  have hall : List.Forall₂ (CanonRel rep) operands
      (operands.map (canonOperand versions leaders)) := by
    rw [List.forall₂_map_right_iff, List.forall₂_same]
    exact hcanon
  have hfields : key.opcode = inst.opcode ∧ key.resultClass = v.cls := hkey ▸ ⟨rfl, rfl⟩
  by_cases hcomm : inst.opcode.isCommutative = true
  · have hsort : key.operands = sortPair (operands.map (canonOperand versions leaders)) := by
      rw [hkey, makeExprKey]
      exact if_pos hcomm
    obtain ⟨ops, hops', hperm⟩ := forall₂_swap hall (sortPair_cases _)
    exact ⟨v, operands, ops, hops, hfields.1, hfields.2, hsort ▸ hops',
      hperm.imp_right fun hswap => ⟨hcomm, hswap⟩, hother⟩
  have hplain : key.operands = operands.map (canonOperand versions leaders) := by
    rw [hkey, makeExprKey]
    exact if_neg hcomm
  exact ⟨v, operands, operands, hops, hfields.1, hfields.2, hplain ▸ hall, .inl rfl, hother⟩

variable (hstatus : NoStatusWrites f) (hlisted : Listed f) (horder : Preorder f order)
  (hreads : ReadsWritten f) (hsplit : placesIn f order = done ++ e :: rest)
include hstatus hlisted horder hsplit

/-- The counter of a register whose only definition has been visited. -/
theorem version_eq_one (hinv : WalkInv f rep done st) {w : VReg}
    (hgetInst : f.insts[e.2.2]? = some inst) (hsingle : WrittenOnce f w)
    (hdone : ∃ e' ∈ done, Writes f e'.2.2 w) : (st.enter inst).versions w = 1 := by
  have hnot : w ∉ definedVregs inst := by
    intro hmem
    obtain ⟨e', he', hw'⟩ := hdone
    exact not_writes_done hlisted horder hsingle hsplit 
      ⟨inst, hgetInst, mem_writtenVregs_of_defined hmem⟩ e' he' hw'
  show bump st.versions inst w = 1
  rw [bump, if_neg hnot, hinv.versions]
  exact countP_done hlisted horder hstatus hsingle done (e :: rest) hsplit hdone

include hreads

theorem keyed_of_visit (hinv : WalkInv f rep done st) (hvisit : Visit f reloc st e inst v key) :
    Keyed f rep key e.1 e.2.1 e.2.2 v := by
  obtain ⟨b, q, i⟩ := e
  obtain ⟨hgetInst, hcand, hkey, hother⟩ := hvisit
  obtain ⟨hb, hi⟩ := mem_placesIn.1 (show (b, q, i) ∈ placesIn f order by rw [hsplit]; simp)
  have hreach := (horder.mem_iff b).1 hb
  refine ⟨hreach, hi, inst, hgetInst, hcand, ?_⟩
  obtain ⟨hadm, -, operands, hops, hsingle⟩ := candidateDef_spec hcand
  rw [CseState.key, hops] at hkey
  refine keyFor_makeExprKey hops hkey ?_ hother
  intro op hop
  have hone : ∀ w, WrittenOnce f w → (∃ e' ∈ done, Writes f e'.2.2 w) →
      (st.enter inst).versions w = 1 := fun w hw hdone =>
    version_eq_one hstatus hlisted horder hsplit hinv hgetInst hw hdone
  cases op with
  | vreg u =>
    have hused : u ∈ usedVregs inst := by
      rw [(vregs_of_admitted hadm hops).2.2]
      exact mem_filterMap.2 ⟨.vreg u, hop, rfl⟩
    -- the definition of the operand has been visited
    have hdone : ∃ e' ∈ done, Writes f e'.2.2 u := by
      obtain ⟨d, a, p, honly, ha, hbefore⟩ :=
        (writtenOnce_of_single hstatus (hsingle u hop)).exists_onlyDef hlisted hreads hreach hi
          hgetInst hused
      refine ⟨(a, p, d), horder.mem_done hsplit ?_ hbefore, honly.writes⟩
      exact mem_placesIn.2 ⟨(horder.mem_iff a).2 ha, honly.place⟩
    have hu := hone u (writtenOnce_of_single hstatus (hsingle u hop)) hdone
    have hself : CanonRel rep (.vreg u)
        (CanonOperand.fromOperand (st.enter inst).versions (.vreg u)) :=
      ⟨u, by rw [CanonOperand.fromOperand, hu], rfl⟩
    split_ifs
    · simp only [canonOperand, CanonOperand.fromOperand, hu]
      split
      next leader hlookup =>
        obtain ⟨-, hrep, ⟨E, _, _, _, _, _, _, -, hleader, -, hidem⟩, -, hdone'⟩ :=
          hinv.replacements u 1 leader (mem_of_lookup hlookup)
        rw [hrep] at hleader hidem
        refine ⟨leader, ?_, hidem.trans hrep.symm⟩
        rw [hone leader (hleader.writes hstatus).2 hdone']
      · exact ⟨u, rfl, rfl⟩
    · exact hself
  | imm n | fimm bits | symbol name => split_ifs <;> rfl
  | _ => split_ifs <;> rfl

/-- One visit keeps the invariant, for the representatives at the end of the walk. -/
theorem WalkInv.step (hdom : DomTree.Ok f dom) (hinv : WalkInv f rep done st)
    (hrep : rep = repOf (rest.foldl (visit f dom reloc) (visit f dom reloc st e)).replacements) :
    WalkInv f rep (done ++ [e]) (visit f dom reloc st e) := by
  have hsplit' : placesIn f order = (done ++ [e]) ++ rest := by simpa using hsplit
  -- what the tables held before holds after one more place
  have hgrown : WalkInv f rep (done ++ [e]) { st with
      versions := (visit f dom reloc st e).versions } := by
    refine ⟨fun w => ?_, fun key a ha => ?_, hinv.dead, fun y k x hmem => ?_⟩
    · rw [visit_versions, hinv.versions, countP_append, countP_singleton]
      simp
    · obtain ⟨hself, q, hq, hkeyed⟩ := hinv.available key a ha
      exact ⟨hself, q, mem_append_left _ hq, hkeyed⟩
    · obtain ⟨hk, hx, hE, ⟨e1, he1, hw1⟩, e2, he2, hw2⟩ := hinv.replacements y k x hmem
      exact ⟨hk, hx, hE, ⟨e1, mem_append_left _ he1, hw1⟩, e2, mem_append_left _ he2, hw2⟩
  obtain ⟨hversions, hold, -, holdRepl⟩ := hgrown
  rcases visit_cases f dom reloc st e with
    ⟨hrepl, hdead, havail⟩ | ⟨inst, v, key, hvisit, hrepl, hdead, havail⟩
      | ⟨inst, v, key, avail, hvisit, hmem, hdominates, hrepl, hdead, havail⟩
  · refine ⟨hversions, fun key a ha => hold key a (havail _ ha), ?_, ?_⟩
    · rw [hdead]; exact hinv.dead
    · rw [hrepl]; exact holdRepl
  · have hkeyed := keyed_of_visit hstatus hlisted horder hreads hsplit hinv hvisit
    -- an entry for `v` would come from another definition of `v`
    have hself : rep v = v := by
      rw [hrep, repOf, lookup_stable hlisted horder (hkeyed.writes hstatus).2 rest _ _ hsplit'
        ⟨e, by simp, (hkeyed.writes hstatus).1⟩, hrepl]
      cases hlookup : st.replacements.lookup (v, 1) with
      | none => rfl
      | some x =>
        obtain ⟨-, -, -, ⟨e', he', hw'⟩, -⟩ := hinv.replacements v 1 x (mem_of_lookup hlookup)
        exact absurd hw' (not_writes_done hlisted horder (hkeyed.writes hstatus).2 hsplit
          (hkeyed.writes hstatus).1 e' he')
    refine ⟨hversions, ?_, ?_, ?_⟩
    · intro key' a ha
      rcases havail _ ha with heq | ha
      · cases heq
        exact ⟨hself, e.2.1, by simp, hkeyed⟩
      · exact hold key' a ha
    · rw [hdead]; exact hinv.dead
    · rw [hrepl]; exact holdRepl
  have hkeyed := keyed_of_visit hstatus hlisted horder hreads hsplit hinv hvisit
  obtain ⟨hself, q, hq, hleader⟩ := hinv.available key avail hmem
  have hone : (visit f dom reloc st e).versions v = 1 := by
    rw [hversions]
    exact countP_done hlisted horder hstatus (hkeyed.writes hstatus).2 _ rest hsplit'
      ⟨e, by simp, (hkeyed.writes hstatus).1⟩
  have hx : rep v = avail.defVreg := by
    rw [hrep, repOf, lookup_stable hlisted horder (hkeyed.writes hstatus).2 rest _ _ hsplit'
      ⟨e, by simp, (hkeyed.writes hstatus).1⟩, hrepl, hone, lookup_cons_self]
    rfl
  have hbefore := before_of_mem_done horder.nodup hsplit hq
    ((hdom.dominates_iff _ _ hkeyed.reachable).1 hdominates)
  have helim : Eliminated f rep e.2.2 v := by
    refine ⟨key, e.1, e.2.1, avail.block, q, avail.instId, hkeyed, ?_, hbefore, ?_⟩
    · rw [hx]; exact hleader
    · rw [hx]; exact hself
  have hne : rep v ≠ v := by
    rw [hx]
    intro heq
    exact not_writes_done hlisted horder (hkeyed.writes hstatus).2 hsplit
      (hkeyed.writes hstatus).1 _ hq
      (heq ▸ (hleader.writes hstatus).1)
  refine ⟨hversions, fun key' a ha => hold key' a (havail _ ha), ?_, ?_⟩
  · intro E hE
    rw [hdead] at hE
    rcases mem_append.1 hE with hE | hE
    · exact hinv.dead E hE
    rw [mem_singleton.1 hE]
    exact ⟨v, hne, helim⟩
  intro y k x hyx
  rw [hrepl, hone] at hyx
  rcases mem_cons.1 hyx with heq | hyx
  · obtain ⟨hyk, rfl⟩ := Prod.mk.inj heq
    cases hyk
    exact ⟨rfl, hx, ⟨_, helim⟩, ⟨e, by simp, (hkeyed.writes hstatus).1⟩, _,
      mem_append_left _ hq, (hleader.writes hstatus).1⟩
  · exact holdRepl y k x hyx

end

/-- **The tables at the end of the walk.** -/
theorem walk_spec {dom : DomTree} (reloc : Bool) {order : List BlockId}
    (hstatus : NoStatusWrites f) (hlisted : Listed f) (horder : Preorder f order)
    (hreads : ReadsWritten f) (hdom : DomTree.Ok f dom) :
    let st := (placesIn f order).foldl (visit f dom reloc) {}
    WalkInv f (repOf st.replacements) (placesIn f order) st := by
  intro st
  refine Loop.foldl_of_split ⟨fun _ => rfl, by simp, by simp, by simp⟩ ?_
  intro done e rest hsplit hinv
  refine WalkInv.step hstatus hlisted horder hreads hsplit hdom hinv ?_
  show repOf ((placesIn f order).foldl (visit f dom reloc) {}).replacements = _
  rw [hsplit, foldl_append]
  rfl

/-! ## Values -/

variable {rep : VReg → VReg}

variable {inst : MachInst}

section

variable {V H : Type*} {ops : List MachOperand} {cs : List CanonOperand}

/-- What the admitted instructions compute is determined by the opcode, the class of the
result and the values of the operands, and they do nothing else. -/
def Determined (M : Machine V H) (f : MachFunction)
    (F : AArch64Opcode → RegClass → List (Datum V) → V) : Prop :=
  ∀ inst ∈ f.insts, admitted f inst = true → ∀ v rest, inst.operands = .vreg v :: rest →
    ∀ (regs : VReg → V) h, M.exec (shape inst) ((usedVregs inst).map regs) h
      = ([F inst.opcode v.cls (rest.map (datum regs))], h)

/-- The opcodes the pass takes to be commutative are. -/
def Symmetric (F : AArch64Opcode → RegClass → List (Datum V) → V) : Prop :=
  ∀ opcode cls a b, opcode.isCommutative = true → F opcode cls [a, b] = F opcode cls [b, a]

/-- Put values in the place of the registers of canonical operands. -/
def fill : List CanonOperand → List V → List (Datum V)
  | .vreg _ _ :: cs, x :: xs => .reg x :: fill cs xs
  | .imm n :: cs, xs => .const (.imm n) :: fill cs xs
  | .fimm bits :: cs, xs => .const (.fimm bits) :: fill cs xs
  | .symbol name :: cs, xs => .const (.symbol name) :: fill cs xs
  | _, _ => []

theorem fill_spec (h : List.Forall₂ (CanonRel rep) ops cs) (hother : .other ∉ cs)
    (regs : VReg → V) :
    fill cs ((ops.filterMap MachOperand.asVreg).map regs) = ops.map (datum regs) := by
  induction h with
  | nil => rfl
  | @cons op c ops cs hrel _ ih =>
    have hrest := ih fun hmem => hother (.tail _ hmem)
    cases op with
    | vreg u =>
      obtain ⟨u', rfl, -⟩ := hrel
      exact congrArg (List.cons _) hrest
    | imm n | fimm bits | symbol name => obtain rfl := hrel; exact congrArg (List.cons _) hrest
    | _ => exact absurd (hrel ▸ .head _) hother

/-- Instructions with the same canonical operands read registers with the same
representatives. -/
theorem map_rep_of_canonRel (h : List.Forall₂ (CanonRel rep) ops cs) :
    (ops.filterMap MachOperand.asVreg).map rep = cs.filterMap fun c =>
      match c with
      | .vreg u _ => some (rep u)
      | _ => none := by
  induction h with
  | nil => rfl
  | @cons op c ops cs hrel _ ih =>
    cases op with
    | vreg u =>
      obtain ⟨u', rfl, hu⟩ := hrel
      exact (congrArg (List.cons _) ih).trans (congrArg (fun r => r :: _) hu.symm)
    | imm n | fimm bits | symbol name => obtain rfl := hrel; exact ih
    | _ => obtain rfl := hrel; exact ih

variable {M : Machine V H} {F : AArch64Opcode → RegClass → List (Datum V) → V} {rep : VReg → VReg}

theorem KeyFor.computes (hstatus : NoStatusWrites f) (hdet : Determined M f F)
    (hsymm : Symmetric F) {key : ExprKey} {v : VReg}
    (hinst : inst ∈ f.insts) (hcand : candidateDef f inst = some v) (hkey : KeyFor rep inst key) :
    ∃ ops : List MachOperand, List.Forall₂ (CanonRel rep) ops key.operands
      ∧ (∀ u, .vreg u ∈ ops → WrittenOnce f u)
      ∧ Computes M inst (ops.filterMap MachOperand.asVreg)
        (fun xs _ => F key.opcode key.resultClass (fill key.operands xs))
      ∧ ∀ (regs : VReg → V) h, (M.exec (shape inst) ((usedVregs inst).map regs) h).2 = h := by
  obtain ⟨w, rest, ops, hops, hopcode, hclass, hcanon, hperm, hother⟩ := hkey
  obtain ⟨hadm, -, rest', hops', hsingle⟩ := candidateDef_spec hcand
  obtain ⟨-, rfl⟩ := List.cons.inj (hops.symm.trans hops')
  have hmem : ∀ op, op ∈ ops → op ∈ rest := by
    intro op hop
    rcases hperm with rfl | ⟨-, a, b, rfl, rfl⟩
    · exact hop
    simp only [mem_cons, not_mem_nil, or_false] at hop ⊢
    exact hop.symm
  refine ⟨ops, hcanon, fun u hu => writtenOnce_of_single hstatus (hsingle u (hmem _ hu)),
    ⟨?_, ?_⟩, ?_⟩
  · intro u hu
    obtain ⟨op, hop, hu⟩ := mem_filterMap.1 hu
    rw [(vregs_of_admitted hadm hops).2.2]
    exact mem_filterMap.2 ⟨op, hmem op hop, hu⟩
  · intro regs h
    rw [hdet inst hinst hadm w rest hops, fill_spec hcanon hother, hopcode, hclass]
    rcases hperm with rfl | ⟨hcomm, a, b, rfl, rfl⟩
    · rfl
    · exact congrArg (fun x => [x]) (hsymm _ _ _ _ hcomm)
  intro regs h
  rw [hdet inst hinst hadm w rest hops]

variable (hstatus : NoStatusWrites f) (hlast : f.BranchesLast) (hlisted : Listed f)
  (hreads : ReadsWritten f) (hdet : Determined M f F) (hsymm : Symmetric F)
  (helim : ∀ v, rep v ≠ v → ∃ E, Eliminated f rep E v)
include hstatus hlast hlisted hreads hdet hsymm helim

theorem Eliminated.removable {E : InstId} {y : VReg} (h : Eliminated f rep E y) :
    ∃ L, Removable M f rep E L y (rep y) := by
  obtain ⟨key, bE, qE, bL, qL, L, hE, hL, hbefore, -⟩ := h
  obtain ⟨instE, hsoleE, hcandE, hkeyE⟩ := hE.soleDef hstatus
  obtain ⟨instL, hsoleL, hcandL, hkeyL⟩ := hL.soleDef hstatus
  obtain ⟨opsE, hcanonE, -, hcompE, hquiet⟩ :=
    hkeyE.computes hstatus hdet hsymm (mem_of_getElem? hsoleE.getInst) hcandE
  obtain ⟨opsL, hcanonL, honceL, hcompL, -⟩ :=
    hkeyL.computes hstatus hdet hsymm (mem_of_getElem? hsoleL.getInst) hcandL
  have hleaders : ∀ v, rep v ≠ v → ∃ b q i inst, SoleDef f b q i inst (rep v) := by
    intro v hv
    obtain ⟨_, _, _, _, b, q, i, -, hkeyed, -⟩ := helim v hv
    obtain ⟨inst, hsole, -⟩ := hkeyed.soleDef hstatus
    exact ⟨b, q, i, inst, hsole⟩
  refine ⟨L, hsoleE.removable hlast hlisted hreads hleaders hsoleL hbefore (fun _ => False)
    hcompE hcompL ?_ ?_ (fun _ _ _ _ _ _ _ => rfl) id (fun _ _ _ _ _ _ => id) hquiet⟩
  · rw [map_rep_of_canonRel hcanonL, map_rep_of_canonRel hcanonE]
  intro u hu
  obtain ⟨op, hop, hu⟩ := mem_filterMap.1 hu
  obtain rfl := MachOperand.asVreg_eq_some.1 hu
  exact honceL u hop

theorem represents_of_eliminated : Represents M f rep := by
  refine .of_removable (fun v hv => ?_) fun v hv => ?_
  · obtain ⟨_, _, _, _, _, _, _, -, -, -, hidem⟩ := helim v hv
    exact hidem
  obtain ⟨E, hE⟩ := helim v hv
  obtain ⟨L, hrem⟩ := hE.removable hstatus hlast hlisted hreads hdet hsymm helim
  exact ⟨E, L, hrem⟩

end

/-! ## Applying the replacements -/

theorem Eliminated.cls {E : InstId} {y : VReg} (h : Eliminated f rep E y) :
    (rep y).cls = y.cls := by
  obtain ⟨key, _, _, _, _, _, hE, hL, -⟩ := h
  have hclass : ∀ {b q i v}, Keyed f rep key b q i v → key.resultClass = v.cls := by
    intro b q i v hk
    obtain ⟨inst, -, hcand, w, rest, -, hops, -, hclass, -⟩ := hk.inst
    obtain ⟨-, -, rest', hops', -⟩ := candidateDef_spec hcand
    obtain ⟨hwv, -⟩ := List.cons.inj (hops.symm.trans hops')
    rw [hclass, MachOperand.vreg.inj hwv]
  exact (hclass hL).symm.trans (hclass hE)

/-- The instruction with the representatives of the registers it reads. -/
def readRep (rep : VReg → VReg) (inst : MachInst) : MachInst :=
  substAt rep (useOperandPositions inst.opcode inst.operands.length) inst

section

variable (rep : VReg → VReg) (inst : MachInst)

theorem readRep_opcode : (readRep rep inst).opcode = inst.opcode := rfl

theorem readRep_length : (readRep rep inst).operands.length = inst.operands.length := substAt_length

theorem usedVregs_readRep : usedVregs (readRep rep inst) = (usedVregs inst).map rep := by
  rw [usedVregs, usedVregs, readRep_opcode, readRep_length]
  exact vregsAt_substAt fun p hp v _ hnot => absurd hp hnot

end

/-- What holds of the rewritten instructions after the places of `done`. -/
structure RewriteInv (f : MachFunction) (rep : VReg → VReg)
    (done : List (BlockId × ℕ × InstId)) (st : List MachInst × (VReg → ℕ)) : Prop where
  length : st.1.length = f.insts.length
  insts : ∀ i inst, f.insts[i]? = some inst →
    st.1[i]? = some (if i ∈ done.map (fun e => e.2.2) then readRep rep inst else inst)
  versions : ∀ v, st.2 v = done.countP fun e => v ∈ definedAt f e.2.2

section

variable {order : List BlockId} {rep : VReg → VReg} {done rest : List (BlockId × ℕ × InstId)}
    {e : BlockId × ℕ × InstId} {replacements : Replacements} (hstatus : NoStatusWrites f)
    (hlisted : Listed f) (horder : Preorder f order) (hreads : ReadsWritten f)
    (helim : ∀ v, rep v ≠ v → ∃ E, Eliminated f rep E v)

include hstatus hlisted helim in
/-- An instruction does not both read and write an eliminated register. -/
theorem rep_eq_of_defUse {p : ℕ} {v : VReg} (hb : f.Reachable b)
    (hi : (f.blockInsts b)[q]? = some i) (hinst : f.insts[i]? = some inst)
    (hdef : p ∈ defOperandPositions inst.opcode inst.operands.length)
    (huse : p ∈ useOperandPositions inst.opcode inst.operands.length)
    (hv : inst.operands[p]? = some (.vreg v)) : rep v = v := by
  by_contra hne
  obtain ⟨E, key, bE, qE, _, _, _, hE, -⟩ := helim v hne
  obtain ⟨instE, hsole, hcand, -⟩ := hE.soleDef hstatus
  refine hsole.not_defUse hlisted (fun p hdef huse => ?_) hb hi hinst hdef hv huse
  -- a candidate writes operand 0 and reads the others
  obtain ⟨hadm, -, operands, hops, -⟩ := candidateDef_spec hcand
  obtain ⟨hdefs, huses⟩ := positions_of_roles (roles_of_admitted hadm operands.length)
  have hlen : instE.operands.length = operands.length + 1 := by rw [hops]; rfl
  rw [hlen, hdefs, mem_singleton] at hdef
  rw [hlen, huses, mem_range'_1] at huse
  omega

include hstatus hlisted horder hreads helim in
section

variable (hidem : ∀ v, rep (rep v) = rep v) (hrep : rep = repOf replacements)
    (hrepl : ∀ y k x, ((y, k), x) ∈ replacements → k = 1 ∧ rep y = x)
include hidem hrep hrepl

theorem RewriteInv.step {st : List MachInst × (VReg → ℕ)}
    (hsplit : placesIn f order = done ++ e :: rest) (hinv : RewriteInv f rep done st) :
    RewriteInv f rep (done ++ [e]) (rewriteAt replacements st e) := by
  obtain ⟨b, q, i⟩ := e
  obtain ⟨hbmem, hi⟩ := mem_placesIn.1 (show (b, q, i) ∈ placesIn f order by rw [hsplit]; simp)
  have hb := (horder.mem_iff b).1 hbmem
  have hother : ∀ j, j ≠ i → (j ∈ (done ++ [(b, q, i)]).map (fun e => e.2.2)
      ↔ j ∈ done.map fun e => e.2.2) := by
    intro j hji
    simp [hji]
  cases hinst : f.insts[i]? with
  | none =>
    have hnone : st.1[i]? = none := by
      rw [getElem?_eq_none_iff, hinv.length]
      exact getElem?_eq_none_iff.1 hinst
    have hstay : rewriteAt replacements st (b, q, i) = st := by simp only [rewriteAt, hnone]
    rw [hstay]
    refine ⟨hinv.length, ?_, ?_⟩
    · intro j inst' hj
      have hji : j ≠ i := fun h => by rw [h, hinst] at hj; simp at hj
      rw [hinv.insts j inst' hj]
      exact congrArg some (if_congr (hother j hji).symm rfl rfl)
    intro v
    have hnot : v ∉ definedAt f i := by simp [definedAt, hinst]
    rw [hinv.versions, countP_append, countP_singleton]
    simp [hnot]
  | some inst =>
    -- the lookup gives the representative of every register that is read
    have hlook : ∀ u, (∃ v ∈ usedVregs inst, u = v ∨ u = rep v) →
        replacement replacements st.2 u = rep u := by
      rintro u ⟨v, hv, huv⟩
      rw [replacement]
      cases hlookup : replacements.lookup (u, st.2 u) with
      | some x => exact (hrepl u _ x (mem_of_lookup hlookup)).2.symm
      | none =>
        rcases huv with rfl | rfl
        · by_contra hne
          have hne' : rep u ≠ u := fun h => hne h.symm
          obtain ⟨E, _, _, _, _, _, _, hE, -⟩ := helim u hne'
          obtain ⟨d, a, p, honly, ha, hbefore⟩ :=
            (hE.writes hstatus).2.exists_onlyDef hlisted hreads hb hi hinst hv
          have hone : st.2 u = 1 := by
            rw [hinv.versions]
            refine countP_done hlisted horder hstatus (hE.writes hstatus).2 done _ hsplit
              ⟨(a, p, d), horder.mem_done hsplit ?_ hbefore, honly.writes⟩
            exact mem_placesIn.2 ⟨(horder.mem_iff a).2 ha, honly.place⟩
          rw [hone] at hlookup
          exact hne' (by rw [hrep, repOf, hlookup]; rfl)
        · exact (hidem v).symm
    have hnew : ∀ inst', st.1[i]? = some inst' → substAt (replacement replacements st.2)
        (useOperandPositions inst'.opcode inst'.operands.length) inst' = readRep rep inst := by
      intro inst' hinst'
      rw [hinv.insts i inst hinst] at hinst'
      split_ifs at hinst' with hdone
      · cases hinst'
        rw [readRep_opcode, readRep_length]
        refine Eq.trans (substAt_congr fun p hp v hv => ?_) (substAt_idem hidem)
        refine hlook v ?_
        have hmem : v ∈ usedVregs (readRep rep inst) := mem_usedVregs (p := p)
          (by rw [readRep_opcode, readRep_length]; exact hp) hv
        rw [usedVregs_readRep] at hmem
        obtain ⟨w, hw, rfl⟩ := mem_map.1 hmem
        exact ⟨w, hw, .inr rfl⟩
      cases hinst'
      exact substAt_congr fun p hp v hv => hlook v ⟨v, mem_usedVregs hp hv, .inl rfl⟩
    have hdefs : definedVregs (readRep rep inst) = definedVregs inst := by
      rw [definedVregs, definedVregs, readRep_opcode, readRep_length]
      exact vregsAt_substAt_of_fixed fun p hdef v hv huse =>
        rep_eq_of_defUse hstatus hlisted helim hb hi hinst hdef huse hv
    have hstep : rewriteAt replacements st (b, q, i)
        = (st.1.set i (readRep rep inst), bump st.2 (readRep rep inst)) := by
      simp only [rewriteAt, hinv.insts i inst hinst]
      rw [hnew _ (hinv.insts i inst hinst)]
    rw [hstep]
    refine ⟨by rw [length_set]; exact hinv.length, ?_, ?_⟩
    · intro j inst' hj
      by_cases hji : j = i
      · subst hji
        cases hinst.symm.trans hj
        have hlt : j < st.1.length := by
          rw [hinv.length]; exact (List.getElem?_eq_some_iff.1 hinst).1
        rw [getElem?_set_self hlt]
        simp
      rw [getElem?_set_ne (Ne.symm hji), hinv.insts j inst' hj]
      exact congrArg some (if_congr (hother j hji).symm rfl rfl)
    intro v
    show bump st.2 (readRep rep inst) v = _
    have hat : definedAt f i = definedVregs inst := by simp [definedAt, hinst]
    rw [bump, hdefs, hinv.versions, countP_append, countP_singleton, hat]
    by_cases hv : v ∈ definedVregs inst <;> simp [hv]

include hstatus hlisted horder hreads helim in
theorem rewrite_spec :
    RewriteInv f rep (placesIn f order)
      ((placesIn f order).foldl (rewriteAt replacements) (f.insts, fun _ => 0)) := by
  refine Loop.foldl_of_split ⟨rfl, fun i inst hi => by simpa using hi, fun _ => rfl⟩ ?_
  exact fun done e rest => RewriteInv.step hstatus hlisted horder hreads helim hidem hrep hrepl

end

end

/-! ## The pass -/

section

variable {V H : Type*} {M : Machine V H} {F : AArch64Opcode → RegClass → List (Datum V) → V}

theorem runCse_removed (hstatus : NoStatusWrites f) (hlast : f.BranchesLast)
    (hlisted : Listed f) (hreads : ReadsWritten f) (hdom : DomTree.Ok f dom)
    (hdet : Determined M f F) (hsymm : Symmetric F) (reloc : Bool) :
    ∃ bound g changed rep removed, (∀ fuel, bound ≤ fuel →
        runCse fuel f dom reloc = some (g, changed)) ∧ Removed M f g rep removed := by
  obtain ⟨bound, order, hrun, hnodup, hmem, hbefore⟩ := hdom.preorder
  have horder : Preorder f order := ⟨hnodup, hmem, hbefore⟩
  have hwalk := walk_spec reloc hstatus hlisted horder hreads hdom
  set st := (placesIn f order).foldl (visit f dom reloc) {} with hst
  set rep := repOf st.replacements with hrep
  have helim : ∀ v, rep v ≠ v → ∃ E, Eliminated f rep E v := by
    intro v hv
    cases hlookup : st.replacements.lookup (v, 1) with
    | none => exact absurd (by rw [hrep, repOf, hlookup]; rfl) hv
    | some x => exact (hwalk.replacements v 1 x (mem_of_lookup hlookup)).2.2.1
  have hrepresents := represents_of_eliminated hstatus hlast hlisted hreads hdet hsymm helim
  have hremovable : ∀ i ∈ st.deadInsts, ∃ y L, rep y ≠ y ∧ Removable M f rep i L y (rep y) := by
    intro i hi
    obtain ⟨y, hy, hE⟩ := hwalk.dead i hi
    obtain ⟨L, hrem⟩ := hE.removable hstatus hlast hlisted hreads hdet hsymm helim
    exact ⟨y, L, hy, hrem⟩
  by_cases hempty : st.replacements.isEmpty = true
  · -- nothing has been eliminated
    have hid : ∀ v, rep v = v := by
      intro v
      rw [hrep, repOf, isEmpty_iff.1 hempty]
      rfl
    refine ⟨bound, f, false, rep, st.deadInsts, ?_, .of_unchanged hrepresents hremovable hid⟩
    intro fuel hfuel
    rw [runCse, hrun fuel hfuel, Option.map_some]
    exact congrArg some (if_pos hempty)
  have hrewrite := rewrite_spec hstatus hlisted horder hreads helim hrepresents.idem hrep
    fun y k x hyx => ⟨(hwalk.replacements y k x hyx).1, (hwalk.replacements y k x hyx).2.1⟩
  set insts := ((placesIn f order).foldl (rewriteAt st.replacements)
    (f.insts, fun _ => 0)).1 with hinsts
  refine ⟨bound, removeInsts st.deadInsts { f with insts := insts }, true, rep, st.deadInsts,
    ?_, .of_rewritten hlisted hrepresents hremovable hrewrite.length ?_⟩
  · intro fuel hfuel
    rw [runCse, hrun fuel hfuel, Option.map_some]
    exact congrArg some (if_neg hempty)
  intro b hb i hi inst hinst
  obtain ⟨q, hq⟩ := getElem?_of_mem hi
  have hplace : (b, q, i) ∈ placesIn f order := mem_placesIn.2 ⟨(horder.mem_iff b).2 hb, hq⟩
  have hnew := hrewrite.insts i inst hinst
  rw [if_pos (mem_map.2 ⟨_, hplace, rfl⟩)] at hnew
  refine ⟨readRep rep inst, hnew, shape_substAt ?_, ?_, usedVregs_readRep rep inst⟩
  · intro p _ v _
    by_cases hself : rep v = v
    · rw [hself]
    obtain ⟨E, hE⟩ := helim v hself
    exact hE.cls
  rw [hstatus.written hinst, writtenVregs_of_ne (by
    rw [readRep_opcode]; exact hstatus inst (mem_of_getElem? hinst)), definedVregs, definedVregs,
    readRep_opcode, readRep_length]
  exact vregsAt_substAt_of_fixed fun p hdef v hv huse =>
    rep_eq_of_defUse hstatus hlisted helim hb hq hinst hdef huse hv

end

/-! ## A loop that computes the same again -/

/-- `x0 := 1` and `x1 := x0 + 0`, then a loop that computes `x0 + 0` again and reads it; its
other block computes `x0 + 1`. -/
def looping : MachFunction where
  insts := [⟨.MovI, [.vreg (xreg 0), .imm 1], [], [], 0⟩,
    ⟨.AddRI, [.vreg (xreg 1), .vreg (xreg 0), .imm 0], [], [], 0⟩,
    ⟨.AddRI, [.vreg (xreg 3), .vreg (xreg 0), .imm 0], [], [], 0⟩,
    ⟨.AddRI, [.vreg (xreg 4), .vreg (xreg 3), .imm 0], [], [], 0⟩,
    ⟨.AddRI, [.vreg (xreg 5), .vreg (xreg 0), .imm 1], [], [], 0⟩]
  blocks := [⟨[0, 1], [], [1]⟩, ⟨[2, 3], [0, 2], [2, 3]⟩, ⟨[4], [1], [1]⟩, ⟨[], [1], []⟩]
  blockOrder := [0, 1, 2, 3]
  entry := 0

/-- What the machine that adds computes. -/
def adderResult : AArch64Opcode → RegClass → List (Datum ℤ) → ℤ
  | .MovI, _, [.const (.imm n)] => n
  | .AddRI, _, [.reg x, .const (.imm n)] => x + n
  | _, _, _ => 0

theorem adderResult_symmetric : Symmetric adderResult := by
  intro opcode cls a b hcomm
  cases opcode
  all_goals first | rfl | cases hcomm

theorem looping_determined : Determined adder looping adderResult := by
  intro inst hinst _ v rest hops regs h
  simp only [looping, mem_cons, not_mem_nil, or_false] at hinst
  rcases hinst with rfl | rfl | rfl | rfl | rfl
  all_goals
    obtain ⟨-, rfl⟩ := List.cons.inj hops
    rfl

/-- A switch on `x0` as a cascade in one block: `x0` is compared with 1, where control can
leave, and then with `x1 := 5000`.  The block of the first case computes 5000 again and
reads it from register `x`. -/
def cascade (x : ℕ) (first : List InstId) : MachFunction where
  insts := [⟨.MovI, [.vreg (xreg 0), .imm 1], [], [], 0⟩,
    ⟨.CmpRI, [.vreg (xreg 0), .imm 1], [], [], 0⟩, ⟨.BCond, [.imm 0, .block 1], [], [], 0⟩,
    ⟨.MovI, [.vreg (xreg 1), .imm 5000], [], [], 0⟩,
    ⟨.CmpRR, [.vreg (xreg 0), .vreg (xreg 1)], [], [], 0⟩,
    ⟨.BCond, [.imm 0, .block 2], [], [], 0⟩, ⟨.B, [.block 3], [], [], 0⟩,
    ⟨.MovI, [.vreg (xreg 2), .imm 5000], [], [], 0⟩,
    ⟨.AddRI, [.vreg (xreg 3), .vreg (xreg x), .imm 0], [], [], 0⟩]
  blocks := [⟨[0, 1, 2, 3, 4, 5, 6], [], [1, 2, 3]⟩, ⟨first, [0], []⟩, ⟨[], [0], []⟩,
    ⟨[], [0], []⟩]
  blockOrder := [0, 1, 2, 3]
  entry := 0

theorem cascade_determined : Determined adder (cascade 2 [7, 8]) adderResult := by
  intro inst hinst hadm v rest hops regs h
  simp only [cascade, mem_cons, not_mem_nil, or_false] at hinst
  rcases hinst with rfl | rfl | rfl | rfl | rfl | rfl | rfl | rfl | rfl
  all_goals first
    | exact absurd hadm (by decide)
    | (obtain ⟨-, rfl⟩ := List.cons.inj hops; rfl)

theorem cascade_place (h : ((cascade 2 [7, 8]).blockInsts b)[q]? = some i) :
    (b = 1 ∧ q = 0 ∧ i = 7) ∨ (b = 1 ∧ q = 1 ∧ i = 8) ∨ b = 0 ∧ i ≠ 8 := by
  rcases b with _ | _ | _ | _ | b
  · have hmem : i ∈ [0, 1, 2, 3, 4, 5, 6] := mem_of_getElem? h
    exact .inr (.inr ⟨rfl, by rintro rfl; exact absurd hmem (by decide)⟩)
  · rcases q with _ | _ | q <;> simp_all [cascade, MachFunction.blockInsts]
  all_goals simp [cascade, MachFunction.blockInsts] at h

/-- The last instruction of the first case reads what the one before it writes. -/
theorem cascade_run {s : State (Env ℤ Unit)} (h : adder.Run (cascade 2 [7, 8]) s) :
    (s.block = 1 → s.pos = 1 → s.env.regs (xreg 2) = 5000) ∧ (8, [0]) ∉ s.env.trace := by
  induction h with
  | start regs hidden => exact ⟨by rintro ⟨⟩, by simp⟩
  | step _ hst ih =>
    obtain ⟨hreg, htrace⟩ := ih
    cases hst with
    | @inst b q i env env' hi hexec =>
      obtain ⟨inst, hinst, rfl⟩ := hexec
      rcases cascade_place hi with ⟨rfl, rfl, rfl⟩ | ⟨rfl, rfl, rfl⟩ | ⟨rfl, hne⟩
      · cases hinst
        exact ⟨fun _ _ => rfl, by simp [Machine.apply, htrace]⟩
      · cases hinst
        refine ⟨by simp, ?_⟩
        show (8, [0]) ∉ (8, [env.regs (xreg 2)]) :: env.trace
        rw [hreg rfl rfl]
        simp [htrace]
      · exact ⟨by simp, by simp [Machine.apply, htrace, hne.symm]⟩
    | branch _ _ => exact ⟨by simp, htrace⟩

end TrustCg.Opt.Cse
