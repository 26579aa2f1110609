import TrustCg.Lib.Updates
import TrustCg.Opt.Gvn

/-!
# Value numbers

A value number stands for the representative of a register or for an immediate, and keeps
its meaning through the whole walk, while the tables that mention it come and go with
their scopes.

* `visitDef_outcome` : what one visit can do.
-/

namespace TrustCg.Opt.Gvn

open Ir List
open RegAlloc (InstId VReg)
open Function (update update_of_ne update_self)

/-! ## Meanings of value numbers -/

/-- What a value number stands for. -/
inductive Meaning
  | reg (v : VReg)
  | imm (n : ℤ)
  | fimm (bits : BitVec 64)

/-- The numbers that have been given out keep their meanings. -/
def Extends (mean mean' : ℕ → Option Meaning) : Prop := ∀ n m, mean n = some m → mean' n = some m

theorem Extends.refl (mean : ℕ → Option Meaning) : Extends mean mean := fun _ _ h => h

theorem Extends.trans {m1 m2 m3 : ℕ → Option Meaning} (h1 : Extends m1 m2) (h2 : Extends m2 m3) :
    Extends m1 m3 := fun n m h => h2 n m (h1 n m h)

/-- The number stands for the operand. -/
def OpMeans (f : MachFunction) (rep : VReg → VReg) (mean : ℕ → Option Meaning) :
    MachOperand → ℕ → Prop
  | .vreg v, n => isMultiDef f v = false ∧ mean n = some (.reg (rep v))
  | .imm k, n => mean n = some (.imm k)
  | .fimm bits, n => mean n = some (.fimm bits)
  | _, _ => False

variable {f : MachFunction}

theorem OpMeans.mono {rep : VReg → VReg} {mean mean' : ℕ → Option Meaning}
    (h : Extends mean mean') {op : MachOperand} {n : ℕ} (hop : OpMeans f rep mean op n) :
    OpMeans f rep mean' op n := by
  cases op with
  | vreg v => exact ⟨hop.1, h _ _ hop.2⟩
  | imm k => exact h _ _ hop
  | fimm bits => exact h _ _ hop
  | _ => exact hop

/-- The numbers in the tables have the meanings of their keys, and new numbers have none. -/
structure NumInv (f : MachFunction) (rep : VReg → VReg) (mean : ℕ → Option Meaning)
    (st : GvnState) : Prop where
  fresh : ∀ n, st.next ≤ n → mean n = none
  vregs : ∀ v n, st.table.vregToVn v = some n → isMultiDef f v = false →
    mean n = some (.reg (rep v))
  imms : ∀ k n, st.immVns k = some n → mean n = some (.imm k)
  fimms : ∀ bits n, st.fimmVns bits = some n → mean n = some (.fimm bits)

/-- The two states have the same expressions and the same eliminations. -/
structure SameExprs (st st' : GvnState) : Prop where
  exprs : st'.table.exprTable = st.table.exprTable
  scopes : st'.table.scopeStack.map ScopeFrame.addedExprs
    = st.table.scopeStack.map ScopeFrame.addedExprs
  replacements : st'.replacements = st.replacements
  deadInsts : st'.deadInsts = st.deadInsts

/-- The two states differ in value numbers only. -/
structure SameTables (st st' : GvnState) : Prop extends SameExprs st st' where
  loads : st'.table.loadTable = st.table.loadTable

theorem SameTables.refl (st : GvnState) : SameTables st st := ⟨⟨rfl, rfl, rfl, rfl⟩, rfl⟩

theorem SameTables.trans {s1 s2 s3 : GvnState} (h1 : SameTables s1 s2) (h2 : SameTables s2 s3) :
    SameTables s1 s3 :=
  ⟨⟨h2.exprs.trans h1.exprs, h2.scopes.trans h1.scopes,
    h2.replacements.trans h1.replacements, h2.deadInsts.trans h1.deadInsts⟩,
    h2.loads.trans h1.loads⟩

variable {rep : VReg → VReg} {mean : ℕ → Option Meaning} {st : GvnState}

section

theorem extends_update (hinv : NumInv f rep mean st) (m : Meaning) :
    Extends mean (update mean st.next (some m)) := by
  intro n m' h
  rw [update_of_ne]
  · exact h
  rintro rfl
  rw [hinv.fresh _ le_rfl] at h
  simp at h

theorem NumInv.allocate (hinv : NumInv f rep mean st) (m : Meaning) {st' : GvnState}
    (hnext : st'.next = st.next + 1)
    (hvregs : ∀ v n, st'.table.vregToVn v = some n → st.table.vregToVn v = some n
      ∨ n = st.next ∧ (isMultiDef f v = false → m = .reg (rep v)))
    (himms : ∀ k n, st'.immVns k = some n → st.immVns k = some n ∨ n = st.next ∧ m = .imm k)
    (hfimms : ∀ bits n, st'.fimmVns bits = some n →
      st.fimmVns bits = some n ∨ n = st.next ∧ m = .fimm bits) :
    NumInv f rep (update mean st.next (some m)) st' := by
  have hext := extends_update hinv m
  refine ⟨?_, ?_, ?_, ?_⟩
  · intro n hn
    rw [update_of_ne (by omega)]
    exact hinv.fresh n (by omega)
  · intro v n hv hsingle
    rcases hvregs v n hv with hold | ⟨rfl, hm⟩
    · exact hext _ _ (hinv.vregs v n hold hsingle)
    · rw [update_self, hm hsingle]
  · intro k n hk
    rcases himms k n hk with hold | ⟨rfl, rfl⟩
    · exact hext _ _ (hinv.imms k n hold)
    · rw [update_self]
  intro bits n hb
  rcases hfimms bits n hb with hold | ⟨rfl, rfl⟩
  · exact hext _ _ (hinv.fimms bits n hold)
  · rw [update_self]

section

variable (table : ScopedValueTable) (change : ScopeFrame → ScopeFrame)

theorem onTop_vregToVn : (table.onTop change).vregToVn = table.vregToVn := by
  unfold ScopedValueTable.onTop
  split <;> rfl

theorem onTop_exprTable : (table.onTop change).exprTable = table.exprTable := by
  unfold ScopedValueTable.onTop
  split <;> rfl

theorem onTop_loadTable : (table.onTop change).loadTable = table.loadTable := by
  unfold ScopedValueTable.onTop
  split <;> rfl

end

theorem onTop_scopes (table : ScopedValueTable) {change : ScopeFrame → ScopeFrame}
    (h : ∀ frame, (change frame).addedExprs = frame.addedExprs) :
    (table.onTop change).scopeStack.map ScopeFrame.addedExprs
      = table.scopeStack.map ScopeFrame.addedExprs := by
  unfold ScopedValueTable.onTop
  split
  · rfl
  next frame rest hstack => rw [hstack, map_cons, map_cons, h]

theorem setVregVn_vregToVn (table : ScopedValueTable) (v : VReg) (n : ℕ) :
    (table.setVregVn v n).vregToVn = update table.vregToVn v (some n) := by
  rw [ScopedValueTable.setVregVn, onTop_vregToVn]

theorem setVregVn_same (st : GvnState) (v : VReg) (n : ℕ) :
    SameTables st { st with table := st.table.setVregVn v n } :=
  ⟨⟨onTop_exprTable _ _, onTop_scopes _ fun _ => rfl, rfl, rfl⟩, onTop_loadTable _ _⟩

theorem setFresh_same (st : GvnState) (v : VReg) : SameTables st (st.setFresh v) := by
  obtain ⟨⟨hexprs, hscopes, -, -⟩, hloads⟩ := setVregVn_same st v st.next
  exact ⟨⟨hexprs, hscopes, rfl, rfl⟩, hloads⟩

theorem NumInv.setFresh (hinv : NumInv f rep mean st) (v : VReg) :
    ∃ mean', Extends mean mean' ∧ NumInv f rep mean' (st.setFresh v)
      ∧ mean' st.next = some (.reg (rep v)) := by
  refine ⟨_, extends_update hinv (.reg (rep v)), ?_, update_self ..⟩
  refine hinv.allocate _ rfl ?_ (fun _ _ h => .inl h) (fun _ _ h => .inl h)
  intro w n hw
  have htable : (st.setFresh v).table.vregToVn
      = update st.table.vregToVn v (some st.next) := setVregVn_vregToVn _ _ _
  rw [htable] at hw
  rcases update_some_iff.1 hw with ⟨rfl, rfl⟩ | ⟨-, hw⟩
  · exact .inr ⟨rfl, fun _ => rfl⟩
  · exact .inl hw

theorem NumInv.setVregVn (hinv : NumInv f rep mean st) {v : VReg} {n : ℕ}
    (hn : mean n = some (.reg (rep v))) :
    NumInv f rep mean { st with table := st.table.setVregVn v n } := by
  refine ⟨hinv.fresh, ?_, hinv.imms, hinv.fimms⟩
  intro w k hw hsingle
  have htable : (st.table.setVregVn v n).vregToVn
      = update st.table.vregToVn v (some n) := setVregVn_vregToVn _ _ _
  rw [htable] at hw
  rcases update_some_iff.1 hw with ⟨rfl, rfl⟩ | ⟨-, hw⟩
  · exact hn
  · exact hinv.vregs w k hw hsingle

theorem operandVn_same (f : MachFunction) (st : GvnState) (op : MachOperand) :
    SameTables st (operandVn f st op).2 := by
  unfold operandVn
  split
  · split_ifs
    · exact .refl _
    split
    · exact .refl _
    · exact setFresh_same st _
  · split
    · exact .refl _
    · exact ⟨⟨rfl, rfl, rfl, rfl⟩, rfl⟩
  · split
    · exact .refl _
    · exact ⟨⟨rfl, rfl, rfl, rfl⟩, rfl⟩
  · exact .refl _

theorem operandVns_same (f : MachFunction) (ops : List MachOperand) (st : GvnState) :
    SameTables st (operandVns f st ops).2 := by
  induction ops generalizing st with
  | nil => exact .refl _
  | cons op ops ih =>
    have hfirst := operandVn_same f st op
    rw [operandVns]
    rcases hop : operandVn f st op with ⟨_ | vn, st'⟩ <;> rw [hop] at hfirst
    · exact hfirst
    have hrest := hfirst.trans (ih st')
    dsimp only
    rcases hops : operandVns f st' ops with ⟨_ | vns, st''⟩ <;> rw [hops] at hrest <;> exact hrest

/-- **The number of an operand stands for it.** -/
theorem operandVn_spec (hinv : NumInv f rep mean st) (op : MachOperand) :
    ∃ mean', Extends mean mean' ∧ NumInv f rep mean' (operandVn f st op).2
      ∧ ∀ n, (operandVn f st op).1 = some n → OpMeans f rep mean' op n := by
  cases op with
  | vreg v =>
    rw [operandVn]
    by_cases hmulti : isMultiDef f v = true
    · rw [if_pos hmulti]
      exact ⟨mean, .refl _, hinv, nofun⟩
    rw [if_neg hmulti]
    have hsingle : isMultiDef f v = false := by simpa using hmulti
    cases hv : st.table.vregToVn v with
    | some vn =>
      exact ⟨mean, .refl _, hinv, by simpa using ⟨hsingle, hinv.vregs v vn hv hsingle⟩⟩
    | none =>
      obtain ⟨mean', hext, hinv', hmean⟩ := hinv.setFresh v
      exact ⟨mean', hext, hinv', by simpa using ⟨hsingle, hmean⟩⟩
  | imm k =>
    rw [operandVn]
    cases hk : st.immVns k with
    | some vn => exact ⟨mean, .refl _, hinv, by simpa [OpMeans] using hinv.imms k vn hk⟩
    | none =>
      refine ⟨_, extends_update hinv (.imm k), hinv.allocate _ rfl (fun _ _ h => .inl h) ?_
        (fun _ _ h => .inl h), by simp [OpMeans]⟩
      exact fun k' n hn => (update_some_iff.1 hn).symm.imp (·.2) fun h => ⟨h.2, by rw [h.1]⟩
  | fimm bits =>
    rw [operandVn]
    cases hk : st.fimmVns bits with
    | some vn => exact ⟨mean, .refl _, hinv, by simpa [OpMeans] using hinv.fimms bits vn hk⟩
    | none =>
      refine ⟨_, extends_update hinv (.fimm bits), hinv.allocate _ rfl (fun _ _ h => .inl h)
        (fun _ _ h => .inl h) ?_, by simp [OpMeans]⟩
      exact fun k' n hn => (update_some_iff.1 hn).symm.imp (·.2) fun h => ⟨h.2, by rw [h.1]⟩
  | _ => exact ⟨mean, .refl _, hinv, nofun⟩

theorem operandVns_spec (ops : List MachOperand) (st : GvnState) (mean : ℕ → Option Meaning)
    (hinv : NumInv f rep mean st) :
    ∃ mean', Extends mean mean' ∧ NumInv f rep mean' (operandVns f st ops).2
      ∧ ∀ ns, (operandVns f st ops).1 = some ns → List.Forall₂ (OpMeans f rep mean') ops ns := by
  induction ops generalizing st mean with
  | nil =>
    refine ⟨mean, .refl _, hinv, fun ns hns => ?_⟩
    rw [← Option.some.inj hns]
    exact .nil
  | cons op ops ih =>
    obtain ⟨mean1, hext1, hinv1, hop⟩ := operandVn_spec hinv op
    obtain ⟨mean2, hext2, hinv2, hops⟩ := ih _ _ hinv1
    rw [operandVns]
    rcases hfirst : operandVn f st op with ⟨_ | n, st1⟩ <;> rw [hfirst] at hop hinv1 hinv2 hops
    · exact ⟨mean1, hext1, hinv1, nofun⟩
    refine ⟨mean2, hext1.trans hext2, ?_⟩
    dsimp only at hinv2 hops ⊢
    rcases hrest : operandVns f st1 ops with ⟨_ | ns, st2⟩ <;> rw [hrest] at hinv2 hops
    · exact ⟨hinv2, nofun⟩
    refine ⟨hinv2, fun ns' hns' => ?_⟩
    rw [← Option.some.inj hns']
    exact .cons ((hop n rfl).mono hext2) (hops ns rfl)

end

/-! ## Candidates and keys -/

/-- The instruction writes its first operand and reads the others. -/
structure Defines (inst : MachInst) (v : VReg) (rest : List MachOperand) : Prop where
  operands : inst.operands = .vreg v :: rest
  roles : operandRoles inst.opcode (rest.length + 1) = .Def :: List.replicate rest.length .Use

variable {inst : MachInst} {v : VReg} {rest : List MachOperand}

section

variable (h : Defines inst v rest)
include h

theorem Defines.writtenVregs : writtenVregs inst = [v] := (vregs_of_roles h.operands h.roles).2.1

theorem Defines.usedVregs : usedVregs inst = rest.filterMap MachOperand.asVreg :=
  (vregs_of_roles h.operands h.roles).2.2

end

theorem eq_zero_of_primary {inst : MachInst} (hprimary : hasNonPrimaryDef inst = false) :
    ∀ p ∈ defOperandPositions inst.opcode inst.operands.length, p = 0 := by
  rw [hasNonPrimaryDef, any_eq_false] at hprimary
  intro p hp
  simpa using hprimary p hp

theorem zero_mem_defOperandPositions {inst : MachInst}
    (hsome : (definedVregs inst).isEmpty = false) (hprimary : hasNonPrimaryDef inst = false) :
    0 ∈ defOperandPositions inst.opcode inst.operands.length := by
  have honly := eq_zero_of_primary hprimary
  rw [definedVregs, vregsAt] at hsome
  cases hpos : defOperandPositions inst.opcode inst.operands.length with
  | nil => rw [hpos] at hsome; simp at hsome
  | cons p ps =>
    rw [← honly p (by rw [hpos]; simp)]
    exact .head _

theorem Defines.of_primary {inst : MachInst} {v : VReg} {rest : List MachOperand}
    (hops : inst.operands = .vreg v :: rest) (hsome : (Opt.definedVregs inst).isEmpty = false)
    (hprimary : hasNonPrimaryDef inst = false) (htied : hasTiedDefUse inst.opcode = false)
    (hcas : isLseCas inst.opcode = false) : Defines inst v rest := by
  have hfirst := zero_mem_defOperandPositions hsome hprimary
  have honly := eq_zero_of_primary hprimary
  have hlen : inst.operands.length = rest.length + 1 := by rw [hops]; rfl
  rw [hlen] at hfirst honly
  exact ⟨hops, operandRoles_of_primary hfirst honly htied hcas⟩

/-- The operands that can have a value number. -/
def hasNumber : MachOperand → Bool
  | .vreg _ | .imm _ | .fimm _ => true
  | _ => false

/-- The opcode reads or writes the condition flags. -/
def touchesFlags (opcode : AArch64Opcode) : Bool := readsFlags opcode || writesFlags opcode

/-- The computations the pass can key by their operands. -/
def keyedPure (inst : MachInst) : Bool :=
  decide (opcodeEffect inst.opcode = .Pure) && !touchesFlags inst.opcode
    && !hasTiedDefUse inst.opcode && inst.operands.tail.all hasNumber

/-- The loads the pass can key by base and offset. -/
def keyedLoad (inst : MachInst) : Bool :=
  decide (opcodeEffect inst.opcode = .Load) && !touchesFlags inst.opcode
    && match inst.operands with
      | _ :: base :: .imm _ :: _ => hasNumber base
      | _ => false

/-- The key is that of a pure instruction which writes `v`, up to the order of commutative
operands. -/
def ExprFor (f : MachFunction) (rep : VReg → VReg) (mean : ℕ → Option Meaning) (inst : MachInst)
    (v : VReg) (key : VNExprKey) : Prop :=
  isMultiDef f v = false ∧ keyedPure inst = true ∧ key.opcode = inst.opcode
    ∧ key.resultClass = v.cls ∧ ∃ rest ops, Defines inst v rest
      ∧ List.Forall₂ (OpMeans f rep mean) ops key.operandVns
      ∧ (ops = rest ∨ inst.opcode.isCommutative = true ∧ ∃ a b, rest = [a, b] ∧ ops = [b, a])

/-- The key is that of a load which writes `v`. -/
def LoadFor (f : MachFunction) (rep : VReg → VReg) (mean : ℕ → Option Meaning) (inst : MachInst)
    (v : VReg) (key : LoadKey) : Prop :=
  isMultiDef f v = false ∧ keyedLoad inst = true ∧ key.opcode = inst.opcode
    ∧ key.resultClass = v.cls ∧ ∃ base more, Defines inst v (base :: .imm key.offset :: more)
      ∧ OpMeans f rep mean base key.baseVn

variable {mean' : ℕ → Option Meaning}

variable {key : VNExprKey}

section

theorem ExprFor.mono (hext : Extends mean mean') (h : ExprFor f rep mean inst v key) :
    ExprFor f rep mean' inst v key := by
  obtain ⟨hsingle, hpure, hopcode, hclass, rest, ops, hdef, hops, hperm⟩ := h
  exact ⟨hsingle, hpure, hopcode, hclass, rest, ops, hdef, hops.imp fun _ _ h => h.mono hext, hperm⟩

theorem LoadFor.mono (hext : Extends mean mean') {key : LoadKey}
    (h : LoadFor f rep mean inst v key) : LoadFor f rep mean' inst v key := by
  obtain ⟨hsingle, hload, hopcode, hclass, base, more, hdef, hbase⟩ := h
  exact ⟨hsingle, hload, hopcode, hclass, base, more, hdef, hbase.mono hext⟩

theorem hasNumber_of_opMeans {op : MachOperand} {n : ℕ} (h : OpMeans f rep mean op n) :
    hasNumber op = true := by
  cases op with
  | vreg _ => rfl
  | imm _ => rfl
  | fimm _ => rfl
  | _ => simp [OpMeans] at h

theorem sortVns_cases (ns : List ℕ) :
    sortVns ns = ns ∨ ∃ a b, ns = [a, b] ∧ sortVns ns = [b, a] := by
  rcases ns with _ | ⟨a, _ | ⟨b, _ | ⟨c, ns⟩⟩⟩
  · exact .inl rfl
  · exact .inl rfl
  · rw [sortVns]
    split_ifs
    · exact .inr ⟨a, b, rfl, rfl⟩
    · exact .inl rfl
  · exact .inl rfl

theorem forall₂_sortVns {ops : List MachOperand} {ns : List ℕ}
    (h : List.Forall₂ (OpMeans f rep mean) ops ns) (opcode : AArch64Opcode) :
    ∃ ops', List.Forall₂ (OpMeans f rep mean) ops'
        (if opcode.isCommutative then sortVns ns else ns)
      ∧ (ops' = ops ∨ opcode.isCommutative = true ∧ ∃ a b, ops = [a, b] ∧ ops' = [b, a]) := by
  split_ifs with hcomm
  · obtain ⟨ops', hops, hperm⟩ := forall₂_swap h (sortVns_cases ns)
    exact ⟨ops', hops, hperm.imp_right fun hswap => ⟨hcomm, hswap⟩⟩
  · exact ⟨ops, h, .inl rfl⟩

section

variable (f : MachFunction) (st : GvnState) (inst : MachInst)

theorem makeExprKey_same : SameTables st (makeExprKey f st inst).2 := by
  unfold makeExprKey
  split
  · exact .refl _
  split
  next v rest hops =>
    have hsame := operandVns_same f rest st
    split <;> rename_i hvns <;> rw [hvns] at hsame <;> exact hsame
  · exact .refl _

theorem makeLoadKey_same : SameTables st (makeLoadKey f st inst).2 := by
  unfold makeLoadKey
  split_ifs
  · exact .refl _
  split
  next v base offset more hops =>
    have hsame := operandVn_same f st base
    split
    next hvn =>
      rw [hvn] at hsame
      exact hsame
    next hvn =>
      rw [hvn] at hsame
      split <;> exact hsame
  · exact .refl _

end

section

variable (hinv : NumInv f rep mean st)
include hinv

theorem makeExprKey_spec (hops : inst.operands = .vreg v :: rest) :
    ∃ mean', Extends mean mean' ∧ NumInv f rep mean' (makeExprKey f st inst).2
      ∧ ∀ key, (makeExprKey f st inst).1 = some key → hasTiedDefUse inst.opcode = false
        ∧ key.opcode = inst.opcode ∧ key.resultClass = v.cls ∧ rest.all hasNumber = true
        ∧ ∃ ops, List.Forall₂ (OpMeans f rep mean') ops key.operandVns
          ∧ (ops = rest ∨ inst.opcode.isCommutative = true
            ∧ ∃ a b, rest = [a, b] ∧ ops = [b, a]) := by
  rw [makeExprKey]
  by_cases htied : hasTiedDefUse inst.opcode = true
  · rw [if_pos htied]
    exact ⟨mean, .refl _, hinv, fun _ hkey => by cases hkey⟩
  rw [if_neg htied, hops]
  obtain ⟨mean', hext, hinv', hnums⟩ := operandVns_spec rest st mean hinv
  refine ⟨mean', hext, ?_⟩
  dsimp only
  rcases hvns : operandVns f st rest with ⟨_ | ns, st'⟩ <;> rw [hvns] at hinv' hnums
  · exact ⟨hinv', fun _ hkey => by cases hkey⟩
  refine ⟨hinv', fun key hkey => ?_⟩
  cases hkey
  have hall := hnums ns rfl
  obtain ⟨ops, hsorted, hperm⟩ := forall₂_sortVns hall inst.opcode
  refine ⟨by simpa using htied, rfl, rfl, ?_, ops, hsorted, hperm⟩
  rw [all_eq_true]
  exact ((List.forall₂_and_left _ _).1 (hall.imp fun _ _ h => ⟨hasNumber_of_opMeans h, h⟩)).1

/-- The numbers of a load key mean the operands it is made from. -/
def LoadKeyed (f : MachFunction) (rep : VReg → VReg) (mean : ℕ → Option Meaning) (inst : MachInst)
    (v : VReg) (rest : List MachOperand) (r : Option LoadKey × GvnState) : Prop :=
  NumInv f rep mean r.2 ∧ ∀ key, r.1 = some key → key.opcode = inst.opcode
    ∧ key.resultClass = v.cls ∧ ∃ base more, rest = base :: .imm key.offset :: more
      ∧ OpMeans f rep mean base key.baseVn

theorem loadKeyed_none :
    LoadKeyed f rep mean inst v rest (none, st) := ⟨hinv, fun key hkey => by cases hkey⟩

theorem makeLoadKey_spec (hops : inst.operands = .vreg v :: rest) :
    ∃ mean', Extends mean mean' ∧ LoadKeyed f rep mean' inst v rest (makeLoadKey f st inst) := by
  rw [makeLoadKey]
  by_cases hprimary : hasNonPrimaryDef inst = true
  · rw [if_pos hprimary]
    exact ⟨mean, .refl _, loadKeyed_none hinv⟩
  rw [if_neg hprimary, hops]
  rcases rest with _ | ⟨base, _ | ⟨offset, more⟩⟩
  · exact ⟨mean, .refl _, loadKeyed_none hinv⟩
  · exact ⟨mean, .refl _, loadKeyed_none hinv⟩
  obtain ⟨mean', hext, hinv', hnum⟩ := operandVn_spec hinv base
  refine ⟨mean', hext, ?_⟩
  rcases hvn : operandVn f st base with ⟨_ | n, st'⟩
  · rw [hvn] at hinv'
    simp only [hvn]
    exact loadKeyed_none hinv'
  rw [hvn] at hinv' hnum
  simp only [hvn]
  cases offset with
  | imm k =>
    refine ⟨hinv', fun key hkey => ?_⟩
    cases hkey
    exact ⟨rfl, rfl, base, more, rfl, hnum n rfl⟩
  | _ => exact loadKeyed_none hinv'

end

end

/-! ## One visit -/

/-- What the visit of an instruction that is not seen as a write to memory can do. -/
inductive Outcome (f : MachFunction) (rep : VReg → VReg) (mean : ℕ → Option Meaning) (i : InstId)
    (inst : MachInst) (st : GvnState) : GvnState → Prop
  | numbered {st' : GvnState} : NumInv f rep mean st' → SameTables st st' →
      Outcome f rep mean i inst st st'
  | newExpr {mid : GvnState} {v : VReg} {key : VNExprKey} : SameTables st (mid.setFresh v) →
      NumInv f rep mean (mid.setFresh v) → mean mid.next = some (.reg (rep v)) →
      ExprFor f rep mean inst v key → Outcome f rep mean i inst st { mid.setFresh v with
        table := (mid.setFresh v).table.insertExpr key mid.next ⟨i, v⟩ }
  | sameExpr {mid : GvnState} {v : VReg} {key : VNExprKey} {vn : ℕ} {leader : Leader} :
      SameTables st mid → NumInv f rep mean mid → ExprFor f rep mean inst v key →
      st.table.exprTable key = some (vn, leader) →
      Outcome f rep mean i inst st (mid.eliminate i v vn leader)
  | newLoad {mid : GvnState} {v : VReg} {key : LoadKey} : SameTables st (mid.setFresh v) →
      NumInv f rep mean (mid.setFresh v) → mean mid.next = some (.reg (rep v)) →
      LoadFor f rep mean inst v key → Outcome f rep mean i inst st { mid.setFresh v with
        table := (mid.setFresh v).table.insertLoad key mid.next ⟨i, v⟩ }
  | sameLoad {mid : GvnState} {v : VReg} {key : LoadKey} {entry : LoadEntry} :
      SameTables st mid → NumInv f rep mean mid → LoadFor f rep mean inst v key →
      st.table.loadTable key = some entry →
      Outcome f rep mean i inst st (mid.eliminate i v entry.vn entry.leader)

variable {i : InstId}

section

theorem outcome_setFresh {mid : GvnState} {mean1 : ℕ → Option Meaning}
    (hext : Extends mean mean1) (hinv1 : NumInv f rep mean1 mid) (hsame : SameTables st mid)
    (v : VReg) : ∃ mean', Extends mean mean' ∧ Outcome f rep mean' i inst st (mid.setFresh v) := by
  obtain ⟨mean', hext', hinv', -⟩ := hinv1.setFresh v
  exact ⟨mean', hext.trans hext', .numbered hinv' (hsame.trans (setFresh_same mid v))⟩

section

variable (hinv : NumInv f rep mean st) (hops : inst.operands = .vreg v :: rest)
    (hsome : (definedVregs inst).isEmpty = false) (hprimary : hasNonPrimaryDef inst = false)
    (hflags : touchesFlags inst.opcode = false) (hsingle : isMultiDef f v = false)
include hinv hops hsome hprimary hflags hsingle

theorem visitPure_outcome (heffect : opcodeEffect inst.opcode = .Pure) :
    ∃ mean', Extends mean mean' ∧ Outcome f rep mean' i inst st (visitPure f st i inst v) := by
  obtain ⟨mean1, hext1, hinv1, hkey⟩ := makeExprKey_spec hinv hops
  have hsame1 := makeExprKey_same f st inst
  rw [visitPure]
  rcases hmake : makeExprKey f st inst with ⟨_ | key, mid⟩
  · rw [hmake] at hinv1 hsame1
    exact outcome_setFresh hext1 hinv1 hsame1 v
  rw [hmake] at hinv1 hsame1 hkey
  obtain ⟨htied, hopcode, hclass, hnumber, ops, hnums, hperm⟩ := hkey key rfl
  have hcas : isLseCas inst.opcode = false := by
    revert heffect
    cases inst.opcode <;> decide
  have hpure : keyedPure inst = true := by
    simpa [keyedPure, heffect, hflags, htied, hops] using all_eq_true.1 hnumber
  have hexpr : ExprFor f rep mean1 inst v key := ⟨hsingle, hpure, hopcode, hclass, rest, ops,
    .of_primary hops hsome hprimary htied hcas, hnums, hperm⟩
  dsimp only
  cases hentry : mid.table.exprTable key with
  | some entry =>
    obtain ⟨vn, leader⟩ := entry
    refine ⟨mean1, hext1, .sameExpr hsame1 hinv1 hexpr ?_⟩
    rw [← hsame1.exprs]
    exact hentry
  | none =>
    obtain ⟨mean2, hext2, hinv2, hmean⟩ := hinv1.setFresh v
    exact ⟨mean2, hext1.trans hext2, .newExpr (hsame1.trans (setFresh_same mid v)) hinv2 hmean
      (hexpr.mono hext2)⟩

theorem visitLoad_outcome (heffect : opcodeEffect inst.opcode = .Load) :
    ∃ mean', Extends mean mean' ∧ Outcome f rep mean' i inst st (visitLoad f st i inst v) := by
  obtain ⟨mean1, hext1, hinv1, hkey⟩ := makeLoadKey_spec hinv hops
  have hsame1 := makeLoadKey_same f st inst
  rw [visitLoad]
  rcases hmake : makeLoadKey f st inst with ⟨_ | key, mid⟩
  · rw [hmake] at hinv1 hsame1
    exact outcome_setFresh hext1 hinv1 hsame1 v
  rw [hmake] at hinv1 hsame1 hkey
  obtain ⟨hopcode, hclass, base, more, rfl, hbase⟩ := hkey key rfl
  have hplain : hasTiedDefUse inst.opcode = false ∧ isLseCas inst.opcode = false := by
    revert heffect
    cases inst.opcode <;> decide
  have hload : keyedLoad inst = true := by
    simp [keyedLoad, heffect, hflags, hops, hasNumber_of_opMeans hbase]
  have hfor : LoadFor f rep mean1 inst v key := ⟨hsingle, hload, hopcode, hclass, base, more,
    .of_primary hops hsome hprimary hplain.1 hplain.2, hbase⟩
  dsimp only
  cases hentry : mid.table.loadTable key with
  | some entry =>
    refine ⟨mean1, hext1, .sameLoad hsame1 hinv1 hfor ?_⟩
    rw [← hsame1.loads]
    exact hentry
  | none =>
    obtain ⟨mean2, hext2, hinv2, hmean⟩ := hinv1.setFresh v
    exact ⟨mean2, hext1.trans hext2, .newLoad (hsame1.trans (setFresh_same mid v)) hinv2 hmean
      (hfor.mono hext2)⟩

end

theorem foldl_setFresh_outcome (vs : List VReg) (mid : GvnState) (mean1 : ℕ → Option Meaning)
    (hinv : NumInv f rep mean1 mid) (hsame : SameTables st mid) :
    ∃ mean', Extends mean1 mean'
      ∧ Outcome f rep mean' i inst st (vs.foldl GvnState.setFresh mid) := by
  induction vs generalizing mid mean1 with
  | nil => exact ⟨mean1, .refl _, .numbered hinv hsame⟩
  | cons v vs ih =>
    obtain ⟨mean2, hext2, hinv2, -⟩ := hinv.setFresh v
    obtain ⟨mean', hext', hout⟩ := ih _ mean2 hinv2 (hsame.trans (setFresh_same mid v))
    exact ⟨mean', hext2.trans hext', hout⟩

/-- **What one visit can do.** -/
theorem visitDef_outcome (hinv : NumInv f rep mean st) (i : InstId) (inst : MachInst) :
    ∃ mean', Extends mean mean' ∧ Outcome f rep mean' i inst st (visitDef f st i inst) := by
  have hstay : ∃ mean', Extends mean mean' ∧ Outcome f rep mean' i inst st st :=
    ⟨mean, .refl _, .numbered hinv (.refl _)⟩
  unfold visitDef
  split_ifs with hsome hskip
  · exact hstay
  · exact foldl_setFresh_outcome _ st mean hinv (.refl _)
  simp only [Bool.or_eq_true, not_or, Bool.not_eq_true] at hsome hskip
  have hflags : touchesFlags inst.opcode = false := by simp [touchesFlags, hskip.2]
  cases hops : inst.operands with
  | nil => exact hstay
  | cons op rest =>
    cases op with
    | vreg v =>
      dsimp only
      split_ifs with hmulti
      · exact outcome_setFresh (.refl _) hinv (.refl _) v
      have hsingle : isMultiDef f v = false := by simpa using hmulti
      split
      next heffect => exact visitLoad_outcome hinv hops hsome hskip.1 hflags hsingle heffect
      next heffect => exact visitPure_outcome hinv hops hsome hskip.1 hflags hsingle heffect
      · exact outcome_setFresh (.refl _) hinv (.refl _) v
    | _ => exact hstay

end

end TrustCg.Opt.Gvn
