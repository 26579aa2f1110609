import TrustCg.Opt.Elimination

/-!
# Common-subexpression elimination

`run_cse`: the blocks are visited in the preorder of the dominator tree.  A pure
instruction whose key (opcode, class of the result, operands with their definition
counters) has been seen in a dominating block is removed, and its uses are made to read
the register of the first one, the leader.
-/

namespace TrustCg.Opt.Cse

open Ir
open RegAlloc (RegClass BlockId InstId VReg)

/-! ## Keys -/

/-- An operand as part of a key. -/
inductive CanonOperand
  | vreg (v : VReg) (version : ℕ)
  | imm (value : ℤ)
  | fimm (bits : BitVec 64)
  | symbol (name : String)
  | other
  deriving DecidableEq

variable (versions : VReg → ℕ)

/-- The operand of a key. -/
def CanonOperand.fromOperand : MachOperand → CanonOperand
  | .vreg v => .vreg v (versions v)
  | .imm n => .imm n
  | .fimm bits => .fimm bits
  | .symbol name => .symbol name
  | _ => .other

/-- The position of a class in the declaration of `RegClass`, which is how classes compare. -/
def classRank : RegClass → ℕ
  | .gpr64 => 0
  | .gpr32 => 1
  | .fpr128 => 2
  | .fpr64 => 3
  | .fpr32 => 4
  | .fpr16 => 5
  | .fpr8 => 6
  | .system => 7

/-- The derived order. -/
def canonOperandCmp : CanonOperand → CanonOperand → Ordering
  | .vreg a aver, .vreg b bver =>
    (compare a.id b.id).then ((compare (classRank a.cls) (classRank b.cls)).then
      (compare aver bver))
  | .imm a, .imm b => compare a b
  | .fimm a, .fimm b => compare a.toNat b.toNat
  | .symbol a, .symbol b => compare a b
  | .vreg _ _, _ => .lt
  | _, .vreg _ _ => .gt
  | .imm _, _ => .lt
  | _, .imm _ => .gt
  | .fimm _, _ => .lt
  | _, .fimm _ => .gt
  | .symbol _, _ => .lt
  | _, .symbol _ => .gt
  | .other, .other => .eq

/-- What equal expressions share. -/
structure ExprKey where
  category : OpcodeCategory
  opcode : AArch64Opcode
  resultClass : RegClass
  operands : List CanonOperand
  deriving DecidableEq

/-- The eliminated definitions, with the registers that replace them. -/
abbrev Replacements := List ((VReg × ℕ) × VReg)

/-- The canonical operand; where leaders are given, a register that has been replaced is
keyed as its leader. -/
def canonOperand (leaders : Option Replacements) (op : MachOperand) : CanonOperand :=
  match leaders, CanonOperand.fromOperand versions op with
  | some leaders, .vreg v version =>
    match leaders.lookup (v, version) with
    | some leader => .vreg leader (versions leader)
    | none => .vreg v version
  | _, canon => canon

/-- Two operands in canonical order; other lists are left alone. -/
def sortPair : List CanonOperand → List CanonOperand
  | [a, b] => if canonOperandCmp a b = .gt then [b, a] else [a, b]
  | ops => ops

/-- `make_expr_key`, from the operands behind the first one. -/
def makeExprKey (opcode : AArch64Opcode) (resultClass : RegClass) (operands : List MachOperand)
    (versions : VReg → ℕ) (leaders : Option Replacements) : ExprKey :=
  let canonOps := operands.map (canonOperand versions leaders)
  ⟨opcode.categorize, opcode, resultClass,
    if opcode.isCommutative then sortPair canonOps else canonOps⟩

/-! ## Candidates -/

variable (f : MachFunction)

/-- `count_defs`: how many instructions write a register. -/
def countDefs (v : VReg) : ℕ :=
  (places f).countP fun e => v ∈ definedAt f e.2.2

/-- More than one definition. -/
def hasMultiDef (v : VReg) : Bool := decide (1 < countDefs f v)

/-- Some operand has more than one. -/
def hasMultiDefVregOperand (operands : List MachOperand) : Bool :=
  operands.any fun op => (op.asVreg.map (hasMultiDef f)).getD false

/-- `collect_tied_def_use_vregs`. -/
def tiedDefUseVregs : List VReg :=
  (places f).filterMap fun e => (f.insts[e.2.2]?).bind fun inst =>
    if hasTiedDefUse inst.opcode then (inst.operands[0]?).bind MachOperand.asVreg else none

/-- `got_page_base_vregs`: the bases of the loads from the global offset table and of
thread-local descriptors. -/
def gotPageBaseVregs : List VReg :=
  (places f).filterMap fun e => (f.insts[e.2.2]?).bind fun inst =>
    if inst.opcode = .LdrGot ∨ inst.opcode = .LdrTlvp ∨ inst.opcode = .LdrGottprel then
      (inst.operands[1]?).bind MachOperand.asVreg
    else none

variable (inst : MachInst)

/-- An address that may be shared. -/
def isDedupableRelocationAddress : Bool :=
  (inst.opcode = .Adrp || inst.opcode = .AddPCRel)
    && !(inst.opcode = .Adrp
      && (((inst.operands[0]?).bind MachOperand.asVreg).map
        fun v => decide (v ∈ gotPageBaseVregs f)).getD false)

/-- What the pass asks of an instruction before it looks at its registers. -/
def admitted : Bool :=
  opcodeEffect inst.opcode = .Pure
    && (inst.opcode.producesValue && (singleInstDef inst).isSome)
    && (inst.implicitDefs.isEmpty && inst.implicitUses.isEmpty)
    && !(readsFlags inst.opcode || writesFlags inst.opcode)
    && !hasTiedDefUse inst.opcode
    && !(inst.opcode.categorize = .Other && !isDedupableRelocationAddress f inst)

/-- The register a candidate writes; it and the registers it reads have one definition. -/
def candidateDef : Option VReg :=
  if admitted f inst then
    match inst.operands with
    | .vreg v :: rest =>
      if v ∈ tiedDefUseVregs f ∨ hasMultiDef f v ∨ hasMultiDefVregOperand f rest then none
      else some v
    | _ => none
  else none

/-! ## The walk -/

/-- A leader and its place. -/
structure AvailExpr where
  instId : InstId
  block : BlockId
  defVreg : VReg
  deriving DecidableEq

/-- The tables of the walk.  The first entry for a key is the valid one. -/
structure CseState where
  available : List (ExprKey × AvailExpr) := []
  replacements : Replacements := []
  deadInsts : List InstId := []
  versions : VReg → ℕ := fun _ => 0

/-- Count the definitions an instruction makes. -/
def bump (v : VReg) : ℕ :=
  if v ∈ definedVregs inst then versions v + 1 else versions v

/-- `def_version`: the counter of operand 0, if the instruction writes it. -/
def defVersion : Option ℕ :=
  ((inst.operands[0]?).bind MachOperand.asVreg).bind fun v =>
    if v ∈ definedVregs inst then some (versions v) else none

/-- Every instruction is counted, and a barrier or a write of physical registers forgets
what is available. -/
def CseState.enter (st : CseState) (inst : MachInst) : CseState :=
  { st with
    versions := bump st.versions inst
    available := if (opcodeEffect inst.opcode).isBarrier || !inst.implicitDefs.isEmpty then []
      else st.available }

/-- Look the key up: eliminate the instruction, or make it available. -/
def CseState.lookupKey (dom : DomTree) (st : CseState) (b : BlockId)
    (i : InstId) (v : VReg) (version : ℕ) (key : ExprKey) : CseState :=
  let inserted := { st with available := (key, ⟨i, b, v⟩) :: st.available }
  match st.available.lookup key with
  | some avail =>
    if hasMultiDef f avail.defVreg then st
    else if dom.dominates avail.block b then
      { st with
        replacements := ((v, version), avail.defVreg) :: st.replacements
        deadInsts := st.deadInsts ++ [i] }
    else inserted
  | none => inserted

/-- The key of a candidate in the current tables. -/
def CseState.key (reloc : Bool) (st : CseState) (inst : MachInst) (v : VReg) : ExprKey :=
  makeExprKey inst.opcode v.cls inst.operands.tail st.versions
    (if reloc && isDedupableRelocationAddress f inst then some st.replacements else none)

/-- The body of the walk. -/
def visit (dom : DomTree) (reloc : Bool) (st : CseState) (e : BlockId × ℕ × InstId) : CseState :=
  match f.insts[e.2.2]? with
  | none => st
  | some inst =>
    match candidateDef f inst, defVersion (bump st.versions inst) inst with
    | some v, some version =>
      let key := (st.enter inst).key f reloc inst v
      if .other ∈ key.operands then st.enter inst
      else (st.enter inst).lookupKey f dom e.1 e.2.2 v version key
    | _, _ => st.enter inst

/-! ## Applying the replacements -/

/-- The register that replaces a definition. -/
def replacement (replacements : Replacements) (versions : VReg → ℕ) (v : VReg) : VReg :=
  (replacements.lookup (v, versions v)).getD v

/-- The body of the rewriting walk. -/
def rewriteAt (replacements : Replacements) (st : List MachInst × (VReg → ℕ))
    (e : BlockId × ℕ × InstId) : List MachInst × (VReg → ℕ) :=
  match st.1[e.2.2]? with
  | none => st
  | some inst =>
    let inst' := substAt (replacement replacements st.2)
      (useOperandPositions inst.opcode inst.operands.length) inst
    (st.1.set e.2.2 inst', bump st.2 inst')

/-- `run_cse`: the function and whether anything has changed. -/
def runCse (fuel : ℕ) (f : MachFunction) (dom : DomTree) (reloc : Bool) :
    Option (MachFunction × Bool) :=
  (domPreorder fuel f dom).map fun preorder =>
    let st := (placesIn f preorder).foldl (visit f dom reloc) {}
    if st.replacements.isEmpty then (f, false)
    else
      let insts := ((placesIn f preorder).foldl (rewriteAt st.replacements)
        (f.insts, fun _ => 0)).1
      (removeInsts st.deadInsts { f with insts := insts }, true)

end TrustCg.Opt.Cse
