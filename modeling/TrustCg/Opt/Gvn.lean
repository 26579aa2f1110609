import TrustCg.Opt.Elimination

/-!
# Global value numbering

`run_gvn`: a walk of the dominator tree gives every register and immediate a value number.
A pure instruction whose opcode, class and numbered operands have been seen in an open
scope, or a load from a numbered base that has been seen in the block with no write to
memory since, is removed, and its uses are made to read the register of the first one.

Functions without proof-reorderable instructions are modelled: every write to memory
forgets the loads.
-/

namespace TrustCg.Opt.Gvn

open Ir
open RegAlloc (RegClass BlockId InstId VReg)
open Function (update)

/-! ## The scoped table -/

/-- An expression over value numbers. -/
structure VNExprKey where
  opcode : AArch64Opcode
  resultClass : RegClass
  operandVns : List ℕ
  deriving DecidableEq

/-- A load by base number and offset. -/
structure LoadKey where
  opcode : AArch64Opcode
  resultClass : RegClass
  baseVn : ℕ
  offset : ℤ
  deriving DecidableEq

/-- The first to compute a value. -/
structure Leader where
  instId : InstId
  defVreg : VReg
  deriving DecidableEq

/-- `LoadEntry`, without what proof-reorderable stores leave in it. -/
structure LoadEntry where
  vn : ℕ
  leader : Leader
  deriving DecidableEq

/-- A table of loads. -/
abbrev LoadTable := LoadKey → Option LoadEntry

/-- What a scope takes back. -/
structure ScopeFrame where
  addedVregs : List VReg := []
  addedExprs : List VNExprKey := []
  addedLoads : List LoadKey := []
  clearedLoads : Option LoadTable := none

/-- `ScopedValueTable`; the innermost scope comes first. -/
structure ScopedValueTable where
  vregToVn : VReg → Option ℕ := fun _ => none
  exprTable : VNExprKey → Option (ℕ × Leader) := fun _ => none
  loadTable : LoadTable := fun _ => none
  scopeStack : List ScopeFrame := []

/-- A map without some keys. -/
def removeKeys {κ α : Type*} [DecidableEq κ] (keys : List κ) (table : κ → Option α) (k : κ) :
    Option α :=
  if k ∈ keys then none else table k

namespace ScopedValueTable

variable (table : ScopedValueTable)

/-- Change the innermost scope, if there is one. -/
def onTop (change : ScopeFrame → ScopeFrame) : ScopedValueTable :=
  match table.scopeStack with
  | [] => table
  | frame :: rest => { table with scopeStack := change frame :: rest }

/-- Opens a scope. -/
def pushScope : ScopedValueTable :=
  { table with scopeStack := {} :: table.scopeStack }

/-- Closes a scope and restores. -/
def popScope : ScopedValueTable :=
  match table.scopeStack with
  | [] => table
  | frame :: rest =>
    { vregToVn := removeKeys frame.addedVregs table.vregToVn
      exprTable := removeKeys frame.addedExprs table.exprTable
      loadTable := frame.clearedLoads.getD (removeKeys frame.addedLoads table.loadTable)
      scopeStack := rest }

/-- The number of a register. -/
def setVregVn (v : VReg) (vn : ℕ) : ScopedValueTable :=
  { table with vregToVn := update table.vregToVn v (some vn) }.onTop fun frame =>
    { frame with addedVregs := v :: frame.addedVregs }

/-- A leader for an expression. -/
def insertExpr (key : VNExprKey) (vn : ℕ) (leader : Leader) : ScopedValueTable :=
  { table with exprTable := update table.exprTable key (some (vn, leader)) }.onTop
    fun frame => { frame with addedExprs := key :: frame.addedExprs }

/-- A leader for a load. -/
def insertLoad (key : LoadKey) (vn : ℕ) (leader : Leader) : ScopedValueTable :=
  { table with loadTable := update table.loadTable key (some ⟨vn, leader⟩) }.onTop
    fun frame => { frame with addedLoads := key :: frame.addedLoads }

/-- Keeps the loads for the scope's end. -/
def saveLoadTableForScope : ScopedValueTable :=
  table.onTop fun frame =>
    let saved := frame.clearedLoads.getD (removeKeys frame.addedLoads table.loadTable)
    { frame with clearedLoads := some saved }

/-- Forgets all loads. -/
def killLoads : ScopedValueTable :=
  { table.saveLoadTableForScope with loadTable := fun _ => none }

end ScopedValueTable

/-! ## Numbering -/

/-- The tables of the walk and the next value number. -/
structure GvnState where
  table : ScopedValueTable := {}
  next : ℕ := 0
  immVns : ℤ → Option ℕ := fun _ => none
  fimmVns : BitVec 64 → Option ℕ := fun _ => none
  replacements : List (VReg × VReg) := []
  deadInsts : List InstId := []

variable (f : MachFunction)

/-- `count_defs`: how many operands write a register. -/
def countDefs (v : VReg) : ℕ :=
  ((places f).flatMap fun e => definedAt f e.2.2).count v

/-- A register with more than one definition is not numbered. -/
def isMultiDef (v : VReg) : Bool := decide (1 < countDefs f v)

variable (st : GvnState)

/-- Give a register a fresh value number. -/
def GvnState.setFresh (v : VReg) : GvnState :=
  { st with table := st.table.setVregVn v st.next, next := st.next + 1 }

/-- The number of an operand. -/
def operandVn : MachOperand → Option ℕ × GvnState
  | .vreg v =>
    if isMultiDef f v then (none, st)
    else
      match st.table.vregToVn v with
      | some vn => (some vn, st)
      | none => (some st.next, st.setFresh v)
  | .imm n =>
    match st.immVns n with
    | some vn => (some vn, st)
    | none => (some st.next,
        { st with immVns := update st.immVns n (some st.next), next := st.next + 1 })
  | .fimm bits =>
    match st.fimmVns bits with
    | some vn => (some vn, st)
    | none => (some st.next, { st with
          fimmVns := update st.fimmVns bits (some st.next), next := st.next + 1 })
  | _ => (none, st)

/-- The numbers of some operands; it stops at the first one that has none. -/
def operandVns (f : MachFunction) : GvnState → List MachOperand → Option (List ℕ) × GvnState
  | st, [] => (some [], st)
  | st, op :: ops =>
    match operandVn f st op with
    | (none, st') => (none, st')
    | (some vn, st') =>
      match operandVns f st' ops with
      | (none, st'') => (none, st'')
      | (some vns, st'') => (some (vn :: vns), st'')

/-- Two numbers in order; other lists are left alone. -/
def sortVns : List ℕ → List ℕ
  | [a, b] => if b < a then [b, a] else [a, b]
  | vns => vns

variable (inst : MachInst)

/-- The key of an expression. -/
def makeExprKey : Option VNExprKey × GvnState :=
  if hasTiedDefUse inst.opcode then (none, st)
  else
    match inst.operands with
    | .vreg v :: rest =>
      match operandVns f st rest with
      | (none, st') => (none, st')
      | (some vns, st') =>
        (some ⟨inst.opcode, v.cls, if inst.opcode.isCommutative then sortVns vns else vns⟩, st')
    | _ => (none, st)

/-- Another operand is written too. -/
def hasNonPrimaryDef : Bool :=
  (defOperandPositions inst.opcode inst.operands.length).any fun p => p != 0

/-- The key of a load. -/
def makeLoadKey : Option LoadKey × GvnState :=
  if hasNonPrimaryDef inst then (none, st)
  else
    match inst.operands with
    | .vreg v :: base :: offset :: _ =>
      match operandVn f st base with
      | (none, st') => (none, st')
      | (some vn, st') =>
        match offset with
        | .imm n => (some ⟨inst.opcode, v.cls, vn, n⟩, st')
        | _ => (none, st')
    | _ => (none, st)

/-! ## The walk -/

variable (i : InstId)

/-- Remove an instruction in favour of a leader with a value number. -/
def GvnState.eliminate (v : VReg) (vn : ℕ) (leader : Leader) : GvnState :=
  { st with
    table := st.table.setVregVn v vn
    replacements := (v, leader.defVreg) :: st.replacements
    deadInsts := st.deadInsts ++ [i] }

/-- A load that writes `v`. -/
def visitLoad (inst : MachInst) (v : VReg) : GvnState :=
  match makeLoadKey f st inst with
  | (none, st) => st.setFresh v
  | (some key, st) =>
    match st.table.loadTable key with
    | some entry => st.eliminate i v entry.vn entry.leader
    | none =>
      let fresh := st.setFresh v
      { fresh with table := fresh.table.insertLoad key st.next ⟨i, v⟩ }

/-- A pure instruction that writes `v`. -/
def visitPure (inst : MachInst) (v : VReg) : GvnState :=
  match makeExprKey f st inst with
  | (none, st) => st.setFresh v
  | (some key, st) =>
    match st.table.exprTable key with
    | some (vn, leader) => st.eliminate i v vn leader
    | none =>
      let fresh := st.setFresh v
      { fresh with table := fresh.table.insertExpr key st.next ⟨i, v⟩ }

/-- The body of the loop over the instructions of a block, after the writes to memory have
been seen to. -/
def visitDef (inst : MachInst) : GvnState :=
  if (definedVregs inst).isEmpty then st
  else if hasNonPrimaryDef inst || (readsFlags inst.opcode || writesFlags inst.opcode) then
    (definedVregs inst).foldl GvnState.setFresh st
  else
    match inst.operands with
    | .vreg v :: _ =>
      if isMultiDef f v then st.setFresh v
      else
        match opcodeEffect inst.opcode with
        | .Load => visitLoad f st i inst v
        | .Pure => visitPure f st i inst v
        | _ => st.setFresh v
    | _ => st

/-- The body of the loop over the instructions of a block. -/
def visitInst : GvnState :=
  match f.insts[i]? with
  | none => st
  | some inst =>
    visitDef f (if (opcodeEffect inst.opcode).writesMemory then
      { st with table := st.table.killLoads } else st) i inst

/-- All instructions of a block. -/
def gvnProcessBlock (b : BlockId) : GvnState :=
  let st := (f.blockInsts b).foldl (visitInst f) st
  { st with table := { st.table with loadTable := fun _ => none } }

/-- What the stack of the walk holds. -/
inductive Step
  | enter (b : BlockId)
  | exit (outerLoadTable : LoadTable)

/-- One iteration of `dom_walk_gvn`. -/
def walkStep (dom : DomTree) (s : List Step × GvnState) : Option (List Step × GvnState) :=
  match s.1 with
  | [] => none
  | .enter b :: work =>
    let inner := { s.2.table.pushScope with loadTable := fun _ => none }
    some ((dom.children b).map .enter ++ .exit s.2.table.loadTable :: work,
      gvnProcessBlock f { s.2 with table := inner } b)
  | .exit outer :: work =>
    let popped := { s.2.table with loadTable := fun _ => none }.popScope
    some (work, { s.2 with table := { popped with loadTable := outer } })

/-- The walk over the dominator tree. -/
def domWalkGvn (fuel : ℕ) (f : MachFunction) (dom : DomTree) : Option GvnState :=
  (Loop.run (walkStep f dom) fuel ([.enter f.entry], {})).map Prod.snd

/-! ## Applying the replacements -/

/-- The register that is read instead of `v`. -/
def replaced (replacements : List (VReg × VReg)) (v : VReg) : VReg :=
  (replacements.lookup v).getD v

/-- The positions that are read and not written. -/
def plainUsePositions : List ℕ :=
  (useOperandPositions inst.opcode inst.operands.length).filter fun p =>
    p ∉ defOperandPositions inst.opcode inst.operands.length

/-- The body of the rewriting loop. -/
def rewriteAt (replacements : List (VReg × VReg)) (insts : List MachInst)
    (e : BlockId × ℕ × InstId) : List MachInst :=
  match insts[e.2.2]? with
  | none => insts
  | some inst =>
    insts.set e.2.2 (substAt (replaced replacements) (plainUsePositions inst) inst)

/-- `run_gvn`: the function and whether anything has changed. -/
def runGvn (fuel : ℕ) (f : MachFunction) (dom : DomTree) : Option (MachFunction × Bool) :=
  (domWalkGvn fuel f dom).map fun st =>
    if st.replacements.isEmpty then (f, false)
    else (removeInsts st.deadInsts
      { f with insts := (places f).foldl (rewriteAt st.replacements) f.insts }, true)

end TrustCg.Opt.Gvn
