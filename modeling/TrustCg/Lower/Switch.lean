import TrustCg.Lower.A64Flow

/-!
# Switches on AArch64

The adapter brings the case constants to the width of the selector, and the selector
lowers the switch to a chain of compares, to a tree of compares in blocks of its own, or to
a table of offsets.  Each form is checked against the source cases before it is accepted.

* `validateSwitchCaseValues` : the adapter's constants.
* `selectSwitch` : the three lowerings and their checks.
* `Func.Ready` : what the selector keeps true of a function between two instructions.
-/

namespace TrustCg.Lower.A64

/-! ## Case constants -/

/-- The selector types that a switch is lowered for. -/
inductive SelectorTy
  | i8
  | i16
  | i32
  | i64
  deriving DecidableEq, Repr

/-- `switch_selector_bits`. -/
def SelectorTy.bits : SelectorTy → ℕ
  | .i8 => 8
  | .i16 => 16
  | .i32 => 32
  | .i64 => 64

/-- `is_32bit`. -/
def SelectorTy.is32 : SelectorTy → Bool
  | .i8 | .i16 | .i32 => true
  | .i64 => false

/-- `reg_class_for_type`. -/
@[reducible] def SelectorTy.cls : SelectorTy → RegClass
  | .i8 | .i16 | .i32 => .gpr32
  | .i64 => .gpr64

/-- `Constant`, as far as a switch looks at it. -/
inductive Constant
  | int (raw : ℤ)
  | other
  deriving DecidableEq, Repr

/-- The errors of the adapter. -/
inductive AdapterError
  | nonInteger (value : Constant)
  | notRepresentable (raw : ℤ) (bits : ℕ)
  | duplicate (bits : ℕ) (value : Constant) (normalized : ℤ)
  deriving DecidableEq, Repr

/-- `normalize_switch_case_value`: narrow selectors are zero-extended before they are
compared, wider ones are compared at their own width. -/
def normalizeSwitchCaseValue (value : Constant) (selectorBits : ℕ) : Except AdapterError ℤ :=
  match value with
  | .other => .error (.nonInteger value)
  | .int raw =>
    let modulus := 2 ^ selectorBits
    let signBit := 2 ^ (selectorBits - 1)
    let normalized := raw % modulus
    let signed :=
      if selectorBits ≤ 16 then normalized
      else if normalized ≥ signBit then normalized - modulus
      else normalized
    if -2 ^ 63 ≤ signed ∧ signed < 2 ^ 63 then .ok signed
    else .error (.notRepresentable raw selectorBits)

/-- `validate_switch_case_values`, after the values in `seen`. -/
def validateSwitchCaseValues (selectorBits : ℕ) (seen : List ℤ) :
    List Constant → Except AdapterError (List ℤ)
  | [] => .ok []
  | value :: values => do
    let normalized ← normalizeSwitchCaseValue value selectorBits
    if normalized ∈ seen then .error (.duplicate selectorBits value normalized)
    else
      let rest ← validateSwitchCaseValues selectorBits (normalized :: seen) values
      return normalized :: rest

/-! ## The check of a lowering -/

/-- `SwitchStrategy`. -/
inductive Strategy
  | linearScan
  | binarySearch
  | jumpTable
  deriving DecidableEq, Repr

/-- The reasons of `SwitchNormalizationMismatch`. -/
inductive Mismatch
  | malformed (value : ℤ) (prev target : Block)
  | noDefault
  | spurious (value : ℤ) (target : Block)
  | retargeted (value : ℤ) (source target : Block)
  | routedTwice (value : ℤ) (prev target : Block)
  | dropped (value : ℤ) (source default : Block)
  | count (routed source : ℕ)
  | emptyTable
  | base (minVal trueMin : ℤ)
  | length (len : ℕ) (trueMin trueMax : ℤ)
  | slot (value : ℤ) (target source : Block)
  | hole (value : ℤ) (target default : Block)
  deriving DecidableEq, Repr

/-- The errors of the selector; a table too large to allocate aborts the process. -/
inductive SwitchError
  | mismatch (strategy : Strategy) (reason : Mismatch)
  | blockIdInSyntheticRange (block : Block)
  | capacityOverflow
  deriving DecidableEq, Repr

/-- The cases of a switch. -/
abbrev Cases := List (ℤ × Block)

/-- What a lowered switch maps values to. -/
structure NormalizedMapping where
  routed : Cases
  default : Option Block
  deriving DecidableEq, Repr

/-- Adds a case. -/
def NormalizedMapping.recordCase (m : NormalizedMapping) (value : ℤ) (target : Block) :
    NormalizedMapping := { m with routed := m.routed ++ [(value, target)] }

/-- Sets the default. -/
def NormalizedMapping.recordDefault (m : NormalizedMapping) (default : Block) :
    NormalizedMapping := { m with default := some default }

/-- `source_case_map`, into the entries of a map. -/
def sourceCaseMap (map : Cases) : Cases → Except Mismatch Cases
  | [] => .ok map
  | (value, target) :: cases =>
    match map.lookup value with
    | none => sourceCaseMap ((value, target) :: map) cases
    | some prev =>
      if prev ≠ target then .error (.malformed value prev target)
      else sourceCaseMap map cases

/-- The walk over the routed entries in `check_mapping_preserved`. -/
def walkRouted (source : Cases) (seen : Cases) : Cases → Except Mismatch Cases
  | [] => .ok seen
  | (value, target) :: routed =>
    match source.lookup value with
    | none => .error (.spurious value target)
    | some src =>
      if src ≠ target then .error (.retargeted value src target)
      else
        match seen.lookup value with
        | some prev => .error (.routedTwice value prev target)
        | none => walkRouted source ((value, target) :: seen) routed

/-- The mapping is that of the source. -/
def checkMappingPreserved (source : Cases) (normalized : NormalizedMapping) :
    Except Mismatch Unit := do
  match normalized.default with
  | none => .error .noDefault
  | some default =>
    let seen ← walkRouted source [] normalized.routed
    match source.find? fun e => (seen.lookup e.1).isNone with
    | some e => .error (.dropped e.1 e.2 default)
    | none =>
      if seen.length ≠ source.length then .error (.count seen.length source.length)
      else .ok ()

/-- The slots of `check_jump_table_preserved`. -/
def checkSlots (source : Cases) (default : Block) :
    ℤ → List Block → NormalizedMapping → Except Mismatch NormalizedMapping
  | _, [], m => .ok m
  | value, slot :: slots, m =>
    match source.lookup value with
    | some src =>
      if slot ≠ src then .error (.slot value slot src)
      else checkSlots source default (value + 1) slots (m.recordCase value slot)
    | none =>
      if slot ≠ default then .error (.hole value slot default)
      else checkSlots source default (value + 1) slots m

/-- The table has the right targets. -/
def checkJumpTablePreserved (cases : Cases) (default : Block) (minVal : ℤ)
    (targets : List Block) : Except Mismatch Unit := do
  let source ← sourceCaseMap [] cases
  match (cases.map Prod.fst).min?, (cases.map Prod.fst).max? with
  | some trueMin, some trueMax =>
    if minVal ≠ trueMin then .error (.base minVal trueMin)
    else if trueMax - trueMin + 1 ≠ targets.length then
      .error (.length targets.length trueMin trueMax)
    else
      let normalized ← checkSlots source default trueMin targets ⟨[], some default⟩
      checkMappingPreserved source normalized
  | _, _ => .error .emptyTable

/-- The compares have the right targets. -/
def checkCascadePreserved (cases : Cases) (default : Block) : Except Mismatch Unit := do
  let source ← sourceCaseMap [] cases
  checkMappingPreserved source ⟨cases, some default⟩

/-! ## The function under construction -/

/-- The part of a function and its selector that a switch works on. -/
structure Func where
  nextVreg : ℕ
  nextBlockId : ℕ
  blocks : Block → List FlowInst
  jumpTables : List (ℤ × List Block)

variable (f : Func)

/-- `push_inst`, for several instructions. -/
def Func.push (block : Block) (code : List FlowInst) : Func :=
  { f with blocks := Function.update f.blocks block (f.blocks block ++ code) }

/-- The first number of a new block. -/
def syntheticBlockIdBase : Block := 2 ^ 31

/-- What holds between two instructions: new block numbers are synthetic and unused. -/
structure Func.Ready (f : Func) : Prop where
  base : syntheticBlockIdBase ≤ f.nextBlockId
  unused : ∀ b : ℕ, f.nextBlockId ≤ b → f.blocks b = []

variable (selector : VReg)

variable (ty : SelectorTy)

/-- The selector, zero-extended if narrow. -/
def cleanSwitchSelector (block : Block) : Func × VReg :=
  let extended (op : ExtOp) : Func × VReg :=
    let dst : VReg := ⟨f.nextVreg, .gpr32⟩
    ({ f.push block [.data (.ext op dst (.vreg selector))] with nextVreg := f.nextVreg + 1 }, dst)
  match ty with
  | .i8 => extended .uxtb
  | .i16 => extended .uxth
  | .i32 | .i64 => (f, selector)

/-- Whether a case fits the immediate of a compare. -/
def fitsImm12 (caseVal : ℤ) : Bool := decide (0 ≤ caseVal ∧ caseVal ≤ 0xFFF)

/-- A compare with a constant: an immediate of twelve bits, or a register that the constant
is put into. -/
def compareCode (materialize : VReg → ℤ → List Inst) (selector : VReg) (caseVal : ℤ)
    (tmp : VReg) : List FlowInst :=
  if fitsImm12 caseVal then [.cmpRI selector caseVal.toNat]
  else (materialize tmp caseVal).map .data ++ [.cmpRR selector tmp]

/-- A compare, in a block. -/
def emitCompare (materialize : VReg → ℤ → List Inst) (f : Func) (block : Block) (selector : VReg)
    (caseVal : ℤ) (is32 : Bool) : Func :=
  let tmp : VReg := ⟨f.nextVreg, if is32 then .gpr32 else .gpr64⟩
  { f.push block (compareCode materialize selector caseVal tmp) with
    nextVreg := f.nextVreg + (!fitsImm12 caseVal).toNat }

/-- A constant, halfword by halfword. -/
def emitMovzMovkChain (dst : VReg) (val : ℕ) : List Inst := movzChain dst val 4

variable (is32 : Bool)

/-- The constant as the chain takes it: its low half for a 32-bit register. -/
def chainValue (v : ℤ) : ℕ := if is32 then asU64 v % 2 ^ 32 else asU64 v

/-- The compare of the selector with a case. -/
def emitCmp (block : Block) (selector : VReg) (caseVal : ℤ) (is32 : Bool) : Func :=
  emitCompare (fun dst v => emitMovzMovkChain dst (chainValue is32 v)) f block selector caseVal is32

/-- The chain of compares. -/
def emitChain (compare : Func → ℤ → Func) (block : Block) (default : Block) : Cases → Func → Func
  | [], f => f.push block [.b default]
  | (caseVal, target) :: cases, f =>
    emitChain compare block default cases ((compare f caseVal).push block [.bCond .eq target])

/-- Compares and branches, in order. -/
def emitLinearScanInto (cases : Cases) (default block : Block)
    (f : Func) (m : NormalizedMapping) : Func × NormalizedMapping :=
  (emitChain (fun f v => emitCmp f block selector v is32) block default cases f,
    (cases.foldl (fun m c => m.recordCase c.1 c.2) m).recordDefault default)

/-- More cases are halved first. -/
def linearScanMax : ℕ := 3

/-- Emission of a sorted list of cases into a block. -/
abbrev NodeEmitter := Cases → Block → Func → NormalizedMapping → Func × NormalizedMapping

/-- A subtree; without cases it jumps to the default. -/
def emitSubtree (node : NodeEmitter) (default : Block) : NodeEmitter := fun cases block f m =>
  if cases.isEmpty then (f.push block [.b default], m.recordDefault default)
  else node cases block f m

/-- The compare of an inner node with its pivot. -/
def emitPivot (pivotVal : ℤ) (pivotTarget block : Block) (f : Func) : Func :=
  (emitCmp { f with nextBlockId := f.nextBlockId + 2 } block selector pivotVal is32).push block
    [.bCond .eq pivotTarget, .bCond .lt f.nextBlockId, .b (f.nextBlockId + 1)]

/-- `emit_bst_node`.  The first argument bounds the depth; each level has fewer cases. -/
def emitBstNode (selector : VReg) (is32 : Bool) (default : Block) : ℕ → NodeEmitter
  | 0, cases, block, f, m => emitLinearScanInto selector is32 cases default block f m
  | depth + 1, cases, block, f, m =>
    if cases.length ≤ linearScanMax then
      emitLinearScanInto selector is32 cases default block f m
    else
      match cases.drop (cases.length / 2) with
      | [] => (f, m)
      | (pivotVal, pivotTarget) :: rightCases =>
        let subtree := emitSubtree (emitBstNode selector is32 default depth) default
        let left := subtree (cases.take (cases.length / 2)) f.nextBlockId
          (emitPivot selector is32 pivotVal pivotTarget block f)
          (m.recordCase pivotVal pivotTarget)
        subtree rightCases (f.nextBlockId + 1) left.1 left.2

/-- A check, reported under the name of the strategy. -/
def gate (strategy : Strategy) (check : Except Mismatch Unit) (f : Func) :
    Except SwitchError Func :=
  match check with
  | .ok () => .ok f
  | .error reason => .error (.mismatch strategy reason)

/-- Compares that halve the cases. -/
def emitBinarySearch (cases : Cases) (default entryBlock : Block) : Except SwitchError Func :=
  let sorted := cases.insertionSort fun a b => a.1 ≤ b.1
  let (f, mapping) := emitBstNode selector is32 default sorted.length sorted entryBlock f ⟨[], none⟩
  gate .binarySearch (do checkMappingPreserved (← sourceCaseMap [] cases) mapping) f

/-- The dense targets of a table. -/
def denseTargets (cases : Cases) (default : Block) (minVal : ℤ) (len : ℕ) : List Block :=
  (List.range len).map fun i : ℕ => (cases.lookup (minVal + i)).getD default

/-- Whether the least case has to be put into a register of its own. -/
def minNeedsTmp (minVal : ℤ) : Bool := !(minVal == 0 || decide (0 < minVal ∧ minVal ≤ 0xFFF))

/-- The subtraction of the least case. -/
def normalizeIndex (index selector tmp : VReg) (minVal : ℤ) : List Inst :=
  if minVal = 0 then [.movR index (.vreg selector)]
  else if 0 < minVal ∧ minVal ≤ 0xFFF then [.subRI index (.vreg selector) minVal.toNat]
  else emitMovzMovkChain tmp (asU64 minVal) ++ [.bin .subRR index (.vreg selector) (.vreg tmp)]

/-- The range check of the index. -/
def rangeCheck (index tmp : VReg) (range : ℤ) : List FlowInst :=
  compareCode (fun dst v => emitMovzMovkChain dst (asU64 v)) index range tmp

/-- The first register after the one for the extended selector. -/
def afterSext (v : ℕ) (is32 : Bool) : ℕ := v + 4 + is32.toNat

/-- The first register after the one for the least case. -/
def afterMin (v : ℕ) (is32 : Bool) (minVal : ℤ) : ℕ :=
  afterSext v is32 + (minNeedsTmp minVal).toNat

/-- The instructions of a table dispatch, with registers numbered from `v`. -/
def jumpTableCode (v : ℕ) (selector : VReg) (is32 : Bool) (minVal range : ℤ) (table : ℕ)
    (default : Block) : List FlowInst :=
  let index : VReg := ⟨v, .gpr64⟩
  let base : VReg := ⟨v + 1, .gpr64⟩
  let offset : VReg := ⟨v + 2, .gpr64⟩
  let target : VReg := ⟨v + 3, .gpr64⟩
  let sext : VReg := ⟨v + 4, .gpr64⟩
  let wide : VReg := if is32 then sext else selector
  (if is32 then [FlowInst.data (.ext .sxtw sext (.vreg selector))] else [])
    ++ (normalizeIndex index wide ⟨afterSext v is32, .gpr64⟩ minVal).map .data
    ++ rangeCheck index ⟨afterMin v is32 minVal, .gpr64⟩ range
    ++ [.bCond .hi default, .adr base table, .ldrswRO offset base index,
      .data (.bin .addRR target (.vreg base) (.vreg offset)), .br target]

/-- `emit_jump_table`.  A table of `2 ^ 61` or more targets of four bytes is beyond what a
vector can hold. -/
def emitJumpTable (cases : Cases) (default entryBlock : Block) : Except SwitchError Func :=
  match (cases.map Prod.fst).min?, (cases.map Prod.fst).max? with
  | some minVal, some maxVal =>
    let range := maxVal - minVal
    if 2 ^ 61 ≤ range + 1 then .error .capacityOverflow
    else
      let targets := denseTargets cases default minVal (range + 1).toNat
      gate .jumpTable (checkJumpTablePreserved cases default minVal targets)
        { f.push entryBlock
            (jumpTableCode f.nextVreg selector is32 minVal range f.jumpTables.length default) with
          nextVreg := afterMin f.nextVreg is32 minVal
            + (!fitsImm12 range).toNat
          jumpTables := f.jumpTables ++ [(minVal, targets)] }
  | _, _ => .error .capacityOverflow

/-- `choose_strategy`, over the test of the density. -/
def chooseStrategy (dense : Cases → Bool) (cases : Cases) : Strategy :=
  if cases.length ≤ linearScanMax then .linearScan
  else if dense cases then .jumpTable
  else .binarySearch

/-- Lowering by compares in order. -/
def selectSwitchCascade (cases : Cases) (default block : Block) : Except SwitchError Func :=
  let (f, selector) := cleanSwitchSelector f selector ty block
  gate .linearScan (checkCascadePreserved cases default)
    (emitChain (fun f v =>
        emitCompare (fun dst v => emitIconst dst ty.is32 v) f block selector v ty.is32)
      block default cases f)

/-- Lowering by halving. -/
def selectSwitchBinarySearch (cases : Cases) (default block : Block) : Except SwitchError Func :=
  match (cases.map Prod.snd ++ [default, block]).find? fun b => syntheticBlockIdBase ≤ b with
  | some b => .error (.blockIdInSyntheticRange b)
  | none =>
    let (f, selector) := cleanSwitchSelector f selector ty block
    emitBinarySearch f selector ty.is32 cases default block

/-- Lowering by a jump table. -/
def selectSwitchJumpTable (cases : Cases) (default block : Block) : Except SwitchError Func :=
  let (f, selector) := cleanSwitchSelector f selector ty block
  emitJumpTable f selector ty.is32 cases default block

/-- The lowering that fits the cases. -/
def selectSwitch (dense : Cases → Bool) (f : Func) (selector : VReg) (ty : SelectorTy)
    (cases : Cases) (default block : Block) : Except SwitchError Func :=
  match chooseStrategy dense cases with
  | .jumpTable => selectSwitchJumpTable f selector ty cases default block
  | .binarySearch => selectSwitchBinarySearch f selector ty cases default block
  | .linearScan => selectSwitchCascade f selector ty cases default block

end TrustCg.Lower.A64
