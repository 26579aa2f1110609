import Mathlib.Data.Finset.Sort
import TrustCg.Lib.Dominators
import TrustCg.Lib.Search

/-!
# The check of SSA form and of loops (`ssa_loop_complete.rs`)

`check_function` accepts a function before it is lowered.  It looks at the shape of the
blocks, asks that every use is dominated by its definition and that edges fit the
parameters of their targets, and looks for values that a loop drops at its back edge.

* `Inst` : the terminators, and one node for all other instructions that carries the
  value operands which `non_terminator_value_uses` lists for them.
* `blockSuccessors`, `terminatorEdges`, `nonTerminatorValueUses` : the three lists of
  cases over the terminators.
* `Dominators.compute`, `checkSsa`, `checkLoopCompleteness` : the checks.
* `checkFunction` : all of them; `none` is a loop that was cut off.

A map that is filled by insertion keeps the last entry of a key.  Blocks are numbered by
arbitrary `u32`s; the walk of the graph has no bound, and `idBound` lies above all of them.
-/

namespace TrustCg.Verify.SsaLoop

/-- A block's name. -/
abbrev BlockId := ℕ

/-- A value's name. -/
abbrev ValueId := ℕ

/-! ## Functions -/

/-- One case of a switch: where it goes and what it passes. -/
structure SwitchCase where
  target : BlockId
  args : List ValueId

/-- Instructions over types `τ`.  `op` stands for all that have no case of their own. -/
inductive Inst (τ : Type) where
  | op (operands : List ValueId) (resultTy : Option τ)
  | br (target : BlockId) (args : List ValueId)
  | condBr (cond : ValueId) (thenTarget : BlockId) (thenArgs : List ValueId)
      (elseTarget : BlockId) (elseArgs : List ValueId)
  | switch (value : ValueId) (default : BlockId) (defaultArgs : List ValueId)
      (cases : List SwitchCase)
  | ret (values : List ValueId)
  | unreachable
  | coroSuspend (frame value : ValueId)
  | invoke (args : List ValueId) (normalDest : BlockId) (normalArgs : List ValueId)
      (unwindDest : BlockId)
  | resume (exn : ValueId)

/-- An instruction with the values it defines. -/
structure InstrNode (τ : Type) where
  inst : Inst τ
  results : List ValueId

/-- A block: its parameters with their types, and its instructions. -/
structure Block (τ : Type) where
  id : BlockId
  params : List (ValueId × τ)
  body : List (InstrNode τ)

/-- A function; the parameters of the entry block are its arguments. -/
structure Function (τ : Type) where
  entry : BlockId
  blocks : List (Block τ)

variable {τ : Type}

-- `is_terminator` comes with the instructions, from another crate
variable (isTerminator : Inst τ → Bool) (f : Function τ)

/-- `function_block`: the first block of that name. -/
def Function.block (id : BlockId) : Option (Block τ) :=
  f.blocks.find? fun b => b.id = id

variable (b : Block τ)

/-- The targets of the terminator. -/
def blockSuccessors : List BlockId :=
  match b.body.getLast? with
  | none => []
  | some last =>
    match last.inst with
    | .br target _ => [target]
    | .condBr _ thenTarget _ elseTarget _ => [thenTarget, elseTarget]
    | .switch _ default _ cases => default :: cases.map SwitchCase.target
    | _ => []

/-- `terminator_edges`: targets with the arguments passed to them. -/
def terminatorEdges : List (BlockId × List ValueId) :=
  match b.body.getLast? with
  | none => []
  | some last =>
    match last.inst with
    | .br target args => [(target, args)]
    | .condBr _ thenTarget thenArgs elseTarget elseArgs =>
      [(thenTarget, thenArgs), (elseTarget, elseArgs)]
    | .switch _ default defaultArgs cases =>
      (default, defaultArgs) :: cases.map fun c => (c.target, c.args)
    | .invoke _ normalDest normalArgs unwindDest => [(normalDest, normalArgs), (unwindDest, [])]
    | _ => []

/-- `non_terminator_value_uses`: the operands that are no edge arguments. -/
def nonTerminatorValueUses : Inst τ → List ValueId
  | .op operands _ => operands
  | .condBr cond _ _ _ _ => [cond]
  | .switch value _ _ _ => [value]
  | .ret values => values
  | .coroSuspend frame value => [frame, value]
  | .invoke args _ _ _ => args
  | .resume exn => [exn]
  | .br _ _ | .unreachable => []

/-! ## Violations -/

/-- A violation, with the data of its message. -/
inductive SsaViolation (τ : Type) where
  | undefinedValue (value : ValueId) (block : BlockId) (detail : String)
  | useNotDominatedByDef (value : ValueId) (useBlock defBlock : BlockId) (detail : String)
  | edgeArgArityMismatch (source target : BlockId) (passed expected : ℕ)
  | edgeArgTypeMismatch (source target : BlockId) (paramIndex : ℕ) (arg : ValueId)
      (expected found : τ)
  | edgeTargetMissing (source target : BlockId)
  | loopCarriedValueNotThreaded (value : ValueId) (defBlock header latch : BlockId)
  | loopCarriedSlotMisthreaded (header latch : BlockId) (slot : ℕ) (param arg : ValueId)
  | malformedBlock (block : BlockId) (detail : String)

/-- `violation_sort_key`. -/
def SsaViolation.sortKey : SsaViolation τ → ℕ × ℕ × ℕ
  | .malformedBlock block _ => (0, block, 0)
  | .edgeTargetMissing source target => (1, source, target)
  | .edgeArgArityMismatch source target _ _ => (2, source, target)
  | .edgeArgTypeMismatch source target _ _ _ _ => (3, source, target)
  | .undefinedValue value block _ => (4, block, value)
  | .useNotDominatedByDef value useBlock _ _ => (5, useBlock, value)
  | .loopCarriedValueNotThreaded value _ header _ => (6, header, value)
  | .loopCarriedSlotMisthreaded header _ _ param _ => (7, header, param)

/-- Lexicographic order of keys. -/
def keyLe (a b : ℕ × ℕ × ℕ) : Bool :=
  a.1 < b.1 || (a.1 == b.1 && (a.2.1 < b.2.1 || (a.2.1 == b.2.1 && a.2.2 ≤ b.2.2)))

/-- `finish`: accepted when nothing was found, otherwise the sorted violations. -/
def finish (violations : List (SsaViolation τ)) : Except (List (SsaViolation τ)) Unit :=
  if violations.isEmpty then .ok ()
  else .error (violations.insertionSort fun a b => keyLe a.sortKey b.sortKey)

/-! ## Block structure -/

/-- What is wrong with the last instruction of a block. -/
def lastViolation : List (SsaViolation τ) :=
  match b.body.getLast? with
  | none => [.malformedBlock b.id "block has no terminator"]
  | some last =>
    if isTerminator last.inst then []
    else [.malformedBlock b.id "block does not end in a terminator"]

/-- `check_block_structure`: the violations; the blocks are well formed if there are none. -/
def checkBlockStructure : List (SsaViolation τ) :=
  f.blocks.flatMap fun b => lastViolation isTerminator b ++
      if b.body.dropLast.any fun node => isTerminator node.inst then
        [.malformedBlock b.id "terminator before end of block"]
      else []

/-! ## Definitions -/

/-- Where a value is defined; a parameter has no instruction. -/
structure DefSite where
  block : BlockId
  instIndex : Option ℕ
deriving DecidableEq

/-- The definitions of one block, in the order they are collected. -/
def blockDefs : List (ValueId × DefSite) :=
  b.params.map (fun p => (p.1, ⟨b.id, none⟩)) ++
    b.body.zipIdx.flatMap fun node => node.1.results.map fun r => (r, ⟨b.id, some node.2⟩)

/-- `collect_defs`: every definition, in the order of insertion. -/
def collectDefs : List (ValueId × DefSite) := f.blocks.flatMap blockDefs

/-- The entry of a key in a map filled by insertion. -/
def lastEntry {κ α : Type} [DecidableEq κ] (entries : List (κ × α)) (k : κ) : Option α :=
  entries.reverse.lookup k

/-! ## The graph -/

/-- `Cfg`: the lists of successors and predecessors. -/
structure Cfg where
  entry : BlockId
  blocks : List BlockId
  succ : BlockId → List BlockId
  pred : BlockId → List BlockId

/-- `Cfg::new`. -/
def Cfg.ofFunction : Cfg where
  entry := f.entry
  blocks := f.blocks.map Block.id
  succ b := (f.blocks.filter fun block => block.id = b).flatMap blockSuccessors
  pred b := f.blocks.flatMap fun block =>
    ((blockSuccessors block).filter fun s => s = b).map fun _ => block.id

/-- A number above all block names of the graph. -/
def Cfg.idBound (cfg : Cfg) : ℕ :=
  (cfg.entry :: cfg.blocks.flatMap fun b => b :: cfg.succ b).foldr max 0 + 1

/-- `reverse_postorder`: the blocks reachable from the entry. -/
def Cfg.reversePostorder (fuel : ℕ) (cfg : Cfg) : Option (List BlockId) :=
  (Loop.run (Search.orderStep cfg.idBound cfg.succ) fuel (Search.orderStart cfg.entry)).map
    fun t => t.postorder.reverse

/-- The immediate dominators found so far. -/
abbrev Idom := BlockId → Option BlockId

/-- The running meet of the predecessors that are already in the table. -/
def meetPred (fuel : ℕ) (idom : Idom) (num : BlockId → ℕ) (cur : Option BlockId) (p : BlockId) :
    Option (Option BlockId) :=
  if (idom p).isSome then
    match cur with
    | none => some (some p)
    | some c => (Dominators.intersect fuel idom num c p).map some
  else some cur

/-- Recomputes one block; the flag is `changed`. -/
def relaxBlock (fuel : ℕ) (cfg : Cfg) (num : BlockId → ℕ) (st : Idom × Bool) (b : BlockId) :
    Option (Idom × Bool) := do
  let newIdom ← (cfg.pred b).foldlM (meetPred fuel st.1 num) none
  match newIdom with
  | some w => some (if st.1 b = some w then st else (Function.update st.1 b (some w), true))
  | none => some st

/-- The passes over the blocks behind the entry, until one changes nothing. -/
def idomPasses (cfg : Cfg) (num : BlockId → ℕ) (order : List BlockId) : ℕ → Idom → Option Idom
  | 0, _ => none
  | fuel + 1, idom => do
    let st ← order.foldlM (relaxBlock fuel cfg num) (idom, false)
    if st.2 then idomPasses cfg num order fuel st.1 else some st.1

/-- The table, iterated to its end. -/
def Dominators.compute (fuel : ℕ) (cfg : Cfg) : Option Idom := do
  let rpo ← cfg.reversePostorder fuel
  idomPasses cfg (fun b => rpo.idxOf b) (rpo.drop 1) fuel
    (Function.update (fun _ => none) cfg.entry (some cfg.entry))

/-- One turn of the climb in `dominates`: the answer, or the next block. -/
def climbStep (idom : Idom) (a : BlockId) (st : BlockId × Option Bool) :
    Option (BlockId × Option Bool) :=
  match st.2 with
  | some _ => none
  | none =>
    let next := (idom st.1).getD st.1
    if next = st.1 then some (st.1, some false)
    else if next = a then some (st.1, some true)
    else some (next, none)

/-- Dominance, by climbing the table. -/
def Idom.dominates (fuel : ℕ) (idom : Idom) (a b : BlockId) : Option Bool :=
  if a = b then some true
  else if (idom b).isNone then some false
  else (Loop.run (climbStep idom a) fuel (b, none)).map fun st => st.2.getD false

/-! ## Uses and edges -/

/-- Where a use stands: at an instruction, or at the end of the block. -/
abbrev UseIndex := Option ℕ

/-- A definition in the block of the use comes before it. -/
def definedBefore (defIndex : Option ℕ) (useIndex : UseIndex) : Bool :=
  match defIndex, useIndex with
  | none, _ => true
  | some d, some u => d < u
  | some _, none => true

/-- The use is dominated by its definition. -/
def checkOneUse (fuel : ℕ) (f : Function τ) (idom : Idom) (used : ValueId) (useBlock : BlockId)
    (useIndex : UseIndex) (context : String) : Option (List (SsaViolation τ)) :=
  let blockParams := lastEntry (f.blocks.map fun b => (b.id, b.params.map Prod.fst)) useBlock
  if (blockParams.getD []).contains used then some []
  else
    match lastEntry (collectDefs f) used with
    | none => some [.undefinedValue used useBlock context]
    | some site =>
      if (idom useBlock).isNone then some []
      else do
        let dominates ←
          if site.block = useBlock then some (definedBefore site.instIndex useIndex)
          else Idom.dominates fuel idom site.block useBlock
        some (if dominates then []
          else [.useNotDominatedByDef used useBlock site.block context])

/-- The checks of one edge other than its arguments' dominance. -/
def checkEdge [DecidableEq τ] (f : Function τ) (source : BlockId)
    (edge : BlockId × List ValueId) (target : Block τ) : List (SsaViolation τ) :=
  if target.params.length ≠ edge.2.length then
    [.edgeArgArityMismatch source edge.1 edge.2.length target.params.length]
  else
    (edge.2.zip target.params).zipIdx.flatMap fun arg =>
      match lastEntry (f.blocks.flatMap Block.params) arg.1.1 with
      | some found =>
        if found ≠ arg.1.2.2 then
          [.edgeArgTypeMismatch source edge.1 arg.2 arg.1.1 arg.1.2.2 found]
        else []
      | none => []

/-- One edge with its arguments; a missing target ends its checks. -/
def checkEdgeUses [DecidableEq τ] (fuel : ℕ) (f : Function τ) (idom : Idom) (b : Block τ)
    (edge : BlockId × List ValueId) : Option (List (SsaViolation τ)) :=
  match f.block edge.1 with
  | none => some [.edgeTargetMissing b.id edge.1]
  | some target => do
    let uses ← edge.2.mapM fun arg => checkOneUse fuel f idom arg b.id none "branch argument"
    some (checkEdge f b.id edge target ++ uses.flatten)

/-- The uses of one instruction. -/
def checkNodeUses (fuel : ℕ) (f : Function τ) (idom : Idom) (b : Block τ)
    (node : InstrNode τ × ℕ) : Option (List (SsaViolation τ)) := do
  let found ← (nonTerminatorValueUses node.1.inst).mapM fun used =>
    checkOneUse fuel f idom used b.id (some node.2) "instruction operand"
  some found.flatten

/-- One block of `check_ssa`. -/
def checkBlock [DecidableEq τ] (fuel : ℕ) (f : Function τ) (idom : Idom) (b : Block τ) :
    Option (List (SsaViolation τ)) := do
  let uses ← b.body.zipIdx.mapM (checkNodeUses fuel f idom b)
  let edges ← (terminatorEdges b).mapM (checkEdgeUses fuel f idom b)
  some (uses.flatten ++ edges.flatten)

/-- The violations of all uses and edges. -/
def checkSsa [DecidableEq τ] (fuel : ℕ) (f : Function τ) (idom : Idom) :
    Option (List (SsaViolation τ)) := do
  let found ← f.blocks.mapM (checkBlock fuel f idom)
  some found.flatten

/-! ## Loops -/

/-- Every value that is read. -/
def collectAllUses : List ValueId :=
  f.blocks.flatMap fun b => b.body.flatMap (fun node => nonTerminatorValueUses node.inst) ++
      (terminatorEdges b).flatMap Prod.snd

/-- The type of a single result. -/
def singleResultTy : Inst τ → Option τ
  | .op _ ty => ty
  | _ => none

/-- `collect_value_types`, in the order of insertion. -/
def collectValueTypes : List (ValueId × τ) :=
  f.blocks.flatMap fun b => b.params ++ b.body.filterMap fun node =>
      match singleResultTy node.inst, node.results.head? with
      | some ty, some r => some (r, ty)
      | _, _ => none

/-- The values a block reads before it defines them, and the values it defines. -/
def blockUseDef : Finset ValueId × Finset ValueId :=
  let params := (b.params.map Prod.fst).toFinset
  let scan := b.body.foldl (fun (acc : Finset ValueId × Finset ValueId) node =>
    (acc.1 ∪ ((nonTerminatorValueUses node.inst).filter fun u => u ∉ acc.2).toFinset,
      acc.2 ∪ node.results.toFinset)) (∅, params)
  (scan.1 ∪ (((terminatorEdges b).flatMap Prod.snd).filter fun a => a ∉ scan.2).toFinset, scan.2)

/-- The state of the liveness iteration. -/
structure Liveness where
  liveIn : BlockId → Finset ValueId
  liveOut : BlockId → Finset ValueId
  worklist : List BlockId
  inWorklist : List BlockId

/-- Puts a predecessor back on the worklist. -/
def Liveness.enqueue (st : Liveness) (p : BlockId) : Liveness :=
  if p ∈ st.inWorklist then st
  else { st with worklist := st.worklist ++ [p], inWorklist := p :: st.inWorklist }

/-- One turn of the liveness iteration. -/
def Liveness.step (cfg : Cfg) (st : Liveness) : Option Liveness :=
  match st.worklist with
  | [] => none
  | b :: rest =>
    let useDef := (lastEntry (f.blocks.map fun b => (b.id, blockUseDef b)) b).getD (∅, ∅)
    let newOut := (cfg.succ b).foldl (fun acc s => acc ∪ st.liveIn s) ∅
    let newIn := useDef.1 ∪ (newOut \ useDef.2)
    let next : Liveness :=
      ⟨Function.update st.liveIn b newIn, Function.update st.liveOut b newOut, rest,
        st.inWorklist.filter fun c => c ≠ b⟩
    some (if st.liveIn b = newIn then next else (cfg.pred b).foldl Liveness.enqueue next)

/-- The sets, iterated to their end. -/
def Liveness.compute (fuel : ℕ) (f : Function τ) (cfg : Cfg) : Option Liveness :=
  Loop.run (Liveness.step f cfg) fuel ⟨fun _ => ∅, fun _ => ∅, cfg.blocks.reverse, cfg.blocks⟩

/-- One turn of `natural_loop_blocks`. -/
def naturalLoopStep (cfg : Cfg) (st : List BlockId × List BlockId) :
    Option (List BlockId × List BlockId) :=
  match st.2 with
  | [] => none
  | b :: rest => some (if b ∈ st.1 then (st.1, rest) else (b :: st.1, (cfg.pred b).reverse ++ rest))

/-- What reaches the latch. -/
def naturalLoopBlocks (fuel : ℕ) (cfg : Cfg) (header latch : BlockId) : Option (List BlockId) :=
  (Loop.run (naturalLoopStep cfg) fuel ([header], [latch])).map Prod.fst

/-- Edges to a dominator. -/
def backEdges (fuel : ℕ) (cfg : Cfg) (idom : Idom) : Option (List (BlockId × BlockId)) := do
  let found ← cfg.blocks.mapM fun b =>
    if (idom b).isNone then some []
    else do
      let edges ← (cfg.succ b).mapM fun s => do
        let dominates ← Idom.dominates fuel idom s b
        some (if dominates then [(b, s)] else [])
      some edges.flatten
  some (found.flatten.insertionSort fun a b => keyLe (0, a.1, a.2) (0, b.1, b.2))

/-- One pass of `in_loop_derivations`: the values reached, and whether there are new ones. -/
def derivationPass (loopBlocks : List BlockId) (reached : List ValueId) : List ValueId :=
  loopBlocks.foldl (fun reached id =>
    match f.block id with
    | none => reached
    | some b => b.body.foldl (fun reached node =>
      if isTerminator node.inst || node.results.isEmpty then reached
      else if (nonTerminatorValueUses node.inst).any fun u => reached.contains u then
        node.results.foldl (fun reached r => if r ∈ reached then reached else r :: reached)
          reached
      else reached) reached) reached

/-- `in_loop_derivations`; the seed is left out of the result. -/
def inLoopDerivations (fuel : ℕ) (f : Function τ) (loopBlocks : List BlockId) (seed : ValueId) :
    Option (List ValueId) :=
  (Loop.run (fun reached =>
    let next := derivationPass isTerminator f loopBlocks reached
    if next.length = reached.length then none else some next) fuel [seed]).map
      fun reached => reached.filter fun v => v ≠ seed

/-- `edge_args`: what a block passes to a target, all its edges together. -/
def edgeArgs (source target : BlockId) : List ValueId :=
  match f.block source with
  | none => []
  | some b => ((terminatorEdges b).filter fun e => e.1 = target).flatMap Prod.snd

/-- What is fixed for one back edge. -/
structure LoopEdge where
  header : BlockId
  latch : BlockId
  loopBlocks : List BlockId
  backArgs : List ValueId
  headerParams : List ValueId

/-- Check (1): a value of the loop that the header needs is passed on the back edge. -/
def checkThreaded (e : LoopEdge) (liveIntoHeader : Finset ValueId) : List (SsaViolation τ) :=
  (liveIntoHeader.sort (· ≤ ·)).filterMap fun value =>
    match lastEntry (collectDefs f) value with
    | none => none
    | some site =>
      if site.block ∈ e.loopBlocks ∧ site.block ≠ e.header ∧ value ∉ e.backArgs then
        some (.loopCarriedValueNotThreaded value site.block e.header e.latch)
      else none

/-- An argument is the parameter of a slot or derived from it. -/
def belongsTo (derivations : List (ValueId × List ValueId)) (arg : ValueId) (slot : ℕ) : Bool :=
  match derivations[slot]? with
  | some d => arg == d.1 || d.2.contains arg
  | none => false

/-- Check (2): no slot is passed what belongs to another one. -/
def checkSlots (e : LoopEdge) (derivations : List (ValueId × List ValueId)) :
    List (SsaViolation τ) :=
  e.headerParams.zipIdx.filterMap fun param =>
    match e.backArgs[param.2]? with
    | none => none
    | some arg =>
      if belongsTo derivations arg param.2 then none
      else if (List.range derivations.length).any fun j =>
          j ≠ param.2 && belongsTo derivations arg j then
        some (.loopCarriedSlotMisthreaded e.header e.latch param.2 param.1 arg)
      else none

/-- A value goes around the loop unchanged. -/
def carriedUnchanged (e : LoopEdge) (liveAcross : Finset ValueId) (used : ValueId) : Bool :=
  match e.headerParams.findIdx? fun p => p == used with
  | some slot => e.backArgs[slot]? == some used
  | none =>
    (match lastEntry (collectDefs f) used with
      | some site => !e.loopBlocks.contains site.block
      | none => false) &&
    decide (used ∈ liveAcross) && !e.backArgs.contains used

/-- Check (3) at one instruction: a dead update of a value that is carried unchanged. -/
def checkDropped [DecidableEq τ] (f : Function τ) (e : LoopEdge) (liveAcross : Finset ValueId)
    (block : BlockId) (node : InstrNode τ) : List (SsaViolation τ) :=
  match node.results with
  | [] => []
  | dead :: _ =>
    if node.results.any fun r => (collectAllUses f).contains r then []
    else
      match lastEntry (collectValueTypes f) dead with
      | none => []
      | some ty =>
        if (nonTerminatorValueUses node.inst).any fun used =>
            lastEntry (collectValueTypes f) used = some ty &&
              carriedUnchanged f e liveAcross used then
          [.loopCarriedValueNotThreaded dead block e.header e.latch]
        else []

/-- The three checks of one back edge. -/
def checkBackEdge [DecidableEq τ] (fuel : ℕ) (f : Function τ) (cfg : Cfg) (live : Liveness)
    (back : BlockId × BlockId) : Option (List (SsaViolation τ)) := do
  let loopBlocks ← naturalLoopBlocks fuel cfg back.2 back.1
  let e : LoopEdge := ⟨back.2, back.1, loopBlocks, edgeArgs f back.1 back.2,
      ((f.block back.2).map fun b => b.params.map Prod.fst).getD []⟩
  let derivations ← e.headerParams.mapM fun p => do
    let derived ← inLoopDerivations isTerminator fuel f loopBlocks p
    some (p, derived)
  let dropped := loopBlocks.flatMap fun id =>
    match f.block id with
    | none => []
    | some b => b.body.flatMap (checkDropped f e (live.liveOut e.latch) id)
  some (checkThreaded f e (live.liveIn e.header) ++ checkSlots e derivations ++ dropped)

/-- `check_loop_completeness`: the violations at all back edges. -/
def checkLoopCompleteness [DecidableEq τ] (fuel : ℕ) (f : Function τ) (cfg : Cfg) (idom : Idom) :
    Option (List (SsaViolation τ)) := do
  let live ← Liveness.compute fuel f cfg
  let back ← backEdges fuel cfg idom
  let found ← back.mapM (checkBackEdge isTerminator fuel f cfg live)
  some found.flatten

/-! ## The whole check -/

/-- `check_function`: the other checks are made if the blocks are well formed. -/
def checkFunction [DecidableEq τ] (fuel : ℕ) (f : Function τ) :
    Option (Except (List (SsaViolation τ)) Unit) :=
  let malformed := checkBlockStructure isTerminator f
  if malformed.isEmpty then do
    let cfg := Cfg.ofFunction f
    let idom ← Dominators.compute fuel cfg
    let ssa ← checkSsa fuel f idom
    let loops ← checkLoopCompleteness isTerminator fuel f cfg idom
    some (finish (ssa ++ loops))
  else some (finish malformed)

end TrustCg.Verify.SsaLoop
