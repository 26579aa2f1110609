import TrustCg.Lib.Tape
import TrustCg.Verify.Smt

/-!
# Compiled evaluators of SMT expressions (`smt.rs`)

Sampling an obligation evaluates the same expression at many points, so it is compiled
first.  Both compiled forms read a variable from its slot among the declared inputs.

* `CExpr` : a tree for the nodes of at most 64 bits.
* `FlatProg` : a tape of operations whose operands are slots of earlier ones.  Equal
  operations share a slot.  A read from a chain of stores becomes a comparison of indices
  and a choice for each store.

An access of a slot that does not exist panics; the evaluators are then `none`.
-/

namespace TrustCg.Verify

/-- The declared inputs of an obligation: name and width. -/
abbrev Inputs := List (String × ℕ)

/-- The slot of a variable. -/
def Inputs.position (inputs : Inputs) (name : String) : Option ℕ :=
  inputs.findIdx? fun input => input.1 == name

/-- `EvalEnv`: names with their values, in the order of insertion. -/
structure EvalEnv where
  vars : List (String × BitVec 64)

namespace EvalEnv

/-- Replaces the value of a name, or adds it behind the others. -/
def insertVar (key : String) (val : BitVec 64) :
    List (String × BitVec 64) → List (String × BitVec 64)
  | [] => [(key, val)]
  | (name, v) :: rest =>
    if name = key then (name, val) :: rest else (name, v) :: insertVar key val rest

/-- Binds a name. -/
def insert (env : EvalEnv) (key : String) (val : BitVec 64) : EvalEnv :=
  ⟨insertVar key val env.vars⟩

/-- `get`: the value of a name. -/
def get (env : EvalEnv) (key : String) : Option (BitVec 64) :=
  (env.vars.find? fun binding => binding.1 == key).map Prod.snd

/-- `value_at`: the value in a slot. -/
def valueAt (env : EvalEnv) (slot : ℕ) : Option (BitVec 64) := env.vars[slot]?.map Prod.snd

/-- The environment that binds the declared inputs, in their order. -/
def ofInputs (inputs : Inputs) (σ : String → BitVec 64) : EvalEnv :=
  inputs.foldl (fun env input => env.insert input.1 (σ input.1)) ⟨[]⟩

end EvalEnv

/-! ## The tree -/

/-- Compiled expressions of at most 64 bits. -/
inductive CExpr where
  | const (v : BitVec 64)
  | boolConst (b : Bool)
  | var (slot width : ℕ)
  | bin (op : BvBinOp) (a b : CExpr) (w : ℕ)
  | neg (a : CExpr) (w : ℕ)
  | eq (a b : CExpr)
  | logicalNot (a : CExpr)
  | cmp (op : BvCmpOp) (a b : CExpr) (w : ℕ)
  | logicalAnd (a b : CExpr)
  | logicalOr (a b : CExpr)
  | ite (cond thenE elseE : CExpr)
  | extract (operand : CExpr) (low width : ℕ)
  | concat (hi lo : CExpr) (loWidth width : ℕ)
  | zExt (operand : CExpr) (width : ℕ)
  | sExt (operand : CExpr) (srcWidth width : ℕ)

/-- The comparisons that ask for a width of at most 64; the unsigned ones are compiled at
every width. -/
def BvCmpOp.checksWidth : BvCmpOp → Bool
  | .slt | .sge | .sgt | .sle => true
  | .uge | .ult | .ugt | .ule => false

namespace CExpr

/-- `CExpr::compile`; `none` sends the caller back to `try_eval`. -/
def compile (inputs : Inputs) : SmtExpr → Option CExpr
  | .var name w =>
    if w ≤ 64 then do
      let slot ← inputs.position name
      some (.var slot w)
    else none
  | .bvConst value w => if w ≤ 64 then some (.const (mask value w)) else none
  | .boolConst b => some (.boolConst b)
  | .bvBin op lhs rhs w =>
    if op.isDivision = false ∧ w ≤ 64 then do
      let a ← compile inputs lhs
      let b ← compile inputs rhs
      some (.bin op a b w)
    else none
  | .bvNeg operand w =>
    if w ≤ 64 then do
      let a ← compile inputs operand
      some (.neg a w)
    else none
  | .eq lhs rhs => do
    let a ← compile inputs lhs
    let b ← compile inputs rhs
    some (.eq a b)
  | .not operand => do
    let a ← compile inputs operand
    some (.logicalNot a)
  | .bvCmp op lhs rhs w =>
    if op.checksWidth ∧ 64 < w then none
    else do
      let a ← compile inputs lhs
      let b ← compile inputs rhs
      some (.cmp op a b w)
  | .and lhs rhs => do
    let a ← compile inputs lhs
    let b ← compile inputs rhs
    some (.logicalAnd a b)
  | .or lhs rhs => do
    let a ← compile inputs lhs
    let b ← compile inputs rhs
    some (.logicalOr a b)
  | .ite cond thenExpr elseExpr => do
    let c ← compile inputs cond
    let t ← compile inputs thenExpr
    let e ← compile inputs elseExpr
    some (.ite c t e)
  | .extract _ low operand w =>
    if w ≤ 64 then do
      let a ← compile inputs operand
      some (.extract a low w)
    else none
  | .concat hi lo w =>
    if w ≤ 64 then do
      let h ← compile inputs hi
      let l ← compile inputs lo
      let loWidth ← lo.bvWidth
      some (.concat h l loWidth w)
    else none
  | .zeroExtend operand _ w =>
    if w ≤ 64 then do
      let a ← compile inputs operand
      some (.zExt a w)
    else none
  | .signExtend operand extraBits w =>
    if w ≤ 64 then do
      let a ← compile inputs operand
      some (.sExt a (subU32 w extraBits) w)
    else none
  | .trapIfZero _ _ _ | .select _ _ | .store _ _ _ | .constArray _ _ | .memLoad _ _ _ _
  | .foreign _ => none

/-- The value of a compiled tree. -/
def eval (env : EvalEnv) : CExpr → Option EvalResult
  | .const v => some (.bv v)
  | .boolConst b => some (.bool b)
  | .var slot w => do
    let v ← env.valueAt slot
    some (.bv (mask v w))
  | .bin op a b w => do
    let x ← a.eval env
    let y ← b.eval env
    some (.bv (op.word x.asU64 y.asU64 w))
  | .neg a w => do
    let x ← a.eval env
    some (.bv (negWord x.asU64 w))
  | .eq a b => do
    let x ← a.eval env
    let y ← b.eval env
    some (.bool (x.beq y))
  | .logicalNot a => do
    let x ← a.eval env
    some (.bool (!x.asBool))
  | .cmp op a b w => do
    let x ← a.eval env
    let y ← b.eval env
    some (.bool (op.word x.asU64 y.asU64 w))
  | .logicalAnd a b => do
    let x ← a.eval env
    if x.asBool then
      let y ← b.eval env
      some (.bool y.asBool)
    else some (.bool false)
  | .logicalOr a b => do
    let x ← a.eval env
    if x.asBool then some (.bool true)
    else
      let y ← b.eval env
      some (.bool y.asBool)
  | .ite cond thenE elseE => do
    let c ← cond.eval env
    if c.asBool then thenE.eval env else elseE.eval env
  | .extract operand low w => do
    let v ← operand.eval env
    some (.bv (extractWord (v.asU64.setWidth 128) low w))
  | .concat hi lo loWidth w => do
    let h ← hi.eval env
    let l ← lo.eval env
    some (.bv ((concatWord (h.asU64.setWidth 128) (l.asU64.setWidth 128) loWidth w).setWidth 64))
  | .zExt operand w => do
    let v ← operand.eval env
    some (.bv (mask v.asU64 w))
  | .sExt operand srcWidth w => do
    let v ← operand.eval env
    some (.bv (mask (signExtend v.asU64 srcWidth) w))

end CExpr

/-! ## The tape -/

/-- Values on the tape. -/
inductive SVal where
  | bv (v : BitVec 64)
  | bv128 (v : BitVec 128)
  | bool (b : Bool)
  | poison
deriving DecidableEq

namespace SVal

/-- `to_eval`: the value as a result of the interpreter. -/
def toEval : SVal → EvalResult
  | .bv v => .bv v
  | .bv128 v => .bv128 v
  | .bool b => .bool b
  | .poison => .poison

/-- The low 64 bits. -/
def asU64 : SVal → BitVec 64
  | .bv v => v
  | .bv128 v => v.setWidth 64
  | .bool b => BitVec.ofNat 64 b.toNat
  | .poison => BitVec.allOnes 64

/-- The value as 128 bits. -/
def asU128 : SVal → BitVec 128
  | .bv v => v.setWidth 128
  | .bv128 v => v
  | .bool b => BitVec.ofNat 128 b.toNat
  | .poison => BitVec.allOnes 128

/-- The value as a truth value. -/
def asBool : SVal → Bool
  | .bool b => b
  | .bv v => v != 0
  | .bv128 v => v != 0
  | .poison => false

end SVal

/-- Operations of the tape; operands are slots. -/
inductive FlatOp where
  | const (v : BitVec 64)
  | const128 (v : BitVec 128)
  | boolConst (b : Bool)
  | var (slot w : ℕ)
  | bin (op : BvBinOp) (a b w : ℕ)
  | neg (a w : ℕ)
  | trap (guard value : ℕ)
  | eq (a b : ℕ)
  | not (a : ℕ)
  | cmp (op : BvCmpOp) (a b w : ℕ)
  | bAnd (a b : ℕ)
  | bOr (a b : ℕ)
  | ite (c t e : ℕ)
  | extract (operand low width : ℕ)
  | concat (hi lo loWidth width : ℕ)
  | zExt (operand width : ℕ)
  | sExt (operand srcWidth width : ℕ)
  | memLoad (address loadBits : ℕ) (signed : Bool) (resultWidth : ℕ)
deriving DecidableEq

/-- A compiled tape. -/
structure FlatProg where
  ops : List FlatOp
  root : ℕ

namespace FlatProg

mutual

/-- `go`: compiles an expression behind the tape, operands first. -/
def go (inputs : Inputs) : SmtExpr → Tape FlatOp → Option (ℕ × Tape FlatOp)
  | .var name w, t => do
    let slot ← inputs.position name
    some (t.push (.var slot w))
  | .bvConst value w, t =>
    some (t.push (if 64 < w then .const128 (value.setWidth 128) else .const (mask value w)))
  | .boolConst b, t => some (t.push (.boolConst b))
  | .bvBin op lhs rhs w, t =>
    if op = .urem ∧ 64 < w then none
    else do
      let (a, t) ← go inputs lhs t
      let (b, t) ← go inputs rhs t
      some (t.push (.bin op a b w))
  | .trapIfZero guard value _, t => do
    let (g, t) ← go inputs guard t
    let (v, t) ← go inputs value t
    some (t.push (.trap g v))
  | .bvNeg operand w, t => do
    let (o, t) ← go inputs operand t
    some (t.push (.neg o w))
  | .eq lhs rhs, t => do
    let (a, t) ← go inputs lhs t
    let (b, t) ← go inputs rhs t
    some (t.push (.eq a b))
  | .not operand, t => do
    let (o, t) ← go inputs operand t
    some (t.push (.not o))
  | .bvCmp op lhs rhs w, t => do
    let (a, t) ← go inputs lhs t
    let (b, t) ← go inputs rhs t
    some (t.push (.cmp op a b w))
  | .and lhs rhs, t => do
    let (a, t) ← go inputs lhs t
    let (b, t) ← go inputs rhs t
    some (t.push (.bAnd a b))
  | .or lhs rhs, t => do
    let (a, t) ← go inputs lhs t
    let (b, t) ← go inputs rhs t
    some (t.push (.bOr a b))
  | .ite cond thenExpr elseExpr, t => do
    let (c, t) ← go inputs cond t
    let (th, t) ← go inputs thenExpr t
    let (el, t) ← go inputs elseExpr t
    some (t.push (.ite c th el))
  | .extract _ low operand w, t => do
    let (o, t) ← go inputs operand t
    some (t.push (.extract o low w))
  | .concat hi lo w, t => do
    let loWidth ← lo.bvWidth
    let (h, t) ← go inputs hi t
    let (l, t) ← go inputs lo t
    some (t.push (.concat h l loWidth w))
  | .zeroExtend operand _ w, t => do
    let (o, t) ← go inputs operand t
    some (t.push (.zExt o w))
  | .signExtend operand extraBits w, t => do
    let (o, t) ← go inputs operand t
    some (t.push (.sExt o (subU32 w extraBits) w))
  | .select array index, t => do
    let indexWidth ← index.bvWidth
    if 64 < indexWidth then none
    else
      let (i, t) ← go inputs index t
      goSelect inputs array i t
  | .memLoad addr loadBits signed resultWidth, t => do
    let (a, t) ← go inputs addr t
    some (t.push (.memLoad a loadBits signed resultWidth))
  | .store _ _ _, _ | .constArray _ _, _ | .foreign _, _ => none

/-- `go_select`: compiles a read of an array at the index in a slot. -/
def goSelect (inputs : Inputs) : SmtExpr → ℕ → Tape FlatOp → Option (ℕ × Tape FlatOp)
  | .constArray _ value, _, t => go inputs value t
  | .store array index value, selected, t => do
    let indexWidth ← index.bvWidth
    if 64 < indexWidth then none
    else
      let (i, t) ← go inputs index t
      let (v, t) ← go inputs value t
      let (prior, t) ← goSelect inputs array selected t
      let (same, t) := t.push (.eq i selected)
      some (t.push (.ite same v prior))
  | .ite cond thenExpr elseExpr, selected, t => do
    let (c, t) ← go inputs cond t
    let (th, t) ← goSelect inputs thenExpr selected t
    let (el, t) ← goSelect inputs elseExpr selected t
    some (t.push (.ite c th el))
  | _, _, _ => none

end

/-- The tape of an expression. -/
def compile (inputs : Inputs) (e : SmtExpr) : Option FlatProg := do
  let (root, t) ← go inputs e Tape.empty
  some ⟨t.ops, root⟩

end FlatProg

/-- The arm of an operation of the tape, on the values of the earlier ones. -/
def FlatOp.eval (env : EvalEnv) (scratch : List SVal) : FlatOp → Option SVal
  | .const v => some (.bv v)
  | .const128 v => some (.bv128 v)
  | .boolConst b => some (.bool b)
  | .var slot w => do
    let v ← env.valueAt slot
    some (.bv (mask v w))
  | .bin op a b w => do
    let x ← scratch[a]?
    let y ← scratch[b]?
    if 64 < w ∧ op ≠ .urem then some (.bv128 (op.word x.asU128 y.asU128 w))
    else some (.bv (op.word x.asU64 y.asU64 w))
  | .neg a w => do
    let x ← scratch[a]?
    if 64 < w then some (.bv128 (negWord x.asU128 w)) else some (.bv (negWord x.asU64 w))
  | .trap guard value => do
    let g ← scratch[guard]?
    if g = .poison ∨ g.asU128 = 0 then some .poison else scratch[value]?
  | .eq a b => do
    let x ← scratch[a]?
    let y ← scratch[b]?
    some (.bool (x = y))
  | .not a => do
    let x ← scratch[a]?
    some (.bool (!x.asBool))
  | .cmp op a b w => do
    let x ← scratch[a]?
    let y ← scratch[b]?
    some (.bool (op.word x.asU64 y.asU64 w))
  | .bAnd a b => do
    let x ← scratch[a]?
    let y ← scratch[b]?
    some (.bool (x.asBool && y.asBool))
  | .bOr a b => do
    let x ← scratch[a]?
    let y ← scratch[b]?
    some (.bool (x.asBool || y.asBool))
  | .ite c t e => do
    let x ← scratch[c]?
    if x.asBool then scratch[t]? else scratch[e]?
  | .extract operand low w => do
    let v ← scratch[operand]?
    some (.bv (extractWord v.asU128 low w))
  | .concat hi lo loWidth w => do
    let h ← scratch[hi]?
    let l ← scratch[lo]?
    let result := concatWord h.asU128 l.asU128 loWidth w
    if w ≤ 64 then some (.bv (result.setWidth 64)) else some (.bv128 result)
  | .zExt operand w => do
    let v ← scratch[operand]?
    if 64 < w then some (.bv128 (mask128 v.asU128 w))
    else some (.bv (mask (v.asU128.setWidth 64) w))
  | .sExt operand srcWidth w => do
    let v ← scratch[operand]?
    if 64 < w then some (.bv128 (mask128 (signExtend128 v.asU128 srcWidth) w))
    else some (.bv (mask (signExtend v.asU64 srcWidth) w))
  | .memLoad address loadBits signed resultWidth => do
    let a ← scratch[address]?
    some (.bv (Verify.memLoad a.asU64 loadBits signed resultWidth))

/-- The value the tape leaves. -/
def FlatProg.eval (p : FlatProg) (env : EvalEnv) : Option EvalResult := do
  let scratch ← Tape.run (FlatOp.eval env) p.ops []
  let v ← scratch[p.root]?
  some v.toEval

end TrustCg.Verify
