import TrustCg.Lib.Carrier
import TrustCg.Lib.SortedMap

/-!
# SMT expressions and their concrete evaluator (`smt.rs`)

The expression tree of proof obligations and `try_eval`, which computes the value of an
expression under an assignment of its variables.  A bit vector of up to 64 bits is kept
in a `u64` (`EvalResult.bv`), a wider one in a `u128` (`EvalResult.bv128`); each operator
chooses between the two by its own width.

* `SmtExpr` : the nodes with an integer, Boolean or array value.  A floating-point,
  uninterpreted-function or quantifier node is a leaf `foreign` with an arbitrary value.
* `EvalResult.beq` : the derived comparison, which tells the two variants apart.
* `SmtExpr.tryEval` : the evaluator.

Shifts of a machine word by a constant and the subtraction of widths are those of a build
without overflow checks.  A call of `bv_width` on an expression without a width panics;
`bvWidth` is then `none`.
-/

namespace TrustCg.Verify

/-! ## Sorts, errors and values -/

/-- Sorts of expressions. -/
inductive SmtSort where
  | bitVec (width : ℕ)
  | bool
  | array (index element : SmtSort)
  | floatingPoint (eb sb : ℕ)
deriving DecidableEq

/-- Width of a bit-vector sort. -/
def SmtSort.bvWidth : SmtSort → Option ℕ
  | .bitVec w => some w
  | _ => none

/-- Errors of the evaluator. -/
inductive SmtError where
  | boolHasNoWidth
  | undefinedVariable (name : String)
  | evalError (message : String)
deriving DecidableEq

/-- A value.  An `f64` is its bit pattern; the entries of an array are kept by
increasing key. -/
inductive EvalResult where
  | bv (v : BitVec 64)
  | bv128 (v : BitVec 128)
  | bool (b : Bool)
  | float (bits : BitVec 64)
  | array (entries : List (ℕ × EvalResult)) (default : EvalResult)
  | poison

/-- The bit pattern is that of a NaN. -/
def isNaN (bits : BitVec 64) : Bool := 0x7ff0000000000000 < (bits &&& 0x7fffffffffffffff)

/-- `==` on `f64`: zeros of both signs are equal, a NaN equals nothing. -/
def floatEq (a b : BitVec 64) : Bool :=
  !isNaN a && !isNaN b && (a == b || (a ||| b) &&& 0x7fffffffffffffff == 0)

namespace EvalResult

/-- The low 64 bits. -/
def asU64 : EvalResult → BitVec 64
  | .bv v => v
  | .bv128 v => v.setWidth 64
  | .bool b => BitVec.ofNat 64 b.toNat
  | .float bits => bits
  | .array _ _ => BitVec.ofNat 64 0
  | .poison => BitVec.allOnes 64

/-- The value as 128 bits; a `u64` is zero-extended. -/
def asU128 : EvalResult → BitVec 128
  | .bv v => v.setWidth 128
  | .bv128 v => v
  | .bool b => BitVec.ofNat 128 b.toNat
  | .float bits => bits.setWidth 128
  | .array _ _ => BitVec.ofNat 128 0
  | .poison => BitVec.allOnes 128

/-- The value as a truth value. -/
def asBool : EvalResult → Bool
  | .bool b => b
  | .bv v => v != 0
  | .bv128 v => v != 0
  | .float bits => !floatEq bits 0
  | .array _ _ => false
  | .poison => false

mutual

/-- The derived comparison: values of different variants are never equal. -/
def beq : EvalResult → EvalResult → Bool
  | .bv a, .bv b => a == b
  | .bv128 a, .bv128 b => a == b
  | .bool a, .bool b => a == b
  | .float a, .float b => floatEq a b
  | .array es d, .array es' d' => beqEntries es es' && beq d d'
  | .poison, .poison => true
  | _, _ => false

/-- Comparison of the entries of two arrays. -/
def beqEntries : List (ℕ × EvalResult) → List (ℕ × EvalResult) → Bool
  | [], [] => true
  | (k, v) :: es, (k', v') :: es' => k == k' && beq v v' && beqEntries es es'
  | _, _ => false

end

/-- Comparison of the two sides of an obligation: poison differs from everything, two
NaNs agree and other floats compare by their bits. -/
def semanticallyEqual : EvalResult → EvalResult → Bool
  | .poison, _ => false
  | _, .poison => false
  | .float a, .float b => (isNaN a && isNaN b) || a == b
  | a, b => a.beq b

end EvalResult

/-! ## Machine words -/

/-- `mask`: the low `width` bits of a `u64`. -/
abbrev mask (value : BitVec 64) (width : ℕ) : BitVec 64 := Carrier.mask value width

/-- `mask128`: the low `width` bits of a `u128`. -/
abbrev mask128 (value : BitVec 128) (width : ℕ) : BitVec 128 := Carrier.mask value width

/-- `sign_extend`: the low `width` bits of a `u64` as an `i64`. -/
abbrev signExtend (value : BitVec 64) (width : ℕ) : BitVec 64 := Carrier.signed value width

/-- `sign_extend128`: the low `width` bits of a `u128` as an `i128`. -/
abbrev signExtend128 (value : BitVec 128) (width : ℕ) : BitVec 128 := Carrier.signed value width

/-- `u32` subtraction of widths. -/
def subU32 (a b : ℕ) : ℕ := (a + 2 ^ 32 - b) % 2 ^ 32

/-- `mem_load_mix`: the contents of memory at an address. -/
def memLoadMix (addr : BitVec 64) : BitVec 64 :=
  let z := addr + 0x9e3779b97f4a7c15
  let z := (z ^^^ (z >>> 30)) * 0xbf58476d1ce4e5b9
  let z := (z ^^^ (z >>> 27)) * 0x94d049bb133111eb
  z ^^^ (z >>> 31)

/-- The value of a load: the low bits of the contents, extended to the result width. -/
def memLoad (addr : BitVec 64) (loadBits : ℕ) (signed : Bool) (resultWidth : ℕ) : BitVec 64 :=
  let raw := mask (memLoadMix addr) loadBits
  if signed then mask (signExtend raw loadBits) resultWidth else mask raw resultWidth

/-- Binary operators on bit vectors. -/
inductive BvBinOp where
  | add | sub | mul | sdiv | udiv | urem | and | or | xor | shl | lshr | ashr
deriving DecidableEq

/-- The divisions and the remainder. -/
def BvBinOp.isDivision : BvBinOp → Bool
  | .sdiv | .udiv | .urem => true
  | _ => false

/-- The arm of a binary operator on words of `n` bits; the evaluator has it for `u64` and
for `u128`. -/
def BvBinOp.word {n : ℕ} (op : BvBinOp) (a b : BitVec n) (w : ℕ) : BitVec n :=
  match op with
  | .add => Carrier.mask (a + b) w
  | .sub => Carrier.mask (a - b) w
  | .mul => Carrier.mask (a * b) w
  | .sdiv =>
    let a := Carrier.signed a w
    let b := Carrier.signed b w
    if b = BitVec.ofNat n 0 then BitVec.ofNat n 0
    else if a = BitVec.intMin n ∧ b = BitVec.allOnes n ∧ n ≤ w then Carrier.mask a w
    else Carrier.mask (a.sdiv b) w
  | .udiv => if b = BitVec.ofNat n 0 then BitVec.ofNat n 0 else Carrier.mask (a / b) w
  | .urem => if b = BitVec.ofNat n 0 then Carrier.mask a w else Carrier.mask (a % b) w
  | .and => Carrier.mask (a &&& b) w
  | .or => Carrier.mask (a ||| b) w
  | .xor => Carrier.mask (a ^^^ b) w
  | .shl =>
    if w ≤ b.toNat then BitVec.ofNat n 0 else Carrier.mask (a <<< (b.toNat % n)) w
  | .lshr =>
    if w ≤ b.toNat then BitVec.ofNat n 0 else Carrier.mask (a >>> (b.toNat % n)) w
  | .ashr =>
    let a := Carrier.signed a w
    if w ≤ b.toNat then
      if a.msb then Carrier.mask (BitVec.allOnes n) w else BitVec.ofNat n 0
    else Carrier.mask (a.sshiftRight (b.toNat % n)) w

/-- Two's-complement negation of a word, as the evaluator writes it. -/
def negWord {n : ℕ} (a : BitVec n) (w : ℕ) : BitVec n := Carrier.mask (~~~a + BitVec.ofNat n 1) w

/-- Comparisons of bit vectors. -/
inductive BvCmpOp where
  | slt | sge | uge | sgt | sle | ult | ugt | ule
deriving DecidableEq

/-- The arm of a comparison; operands of every width are compared as `u64`. -/
def BvCmpOp.word (op : BvCmpOp) (a b : BitVec 64) (w : ℕ) : Bool :=
  match op with
  | .slt => (signExtend a w).slt (signExtend b w)
  | .sge => (signExtend b w).sle (signExtend a w)
  | .uge => b.ule a
  | .sgt => (signExtend b w).slt (signExtend a w)
  | .sle => (signExtend a w).sle (signExtend b w)
  | .ult => a.ult b
  | .ugt => b.ult a
  | .ule => a.ule b

/-- The bits of a concatenation. -/
def concatWord (hi lo : BitVec 128) (loWidth width : ℕ) : BitVec 128 :=
  mask128 (hi <<< (loWidth % 128) ||| lo) width

/-- The bits of an extraction, always cut to 64. -/
def extractWord (v : BitVec 128) (low width : ℕ) : BitVec 64 :=
  ((v >>> (low % 128)) &&& mask128 (BitVec.allOnes 128) width).setWidth 64

/-! ## Expressions -/

/-- What the evaluator reads off a variable environment: the value of a name. -/
abbrev Env := String → Option (BitVec 64)

/-- A node of one of the other theories: its width and sort where they exist, and its
value. -/
structure Foreign where
  bvWidth : Option ℕ
  sort : Option SmtSort
  eval : Env → Except SmtError EvalResult

/-- Expressions.  The binary operators and the comparisons of bit vectors have one node
each, which carries the operator. -/
inductive SmtExpr where
  | var (name : String) (width : ℕ)
  | bvConst (value : BitVec 64) (width : ℕ)
  | boolConst (b : Bool)
  | bvBin (op : BvBinOp) (lhs rhs : SmtExpr) (width : ℕ)
  | trapIfZero (guard value : SmtExpr) (width : ℕ)
  | bvNeg (operand : SmtExpr) (width : ℕ)
  | eq (lhs rhs : SmtExpr)
  | not (operand : SmtExpr)
  | bvCmp (op : BvCmpOp) (lhs rhs : SmtExpr) (width : ℕ)
  | and (lhs rhs : SmtExpr)
  | or (lhs rhs : SmtExpr)
  | ite (cond thenExpr elseExpr : SmtExpr)
  | extract (high low : ℕ) (operand : SmtExpr) (width : ℕ)
  | concat (hi lo : SmtExpr) (width : ℕ)
  | zeroExtend (operand : SmtExpr) (extraBits width : ℕ)
  | signExtend (operand : SmtExpr) (extraBits width : ℕ)
  | select (array index : SmtExpr)
  | store (array index value : SmtExpr)
  | constArray (indexSort : SmtSort) (value : SmtExpr)
  | memLoad (addr : SmtExpr) (loadBits : ℕ) (signed : Bool) (resultWidth : ℕ)
  | foreign (node : Foreign)

namespace SmtExpr

mutual

/-- `bv_width`: the width recorded at the head of the expression. -/
def bvWidth : SmtExpr → Option ℕ
  | .var _ w | .bvConst _ w | .bvBin _ _ _ w | .trapIfZero _ _ w | .bvNeg _ w
  | .extract _ _ _ w | .concat _ _ w | .zeroExtend _ _ w | .signExtend _ _ w => some w
  | .ite _ t _ => t.bvWidth
  | .select a _ =>
    match a.sort with
    | some (.array _ e) => e.bvWidth
    | _ => none
  | .memLoad _ _ _ w => some w
  | .boolConst _ | .eq _ _ | .not _ | .bvCmp _ _ _ _ | .and _ _ | .or _ _ => none
  | .store _ _ _ | .constArray _ _ => none
  | .foreign node => node.bvWidth

/-- `sort`: the sort of an expression; an `ite` is taken for a bit vector. -/
def sort : SmtExpr → Option SmtSort
  | .boolConst _ | .eq _ _ | .not _ | .bvCmp _ _ _ _ | .and _ _ | .or _ _ => some .bool
  | .store a _ _ => a.sort
  | .constArray i v => v.sort.map (.array i)
  | .select a _ =>
    match a.sort with
    | some (.array _ e) => some e
    | some _ => some .bool
    | none => none
  | .foreign node => node.sort
  | .var _ w | .bvConst _ w | .bvBin _ _ _ w | .trapIfZero _ _ w | .bvNeg _ w
  | .extract _ _ _ w | .concat _ _ w | .zeroExtend _ _ w | .signExtend _ _ w
  | .memLoad _ _ _ w => some (.bitVec w)
  | .ite _ t _ => t.bvWidth.map .bitVec

end

end SmtExpr

/-! ## Evaluation -/

/-- The value of a binary operator: the operands are read as `u128` when the width is
above 64, the remainder apart. -/
def BvBinOp.eval (op : BvBinOp) (a b : EvalResult) (w : ℕ) : EvalResult :=
  if 64 < w ∧ op ≠ .urem then .bv128 (op.word a.asU128 b.asU128 w)
  else .bv (op.word a.asU64 b.asU64 w)

/-- The value of a negation. -/
def evalNeg (a : EvalResult) (w : ℕ) : EvalResult :=
  if 64 < w then .bv128 (negWord a.asU128 w) else .bv (negWord a.asU64 w)

/-- The value of a concatenation. -/
def evalConcat (hi lo : EvalResult) (loWidth w : ℕ) : EvalResult :=
  if w ≤ 64 then .bv ((concatWord hi.asU128 lo.asU128 loWidth w).setWidth 64)
  else .bv128 (concatWord hi.asU128 lo.asU128 loWidth w)

/-- The value of a zero-extension. -/
def evalZeroExtend (v : EvalResult) (w : ℕ) : EvalResult :=
  if 64 < w then .bv128 (mask128 v.asU128 w) else .bv (mask (v.asU128.setWidth 64) w)

/-- The value of a sign-extension. -/
def evalSignExtend (v : EvalResult) (srcWidth w : ℕ) : EvalResult :=
  if 64 < w then .bv128 (mask128 (signExtend128 v.asU128 srcWidth) w)
  else .bv (mask (signExtend v.asU64 srcWidth) w)

/-- A value that traps: poison where the guard is zero or poison itself. -/
def evalTrap (guard : EvalResult) (value : Except SmtError EvalResult) :
    Except SmtError EvalResult :=
  match guard with
  | .poison => .ok .poison
  | g => if g.asU128 = 0 then .ok .poison else value

/-- `select` on a value. -/
def evalSelect (arr : EvalResult) (idx : BitVec 64) : Except SmtError EvalResult :=
  match arr with
  | .array entries default => .ok ((entries.lookup idx.toNat).getD default)
  | _ => .error (.evalError "select on non-array value")

/-- `store` on a value. -/
def evalStore (arr : EvalResult) (idx : BitVec 64) (val : EvalResult) :
    Except SmtError EvalResult :=
  match arr with
  | .array entries default => .ok (.array (SortedMap.insertEntry idx.toNat val entries) default)
  | _ => .error (.evalError "store on non-array value")

namespace SmtExpr

/-- `try_eval`: the value of an expression under an environment. -/
def tryEval (env : Env) : SmtExpr → Except SmtError EvalResult
  | .var name w =>
    match env name with
    | some v => .ok (.bv (mask v w))
    | none => .error (.undefinedVariable name)
  | .bvConst value w => .ok (if 64 < w then .bv128 (value.setWidth 128) else .bv (mask value w))
  | .boolConst b => .ok (.bool b)
  | .bvBin op lhs rhs w => do
    let a ← lhs.tryEval env
    let b ← rhs.tryEval env
    .ok (op.eval a b w)
  | .trapIfZero guard value _ => do
    let g ← guard.tryEval env
    evalTrap g (value.tryEval env)
  | .bvNeg operand w => do
    let a ← operand.tryEval env
    .ok (evalNeg a w)
  | .eq lhs rhs => do
    let a ← lhs.tryEval env
    let b ← rhs.tryEval env
    .ok (.bool (a.beq b))
  | .not operand => do
    let a ← operand.tryEval env
    .ok (.bool (!a.asBool))
  | .bvCmp op lhs rhs w => do
    let a ← lhs.tryEval env
    let b ← rhs.tryEval env
    .ok (.bool (op.word a.asU64 b.asU64 w))
  | .and lhs rhs => do
    let a ← lhs.tryEval env
    if a.asBool then
      let b ← rhs.tryEval env
      .ok (.bool b.asBool)
    else .ok (.bool false)
  | .or lhs rhs => do
    let a ← lhs.tryEval env
    if a.asBool then .ok (.bool true)
    else
      let b ← rhs.tryEval env
      .ok (.bool b.asBool)
  | .ite cond thenExpr elseExpr => do
    let c ← cond.tryEval env
    if c.asBool then thenExpr.tryEval env else elseExpr.tryEval env
  | .extract _ low operand w => do
    let v ← operand.tryEval env
    .ok (.bv (extractWord v.asU128 low w))
  | .concat hi lo w => do
    let hiVal ← hi.tryEval env
    let loVal ← lo.tryEval env
    match lo.bvWidth with
    | some loWidth => .ok (evalConcat hiVal loVal loWidth w)
    | none => .error .boolHasNoWidth
  | .zeroExtend operand _ w => do
    let v ← operand.tryEval env
    .ok (evalZeroExtend v w)
  | .signExtend operand extraBits w => do
    let v ← operand.tryEval env
    .ok (evalSignExtend v (subU32 w extraBits) w)
  | .constArray _ value => do
    let v ← value.tryEval env
    .ok (.array [] v)
  | .select array index => do
    let arr ← array.tryEval env
    let idx ← index.tryEval env
    evalSelect arr idx.asU64
  | .store array index value => do
    let arr ← array.tryEval env
    let idx ← index.tryEval env
    let val ← value.tryEval env
    evalStore arr idx.asU64 val
  | .memLoad addr loadBits signed resultWidth => do
    let a ← addr.tryEval env
    .ok (.bv (Verify.memLoad a.asU64 loadBits signed resultWidth))
  | .foreign node => node.eval env

end SmtExpr

end TrustCg.Verify
