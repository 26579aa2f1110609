import TrustCg.Verify.Smt

/-!
# The evaluator computes SMT-LIB values

The meaning of an expression in the theory of fixed-size bit vectors, and what of it the
evaluator `try_eval` computes.

* `SmtExpr.WellSorted` : well-sorted expressions over the integer and Boolean nodes, with
  variables of at most 64 bits and every width between 1 and 128.
* `SmtExpr.denote` : the SMT-LIB value.
* `SmtExpr.AtReached` : what holds at every node that an evaluation reaches.
* `tryEval_agrees` : the evaluator is right where every comparison it reaches is decided by
  the low 64 bits of the operands and every extraction has at most 64 bits, whatever the
  other widths are.
* `tryEval_faithful_iff` : that is exactly when it is right at every node it reaches.
-/

namespace TrustCg.Verify

open BitVec

variable {e : SmtExpr} {s : SmtSort} {k m w : ℕ} {σ : String → BitVec 64}

/-! ## Values -/

/-- A value of the theory. -/
inductive Value where
  | bits (w : ℕ) (v : BitVec w)
  | truth (b : Bool)
deriving DecidableEq

/-- A truth value; bit vectors have none. -/
def Value.isTrue : Value → Bool
  | .truth b => b
  | .bits _ _ => false

/-- The binary operators of the theory. -/
def BvBinOp.smt {w : ℕ} : BvBinOp → BitVec w → BitVec w → BitVec w
  | .add, a, b => a + b
  | .sub, a, b => a - b
  | .mul, a, b => a * b
  | .sdiv, a, b => a.smtSDiv b
  | .udiv, a, b => a.smtUDiv b
  | .urem, a, b => a % b
  | .and, a, b => a &&& b
  | .or, a, b => a ||| b
  | .xor, a, b => a ^^^ b
  | .shl, a, b => a <<< b
  | .lshr, a, b => a >>> b
  | .ashr, a, b => a.sshiftRight' b

/-- The comparisons of the theory. -/
def BvCmpOp.smt {w : ℕ} : BvCmpOp → BitVec w → BitVec w → Bool
  | .slt, a, b => a.slt b
  | .sge, a, b => b.sle a
  | .uge, a, b => b.ule a
  | .sgt, a, b => b.slt a
  | .sle, a, b => a.sle b
  | .ult, a, b => a.ult b
  | .ugt, a, b => b.ult a
  | .ule, a, b => a.ule b

namespace SmtExpr

/-- The value of an expression under an assignment of its variables; an expression that
is not well sorted, or is not of the theory, has none and stands for `false`. -/
def denote (σ : String → BitVec 64) : SmtExpr → Value
  | .var name w => .bits w ((σ name).setWidth w)
  | .bvConst value w => .bits w (value.setWidth w)
  | .boolConst b => .truth b
  | .bvBin op lhs rhs _ =>
    match lhs.denote σ, rhs.denote σ with
    | .bits w a, .bits _ b => .bits w (op.smt a (b.setWidth w))
    | _, _ => .truth false
  | .bvNeg operand _ =>
    match operand.denote σ with
    | .bits w a => .bits w (-a)
    | .truth _ => .truth false
  | .eq lhs rhs => .truth (lhs.denote σ = rhs.denote σ)
  | .not operand => .truth (!(operand.denote σ).isTrue)
  | .bvCmp op lhs rhs _ =>
    match lhs.denote σ, rhs.denote σ with
    | .bits w a, .bits _ b => .truth (op.smt a (b.setWidth w))
    | _, _ => .truth false
  | .and lhs rhs => .truth ((lhs.denote σ).isTrue && (rhs.denote σ).isTrue)
  | .or lhs rhs => .truth ((lhs.denote σ).isTrue || (rhs.denote σ).isTrue)
  | .ite cond thenExpr elseExpr =>
    if (cond.denote σ).isTrue then thenExpr.denote σ else elseExpr.denote σ
  | .extract high low operand _ =>
    match operand.denote σ with
    | .bits _ v => .bits (high - low + 1) (v.extractLsb high low)
    | .truth _ => .truth false
  | .concat hi lo _ =>
    match hi.denote σ, lo.denote σ with
    | .bits m a, .bits k b => .bits (m + k) (a ++ b)
    | _, _ => .truth false
  | .zeroExtend operand extraBits _ =>
    match operand.denote σ with
    | .bits m v => .bits (m + extraBits) (v.setWidth (m + extraBits))
    | .truth _ => .truth false
  | .signExtend operand extraBits _ =>
    match operand.denote σ with
    | .bits m v => .bits (m + extraBits) (v.signExtend (m + extraBits))
    | .truth _ => .truth false
  | .trapIfZero _ _ _ | .select _ _ | .store _ _ _ | .constArray _ _ | .memLoad _ _ _ _
  | .foreign _ => .truth false

/-- Well-sorted expressions over variables of at most 64 bits, constants, the operators
other than the divisions, comparisons, connectives and the operations on widths; every
subterm has between 1 and 128 bits. -/
inductive WellSorted : SmtExpr → SmtSort → Prop where
  | var {name : String} {w : ℕ} (hw : 1 ≤ w) (h64 : w ≤ 64) : WellSorted (.var name w) (.bitVec w)
  | bvConst {value : BitVec 64} {w : ℕ} (hw : 1 ≤ w) (h128 : w ≤ 128) :
      WellSorted (.bvConst value w) (.bitVec w)
  | boolConst {b : Bool} : WellSorted (.boolConst b) .bool
  | bvBin {op : BvBinOp} {lhs rhs : SmtExpr} {w : ℕ} (hop : op.isDivision = false)
      (hl : WellSorted lhs (.bitVec w)) (hr : WellSorted rhs (.bitVec w)) :
      WellSorted (.bvBin op lhs rhs w) (.bitVec w)
  | bvNeg {operand : SmtExpr} {w : ℕ} (h : WellSorted operand (.bitVec w)) :
      WellSorted (.bvNeg operand w) (.bitVec w)
  | eq {lhs rhs : SmtExpr} {s : SmtSort} (hl : WellSorted lhs s) (hr : WellSorted rhs s) :
      WellSorted (.eq lhs rhs) .bool
  | not {operand : SmtExpr} (h : WellSorted operand .bool) : WellSorted (.not operand) .bool
  | bvCmp {op : BvCmpOp} {lhs rhs : SmtExpr} {w : ℕ} (hl : WellSorted lhs (.bitVec w))
      (hr : WellSorted rhs (.bitVec w)) : WellSorted (.bvCmp op lhs rhs w) .bool
  | and {lhs rhs : SmtExpr} (hl : WellSorted lhs .bool) (hr : WellSorted rhs .bool) :
      WellSorted (.and lhs rhs) .bool
  | or {lhs rhs : SmtExpr} (hl : WellSorted lhs .bool) (hr : WellSorted rhs .bool) :
      WellSorted (.or lhs rhs) .bool
  | ite {cond thenExpr elseExpr : SmtExpr} {s : SmtSort} (hc : WellSorted cond .bool)
      (ht : WellSorted thenExpr s) (he : WellSorted elseExpr s) :
      WellSorted (.ite cond thenExpr elseExpr) s
  | extract {high low m : ℕ} {operand : SmtExpr} (h : WellSorted operand (.bitVec m))
      (hlow : low ≤ high) (hhigh : high < m) :
      WellSorted (.extract high low operand (high - low + 1)) (.bitVec (high - low + 1))
  | concat {hi lo : SmtExpr} {m k : ℕ} (hh : WellSorted hi (.bitVec m))
      (hl : WellSorted lo (.bitVec k)) (h128 : m + k ≤ 128) :
      WellSorted (.concat hi lo (m + k)) (.bitVec (m + k))
  | zeroExtend {operand : SmtExpr} {m k : ℕ} (h : WellSorted operand (.bitVec m))
      (h128 : m + k ≤ 128) : WellSorted (.zeroExtend operand k (m + k)) (.bitVec (m + k))
  | signExtend {operand : SmtExpr} {m k : ℕ} (h : WellSorted operand (.bitVec m))
      (h128 : m + k ≤ 128) : WellSorted (.signExtend operand k (m + k)) (.bitVec (m + k))

/-- The predicate holds at every node that an evaluation reaches: the right operand of a
connective only where the left one leaves it open, and one branch of a choice. -/
def AtReached (P : SmtExpr → Prop) (σ : String → BitVec 64) (e : SmtExpr) : Prop :=
  P e ∧ match e with
    | .bvBin _ lhs rhs _ | .eq lhs rhs | .bvCmp _ lhs rhs _ | .concat lhs rhs _
    | .trapIfZero lhs rhs _ | .select lhs rhs => lhs.AtReached P σ ∧ rhs.AtReached P σ
    | .and lhs rhs => lhs.AtReached P σ ∧ ((lhs.denote σ).isTrue = true → rhs.AtReached P σ)
    | .or lhs rhs => lhs.AtReached P σ ∧ ((lhs.denote σ).isTrue = false → rhs.AtReached P σ)
    | .ite cond thenExpr elseExpr => cond.AtReached P σ ∧
      ((cond.denote σ).isTrue = true → thenExpr.AtReached P σ) ∧
      ((cond.denote σ).isTrue = false → elseExpr.AtReached P σ)
    | .store a b d => a.AtReached P σ ∧ b.AtReached P σ ∧ d.AtReached P σ
    | .bvNeg operand _ | .not operand | .extract _ _ operand _ | .zeroExtend operand _ _
    | .signExtend operand _ _ | .constArray _ operand | .memLoad operand _ _ _ =>
      operand.AtReached P σ
    | .var _ _ | .bvConst _ _ | .boolConst _ | .foreign _ => True

theorem AtReached.here {P : SmtExpr → Prop} (h : e.AtReached P σ) : P e := by
  unfold AtReached at h
  exact h.1

/-- What the evaluator needs of a node: a comparison has at most 64 bits or is decided by the
low words of the operands, and an extraction has at most 64 bits. -/
def LowWordsDo (σ : String → BitVec 64) : SmtExpr → Prop
  | .bvCmp op lhs rhs w => w ≤ 64 ∨
    match lhs.denote σ, rhs.denote σ with
    | .bits n a, .bits _ b => op.word (a.setWidth 64) (b.setWidth 64) w = op.smt a (b.setWidth n)
    | _, _ => False
  | .extract _ _ _ w => w ≤ 64
  | _ => True

/-- What follows at each node from what holds at the nodes below it. -/
theorem AtReached.imp {P Q : SmtExpr → Prop}
    (hstep : ∀ e s, e.WellSorted s → e.AtReached P σ → Q e) (hs : e.WellSorted s) :
    e.AtReached P σ → e.AtReached Q σ := by
  induction hs with
  | var hw h64 => exact fun h => ⟨hstep _ _ (.var hw h64) h, trivial⟩
  | bvConst hw h128 => exact fun h => ⟨hstep _ _ (.bvConst hw h128) h, trivial⟩
  | boolConst => exact fun h => ⟨hstep _ _ .boolConst h, trivial⟩
  | bvBin hop hl hr ihl ihr =>
    exact fun h => ⟨hstep _ _ (.bvBin hop hl hr) h, ihl h.2.1, ihr h.2.2⟩
  | bvNeg ho ih => exact fun h => ⟨hstep _ _ (.bvNeg ho) h, ih h.2⟩
  | eq hl hr ihl ihr => exact fun h => ⟨hstep _ _ (.eq hl hr) h, ihl h.2.1, ihr h.2.2⟩
  | not ho ih => exact fun h => ⟨hstep _ _ (.not ho) h, ih h.2⟩
  | bvCmp hl hr ihl ihr => exact fun h => ⟨hstep _ _ (.bvCmp hl hr) h, ihl h.2.1, ihr h.2.2⟩
  | and hl hr ihl ihr =>
    exact fun h => ⟨hstep _ _ (.and hl hr) h, ihl h.2.1, fun ht => ihr (h.2.2 ht)⟩
  | or hl hr ihl ihr =>
    exact fun h => ⟨hstep _ _ (.or hl hr) h, ihl h.2.1, fun ht => ihr (h.2.2 ht)⟩
  | ite hc ht he ihc iht ihe =>
    exact fun h => ⟨hstep _ _ (.ite hc ht he) h, ihc h.2.1, fun hb => iht (h.2.2.1 hb),
      fun hb => ihe (h.2.2.2 hb)⟩
  | extract ho hlow hhigh ih => exact fun h => ⟨hstep _ _ (.extract ho hlow hhigh) h, ih h.2⟩
  | concat hh hl h128 ihh ihl =>
    exact fun h => ⟨hstep _ _ (.concat hh hl h128) h, ihh h.2.1, ihl h.2.2⟩
  | zeroExtend ho h128 ih => exact fun h => ⟨hstep _ _ (.zeroExtend ho h128) h, ih h.2⟩
  | signExtend ho h128 ih => exact fun h => ⟨hstep _ _ (.signExtend ho h128) h, ih h.2⟩

theorem WellSorted.bvWidth_eq (h : e.WellSorted s) :
    ∀ w, s = .bitVec w → e.bvWidth = some w ∧ 1 ≤ w ∧ w ≤ 128 := by
  induction h with
  | var hw h64 => rintro w ⟨⟩; exact ⟨by simp [bvWidth], hw, by omega⟩
  | bvConst hw h128 => rintro w ⟨⟩; exact ⟨by simp [bvWidth], hw, h128⟩
  | bvBin hop hl hr ihl ihr => rintro w ⟨⟩; exact ⟨by simp [bvWidth], (ihl _ rfl).2⟩
  | bvNeg h ih => rintro w ⟨⟩; exact ⟨by simp [bvWidth], (ih _ rfl).2⟩
  | ite hc ht he ihc iht ihe => rintro w rfl; exact ⟨by simp [bvWidth, iht _ rfl], (iht _ rfl).2⟩
  | extract h hlow hhigh ih =>
    rintro w ⟨⟩
    have := (ih _ rfl).2
    exact ⟨by simp [bvWidth], by omega, by omega⟩
  | concat hh hl h128 ihh ihl =>
    rintro w ⟨⟩
    have := (ihl _ rfl).2
    exact ⟨by simp [bvWidth], by omega, h128⟩
  | zeroExtend h h128 ih | signExtend h h128 ih =>
    rintro w ⟨⟩
    have := (ih _ rfl).2
    exact ⟨by simp [bvWidth], by omega, h128⟩
  | boolConst | eq | not | bvCmp | and | or => intro w hw; cases hw

end SmtExpr

/-! ## How values are kept -/

/-- A bit vector in the variant of its width. -/
def carry {w : ℕ} (v : BitVec w) : EvalResult :=
  if 64 < w then .bv128 (v.setWidth 128) else .bv (v.setWidth 64)

theorem carry_wide (hw : 64 < w) (v : BitVec w) : carry v = .bv128 (v.setWidth 128) := if_pos hw

theorem carry_narrow (hw : w ≤ 64) (v : BitVec w) : carry v = .bv (v.setWidth 64) :=
  if_neg (by omega)

theorem asU128_carry (v : BitVec w) : (carry v).asU128 = v.setWidth 128 := by
  by_cases hw : 64 < w
  · rw [carry_wide hw, EvalResult.asU128]
  rw [carry_narrow (by omega), EvalResult.asU128]
  apply eq_of_toNat_eq
  have h64 : v.toNat < 2 ^ 64 := lt_of_lt_of_le v.isLt (Nat.pow_le_pow_right (by omega) (by omega))
  rw [toNat_setWidth, toNat_setWidth, toNat_setWidth, Nat.mod_eq_of_lt h64]

theorem asU64_carry (v : BitVec w) : (carry v).asU64 = v.setWidth 64 := by
  by_cases hw : 64 < w
  · rw [carry_wide hw, EvalResult.asU64, setWidth_setWidth_of_le _ (by omega)]
  · rw [carry_narrow (by omega), EvalResult.asU64]

theorem beq_carry (hw : w ≤ 128) (a b : BitVec w) : (carry a).beq (carry b) = decide (a = b) := by
  have hinj : ∀ {n : ℕ}, w ≤ n → (a.setWidth n == b.setWidth n) = decide (a = b) := by
    intro n hn
    rw [Bool.eq_iff_iff, beq_iff_eq, decide_eq_true_iff]
    constructor
    · intro h
      have := congrArg (BitVec.setWidth w) h
      rwa [Carrier.setWidth_carried hn, Carrier.setWidth_carried hn] at this
    rintro rfl
    rfl
  by_cases h64 : 64 < w
  · rw [carry_wide h64, carry_wide h64, EvalResult.beq, hinj hw]
  · rw [carry_narrow (by omega), carry_narrow (by omega), EvalResult.beq, hinj (by omega)]

variable {op : BvBinOp}

theorem BvBinOp.word_carried {n : ℕ} (hop : op.isDivision = false) (hw : 0 < w) (hn : w ≤ n)
    (a b : BitVec w) : op.word (a.setWidth n) (b.setWidth n) w = (op.smt a b).setWidth n := by
  have hb : (b.setWidth n).toNat = b.toNat := Carrier.toNat_carried hn b
  cases op with
  | add => exact Carrier.mask_add hn a b
  | sub => exact Carrier.mask_sub hn a b
  | mul => exact Carrier.mask_mul hn a b
  | and => exact Carrier.mask_and hn a b
  | or => exact Carrier.mask_or hn a b
  | xor => exact Carrier.mask_xor hn a b
  | shl =>
    simp only [BvBinOp.word, BvBinOp.smt, hb, shiftLeft_eq']
    split
    next h => rw [shiftLeft_eq_zero h]; simp
    next h => rw [Nat.mod_eq_of_lt (by omega), Carrier.mask_shiftLeft hn]
  | lshr =>
    simp only [BvBinOp.word, BvBinOp.smt, hb, ushiftRight_eq']
    split
    next h => rw [ushiftRight_eq_zero h]; simp
    next h => rw [Nat.mod_eq_of_lt (by omega), Carrier.mask_ushiftRight hn]
  | ashr =>
    simp only [BvBinOp.word, BvBinOp.smt, hb, sshiftRight_eq',
      Carrier.signed_carried hn a hw, Carrier.msb_signExtend_of_le hn a hw]
    split
    next h =>
      rw [Carrier.sshiftRight_of_le h]
      split
      · exact Carrier.mask_allOnes hn
      · simp
    next h => rw [Nat.mod_eq_of_lt (by omega), Carrier.mask_sshiftRight hn a hw]
  | sdiv | udiv | urem => cases hop

theorem BvBinOp.eval_carry (hop : op.isDivision = false) (hw : 1 ≤ w) (h128 : w ≤ 128)
    (a b : BitVec w) : op.eval (carry a) (carry b) w = carry (op.smt a b) := by
  have hne : op ≠ .urem := by rintro rfl; cases hop
  by_cases h64 : 64 < w
  · rw [BvBinOp.eval, if_pos ⟨h64, hne⟩, asU128_carry, asU128_carry,
      BvBinOp.word_carried hop hw h128, carry_wide h64]
  have h64' : w ≤ 64 := by omega
  rw [BvBinOp.eval, if_neg (by omega), asU64_carry, asU64_carry,
    BvBinOp.word_carried hop hw h64', carry_narrow h64']

theorem negWord_carried {n : ℕ} (hn : w ≤ n) (a : BitVec w) :
    negWord (a.setWidth n) w = (-a).setWidth n := by
  rw [negWord, ← neg_eq_not_add, Carrier.mask_neg hn]

theorem evalNeg_carry (h128 : w ≤ 128) (a : BitVec w) : evalNeg (carry a) w = carry (-a) := by
  by_cases h64 : 64 < w
  · rw [evalNeg, if_pos h64, asU128_carry, negWord_carried h128, carry_wide h64]
  have h64' : w ≤ 64 := by omega
  rw [evalNeg, if_neg h64, asU64_carry, negWord_carried h64', carry_narrow h64']

theorem BvCmpOp.word_carried (op : BvCmpOp) (hw : 0 < w) (hn : w ≤ 64) (a b : BitVec w) :
    op.word (a.setWidth 64) (b.setWidth 64) w = op.smt a b := by
  have hs : ∀ v : BitVec w, (signExtend (v.setWidth 64) w).toInt = v.toInt := by
    intro v
    rw [signExtend, Carrier.signed_carried hn v hw, toInt_signExtend_of_le hn]
  have hu : ∀ v : BitVec w, (v.setWidth 64).toNat = v.toNat := Carrier.toNat_carried hn
  cases op <;> simp only [BvCmpOp.word, BvCmpOp.smt, BitVec.slt, BitVec.sle, BitVec.ult,
    BitVec.ule, hs, hu]

theorem extractWord_carried {high low : ℕ} (hlow : low ≤ high) (hhigh : high < m)
    (hm : m ≤ 128) (h64 : high - low + 1 ≤ 64) (v : BitVec m) :
    extractWord (v.setWidth 128) low (high - low + 1) = (v.extractLsb high low).setWidth 64 := by
  rw [extractWord, mask128, Carrier.mask_allOnes (by omega), Nat.mod_eq_of_lt (by omega)]
  apply eq_of_getLsbD_eq
  intro i hi
  by_cases hin : i < high - low + 1
  · simp [BitVec.extractLsb, hi, hin, show low + i < 128 by omega, show i < 128 by omega]
  · simp [BitVec.extractLsb, hi, hin]

theorem concatWord_carried (hm : 1 ≤ m) (h128 : m + k ≤ 128) (a : BitVec m) (b : BitVec k) :
    concatWord (a.setWidth 128) (b.setWidth 128) k (m + k) = (a ++ b).setWidth 128 := by
  rw [concatWord, mask128, Carrier.mask_eq, Nat.mod_eq_of_lt (by omega)]
  congr 1
  apply eq_of_getLsbD_eq
  intro i hi
  rw [getLsbD_append]
  by_cases hik : i < k
  · simp [hi, hik, show i < 128 by omega]
  · simp [hi, hik, show i < 128 by omega, getLsbD_of_ge b i (by omega)]

theorem carry_of_setWidth (h128 : w ≤ 128) (u : BitVec 128) (v : BitVec w)
    (h : u = v.setWidth 128) :
    (if w ≤ 64 then EvalResult.bv (u.setWidth 64) else .bv128 u) = carry v := by
  subst h
  by_cases h64 : w ≤ 64
  · rw [if_pos h64, carry_narrow h64, setWidth_setWidth_of_le _ (by omega)]
  · rw [if_neg h64, carry_wide (by omega)]

theorem evalConcat_carry (hm : 1 ≤ m) (h128 : m + k ≤ 128) (a : BitVec m)
    (b : BitVec k) : evalConcat (carry a) (carry b) k (m + k) = carry (a ++ b) := by
  rw [evalConcat, asU128_carry, asU128_carry]
  exact carry_of_setWidth h128 _ _ (concatWord_carried hm h128 a b)

theorem evalZeroExtend_carry (h128 : m + k ≤ 128) (v : BitVec m) :
    evalZeroExtend (carry v) (m + k) = carry (v.setWidth (m + k)) := by
  rw [evalZeroExtend, asU128_carry]
  have hstep : ∀ n, m + k ≤ n →
      Carrier.mask (v.setWidth n) (m + k) = (v.setWidth (m + k)).setWidth n := by
    intro n hn
    rw [Carrier.mask_eq, setWidth_setWidth_of_le _ hn]
  by_cases h64 : 64 < m + k
  · rw [if_pos h64, carry_wide h64, mask128, hstep 128 h128]
  rw [if_neg h64, carry_narrow (by omega), setWidth_setWidth_of_le _ (by omega), mask,
    hstep 64 (by omega)]

theorem evalSignExtend_carry (hm : 1 ≤ m) (h128 : m + k ≤ 128) (v : BitVec m) :
    evalSignExtend (carry v) (subU32 (m + k) k) (m + k) = carry (v.signExtend (m + k)) := by
  have hsrc : subU32 (m + k) k = m := by
    rw [subU32]
    omega
  have hstep : ∀ n, m + k ≤ n → Carrier.mask (Carrier.signed (v.setWidth n) m) (m + k)
      = (v.signExtend (m + k)).setWidth n := by
    intro n hn
    rw [Carrier.signed_carried (by omega) v hm, Carrier.mask_signExtend hn]
  rw [evalSignExtend, hsrc]
  by_cases h64 : 64 < m + k
  · rw [if_pos h64, carry_wide h64, asU128_carry, mask128, signExtend128, hstep 128 h128]
  rw [if_neg h64, asU64_carry, carry_narrow (by omega), mask, signExtend,
    hstep 64 (by omega)]

/-! ## The evaluator against the theory -/

/-- The evaluator returns the value of the expression, kept in the variant of its
width. -/
def Agrees (σ : String → BitVec 64) (e : SmtExpr) : SmtSort → Prop
  | .bitVec w => ∃ v : BitVec w, e.denote σ = .bits w v ∧
      e.tryEval (fun name => some (σ name)) = .ok (carry v)
  | .bool => ∃ b, e.denote σ = .truth b ∧ e.tryEval (fun name => some (σ name)) = .ok (.bool b)
  | _ => False

theorem Agrees.congr {e' : SmtExpr} (h : Agrees σ e s) (hd : e'.denote σ = e.denote σ)
    (hv : e'.tryEval (fun name => some (σ name)) = e.tryEval (fun name => some (σ name))) :
    Agrees σ e' s := by
  cases s <;> simp only [Agrees, hd, hv] at h ⊢ <;> exact h

/-- An expression that agrees at any sort compares with another one of that sort as their
values do. -/
theorem Agrees.eq {lhs rhs : SmtExpr}
    (h128 : ∀ w, s = .bitVec w → w ≤ 128) (hl : Agrees σ lhs s) (hr : Agrees σ rhs s) :
    ∃ a b, lhs.tryEval (fun name => some (σ name)) = .ok a ∧
      rhs.tryEval (fun name => some (σ name)) = .ok b ∧
      a.beq b = decide (lhs.denote σ = rhs.denote σ) ∧ a.semanticallyEqual b = a.beq b := by
  match s with
  | .bitVec w =>
    obtain ⟨a, hda, hea⟩ := hl
    obtain ⟨b, hdb, heb⟩ := hr
    refine ⟨_, _, hea, heb, ?_, ?_⟩
    · rw [beq_carry (h128 w rfl), hda, hdb]
      simp
    by_cases h64 : 64 < w
    · simp [carry_wide h64, EvalResult.semanticallyEqual]
    · simp [carry_narrow (not_lt.1 h64), EvalResult.semanticallyEqual]
  | .bool =>
    obtain ⟨a, hda, hea⟩ := hl
    obtain ⟨b, hdb, heb⟩ := hr
    refine ⟨_, _, hea, heb, ?_, rfl⟩
    rw [hda, hdb, EvalResult.beq]
    cases a <;> cases b <;> rfl
  | .array _ _ => exact hl.elim
  | .floatingPoint _ _ => exact hl.elim

/-- **Right where the low words do.** The evaluator agrees with the theory on every
well-sorted expression whose comparisons are decided by low words and whose extractions have
at most 64 bits, as far as it is evaluated. -/
theorem tryEval_agrees (σ : String → BitVec 64)
    (h : e.WellSorted s) : e.AtReached (SmtExpr.LowWordsDo σ) σ → Agrees σ e s := by
  induction h with
  | @var name w hw h64 =>
    intro _
    refine ⟨(σ name).setWidth w, by rw [SmtExpr.denote], ?_⟩
    simp only [carry_narrow h64, SmtExpr.tryEval, mask, Carrier.mask_eq]
  | @bvConst value w hw h128 =>
    intro _
    refine ⟨value.setWidth w, by rw [SmtExpr.denote], ?_⟩
    rw [SmtExpr.tryEval]
    by_cases h64 : 64 < w
    · have hle : 2 ^ 64 ≤ 2 ^ w := Nat.pow_le_pow_right (by omega) (by omega)
      rw [if_pos h64, carry_wide h64]
      congr 2
      apply eq_of_toNat_eq
      rw [toNat_setWidth, toNat_setWidth, toNat_setWidth, Nat.mod_eq_of_lt (b := 2 ^ w) (by omega)]
    · rw [if_neg h64, carry_narrow (by omega), mask, Carrier.mask_eq]
  | @boolConst b =>
    intro _
    exact ⟨b, by rw [SmtExpr.denote], by rw [SmtExpr.tryEval]⟩
  | @bvBin op lhs rhs w hop hl hr ihl ihr =>
    rintro ⟨-, hwl, hwr⟩
    obtain ⟨_, hw, h128⟩ := hl.bvWidth_eq w rfl
    obtain ⟨a, hda, hea⟩ := ihl hwl
    obtain ⟨b, hdb, heb⟩ := ihr hwr
    refine ⟨op.smt a b, by simp [SmtExpr.denote, hda, hdb], ?_⟩
    rw [SmtExpr.tryEval, hea, heb, ← BvBinOp.eval_carry hop hw h128]
    rfl
  | @bvNeg operand w h ih =>
    rintro ⟨-, hwo⟩
    obtain ⟨_, hw, h128⟩ := h.bvWidth_eq w rfl
    obtain ⟨a, hda, hea⟩ := ih hwo
    refine ⟨-a, by simp [SmtExpr.denote, hda], ?_⟩
    rw [SmtExpr.tryEval, hea, ← evalNeg_carry h128]
    rfl
  | @eq lhs rhs s hl hr ihl ihr =>
    rintro ⟨-, hwl, hwr⟩
    obtain ⟨a, b, hea, heb, hcmp, _⟩ :=
      (ihl hwl).eq (fun w hs => (hl.bvWidth_eq w hs).2.2) (ihr hwr)
    refine ⟨_, by rw [SmtExpr.denote], ?_⟩
    rw [SmtExpr.tryEval, hea, heb, ← hcmp]
    rfl
  | @not operand h ih =>
    rintro ⟨-, hwo⟩
    obtain ⟨b, hd, he⟩ := ih hwo
    refine ⟨!b, by rw [SmtExpr.denote, hd]; rfl, ?_⟩
    rw [SmtExpr.tryEval, he]
    rfl
  | @bvCmp op lhs rhs w hl hr ihl ihr =>
    rintro ⟨hlow, hwl, hwr⟩
    obtain ⟨a, hda, hea⟩ := ihl hwl
    obtain ⟨b, hdb, heb⟩ := ihr hwr
    refine ⟨op.smt a b, by simp [SmtExpr.denote, hda, hdb], ?_⟩
    have hword : op.word (a.setWidth 64) (b.setWidth 64) w = op.smt a b := by
      simp only [SmtExpr.LowWordsDo, hda, hdb, setWidth_eq] at hlow
      rcases hlow with h64 | hlow
      · exact BvCmpOp.word_carried op (hl.bvWidth_eq w rfl).2.1 h64 a b
      · exact hlow
    rw [SmtExpr.tryEval, hea, heb, ← hword, ← asU64_carry a, ← asU64_carry b]
    rfl
  | @and lhs rhs hl hr ihl ihr =>
    rintro ⟨-, hwl, hwr⟩
    obtain ⟨a, hda, hea⟩ := ihl hwl
    rw [hda] at hwr
    cases a with
    | false => exact ⟨false, by rw [SmtExpr.denote, hda]; rfl, by rw [SmtExpr.tryEval, hea]; rfl⟩
    | true =>
      obtain ⟨b, hdb, heb⟩ := ihr (hwr rfl)
      exact ⟨b, by rw [SmtExpr.denote, hda, hdb]; rfl, by rw [SmtExpr.tryEval, hea, heb]; rfl⟩
  | @or lhs rhs hl hr ihl ihr =>
    rintro ⟨-, hwl, hwr⟩
    obtain ⟨a, hda, hea⟩ := ihl hwl
    rw [hda] at hwr
    cases a with
    | true => exact ⟨true, by rw [SmtExpr.denote, hda]; rfl, by rw [SmtExpr.tryEval, hea]; rfl⟩
    | false =>
      obtain ⟨b, hdb, heb⟩ := ihr (hwr rfl)
      exact ⟨b, by rw [SmtExpr.denote, hda, hdb]; rfl, by rw [SmtExpr.tryEval, hea, heb]; rfl⟩
  | @ite cond thenExpr elseExpr s hc ht he ihc iht ihe =>
    rintro ⟨-, hwc, hwt, hwe⟩
    obtain ⟨c, hdc, hec⟩ := ihc hwc
    rw [hdc] at hwt hwe
    cases c with
    | true =>
      refine (iht (hwt rfl)).congr ?_ ?_
      · rw [SmtExpr.denote, hdc]
        rfl
      rw [SmtExpr.tryEval, hec]
      rfl
    | false =>
      refine (ihe (hwe rfl)).congr ?_ ?_
      · rw [SmtExpr.denote, hdc]
        rfl
      rw [SmtExpr.tryEval, hec]
      rfl
  | @extract high low m operand h hlow hhigh ih =>
    rintro ⟨h64, hwo⟩
    rw [SmtExpr.LowWordsDo] at h64
    obtain ⟨_, hw, h128⟩ := h.bvWidth_eq m rfl
    obtain ⟨v, hd, he⟩ := ih hwo
    refine ⟨v.extractLsb high low, by rw [SmtExpr.denote, hd], ?_⟩
    rw [SmtExpr.tryEval, he, carry_narrow h64,
      ← extractWord_carried hlow hhigh h128 h64, ← asU128_carry]
    rfl
  | @concat hi lo m k hh hl h128 ihh ihl =>
    rintro ⟨-, hwh, hwl⟩
    obtain ⟨_, hm, _⟩ := hh.bvWidth_eq m rfl
    obtain ⟨hwidth, _, _⟩ := hl.bvWidth_eq k rfl
    obtain ⟨a, hda, hea⟩ := ihh hwh
    obtain ⟨b, hdb, heb⟩ := ihl hwl
    refine ⟨a ++ b, by rw [SmtExpr.denote, hda, hdb], ?_⟩
    rw [SmtExpr.tryEval, hea, heb, hwidth, ← evalConcat_carry hm h128]
    rfl
  | @zeroExtend operand m k h h128 ih =>
    rintro ⟨-, hwo⟩
    obtain ⟨v, hd, he⟩ := ih hwo
    refine ⟨v.setWidth (m + k), by rw [SmtExpr.denote, hd], ?_⟩
    rw [SmtExpr.tryEval, he, ← evalZeroExtend_carry h128]
    rfl
  | @signExtend operand m k h h128 ih =>
    rintro ⟨-, hwo⟩
    obtain ⟨_, hm, _⟩ := h.bvWidth_eq m rfl
    obtain ⟨v, hd, he⟩ := ih hwo
    refine ⟨v.signExtend (m + k), by rw [SmtExpr.denote, hd], ?_⟩
    rw [SmtExpr.tryEval, he, ← evalSignExtend_carry hm h128]
    rfl

/-- The result is the value, in either variant. -/
def Value.KeptAs : Value → EvalResult → Prop
  | .bits _ v, .bv u => u.toNat = v.toNat
  | .bits _ v, .bv128 u => u.toNat = v.toNat
  | .truth b, .bool b' => b' = b
  | _, _ => False

theorem keptAs_carry (h128 : w ≤ 128) (v : BitVec w) : (Value.bits w v).KeptAs (carry v) := by
  by_cases h64 : 64 < w
  · rw [carry_wide h64]
    exact Carrier.toNat_carried h128 v
  rw [carry_narrow (by omega)]
  exact Carrier.toNat_carried (by omega) v

theorem Agrees.keptAs (h128 : ∀ w, s = .bitVec w → w ≤ 128) (h : Agrees σ e s) :
    ∃ r, e.tryEval (fun name => some (σ name)) = .ok r ∧ (e.denote σ).KeptAs r := by
  match s with
  | .bitVec w =>
    obtain ⟨v, hd, he⟩ := h
    exact ⟨_, he, hd ▸ keptAs_carry (h128 w rfl) v⟩
  | .bool =>
    obtain ⟨b, hd, he⟩ := h
    exact ⟨_, he, hd ▸ rfl⟩
  | .array _ _ => exact h.elim
  | .floatingPoint _ _ => exact h.elim

/-- The 65-bit number `2 ^ 64`. -/
def bit64 : SmtExpr := .concat (.bvConst 1 1) (.bvConst 0 64) 65

theorem bit64_wellSorted : bit64.WellSorted (.bitVec 65) :=
  .concat (.bvConst (by decide) (by decide)) (.bvConst (by decide) (by decide)) (by decide)

/-- `2 ^ 64 < 1` on 65 bits. -/
def bit64BelowOne : SmtExpr := .bvCmp .ult bit64 (.bvConst 1 65) 65

/-- All 65 bits of `2 ^ 64`. -/
def bit64Extracted : SmtExpr := .extract 64 0 bit64 65

theorem bit64BelowOne_wellSorted : bit64BelowOne.WellSorted .bool :=
  .bvCmp bit64_wellSorted (.bvConst (by decide) (by decide))

theorem bit64Extracted_wellSorted : bit64Extracted.WellSorted (.bitVec 65) :=
  .extract bit64_wellSorted (by decide) (by decide)

theorem tryEval_bit64BelowOne (env : Env) : bit64BelowOne.tryEval env = .ok (.bool true) := rfl

theorem tryEval_bit64Extracted (env : Env) : bit64Extracted.tryEval env = .ok (.bv 0) := rfl

theorem denote_bit64BelowOne (σ : String → BitVec 64) : bit64BelowOne.denote σ = .truth false := rfl

theorem denote_bit64Extracted (σ : String → BitVec 64) :
    bit64Extracted.denote σ = .bits 65 (BitVec.ofNat 65 (2 ^ 64)) := rfl

/-- The evaluator returns the value of the node, in the variant of its width. -/
def RightAt (σ : String → BitVec 64) (e : SmtExpr) : Prop := ∀ s, e.WellSorted s → Agrees σ e s

/-- A comparison or an extraction of values that are right is right only if low words do. -/
theorem lowWordsDo_of_rightAt (hs : e.WellSorted s) (h : e.AtReached (RightAt σ) σ) :
    e.LowWordsDo σ := by
  cases hs with
  | @bvCmp op lhs rhs w hl hr =>
    obtain ⟨hright, hright_l, hright_r⟩ := h
    obtain ⟨a, hda, hea⟩ := hright_l.here _ hl
    obtain ⟨b, hdb, heb⟩ := hright_r.here _ hr
    obtain ⟨c, hd, he⟩ := hright _ (.bvCmp hl hr)
    simp only [SmtExpr.denote, hda, hdb] at hd
    rw [SmtExpr.tryEval, hea, heb] at he
    simp only [SmtExpr.LowWordsDo, hda, hdb, ← asU64_carry]
    exact .inr ((EvalResult.bool.inj (Except.ok.inj he)).trans (Value.truth.inj hd).symm)
  | @extract high low m operand h' hlow hhigh =>
    obtain ⟨hright, hoperand⟩ := h
    obtain ⟨v, -, hev⟩ := hoperand.here _ h'
    obtain ⟨r, -, he⟩ := hright _ (.extract h' hlow hhigh)
    rw [SmtExpr.tryEval, hev] at he
    rw [SmtExpr.LowWordsDo]
    by_contra hwide
    rw [carry_wide (Nat.lt_of_not_le hwide) r] at he
    exact EvalResult.noConfusion (Except.ok.inj he)
  | _ => trivial

/-- **Exactly where the low words do.** The evaluator is right at every node it reaches if and
only if the low words decide every comparison it reaches and every extraction has at most 64
bits.  It then returns the SMT-LIB value, and equates two such expressions exactly when their
values are equal. -/
theorem tryEval_faithful_iff (σ : String → BitVec 64) :
    (∀ (e : SmtExpr) (s : SmtSort), e.WellSorted s →
      (e.AtReached (RightAt σ) σ ↔ e.AtReached (SmtExpr.LowWordsDo σ) σ)) ∧
    (∀ (e : SmtExpr) (s : SmtSort), e.WellSorted s → e.AtReached (SmtExpr.LowWordsDo σ) σ →
      ∃ r, e.tryEval (fun name => some (σ name)) = .ok r ∧ (e.denote σ).KeptAs r) ∧
    (∀ (e e' : SmtExpr) (s : SmtSort), e.WellSorted s → e'.WellSorted s →
      e.AtReached (SmtExpr.LowWordsDo σ) σ → e'.AtReached (SmtExpr.LowWordsDo σ) σ →
      ∃ r r', e.tryEval (fun name => some (σ name)) = .ok r ∧
        e'.tryEval (fun name => some (σ name)) = .ok r' ∧
        (r.semanticallyEqual r' = true ↔ e.denote σ = e'.denote σ)) := by
  refine ⟨fun e s hs => ?_, fun e s hs hw => ?_, fun e e' s hs hs' hw hw' => ?_⟩
  · exact ⟨SmtExpr.AtReached.imp (fun _ _ => lowWordsDo_of_rightAt) hs,
      SmtExpr.AtReached.imp (fun _ _ _ h _ hs' => tryEval_agrees σ hs' h) hs⟩
  · exact (tryEval_agrees σ hs hw).keptAs fun w hsw => (hs.bvWidth_eq w hsw).2.2
  obtain ⟨r, r', hr, hr', hcmp, hsem⟩ :=
    (tryEval_agrees σ hs hw).eq (fun w hsw => (hs.bvWidth_eq w hsw).2.2) (tryEval_agrees σ hs' hw')
  refine ⟨r, r', hr, hr', ?_⟩
  rw [hsem, hcmp, decide_eq_true_iff]

/-- A wide comparison that is not reached does no harm. -/
theorem tryEval_faithful_iff_unreached :
    ∃ r, (SmtExpr.and (.boolConst false) bit64BelowOne).tryEval (fun _ => some 0) = .ok r
      ∧ ((SmtExpr.and (.boolConst false) bit64BelowOne).denote fun _ => 0).KeptAs r :=
  (tryEval_faithful_iff fun _ => 0).2.1 _ .bool (.and .boolConst bit64BelowOne_wellSorted)
    ⟨trivial, ⟨trivial, trivial⟩, fun h => absurd h (by decide)⟩

/-- A comparison and an extraction of 65 bits that are well sorted and wrong: `2 ^ 64` is
taken to be below 1, and its 65 bits to be 0. -/
theorem tryEval_drops_bit64 : (bit64BelowOne.WellSorted .bool ∧
      bit64BelowOne.tryEval (fun _ => some 0) = .ok (.bool true) ∧
      bit64BelowOne.denote (fun _ => 0) = .truth false) ∧
    bit64Extracted.WellSorted (.bitVec 65) ∧
      bit64Extracted.tryEval (fun _ => some 0) = .ok (.bv 0) ∧
      bit64Extracted.denote (fun _ => 0) = .bits 65 (BitVec.ofNat 65 (2 ^ 64)) :=
  ⟨⟨bit64BelowOne_wellSorted, tryEval_bit64BelowOne _, denote_bit64BelowOne _⟩,
    bit64Extracted_wellSorted, tryEval_bit64Extracted _, denote_bit64Extracted _⟩

end TrustCg.Verify
