import TrustCg.Verify.SmtCompiled
import TrustCg.Verify.SmtSound

/-!
# The compiled evaluators against the interpreter

* `CExpr.eval_eq` : the tree computes what `try_eval` does.
* `FlatProg.eval_eq` : so does the tape, as long as the index of a store equals the index
  that is read exactly when their keys are equal (`SmtExpr.KeysDecide`).
* `compiled_eval_eq` : both, for the environment of the declared inputs.
* `flatProg_poisoned_index` : a poisoned index is the key `u64::MAX` for the interpreter,
  but differs from the word `u64::MAX` on the tape.
* `compiled_sides_equal_iff` : tapes compare as SMT-LIB values do.
-/

namespace TrustCg.Verify

open Option
open SmtExpr (tryEval)

/-! ## Slots of the declared inputs -/

variable {inputs : Inputs}

namespace EvalEnv

theorem insertVar_of_not_mem {key : String} {val : BitVec 64} {vars : List (String × BitVec 64)}
    (h : key ∉ vars.map Prod.fst) : insertVar key val vars = vars ++ [(key, val)] := by
  induction vars with
  | nil => rfl
  | cons binding vars ih =>
    simp only [List.map_cons, List.mem_cons, not_or] at h
    rw [insertVar, if_neg (Ne.symm h.1), ih h.2, List.cons_append]

theorem vars_foldl_insert (σ : String → BitVec 64) (inputs : Inputs) :
    ∀ (done : Inputs), ((done ++ inputs).map Prod.fst).Nodup →
      (inputs.foldl (fun env input => env.insert input.1 (σ input.1))
        ⟨done.map fun input => (input.1, σ input.1)⟩ : EvalEnv).vars
        = (done ++ inputs).map fun input => (input.1, σ input.1) := by
  induction inputs with
  | nil => intro done _; simp
  | cons input inputs ih =>
    intro done hnd
    have hnew : input.1 ∉ (done.map fun input => (input.1, σ input.1)).map Prod.fst := by
      intro hmem
      simp only [List.map_append, List.map_cons, List.map_map] at hnd hmem
      have hdis := (List.nodup_append.1 hnd).2.2
      exact hdis _ hmem _ List.mem_cons_self rfl
    have hnext := ih (done ++ [input]) (by simpa using hnd)
    rw [List.foldl_cons, insert, insertVar_of_not_mem hnew]
    simpa using hnext

theorem vars_ofInputs (σ : String → BitVec 64) (hnd : (inputs.map Prod.fst).Nodup) :
    (ofInputs inputs σ).vars = inputs.map fun input => (input.1, σ input.1) := by
  simpa [ofInputs] using vars_foldl_insert σ inputs [] hnd

end EvalEnv

/-- The slots of `inputs` hold what the environment says. -/
def Binds (env : EvalEnv) (inputs : Inputs) : Prop :=
  ∀ name slot, inputs.position name = some slot → ∃ v, env.valueAt slot = some v ∧
    env.get name = some v

theorem binds_ofInputs (σ : String → BitVec 64) (hnd : (inputs.map Prod.fst).Nodup) :
    Binds (EvalEnv.ofInputs inputs σ) inputs := by
  intro name slot hpos
  rw [Inputs.position, List.findIdx?_eq_some_iff_getElem] at hpos
  obtain ⟨hlt, hname, hfirst⟩ := hpos
  rw [beq_iff_eq] at hname
  refine ⟨σ name, ?_, ?_⟩
  · rw [EvalEnv.valueAt, EvalEnv.vars_ofInputs σ hnd, List.getElem?_map,
      List.getElem?_eq_getElem hlt]
    simp [hname]
  rw [EvalEnv.get, EvalEnv.vars_ofInputs σ hnd, List.find?_map]
  have hfind : inputs.find? (fun input => input.1 == name) ≠ none := by
    rw [Ne, List.find?_eq_none]
    intro hno
    exact hno _ (List.getElem_mem hlt) (by simp [hname])
  obtain ⟨input, hin⟩ := ne_none_iff_exists'.1 hfind
  have hsame : input.1 = name := by simpa using List.find?_some hin
  have hcomp : ((fun binding : String × BitVec 64 => binding.1 == name) ∘
      fun input : String × ℕ => (input.1, σ input.1)) = fun input => input.1 == name := rfl
  rw [hcomp, hin]
  simp [hsame]

/-! ## The tree -/

attribute [local simp] tryEval FlatProg.go FlatProg.goSelect

/-- The results of the tree: words and truth values. -/
def EvalResult.IsSmall : EvalResult → Prop
  | .bv _ | .bool _ => True
  | _ => False

theorem EvalResult.IsSmall.asU128_eq {r : EvalResult} (h : r.IsSmall) :
    r.asU128 = r.asU64.setWidth 128 := by
  cases r with
  | bv v => rfl
  | bool b => cases b <;> rfl
  | bv128 | float | array | poison => exact h.elim

variable {env : EvalEnv} {inputs : Inputs}

/-- **The tree computes what the interpreter does.** -/
theorem CExpr.eval_eq (hb : Binds env inputs) (e : SmtExpr) (c : CExpr)
    (h : CExpr.compile inputs e = some c) :
    ∃ r, e.tryEval env.get = .ok r ∧ c.eval env = some r ∧ r.IsSmall := by
  induction e generalizing c with
    simp only [compile, bind_eq_bind, ite_none_left_eq_some, ite_none_right_eq_some,
      bind_eq_some_iff, Option.some.injEq, reduceCtorEq] at h
  | var name w =>
    obtain ⟨-, slot, hslot, rfl⟩ := h
    obtain ⟨v, hval, hget⟩ := hb name slot hslot
    exact ⟨.bv (mask v w), by simp [hget], by simp [eval, hval], trivial⟩
  | bvConst value w =>
    obtain ⟨hw, rfl⟩ := h
    exact ⟨.bv (mask value w), by simp [hw], rfl, trivial⟩
  | boolConst b =>
    subst h
    exact ⟨.bool b, by simp, rfl, trivial⟩
  | bvBin op lhs rhs w ihl ihr =>
    obtain ⟨⟨-, hw⟩, a, ha, b, hb, rfl⟩ := h
    obtain ⟨ra, hta, hea, -⟩ := ihl a ha
    obtain ⟨rb, htb, heb, -⟩ := ihr b hb
    refine ⟨.bv (op.word ra.asU64 rb.asU64 w), ?_, by simp [eval, hea, heb], trivial⟩
    rw [tryEval, hta, htb]
    simp [bind, Except.bind, BvBinOp.eval, hw]
  | bvNeg operand w ih =>
    obtain ⟨hw, a, ha, rfl⟩ := h
    obtain ⟨ra, hta, hea, -⟩ := ih a ha
    refine ⟨.bv (negWord ra.asU64 w), ?_, by simp [eval, hea], trivial⟩
    rw [tryEval, hta]
    simp [bind, Except.bind, evalNeg, hw]
  | eq lhs rhs ihl ihr =>
    obtain ⟨a, ha, b, hb, rfl⟩ := h
    obtain ⟨ra, hta, hea, -⟩ := ihl a ha
    obtain ⟨rb, htb, heb, -⟩ := ihr b hb
    refine ⟨.bool (ra.beq rb), ?_, by simp [eval, hea, heb], trivial⟩
    rw [tryEval, hta, htb]
    rfl
  | not operand ih =>
    obtain ⟨a, ha, rfl⟩ := h
    obtain ⟨ra, hta, hea, -⟩ := ih a ha
    refine ⟨.bool (!ra.asBool), ?_, by simp [eval, hea], trivial⟩
    rw [tryEval, hta]
    rfl
  | bvCmp op lhs rhs w ihl ihr =>
    obtain ⟨-, a, ha, b, hb, rfl⟩ := h
    obtain ⟨ra, hta, hea, -⟩ := ihl a ha
    obtain ⟨rb, htb, heb, -⟩ := ihr b hb
    refine ⟨.bool (op.word ra.asU64 rb.asU64 w), ?_, by simp [eval, hea, heb], trivial⟩
    rw [tryEval, hta, htb]
    rfl
  | and lhs rhs ihl ihr =>
    obtain ⟨a, ha, b, hb, rfl⟩ := h
    obtain ⟨ra, hta, hea, -⟩ := ihl a ha
    obtain ⟨rb, htb, heb, -⟩ := ihr b hb
    refine ⟨.bool (ra.asBool && rb.asBool), ?_, ?_, trivial⟩
    · rw [tryEval, hta, htb]
      cases h : ra.asBool <;> simp [bind, Except.bind, h]
    · cases h : ra.asBool <;> simp [eval, hea, heb, h]
  | or lhs rhs ihl ihr =>
    obtain ⟨a, ha, b, hb, rfl⟩ := h
    obtain ⟨ra, hta, hea, -⟩ := ihl a ha
    obtain ⟨rb, htb, heb, -⟩ := ihr b hb
    refine ⟨.bool (ra.asBool || rb.asBool), ?_, ?_, trivial⟩
    · rw [tryEval, hta, htb]
      cases h : ra.asBool <;> simp [bind, Except.bind, h]
    · cases h : ra.asBool <;> simp [eval, hea, heb, h]
  | ite cond thenExpr elseExpr ihc iht ihe =>
    obtain ⟨a, ha, t, ht, f, hf, rfl⟩ := h
    obtain ⟨ra, hta, hea, -⟩ := ihc a ha
    obtain ⟨rt, htt, het, hst⟩ := iht t ht
    obtain ⟨rf, htf, hef, hsf⟩ := ihe f hf
    rw [tryEval, hta]
    cases h : ra.asBool with
    | true => exact ⟨rt, by simp [bind, Except.bind, h, htt], by simp [eval, hea, h, het], hst⟩
    | false => exact ⟨rf, by simp [bind, Except.bind, h, htf], by simp [eval, hea, h, hef], hsf⟩
  | extract high low operand w ih =>
    obtain ⟨hw, a, ha, rfl⟩ := h
    obtain ⟨ra, hta, hea, hsa⟩ := ih a ha
    refine ⟨.bv (extractWord (ra.asU64.setWidth 128) low w), ?_, by simp [eval, hea], trivial⟩
    rw [tryEval, hta, ← hsa.asU128_eq]
    rfl
  | concat hi lo w ihh ihl =>
    obtain ⟨hw, a, ha, b, hb, loWidth, hlo, rfl⟩ := h
    obtain ⟨ra, hta, hea, hsa⟩ := ihh a ha
    obtain ⟨rb, htb, heb, hsb⟩ := ihl b hb
    refine ⟨.bv ((concatWord ra.asU128 rb.asU128 loWidth w).setWidth 64), ?_, ?_, trivial⟩
    · rw [tryEval, hta, htb, hlo]
      simp [bind, Except.bind, evalConcat, hw]
    · simp [eval, hea, heb, hsa.asU128_eq, hsb.asU128_eq]
  | zeroExtend operand k w ih =>
    obtain ⟨hw, a, ha, rfl⟩ := h
    obtain ⟨ra, hta, hea, hsa⟩ := ih a ha
    refine ⟨.bv (mask ra.asU64 w), ?_, by simp [eval, hea], trivial⟩
    rw [tryEval, hta]
    simp [bind, Except.bind, evalZeroExtend, hw, hsa.asU128_eq]
  | signExtend operand k w ih =>
    obtain ⟨hw, a, ha, rfl⟩ := h
    obtain ⟨ra, hta, hea, hsa⟩ := ih a ha
    refine ⟨.bv (mask (Verify.signExtend ra.asU64 (subU32 w k)) w), ?_, by simp [eval, hea],
      trivial⟩
    rw [tryEval, hta]
    simp [bind, Except.bind, evalSignExtend, hw]

/-! ## The tape -/

namespace SVal

@[simp] theorem toEval_bool (b : Bool) : (SVal.bool b).toEval = .bool b := rfl

theorem asU64_toEval (v : SVal) : v.toEval.asU64 = v.asU64 := by cases v <;> rfl

theorem asU128_toEval (v : SVal) : v.toEval.asU128 = v.asU128 := by cases v <;> rfl

theorem asBool_toEval (v : SVal) : v.toEval.asBool = v.asBool := by cases v <;> rfl

theorem beq_toEval (u v : SVal) : u.toEval.beq v.toEval = decide (u = v) := by
  cases u <;> cases v <;> simp [toEval, EvalResult.beq, Bool.beq_eq_decide_eq]

end SVal

theorem FlatOp.eval_monotone (env : EvalEnv) : Tape.Monotone (FlatOp.eval env) := by
  intro scratch extra op v h
  have unary : ∀ {i : ℕ} (k : SVal → Option SVal),
      scratch[i]?.bind k = some v → (scratch ++ extra)[i]?.bind k = some v := by
    intro i k hi
    obtain ⟨u, hu, hk⟩ := bind_eq_some_iff.1 hi
    rw [Tape.getElem?_append_some extra hu, bind_some, hk]
  have binary : ∀ {i j : ℕ} (k : SVal → SVal → Option SVal),
      (scratch[i]?.bind fun x => scratch[j]?.bind (k x)) = some v →
        ((scratch ++ extra)[i]?.bind fun x => (scratch ++ extra)[j]?.bind (k x)) = some v := by
    intro i j k hij
    obtain ⟨x, hx, hj⟩ := bind_eq_some_iff.1 hij
    rw [Tape.getElem?_append_some extra hx, bind_some, unary _ hj]
  cases op with
  | const | const128 | boolConst | var => exact h
  | bin | cmp | eq | bAnd | bOr | concat => exact binary _ h
  | neg | zExt | not | extract | sExt | memLoad => exact unary _ h
  | trap guard value =>
    simp only [FlatOp.eval, bind_eq_bind, bind_eq_some_iff] at h ⊢
    obtain ⟨x, hx, hv⟩ := h
    refine ⟨x, Tape.getElem?_append_some extra hx, ?_⟩
    split at hv
    next hp => rwa [if_pos hp]
    next hp => rw [if_neg hp, Tape.getElem?_append_some extra hv]
  | ite c t e =>
    simp only [FlatOp.eval, bind_eq_bind, bind_eq_some_iff] at h ⊢
    obtain ⟨x, hx, hv⟩ := h
    refine ⟨x, Tape.getElem?_append_some extra hx, ?_⟩
    split at hv
    next hp => rw [if_pos hp, Tape.getElem?_append_some extra hv]
    next hp => rw [if_neg hp, Tape.getElem?_append_some extra hv]

variable {scratch : List SVal}

theorem FlatOp.eval_eq {a b : ℕ} {u v : SVal} (hu : scratch[a]? = some u)
    (hv : scratch[b]? = some v) :
    (FlatOp.eq a b).eval env scratch = some (.bool (decide (u = v))) := by
  simp only [FlatOp.eval, hu, hv, bind_eq_bind, bind_some]

theorem FlatOp.eval_ite {c t e : ℕ} {x u v : SVal} (hx : scratch[c]? = some x)
    (hu : scratch[t]? = some u) (hv : scratch[e]? = some v) :
    (FlatOp.ite c t e).eval env scratch = some (if x.asBool then u else v) := by
  simp only [FlatOp.eval, hx, hu, hv, bind_eq_bind, bind_some]
  split <;> rfl

namespace SmtExpr

mutual

/-- Wherever an array is read, the index of a store in it equals the index that is read
exactly when their keys, the low words, are equal. -/
def KeysDecide (env : Env) : SmtExpr → Prop
  | .select array index =>
    index.KeysDecide env ∧ ∀ r, index.tryEval env = .ok r → array.KeysDecideAt env r
  | .store array index value =>
    array.KeysDecide env ∧ index.KeysDecide env ∧ value.KeysDecide env
  | .bvBin _ lhs rhs _ | .trapIfZero lhs rhs _ | .eq lhs rhs | .bvCmp _ lhs rhs _ | .and lhs rhs
  | .or lhs rhs | .concat lhs rhs _ => lhs.KeysDecide env ∧ rhs.KeysDecide env
  | .ite cond thenExpr elseExpr =>
    cond.KeysDecide env ∧ thenExpr.KeysDecide env ∧ elseExpr.KeysDecide env
  | .bvNeg operand _ | .not operand | .extract _ _ operand _ | .zeroExtend operand _ _
  | .signExtend operand _ _ | .constArray _ operand | .memLoad operand _ _ _ =>
    operand.KeysDecide env
  | .var _ _ | .bvConst _ _ | .boolConst _ | .foreign _ => True

/-- The same for an array that is read at the index `selected`. -/
def KeysDecideAt (env : Env) : SmtExpr → EvalResult → Prop
  | .store array index value, selected =>
    (∀ r, index.tryEval env = .ok r → (r.beq selected = true ↔ r.asU64 = selected.asU64))
      ∧ array.KeysDecideAt env selected ∧ index.KeysDecide env ∧ value.KeysDecide env
  | .ite cond thenExpr elseExpr, selected => cond.KeysDecide env
    ∧ thenExpr.KeysDecideAt env selected ∧ elseExpr.KeysDecideAt env selected
  | .constArray _ value, _ => value.KeysDecide env
  | _, _ => True

end

end SmtExpr

namespace FlatProg

open Tape

/-- Compiling the expression behind a running tape computes its value. -/
def Sound (env : EvalEnv) (inputs : Inputs) (e : SmtExpr) : Prop :=
  ∀ (t : Tape FlatOp) (scratch : List SVal) (r : ℕ × Tape FlatOp),
    Tape.run (FlatOp.eval env) t.ops [] = some scratch → go inputs e t = some r →
    e.KeysDecide env.get → ∃ v : SVal, e.tryEval env.get = .ok v.toEval ∧
      Computes (FlatOp.eval env) scratch r v

/-- Compiling a read of the array at an index computes the element under its key. -/
def SelectSound (env : EvalEnv) (inputs : Inputs) (e : SmtExpr) : Prop :=
  ∀ (t : Tape FlatOp) (scratch : List SVal) (selected : ℕ) (key : SVal) (r : ℕ × Tape FlatOp),
    Tape.run (FlatOp.eval env) t.ops [] = some scratch → scratch[selected]? = some key →
    goSelect inputs e selected t = some r → e.KeysDecideAt env.get key.toEval →
    ∃ entries default, ∃ v : SVal, e.tryEval env.get = .ok (.array entries default) ∧
      (entries.lookup key.asU64.toNat).getD default = v.toEval ∧
      Computes (FlatOp.eval env) scratch r v

section
variable {e x y : SmtExpr}

theorem sound_unary (op : ℕ → FlatOp) (g : SVal → SVal) (hx : Sound env inputs x)
    (hgo : ∀ t, go inputs e t = (go inputs x t).bind fun p => some (p.2.push (op p.1)))
    (hw : e.KeysDecide env.get → x.KeysDecide env.get)
    (hop : ∀ s a u, s[a]? = some u → (op a).eval env s = some (g u))
    (htry : ∀ u, x.tryEval env.get = .ok u.toEval → e.tryEval env.get = .ok (g u).toEval) :
    Sound env inputs e := by
  intro t scratch r hrun h hwe
  rw [hgo, bind_eq_some_iff] at h
  obtain ⟨⟨a, t1⟩, hgo1, hr⟩ := h
  obtain ⟨u, hu, extra, hrun1, hslot⟩ := hx t scratch _ hrun hgo1 (hw hwe)
  rw [← Option.some.inj hr]
  exact ⟨g u, htry u hu, (push_computes (FlatOp.eval_monotone env) hrun1 (hop _ a u hslot)).trans⟩

theorem sound_binary (op : ℕ → ℕ → FlatOp) (g : SVal → SVal → SVal) (hx : Sound env inputs x)
    (hy : Sound env inputs y) (hgo : ∀ t r, go inputs e t = some r → ((go inputs x t).bind fun p =>
      (go inputs y p.2).bind fun q => some (q.2.push (op p.1 q.1))) = some r)
    (hw : e.KeysDecide env.get → x.KeysDecide env.get ∧ y.KeysDecide env.get)
    (hop : ∀ s a b u v, s[a]? = some u → s[b]? = some v → (op a b).eval env s = some (g u v))
    (htry : ∀ u v, x.tryEval env.get = .ok u.toEval → y.tryEval env.get = .ok v.toEval →
      e.tryEval env.get = .ok (g u v).toEval) : Sound env inputs e := by
  intro t scratch r hrun h hwe
  replace h := hgo t r h
  simp only [bind_eq_some_iff, Prod.exists, Option.some.injEq] at h
  obtain ⟨a, t1, hgo1, b, t2, hgo2, rfl⟩ := h
  obtain ⟨u, hu, extra, hrun1, hslot⟩ := hx t scratch _ hrun hgo1 (hw hwe).1
  obtain ⟨v, hv, extra', hrun2, hslot'⟩ := hy t1 _ _ hrun1 hgo2 (hw hwe).2
  have hkeep := getElem?_append_some extra' hslot
  exact ⟨g u v, htry u v hu hv,
    (push_computes (FlatOp.eval_monotone env) hrun2 (hop _ a b u v hkeep hslot')).trans.trans⟩

end

variable {e : SmtExpr}

theorem selectSound_of_none (h : ∀ selected t, goSelect inputs e selected t = none) :
    SelectSound env inputs e := by
  intro t scratch selected key r _ _ hgo
  rw [h selected t] at hgo
  cases hgo

theorem sound_of_none (h : ∀ t, go inputs e t = none) : Sound env inputs e := by
  intro t scratch r _ hgo
  rw [h t] at hgo
  cases hgo

variable {array index value : SmtExpr}

theorem selectSound_store (hindex : Sound env inputs index) (hvalue : Sound env inputs value)
    (harray : SelectSound env inputs array) :
    SelectSound env inputs (.store array index value) := by
  intro t scratch selected key r hrun hsel hgo hw
  obtain ⟨hword, hwa, hwi, hwv⟩ := hw
  simp only [goSelect, bind_eq_bind, bind_eq_some_iff,
    ite_none_left_eq_some, Prod.exists, Option.some.injEq] at hgo
  obtain ⟨indexWidth, -, -, i, t1, hgoi, v, t2, hgov, prior, t3, hgop, rfl⟩ := hgo
  obtain ⟨ui, htryi, extra1, hrun1, hslot1⟩ := hindex t scratch _ hrun hgoi hwi
  have hkey := hword _ htryi
  obtain ⟨uv, htryv, extra2, hrun2, hslot2⟩ := hvalue t1 _ _ hrun1 hgov hwv
  obtain ⟨entries, default, up, htrya, hlook, extra3, hrun3, hslot3⟩ :=
    harray t2 _ selected key _ hrun2
      (getElem?_append_some _ (getElem?_append_some _ hsel)) hgop hwa
  rw [SVal.beq_toEval, decide_eq_true_iff, SVal.asU64_toEval, SVal.asU64_toEval] at hkey
  -- the comparison of the two indices, then the choice
  have hs1 := getElem?_append_some extra3 (getElem?_append_some extra2 hslot1)
  have hsel3 := getElem?_append_some extra3 (getElem?_append_some extra2
    (getElem?_append_some extra1 hsel))
  obtain ⟨extra4, hrun4, hslot4⟩ :=
    push_computes (FlatOp.eval_monotone env) hrun3 (FlatOp.eval_eq hs1 hsel3)
  have hs2 := getElem?_append_some extra4 (getElem?_append_some extra3 hslot2)
  have hs3 := getElem?_append_some extra4 hslot3
  refine ⟨SortedMap.insertEntry ui.asU64.toNat uv.toEval entries, default, _, ?_, ?_,
    (push_computes (FlatOp.eval_monotone env) hrun4
      (FlatOp.eval_ite hslot4 hs2 hs3)).trans.trans.trans.trans⟩
  · rw [tryEval, htrya, htryi, htryv, ← SVal.asU64_toEval]
    rfl
  rw [SortedMap.lookup_insertEntry]
  by_cases h : ui = key
  · simp [h, SVal.asBool]
  have hne : ¬ key.asU64.toNat = ui.asU64.toNat := fun heq =>
    h (hkey.2 (BitVec.eq_of_toNat_eq heq.symm))
  simp [h, hne, hlook, SVal.asBool]

variable {thenExpr elseExpr : SmtExpr}

variable {cond : SmtExpr}

theorem selectSound_ite (hcond : Sound env inputs cond) (hthen : SelectSound env inputs thenExpr)
    (helse : SelectSound env inputs elseExpr) :
    SelectSound env inputs (.ite cond thenExpr elseExpr) := by
  intro t scratch selected key r hrun hsel hgo hw
  obtain ⟨hwc, hwt, hwe⟩ := hw
  simp only [goSelect, bind_eq_bind, bind_eq_some_iff, Prod.exists, Option.some.injEq] at hgo
  obtain ⟨c, t1, hgoc, th, t2, hgot, el, t3, hgoe, rfl⟩ := hgo
  obtain ⟨uc, htryc, extra1, hrun1, hslot1⟩ := hcond t scratch _ hrun hgoc hwc
  obtain ⟨es, d, ut, htryt, hlookt, extra2, hrun2, hslot2⟩ :=
    hthen t1 _ selected key _ hrun1 (getElem?_append_some _ hsel) hgot hwt
  obtain ⟨es', d', ue, htrye, hlooke, extra3, hrun3, hslot3⟩ := helse t2 _ selected key _ hrun2
      (getElem?_append_some _ (getElem?_append_some _ hsel)) hgoe hwe
  have hs1 := getElem?_append_some extra3 (getElem?_append_some extra2 hslot1)
  have hs2 := getElem?_append_some extra3 hslot2
  have hcomp := (push_computes (FlatOp.eval_monotone env) hrun3
    (FlatOp.eval_ite hs1 hs2 hslot3)).trans.trans.trans
  rw [tryEval, htryc]
  cases h : uc.asBool with
  | true =>
    rw [h, if_pos rfl] at hcomp
    refine ⟨es, d, ut, ?_, hlookt, hcomp⟩
    simp [bind, Except.bind, SVal.asBool_toEval, h, htryt]
  | false =>
    rw [h, if_neg Bool.false_ne_true] at hcomp
    refine ⟨es', d', ue, ?_, hlooke, hcomp⟩
    simp [bind, Except.bind, SVal.asBool_toEval, h, htrye]

theorem selectSound_constArray {indexSort : SmtSort} (hvalue : Sound env inputs value) :
    SelectSound env inputs (.constArray indexSort value) := by
  intro t scratch selected key r hrun _ hgo hw
  rw [goSelect] at hgo
  obtain ⟨u, htry, hcomp⟩ := hvalue t scratch r hrun hgo hw
  refine ⟨[], u.toEval, u, ?_, rfl, hcomp⟩
  rw [tryEval, htry]
  rfl

theorem sound_select (harray : SelectSound env inputs array) (hindex : Sound env inputs index) :
    Sound env inputs (.select array index) := by
  intro t scratch r hrun hgo hw
  obtain ⟨hwi, hwa⟩ := hw
  simp only [go, bind_eq_bind, bind_eq_some_iff, ite_none_left_eq_some, Prod.exists] at hgo
  obtain ⟨indexWidth, -, -, i, t1, hgoi, hgoa⟩ := hgo
  obtain ⟨ui, htryi, extra, hrun1, hslot⟩ := hindex t scratch _ hrun hgoi hwi
  obtain ⟨entries, default, u, htrya, hlook, hcomp⟩ :=
    harray t1 _ i ui r hrun1 hslot hgoa (hwa _ htryi)
  refine ⟨u, ?_, hcomp.trans⟩
  rw [tryEval, htrya, htryi, ← hlook, ← SVal.asU64_toEval]
  rfl

theorem sound_ite (hcond : Sound env inputs cond) (hthen : Sound env inputs thenExpr)
    (helse : Sound env inputs elseExpr) : Sound env inputs (.ite cond thenExpr elseExpr) := by
  intro t scratch r hrun hgo hw
  obtain ⟨hwc, hwt, hwe⟩ := hw
  simp only [go, bind_eq_bind, bind_eq_some_iff, Prod.exists, Option.some.injEq] at hgo
  obtain ⟨c, t1, hgoc, th, t2, hgot, el, t3, hgoe, rfl⟩ := hgo
  obtain ⟨uc, htryc, extra1, hrun1, hslot1⟩ := hcond t scratch _ hrun hgoc hwc
  obtain ⟨ut, htryt, extra2, hrun2, hslot2⟩ := hthen t1 _ _ hrun1 hgot hwt
  obtain ⟨ue, htrye, extra3, hrun3, hslot3⟩ := helse t2 _ _ hrun2 hgoe hwe
  have hs1 := getElem?_append_some extra3 (getElem?_append_some extra2 hslot1)
  have hs2 := getElem?_append_some extra3 hslot2
  refine ⟨if uc.asBool then ut else ue, ?_, (push_computes (FlatOp.eval_monotone env) hrun3
    (FlatOp.eval_ite hs1 hs2 hslot3)).trans.trans.trans⟩
  rw [tryEval, htryc]
  cases h : uc.asBool <;> simp [bind, Except.bind, SVal.asBool_toEval, h, htryt, htrye]

theorem evalTrap_toEval (u v : SVal) : evalTrap u.toEval (.ok v.toEval)
      = .ok (if u = .poison ∨ u.asU128 = 0 then .poison else v).toEval := by
  by_cases hp : u = .poison
  · subst hp
    rfl
  have heq : ∀ value, evalTrap u.toEval value
      = if u.asU128 = 0 then .ok .poison else value := by
    intro value
    cases u with
    | poison => exact absurd rfl hp
    | bv | bv128 | bool => rfl
  rw [heq]
  by_cases hz : u.asU128 = 0
  · rw [if_pos hz, if_pos (.inr hz)]
    rfl
  · rw [if_neg hz, if_neg (not_or.2 ⟨hp, hz⟩)]

/-- **The tape computes what the interpreter does**, expression by expression. -/
theorem sound (hb : Binds env inputs) (e : SmtExpr) :
    Sound env inputs e ∧ SelectSound env inputs e := by
  induction e with
    -- only arrays can be selected from
    try refine ⟨?_, selectSound_of_none fun _ _ => rfl⟩
  | var name w =>
    intro t scratch r hrun hgo _
    simp only [go, bind_eq_bind, bind_eq_some_iff, Option.some.injEq] at hgo
    obtain ⟨slot, hslot, rfl⟩ := hgo
    obtain ⟨v, hval, hget⟩ := hb name slot hslot
    refine ⟨.bv (mask v w), by simp [hget, SVal.toEval], ?_⟩
    exact push_computes (FlatOp.eval_monotone env) hrun (by simp [FlatOp.eval, hval])
  | bvConst value w =>
    intro t scratch r hrun hgo _
    simp only [go, Option.some.injEq] at hgo
    subst hgo
    by_cases hw : 64 < w
    · refine ⟨.bv128 (value.setWidth 128), by simp [hw, SVal.toEval], ?_⟩
      rw [if_pos hw]
      exact push_computes (FlatOp.eval_monotone env) hrun rfl
    refine ⟨.bv (mask value w), by simp [hw, SVal.toEval], ?_⟩
    rw [if_neg hw]
    exact push_computes (FlatOp.eval_monotone env) hrun rfl
  | boolConst b =>
    intro t scratch r hrun hgo _
    simp only [go, Option.some.injEq] at hgo
    subst hgo
    exact ⟨.bool b, by simp [SVal.toEval], push_computes (FlatOp.eval_monotone env) hrun rfl⟩
  | bvBin op lhs rhs w ihl ihr =>
    refine sound_binary (.bin op · · w)
      (fun u v => if 64 < w ∧ op ≠ .urem then .bv128 (op.word u.asU128 v.asU128 w)
        else .bv (op.word u.asU64 v.asU64 w)) ihl.1 ihr.1 ?_ id
      (fun _ _ _ _ _ hu hv => by simp [FlatOp.eval, hu, hv, apply_ite some]) ?_
    · intro t r h
      exact (ite_none_left_eq_some.1 h).2
    intro u v hu hv
    rw [tryEval, hu, hv]
    simp only [bind, Except.bind, BvBinOp.eval, SVal.asU128_toEval, SVal.asU64_toEval]
    split <;> rfl
  | trapIfZero guard value w ihg ihv =>
    refine sound_binary .trap (fun u v => if u = .poison ∨ u.asU128 = 0 then .poison else v)
      ihg.1 ihv.1 (fun _ _ h => h) id
      (fun _ _ _ _ _ hu hv => by simp [FlatOp.eval, hu, hv, apply_ite some]) ?_
    intro u v hu hv
    rw [tryEval, hu, hv, ← evalTrap_toEval]
    rfl
  | bvNeg operand w ih =>
    refine sound_unary (.neg · w)
      (fun u => if 64 < w then .bv128 (negWord u.asU128 w) else .bv (negWord u.asU64 w)) ih.1
      (fun _ => rfl) id (fun _ _ _ hu => by simp [FlatOp.eval, hu, apply_ite some]) ?_
    intro u hu
    rw [tryEval, hu]
    simp only [bind, Except.bind, evalNeg, SVal.asU128_toEval, SVal.asU64_toEval]
    split <;> rfl
  | eq lhs rhs ihl ihr =>
    refine sound_binary .eq (fun u v => .bool (decide (u = v))) ihl.1 ihr.1 (fun _ _ h => h) id
      (fun _ _ _ _ _ => FlatOp.eval_eq) ?_
    intro u v hu hv
    rw [tryEval, hu, hv, SVal.toEval_bool, ← SVal.beq_toEval]
    rfl
  | not operand ih =>
    refine sound_unary .not (fun u => .bool (!u.asBool)) ih.1 (fun _ => rfl) id
      (fun _ _ _ hu => by simp [FlatOp.eval, hu]) ?_
    intro u hu
    rw [tryEval, hu, SVal.toEval, ← SVal.asBool_toEval]
    rfl
  | bvCmp op lhs rhs w ihl ihr =>
    refine sound_binary (.cmp op · · w) (fun u v => .bool (op.word u.asU64 v.asU64 w)) ihl.1
      ihr.1 (fun _ _ h => h) id (fun _ _ _ _ _ hu hv => by simp [FlatOp.eval, hu, hv]) ?_
    intro u v hu hv
    rw [tryEval, hu, hv, SVal.toEval, ← SVal.asU64_toEval, ← SVal.asU64_toEval]
    rfl
  | and lhs rhs ihl ihr =>
    refine sound_binary .bAnd (fun u v => .bool (u.asBool && v.asBool)) ihl.1 ihr.1
      (fun _ _ h => h) id (fun _ _ _ _ _ hu hv => by simp [FlatOp.eval, hu, hv]) ?_
    intro u v hu hv
    rw [tryEval, hu, hv]
    cases h : u.asBool <;> simp [bind, Except.bind, SVal.asBool_toEval, h]
  | or lhs rhs ihl ihr =>
    refine sound_binary .bOr (fun u v => .bool (u.asBool || v.asBool)) ihl.1 ihr.1
      (fun _ _ h => h) id (fun _ _ _ _ _ hu hv => by simp [FlatOp.eval, hu, hv]) ?_
    intro u v hu hv
    rw [tryEval, hu, hv]
    cases h : u.asBool <;> simp [bind, Except.bind, SVal.asBool_toEval, h]
  | ite cond thenExpr elseExpr ihc iht ihe =>
    exact ⟨sound_ite ihc.1 iht.1 ihe.1, selectSound_ite ihc.1 iht.2 ihe.2⟩
  | extract high low operand w ih =>
    refine sound_unary (.extract · low w) (fun u => .bv (extractWord u.asU128 low w)) ih.1
      (fun _ => rfl) id (fun _ _ _ hu => by simp [FlatOp.eval, hu]) ?_
    intro u hu
    rw [tryEval, hu, SVal.toEval, ← SVal.asU128_toEval]
    rfl
  | concat hi lo w ihl ihr =>
    cases hlo : lo.bvWidth with
    | none => exact sound_of_none fun _ => by simp [hlo]
    | some loWidth =>
      refine sound_binary (.concat · · loWidth w)
        (fun u v => if w ≤ 64 then .bv ((concatWord u.asU128 v.asU128 loWidth w).setWidth 64)
          else .bv128 (concatWord u.asU128 v.asU128 loWidth w)) ihl.1 ihr.1 ?_ id
        (fun _ _ _ _ _ hu hv => by simp [FlatOp.eval, hu, hv, apply_ite some]) ?_
      · intro t r h
        rwa [go, hlo] at h
      intro u v hu hv
      rw [tryEval, hu, hv, hlo]
      simp only [bind, Except.bind, evalConcat, SVal.asU128_toEval]
      split <;> rfl
  | zeroExtend operand k w ih =>
    refine sound_unary (.zExt · w) (fun u => if 64 < w then .bv128 (mask128 u.asU128 w)
      else .bv (mask (u.asU128.setWidth 64) w)) ih.1 (fun _ => rfl) id
      (fun _ _ _ hu => by simp [FlatOp.eval, hu, apply_ite some]) ?_
    intro u hu
    rw [tryEval, hu]
    simp only [bind, Except.bind, evalZeroExtend, SVal.asU128_toEval]
    split <;> rfl
  | signExtend operand k w ih =>
    refine sound_unary (.sExt · (subU32 w k) w)
      (fun u => if 64 < w then .bv128 (mask128 (signExtend128 u.asU128 (subU32 w k)) w)
        else .bv (mask (signExtend u.asU64 (subU32 w k)) w)) ih.1 (fun _ => rfl) id
      (fun _ _ _ hu => by simp [FlatOp.eval, hu, apply_ite some]) ?_
    intro u hu
    rw [tryEval, hu]
    simp only [bind, Except.bind, evalSignExtend, SVal.asU128_toEval, SVal.asU64_toEval]
    split <;> rfl
  | select array index iha ihi => exact sound_select iha.2 ihi.1
  | store array index value iha ihi ihv =>
    exact ⟨sound_of_none fun _ => by simp, selectSound_store ihi.1 ihv.1 iha.2⟩
  | constArray indexSort value ih =>
    exact ⟨sound_of_none fun _ => by simp, selectSound_constArray ih.1⟩
  | memLoad addr loadBits signed w ih =>
    refine sound_unary (.memLoad · loadBits signed w)
      (fun u => .bv (memLoad u.asU64 loadBits signed w)) ih.1 (fun _ => rfl) id
      (fun _ _ _ hu => by simp [FlatOp.eval, hu]) ?_
    intro u hu
    rw [tryEval, hu, SVal.toEval, ← SVal.asU64_toEval]
    rfl
  | foreign node => exact sound_of_none fun _ => by simp

/-- **The tape computes what the interpreter does.** -/
theorem eval_eq (hb : Binds env inputs) {p : FlatProg} (hp : FlatProg.compile inputs e = some p)
    (hw : e.KeysDecide env.get) : ∃ r, e.tryEval env.get = .ok r ∧ p.eval env = some r := by
  simp only [compile, bind_eq_bind, bind_eq_some_iff, Prod.exists, Option.some.injEq] at hp
  obtain ⟨root, t, hgo, rfl⟩ := hp
  obtain ⟨v, htry, extra, hrun, hslot⟩ := (sound hb e).1 Tape.empty [] _ rfl hgo hw
  refine ⟨v.toEval, htry, ?_⟩
  simp only [eval, hrun, hslot, bind_eq_bind, bind_some]

end FlatProg

/-! ## Both evaluators on the declared inputs -/

/-- **The compiled evaluators return what the interpreter returns.** The tree does so
always, the tape when the indices it compares are equal exactly when their keys are. -/
theorem compiled_eval_eq (inputs : Inputs) (hnd : (inputs.map Prod.fst).Nodup)
    (σ : String → BitVec 64) (e : SmtExpr) :
    (∀ c, CExpr.compile inputs e = some c → ∃ r, e.tryEval (EvalEnv.ofInputs inputs σ).get = .ok r ∧
        c.eval (EvalEnv.ofInputs inputs σ) = some r) ∧
    (e.KeysDecide (EvalEnv.ofInputs inputs σ).get → ∀ p, FlatProg.compile inputs e = some p →
      ∃ r, e.tryEval (EvalEnv.ofInputs inputs σ).get = .ok r ∧
        p.eval (EvalEnv.ofInputs inputs σ) = some r) := by
  have hb := binds_ofInputs σ hnd
  refine ⟨?_, fun hw p hp => FlatProg.eval_eq hb hp hw⟩
  intro c hc
  obtain ⟨r, htry, heval, -⟩ := CExpr.eval_eq hb e c hc
  exact ⟨r, htry, heval⟩

/-- The element at `u64::MAX` of an array whose only entry is stored under an index that
traps when `d` is zero. -/
def poisonedStore : SmtExpr :=
  .select
    (.store (.constArray (.bitVec 64) (.bvConst 0 64))
      (.trapIfZero (.var "d" 64) (.bvConst 5 64) 64) (.bvConst 1 64))
    (.bvConst (BitVec.allOnes 64) 64)

/-- A read of a constant array at an index that is always poisoned. -/
def poisonedRead : SmtExpr :=
  .select (.constArray (.bitVec 64) (.bvConst 3 64))
    (.trapIfZero (.bvConst 0 64) (.bvConst 5 64) 64)

/-- With `d` not zero the two indices have different keys.  A read of a constant array
compares nothing, so a poisoned index does no harm. -/
theorem poisonedStore_defined : (∃ r p, FlatProg.compile [("d", 64)] poisonedStore = some p ∧
      poisonedStore.tryEval (EvalEnv.ofInputs [("d", 64)] fun _ => 1).get = .ok r ∧
      p.eval (EvalEnv.ofInputs [("d", 64)] fun _ => 1) = some r)
    ∧ ∃ r p, FlatProg.compile [] poisonedRead = some p ∧
      poisonedRead.tryEval (EvalEnv.ofInputs [] fun _ => 0).get = .ok r ∧
      p.eval (EvalEnv.ofInputs [] fun _ => 0) = some r := by
  constructor
  · have hkeys : poisonedStore.KeysDecide (EvalEnv.ofInputs [("d", 64)] fun _ => 1).get := by
      refine ⟨trivial, fun sel hsel => ⟨fun r hr => ?_, trivial, ⟨trivial, trivial⟩, trivial⟩⟩
      cases hsel
      cases hr
      decide
    obtain ⟨r, htry, heval⟩ :=
      (compiled_eval_eq [("d", 64)] (by decide) (fun _ => 1) poisonedStore).2 hkeys _ rfl
    exact ⟨r, _, rfl, htry, heval⟩
  · obtain ⟨r, htry, heval⟩ := (compiled_eval_eq [] (by decide) (fun _ => 0) poisonedRead).2
      ⟨⟨trivial, trivial⟩, fun _ _ => trivial⟩ _ rfl
    exact ⟨r, _, rfl, htry, heval⟩

/-- With `d` zero the interpreter finds the entry, since poison has the key `u64::MAX`; the
tape does not, since poison is not equal to the word `u64::MAX`. -/
theorem flatProg_poisoned_index : ∃ p, FlatProg.compile [("d", 64)] poisonedStore = some p ∧
      poisonedStore.tryEval (EvalEnv.ofInputs [("d", 64)] fun _ => 0).get = .ok (.bv 1) ∧
      p.eval (EvalEnv.ofInputs [("d", 64)] fun _ => 0) = some (.bv 0) :=
  ⟨_, rfl, rfl, rfl⟩

/-! ## Down to the theory -/

section

variable {e e' : SmtExpr} {s : SmtSort} (hs : e.WellSorted s)
include hs

/-- Sorted expressions read no array. -/
theorem keysDecide_of_wellSorted {env : Env} : e.KeysDecide env := by
  induction hs <;> simp_all [SmtExpr.KeysDecide]

theorem tryEval_mono {env env' : Env} (hle : ∀ n v, env n = some v → env' n = some v) :
    ∀ r, e.tryEval env = .ok r → e.tryEval env' = .ok r := by
  induction hs <;> intro r hr <;> simp only [tryEval, bind, Except.bind] at hr ⊢ <;> grind

variable (hnd : (inputs.map Prod.fst).Nodup) (σ : String → BitVec 64) {p p' : FlatProg}
  (hp : FlatProg.compile inputs e = some p)
include hnd hp

theorem eval_of_wellSorted :
    ∃ r, e.tryEval (fun n => some (σ n)) = .ok r ∧ p.eval (.ofInputs inputs σ) = some r := by
  obtain ⟨r, htry, heval⟩ :=
    FlatProg.eval_eq (binds_ofInputs σ hnd) hp (keysDecide_of_wellSorted hs)
  refine ⟨r, tryEval_mono hs (fun n v hn => ?_) r htry, heval⟩
  rw [EvalEnv.get, EvalEnv.vars_ofInputs σ hnd, map_eq_some_iff] at hn
  obtain ⟨b, hfind, rfl⟩ := hn
  have hname := List.find?_some hfind
  have hmem := List.mem_of_find?_eq_some hfind
  grind

/-- **Two tapes** compare as the sides do in the theory. -/
theorem compiled_sides_equal_iff (hs' : e'.WellSorted s)
    (hp' : FlatProg.compile inputs e' = some p') (hw : e.AtReached (SmtExpr.LowWordsDo σ) σ)
    (hw' : e'.AtReached (SmtExpr.LowWordsDo σ) σ) :
    ∃ r r', p.eval (.ofInputs inputs σ) = some r ∧ p'.eval (.ofInputs inputs σ) = some r' ∧
      (r.semanticallyEqual r' = true ↔ e.denote σ = e'.denote σ) := by
  obtain ⟨r, htry, heval⟩ := eval_of_wellSorted hs hnd σ hp
  obtain ⟨r', htry', heval'⟩ := eval_of_wellSorted hs' hnd σ hp'
  obtain ⟨_, _, ha, hb, hcmp, hsem⟩ := (tryEval_agrees σ hs hw).eq
    (fun w h => (hs.bvWidth_eq w h).2.2) (tryEval_agrees σ hs' hw')
  cases htry.symm.trans ha
  cases htry'.symm.trans hb
  exact ⟨r, r', heval, heval', by rw [hsem, hcmp, decide_eq_true_iff]⟩

end

theorem compiled_sides_equal_iff_byte : ∃ p r, FlatProg.compile [("x", 8)] (.var "x" 8) = some p ∧
    p.eval (.ofInputs [("x", 8)] 7) = some r ∧ r.semanticallyEqual (.bv 7) = true := by
  obtain ⟨r, r', hr, hr', hiff⟩ := @compiled_sides_equal_iff [("x", 8)] (.var "x" 8)
    (.bvConst 7 8) _ (.var (by decide) (by decide)) (by decide) 7 _ _ rfl
    (.bvConst (by decide) (by decide)) rfl ⟨trivial, trivial⟩ ⟨trivial, trivial⟩
  cases hr'
  exact ⟨_, r, rfl, hr, hiff.2 rfl⟩

end TrustCg.Verify
