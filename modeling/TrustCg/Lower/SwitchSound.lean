import TrustCg.Lower.SwitchChecks
import TrustCg.Lower.SwitchCode

/-!
# A lowered switch dispatches

The constants of the adapter and the register of the selector agree on the number of a
selector, and so the lowered code follows the source.

* `validate_spec` : accepted constants are distinct and have the selector's width.
* `cleanSwitchSelector_spec` : the cleaned register shows the selector's number.
* `selectSwitch_dispatches` : the switch, under every strategy.
-/

namespace TrustCg.Lower.A64

open List
open Prod (fst snd)

/-! ## The selector's number -/

/-- The number that stands for a residue: narrow selectors are zero-extended. -/
def residueNumber (bits : ℕ) (n : ℤ) : ℤ :=
  if bits ≤ 16 then n else if n ≥ 2 ^ (bits - 1) then n - 2 ^ bits else n

/-- A case constant equals the selector modulo its width. -/
def Constant.Matches (bits : ℕ) (v : BitVec 64) : Constant → Bool
  | .int raw => raw % 2 ^ bits == (v.toNat : ℤ) % 2 ^ bits
  | .other => false

/-- The target that the source gives a selector. -/
def sourceTarget (bits : ℕ) (cases : List (Constant × Block)) (default : Block)
    (v : BitVec 64) : Block :=
  ((cases.find? fun c => c.1.Matches bits v).map snd).getD default

section

variable {ty : SelectorTy} {v : BitVec 64} {z : ℤ} {value : Constant} {sel : VReg}

theorem residueNumber_fits (ty : SelectorTy) (raw : ℤ) :
    Fits ty.cls (residueNumber ty.bits (raw % 2 ^ ty.bits)) := by
  unfold Fits residueNumber
  cases ty <;> simp only [SelectorTy.bits, RegClass.bits] <;> omega

theorem residueNumber_inj (ty : SelectorTy) (a b : ℤ) :
    residueNumber ty.bits (a % 2 ^ ty.bits) = residueNumber ty.bits (b % 2 ^ ty.bits)
      ↔ a % 2 ^ ty.bits = b % 2 ^ ty.bits := by
  unfold residueNumber
  cases ty <;> simp only [SelectorTy.bits] <;> omega

section

variable (h : normalizeSwitchCaseValue value ty.bits = .ok z)
include h

theorem normalize_eq : ∃ raw, value = .int raw ∧ z = residueNumber ty.bits (raw % 2 ^ ty.bits) := by
  cases value with
  | other => cases h
  | int raw =>
    refine ⟨raw, rfl, ?_⟩
    change (if -2 ^ 63 ≤ residueNumber ty.bits (raw % 2 ^ ty.bits)
        ∧ residueNumber ty.bits (raw % 2 ^ ty.bits) < 2 ^ 63
      then Except.ok (residueNumber ty.bits (raw % 2 ^ ty.bits)) else _) = _ at h
    split at h
    · exact (Except.ok.inj h).symm
    · cases h

/-- The number of a selector register, as its cases are normalized. -/
def selectorNumber (ty : SelectorTy) (v : BitVec 64) : ℤ :=
  residueNumber ty.bits ((v.toNat : ℤ) % 2 ^ ty.bits)

/-- A constant has the selector's number when it equals the selector modulo the width. -/
theorem matches_iff : value.Matches ty.bits v = decide (selectorNumber ty v = z) := by
  obtain ⟨raw, rfl, rfl⟩ := normalize_eq h
  rw [Constant.Matches, Bool.eq_iff_iff, beq_iff_eq, decide_eq_true_iff, selectorNumber,
    residueNumber_inj]
  exact eq_comm

end

/-- **The adapter.**  The constants it accepts fit the selector, are distinct, and lead a
selector to the same target as the source. -/
theorem validate_spec (cases : List (Constant × Block)) (seen norm : List ℤ)
    (h : validateSwitchCaseValues ty.bits seen (cases.map fst) = .ok norm) :
    norm.length = cases.length ∧ (∀ z ∈ norm, Fits ty.cls z ∧ z ∉ seen) ∧ norm.Nodup
      ∧ ∀ default v, dispatch (norm.zip (cases.map snd)) default (selectorNumber ty v)
        = sourceTarget ty.bits cases default v := by
  induction cases generalizing seen norm with
  | nil =>
    cases h
    exact ⟨rfl, by simp, nodup_nil, fun _ _ => rfl⟩
  | cons c cases ih =>
    rw [map_cons, validateSwitchCaseValues] at h
    obtain ⟨z, hz, h⟩ := Outcome.bind_eq_ok.mp h
    split at h
    · cases h
    rename_i hseen
    obtain ⟨rest, hrest, h⟩ := Outcome.bind_eq_ok.mp h
    cases h
    obtain ⟨hlen, hfits, hnodup, hdisp⟩ := ih _ _ hrest
    obtain ⟨raw, -, hraw⟩ := normalize_eq hz
    refine ⟨congrArg (· + 1) hlen, ?_, ?_, fun default v => ?_⟩
    · refine forall_mem_cons.mpr ⟨⟨hraw ▸ residueNumber_fits ty raw, hseen⟩, ?_⟩
      exact fun y hy => ⟨(hfits y hy).1, fun hmem => (hfits y hy).2 (.tail _ hmem)⟩
    · exact nodup_cons.mpr ⟨fun hmem => (hfits z hmem).2 mem_cons_self, hnodup⟩
    rw [map_cons, zip_cons_cons, sourceTarget, find?_cons, matches_iff hz]
    by_cases heq : selectorNumber ty v = z
    · rw [decide_eq_true heq, dispatch_cons_self heq]
      rfl
    rw [decide_eq_false heq, dispatch_cons_of_ne heq]
    exact hdisp default v

theorem eq_ofInt_of_emod {w : ℕ} {b : BitVec w} (h : z % 2 ^ w = b.toNat) :
    b = BitVec.ofInt w z := by
  apply BitVec.eq_of_toNat_eq
  rw [BitVec.toNat_ofInt]
  push_cast
  rw [h, Int.toNat_natCast]

/-- What a cleaned selector is for: its register is in use, has the class of its type, and
the code before it makes it show the number of the selector. -/
structure Cleaned (f : Func) (sel : VReg) (ty : SelectorTy) (block : ℕ) (f₁ : Func)
    (sel₁ : VReg) (code : List FlowInst) : Prop where
  emitted : Emitted f f₁ block code
  cls : sel₁.cls = ty.cls
  lt : sel₁.id < f₁.nextVreg
  nextBlockId : f₁.nextBlockId = f.nextBlockId
  jumpTables : f₁.jumpTables = f.jumpTables
  exits : ∀ (P : Program) (rest : List FlowInst) (ρ : Regs) (fl : Flags) (t : Block),
    (∀ σ : Regs, Shows σ sel₁ (selectorNumber ty (ρ sel.id)) → Exits P ⟨.code rest, σ, fl⟩ t) →
    Exits P ⟨.code (code ++ rest), ρ, fl⟩ t

theorem cleaned_ext (f : Func) (sel : VReg) (block : ℕ) {op : ExtOp} (hcls : ty.cls = .gpr32)
    (hop : ∀ v : BitVec 64, view .gpr32 (op.value v) = BitVec.ofInt 32 (selectorNumber ty v)) :
    Cleaned f sel ty block
      { f.push block [.data (.ext op ⟨f.nextVreg, .gpr32⟩ (.vreg sel))] with
        nextVreg := f.nextVreg + 1 }
      ⟨f.nextVreg, .gpr32⟩ [.data (.ext op ⟨f.nextVreg, .gpr32⟩ (.vreg sel))] where
  emitted := { Emitted.push f block _ with nextVreg_le := Nat.le_succ _ }
  cls := hcls.symm
  lt := Nat.lt_succ_self _
  nextBlockId := rfl
  jumpTables := rfl
  exits P rest ρ fl t h := by
    refine .step (h _ ?_)
    have hself := step_self (.ext op ⟨f.nextVreg, .gpr32⟩ (.vreg sel)) ρ
    exact (congrArg (view .gpr32) hself).trans (hop (ρ sel.id))

section

variable (f : Func) (hcls : sel.cls = ty.cls) (hsel : sel.id < f.nextVreg) (block : ℕ)
include hcls hsel

theorem cleaned_self
    (hown : ∀ v : BitVec 64, view ty.cls v = BitVec.ofInt ty.cls.bits (selectorNumber ty v)) :
    Cleaned f sel ty block f sel [] where
  emitted := ⟨(append_nil _).symm, fun _ _ _ => rfl, fun h _ => h, Nat.le_refl _, Nat.le_refl _⟩
  cls := hcls
  lt := hsel
  nextBlockId := rfl
  jumpTables := rfl
  exits P rest ρ fl t h := h ρ (by rw [Shows, hcls]; exact hown (ρ sel.id))

theorem cleanSwitchSelector_spec :
    ∃ code, Cleaned f sel ty block (cleanSwitchSelector f sel ty block).1
      (cleanSwitchSelector f sel ty block).2 code := by
  cases ty with
  | i8 | i16 =>
    refine ⟨_, cleaned_ext f sel block rfl fun v => eq_ofInt_of_emod ?_⟩
    simp only [selectorNumber, residueNumber, SelectorTy.bits, ExtOp.value, view,
      BitVec.toNat_setWidth, RegClass.bits]
    omega
  | i32 | i64 =>
    refine ⟨_, cleaned_self f hcls hsel block fun v => eq_ofInt_of_emod ?_⟩
    simp only [selectorNumber, residueNumber, SelectorTy.bits, view, BitVec.toNat_setWidth,
      SelectorTy.cls, RegClass.bits]
    omega

end

end

/-! ## The switch -/

/-- The memory image of a function: an entry of a table is the distance from the table to the
block of its target. -/
structure Layout (tables : List (ℤ × List Block)) where
  tableAddr : ℕ → BitVec 64
  word : BitVec 64 → BitVec 32
  blockAt : BitVec 64 → Option Block
  entry : ∀ (t : ℕ) (table : ℤ × List Block), tables[t]? = some table →
    ∀ (i : ℕ) (target : Block), table.2[i]? = some target →
    blockAt (tableAddr t + (word (tableAddr t + BitVec.ofNat 64 (4 * i))).signExtend 64)
      = some target

/-- The program of a lowering from `f` to `f'`. -/
def Func.program (f f' : Func) (L : Layout f'.jumpTables) : Program where
  blocks := f'.blocks
  created b := decide (f.nextBlockId ≤ b) && decide (b < f'.nextBlockId)
  tableAddr := L.tableAddr
  word := L.word
  blockAt := L.blockAt

/-- What a lowering has to achieve: the code behind the block leads every selector to its
target. -/
def Achieves (f : Func) (sel : VReg) (ty : SelectorTy) (cases : Cases) (default block : Block)
    (f' : Func) : Prop :=
  ∃ code, f'.blocks block = f.blocks block ++ code
    ∧ ∀ (L : Layout f'.jumpTables) (ρ : Regs) (fl : Flags),
      Exits (f.program f' L) ⟨.code code, ρ, fl⟩
        (dispatch cases default (selectorNumber ty (ρ sel.id)))

theorem gate_eq_ok {strategy : Strategy} {check : Except Mismatch Unit} {f f' : Func}
    (h : gate strategy check f = .ok f') : f' = f := by
  cases check with
  | error e => cases h
  | ok u => exact (Except.ok.inj h).symm

section

variable {f f' : Func} {ty : SelectorTy} {sel : VReg} {cases : Cases} {default block : ℕ}

theorem created_eq_false {L : Layout f'.jumpTables} {b : ℕ}
    (h : b < f.nextBlockId ∨ f'.nextBlockId = f.nextBlockId) :
    (f.program f' L).created b = false := by
  rw [Func.program, Bool.and_eq_false_iff, decide_eq_false_iff_not, decide_eq_false_iff_not]
  rcases h with h | h
  · exact .inl (Nat.not_le_of_lt h)
  rw [h]
  exact (Nat.lt_or_ge b f.nextBlockId).imp Nat.not_le_of_lt Nat.not_lt_of_ge

theorem is32_cls (ty : SelectorTy) : (if ty.is32 then RegClass.gpr32 else .gpr64) = ty.cls := by
  cases ty <;> rfl

theorem is32_eq (ty : SelectorTy) : ty.is32 = decide (ty.cls = .gpr32) := by
  cases ty <;> rfl

theorem achieves_of_exits {f₁ : Func} {sel₁ : VReg} {pre code : List FlowInst}
    (hclean : Cleaned f sel ty block f₁ sel₁ pre)
    (hself : f'.blocks block = f₁.blocks block ++ code)
    (hexits : ∀ (L : Layout f'.jumpTables) (σ : Regs) (fl : Flags) (z : ℤ), Fits sel₁.cls z →
      Shows σ sel₁ z → Exits (f.program f' L) ⟨.code code, σ, fl⟩ (dispatch cases default z)) :
    Achieves f sel ty cases default block f' := by
  refine ⟨pre ++ code, ?_, fun L ρ fl => hclean.exits _ _ _ _ _ fun σ hσ => ?_⟩
  · rw [hself, hclean.emitted.blocks_self, append_assoc]
  refine hexits L σ fl _ ?_ hσ
  rw [hclean.cls]
  exact residueNumber_fits ty _

theorem nextBlockId_emitChain (materialize : VReg → ℤ → List Inst) (sel : VReg) (is32 : Bool)
    (block default : ℕ) (cases : Cases) (f : Func) :
    (emitChain (fun f v => emitCompare materialize f block sel v is32) block default cases
      f).nextBlockId = f.nextBlockId := by
  induction cases generalizing f with
  | nil => rfl
  | cons c cases ih => exact ih _

theorem pairwise_sorted (hnodup : (cases.map fst).Nodup) :
    (cases.insertionSort fun a b => a.1 ≤ b.1).Pairwise fun a b => a.1 < b.1 := by
  have hsorted := pairwise_insertionSort (fun a b : ℤ × Block => a.1 ≤ b.1) cases
  have hperm := perm_insertionSort (fun a b : ℤ × Block => a.1 ≤ b.1) cases
  have hkeys : (cases.insertionSort fun a b => a.1 ≤ b.1).Pairwise fun a b => a.1 ≠ b.1 :=
    pairwise_map.mp ((hperm.map fst).nodup_iff.mpr hnodup)
  exact hsorted.imp₂ (fun a b hle hne => lt_of_le_of_ne hle hne) hkeys

variable {minVal : ℤ}

theorem getElem?_denseTargets {len i : ℕ} (hi : i < len) :
    (denseTargets cases default minVal len)[i]?
      = some ((cases.lookup (minVal + i)).getD default) := by
  rw [denseTargets, getElem?_map, getElem?_range hi]
  rfl

theorem dispatch_eq_span {maxVal z : ℤ} (hmin : ∀ c ∈ cases, minVal ≤ c.1)
    (hmax : ∀ c ∈ cases, c.1 ≤ maxVal) :
    (if minVal ≤ z ∧ z ≤ maxVal then
      (cases.lookup (minVal + ((z - minVal).toNat : ℕ))).getD default else default)
      = dispatch cases default z := by
  split
  next hspan =>
    rw [Int.toNat_of_nonneg (by omega), show minVal + (z - minVal) = z by omega]
    rfl
  rename_i hspan
  have hnone : cases.lookup z = none := by
    refine AssocList.lookup_eq_none_of_forall fun e he heq => hspan ?_
    rw [heq]
    exact ⟨hmin e he, hmax e he⟩
  rw [dispatch, hnone]
  rfl

variable (hcls : sel.cls = ty.cls) (hsel : sel.id < f.nextVreg)
    (hfits : ∀ c ∈ cases, Fits ty.cls c.1)
include hcls hsel hfits

theorem selectSwitchCascade_achieves
    (h : selectSwitchCascade f sel ty cases default block = .ok f') :
    Achieves f sel ty cases default block f' := by
  obtain ⟨pre, hclean⟩ := cleanSwitchSelector_spec f hcls hsel block
  have hcls1 := hclean.cls
  obtain rfl := gate_eq_ok h
  obtain ⟨code, hemit, hdisp⟩ := emitChain_dispatches block default
    (materializes_emitIconst _ ty.is32 (by rw [hcls1]; exact is32_eq ty))
    (by rw [hcls1]; exact is32_cls ty) cases _ (by rwa [hcls1]) hclean.lt
  have hcount := (nextBlockId_emitChain (fun dst v => emitIconst dst ty.is32 v)
    (cleanSwitchSelector f sel ty block).2 ty.is32 block default cases _).trans hclean.nextBlockId
  refine achieves_of_exits hclean hemit.blocks_self fun L σ fl z hz hσ => ?_
  refine hdisp _ z σ fl (fun b hb hb' => ?_) (created_eq_false (.inr hcount))
    (fun c _ => created_eq_false (.inr hcount)) hz hσ
  rw [hclean.nextBlockId] at hb
  exact absurd (Nat.lt_of_lt_of_eq hb' hcount) (Nat.not_lt_of_ge hb)

theorem selectSwitchBinarySearch_achieves (hf : f.Ready) (hnodup : (cases.map fst).Nodup)
    (h : selectSwitchBinarySearch f sel ty cases default block = .ok f') :
    Achieves f sel ty cases default block f' := by
  unfold selectSwitchBinarySearch at h
  split at h
  · cases h
  rename_i hsynthetic
  have hreal : ∀ b ∈ cases.map snd ++ [default, block], b < f.nextBlockId := by
    intro b hb
    have hlow := find?_eq_none.mp hsynthetic b hb
    rw [decide_eq_true_iff] at hlow
    exact Nat.lt_of_lt_of_le (Nat.lt_of_not_le hlow) hf.base
  have hblock : block < f.nextBlockId := hreal block (by simp)
  obtain ⟨pre, hclean⟩ := cleanSwitchSelector_spec f hcls hsel block
  have hcls1 := hclean.cls
  obtain rfl := gate_eq_ok h
  have hsorted := pairwise_sorted hnodup
  have hperm := perm_insertionSort (fun a b : ℤ × Block => a.1 ≤ b.1) cases
  obtain ⟨code, hemit, hdisp⟩ := lowers_emitBstNode default
    (by rw [hcls1]; exact is32_cls ty)
    (materializes_chain _ ty.is32 (by rw [hcls1]; exact is32_eq ty)) _ _ block _ ⟨[], none⟩ hsorted
    (fun c hc => by rw [hcls1]; exact hfits c (hperm.mem_iff.mp hc)) hclean.lt
    (by rwa [hclean.nextBlockId]) (hclean.emitted.unused hf.unused hblock)
  refine achieves_of_exits hclean hemit.blocks_self fun L σ fl z hz hσ => ?_
  rw [dispatch, ← AssocList.lookup_perm hperm ((hperm.map fst).nodup_iff.mpr hnodup)]
  refine hdisp _ z σ fl (fun b hb hb' => ⟨?_, rfl⟩)
    (created_eq_false (.inl (hreal default (by simp))))
    (fun c hc => created_eq_false (.inl (hreal c.2 ?_))) hz hσ
  · rw [hclean.nextBlockId] at hb
    exact Bool.and_eq_true_iff.mpr ⟨decide_eq_true hb, decide_eq_true hb'⟩
  · exact mem_append_left _ (mem_map_of_mem (hperm.mem_iff.mp hc))

theorem selectSwitchJumpTable_achieves
    (h : selectSwitchJumpTable f sel ty cases default block = .ok f') :
    Achieves f sel ty cases default block f' := by
  obtain ⟨pre, hclean⟩ := cleanSwitchSelector_spec f hcls hsel block
  have hcls1 := hclean.cls
  unfold selectSwitchJumpTable at h
  dsimp only at h
  unfold emitJumpTable at h
  split at h
  next minVal maxVal hmin hmax =>
    dsimp only at h
    split at h
    · cases h
    rename_i hcap
    obtain rfl := gate_eq_ok h
    obtain ⟨hminMem, hminLe⟩ := min?_eq_some_iff.mp hmin
    obtain ⟨hmaxMem, hmaxLe⟩ := max?_eq_some_iff.mp hmax
    have hminLe' : ∀ c ∈ cases, minVal ≤ c.1 := fun c hc => hminLe _ (mem_map_of_mem hc)
    have hmaxLe' : ∀ c ∈ cases, c.1 ≤ maxVal := fun c hc => hmaxLe _ (mem_map_of_mem hc)
    obtain ⟨cmin, hcmin, rfl⟩ := mem_map.mp hminMem
    obtain ⟨cmax, hcmax, rfl⟩ := mem_map.mp hmaxMem
    have hmin64 := fits_64 (hfits cmin hcmin)
    have hmax64 := fits_64 (hfits cmax hcmax)
    have hspan := hminLe' cmax hcmax
    refine achieves_of_exits hclean (Emitted.push _ block _).blocks_self fun L σ fl z hz hσ => ?_
    have hcount : (cleanSwitchSelector f sel ty block).1.nextBlockId = f.nextBlockId :=
      hclean.nextBlockId
    rw [← dispatch_eq_span hminLe' hmaxLe']
    have hexits := jumpTableCode_exits (f.program _ L) (cmax.1 - cmin.1)
      (cleanSwitchSelector f sel ty block).1.jumpTables.length fl default
      (fun i => (cases.lookup (cmin.1 + (i : ℕ))).getD default) hmin64.1 (by omega) (by omega)
      (created_eq_false (.inr hcount)) (fun i hi => ⟨created_eq_false (.inr hcount), ?_⟩)
      (by rw [hcls1]; exact is32_cls ty) hclean.lt hz hσ
    · rwa [show cmin.1 + (cmax.1 - cmin.1) = cmax.1 by omega] at hexits
    · exact L.entry _ _ (getElem?_concat_length ..) i _ (getElem?_denseTargets (by omega))
  · cases h

theorem selectSwitch_achieves (dense : Cases → Bool) (hf : f.Ready) (hnodup : (cases.map fst).Nodup)
    (h : selectSwitch dense f sel ty cases default block = .ok f') :
    Achieves f sel ty cases default block f' := by
  unfold selectSwitch at h
  split at h
  · exact selectSwitchJumpTable_achieves hcls hsel hfits h
  · exact selectSwitchBinarySearch_achieves hcls hsel hfits hf hnodup h
  · exact selectSwitchCascade_achieves hcls hsel hfits h

end

/-- **A lowered switch dispatches.**  For every list of case constants that the adapter
accepts and every strategy, the code that the selector appends to the block leaves through
the target of the case that equals the selector modulo its width, or through the default if
there is none, and through no other block.  The bits of the register above the width do not
matter. -/
theorem selectSwitch_dispatches (dense : Cases → Bool) {f : Func} (hf : f.Ready)
    (ty : SelectorTy) (sel : VReg) (hcls : sel.cls = ty.cls) (hsel : sel.id < f.nextVreg)
    {cases : List (Constant × Block)} {norm : List ℤ} (default block : Block)
    (hvalid : validateSwitchCaseValues ty.bits [] (cases.map fst) = .ok norm) :
    (∀ strategy reason, selectSwitch dense f sel ty (norm.zip (cases.map snd)) default block
        ≠ .error (.mismatch strategy reason))
      ∧ ∀ f', selectSwitch dense f sel ty (norm.zip (cases.map snd)) default block = .ok f' →
        ∃ code, f'.blocks block = f.blocks block ++ code
          ∧ ∀ (L : Layout f'.jumpTables) (ρ : Regs) (fl : Flags) (t : Block),
            Exits (f.program f' L) ⟨.code code, ρ, fl⟩ t
              ↔ t = sourceTarget ty.bits cases default (ρ sel.id) := by
  obtain ⟨hlen, hnorm, hnodup, htarget⟩ := validate_spec cases [] norm hvalid
  have hfits : ∀ c ∈ norm.zip (cases.map snd), Fits ty.cls c.1 := fun c hc =>
    (hnorm c.1 (of_mem_zip hc).1).1
  have hkeys : Distinct (norm.zip (cases.map snd)) := by
    rwa [Distinct, map_fst_zip (by rw [length_map, hlen])]
  refine ⟨selectSwitch_ne_mismatch dense hkeys, fun f' h => ?_⟩
  obtain ⟨code, hcode, hexits⟩ := selectSwitch_achieves hcls hsel hfits dense hf hkeys h
  refine ⟨code, hcode, fun L ρ fl t => ⟨fun ht => ?_, ?_⟩⟩
  · rw [ht.unique (hexits L ρ fl), htarget]
  rintro rfl
  rw [← htarget]
  exact hexits L ρ fl

/-- A function with nothing in it yet, and the selector in register 0. -/
def emptyFunc : Func := ⟨1, syntheticBlockIdBase, fun _ => [], []⟩

theorem emptyFunc_ready : emptyFunc.Ready := ⟨Nat.le_refl _, fun _ _ => rfl⟩

/-- A dense switch over a byte, with the constants `-1`, `254`, `253` and `-5`. -/
theorem selectSwitch_dispatches_byte : ∃ f', selectSwitch (fun _ => true) emptyFunc ⟨0, .gpr32⟩ .i8
        [(255, 10), (254, 11), (253, 12), (251, 13)] 9 0 = .ok f'
      ∧ f'.jumpTables = [(251, [13, 9, 12, 11, 10])]
      ∧ ∃ code, f'.blocks 0 = emptyFunc.blocks 0 ++ code
        ∧ ∀ (L : Layout f'.jumpTables) (ρ : Regs) (fl : Flags) (t : Block),
          Exits (emptyFunc.program f' L) ⟨.code code, ρ, fl⟩ t
            ↔ t = sourceTarget 8 [(.int (-1), 10), (.int 254, 11), (.int 253, 12), (.int (-5), 13)]
              9 (ρ 0) :=
  ⟨_, rfl, rfl, (selectSwitch_dispatches (fun _ => true) emptyFunc_ready .i8 ⟨0, .gpr32⟩ rfl
    Nat.zero_lt_one 9 0 rfl).2 _ rfl⟩

end TrustCg.Lower.A64
