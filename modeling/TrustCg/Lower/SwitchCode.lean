import TrustCg.Lib.AssocList
import TrustCg.Lib.SignedWords
import TrustCg.Lower.Switch

/-!
# The code of a switch dispatches

The three forms of a lowered switch, from a selector register that shows a number: each
leaves through the target of that number.

* `exits_compareCode` : a compare with a constant, in either form.
* `emitChain_dispatches` : the chain tries the cases in order.
* `lowers_emitBstNode` : the tree, over blocks of its own.
* `jumpTableCode_exits` : the table, behind its range check.
-/

namespace TrustCg.Lower.A64

open SignedWords List
open Function (update_of_ne update_self)
open BitVec (ofInt ofInt_natCast ofNat)

/-! ## Compares -/

/-- The target of a selector with the number `z`. -/
def dispatch (cases : Cases) (default : Block) (z : ℤ) : Block := (cases.lookup z).getD default

/-- The numbers that a register of a class holds. -/
def Fits (cls : RegClass) (z : ℤ) : Prop := -2 ^ (cls.bits - 1) ≤ z ∧ z < 2 ^ (cls.bits - 1)

/-- A register shows a number at its class. -/
def Shows (ρ : Regs) (r : VReg) (z : ℤ) : Prop := view r.cls (ρ r.id) = ofInt r.cls.bits z

variable {z : ℤ}

section

variable {cases : Cases} {default t : Block} {c : ℤ}

theorem dispatch_cons_self (h : z = c) : dispatch ((c, t) :: cases) default z = t := by
  rw [dispatch, lookup_cons, h, beq_self_eq_true]
  rfl

theorem dispatch_cons_of_ne (h : z ≠ c) :
    dispatch ((c, t) :: cases) default z = dispatch cases default z := by
  rw [dispatch, lookup_cons, beq_false_of_ne h]
  rfl

theorem Shows.keep {ρ σ : Regs} {r : VReg} {n : ℕ} (h : Shows ρ r z) (hσ : ∀ r < n, σ r = ρ r)
    (hr : r.id < n) : Shows σ r z := by
  rw [Shows, hσ r.id hr]
  exact h

end

section

variable {cls : RegClass} {c : ℤ}

theorem toInt_ofInt_of_fits (h : Fits cls z) : (ofInt cls.bits z).toInt = z :=
  BitVec.toInt_ofInt_eq_self (by cases cls <;> decide) h.1 h.2

theorem holds_eq_of_fits (hz : Fits cls z) (hc : Fits cls c) :
    Cond.eq.holds (.compare (ofInt cls.bits z) (ofInt cls.bits c))
      = decide (z = c) := by
  rw [holds_eq, decide_eq_decide, ← BitVec.toInt_inj, toInt_ofInt_of_fits hz,
    toInt_ofInt_of_fits hc]

theorem holds_lt_of_fits (hz : Fits cls z) (hc : Fits cls c) :
    Cond.lt.holds (.compare (ofInt cls.bits z) (ofInt cls.bits c))
      = decide (z < c) := by
  rw [holds_lt, toInt_ofInt_of_fits hz, toInt_ofInt_of_fits hc]

end

/-- A sequence that puts constants into a register and touches no other. -/
def Materializes (materialize : VReg → ℤ → List Inst) (cls : RegClass) : Prop :=
  ∀ (n : ℕ) (c : ℤ) (ρ : Regs), Shows (target.exec (materialize ⟨n, cls⟩ c) ρ) ⟨n, cls⟩ c
    ∧ ∀ r ≠ n, target.exec (materialize ⟨n, cls⟩ c) ρ r = ρ r

section

variable (cls : RegClass) (is32 : Bool) (hcls : is32 = decide (cls = .gpr32))
include hcls

theorem materializes_emitIconst : Materializes (fun dst v => emitIconst dst is32 v) cls := by
  intro n c ρ
  refine ⟨exec_emitIconst ⟨n, cls⟩ hcls c ρ, fun r hr => ?_⟩
  exact exec_of_dst ⟨n, cls⟩ hr _ ρ fun i hi => (emitIconst_writes ⟨n, cls⟩ c hcls i hi).1

theorem materializes_chain :
    Materializes (fun dst v => emitMovzMovkChain dst (chainValue is32 v)) cls := by
  intro n c ρ
  have hvalue : ofNat cls.bits (chainValue is32 c) = ofInt cls.bits c := by
    rw [← ofNat_asU64, hcls]
    cases cls with
    | gpr32 => exact BitVec.eq_of_toNat_eq (Nat.mod_mod (asU64 c) (2 ^ 32))
    | gpr64 => rfl
  have hchunk : ∀ idx < 4, 16 * idx < cls.bits ∨ chunk (chainValue is32 c) idx = 0 := by
    intro idx hidx
    rw [hcls]
    cases cls with
    | gpr32 =>
      have hlt : chainValue (decide (RegClass.gpr32 = .gpr32)) c < 2 ^ 32 :=
        Nat.mod_lt _ (by decide)
      by_cases hlow : idx < 2
      · exact .inl (show 16 * idx < 32 by omega)
      refine .inr ?_
      have hle : 2 ^ 32 ≤ 2 ^ (16 * idx) := Nat.pow_le_pow_right (by decide) (by omega)
      rw [chunk, Nat.div_eq_of_lt (Nat.lt_of_lt_of_le hlt hle), Nat.zero_mod]
    | gpr64 => exact .inl (show 16 * idx < 64 by omega)
  refine ⟨?_, fun r hr => ?_⟩
  · have hwidth : cls.bits ≤ 16 * 4 := cls.bits_le
    exact (exec_movzChain ⟨n, cls⟩ (by decide) hwidth ρ).trans hvalue
  exact exec_of_dst ⟨n, cls⟩ hr _ ρ fun i hi =>
    (movzChain_writes ⟨n, cls⟩ hchunk (by decide) i hi).1

end

variable {P : Program} {materialize : VReg → ℤ → List Inst}

section

variable {ρ : Regs} {fl : Flags} {t : Block} {sel : VReg} {c : ℤ} {rest : List FlowInst} {n : ℕ}

/-- **A compare.**  It keeps the registers in use and sets the flags of the selector against
the constant. -/
theorem exits_compareCode (hmat : Materializes materialize sel.cls) (hsel : sel.id < n)
    (hz : Shows ρ sel z) (h : ∀ σ : Regs, (∀ r < n, σ r = ρ r) → Exits P ⟨.code rest, σ,
        .compare (ofInt sel.cls.bits z) (ofInt sel.cls.bits c)⟩ t) :
    Exits P ⟨.code (compareCode materialize sel c ⟨n, sel.cls⟩ ++ rest), ρ, fl⟩ t := by
  unfold compareCode
  split
  next hfits =>
    have hc : 0 ≤ c ∧ c ≤ 0xFFF := of_decide_eq_true hfits
    refine .step ?_
    have hcmp := h ρ fun _ _ => rfl
    rw [← hz, show ofInt sel.cls.bits c = ofNat sel.cls.bits c.toNat by
      rw [← ofInt_natCast, Int.toNat_of_nonneg hc.1]] at hcmp
    exact hcmp
  · obtain ⟨htmp, hkeep⟩ := hmat n c ρ
    rw [append_assoc]
    refine .data _ _ (Exits.step ?_)
    have hcmp := h _ fun r hr => hkeep r (Nat.ne_of_lt hr)
    have hsame : view sel.cls (target.exec (materialize ⟨n, sel.cls⟩ c) ρ sel.id)
        = ofInt sel.cls.bits z := by
      rw [hkeep sel.id (Nat.ne_of_lt hsel)]
      exact hz
    rw [← hsame, ← show view sel.cls (target.exec (materialize ⟨n, sel.cls⟩ c) ρ n) = _ from htmp]
      at hcmp
    exact hcmp

end

/-! ## The chain -/

/-- What a lowering into one block leaves: it appends code there, and its new blocks have
numbers from the counter up. -/
structure Emitted (f f' : Func) (block : ℕ) (code : List FlowInst) : Prop where
  blocks_self : f'.blocks block = f.blocks block ++ code
  blocks_of_ne : ∀ b : ℕ, b ≠ block → b < f.nextBlockId → f'.blocks b = f.blocks b
  unused : (∀ b : ℕ, f.nextBlockId ≤ b → f.blocks b = []) → block < f.nextBlockId →
    ∀ b : ℕ, f'.nextBlockId ≤ b → f'.blocks b = []
  nextBlockId_le : f.nextBlockId ≤ f'.nextBlockId
  nextVreg_le : f.nextVreg ≤ f'.nextVreg

theorem Emitted.push (f : Func) (block : ℕ) (code : List FlowInst) :
    Emitted f (f.push block code) block code where
  blocks_self := update_self ..
  blocks_of_ne _ hb _ := update_of_ne hb ..
  unused h hblock b hb :=
    (update_of_ne (Nat.ne_of_gt (Nat.lt_of_lt_of_le hblock hb)) ..).trans (h b hb)
  nextBlockId_le := Nat.le_refl _
  nextVreg_le := Nat.le_refl _

theorem Emitted.trans {f g h : Func} {block : ℕ} {code code' : List FlowInst}
    (h1 : Emitted f g block code) (h2 : Emitted g h block code') :
    Emitted f h block (code ++ code') where
  blocks_self := by rw [h2.blocks_self, h1.blocks_self, append_assoc]
  blocks_of_ne b hb hlt := (h2.blocks_of_ne b hb (Nat.lt_of_lt_of_le hlt h1.nextBlockId_le)).trans
      (h1.blocks_of_ne b hb hlt)
  unused hun hblock :=
    h2.unused (h1.unused hun hblock) (Nat.lt_of_lt_of_le hblock h1.nextBlockId_le)
  nextBlockId_le := Nat.le_trans h1.nextBlockId_le h2.nextBlockId_le
  nextVreg_le := Nat.le_trans h1.nextVreg_le h2.nextVreg_le

theorem Emitted.compare (materialize : VReg → ℤ → List Inst) (f : Func) (block : ℕ)
    (sel : VReg) (c : ℤ) (is32 : Bool) :
    Emitted f (emitCompare materialize f block sel c is32) block
      (compareCode materialize sel c ⟨f.nextVreg, if is32 then .gpr32 else .gpr64⟩) :=
  { Emitted.push f block _ with nextVreg_le := Nat.le_add_right .. }

/-- Code that dispatches, in any program that has the blocks created with it: from a selector
with the number `z` the run leaves through the target of `z`. -/
def Dispatches (sel : VReg) (f f' : Func) (code : List FlowInst) (cases : Cases)
    (default : Block) : Prop :=
  ∀ (P : Program) (z : ℤ) (ρ : Regs) (fl : Flags),
    (∀ b : ℕ, f.nextBlockId ≤ b → b < f'.nextBlockId →
      P.created b = true ∧ P.blocks b = f'.blocks b) →
    P.created default = false → (∀ c ∈ cases, P.created c.2 = false) →
    Fits sel.cls z → Shows ρ sel z → Exits P ⟨.code code, ρ, fl⟩ (dispatch cases default z)

section

variable {sel : VReg} {is32 : Bool} {block default : ℕ}

/-- **The chain.**  The cases are tried in order, and the default is taken after them. -/
theorem emitChain_dispatches (block default : ℕ) (hmat : Materializes materialize sel.cls)
    (hcls : (if is32 then RegClass.gpr32 else .gpr64) = sel.cls) (cases : Cases) (f : Func)
    (hcases : ∀ c ∈ cases, Fits sel.cls c.1) (hsel : sel.id < f.nextVreg) :
    ∃ code, Emitted f (emitChain (fun f v => emitCompare materialize f block sel v is32) block
        default cases f) block code
      ∧ Dispatches sel f (emitChain (fun f v => emitCompare materialize f block sel v is32) block
        default cases f) code cases default := by
  induction cases generalizing f with
  | nil =>
    exact ⟨_, Emitted.push f block [.b default], fun P z ρ fl _ hdefault _ _ _ =>
      Exits.step (exits_enter hdefault)⟩
  | cons c cases ih =>
    obtain ⟨caseVal, t⟩ := c
    obtain ⟨hfits, hrest⟩ := forall_mem_cons.mp hcases
    have hhead := (Emitted.compare materialize f block sel caseVal is32).trans
      (Emitted.push _ block [.bCond .eq t])
    obtain ⟨code, hemit, hdisp⟩ := ih _ hrest (Nat.lt_of_lt_of_le hsel hhead.nextVreg_le)
    refine ⟨_, hhead.trans hemit, fun P z ρ fl hP hdefault htargets hz hρ => ?_⟩
    obtain ⟨ht, htargets⟩ := forall_mem_cons.mp htargets
    rw [hcls, append_assoc]
    refine exits_compareCode hmat hsel hρ fun σ hσ => Exits.bCond (fun heq => ?_) fun hne => ?_
    · rw [holds_eq_of_fits hz hfits, decide_eq_true_iff] at heq
      rw [dispatch_cons_self heq]
      exact exits_enter ht
    rw [holds_eq_of_fits hz hfits, decide_eq_false_iff_not] at hne
    rw [dispatch_cons_of_ne hne]
    exact hdisp P z σ _ hP hdefault htargets hz (hρ.keep hσ hsel)

/-! ## The tree -/

/-- What a node appends: the comparison with the pivot and the branches to its target and to the
two blocks that are numbered next. -/
def pivotCode (materialize : VReg → ℤ → List Inst) (sel : VReg) (p : ℤ) (t : Block) (f : Func) :
    List FlowInst :=
  compareCode materialize sel p ⟨f.nextVreg, sel.cls⟩
    ++ [.bCond .eq t, .bCond .lt f.nextBlockId, .b (f.nextBlockId + 1)]

/-- **A node.**  Two blocks are numbered, the node compares with its pivot, and each subtree
is lowered into its block. -/
theorem node_dispatches {f f2 g h : Func} {left right : Cases} {p : ℤ} {t : Block}
    {codeL codeR : List FlowInst} (hmat : Materializes materialize sel.cls)
    (hsorted : (left ++ (p, t) :: right).Pairwise fun a b => a.1 < b.1)
    (hfits : Fits sel.cls p) (hsel : sel.id < f.nextVreg) (hblock : block < f.nextBlockId)
    (hunused : ∀ b : ℕ, f.nextBlockId ≤ b → f.blocks b = [])
    (hnode : Emitted { f with nextBlockId := f.nextBlockId + 2 } f2 block
      (pivotCode materialize sel p t f)) (hcount : f2.nextBlockId = f.nextBlockId + 2)
    (hleft : Emitted f2 g f.nextBlockId codeL) (hdispL : Dispatches sel f2 g codeL left default)
    (hright : Emitted g h (f.nextBlockId + 1) codeR)
    (hdispR : Dispatches sel g h codeR right default) :
    Emitted f h block (pivotCode materialize sel p t f)
      ∧ Dispatches sel f h (pivotCode materialize sel p t f) (left ++ (p, t) :: right) default := by
  have hcount1 := hleft.nextBlockId_le
  have hcount2 := hright.nextBlockId_le
  -- a block of the function, or of the left subtree, is not touched behind it
  have hkeepR : ∀ b : ℕ, b ≠ f.nextBlockId + 1 → b < g.nextBlockId → h.blocks b = g.blocks b :=
    hright.blocks_of_ne
  have hkeepL : ∀ b : ℕ, b ≠ f.nextBlockId → b < f2.nextBlockId → g.blocks b = f2.blocks b :=
    hleft.blocks_of_ne
  have hold : ∀ b < f.nextBlockId, h.blocks b = f2.blocks b := fun b hb =>
    (hkeepR b (by omega) (by omega)).trans (hkeepL b (by omega) (by omega))
  have hfresh : ∀ b : ℕ, f.nextBlockId ≤ b → b < f.nextBlockId + 2 → f2.blocks b = [] :=
    fun b hb hb' => (hnode.blocks_of_ne b (by omega) hb').trans (hunused b hb)
  have hL : h.blocks f.nextBlockId = codeL := by
    rw [hkeepR _ (by omega) (by omega), hleft.blocks_self, hfresh _ (by omega) (by omega),
      nil_append]
  have hR : h.blocks (f.nextBlockId + 1) = codeR := by
    rw [hright.blocks_self, hkeepL _ (by omega) (by omega), hfresh _ (by omega) (by omega),
      nil_append]
  constructor
  · refine ⟨(hold block hblock).trans hnode.blocks_self, fun b hb hlt => ?_, fun _ _ => ?_,
      by omega, ?_⟩
    · exact (hold b hlt).trans (hnode.blocks_of_ne b hb (by dsimp only; omega))
    · refine hright.unused (hleft.unused (hnode.unused (fun b hb => hunused b ?_) ?_) ?_) ?_
      · dsimp only at hb
        omega
      · dsimp only
        omega
      · omega
      · omega
    · exact Nat.le_trans hnode.nextVreg_le (Nat.le_trans hleft.nextVreg_le hright.nextVreg_le)
  intro P z ρ fl hP hdefault htargets hz hρ
  have henter : ∀ b : ℕ, f.nextBlockId ≤ b → b < h.nextBlockId →
      P.enter b = .code (h.blocks b) := by
    intro b hb hb'
    obtain ⟨hcreated, hblocks⟩ := hP b hb hb'
    rw [Program.enter, hcreated, if_pos rfl, hblocks]
  rw [dispatch, AssocList.lookup_pivot hsorted]
  refine exits_compareCode hmat hsel hρ fun σ hσ => ?_
  have hσz := hρ.keep hσ hsel
  refine .bCond (fun heq => ?_) fun hne => Exits.bCond (fun hlt => ?_) fun hge => ?_
  · rw [holds_eq_of_fits hz hfits, decide_eq_true_iff] at heq
    rw [if_pos heq]
    exact exits_enter (htargets (p, t) (by simp))
  · rw [holds_eq_of_fits hz hfits, decide_eq_false_iff_not] at hne
    rw [holds_lt_of_fits hz hfits, decide_eq_true_iff] at hlt
    rw [if_neg hne, if_pos hlt, henter _ (by omega) (by omega), hL]
    refine hdispL P z σ _ (fun b hb hb' => ?_) hdefault
      (fun c hc => htargets c (mem_append_left _ hc)) hz hσz
    obtain ⟨hcreated, hblocks⟩ := hP b (by omega) (by omega)
    exact ⟨hcreated, hblocks.trans (hkeepR b (by omega) hb')⟩
  rw [holds_eq_of_fits hz hfits, decide_eq_false_iff_not] at hne
  rw [holds_lt_of_fits hz hfits, decide_eq_false_iff_not] at hge
  rw [if_neg hne, if_neg hge]
  refine .step ?_
  rw [Program.exec, henter _ (by omega) (by omega), hR]
  exact hdispR P z σ _ (fun b hb hb' => hP b (by omega) hb') hdefault
    (fun c hc => htargets c (mem_append_right _ (.tail _ hc))) hz hσz

theorem emitPivot_emitted (f : Func) (block : ℕ) (p : ℤ) (t : Block)
    (hcls : (if is32 then RegClass.gpr32 else .gpr64) = sel.cls) :
    Emitted { f with nextBlockId := f.nextBlockId + 2 } (emitPivot sel is32 p t block f) block
      (pivotCode (fun dst v => emitMovzMovkChain dst (chainValue is32 v)) sel p t f) := by
  rw [pivotCode, ← hcls]
  exact (Emitted.compare _ _ block sel p is32).trans (Emitted.push _ block _)

/-- What is asked of an emitter of cases: sorted cases of the selector's width are lowered
into a block of the function. -/
def Lowers (sel : VReg) (default : Block) (node : NodeEmitter) : Prop :=
  ∀ (cases : Cases) (block : ℕ) (f : Func) (m : NormalizedMapping),
    cases.Pairwise (fun a b => a.1 < b.1) → (∀ c ∈ cases, Fits sel.cls c.1) →
    sel.id < f.nextVreg → block < f.nextBlockId → (∀ b : ℕ, f.nextBlockId ≤ b → f.blocks b = []) →
    ∃ code, Emitted f (node cases block f m).1 block code
      ∧ Dispatches sel f (node cases block f m).1 code cases default

theorem lowers_emitSubtree {node : NodeEmitter} (h : Lowers sel default node) :
    Lowers sel default (emitSubtree node default) := by
  intro cases block f m hsorted hfits hsel hblock hunused
  unfold emitSubtree
  split
  next hempty =>
    obtain rfl := isEmpty_iff.mp hempty
    exact ⟨_, Emitted.push f block [.b default], fun P z ρ fl _ hdefault _ _ _ =>
      Exits.step (exits_enter hdefault)⟩
  · exact h cases block f m hsorted hfits hsel hblock hunused

/-- **The tree.**  By induction on the depth: a leaf is a chain, and an inner node sends a
selector to the subtree on its side of the pivot. -/
theorem lowers_emitBstNode (default : ℕ)
    (hcls : (if is32 then RegClass.gpr32 else .gpr64) = sel.cls)
    (hmat : Materializes (fun dst v => emitMovzMovkChain dst (chainValue is32 v)) sel.cls)
    (depth : ℕ) : Lowers sel default (emitBstNode sel is32 default depth) := by
  induction depth with
  | zero =>
    intro cases block f m _ hfits hsel _ _
    exact emitChain_dispatches block default hmat hcls cases f hfits hsel
  | succ depth ih =>
    intro cases block f m hsorted hfits hsel hblock hunused
    rw [emitBstNode]
    split
    · exact emitChain_dispatches block default hmat hcls cases f hfits hsel
    rename_i hlen
    have hsplit := take_append_drop (cases.length / 2) cases
    split
    next hdrop =>
      rw [drop_eq_nil_iff] at hdrop
      rw [linearScanMax] at hlen
      omega
    rename_i p t rightCases hdrop
    rw [hdrop] at hsplit
    generalize cases.take (cases.length / 2) = leftCases at hsplit
    subst hsplit
    obtain ⟨hsortedL, hsortedR, -⟩ := pairwise_append.mp hsorted
    obtain ⟨hfitsL, hfitsR⟩ := forall_mem_append.mp hfits
    obtain ⟨hfitsP, hfitsR⟩ := forall_mem_cons.mp hfitsR
    have hnode := emitPivot_emitted f block p t hcls
    have hunused2 := hnode.unused (fun b hb => hunused b (by dsimp only at hb; omega))
      (by dsimp only; omega)
    have hsub := lowers_emitSubtree ih
    have hL : f.nextBlockId < (emitPivot sel is32 p t block f).nextBlockId :=
      Nat.lt_of_lt_of_le (by dsimp only; omega) hnode.nextBlockId_le
    obtain ⟨codeL, hemitL, hdispL⟩ := hsub leftCases f.nextBlockId _ (m.recordCase p t) hsortedL
      hfitsL (Nat.lt_of_lt_of_le hsel hnode.nextVreg_le) hL hunused2
    have hR : f.nextBlockId + 1 < (emitPivot sel is32 p t block f).nextBlockId :=
      Nat.lt_of_lt_of_le (by dsimp only; omega) hnode.nextBlockId_le
    obtain ⟨codeR, hemitR, hdispR⟩ := hsub rightCases (f.nextBlockId + 1) _ _ hsortedR.of_cons
      hfitsR (Nat.lt_of_lt_of_le hsel (Nat.le_trans hnode.nextVreg_le hemitL.nextVreg_le))
      (Nat.lt_of_lt_of_le hR hemitL.nextBlockId_le) (hemitL.unused hunused2 hL)
    exact ⟨_, node_dispatches hmat hsorted hfitsP hsel hblock hunused hnode rfl hemitL hdispL
      hemitR hdispR⟩

end

/-! ## The table -/

section

variable {ρ : Regs} {minVal range : ℤ} {v wide tmp table : ℕ} {fl : Flags}

theorem shows_gpr64 {n : ℕ} : Shows ρ ⟨n, .gpr64⟩ z ↔ ρ n = ofInt 64 z := by
  rw [Shows, view, BitVec.setWidth_eq]

theorem ofInt_sub_ofInt (a b : ℤ) : ofInt 64 a - ofInt 64 b = ofInt 64 (a - b) := by
  rw [BitVec.sub_eq_add_neg, ← BitVec.ofInt_neg, ← BitVec.ofInt_add, Int.sub_eq_add_neg]

theorem normalizeIndex_shows (index : ℕ) (minVal : ℤ) (hne : wide ≠ tmp)
    (hz : Shows ρ ⟨wide, .gpr64⟩ z) :
    Shows (target.exec (normalizeIndex ⟨index, .gpr64⟩ ⟨wide, .gpr64⟩ ⟨tmp, .gpr64⟩ minVal) ρ)
      ⟨index, .gpr64⟩ (z - minVal) := by
  rw [shows_gpr64] at hz ⊢
  unfold normalizeIndex
  split
  next hzero =>
    have hrun := exec_singleton (.movR ⟨index, .gpr64⟩ (.vreg ⟨wide, .gpr64⟩)) ρ
    rw [hzero, Int.sub_zero, ← hz]
    exact hrun.trans (by simp [Inst.value, Operand.read, view])
  split
  next hpos =>
    have hrun := exec_singleton (.subRI ⟨index, .gpr64⟩ (.vreg ⟨wide, .gpr64⟩) minVal.toNat) ρ
    refine hrun.trans ?_
    have hmin : ofNat 64 minVal.toNat = ofInt 64 minVal := by
      rw [← ofInt_natCast, Int.toNat_of_nonneg (by omega)]
    rw [← ofInt_sub_ofInt, ← hz, ← hmin]
    simp [Inst.value, Operand.read, view]
  · obtain ⟨htmp, hkeep⟩ := materializes_chain .gpr64 false rfl tmp minVal ρ
    rw [shows_gpr64] at htmp
    rw [Emission.Target.exec_append]
    have hrun := exec_singleton (.bin .subRR ⟨index, .gpr64⟩ (.vreg ⟨wide, .gpr64⟩)
      (.vreg ⟨tmp, .gpr64⟩)) (target.exec (emitMovzMovkChain ⟨tmp, .gpr64⟩ (asU64 minVal)) ρ)
    refine hrun.trans ?_
    rw [← ofInt_sub_ofInt, ← hz, ← hkeep wide hne, ← htmp]
    simp [Inst.value, BinOp.value, Operand.read, view, chainValue]

theorem signExtend_ofInt (h : Fits .gpr32 z) : (ofInt 32 z).signExtend 64 = ofInt 64 z := by
  have hlow : -2 ^ 31 ≤ z := h.1
  have hhigh : z < 2 ^ 31 := h.2
  apply BitVec.eq_of_toInt_eq
  rw [BitVec.toInt_signExtend_of_le (by decide), toInt_ofInt_of_fits h,
    BitVec.toInt_ofInt_eq_self (by decide) (by omega) (by omega)]

/-- The unsigned range check: an index beyond the table is that of a selector outside it. -/
theorem holds_hi_range (hz : -2 ^ 63 ≤ z ∧ z < 2 ^ 63) (hmin : -2 ^ 63 ≤ minVal)
    (hrange : 0 ≤ range) (hmax : minVal + range < 2 ^ 63) :
    Cond.hi.holds (.compare (ofInt 64 (z - minVal)) (ofInt 64 range))
      = !decide (minVal ≤ z ∧ z ≤ minVal + range) := by
  rw [holds_hi, BitVec.toNat_ofInt, BitVec.toNat_ofInt, Int.emod_eq_of_lt hrange (by omega),
    Bool.eq_iff_iff, Bool.not_eq_true', decide_eq_true_iff, decide_eq_false_iff_not]
  by_cases hle : minVal ≤ z
  · rw [Int.emod_eq_of_lt (by omega) (by omega)]
    omega
  have hwrap : (z - minVal) % (2 ^ 64 : ℕ) = z - minVal + 2 ^ 64 := by
    rw [← Int.add_emod_right, Int.emod_eq_of_lt (by omega) (by omega)]
    rfl
  rw [hwrap]
  omega

/-- The end of a table dispatch: the entry at the index leads to its block. -/
theorem exits_tableTail {i : ℕ} {t : Block} (hindex : ρ v = ofNat 64 i) (ht : P.created t = false)
    (hentry : P.blockAt (P.tableAddr table
      + (P.word (P.tableAddr table + ofNat 64 (4 * i))).signExtend 64) = some t) :
    Exits P ⟨.code [.adr ⟨v + 1, .gpr64⟩ table,
      .ldrswRO ⟨v + 2, .gpr64⟩ ⟨v + 1, .gpr64⟩ ⟨v, .gpr64⟩,
      .data (.bin .addRR ⟨v + 3, .gpr64⟩ (.vreg ⟨v + 1, .gpr64⟩) (.vreg ⟨v + 2, .gpr64⟩)),
      .br ⟨v + 3, .gpr64⟩], ρ, fl⟩ t := by
  have hshift : ofNat 64 i <<< 2 = ofNat 64 (4 * i) := by
    rw [shiftLeft_eq_mul, Nat.mul_comm, BitVec.ofNat_mul]
    rfl
  refine .step (Exits.step (Exits.step (Exits.step ?_)))
  have htarget : P.enter t = .left t := by rw [Program.enter, ht]; rfl
  simp only [Program.exec, A64.step, Inst.dst, Inst.value, BinOp.value, Operand.read, view,
    update_self, update_of_ne (show v ≠ v + 1 by omega),
    update_of_ne (show v + 1 ≠ v + 2 by omega), BitVec.setWidth_eq, hindex, hshift, hentry, htarget]
  exact exits_left

theorem fits_64 {cls : RegClass} (h : Fits cls z) : -2 ^ 63 ≤ z ∧ z < 2 ^ 63 := by
  cases cls with
  | gpr32 =>
    have hlow : -2 ^ 31 ≤ z := h.1
    have hhigh : z < 2 ^ 31 := h.2
    omega
  | gpr64 => exact h

variable {default : Block} {entry : ℕ → Block} (hmin : -2 ^ 63 ≤ minVal) (hrange : 0 ≤ range)
    (hmax : minVal + range < 2 ^ 63) (hdefault : P.created default = false)
    (hentry : ∀ i : ℕ, (i : ℤ) ≤ range → P.created (entry i) = false ∧ P.blockAt (P.tableAddr table
        + (P.word (P.tableAddr table + ofNat 64 (4 * i))).signExtend 64)
        = some (entry i))
include hmin hrange hmax hdefault hentry

theorem exits_tableIndex {tmp' : ℕ} (hwide : wide ≠ tmp) (htmp : v < tmp')
    (hρ : Shows ρ ⟨wide, .gpr64⟩ z) (hz : -2 ^ 63 ≤ z ∧ z < 2 ^ 63) :
    Exits P ⟨.code ((normalizeIndex ⟨v, .gpr64⟩ ⟨wide, .gpr64⟩ ⟨tmp, .gpr64⟩ minVal).map .data
        ++ (rangeCheck ⟨v, .gpr64⟩ ⟨tmp', .gpr64⟩ range
        ++ [FlowInst.bCond .hi default, .adr ⟨v + 1, .gpr64⟩ table,
          .ldrswRO ⟨v + 2, .gpr64⟩ ⟨v + 1, .gpr64⟩ ⟨v, .gpr64⟩,
          .data (.bin .addRR ⟨v + 3, .gpr64⟩ (.vreg ⟨v + 1, .gpr64⟩) (.vreg ⟨v + 2, .gpr64⟩)),
          .br ⟨v + 3, .gpr64⟩])), ρ, fl⟩
      (if minVal ≤ z ∧ z ≤ minVal + range then entry (z - minVal).toNat else default) := by
  have hindex := normalizeIndex_shows v minVal hwide hρ
  refine .data _ _ ?_
  refine exits_compareCode (materializes_chain .gpr64 false rfl) htmp hindex
    fun τ hτ => Exits.bCond (fun hhi => ?_) fun hlow => ?_
  · rw [holds_hi_range hz hmin hrange hmax, Bool.not_eq_true', decide_eq_false_iff_not] at hhi
    rw [if_neg hhi]
    exact exits_enter hdefault
  rw [holds_hi_range hz hmin hrange hmax, Bool.not_eq_false', decide_eq_true_iff] at hlow
  obtain ⟨hcreated, hat⟩ := hentry (z - minVal).toNat (by omega)
  rw [if_pos hlow]
  refine exits_tableTail ?_ hcreated hat
  rw [← ofInt_natCast, Int.toNat_of_nonneg (by omega)]
  exact shows_gpr64.mp (hindex.keep hτ htmp)

variable (P range table fl default entry)

/-- **The table.**  A selector between the least and the greatest case goes to its entry, any
other to the default. -/
theorem jumpTableCode_exits {sel : VReg} {is32 : Bool}
    (hcls : (if is32 then RegClass.gpr32 else .gpr64) = sel.cls)
    (hsel : sel.id < v) (hz : Fits sel.cls z) (hρ : Shows ρ sel z) :
    Exits P ⟨.code (jumpTableCode v sel is32 minVal range table default), ρ, fl⟩
      (if minVal ≤ z ∧ z ≤ minVal + range then entry (z - minVal).toNat else default) := by
  obtain ⟨s, cls⟩ := sel
  dsimp only at hcls hsel
  subst hcls
  have hz64 := fits_64 hz
  have hafter : v < afterMin v is32 minVal := by
    unfold afterMin afterSext
    omega
  unfold jumpTableCode
  rw [append_assoc, append_assoc]
  cases is32 with
  | false =>
    exact exits_tableIndex hmin hrange hmax hdefault hentry (show s ≠ v + 4 by omega) hafter hρ hz64
  | true =>
    refine .step (exits_tableIndex hmin hrange hmax hdefault hentry
      (show v + 4 ≠ v + 5 by omega) hafter ?_ hz64)
    rw [shows_gpr64]
    refine (step_self (.ext .sxtw ⟨v + 4, .gpr64⟩ (.vreg ⟨s, .gpr32⟩)) ρ).trans ?_
    have hview : (ρ s).setWidth 32 = ofInt 32 z := hρ
    rw [← signExtend_ofInt hz, ← hview]
    rfl

end

end TrustCg.Lower.A64
