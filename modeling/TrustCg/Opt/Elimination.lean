import TrustCg.Opt.Machine

/-!
# Removing computations whose value is at hand

Common-subexpression elimination and value numbering remove an instruction when one that
comes before it on every path, its leader, has computed the same, and let the uses of the
removed definition read the register of the leader.  The function is not in SSA form and
has loops, so the leader is executed again and again.  What makes the removal sound is
that every register involved has one definition and that no path reads a register before
it is written.

* `rep_reads` : wherever a register is read, it holds the value of its representative.
* `Dropped.forward`, `Dropped.backward` : a function without some instructions runs as the
  original one does.
* `Removed.not_reads` : nothing that is left reads a removed definition.
-/

namespace TrustCg.Opt

open Ir List
open Ir.MachFunction (State Path)
open RegAlloc (BlockId InstId VReg)
open Function (update update_self)
open Option (bind_some map_some)

/-! ## Rewriting a function -/

/-- Rename the register of an operand. -/
def substOperand (sub : VReg → VReg) : MachOperand → MachOperand
  | .vreg v => .vreg (sub v)
  | op => op

/-- Rename the registers at some operand positions. -/
def substAt (sub : VReg → VReg) (positions : List ℕ) (inst : MachInst) : MachInst :=
  { inst with operands := inst.operands.zipIdx.map fun e =>
      if e.2 ∈ positions then substOperand sub e.1 else e.1 }

/-- Drop instructions from the blocks that are laid out. -/
def removeInsts (dead : List InstId) (f : MachFunction) : MachFunction :=
  { f with blocks := f.blocks.zipIdx.map fun e =>
      if e.2 ∈ f.blockOrder then { e.1 with insts := e.1.insts.filter fun i => i ∉ dead }
      else e.1 }

variable {inst : MachInst}

section

variable {sub : VReg → VReg} {positions : List ℕ}

theorem substAt_getElem? (p : ℕ) :
    (substAt sub positions inst).operands[p]? = (inst.operands[p]?).map fun op =>
      if p ∈ positions then substOperand sub op else op := by
  rw [substAt, getElem?_map, getElem?_zipIdx, Option.map_map]
  simp only [Nat.zero_add]
  rfl

theorem substAt_length : (substAt sub positions inst).operands.length = inst.operands.length := by
  simp [substAt]

theorem substAt_congr {sub' : VReg → VReg} (h : ∀ p ∈ positions, ∀ v,
    inst.operands[p]? = some (.vreg v) → sub v = sub' v) :
    substAt sub positions inst = substAt sub' positions inst := by
  have hops : (substAt sub positions inst).operands = (substAt sub' positions inst).operands := by
    refine ext_getElem? fun p => ?_
    rw [substAt_getElem?, substAt_getElem?]
    refine Option.map_congr fun op hop => ?_
    split_ifs with hp
    · cases op with
      | vreg v => rw [substOperand, substOperand, h p hp v hop]
      | _ => rfl
    · rfl
  exact congrArg (fun ops => { inst with operands := ops }) hops

theorem substAt_idem (h : ∀ v, sub (sub v) = sub v) :
    substAt sub positions (substAt sub positions inst) = substAt sub positions inst := by
  have hops : (substAt sub positions (substAt sub positions inst)).operands
      = (substAt sub positions inst).operands := by
    refine ext_getElem? fun p => ?_
    rw [substAt_getElem?, substAt_getElem?, Option.map_map]
    refine Option.map_congr fun op _ => ?_
    rw [Function.comp_apply]
    split_ifs with hp
    · cases op with
      | vreg v => rw [substOperand, substOperand, h]
      | _ => rfl
    · rfl
  exact congrArg (fun ops => { inst with operands := ops }) hops

theorem shape_substAt (hcls : ∀ p ∈ positions, ∀ v, inst.operands[p]? = some (.vreg v) →
    (sub v).cls = v.cls) : shape (substAt sub positions inst) = shape inst := by
  have hops : (substAt sub positions inst).operands.map eraseName
      = inst.operands.map eraseName := by
    refine ext_getElem? fun p => ?_
    rw [getElem?_map, getElem?_map, substAt_getElem?, Option.map_map]
    refine Option.map_congr fun op hop => ?_
    rw [Function.comp_apply]
    split_ifs with hp
    · cases op with
      | vreg v => simp only [substOperand, eraseName, hcls p hp v hop]
      | _ => rfl
    · rfl
  rw [shape, hops]
  rfl

variable {ps : List ℕ}

/-- The registers at positions where the renaming acts like `g`. -/
theorem vregsAt_substAt_eq {g : VReg → VReg} (h : ∀ p ∈ ps, ∀ v,
    inst.operands[p]? = some (.vreg v) → (if p ∈ positions then sub v else v) = g v) :
    vregsAt (substAt sub positions inst) ps = (vregsAt inst ps).map g := by
  rw [vregsAt, vregsAt, map_filterMap]
  refine filterMap_congr fun p hp => ?_
  rw [substAt_getElem?]
  cases hop : inst.operands[p]? with
  | none => rfl
  | some op =>
    simp only [map_some, bind_some]
    cases op with
    | vreg v =>
      show _ = some (g v)
      rw [← h p hp v hop]
      split <;> rfl
    | _ => split <;> rfl

/-- The registers at positions where the renaming applies or does nothing. -/
theorem vregsAt_substAt (h : ∀ p ∈ ps, ∀ v, inst.operands[p]? = some (.vreg v) →
    p ∉ positions → sub v = v) :
    vregsAt (substAt sub positions inst) ps = (vregsAt inst ps).map sub := by
  refine vregsAt_substAt_eq fun p hp v hop => ?_
  split
  · rfl
  next hpos => exact (h p hp v hop hpos).symm

theorem vregsAt_substAt_of_fixed
    (h : ∀ p ∈ ps, ∀ v, inst.operands[p]? = some (.vreg v) → p ∈ positions → sub v = v) :
    vregsAt (substAt sub positions inst) ps = vregsAt inst ps := by
  refine (vregsAt_substAt_eq (g := id) fun p hp v hop => ?_).trans (map_id _)
  split
  next hpos => exact h p hp v hop hpos
  · rfl

end

section

variable (dead : List InstId) (f : MachFunction) (b : BlockId)

theorem removeInsts_getElem? :
    (removeInsts dead f).blocks[b]? = (f.blocks[b]?).map fun block =>
      if b ∈ f.blockOrder then { block with insts := block.insts.filter fun i => i ∉ dead }
      else block := by
  rw [removeInsts, getElem?_map, getElem?_zipIdx, Option.map_map]
  simp only [Nat.zero_add]
  rfl

theorem succs_removeInsts : (removeInsts dead f).succs b = f.succs b := by
  rw [MachFunction.succs, MachFunction.succs, removeInsts_getElem?, Option.map_map]
  cases f.blocks[b]? with
  | none => rfl
  | some block =>
    rw [map_some, map_some, Function.comp_apply]
    split_ifs <;> rfl

end

variable {f : MachFunction} {b : BlockId}

theorem blockInsts_removeInsts (dead : List InstId) (hb : b ∈ f.blockOrder) :
    (removeInsts dead f).blockInsts b = (f.blockInsts b).filter fun i => i ∉ dead := by
  rw [MachFunction.blockInsts, MachFunction.blockInsts, removeInsts_getElem?, Option.map_map]
  cases f.blocks[b]? with
  | none => rfl
  | some block =>
    rw [map_some, map_some, Function.comp_apply, if_pos hb]
    rfl

/-! ## Registers with one definition -/

/-- The place is the only executed one that writes the register. -/
structure OnlyDef (f : MachFunction) (v : VReg) (i : InstId) (b : BlockId) (p : ℕ) : Prop where
  place : (f.blockInsts b)[p]? = some i
  writes : Writes f i v
  only : ∀ b' p' l j, f.Past b' p' l → (f.blockInsts b')[p']? = some j → Writes f j v →
    b' = b ∧ p' = p

variable {v : VReg} {i : InstId}

section

variable {j : InstId} {c : BlockId} {p q : ℕ} {l : List InstId}

theorem OnlyDef.onePlace (h : OnlyDef f v i b p) : f.OnePlace i := by
  intro b1 p1 l₁ b2 p2 l₂ h1 hl1 h2 hl2
  obtain ⟨rfl, rfl⟩ := h.only b1 p1 l₁ i hl1 h1 h.writes
  obtain ⟨rfl, rfl⟩ := h.only b2 p2 l₂ i hl2 h2 h.writes
  exact ⟨rfl, rfl⟩

theorem OnlyDef.eq_of_mem (h : OnlyDef f v i b p) (hl : f.Past c q l) (hj : j ∈ l)
    (hw : Writes f j v) : j = i := by
  obtain ⟨l₂, l₁, rfl⟩ := append_of_mem hj
  obtain ⟨b', p', hj', hto, -⟩ := hl.split rfl
  obtain ⟨rfl, rfl⟩ := h.only b' p' l₁ j hto hj' hw
  exact Option.some.inj (hj'.symm.trans h.place)

/-- A register that is read has been written by its only definition. -/
theorem OnlyDef.precedes (h : OnlyDef f v i b p) (hreads : ReadsWritten f) {inst : MachInst}
    (hinst : f.insts[j]? = some inst) (hv : v ∈ usedVregs inst) : f.Precedes i j := by
  intro b' p' l hj hl
  obtain ⟨d, hd, hw⟩ := hreads b' p' l j inst v hl hj hinst hv
  exact h.eq_of_mem hl hd hw ▸ hd

end

variable {p : ℕ}

/-- Where a register has been written on every path, its only definition comes before. -/
theorem OnlyDef.before {i : InstId} {a : BlockId} {q : ℕ} (h : OnlyDef f v i a p)
    (hb : f.Reachable b) (hq : q ≤ (f.blockInsts b).length)
    (hwritten : ∀ l, f.Past b q l → ∃ d ∈ l, Writes f d v) : Before f a p b q := by
  -- the definition stands on every trail, or before `q` in `b`
  have htrail : ∀ trail, Flow.Trail f.entry f.Edge b trail → a ∈ trail ∨ a = b ∧ p < q := by
    intro trail ht
    obtain ⟨l, hl, hmem⟩ := MachFunction.exists_past_of_trail ht q hq
    obtain ⟨d, hd, hw⟩ := hwritten l hl
    obtain ⟨c, k, hdc, hc, l₁, hl1⟩ := hmem d hd
    obtain ⟨rfl, rfl⟩ := h.only c k l₁ d hl1 hdc hw
    exact hc
  unfold Before
  split_ifs with hab
  · subst hab
    obtain ⟨trail, ht, hfirst⟩ := hb.exists_first
    exact ((htrail trail ht).resolve_left hfirst).2
  intro trail ht
  rcases htrail trail ht with hmem | ⟨rfl, -⟩
  · exact .inr ⟨a, hmem, rfl⟩
  · exact absurd rfl hab

/-- No two places that are laid out write the register. -/
def WrittenOnce (f : MachFunction) (v : VReg) : Prop :=
  ∀ e ∈ places f, ∀ e' ∈ places f, Writes f e.2.2 v → Writes f e'.2.2 v → e = e'

theorem writtenOnce_of_countP (hstatus : NoStatusWrites f)
    (h : ¬ 1 < (places f).countP fun e => v ∈ definedAt f e.2.2) : WrittenOnce f v := by
  intro e he e' he' hw hw'
  rw [countP_eq_length_filter] at h
  have hmem : e ∈ (places f).filter fun e => v ∈ definedAt f e.2.2 :=
    mem_filter.2 ⟨he, by simpa [mem_definedAt hstatus] using hw⟩
  have hmem' : e' ∈ (places f).filter fun e => v ∈ definedAt f e.2.2 :=
    mem_filter.2 ⟨he', by simpa [mem_definedAt hstatus] using hw'⟩
  generalize (places f).filter (fun e => v ∈ definedAt f e.2.2) = l at h hmem hmem'
  rcases l with _ | ⟨a, _ | ⟨b, l⟩⟩
  · simp at hmem
  · exact (mem_singleton.1 hmem).trans (mem_singleton.1 hmem').symm
  · simp at h

section

variable {q : ℕ} (hlisted : Listed f)
include hlisted

theorem WrittenOnce.onlyDef (h : WrittenOnce f v) (hb : f.Reachable b)
    (hi : (f.blockInsts b)[q]? = some i) (hw : Writes f i v) : OnlyDef f v i b q := by
  refine ⟨hi, hw, ?_⟩
  intro b' q' l j hl hj hwj
  have hplace := h _ (mem_places.2 ⟨hlisted b' hl.reachable, hj⟩) _
    (mem_places.2 ⟨hlisted b hb, hi⟩) hwj hw
  exact ⟨congrArg Prod.fst hplace, congrArg (fun e => e.2.1) hplace⟩

/-- A register that is read and not written twice has one definition. -/
theorem WrittenOnce.exists_onlyDef (h : WrittenOnce f v) (hreads : ReadsWritten f)
    (hb : f.Reachable b) (hi : (f.blockInsts b)[q]? = some i) (hinst : f.insts[i]? = some inst)
    (hv : v ∈ usedVregs inst) : ∃ d a p, OnlyDef f v d a p ∧ f.Reachable a ∧ Before f a p b q := by
  have hq : q ≤ (f.blockInsts b).length := (List.getElem?_eq_some_iff.1 hi).1.le
  obtain ⟨l, hl⟩ := MachFunction.exists_past hb hq
  obtain ⟨d, hd, hw⟩ := hreads b q l i inst v hl hi hinst hv
  obtain ⟨l₂, l₁, rfl⟩ := append_of_mem hd
  obtain ⟨a, p, hda, hto, -⟩ := hl.split rfl
  have honly := h.onlyDef hlisted hto.reachable hda hw
  exact ⟨d, a, p, honly, hto.reachable,
    honly.before hb hq fun l hl => hreads b q l i inst v hl hi hinst hv⟩

end

/-- An instruction at a reachable place that writes one register, which nothing else
writes. -/
structure SoleDef (f : MachFunction) (b : BlockId) (q : ℕ) (i : InstId) (inst : MachInst)
    (v : VReg) : Prop where
  reachable : f.Reachable b
  place : (f.blockInsts b)[q]? = some i
  getInst : f.insts[i]? = some inst
  defs : writtenVregs inst = [v]
  once : WrittenOnce f v

variable {j : InstId}

section

variable {q : ℕ}

section

variable (h : SoleDef f b q i inst v)
include h

theorem SoleDef.writes : Writes f i v :=
  ⟨inst, h.getInst, by rw [h.defs]; simp⟩

theorem SoleDef.onlyDef (hlisted : Listed f) : OnlyDef f v i b q :=
  h.once.onlyDef hlisted h.reachable h.place h.writes

/-- If the definition does not read what it writes, no instruction reads and writes the
register in one operand. -/
theorem SoleDef.not_defUse (hlisted : Listed f)
    (hdisj : ∀ p ∈ defOperandPositions inst.opcode inst.operands.length,
      p ∉ useOperandPositions inst.opcode inst.operands.length)
    {b' : BlockId} {q' : ℕ} {inst' : MachInst} (hb : f.Reachable b')
    (hj : (f.blockInsts b')[q']? = some j) (hinst' : f.insts[j]? = some inst')
    (hdef : p ∈ defOperandPositions inst'.opcode inst'.operands.length)
    (hv : inst'.operands[p]? = some (.vreg v)) :
    p ∉ useOperandPositions inst'.opcode inst'.operands.length := by
  obtain ⟨l, hl⟩ := MachFunction.exists_past hb (List.getElem?_eq_some_iff.1 hj).1.le
  obtain ⟨rfl, rfl⟩ := (h.onlyDef hlisted).only b' q' l j hl hj
    ⟨inst', hinst', mem_writtenVregs_of_defined (mem_definedVregs hdef hv)⟩
  cases hj.symm.trans h.place
  cases hinst'.symm.trans h.getInst
  exact hdisj p hdef

end

end

/-! ## Walks in preorder -/

/-- An order of the reachable blocks in which each comes after its dominators. -/
structure Preorder (f : MachFunction) (order : List BlockId) : Prop where
  nodup : order.Nodup
  mem_iff : ∀ b, b ∈ order ↔ f.Reachable b
  before : ∀ l₁ b l₂, order = l₁ ++ b :: l₂ → ∀ a, Dominates f a b → a ≠ b → a ∈ l₁

section

variable {order : List BlockId}

/-- The order of a walk: by block, and by position in a block. -/
def EarlierIn (order : List BlockId) (e e' : BlockId × ℕ × InstId) : Prop :=
  order.idxOf e.1 < order.idxOf e'.1 ∨ e.1 = e'.1 ∧ e.2.1 < e'.2.1

theorem pairwise_placesIn (hnodup : order.Nodup) :
    (placesIn f order).Pairwise (EarlierIn order) := by
  rw [placesIn, pairwise_flatMap]
  constructor
  · intro b _
    rw [pairwise_map, pairwise_iff_getElem]
    intro p q hp hq hpq
    refine .inr ⟨rfl, ?_⟩
    simpa using hpq
  rw [pairwise_iff_getElem]
  intro m n hm hn hmn e he e' he'
  obtain ⟨-, -, rfl⟩ := mem_map.1 he
  obtain ⟨-, -, rfl⟩ := mem_map.1 he'
  refine .inl ?_
  rwa [hnodup.idxOf_getElem, hnodup.idxOf_getElem]

variable {done rest : List (BlockId × ℕ × InstId)} {e e' : BlockId × ℕ × InstId}

section

variable (hnodup : order.Nodup) (hsplit : placesIn f order = done ++ e :: rest)
include hnodup hsplit

theorem earlierIn_of_mem_done (he' : e' ∈ done) : EarlierIn order e' e := by
  have hpairs := pairwise_placesIn (f := f) hnodup
  rw [hsplit] at hpairs
  exact (pairwise_append.1 hpairs).2.2 e' he' e (.head _)

theorem mem_done_of_earlierIn (he' : e' ∈ placesIn f order) (hlt : EarlierIn order e' e) :
    e' ∈ done := by
  have hasymm : ¬ EarlierIn order e e' := by
    intro hgt
    rcases hlt with hlt | ⟨heq, hlt⟩ <;> rcases hgt with hgt | ⟨heq', hgt⟩
    · omega
    · rw [heq'] at hlt; omega
    · rw [heq] at hgt; omega
    · omega
  have hpairs := pairwise_placesIn (f := f) hnodup
  rw [hsplit] at hpairs he'
  rcases mem_append.1 he' with hmem | hmem
  · exact hmem
  rcases mem_cons.1 hmem with rfl | hmem
  · exact absurd hlt hasymm
  · exact absurd (rel_of_pairwise_cons (pairwise_append.1 hpairs).2.1 hmem) hasymm

end

/-- What has been visited before in a dominating block comes before on every path. -/
theorem before_of_mem_done (hnodup : order.Nodup) (hsplit : placesIn f order = done ++ e :: rest)
    (he' : e' ∈ done) (hdom : Dominates f e'.1 e.1) : Before f e'.1 e'.2.1 e.1 e.2.1 := by
  unfold Before
  split_ifs with heq
  · rcases earlierIn_of_mem_done hnodup hsplit he' with hlt | ⟨-, hlt⟩
    · exact absurd hlt (heq ▸ lt_irrefl _)
    · exact hlt
  · exact hdom

/-- What comes before a place on every path has been visited before it. -/
theorem Preorder.mem_done (horder : Preorder f order)
    (hsplit : placesIn f order = done ++ e :: rest) (he' : e' ∈ placesIn f order)
    (hbefore : Before f e'.1 e'.2.1 e.1 e.2.1) : e' ∈ done := by
  refine mem_done_of_earlierIn horder.nodup hsplit he' ?_
  unfold Before at hbefore
  split_ifs at hbefore with hab
  · exact .inr ⟨hab, hbefore⟩
  refine .inl ?_
  have heb : e.1 ∈ order := by
    have hmem : (e.1, e.2.1, e.2.2) ∈ placesIn f order := by rw [hsplit]; simp
    exact (mem_placesIn.1 hmem).1
  obtain ⟨l₁, l₂, hl⟩ := append_of_mem heb
  have hmem := horder.before l₁ e.1 l₂ hl e'.1 hbefore hab
  have hnodup := horder.nodup
  rw [hl] at hnodup ⊢
  have hnot : e.1 ∉ l₁ := fun h => (nodup_append.1 hnodup).2.2 e.1 h e.1 (.head _) rfl
  rw [idxOf_append_of_mem hmem, idxOf_append_of_notMem hnot]
  exact Nat.lt_add_right _ (idxOf_lt_length_of_mem hmem)

variable (hlisted : Listed f) (horder : Preorder f order)
include hlisted horder

theorem mem_places_of_mem_placesIn (he : e ∈ placesIn f order) : e ∈ places f := by
  obtain ⟨b, q, i⟩ := e
  obtain ⟨hb, hi⟩ := mem_placesIn.1 he
  exact mem_places.2 ⟨hlisted b ((horder.mem_iff b).1 hb), hi⟩

theorem not_writes_done (h : WrittenOnce f v) (hsplit : placesIn f order = done ++ e :: rest)
    (hw : Writes f e.2.2 v) : ∀ e' ∈ done, ¬ Writes f e'.2.2 v := by
  intro e' he' hw'
  have hmem : ∀ x ∈ done ++ e :: rest, x ∈ places f := fun x hx =>
    mem_places_of_mem_placesIn hlisted horder (by rw [hsplit]; exact hx)
  have heq := h e (hmem e (by simp)) e' (hmem e' (by simp [he'])) hw hw'
  subst heq
  rcases earlierIn_of_mem_done horder.nodup hsplit he' with hlt | ⟨-, hlt⟩
  · exact lt_irrefl _ hlt
  · exact lt_irrefl _ hlt

end

/-- Related lists stay related when the second is swapped, if the first is too. -/
theorem forall₂_swap {α β : Type*} {R : α → β → Prop} {l : List α} {m m' : List β}
    (h : Forall₂ R l m) (hm : m' = m ∨ ∃ a b, m = [a, b] ∧ m' = [b, a]) :
    ∃ l', Forall₂ R l' m' ∧ (l' = l ∨ ∃ a b, l = [a, b] ∧ l' = [b, a]) := by
  rcases hm with rfl | ⟨_, _, rfl, rfl⟩
  · exact ⟨l, h, .inl rfl⟩
  obtain ⟨a, _, ha, hrest, rfl⟩ := forall₂_cons_right_iff.1 h
  obtain ⟨b, _, hb, hnil, rfl⟩ := forall₂_cons_right_iff.1 hrest
  obtain rfl := forall₂_nil_right_iff.1 hnil
  exact ⟨[b, a], .cons hb (.cons ha .nil), .inr ⟨a, b, rfl, rfl⟩⟩

theorem mem_of_lookup {α β : Type*} [BEq α] [LawfulBEq α] {l : List (α × β)} {a : α} {b : β}
    (h : l.lookup a = some b) : (a, b) ∈ l := by
  obtain ⟨l1, l2, rfl, -⟩ := lookup_eq_some_iff.1 h
  simp

/-! ## Removable instructions -/

section

variable {V H : Type*} {E L : InstId} {instE : MachInst} {y x : VReg} {us : List VReg}
    {s : State (Env V H)}

/-- What the instruction writes is a function of the values of some registers it reads. -/
structure Computes (M : Machine V H) (inst : MachInst) (vs : List VReg)
    (comp : List V → H → V) : Prop where
  reads : ∀ v ∈ vs, v ∈ usedVregs inst
  value : ∀ (regs : VReg → V) h,
    (M.exec (shape inst) ((usedVregs inst).map regs) h).1 = [comp (vs.map regs) h]

/-- The instruction `E`, which writes `y`, computes what its leader `L` has left in `x`.
Both compute the same from registers with the same representatives, and since the last
execution of `L` nothing has been executed that changes the function. -/
structure Removable (M : Machine V H) (f : MachFunction) (rep : VReg → VReg) (E L : InstId)
    (y x : VReg) : Prop where
  onlyE : ∃ b p, OnlyDef f y E b p
  onlyL : ∃ b p, OnlyDef f x L b p
  ne : x ≠ y
  precedes : f.Precedes L E
  same : ∃ instE instL ws us comp, ∃ kills : InstId → Prop,
    f.insts[E]? = some instE ∧ f.insts[L]? = some instL
      ∧ writtenVregs instE = [y] ∧ writtenVregs instL = [x]
      ∧ Computes M instE ws comp ∧ Computes M instL us comp ∧ us.map rep = ws.map rep
      ∧ (∀ u ∈ us, ∃ i b p, OnlyDef f (rep u) i b p)
      ∧ (∀ i inst, f.insts[i]? = some inst → ¬ kills i → ∀ vals xs h,
          comp xs (M.exec (shape inst) vals h).2 = comp xs h)
      ∧ ¬ kills L
      ∧ ∀ b q l₂ l₁, (f.blockInsts b)[q]? = some E → f.Past b q (l₂ ++ L :: l₁) → L ∉ l₂ →
          ∀ i ∈ l₂, ¬ kills i
  quiet : ∀ inst, f.insts[E]? = some inst → ∀ (regs : VReg → V) h,
    (M.exec (shape inst) ((usedVregs inst).map regs) h).2 = h

/-- Registers are represented by themselves or by the register of a leader. -/
structure Represents (M : Machine V H) (f : MachFunction) (rep : VReg → VReg) : Prop where
  idem : ∀ v, rep (rep v) = rep v
  removable : ∀ v, rep v ≠ v → ∃ E L, Removable M f rep E L v (rep v)

variable {M : Machine V H} {rep : VReg → VReg}

theorem Represents.of_removable (hidem : ∀ v, rep v ≠ v → rep (rep v) = rep v)
    (hrem : ∀ v, rep v ≠ v → ∃ E L, Removable M f rep E L v (rep v)) : Represents M f rep := by
  refine ⟨fun v => ?_, hrem⟩
  by_cases hself : rep v = v
  · rw [hself, hself]
  · exact hidem v hself

/-- An instruction is removable in favour of one that comes before it on every path and
computes the same. -/
theorem SoleDef.removable (hlast : f.BranchesLast) (hlisted : Listed f) (hreads : ReadsWritten f)
    (hleaders : ∀ v, rep v ≠ v → ∃ b q i inst, SoleDef f b q i inst (rep v)) {bE bL : BlockId}
    {qE qL : ℕ} {instL : MachInst} (hE : SoleDef f bE qE E instE y) (hL : SoleDef f bL qL L instL x)
    (hbefore : Before f bL qL bE qE) (kills : InstId → Prop) {ws : List VReg}
    {comp : List V → H → V} (hcompE : Computes M instE ws comp) (hcompL : Computes M instL us comp)
    (hsame : us.map rep = ws.map rep) (honce : ∀ u ∈ us, WrittenOnce f u)
    (hkeep : ∀ i inst, f.insts[i]? = some inst → ¬ kills i → ∀ vals xs h,
      comp xs (M.exec (shape inst) vals h).2 = comp xs h) (hkillsL : ¬ kills L)
    (hbetween : ∀ l₂ l₁, f.Past bE qE (l₂ ++ L :: l₁) → L ∉ l₂ → ∀ i ∈ l₂, ¬ kills i)
    (hquiet : ∀ (regs : VReg → V) h, (M.exec (shape instE) ((usedVregs instE).map regs) h).2 = h) :
    Removable M f rep E L y x := by
  have honlyE := hE.onlyDef hlisted
  have honlyL := hL.onlyDef hlisted
  refine ⟨⟨bE, qE, honlyE⟩, ⟨bL, qL, honlyL⟩, ?_, ?_, ⟨instE, instL, ws, us, comp, kills,
    hE.getInst, hL.getInst, hE.defs, hL.defs, hcompE, hcompL, hsame, ?_, hkeep, hkillsL, ?_⟩, ?_⟩
  · -- one register cannot have its only definition at two places
    intro heq
    obtain ⟨l, hl⟩ := MachFunction.exists_past hL.reachable
      (List.getElem?_eq_some_iff.1 hL.place).1.le
    obtain ⟨rfl, rfl⟩ := honlyE.only _ _ l L hl hL.place (heq ▸ hL.writes)
    unfold Before at hbefore
    rw [if_pos rfl] at hbefore
    exact lt_irrefl _ hbefore
  · intro b q l hi hl
    obtain ⟨rfl, rfl⟩ := honlyE.only b q l E hl hi hE.writes
    exact hbefore.mem hlast hL.place (not_branch_of_writes hL.writes) hl
  · intro u hu
    by_cases hself : rep u = u
    · rw [hself]
      obtain ⟨d, a, p, honly, -⟩ := (honce u hu).exists_onlyDef hlisted hreads hL.reachable
        hL.place hL.getInst (hcompL.reads u hu)
      exact ⟨d, a, p, honly⟩
    obtain ⟨b, q, i, inst, hsole⟩ := hleaders u hself
    exact ⟨i, b, q, hsole.onlyDef hlisted⟩
  · intro b q l₂ l₁ hi hl
    obtain ⟨rfl, rfl⟩ := honlyE.only b q _ E hl hi hE.writes
    exact hbetween l₂ l₁ hl
  intro inst hinst
  cases hE.getInst.symm.trans hinst
  exact hquiet

/-- The definition of the representative comes before the reads of the register. -/
theorem Represents.precedes (hrep : Represents M f rep) (hreads : ReadsWritten f) {u : VReg}
    (honly : OnlyDef f (rep u) i b p) (hinst : f.insts[j]? = some inst) (hu : u ∈ usedVregs inst) :
    f.Precedes i j := by
  by_cases hself : rep u = u
  · rw [hself] at honly
    exact honly.precedes hreads hinst hu
  obtain ⟨E, L, hrem⟩ := hrep.removable u hself
  obtain ⟨bE, pE, honlyE⟩ := hrem.onlyE
  obtain ⟨bL, pL, honlyL⟩ := hrem.onlyL
  intro b' q l hj hl
  have hL : L ∈ l := hrem.precedes.mem hl (honlyE.precedes hreads hinst hu b' q l hj hl)
  exact honly.eq_of_mem hl hL honlyL.writes ▸ hL

theorem Machine.apply_regs_single {env : Env V H} {x : V} (hdefs : writtenVregs inst = [v])
    (hout : (M.exec (shape inst) ((usedVregs inst).map env.regs) env.hidden).1 = [x]) :
    (M.apply i inst env).regs v = x := by
  simp only [Machine.apply, hdefs, hout]
  exact update_self ..

theorem map_rep_congr {regs : VReg → V}
    (h : ∀ u ∈ us, regs u = regs (rep u)) : us.map regs = (us.map rep).map regs := by
  rw [map_map]
  exact map_congr_left h

/-- A register has been written on every path to the state. -/
def Written (f : MachFunction) (s : State (Env V H)) (v : VReg) : Prop :=
  ∀ l, f.Past s.block s.pos l → ∃ d ∈ l, Writes f d v

theorem written_of_reads (hreads : ReadsWritten f) (hi : f.AboutTo s i)
    (hinst : f.insts[i]? = some inst) (hv : v ∈ usedVregs inst) : Written f s v :=
  fun l hl => hreads s.block s.pos l i inst v hl hi hinst hv

section

variable (hrep : Represents M f rep) (hreads : ReadsWritten f)
include hrep hreads

/-- Before `E` is executed, the register of its leader holds what `E` computes. -/
theorem Removable.value_eq (hrem : Removable M f rep E L y x) (hs : M.Run f s)
    (hE : f.AboutTo s E) (hinstE : f.insts[E]? = some instE)
    (ih : ∀ s', M.Run f s' → s'.env.trace.length ≤ s.env.trace.length → ∀ v, Written f s' v →
      s'.env.regs v = s'.env.regs (rep v)) :
    (M.exec (shape instE) ((usedVregs instE).map s.env.regs) s.env.hidden).1
      = [s.env.regs x] := by
  obtain ⟨instE', instL, ws, us, comp, kills, hE', hinstL, -, hdefsL, hcE, hcL, hsame, honly,
    hkeep, hL, hbetween⟩ := hrem.same
  cases hinstE.symm.trans hE'
  obtain ⟨bL, pL, honlyL⟩ := hrem.onlyL
  have hlmem := hrem.precedes s.block s.pos _ hE hs.past
  obtain ⟨l₂, l₁, hl, hlast⟩ := eq_append_cons_of_mem hlmem
  have hpast := hs.past
  rw [hl] at hpast
  -- the register keeps what `L` has computed from registers that keep their values
  have hfact : s.env.regs x = comp ((us.map rep).map s.env.regs) s.env.hidden := by
    refine hs.fact (fun regs h => regs x = comp ((us.map rep).map regs) h) L
      (fun i => kills i ∨ Writes f i x ∨ ∃ u ∈ us, Writes f i (rep u)) ?_ ?_ l₂ hl ?_
    · intro s0 inst hs0 hi0 htrace hinst
      cases hinstL.symm.trans hinst
      have hshort : s0.env.trace.length ≤ s.env.trace.length := by
        have hlen := congrArg List.length hl
        have hlen0 := congrArg List.length htrace
        simp only [length_map, length_append, length_cons] at hlen hlen0
        omega
      have hvals : us.map s0.env.regs = (us.map rep).map s0.env.regs := map_rep_congr fun u hu =>
          ih s0 hs0 hshort u (written_of_reads hreads hi0 hinst (hcL.reads u hu))
      have hx := Machine.apply_regs_single (i := L) hdefsL (hcL.value s0.env.regs s0.env.hidden)
      -- the definition of an operand comes before `L`, so it is not `L`
      have hkept : (us.map rep).map (M.apply L instL s0.env).regs
          = (us.map rep).map s0.env.regs := by
        refine map_congr_left fun r hr => ?_
        obtain ⟨u, hu, rfl⟩ := mem_map.1 hr
        refine Machine.apply_regs_of_notMem fun hmem => ?_
        obtain ⟨i, b, p, hi⟩ := honly u hu
        have hLi : L = i := by
          obtain ⟨rfl, rfl⟩ := hi.only _ _ _ L hs0.past hi0 ⟨instL, hinst, hmem⟩
          exact Option.some.inj (hi0.symm.trans hi.place)
        have hself := hrep.precedes hreads hi hinst (hcL.reads u hu)
        rw [← hLi] at hself
        exact MachFunction.not_precedes_self hi0 _ hs0.past hself
      rw [hkept, ← hvals, hx]
      exact (hkeep L instL hinst hL _ _ _).symm
    · intro i inst env hinst hnot hF
      have hx : x ∉ writtenVregs inst := fun h => hnot (.inr (.inl ⟨inst, hinst, h⟩))
      have hkept : (us.map rep).map (M.apply i inst env).regs = (us.map rep).map env.regs := by
        refine map_congr_left fun r hr => ?_
        obtain ⟨u, hu, rfl⟩ := mem_map.1 hr
        exact Machine.apply_regs_of_notMem
          fun h => hnot (.inr (.inr ⟨u, hu, inst, hinst, h⟩))
      rw [hkept, Machine.apply_regs_of_notMem hx, hF]
      exact (hkeep i inst hinst (fun h => hnot (.inl h)) _ _ _).symm
    · rintro i hi (hk | hw | ⟨u, hu, hw⟩)
      · exact hbetween _ _ _ _ hE hpast hlast i hi hk
      · have hiL := honlyL.eq_of_mem hpast (mem_append_left _ hi) hw
        exact hlast (hiL ▸ hi)
      -- after each definition of an operand `L` is executed again
      obtain ⟨d, b, p, hd⟩ := honly u hu
      have hid := hd.eq_of_mem hpast (mem_append_left _ hi) hw
      subst hid
      obtain ⟨m2, m1, rfl⟩ := append_of_mem hi
      have hafter : L ∈ m2 := by
        refine Path.mem_after hd.onePlace
          (hrep.precedes hreads hd hinstL (hcL.reads u hu)) ?_ (m1 ++ L :: l₁) ?_ (c := s.block)
          (q := s.pos)
        · exact fun l hl => hrem.precedes _ _ l hE hl
        · simpa using hpast
      exact hlast (mem_append_left _ hafter)
  have hvals : ws.map s.env.regs = (ws.map rep).map s.env.regs := map_rep_congr fun w hw =>
      ih s hs le_rfl w (written_of_reads hreads hE hinstE (hcE.reads w hw))
  rw [hcE.value, hfact, hvals, hsame]

/-- **A register that is read holds the value of its representative.** -/
theorem rep_reads :
    ∀ (n : ℕ) (s : State (Env V H)), M.Run f s → s.env.trace.length = n → ∀ v, Written f s v →
      s.env.regs v = s.env.regs (rep v) := by
  intro n
  -- by induction on the length of the run: what `E` computes has been computed before
  induction n using Nat.strong_induction_on with
  | _ n ih =>
    intro s hs hn v hv
    by_cases hself : rep v = v
    · rw [hself]
    obtain ⟨E, L, hrem⟩ := hrep.removable v hself
    obtain ⟨bE, pE, honlyE⟩ := hrem.onlyE
    obtain ⟨bL, pL, honlyL⟩ := hrem.onlyL
    have hEmem : ∀ l, f.Past s.block s.pos l → E ∈ l := by
      intro l hl
      obtain ⟨d, hd, hw⟩ := hv l hl
      exact honlyE.eq_of_mem hl hd hw ▸ hd
    obtain ⟨l₂, l₁, hl, hlast⟩ := eq_append_cons_of_mem (hEmem _ hs.past)
    have hpast := hs.past
    rw [hl] at hpast
    refine hs.fact (fun regs _ => regs v = regs (rep v)) E
      (fun i => Writes f i v ∨ Writes f i (rep v)) ?_ ?_ l₂ hl ?_
    · intro s0 inst hs0 hi0 htrace hinst
      obtain ⟨instE, -, -, -, -, -, hE, -, hdefs, -⟩ := hrem.same
      cases hinst.symm.trans hE
      have hshort : s0.env.trace.length < n := by
        have hlen := congrArg List.length hl
        have hlen0 := congrArg List.length htrace
        simp only [length_map, length_append, length_cons] at hlen hlen0
        omega
      have hval := hrem.value_eq hrep hreads hs0 hi0 hinst fun s' hs' hle v' hv' =>
        ih s'.env.trace.length (lt_of_le_of_lt hle hshort) s' hs' rfl v' hv'
      rw [Machine.apply_regs_single hdefs hval]
      refine (Machine.apply_regs_of_notMem ?_).symm
      rw [hdefs]
      simpa using hself
    · intro i inst env hinst hnot hF
      rw [Machine.apply_regs_of_notMem fun h => hnot (.inl ⟨inst, hinst, h⟩),
        Machine.apply_regs_of_notMem fun h => hnot (.inr ⟨inst, hinst, h⟩)]
      exact hF
    rintro i hi (hw | hw)
    · have hiE := honlyE.eq_of_mem hpast (mem_append_left _ hi) hw
      exact hlast (hiE ▸ hi)
    -- after each execution of `L` comes one of `E`
    have hiL := honlyL.eq_of_mem hpast (mem_append_left _ hi) hw
    subst hiL
    obtain ⟨m2, m1, rfl⟩ := append_of_mem hi
    have hafter : E ∈ m2 := by
      refine Path.mem_after honlyL.onePlace hrem.precedes hEmem (m1 ++ E :: l₁) ?_
      simpa using hpast
    exact hlast (mem_append_left _ hafter)

end

end

/-! ## The function without the removed instructions -/

section

variable {V H : Type*} {inst' : MachInst}

/-- `g` is `f` without the removed instructions, and reads representatives. -/
structure Removed (M : Machine V H) (f g : MachFunction) (rep : VReg → VReg)
    (removed : List InstId) : Prop where
  represents : Represents M f rep
  removable : ∀ i ∈ removed, ∃ y L, rep y ≠ y ∧ Removable M f rep i L y (rep y)
  entry : g.entry = f.entry
  succs : ∀ b, f.Reachable b → g.succs b = f.succs b
  blockInsts : ∀ b, f.Reachable b → g.blockInsts b = (f.blockInsts b).filter fun i => i ∉ removed
  insts : ∀ b, f.Reachable b → ∀ i ∈ f.blockInsts b,
    (f.insts[i]? = none ∧ g.insts[i]? = none) ∨ ∃ inst inst', f.insts[i]? = some inst
      ∧ g.insts[i]? = some inst' ∧ shape inst' = shape inst
      ∧ writtenVregs inst' = writtenVregs inst ∧ usedVregs inst' = (usedVregs inst).map rep

/-- The states of the two functions at the same point: they agree but for the removed
instructions and the registers these write. -/
structure Matches (f : MachFunction) (removed : List InstId) (s t : State (Env V H)) : Prop where
  block : t.block = s.block
  pos : t.pos = (((f.blockInsts s.block).take s.pos).filter fun i => i ∉ removed).length
  hidden : t.env.hidden = s.env.hidden
  regs : ∀ v, (∀ i ∈ removed, ¬ Writes f i v) → t.env.regs v = s.env.regs v
  trace : t.env.trace = s.env.trace.filter fun e => e.1 ∉ removed

/-- `g` is `f` without the removed instructions, which change registers only; what is left
reads the same values. -/
structure Dropped (M : Machine V H) (f g : MachFunction) (removed : List InstId) : Prop where
  entry : g.entry = f.entry
  succs : ∀ b, f.Reachable b → g.succs b = f.succs b
  blockInsts : ∀ b, f.Reachable b → g.blockInsts b = (f.blockInsts b).filter fun i => i ∉ removed
  noBranch : ∀ i ∈ removed, f.isBranchAt i = false
  quiet : ∀ i ∈ removed, ∃ inst, f.insts[i]? = some inst ∧ ∀ (regs : VReg → V) h,
    (M.exec (shape inst) ((usedVregs inst).map regs) h).2 = h
  insts : ∀ b, f.Reachable b → ∀ i ∈ f.blockInsts b,
    (f.insts[i]? = none ∧ g.insts[i]? = none) ∨ ∃ inst inst', f.insts[i]? = some inst
      ∧ g.insts[i]? = some inst' ∧ shape inst' = shape inst
      ∧ writtenVregs inst' = writtenVregs inst
      ∧ ∀ s t, M.Run f s → f.AboutTo s i → i ∉ removed → Matches f removed s t →
        (usedVregs inst').map t.env.regs = (usedVregs inst).map s.env.regs

theorem filter_drop {α : Type*} (P : α → Bool) (l : List α) (n : ℕ) :
    (l.filter P).drop ((l.take n).filter P).length = (l.drop n).filter P := by
  conv_lhs => rw [← take_append_drop n l]
  rw [filter_append, take_append_drop, drop_left]

theorem setAll_congr (vs : List VReg) (xs : List V) (regs regs' : VReg → V)
    (h : regs v = regs' v) : setAll regs vs xs v = setAll regs' vs xs v := by
  induction vs generalizing xs regs regs' with
  | nil => exact h
  | cons w vs ih =>
    cases xs with
    | nil => exact h
    | cons x xs =>
      refine ih xs _ _ ?_
      show update regs w x v = update regs' w x v
      rw [Function.update_apply, Function.update_apply, h]

variable {M : Machine V H} {g : MachFunction} {rep : VReg → VReg} {removed : List InstId}
    {s t : State (Env V H)}

theorem Removed.of_unchanged (hrep : Represents M f rep)
    (hremovable : ∀ i ∈ removed, ∃ y L, rep y ≠ y ∧ Removable M f rep i L y (rep y))
    (hid : ∀ v, rep v = v) : Removed M f f rep removed := by
  have hnone : removed = [] := by
    rw [eq_nil_iff_forall_not_mem]
    intro i hi
    obtain ⟨y, -, hy, -⟩ := hremovable i hi
    exact hy (hid y)
  refine ⟨hrep, hremovable, rfl, fun _ _ => rfl, ?_, ?_⟩
  · intro b _
    rw [hnone]
    simp
  intro b _ i _
  cases hinst : f.insts[i]? with
  | none => exact .inl ⟨rfl, rfl⟩
  | some inst =>
    refine .inr ⟨inst, inst, rfl, rfl, rfl, rfl, ?_⟩
    rw [map_congr_left fun v _ => hid v, map_id']

/-- The instructions have been rewritten and removed from the blocks that are laid out. -/
theorem Removed.of_rewritten (hlisted : Listed f) (hrep : Represents M f rep)
    (hremovable : ∀ i ∈ removed, ∃ y L, rep y ≠ y ∧ Removable M f rep i L y (rep y))
    {insts : List MachInst} (hlen : insts.length = f.insts.length)
    (hinsts : ∀ b, f.Reachable b → ∀ i ∈ f.blockInsts b, ∀ inst, f.insts[i]? = some inst →
      ∃ inst', insts[i]? = some inst' ∧ shape inst' = shape inst
        ∧ writtenVregs inst' = writtenVregs inst ∧ usedVregs inst' = (usedVregs inst).map rep) :
    Removed M f (removeInsts removed { f with insts := insts }) rep removed := by
  refine ⟨hrep, hremovable, rfl, fun b _ => succs_removeInsts _ _ b, ?_, ?_⟩
  · intro b hb
    exact blockInsts_removeInsts removed (f := { f with insts := insts }) (hlisted b hb)
  intro b hb i hi
  cases hinst : f.insts[i]? with
  | none =>
    refine .inl ⟨rfl, ?_⟩
    show insts[i]? = none
    rw [getElem?_eq_none_iff, hlen]
    exact getElem?_eq_none_iff.1 hinst
  | some inst =>
    obtain ⟨inst', hinst', hrest⟩ := hinsts b hb i hi inst hinst
    exact .inr ⟨inst, inst', rfl, hinst', hrest⟩

section

variable (h : Removed M f g rep removed)
include h

/-- A removed instruction writes one register, which is represented by another. -/
theorem Removed.writes (hi : i ∈ removed) (hw : Writes f i v) : rep v ≠ v := by
  obtain ⟨y, L, hy, hrem⟩ := h.removable i hi
  obtain ⟨instE, -, -, -, -, -, hE, -, hdefs, -⟩ := hrem.same
  obtain ⟨inst, hinst, hv⟩ := hw
  cases hE.symm.trans hinst
  rw [hdefs, mem_singleton] at hv
  rwa [hv]

theorem Removed.not_writes_rep (v : VReg) : ∀ i ∈ removed, ¬ Writes f i (rep v) :=
  fun _ hi hw => h.writes hi hw (h.represents.idem v)

/-- **Nothing that is left reads a removed definition.** -/
theorem Removed.not_reads (hb : f.Reachable b) (hj : j ∈ g.blockInsts b)
    (hinst' : g.insts[j]? = some inst') (hv : v ∈ usedVregs inst') :
    ∀ i ∈ removed, ¬ Writes f i v := by
  rw [h.blockInsts b hb] at hj
  rcases h.insts b hb j (mem_of_mem_filter hj) with ⟨-, hg⟩ | ⟨inst, inst1, -, hg, -, -, hu⟩
  · rw [hinst'] at hg; simp at hg
  cases hinst'.symm.trans hg
  rw [hu] at hv
  obtain ⟨w, -, rfl⟩ := mem_map.1 hv
  exact h.not_writes_rep w

end

theorem take_succ_of_getElem? {α : Type*} {l : List α} {n : ℕ} {a : α} (h : l[n]? = some a) :
    l.take (n + 1) = l.take n ++ [a] := by
  rw [take_add_one, h]
  rfl

section

variable (h : Removed M f g rep removed) (hreads : ReadsWritten f) (hs : M.Run f s)
include h hreads hs

theorem Removed.vals_eq (hm : Matches f removed s t) (hi : f.AboutTo s i)
    (hinst : f.insts[i]? = some inst) (hused : usedVregs inst' = (usedVregs inst).map rep) :
    (usedVregs inst').map t.env.regs = (usedVregs inst).map s.env.regs := by
  rw [hused, map_map]
  refine map_congr_left fun v hv => ?_
  calc t.env.regs (rep v) = s.env.regs (rep v) := hm.regs _ (h.not_writes_rep v)
    _ = s.env.regs v := (rep_reads h.represents hreads _ s hs rfl v
        (written_of_reads hreads hi hinst hv)).symm

/-- **What a removed instruction would have computed** is in the register of its leader. -/
theorem Removed.value_eq (hi : f.AboutTo s i) (hr : i ∈ removed) (hinst : f.insts[i]? = some inst)
    (hv : v ∈ writtenVregs inst) :
    (M.exec (shape inst) ((usedVregs inst).map s.env.regs) s.env.hidden).1
      = [s.env.regs (rep v)] := by
  obtain ⟨y, L, -, hrem⟩ := h.removable i hr
  have hvy : v = y := by
    obtain ⟨instE, -, -, -, -, -, hE, -, hdefs, -⟩ := hrem.same
    cases hE.symm.trans hinst
    rw [hdefs] at hv
    exact mem_singleton.1 hv
  rw [hvy]
  exact hrem.value_eq h.represents hreads hs hi hinst fun s' hs' _ v' hv' =>
    rep_reads h.represents hreads _ s' hs' rfl v' hv'

end

theorem Removed.dropped (h : Removed M f g rep removed) (hreads : ReadsWritten f) :
    Dropped M f g removed := by
  refine ⟨h.entry, h.succs, h.blockInsts, fun i hi => ?_, fun i hi => ?_, fun b hb i hi => ?_⟩
  · obtain ⟨y, L, -, hrem⟩ := h.removable i hi
    obtain ⟨b, p, honly⟩ := hrem.onlyE
    exact not_branch_of_writes honly.writes
  · obtain ⟨y, L, -, hrem⟩ := h.removable i hi
    obtain ⟨inst, -, -, -, -, -, hinst, -⟩ := hrem.same
    exact ⟨inst, hinst, hrem.quiet inst hinst⟩
  · refine (h.insts b hb i hi).imp_right ?_
    rintro ⟨inst, inst', hf, hg, hshape, hdefs, hused⟩
    exact ⟨inst, inst', hf, hg, hshape, hdefs, fun s t hs hi _ hm =>
      h.vals_eq hreads hs hm hi hf hused⟩

theorem Matches.branch (hm : Matches f removed s t) (c : BlockId) :
    Matches f removed ⟨c, 0, s.env⟩ ⟨c, 0, t.env⟩ :=
  ⟨rfl, by simp, hm.hidden, hm.regs, hm.trace⟩

section

variable (h : Dropped M f g removed)
include h

theorem Dropped.isBranchAt (hb : f.Reachable b) (hi : i ∈ f.blockInsts b) :
    g.isBranchAt i = f.isBranchAt i := by
  rcases h.insts b hb i hi with ⟨hf, hg⟩ | ⟨inst, inst', hf, hg, hshape, -⟩
  · rw [MachFunction.isBranchAt, MachFunction.isBranchAt, hf, hg]
  have hop : inst'.opcode = inst.opcode := by rw [← shape_opcode inst', hshape, shape_opcode]
  rw [MachFunction.isBranchAt, MachFunction.isBranchAt, hf, hg, map_some,
    map_some, hop]

/-- What is left of the block in the one function is what is left of it in the other. -/
theorem Dropped.drop_eq (hs : M.Run f s) (hm : Matches f removed s t) :
    (g.blockInsts t.block).drop t.pos
      = ((f.blockInsts s.block).drop s.pos).filter fun i => i ∉ removed := by
  rw [hm.block, h.blockInsts _ hs.reachable, hm.pos, filter_drop]

theorem Dropped.skip (hm : Matches f removed s t)
    (hi : f.AboutTo s i) (hr : i ∈ removed) (hinst : f.insts[i]? = some inst) :
    Matches f removed ⟨s.block, s.pos + 1, M.apply i inst s.env⟩ t := by
  obtain ⟨inst1, hinst1, hquiet⟩ := h.quiet i hr
  cases hinst.symm.trans hinst1
  refine ⟨hm.block, ?_, ?_, ?_, ?_⟩
  · dsimp only
    rw [take_succ_of_getElem? hi, filter_append, hm.pos]
    simp [hr]
  · exact hm.hidden.trans (hquiet _ _).symm
  · intro v hv
    rw [hm.regs v hv]
    exact (Machine.apply_regs_of_notMem fun hmem => hv i hr ⟨inst, hinst, hmem⟩).symm
  rw [hm.trace]
  simp [Machine.apply, hr]

/-- Executing an instruction that is left is matched by executing it. -/
theorem Dropped.exec (hs : M.Run f s) (hm : Matches f removed s t) (hi : f.AboutTo s i)
    (hr : i ∉ removed) (hinst : f.insts[i]? = some inst) (hinst' : g.insts[i]? = some inst') :
    Matches f removed ⟨s.block, s.pos + 1, M.apply i inst s.env⟩
      ⟨t.block, t.pos + 1, M.apply i inst' t.env⟩ := by
  obtain ⟨hshape, hdefs, hvals⟩ : shape inst' = shape inst
      ∧ writtenVregs inst' = writtenVregs inst
      ∧ (usedVregs inst').map t.env.regs = (usedVregs inst).map s.env.regs := by
    rcases h.insts _ hs.reachable i (mem_of_getElem? hi) with
      ⟨hf, -⟩ | ⟨inst1, inst2, hf, hg, hshape, hdefs, hreads⟩
    · rw [hinst] at hf; simp at hf
    cases hinst.symm.trans hf
    cases hinst'.symm.trans hg
    exact ⟨hshape, hdefs, hreads s t hs hi hr hm⟩
  refine ⟨hm.block, ?_, ?_, ?_, ?_⟩
  · dsimp only
    rw [take_succ_of_getElem? hi, filter_append, hm.pos]
    simp [hr]
  · simp only [Machine.apply, hvals, hshape, hm.hidden]
  · intro v hv
    simp only [Machine.apply, hvals, hshape, hdefs, hm.hidden]
    exact setAll_congr _ _ _ _ (hm.regs v hv)
  simp only [Machine.apply, hvals, hm.trace]
  simp [hr]

theorem Dropped.aboutTo (hs : M.Run f s) (hm : Matches f removed s t) (hi : f.AboutTo s i)
    (hr : i ∉ removed) : g.AboutTo t i := by
  have hdrop := h.drop_eq hs hm
  have hfirst : (f.blockInsts s.block).drop s.pos
      = i :: (f.blockInsts s.block).drop (s.pos + 1) := by
    obtain ⟨hlt, hget⟩ := List.getElem?_eq_some_iff.1 hi
    rw [drop_eq_getElem_cons hlt, hget]
  rw [hfirst, filter_cons_of_pos (by simpa using hr)] at hdrop
  have hhead : ((g.blockInsts t.block).drop t.pos)[0]? = some i := by rw [hdrop]; rfl
  rw [getElem?_drop] at hhead
  exact hhead

/-- Both functions are at an instruction, or neither is. -/
theorem Dropped.exists_aboutTo (hs : M.Run f s) (hm : Matches f removed s t)
    (hi : g.AboutTo t i) : ∃ j, f.AboutTo s j := by
  by_contra hnone
  have hend : (f.blockInsts s.block).drop s.pos = [] := by
    rw [drop_eq_nil_iff]
    by_contra hlt
    exact hnone ⟨_, getElem?_eq_getElem (not_le.1 hlt)⟩
  have hdrop := h.drop_eq hs hm
  rw [hend, filter_nil, drop_eq_nil_iff] at hdrop
  exact absurd (List.getElem?_eq_some_iff.1 hi).1 (not_lt.2 hdrop)

/-- No branch is removed, so what is left can be left where the function can. -/
theorem Dropped.exits (hs : M.Run f s) (hm : Matches f removed s t)
    (hexit : f.Exits s.block s.pos) : g.Exits t.block t.pos := by
  intro i hi
  obtain ⟨j, hj⟩ := h.exists_aboutTo hs hm hi
  have hbranch := hexit j hj
  have hr : j ∉ removed := fun hr => by simp [h.noBranch j hr] at hbranch
  obtain rfl : i = j := Option.some.inj (hi.symm.trans (h.aboutTo hs hm hj hr))
  rwa [h.isBranchAt hs.reachable (mem_of_getElem? hj)]

theorem Dropped.reachable (hb : g.Reachable b) : f.Reachable b := by
  refine hb.mem_of_closed (S := f.Reachable) (h.entry ▸ Flow.Reachable.refl) fun a c ha hac => ?_
  refine ha.step ?_
  rw [MachFunction.Edge, ← h.succs a ha]
  exact hac

/-- **Every run of the function is matched without the removed instructions.** -/
theorem Dropped.forward (hs : M.Run f s) :
    ∃ t, M.Run g t ∧ Matches f removed s t := by
  induction hs with
  | start regs hidden =>
    refine ⟨⟨g.entry, 0, ⟨regs, hidden, []⟩⟩, .start regs hidden, h.entry, by simp, rfl,
      fun _ _ => rfl, rfl⟩
  | @step s s' hs hst ih =>
    obtain ⟨t, ht, hm⟩ := ih
    cases hst with
    | @inst b pos i env env' hi hexec =>
      obtain ⟨inst, hinst, rfl⟩ := hexec
      by_cases hr : i ∈ removed
      · exact ⟨t, ht, h.skip hm hi hr hinst⟩
      rcases h.insts _ hs.reachable i (mem_of_getElem? hi) with
        ⟨hf, -⟩ | ⟨inst1, inst', -, hg, -⟩
      · rw [hinst] at hf; simp at hf
      exact ⟨_, ht.step (.inst (h.aboutTo hs hm hi hr) ⟨inst', hg, rfl⟩),
        h.exec hs hm hi hr hinst hg⟩
    | @branch b c pos env hexit hc =>
      have hsucc : c ∈ g.succs t.block := by
        rw [hm.block, h.succs _ hs.reachable]
        exact hc
      exact ⟨_, ht.step (.branch (h.exits hs hm hexit) hsucc), hm.branch c⟩

/-- The original function can run on to an instruction that is left. -/
theorem Dropped.catchUp (n : ℕ) (s : State (Env V H))
    (hn : (f.blockInsts s.block).length - s.pos = n) (hs : M.Run f s) (hm : Matches f removed s t) :
    ∃ s', M.Run f s' ∧ Matches f removed s' t ∧ ∀ i, f.AboutTo s' i → i ∉ removed := by
  induction n generalizing s with
  | zero =>
    refine ⟨s, hs, hm, fun i hi => ?_⟩
    have hlt := (List.getElem?_eq_some_iff.1 hi).1
    omega
  | succ n ih =>
    have hlt : s.pos < (f.blockInsts s.block).length := by omega
    have hi : f.AboutTo s (f.blockInsts s.block)[s.pos] := getElem?_eq_getElem hlt
    by_cases hr : (f.blockInsts s.block)[s.pos] ∈ removed
    · obtain ⟨inst, hinst, -⟩ := h.quiet _ hr
      refine ih _ ?_ (hs.step (.inst hi ⟨inst, hinst, rfl⟩)) (h.skip hm hi hr hinst)
      dsimp only
      omega
    refine ⟨s, hs, hm, fun i hi' => ?_⟩
    rwa [Option.some.inj (hi'.symm.trans hi)]

/-- **Every run without the removed instructions matches one of the function.** -/
theorem Dropped.backward (ht : M.Run g t) :
    ∃ s, M.Run f s ∧ Matches f removed s t := by
  induction ht with
  | start regs hidden =>
    refine ⟨⟨f.entry, 0, ⟨regs, hidden, []⟩⟩, .start regs hidden, h.entry, by simp, rfl,
      fun _ _ => rfl, rfl⟩
  | @step t t' ht hst ih =>
    obtain ⟨s0, hs0, hm0⟩ := ih
    obtain ⟨s, hs, hm, hleft⟩ := h.catchUp _ s0 rfl hs0 hm0
    cases hst with
    | @inst b pos i env env' hi hexec =>
      obtain ⟨inst', hinst', rfl⟩ := hexec
      -- the two functions are at the same instruction
      obtain ⟨j, hj⟩ := h.exists_aboutTo hs hm hi
      have hjg := h.aboutTo hs hm hj (hleft j hj)
      cases hi.symm.trans hjg
      rcases h.insts _ hs.reachable i (mem_of_getElem? hj) with
        ⟨-, hg⟩ | ⟨inst, inst1, hinst, -⟩
      · rw [hinst'] at hg; simp at hg
      exact ⟨_, hs.step (.inst hj ⟨inst, hinst, rfl⟩),
        h.exec hs hm hj (hleft i hj) hinst hinst'⟩
    | @branch b c pos env hexit hc =>
      have hsucc : c ∈ f.succs s.block := by
        rw [← h.succs _ hs.reachable, ← hm.block]
        exact hc
      have hexit' : f.Exits s.block s.pos := by
        intro j hj
        rw [← h.isBranchAt hs.reachable (mem_of_getElem? hj)]
        exact hexit j (h.aboutTo hs hm hj (hleft j hj))
      exact ⟨_, hs.step (.branch hexit' hsucc), hm.branch c⟩

end

end

end TrustCg.Opt
