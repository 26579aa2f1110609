import TrustCg.Lib.Loop
import TrustCg.Opt.Elimination

/-!
# Dead code elimination

`run_impl` of `dce.rs`: waves that remove the instructions without side effects whose register
nothing reads, until a wave finds none.  A certified run keeps the registers its options make
visible; what it reports of each removal and of each failure is left out.

* `runImpl_preserves` : where every block that is reached is laid out and what sets the condition
  flags is marked, the function runs as before, and a second run removes nothing.
* `runImpl_drops_flags` : an `AddsRR` without its flag is removed although its carry is read.
-/

namespace TrustCg.Opt.Dce

open Ir List
open RegAlloc (BlockId InstId VReg InstFlags)

/-! ## The pass -/

/-- The flags of an instruction that keep it. -/
def barrierFlags : List InstFlags :=
  [InstFlags.isCall, InstFlags.isBranch, InstFlags.isTerminator, InstFlags.isReturn,
    InstFlags.hasSideEffects, InstFlags.writesMemory, InstFlags.readsMemory]

/-- The instruction must stay. -/
def hasSideEffects (inst : MachInst) : Bool :=
  opcodeEffect inst.opcode != .Pure || !inst.implicitDefs.isEmpty || !inst.implicitUses.isEmpty
    || barrierFlags.any (InstFlags.contains inst.flags)

/-- What `collect_used_vregs` takes from one instruction: a pure one does not keep what it reads
only to update it. -/
def countedUses (inst : MachInst) : List VReg :=
  vregsAt inst ((useOperandPositions inst.opcode inst.operands.length).filter fun p =>
    hasSideEffects inst || p ∉ defOperandPositions inst.opcode inst.operands.length)

/-- The instructions of the blocks that are laid out. -/
def linked (f : MachFunction) : List InstId := f.blockOrder.flatMap f.blockInsts

/-- What listed instructions read. -/
def collectUsedVregs (f : MachFunction) : List VReg :=
  (linked f).flatMap fun i => ((f.insts[i]?).map countedUses).getD []

/-- `DceCertifiedOptions`: the registers, by number, that count as outputs. -/
structure DceCertifiedOptions where
  graphOutputVregs : List ℕ := []
  certificateVisibleVregs : List ℕ := []

/-- The register is seen from outside. -/
def DceCertifiedOptions.visible (options : DceCertifiedOptions) (v : VReg) : Bool :=
  v.id ∈ options.graphOutputVregs || v.id ∈ options.certificateVisibleVregs

/-- Whether `certification_failure_reason` has a reason. -/
def certificationFails (inst : MachInst) (options : DceCertifiedOptions) : Bool :=
  (singleInstDef inst).any options.visible || barrierFlags.any (InstFlags.contains inst.flags)
    || opcodeEffect inst.opcode != .Pure

/-- The removal can be certified. -/
def checkDceObligation (inst : MachInst) (used : List VReg) (options : DceCertifiedOptions) :
    Bool :=
  ((singleInstDef inst).isSome || inst.opcode == .Nop)
    && !(singleInstDef inst).any (· ∈ used) && opcodeEffect inst.opcode == .Pure
    && !hasSideEffects inst && !(singleInstDef inst).any options.visible

/-- Whether a wave removes the instruction. -/
def isDead (options : Option DceCertifiedOptions) (used : List VReg) (inst : MachInst) : Bool :=
  (match singleInstDef inst with
    | some v => v ∉ used
    | none => inst.opcode == .Nop)
    && !options.any (certificationFails inst) && !hasSideEffects inst
    && options.all (checkDceObligation inst used)

/-- What one wave removes. -/
def deadInsts (options : Option DceCertifiedOptions) (f : MachFunction) : List InstId :=
  let used := collectUsedVregs f
  (linked f).filter fun i => ∃ inst ∈ f.insts[i]?, isDead options used inst

/-- One round of the loop. -/
def wave (options : Option DceCertifiedOptions) (st : MachFunction × Bool) :
    Option (MachFunction × Bool) :=
  let dead := deadInsts options st.1
  if dead.isEmpty then none else some (removeInsts dead st.1, true)

/-- `run_impl`: the function, and whether it changed. -/
def runImpl (options : Option DceCertifiedOptions) (fuel : ℕ) (f : MachFunction) :
    Option (MachFunction × Bool) :=
  Loop.run (wave options) fuel (f, false)

/-! ## What a wave removes -/

variable {options : Option DceCertifiedOptions} {f : MachFunction} {inst : MachInst} {v : VReg}
  {i : InstId} {b : BlockId} {used : List VReg} {dead removed : List InstId}

/-- The registers whose definitions stay. -/
def Live (options : Option DceCertifiedOptions) (used : List VReg) (v : VReg) : Prop :=
  v ∈ used ∨ options.any (·.visible v) = true

theorem of_not_hasSideEffects (h : hasSideEffects inst = false) :
    opcodeEffect inst.opcode = .Pure ∧ inst.implicitDefs = []
      ∧ barrierFlags.any (InstFlags.contains inst.flags) = false := by
  simp only [hasSideEffects, Bool.or_eq_false_iff] at h
  obtain ⟨⟨⟨heffect, hdefs⟩, -⟩, hflags⟩ := h
  exact ⟨by simpa using heffect, by simpa using hdefs, hflags⟩

theorem ne_stlxr_of_pure (h : hasSideEffects inst = false) : inst.opcode ≠ .Stlxr := by
  intro hstlxr
  have heffect := (of_not_hasSideEffects h).1
  rw [hstlxr] at heffect
  cases heffect

/-- A pure instruction that writes an operand writes no other one. -/
theorem singleInstDef_of_pure (hside : hasSideEffects inst = false) {p : ℕ}
    (hp : p ∈ defOperandPositions inst.opcode inst.operands.length)
    (hop : (inst.operands[p]?).bind MachOperand.asVreg = some v) : singleInstDef inst = some v := by
  have hone : defOperandPositions inst.opcode inst.operands.length = [p] := by
    rw [defOperandPositions] at hp ⊢
    generalize inst.operands.length = n at hp ⊢
    cases n with
    | zero =>
      rw [length_eq_zero_iff.1 (operandRoles_length inst.opcode 0)] at hp
      cases hp
    | succ n =>
      rw [operandRoles_eq_of_pure (of_not_hasSideEffects hside).1, zipIdx_cons, filterMap_cons,
        filterMap_isDef_replicate] at hp ⊢
      split at hp
      · cases hp
      · rw [mem_singleton.1 hp]
  rw [singleInstDef, hone]
  exact hop

theorem isDead_iff (hside : hasSideEffects inst = false) (hdef : singleInstDef inst = some v) :
    isDead options used inst = true ↔ ¬ Live options used v := by
  obtain ⟨heffect, -, hflags⟩ := of_not_hasSideEffects hside
  cases options <;>
    simp +contextual [isDead, certificationFails, checkDceObligation, Live, hdef, hside, hflags,
      heffect]

/-- What is known of an instruction that a wave removes. -/
structure Dead (options : Option DceCertifiedOptions) (used : List VReg) (inst : MachInst) :
    Prop where
  quiet : hasSideEffects inst = false
  idle : (singleInstDef inst).isSome ∨ inst.opcode = .Nop
  unread : ∀ v ∈ writtenVregs inst, ¬ Live options used v

theorem dead_of_isDead (h : isDead options used inst = true) : Dead options used inst := by
  have hall := h
  simp only [isDead, Bool.and_eq_true, Bool.not_eq_true'] at hall
  obtain ⟨⟨⟨hvalue, -⟩, hside⟩, -⟩ := hall
  refine ⟨hside, ?_, fun v hv => ?_⟩
  · cases hdef : singleInstDef inst with
    | none => simp_all
    | some v => exact .inl rfl
  · rw [writtenVregs_of_ne (ne_stlxr_of_pure hside)] at hv
    obtain ⟨p, hp, hop⟩ := mem_filterMap.1 hv
    exact (isDead_iff hside (singleInstDef_of_pure hside hp hop)).1 h

theorem Dead.not_isBranch (h : Dead options used inst) : inst.opcode.isBranch = false := by
  rcases h.idle with hdef | hnop
  · by_contra hbranch
    rw [singleInstDef, defOperandPositions_of_isBranch (by simpa using hbranch)] at hdef
    cases hdef
  · rw [hnop]
    rfl

theorem live_of_read (hin : ∀ v ∈ countedUses inst, v ∈ used)
    (h : isDead options used inst = false) (hv : v ∈ usedVregs inst) : Live options used v := by
  obtain ⟨p, hp, hop⟩ := mem_filterMap.1 hv
  by_cases hcount : hasSideEffects inst = true
      ∨ p ∉ defOperandPositions inst.opcode inst.operands.length
  · exact .inl (hin v (mem_filterMap.2 ⟨p, mem_filter.2 ⟨hp, by simpa using hcount⟩, hop⟩))
  -- an operand that a pure instruction updates is its only definition
  · obtain ⟨hside, hdef⟩ := not_or.1 hcount
    rw [Bool.not_eq_true] at hside
    by_contra hlive
    rw [(isDead_iff hside (singleInstDef_of_pure hside (not_not.1 hdef) hop)).2 hlive] at h
    cases h

/-! ## The waves -/

theorem linked_removeInsts :
    linked (removeInsts dead f) = (linked f).filter fun i => i ∉ dead := by
  rw [linked, linked, filter_flatMap]
  exact flatMap_congr fun b hb => blockInsts_removeInsts dead hb

theorem collectUsedVregs_removeInsts (hv : v ∈ collectUsedVregs (removeInsts dead f)) :
    v ∈ collectUsedVregs f := by
  rw [collectUsedVregs, linked_removeInsts] at hv
  obtain ⟨i, hi, hv⟩ := mem_flatMap.1 hv
  exact mem_flatMap.2 ⟨i, mem_of_mem_filter hi, hv⟩

variable {g : MachFunction}

/-- What holds after some waves. -/
structure Waved (options : Option DceCertifiedOptions) (f g : MachFunction)
    (removed : List InstId) : Prop where
  entry : g.entry = f.entry
  insts : g.insts = f.insts
  order : g.blockOrder = f.blockOrder
  succs : ∀ b, g.succs b = f.succs b
  blockInsts : ∀ b ∈ f.blockOrder, g.blockInsts b = (f.blockInsts b).filter fun i => i ∉ removed
  dead : ∀ i ∈ removed, ∃ inst, f.insts[i]? = some inst ∧ Dead options (collectUsedVregs g) inst

theorem Waved.removeInsts (h : Waved options f g removed) :
    Waved options f (removeInsts (deadInsts options g) g) (removed ++ deadInsts options g) := by
  refine ⟨h.entry, h.insts, h.order, fun b => ?_, fun b hb => ?_, fun i hi => ?_⟩
  · rw [succs_removeInsts, h.succs]
  · rw [blockInsts_removeInsts _ (h.order ▸ hb), h.blockInsts b hb, filter_filter]
    simp [Bool.and_comm]
  · have hdead : ∃ inst, f.insts[i]? = some inst ∧ Dead options (collectUsedVregs g) inst := by
      rcases mem_append.1 hi with hi | hi
      · exact h.dead i hi
      · obtain ⟨inst, hinst, hdead⟩ := of_decide_eq_true (mem_filter.1 hi).2
        exact ⟨inst, h.insts ▸ hinst, dead_of_isDead hdead⟩
    obtain ⟨inst, hinst, hside, hidle, hlive⟩ := hdead
    exact ⟨inst, hinst, hside, hidle,
      fun v hv hl => hlive v hv (hl.imp_left collectUsedVregs_removeInsts)⟩

theorem length_linked_removeInsts (h : deadInsts options g ≠ []) :
    (linked (removeInsts (deadInsts options g) g)).length < (linked g).length := by
  obtain ⟨i, hi⟩ := exists_mem_of_ne_nil _ h
  rw [linked_removeInsts, length_filter_lt_length_iff_exists]
  exact ⟨i, (mem_filter.1 hi).1, by simpa using hi⟩

/-! ## What a run preserves -/

/-- What sets the condition flags is marked. -/
def FlagsMarked (f : MachFunction) : Prop :=
  ∀ inst ∈ f.insts, writesFlags inst.opcode = true → hasSideEffects inst = true

section

variable {V H : Type*} {M : Machine V H}

/-- A pure instruction that defines a virtual register changes nothing else, unless it names
fixed registers or sets the condition flags; nor does a `Nop`. -/
def QuietPure (M : Machine V H) : Prop :=
  ∀ inst vals h, opcodeEffect inst.opcode = .Pure → inst.implicitDefs = [] →
    writesFlags inst.opcode = false → ((singleInstDef inst).isSome ∨ inst.opcode = .Nop) →
    (M.exec (shape inst) vals h).2 = h

section

variable (hlisted : Listed f) (h : Waved options f g removed) (hdone : deadInsts options g = [])
include hlisted h hdone

/-- **Nothing that is left reads a removed definition.** -/
theorem Waved.not_reads (hb : f.Reachable b) (hi : i ∈ g.blockInsts b)
    (hinst : f.insts[i]? = some inst) (hv : v ∈ usedVregs inst) :
    ∀ j ∈ removed, ¬ Writes f j v := by
  intro j hj hw
  obtain ⟨inst', hinst', hdead⟩ := h.dead j hj
  obtain ⟨inst'', hinst'', hv'⟩ := hw
  cases hinst'.symm.trans hinst''
  have hlinked : i ∈ linked g := mem_flatMap.2 ⟨b, h.order ▸ hlisted b hb, hi⟩
  rw [← h.insts] at hinst
  refine hdead.unread v hv' (live_of_read (fun u hu => mem_flatMap.2 ⟨i, hlinked, ?_⟩) ?_ hv)
  · rwa [hinst]
  · simpa [hinst] using filter_eq_nil_iff.1 hdone i hlinked

theorem Waved.dropped (hmarked : FlagsMarked f) (hquiet : QuietPure M) :
    Dropped M f g removed := by
  refine ⟨h.entry, fun b _ => h.succs b, fun b hb => h.blockInsts b (hlisted b hb),
    fun i hi => ?_, fun i hi => ?_, fun b hb i hi => ?_⟩
  · obtain ⟨inst, hinst, hdead⟩ := h.dead i hi
    simp [MachFunction.isBranchAt, hinst, hdead.not_isBranch]
  · obtain ⟨inst, hinst, hside, hidle, -⟩ := h.dead i hi
    obtain ⟨heffect, hdefs, -⟩ := of_not_hasSideEffects hside
    refine ⟨inst, hinst, fun regs s => hquiet inst _ s heffect hdefs ?_ hidle⟩
    by_contra hflags
    have hmark := hmarked inst (mem_of_getElem? hinst) (by simpa using hflags)
    simp [hside] at hmark
  · rw [h.insts]
    cases hinst : f.insts[i]? with
    | none => exact .inl ⟨rfl, rfl⟩
    | some inst =>
      refine .inr ⟨inst, inst, rfl, rfl, rfl, rfl, fun s t _ _ hr hm =>
        map_congr_left fun v hv => hm.regs v (h.not_reads hlisted hdone hb ?_ hinst hv)⟩
      rw [h.blockInsts b (hlisted b hb)]
      exact mem_filter.2 ⟨hi, by simpa using hr⟩

end

/-- **Dead code elimination preserves execution** where what is reached is laid out and what sets
flags is marked: the runs are those of the function without the removed instructions, nothing that
is left reads what they define, and a second run changes nothing. -/
theorem runImpl_preserves (M : Machine V H) (hquiet : QuietPure M)
    (options : Option DceCertifiedOptions) (f : MachFunction) (hlisted : Listed f)
    (hmarked : FlagsMarked f) :
    ∃ bound g changed removed,
      (∀ fuel, bound ≤ fuel → runImpl options fuel f = some (g, changed))
      ∧ (∀ s, M.Run f s → ∃ t, M.Run g t ∧ Matches f removed s t)
      ∧ (∀ t, M.Run g t → ∃ s, M.Run f s ∧ Matches f removed s t)
      ∧ (∀ b, f.Reachable b → ∀ i ∈ g.blockInsts b, ∀ inst, f.insts[i]? = some inst →
          ∀ v ∈ usedVregs inst, ∀ j ∈ removed, ¬ Writes f j v)
      ∧ ∀ fuel, 0 < fuel → runImpl options fuel g = some (g, false) := by
  have hwave : ∀ st st', (∃ removed, Waved options f st.1 removed) →
      wave options st = some st' → (∃ removed, Waved options f st'.1 removed)
        ∧ (linked st'.1).length < (linked st.1).length := by
    rintro st st' ⟨removed, hwaved⟩ hst
    simp only [wave] at hst
    split_ifs at hst with hnil
    cases hst
    exact ⟨⟨_, hwaved.removeInsts⟩, length_linked_removeInsts (by simpa using hnil)⟩
  have hstart : ∃ removed, Waved options f f removed :=
    ⟨[], rfl, rfl, rfl, fun _ => rfl, by simp, by simp⟩
  obtain ⟨⟨g, changed⟩, hrun, ⟨removed, hwaved⟩, hend⟩ := Loop.run_ends hwave (f, false) hstart
  have hdone : deadInsts options g = [] := by simpa [wave] using hend
  have hdropped := hwaved.dropped hlisted hdone hmarked hquiet
  refine ⟨_, g, changed, removed, hrun, fun s hs => hdropped.forward hs,
    fun t ht => hdropped.backward ht,
    fun b hb i hi inst hinst v hv => hwaved.not_reads hlisted hdone hb hi hinst hv, ?_⟩
  intro fuel hfuel
  obtain ⟨n, rfl⟩ := Nat.exists_eq_succ_of_ne_zero hfuel.ne'
  rw [runImpl, Loop.run]
  simp [wave, hdone]

end

/-! ## A carry that is read -/

/-- A comparison, an addition that sets the carry and has these flags, and one that reads it. -/
def carried (flags : InstFlags) : MachFunction where
  insts := [⟨.CmpRR, [.vreg (xreg 0), .vreg (xreg 1)], [], [], InstFlags.hasSideEffects⟩,
    ⟨.AddsRR, [.vreg (xreg 2), .vreg (xreg 0), .vreg (xreg 1)], [], [], flags⟩,
    ⟨.Adc, [.vreg (xreg 3), .vreg (xreg 0), .vreg (xreg 1)], [], [], InstFlags.hasSideEffects⟩]
  blocks := [⟨[0, 1, 2], [], []⟩]
  blockOrder := [0]
  entry := 0

/-- A machine whose hidden state is the carry. -/
def carryMachine : Machine ℕ ℕ where
  exec inst _ carry :=
    match inst.opcode with
    | .CmpRR => ([], 0)
    | .AddsRR => ([0], 1)
    | _ => ([carry], carry)

theorem carryMachine_quietPure : QuietPure carryMachine := by
  intro inst vals h _ _ hflags _
  simp only [carryMachine, shape_opcode]
  split <;> simp_all [writesFlags]

/-- With the flag that `AddsRR` has by default the theorem applies. -/
theorem runImpl_preserves_carried :
    ∃ bound g changed removed, (∀ fuel, bound ≤ fuel →
        runImpl none fuel (carried InstFlags.hasSideEffects) = some (g, changed))
      ∧ ∀ s, carryMachine.Run (carried InstFlags.hasSideEffects) s →
        ∃ t, carryMachine.Run g t ∧ Matches (carried InstFlags.hasSideEffects) removed s t := by
  obtain ⟨bound, g, changed, removed, hrun, hforward, -⟩ := runImpl_preserves carryMachine
    carryMachine_quietPure none (carried InstFlags.hasSideEffects)
    (.of_all (CfgConsistent.of_listsAgree (by decide)) (by decide)) (by unfold FlagsMarked; decide)
  exact ⟨bound, g, changed, removed, hrun, hforward⟩

/-- Without the flag the addition is removed, and the carry that is read is another one. -/
theorem runImpl_drops_flags : QuietPure carryMachine
    ∧ runImpl none 2 (carried 0) = some (removeInsts [1] (carried 0), true)
    ∧ ∃ s, carryMachine.Run (carried 0) s ∧ ∀ t, carryMachine.Run (removeInsts [1] (carried 0)) t →
      ¬ Matches (carried 0) [1] s t := by
  refine ⟨carryMachine_quietPure, by decide, _,
    Machine.Run.play [none, none, none] (.start (fun _ => 0) 0) rfl, fun t ht hm => ?_⟩
  obtain ⟨-, regs, hidden, hplay⟩ := ht.straight rfl
  have hpos : t.pos = 2 := hm.pos
  rw [hpos] at hplay
  obtain rfl := Option.some.inj hplay
  exact Nat.zero_ne_one hm.hidden

end TrustCg.Opt.Dce
