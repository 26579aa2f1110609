import TrustCg.Ir.Path
import TrustCg.Opt.Dom
import TrustCg.Opt.Effects

/-!
# Machines that run a function

A machine says what an instruction does with the values it reads; the roles of the
operands say which registers these values come from and go to, but for the status of a
store exclusive, which the role table leaves out.  An instruction is given
to the machine without the names of its registers, so two instructions that differ in
them alone compute the same from the same values.  What is not in a virtual register
(memory, flags, physical registers) is one hidden state.  A run records every executed
instruction with the values it read.

* `Run.fact` : what an instruction establishes holds until something that can change it
  is executed.
* `run_iff_of_sameReads` : if rewritten operands hold the values of the original ones
  whenever they are read, the two functions have the same runs.
-/

namespace TrustCg.Opt

open Ir List Option
open Ir.MachFunction (State Step)
open RegAlloc (BlockId InstId VReg)

variable {inst : MachInst} {p q : ℕ} {v : VReg} {i : InstId} {b : BlockId}

/-! ## Registers read and written -/

/-- The virtual registers at some operand positions. -/
def vregsAt (inst : MachInst) (positions : List ℕ) : List VReg :=
  positions.filterMap fun p => (inst.operands[p]?).bind MachOperand.asVreg

/-- The virtual registers an instruction reads, in operand order. -/
def usedVregs (inst : MachInst) : List VReg :=
  vregsAt inst (useOperandPositions inst.opcode inst.operands.length)

/-- The virtual registers an instruction writes by the operand-role table, in operand
order. -/
def definedVregs (inst : MachInst) : List VReg :=
  vregsAt inst (defOperandPositions inst.opcode inst.operands.length)

/-- The virtual registers an instruction writes.  A store exclusive writes its status to
operand 0, which the role table takes for a read. -/
def writtenVregs (inst : MachInst) : List VReg :=
  definedVregs inst ++ if inst.opcode = .Stlxr then vregsAt inst [0] else []

theorem writtenVregs_of_ne (h : inst.opcode ≠ .Stlxr) : writtenVregs inst = definedVregs inst := by
  rw [writtenVregs, if_neg h, append_nil]

theorem mem_writtenVregs_of_defined (h : v ∈ definedVregs inst) : v ∈ writtenVregs inst :=
  mem_append_left _ h

theorem mem_usedVregs (hp : p ∈ useOperandPositions inst.opcode inst.operands.length)
    (hv : inst.operands[p]? = some (.vreg v)) : v ∈ usedVregs inst :=
  mem_filterMap.2 ⟨p, hp, by rw [hv]; rfl⟩

theorem mem_definedVregs (hp : p ∈ defOperandPositions inst.opcode inst.operands.length)
    (hv : inst.operands[p]? = some (.vreg v)) : v ∈ definedVregs inst :=
  mem_filterMap.2 ⟨p, hp, by rw [hv]; rfl⟩

/-- The operand without the name of its register. -/
def eraseName : MachOperand → MachOperand
  | .vreg v => .vreg ⟨0, v.cls⟩
  | op => op

/-- The instruction without the names of its registers. -/
def shape (inst : MachInst) : MachInst := { inst with operands := inst.operands.map eraseName }

theorem filterMap_isDef_replicate (n k : ℕ) :
    ((List.replicate n OperandRole.Use).zipIdx k).filterMap
      (fun e => if e.1.isDef then some e.2 else none) = [] := by
  rw [filterMap_eq_nil_iff]
  rintro ⟨role, pos⟩ he
  rw [eq_of_mem_replicate (fst_mem_of_mem_zipIdx he)]
  rfl

theorem filterMap_isUse_replicate : ∀ n k : ℕ,
    ((List.replicate n OperandRole.Use).zipIdx k).filterMap
      (fun e => if e.1.isUse then some e.2 else none) = List.range' k n := by
  intro n
  induction n with
  | zero => intro k; rfl
  | succ n ih =>
    intro k
    rw [replicate_succ, zipIdx_cons, filterMap_cons, ih]
    rfl

theorem filterMap_range'_asVreg (ops : List MachOperand) (rest done : List MachOperand)
    (hops : ops = done ++ rest) :
    (List.range' done.length rest.length).filterMap
      (fun p => (ops[p]?).bind MachOperand.asVreg) = rest.filterMap MachOperand.asVreg := by
  induction rest generalizing done with
  | nil => rfl
  | cons op rest ih =>
    have hrest := ih (done ++ [op]) (by simp [hops])
    rw [length_append, length_singleton] at hrest
    rw [length_cons, range'_succ, filterMap_cons, filterMap_cons, hrest, hops]
    simp

/-- The positions of an instruction that writes its first operand and reads the others. -/
theorem positions_of_roles {opcode : AArch64Opcode} {n : ℕ}
    (hroles : operandRoles opcode (n + 1) = .Def :: List.replicate n .Use) :
    defOperandPositions opcode (n + 1) = [0]
      ∧ useOperandPositions opcode (n + 1) = List.range' 1 n := by
  constructor
  · rw [defOperandPositions, hroles]
    exact congrArg (List.cons 0) (filterMap_isDef_replicate n 1)
  rw [useOperandPositions, hroles]
  exact filterMap_isUse_replicate n 1

theorem vregs_of_roles {rest : List MachOperand} (hops : inst.operands = .vreg v :: rest)
    (hroles : operandRoles inst.opcode (rest.length + 1)
      = .Def :: List.replicate rest.length .Use) :
    definedVregs inst = [v] ∧ writtenVregs inst = [v]
      ∧ usedVregs inst = rest.filterMap MachOperand.asVreg := by
  have hlen : inst.operands.length = rest.length + 1 := by rw [hops]; rfl
  obtain ⟨hdefs, huses⟩ := positions_of_roles hroles
  have hdefined : definedVregs inst = [v] := by
    rw [definedVregs, hlen, hdefs, vregsAt, hops]
    rfl
  refine ⟨hdefined, ?_, ?_⟩
  · rw [writtenVregs_of_ne, hdefined]
    intro hstlxr
    rw [hstlxr] at hroles
    cases hroles
  rw [usedVregs, hlen, huses, vregsAt]
  exact filterMap_range'_asVreg inst.operands rest [.vreg v] hops

/-- The virtual registers the instruction at an index of the arena writes by the table. -/
def definedAt (f : MachFunction) (i : InstId) : List VReg :=
  ((f.insts[i]?).map definedVregs).getD []

/-- The instruction at an index of the arena writes the register. -/
def Writes (f : MachFunction) (i : InstId) (v : VReg) : Prop :=
  ∃ inst, f.insts[i]? = some inst ∧ v ∈ writtenVregs inst

/-- No store exclusive, so that the role table names every register that is written. -/
def NoStatusWrites (f : MachFunction) : Prop := ∀ inst ∈ f.insts, inst.opcode ≠ .Stlxr

instance (f : MachFunction) : Decidable (NoStatusWrites f) :=
  inferInstanceAs (Decidable (∀ inst ∈ _, _))

variable {f : MachFunction}

theorem NoStatusWrites.written (h : NoStatusWrites f) (hinst : f.insts[i]? = some inst) :
    writtenVregs inst = definedVregs inst :=
  writtenVregs_of_ne (h inst (mem_of_getElem? hinst))

theorem writes_of_mem_definedAt (h : v ∈ definedAt f i) : Writes f i v := by
  rw [definedAt] at h
  cases hinst : f.insts[i]? with
  | none => simp [hinst] at h
  | some inst => exact ⟨inst, hinst, mem_writtenVregs_of_defined (by simpa [hinst] using h)⟩

theorem mem_definedAt (hstatus : NoStatusWrites f) : v ∈ definedAt f i ↔ Writes f i v := by
  refine ⟨writes_of_mem_definedAt, ?_⟩
  rintro ⟨inst, hinst, hv⟩
  rw [hstatus.written hinst] at hv
  simpa [definedAt, hinst] using hv

/-- No path reads a register before it has been written. -/
def ReadsWritten (f : MachFunction) : Prop :=
  ∀ b q l i inst v, f.Past b q l → (f.blockInsts b)[q]? = some i → f.insts[i]? = some inst →
    v ∈ usedVregs inst → ∃ d ∈ l, Writes f d v

/-! ## Places -/

/-- The instructions of some blocks with their places, block by block. -/
def placesIn (f : MachFunction) (order : List BlockId) : List (BlockId × ℕ × InstId) :=
  order.flatMap fun b => (f.blockInsts b).zipIdx.map fun e => (b, e.2, e.1)

/-- The linked instructions with their places, in layout order. -/
def places (f : MachFunction) : List (BlockId × ℕ × InstId) := placesIn f f.blockOrder

theorem mem_placesIn {order : List BlockId} :
    (b, q, i) ∈ placesIn f order ↔ b ∈ order ∧ (f.blockInsts b)[q]? = some i := by
  rw [placesIn, mem_flatMap]
  constructor
  · rintro ⟨b', hb', hmem⟩
    obtain ⟨⟨i', q'⟩, he, heq⟩ := mem_map.1 hmem
    cases heq
    exact ⟨hb', mem_zipIdx_iff_getElem?.1 he⟩
  rintro ⟨hb, hi⟩
  exact ⟨b, hb, mem_map.2 ⟨(i, q), mem_zipIdx_iff_getElem?.2 hi, rfl⟩⟩

theorem mem_places :
    (b, q, i) ∈ places f ↔ b ∈ f.blockOrder ∧ (f.blockInsts b)[q]? = some i := mem_placesIn

/-- Every reachable block is laid out. -/
def Listed (f : MachFunction) : Prop := ∀ b, f.Reachable b → b ∈ f.blockOrder

theorem Listed.of_all (hcfg : CfgConsistent f) (h : ∀ b < f.blocks.length, b ∈ f.blockOrder) :
    Listed f := fun b hb => h b (hcfg.lt_of_reachable hb)

theorem not_branch_of_writes (h : Writes f i v) : f.isBranchAt i = false := by
  obtain ⟨inst, hinst, hv⟩ := h
  rw [MachFunction.isBranchAt, hinst, map_some, getD_some]
  by_contra hb
  have hbranch : inst.opcode.isBranch = true := by simpa using hb
  rw [writtenVregs_of_ne, definedVregs, defOperandPositions_of_isBranch hbranch] at hv
  · simp [vregsAt] at hv
  · intro hstlxr
    rw [hstlxr] at hbranch
    cases hbranch

/-- The place `(a, p)` comes before `(b, q)` in its block, or in a block that dominates. -/
def Before (f : MachFunction) (a : BlockId) (p : ℕ) (b : BlockId) (q : ℕ) : Prop :=
  if a = b then p < q else Dominates f a b

/-- Where branches come last, what comes before a place has been executed on every path
to it. -/
theorem Before.mem (hlast : f.BranchesLast) {a : BlockId} {l : List InstId}
    (h : Before f a p b q) (hi : (f.blockInsts a)[p]? = some i) (hnb : f.isBranchAt i = false)
    (hl : f.Past b q l) : i ∈ l := by
  unfold Before at h
  split_ifs at h with hab
  · subst hab
    exact hl.mem_of_lt h hi
  · exact hl.mem_of_dominates hlast h hab (mem_of_getElem? hi) hnb

/-! ## Runs -/

/-- What instructions compute: from the values read and the hidden state, the values
written and the new hidden state. -/
structure Machine (V H : Type*) where
  exec : MachInst → List V → H → List V × H

/-- The registers, the hidden state, and what has been executed, most recent first. -/
@[ext]
structure Env (V H : Type*) where
  regs : VReg → V
  hidden : H
  trace : List (InstId × List V)

section

variable {V H : Type*} {s t : State (Env V H)}

/-- Write values to registers, one after the other. -/
def setAll (regs : VReg → V) (vs : List VReg) (xs : List V) : VReg → V :=
  (vs.zip xs).foldl (fun r p => Function.update r p.1 p.2) regs

theorem setAll_of_notMem (vs : List VReg) (xs : List V) (regs : VReg → V) {v : VReg} (hv : v ∉ vs) :
    setAll regs vs xs v = regs v := by
  induction vs generalizing xs regs v with
  | nil => rfl
  | cons w vs ih =>
    cases xs with
    | nil => rfl
    | cons x xs =>
      have hne : v ≠ w := fun h => hv (h ▸ .head _)
      have hrest : v ∉ vs := fun h => hv (.tail _ h)
      exact (ih xs _ hrest).trans (Function.update_of_ne hne ..)

/-- Execute one instruction. -/
def Machine.apply (M : Machine V H) (i : InstId) (inst : MachInst) (env : Env V H) : Env V H :=
  let vals := (usedVregs inst).map env.regs
  let out := M.exec (shape inst) vals env.hidden
  ⟨setAll env.regs (writtenVregs inst) out.1, out.2, (i, vals) :: env.trace⟩

/-- The instruction at an index of the arena takes one state to another. -/
def Machine.Exec (M : Machine V H) (f : MachFunction) (i : InstId) (env env' : Env V H) : Prop :=
  ∃ inst, f.insts[i]? = some inst ∧ env' = M.apply i inst env

/-- The states a run of the function can be in; it starts with any registers. -/
inductive Machine.Run (M : Machine V H) (f : MachFunction) : State (Env V H) → Prop
  | start (regs : VReg → V) (hidden : H) : Run M f ⟨f.entry, 0, ⟨regs, hidden, []⟩⟩
  | step {s t : State (Env V H)} : Run M f s → Step f (M.Exec f) s t → Run M f t

variable {M : Machine V H} {f g : MachFunction}

theorem Machine.apply_regs_of_notMem {env : Env V H}
    (hv : v ∉ writtenVregs inst) : (M.apply i inst env).regs v = env.regs v :=
  setAll_of_notMem _ _ _ hv

theorem Machine.Run.past (h : M.Run f s) : f.Past s.block s.pos (s.env.trace.map Prod.fst) := by
  induction h with
  | start regs hidden => exact .refl
  | step _ hst ih =>
    cases hst with
    | inst hi hexec =>
      obtain ⟨inst, -, rfl⟩ := hexec
      exact ih.inst hi
    | branch hexit hc => exact ih.branch hexit hc

theorem Machine.Run.reachable (h : M.Run f s) : f.Reachable s.block := h.past.reachable

/-- **Facts.**  What executing `c` establishes, and what is kept by everything that is not
in `kills`, holds where nothing in `kills` has been executed since `c`. -/
theorem Machine.Run.fact (F : (VReg → V) → H → Prop) (c : InstId) (kills : InstId → Prop)
    {l1 : List InstId}
    (hc : ∀ s0 inst, M.Run f s0 → f.AboutTo s0 c → s0.env.trace.map Prod.fst = l1 →
      f.insts[c]? = some inst → F (M.apply c inst s0.env).regs (M.apply c inst s0.env).hidden)
    (hkeep : ∀ i inst env, f.insts[i]? = some inst → ¬ kills i → F env.regs env.hidden →
      F (M.apply i inst env).regs (M.apply i inst env).hidden) (h : M.Run f s) :
    ∀ l2, s.env.trace.map Prod.fst = l2 ++ c :: l1 → (∀ i ∈ l2, ¬ kills i) →
      F s.env.regs s.env.hidden := by
  induction h with
  | start regs hidden => intro l2 hl; simp at hl
  | step hs hst ih =>
    intro l2 hl hkills
    cases hst with
    | @inst b pos i env env' hi hexec =>
      obtain ⟨inst, hinst, rfl⟩ := hexec
      cases l2 with
      | nil =>
        obtain ⟨rfl, hl'⟩ := List.cons.inj hl
        exact hc _ inst hs hi hl' hinst
      | cons k l2 =>
        obtain ⟨rfl, hl'⟩ := List.cons.inj hl
        exact hkeep i inst env hinst (hkills i (.head _))
          (ih l2 hl' fun j hj => hkills j (.tail _ hj))
    | branch _ _ => exact ih l2 hl hkills

/-- Follow a run by its choices: `none` executes the next instruction, a block leaves for
that block. -/
def Machine.play (M : Machine V H) (f : MachFunction) :
    List (Option BlockId) → State (Env V H) → Option (State (Env V H))
  | [], s => some s
  | none :: moves, s =>
    ((f.blockInsts s.block)[s.pos]?).bind fun i => (f.insts[i]?).bind fun inst =>
      M.play f moves ⟨s.block, s.pos + 1, M.apply i inst s.env⟩
  | some c :: moves, s =>
    if f.Exits s.block s.pos ∧ c ∈ f.succs s.block then M.play f moves ⟨c, 0, s.env⟩
    else none

theorem Machine.Run.play (moves : List (Option BlockId)) (hs : M.Run f s)
    (h : M.play f moves s = some t) : M.Run f t := by
  induction moves generalizing s t with
  | nil => exact Option.some.inj h ▸ hs
  | cons move moves ih =>
    cases move with
    | none =>
      obtain ⟨i, hi, h⟩ := bind_eq_some_iff.1 h
      obtain ⟨inst, hinst, h⟩ := bind_eq_some_iff.1 h
      exact ih (hs.step (.inst hi ⟨inst, hinst, rfl⟩)) h
    | some c =>
      rw [Machine.play] at h
      split_ifs at h with hc
      exact ih (hs.step (.branch hc.1 hc.2)) h

theorem Machine.play_append : ∀ (moves1 moves2 : List (Option BlockId)) (s : State (Env V H)),
      M.play f (moves1 ++ moves2) s = (M.play f moves1 s).bind (M.play f moves2) := by
  intro moves1 moves2
  induction moves1 with
  | nil => intro s; rfl
  | cons move moves1 ih =>
    intro s
    cases move with
    | none =>
      rw [cons_append, Machine.play, Machine.play, bind_assoc]
      refine congrArg _ (funext fun i => ?_)
      rw [bind_assoc]
      exact congrArg _ (funext fun inst => ih _)
    | some c =>
      rw [cons_append, Machine.play, Machine.play]
      split_ifs
      · exact ih _
      · rfl

/-- A function whose entry has no successor has one run from each start. -/
theorem Machine.Run.straight (hsuccs : f.succs f.entry = [])
    (h : M.Run f s) : s.pos ≤ (f.blockInsts f.entry).length ∧ ∃ regs hidden,
      M.play f (List.replicate s.pos none) ⟨f.entry, 0, ⟨regs, hidden, []⟩⟩ = some s := by
  induction h with
  | start regs hidden => exact ⟨Nat.zero_le _, regs, hidden, rfl⟩
  | @step s t hs hst ih =>
    obtain ⟨-, regs, hidden, hplay⟩ := ih
    have hblock := hs.past.eq_of_succs_nil hsuccs
    cases hst with
    | @inst b pos i env env' hi hexec =>
      obtain ⟨inst, hinst, rfl⟩ := hexec
      subst hblock
      refine ⟨(List.getElem?_eq_some_iff.1 hi).1, regs, hidden, ?_⟩
      rw [replicate_succ', Machine.play_append, hplay]
      simp only [bind_some, Machine.play, hi, hinst]
    | branch _ hc =>
      dsimp only at hblock
      rw [hblock, hsuccs] at hc
      simp at hc

/-- Where a trace shows at most one execution of `i`, no other one of `i` is in it. -/
theorem notMem_of_filter {trace : List (InstId × List V)} {x y : List V}
    (h : trace.filter (fun e => e.1 = i) ∈ [[], [(i, x)]]) (hne : y ≠ x) : (i, y) ∉ trace := by
  intro hmem
  have hy : (i, y) ∈ trace.filter fun e => e.1 = i := mem_filter.2 ⟨hmem, by simp⟩
  rcases mem_cons.1 h with hnil | h
  · rw [hnil] at hy
    simp at hy
  rw [mem_singleton.1 h, mem_singleton] at hy
  exact hne (Prod.ext_iff.1 hy).2

/-- Registers have been written before they are read if every read finds a write further up
in its block or among instructions that have been executed on every way into the block,
wherever the blocks before it have been left. -/
theorem ReadsWritten.of_table (done : BlockId → List InstId) (hentry : done f.entry = [])
    (hedge : ∀ b < f.blocks.length, ∀ c ∈ f.succs b, ∀ d ∈ done c,
      d ∈ done b ∨ ∀ q < (f.blockInsts b).length + 1, f.Exits b q → d ∈ (f.blockInsts b).take q)
    (hread : ∀ b < f.blocks.length, ∀ q < (f.blockInsts b).length,
      ∀ i ∈ (f.blockInsts b)[q]?, ∀ inst ∈ f.insts[i]?, ∀ v ∈ usedVregs inst,
        ∃ d ∈ done b ++ (f.blockInsts b).take q, v ∈ definedAt f d) : ReadsWritten f := by
  have hup : ∀ {b q l}, f.Past b q l → ∀ d ∈ (f.blockInsts b).take q, d ∈ l := by
    intro b q l hl d hd
    obtain ⟨p, hp, rfl⟩ := mem_take_iff_getElem.1 hd
    exact hl.mem_of_lt (lt_of_lt_of_le hp (min_le_left _ _)) (getElem?_eq_getElem _)
  intro b q l i inst v hl hi hinst hv
  have hdone : ∀ d ∈ done b, d ∈ l := by
    clear hi
    induction hl with
    | refl => simp [hentry]
    | inst _ _ ih => exact fun d hd => .tail _ (ih d hd)
    | @branch b c q l hl hexit hc ih =>
      intro d hd
      have hb : b < f.blocks.length := by
        by_contra hge
        simp [MachFunction.succs_of_ge (not_lt.1 hge)] at hc
      rcases hedge b hb c hc d hd with hd | hd
      · exact ih d hd
      exact hup hl d (hd q (Nat.lt_succ_of_le hl.pos_le) hexit)
  obtain ⟨block, hb, -⟩ := MachFunction.blockInsts_eq_some hi
  obtain ⟨d, hd, hv⟩ := hread b (List.getElem?_eq_some_iff.1 hb).1 q
    (List.getElem?_eq_some_iff.1 hi).1 i hi inst hinst v hv
  refine ⟨d, ?_, writes_of_mem_definedAt hv⟩
  rcases mem_append.1 hd with hd | hd
  · exact hdone d hd
  · exact hup hl d hd

/-! ## Values of operands -/

/-- The value of an operand: that of its register, or the operand itself. -/
inductive Datum (V : Type*)
  | reg (x : V)
  | const (op : MachOperand)

/-- The value of an operand in a register file. -/
def datum (regs : VReg → V) : MachOperand → Datum V
  | .vreg v => .reg (regs v)
  | op => .const op

/-! ## A small machine -/

/-- The immediate at operand `p`. -/
def immAt (inst : MachInst) (p : ℕ) : ℤ :=
  match inst.operands[p]? with
  | some (.imm n) => n
  | _ => 0

/-- A machine on integers that moves and adds. -/
def adder : Machine ℤ Unit where
  exec inst vals h :=
    match inst.opcode, vals with
    | .MovI, _ => ([immAt inst 1], h)
    | .MovR, x :: _ => ([x], h)
    | .AddRI, x :: _ => ([x + immAt inst 2], h)
    | _, _ => ([], h)

/-- The 64-bit register of a number. -/
def xreg (id : ℕ) : VReg := ⟨id, .gpr64⟩

/-! ## Rewriting operands in place -/

/-- `g` is `f` with registers renamed in some operands, where the new register holds the
value of the old one whenever the operand is read. -/
structure SameReads (M : Machine V H) (f g : MachFunction) : Prop where
  entry : g.entry = f.entry
  blocks : g.blocks = f.blocks
  insts : ∀ i : InstId, (f.insts[i]? = none ∧ g.insts[i]? = none) ∨
    ∃ inst inst', f.insts[i]? = some inst ∧ g.insts[i]? = some inst'
      ∧ shape inst' = shape inst ∧ writtenVregs inst' = writtenVregs inst
      ∧ ∀ s, M.Run f s → f.AboutTo s i →
          (usedVregs inst').map s.env.regs = (usedVregs inst).map s.env.regs

theorem shape_opcode (inst : MachInst) : (shape inst).opcode = inst.opcode := rfl

theorem SameReads.exits_iff (h : SameReads M f g) {pos : ℕ} :
    g.Exits b pos ↔ f.Exits b pos := by
  have hbranch : ∀ i, g.isBranchAt i = f.isBranchAt i := by
    intro i
    rcases h.insts i with ⟨hf, hg⟩ | ⟨inst, inst', hf, hg, hshape, -⟩
    · rw [MachFunction.isBranchAt, MachFunction.isBranchAt, hf, hg]
    have hop : inst'.opcode = inst.opcode := by rw [← shape_opcode inst', hshape, shape_opcode]
    rw [MachFunction.isBranchAt, MachFunction.isBranchAt, hf, hg, map_some, map_some, hop]
  unfold MachFunction.Exits MachFunction.blockInsts
  rw [h.blocks]
  simp only [hbranch]

/-- In a state of a run of `f` the two functions make the same steps. -/
theorem SameReads.step_iff (h : SameReads M f g) (hs : M.Run f s) :
    Step g (M.Exec g) s t ↔ Step f (M.Exec f) s t := by
  have hinsts : ∀ b, g.blockInsts b = f.blockInsts b := by
    intro b
    rw [MachFunction.blockInsts, MachFunction.blockInsts, h.blocks]
  have hsuccs : ∀ b, g.succs b = f.succs b := by
    intro b
    rw [MachFunction.succs, MachFunction.succs, h.blocks]
  -- the same values are read, so the same state results
  have happly : ∀ {i inst inst'}, f.insts[i]? = some inst → g.insts[i]? = some inst' →
      f.AboutTo s i → M.apply i inst' s.env = M.apply i inst s.env := by
    intro i inst inst' hf hg habout
    rcases h.insts i with ⟨hf', -⟩ | ⟨inst1, inst2, hf', hg', hshape, hdefs, hreads⟩
    · rw [hf] at hf'; simp at hf'
    cases hf.symm.trans hf'
    cases hg.symm.trans hg'
    have hvals := hreads s hs habout
    simp only [Machine.apply, hvals, hshape, hdefs]
  constructor
  · intro hst
    cases hst with
    | inst hi hexec =>
      obtain ⟨inst', hg, rfl⟩ := hexec
      rw [hinsts] at hi
      rcases h.insts _ with ⟨-, hg'⟩ | ⟨inst, -, hf, -⟩
      · rw [hg] at hg'; simp at hg'
      · exact .inst hi ⟨inst, hf, happly hf hg hi⟩
    | branch hexit hc => exact .branch (h.exits_iff.1 hexit) (hsuccs _ ▸ hc)
  intro hst
  cases hst with
  | inst hi hexec =>
    obtain ⟨inst, hf, rfl⟩ := hexec
    rcases h.insts _ with ⟨hf', -⟩ | ⟨-, inst', -, hg, -⟩
    · rw [hf] at hf'; simp at hf'
    · exact .inst (by rwa [hinsts]) ⟨inst', hg, (happly hf hg hi).symm⟩
  | branch hexit hc => exact .branch (h.exits_iff.2 hexit) (by rwa [hsuccs])

/-- **The two functions have the same runs.** -/
theorem run_iff_of_sameReads (h : SameReads M f g) : M.Run g s ↔ M.Run f s := by
  constructor
  · intro hs
    induction hs with
    | start regs hidden => rw [h.entry]; exact .start regs hidden
    | step _ hst ih => exact ih.step ((h.step_iff ih).1 hst)
  intro hs
  induction hs with
  | start regs hidden => rw [← h.entry]; exact .start regs hidden
  | step hs hst ih => exact ih.step ((h.step_iff hs).2 hst)

end

end TrustCg.Opt
