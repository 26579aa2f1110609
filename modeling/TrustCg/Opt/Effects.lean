import TrustCg.Ir.Exec

/-!
# What an instruction reads and writes

The operand-role table of `effects.rs`: for each opcode, which positions of the
operand list are written, read, or both.  Most opcodes that produce a value write
operand 0; the exceptions are pairs, write-back addressing, the atomics and the
instructions that update part of their destination.  Beside it the tables of what an
opcode does to memory and to the condition flags.
-/

namespace TrustCg.Opt

open Ir List
open RegAlloc (VReg)

/-- How an operand is used. -/
inductive OperandRole
  | Def
  | Use
  | DefUse
  deriving DecidableEq, Repr

namespace OperandRole

/-- The operand is written. -/
def isDef : OperandRole → Bool
  | Def | DefUse => true
  | Use => false

/-- The operand is read. -/
def isUse : OperandRole → Bool
  | Use | DefUse => true
  | Def => false

end OperandRole

/-- `is_lse_rmw`: read-modify-write atomics, whose old value goes to operand 1. -/
def isLseRmw : AArch64Opcode → Bool
  | .Ldadd | .Ldadda | .Ldaddal | .Ldaddl | .Ldclr | .Ldclra | .Ldclral | .Ldclrl | .Ldeor
  | .Ldeora | .Ldeoral | .Ldeorl | .Ldset | .Ldseta | .Ldsetal | .Ldsetl | .Ldsmax | .Ldsmaxa
  | .Ldsmaxal | .Ldsmaxl | .Ldsmin | .Ldsmina | .Ldsminal | .Ldsminl | .Ldumax | .Ldumaxa
  | .Ldumaxal | .Ldumaxl | .Ldumin | .Ldumina | .Lduminal | .Lduminl | .Swp | .Swpa | .Swpal
  | .Swpl => true
  | _ => false

/-- `is_lse_cas`: compare-and-swap, where operand 0 is read and written. -/
def isLseCas : AArch64Opcode → Bool
  | .Cas | .Casa | .Casal | .Casl => true
  | _ => false

/-- `has_tied_def_use`: operand 0 keeps part of its old value or accumulates into it. -/
def hasTiedDefUse : AArch64Opcode → Bool
  | .Movk | .Bfm | .NeonInsGen | .NeonUdotV | .NeonBitV | .NeonFmlaV | .NeonFmlsV
  | .NeonFmlaLaneV | .NeonSmlalV | .NeonSmlal2V | .NeonUmlalV | .NeonUmlal2V | .NeonMlaV
  | .NeonUadalpV => true
  | _ => false

variable (opcode : AArch64Opcode)

/-- `fill_operand_roles`, on roles that start out as uses.  Setting a position past the
end does nothing, which is what the source's tests of the operand count come to. -/
def fillOperandRoles (roles : List OperandRole) : List OperandRole :=
  match opcode with
  | .NeonLd1Post => (roles.set 0 .Def).set 1 .DefUse
  | .NeonLdpQPost => ((roles.set 0 .Def).set 1 .Def).set 2 .DefUse
  | .NeonSt1Post => roles.set 1 .DefUse
  | .NeonStpQPost => roles.set 2 .DefUse
  | .LdrPreIndex | .LdrPostIndex => (roles.set 0 .Def).set 1 .DefUse
  | .StrPreIndex | .StrPostIndex => roles.set 1 .DefUse
  | .LdpPostIndex => ((roles.set 0 .Def).set 1 .Def).set 2 .DefUse
  | .StpPreIndex => roles.set 2 .DefUse
  | _ =>
    if isLseRmw opcode then roles.set 1 .Def
    else if isLseCas opcode then roles.set 0 .DefUse
    else if opcode = .LdpRI then (roles.set 0 .Def).set 1 .Def
    else if opcode.producesValue then
      roles.set 0 (if hasTiedDefUse opcode then .DefUse else .Def)
    else roles

variable (operandCount : ℕ)

/-- `aarch64_operand_roles`. -/
def operandRoles : List OperandRole :=
  fillOperandRoles opcode (List.replicate operandCount .Use)

/-- `aarch64_def_operand_positions`. -/
def defOperandPositions : List ℕ :=
  (operandRoles opcode operandCount).zipIdx.filterMap fun e => if e.1.isDef then some e.2 else none

/-- `aarch64_use_operand_positions`. -/
def useOperandPositions : List ℕ :=
  (operandRoles opcode operandCount).zipIdx.filterMap fun e => if e.1.isUse then some e.2 else none

/-- `single_inst_def`: the register at the only written position. -/
def singleInstDef (inst : MachInst) : Option VReg :=
  match defOperandPositions inst.opcode inst.operands.length with
  | [p] => (inst.operands[p]?).bind MachOperand.asVreg
  | _ => none

/-! ## Memory and flags -/

/-- What an opcode does to memory. -/
inductive MemoryEffect
  | Pure
  | Load
  | Store
  | Call
  deriving DecidableEq, Repr

namespace MemoryEffect

/-- Memory may change. -/
def writesMemory : MemoryEffect → Bool
  | Store | Call => true
  | Pure | Load => false

/-- Accesses are ordered. -/
def isBarrier : MemoryEffect → Bool
  | Call => true
  | Pure | Load | Store => false

end MemoryEffect

/-- `opcode_effect`; what neither loads nor stores nor is a barrier is pure. -/
def opcodeEffect : AArch64Opcode → MemoryEffect
  | .LdrRI | .LdrPreIndex | .LdrPostIndex | .LdrbRI | .LdrhRI | .LdrsbRI | .LdrshRI
  | .LdrLiteral | .LdpRI | .LdpPostIndex | .LdrRO | .LdrbRO | .LdrhRO | .LdrswRO | .LdrGot
  | .LdrTlvp | .LdrGottprel | .NeonLd1Post | .NeonLdpQPost | .Ldar | .Ldarb | .Ldarh
  | .Ldaxr => .Load
  | .StrRI | .StrPreIndex | .StrPostIndex | .StrbRI | .StrhRI | .StpRI | .StpPreIndex | .StrRO
  | .StrbRO | .StrhRO | .STRWui | .STRXui | .STRSui | .STRDui | .NeonSt1Post | .NeonStpQPost
  | .StackAlloc | .Retain | .Release | .Stlr | .Stlrb | .Stlrh | .Stlxr | .Ldadd | .Ldadda
  | .Ldaddal | .Ldaddl | .Ldclr | .Ldclra | .Ldclral | .Ldclrl | .Ldeor | .Ldeora | .Ldeoral
  | .Ldeorl | .Ldset | .Ldseta | .Ldsetal | .Ldsetl | .Ldsmax | .Ldsmaxa | .Ldsmaxal | .Ldsmaxl
  | .Ldsmin | .Ldsmina | .Ldsminal | .Ldsminl | .Ldumax | .Ldumaxa | .Ldumaxal | .Ldumaxl
  | .Ldumin | .Ldumina | .Lduminal | .Lduminl | .Swp | .Swpa | .Swpal | .Swpl | .Cas | .Casa
  | .Casal | .Casl => .Store
  | .VolatileLdrRI | .VolatileLdrbRI | .VolatileLdrhRI | .VolatileStrRI | .VolatileStrbRI
  | .VolatileStrhRI | .Bl | .Blr | .BL | .BLR | .TailCall | .Dmb | .Dsb | .Isb | .Mrs => .Call
  | _ => .Pure

/-- The condition flags are set. -/
def writesFlags : AArch64Opcode → Bool
  | .CmpRR | .CmpRI | .CMPWrr | .CMPXrr | .CMPWri | .CMPXri | .Tst | .Fcmp | .AddsRR | .AddsRI
  | .SubsRR | .SubsRI => true
  | _ => false

/-- The condition flags are read. -/
def readsFlags : AArch64Opcode → Bool
  | .CSet | .Csel | .Csinc | .Csinv | .Csneg | .FcselRR | .Adc | .Sbc => true
  | _ => false

/-! ## Roles of computations -/

theorem operandRoles_length (opcode : AArch64Opcode) (n : ℕ) :
    (operandRoles opcode n).length = n := by
  unfold operandRoles fillOperandRoles
  split
  all_goals try simp
  split_ifs <;> simp

variable {opcode : AArch64Opcode}

/-- A pure opcode writes operand 0 or nothing. -/
theorem operandRoles_eq_of_pure (heffect : opcodeEffect opcode = .Pure) (n : ℕ) :
    operandRoles opcode (n + 1) = (if opcode.producesValue then
      if hasTiedDefUse opcode then .DefUse else .Def else .Use) :: List.replicate n .Use := by
  revert heffect
  cases opcode
  all_goals first
    | (intro _; rfl)
    | (intro heffect; exact absurd heffect (by decide))

/-- One that produces a value and does not accumulate reads the other operands alone. -/
theorem operandRoles_of_pure (heffect : opcodeEffect opcode = .Pure)
    (hvalue : opcode.producesValue = true) (htied : hasTiedDefUse opcode = false) (n : ℕ) :
    operandRoles opcode (n + 1) = .Def :: List.replicate n .Use := by
  rw [operandRoles_eq_of_pure heffect, if_pos hvalue, htied]
  rfl

/-- The first operand is read and written only where it is tied or compared and swapped. -/
theorem operandRoles_zero_of_defUse {n : ℕ}
    (h : (operandRoles opcode (n + 1)).head? = some .DefUse) :
    hasTiedDefUse opcode = true ∨ isLseCas opcode = true := by
  rw [operandRoles, replicate_succ] at h
  unfold fillOperandRoles at h
  split at h
  case h_11 =>
    split_ifs at h with hrmw hcas hpair hvalue htied
    · simp [List.set] at h
    · exact .inr hcas
    · simp [List.set] at h
    · exact .inl htied
    · simp [List.set] at h
    · simp at h
  all_goals exact absurd h (by simp [List.set])

/-- An instruction that writes its first operand alone reads the others, and does not read
the first one unless it is tied or compared and swapped. -/
theorem operandRoles_of_primary {n : ℕ} (hfirst : 0 ∈ defOperandPositions opcode (n + 1))
    (honly : ∀ p ∈ defOperandPositions opcode (n + 1), p = 0)
    (htied : hasTiedDefUse opcode = false) (hcas : isLseCas opcode = false) :
    operandRoles opcode (n + 1) = .Def :: List.replicate n .Use := by
  have hlen : (operandRoles opcode (n + 1)).length = n + 1 := operandRoles_length opcode (n + 1)
  have hzero : (operandRoles opcode (n + 1)).head? = some .DefUse → _ := operandRoles_zero_of_defUse
  rw [defOperandPositions] at hfirst honly
  rcases hroles : operandRoles opcode (n + 1) with _ | ⟨role, roles⟩
  · rw [hroles] at hlen
    simp at hlen
  rw [hroles] at hlen hfirst honly hzero
  rw [zipIdx_cons, filterMap_cons] at hfirst honly
  -- the other positions are not written
  have hrest : ∀ e ∈ roles.zipIdx 1, e.1.isDef = false := by
    rintro ⟨r, k⟩ he
    by_contra hdef
    have hmem : k ∈ (roles.zipIdx 1).filterMap fun e => if e.1.isDef then some e.2 else none :=
      mem_filterMap.2 ⟨(r, k), he, if_pos (by simpa using hdef)⟩
    have hk : k = 0 := honly k (by split <;> simp [hmem])
    have hge := (mem_zipIdx he).1
    omega
  have huses : roles = List.replicate n .Use := by
    refine eq_replicate_iff.2 ⟨by simpa using hlen, fun r hr => ?_⟩
    obtain ⟨k, hk⟩ := getElem?_of_mem hr
    have hdef := hrest (r, 1 + k)
      (mem_zipIdx_iff_le_and_getElem?_sub.2 ⟨by simp, by simpa using hk⟩)
    cases r with
    | Use => rfl
    | Def => simp [OperandRole.isDef] at hdef
    | DefUse => simp [OperandRole.isDef] at hdef
  rw [huses]
  cases role with
  | Def => rfl
  | DefUse =>
    rcases hzero rfl with h | h
    · exact absurd (h.symm.trans htied) (by decide)
    · exact absurd (h.symm.trans hcas) (by decide)
  | Use =>
    obtain ⟨⟨r, k⟩, he, hek⟩ := mem_filterMap.1 hfirst
    rw [hrest _ he] at hek
    simp at hek

/-! ## Branches -/

theorem isBranch_cases (h : opcode.isBranch = true) :
    opcode ∈ [AArch64Opcode.B, .TailCall, .Br, .BCond, .Bcc, .Cbz, .Cbnz, .Tbz, .Tbnz] := by
  revert h
  cases opcode <;> decide

theorem defOperandPositions_of_isBranch (h : opcode.isBranch = true) (n : ℕ) :
    defOperandPositions opcode n = [] := by
  have hroles : operandRoles opcode n = List.replicate n .Use := by
    have hop := isBranch_cases h
    simp only [mem_cons, not_mem_nil, or_false] at hop
    rcases hop with hop | hop | hop | hop | hop | hop | hop | hop | hop <;> rw [hop] <;> rfl
  rw [defOperandPositions, hroles, filterMap_eq_nil_iff]
  rintro ⟨role, k⟩ hmem
  obtain ⟨-, -, hrole⟩ := mem_zipIdx hmem
  rw [show role = .Use by rw [hrole]; simp]
  rfl

end TrustCg.Opt
