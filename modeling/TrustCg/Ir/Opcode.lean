import Mathlib.Init

/-!
# The AArch64 opcodes of the machine IR

`AArch64Opcode` with the constructors of `inst.rs` in their order, and the questions
the optimizer asks of every one of them: does it write its first operand, is it a
branch, which category is it in?
-/

namespace TrustCg.Ir

/-- The opcodes that the passes tell apart. -/
inductive AArch64Opcode
  | AddRR | AddRI | AddRIShift12 | SubRR | SubRI | MulRR | Msub | Smull | Umull | SDiv | UDiv
  | Neg | AndRR | AndRI | OrrRR | OrrRI | EorRR | EorRI | EorRRShift | AddRRShift | SubRRShift
  | EorRRLsl | EorRRLsr | AddRRShiftLsr | OrnRR | BicRR | LslRR | LsrRR | AsrRR | LslRI | LsrRI
  | AsrRI | RorRI | Rbit | CmpRR | CmpRI | Tst | Csel | Csinc | Csinv | Csneg | FcselRR | MovR
  | MovI | Movz | Movn | Movk | FmovImm | LdrRI | StrRI | LdrPreIndex | StrPreIndex
  | LdrPostIndex | StrPostIndex | LdrbRI | LdrhRI | LdrsbRI | LdrshRI | StrbRI | StrhRI
  | LdrLiteral | LdpRI | StpRI | StpPreIndex | LdpPostIndex | LdrRO | StrRO | LdrbRO | LdrhRO
  | StrbRO | StrhRO | LdrGot | LdrTlvp | B | BCond | Cbz | Cbnz | Tbz | Tbnz | Br | Bl | Blr
  | Ret | CSet | Sxtw | Uxtw | Sxtb | Sxth | Uxtb | Uxth | Ubfm | Sbfm | Bfm | FaddRR | FsubRR
  | FmulRR | FdivRR | FmaddRR | FminnmRR | FmaxnmRR | FnegRR | FabsRR | FsqrtRR | FrintmRR
  | FrintpRR | FrintzRR | Fcmp | FcvtzsRR | FcvtzuRR | ScvtfRR | UcvtfRR | FcvtSD | FcvtDS
  | FcvtHS | FcvtHD | FcvtSH | FcvtDH | FmovGprFpr | FmovFprGpr | FmovFprFpr | NeonAddV
  | NeonSubV | NeonMulV | NeonSmaxV | NeonSminV | NeonUmaxV | NeonUminV | NeonFaddV | NeonFsubV
  | NeonFmulV | NeonFdivV | NeonFcmgtV | NeonAndV | NeonOrrV | NeonEorV | NeonBicV | NeonNotV
  | NeonRbitV | NeonRev32V | NeonRev64V | NeonCmeqV | NeonCmgtV | NeonCmgeV | NeonCmhiV
  | NeonCmhsV | NeonUmaxv | NeonAddpScalar | NeonDupElem | NeonDupGen | NeonInsGen
  | NeonUmovGen | NeonMovi | NeonLd1Post | NeonLdpQPost | NeonSt1Post | NeonStpQPost | NeonCntV
  | NeonUaddlpV | NeonSaddlpV | NeonAbsV | NeonBitV | NeonUdotV | NeonExtV | NeonSmlalV
  | NeonSmlal2V | NeonUmlalV | NeonUmlal2V | NeonUaddwV | NeonUaddw2V | NeonSaddwV
  | NeonSaddw2V | NeonMlaV | NeonUadalpV | NeonFmlaV | NeonFmlsV | NeonUcvtfV | NeonScvtfV
  | NeonFcvtlV | NeonFcvtl2V | NeonDupScalarD | Ldar | Ldarb | Ldarh | Stlr | Stlrb | Stlrh
  | Ldadd | Ldadda | Ldaddal | Ldaddl | Ldclr | Ldclra | Ldclral | Ldclrl | Ldeor | Ldeora
  | Ldeoral | Ldeorl | Ldset | Ldseta | Ldsetal | Ldsetl | Ldsmax | Ldsmaxa | Ldsmaxal
  | Ldsmaxl | Ldsmin | Ldsmina | Ldsminal | Ldsminl | Ldumax | Ldumaxa | Ldumaxal | Ldumaxl
  | Ldumin | Ldumina | Lduminal | Lduminl | Swp | Swpa | Swpal | Swpl | Cas | Casa | Casal
  | Casl | Ldaxr | Stlxr | Dmb | Dsb | Isb | Adrp | Adr | AddPCRel | AddTprelHi12
  | AddTprelLo12 | LdrswRO | AddsRR | AddsRI | SubsRR | SubsRI | Adc | Sbc | Umulh | Smulh
  | Madd | Brk | TrapOverflow | TrapBoundsCheck | TrapBoundsCheckExact | TrapNull
  | TrapNullIfZero | TrapDivZero | TrapDivZeroIfZero | TrapShiftRange | TrapShiftRangeIfOOB
  | Retain | Release | MOVWrr | MOVXrr | STRWui | STRXui | STRSui | STRDui | BL | BLR | CMPWrr
  | CMPXrr | CMPWri | CMPXri | MOVZWi | MOVZXi | Bcc | Mrs | Phi | StackAlloc | Copy | Nop
  | NeonShlVImm | NeonUshrVImm | NeonSshrVImm | TrapOverflowExact | TailCall | LdrGottprel
  | NeonFmlaLaneV | VolatileLdrRI | VolatileLdrbRI | VolatileLdrhRI | VolatileStrRI
  | VolatileStrbRI | VolatileStrhRI | AlignNop
  deriving DecidableEq, Repr

namespace AArch64Opcode

/-- `produces_value`: operand 0 is written.  Comparisons, stores, branches, traps, calls,
barriers and padding do not; every other opcode does. -/
def producesValue : AArch64Opcode → Bool
  | .CmpRR | .CmpRI | .Tst | .Fcmp | .CMPWrr | .CMPXrr | .CMPWri | .CMPXri | .StrRI
  | .StrbRI | .StrhRI | .StrPreIndex | .StrPostIndex | .StpRI | .StpPreIndex | .StrRO
  | .StrbRO | .StrhRO | .STRWui | .STRXui | .STRSui | .STRDui | .NeonSt1Post
  | .NeonStpQPost | .VolatileStrRI | .VolatileStrbRI | .VolatileStrhRI | .B | .TailCall
  | .BCond | .Bcc | .Cbz | .Cbnz | .Tbz | .Tbnz | .Br | .Ret | .Brk | .TrapOverflow
  | .TrapBoundsCheck | .TrapBoundsCheckExact | .TrapNull | .TrapNullIfZero
  | .TrapDivZero | .TrapDivZeroIfZero | .TrapShiftRange | .TrapShiftRangeIfOOB
  | .TrapOverflowExact | .Retain | .Release | .Nop | .AlignNop | .Bl | .Blr | .BL | .BLR
  | .Dmb | .Dsb | .Isb | .Stlr | .Stlrb | .Stlrh | .Stlxr => false
  | _ => true

/-- Control never falls through. -/
def isUnconditionalBranch : AArch64Opcode → Bool
  | .B | .TailCall | .Br => true
  | _ => false

/-- Control may fall through. -/
def isConditionalBranch : AArch64Opcode → Bool
  | .BCond | .Bcc | .Cbz | .Cbnz | .Tbz | .Tbnz => true
  | _ => false

/-- Copies one register to another. -/
def isMove : AArch64Opcode → Bool
  | .MovR | .Copy | .MOVWrr | .MOVXrr | .FmovFprFpr => true
  | _ => false

/-- The two sources may be exchanged. -/
def isCommutative : AArch64Opcode → Bool
  | .AddRR | .MulRR | .AndRR | .OrrRR | .EorRR | .FaddRR | .FmulRR | .FminnmRR | .FmaxnmRR
  | .NeonAddV | .NeonMulV | .NeonFaddV | .NeonFmulV | .NeonAndV | .NeonOrrV | .NeonEorV
  | .NeonSmaxV | .NeonSminV | .NeonUmaxV | .NeonUminV => true
  | _ => false

end AArch64Opcode

/-- What an opcode does, roughly. -/
inductive OpcodeCategory
  | AddRR | AddRI | SubRR | SubRI | MulRR | Neg | AndRR | AndRI | OrRR | OrRI | XorRR | XorRI
  | ShlRR | ShlRI | ShrRR | ShrRI | SarRR | SarRI | MovRR | MovRI | CmpRR | CmpRI | Nop | Ret
  | Call | Branch | CondBranch | Load | Store | Phi | Other
  deriving DecidableEq, Repr

/-- The category of an opcode. -/
def AArch64Opcode.categorize : AArch64Opcode → OpcodeCategory
  | .AddRR | .NeonAddV => .AddRR
  | .AddRI | .AddRIShift12 => .AddRI
  | .SubRR | .NeonSubV => .SubRR
  | .SubRI => .SubRI
  | .MulRR | .NeonMulV => .MulRR
  | .Neg => .Neg
  | .AndRR => .AndRR
  | .AndRI => .AndRI
  | .OrrRR => .OrRR
  | .OrrRI => .OrRI
  | .EorRR | .EorRRShift | .EorRRLsl | .EorRRLsr => .XorRR
  | .EorRI => .XorRI
  | .LslRR => .ShlRR
  | .LslRI => .ShlRI
  | .LsrRR => .ShrRR
  | .LsrRI => .ShrRI
  | .AsrRR => .SarRR
  | .AsrRI => .SarRI
  | .MovR | .Copy | .MOVWrr | .MOVXrr => .MovRR
  | .MovI | .Movz | .Movn | .MOVZWi | .MOVZXi => .MovRI
  | .CmpRR | .CMPWrr | .CMPXrr => .CmpRR
  | .CmpRI | .CMPWri | .CMPXri => .CmpRI
  | .B | .Br => .Branch
  | .BCond | .Bcc | .Cbz | .Cbnz | .Tbz | .Tbnz => .CondBranch
  | .Bl | .Blr | .BL | .BLR | .TailCall => .Call
  | .Ret => .Ret
  | .LdrRI | .LdrPreIndex | .LdrPostIndex | .LdrbRI | .LdrhRI | .LdrsbRI | .LdrshRI
  | .LdrLiteral | .LdpRI | .LdpPostIndex | .LdrRO | .LdrbRO | .LdrhRO | .LdrswRO | .LdrGot
  | .LdrTlvp | .LdrGottprel | .NeonLd1Post | .NeonLdpQPost | .Ldar | .Ldarb | .Ldarh
  | .Ldaxr => .Load
  | .StrRI | .StrPreIndex | .StrPostIndex | .StrbRI | .StrhRI | .StpRI | .StpPreIndex | .StrRO
  | .StrbRO | .StrhRO | .STRWui | .STRXui | .STRSui | .STRDui | .NeonSt1Post | .NeonStpQPost
  | .Stlr | .Stlrb | .Stlrh | .Stlxr => .Store
  | .Phi => .Phi
  | .Nop => .Nop
  | _ => .Other

end TrustCg.Ir
