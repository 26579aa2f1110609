import Mathlib.Data.List.Nodup
import TrustCg.Lib.Slots
import TrustCg.Lower.Types
import TrustCg.RegAlloc.Regs

/-!
# AArch64 parameter classification

`classify_params_with` and `classify_params_variadic` of `abi.rs`: every parameter
type gets a place, in registers `X0`-`X7` or `V0`-`V7` or on the stack, by a walk
with three cursors.

What the walk does with one type is said once: every type makes a `Request` for some
registers of one file and names the stack slot it takes when they are not there
(`classifyParam_serves`).  Registers then go out in increasing order, so no register
serves twice and an exhausted file stays exhausted, and the stack is a row of slots.
-/

namespace TrustCg.Lower

open RegAlloc (PReg regRoot)
open Slots (Slot alignUp top)
open List

/-! ## The model -/

/-- Where an argument is passed. -/
inductive ArgLocation
  | reg (r : PReg)
  | stack (offset size : ℕ)
  | indirect (ptrReg : PReg)
  | regSequence (regs : List PReg)
  | regPair (lo hi : PReg)
  deriving DecidableEq, Repr

/-- What the members of an HFA are. -/
inductive HfaBaseType
  | f16
  | f32
  | f64
  deriving DecidableEq, Repr

/-- Linux or Darwin. -/
inductive AArch64AbiVariant
  | darwin
  | aapcs64
  deriving DecidableEq, Repr

/-- `GPR_ARG_REGS`: `X0`-`X7`. -/
def gprArgRegs : List PReg := [0, 1, 2, 3, 4, 5, 6, 7]

/-- `FPR_ARG_REGS`: `V0`-`V7`. -/
def fprArgRegs : List PReg := [64, 65, 66, 67, 68, 69, 70, 71]

/-- `S_ARG_REGS`: `S0`-`S7`. -/
def sArgRegs : List PReg := [128, 129, 130, 131, 132, 133, 134, 135]

/-- `D_ARG_REGS`: `D0`-`D7`. -/
def dArgRegs : List PReg := [96, 97, 98, 99, 100, 101, 102, 103]

/-- `H_ARG_REGS`: `H0`-`H7`. -/
def hArgRegs : List PReg := [165, 166, 167, 168, 169, 170, 171, 172]

/-- The registers of a floating-point type's own width. -/
def typedRegs : HfaBaseType → List PReg
  | .f16 => hArgRegs
  | .f32 => sArgRegs
  | .f64 => dArgRegs

/-- The floating-point types an HFA is made of. -/
def Ty.hfaBase : Ty → Option HfaBaseType
  | .f16 => some .f16
  | .f32 => some .f32
  | .f64 => some .f64
  | _ => none

mutual

/-- The leaves of an aggregate. -/
def Ty.flattenHfaFields : Ty → List Ty
  | .struct fields => flattenAll fields
  | .array elem count => (List.replicate count elem.flattenHfaFields).flatten
  | ty => [ty]

/-- The leaves of a list of fields. -/
def flattenAll : List Ty → List Ty
  | [] => []
  | f :: fs => f.flattenHfaFields ++ flattenAll fs

end

/-- `detect_hfa`: the element type and the number of elements. -/
def Ty.detectHfa : Ty → Option (HfaBaseType × ℕ)
  | .struct fields =>
    if fields.isEmpty || 4 < fields.length then none
    else
      match flattenAll fields with
      | [] => none
      | first :: rest =>
        if 4 < (first :: rest).length then none
        else
          match first.hfaBase with
          | none => none
          | some base =>
            if (first :: rest).all fun f => f.hfaBase = some base then
              some (base, (first :: rest).length)
            else none
  | .array elem count =>
    if count = 0 || 4 < count then none
    else
      match elem.hfaBase with
      | some base => some (base, count)
      | none =>
        match elem.detectHfa with
        | some (base, innerCount) =>
          if count * innerCount ≤ 4 then some (base, count * innerCount) else none
        | none => none
  | _ => none

/-- The state of the walk: `gpr_idx`, `fpr_idx` and `stack_offset`. -/
structure Cursors where
  gprIdx : ℕ
  fprIdx : ℕ
  stackOffset : ℕ
  deriving DecidableEq, Repr

variable (variant : AArch64AbiVariant)

/-- The next slot, rounded up. -/
def placeScalarStackArg (s : Cursors) (naturalAlign naturalSize : ℕ) : ArgLocation × Cursors :=
  let align := match variant with
    | .darwin => naturalAlign
    | .aapcs64 => max naturalAlign 8
  let size := match variant with
    | .darwin => naturalSize
    | .aapcs64 => max naturalSize 8
  let offset := alignUp s.stackOffset align
  (.stack offset size, { s with stackOffset := offset + size })

/-- A slot of fixed size at the next multiple of that size. -/
def placeAligned (s : Cursors) (size : ℕ) : ArgLocation × Cursors :=
  let offset := alignUp s.stackOffset size
  (.stack offset size, { s with stackOffset := offset + size })

/-- A slot where the cursor stands, which takes whole eightbytes. -/
def placeAggregate (s : Cursors) (size : ℕ) : ArgLocation × Cursors :=
  (.stack s.stackOffset size, { s with stackOffset := s.stackOffset + alignUp size 8 })

variable (ty : Ty)

/-- The arm of `classify_params_with` for integers. -/
def classifyInt (s : Cursors) : ArgLocation × Cursors :=
  if s.gprIdx < gprArgRegs.length then
    (.reg (gprArgRegs.getD s.gprIdx 0), { s with gprIdx := s.gprIdx + 1 })
  else placeScalarStackArg variant s ty.align ty.bytes

/-- The arm for `I128`. -/
def classifyI128 (s : Cursors) : ArgLocation × Cursors :=
  if s.gprIdx + 1 < gprArgRegs.length then
    (.regPair (gprArgRegs.getD s.gprIdx 0) (gprArgRegs.getD (s.gprIdx + 1) 0),
      { s with gprIdx := s.gprIdx + 2 })
  else placeAligned { s with gprIdx := gprArgRegs.length } 16

variable (base : HfaBaseType)

/-- The arm for `F16`, `F32` and `F64`. -/
def classifyFloat (s : Cursors) : ArgLocation × Cursors :=
  if s.fprIdx < fprArgRegs.length then
    (.reg ((typedRegs base).getD s.fprIdx 0), { s with fprIdx := s.fprIdx + 1 })
  else placeScalarStackArg variant s ty.align ty.bytes

/-- The arms for the vector types, with their registers and size. -/
def classifyVector (regs : List PReg) (size : ℕ) (s : Cursors) : ArgLocation × Cursors :=
  if s.fprIdx < fprArgRegs.length then
    (.reg (regs.getD s.fprIdx 0), { s with fprIdx := s.fprIdx + 1 })
  else placeAligned s size

/-- An HFA goes to registers whole or not at all, and closes the file if it does not
fit. -/
def classifyHfa (count : ℕ) (s : Cursors) : ArgLocation × Cursors :=
  if s.fprIdx + count ≤ fprArgRegs.length then
    (.regSequence ((List.range' s.fprIdx count).map fun i => (typedRegs base).getD i 0),
      { s with fprIdx := s.fprIdx + count })
  else placeAggregate { s with fprIdx := fprArgRegs.length } ty.bytes

/-- Any other aggregate goes by its size. -/
def classifyComposite (s : Cursors) : ArgLocation × Cursors :=
  let size := ty.bytes
  if size ≤ 16 ∧ s.gprIdx < gprArgRegs.length then
    if size ≤ 8 then
      (.reg (gprArgRegs.getD s.gprIdx 0), { s with gprIdx := s.gprIdx + 1 })
    else if s.gprIdx + 1 < gprArgRegs.length then
      (.regPair (gprArgRegs.getD s.gprIdx 0) (gprArgRegs.getD (s.gprIdx + 1) 0),
        { s with gprIdx := s.gprIdx + 2 })
    else placeAggregate { s with gprIdx := gprArgRegs.length } size
  else if 16 < size then
    if s.gprIdx < gprArgRegs.length then
      (.indirect (gprArgRegs.getD s.gprIdx 0), { s with gprIdx := s.gprIdx + 1 })
    else
      (.stack s.stackOffset 8,
        { s with stackOffset := s.stackOffset + 8, gprIdx := gprArgRegs.length })
  else placeAggregate { s with gprIdx := gprArgRegs.length } size

/-- One turn of the loop of `classify_params_with`. -/
def classifyParam (s : Cursors) : ArgLocation × Cursors :=
  match ty with
  | .b1 | .i8 | .i16 | .i32 | .i64 => classifyInt variant ty s
  | .i128 => classifyI128 s
  | .f16 => classifyFloat variant ty .f16 s
  | .f32 => classifyFloat variant ty .f32 s
  | .f64 => classifyFloat variant ty .f64 s
  | .v128 => classifyVector fprArgRegs 16 s
  | .v64 => classifyVector dArgRegs 8 s
  | .struct _ | .array _ _ | .enum _ _ =>
    match ty.detectHfa with
    | some (base, count) => classifyHfa ty base count s
    | none => classifyComposite ty s

/-- The loop of `classify_params_with` from given cursors. -/
def classifyFrom (variant : AArch64AbiVariant) : Cursors → List Ty → List ArgLocation
  | _, [] => []
  | s, ty :: tys =>
    (classifyParam variant ty s).1 :: classifyFrom variant (classifyParam variant ty s).2 tys

/-- The places of all parameters. -/
def classifyParamsWith (params : List Ty) : List ArgLocation :=
  classifyFrom variant ⟨0, 0, 0⟩ params

/-- The places on Darwin. -/
def classifyParams (params : List Ty) : List ArgLocation := classifyParamsWith .darwin params

/-- The bytes of a location on the stack, as offset and size. -/
def ArgLocation.range : ArgLocation → Option (ℕ × ℕ)
  | .stack offset size => some (offset, size)
  | _ => none

/-- The largest `offset + align_up(size, 8)` of the stack locations. -/
def stackEnd (locs : List ArgLocation) : ℕ := top 8 (locs.filterMap ArgLocation.range)

/-- The bytes of the stack area. -/
def stackArgsSize (params : List Ty) : ℕ := stackEnd (classifyParams params)

/-- The loop of `classify_params_variadic` over the variadic parameters. -/
def classifyVariadicFrom : ℕ → List Ty → List ArgLocation
  | _, [] => []
  | stackOffset, ty :: tys =>
    let size := if ty.bytes < 8 then 8 else ty.bytes
    .stack stackOffset size :: classifyVariadicFrom (stackOffset + alignUp size 8) tys

/-- The places of fixed and variadic ones. -/
def classifyParamsVariadic (fixedCount : ℕ) (params : List Ty) : List ArgLocation :=
  let fixedParams := if fixedCount ≤ params.length then params.take fixedCount else params
  let result := classifyParams fixedParams
  result ++ classifyVariadicFrom (stackEnd result) (params.drop fixedCount)

/-- The bytes of both stack areas. -/
def stackArgsSizeVariadic (fixedCount : ℕ) (params : List Ty) : ℕ :=
  stackEnd (classifyParamsVariadic fixedCount params)

/-! ## What a type asks for -/

/-- The two register files. -/
inductive RegFile
  | gpr
  | fpr
  deriving DecidableEq, Repr

/-- The file number in `reg_root`. -/
def RegFile.number : RegFile → ℕ
  | .gpr => 0
  | .fpr => 1

/-- A number of registers of one file, and the slot to take when they are not left. -/
structure Request where
  file : RegFile
  count : ℕ
  slot : Slot
  deriving DecidableEq, Repr

/-- The slot of a scalar: at its natural size on Darwin, at least eight bytes under
AAPCS64. -/
def scalarSlot : Slot :=
  match variant with
  | .darwin => ⟨ty.align, ty.bytes, ty.bytes, true⟩
  | .aapcs64 => ⟨max ty.align 8, max ty.bytes 8, max ty.bytes 8, true⟩

/-- A slot aligned to its own size. -/
def vectorSlot (size : ℕ) : Slot := ⟨size, size, size, true⟩

/-- The slot of an aggregate: an aggregate is aligned to eight bytes or more, but the
cursor is not rounded up for it. -/
def aggregateSlot : Slot :=
  ⟨max 8 ty.align, ty.bytes, alignUp ty.bytes 8, false⟩

/-- The alignment of an HFA is that of its members. -/
def HfaBaseType.align : HfaBaseType → ℕ
  | .f16 => 2
  | .f32 => 4
  | .f64 => 8

theorem HfaBaseType.align_pos : 0 < base.align := by
  cases base <;> decide

/-- The slot of an HFA, for which the cursor is not rounded up either. -/
def hfaSlot : Slot := ⟨base.align, ty.bytes, alignUp ty.bytes 8, false⟩

/-- The slot of the pointer to an aggregate of more than sixteen bytes. -/
def pointerSlot : Slot := ⟨8, 8, 8, false⟩

/-- The request of a composite that is not an HFA. -/
def compositeRequest : Request :=
  if ty.bytes ≤ 8 then ⟨.gpr, 1, aggregateSlot ty⟩
  else if ty.bytes ≤ 16 then ⟨.gpr, 2, aggregateSlot ty⟩
  else ⟨.gpr, 1, pointerSlot⟩

/-- What a parameter of the given type asks for. -/
def request : Request :=
  match ty with
  | .b1 | .i8 | .i16 | .i32 | .i64 => ⟨.gpr, 1, scalarSlot variant ty⟩
  | .i128 => ⟨.gpr, 2, vectorSlot 16⟩
  | .f16 | .f32 | .f64 => ⟨.fpr, 1, scalarSlot variant ty⟩
  | .v128 => ⟨.fpr, 1, vectorSlot 16⟩
  | .v64 => ⟨.fpr, 1, vectorSlot 8⟩
  | .struct _ | .array _ _ | .enum _ _ =>
    match ty.detectHfa with
    | some (base, count) => ⟨.fpr, count, hfaSlot ty base⟩
    | none => compositeRequest ty

theorem request_slot_fits : (request variant ty).slot.Fits := by
  have hagg : (aggregateSlot ty).Fits := ⟨by simp [aggregateSlot], Slots.le_alignUp (by decide)⟩
  have hcomp : (compositeRequest ty).slot.Fits := by
    unfold compositeRequest
    split_ifs
    · exact hagg
    · exact hagg
    · exact ⟨by decide, le_refl _⟩
  unfold request
  cases variant <;> split <;> try exact ⟨by decide, le_refl _⟩
  all_goals
    split
    next base _ _ => exact ⟨base.align_pos, Slots.le_alignUp (by decide)⟩
    · exact hcomp

/-- The alignment a type has on the stack: a scalar has its own, at least eight bytes
under AAPCS64; an HFA that of its members; any other aggregate at least eight, like the
pointer to a large one. -/
def stackAlign (ty : Ty) : ℕ :=
  match ty with
  | .i128 | .v128 => 16
  | .struct _ | .array _ _ | .enum _ _ =>
    match ty.detectHfa with
    | some (base, _) => base.align
    | none => if 16 < ty.bytes then 8 else max 8 ty.align
  | _ =>
    match variant with
    | .darwin => ty.align
    | .aapcs64 => max 8 ty.align

theorem request_slot_align (ty : Ty) : (request variant ty).slot.align = stackAlign variant ty := by
  have hcomp : (compositeRequest ty).slot.align = if 16 < ty.bytes then 8 else max 8 ty.align := by
    unfold compositeRequest
    split_ifs <;> first | rfl | omega
  unfold request stackAlign
  split
  all_goals try (cases variant <;> rfl)
  all_goals
    split
    · rfl
    · exact hcomp

/-! ## One parameter -/

/-- The next register of a file. -/
def Cursors.idx (s : Cursors) : RegFile → ℕ
  | .gpr => s.gprIdx
  | .fpr => s.fprIdx

/-- Move the cursor of a file. -/
def Cursors.setIdx (s : Cursors) (file : RegFile) (i : ℕ) : Cursors :=
  match file with
  | .gpr => { s with gprIdx := i }
  | .fpr => { s with fprIdx := i }

/-- The registers a location names. -/
def ArgLocation.regs : ArgLocation → List PReg
  | .reg r => [r]
  | .stack _ _ => []
  | .indirect ptrReg => [ptrReg]
  | .regSequence regs => regs
  | .regPair lo hi => [lo, hi]

/-- The registers by number and file. -/
def ArgLocation.roots (loc : ArgLocation) : List (Option (ℕ × ℕ)) := loc.regs.map regRoot

/-- Neither file has given out more than it has. -/
def Cursors.Ok (s : Cursors) : Prop := s.gprIdx ≤ 8 ∧ s.fprIdx ≤ 8

variable {s : Cursors}

theorem Cursors.Ok.idx_le (h : s.Ok) (file : RegFile) : s.idx file ≤ 8 := by
  cases file with
  | gpr => exact h.1
  | fpr => exact h.2

/-- How a request is served: by the next registers of the file, if there are enough
of them, and by a stack slot otherwise, which closes the file. -/
inductive Serves (r : Request) (s : Cursors) : ArgLocation × Cursors → Prop
  | regs (loc : ArgLocation) (hfit : s.idx r.file + r.count ≤ 8) (hrange : loc.range = none)
      (hroots : loc.roots =
        (List.range' (s.idx r.file) r.count).map fun i => some (i, r.file.number)) :
      Serves r s (loc, s.setIdx r.file (s.idx r.file + r.count))
  | stack (hover : 8 < s.idx r.file + r.count) (t : Cursors)
      (ht : t = { s.setIdx r.file 8 with
        stackOffset := r.slot.start s.stackOffset + r.slot.extent }) :
      Serves r s (.stack (r.slot.start s.stackOffset) r.slot.size, t)

theorem regRoot_gprArgRegs : ∀ i < 8, regRoot (gprArgRegs.getD i 0) = some (i, 0) := by decide

theorem regRoot_fprArgRegs : ∀ i < 8, regRoot (fprArgRegs.getD i 0) = some (i, 1) := by decide

theorem regRoot_dArgRegs : ∀ i < 8, regRoot (dArgRegs.getD i 0) = some (i, 1) := by decide

theorem regRoot_typedRegs : ∀ i < 8, regRoot ((typedRegs base).getD i 0) = some (i, 1) := by
  cases base <;> decide

variable {i f : ℕ}

theorem roots_reg {r : PReg} (h : regRoot r = some (i, f)) :
    (ArgLocation.reg r).roots = (List.range' i 1).map fun i => some (i, f) := by
  simp [ArgLocation.roots, ArgLocation.regs, h]

theorem roots_indirect {r : PReg} (h : regRoot r = some (i, f)) :
    (ArgLocation.indirect r).roots = (List.range' i 1).map fun i => some (i, f) := by
  simp [ArgLocation.roots, ArgLocation.regs, h]

theorem roots_regPair {lo hi : PReg} (hlo : regRoot lo = some (i, f))
    (hhi : regRoot hi = some (i + 1, f)) :
    (ArgLocation.regPair lo hi).roots = (List.range' i 2).map fun i => some (i, f) := by
  simp [ArgLocation.roots, ArgLocation.regs, hlo, hhi, List.range']

theorem roots_regSequence {regs : List PReg} {k : ℕ}
    (h : ∀ j < 8, regRoot (regs.getD j 0) = some (j, f)) (hk : i + k ≤ 8) :
    (ArgLocation.regSequence ((List.range' i k).map fun j => regs.getD j 0)).roots =
      (List.range' i k).map fun i => some (i, f) := by
  rw [ArgLocation.roots, ArgLocation.regs, map_map]
  refine map_congr_left ?_
  intro j hj
  exact h j (by rw [mem_range'_1] at hj; omega)

section Arms

variable {variant : AArch64AbiVariant} {ty : Ty}

/-- A slot at the cursor. -/
def Cursors.place (s : Cursors) (slot : Slot) : ArgLocation × Cursors :=
  (.stack (slot.start s.stackOffset) slot.size,
    { s with stackOffset := slot.start s.stackOffset + slot.extent })

theorem placeScalarStackArg_eq : placeScalarStackArg variant s ty.align ty.bytes =
    s.place (scalarSlot variant ty) := by
  cases variant <;> simp [placeScalarStackArg, scalarSlot, Cursors.place, Slot.start]

theorem placeAligned_eq (size : ℕ) : placeAligned s size = s.place (vectorSlot size) := by
  simp [placeAligned, vectorSlot, Cursors.place, Slot.start]

theorem placeAggregate_eq (align : ℕ) :
    placeAggregate s ty.bytes = s.place ⟨align, ty.bytes, alignUp ty.bytes 8, false⟩ := by
  simp [placeAggregate, Cursors.place, Slot.start]

/-- A file that has given out all its registers stays as it is. -/
theorem serves_of_full {r : Request} (hs : s.Ok) (h : ¬ s.idx r.file < 8) (hcount : 1 ≤ r.count) :
    Serves r s (s.place r.slot) := by
  have heq : s.idx r.file = 8 := le_antisymm (hs.idx_le r.file) (not_lt.mp h)
  have hself : s.setIdx r.file (s.idx r.file) = s := by cases r.file <;> rfl
  exact .stack (by omega) _ (by rw [← heq, hself])

theorem classifyInt_serves (hs : s.Ok) :
    Serves ⟨.gpr, 1, scalarSlot variant ty⟩ s (classifyInt variant ty s) := by
  unfold classifyInt
  split
  next h => exact .regs _ h rfl (roots_reg (regRoot_gprArgRegs _ h))
  next h =>
    rw [placeScalarStackArg_eq]
    exact serves_of_full hs h le_rfl

theorem classifyI128_serves : Serves ⟨.gpr, 2, vectorSlot 16⟩ s (classifyI128 s) := by
  unfold classifyI128
  split
  next h =>
    have h' : s.gprIdx + 1 < 8 := h
    exact .regs _ h' rfl
      (roots_regPair (regRoot_gprArgRegs _ (by omega)) (regRoot_gprArgRegs _ h'))
  next h =>
    rw [placeAligned_eq]
    exact .stack (by have := not_lt.mp h; simp [Cursors.idx, gprArgRegs] at *; omega) _ rfl

variable {base : HfaBaseType}

theorem classifyFloat_serves (hs : s.Ok) :
    Serves ⟨.fpr, 1, scalarSlot variant ty⟩ s (classifyFloat variant ty base s) := by
  unfold classifyFloat
  split
  next h => exact .regs _ h rfl (roots_reg (regRoot_typedRegs base _ h))
  next h =>
    rw [placeScalarStackArg_eq]
    exact serves_of_full hs h le_rfl

theorem classifyVector_serves {regs : List PReg} {size : ℕ}
    (hregs : ∀ i < 8, regRoot (regs.getD i 0) = some (i, 1)) (hs : s.Ok) :
    Serves ⟨.fpr, 1, vectorSlot size⟩ s (classifyVector regs size s) := by
  unfold classifyVector
  split
  next h => exact .regs _ h rfl (roots_reg (hregs _ h))
  next h =>
    rw [placeAligned_eq]
    exact serves_of_full hs h le_rfl

theorem classifyHfa_serves {count : ℕ} :
    Serves ⟨.fpr, count, hfaSlot ty base⟩ s (classifyHfa ty base count s) := by
  unfold classifyHfa
  split
  next h => exact .regs _ h rfl (roots_regSequence (regRoot_typedRegs base) h)
  next h =>
    rw [placeAggregate_eq base.align]
    refine .stack ?_ _ rfl
    exact not_le.mp h

theorem classifyComposite_serves (hs : s.Ok) :
    Serves (compositeRequest ty) s (classifyComposite ty s) := by
  have hexhausted : ¬ s.gprIdx < gprArgRegs.length → s.gprIdx = 8 :=
    fun h => le_antisymm hs.1 (not_lt.mp h)
  rcases le_or_gt ty.bytes 16 with h16 | h16
  · have hlarge : ¬ 16 < ty.bytes := not_lt.mpr h16
    by_cases hidx : s.gprIdx < gprArgRegs.length
    · by_cases h8 : ty.bytes ≤ 8
      · simp only [compositeRequest, classifyComposite, h8, h16, hidx, and_self, if_true]
        refine .regs _ ?_ rfl (roots_reg (regRoot_gprArgRegs _ hidx))
        exact hidx
      simp only [compositeRequest, classifyComposite, h8, h16, hidx, and_self, if_true, if_false]
      split
      next hpair =>
        refine .regs _ ?_ rfl
          (roots_regPair (regRoot_gprArgRegs _ hidx) (regRoot_gprArgRegs _ hpair))
        exact hpair
      next hpair =>
        rw [placeAggregate_eq (max 8 ty.align)]
        refine .stack ?_ _ rfl
        exact Nat.lt_succ_of_le (not_lt.mp hpair)
    simp only [compositeRequest, classifyComposite, h16, hidx, hlarge, and_false, if_true,
      if_false, placeAggregate_eq (max 8 ty.align)]
    split
    · exact .stack (by simp [Cursors.idx, hexhausted hidx]) _ rfl
    · exact .stack (by simp [Cursors.idx, hexhausted hidx]) _ rfl
  · have h16' : ¬ ty.bytes ≤ 16 := not_le.mpr h16
    have h8 : ¬ ty.bytes ≤ 8 := fun h => h16' (le_trans h (by decide))
    simp only [compositeRequest, classifyComposite, h8, h16, h16', false_and, if_true, if_false]
    split
    next hidx =>
      refine .regs _ ?_ rfl (roots_indirect (regRoot_gprArgRegs _ hidx))
      exact hidx
    next hidx => exact .stack (by simp [Cursors.idx, hexhausted hidx]) _ rfl

end Arms

/-- **One parameter.**  The loop body serves the request of the type. -/
theorem classifyParam_serves (variant : AArch64AbiVariant) (ty : Ty) (hs : s.Ok) :
    Serves (request variant ty) s (classifyParam variant ty s) := by
  have hagg : Serves (match ty.detectHfa with
        | some (base, count) => ⟨.fpr, count, hfaSlot ty base⟩
        | none => compositeRequest ty) s
      (match ty.detectHfa with
        | some (base, count) => classifyHfa ty base count s
        | none => classifyComposite ty s) := by
    cases ty.detectHfa with
    | none => exact classifyComposite_serves hs
    | some p => exact classifyHfa_serves
  cases ty with
  | b1 | i8 | i16 | i32 | i64 => exact classifyInt_serves hs
  | i128 => exact classifyI128_serves
  | f16 | f32 | f64 => exact classifyFloat_serves hs
  | v128 => exact classifyVector_serves regRoot_fprArgRegs hs
  | v64 => exact classifyVector_serves regRoot_dArgRegs hs
  | struct fields | array elem count | enum tagWidth variants => exact hagg

section

variable (s : Cursors)

@[simp] theorem Cursors.setIdx_idx_self (file : RegFile) (i : ℕ) :
    (s.setIdx file i).idx file = i := by
  cases file <;> rfl

theorem Cursors.setIdx_idx_of_ne {f g : RegFile} (h : g ≠ f) (i : ℕ) :
    (s.setIdx f i).idx g = s.idx g := by
  cases f <;> cases g <;> first | rfl | exact absurd rfl h

theorem Cursors.setIdx_stackOffset (file : RegFile) (i : ℕ) :
    (s.setIdx file i).stackOffset = s.stackOffset := by
  cases file <;> rfl

theorem Cursors.idx_le_setIdx {f : RegFile} (h : s.idx f ≤ i) (g : RegFile) :
    s.idx g ≤ (s.setIdx f i).idx g := by
  by_cases hg : g = f
  · subst hg
    rw [Cursors.setIdx_idx_self]
    exact h
  · rw [Cursors.setIdx_idx_of_ne s hg]

end

theorem Cursors.Ok.setIdx (h : s.Ok) (f : RegFile) (hi : i ≤ 8) : (s.setIdx f i).Ok := by
  cases f with
  | gpr => exact ⟨hi, h.2⟩
  | fpr => exact ⟨h.1, hi⟩

variable {out : ArgLocation × Cursors}

section Served

variable {r : Request}

section

variable (h : Serves r s out)
include h

theorem Serves.ok (hs : s.Ok) : out.2.Ok := by
  cases h with
  | regs loc hfit hrange hroots => exact hs.setIdx r.file hfit
  | stack hover t ht => subst ht; exact hs.setIdx r.file (le_refl 8)

theorem Serves.idx_le (hs : s.Ok) (f : RegFile) : s.idx f ≤ out.2.idx f := by
  cases h with
  | regs loc hfit hrange hroots => exact s.idx_le_setIdx (Nat.le_add_right _ _) f
  | stack hover t ht => subst ht; exact s.idx_le_setIdx (hs.idx_le r.file) f

theorem Serves.root {root : Option (ℕ × ℕ)} (hroot : root ∈ out.1.roots) :
    ∃ i, root = some (i, r.file.number) ∧ s.idx r.file ≤ i ∧ i < out.2.idx r.file ∧ i < 8 := by
  cases h with
  | regs loc hfit hrange hroots =>
    rw [hroots, mem_map] at hroot
    obtain ⟨i, hi, rfl⟩ := hroot
    rw [mem_range'_1] at hi
    rw [Cursors.setIdx_idx_self]
    exact ⟨i, rfl, hi.1, hi.2, lt_of_lt_of_le hi.2 hfit⟩
  | stack hover t ht => simp [ArgLocation.roots, ArgLocation.regs] at hroot

theorem Serves.roots_nodup : out.1.roots.Nodup := by
  cases h with
  | regs loc hfit hrange hroots =>
    rw [hroots]
    exact .map (fun a b hab => by simpa using hab) nodup_range'
  | stack hover t ht => simp [ArgLocation.roots, ArgLocation.regs]

theorem Serves.closed (hstack : out.1.range.isSome) : out.2.idx r.file = 8 := by
  cases h with
  | regs loc hfit hrange hroots => simp [hrange] at hstack
  | stack hover t ht =>
    subst ht
    exact s.setIdx_idx_self r.file 8

end

end Served

end TrustCg.Lower
