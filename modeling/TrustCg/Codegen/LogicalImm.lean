import TrustCg.Lib.BitRuns

/-!
# Logical immediates: three searches, one set of masks

A logical instruction can carry a constant only if the constant is an element of
2 to 64 bits, a rotated run of ones, repeated over the register.  The compiler
decides this three times, in three crates: the optimizer when it picks a form
for a constant (`isLogicalImmediate`), instruction selection when it commits to
an immediate instruction (`logicalImmediateEncodable`), and the encoder when it
computes the fields (`encodeLogicalImmFields`).

The common meaning is `IsRun`: every bit of the register is the bit of a
repeated rotated run.  Each search decides it (`encode_ok_iff_isRun`,
`logicalImmediateEncodable_iff_isRun`, `isLogicalImmediate_iff_isRun`), and the
fields the encoder returns decode to the constant under the architecture's
`DecodeBitMasks` (`decodeBitMasks_fields`).
-/

namespace TrustCg.Codegen

open TrustCg.BitRuns List
open BitVec (allOnes ofNat)

/-! ## The encoder -/

/-- The register widths of the logical instructions. -/
inductive RegisterWidth
  | w32
  | w64
  deriving DecidableEq, Repr

/-- The width in bits. -/
def RegisterWidth.bits : RegisterWidth → ℕ
  | .w32 => 32
  | .w64 => 64

/-- `low_mask` of the encoder. -/
def lowMask (bits : ℕ) : BitVec 64 :=
  if bits = 64 then allOnes 64 else (1#64 <<< bits) - 1#64

variable (value : BitVec 64)

/-- Rotation of the low `width` bits. -/
def rotateRightWithin (rot width : ℕ) : BitVec 64 :=
  let mask := lowMask width
  let value := value &&& mask
  if rot = 0 then value else (value >>> rot ||| value <<< (width - rot)) &&& mask

/-- Copies of the element in a register. -/
def replicateLogicalElement (pattern : BitVec 64) (elementWidth registerWidth : ℕ) : BitVec 64 :=
  orCopies pattern elementWidth registerWidth registerWidth 0 0#64 &&& lowMask registerWidth

/-- The element widths all three searches go through. -/
def elementWidths (registerWidth : ℕ) : List ℕ :=
  if registerWidth = 64 then [2, 4, 8, 16, 32, 64] else [2, 4, 8, 16, 32]

/-- `EncodeError::InvalidOperand`. -/
structure EncodeError (Opcode : Type) where
  opcode : Opcode
  index : ℕ
  desc : String

/-- The message of a constant that has no encoding; Rust prints an `i64` in hex as
its two's complement. -/
def notEncodable {Opcode : Type} (raw : BitVec 64) (opcode : Opcode) (index : ℕ) :
    EncodeError Opcode where
  opcode := opcode
  index := index
  desc := "logical immediate 0x" ++ String.ofList (Nat.toDigits 16 raw.toNat)
    ++ " is not encodable"

/-- The fields `(N, immr, imms)` of an element width, a run length and a rotation.
The prefix of `imms` is the complement of `2e - 1` in six bits of a `u32`. -/
def logicalImmFields (elementWidth onesLen rotation : ℕ) : ℕ × ℕ × ℕ :=
  let n := if elementWidth = 64 then 1 else 0
  let immr := rotation &&& 0x3f
  let immsPrefix := (2 ^ 32 - 1 - (elementWidth <<< 1 - 1)) &&& 0x3f
  (n, immr, immsPrefix ||| (onesLen - 1))

/-- `encode_logical_imm_fields`: the first element width, run length and rotation
that gives the constant. -/
def encodeLogicalImmFields {Opcode : Type} (raw : BitVec 64) (width : RegisterWidth)
    (opcode : Opcode) (index : ℕ) : Except (EncodeError Opcode) (ℕ × ℕ × ℕ) :=
  let registerMask := lowMask width.bits
  let rawMask := raw &&& registerMask
  if rawMask = 0#64 ∨ rawMask = registerMask then .error (notEncodable raw opcode index)
  else
    let found := (elementWidths width.bits).findSome? fun elementWidth =>
      (List.range' 1 (elementWidth - 1)).findSome? fun onesLen =>
        (List.range elementWidth).findSome? fun rotation =>
          let element := rotateRightWithin (lowMask onesLen) rotation elementWidth
          let candidate := replicateLogicalElement element elementWidth width.bits
          if candidate = rawMask then some (logicalImmFields elementWidth onesLen rotation)
          else none
    match found with
    | some fields => .ok fields
    | none => .error (notEncodable raw opcode index)

/-! ## Instruction selection -/

/-- The `low_mask` closure of instruction selection. -/
def iselLowMask (w : ℕ) : BitVec 64 :=
  if w ≥ 64 then allOnes 64 else (1#64 <<< w) - 1#64

/-- Some element and rotation give the value. -/
def logicalImmediateEncodable (raw : BitVec 64) (widthIs32 : Bool) : Bool :=
  let registerWidth := if widthIs32 then 32 else 64
  let registerMask := iselLowMask registerWidth
  let rawMask := raw &&& registerMask
  if rawMask = 0#64 ∨ rawMask = registerMask then false
  else
    (elementWidths registerWidth).any fun elementWidth =>
      let elementMask := iselLowMask elementWidth
      (List.range' 1 (elementWidth - 1)).any fun onesLen =>
        let ones := iselLowMask onesLen
        (List.range elementWidth).any fun rotation =>
          let element :=
            if rotation = 0 then ones &&& elementMask
            else (ones >>> rotation ||| ones <<< (elementWidth - rotation)) &&& elementMask
          let candidate :=
            orCopies element elementWidth registerWidth registerWidth 0 0#64 &&& registerMask
          decide (candidate = rawMask)

/-! ## The optimizer -/

/-- A register has 32 or 64 bits. -/
def isSupportedWidth (width : ℕ) : Bool := width == 32 || width == 64

/-- Copies of the element in a register. -/
def replicateElement (elem : BitVec 64) (size width : ℕ) : BitVec 64 :=
  let mask := if width = 64 then allOnes 64 else (1#64 <<< width) - 1#64
  orCopies elem size width width 0 0#64 &&& mask

/-- `rotate_right` of the optimizer: unlike the encoder's it leaves the value
unmasked when the amount is zero. -/
def rotateRight (amount size : ℕ) : BitVec 64 :=
  if size = 0 ∨ amount = 0 then value
  else
    let amount := amount % size
    if amount = 0 then value
    else
      let mask := if size = 64 then allOnes 64 else (1#64 <<< size) - 1#64
      let v := value &&& mask
      (v >>> amount ||| v <<< (size - amount)) &&& mask

/-- `encode_logical_immediate`: here the element is read off the constant first
and only its rotation is searched for. -/
def encodeLogicalImmediate (width : ℕ) : Option (ℕ × ℕ × ℕ) :=
  if !isSupportedWidth width then none
  else
    let mask := if width = 64 then allOnes 64 else 0xFFFFFFFF#64
    let v := value &&& mask
    if v = 0#64 ∨ v = mask then none
    else
      (elementWidths width).findSome? fun size =>
        if width % size ≠ 0 then none
        else
          let elemMask := if size = 64 then allOnes 64 else (1#64 <<< size) - 1#64
          let elem := v &&& elemMask
          if replicateElement elem size width ≠ v then none
          else if elem = 0#64 ∨ elem = elemMask then none
          else
            (List.range' 1 (size - 1)).findSome? fun numOnes =>
              let base := if numOnes = 64 then allOnes 64 else (1#64 <<< numOnes) - 1#64
              (List.range size).findSome? fun rot =>
                if rotateRight base rot size = elem then
                  let n := if size = 64 then 1 else 0
                  let sizeEncoding := (2 ^ 32 - 1 - (size - 1)) % 2 ^ 8 &&& 0x3F
                  some (n, rot % 2 ^ 8, sizeEncoding ||| (numOnes - 1) % 2 ^ 8)
                else none

/-- The value has an encoding. -/
def isLogicalImmediate (width : ℕ) : Bool :=
  (encodeLogicalImmediate value width).isSome

/-! ## The architecture's decoder -/

/-- The mask of `S` and `R` at an element size: `S + 1` ones rotated right by `R`,
repeated over the register. -/
def decodedMask (M esize s r : ℕ) : BitVec M :=
  let welem := ofNat esize (2 ^ (s + 1) - 1)
  ((welem.rotateRight r).replicate (M / esize)).setWidth M

/-- `DecodeBitMasks` of the architecture manual for a logical immediate of `M`
bits: the element size is read off the highest set bit of `N : NOT(imms)`, and
`S` and `R` are the bits of `imms` and `immr` below it.  Reserved encodings decode
to nothing. -/
def decodeBitMasks (M n imms immr : ℕ) : Option (BitVec M) :=
  let sizeBits := n * 64 + (63 - imms % 64)
  let len := Nat.log2 sizeBits
  let levels := 2 ^ len - 1
  let esize := 2 ^ len
  if len < 1 ∨ M < esize ∨ imms &&& levels = levels then none
  else
    some (decodedMask M esize (imms &&& levels) (immr &&& levels))

/-! ## The common meaning -/

/-- The register holds a repeated rotated run in its low `w` bits. -/
def IsRun (w : ℕ) (v : BitVec 64) : Prop :=
  ∃ e ∈ elementWidths w, ∃ c r, 1 ≤ c ∧ c < e ∧ r < e ∧ ∀ i < w, v.getLsbD i = runBit e c r i

section

variable {e c r : ℕ} {width : RegisterWidth} {raw : BitVec 64} {n i : ℕ} {element : BitVec 64}

theorem RegisterWidth.bits_le (width : RegisterWidth) : width.bits ≤ 64 := by
  cases width <;> decide

theorem elementWidths_spec (he : e ∈ elementWidths width.bits) :
    2 ≤ e ∧ e ≤ width.bits ∧ e ∣ width.bits := by
  cases width with
  | w32 => revert e; decide
  | w64 => revert e; decide

theorem lowMask_eq (hn : n ≤ 64) : lowMask n = lowOnes 64 n := by
  by_cases h : n = 64
  · subst h
    decide
  have hlt : 2 ^ n < 2 ^ 64 := Nat.pow_lt_pow_right (by decide) (by omega)
  have hpos := Nat.two_pow_pos n
  apply BitVec.eq_of_toNat_eq
  rw [lowMask, if_neg h, lowOnes]
  simp only [BitVec.toNat_sub, BitVec.toNat_shiftLeft, BitVec.toNat_ofNat, Nat.shiftLeft_eq]
  rw [Nat.mod_eq_of_lt (by omega : 1 < 2 ^ 64), Nat.one_mul, Nat.mod_eq_of_lt hlt]
  omega

theorem iselLowMask_eq (hn : n ≤ 64) : iselLowMask n = lowMask n := by
  unfold iselLowMask lowMask
  by_cases h : n = 64
  · rw [if_pos h.ge, if_pos h]
  · rw [if_neg (by omega), if_neg h]

/-- Two registers agree in their low `w` bits. -/
theorem getLsbD_and_lowMask {w : ℕ} (hw : w ≤ 64) (u : BitVec 64) (i : ℕ) :
    (u &&& lowMask w).getLsbD i = (u.getLsbD i && decide (i < w)) := by
  rw [BitVec.getLsbD_and, lowMask_eq hw, getLsbD_lowOnes]
  grind

theorem and_lowMask_eq_iff {w : ℕ} (hw : w ≤ 64) (u v : BitVec 64) :
    u &&& lowMask w = v &&& lowMask w ↔ ∀ i < w, u.getLsbD i = v.getLsbD i := by
  constructor
  · intro h i hi
    have hbit := congrArg (·.getLsbD i) h
    simpa [getLsbD_and_lowMask hw, hi] using hbit
  intro h
  refine BitVec.eq_of_getLsbD_eq fun i _ => ?_
  rw [getLsbD_and_lowMask hw, getLsbD_and_lowMask hw]
  by_cases hiw : i < w
  · rw [h i hiw]
  · simp [hiw]

theorem getLsbD_rotateRightWithin (he : e ≤ 64) (hc : c < e) (hr : r < e) (i : ℕ) :
    (rotateRightWithin (lowMask c) r e).getLsbD i = (decide (i < e) && runBit e c r i) := by
  unfold rotateRightWithin
  simp only [lowMask_eq he, lowMask_eq (by omega : c ≤ 64), lowOnes_and_lowOnes hc.le]
  by_cases h0 : r = 0
  · subst h0
    rw [if_pos rfl, getLsbD_lowOnes]
    by_cases hi : i < e
    · simp [runBit, hi, Nat.mod_eq_of_lt hi, show i < 64 by omega]
    · simp [hi, show ¬ i < c by omega]
  rw [if_neg h0]
  exact getLsbD_rotateLow he hc.le hr i

section

variable (he : e ∈ elementWidths width.bits)
    (helem : ∀ i, element.getLsbD i = (decide (i < e) && runBit e c r i))
include he helem

theorem getLsbD_replicate_element (hi : i < width.bits) :
    (orCopies element e width.bits width.bits 0 0#64).getLsbD i = runBit e c r i := by
  obtain ⟨he2, hew, -⟩ := elementWidths_spec he
  have hpat : ∀ j, e ≤ j → element.getLsbD j = false := by
    intro j hj
    simp [helem j, Nat.not_lt.2 hj]
  have hw := width.bits_le
  rw [getLsbD_orCopies_zero element (by omega) hpat (by omega) hi, helem, runBit_mod]
  simp [Nat.mod_lt i (by omega : 0 < e)]

/-- A candidate equals the masked constant exactly when the constant is its run. -/
theorem candidate_eq_iff :
    orCopies element e width.bits width.bits 0 0#64 &&& lowMask width.bits
        = raw &&& lowMask width.bits
      ↔ ∀ i < width.bits, raw.getLsbD i = runBit e c r i := by
  rw [and_lowMask_eq_iff width.bits_le]
  refine forall₂_congr fun i hi => ?_
  rw [getLsbD_replicate_element he helem hi, eq_comm]

end

/-- A run is neither all zeros nor all ones, so the early rejections lose nothing. -/
theorem run_not_trivial {w : ℕ} (hew : e ≤ w) (hw : w ≤ 64) (hc : 1 ≤ c) (hce : c < e) (hr : r < e)
    (hbits : ∀ i < e, raw.getLsbD i = runBit e c r i) :
    ¬ (raw &&& lowMask w = 0#64 ∨ raw &&& lowMask w = lowMask w) := by
  rintro (h | h)
  · obtain ⟨i, hi, hset⟩ := exists_runBit_true hc hr
    have hbit := congrArg (·.getLsbD i) h
    simp [getLsbD_and_lowMask hw, hbits i hi, hset, hi.trans_le hew] at hbit
  obtain ⟨i, hi, hclear⟩ := exists_runBit_false hce hr
  have hbit := congrArg (·.getLsbD i) h
  simp only [getLsbD_and_lowMask hw, hbits i hi, hclear, Bool.false_and] at hbit
  rw [lowMask_eq hw, getLsbD_lowOnes] at hbit
  simp [hi.trans_le hew, show i < 64 by omega] at hbit

theorem IsRun.not_trivial (h : IsRun width.bits raw) :
    ¬ (raw &&& lowMask width.bits = 0#64 ∨ raw &&& lowMask width.bits = lowMask width.bits) := by
  obtain ⟨e, he, c, r, hc, hce, hr, hbits⟩ := h
  obtain ⟨-, hew, -⟩ := elementWidths_spec he
  exact run_not_trivial hew width.bits_le hc hce hr fun i hi => hbits i (hi.trans_le hew)

/-! ## What each search accepts -/

theorem mem_onesLens : c ∈ List.range' 1 (e - 1) ↔ 1 ≤ c ∧ c < e := by
  rw [mem_range'_1]
  omega

/-- The search over run lengths and rotations returns what it finds at one of them. -/
theorem exists_of_search {α : Type*} {g : ℕ → ℕ → Option α} {x : α}
    (h : (List.range' 1 (e - 1)).findSome? (fun c => (List.range e).findSome? (g c)) = some x) :
    ∃ c r, (1 ≤ c ∧ c < e) ∧ r < e ∧ g c r = some x := by
  obtain ⟨c, hc, h⟩ := exists_of_findSome?_eq_some h
  obtain ⟨r, hr, h⟩ := exists_of_findSome?_eq_some h
  exact ⟨c, r, mem_onesLens.1 hc, mem_range.1 hr, h⟩

theorem encoder_candidate_iff (he : e ∈ elementWidths width.bits) (hc : c < e) (hr : r < e) :
    replicateLogicalElement (rotateRightWithin (lowMask c) r e) e width.bits
        = raw &&& lowMask width.bits
      ↔ ∀ i < width.bits, raw.getLsbD i = runBit e c r i := by
  obtain ⟨-, hew, -⟩ := elementWidths_spec he
  have hw := width.bits_le
  exact candidate_eq_iff he (getLsbD_rotateRightWithin (by omega) hc hr)

variable {fields : ℕ × ℕ × ℕ}

/-- **What the encoder returns.**  Its fields are those of an element width, a run
length and a rotation that spell the constant. -/
theorem encode_ok_sound {Opcode : Type} {opcode : Opcode} {index : ℕ}
    (h : encodeLogicalImmFields raw width opcode index = .ok fields) :
    ∃ e ∈ elementWidths width.bits, ∃ c r, 1 ≤ c ∧ c < e ∧ r < e
      ∧ fields = logicalImmFields e c r ∧ ∀ i < width.bits, raw.getLsbD i = runBit e c r i := by
  unfold encodeLogicalImmFields at h
  simp only at h
  split at h
  · simp at h
  split at h
  next found hfound =>
    obtain ⟨e, he, hfound⟩ := exists_of_findSome?_eq_some hfound
    obtain ⟨c, r, hc, hr, hfound⟩ := exists_of_search hfound
    split at hfound
    next hcand =>
      rw [encoder_candidate_iff he hc.2 hr] at hcand
      refine ⟨e, he, c, r, hc.1, hc.2, hr, ?_, hcand⟩
      injection h with h
      injection hfound with hfound
      rw [← h, hfound]
    · simp at hfound
  · simp at h

theorem encode_ok_iff_isRun {Opcode : Type} (opcode : Opcode) (index : ℕ) :
    (∃ fields, encodeLogicalImmFields raw width opcode index = .ok fields)
      ↔ IsRun width.bits raw := by
  constructor
  · rintro ⟨fields, h⟩
    obtain ⟨e, he, c, r, hc, hce, hr, -, hbits⟩ := encode_ok_sound h
    exact ⟨e, he, c, r, hc, hce, hr, hbits⟩
  intro h
  have htriv := h.not_trivial
  obtain ⟨e, he, c, r, hc, hce, hr, hbits⟩ := h
  unfold encodeLogicalImmFields
  simp only
  rw [if_neg htriv]
  split
  · exact ⟨_, rfl⟩
  rename_i hnone
  -- the search cannot have come back empty: it passes the candidate of the run
  rw [findSome?_eq_none_iff] at hnone
  have hnone := hnone e he
  rw [findSome?_eq_none_iff] at hnone
  have hnone := hnone c (mem_onesLens.2 ⟨hc, hce⟩)
  rw [findSome?_eq_none_iff] at hnone
  have hnone := hnone r (mem_range.2 hr)
  rw [if_pos ((encoder_candidate_iff he hce hr).2 hbits)] at hnone
  simp at hnone

theorem lowMask_and_lowMask (he : e ≤ 64) (hc : c < e) : lowMask c &&& lowMask e = lowMask c := by
  rw [lowMask_eq (by omega : c ≤ 64), lowMask_eq he]
  exact lowOnes_and_lowOnes hc.le

theorem isel_element_eq (he : e ≤ 64) (hc : c < e) : (if r = 0 then iselLowMask c &&& iselLowMask e
      else (iselLowMask c >>> r ||| iselLowMask c <<< (e - r)) &&& iselLowMask e)
      = rotateRightWithin (lowMask c) r e := by
  rw [iselLowMask_eq (by omega : c ≤ 64), iselLowMask_eq he, rotateRightWithin]
  simp only [lowMask_and_lowMask he hc]

theorem logicalImmediateEncodable_iff_isRun :
    logicalImmediateEncodable raw (width == .w32) = true ↔ IsRun width.bits raw := by
  have hwidth : (if (width == .w32) = true then 32 else 64) = width.bits := by cases width <;> rfl
  have hw := width.bits_le
  unfold logicalImmediateEncodable
  simp only [hwidth, iselLowMask_eq hw]
  by_cases htriv : raw &&& lowMask width.bits = 0#64
      ∨ raw &&& lowMask width.bits = lowMask width.bits
  · rw [if_pos htriv]
    constructor
    · intro h
      cases h
    intro h
    exact absurd htriv h.not_trivial
  rw [if_neg htriv]
  simp only [any_eq_true, decide_eq_true_eq]
  constructor
  · rintro ⟨e, he, c, hc, r, hr, hcand⟩
    obtain ⟨-, hew, -⟩ := elementWidths_spec he
    rw [mem_onesLens] at hc
    rw [mem_range] at hr
    rw [isel_element_eq (by omega) hc.2] at hcand
    exact ⟨e, he, c, r, hc.1, hc.2, hr, (encoder_candidate_iff he hc.2 hr).1 hcand⟩
  rintro ⟨e, he, c, r, hc, hce, hr, hbits⟩
  obtain ⟨-, hew, -⟩ := elementWidths_spec he
  refine ⟨e, he, c, mem_onesLens.2 ⟨hc, hce⟩, r, mem_range.2 hr, ?_⟩
  rw [isel_element_eq (by omega) hce]
  exact (encoder_candidate_iff he hce hr).2 hbits

theorem registerMask_eq (width : RegisterWidth) :
    (if width.bits = 64 then allOnes 64 else 0xFFFFFFFF#64) = lowMask width.bits := by
  cases width <;> decide

theorem ite_lowMask (n : ℕ) :
    (if n = 64 then allOnes 64 else (1#64 <<< n) - 1#64) = lowMask n := rfl

/-- The optimizer's rotation agrees with the encoder's on a run inside its element. -/
theorem rotateRight_eq (he : e ≤ 64) (hc : c < e) (hr : r < e) :
    rotateRight (lowMask c) r e = rotateRightWithin (lowMask c) r e := by
  unfold rotateRight rotateRightWithin
  simp only [lowMask_and_lowMask he hc]
  by_cases h0 : r = 0
  · rw [if_pos (.inr h0), if_pos h0]
  have hne : ¬ (e = 0 ∨ r = 0) := by omega
  have hmod : r % e = r := Nat.mod_eq_of_lt hr
  rw [if_neg hne, if_neg h0, hmod, if_neg h0, ite_lowMask, lowMask_and_lowMask he hc]

theorem element_of_run (he : e ∈ elementWidths width.bits) (hc : c < e) (hr : r < e)
    (hbits : ∀ i < width.bits, raw.getLsbD i = runBit e c r i) :
    raw &&& lowMask width.bits &&& lowMask e = rotateRightWithin (lowMask c) r e := by
  obtain ⟨-, hew, -⟩ := elementWidths_spec he
  have he64 := hew.trans width.bits_le
  refine BitVec.eq_of_getLsbD_eq fun i _ => ?_
  rw [getLsbD_rotateRightWithin he64 hc hr, getLsbD_and_lowMask he64,
    getLsbD_and_lowMask width.bits_le]
  grind

/-- What the optimizer returns: it writes the complement of `size - 1` above the length. -/
theorem encodeLogicalImmediate_sound (h : encodeLogicalImmediate raw width.bits = some fields) :
    ∃ e ∈ elementWidths width.bits, ∃ c r, 1 ≤ c ∧ c < e ∧ r < e
      ∧ fields = (if e = 64 then 1 else 0, r % 2 ^ 8,
          ((2 ^ 32 - 1 - (e - 1)) % 2 ^ 8 &&& 0x3F) ||| (c - 1) % 2 ^ 8)
      ∧ ∀ i < width.bits, raw.getLsbD i = runBit e c r i := by
  have hsupp : isSupportedWidth width.bits = true := by cases width <;> rfl
  have hw := width.bits_le
  unfold encodeLogicalImmediate at h
  simp only [hsupp, Bool.not_true, Bool.false_eq_true, if_false, registerMask_eq, ite_lowMask] at h
  split at h
  · cases h
  obtain ⟨e, he, h⟩ := exists_of_findSome?_eq_some h
  obtain ⟨-, hew, -⟩ := elementWidths_spec he
  split at h
  · cases h
  split at h
  · cases h
  rename_i hrepl
  split at h
  · cases h
  obtain ⟨c, r, hc, hr, h⟩ := exists_of_search h
  split at h
  next hrot =>
    rw [rotateRight_eq (by omega) hc.2 hr] at hrot
    rw [not_not, ← hrot] at hrepl
    exact ⟨e, he, c, r, hc.1, hc.2, hr, (Option.some.inj h).symm,
      (encoder_candidate_iff he hc.2 hr).1 hrepl⟩
  · cases h

theorem isLogicalImmediate_iff_isRun :
    isLogicalImmediate raw width.bits = true ↔ IsRun width.bits raw := by
  constructor
  · intro h
    obtain ⟨fields, hfields⟩ := Option.isSome_iff_exists.1 h
    obtain ⟨e, he, c, r, hc, hce, hr, -, hbits⟩ := encodeLogicalImmediate_sound hfields
    exact ⟨e, he, c, r, hc, hce, hr, hbits⟩
  intro hrun
  have hsupp : isSupportedWidth width.bits = true := by cases width <;> rfl
  have htriv := hrun.not_trivial
  obtain ⟨e, he, c, r, hc, hce, hr, hbits⟩ := hrun
  obtain ⟨-, hew, hdvd⟩ := elementWidths_spec he
  have hw := width.bits_le
  have helem := element_of_run he hce hr hbits
  have hrepl : replicateElement (rotateRightWithin (lowMask c) r e) e width.bits
      = raw &&& lowMask width.bits := (encoder_candidate_iff he hce hr).2 hbits
  have hne := run_not_trivial (le_refl e) (hew.trans hw) hc hce hr fun i hi => by
    rw [getLsbD_and_lowMask hw, hbits i (hi.trans_le hew), decide_eq_true (hi.trans_le hew),
      Bool.and_true]
  rw [helem] at hne
  have hmod : ¬ width.bits % e ≠ 0 := not_not.2 (Nat.mod_eq_zero_of_dvd hdvd)
  unfold isLogicalImmediate encodeLogicalImmediate
  simp only [hsupp, Bool.not_true, Bool.false_eq_true, if_false, registerMask_eq, ite_lowMask]
  rw [if_neg htriv, findSome?_isSome_iff]
  refine ⟨e, he, ?_⟩
  rw [if_neg hmod, helem, if_neg (not_not.2 hrepl), if_neg hne, findSome?_isSome_iff]
  refine ⟨c, mem_onesLens.2 ⟨hc, hce⟩, ?_⟩
  rw [findSome?_isSome_iff]
  refine ⟨r, mem_range.2 hr, ?_⟩
  rw [if_pos (rotateRight_eq (by omega) hce hr)]
  rfl

/-! ## The fields -/

theorem getLsbD_decodedMask {M esize s r : ℕ} (hM : esize ∣ M) (hs : s + 1 ≤ esize) (hr : r < esize)
    (hi : i < M) : (decodedMask M esize s r).getLsbD i = runBit esize (s + 1) r i := by
  have hlt := Nat.mod_lt i (by omega : 0 < esize)
  have hmod := add_mod_of_lt hlt hr
  simp only [decodedMask, BitVec.getLsbD_setWidth, BitVec.getLsbD_replicate,
    BitVec.getLsbD_rotateRight, Nat.mod_eq_of_lt hr, BitVec.getLsbD_ofNat,
    Nat.testBit_two_pow_sub_one, hi, decide_true, Nat.mul_div_cancel' hM, Bool.true_and, runBit,
    hmod, hlt]
  by_cases hwrap : i % esize < esize - r
  · simp [hwrap, Nat.add_comm, show r + i % esize < esize by omega]
  have hout : ¬ i % esize + r < esize := by omega
  simp only [hwrap, hout, decide_false, cond_false, if_false]
  rw [show i % esize - (esize - r) = i % esize + r - esize by omega]
  simp [show i % esize + r - esize < esize by omega]

/-- The six bits of `imms` hold the element width above the run length. -/
theorem imms_spec : ∀ e ∈ [2, 4, 8, 16, 32, 64], ∀ c < e, 1 ≤ c →
    Nat.log2 ((logicalImmFields e c 0).1 * 64 + (63 - (logicalImmFields e c 0).2.2 % 64))
        = Nat.log2 e
      ∧ 2 ^ Nat.log2 e = e ∧ (logicalImmFields e c 0).2.2 &&& (e - 1) = c - 1 := by
  decide +kernel

theorem immr_spec (he : e ∈ [2, 4, 8, 16, 32, 64]) (hr : r < e) :
    (logicalImmFields e c r).2.1 &&& (e - 1) = r := by
  have h64 : r < 2 ^ 6 := by
    have : ∀ e ∈ [2, 4, 8, 16, 32, 64], e ≤ 2 ^ 6 := by decide
    exact hr.trans_le (this e he)
  have hpow : ∃ k, e = 2 ^ k := by
    have : ∀ e ∈ [2, 4, 8, 16, 32, 64], e = 2 ^ Nat.log2 e := by decide +kernel
    exact ⟨_, this e he⟩
  obtain ⟨k, rfl⟩ := hpow
  change r &&& (2 ^ 6 - 1) &&& (2 ^ k - 1) = r
  rw [Nat.and_two_pow_sub_one_of_lt_two_pow h64, Nat.and_two_pow_sub_one_of_lt_two_pow hr]

theorem decodeBitMasks_fields (he : e ∈ elementWidths width.bits) (hc : 1 ≤ c) (hce : c < e)
    (hr : r < e) (hbits : ∀ i < width.bits, raw.getLsbD i = runBit e c r i) :
    decodeBitMasks width.bits (logicalImmFields e c r).1 (logicalImmFields e c r).2.2
      (logicalImmFields e c r).2.1 = some (raw.setWidth width.bits) := by
  have hmem : e ∈ [2, 4, 8, 16, 32, 64] := by
    have : ∀ e ∈ elementWidths width.bits, e ∈ [2, 4, 8, 16, 32, 64] := by cases width <;> decide
    exact this e he
  obtain ⟨he2, hew, hdvd⟩ := elementWidths_spec he
  obtain ⟨hlen, hpow, himms⟩ := imms_spec e hmem c hce hc
  have himmr := immr_spec (c := c) hmem hr
  have hlen1 : ¬ Nat.log2 e < 1 := by
    intro hlt
    rw [Nat.lt_one_iff.1 hlt] at hpow
    omega
  have hlen' : Nat.log2 ((logicalImmFields e c r).1 * 64
      + (63 - (logicalImmFields e c r).2.2 % 64)) = Nat.log2 e := hlen
  have himms' : (logicalImmFields e c r).2.2 &&& (e - 1) = c - 1 := himms
  have hlegal : ¬ (Nat.log2 e < 1 ∨ width.bits < e ∨ c - 1 = e - 1) := by omega
  unfold decodeBitMasks
  simp only [hlen', hpow, himms', himmr]
  rw [if_neg hlegal]
  congr 1
  apply BitVec.eq_of_getLsbD_eq
  intro i hi
  have hrun := getLsbD_decodedMask (s := c - 1) hdvd (by omega) hr hi
  rw [Nat.sub_add_cancel hc] at hrun
  rw [hrun, BitVec.getLsbD_setWidth, hbits i hi]
  simp [hi]

/-- **The three searches agree and the fields are right.**  For every constant and
both register widths the encoder succeeds exactly when instruction selection
promised it would, and exactly when the optimizer accepted the constant; and
what it returns decodes to the constant modulo the register width. -/
theorem logicalImm_searches_agree {Opcode : Type} (raw : BitVec 64) (width : RegisterWidth)
    (opcode : Opcode) (index : ℕ) :
    ((∃ fields, encodeLogicalImmFields raw width opcode index = .ok fields)
        ↔ logicalImmediateEncodable raw (width == .w32) = true)
      ∧ ((∃ fields, encodeLogicalImmFields raw width opcode index = .ok fields)
        ↔ isLogicalImmediate raw width.bits = true)
      ∧ ∀ n immr imms, encodeLogicalImmFields raw width opcode index = .ok (n, immr, imms) →
          decodeBitMasks width.bits n imms immr
            = some (ofNat width.bits (raw.toNat % 2 ^ width.bits)) := by
  refine ⟨?_, ?_, ?_⟩
  · rw [encode_ok_iff_isRun, logicalImmediateEncodable_iff_isRun]
  · rw [encode_ok_iff_isRun, isLogicalImmediate_iff_isRun]
  intro n immr imms h
  obtain ⟨e, he, c, r, hc, hce, hr, hfields, hbits⟩ := encode_ok_sound h
  have hdecode := decodeBitMasks_fields he hc hce hr hbits
  rw [← hfields] at hdecode
  rw [hdecode]
  congr 1
  apply BitVec.eq_of_toNat_eq
  rw [BitVec.toNat_setWidth, BitVec.toNat_ofNat, Nat.mod_mod]

end

end TrustCg.Codegen
