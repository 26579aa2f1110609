import Mathlib.Data.List.Flatten
import Mathlib.Data.List.Nodup
import TrustCg.Codegen.Frame
import TrustCg.Lib.AssocList
import TrustCg.Lib.Leb128

/-!
# Call frame information

`DwarfFde::from_layout` of `dwarf_cfi.rs` describes the prologue of a function to the
unwinder.  The bytes it emits are read back here by the rules of DWARF
(`decodeProgram`, `rowAt`), from the row the CIE starts with, and compared with what
`emit_prologue` does.

* `fromLayout_agrees_iff` : the description is right, instruction by instruction,
  exactly if no callee-saved floating-point register is in use.
* `fromLayout_confuses_d8` : `D8` is described as `X8`.
-/

namespace TrustCg.Codegen

open Ir (MachInst)
open RegAlloc (PReg)
open Leb128 (byte encodeUleb decodeUleb)
open List Option
open List (range')

variable {bs : List UInt8} {i n : ℕ} {layout : FrameLayout} {facts : FrameFacts}

/-! ## The generator -/

/-- The shortest advance over `n` code units. -/
def encodeAdvanceLoc (n : ℕ) : List UInt8 :=
  if n ≤ 63 then [byte (0x40 ||| n)]
  else if n ≤ 255 then [byte 0x02, byte n]
  else [byte 0x03, byte (n % 256), byte (n / 256 % 256)]

/-- `DW_CFA_def_cfa_offset`. -/
def encodeDefCfaOffset (offset : ℕ) : List UInt8 := byte 0x0E :: encodeUleb offset

/-- `DW_CFA_def_cfa`. -/
def encodeDefCfa (reg offset : ℕ) : List UInt8 := byte 0x0C :: (encodeUleb reg ++ encodeUleb offset)

/-- `DW_CFA_offset`, as `from_layout` emits it: the register number goes into the low
six bits of the opcode, the distance below the CFA is counted in eights. -/
def encodeOffset (reg bytesBelowCfa : ℕ) : List UInt8 :=
  byte (0x80 ||| (reg % 256 &&& 0x3F)) :: encodeUleb (bytesBelowCfa / 8)

/-- The DWARF number of a register. -/
def pregToDwarf (preg : PReg) (isFpr : Bool) : ℕ := if isFpr then 64 + (preg - 64) else preg

/-- The rules of pair `i`. -/
def describePair (pairs : List CalleeSavedPair) (i : ℕ) : List UInt8 :=
  let pair := pairs.getD i fpLrPair
  encodeOffset (pregToDwarf pair.reg2 pair.isFpr) (16 * (i + 1))
    ++ encodeOffset (pregToDwarf pair.reg1 pair.isFpr) (16 * i + 8)

/-- The rules of FP and LR. -/
def describeFpLr : List UInt8 := encodeOffset 29 16 ++ encodeOffset 30 8

/-- The rows for an allocation that the CFA, which is `cumulative` bytes above `SP`, has
to follow. -/
def describeSpChunks : List ℕ → ℕ → List UInt8
  | [], _ => []
  | chunk :: chunks, cumulative =>
    encodeAdvanceLoc 1 ++ encodeDefCfaOffset (cumulative + chunk)
      ++ describeSpChunks chunks (cumulative + chunk)

/-- The call-frame program of `DwarfFde::from_layout`. -/
def fromLayout (layout : FrameLayout) : List UInt8 :=
  let pairs := layout.calleeSavedPairs
  let csa := layout.calleeSavedAreaSize.toNat
  let spChunks := spImmChunks layout.spAdjustment.toNat layout.spAdjustment.toNat
  if pairs.isEmpty then describeSpChunks spChunks 0
  else
    let numPairs := pairs.length
    encodeAdvanceLoc 1 ++ encodeDefCfaOffset csa
      ++ (if numPairs - 1 = 0 then describeFpLr
          else
            describePair pairs (numPairs - 1)
              ++ (range' 1 (numPairs - 2)).reverse.flatMap
                  (fun i => encodeAdvanceLoc 1 ++ describePair pairs i)
              ++ encodeAdvanceLoc 1 ++ describeFpLr)
      ++ (if layout.usesFramePointer then encodeAdvanceLoc 1 ++ encodeDefCfa 29 16
          else describeSpChunks spChunks csa)

/-- The initial instructions of the AArch64 CIEs. -/
def cieInitialInstructions : List UInt8 := encodeDefCfa 31 0

/-! ## Reading it by the rules of DWARF -/

/-- The call frame instructions in use. -/
inductive CfaOp
  | advanceLoc (delta : ℕ)
  | offset (reg factored : ℕ)
  | defCfa (reg offset : ℕ)
  | defCfaOffset (offset : ℕ)
  | nop
  deriving DecidableEq, Repr

/-- A little-endian operand of the given number of bytes. -/
def decodeData (size : ℕ) (bs : List UInt8) : Option (ℕ × List UInt8) :=
  if size ≤ bs.length then
    some ((bs.take size).foldr (fun b n => b.toNat + 256 * n) 0, bs.drop size)
  else none

/-- One instruction off the front of the bytes. -/
def decodeOp : List UInt8 → Option (CfaOp × List UInt8)
  | [] => none
  | b :: bs =>
    if b.toNat / 64 = 1 then some (.advanceLoc (b.toNat % 64), bs)
    else if b.toNat / 64 = 2 then
      (decodeUleb bs).map fun p => (.offset (b.toNat % 64) p.1, p.2)
    else if b.toNat = 0x00 then some (.nop, bs)
    else if b.toNat = 0x02 then (decodeData 1 bs).map fun p => (.advanceLoc p.1, p.2)
    else if b.toNat = 0x03 then (decodeData 2 bs).map fun p => (.advanceLoc p.1, p.2)
    else if b.toNat = 0x0C then
      (decodeUleb bs).bind fun p => (decodeUleb p.2).map fun q => (.defCfa p.1 q.1, q.2)
    else if b.toNat = 0x0E then (decodeUleb bs).map fun p => (.defCfaOffset p.1, p.2)
    else none

/-- A whole program; an instruction takes at least a byte. -/
def decodeProgramFuel : ℕ → List UInt8 → Option (List CfaOp)
  | _, [] => some []
  | 0, _ :: _ => none
  | fuel + 1, b :: bs =>
    (decodeOp (b :: bs)).bind fun p => (decodeProgramFuel fuel p.2).map fun ops => p.1 :: ops

/-- The instructions that a byte string encodes. -/
def decodeProgram (bs : List UInt8) : Option (List CfaOp) := decodeProgramFuel bs.length bs

/-- One row of the unwind table: the CFA as a register and an offset, and for the saved
registers, latest first, the distance of the save from the CFA. -/
structure Row where
  cfaReg : ℕ
  cfaOffset : ℤ
  saved : List (ℕ × ℤ)
  deriving DecidableEq, Repr

/-- The data alignment factor of the CIE is `-8`. -/
def Row.apply (row : Row) : CfaOp → Row
  | .offset reg factored => { row with saved := (reg, factored * -8) :: row.saved }
  | .defCfa reg offset => { row with cfaReg := reg, cfaOffset := offset }
  | .defCfaOffset offset => { row with cfaOffset := offset }
  | _ => row

/-- The row for the address `pc`, where `loc` is the address of the current row; the
code alignment factor of the CIE is `4`. -/
def rowAt : List CfaOp → ℕ → Row → ℕ → Row
  | [], _, row, _ => row
  | .advanceLoc delta :: ops, loc, row, pc =>
    if loc + delta * 4 ≤ pc then rowAt ops (loc + delta * 4) row pc else row
  | op :: ops, loc, row, pc => rowAt ops loc (row.apply op) pc

/-- The row a function starts with. -/
def cieRow : Option Row :=
  (decodeProgram cieInitialInstructions).map fun ops => ops.foldl Row.apply ⟨0, 0, []⟩

/-- The row of a function's program for an address. -/
def unwindRow (program : List UInt8) (pc : ℕ) : Option Row :=
  cieRow.bind fun row => (decodeProgram program).map fun ops => rowAt ops 0 row pc

/-- The value of the CFA; its register is `SP` or `FP`. -/
def Row.cfa (row : Row) (s : PrologueState) : Option ℤ :=
  if row.cfaReg = 31 then some (s.sp + row.cfaOffset)
  else if row.cfaReg = 29 then some (s.fp + row.cfaOffset)
  else none

/-- The DWARF number of a register: `X0`-`X30` have `0`-`30`, `D0`-`D31` have `64`-`95`. -/
def dwarfNumber (r : PReg) : Option ℕ :=
  if r ≤ 30 then some r else if 96 ≤ r ∧ r ≤ 127 then some (r - 32) else none

/-- A row describes a state: the CFA is the entry stack pointer, and the registers
marked as saved are those stored so far, each at the address of its store. -/
def Describes (entrySp : ℤ) (s : PrologueState) (row : Row) : Prop :=
  row.cfa s = some entrySp ∧
    ∀ (d : ℕ) (a : ℤ), (∃ offset, row.saved.lookup d = some offset ∧ a = entrySp + offset) ↔
      ∃ r, (r, a) ∈ s.stores ∧ dwarfNumber r = some d

/-- The program describes the state after every instruction of the prologue. -/
def Agrees (layout : FrameLayout) : Prop :=
  ∀ (sp fp : ℤ) (k : ℕ), k ≤ (emitPrologue layout).length →
    ∃ s row, PrologueState.run ((emitPrologue layout).take k) ⟨sp, fp, []⟩ = some s ∧
      unwindRow (fromLayout layout) (4 * k) = some row ∧ Describes sp s row

/-! ## Reading the bytes back -/

/-- The bytes are the given instructions one after the other. -/
inductive Encodes : List UInt8 → List CfaOp → Prop
  | nil : Encodes [] []
  | cons {bs rest : List UInt8} {op : CfaOp} {ops : List CfaOp} (hne : bs ≠ [])
      (hop : ∀ more, decodeOp (bs ++ more) = some (op, more)) (h : Encodes rest ops) :
      Encodes (bs ++ rest) (op :: ops)

theorem Encodes.single {op : CfaOp} (hne : bs ≠ [])
    (hop : ∀ more, decodeOp (bs ++ more) = some (op, more)) : Encodes bs [op] := by
  simpa using Encodes.cons hne hop .nil

variable {ops : List CfaOp}

theorem Encodes.append {cs : List UInt8} {qs : List CfaOp} (h : Encodes bs ops)
    (h' : Encodes cs qs) : Encodes (bs ++ cs) (ops ++ qs) := by
  induction h with
  | nil => exact h'
  | cons hne hop _ ih =>
    rw [append_assoc, cons_append]
    exact .cons hne hop ih

theorem Encodes.flatMap {ι : Type*} {f : ι → List UInt8} {g : ι → List CfaOp}
    (h : ∀ i, Encodes (f i) (g i)) (is : List ι) : Encodes (is.flatMap f) (is.flatMap g) := by
  induction is with
  | nil => exact .nil
  | cons i is ih =>
    rw [flatMap_cons, flatMap_cons]
    exact (h i).append ih

theorem decodeProgramFuel_of_encodes (h : Encodes bs ops) :
    ∀ fuel, bs.length ≤ fuel → decodeProgramFuel fuel bs = some ops := by
  induction h with
  | nil => intro fuel _; cases fuel <;> rfl
  | @cons bs rest op ops hne hop _ ih =>
    intro fuel hfuel
    obtain ⟨b, bs', rfl⟩ := exists_cons_of_ne_nil hne
    cases fuel with
    | zero => simp at hfuel
    | succ fuel =>
      have hrest : rest.length ≤ fuel := by
        simp only [cons_append, length_cons, length_append] at hfuel
        omega
      rw [cons_append, decodeProgramFuel, ← cons_append, hop rest, bind_some,
        ih fuel hrest, map_some]

theorem decodeProgram_of_encodes (h : Encodes bs ops) : decodeProgram bs = some ops :=
  decodeProgramFuel_of_encodes h _ (Nat.le_refl _)

theorem encodes_advanceLoc : Encodes (encodeAdvanceLoc 1) [.advanceLoc 1] :=
  .single (by decide) fun _ => rfl

theorem encodes_defCfaOffset (offset : ℕ) :
    Encodes (encodeDefCfaOffset offset) [.defCfaOffset offset] := by
  refine .single (by simp [encodeDefCfaOffset]) ?_
  intro more
  have h : (byte 0x0E).toNat = 0x0E := rfl
  rw [encodeDefCfaOffset, cons_append, decodeOp, h]
  simp [Leb128.decodeUleb_encodeUleb]

theorem encodes_defCfa (reg offset : ℕ) :
    Encodes (encodeDefCfa reg offset) [.defCfa reg offset] := by
  refine .single (by simp [encodeDefCfa]) ?_
  intro more
  have h : (byte 0x0C).toNat = 0x0C := rfl
  rw [encodeDefCfa, cons_append, decodeOp, h]
  simp [Leb128.decodeUleb_encodeUleb]

theorem or_low_bits (h : n < 64) : 0x80 ||| n = 0x80 + n := by
  have := Nat.two_pow_add_eq_or_of_lt (i := 7) (b := n) (by omega) 1
  simpa using this.symm

theorem encodes_offset (reg bytesBelowCfa : ℕ) :
    Encodes (encodeOffset reg bytesBelowCfa) [.offset (reg % 64) (bytesBelowCfa / 8)] := by
  refine .single (by simp [encodeOffset]) ?_
  intro more
  have hmask : reg % 256 &&& 0x3F = reg % 64 := by
    rw [show (0x3F : ℕ) = 2 ^ 6 - 1 from rfl, Nat.and_two_pow_sub_one_eq_mod]
    omega
  have hlt : reg % 64 < 64 := Nat.mod_lt _ (by decide)
  have h : (byte (0x80 ||| (reg % 256 &&& 0x3F))).toNat = 128 + reg % 64 := by
    rw [hmask, or_low_bits hlt, Leb128.toNat_byte (by omega)]
  have h1 : ¬ (128 + reg % 64) / 64 = 1 := by omega
  have h2 : (128 + reg % 64) / 64 = 2 := by omega
  have h3 : (128 + reg % 64) % 64 = reg % 64 := by omega
  rw [encodeOffset, cons_append, decodeOp, h, if_neg h1, if_pos h2, h3,
    Leb128.decodeUleb_encodeUleb, map_some]

/-! ## In step with the prologue -/

/-- Instructions and groups of call frame instructions in step: the property holds
before every instruction and at the end, and each instruction is followed by its
group. -/
def Follows (P : PrologueState → Row → Prop) :
    List MachInst → List (List CfaOp) → PrologueState → Row → Prop
  | [], _, s, row => P s row
  | inst :: insts, groups, s, row =>
    P s row ∧ ∃ t, s.step inst = some t ∧
      Follows P insts groups.tail t ((groups.headD []).foldl Row.apply row)

theorem Follows.run {P : PrologueState → Row → Prop} {insts : List MachInst} :
    ∀ {groups : List (List CfaOp)} {s : PrologueState} {row : Row},
      Follows P insts groups s row → ∀ k ≤ insts.length,
        ∃ t, PrologueState.run (insts.take k) s = some t ∧
          P t ((groups.take k).flatten.foldl Row.apply row) := by
  induction insts with
  | nil =>
    intro groups s row h k hk
    obtain rfl : k = 0 := by simpa using hk
    exact ⟨s, rfl, h⟩
  | cons inst insts ih =>
    intro groups s row h k hk
    obtain ⟨hP, t, hstep, hrest⟩ := h
    cases k with
    | zero => exact ⟨s, rfl, hP⟩
    | succ k =>
      obtain ⟨u, hrun, hu⟩ := ih hrest k (by simpa using hk)
      have hrun' : PrologueState.run ((inst :: insts).take (k + 1)) s = some u := by
        rw [take_succ_cons, PrologueState.run, hstep, bind_some, hrun]
      refine ⟨u, hrun', ?_⟩
      cases groups with
      | nil | cons g gs => simpa using hu

/-- A group of instructions that all belong to one address. -/
def Still (g : List CfaOp) : Prop := ∀ op ∈ g, ∀ delta, op ≠ .advanceLoc delta

theorem rowAt_still {g : List CfaOp} (h : Still g) (ops : List CfaOp) (loc : ℕ) (row : Row)
    (pc : ℕ) : rowAt (g ++ ops) loc row pc = rowAt ops loc (g.foldl Row.apply row) pc := by
  induction g generalizing row with
  | nil => rfl
  | cons op g ih =>
    have htail : Still g := fun o ho => h o (.tail _ ho)
    cases op with
    | advanceLoc delta => exact absurd rfl (h _ mem_cons_self delta)
    | offset reg factored | defCfa reg offset | defCfaOffset offset | nop => exact ih htail _

/-- With a step of one instruction before each group, the row after `k` instructions
has the first `k` groups applied. -/
theorem rowAt_groups {groups : List (List CfaOp)} (h : ∀ g ∈ groups, Still g) (loc : ℕ) (row : Row)
    (k : ℕ) :
    rowAt (groups.flatMap fun g => .advanceLoc 1 :: g) loc row (loc + 4 * k) =
      (groups.take k).flatten.foldl Row.apply row := by
  induction groups generalizing loc row k with
  | nil => cases k <;> rfl
  | cons g groups ih =>
    rw [flatMap_cons, cons_append, rowAt]
    cases k with
    | zero => rw [if_neg (by omega)]; rfl
    | succ k =>
      rw [if_pos (by omega), rowAt_still (h g mem_cons_self),
        show loc + 4 * (k + 1) = loc + 1 * 4 + 4 * k by omega, ih (fun g' hg => h g' (.tail _ hg))]
      simp [foldl_append]

/-! ## The saves so far -/

variable {entrySp : ℤ} {saves : List (PReg × ℤ)} {s : PrologueState}

section Saves

variable {row : Row}

/-- General registers, each saved once. -/
def GeneralSaves (saves : List (PReg × ℤ)) : Prop :=
  (saves.map Prod.fst).Nodup ∧ ∀ p ∈ saves, p.1 ≤ 30

/-- The stores of the state and the marks of the row are the given saves. -/
def Logged (entrySp : ℤ) (saves : List (PReg × ℤ)) (s : PrologueState) (row : Row) : Prop :=
  s.stores = saves.map (fun p => (p.1, entrySp + p.2)) ∧ row.saved = saves.reverse

theorem Logged.describes (hlog : Logged entrySp saves s row) (hgen : GeneralSaves saves)
    (hcfa : row.cfa s = some entrySp) : Describes entrySp s row := by
  refine ⟨hcfa, ?_⟩
  intro d a
  have hnodup : (saves.reverse.map Prod.fst).Nodup := by
    rw [map_reverse, nodup_reverse]
    exact hgen.1
  rw [hlog.1, hlog.2]
  constructor
  · rintro ⟨o, hlookup, rfl⟩
    rw [AssocList.lookup_eq_some_iff hnodup, mem_reverse] at hlookup
    exact ⟨d, mem_map.mpr ⟨(d, o), hlookup, rfl⟩, by simp [dwarfNumber, hgen.2 _ hlookup]⟩
  rintro ⟨r, hmem, hnum⟩
  obtain ⟨p, hp, heq⟩ := mem_map.mp hmem
  obtain ⟨rfl, rfl⟩ : p.1 = r ∧ entrySp + p.2 = a := by simpa using heq
  have hd : p.1 = d := by simpa [dwarfNumber, hgen.2 p hp] using hnum
  exact ⟨p.2, by rw [AssocList.lookup_eq_some_iff hnodup, mem_reverse, ← hd]; exact hp, rfl⟩

theorem describes_start (entrySp fp : ℤ) : Describes entrySp ⟨entrySp, fp, []⟩ ⟨31, 0, []⟩ := by
  have hlogged : Logged entrySp [] ⟨entrySp, fp, []⟩ ⟨31, 0, []⟩ := ⟨rfl, rfl⟩
  exact hlogged.describes ⟨by simp, by simp⟩ (by simp [Row.cfa])

theorem GeneralSaves.of_append {more : List (PReg × ℤ)} (h : GeneralSaves (saves ++ more)) :
    GeneralSaves saves := by
  refine ⟨?_, fun p hp => h.2 p (mem_append_left _ hp)⟩
  have := h.1
  rw [map_append] at this
  exact this.of_append_left

end Saves

/-! ## The groups of a prologue -/

/-- The marks of the extra pair `i`. -/
def pairOps (pairs : List CalleeSavedPair) (i : ℕ) : List CfaOp :=
  let pair := pairs.getD i fpLrPair
  [.offset (pregToDwarf pair.reg2 pair.isFpr % 64) (16 * (i + 1) / 8),
    .offset (pregToDwarf pair.reg1 pair.isFpr % 64) ((16 * i + 8) / 8)]

/-- The marks of the frame pointer and the link register. -/
def fpLrOps : List CfaOp := [.offset 29 2, .offset 30 1]

/-- The saves of the frame pointer and the link register. -/
def fpLrSaves : List (PReg × ℤ) := [(29, -16), (30, -8)]

/-- The saves of the extra pair `i`. -/
def pairSaves (pairs : List CalleeSavedPair) (i : ℕ) : List (PReg × ℤ) :=
  let pair := pairs.getD i fpLrPair
  [(pair.reg2, -(16 * (i + 1))), (pair.reg1, -(16 * i + 8))]

section InStep

variable {csa : ℤ} {row : Row} {pairs : List CalleeSavedPair}

/-- The frame is being filled: the CFA is counted from `SP`. -/
structure Filling (entrySp csa : ℤ) (saves : List (PReg × ℤ)) (s : PrologueState) (row : Row) :
    Prop where
  sp : s.sp = entrySp - csa
  cfaReg : row.cfaReg = 31
  cfaOffset : row.cfaOffset = csa
  logged : Logged entrySp saves s row

/-- The frame pointer is set: the CFA is counted from it. -/
structure Framed (entrySp : ℤ) (saves : List (PReg × ℤ)) (s : PrologueState) (row : Row) :
    Prop where
  fp : s.fp = entrySp - 16
  cfaReg : row.cfaReg = 29
  cfaOffset : row.cfaOffset = 16
  logged : Logged entrySp saves s row

theorem Filling.describes (h : Filling entrySp csa saves s row) (hgen : GeneralSaves saves) :
    Describes entrySp s row := by
  refine h.logged.describes hgen ?_
  rw [Row.cfa, if_pos h.cfaReg, h.sp, h.cfaOffset]
  simp

theorem Framed.describes (h : Framed entrySp saves s row) (hgen : GeneralSaves saves) :
    Describes entrySp s row := by
  refine h.logged.describes hgen ?_
  rw [Row.cfa, h.cfaReg, if_neg (by decide), if_pos rfl, h.fp, h.cfaOffset]
  simp

theorem Framed.follows (hgen : GeneralSaves saves) (chunks : List ℕ) :
    ∀ {s : PrologueState}, Framed entrySp saves s row →
      Follows (Describes entrySp) (chunks.map fun chunk : ℕ => makeSubSpImm chunk) [] s row := by
  induction chunks with
  | nil => intro s h; exact h.describes hgen
  | cons chunk chunks ih =>
    intro s h
    exact ⟨h.describes hgen, _, rfl, ih { h with }⟩

theorem Filling.follows_fp (hgen : GeneralSaves saves) (chunks : List ℕ)
    (h : Filling entrySp csa saves s row) :
    Follows (Describes entrySp)
      (makeAddFpSpImm (csa - 16) :: chunks.map fun chunk : ℕ => makeSubSpImm chunk)
      [[.defCfa 29 16]] s row := by
  refine ⟨h.describes hgen, _, rfl, Framed.follows hgen chunks ⟨?_, rfl, rfl, h.logged⟩⟩
  dsimp only
  rw [h.sp]
  omega

/-- The frame pointer and the link register go to the top of the area. -/
theorem Filling.follows (h : Filling entrySp csa saves s row)
    (hgen : GeneralSaves (saves ++ fpLrSaves)) (chunks : List ℕ) :
    Follows (Describes entrySp) (makeStpOffset 29 30 (csa - 16) :: makeAddFpSpImm (csa - 16) ::
        chunks.map fun chunk : ℕ => makeSubSpImm chunk) [fpLrOps, [.defCfa 29 16]] s row := by
  refine ⟨h.describes hgen.of_append, _, rfl, ?_⟩
  refine Filling.follows_fp hgen chunks ?_
  refine ⟨h.sp, h.cfaReg, h.cfaOffset, ?_, ?_⟩
  · dsimp only
    rw [h.logged.1, h.sp, map_append]
    congr 1
    simp only [fpLrSaves, map_cons, map_nil, List.cons.injEq, Prod.mk.injEq, true_and, and_true]
    constructor <;> omega
  · simp [fpLrOps, fpLrSaves, Row.apply, h.logged.2]

theorem pairOps_general
    (hpair : (pairs.getD i fpLrPair).isFpr = false) (hgen : GeneralSaves (pairSaves pairs i)) :
    pairOps pairs i = [.offset (pairs.getD i fpLrPair).reg2 (2 * i + 2),
      .offset (pairs.getD i fpLrPair).reg1 (2 * i + 1)] := by
  have h2 : (pairs.getD i fpLrPair).reg2 ≤ 30 := hgen.2 _ mem_cons_self
  have h1 : (pairs.getD i fpLrPair).reg1 ≤ 30 := hgen.2 _ (.tail _ mem_cons_self)
  unfold pairOps pregToDwarf
  dsimp only
  rw [hpair, if_neg (by decide), if_neg (by decide),
    Nat.mod_eq_of_lt (Nat.lt_of_le_of_lt h2 (by decide)),
    Nat.mod_eq_of_lt (Nat.lt_of_le_of_lt h1 (by decide)),
    show 16 * (i + 1) / 8 = 2 * i + 2 by omega, show (16 * i + 8) / 8 = 2 * i + 1 by omega]

theorem Logged.store (h : Logged entrySp saves s row)
    (hpair : (pairs.getD i fpLrPair).isFpr = false) (hgen : GeneralSaves (pairSaves pairs i))
    {t : PrologueState} {a : ℤ} (ha : a = entrySp - 16 * (i + 1)) (ht : t.stores = s.stores ++
      [((pairs.getD i fpLrPair).reg2, a), ((pairs.getD i fpLrPair).reg1, a + 8)]) :
    Logged entrySp (saves ++ pairSaves pairs i) t ((pairOps pairs i).foldl Row.apply row) := by
  refine ⟨?_, ?_⟩
  · rw [ht, h.1, map_append, ha]
    congr 1
    simp only [pairSaves, map_cons, map_nil, List.cons.injEq, Prod.mk.injEq, true_and, and_true]
    constructor <;> omega
  rw [pairOps_general hpair hgen]
  simp only [foldl_cons, foldl_nil, Row.apply, h.2, pairSaves, reverse_append,
    reverse_cons, reverse_nil, nil_append, cons_append, List.cons.injEq,
    Prod.mk.injEq, true_and, and_true]
  constructor <;> omega

theorem GeneralSaves.of_middle {l m r : List (PReg × ℤ)} (h : GeneralSaves (l ++ (m ++ r))) :
    GeneralSaves m := by
  refine ⟨?_, fun p hp => h.2 p (by simp [hp])⟩
  have := h.1
  rw [map_append, map_append] at this
  exact this.of_append_right.of_append_left

theorem Filling.store {rest : List (PReg × ℤ)}
    (h : Filling entrySp csa saves s row) (hcsa : csa = 16 * pairs.length)
    (hi : i + 1 < pairs.length) (hpair : (pairs.getD i fpLrPair).isFpr = false)
    (hgen : GeneralSaves (saves ++ (pairSaves pairs i ++ rest))) :
    ∃ t, s.step (storeExtraPair pairs csa i) = some t ∧
      Filling entrySp csa (saves ++ pairSaves pairs i) t
        ((pairOps pairs i).foldl Row.apply row) := by
  have hinst : storeExtraPair pairs csa i = makeStpOffset (pairs.getD i fpLrPair).reg2
      (pairs.getD i fpLrPair).reg1 ((pairs.length - 1 - i : ℕ) * 16) := by
    unfold storeExtraPair storageRegs
    rw [hpair]
    have hne : ¬ (((pairs.length - 1 - i : ℕ) : ℤ) * 16 = 0) := by omega
    simp [hne, Bool.false_eq_true]
  rw [hinst]
  refine ⟨_, rfl, h.sp, ?_, ?_, ?_⟩
  · rw [pairOps_general hpair hgen.of_middle]
    exact h.cfaReg
  · rw [pairOps_general hpair hgen.of_middle]
    exact h.cfaOffset
  · exact h.logged.store hpair hgen.of_middle (by rw [h.sp]; omega) rfl

theorem range'_reverse_succ (n : ℕ) :
    (range' 1 (n + 1)).reverse = (n + 1) :: (range' 1 n).reverse := by
  rw [range'_1_concat, reverse_append, Nat.add_comm 1 n]
  rfl

/-- The extra pairs from `m` down to the first. -/
theorem Filling.follows_extras (hcsa : csa = 16 * pairs.length)
    (hpairs : ∀ i, 0 < i → i < pairs.length → (pairs.getD i fpLrPair).isFpr = false)
    (chunks : List ℕ) (m : ℕ) :
    m + 1 < pairs.length → ∀ {saves : List (PReg × ℤ)} {s : PrologueState} {row : Row},
      Filling entrySp csa saves s row →
      GeneralSaves (saves ++ ((range' 1 m).reverse.flatMap (pairSaves pairs) ++ fpLrSaves)) →
      Follows (Describes entrySp) ((range' 1 m).reverse.map (storeExtraPair pairs csa) ++
          makeStpOffset 29 30 (csa - 16) :: makeAddFpSpImm (csa - 16) ::
            chunks.map fun chunk : ℕ => makeSubSpImm chunk)
        ((range' 1 m).reverse.map (pairOps pairs) ++ [fpLrOps, [.defCfa 29 16]]) s row := by
  induction m with
  | zero =>
    intro _ saves s row h hgen
    exact h.follows hgen chunks
  | succ m ih =>
    intro hm saves s row h hgen
    rw [range'_reverse_succ, flatMap_cons, append_assoc] at hgen
    rw [range'_reverse_succ, map_cons, map_cons]
    obtain ⟨t, hstep, ht⟩ := h.store hcsa hm (hpairs (m + 1) (by omega) (by omega)) hgen
    refine ⟨h.describes hgen.of_append, t, hstep, ih (by omega) ht ?_⟩
    rw [append_assoc]
    exact hgen

end InStep

/-! ## The two programs -/

variable {es : List CalleeSavedPair}

section Programs

variable (pairs : List CalleeSavedPair) (csa : ℕ)

/-- The prologue of a frame with a frame pointer. -/
def framePrologue (chunks : List ℕ) : List MachInst :=
  (range' 1 (pairs.length - 1)).reverse.map (storeExtraPair pairs csa)
    ++ (if pairs.length - 1 = 0 then makeStpPreIndex 29 30 (-csa)
        else makeStpOffset 29 30 (csa - 16)) :: makeAddFpSpImm (csa - 16) ::
      chunks.map fun chunk : ℕ => makeSubSpImm chunk

/-- What `from_layout` says after each of its instructions but the last ones. -/
def frameGroups : List (List CfaOp) :=
  (if pairs.length - 1 = 0 then [.defCfaOffset csa :: fpLrOps]
    else (.defCfaOffset csa :: pairOps pairs (pairs.length - 1)) ::
      ((range' 1 (pairs.length - 2)).reverse.map (pairOps pairs) ++ [fpLrOps]))
    ++ [[.defCfa 29 16]]

theorem still_frameGroups : ∀ g ∈ frameGroups pairs csa, Still g := by
  unfold frameGroups
  split
  · simp [Still, fpLrOps]
  · simp only [forall_mem_append, forall_mem_cons, List.forall_mem_map]
    simp [Still, pairOps, fpLrOps]

theorem encodes_describePair (i : ℕ) : Encodes (describePair pairs i) (pairOps pairs i) :=
  (encodes_offset _ _).append (encodes_offset _ _)

theorem encodes_describeFpLr : Encodes describeFpLr fpLrOps :=
  (encodes_offset 29 16).append (encodes_offset 30 8)

variable {pairs csa}

/-- The bytes of `from_layout` are the groups, each after a step of one instruction. -/
theorem encodes_fromLayout (hne : layout.calleeSavedPairs ≠ [])
    (hfp : layout.usesFramePointer = true) :
    Encodes (fromLayout layout)
      ((frameGroups layout.calleeSavedPairs layout.calleeSavedAreaSize.toNat).flatMap
        fun g => .advanceLoc 1 :: g) := by
  have hempty : layout.calleeSavedPairs.isEmpty = false := by simpa using hne
  have htail : Encodes (encodeAdvanceLoc 1 ++ encodeDefCfa 29 16)
      [.advanceLoc 1, .defCfa 29 16] := encodes_advanceLoc.append (encodes_defCfa 29 16)
  unfold fromLayout frameGroups
  simp only [hempty, hfp, if_true, Bool.false_eq_true, if_false]
  rw [flatMap_append]
  refine .append ?_ htail
  split
  · exact (encodes_advanceLoc.append (encodes_defCfaOffset _)).append encodes_describeFpLr
  have hmap : ((range' 1 (layout.calleeSavedPairs.length - 2)).reverse.map
        (pairOps layout.calleeSavedPairs)).flatMap (fun g => CfaOp.advanceLoc 1 :: g) =
      (range' 1 (layout.calleeSavedPairs.length - 2)).reverse.flatMap
        fun i => CfaOp.advanceLoc 1 :: pairOps layout.calleeSavedPairs i := by
    rw [flatMap_map]
  rw [flatMap_cons, flatMap_append, hmap]
  have hmid := Encodes.flatMap (fun i => encodes_advanceLoc.append
    (encodes_describePair layout.calleeSavedPairs i))
    (range' 1 (layout.calleeSavedPairs.length - 2)).reverse
  have hall := ((encodes_advanceLoc.append
    (encodes_defCfaOffset layout.calleeSavedAreaSize.toNat)).append
    ((encodes_describePair layout.calleeSavedPairs (layout.calleeSavedPairs.length - 1)).append
      (hmid.append (encodes_advanceLoc.append encodes_describeFpLr))))
  simpa [append_assoc] using hall

section

variable (hlen : pairs.length = n + 2)
include hlen

theorem frameGroups_of_extras :
    frameGroups pairs csa = (.defCfaOffset csa :: pairOps pairs (n + 1)) ::
      ((range' 1 n).reverse.map (pairOps pairs) ++ [fpLrOps, [.defCfa 29 16]]) := by
  unfold frameGroups
  rw [hlen]
  simp

theorem framePrologue_of_extras (chunks : List ℕ) :
    framePrologue pairs csa chunks = storeExtraPair pairs csa (n + 1) ::
      ((range' 1 n).reverse.map (storeExtraPair pairs csa) ++
        makeStpOffset 29 30 (csa - 16) :: makeAddFpSpImm (csa - 16) ::
          chunks.map fun chunk : ℕ => makeSubSpImm chunk) := by
  unfold framePrologue
  rw [hlen, show n + 2 - 1 = n + 1 from rfl, range'_reverse_succ]
  simp

theorem storeExtraPair_last : storeExtraPair pairs csa (n + 1) =
      makeStpPreIndex (storageRegs (pairs.getD (n + 1) fpLrPair)).2
        (storageRegs (pairs.getD (n + 1) fpLrPair)).1 (-csa) := by
  unfold storeExtraPair
  rw [hlen]
  simp

end

/-- **In step.**  With general registers only, the groups follow the prologue. -/
theorem framePrologue_follows (chunks : List ℕ) (entrySp fp : ℤ)
    (hpairs : ∀ pair ∈ es, pair.isFpr = false)
    (hgen : GeneralSaves ((range' 1 es.length).reverse.flatMap (pairSaves (fpLrPair :: es)) ++
      fpLrSaves)) :
    Follows (Describes entrySp) (framePrologue (fpLrPair :: es) (16 * (es.length + 1)) chunks)
      (frameGroups (fpLrPair :: es) (16 * (es.length + 1))) ⟨entrySp, fp, []⟩ ⟨31, 0, []⟩ := by
  have hstart := describes_start entrySp fp
  cases hn : es.length with
  | zero =>
    obtain rfl : es = [] := length_eq_zero_iff.mp hn
    have hfpLr : GeneralSaves fpLrSaves := by simpa using hgen
    refine ⟨hstart, _, rfl, Filling.follows_fp hfpLr chunks ?_⟩
    refine ⟨rfl, rfl, rfl, ?_, rfl⟩
    simp only [fpLrSaves, map_cons, map_nil, nil_append, List.cons.injEq,
      Prod.mk.injEq, true_and, and_true]
    constructor <;> omega
  | succ n =>
    have hfpr : ∀ i, 0 < i → i < (fpLrPair :: es).length →
        ((fpLrPair :: es).getD i fpLrPair).isFpr = false := by
      intro i hi hlt
      cases i with
      | zero => cases hi
      | succ i =>
        have hlt' : i < es.length := by simpa using hlt
        rw [getD_cons_succ, getD_eq_getElem?_getD, getElem?_eq_getElem hlt', getD_some]
        exact hpairs _ (getElem_mem hlt')
    rw [hn, range'_reverse_succ, flatMap_cons, append_assoc] at hgen
    have hlen : (fpLrPair :: es).length = n + 2 := by simp [hn]
    have hlast := hfpr (n + 1) (by omega) (by omega)
    have hregs : storageRegs ((fpLrPair :: es).getD (n + 1) fpLrPair) =
        (((fpLrPair :: es).getD (n + 1) fpLrPair).reg1,
          ((fpLrPair :: es).getD (n + 1) fpLrPair).reg2) := by
      rw [storageRegs, hlast, if_neg (by decide)]
    rw [frameGroups_of_extras hlen, framePrologue_of_extras hlen, storeExtraPair_last hlen, hregs]
    refine ⟨hstart, _, rfl, ?_⟩
    have hcsa : ((16 * (n + 1 + 1) : ℕ) : ℤ) = 16 * (fpLrPair :: es).length := by
      rw [hlen]
      omega
    refine Filling.follows_extras hcsa hfpr chunks n (by omega) ?_ hgen
    have hmiddle : GeneralSaves (pairSaves (fpLrPair :: es) (n + 1)) := hgen.of_append
    have hlogged : Logged entrySp [] ⟨entrySp, fp, []⟩ ⟨31, (16 * (n + 1 + 1) : ℕ), []⟩ :=
      ⟨rfl, rfl⟩
    refine ⟨rfl, ?_, ?_, ?_⟩
    · rw [headD_cons, foldl_cons, pairOps_general hlast hmiddle]
      rfl
    · rw [headD_cons, foldl_cons, pairOps_general hlast hmiddle]
      rfl
    · exact hlogged.store hlast hmiddle (by push_cast; omega) rfl

end Programs

/-! ## The layouts the backend computes -/

/-- The pairs of the registers that have a bit in use. -/
structure Pushed {w : ℕ} (used : BitVec w) (isFpr : Bool) (regs : List (PReg × PReg × BitVec w))
    (es : List CalleeSavedPair) : Prop where
  regs : es.map (fun p => (p.reg1, p.reg2)) =
    (regs.filter fun r => used &&& r.2.2 ≠ 0).map (fun r => (r.1, r.2.1))
  isFpr : ∀ p ∈ es, p.isFpr = isFpr

section Pushed

variable {w : ℕ} {used : BitVec w} {isFpr : Bool} {regs : List (PReg × PReg × BitVec w)}

theorem Pushed.sublist (h : Pushed used isFpr regs es) :
    (es.map fun p => (p.reg1, p.reg2)).Sublist (regs.map fun r => (r.1, r.2.1)) := by
  rw [h.regs]
  exact filter_sublist.map _

theorem Pushed.length_le (h : Pushed used isFpr regs es) : es.length ≤ regs.length := by
  simpa using h.sublist.length_le

/-- `pushPairs` appends the pairs that have a bit in use. -/
theorem pushPairs_fst (acc : List CalleeSavedPair × ℤ) :
    ∃ es, (pushPairs used isFpr regs acc).1 = acc.1 ++ es ∧ Pushed used isFpr regs es := by
  induction regs generalizing acc with
  | nil => exact ⟨[], by simp [pushPairs], rfl, by simp⟩
  | cons r regs ih =>
    obtain ⟨reg1, reg2, mask⟩ := r
    obtain ⟨pairs, csaOffset⟩ := acc
    rw [pushPairs]
    split
    next h =>
      obtain ⟨es, h1, h2, h3⟩ := ih (pairs ++ [⟨reg1, reg2, csaOffset - 16, isFpr⟩], csaOffset - 16)
      refine ⟨⟨reg1, reg2, csaOffset - 16, isFpr⟩ :: es, by rw [h1]; simp, ?_,
        forall_mem_cons.2 ⟨rfl, h3⟩⟩
      rw [filter_cons_of_pos (by simpa using h), map_cons, map_cons, h2]
    next h =>
      obtain ⟨es, h1, h2, h3⟩ := ih (pairs, csaOffset)
      refine ⟨es, h1, ?_, h3⟩
      rw [filter_cons_of_neg (by simpa using h), h2]

end Pushed

/-- The extra pairs of a layout: general ones, then floating-point ones. -/
theorem calleeSavedPairs_eq (facts : FrameFacts) :
    ∃ gs fs, calleeSavedPairs facts true = fpLrPair :: (gs ++ fs) ∧
      Pushed facts.gprUsed false gprPairRegs gs ∧ Pushed facts.fprUsed true fprPairRegs fs := by
  obtain ⟨gs, h1, hg⟩ := pushPairs_fst ([fpLrPair], -16)
  obtain ⟨fs, h2, hf⟩ := pushPairs_fst (pushPairs facts.gprUsed false gprPairRegs ([fpLrPair], -16))
  refine ⟨gs, fs, ?_, hg, hf⟩
  unfold calleeSavedPairs
  rw [if_pos rfl, h2, h1]
  simp

variable {gs : List CalleeSavedPair}

/-- The registers of the extra pairs, from the last pair to the first. -/
theorem keys_pairSaves (es : List CalleeSavedPair) :
    ((range' 1 es.length).reverse.flatMap (pairSaves (fpLrPair :: es))).map Prod.fst =
      (es.flatMap fun p => [p.reg1, p.reg2]).reverse := by
  have hpairs : (range' 1 es.length).map (fun i => (fpLrPair :: es).getD i fpLrPair) = es := by
    refine ext_getElem (by simp) ?_
    intro i h1 h2
    simp [Nat.add_comm 1 i, h2]
  calc ((range' 1 es.length).reverse.flatMap (pairSaves (fpLrPair :: es))).map Prod.fst
      = ((range' 1 es.length).reverse.map fun i => (fpLrPair :: es).getD i fpLrPair).flatMap
          fun p => [p.reg2, p.reg1] := by
        rw [map_flatMap, flatMap_map]
        rfl
    _ = es.reverse.flatMap fun p => [p.reg2, p.reg1] := by rw [map_reverse, hpairs]
    _ = (es.flatMap fun p => [p.reg1, p.reg2]).reverse := by rw [reverse_flatMap]; rfl

theorem generalSaves_extras (h : Pushed facts.gprUsed false gprPairRegs gs) :
    GeneralSaves ((range' 1 gs.length).reverse.flatMap (pairSaves (fpLrPair :: gs))
      ++ fpLrSaves) := by
  have hsub := h.sublist.flatMap fun q => [q.1, q.2]
  simp only [flatMap_map] at hsub
  have hle : ∀ r ∈ gprPairRegs.flatMap (fun r => [r.1, r.2.1]), r ≤ 28 := by decide
  have hextra : ∀ p ∈ (range' 1 gs.length).reverse.flatMap (pairSaves (fpLrPair :: gs)),
      p.1 ≤ 28 := by
    intro p hp
    have hkey := mem_map_of_mem (f := Prod.fst) hp
    rw [keys_pairSaves, mem_reverse] at hkey
    exact hle _ (hsub.subset hkey)
  have hfpLr : ∀ p ∈ fpLrSaves, 29 ≤ p.1 ∧ p.1 ≤ 30 := by decide
  refine ⟨?_, forall_mem_append.2 ⟨fun p hp => (hextra p hp).trans (by decide),
    fun p hp => (hfpLr p hp).2⟩⟩
  rw [map_append, nodup_append, keys_pairSaves]
  refine ⟨nodup_reverse.mpr (hsub.nodup (by decide)), by decide, ?_⟩
  rintro a ha b hb rfl
  obtain ⟨p, hp, rfl⟩ := mem_map.mp hb
  exact absurd ((hfpLr p hp).1.trans (hle _ (hsub.subset (mem_reverse.mp ha)))) (by decide)

/-- The prologue of a layout with a frame pointer; the short form for the red zone is
the general one without extra pairs. -/
theorem emitPrologue_eq (hfp : layout.usesFramePointer = true)
    (hpairs : layout.calleeSavedPairs = fpLrPair :: es)
    (hcsa : layout.calleeSavedAreaSize.toNat = 16 * (es.length + 1)) :
    ∃ chunks, emitPrologue layout =
      framePrologue (fpLrPair :: es) (16 * (es.length + 1)) chunks := by
  unfold emitPrologue
  simp only [hpairs, hfp, hcsa]
  split
  next h =>
    rw [Bool.and_eq_true, decide_eq_true_eq] at h
    obtain rfl : es = [] := length_eq_zero_iff.mp (by simpa using h.2)
    exact ⟨[], rfl⟩
  rw [if_neg (by simp)]
  by_cases hadj : 0 < layout.spAdjustment
  · rw [if_pos hadj]
    exact ⟨spImmChunks layout.spAdjustment.toNat layout.spAdjustment.toNat, by
      simp [framePrologue, subSpImm]⟩
  rw [if_neg hadj]
  exact ⟨[], by simp [framePrologue]⟩

theorem cieRow_eq : cieRow = some ⟨31, 0, []⟩ := by
  have h := decodeProgram_of_encodes (encodes_defCfa 31 0)
  rw [cieRow, cieInitialInstructions, h]
  rfl

/-- The row of a framed function after `k` instructions. -/
theorem unwindRow_eq (hne : layout.calleeSavedPairs ≠ [])
    (hfp : layout.usesFramePointer = true) (k : ℕ) :
    unwindRow (fromLayout layout) (4 * k) =
      some (((frameGroups layout.calleeSavedPairs layout.calleeSavedAreaSize.toNat).take
        k).flatten.foldl Row.apply ⟨31, 0, []⟩) := by
  have h := rowAt_groups (still_frameGroups layout.calleeSavedPairs
    layout.calleeSavedAreaSize.toNat) 0 ⟨31, 0, []⟩ k
  rw [unwindRow, cieRow_eq, bind_some,
    decodeProgram_of_encodes (encodes_fromLayout hne hfp), map_some, ← h, Nat.zero_add]

theorem toNat_area (h : n ≤ 10) : (BitVec.ofNat 32 n * 16).toNat = 16 * n := by
  rw [BitVec.toNat_mul, BitVec.toNat_ofNat, show (16 : BitVec 32).toNat = 16 from rfl]
  omega

/-- The layout of a function: without a frame at all, or with a frame pointer. -/
theorem computeFrameLayout_cases {outgoing : BitVec 32} {redZone : Bool}
    (hlayout : computeFrameLayout facts outgoing redZone = layout) :
    (layout.calleeSavedPairs = [] ∧ layout.spAdjustment = 0 ∧ facts.fprUsed = 0) ∨
    ∃ gs fs chunks, layout.usesFramePointer = true ∧
      layout.calleeSavedPairs = fpLrPair :: (gs ++ fs) ∧
      layout.calleeSavedAreaSize.toNat = 16 * ((gs ++ fs).length + 1) ∧
      emitPrologue layout =
        framePrologue (fpLrPair :: (gs ++ fs)) (16 * ((gs ++ fs).length + 1)) chunks ∧
      Pushed facts.gprUsed false gprPairRegs gs ∧ Pushed facts.fprUsed true fprPairRegs fs := by
  cases hzero : canUseZeroFrame facts outgoing redZone with
  | true =>
    obtain ⟨⟨⟨⟨hout, hg⟩, hf⟩, -⟩, -⟩ : ((((_ ∧ _) ∧ _) ∧ _) ∧ _) := by
      simpa only [canUseZeroFrame, Bool.and_eq_true, beq_iff_eq] using hzero
    have hout' : outgoingArgArea facts outgoing = 0 := hout.2
    have hpairs : calleeSavedPairs facts false = [] := by
      simp [calleeSavedPairs, hg, hf, pushPairs, gprPairRegs, fprPairRegs]
    refine .inl ⟨?_, ?_, hf⟩ <;>
      simp [← hlayout, computeFrameLayout, hzero, hpairs, FrameLayout.spAdjustment, hout', alignUp,
        stackAlignment]
  | false =>
    obtain ⟨gs, fs, heq, hg, hf⟩ := calleeSavedPairs_eq facts
    have hfp : layout.usesFramePointer = true := by simp [← hlayout, computeFrameLayout, hzero]
    have hpairs : layout.calleeSavedPairs = fpLrPair :: (gs ++ fs) := by
      simp [← hlayout, computeFrameLayout, hzero, heq]
    have hcsa : layout.calleeSavedAreaSize = BitVec.ofNat 32 ((gs ++ fs).length + 1) * 16 := by
      simp [← hlayout, computeFrameLayout, hzero, heq]
    have hlen : gs.length + fs.length ≤ 5 + 4 := Nat.add_le_add hg.length_le hf.length_le
    have harea := toNat_area (n := (gs ++ fs).length + 1) (by rw [length_append]; omega)
    rw [← hcsa] at harea
    obtain ⟨chunks, hprologue⟩ := emitPrologue_eq hfp hpairs harea
    exact .inr ⟨gs, fs, chunks, hfp, hpairs, harea, hprologue, hg, hf⟩

/-- Without floating-point pairs, the description follows the prologue. -/
theorem agrees_of_fprUsed (h : facts.fprUsed = 0) (outgoing : BitVec 32)
    (redZone : Bool) : Agrees (computeFrameLayout facts outgoing redZone) := by
  intro sp fp k hk
  generalize hlayout : computeFrameLayout facts outgoing redZone = layout at hk ⊢
  rcases computeFrameLayout_cases hlayout with
    ⟨hpairs, hadj, -⟩ | ⟨gs, fs, chunks, hfp, hpairs, hcsa, hprologue, hg, hf⟩
  · have hprologue : emitPrologue layout = [] := by
      simp [emitPrologue, hpairs, hadj, subSpImm, spImmChunks]
    have hprogram : fromLayout layout = [] := by
      simp [fromLayout, hpairs, hadj, spImmChunks, describeSpChunks]
    rw [hprologue] at hk ⊢
    obtain rfl : k = 0 := by simpa using hk
    refine ⟨_, ⟨31, 0, []⟩, rfl, ?_, ?_⟩
    · rw [unwindRow, cieRow_eq, hprogram]
      rfl
    · exact describes_start sp fp
  obtain rfl : fs = [] := by
    have hregs := hf.regs
    rw [h] at hregs
    simpa [fprPairRegs] using hregs
  rw [append_nil] at hpairs hcsa hprologue
  rw [hprologue] at hk ⊢
  obtain ⟨s, hrun, hdesc⟩ :=
    (framePrologue_follows chunks sp fp hg.isFpr (generalSaves_extras hg)).run k hk
  refine ⟨s, _, hrun, unwindRow_eq (by rw [hpairs]; simp) hfp k, ?_⟩
  rw [hpairs, hcsa]
  exact hdesc

theorem lower64FprAlias_of_fpr128 {r : PReg} (hlow : 64 ≤ r) (hhigh : r ≤ 95) :
    lower64FprAlias r = r + 32 := by
  have h1 : ¬ r ≤ 31 := fun h => absurd (Nat.le_trans hlow h) (by decide)
  have h2 : ¬ r ≤ 63 := fun h => absurd (Nat.le_trans hlow h) (by decide)
  simp [lower64FprAlias, RegAlloc.pregClass, h1, h2, hhigh]

/-- The marks of a floating-point pair name registers below 64, so they do not describe
the store of the pair, which comes first. -/
theorem not_describes_fpr {pair : CalleeSavedPair} (hfpr : pair.isFpr = true) (h2 : 64 ≤ pair.reg2)
    (h2' : pair.reg2 ≤ 95) {pairs : List CalleeSavedPair} {entrySp : ℤ} {s : PrologueState}
    {csa : ℕ} (hstore : ∃ a, ((storageRegs pair).2, a) ∈ s.stores) :
    ¬ Describes entrySp s ((.defCfaOffset csa :: pairOps pairs i).foldl Row.apply ⟨31, 0, []⟩) := by
  intro hdesc
  obtain ⟨a, hstore⟩ := hstore
  have hreg : (storageRegs pair).2 = pair.reg2 + 32 := by
    rw [storageRegs, hfpr, if_pos rfl]
    exact lower64FprAlias_of_fpr128 h2 h2'
  have hnum : dwarfNumber ((storageRegs pair).2) = some pair.reg2 := by
    have hn : ¬ pair.reg2 + 32 ≤ 30 := by
      intro h
      exact absurd (Nat.le_trans (Nat.le_add_left 32 _) h) (by decide)
    have hle : 96 ≤ pair.reg2 + 32 := Nat.add_le_add_right h2 32
    have hge : pair.reg2 + 32 ≤ 127 := Nat.add_le_add_right h2' 32
    rw [hreg, dwarfNumber, if_neg hn, if_pos ⟨hle, hge⟩, Nat.add_sub_cancel]
  obtain ⟨offset, hlookup, -⟩ := (hdesc.2 pair.reg2 a).mpr ⟨_, hstore, hnum⟩
  have hne : ∀ n : ℕ, (pair.reg2 == n % 64) = false := by
    intro n
    have hlt : n % 64 < 64 := Nat.mod_lt _ (by decide)
    rw [beq_eq_false_iff_ne]
    intro heq
    rw [heq] at h2
    exact absurd h2 (Nat.not_le_of_lt hlt)
  simp [pairOps, Row.apply, lookup_cons, hne] at hlookup

/-- A floating-point pair goes out first, and its marks name general registers. -/
theorem not_agrees_of_fprUsed (h : facts.fprUsed ≠ 0) (outgoing : BitVec 32)
    (redZone : Bool) : ¬ Agrees (computeFrameLayout facts outgoing redZone) := by
  generalize hlayout : computeFrameLayout facts outgoing redZone = layout
  intro hagrees
  rcases computeFrameLayout_cases hlayout with
    ⟨-, -, hf⟩ | ⟨gs, fs, chunks, hfp, hpairs, -, hprologue, -, hf⟩
  · exact h hf
  have hbits : ∀ u : BitVec 8, (∀ r ∈ fprPairRegs, u &&& r.2.2 = 0) → u = 0 := by decide
  have hregs : ∀ q ∈ fprPairRegs.map (fun r => (r.1, r.2.1)), 64 ≤ q.2 ∧ q.2 ≤ 95 := by decide
  rcases eq_nil_or_concat' fs with rfl | ⟨fs', p, rfl⟩
  · refine h (hbits _ fun r hr => ?_)
    have hnone := filter_eq_nil_iff.mp (map_eq_nil_iff.mp hf.regs.symm) r hr
    simpa using hnone
  have hmem : (p.reg1, p.reg2) ∈ fprPairRegs.map fun r => (r.1, r.2.1) :=
    hf.sublist.subset (mem_map.mpr ⟨p, by simp, rfl⟩)
  obtain ⟨h2, h2'⟩ := hregs _ hmem
  have hlen' : (fpLrPair :: (gs ++ (fs' ++ [p]))).length = (gs ++ fs').length + 2 := by
    simp only [length_cons, length_append, length_nil]
    omega
  have hlast : (fpLrPair :: (gs ++ (fs' ++ [p]))).getD ((gs ++ fs').length + 1) fpLrPair = p := by
    rw [getD_cons_succ, ← append_assoc, getD_eq_getElem?_getD, getElem?_concat_length, getD_some]
  obtain ⟨s, row, hrun, hrow, hdesc⟩ := hagrees 0 0 1 (by
    rw [hprologue, framePrologue_of_extras hlen']
    simp)
  rw [hprologue, framePrologue_of_extras hlen', storeExtraPair_last hlen', hlast] at hrun
  rw [unwindRow_eq (by rw [hpairs]; simp) hfp, hpairs, frameGroups_of_extras hlen'] at hrow
  cases hrow
  cases hrun
  rw [take_succ_cons, take_zero, flatten_cons, flatten_nil, append_nil] at hdesc
  exact not_describes_fpr (hf.isFpr p (by simp)) h2 h2' ⟨_, mem_cons_self⟩ hdesc

/-- **Call frame information.**  For every layout, what `from_layout` says agrees with
the prologue after each of its instructions exactly if the function uses no
callee-saved floating-point register. -/
theorem fromLayout_agrees_iff (facts : FrameFacts) (outgoing : BitVec 32) (redZone : Bool) :
    Agrees (computeFrameLayout facts outgoing redZone) ↔ facts.fprUsed = 0 := by
  constructor
  · intro hagrees
    by_contra h
    exact not_agrees_of_fprUsed h outgoing redZone hagrees
  intro h
  exact agrees_of_fprUsed h outgoing redZone

/-- A function that uses `D8` and makes a call. -/
def usesD8 : FrameFacts := ⟨false, true, 0, 1, false, false, 0⟩

/-- **`D8` is described as `X8`.**  After the first instruction, which stores `D9` and
`D8` (registers 105 and 104), the row marks the registers 9 and 8 as saved there: the
DWARF numbers 73 and 72 were cut to six bits. -/
theorem fromLayout_confuses_d8 : ¬ Agrees (computeFrameLayout usesD8 0 false) ∧
    PrologueState.run ((emitPrologue (computeFrameLayout usesD8 0 false)).take 1) ⟨0, 0, []⟩ =
      some ⟨-32, 0, [(105, -32), (104, -24)]⟩ ∧
    unwindRow (fromLayout (computeFrameLayout usesD8 0 false)) 4 =
      some ⟨31, 32, [(8, -24), (9, -32)]⟩ :=
  ⟨not_agrees_of_fprUsed (by decide) 0 false, by decide, by decide +kernel⟩

end TrustCg.Codegen
