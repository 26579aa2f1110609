import Mathlib.Data.List.Chain
import TrustCg.Lower.Abi

/-!
# All parameters

* `classifyParams_meets_iff` : the classification is right exactly if no aggregate
  that overflows to the stack needs padding in front of it, since the code gives it
  none.
* `classifyParams_misaligned` : parameter lists where it does.
-/

namespace TrustCg.Lower

open Slots (Slot alignUp le_top top)
open List

variable {s : Cursors}

/-! ## The whole walk -/

theorem RegFile.number_injective : Function.Injective RegFile.number := by
  intro a b h
  cases a <;> cases b <;> first | rfl | cases h

section Walk

variable (variant : AArch64AbiVariant)

theorem classifyFrom_root {tys : List Ty} (hs : s.Ok) {root : Option (ℕ × ℕ)}
    (hroot : root ∈ (classifyFrom variant s tys).flatMap ArgLocation.roots) :
    ∃ i f, root = some (i, RegFile.number f) ∧ s.idx f ≤ i ∧ i < 8 := by
  induction tys generalizing s with
  | nil => simp [classifyFrom] at hroot
  | cons ty tys ih =>
    have hserves := classifyParam_serves variant ty hs
    rw [classifyFrom, flatMap_cons, mem_append] at hroot
    rcases hroot with hroot | hroot
    · obtain ⟨i, h1, h2, -, h3⟩ := hserves.root hroot
      exact ⟨i, _, h1, h2, h3⟩
    obtain ⟨i, f, h1, h2, h3⟩ := ih (hserves.ok hs) hroot
    exact ⟨i, f, h1, le_trans (hserves.idx_le hs f) h2, h3⟩

variable (tys : List Ty)

theorem classifyFrom_nodup (hs : s.Ok) :
    ((classifyFrom variant s tys).flatMap ArgLocation.roots).Nodup := by
  induction tys generalizing s with
  | nil => exact nodup_nil
  | cons ty tys ih =>
    have hserves := classifyParam_serves variant ty hs
    rw [classifyFrom, flatMap_cons, nodup_append]
    refine ⟨hserves.roots_nodup, ih (hserves.ok hs), ?_⟩
    rintro a ha b hb rfl
    obtain ⟨i, h1, -, h2, -⟩ := hserves.root ha
    obtain ⟨j, f, h3, h4, -⟩ := classifyFrom_root variant (hserves.ok hs) hb
    rw [h1, Option.some.injEq, Prod.mk.injEq] at h3
    obtain ⟨rfl, hf⟩ := h3
    rw [RegFile.number_injective hf] at h2
    omega

/-- The class of registers a type is passed in. -/
def argFile (ty : Ty) : RegFile :=
  match ty with
  | .b1 | .i8 | .i16 | .i32 | .i64 | .i128 => .gpr
  | .f16 | .f32 | .f64 | .v128 | .v64 => .fpr
  | .struct _ | .array _ _ | .enum _ _ => if ty.detectHfa.isSome then .fpr else .gpr

theorem request_file (ty : Ty) : (request variant ty).file = argFile ty := by
  have hcomp : (compositeRequest ty).file = .gpr := by
    unfold compositeRequest
    split_ifs <;> rfl
  unfold request argFile
  split
  all_goals try rfl
  all_goals
    split
    next h => simp [h]
    next h => simp [h, hcomp]

/-- Once a parameter of a class is on the stack, no register of the class is used. -/
theorem classifyFrom_noBackfill (hs : s.Ok) :
    (tys.zip (classifyFrom variant s tys)).Pairwise fun a b => a.2.range.isSome →
      ∀ root ∈ b.2.roots, root.map Prod.snd ≠ some (argFile a.1).number := by
  induction tys generalizing s with
  | nil => exact .nil
  | cons ty tys ih =>
    have hserves := classifyParam_serves variant ty hs
    rw [classifyFrom, zip_cons_cons]
    refine .cons ?_ (ih (hserves.ok hs))
    intro b hb hstack root hroot heq
    have hmem : root ∈ (classifyFrom variant (classifyParam variant ty s).2 tys).flatMap
        ArgLocation.roots :=
      mem_flatMap.mpr ⟨b.2, (of_mem_zip hb).2, hroot⟩
    obtain ⟨i, f, rfl, hle, hlt⟩ := classifyFrom_root variant (hserves.ok hs) hmem
    have hf : f = argFile ty := RegFile.number_injective (by simpa using heq)
    have hclosed := hserves.closed hstack
    rw [request_file, ← hf] at hclosed
    omega

/-- How many registers a type asks for, and of which file, does not depend on the variant. -/
theorem request_regs (ty : Ty) : (request .darwin ty).file = (request variant ty).file
    ∧ (request .darwin ty).count = (request variant ty).count := by
  cases variant with
  | darwin => exact ⟨rfl, rfl⟩
  | aapcs64 => cases ty <;> exact ⟨rfl, rfl⟩

/-- The parameters that find no registers, where `ngrn` and `nsrn` are the next general and
the next vector register. -/
def overflowing : ℕ → ℕ → List Ty → List Ty
  | _, _, [] => []
  | ngrn, nsrn, ty :: tys =>
    let r := request .darwin ty
    match r.file with
    | .gpr =>
      if ngrn + r.count ≤ 8 then overflowing (ngrn + r.count) nsrn tys
      else ty :: overflowing 8 nsrn tys
    | .fpr =>
      if nsrn + r.count ≤ 8 then overflowing ngrn (nsrn + r.count) tys
      else ty :: overflowing ngrn 8 tys

/-- The slots of these parameters. -/
def overflow (ngrn nsrn : ℕ) (tys : List Ty) : List Slot :=
  (overflowing ngrn nsrn tys).map fun ty => (request variant ty).slot

theorem overflow_fits (ngrn nsrn : ℕ) : ∀ slot ∈ overflow variant ngrn nsrn tys, slot.Fits := by
  intro slot h
  obtain ⟨ty, -, rfl⟩ := mem_map.mp h
  exact request_slot_fits variant ty

variable {variant}

theorem overflow_cons (s : Cursors) (ty : Ty) (tys : List Ty) :
    overflow variant s.gprIdx s.fprIdx (ty :: tys) =
      let r := request variant ty
      let t := s.setIdx r.file (s.idx r.file + r.count)
      let full := s.setIdx r.file 8
      if s.idx r.file + r.count ≤ 8 then overflow variant t.gprIdx t.fprIdx tys
      else r.slot :: overflow variant full.gprIdx full.fprIdx tys := by
  obtain ⟨hfile, hcount⟩ := request_regs variant ty
  rw [overflow, overflowing]
  dsimp only
  rw [hfile, hcount]
  cases (request variant ty).file <;>
    exact apply_ite (map fun ty => (request variant ty).slot) _ _ _

theorem Serves.overflow_cons {ty : Ty} (h : Serves (request variant ty) s out) (tys : List Ty) :
    overflow variant s.gprIdx s.fprIdx (ty :: tys) = if out.1.range.isSome then
        (request variant ty).slot :: overflow variant out.2.gprIdx out.2.fprIdx tys
      else overflow variant out.2.gprIdx out.2.fprIdx tys := by
  rw [Lower.overflow_cons]
  cases h with
  | regs loc hfit hrange hroots => simp [hrange, hfit]
  | stack hover t ht =>
    subst ht
    simp [not_le.mpr hover, ArgLocation.range]

/-- A location that is a stack slot or takes no bytes of the stack. -/
theorem Serves.range_eq {r : Request} (h : Serves r s out) :
    (out.1.range = none ∧ out.2.stackOffset = s.stackOffset) ∨
      (out.1.range = some (r.slot.start s.stackOffset, r.slot.size) ∧
        out.2.stackOffset = r.slot.start s.stackOffset + r.slot.extent) := by
  cases h with
  | regs loc hfit hrange hroots => exact .inl ⟨hrange, s.setIdx_stackOffset _ _⟩
  | stack hover t ht => subst ht; exact .inr ⟨rfl, rfl⟩

variable (variant)

theorem classifyFrom_ranges (hs : s.Ok) : (classifyFrom variant s tys).filterMap ArgLocation.range =
      Slots.ranges s.stackOffset (overflow variant s.gprIdx s.fprIdx tys) := by
  induction tys generalizing s with
  | nil => rfl
  | cons ty tys ih =>
    have hserves := classifyParam_serves variant ty hs
    rw [classifyFrom, hserves.overflow_cons]
    rcases hserves.range_eq with ⟨hrange, hoff⟩ | ⟨hrange, hoff⟩
    · rw [filterMap_cons_none hrange, ih (hserves.ok hs), hoff, hrange]
      rfl
    rw [filterMap_cons_some hrange, ih (hserves.ok hs), hoff, hrange]
    rfl

/-- A location stands at a multiple of the alignment unless it is in registers. -/
def AlignedAt (align : ℕ) (loc : ArgLocation) : Prop :=
  ∀ offset size, loc.range = some (offset, size) → align ∣ offset

theorem classifyFrom_aligned_iff (hs : s.Ok) :
    List.Forall₂ AlignedAt (tys.map (stackAlign variant)) (classifyFrom variant s tys) ↔
      Slots.Tight s.stackOffset (overflow variant s.gprIdx s.fprIdx tys) := by
  rw [← Slots.aligned_iff_tight (overflow_fits variant tys _ _)]
  induction tys generalizing s with
  | nil => simp [classifyFrom, overflow, overflowing, Slots.ranges]
  | cons ty tys ih =>
    have hserves := classifyParam_serves variant ty hs
    rw [classifyFrom, map_cons, List.forall₂_cons, hserves.overflow_cons, ih (hserves.ok hs)]
    rcases hserves.range_eq with ⟨hrange, hoff⟩ | ⟨hrange, hoff⟩
    · simp [AlignedAt, hrange, hoff]
    · simp [AlignedAt, hrange, hoff, Slots.ranges, request_slot_align]

end Walk

/-! ## The variadic part -/

/-- The size of a variadic argument. -/
def variadicSize (ty : Ty) : ℕ := if ty.bytes < 8 then 8 else ty.bytes

/-- A variadic argument is aligned to eight bytes or more. -/
def variadicAlign (ty : Ty) : ℕ := max 8 ty.align

/-- The slot of a variadic argument; the cursor is not rounded up for it. -/
def variadicSlot (ty : Ty) : Slot :=
  ⟨variadicAlign ty, variadicSize ty, alignUp (variadicSize ty) 8, false⟩

section

variable (tys : List Ty)

theorem variadicSlot_fits : ∀ slot ∈ tys.map variadicSlot, slot.Fits := by
  intro slot h
  obtain ⟨ty, -, rfl⟩ := mem_map.mp h
  exact ⟨by simp [variadicSlot, variadicAlign], Slots.le_alignUp (by decide)⟩

theorem classifyVariadicFrom_ranges (c : ℕ) :
    (classifyVariadicFrom c tys).filterMap ArgLocation.range =
      Slots.ranges c (tys.map variadicSlot) := by
  induction tys generalizing c with
  | nil => rfl
  | cons ty tys ih =>
    have hrange : (ArgLocation.stack c (variadicSize ty)).range = some (c, variadicSize ty) := rfl
    have hcons : classifyVariadicFrom c (ty :: tys) = .stack c (variadicSize ty) ::
        classifyVariadicFrom (c + alignUp (variadicSize ty) 8) tys := rfl
    rw [hcons, filterMap_cons_some hrange, ih]
    rfl

theorem classifyVariadicFrom_aligned_iff (c : ℕ) :
    List.Forall₂ AlignedAt (tys.map variadicAlign) (classifyVariadicFrom c tys) ↔
      Slots.Tight c (tys.map variadicSlot) := by
  rw [← Slots.aligned_iff_tight (variadicSlot_fits tys)]
  induction tys generalizing c with
  | nil => simp [classifyVariadicFrom, Slots.ranges]
  | cons ty tys ih =>
    rw [classifyVariadicFrom, map_cons, List.forall₂_cons, map_cons, ih]
    simp [AlignedAt, ArgLocation.range, Slots.ranges, variadicSlot, variadicSize, Slot.start]

theorem classifyVariadicFrom_roots (c : ℕ) :
    ∀ loc ∈ classifyVariadicFrom c tys, loc.roots = [] := by
  induction tys generalizing c with
  | nil => intro loc h; simp [classifyVariadicFrom] at h
  | cons ty tys ih =>
    intro loc h
    rw [classifyVariadicFrom, mem_cons] at h
    rcases h with rfl | h
    · rfl
    · exact ih _ loc h

end

theorem length_classifyFrom (variant : AArch64AbiVariant) (tys : List Ty) (s : Cursors) :
    (classifyFrom variant s tys).length = tys.length := by
  induction tys generalizing s with
  | nil => rfl
  | cons ty tys ih => simp [classifyFrom, ih]

/-- `classify_params_variadic`: the fixed parameters, then the others from the end of
their stack locations on. -/
theorem classifyParamsVariadic_eq (fixedCount : ℕ) (params : List Ty) :
    classifyParamsVariadic fixedCount params = classifyParams (params.take fixedCount) ++
        classifyVariadicFrom (stackArgsSize (params.take fixedCount)) (params.drop fixedCount) := by
  have htake : (if fixedCount ≤ params.length then params.take fixedCount else params) =
      params.take fixedCount := by
    split
    · rfl
    next h => rw [take_of_length_le (by omega)]
  simp only [classifyParamsVariadic, htake, stackArgsSize]

/-! ## The classification is right -/

/-- What a classification owes its callers.  `required` is the alignment that each
parameter needs, `size` the number of bytes reserved on the stack. -/
structure Meets (required : List ℕ) (tys : List Ty) (locs : List ArgLocation) (size : ℕ) :
    Prop where
  /-- No two registers given out share storage. -/
  registers : (locs.flatMap ArgLocation.roots).Nodup
  disjoint : (locs.filterMap ArgLocation.range).Pairwise fun a b =>
    a.1 + a.2 ≤ b.1 ∨ b.1 + b.2 ≤ a.1
  aligned : List.Forall₂ AlignedAt required locs
  /-- After a parameter on the stack, its class of registers is not used. -/
  noBackfill : (tys.zip locs).Pairwise fun a b => a.2.range.isSome →
    ∀ root ∈ b.2.roots, root.map Prod.snd ≠ some (argFile a.1).number
  covered : ∀ r ∈ locs.filterMap ArgLocation.range, r.1 + r.2 ≤ size

/-- No parameter that overflows without padding needs padding. -/
def NoPadding (variant : AArch64AbiVariant) (tys : List Ty) : Prop :=
  Slots.Tight 0 (overflow variant 0 0 tys)

/-- A scalar of less than eight bytes. -/
def isNarrow : Ty → Bool
  | .b1 | .i8 | .i16 | .i32 | .f16 | .f32 => true
  | _ => false

/-- A type that either variant places at a multiple of eight. -/
def roundsUp : Ty → Bool
  | .i64 | .f64 | .v64 | .i128 | .v128 => true
  | _ => false

/-- Behind a narrow scalar that overflows, the next parameter that does is rounded up to an
eightbyte: Darwin, whose layout `stack_args_size` measures, packs nothing in with it. -/
def Unpacked (tys : List Ty) : Prop :=
  (overflowing 0 0 tys).IsChain fun ty next => isNarrow ty = true → roundsUp next = true

instance (tys : List Ty) : Decidable (Unpacked tys) :=
  inferInstanceAs (Decidable (List.IsChain _ _))

/-- Where the variadic arguments start if every fixed parameter on the stack is at
its alignment. -/
def variadicStart (tys : List Ty) : ℕ :=
  top 8 (Slots.ranges 0 ((overflow .darwin 0 0 tys).map Slot.pad))

theorem start_ok : (⟨0, 0, 0⟩ : Cursors).Ok := by simp [Cursors.Ok]

theorem classifyParamsWith_meets_iff (variant : AArch64AbiVariant) (tys : List Ty) (size : ℕ) :
    Meets (tys.map (stackAlign variant)) tys (classifyParamsWith variant tys) size ↔
      NoPadding variant tys ∧
        ∀ r ∈ Slots.ranges 0 (overflow variant 0 0 tys), r.1 + r.2 ≤ size := by
  have hranges := classifyFrom_ranges variant tys start_ok
  constructor
  · intro h
    refine ⟨(classifyFrom_aligned_iff variant tys start_ok).mp h.aligned, ?_⟩
    intro r hr
    exact h.covered r (by rw [classifyParamsWith, hranges]; exact hr)
  rintro ⟨htight, hsize⟩
  refine ⟨classifyFrom_nodup variant tys start_ok, ?_,
    (classifyFrom_aligned_iff variant tys start_ok).mpr htight,
    classifyFrom_noBackfill variant tys start_ok, ?_⟩
  · rw [classifyParamsWith, hranges]
    exact (Slots.ranges_pairwise (overflow_fits variant tys 0 0) 0).imp fun h => .inl h
  rw [classifyParamsWith, hranges]
  exact hsize

theorem stackArgsSize_eq (tys : List Ty) :
    stackArgsSize tys = top 8 (Slots.ranges 0 (overflow .darwin 0 0 tys)) := by
  rw [stackArgsSize, stackEnd, classifyParams, classifyParamsWith,
    classifyFrom_ranges .darwin tys start_ok]

theorem stackArgsSize_eq_of_noPadding {tys : List Ty} (h : NoPadding .darwin tys) :
    stackArgsSize tys = variadicStart tys := by
  rw [stackArgsSize_eq, variadicStart, Slots.ranges_eq_of_tight (overflow_fits .darwin tys 0 0) h]

/-- The slots of one type in the two layouts. -/
theorem slot_cases (ty : Ty) :
    (isNarrow ty = true ∧ roundsUp ty = false ∧ (request .aapcs64 ty).slot = ⟨8, 8, 8, true⟩
        ∧ ∃ z, z ∣ 8 ∧ 0 < z ∧ z < 8 ∧ (request .darwin ty).slot = ⟨z, z, z, true⟩)
      ∨ (isNarrow ty = false ∧ roundsUp ty = true ∧ ∃ z, (z = 8 ∨ z = 16)
        ∧ (request .aapcs64 ty).slot = ⟨z, z, z, true⟩
        ∧ (request .darwin ty).slot = ⟨z, z, z, true⟩)
      ∨ (isNarrow ty = false ∧ roundsUp ty = false
        ∧ (request .aapcs64 ty).slot = (request .darwin ty).slot
        ∧ (request .darwin ty).slot.padded = false ∧ 8 ∣ (request .darwin ty).slot.extent) := by
  cases ty with
  | b1 | i8 => exact .inl ⟨rfl, rfl, rfl, 1, by decide, by decide, by decide, rfl⟩
  | i16 | f16 => exact .inl ⟨rfl, rfl, rfl, 2, by decide, by decide, by decide, rfl⟩
  | i32 | f32 => exact .inl ⟨rfl, rfl, rfl, 4, by decide, by decide, by decide, rfl⟩
  | i64 | f64 | v64 => exact .inr (.inl ⟨rfl, rfl, 8, .inl rfl, rfl, rfl⟩)
  | i128 | v128 => exact .inr (.inl ⟨rfl, rfl, 16, .inr rfl, rfl, rfl⟩)
  | struct | array | enum =>
    refine .inr (.inr ⟨rfl, rfl, rfl, ?_⟩)
    unfold request
    dsimp only
    split
    · exact ⟨rfl, Slots.dvd_alignUp _ _⟩
    · unfold compositeRequest
      split_ifs
      · exact ⟨rfl, Slots.dvd_alignUp _ _⟩
      · exact ⟨rfl, Slots.dvd_alignUp _ _⟩
      · exact ⟨rfl, Nat.dvd_refl 8⟩

/-- The slots of the types in a layout. -/
def slots (variant : AArch64AbiVariant) (tys : List Ty) : List Slot :=
  tys.map fun ty => (request variant ty).slot

theorem slots_cons (variant : AArch64AbiVariant) (ty : Ty) (tys : List Ty) :
    slots variant (ty :: tys) = (request variant ty).slot :: slots variant tys := rfl

/-- Where nothing is packed the two layouts have the same offsets. -/
theorem ranges_le_top_of_chain (tys : List Ty) (a d : ℕ) (ha : 8 ∣ a) (hle : d ≤ a)
    (hnear : a < d + 8) (hhead : d = a ∨ ∀ ty ∈ tys.head?, roundsUp ty = true)
    (hchain : tys.IsChain fun ty next => isNarrow ty = true → roundsUp next = true) :
    ∀ r ∈ Slots.ranges a (slots .aapcs64 tys),
      r.1 + r.2 ≤ top 8 (Slots.ranges d (slots .darwin tys)) := by
  induction tys generalizing a d with
  | nil => exact fun r hr => absurd hr not_mem_nil
  | cons ty tys ih =>
    rw [isChain_cons] at hchain
    -- the first slot starts at `t` in both, and the cursors go on from `a'` and `d'`
    have hstep : ∀ t a' d' x y, x ≤ alignUp y 8 →
        (∀ r ∈ Slots.ranges a' (slots .aapcs64 tys),
          r.1 + r.2 ≤ top 8 (Slots.ranges d' (slots .darwin tys))) →
        ∀ r ∈ (t, x) :: Slots.ranges a' (slots .aapcs64 tys),
          r.1 + r.2 ≤ top 8 ((t, y) :: Slots.ranges d' (slots .darwin tys)) := by
      intro t a' d' x y hxy htail r hr
      rcases mem_cons.mp hr with rfl | hr
      · exact (Nat.add_le_add_left hxy t).trans (Slots.end_le_top (r := (t, y)) mem_cons_self)
      · exact (htail r hr).trans (le_max_right _ _)
    rw [slots_cons, slots_cons, Slots.ranges, Slots.ranges]
    rcases slot_cases ty with ⟨hnarrow, hround, hA, z, hz, hpos, hlt, hD⟩
      | ⟨hnarrow, hround, z, hz, hA, hD⟩ | ⟨hnarrow, hround, hA, hpad, hext⟩
    · obtain rfl : d = a := hhead.resolve_right (by simp [hround])
      have hstart : alignUp d z = d := Slots.alignUp_of_dvd hpos (Nat.dvd_trans hz ha)
      have hstart' : alignUp d 8 = d := Slots.alignUp_of_dvd (by decide) ha
      simp only [hA, hD, Slot.start, if_true, hstart, hstart']
      refine hstep _ _ _ _ _ (by unfold alignUp; omega) ?_
      exact ih _ _ (by omega) (by omega) (by omega) (.inr fun next h => hchain.1 next h hnarrow)
        hchain.2
    · have hsame : alignUp d z = alignUp a z := by
        unfold alignUp
        rcases hz with rfl | rfl <;> omega
      simp only [hA, hD, Slot.start, if_true, hsame]
      refine hstep _ _ _ _ _ (Slots.le_alignUp (by decide)) ?_
      refine ih _ _ ?_ le_rfl (by omega) (.inl rfl) hchain.2
      unfold alignUp
      rcases hz with rfl | rfl <;> omega
    · obtain rfl : d = a := hhead.resolve_right (by simp [hround])
      simp only [hA, Slot.start, hpad]
      refine hstep _ _ _ _ _ (Slots.le_alignUp (by decide)) ?_
      exact ih _ _ (Nat.dvd_add ha hext) le_rfl (by omega) (.inl rfl) hchain.2

/-- A scalar of at most eight bytes. -/
def isSmall : Ty → Bool
  | .b1 | .i8 | .i16 | .i32 | .i64 | .f16 | .f32 | .f64 | .v64 => true
  | _ => false

theorem slot_of_small {ty : Ty} (h : isSmall ty = true) :
    (request .aapcs64 ty).slot = ⟨8, 8, 8, true⟩ ∧ ∃ z, (request .darwin ty).slot = ⟨z, z, z, true⟩
      ∧ ((z = 1 ∨ z = 2 ∨ z = 4) ∧ isNarrow ty = true ∨ z = 8 ∧ roundsUp ty = true) := by
  cases ty with
  | b1 | i8 => exact ⟨rfl, 1, rfl, by decide⟩
  | i16 | f16 => exact ⟨rfl, 2, rfl, by decide⟩
  | i32 | f32 => exact ⟨rfl, 4, rfl, by decide⟩
  | i64 | f64 | v64 => exact ⟨rfl, 8, rfl, by decide⟩
  | i128 | v128 | struct | array | enum => cases h

section

variable {tys : List Ty} (hsmall : ∀ ty ∈ tys, isSmall ty = true)
include hsmall

/-- AAPCS64 gives an eightbyte to each small scalar. -/
theorem last_mem_ranges (a : ℕ) (ha : 8 ∣ a) (hne : tys ≠ []) :
    ∃ r ∈ Slots.ranges a (slots .aapcs64 tys), r.1 + r.2 = a + 8 * tys.length := by
  induction tys generalizing a with
  | nil => exact absurd rfl hne
  | cons ty tys ih =>
    obtain ⟨hty, htys⟩ := forall_mem_cons.1 hsmall
    have hstart : alignUp a 8 = a := Slots.alignUp_of_dvd (by decide) ha
    simp only [slots_cons, Slots.ranges, (slot_of_small hty).1, Slot.start, if_true, hstart,
      length_cons]
    cases tys with
    | nil => exact ⟨_, mem_cons_self, rfl⟩
    | cons next rest =>
      obtain ⟨r, hr, hend⟩ := ih htys (a + 8) (by omega) (by simp)
      exact ⟨r, mem_cons_of_mem _ hr, by omega⟩

/-- Darwin takes no more than that. -/
theorem top_le_of_small (d : ℕ) :
    top 8 (Slots.ranges d (slots .darwin tys)) ≤ alignUp d 8 + 8 * tys.length := by
  induction tys generalizing d with
  | nil => exact Nat.zero_le _
  | cons ty tys ih =>
    obtain ⟨hty, htys⟩ := forall_mem_cons.1 hsmall
    obtain ⟨-, z, hD, hz⟩ := slot_of_small hty
    have htail := ih htys (alignUp d z + z)
    simp only [slots_cons, Slots.ranges, hD, Slot.start, if_true, length_cons]
    have hhead : alignUp d z + alignUp z 8 ≤ alignUp d 8 + 8 ∧ alignUp (alignUp d z + z) 8
        ≤ alignUp d 8 + 8 := by
      unfold alignUp
      rcases hz with ⟨rfl | rfl | rfl, -⟩ | ⟨rfl, -⟩ <;> omega
    exact max_le (hhead.1.trans (by omega)) (htail.trans (by omega))

/-- A scalar that is packed in with a narrow one costs an eightbyte that is not made up for. -/
theorem chain_of_le_top (a d : ℕ) (ha : 8 ∣ a) (hd : d = a ∨ d + 4 ≤ a)
    (hcovers : tys ≠ [] → a + 8 * tys.length ≤ top 8 (Slots.ranges d (slots .darwin tys))) :
    (tys.IsChain fun ty next => isNarrow ty = true → roundsUp next = true)
      ∧ (d = a ∨ ∀ ty ∈ tys.head?, roundsUp ty = true) := by
  induction tys generalizing a d with
  | nil => exact ⟨.nil, .inr fun _ h => absurd h (by simp)⟩
  | cons ty tys ih =>
    obtain ⟨hty, htys⟩ := forall_mem_cons.1 hsmall
    obtain ⟨-, z, hD, hz⟩ := slot_of_small hty
    have hbound := top_le_of_small htys (alignUp d z + z)
    have htop := hcovers (by simp)
    simp only [slots_cons, Slots.ranges, hD, Slot.start, if_true, length_cons] at htop
    replace htop : a + 8 * (tys.length + 1) ≤ alignUp d z + alignUp z 8
        ∨ a + 8 * (tys.length + 1)
          ≤ top 8 (Slots.ranges (alignUp d z + z) (slots .darwin tys)) :=
      le_max_iff.1 htop
    -- the first scalar starts at `a`, and the others reach as far as they have to
    have hstart : alignUp d z = a ∧ (z = 8 ∨ d = a) := by
      generalize top 8 (Slots.ranges _ _) = reach at htop hbound
      unfold alignUp at htop hbound ⊢
      rcases hz with ⟨rfl | rfl | rfl, -⟩ | ⟨rfl, -⟩ <;> omega
    rw [hstart.1] at htop hbound
    have hz8 : alignUp z 8 = 8 := by
      rcases hz with ⟨rfl | rfl | rfl, -⟩ | ⟨rfl, -⟩ <;> rfl
    obtain ⟨hchain, hhead⟩ := ih htys (a + 8) (a + z) (by omega) (by omega) fun hne => by
      have hlen := length_pos_iff.2 hne
      omega
    rw [isChain_cons]
    rcases hz with ⟨hz, hnarrow⟩ | ⟨rfl, hround⟩
    · have hrounds := hhead.resolve_left (by omega)
      exact ⟨⟨fun next hnext _ => hrounds next hnext, hchain⟩,
        .inl (hstart.2.resolve_left (by omega))⟩
    · have hwide : isNarrow ty = false := by
        cases ty <;> first | rfl | cases hround
      refine ⟨⟨fun next _ h => absurd h (by simp [hwide]), hchain⟩, .inr fun next hnext => ?_⟩
      rw [head?_cons, Option.mem_some_iff] at hnext
      exact hnext ▸ hround

end

section

variable (fixedCount : ℕ) (tys : List Ty)

theorem classifyParamsVariadic_ranges :
    (classifyParamsVariadic fixedCount tys).filterMap ArgLocation.range =
      Slots.ranges 0 (overflow .darwin 0 0 (tys.take fixedCount)) ++
        Slots.ranges (stackArgsSize (tys.take fixedCount))
          ((tys.drop fixedCount).map variadicSlot) := by
  rw [classifyParamsVariadic_eq, filterMap_append, classifyVariadicFrom_ranges,
    classifyParams, classifyParamsWith, classifyFrom_ranges .darwin _ start_ok]

theorem classifyParamsVariadic_disjoint :
    ((classifyParamsVariadic fixedCount tys).filterMap ArgLocation.range).Pairwise fun a b =>
      a.1 + a.2 ≤ b.1 := by
  rw [classifyParamsVariadic_ranges, pairwise_append]
  refine ⟨Slots.ranges_pairwise (overflow_fits .darwin _ 0 0) 0,
    Slots.ranges_pairwise (variadicSlot_fits _) _, ?_⟩
  intro a ha b hb
  have h1 := le_top (a := 8) (by decide) ha
  have h2 := Slots.le_of_mem_ranges (variadicSlot_fits _) hb
  rw [← stackArgsSize_eq] at h1
  omega

theorem classifyParamsVariadic_noBackfill :
    (tys.zip (classifyParamsVariadic fixedCount tys)).Pairwise fun a b => a.2.range.isSome →
      ∀ root ∈ b.2.roots, root.map Prod.snd ≠ some (argFile a.1).number := by
  have hzip : tys.zip (classifyParamsVariadic fixedCount tys) =
      (tys.take fixedCount).zip (classifyParams (tys.take fixedCount)) ++
        (tys.drop fixedCount).zip (classifyVariadicFrom (stackArgsSize (tys.take fixedCount))
          (tys.drop fixedCount)) := by
    have hlen : (tys.take fixedCount).length = (classifyParams (tys.take fixedCount)).length :=
      (length_classifyFrom _ _ _).symm
    rw [classifyParamsVariadic_eq, ← zip_append hlen, take_append_drop]
  have hnone : ∀ b ∈ (tys.drop fixedCount).zip (classifyVariadicFrom
      (stackArgsSize (tys.take fixedCount)) (tys.drop fixedCount)), b.2.roots = [] :=
    fun b hb => classifyVariadicFrom_roots _ _ b.2 (of_mem_zip hb).2
  rw [hzip, pairwise_append]
  refine ⟨classifyFrom_noBackfill .darwin _ start_ok, ?_, ?_⟩
  · refine pairwise_of_forall_mem_list ?_
    intro a _ b hb _ root hroot
    simp [hnone b hb] at hroot
  intro a _ b hb _ root hroot
  simp [hnone b hb] at hroot

theorem classifyParamsVariadic_registers :
    ((classifyParamsVariadic fixedCount tys).flatMap ArgLocation.roots).Nodup := by
  have hnone : (classifyVariadicFrom (stackArgsSize (tys.take fixedCount))
      (tys.drop fixedCount)).flatMap ArgLocation.roots = [] :=
    flatMap_eq_nil_iff.mpr (classifyVariadicFrom_roots _ _)
  rw [classifyParamsVariadic_eq, flatMap_append, hnone, append_nil]
  exact classifyFrom_nodup .darwin _ start_ok

/-- The alignments a variadic call requires. -/
def requiredVariadic (fixedCount : ℕ) (tys : List Ty) : List ℕ :=
  (tys.take fixedCount).map (stackAlign .darwin) ++ (tys.drop fixedCount).map variadicAlign

/-- Neither a fixed parameter that overflows nor a variadic one needs padding. -/
def NoPaddingVariadic (fixedCount : ℕ) (tys : List Ty) : Prop :=
  NoPadding .darwin (tys.take fixedCount) ∧
    Slots.Tight (variadicStart (tys.take fixedCount)) ((tys.drop fixedCount).map variadicSlot)

theorem classifyParamsVariadic_aligned_iff :
    List.Forall₂ AlignedAt (requiredVariadic fixedCount tys)
      (classifyParamsVariadic fixedCount tys) ↔ NoPaddingVariadic fixedCount tys := by
  have hlen : ((tys.take fixedCount).map (stackAlign .darwin)).length =
      (classifyParams (tys.take fixedCount)).length := by
    rw [length_map]
    exact (length_classifyFrom _ _ _).symm
  rw [classifyParamsVariadic_eq, requiredVariadic, NoPaddingVariadic, NoPadding]
  constructor
  · intro h
    have hleft := List.forall₂_take_append _ _ _ h
    have hright := List.forall₂_drop_append _ _ _ h
    rw [take_left' hlen] at hleft
    rw [drop_left' hlen] at hright
    have hfixed := (classifyFrom_aligned_iff .darwin _ start_ok).mp hleft
    refine ⟨hfixed, ?_⟩
    rw [← stackArgsSize_eq_of_noPadding hfixed]
    exact (classifyVariadicFrom_aligned_iff _ _).mp hright
  rintro ⟨hfixed, hrest⟩
  rw [← stackArgsSize_eq_of_noPadding hfixed] at hrest
  exact rel_append ((classifyFrom_aligned_iff .darwin _ start_ok).mpr hfixed)
    ((classifyVariadicFrom_aligned_iff _ _).mpr hrest)

end

/-- **Parameter classification.**  For both variants, and for variadic calls over the
fixed and the variadic arguments together, the classification is right exactly if no
aggregate that overflows to the stack (and no variadic argument) needs padding in
front of it.  Under AAPCS64 that is so for some size of the stack area, and for the size
that `stack_args_size` measures if nothing is packed in with a narrow scalar; and only if,
where all that overflows is scalars of at most eight bytes. -/
theorem classifyParams_meets_iff (variant : AArch64AbiVariant) (fixedCount : ℕ) (tys : List Ty) :
    ((∃ size, Meets (tys.map (stackAlign variant)) tys (classifyParamsWith variant tys) size) ↔
        NoPadding variant tys) ∧
      ((variant = .aapcs64 → Unpacked tys) →
        (Meets (tys.map (stackAlign variant)) tys (classifyParamsWith variant tys)
            (stackArgsSize tys) ↔ NoPadding variant tys)) ∧
      ((∀ ty ∈ overflowing 0 0 tys, isSmall ty = true) →
        Meets (tys.map (stackAlign .aapcs64)) tys (classifyParamsWith .aapcs64 tys)
          (stackArgsSize tys) → Unpacked tys) ∧
      (Meets (requiredVariadic fixedCount tys) tys (classifyParamsVariadic fixedCount tys)
          (stackArgsSizeVariadic fixedCount tys) ↔
        NoPaddingVariadic fixedCount tys) := by
  refine ⟨?_, fun hpacked => ?_, fun hsmall h => ?_, ?_⟩
  · simp only [classifyParamsWith_meets_iff, exists_and_left, and_iff_left_iff_imp]
    exact fun _ => ⟨top 8 _, fun r hr => le_top (by decide) hr⟩
  · rw [classifyParamsWith_meets_iff, stackArgsSize_eq, and_iff_left_iff_imp]
    intro _
    cases variant with
    | darwin => exact fun r hr => le_top (by decide) hr
    | aapcs64 =>
      exact ranges_le_top_of_chain _ 0 0 (by decide) le_rfl (by decide) (.inl rfl) (hpacked rfl)
  · rw [classifyParamsWith_meets_iff, stackArgsSize_eq] at h
    refine (chain_of_le_top hsmall 0 0 (by decide) (.inl rfl) fun hne => ?_).1
    obtain ⟨r, hr, hend⟩ := last_mem_ranges hsmall 0 (by decide) hne
    exact hend ▸ h.2 r hr
  constructor
  · intro h
    exact (classifyParamsVariadic_aligned_iff fixedCount tys).mp h.aligned
  intro h
  refine ⟨classifyParamsVariadic_registers fixedCount tys,
    (classifyParamsVariadic_disjoint fixedCount tys).imp fun h => .inl h,
    (classifyParamsVariadic_aligned_iff fixedCount tys).mpr h,
    classifyParamsVariadic_noBackfill fixedCount tys, ?_⟩
  exact fun r hr => le_top (by decide) hr

/-- Nine parameters, then an aggregate of two eightbytes: `X0`-`X7` are taken, the
ninth parameter is a single byte on the stack. -/
def byteThenPair : List Ty := List.replicate 8 .i64 ++ [.i8, .struct [.i64, .i64]]

/-- An eightbyte on the stack, then an aggregate that holds a 128-bit integer. -/
def wordThenWide : List Ty := List.replicate 9 .i64 ++ [.struct [.i128]]

/-- Two bytes on the stack before the variadic argument. -/
def twoBytes : List Ty := List.replicate 8 .i64 ++ [.i8, .i8, .i64]

/-- **Aggregates are not aligned.**  Darwin packs a byte at offset 0 and leaves the
cursor at 1, where the aggregate goes; under AAPCS64 a 16-byte aligned aggregate goes
to offset 8; a variadic argument after two packed bytes goes to offset 9; and the
16 bytes that `stack_args_size` counts for the last list are not the 24 of AAPCS64. -/
theorem classifyParams_misaligned : ((Ty.struct [.i64, .i64], ArgLocation.stack 1 16) ∈
        byteThenPair.zip (classifyParamsWith .darwin byteThenPair) ∧
      ¬ Meets (byteThenPair.map (stackAlign .darwin)) byteThenPair
        (classifyParamsWith .darwin byteThenPair) (stackArgsSize byteThenPair)) ∧
    ¬ Meets (wordThenWide.map (stackAlign .aapcs64)) wordThenWide
        (classifyParamsWith .aapcs64 wordThenWide) (stackArgsSize wordThenWide) ∧
    ¬ Meets (requiredVariadic 10 twoBytes) twoBytes (classifyParamsVariadic 10 twoBytes)
        (stackArgsSizeVariadic 10 twoBytes) ∧
    ¬ Meets (twoBytes.map (stackAlign .aapcs64)) twoBytes
        (classifyParamsWith .aapcs64 twoBytes) (stackArgsSize twoBytes) := by
  refine ⟨⟨?_, ?_⟩, ?_, ?_, ?_⟩
  · exact mem_of_getElem? (i := 9) rfl
  · intro h
    have := (classifyFrom_aligned_iff .darwin _ start_ok).mp h.aligned
    revert this
    decide
  · intro h
    have := (classifyFrom_aligned_iff .aapcs64 _ start_ok).mp h.aligned
    revert this
    decide
  · intro h
    have := ((classifyParamsVariadic_aligned_iff 10 _).mp h.aligned).2
    revert this
    decide
  intro h
  have := h.covered (16, 8) (by decide)
  revert this
  decide

end TrustCg.Lower
