import TrustCg.Codegen.LogicalImm

/-!
# Constants in registers

The optimizer builds a constant from a seed (`MOVZ` or `MOVN` of the low halfword) and `MOVK`
repairs, or from one `ORR` of a logical immediate.  The repairs are right for every constant
(`execAll_seed`).  The logical immediates are not: `encode_logical_immediate` writes the
complement of `size - 1` where the architecture reads the complement of `2 * size - 1`, so the
fields of an element of less than 64 bits decode to a shorter element or to nothing.

* `encodeLogicalImmediate_decodes_iff` : the fields are right exactly for elements of 64 bits.
* `materializeConstant_exact_iff` : the constants that arrive.
-/

namespace TrustCg.Opt

open TrustCg.Codegen TrustCg.BitRuns List BitVec

/-! ## The sequences -/

/-- The instructions and their immediates; the destination is left to the caller. -/
inductive ConstInst
  | movz (imm16 : BitVec 16) (shift : ℕ)
  | movn (imm16 : BitVec 16) (shift : ℕ)
  | movk (imm16 : BitVec 16) (shift : ℕ)
  | orrRI (zr : RegisterWidth) (n immr imms : ℕ)
  deriving DecidableEq, Repr

variable (value : BitVec 64)

/-- A halfword of the constant. -/
def chunk (hw : ℕ) : BitVec 16 := (value >>> (hw * 16) &&& 0xFFFF).setWidth 16

/-- The halfwords that are not 0. -/
def nonZeroChunks (maxChunks : ℕ) : List (BitVec 16 × ℕ) :=
  ((range maxChunks).map fun hw => (chunk value hw, hw)).filter fun c => c.1 ≠ 0

/-- Halfword 0 and those that are not 0. -/
def optimalMovzMovkSequence : List (BitVec 16 × ℕ) :=
  (value.setWidth 16, 0) ::
    ((range' 1 3).map fun hw => (chunk value hw, hw)).filter fun c => c.1 ≠ 0

/-- MOVN, and MOVK where not all ones. -/
def movnMovkSequence (chunks : ℕ) : List ConstInst :=
  .movn (~~~value.setWidth 16) 0 ::
    ((range' 1 (chunks - 1)).filter fun hw => chunk value hw ≠ 0xFFFF).map fun hw =>
      .movk (chunk value hw) (hw * 16)

/-- `materialize_constant`; an unsupported width fails the assertion. -/
def materializeConstant (width : ℕ) : Option (List ConstInst) :=
  if !isSupportedWidth width then none
  else
    let mask := if width = 64 then BitVec.allOnes 64 else 0xFFFFFFFF#64
    let value := value &&& mask
    let chunks := width / 16
    let nonZero := nonZeroChunks value chunks
    let invNonZero := nonZeroChunks (~~~value &&& mask) chunks
    some <|
      if value = 0 then [.movz 0 0]
      else match nonZero with
      | [(imm16, hw)] =>
        if hw = 0 then [.movz imm16 0] else [.movz 0 0, .movk imm16 (hw * 16)]
      | _ =>
        match encodeLogicalImmediate value width with
        | some (n, immr, imms) => [.orrRI (if width = 64 then .w64 else .w32) n immr imms]
        | none =>
          if invNonZero.isEmpty then [.movn 0 0]
          else if invNonZero.length = 1 ∨ invNonZero.length < nonZero.length then
            movnMovkSequence value chunks
          else match optimalMovzMovkSequence value with
            | [] => []
            | seed :: rest => .movz seed.1 0 :: rest.map fun c => .movk c.1 (c.2 * 16)

/-! ## Their execution -/

/-- The effect on a destination of `M` bits.  `ORR` with the zero register writes the decoded
mask; a reserved encoding has no defined effect. -/
def ConstInst.exec {M : ℕ} (reg : BitVec M) : ConstInst → Option (BitVec M)
  | .movz imm16 shift => some (imm16.setWidth M <<< shift)
  | .movn imm16 shift => some (~~~(imm16.setWidth M <<< shift))
  | .movk imm16 shift =>
    some (reg &&& ~~~((allOnes 16).setWidth M <<< shift) ||| imm16.setWidth M <<< shift)
  | .orrRI _ n immr imms => decodeBitMasks M n imms immr

/-- The register after all instructions. -/
def execAll {M : ℕ} (reg : BitVec M) (insts : List ConstInst) : Option (BitVec M) :=
  insts.foldlM ConstInst.exec reg

section

variable {M : ℕ} {v x start : BitVec M} {value : BitVec 64} {i hw n : ℕ} {width : RegisterWidth}

theorem getLsbD_chunk (value : BitVec 64) (hw j : ℕ) :
    (chunk value hw).getLsbD j = (decide (j < 16) && value.getLsbD (hw * 16 + j)) := by
  have hmask : (0xFFFF : BitVec 64) = lowOnes 64 16 := rfl
  rw [chunk, getLsbD_setWidth, getLsbD_and, getLsbD_ushiftRight, hmask, getLsbD_lowOnes]
  grind

theorem getLsbD_eq_chunk (value : BitVec 64) (i : ℕ) :
    value.getLsbD i = (chunk value (i / 16)).getLsbD (i % 16) := by
  rw [getLsbD_chunk, show i / 16 * 16 + i % 16 = i by omega]
  simp [show i % 16 < 16 by omega]

/-- A repair writes one halfword. -/
theorem getLsbD_movk (hi : i < M) :
    (x &&& ~~~((allOnes 16).setWidth M <<< (hw * 16))
        ||| (chunk value hw).setWidth M <<< (hw * 16)).getLsbD i
      = if i / 16 = hw then value.getLsbD i else x.getLsbD i := by
  simp only [getLsbD_or, getLsbD_and, getLsbD_not, getLsbD_shiftLeft, getLsbD_setWidth,
    getLsbD_allOnes, getLsbD_chunk, hi, decide_true, Bool.true_and]
  by_cases hhere : i / 16 = hw
  · simp [hhere, show ¬ i < hw * 16 by omega, show i - hw * 16 < 16 by omega,
      show i - hw * 16 < M by omega, show hw * 16 + (i - hw * 16) = i by omega]
  by_cases hlow : i < hw * 16
  · simp [hhere, hlow]
  · simp [hhere, show ¬ i - hw * 16 < 16 by omega]

/-- The repairs write the halfwords of their list. -/
theorem execAll_movks (value : BitVec 64) (hws : List ℕ) (x : BitVec M) :
    ∃ y, execAll x (hws.map fun hw => .movk (chunk value hw) (hw * 16)) = some y
      ∧ ∀ i < M, y.getLsbD i = if i / 16 ∈ hws then value.getLsbD i else x.getLsbD i := by
  induction hws generalizing x with
  | nil => exact ⟨x, rfl, by simp⟩
  | cons hw hws ih =>
    obtain ⟨y, hrun, hbits⟩ := ih (x &&& ~~~((allOnes 16).setWidth M <<< (hw * 16))
      ||| (chunk value hw).setWidth M <<< (hw * 16))
    refine ⟨y, hrun, fun i hi => ?_⟩
    rw [hbits i hi, getLsbD_movk hi]
    by_cases hmem : i / 16 ∈ hws <;> simp [hmem]

variable {seed : ConstInst}

/-- **A seed and its repairs.**  Every halfword that is not repaired has to be in the seed. -/
theorem execAll_seed (hseed : seed.exec start = some x) (hws : List ℕ)
    (hagree : ∀ i < M, i / 16 ∉ hws → x.getLsbD i = value.getLsbD i) :
    execAll start (seed :: hws.map fun hw => .movk (chunk value hw) (hw * 16))
      = some (value.setWidth M) := by
  obtain ⟨y, hrun, hbits⟩ := execAll_movks value hws x
  rw [execAll, foldlM_cons, hseed]
  refine hrun.trans (congrArg some (eq_of_getLsbD_eq fun i hi => ?_))
  rw [hbits i hi, getLsbD_setWidth]
  grind

/-- The repairs after a seed that writes the low halfword and one bit everywhere else: the
halfwords of that bit need none. -/
theorem execAll_filled (bit : Bool) (hseed : seed.exec start = some x)
    (hx : ∀ i < M, x.getLsbD i = if i < 16 then value.getLsbD i else bit) (hn : M ≤ 16 * (n + 1)) :
    execAll start (seed :: ((range' 1 n).filter fun hw => chunk value hw ≠ fill 16 bit).map
      fun hw => .movk (chunk value hw) (hw * 16)) = some (value.setWidth M) := by
  refine execAll_seed hseed _ fun i hi hmem => ?_
  rw [hx i hi]
  split
  · rfl
  simp only [mem_filter, mem_range'_1, decide_eq_true_eq] at hmem
  rw [getLsbD_eq_chunk, show chunk value (i / 16) = fill 16 bit by grind, getLsbD_fill]
  simp [show i % 16 < 16 by omega]

theorem mem_nonZeroChunks {c : BitVec 16 × ℕ} :
    c ∈ nonZeroChunks value n ↔ c.2 < n ∧ c.1 = chunk value c.2 ∧ c.1 ≠ 0 := by
  obtain ⟨imm, hw⟩ := c
  simp only [nonZeroChunks, mem_filter, mem_map, mem_range, Prod.mk.injEq, decide_eq_true_eq]
  grind

/-- A halfword outside the list of the nonzero ones. -/
theorem getLsbD_of_notMem (value : BitVec 64) (hi : i < 16 * n)
    (h : ∀ c ∈ nonZeroChunks value n, c.2 ≠ i / 16) : value.getLsbD i = false := by
  have hzero : chunk value (i / 16) = 0 := by
    by_contra hne
    exact h (_, i / 16) (mem_nonZeroChunks.2 ⟨by dsimp only; omega, rfl, hne⟩) rfl
  rw [getLsbD_eq_chunk, hzero]
  simp

/-! ## The logical immediates -/

/-- The low `w` bits repeat a rotated run of less than 64 bits. -/
def SmallRun (w : ℕ) (v : BitVec 64) : Prop :=
  ∃ e ∈ elementWidths w, e < 64 ∧ ∃ c r, 1 ≤ c ∧ c < e ∧ r < e
    ∧ ∀ i < w, v.getLsbD i = runBit e c r i

/-- Runs of different elements differ: the shorter element is a period of its run. -/
theorem runBit_elements_ne {e c r e' c' r' w : ℕ} (hc : 1 ≤ c) (hce : c < e) (hr : r < e)
    (hew : e ≤ w) (hdvd : e' ∣ e) (hlt : e' < e)
    (h : ∀ i < w, runBit e c r i = runBit e' c' r' i) : False := by
  have hpos : 0 < e' := Nat.pos_of_dvd_of_pos hdvd (by omega)
  obtain ⟨i, hi, hne⟩ := exists_runBit_shift_ne hc hce hr hpos hlt
  have hmod := Nat.mod_lt (i + e') (show 0 < e by omega)
  refine hne ?_
  rw [h _ (by omega), h i (by omega), ← runBit_mod e', Nat.mod_mod_of_dvd _ hdvd,
    Nat.add_mod_right, runBit_mod]

/-- What decodes is a run of the element size that is read off the fields. -/
theorem getLsbD_of_decodeBitMasks {n imms immr : ℕ} (h : decodeBitMasks M n imms immr = some v)
    (hdvd : 2 ^ Nat.log2 (n * 64 + (63 - imms % 64)) ∣ M) :
    ∃ c r, ∀ i < M, v.getLsbD i = runBit (2 ^ Nat.log2 (n * 64 + (63 - imms % 64))) c r i := by
  have hlt : ∀ m l : ℕ, m &&& (2 ^ l - 1) < 2 ^ l := fun m l =>
    Nat.lt_of_le_pred (Nat.two_pow_pos l) Nat.and_le_right
  unfold decodeBitMasks at h
  simp only at h
  split at h
  · cases h
  cases h
  exact ⟨_, _, fun i hi => getLsbD_decodedMask hdvd (hlt ..) (hlt ..) hi⟩

/-- The element that is read off the fields of a short element is shorter. -/
theorem small_imms : ∀ e ∈ [2, 4, 8, 16, 32], ∀ c < e, 1 ≤ c →
    let imms := ((2 ^ 32 - 1 - (e - 1)) % 2 ^ 8 &&& 0x3F) ||| (c - 1) % 2 ^ 8
    let len := Nat.log2 (0 * 64 + (63 - imms % 64))
    2 ^ len < e ∧ 2 ^ len ∣ e := by
  decide +kernel

theorem full_imms : ∀ c < 64, 1 ≤ c → ((2 ^ 32 - 1 - (64 - 1)) % 2 ^ 8 &&& 0x3F)
    ||| (c - 1) % 2 ^ 8 = (logicalImmFields 64 c 0).2.2 := by
  decide +kernel

/-- **The fields of the optimizer.**  They decode to the constant exactly if its element has 64
bits. -/
theorem encodeLogicalImmediate_decodes_iff {n immr imms : ℕ}
    (h : encodeLogicalImmediate value width.bits = some (n, immr, imms)) :
    decodeBitMasks width.bits n imms immr = some (value.setWidth width.bits)
      ↔ ¬ SmallRun width.bits value := by
  obtain ⟨e, he, c, r, hc, hce, hr, hfields, hbits⟩ := encodeLogicalImmediate_sound h
  obtain ⟨-, hew, hdvd⟩ := elementWidths_spec he
  rw [Prod.mk.injEq, Prod.mk.injEq] at hfields
  obtain ⟨rfl, rfl, rfl⟩ := hfields
  have hw := width.bits_le
  by_cases h64 : e = 64
  · subst h64
    refine iff_of_true ?_ ?_
    · have hdecode := decodeBitMasks_fields he hc hce hr hbits
      rw [full_imms c hce hc, if_pos rfl, Nat.mod_eq_of_lt (show r < 2 ^ 8 by omega)]
      rwa [show (logicalImmFields 64 c r).2.1 = r from
        Nat.and_two_pow_sub_one_of_lt_two_pow (n := 6) hr] at hdecode
    rintro ⟨e', he', hlt, c', r', -, -, -, hbits'⟩
    have hdvd' := (elementWidths_spec he').2.2
    rw [show width.bits = 64 by omega] at hdvd'
    exact runBit_elements_ne hc hce hr hew hdvd' hlt fun i hi =>
      (hbits i hi).symm.trans (hbits' i hi)
  refine iff_of_false ?_ (not_not.2 ⟨e, he, by omega, c, r, hc, hce, hr, hbits⟩)
  intro hdecode
  have hshort : ∀ e ∈ elementWidths width.bits, e ≠ 64 → e ∈ [2, 4, 8, 16, 32] := by
    cases width <;> decide
  obtain ⟨hlt, hdvd'⟩ := small_imms e (hshort e he h64) c hce hc
  rw [if_neg h64] at hdecode
  obtain ⟨c', r', hmask⟩ := getLsbD_of_decodeBitMasks hdecode (hdvd'.trans hdvd)
  refine runBit_elements_ne hc hce hr hew hdvd' hlt fun i hi => .trans ?_ (hmask i hi)
  rw [getLsbD_setWidth, hbits i hi]
  simp [hi]

/-! ## Every constant -/

theorem execAll_single {imm : BitVec 16} {k : ℕ} (hM : M = 16 * n)
    (hone : nonZeroChunks value n = [(imm, k)]) (start : BitVec M) :
    execAll start (if k = 0 then [.movz imm 0] else [.movz 0 0, .movk imm (k * 16)])
      = some (value.setWidth M) := by
  have hother : ∀ i < M, i / 16 ≠ k → value.getLsbD i = false := by
    intro i hi hne
    refine getLsbD_of_notMem _ (hM ▸ hi) fun c hc => ?_
    rw [hone, mem_singleton] at hc
    rw [hc]
    exact hne.symm
  obtain ⟨-, himm, -⟩ := mem_nonZeroChunks.1 (hone ▸ mem_singleton_self (imm, k))
  dsimp only at himm
  subst himm
  split
  next hk =>
    refine execAll_seed rfl [] fun i hi _ => ?_
    rw [shiftLeft_zero, getLsbD_setWidth, getLsbD_chunk]
    grind
  · refine execAll_seed rfl [k] fun i hi hmem => ?_
    rw [hother i hi (by simpa using hmem)]
    simp

/-- **The constants that arrive.**  The sequence leaves the constant in the destination unless it
has several nonzero halfwords and repeats a run of less than 64 bits. -/
theorem materializeConstant_exact_iff (value : BitVec 64) (width : RegisterWidth) :
    (∃ insts, materializeConstant value width.bits = some insts ∧
        ∀ start : BitVec width.bits, execAll start insts = some (value.setWidth width.bits))
      ↔ ((nonZeroChunks (value &&& lowMask width.bits) (width.bits / 16)).length ≤ 1
        ∨ ¬ SmallRun width.bits (value &&& lowMask width.bits)) := by
  have hsupp : isSupportedWidth width.bits = true := by cases width <;> rfl
  have hw := width.bits_le
  have hwidth : width.bits = 16 * (width.bits / 16) := by cases width <;> rfl
  have hset : value.setWidth width.bits = (value &&& lowMask width.bits).setWidth width.bits :=
    eq_of_getLsbD_eq fun i hi => by
      rw [getLsbD_setWidth, getLsbD_setWidth, getLsbD_and_lowMask hw]
      simp [hi]
  have habove : ∀ i, ¬ i < width.bits → (value &&& lowMask width.bits).getLsbD i = false := by
    intro i hi
    rw [getLsbD_and_lowMask hw]
    simp [hi]
  unfold materializeConstant
  simp only [hsupp, Bool.not_true, Bool.false_eq_true, if_false, registerMask_eq, hset,
    Option.some.injEq, exists_eq_left']
  generalize value &&& lowMask width.bits = v at habove
  by_cases hzero : v = 0
  · subst hzero
    refine iff_of_true (fun start => ?_) (.inl (by cases width <;> decide))
    rw [if_pos rfl]
    exact execAll_seed rfl [] fun i hi _ => by simp
  simp only [if_neg hzero]
  split
  next imm k hone => exact iff_of_true (execAll_single hwidth hone) (.inl (by simp [hone]))
  rename_i hmany
  have hlen : ¬ (nonZeroChunks v (width.bits / 16)).length ≤ 1 := by
    intro hle
    match hl : nonZeroChunks v (width.bits / 16) with
    | [] =>
      refine hzero (eq_of_getLsbD_eq fun i _ => ?_)
      by_cases hi : i < width.bits
      · simpa using getLsbD_of_notMem v (hwidth ▸ hi) (by simp [hl])
      · simpa using habove i hi
    | [c] => exact hmany c.1 c.2 hl
    | _ :: _ :: _ => simp [hl] at hle
  rw [or_iff_right hlen]
  split
  next n immr imms henc =>
    rw [← encodeLogicalImmediate_decodes_iff henc]
    simp [execAll, ConstInst.exec]
  rename_i henc
  refine iff_of_true (fun start => ?_) ?_
  · split
    next hinv =>
      refine execAll_seed rfl [] fun i hi _ => ?_
      have hclear := getLsbD_of_notMem (~~~v &&& lowMask width.bits) (hwidth ▸ hi)
        (by simp [isEmpty_iff.1 hinv])
      rw [getLsbD_and_lowMask hw] at hclear
      simpa [hi, show i < 64 by omega] using hclear
    split
    · refine execAll_filled true rfl (fun i hi => ?_) (by omega)
      simp only [getLsbD_not, shiftLeft_zero, getLsbD_setWidth]
      grind
    rw [optimalMovzMovkSequence]
    simp only [filter_map, map_map]
    refine execAll_filled (n := 3) false rfl (fun i hi => ?_) (by omega)
    rw [shiftLeft_zero, getLsbD_setWidth, getLsbD_setWidth]
    grind
  rintro ⟨e, he, -, hrun⟩
  have hsome := isLogicalImmediate_iff_isRun.2 ⟨e, he, hrun⟩
  rw [isLogicalImmediate, henc] at hsome
  cases hsome

/-- The mask of a halfword element is read as one of a byte element. -/
theorem materializeConstant_low_nibbles :
    ∃ insts, materializeConstant 0x000F000F000F000F 64 = some insts
      ∧ execAll (0 : BitVec 64) insts = some 0x0F0F0F0F0F0F0F0F :=
  ⟨[.orrRI .w64 0 0 51], by decide +kernel, by decide +kernel⟩

end

end TrustCg.Opt
