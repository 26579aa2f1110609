import TrustCg.RegAlloc.Types

/-!
# Physical registers and shared storage

The register numbering the allocators work with: the AArch64 file of
`aarch64_regs.rs` below `229`, and the x86-64 registers that `x86_adapter.rs` maps to
`512 .. 559`.  Views of one register at several widths have numbers of their own, so
the allocators ask `allocator_pregs_overlap` whether two registers share storage and
`aliasing_pregs` for the other views of a register.

* `allocatorPregsOverlap_iff` : sharing storage is having the same `storage`, so it is
  an equivalence.
* `storage_of_mem_aliasingPregs` : every alias of a register shares its storage.

The converse of the second fails for the stack pointer and the zero register:
`reg_root` puts their four names together, `aliasing_pregs` gives them no alias.
-/

namespace TrustCg.RegAlloc

variable (p : PReg)

/-- The class, by number. -/
def pregClass : RegClass :=
  if p ≤ 31 then .gpr64
  else if p ≤ 63 then .gpr32
  else if p ≤ 95 then .fpr128
  else if p ≤ 127 then .fpr64
  else if p ≤ 159 then .fpr32
  else if p = 160 then .gpr64
  else if p = 161 then .gpr32
  else if p ≤ 164 then .system
  else if p ≤ 196 then .fpr16
  else if p ≤ 228 then .fpr8
  else .system

/-! ## The AArch64 file -/

/-- `gpr64_to_gpr32`; `31` and `160` are the stack pointer and the zero register. -/
def gpr64ToGpr32 : Option PReg :=
  if p ≤ 30 then some (p + 32) else if p = 31 then some 63 else if p = 160 then some 161 else none

/-- The X register of a W register. -/
def gpr32ToGpr64 : Option PReg :=
  if 32 ≤ p ∧ p ≤ 62 then some (p - 32)
  else if p = 63 then some 31
  else if p = 161 then some 160
  else none

/-- A view of a 128-bit register at the given distance. -/
def fpr128View (offset : ℕ) (p : PReg) : Option PReg :=
  if 64 ≤ p ∧ p ≤ 95 then some (p + offset) else none

/-- The D view. -/
def fpr128ToFpr64 : Option PReg := fpr128View 32 p

/-- The S view. -/
def fpr128ToFpr32 : Option PReg := fpr128View 64 p

/-- The H view. -/
def fpr128ToFpr16 : Option PReg := fpr128View 101 p

/-- The B view. -/
def fpr128ToFpr8 : Option PReg := fpr128View 133 p

/-- The V register of a D view. -/
def fpr64ToFpr128 : Option PReg := if 96 ≤ p ∧ p ≤ 127 then some (p - 32) else none

/-- The V register of an S view. -/
def fpr32ToFpr128 : Option PReg := if 128 ≤ p ∧ p ≤ 159 then some (p - 64) else none

/-- `reg_root`: the register number and its file, `0` for general and `1` for
floating point. -/
def regRoot : Option (ℕ × ℕ) :=
  if p ≤ 31 then some (p, 0)
  else if p ≤ 63 then some (p - 32, 0)
  else if p ≤ 95 then some (p - 64, 1)
  else if p ≤ 127 then some (p - 96, 1)
  else if p ≤ 159 then some (p - 128, 1)
  else if p = 160 then some (31, 0)
  else if p = 161 then some (31, 0)
  else if 165 ≤ p ∧ p ≤ 196 then some (p - 165, 1)
  else if 197 ≤ p ∧ p ≤ 228 then some (p - 197, 1)
  else none

/-- Two AArch64 registers share storage. -/
def regsOverlap (a b : PReg) : Bool :=
  if a = b then true
  else
    match regRoot a, regRoot b with
    | some ra, some rb => ra.1 == rb.1 && ra.2 == rb.2
    | _, _ => false

/-! ## The x86-64 registers -/

/-- The number is one of x86-64. -/
def isX86Preg : Bool := 512 ≤ p && p ≤ 559

/-- `x86_preg_aliases`, the register itself included. -/
def x86PregAliases : List PReg :=
  if 512 ≤ p ∧ p ≤ 527 then [p, 528 + (p - 512)]
  else if 528 ≤ p ∧ p ≤ 543 then [p, 512 + (p - 528)]
  else [p]

/-- Two x86-64 registers share storage. -/
def x86PregsOverlap (a b : PReg) : Bool :=
  if a = b then true else (x86PregAliases a).contains b

/-! ## What the allocators ask -/

/-- The same for either target. -/
def allocatorPregsOverlap (a b : PReg) : Bool :=
  if isX86Preg a || isX86Preg b then x86PregsOverlap a b else regsOverlap a b

/-- `aliasing_pregs`: the other views of a register. -/
def aliasingPregs : List PReg :=
  if isX86Preg p then (x86PregAliases p).filter fun q => q ≠ p
  else if p ≤ 30 then (gpr64ToGpr32 p).toList
  else if 32 ≤ p ∧ p ≤ 62 then (gpr32ToGpr64 p).toList
  else if 64 ≤ p ∧ p ≤ 95 then
    (fpr128ToFpr64 p).toList ++ (fpr128ToFpr32 p).toList ++ (fpr128ToFpr16 p).toList
      ++ (fpr128ToFpr8 p).toList
  else if 96 ≤ p ∧ p ≤ 127 then
    match fpr64ToFpr128 p with
    | some v =>
      v :: ((fpr128ToFpr32 v).toList ++ (fpr128ToFpr16 v).toList ++ (fpr128ToFpr8 v).toList)
    | none => []
  else if 128 ≤ p ∧ p ≤ 159 then
    match fpr32ToFpr128 p with
    | some v =>
      v :: ((fpr128ToFpr64 v).toList ++ (fpr128ToFpr16 v).toList ++ (fpr128ToFpr8 v).toList)
    | none => []
  else if 165 ≤ p ∧ p ≤ 196 then
    (p - 101) :: ((fpr128ToFpr64 (p - 101)).toList ++ (fpr128ToFpr32 (p - 101)).toList
      ++ (fpr128ToFpr8 (p - 101)).toList)
  else if 197 ≤ p ∧ p ≤ 228 then
    (p - 133) :: ((fpr128ToFpr64 (p - 133)).toList ++ (fpr128ToFpr32 (p - 133)).toList
      ++ (fpr128ToFpr16 (p - 133)).toList)
  else []

/-- The storage behind a register number: a general or floating-point register of
either machine, or the number itself where there are no views. -/
inductive Storage
  | aarch64 (root : ℕ × ℕ)
  | x86Gpr (n : ℕ)
  | own (p : PReg)
  deriving DecidableEq, Repr

/-- The storage of a register. -/
def storage : Storage :=
  if 512 ≤ p ∧ p ≤ 527 then .x86Gpr (p - 512)
  else if 528 ≤ p ∧ p ≤ 543 then .x86Gpr (p - 528)
  else
    match regRoot p with
    | some root => .aarch64 root
    | none => .own p

variable {p : PReg}

theorem isX86Preg_iff : isX86Preg p = true ↔ (512 : ℕ) ≤ p ∧ p ≤ (559 : ℕ) := by
  simp [isX86Preg]

theorem storage_of_not_isX86Preg (h : ¬ isX86Preg p = true) :
    storage p = match regRoot p with
      | some root => .aarch64 root
      | none => .own p := by
  rw [isX86Preg_iff] at h
  unfold storage
  dsimp only [PReg] at *
  rw [if_neg (by omega), if_neg (by omega)]

theorem regsOverlap_iff {a b : PReg} (ha : ¬ isX86Preg a = true) (hb : ¬ isX86Preg b = true) :
    regsOverlap a b = true ↔ storage a = storage b := by
  rw [storage_of_not_isX86Preg ha, storage_of_not_isX86Preg hb, regsOverlap]
  by_cases hab : a = b
  · subst hab
    simp
  rw [if_neg hab]
  cases regRoot a <;> cases regRoot b <;> simp [hab, Prod.ext_iff]

/-- The forms of a storage: a view of an x86-64 general register, a view of an AArch64
register, or a register of its own. -/
theorem storage_cases (p : ℕ) : (512 ≤ p ∧ p ≤ 527 ∧ storage p = .x86Gpr (p - 512))
      ∨ (528 ≤ p ∧ p ≤ 543 ∧ storage p = .x86Gpr (p - 528))
      ∨ (p < 512 ∧ ∃ root, storage p = .aarch64 root)
      ∨ ((p < 512 ∨ 543 < p) ∧ storage p = .own p) := by
  by_cases h1 : 512 ≤ p ∧ p ≤ 527
  · exact .inl ⟨h1.1, h1.2, if_pos h1⟩
  by_cases h2 : 528 ≤ p ∧ p ≤ 543
  · exact .inr (.inl ⟨h2.1, h2.2, (if_neg h1).trans (if_pos h2)⟩)
  have hout : p < 512 ∨ 543 < p := by omega
  have hst : storage p = match regRoot p with
      | some root => .aarch64 root
      | none => .own p := (if_neg h1).trans (if_neg h2)
  cases hroot : regRoot p with
  | none => exact .inr (.inr (.inr ⟨hout, by rw [hst, hroot]⟩))
  | some root =>
    have hlt : p < 512 := by
      refine Nat.lt_of_not_le fun hge => ?_
      have hnone : regRoot p = none := by
        unfold regRoot
        dsimp only [PReg]
        repeat' rw [if_neg (by omega)]
      rw [hnone] at hroot
      simp at hroot
    exact .inr (.inr (.inl ⟨hlt, root, by rw [hst, hroot]⟩))

theorem x86PregsOverlap_iff {a b : ℕ} (h : isX86Preg a = true ∨ isX86Preg b = true) :
    x86PregsOverlap a b = true ↔ storage a = storage b := by
  rw [isX86Preg_iff, isX86Preg_iff] at h
  unfold x86PregsOverlap x86PregAliases
  rcases storage_cases a with ⟨h1, h2, ha⟩ | ⟨h1, h2, ha⟩ | ⟨h1, root, ha⟩ | ⟨h1, ha⟩ <;>
  rcases storage_cases b with ⟨h3, h4, hb⟩ | ⟨h3, h4, hb⟩ | ⟨h3, root', hb⟩ | ⟨h3, hb⟩ <;>
  rw [ha, hb] <;> grind

/-- **Sharing storage is an equivalence**: two registers overlap when their storage
is the same. -/
theorem allocatorPregsOverlap_iff {a b : PReg} :
    allocatorPregsOverlap a b = true ↔ storage a = storage b := by
  unfold allocatorPregsOverlap
  by_cases h : isX86Preg a = true ∨ isX86Preg b = true
  · rw [if_pos (by simpa using h)]
    exact x86PregsOverlap_iff h
  rw [not_or] at h
  rw [if_neg (by simp [h])]
  exact regsOverlap_iff h.1 h.2

theorem allocatorPregsOverlap_comm (a b : PReg) :
    allocatorPregsOverlap a b = allocatorPregsOverlap b a := by
  rw [Bool.eq_iff_iff, allocatorPregsOverlap_iff, allocatorPregsOverlap_iff, eq_comm]

theorem aliasingPregs_of_ge (hp : ¬ p < 560) : aliasingPregs p = [] := by
  have hx86 : ¬ isX86Preg p = true := by
    rw [isX86Preg_iff]
    exact fun h => hp (Nat.lt_succ_of_le h.2)
  unfold aliasingPregs
  dsimp only [PReg] at *
  rw [if_neg hx86]
  repeat' rw [if_neg (by omega)]

/-- The aliases of a register are other registers with the same storage. -/
theorem storage_of_mem_aliasingPregs {q : PReg} (h : q ∈ aliasingPregs p) :
    storage q = storage p ∧ q ≠ p := by
  by_cases hp : p < 560
  · have hall : ∀ p < 560, ∀ q ∈ aliasingPregs p, storage q = storage p ∧ q ≠ p := by
      decide +kernel
    exact hall p hp q h
  rw [aliasingPregs_of_ge hp] at h
  simp at h

theorem storage_of_mem_views {q : PReg} (h : q ∈ p :: aliasingPregs p) : storage q = storage p := by
  rcases List.mem_cons.1 h with rfl | h
  · rfl
  · exact (storage_of_mem_aliasingPregs h).1

theorem nodup_views (p : PReg) : (p :: aliasingPregs p).Nodup := by
  by_cases hp : p < 560
  · have hall : ∀ p < 560, (p :: aliasingPregs p).Nodup := by
      decide +kernel
    exact hall p hp
  rw [aliasingPregs_of_ge hp]
  simp

end TrustCg.RegAlloc
