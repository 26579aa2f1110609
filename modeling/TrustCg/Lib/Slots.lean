import Mathlib.Algebra.Order.Monoid.Unbundled.Basic
import Mathlib.Data.List.Pairwise

/-!
# Slots laid out in a row

A cursor walks over a list of slots and gives each one its place.  A *padded* slot
first moves the cursor to the next multiple of the slot's alignment, an unpadded one
is placed where the cursor stands.  After a slot the cursor has moved on by the
slot's extent, which is at least its size.

* `ranges_pairwise` : no two slots share a byte, whatever is padded.
* `aligned_iff_tight` : every slot is aligned exactly if padding all of them would
  not move an unpadded one.
-/

namespace TrustCg.Slots

/-! ## Rounding up -/

/-- The least multiple of `a` that is at least `v`. -/
def alignUp (v a : ℕ) : ℕ := (v + a - 1) / a * a

theorem dvd_alignUp (v a : ℕ) : a ∣ alignUp v a := Nat.dvd_mul_left a _

variable {a : ℕ}

theorem le_alignUp {v : ℕ} (ha : 0 < a) : v ≤ alignUp v a := by
  have h := Nat.div_add_mod (v + a - 1) a
  have hlt := Nat.mod_lt (v + a - 1) ha
  rw [alignUp, Nat.mul_comm]
  omega

theorem alignUp_of_dvd {v : ℕ} (ha : 0 < a) (h : a ∣ v) : alignUp v a = v := by
  obtain ⟨k, rfl⟩ := h
  have hdiv : (a * k + a - 1) / a = k := by
    rw [Nat.add_sub_assoc ha, Nat.mul_add_div ha, Nat.div_eq_of_lt (by omega), Nat.add_zero]
  rw [alignUp, hdiv, Nat.mul_comm]

/-! ## Slots -/

/-- A slot that is still to be placed. -/
structure Slot where
  align : ℕ
  size : ℕ
  /-- How far the cursor moves past the start of the slot. -/
  extent : ℕ
  /-- Whether the cursor is rounded up to `align` first. -/
  padded : Bool
  deriving DecidableEq, Repr

/-- Where a slot starts if the cursor stands at `c`. -/
def Slot.start (s : Slot) (c : ℕ) : ℕ := if s.padded then alignUp c s.align else c

/-- The slot with padding in front. -/
def Slot.pad (s : Slot) : Slot := { s with padded := true }

/-- A slot holds its bytes and has an alignment. -/
def Slot.Fits (s : Slot) : Prop := 0 < s.align ∧ s.size ≤ s.extent

variable {s : Slot}

theorem Slot.le_start (h : s.Fits) (c : ℕ) : c ≤ s.start c := by
  unfold Slot.start
  split
  · exact le_alignUp h.1
  · exact le_refl c

/-- The places of the slots, as start and size. -/
def ranges : ℕ → List Slot → List (ℕ × ℕ)
  | _, [] => []
  | c, s :: ss => (s.start c, s.size) :: ranges (s.start c + s.extent) ss

/-- No unpadded slot needs padding in the layout that pads every slot. -/
def Tight : ℕ → List Slot → Prop
  | _, [] => True
  | c, s :: ss => (s.padded = false → s.align ∣ c) ∧ Tight (alignUp c s.align + s.extent) ss

instance decidableTight : ∀ (c : ℕ) (ss : List Slot), Decidable (Tight c ss)
  | _, [] => isTrue trivial
  | c, s :: ss =>
    have := decidableTight (alignUp c s.align + s.extent) ss
    inferInstanceAs (Decidable (_ ∧ _))

theorem start_eq_of_tight (h : s.Fits) {c : ℕ} (ht : s.padded = false → s.align ∣ c) :
    s.start c = alignUp c s.align := by
  unfold Slot.start
  cases hp : s.padded with
  | true => simp
  | false => simp [alignUp_of_dvd h.1 (ht hp)]

theorem dvd_start_iff (c : ℕ) : s.align ∣ s.start c ↔ (s.padded = false → s.align ∣ c) := by
  unfold Slot.start
  cases hp : s.padded with
  | true => simp [dvd_alignUp]
  | false => simp

section

variable {ss : List Slot} (h : ∀ s ∈ ss, s.Fits)
include h

theorem le_of_mem_ranges : ∀ {c : ℕ} {r : ℕ × ℕ}, r ∈ ranges c ss → c ≤ r.1 := by
  induction ss with
  | nil => intro c r hr; simp [ranges] at hr
  | cons s ss ih =>
    intro c r hr
    have hs := Slot.le_start (h s (by simp)) c
    rw [ranges, List.mem_cons] at hr
    rcases hr with rfl | hr
    · exact hs
    have := ih (fun t ht => h t (by simp [ht])) hr
    omega

/-- **Slots are disjoint.**  Each slot ends before the next ones start. -/
theorem ranges_pairwise (c : ℕ) : (ranges c ss).Pairwise fun a b => a.1 + a.2 ≤ b.1 := by
  induction ss generalizing c with
  | nil => exact .nil
  | cons s ss ih =>
    have htail : ∀ t ∈ ss, t.Fits := fun t ht => h t (by simp [ht])
    refine .cons ?_ (ih htail _)
    intro r hr
    have hle := le_of_mem_ranges htail hr
    have hsize := (h s (by simp)).2
    omega

/-- **Alignment.**  The slots stand at multiples of their alignments exactly if no
unpadded slot needs padding in the fully padded layout. -/
theorem aligned_iff_tight (c : ℕ) :
    List.Forall₂ (fun (s : Slot) (r : ℕ × ℕ) => s.align ∣ r.1) ss (ranges c ss) ↔ Tight c ss := by
  induction ss generalizing c with
  | nil => simp [ranges, Tight]
  | cons s ss ih =>
    have hs := h s (by simp)
    rw [ranges, List.forall₂_cons, Tight, dvd_start_iff]
    constructor
    · rintro ⟨h1, h2⟩
      rw [start_eq_of_tight hs h1, ih (fun t ht => h t (by simp [ht]))] at h2
      exact ⟨h1, h2⟩
    rintro ⟨h1, h2⟩
    rw [start_eq_of_tight hs h1, ih (fun t ht => h t (by simp [ht]))]
    exact ⟨h1, h2⟩

theorem ranges_eq_of_tight {c : ℕ} (ht : Tight c ss) :
    ranges c ss = ranges c (ss.map Slot.pad) := by
  induction ss generalizing c with
  | nil => rfl
  | cons s ss ih =>
    obtain ⟨h1, h2⟩ := ht
    have hpad : s.pad.start c = alignUp c s.align := by simp [Slot.start, Slot.pad]
    rw [ranges, List.map_cons, ranges, start_eq_of_tight (h s (by simp)) h1, hpad,
      ih (fun t ht => h t (by simp [ht])) h2]
    rfl

end

/-- The end of the last slot when every size is rounded up to a multiple of `a`. -/
def top (a : ℕ) (rs : List (ℕ × ℕ)) : ℕ :=
  (rs.map fun r => r.1 + alignUp r.2 a).foldr max 0

theorem end_le_top {rs : List (ℕ × ℕ)} {r : ℕ × ℕ} (h : r ∈ rs) :
    r.1 + alignUp r.2 a ≤ top a rs := by
  induction rs with
  | nil => simp at h
  | cons q rs ih =>
    have htop : top a (q :: rs) = max (q.1 + alignUp q.2 a) (top a rs) := rfl
    rw [List.mem_cons] at h
    rcases h with rfl | h
    · omega
    have := ih h
    omega

theorem le_top (ha : 0 < a) {rs : List (ℕ × ℕ)} {r : ℕ × ℕ} (h : r ∈ rs) :
    r.1 + r.2 ≤ top a rs :=
  (Nat.add_le_add_left (le_alignUp ha) _).trans (end_le_top h)

end TrustCg.Slots
