import Mathlib.Algebra.Order.BigOperators.Group.Finset
import Mathlib.Algebra.Order.Ring.Nat

/-!
# Ranking

A measure for systems in which an item enters a set and pushes lighter ones out.  Over
a finite universe an item is given a worth that exceeds the worths of all lighter items
together, so such a replacement raises the worth of the set, however many items leave.

* `sum_worth_lt` : an item is worth more than any set of lighter ones.
* `sum_lt_of_replace` : replacing items by one of greater worth raises the sum.
-/

namespace TrustCg.Ranking

open Finset

variable {α : Type*} (lighter : α → α → Bool) (univ : Finset α)

/-- The number of lighter items. -/
def rank (a : α) : ℕ := (univ.filter fun b => lighter b a = true).card

/-- The worth of an item. -/
def worth (a : α) : ℕ := (univ.card + 1) ^ rank lighter univ a

variable {lighter univ} {a b : α}

variable {E : Finset α}

section

variable (hirrefl : ∀ a ∈ univ, lighter a a = false)
    (htrans : ∀ a ∈ univ, ∀ b ∈ univ, ∀ c ∈ univ,
      lighter a b = true → lighter b c = true → lighter a c = true)
    (ha : a ∈ univ)
include hirrefl htrans ha

theorem rank_lt (hb : b ∈ univ) (hab : lighter a b = true) :
    rank lighter univ a < rank lighter univ b := by
  refine card_lt_card (ssubset_iff_of_subset ?_ |>.2 ⟨a, ?_, ?_⟩)
  · intro c hc
    obtain ⟨hc, hca⟩ := mem_filter.1 hc
    exact mem_filter.2 ⟨hc, htrans c hc a ha b hb hca hab⟩
  · exact mem_filter.2 ⟨ha, hab⟩
  intro hmem
  have := (mem_filter.1 hmem).2
  rw [hirrefl a ha] at this
  simp at this

/-- **An item is worth more than any set of lighter ones.** -/
theorem sum_worth_lt (hE : ∀ b ∈ E, b ∈ univ ∧ lighter b a = true) :
    ∑ b ∈ E, worth lighter univ b < worth lighter univ a := by
  by_cases hempty : E = ∅
  · rw [hempty, sum_empty]
    exact Nat.pow_pos (Nat.succ_pos _)
  obtain ⟨b, hb⟩ := nonempty_iff_ne_empty.2 hempty
  obtain ⟨r, hr⟩ : ∃ r, rank lighter univ a = r + 1 := by
    have := rank_lt hirrefl htrans (hE b hb).1 ha (hE b hb).2
    exact ⟨rank lighter univ a - 1, by omega⟩
  have hcard : E.card ≤ univ.card := card_le_card fun b hb => (hE b hb).1
  have hle : ∀ b ∈ E, worth lighter univ b ≤ (univ.card + 1) ^ r := by
    intro b hb
    have := rank_lt hirrefl htrans (hE b hb).1 ha (hE b hb).2
    exact Nat.pow_le_pow_right (Nat.succ_pos _) (by omega)
  calc ∑ b ∈ E, worth lighter univ b
      ≤ E.card * (univ.card + 1) ^ r := by simpa using sum_le_card_nsmul E _ _ hle
    _ ≤ univ.card * (univ.card + 1) ^ r := Nat.mul_le_mul_right _ hcard
    _ < (univ.card + 1) * (univ.card + 1) ^ r :=
        Nat.mul_lt_mul_of_pos_right (Nat.lt_succ_self _) (Nat.pow_pos (Nat.succ_pos _))
    _ = worth lighter univ a := by rw [worth, hr, Nat.pow_succ']

end

/-- **Replacement.**  A set that gains an item and loses others of less worth together is
worth more. -/
theorem sum_lt_of_replace [DecidableEq α] {f : α → ℕ} {A B : Finset α} (hnew : a ∉ A) (ha : a ∈ B)
    (hkeep : A ⊆ B ∪ E) (hless : ∑ b ∈ E, f b < f a) : ∑ b ∈ A, f b < ∑ b ∈ B, f b := by
  have hsub : A ⊆ B.erase a ∪ E := by
    intro b hb
    rcases mem_union.1 (hkeep hb) with hB | hE
    · refine mem_union_left _ (mem_erase.2 ⟨?_, hB⟩)
      rintro rfl
      exact hnew hb
    · exact mem_union_right _ hE
  calc ∑ b ∈ A, f b
      ≤ ∑ b ∈ B.erase a ∪ E, f b := sum_le_sum_of_subset hsub
    _ ≤ ∑ b ∈ B.erase a, f b + ∑ b ∈ E, f b := by
        rw [← sum_union_inter]
        exact Nat.le_add_right _ _
    _ < ∑ b ∈ B.erase a, f b + f a := Nat.add_lt_add_left hless _
    _ = ∑ b ∈ B, f b := sum_erase_add _ _ ha

end TrustCg.Ranking
