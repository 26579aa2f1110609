import Mathlib.Logic.Function.Basic

/-!
# Updating a partial map

What a partial map holds once a key is bound or dropped.
-/

namespace TrustCg

variable {α β : Type*} [DecidableEq α] {f : α → Option β} {a b : α} {v w : β}

theorem update_some_iff : Function.update f a (some v) b = some w ↔
    (b = a ∧ w = v) ∨ (b ≠ a ∧ f b = some w) := by
  by_cases h : b = a
  · simp [h, eq_comm]
  · simp [h]

theorem update_none_iff : Function.update f a none b = some w ↔ b ≠ a ∧ f b = some w := by
  by_cases h : b = a <;> simp [h]

end TrustCg
