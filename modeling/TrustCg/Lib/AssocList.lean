import Mathlib.Data.List.Nodup
import Mathlib.Order.Lattice

/-!
# Lookup in a list of pairs

`List.lookup` on a list whose keys are distinct, or sorted.

* `lookup_eq_some_iff` : with distinct keys, lookup is membership.
* `lookup_perm` : the order of the entries does not matter.
* `lookup_pivot` : in a sorted list, lookup may go to one side of an entry.
-/

namespace TrustCg.AssocList

open List

variable {κ α : Type*}

section

variable [DecidableEq κ] {l : List (κ × α)} {k : κ}

theorem lookup_eq_some_iff {v : α} (h : (l.map Prod.fst).Nodup) :
    (l.lookup k = some v ↔ (k, v) ∈ l) := by
  induction l with
  | nil => simp
  | cons e l ih =>
    obtain ⟨k', v'⟩ := e
    obtain ⟨hnot, hnodup⟩ := nodup_cons.mp h
    rw [lookup_cons, mem_cons]
    by_cases hk : k = k'
    · subst hk
      have hmem : (k, v) ∉ l := fun hm => hnot (mem_map.mpr ⟨(k, v), hm, rfl⟩)
      simp [hmem, eq_comm]
    · simp [beq_false_of_ne hk, hk, ih hnodup]

theorem lookup_eq_none_of_forall (h : ∀ e ∈ l, k ≠ e.1) : l.lookup k = none := by
  rw [lookup_eq_none_iff]
  exact fun e he => bne_iff_ne.mpr (h e he)

theorem lookup_perm {l' : List (κ × α)} (hperm : l.Perm l') (h : (l.map Prod.fst).Nodup)
    (k : κ) : l.lookup k = l'.lookup k := by
  have h' : (l'.map Prod.fst).Nodup := (hperm.map Prod.fst).nodup_iff.mp h
  apply Option.ext
  intro v
  rw [lookup_eq_some_iff h, lookup_eq_some_iff h', hperm.mem_iff]

end

/-- **A pivot.**  In a list sorted by its keys, a key below that of an entry is looked up
before it and a key above it is looked up behind it. -/
theorem lookup_pivot [LinearOrder κ] {left right : List (κ × α)} {p : κ} {v : α}
    (h : (left ++ (p, v) :: right).Pairwise fun a b => a.1 < b.1) (k : κ) :
    (left ++ (p, v) :: right).lookup k
      = if k = p then some v else if k < p then left.lookup k else right.lookup k := by
  obtain ⟨-, hright, hcross⟩ := pairwise_append.mp h
  obtain ⟨hp, -⟩ := pairwise_cons.mp hright
  have hleft : ∀ e ∈ left, e.1 < p := fun e he => hcross e he (p, v) mem_cons_self
  rw [lookup_append, lookup_cons]
  by_cases hk : k = p
  · subst hk
    rw [lookup_eq_none_of_forall fun e he => ne_of_gt (hleft e he)]
    simp
  rw [if_neg hk, beq_false_of_ne hk]
  by_cases hlt : k < p
  · have hnone : right.lookup k = none :=
      lookup_eq_none_of_forall fun e he => ne_of_lt (lt_trans hlt (hp e he))
    simp [hlt, hnone]
  have hnone : left.lookup k = none :=
    lookup_eq_none_of_forall fun e he heq => hlt (heq ▸ hleft e he)
  simp [hlt, hnone]

end TrustCg.AssocList
