import Mathlib.Data.Finset.Card

/-!
# Round-robin iteration of a monotone system over Booleans

A system of Boolean equations `v b = T b v`, one for each node, is solved by
sweeping over a list of nodes and recomputing each from the current values.
Starting below, values only grow, and each sweep that does anything sets another
node; so as many sweeps as there are nodes reach a state that no sweep changes
(`sweeps_stable`), whatever the order of the list and however the
equations depend on each other.
-/

namespace TrustCg.Sweep

open Function (update update_of_ne update_self)
open Finset

variable {α : Type*} [DecidableEq α] (T : α → (α → Bool) → Bool)

/-- Recompute one node. -/
def relax (v : α → Bool) (b : α) : α → Bool := update v b (T b v)

/-- Recompute the nodes of a list, one after the other. -/
def sweep (bs : List α) (v : α → Bool) : α → Bool := bs.foldl (relax T) v

/-- The state after `r` sweeps from the bottom. -/
def sweeps (bs : List α) : ℕ → α → Bool
  | 0 => fun _ => false
  | r + 1 => sweep T bs (sweeps bs r)

/-- Recomputing any node would not lower it. -/
def Pre (v : α → Bool) : Prop := ∀ b, v b ≤ T b v

variable {T}

variable {v : α → Bool}

theorem Pre.le_relax (h : Pre T v) (b : α) : v ≤ relax T v b := by
  intro c
  by_cases hc : c = b
  · subst hc
    rw [relax, update_self]
    exact h c
  · rw [relax, update_of_ne hc]

section

variable (hT : ∀ b, Monotone (T b))
include hT

theorem Pre.relax (h : Pre T v) (b : α) : Pre T (relax T v b) := by
  intro c
  by_cases hc : c = b
  · subst hc
    rw [Sweep.relax, update_self]
    exact hT c (h.le_relax c)
  rw [Sweep.relax, update_of_ne hc]
  exact (h c).trans (hT c (h.le_relax b))

theorem Pre.sweep (bs : List α) (v : α → Bool) (h : Pre T v) :
    Pre T (sweep T bs v) ∧ v ≤ sweep T bs v := by
  induction bs generalizing v with
  | nil => exact ⟨h, le_rfl⟩
  | cons b bs ih =>
    obtain ⟨h1, h2⟩ := ih _ (h.relax hT b)
    exact ⟨h1, (h.le_relax b).trans h2⟩

/-- A sweep that changes nothing leaves every node of its list at its equation. -/
theorem eq_of_sweep_eq (bs : List α) (v : α → Bool) (h : Pre T v) (hsweep : sweep T bs v = v) :
    ∀ b ∈ bs, T b v = v b := by
  induction bs generalizing v with
  | nil => intro b hb; simp at hb
  | cons b bs ih =>
    -- the first step can only grow and the rest does not shrink it again
    have hrelax : relax T v b = v := by
      refine le_antisymm ?_ (h.le_relax b)
      have hrest := (Pre.sweep hT bs _ (h.relax hT b)).2
      rw [show sweep T bs (relax T v b) = v from hsweep] at hrest
      exact hrest
    have hb : T b v = v b := by
      have := congrFun hrelax b
      rwa [relax, update_self] at this
    rw [sweep, List.foldl_cons, hrelax] at hsweep
    exact List.forall_mem_cons.2 ⟨hb, ih v h hsweep⟩

end

/-- The nodes of `U` that are set. -/
def trueIn (U : Finset α) (v : α → Bool) : Finset α := U.filter fun b => v b = true

variable {U : Finset α}

theorem trueIn_ssubset {w : α → Bool} (hle : v ≤ w) (hne : v ≠ w) (hout : ∀ b ∉ U, v b = w b) :
    (trueIn U v).card < (trueIn U w).card := by
  refine card_lt_card (ssubset_iff_of_subset ?_ |>.2 ?_)
  · intro b hb
    rw [trueIn, mem_filter] at hb ⊢
    refine ⟨hb.1, ?_⟩
    have := hle b
    rw [hb.2] at this
    exact Bool.eq_true_of_true_le this
  obtain ⟨b, hb⟩ := Function.ne_iff.1 hne
  have hbU : b ∈ U := by
    by_contra hb'
    exact hb (hout b hb')
  refine ⟨b, ?_, ?_⟩
  · rw [trueIn, mem_filter]
    refine ⟨hbU, ?_⟩
    cases hw : w b with
    | true => rfl
    | false =>
      have := hle b
      rw [hw] at this
      have hv := Bool.eq_false_of_le_false this
      exact absurd (hv.trans hw.symm) hb
  rw [trueIn, mem_filter]
  rintro ⟨-, hv⟩
  have := hle b
  rw [hv] at this
  exact hb (hv.trans (Bool.eq_true_of_true_le this).symm)

section

variable (hT : ∀ b, Monotone (T b)) (bs : List α)
include hT

theorem pre_sweeps (r : ℕ) : Pre T (sweeps T bs r) := by
  induction r with
  | zero => exact fun b => Bool.false_le _
  | succ r ih => exact (Pre.sweep hT bs _ ih).1

theorem sweeps_outside (hU : ∀ b ∉ U, ∀ v, T b v = false) (r : ℕ) {b : α} (hb : b ∉ U) :
    sweeps T bs r b = false := by
  have hle := pre_sweeps hT bs r b
  rw [hU b hb] at hle
  exact Bool.eq_false_of_le_false hle

theorem sweeps_card_lt (hU : ∀ b ∉ U, ∀ v, T b v = false) {r : ℕ}
    (hne : sweep T bs (sweeps T bs r) ≠ sweeps T bs r) :
    (trueIn U (sweeps T bs r)).card < (trueIn U (sweeps T bs (r + 1))).card :=
  trueIn_ssubset (Pre.sweep hT bs _ (pre_sweeps hT bs r)).2 hne.symm fun _ hb =>
    (sweeps_outside hT bs hU r hb).trans (sweeps_outside hT bs hU (r + 1) hb).symm

/-- After `r` sweeps the state is stable or has at least `r` nodes set. -/
theorem sweeps_count (hU : ∀ b ∉ U, ∀ v, T b v = false) (r : ℕ) :
    sweep T bs (sweeps T bs r) = sweeps T bs r ∨ r ≤ (trueIn U (sweeps T bs r)).card := by
  induction r with
  | zero => exact .inr (Nat.zero_le _)
  | succ r ih =>
    by_cases hstable : sweep T bs (sweeps T bs r) = sweeps T bs r
    · left
      rw [sweeps, hstable, hstable]
    right
    have hr := ih.resolve_left hstable
    have hlt := sweeps_card_lt hT bs hU hstable
    omega

/-- **As many sweeps as nodes.**  If only the nodes of `U` can be set, the state
after `U.card` sweeps from the bottom is not changed by another one. -/
theorem sweeps_stable (U : Finset α) (hU : ∀ b ∉ U, ∀ v, T b v = false) :
    sweep T bs (sweeps T bs U.card) = sweeps T bs U.card := by
  by_contra hne
  -- one sweep further there would be more nodes set than there are
  have hcount := (sweeps_count hT bs hU U.card).resolve_left hne
  have hlt := sweeps_card_lt hT bs hU hne
  have hle : (trueIn U (sweeps T bs (U.card + 1))).card ≤ U.card := card_filter_le _ _
  omega

end

end TrustCg.Sweep
