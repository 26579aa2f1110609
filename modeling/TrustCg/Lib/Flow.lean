import Mathlib.Logic.Relation

/-!
# Paths through a control-flow graph, and what every path must pass

`Trail entry edge b trail` says that control can enter `b` after having gone
through the nodes of `trail`, most recent first, starting at `entry`.  A node
*must pass* an event when every trail to it does.

The forward analysis that computes this is an intersection over predecessors.
`IsSolution` is the system of equations it solves; the two directions of
`IsSolution.iff_mustPass` say that a solution that is not below the paths'
answer *is* the paths' answer, for every graph: with loops, irreducible or not,
and with edges back to the entry.
-/

namespace TrustCg.Flow

variable {α : Type*}

/-- Control enters a node from the entry through the nodes of the trail, most
recent first. -/
inductive Trail (entry : α) (edge : α → α → Prop) : α → List α → Prop
  /-- the entry is entered first -/
  | entry : Trail entry edge entry []
  /-- an edge extends a trail by the node it leaves -/
  | step {a b : α} {trail : List α} : Trail entry edge a trail → edge a b →
      Trail entry edge b (a :: trail)

/-- Some trail leads to the node. -/
def Reachable (entry : α) (edge : α → α → Prop) (b : α) : Prop := ∃ trail, Trail entry edge b trail

/-- Every trail to the exit of the node has gone through an event. -/
def MustPass (entry : α) (edge : α → α → Prop) (event : α → Prop) (b : α) : Prop :=
  ∀ trail, Trail entry edge b trail → event b ∨ ∃ a ∈ trail, event a

section

variable {entry : α} {edge : α → α → Prop} {event : α → Prop} {b a : α} {out : α → Prop}

theorem Reachable.refl : Reachable entry edge entry := ⟨[], .entry⟩

theorem Reachable.step (h : Reachable entry edge a) (hab : edge a b) : Reachable entry edge b := by
  obtain ⟨trail, ht⟩ := h
  exact ⟨a :: trail, ht.step hab⟩

/-- A set that holds the entry and is closed under edges holds every reachable node. -/
theorem Reachable.mem_of_closed {S : α → Prop} (hentry : S entry)
    (hclosed : ∀ a b, S a → edge a b → S b) (h : Reachable entry edge b) : S b := by
  obtain ⟨trail, ht⟩ := h
  induction ht with
  | entry => exact hentry
  | step _ hab ih => exact hclosed _ _ ih hab

theorem Reachable.exists_pred (h : Reachable entry edge b) (hb : b ≠ entry) :
    ∃ a, Reachable entry edge a ∧ edge a b := by
  obtain ⟨trail, ht⟩ := h
  cases ht with
  | entry => exact absurd rfl hb
  | step ha hab => exact ⟨_, ⟨_, ha⟩, hab⟩

/-- A trail that has gone through a node has a trail to its first visit inside. -/
theorem Trail.cut {c : α} {trail : List α} (h : Trail entry edge c trail) (hmem : b ∈ trail) :
    ∃ trail', Trail entry edge b trail' ∧ b ∉ trail' ∧ trail' ⊆ trail := by
  induction h with
  | entry => simp at hmem
  | @step a c trail ha _ ih =>
    by_cases hin : b ∈ trail
    · obtain ⟨trail', ht, hnot, hsub⟩ := ih hin
      exact ⟨trail', ht, hnot, List.subset_cons_of_subset _ hsub⟩
    rcases List.mem_cons.1 hmem with rfl | hmem
    · exact ⟨trail, ha, hin, List.subset_cons_self ..⟩
    · exact absurd hmem hin

theorem Reachable.exists_first (h : Reachable entry edge b) :
    ∃ trail, Trail entry edge b trail ∧ b ∉ trail := by
  obtain ⟨trail, ht⟩ := h
  by_cases hin : b ∈ trail
  · obtain ⟨trail', ht', hnot, -⟩ := ht.cut hin
    exact ⟨trail', ht', hnot⟩
  · exact ⟨trail, ht, hin⟩

theorem mustPass_entry_iff : MustPass entry edge event entry ↔ event entry := by
  constructor
  · intro h
    rcases h [] .entry with h | ⟨a, ha, -⟩
    · exact h
    · simp at ha
  intro h trail _
  exact .inl h

/-- Before a node without the event of its own, the event must have been passed at
the exit of every predecessor. -/
theorem MustPass.pred (h : MustPass entry edge event b) (hb : ¬ event b)
    (hab : edge a b) : MustPass entry edge event a := by
  intro trail ht
  rcases h (a :: trail) (ht.step hab) with hb' | ⟨c, hc, hevent⟩
  · exact absurd hb' hb
  rcases List.mem_cons.1 hc with rfl | hc
  · exact .inl hevent
  · exact .inr ⟨c, hc, hevent⟩

/-- The equations of the forward analysis: at the entry only its own event counts,
elsewhere the event is passed in the node or before it on every side. -/
structure IsSolution (entry : α) (edge : α → α → Prop) (event : α → Prop) (out : α → Prop) :
    Prop where
  entry_iff : out entry ↔ event entry
  node_iff : ∀ b, Reachable entry edge b → b ≠ entry →
    (out b ↔ event b ∨ ∀ a, Reachable entry edge a → edge a b → out a)

theorem IsSolution.mustPass (h : IsSolution entry edge event out)
    (hb : out b) : MustPass entry edge event b := by
  intro trail ht
  -- by induction on the trail: without an event in `b`, its last predecessor is marked
  induction ht with
  | entry => exact .inl (h.entry_iff.1 hb)
  | @step a c trail ha hac ih =>
    by_cases hc : c = entry
    · subst hc
      exact .inl (h.entry_iff.1 hb)
    rcases (h.node_iff c ⟨_, ha.step hac⟩ hc).1 hb with hev | hpred
    · exact .inl hev
    rcases ih (hpred a ⟨_, ha⟩ hac) with hev | ⟨d, hd, hev⟩
    · exact .inr ⟨a, .head _, hev⟩
    · exact .inr ⟨d, .tail _ hd, hev⟩

/-- **A solution above the paths is the paths' answer.** -/
theorem IsSolution.iff_mustPass (h : IsSolution entry edge event out)
    (habove : ∀ b, Reachable entry edge b → MustPass entry edge event b → out b)
    (hb : Reachable entry edge b) : out b ↔ MustPass entry edge event b :=
  ⟨h.mustPass, habove b hb⟩

end

end TrustCg.Flow
