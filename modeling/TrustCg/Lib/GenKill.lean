import TrustCg.Lib.Flow

/-!
# Facts that flow along the edges of a graph

The forward "may" analyses of a compiler: a fact holds on entry to a node because it
is seeded there, because a predecessor generates it, or because it held on entry to a
predecessor that does not kill it.  `Flows` is that least solution, as an inductive
relation, for any graph and any type of facts.

* `flows_iff_of_solution` : a solution of the equations whose every member flows is
  the relation.
* `flows_iff_of_cover` : two analyses over the same graph, one of which names a fact of
  the other by one of several of its own, have the same answer.
-/

namespace TrustCg.GenKill

variable {α ι κ : Type*}

/-- The fact holds on some path on entry to the node. -/
inductive Flows (edge : α → α → Prop) (seed gen kill : α → ι → Prop) : α → ι → Prop
  /-- it holds from the start -/
  | seed {b : α} {i : ι} : seed b i → Flows edge seed gen kill b i
  /-- the last node on the way generates it -/
  | gen {a b : α} {i : ι} : edge a b → gen a i → Flows edge seed gen kill b i
  /-- the last node on the way does not kill it -/
  | pass {a b : α} {i : ι} : edge a b → Flows edge seed gen kill a i → ¬ kill a i →
      Flows edge seed gen kill b i

variable {edge : α → α → Prop} {seed gen kill : α → ι → Prop}

/-- **A solution that is not above the flow is the flow.**  `P` are the nodes the solution is
about; edges lead from such nodes to such nodes. -/
theorem flows_iff_of_solution (P : α → Prop) (out : α → ι → Prop) (hedge : ∀ a b, edge a b → P a)
    (hclosed : ∀ b i, P b → (seed b i ∨ ∃ a, edge a b ∧ (gen a i ∨ out a i ∧ ¬ kill a i)) → out b i)
    (hsound : ∀ b i, P b → out b i → Flows edge seed gen kill b i) {b : α} {i : ι} (hb : P b) :
    Flows edge seed gen kill b i ↔ out b i := by
  constructor
  · intro h
    induction h with
    | seed hs => exact hclosed _ _ hb (.inl hs)
    | gen hab hg => exact hclosed _ _ hb (.inr ⟨_, hab, .inl hg⟩)
    | pass hab _ hk ih => exact hclosed _ _ hb (.inr ⟨_, hab, .inr ⟨ih (hedge _ _ hab), hk⟩⟩)
  · exact hsound b i hb

/-- **Two namings of the same facts.**  Where the facts `i` with `C i` are names, by `name`, for
the facts of a second analysis, that analysis finds a fact exactly where the first finds one of
its names. -/
theorem flows_iff_of_cover {seed' gen' kill' : α → κ → Prop} {C : ι → Prop} (name : ι → κ)
    (hseed : ∀ b s, seed' b s ↔ ∃ i, C i ∧ name i = s ∧ seed b i)
    (hgen : ∀ a b s, edge a b → (gen' a s ↔ ∃ i, C i ∧ name i = s ∧ gen a i))
    (hkill : ∀ a b i, edge a b → C i → (kill' a (name i) ↔ kill a i)) {b : α} {s : κ} :
    Flows edge seed' gen' kill' b s ↔ ∃ i, C i ∧ name i = s ∧ Flows edge seed gen kill b i := by
  constructor
  · intro h
    induction h with
    | seed hs =>
      obtain ⟨i, hC, hname, hs⟩ := (hseed _ _).1 hs
      exact ⟨i, hC, hname, .seed hs⟩
    | gen hab hg =>
      obtain ⟨i, hC, hname, hg⟩ := (hgen _ _ _ hab).1 hg
      exact ⟨i, hC, hname, .gen hab hg⟩
    | pass hab _ hk ih =>
      obtain ⟨i, hC, hname, hi⟩ := ih
      subst hname
      exact ⟨i, hC, rfl, .pass hab hi fun h => hk ((hkill _ _ i hab hC).2 h)⟩
  rintro ⟨i, hC, rfl, h⟩
  induction h with
  | seed hs => exact .seed ((hseed _ _).2 ⟨_, hC, rfl, hs⟩)
  | gen hab hg => exact .gen hab ((hgen _ _ _ hab).2 ⟨_, hC, rfl, hg⟩)
  | pass hab _ hk ih => exact .pass hab (ih hC) fun h => hk ((hkill _ _ _ hab hC).1 h)

end TrustCg.GenKill
