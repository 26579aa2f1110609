import Mathlib.Algebra.Order.Ring.Nat
import TrustCg.Lib.Loop

/-!
# Union-find

A forest of nodes in which the parent of a node is stored under a key of the node, so
nodes that share a key share a parent.  `find` walks to the root and then points the
nodes of the path at it; both walks are loops of `TrustCg.Loop`.

* `find_spec` : in a forest where every node has a root, `find` ends, returns the root
  and changes no root.
* `rootOf_link` : pointing one root at another moves exactly the nodes of the first.
-/

namespace TrustCg.UnionFind

open Function (update update_of_ne update_self)

variable {α κ : Type*}

/-- `r` is the root of `v`, `n` steps away. -/
inductive RootIn (key : α → κ) (parent : κ → Option α) : ℕ → α → α → Prop
  | root {v : α} : parent (key v) = none → RootIn key parent 0 v v
  | step {n : ℕ} {v w r : α} : parent (key v) = some w → RootIn key parent n w r →
      RootIn key parent (n + 1) v r

/-- `r` is the root of `v`. -/
def RootOf (key : α → κ) (parent : κ → Option α) (v r : α) : Prop :=
  ∃ n, RootIn key parent n v r

/-- Every node has a root. -/
def Rooted (key : α → κ) (parent : κ → Option α) : Prop := ∀ v, ∃ r, RootOf key parent v r

variable {key : α → κ} {parent : κ → Option α}

section

variable {r v : α} {n : ℕ}

section

variable (h : RootIn key parent n v r)
include h

theorem RootIn.parent_root : parent (key r) = none := by
  induction h with
  | root hv => exact hv
  | step _ _ ih => exact ih

theorem RootIn.unique : ∀ {m : ℕ} {r' : α}, RootIn key parent m v r' → m = n ∧ r' = r := by
  induction h with
  | root hv =>
    intro m r' h'
    cases h' with
    | root _ => exact ⟨rfl, rfl⟩
    | step hw _ => rw [hv] at hw; simp at hw
  | step hv _ ih =>
    intro m r' h'
    cases h' with
    | root hw => rw [hv] at hw; simp at hw
    | step hw hrest =>
      cases hv.symm.trans hw
      obtain ⟨rfl, rfl⟩ := ih hrest
      exact ⟨rfl, rfl⟩

theorem RootIn.ne {w : α} (hv : parent (key v) = some w) : w ≠ v := by
  rintro rfl
  cases h with
  | root hnone => rw [hnone] at hv; simp at hv
  | @step m _ u _ hu hrest =>
    cases hv.symm.trans hu
    have := (hrest.unique (.step hv hrest)).1
    omega

end

theorem RootOf.unique {r' : α} (h : RootOf key parent v r) (h' : RootOf key parent v r') :
    r' = r := by
  obtain ⟨n, h⟩ := h
  obtain ⟨m, h'⟩ := h'
  exact (h.unique h').2

theorem RootOf.parent_root (h : RootOf key parent v r) : parent (key r) = none :=
  h.choose_spec.parent_root

theorem RootOf.self (h : parent (key r) = none) : RootOf key parent r r := ⟨0, .root h⟩

theorem rooted_empty : Rooted key fun _ => none := fun _ => ⟨_, .self rfl⟩

end

section

variable [DecidableEq κ] {v r s d : α} {n : ℕ}

/-! ## Linking two roots -/

/-- Nodes of the root that is linked move to the other one, all others keep theirs. -/
theorem RootOf.link (hs : parent (key s) = none) (hd : parent (key d) = none)
    (hkey : key d ≠ key s) (h : RootOf key parent v r) :
    RootOf key (update parent (key s) (some d)) v (if key r = key s then d else r) := by
  obtain ⟨n, h⟩ := h
  induction h with
  | @root v hv =>
    by_cases hvs : key v = key s
    · rw [if_pos hvs]
      exact ⟨1, .step (by rw [hvs, update_self])
        (.root (by rw [update_of_ne hkey]; exact hd))⟩
    rw [if_neg hvs]
    exact .self (by rw [update_of_ne hvs]; exact hv)
  | @step n v w r hv _ ih =>
    have hvs : key v ≠ key s := by
      intro hvs
      rw [hvs, hs] at hv
      simp at hv
    obtain ⟨m, hm⟩ := ih
    exact ⟨m + 1, .step (by rw [update_of_ne hvs]; exact hv) hm⟩

section

variable (htotal : Rooted key parent) (hs : parent (key s) = none) (hd : parent (key d) = none)
    (hkey : key d ≠ key s)
include htotal hs hd hkey

/-- **Linking.**  The roots after a root was pointed at another one. -/
theorem rootOf_link {r' : α} :
    RootOf key (update parent (key s) (some d)) v r'
      ↔ ∃ r, RootOf key parent v r ∧ r' = if key r = key s then d else r := by
  obtain ⟨r, hr⟩ := htotal v
  refine ⟨fun h => ⟨r, hr, (hr.link hs hd hkey).unique h⟩, ?_⟩
  rintro ⟨r1, hr1, rfl⟩
  exact hr1.link hs hd hkey

theorem rooted_link : Rooted key (update parent (key s) (some d)) := by
  intro v
  obtain ⟨r, hr⟩ := htotal v
  exact ⟨_, hr.link hs hd hkey⟩

end

/-! ## Finding the root -/

theorem RootIn.compress {c root : α} {m : ℕ} (hc : RootIn key parent (m + 1) c root)
    (h : RootIn key parent n v r) :
    ∃ n' ≤ n, RootIn key (update parent (key c) (some root)) n' v r := by
  obtain ⟨next, hnext, hrest⟩ : ∃ next, parent (key c) = some next
      ∧ RootIn key parent m next root := by
    cases hc with
    | step hnext hrest => exact ⟨_, hnext, hrest⟩
  have hne : ∀ u, parent (key u) = none → key u ≠ key c := by
    intro u hu hkey
    rw [hkey, hnext] at hu
    simp at hu
  induction h with
  | @root v hv => exact ⟨0, le_rfl, .root (by rw [update_of_ne (hne v hv)]; exact hv)⟩
  | @step n v w r hv hrest' ih =>
    by_cases hkey : key v = key c
    · rw [hkey, hnext, Option.some_inj] at hv
      subst hv
      have hroot : r = root := (hrest.unique hrest').2
      subst hroot
      have hnone := hrest.parent_root
      exact ⟨1, by omega, .step (by rw [hkey, update_self])
        (.root (by rw [update_of_ne (hne r hnone)]; exact hnone))⟩
    obtain ⟨n', hle, hn'⟩ := ih
    exact ⟨n' + 1, by omega, .step (by rw [update_of_ne hkey]; exact hv) hn'⟩

variable [DecidableEq α] (key)

/-- One step of the walk to the root. -/
def findStep (parent : κ → Option α) (current : α) : Option α :=
  match parent (key current) with
  | some next => if next = current then none else some next
  | none => none

/-- One step of the path compression. -/
def compressStep (root : α) (st : (κ → Option α) × α) : Option ((κ → Option α) × α) :=
  match st.1 (key st.2) with
  | some next =>
    if next = st.2 then none else some (update st.1 (key st.2) (some root), next)
  | none => none

/-- The root of a node, and the forest after path compression. -/
def find (fuel : ℕ) (parent : κ → Option α) (v : α) : Option (α × (κ → Option α)) :=
  match Loop.run (findStep key parent) fuel v with
  | none => none
  | some root =>
    match Loop.run (compressStep key root) fuel (parent, v) with
    | none => none
    | some st => some (root, st.1)

variable {key}

omit [DecidableEq κ] in
theorem run_findStep (h : RootIn key parent n v r) :
    Loop.run (findStep key parent) (n + 1) v = some r := by
  induction h with
  | root hv => rw [Loop.run, findStep, hv]
  | @step n v w r hv hrest ih =>
    have hne := (RootIn.step hv hrest).ne hv
    rw [Loop.run, findStep, hv]
    simp only [if_neg hne]
    exact ih

theorem run_compressStep : ∀ (n : ℕ) (parent : κ → Option α) (v r : α), RootIn key parent n v r →
    ∃ fuel st, Loop.run (compressStep key r) fuel (parent, v) = some st
      ∧ ∀ u r', RootOf key parent u r' → RootOf key st.1 u r' := by
  intro n
  induction n using Nat.strong_induction_on with
  | _ n ih =>
    intro parent v r h
    cases h with
    | root hv => exact ⟨1, (parent, v), by simp only [Loop.run, compressStep, hv], fun _ _ hu => hu⟩
    | @step m _ w _ hv hrest =>
      have hfull := RootIn.step hv hrest
      obtain ⟨m', hle, hw⟩ := hfull.compress hrest
      obtain ⟨fuel, st, hrun, hkeep⟩ := ih m' (by omega) _ w r hw
      refine ⟨fuel + 1, st, ?_, ?_⟩
      · rw [Loop.run, compressStep]
        simp only [hv, if_neg (hfull.ne hv)]
        exact hrun
      rintro u r' ⟨k, hk⟩
      obtain ⟨k', -, hk'⟩ := hfull.compress hk
      exact hkeep u r' ⟨k', hk'⟩

/-- **`find` returns the root** and leaves every root where it is. -/
theorem find_spec (h : RootOf key parent v r) :
    ∃ bound parent', (∀ fuel, bound ≤ fuel → find key fuel parent v = some (r, parent'))
      ∧ ∀ u r', RootOf key parent u r' → RootOf key parent' u r' := by
  obtain ⟨n, hn⟩ := h
  obtain ⟨fuel0, st, hrun, hkeep⟩ := run_compressStep n parent v r hn
  refine ⟨max (n + 1) fuel0, st.1, ?_, hkeep⟩
  intro fuel hfuel
  have h1 := Loop.run_mono (n + 1) fuel v r (le_trans (le_max_left _ _) hfuel) (run_findStep hn)
  have h2 := Loop.run_mono fuel0 fuel (parent, v) st (le_trans (le_max_right _ _) hfuel) hrun
  simp only [find, h1, h2]

end

end TrustCg.UnionFind
