import Mathlib.Data.List.Induction
import Mathlib.Order.Basic

/-!
# Loops

A `while` loop as a step function that says when it is done.  `run` executes it
with a bound on the number of iterations and reports a run that was cut off as
`none`, so a statement about the result of a loop never holds for want of fuel.

* `run_invariant` : what every step preserves holds where the loop stops.
* `run_mono` : more fuel does not change a result, so a loop has one result.
* `run_ends` : a measure that every step lowers bounds the iterations, and the state
  the loop stops in keeps the invariant.  `run_ends_of_wf` is for other measures.
* `foldl_iff_or`, `foldl_of_split` : a loop over a list that gathers what its elements
  give, and one with an invariant of the elements that came before.
* `foldlM_spec`, `mapM_spec` : a loop over a list whose body needs fuel.
-/

namespace TrustCg.Loop

variable {σ : Type*}

/-- Run `step` until it reports the end of the loop with `none`. -/
def run (step : σ → Option σ) : ℕ → σ → Option σ
  | 0, _ => none
  | fuel + 1, s =>
    match step s with
    | none => some s
    | some s' => run step fuel s'

variable {step : σ → Option σ}

variable {Inv : σ → Prop}

/-- **Invariants.**  A property of the initial state that every step preserves
holds in the final state, where no step is left. -/
theorem run_invariant (hstep : ∀ s s', Inv s → step s = some s' → Inv s') (fuel : ℕ) (s t : σ)
    (hs : Inv s) (h : run step fuel s = some t) : Inv t ∧ step t = none := by
  induction fuel generalizing s t with
  | zero => simp [run] at h
  | succ fuel ih =>
    rw [run] at h
    cases hs' : step s with
    | none =>
      rw [hs'] at h
      obtain rfl : s = t := by simpa using h
      exact ⟨hs, hs'⟩
    | some s' =>
      rw [hs'] at h
      exact ih s' t (hstep s s' hs hs') h

theorem run_mono (fuel fuel' : ℕ) (s t : σ) (hle : fuel ≤ fuel') (h : run step fuel s = some t) :
    run step fuel' s = some t := by
  induction fuel generalizing fuel' s t with
  | zero => simp [run] at h
  | succ fuel ih =>
    obtain ⟨f, rfl⟩ : ∃ f, fuel' = f + 1 := ⟨fuel' - 1, by omega⟩
    rw [run] at h ⊢
    cases hs' : step s with
    | none => rw [hs'] at h; exact h
    | some s' =>
      rw [hs'] at h
      exact ih f s' t (by omega) h

/-- **Termination.**  If every step from a state that satisfies the invariant
lowers the measure, the loop ends within that many iterations. -/
theorem run_ends {μ : σ → ℕ} (hstep : ∀ s s', Inv s → step s = some s' → Inv s' ∧ μ s' < μ s)
    (s : σ) (hs : Inv s) :
    ∃ t, (∀ fuel, μ s < fuel → run step fuel s = some t) ∧ Inv t ∧ step t = none := by
  have hends : ∀ fuel s, Inv s → μ s < fuel → ∃ t, run step fuel s = some t := by
    intro fuel
    induction fuel with
    | zero => exact fun s _ h => absurd h (Nat.not_lt_zero _)
    | succ fuel ih =>
      intro s hs h
      rw [run]
      cases hs' : step s with
      | none => exact ⟨s, rfl⟩
      | some s' =>
        obtain ⟨hinv, hlt⟩ := hstep s s' hs hs'
        exact ih s' hinv (by omega)
  obtain ⟨t, ht⟩ := hends (μ s + 1) s hs (Nat.lt_succ_self _)
  exact ⟨t, fun fuel hfuel => run_mono _ fuel s t hfuel ht,
    run_invariant (fun s s' hi h => (hstep s s' hi h).1) _ s t hs ht⟩

theorem run_ends_of_wf {β : Type*} {r : β → β → Prop} (hwf : WellFounded r) {μ : σ → β}
    (hstep : ∀ s s', Inv s → step s = some s' → Inv s' ∧ r (μ s') (μ s)) (s : σ) (hs : Inv s) :
    ∃ bound t, (∀ fuel, bound ≤ fuel → run step fuel s = some t) ∧ Inv t ∧ step t = none := by
  have hends : ∀ (b : β) (s : σ), μ s = b → Inv s → ∃ fuel t, run step fuel s = some t := by
    intro b
    induction b using hwf.induction with
    | _ b ih =>
      intro s hb hs
      cases hs' : step s with
      | none => exact ⟨1, s, by rw [run, hs']⟩
      | some s' =>
        obtain ⟨hinv, hlt⟩ := hstep s s' hs hs'
        obtain ⟨fuel, t, ht⟩ := ih (μ s') (hb ▸ hlt) s' rfl hinv
        exact ⟨fuel + 1, t, by rw [run, hs']; exact ht⟩
  obtain ⟨bound, t, ht⟩ := hends _ s rfl hs
  exact ⟨bound, t, fun fuel hfuel => run_mono bound fuel s t hfuel ht,
    run_invariant (fun s s' hi h => (hstep s s' hi h).1) bound s t hs ht⟩

theorem foldl_iff_or {α : Type*} {f : σ → α → σ} {P : σ → Prop} {Q : α → Prop}
    (hf : ∀ s a, P (f s a) ↔ P s ∨ Q a) (l : List α) (s : σ) :
    P (l.foldl f s) ↔ P s ∨ ∃ a ∈ l, Q a := by
  induction l generalizing s with
  | nil => simp
  | cons a l ih => simp [ih, hf, or_assoc]

/-- A loop over a list, by what one round does after each part of it. -/
theorem foldl_of_split {α : Type*} {l : List α} {f : σ → α → σ} {s : σ} {Inv : List α → σ → Prop}
    (hinit : Inv [] s) (hf : ∀ done a rest, l = done ++ a :: rest → Inv done (done.foldl f s) →
      Inv (done ++ [a]) (f (done.foldl f s) a)) : Inv l (l.foldl f s) := by
  have hrun : ∀ done rest, l = done ++ rest → Inv done (done.foldl f s) := by
    intro done
    induction done using List.reverseRecOn with
    | nil => exact fun _ _ => hinit
    | append_singleton done a ih =>
      intro rest hl
      rw [List.append_assoc] at hl
      rw [List.foldl_append]
      exact hf done a rest hl (ih _ hl)
  exact hrun l [] (List.append_nil l).symm

section

variable {α : Type*} (body : ℕ → σ → α → Option σ) (Inv : List α → σ → Prop)

/-- **Loops over a list.**  If the body ends from every state that satisfies the invariant
of the elements before it, the loop ends and its result satisfies that of the whole list. -/
theorem foldlM_prefix (l : List α) :
    ∀ (rest done : List α) (s : σ), l = done ++ rest →
      (∀ done a rest s, l = done ++ a :: rest → Inv done s →
        ∃ bound s', (∀ fuel, bound ≤ fuel → body fuel s a = some s') ∧ Inv (done ++ [a]) s') →
      Inv done s →
      ∃ bound s', (∀ fuel, bound ≤ fuel → rest.foldlM (body fuel) s = some s') ∧ Inv l s' := by
  intro rest
  induction rest with
  | nil =>
    intro done s hl _ hs
    rw [List.append_nil] at hl
    exact ⟨0, s, fun fuel _ => rfl, hl ▸ hs⟩
  | cons a rest ih =>
    intro done s hl hbody hs
    obtain ⟨b1, s1, hrun1, hinv1⟩ := hbody done a rest s hl hs
    obtain ⟨b2, s2, hrun2, hinv2⟩ := ih (done ++ [a]) s1 (by simpa using hl) hbody hinv1
    refine ⟨max b1 b2, s2, fun fuel hfuel => ?_, hinv2⟩
    rw [List.foldlM_cons, hrun1 fuel (by omega)]
    exact hrun2 fuel (by omega)

/-- The same, where the body does not look at what comes before the element. -/
theorem foldlM_spec (l done : List α) (s : σ) (hbody : ∀ done s a, a ∈ l → Inv done s →
      ∃ bound s', (∀ fuel, bound ≤ fuel → body fuel s a = some s') ∧ Inv (done ++ [a]) s')
    (hs : Inv done s) :
    ∃ bound s', (∀ fuel, bound ≤ fuel → l.foldlM (body fuel) s = some s')
      ∧ Inv (done ++ l) s' := by
  refine foldlM_prefix body (fun pre s => Inv (done ++ pre) s) l l [] s rfl ?_
    (by rwa [List.append_nil])
  intro pre a rest s hl hinv
  obtain ⟨bound, s', hrun, hinv'⟩ := hbody _ s a (by simp [hl]) hinv
  exact ⟨bound, s', hrun, by rwa [← List.append_assoc]⟩

end

/-- A map over a list whose body ends within one bound on every element. -/
theorem mapM_spec {α β : Type*} (body : ℕ → α → Option β) {P : α → β → Prop} {bound : ℕ}
    (l : List α) (hbody : ∀ a ∈ l, ∃ r, (∀ fuel, bound ≤ fuel → body fuel a = some r) ∧ P a r) :
    ∃ rs : List β, (∀ fuel, bound ≤ fuel → l.mapM (body fuel) = some rs)
      ∧ rs.length = l.length ∧ ∀ (p : ℕ) a r, l[p]? = some a → rs[p]? = some r → P a r := by
  induction l with
  | nil => exact ⟨[], fun _ _ => rfl, rfl, by simp⟩
  | cons a l ih =>
    obtain ⟨r, hr, hP⟩ := hbody a (.head _)
    obtain ⟨rs, hrs, hlen, hall⟩ := ih fun b hb => hbody b (.tail _ hb)
    refine ⟨r :: rs, fun fuel hfuel => ?_, by simp [hlen], ?_⟩
    · rw [List.mapM_cons, hr fuel hfuel, hrs fuel hfuel]
      rfl
    intro p b t hb ht
    cases p with
    | zero =>
      obtain rfl : a = b := by simpa using hb
      obtain rfl : r = t := by simpa using ht
      exact hP
    | succ p => exact hall p b t (by simpa using hb) (by simpa using ht)

end TrustCg.Loop
