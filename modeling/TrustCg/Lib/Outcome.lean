import Mathlib.Data.List.Basic

/-!
# Computations that may fail

Rules for reading a successful computation backwards.

* `bind_eq_ok`, `mapError_eq_ok`, `forM_eq_ok` : what a successful sequence went through.
* `foldlM_invariant` : a property of the elements done so far that every successful
  iteration extends holds of the whole list when the loop succeeds.
* `mapM_map_eq_some` : a map that succeeds on every element.
-/

namespace TrustCg.Outcome

universe u

variable {ε ε' : Type*} {α β σ : Type u}

variable {x : Except ε α}

theorem bind_eq_ok {f : α → Except ε β} {r : β} :
    (x >>= f) = .ok r ↔ ∃ a, x = .ok a ∧ f a = .ok r := by
  cases x with
  | error e => simp [bind, Except.bind]
  | ok a => simp [bind, Except.bind]

theorem mapError_eq_ok {g : ε → ε'} {a : α} : x.mapError g = .ok a ↔ x = .ok a := by
  cases x with
  | error e => simp [Except.mapError]
  | ok b => simp [Except.mapError]

theorem forM_eq_ok {f : α → Except ε PUnit} {l : List α} :
    l.forM f = .ok ⟨⟩ ↔ ∀ a ∈ l, f a = .ok ⟨⟩ := by
  induction l with
  | nil => simp [pure, Except.pure]
  | cons a l ih =>
    rw [List.forM_eq_forM, List.forM_cons, bind_eq_ok, List.forall_mem_cons, ← ih]
    exact ⟨fun ⟨_, ha, hl⟩ => ⟨ha, hl⟩, fun h => ⟨_, h⟩⟩

variable {body : σ → α → Except ε σ} {Inv : List α → σ → Prop}

variable {l : List α}

theorem foldlM_invariant_from
    (hstep : ∀ done a rest s s', l = done ++ a :: rest → Inv done s → body s a = .ok s' →
      Inv (done ++ [a]) s') :
    ∀ (rest done : List α) (s s' : σ), l = done ++ rest → Inv done s →
      rest.foldlM body s = .ok s' → Inv l s' := by
  intro rest
  induction rest with
  | nil =>
    intro done s s' hl hs h
    rw [List.append_nil] at hl
    obtain rfl : s = s' := by simpa [pure, Except.pure] using h
    rwa [hl]
  | cons a rest ih =>
    intro done s s' hl hs h
    rw [List.foldlM_cons] at h
    obtain ⟨t, ht, hrest⟩ := bind_eq_ok.mp h
    exact ih (done ++ [a]) t s' (by simpa using hl) (hstep done a rest s t hl hs ht) hrest

/-- **Loops that may fail.** -/
theorem foldlM_invariant (Inv : List α → σ → Prop) {s s' : σ}
    (hstep : ∀ done a rest s s', l = done ++ a :: rest → Inv done s → body s a = .ok s' →
      Inv (done ++ [a]) s') (hs : Inv [] s) (h : l.foldlM body s = .ok s') : Inv l s' :=
  foldlM_invariant_from hstep l [] s s' rfl hs h

theorem mapM_map_eq_some {f : β → Option σ} {g : α → β} {k : α → σ} (l : List α)
    (h : ∀ a ∈ l, f (g a) = some (k a)) : (l.map g).mapM f = some (l.map k) := by
  induction l with
  | nil => rfl
  | cons a l ih =>
    rw [List.map_cons, List.mapM_cons, h a List.mem_cons_self, ih fun b hb => h b (.tail _ hb)]
    rfl

end TrustCg.Outcome
