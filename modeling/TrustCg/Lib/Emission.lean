import Mathlib.Data.Nat.Notation

/-!
# Emitting code over fresh registers

A code generator that appends instructions and numbers its registers upwards.  `Delivers`
is a precondition for such a generator: run from a state of the target machine, the code it
appends is valid, leaves every register in place that was numbered before, and ends in a
state that satisfies a postcondition on the result, the next free number and the machine.

* `Delivers.bind`, `Delivers.pure`, `Delivers.run` : the rules for sequences, results and
  basic generators.
* `Delivers.mono`, `Delivers.map` : a weaker postcondition, a function of the result.
-/

namespace TrustCg.Emission

variable {I S V α β : Type}

/-- What has been emitted: the next unused register and the code. -/
structure Builder (I : Type) where
  next : ℕ
  code : List I

/-- A generator of code. -/
abbrev Emit (I : Type) := StateM (Builder I)

/-- A register that was not used before. -/
def fresh : Emit I ℕ := fun b => (b.next, { b with next := b.next + 1 })

/-- Append an instruction. -/
def push (i : I) : Emit I Unit := fun b => ((), { b with code := b.code ++ [i] })

/-- Append several instructions. -/
def pushAll (code : List I) : Emit I Unit := fun b => ((), { b with code := b.code ++ code })

/-- The machine the code runs on, and the instructions it has an encoding for. -/
structure Target (I S V : Type) where
  step : I → S → S
  reg : S → ℕ → V
  valid : I → Prop

variable (T : Target I S V)

/-- A straight-line run. -/
def Target.exec (code : List I) (s : S) : S :=
  code.foldl (fun s i => T.step i s) s

@[simp] theorem Target.exec_nil (s : S) : T.exec [] s = s := rfl

@[simp] theorem Target.exec_cons (i : I) (code : List I) (s : S) :
    T.exec (i :: code) s = T.exec code (T.step i s) := rfl

theorem Target.exec_append (front back : List I) (s : S) :
    T.exec (front ++ back) s = T.exec back (T.exec front s) :=
  List.foldl_append

/-- The code that `act` appends is valid, keeps the registers below `next` and leads from `s`
to a state with the postcondition. -/
def Delivers (act : Emit I α) (next : ℕ) (s : S) (Q : α → ℕ → S → Prop) : Prop :=
  ∀ code, ∃ new, (act ⟨next, code⟩).2.code = code ++ new
    ∧ (∀ i ∈ new, T.valid i)
    ∧ next ≤ (act ⟨next, code⟩).2.next
    ∧ (∀ r < next, T.reg (T.exec new s) r = T.reg s r)
    ∧ Q (act ⟨next, code⟩).1 (act ⟨next, code⟩).2.next (T.exec new s)

section

variable {T : Target I S V} {next : ℕ} {s : S} {Q : α → ℕ → S → Prop} {act : Emit I α}
  {R : β → ℕ → S → Prop}

theorem Delivers.mono {R : α → ℕ → S → Prop} (h : Delivers T act next s Q)
    (hQR : ∀ a n t, Q a n t → R a n t) : Delivers T act next s R := by
  intro code
  obtain ⟨new, hcode, hvalid, hnext, hkeep, hQ⟩ := h code
  exact ⟨new, hcode, hvalid, hnext, hkeep, hQR _ _ _ hQ⟩

theorem Delivers.pure {a : α} (h : Q a next s) : Delivers T (Pure.pure a) next s Q :=
  fun code => ⟨[], (List.append_nil code).symm, List.forall_mem_nil _, Nat.le_refl next,
    fun _ _ => rfl, h⟩

/-- **Sequencing.**  The second generator runs from the state the first one leaves, with
more registers in use. -/
theorem Delivers.bind {k : α → Emit I β} (h : Delivers T act next s Q)
    (hk : ∀ a n t, next ≤ n → (∀ r < next, T.reg t r = T.reg s r) → Q a n t →
      Delivers T (k a) n t R) : Delivers T (act >>= k) next s R := by
  intro code
  obtain ⟨new, hcode, hvalid, hnext, hkeep, hQ⟩ := h code
  obtain ⟨new', hcode', hvalid', hnext', hkeep', hR⟩ := hk _ _ _ hnext hkeep hQ (code ++ new)
  have hrun : (act >>= k) ⟨next, code⟩
      = k (act ⟨next, code⟩).1 ⟨(act ⟨next, code⟩).2.next, code ++ new⟩ := by
    rw [← hcode]
    rfl
  refine ⟨new ++ new', ?_, List.forall_mem_append.mpr ⟨hvalid, hvalid'⟩, ?_, fun r hr => ?_, ?_⟩
  · rw [hrun, hcode', List.append_assoc]
  · rw [hrun]
    exact Nat.le_trans hnext hnext'
  · rw [Target.exec_append, hkeep' r (Nat.lt_of_lt_of_le hr hnext), hkeep r hr]
  rw [hrun, Target.exec_append]
  exact hR

theorem Delivers.map {f : α → β} (h : Delivers T act next s Q)
    (hQR : ∀ a n t, Q a n t → R (f a) n t) : Delivers T (f <$> act) next s R := by
  intro code
  obtain ⟨new, hcode, hvalid, hnext, hkeep, hQ⟩ := h code
  exact ⟨new, hcode, hvalid, hnext, hkeep, hQR _ _ _ hQ⟩

/-- **A run.**  A generator that is known to append `new` and to return `a`. -/
theorem Delivers.run (a : α) {n : ℕ} (new : List I)
    (hrun : ∀ code, act ⟨next, code⟩ = (a, ⟨n, code ++ new⟩)) (hvalid : ∀ i ∈ new, T.valid i)
    (hn : next ≤ n) (hkeep : ∀ r < next, T.reg (T.exec new s) r = T.reg s r)
    (h : Q a n (T.exec new s)) : Delivers T act next s Q := by
  intro code
  rw [hrun code]
  exact ⟨new, rfl, hvalid, hn, hkeep, h⟩

end

end TrustCg.Emission
