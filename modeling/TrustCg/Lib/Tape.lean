import Mathlib.Data.List.Basic

/-!
# Straight-line tapes with shared operations

A tape is a list of operations; each is evaluated on the values of those before it.  While
a tape is built, a table gives the slot of an operation that is already there, so equal
operations share a slot.

* `Tape` : a tape with its table; every entry of the table is right.
* `Tape.push` : the slot of an operation, new or shared.
* `Tape.Computes` : the slot of a longer tape holds a value, earlier values are kept.
* `Tape.push_computes` : pushing an operation computes its value.
-/

namespace TrustCg

open List Option

namespace Tape

section
variable {O V : Type*}

/-- The values of the operations, front to back, behind those of earlier ones. -/
def run (eval : List V → O → Option V) : List O → List V → Option (List V)
  | [], scratch => some scratch
  | op :: ops, scratch => (eval scratch op).bind fun v => run eval ops (scratch ++ [v])

variable {eval : List V → O → Option V} {ops ops' : List O} {scratch scratch' : List V} {v : V}

theorem run_append :
    run eval (ops ++ ops') scratch = (run eval ops scratch).bind (run eval ops') := by
  induction ops generalizing scratch with
  | nil => rfl
  | cons op ops ih =>
    rw [cons_append, run, run, bind_assoc]
    congr 1
    funext v
    exact ih

theorem run_length (h : run eval ops scratch = some scratch') :
    scratch'.length = scratch.length + ops.length := by
  induction ops generalizing scratch with
  | nil =>
    rw [run, Option.some.injEq] at h
    simp [h]
  | cons op ops ih =>
    rw [run, bind_eq_some_iff] at h
    obtain ⟨v, -, hrest⟩ := h
    rw [ih hrest, length_append, length_singleton, length_cons]
    omega

/-- Values once computed stay: a longer list of values gives an operation the same. -/
def Monotone (eval : List V → O → Option V) : Prop :=
  ∀ scratch extra op v, eval scratch op = some v → eval (scratch ++ extra) op = some v

theorem run_extends (h : run eval ops scratch = some scratch') :
    ∃ extra, scratch' = scratch ++ extra := by
  induction ops generalizing scratch with
  | nil =>
    rw [run, Option.some.injEq] at h
    exact ⟨[], by simp [h]⟩
  | cons op ops ih =>
    rw [run, bind_eq_some_iff] at h
    obtain ⟨v, -, hrest⟩ := h
    obtain ⟨extra, hextra⟩ := ih hrest
    exact ⟨v :: extra, by simp [hextra]⟩

theorem eval_of_getElem? (hmono : Monotone eval) (h : run eval ops [] = some scratch) {i : ℕ}
    {op : O} (hi : ops[i]? = some op) : ∃ v, scratch[i]? = some v ∧ eval scratch op = some v := by
  obtain ⟨hlt, hget⟩ := List.getElem?_eq_some_iff.1 hi
  have hsplit : ops = ops.take i ++ op :: ops.drop (i + 1) := by
    rw [← hget, getElem_cons_drop, take_append_drop]
  rw [hsplit, run_append, bind_eq_some_iff] at h
  obtain ⟨before, hbefore, hrest⟩ := h
  rw [run, bind_eq_some_iff] at hrest
  obtain ⟨v, hv, hafter⟩ := hrest
  obtain ⟨extra, rfl⟩ := run_extends hafter
  have hlen : before.length = i := by
    rw [run_length hbefore, length_nil, length_take]
    omega
  refine ⟨v, ?_, ?_⟩
  · simp [← hlen]
  rw [append_assoc]
  exact hmono _ _ _ _ hv

theorem getElem?_append_some {i : ℕ} (extra : List V) (h : scratch[i]? = some v) :
    (scratch ++ extra)[i]? = some v := by
  obtain ⟨hlt, -⟩ := List.getElem?_eq_some_iff.1 h
  rwa [getElem?_append_left hlt]

end

end Tape

/-- A tape and the slots of its operations. -/
structure Tape (O : Type*) [DecidableEq O] where
  ops : List O
  dedup : List (O × ℕ)
  found : ∀ op i, dedup.lookup op = some i → ops[i]? = some op

namespace Tape

variable {O V : Type*} [DecidableEq O]

/-- No operations. -/
def empty : Tape O := ⟨[], [], fun _ _ h => by cases h⟩

theorem found_append (t : Tape O) (op : O) :
    ∀ op' i, ((op, t.ops.length) :: t.dedup).lookup op' = some i →
      (t.ops ++ [op])[i]? = some op' := by
  intro op' i h
  rw [lookup_cons] at h
  by_cases heq : op' = op
  · subst heq
    simp only [beq_self_eq_true, Option.some.injEq] at h
    simp [← h]
  simp only [beq_eq_false_iff_ne.2 heq] at h
  have hi := t.found op' i h
  obtain ⟨hlt, -⟩ := List.getElem?_eq_some_iff.1 hi
  rwa [getElem?_append_left hlt]

/-- The slot of an operation, which is added if it is new. -/
def push (t : Tape O) (op : O) : ℕ × Tape O :=
  match t.dedup.lookup op with
  | some i => (i, t)
  | none => (t.ops.length, ⟨t.ops ++ [op], (op, t.ops.length) :: t.dedup, t.found_append op⟩)

variable {eval : List V → O → Option V} {scratch : List V} {v : V}

/-- The longer tape runs, keeps the earlier values and has `v` in the slot. -/
def Computes (eval : List V → O → Option V) (scratch : List V) (r : ℕ × Tape O) (v : V) : Prop :=
  ∃ extra, run eval r.2.ops [] = some (scratch ++ extra) ∧ (scratch ++ extra)[r.1]? = some v

theorem push_computes (hmono : Monotone eval) {t : Tape O} (h : run eval t.ops [] = some scratch)
    {op : O} (hv : eval scratch op = some v) : Computes eval scratch (t.push op) v := by
  rw [push]
  cases hlook : t.dedup.lookup op with
  | some i =>
    -- a shared slot: what it holds is the value of the same operation
    obtain ⟨u, hu, heval⟩ := eval_of_getElem? hmono h (t.found op i hlook)
    rw [heval, Option.some.injEq] at hv
    exact ⟨[], by simpa using h, by simpa [hv] using hu⟩
  | none =>
    refine ⟨[v], ?_, ?_⟩
    · rw [run_append, h, bind_some, run, hv]
      rfl
    have hlen := run_length h
    rw [length_nil, Nat.zero_add] at hlen
    simp [← hlen]

theorem Computes.trans {extra : List V} {r : ℕ × Tape O}
    (h : Computes eval (scratch ++ extra) r v) : Computes eval scratch r v := by
  obtain ⟨more, hrun, hv⟩ := h
  exact ⟨extra ++ more, by rwa [← append_assoc], by rwa [← append_assoc]⟩

end Tape

end TrustCg
