import Mathlib.Algebra.Order.Ring.Nat
import Mathlib.Data.List.Nodup

/-!
# Parallel copies

A parallel copy assigns to several registers at once: all sources are read before any
destination is written.  `resolve` turns one into a sequence of single copies.  It emits
a copy as soon as its destination is not the source of another one, and when every
destination still is, it saves one destination in a temporary register and goes on.

The invariant of all the loops is one equation: the copies emitted so far, followed by
the remaining ones in parallel, are the original parallel copy (`Resolves`).

* `Resolves.emit`, `Resolves.breakCycle` : the two steps keep the equation.
* `resolve_spec` : the sequence has the effect of the parallel copy on all registers but
  the temporaries.
* `resolveLoop_ends` : the loop ends, after at most as many rounds as there are copies.
-/

namespace TrustCg.ParallelCopy

open Function (update update_of_ne update_self)
open List
open Prod (fst)

section

variable {ρ : Type*} [DecidableEq ρ] {α : Type*} {tmp : ℕ → ρ → ρ}

/-- All sources are read, then all destinations written. -/
def parCopy (moves : List (ρ × ρ)) (regs : ρ → α) (v : ρ) : α :=
  match moves.find? fun move => move.1 == v with
  | some move => regs move.2
  | none => regs v

/-- One copy after the other. -/
def seqCopy (moves : List (ρ × ρ)) (regs : ρ → α) : ρ → α :=
  moves.foldl (fun regs move => update regs move.1 (regs move.2)) regs

/-! ## Resolution -/

/-- One pass over the remaining copies.  Those already passed by are in `kept`. -/
def emitPass (kept : List (ρ × ρ)) : List (ρ × ρ) → List (ρ × ρ) → List (ρ × ρ) × List (ρ × ρ)
  | [], result => (kept, result)
  | move :: rest, result =>
    if (kept ++ rest).any fun other => other.2 == move.1 then
      emitPass (kept ++ [move]) rest result
    else emitPass kept rest (result ++ [move])

/-- The variables of the outer loop; `next` numbers the temporaries. -/
structure State (ρ : Type*) where
  remaining : List (ρ × ρ)
  result : List (ρ × ρ)
  next : ℕ

/-- One round of the outer loop: a pass, and if it emitted nothing, a cycle is broken. -/
def resolveStep (tmp : ℕ → ρ → ρ) (s : State ρ) : State ρ :=
  let passed := emitPass [] s.remaining s.result
  if passed.1.length < s.remaining.length then { s with remaining := passed.1, result := passed.2 }
  else
    match s.remaining with
    | [] => s
    | (dst, src) :: rest =>
      { remaining := rest.map fun move =>
          if move.2 = dst then (move.1, tmp s.next dst) else move
        result := s.result ++ [(tmp s.next dst, dst), (dst, src)]
        next := s.next + 1 }

/-- The outer loop; every round disposes of a copy. -/
def resolveLoop (tmp : ℕ → ρ → ρ) : ℕ → State ρ → State ρ
  | 0, s => s
  | rounds + 1, s => if s.remaining = [] then s else resolveLoop tmp rounds (resolveStep tmp s)

/-- The sequence for a parallel copy, and the next free number. -/
def resolve (tmp : ℕ → ρ → ρ) (next : ℕ) (moves : List (ρ × ρ)) : List (ρ × ρ) × ℕ :=
  let start : State ρ := ⟨moves.filter fun move => move.1 != move.2, [], next⟩
  let final := resolveLoop tmp start.remaining.length start
  (final.result, final.next)

/-! ## What parallel and sequential copies compute -/

variable {moves : List (ρ × ρ)} {regs : ρ → α} {v : ρ}

theorem parCopy_of_notMem (h : v ∉ moves.map fst) : parCopy moves regs v = regs v := by
  have hnone : moves.find? (fun move => move.1 == v) = none := by
    rw [find?_eq_none]
    intro move hmove heq
    exact h (mem_map.2 ⟨move, hmove, by simpa using heq⟩)
  rw [parCopy, hnone]

theorem parCopy_of_mem (hnodup : (moves.map fst).Nodup) {d s : ρ} (h : (d, s) ∈ moves) :
    parCopy moves regs d = regs s := by
  cases hfind : moves.find? fun move => move.1 == d with
  | none =>
    rw [find?_eq_none] at hfind
    exact absurd (beq_self_eq_true d) (hfind _ h)
  | some move =>
    have hmem := mem_of_find?_eq_some hfind
    have hfst : move.1 = d := by simpa using find?_some hfind
    have heq : move = (d, s) := inj_on_of_nodup_map hnodup hmem h hfst
    rw [parCopy, hfind, heq]

@[simp]
theorem parCopy_nil : parCopy [] regs v = regs v := rfl

theorem seqCopy_append (moves more : List (ρ × ρ)) :
    seqCopy (moves ++ more) regs = seqCopy more (seqCopy moves regs) := foldl_append ..

theorem seqCopy_of_notMem (h : v ∉ moves.map fst) : seqCopy moves regs v = regs v := by
  induction moves generalizing regs with
  | nil => rfl
  | cons move moves ih =>
    rw [map_cons, mem_cons, not_or] at h
    exact (ih h.2).trans (Function.update_of_ne h.1 ..)

section

variable (hnodup : (moves.map fst).Nodup)
include hnodup

/-- Two parallel copies with distinct destinations have the same effect on a register if
they copy the same value to it or both leave it alone. -/
theorem parCopy_congr {moves' : List (ρ × ρ)} {regs' : ρ → α} (hnodup' : (moves'.map fst).Nodup)
    (hmem : ∀ s, (v, s) ∈ moves → (∃ s', (v, s') ∈ moves' ∧ regs' s' = regs s)
      ∨ (v ∉ moves'.map fst ∧ regs' v = regs s))
    (hout : v ∉ moves.map fst → v ∉ moves'.map fst ∧ regs' v = regs v) :
    parCopy moves' regs' v = parCopy moves regs v := by
  by_cases hv : v ∈ moves.map fst
  · obtain ⟨⟨d, s⟩, hds, rfl⟩ := mem_map.1 hv
    rw [parCopy_of_mem hnodup hds]
    rcases hmem s hds with ⟨s', hs', heq⟩ | ⟨hnot, heq⟩
    · rw [parCopy_of_mem hnodup' hs', heq]
    · rw [parCopy_of_notMem hnot, heq]
  obtain ⟨hnot, heq⟩ := hout hv
  rw [parCopy_of_notMem hv, parCopy_of_notMem hnot, heq]

theorem parCopy_filter :
    parCopy (moves.filter fun move => move.1 != move.2) regs v = parCopy moves regs v := by
  have hsub : (moves.filter fun move => move.1 != move.2).Sublist moves := filter_sublist
  refine parCopy_congr hnodup ((hsub.map fst).nodup hnodup) ?_ ?_
  · intro s hs
    by_cases hvs : v = s
    · refine .inr ⟨?_, by rw [hvs]⟩
      intro hmem
      obtain ⟨move, hm, hfst⟩ := mem_map.1 hmem
      have heq := inj_on_of_nodup_map hnodup (hsub.subset hm) hs hfst
      have := (mem_filter.1 hm).2
      rw [heq] at this
      simp [hvs] at this
    · exact .inl ⟨s, mem_filter.2 ⟨hs, by simpa using hvs⟩, rfl⟩
  intro hout
  exact ⟨fun hmem => hout ((hsub.map fst).subset hmem), rfl⟩

/-- A parallel copy commutes with a write to registers that it neither reads nor writes. -/
theorem parCopy_comm (written : ρ → Prop) (before : ρ → α) {after : ρ → α}
    (hclear : ∀ move ∈ moves, ¬written move.1 ∧ ¬written move.2)
    (hafter : ∀ v, ¬written v → after v = before v)
    (hregs : ∀ v, ¬written v → regs v = parCopy moves before v)
    (hsame : ∀ v, written v → regs v = after v) : regs v = parCopy moves after v := by
  by_cases hv : v ∈ moves.map fst
  · obtain ⟨⟨d, s⟩, hds, rfl⟩ := mem_map.1 hv
    obtain ⟨hd, hs⟩ := hclear _ hds
    rw [hregs _ hd, parCopy_of_mem hnodup hds, parCopy_of_mem hnodup hds, hafter _ hs]
  rw [parCopy_of_notMem hv]
  by_cases hw : written v
  · exact hsame v hw
  · rw [hregs v hw, parCopy_of_notMem hv, hafter v hw]

end

/-! ## The equation -/

/-- **What the loops preserve.**  The copies emitted, followed by the remaining ones in
parallel, are the parallel copy, on the registers below `bound`; the remaining
destinations are distinct and below `bound`, and no register from `next` on is in use. -/
structure Resolves (rank : ρ → ℕ) (bound : ℕ) (moves : List (ρ × ρ)) (regs : ρ → α)
    (remaining result : List (ρ × ρ)) (next : ℕ) : Prop where
  nodup : (remaining.map fst).Nodup
  dests : ∀ move ∈ remaining, rank move.1 < bound
  sources : ∀ move ∈ remaining, rank move.2 < next
  fresh : bound ≤ next
  effect : ∀ v, rank v < bound → parCopy remaining (seqCopy result regs) v = parCopy moves regs v

variable {rank : ρ → ℕ} {bound next : ℕ} {remaining result kept rest : List (ρ × ρ)} {move : ρ × ρ}

/-- A copy whose destination is not the source of another one can go first. -/
theorem Resolves.emit (h : Resolves rank bound moves regs (kept ++ move :: rest) result next)
    (hfree : ∀ other ∈ kept ++ rest, other.2 ≠ move.1) :
    Resolves rank bound moves regs (kept ++ rest) (result ++ [move]) next := by
  have hperm : (kept ++ move :: rest).Perm (move :: (kept ++ rest)) := perm_middle
  have hnodup : (move.1 :: (kept ++ rest).map fst).Nodup := by
    have := (hperm.map fst).nodup_iff.1 h.nodup
    rwa [map_cons] at this
  obtain ⟨hnew, hnodup'⟩ := nodup_cons.1 hnodup
  have hsub : ∀ other ∈ kept ++ rest, other ∈ kept ++ move :: rest := fun other ho =>
    hperm.mem_iff.2 (.tail _ ho)
  refine ⟨hnodup', fun other ho => h.dests other (hsub other ho),
    fun other ho => h.sources other (hsub other ho), h.fresh, ?_⟩
  intro v hv
  rw [← h.effect v hv, seqCopy_append]
  refine parCopy_congr h.nodup hnodup' ?_ ?_
  · intro s hs
    rcases mem_cons.1 (hperm.mem_iff.1 hs) with rfl | hs
    · exact .inr ⟨hnew, update_self ..⟩
    · exact .inl ⟨s, hs, update_of_ne (hfree _ hs) ..⟩
  intro hout
  have hout' : v ∉ (move :: (kept ++ rest)).map fst := fun hmem =>
    hout ((hperm.map fst).mem_iff.2 hmem)
  rw [map_cons, mem_cons, not_or] at hout'
  exact ⟨hout'.2, update_of_ne hout'.1 ..⟩

/-- When a destination is saved in a fresh register, its copy can go first. -/
theorem Resolves.breakCycle (hrank : ∀ n d, rank (tmp n d) = n) {dst src : ρ}
    (h : Resolves rank bound moves regs ((dst, src) :: rest) result next) :
    Resolves rank bound moves regs
      (rest.map fun move => if move.2 = dst then (move.1, tmp next dst) else move)
      (result ++ [(tmp next dst, dst), (dst, src)]) (next + 1) := by
  obtain ⟨hdst, hdests⟩ := forall_mem_cons.1 h.dests
  obtain ⟨hsrc, hsources⟩ := forall_mem_cons.1 h.sources
  obtain ⟨hnew, hnodup⟩ := nodup_cons.1 h.nodup
  have hfresh := h.fresh
  have htmp : ∀ v, rank v < next → v ≠ tmp next dst := by
    rintro v hv rfl
    rw [hrank] at hv
    exact lt_irrefl _ hv
  have hfst : (rest.map fun move => if move.2 = dst then (move.1, tmp next dst) else move).map
      fst = rest.map fst := by
    rw [map_map]
    refine map_congr_left fun move _ => ?_
    simp only [Function.comp]
    split <;> rfl
  refine ⟨by rw [hfst]; exact hnodup, ?_, ?_, by omega, ?_⟩
  · intro move hmove
    obtain ⟨old, hold, rfl⟩ := mem_map.1 hmove
    have := hdests old hold
    split <;> exact this
  · intro move hmove
    obtain ⟨old, hold, rfl⟩ := mem_map.1 hmove
    have := hsources old hold
    split
    · simp only [hrank]
      omega
    · omega
  intro v hv
  rw [← h.effect v hv, seqCopy_append]
  have hvtmp : v ≠ tmp next dst := htmp v (by omega)
  have hdtmp : dst ≠ tmp next dst := htmp dst (by simp only at hdst; omega)
  -- the register file after the two copies
  have hafter : ∀ w, w ≠ dst → w ≠ tmp next dst →
      seqCopy [(tmp next dst, dst), (dst, src)] (seqCopy result regs) w
        = seqCopy result regs w := fun w h1 h2 =>
    (update_of_ne h1 ..).trans (update_of_ne h2 ..)
  have hsaved : seqCopy [(tmp next dst, dst), (dst, src)] (seqCopy result regs) (tmp next dst)
      = seqCopy result regs dst :=
    (update_of_ne hdtmp.symm ..).trans (update_self ..)
  have hmoved : seqCopy [(tmp next dst, dst), (dst, src)] (seqCopy result regs) dst
      = seqCopy result regs src :=
    (update_self ..).trans (update_of_ne (htmp src hsrc) ..)
  refine parCopy_congr h.nodup (by rw [hfst]; exact hnodup) ?_ ?_
  · intro s hs
    rcases mem_cons.1 hs with heq | hs
    · cases heq
      exact .inr ⟨by rw [hfst]; exact hnew, hmoved⟩
    refine .inl ⟨if s = dst then tmp next dst else s, ?_, ?_⟩
    · refine mem_map.2 ⟨(v, s), hs, ?_⟩
      split <;> rfl
    split
    next heq => rw [heq, hsaved]
    next hne => exact hafter s hne (htmp s (hsources _ hs))
  intro hout
  rw [map_cons, mem_cons, not_or] at hout
  exact ⟨by rw [hfst]; exact hout.2, hafter v hout.1 hvtmp⟩

/-! ## The loops -/

theorem emitPass_spec (rest kept result : List (ρ × ρ))
    (h : Resolves rank bound moves regs (kept ++ rest) result next) :
    Resolves rank bound moves regs (emitPass kept rest result).1 (emitPass kept rest result).2
      next := by
  induction rest generalizing kept result with
  | nil => rw [append_nil] at h; exact h
  | cons move rest ih =>
    rw [emitPass]
    split
    · refine ih _ _ ?_
      rw [append_assoc, singleton_append]
      exact h
    next hany =>
      refine ih _ _ (h.emit fun other ho heq => hany ?_)
      exact any_eq_true.2 ⟨other, ho, by simpa using heq⟩

variable {s : State ρ}

theorem resolveStep_spec (hrank : ∀ n d, rank (tmp n d) = n)
    (h : Resolves rank bound moves regs s.remaining s.result s.next) :
    Resolves rank bound moves regs (resolveStep tmp s).remaining (resolveStep tmp s).result
      (resolveStep tmp s).next := by
  unfold resolveStep
  dsimp only
  split
  · exact emitPass_spec _ [] _ h
  split
  · exact h
  next dst src rest hrem =>
    rw [hrem] at h
    exact h.breakCycle hrank

theorem resolveStep_length (tmp : ℕ → ρ → ρ) (h : s.remaining ≠ []) :
    (resolveStep tmp s).remaining.length < s.remaining.length := by
  unfold resolveStep
  dsimp only
  split
  · assumption
  split
  next hrem => exact absurd hrem h
  next dst src rest hrem =>
    rw [hrem, length_map, length_cons]
    exact Nat.lt_succ_self _

theorem resolveLoop_induct {P : State ρ → Prop} (hstep : ∀ s, P s → P (resolveStep tmp s))
    (rounds : ℕ) (h : P s) : P (resolveLoop tmp rounds s) := by
  induction rounds generalizing s with
  | zero => exact h
  | succ rounds ih =>
    rw [resolveLoop]
    split
    · exact h
    · exact ih (hstep s h)

/-- The loop has ended after as many rounds as there are copies, however long it may go on. -/
theorem resolveLoop_ends (tmp : ℕ → ρ → ρ) (rounds more : ℕ) (s : State ρ)
    (hlen : s.remaining.length ≤ rounds) (hmore : s.remaining.length ≤ more) :
    (resolveLoop tmp rounds s).remaining = []
      ∧ resolveLoop tmp rounds s = resolveLoop tmp more s := by
  induction rounds generalizing more s with
  | zero =>
    have hnil := length_eq_zero_iff.1 (Nat.le_zero.1 hlen)
    cases more with
    | zero => exact ⟨hnil, rfl⟩
    | succ more => exact ⟨hnil, by rw [resolveLoop, resolveLoop, if_pos hnil]⟩
  | succ rounds ih =>
    by_cases hnil : s.remaining = []
    · rw [resolveLoop, if_pos hnil]
      cases more with
      | zero => exact ⟨hnil, rfl⟩
      | succ more => exact ⟨hnil, by rw [resolveLoop, if_pos hnil]⟩
    have hless := resolveStep_length tmp hnil
    cases more with
    | zero => omega
    | succ more =>
      rw [resolveLoop, resolveLoop, if_neg hnil, if_neg hnil]
      exact ih more _ (by omega) (by omega)

/-- A round takes a number only when it disposes of a copy. -/
theorem resolveStep_next (tmp : ℕ → ρ → ρ) (s : State ρ) : s.next ≤ (resolveStep tmp s).next
      ∧ (resolveStep tmp s).next + (resolveStep tmp s).remaining.length
        ≤ s.next + s.remaining.length := by
  unfold resolveStep
  dsimp only
  split
  next hless => exact ⟨le_rfl, Nat.add_le_add_left hless.le _⟩
  split
  · exact ⟨le_rfl, le_rfl⟩
  next dst src rest hrem =>
    rw [hrem, length_map, length_cons]
    exact ⟨Nat.le_succ _, by dsimp only; omega⟩

theorem resolveLoop_next (tmp : ℕ → ρ → ρ) (rounds : ℕ) (s : State ρ) :
    s.next ≤ (resolveLoop tmp rounds s).next
      ∧ (resolveLoop tmp rounds s).next ≤ s.next + s.remaining.length := by
  have h : s.next ≤ (resolveLoop tmp rounds s).next
      ∧ (resolveLoop tmp rounds s).next + (resolveLoop tmp rounds s).remaining.length
        ≤ s.next + s.remaining.length := by
    refine resolveLoop_induct (P := fun t => s.next ≤ t.next
      ∧ t.next + t.remaining.length ≤ s.next + s.remaining.length) ?_ rounds ⟨le_rfl, le_rfl⟩
    intro t ht
    exact ⟨ht.1.trans (resolveStep_next tmp t).1, (resolveStep_next tmp t).2.trans ht.2⟩
  omega

/-- Only the temporaries that are taken matter. -/
theorem resolveLoop_congr {tmp' : ℕ → ρ → ρ} (rounds : ℕ) (s : State ρ)
    (h : ∀ n < (resolveLoop tmp rounds s).next, tmp n = tmp' n) :
    resolveLoop tmp rounds s = resolveLoop tmp' rounds s := by
  induction rounds generalizing s with
  | zero => rfl
  | succ rounds ih =>
    rw [resolveLoop, resolveLoop]
    split
    · rfl
    next hne =>
      rw [resolveLoop, if_neg hne] at h
      have hstep : resolveStep tmp s = resolveStep tmp' s := by
        have hle := (resolveLoop_next tmp rounds (resolveStep tmp s)).1
        unfold resolveStep at hle ⊢
        dsimp only at hle ⊢
        split
        · rfl
        next hpass =>
          rw [if_neg hpass] at hle
          split
          · rfl
          next dst src rest hrem =>
            rw [h s.next (by
              unfold resolveStep
              dsimp only
              rw [if_neg hpass, hrem]
              simp only [hrem] at hle
              exact hle)]
      rw [← hstep]
      exact ih _ h

theorem resolve_next (tmp : ℕ → ρ → ρ) (next : ℕ) (moves : List (ρ × ρ)) :
    next ≤ (resolve tmp next moves).2 ∧ (resolve tmp next moves).2 ≤ next + moves.length := by
  obtain ⟨hle, hbound⟩ := resolveLoop_next tmp
    (moves.filter fun move => move.1 != move.2).length
    ⟨moves.filter fun move => move.1 != move.2, [], next⟩
  exact ⟨hle, hbound.trans (Nat.add_le_add_left (length_filter_le ..) _)⟩

theorem resolve_congr {tmp' : ℕ → ρ → ρ} (h : ∀ n < (resolve tmp next moves).2, tmp n = tmp' n) :
    resolve tmp next moves = resolve tmp' next moves := by
  unfold resolve
  dsimp only
  rw [resolveLoop_congr _ _ h]

theorem mem_emitPass (rest kept result : List (ρ × ρ))
    (h : move ∈ (emitPass kept rest result).2) : move ∈ result ∨ move ∈ rest := by
  induction rest generalizing kept result with
  | nil => exact .inl h
  | cons first rest ih =>
    rw [emitPass] at h
    split at h
    · exact (ih _ _ h).imp_right (mem_cons_of_mem _)
    rcases ih _ _ h with h | h
    · rcases mem_append.1 h with h | h
      · exact .inl h
      · exact .inr (mem_singleton.1 h ▸ .head _)
    · exact .inr (.tail _ h)

/-- The registers written so far are below the next temporary. -/
theorem resolveStep_written (hrank : ∀ n d, rank (tmp n d) = n)
    (h : Resolves rank bound moves regs s.remaining s.result s.next)
    (hwritten : ∀ move ∈ s.result, rank move.1 < s.next) :
    ∀ move ∈ (resolveStep tmp s).result, rank move.1 < (resolveStep tmp s).next := by
  have hdests : ∀ move ∈ s.remaining, rank move.1 < s.next :=
    fun move hmove => (h.dests move hmove).trans_le h.fresh
  unfold resolveStep
  dsimp only
  split
  · exact fun move hmove => (mem_emitPass _ _ _ hmove).elim (hwritten move) (hdests move)
  split
  · exact hwritten
  rename_i dst src rest hrem
  intro move hmove
  have hdst := hdests (dst, src) (by simp [hrem])
  simp only [mem_append, mem_cons, not_mem_nil, or_false] at hmove
  rcases hmove with hmove | rfl | rfl
  · exact (hwritten move hmove).trans (Nat.lt_succ_self _)
  · exact (hrank _ _).trans_lt (Nat.lt_succ_self _)
  · exact hdst.trans (Nat.lt_succ_self _)

theorem Resolves.start (hnodup : (moves.map fst).Nodup)
    (hbelow : ∀ move ∈ moves, rank move.1 < next ∧ rank move.2 < next) (regs : ρ → α) :
    Resolves rank next moves regs (moves.filter fun move => move.1 != move.2) [] next := by
  have hsub : (moves.filter fun move => move.1 != move.2).Sublist moves := filter_sublist
  refine ⟨(hsub.map fst).nodup hnodup, fun move hm => (hbelow move (hsub.subset hm)).1,
    fun move hm => (hbelow move (hsub.subset hm)).2, le_rfl, ?_⟩
  intro v _
  exact parCopy_filter hnodup

section

variable (rank : ρ → ℕ) (hrank : ∀ n d, rank (tmp n d) = n) (hnodup : (moves.map fst).Nodup)
    (hbelow : ∀ move ∈ moves, rank move.1 < next ∧ rank move.2 < next)
include hrank hnodup hbelow

theorem resolve_final (regs : ρ → α) :
    Resolves rank next moves regs [] (resolve tmp next moves).1 (resolve tmp next moves).2
      ∧ ∀ move ∈ (resolve tmp next moves).1, rank move.1 < (resolve tmp next moves).2 := by
  let start : State ρ := ⟨moves.filter fun move => move.1 != move.2, [], next⟩
  have hfinal := resolveLoop_induct (P := fun s => Resolves rank next moves regs s.remaining
      s.result s.next ∧ ∀ move ∈ s.result, rank move.1 < s.next)
    (fun s h => ⟨resolveStep_spec hrank h.1, resolveStep_written hrank h.1 h.2⟩)
    start.remaining.length (s := start) ⟨.start hnodup hbelow regs, fun _ h => nomatch h⟩
  rw [(resolveLoop_ends tmp _ _ start le_rfl le_rfl).1] at hfinal
  exact hfinal

/-- **Resolution is correct.**  The sequence has the effect of the parallel copy on all
registers below the first temporary. -/
theorem resolve_spec (regs : ρ → α) :
    next ≤ (resolve tmp next moves).2
      ∧ ∀ v, rank v < next → seqCopy (resolve tmp next moves).1 regs v = parCopy moves regs v := by
  obtain ⟨hfinal, -⟩ := resolve_final rank hrank hnodup hbelow regs
  exact ⟨hfinal.fresh, fun v hv => by rw [← hfinal.effect v hv, parCopy_nil]⟩

/-- The sequence writes nothing from the number left free on. -/
theorem seqCopy_resolve_of_le (h : (resolve tmp next moves).2 ≤ rank v) :
    seqCopy (resolve tmp next moves).1 regs v = regs v := by
  refine seqCopy_of_notMem fun hmem => ?_
  obtain ⟨move, hmove, rfl⟩ := mem_map.1 hmem
  exact absurd h (Nat.not_le.2 ((resolve_final rank hrank hnodup hbelow regs).2 move hmove))

end

end

end TrustCg.ParallelCopy
