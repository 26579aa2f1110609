import Mathlib.Algebra.Group.Action.Defs
import Mathlib.Algebra.Order.BigOperators.Group.Finset
import Mathlib.Algebra.Order.Ring.Nat
import TrustCg.Lib.Loop

/-!
# Sweeping until nothing grows, and working off a queue

Two loops that solve a system `T b v ≤ v b` of monotone inequations over a
semilattice from below:

* `sweep`, repeated while it changes something, joins `T b v` onto `v b` for every
  node of a list (`saturate_spec`);
* the worklist `step` recomputes one node at a time and queues the nodes that read it
  when its value has changed (`worklist_spec`).

Either loop ends, by a height that grows with every change, and ends in the least
solution, in whatever order the nodes come and whatever reads what.
-/

namespace TrustCg.Saturate

open Function (update update_of_ne update_self)
open List

variable {α β : Type*} [DecidableEq α]

/-- The height of a state: the sum of the heights of its values. -/
def total (height : β → ℕ) (nodes : List α) (v : α → β) : ℕ := ∑ b ∈ nodes.toFinset, height (v b)

variable {height : β → ℕ}

theorem total_le {H : ℕ} (hH : ∀ x, height x ≤ H) (nodes : List α) (v : α → β) :
    total height nodes v ≤ nodes.toFinset.card * H := by
  refine (Finset.sum_le_card_nsmul _ _ H fun b _ => hH (v b)).trans ?_
  rw [smul_eq_mul]

theorem total_lt [Preorder β] (hmono : StrictMono height) {nodes : List α} {v w : α → β}
    (hle : ∀ b, height (v b) ≤ height (w b)) {b : α} (hb : b ∈ nodes) (hlt : v b < w b) :
    total height nodes v < total height nodes w :=
  Finset.sum_lt_sum (fun c _ => hle c) ⟨b, mem_toFinset.2 hb, hmono hlt⟩

/-! ## Sweeps -/

section Sweep

variable [DecidableEq β] [SemilatticeSup β] (T : α → (α → β) → β)

/-- Join the right-hand side of one node onto its value; note whether it grew. -/
def join (acc : (α → β) × Bool) (b : α) : (α → β) × Bool :=
  if acc.1 b ⊔ T b acc.1 = acc.1 b then acc
  else (update acc.1 b (acc.1 b ⊔ T b acc.1), true)

/-- One sweep over the nodes, with the note whether anything grew. -/
def sweep (bs : List α) (v : α → β) : (α → β) × Bool := bs.foldl (join T) (v, false)

/-- Sweep again while the last sweep changed something. -/
def round (bs : List α) (s : (α → β) × Bool) : Option ((α → β) × Bool) :=
  if s.2 then some (sweep T bs s.1) else none

variable {T}

theorem join_cases (acc : (α → β) × Bool) (b : α) : (join T acc b = acc ∧ T b acc.1 ≤ acc.1 b) ∨
    (join T acc b = (update acc.1 b (acc.1 b ⊔ T b acc.1), true) ∧
      acc.1 b < acc.1 b ⊔ T b acc.1) := by
  unfold join
  split
  next h => exact .inl ⟨rfl, sup_eq_left.1 h⟩
  next h => exact .inr ⟨rfl, lt_of_le_of_ne le_sup_left (Ne.symm h)⟩

theorem foldl_join_flag (bs : List α) (acc : (α → β) × Bool) (h : acc.2 = true) :
    (bs.foldl (join T) acc).2 = true := by
  refine foldlRecOn (motive := fun s : (α → β) × Bool => s.2 = true) bs _ h fun acc hacc b _ => ?_
  rcases join_cases (T := T) acc b with ⟨hb, -⟩ | ⟨hb, -⟩
  · rwa [hb]
  · rw [hb]

/-- What a sweep does: values grow, by no more than they must; an unchanged state
satisfies the inequations, and a changed one is larger somewhere. -/
theorem foldl_join (hT : ∀ b, Monotone (T b)) (bs : List α) (acc : (α → β) × Bool) :
    acc.1 ≤ (bs.foldl (join T) acc).1 ∧
      (∀ w, acc.1 ≤ w → (∀ b ∈ bs, T b w ≤ w b) → (bs.foldl (join T) acc).1 ≤ w) ∧
      ((bs.foldl (join T) acc).2 = false →
        (bs.foldl (join T) acc).1 = acc.1 ∧ ∀ b ∈ bs, T b acc.1 ≤ acc.1 b) ∧
      ((bs.foldl (join T) acc).2 = true →
        acc.2 = true ∨ ∃ b ∈ bs, acc.1 b < (bs.foldl (join T) acc).1 b) := by
  induction bs generalizing acc with
  | nil => exact ⟨le_rfl, fun w hw _ => hw, fun _ => ⟨rfl, by simp⟩, fun h => .inl h⟩
  | cons b bs ih =>
    rw [foldl_cons]
    obtain ⟨hle, hleast, hfalse, htrue⟩ := ih (join T acc b)
    rcases join_cases (T := T) acc b with ⟨hj, hb⟩ | ⟨hj, hb⟩
    · rw [hj] at hle hleast hfalse htrue ⊢
      refine ⟨hle, fun w hw hsol => hleast w hw fun c hc => hsol c (.tail _ hc), ?_, ?_⟩
      · intro h
        exact ⟨(hfalse h).1, forall_mem_cons.2 ⟨hb, (hfalse h).2⟩⟩
      intro h
      rcases htrue h with h | ⟨c, hc, hlt⟩
      · exact .inl h
      · exact .inr ⟨c, .tail _ hc, hlt⟩
    have hgrow : acc.1 ≤ (join T acc b).1 := by
      rw [hj]
      exact le_update_self_iff.2 le_sup_left
    refine ⟨hgrow.trans hle, ?_, ?_, ?_⟩
    · intro w hw hsol
      refine hleast w ?_ fun c hc => hsol c (.tail _ hc)
      rw [hj]
      exact update_le_iff.2 ⟨sup_le (hw b) ((hT b hw).trans (hsol b (.head _))), fun c _ => hw c⟩
    · intro h
      rw [foldl_join_flag bs (join T acc b) (by rw [hj])] at h
      exact Bool.noConfusion h
    intro _
    refine .inr ⟨b, .head _, lt_of_lt_of_le ?_ (hle b)⟩
    rw [hj]
    dsimp only
    rw [update_self]
    exact hb

/-- **Sweeping to the end.**  The sweeps stop in the least state above the first one that
satisfies the inequations of the nodes. -/
theorem saturate_spec (hT : ∀ b, Monotone (T b)) (hmono : StrictMono height) {H : ℕ}
    (hH : ∀ x, height x ≤ H) (bs : List α) (v : α → β) :
    ∃ bound v', (∀ fuel, bound ≤ fuel → Loop.run (round T bs) fuel (v, true) = some (v', false))
      ∧ v ≤ v' ∧ (∀ b ∈ bs, T b v' ≤ v' b)
      ∧ ∀ w, v ≤ w → (∀ b ∈ bs, T b w ≤ w b) → v' ≤ w := by
  let Inv : (α → β) × Bool → Prop := fun s => v ≤ s.1 ∧
    (∀ w, v ≤ w → (∀ b ∈ bs, T b w ≤ w b) → s.1 ≤ w) ∧
    (s.2 = false → ∀ b ∈ bs, T b s.1 ≤ s.1 b)
  let μ : (α → β) × Bool → ℕ := fun s =>
    2 * (bs.toFinset.card * H - total height bs s.1) + s.2.toNat
  have hstep : ∀ s s', Inv s → round T bs s = some s' → Inv s' ∧ μ s' < μ s := by
    rintro ⟨u, flag⟩ s' ⟨hle, hleast, -⟩ hround
    unfold round at hround
    cases hflag : flag with
    | false => rw [hflag] at hround; simp at hround
    | true =>
      rw [hflag] at hround
      obtain rfl : sweep T bs u = s' := by simpa using hround
      obtain ⟨h1, h2, h3, h4⟩ := foldl_join hT bs (u, false)
      refine ⟨⟨hle.trans h1, fun w hw hsol => h2 w (hleast w hw hsol) hsol, ?_⟩, ?_⟩
      · intro h
        obtain ⟨hsame, hsol⟩ := h3 h
        rw [sweep, hsame]
        exact hsol
      show 2 * (bs.toFinset.card * H - total height bs (sweep T bs u).1)
          + (sweep T bs u).2.toNat < 2 * (bs.toFinset.card * H - total height bs u) + 1
      cases hnote : (sweep T bs u).2 with
      | false =>
        rw [show (sweep T bs u).1 = u from (h3 hnote).1]
        exact Nat.lt_succ_self _
      | true =>
        obtain ⟨b, hb, hlt⟩ := (h4 hnote).resolve_left Bool.false_ne_true
        have hgrow := total_lt hmono (fun c => hmono.monotone (h1 c)) hb hlt
        have hbound := total_le hH bs (sweep T bs u).1
        change total height bs u < total height bs (sweep T bs u).1 at hgrow
        simp only [Bool.toNat_true]
        omega
  have hstart : Inv (v, true) := ⟨le_rfl, fun w hw _ => hw, fun h => Bool.noConfusion h⟩
  obtain ⟨⟨v', flag⟩, hrun, ⟨hle, hleast, hsol⟩, hend⟩ := Loop.run_ends hstep _ hstart
  have hflag : flag = false := by
    unfold round at hend
    cases flag with
    | false => rfl
    | true => simp at hend
  subst hflag
  exact ⟨_, v', hrun, hle, hsol rfl, hleast⟩

end Sweep

/-! ## A queue of nodes to recompute -/

section Worklist

variable [PartialOrder β] [OrderBot β]

/-- The values computed so far and the queue. -/
structure Work (α β : Type*) where
  out : α → Option β
  work : List α

/-- A node that was not computed yet counts as the least value. -/
def value (out : α → Option β) (b : α) : β := (out b).getD ⊥

/-- Queue the nodes that are not queued. -/
def enqueue (work consumers : List α) : List α :=
  consumers.foldl (fun w c => if c ∈ w then w else w ++ [c]) work

/-- Recompute the first node of the queue. -/
def step [DecidableEq β] (transfer : α → (α → β) → β) (dependents : α → List α) (st : Work α β) :
    Option (Work α β) :=
  match st.work with
  | [] => none
  | b :: rest =>
    if st.out b = some (transfer b (value st.out)) then some ⟨st.out, rest⟩
    else some ⟨update st.out b (some (transfer b (value st.out))), enqueue rest (dependents b)⟩

theorem mem_enqueue {c : α} (consumers work : List α) :
    c ∈ enqueue work consumers ↔ c ∈ work ∨ c ∈ consumers := by
  induction consumers generalizing work with
  | nil => simp [enqueue]
  | cons d ds ih =>
    have hcons : enqueue work (d :: ds) = enqueue (if d ∈ work then work else work ++ [d]) ds := rfl
    rw [hcons, ih]
    split
    next hd =>
      refine ⟨.imp_right (.tail _), ?_⟩
      rintro (h | h)
      · exact .inl h
      rcases mem_cons.1 h with rfl | h
      · exact .inl hd
      · exact .inr h
    · rw [mem_append, mem_singleton, mem_cons, or_assoc]

theorem step_cases [DecidableEq β] {transfer : α → (α → β) → β} {dependents : α → List α}
    {st st' : Work α β} (h : step transfer dependents st = some st') :
    (∃ b rest, st.work = b :: rest ∧ st.out b = some (transfer b (value st.out)) ∧
      st' = ⟨st.out, rest⟩) ∨
    (∃ b rest, st.work = b :: rest ∧ st.out b ≠ some (transfer b (value st.out)) ∧
      st' = ⟨update st.out b (some (transfer b (value st.out))), enqueue rest (dependents b)⟩) := by
  unfold step at h
  split at h
  · simp at h
  rename_i b rest hwork
  split at h
  next hb => exact .inl ⟨b, rest, hwork, hb, (Option.some.inj h).symm⟩
  next hb => exact .inr ⟨b, rest, hwork, hb, (Option.some.inj h).symm⟩

theorem value_update (out : α → Option β) (b c : α) (x : β) :
    value (update out b (some x)) c = if c = b then x else value out c := by
  rw [value, Function.update_apply]
  split_ifs <;> rfl

/-- What every step keeps: nodes off the queue are computed, values have not overshot, are
bounded, and will not shrink. -/
structure WorkInv (transfer : α → (α → β) → β) (nodes : List α) (P : β → Prop) (st : Work α β) :
    Prop where
  queued : ∀ b ∈ st.work, b ∈ nodes
  done : ∀ b ∈ nodes, b ∉ st.work → st.out b = some (transfer b (value st.out))
  grows : ∀ b, value st.out b ≤ transfer b (value st.out)
  bounded : ∀ b, P (value st.out b)
  least : ∀ w : α → β, (∀ b ∈ nodes, transfer b w ≤ w b) → value st.out ≤ w

section

variable {transfer : α → (α → β) → β} {dependents : α → List α} {nodes : List α} {P : β → Prop}
    {st st' : Work α β} {H : ℕ}

theorem le_value_update {out : α → Option β} (hgrows : ∀ b, value out b ≤ transfer b (value out))
    (b : α) : value out ≤ value (update out b (some (transfer b (value out)))) := by
  intro c
  rw [value_update]
  split
  next hc =>
    rw [hc]
    exact hgrows b
  · exact le_rfl

theorem workInv_step [DecidableEq β] (hT : ∀ b, Monotone (transfer b))
    (hP : ∀ b v, (∀ a, P (v a)) → P (transfer b v)) (hdep : ∀ b, ∀ c ∈ dependents b, c ∈ nodes)
    (hlocal : ∀ b, ∀ c ∈ nodes, c ∉ dependents b → ∀ v v' : α → β,
      (∀ a, a ≠ b → v a = v' a) → transfer c v = transfer c v') (hinv : WorkInv transfer nodes P st)
    (h : step transfer dependents st = some st') : WorkInv transfer nodes P st' := by
  obtain ⟨hqueued, hdone, hgrows, hbounded, hleast⟩ := hinv
  rcases step_cases h with ⟨b, rest, hwork, hb, rfl⟩ | ⟨b, rest, hwork, hb, rfl⟩
  · refine ⟨fun c hc => hqueued c (by rw [hwork]; exact .tail _ hc), ?_, hgrows, hbounded, hleast⟩
    intro c hc hrest
    by_cases hcb : c = b
    · rw [hcb]
      exact hb
    refine hdone c hc ?_
    rw [hwork]
    exact not_mem_cons_of_ne_of_not_mem hcb hrest
  have hle := le_value_update hgrows b
  refine ⟨?_, ?_, ?_, ?_, ?_⟩
  · intro c hc
    rcases (mem_enqueue _ _).1 hc with hc | hc
    · exact hqueued c (by rw [hwork]; exact .tail _ hc)
    · exact hdep b c hc
  · intro c hc hq
    obtain ⟨hrest, hnot⟩ := not_or.1 (fun h => hq ((mem_enqueue _ _).2 h))
    -- a node that is not queued does not read `b`
    have hsame : transfer c (value (update st.out b (some (transfer b (value st.out)))))
        = transfer c (value st.out) := by
      refine hlocal b c hc hnot _ _ fun a ha => ?_
      rw [value_update, if_neg ha]
    show update st.out b _ c = some (transfer c _)
    rw [hsame]
    by_cases hcb : c = b
    · subst hcb
      rw [update_self]
    rw [update_of_ne hcb]
    refine hdone c hc ?_
    rw [hwork]
    exact not_mem_cons_of_ne_of_not_mem hcb hrest
  · intro c
    refine le_trans ?_ (hT c hle)
    rw [value_update]
    split
    next hc => rw [hc]
    · exact hgrows c
  · intro c
    rw [value_update]
    split
    · exact hP b _ hbounded
    · exact hbounded c
  intro w hw c
  rw [value_update]
  split
  next hc =>
    rw [hc]
    exact (hT b (hleast w hw)).trans (hw b (hqueued b (by rw [hwork]; simp)))
  · exact hleast w hw c

/-- The height of a node: zero before it is computed. -/
def rank (height : β → ℕ) : Option β → ℕ
  | none => 0
  | some x => height x + 1

theorem work_falls [DecidableEq β] (hmono : StrictMono height)
    (hH : ∀ x, P x → height x ≤ H) (hP : ∀ b v, (∀ a, P (v a)) → P (transfer b v))
    (hinv : WorkInv transfer nodes P st) (h : step transfer dependents st = some st') :
    Prod.Lex (· < ·) (· < ·)
      (nodes.toFinset.card * (H + 1) - ∑ b ∈ nodes.toFinset, rank height (st'.out b),
        st'.work.length)
      (nodes.toFinset.card * (H + 1) - ∑ b ∈ nodes.toFinset, rank height (st.out b),
        st.work.length) := by
  rcases step_cases h with ⟨b, rest, hwork, hb, rfl⟩ | ⟨b, rest, hwork, hb, rfl⟩
  · refine .right _ ?_
    rw [hwork]
    exact Nat.lt_succ_self _
  refine .left _ _ ?_
  have hnode : b ∈ nodes := hinv.queued b (by rw [hwork]; simp)
  have hlt : rank height (st.out b) < rank height (some (transfer b (value st.out))) := by
    have hgrows := hinv.grows b
    unfold value at hgrows hb ⊢
    cases hout : st.out b with
    | none => exact Nat.succ_pos _
    | some x =>
      rw [hout] at hb hgrows
      have hne : x ≠ transfer b (value st.out) := fun hx => hb (congrArg some hx)
      exact Nat.succ_lt_succ (hmono (lt_of_le_of_ne hgrows hne))
  have hsum : ∑ c ∈ nodes.toFinset, rank height (st.out c) < ∑ c ∈ nodes.toFinset,
        rank height (update st.out b (some (transfer b (value st.out))) c) := by
    refine Finset.sum_lt_sum ?_ ⟨b, mem_toFinset.2 hnode, ?_⟩
    · intro c _
      rw [Function.update_apply]
      split_ifs with hc
      · exact hc ▸ hlt.le
      · exact le_rfl
    rw [update_self]
    exact hlt
  have hbound : ∑ c ∈ nodes.toFinset,
      rank height (update st.out b (some (transfer b (value st.out))) c) ≤
      nodes.toFinset.card * (H + 1) := by
    refine (Finset.sum_le_card_nsmul _ _ (H + 1) fun c _ => ?_).trans (by rw [smul_eq_mul])
    rw [Function.update_apply]
    split_ifs with hc
    · exact Nat.succ_le_succ (hH _ (hP b _ hinv.bounded))
    have hbounded := hinv.bounded c
    unfold value at hbounded
    cases hout : st.out c with
    | none => exact Nat.zero_le _
    | some x =>
      rw [hout] at hbounded
      exact Nat.succ_le_succ (hH x hbounded)
  exact Nat.sub_lt_sub_left (lt_of_lt_of_le hsum hbound) hsum

/-- **Working off the queue.**  `P` bounds the values that occur.  From an empty state with every
node queued the loop ends; every node then has the value its inputs give it, and no solution is
below. -/
theorem worklist_spec [DecidableEq β] (transfer : α → (α → β) → β) (dependents : α → List α)
    (nodes : List α) (P : β → Prop) (hT : ∀ b, Monotone (transfer b))
    (hmono : StrictMono height) (hH : ∀ x, P x → height x ≤ H) (hbot : P ⊥)
    (hP : ∀ b v, (∀ a, P (v a)) → P (transfer b v)) (hdep : ∀ b, ∀ c ∈ dependents b, c ∈ nodes)
    (hlocal : ∀ b, ∀ c ∈ nodes, c ∉ dependents b → ∀ v v' : α → β,
      (∀ a, a ≠ b → v a = v' a) → transfer c v = transfer c v') :
    ∃ bound out, (∀ fuel, bound ≤ fuel →
        Loop.run (step transfer dependents) fuel ⟨fun _ => none, nodes⟩ = some ⟨out, []⟩)
      ∧ (∀ b ∈ nodes, out b = some (transfer b (value out)))
      ∧ ∀ w : α → β, (∀ b ∈ nodes, transfer b w ≤ w b) → value out ≤ w := by
  have hstart : WorkInv transfer nodes P (⟨fun _ => none, nodes⟩ : Work α β) :=
    ⟨fun _ hb => hb, fun b hb hn => absurd hb hn, fun _ => bot_le, fun _ => hbot,
      fun _ _ _ => bot_le⟩
  have hwf : WellFounded (Prod.Lex (· < · : ℕ → ℕ → Prop) (· < · : ℕ → ℕ → Prop)) :=
    WellFounded.prod_lex wellFounded_lt wellFounded_lt
  have hstep : ∀ s s' : Work α β, WorkInv transfer nodes P s →
      step transfer dependents s = some s' → WorkInv transfer nodes P s' ∧ _ :=
    fun s s' hs h => ⟨workInv_step hT hP hdep hlocal hs h, work_falls hmono hH hP hs h⟩
  obtain ⟨bound, ⟨out, work⟩, hrun, ⟨-, hdone, -, -, hleast⟩, hend⟩ :=
    Loop.run_ends_of_wf hwf hstep _ hstart
  have hwork : work = [] := by
    unfold step at hend
    split at hend
    · assumption
    · split at hend <;> simp at hend
  subst hwork
  exact ⟨bound, out, hrun, fun b hb => hdone b hb (by simp), hleast⟩

end

end Worklist

end TrustCg.Saturate
