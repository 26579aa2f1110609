import Mathlib.Algebra.Order.BigOperators.Group.Finset
import Mathlib.Algebra.Order.Ring.Nat
import Mathlib.Data.Prod.Lex
import TrustCg.Lib.Flow
import TrustCg.Lib.Loop

/-!
# Graph search with an explicit stack

The two depth-first loops compilers write over a numbered graph: the one that
only marks (a node is marked when it is pushed, so it is pushed once), and the
one that also produces a post-order, with a successor index on the stack.  Nodes
are numbers below `n`; an edge to a number out of range is ignored.

* `search_marks_reachable` : the first loop ends and marks exactly the reachable
  nodes.
* `postOrder_spec` : the second ends and lists the reachable nodes, each once and before
  a node it was entered from.

A third loop, over any type of nodes, marks a node when it is popped, so a node may be
on the stack several times; `pop_marks_reachable` says that it too ends with exactly the
reachable nodes.  A fourth stops at the first edge into a target (`seek_spec`).
-/

namespace TrustCg.Search

open Function (update)
open List

/-- `c` is a successor of `b` and exists. -/
def EdgeIn (n : ℕ) (adj : ℕ → List ℕ) (b c : ℕ) : Prop := c ∈ adj b ∧ c < n

/-! ## Marking -/

/-- Which nodes are marked, and which of them still have to be expanded. -/
structure State where
  marked : ℕ → Bool
  stack : List ℕ

/-- Mark a node and push it, unless it is out of range or marked. -/
def visit (n : ℕ) (st : State) (s : ℕ) : State :=
  if s < n ∧ st.marked s = false then ⟨update st.marked s true, s :: st.stack⟩ else st

/-- Pop a node and visit its successors. -/
def step (n : ℕ) (adj : ℕ → List ℕ) (st : State) : Option State :=
  match st.stack with
  | [] => none
  | b :: rest => some ((adj b).foldl (visit n) ⟨st.marked, rest⟩)

/-- The search starts with its root marked and pushed. -/
def start (entry : ℕ) : State := ⟨update (fun _ => false) entry true, [entry]⟩

variable {adj : ℕ → List ℕ} {entry : ℕ}

section

variable {n : ℕ}

theorem update_true_iff {m : ℕ → Bool} {b c : ℕ} :
    update m c true b = true ↔ b = c ∨ m b = true := by
  rw [Function.update_apply]
  split
  next h => simp [h]
  next h => simp [h]

theorem visit_marked (st : State) (s c : ℕ) :
    (visit n st s).marked c = true ↔ st.marked c = true ∨ (c = s ∧ c < n) := by
  unfold visit
  split
  next h =>
    rw [update_true_iff, or_comm]
    exact or_congr_right ⟨fun hc => ⟨hc, hc ▸ h.1⟩, And.left⟩
  rename_i h
  refine (or_iff_left_of_imp ?_).symm
  rintro ⟨rfl, hlt⟩
  by_contra hm
  exact h ⟨hlt, by simpa using hm⟩

theorem visit_stack (st : State) (s c : ℕ) :
    c ∈ (visit n st s).stack ↔ c ∈ st.stack ∨ (c = s ∧ c < n ∧ ¬ st.marked c = true) := by
  unfold visit
  split
  next h =>
    rw [mem_cons, or_comm]
    exact or_congr_right ⟨fun hc => ⟨hc, hc ▸ h.1, by simp [hc, h.2]⟩, And.left⟩
  rename_i h
  refine (or_iff_left_of_imp ?_).symm
  rintro ⟨rfl, hlt, hm⟩
  exact absurd ⟨hlt, by simpa using hm⟩ h

section

variable (succs : List ℕ) (st : State) (c : ℕ)

theorem foldl_visit_marked :
    (succs.foldl (visit n) st).marked c = true ↔ st.marked c = true ∨ (c ∈ succs ∧ c < n) := by
  rw [Loop.foldl_iff_or (P := fun st => st.marked c = true) fun st s => visit_marked st s c]
  simp

theorem foldl_visit_stack :
    c ∈ (succs.foldl (visit n) st).stack
      ↔ c ∈ st.stack ∨ (c ∈ succs ∧ c < n ∧ ¬ st.marked c = true) := by
  induction succs generalizing st with
  | nil => simp
  | cons s succs ih =>
    rw [foldl_cons, ih, visit_stack, visit_marked, mem_cons]
    tauto

end

/-- The nodes that are not marked yet. -/
def unmarked (n : ℕ) (marked : ℕ → Bool) : Finset ℕ :=
  (Finset.range n).filter fun b => marked b = false

theorem unmarked_update {marked : ℕ → Bool} {s : ℕ} (hs : s < n) (hm : marked s = false) :
    unmarked n (update marked s true) = (unmarked n marked).erase s ∧ s ∈ unmarked n marked := by
  refine ⟨?_, by simp [unmarked, hs, hm]⟩
  ext b
  simp only [unmarked, Finset.mem_filter, Finset.mem_range, Finset.mem_erase]
  by_cases hb : b = s
  · subst hb; simp
  · simp [hb]

/-- Every unmarked node may still cost a push and a pop. -/
def potential (n : ℕ) (st : State) : ℕ := 2 * (unmarked n st.marked).card + st.stack.length

theorem potential_visit (st : State) (s : ℕ) : potential n (visit n st s) ≤ potential n st := by
  unfold visit
  split
  next h =>
    obtain ⟨heq, hmem⟩ := unmarked_update h.1 h.2
    have hpos : 0 < (unmarked n st.marked).card := Finset.card_pos.2 ⟨s, hmem⟩
    simp only [potential, heq, Finset.card_erase_of_mem hmem, length_cons]
    omega
  · exact le_rfl

theorem potential_foldl_visit (succs : List ℕ) (st : State) :
    potential n (succs.foldl (visit n) st) ≤ potential n st := by
  induction succs generalizing st with
  | nil => exact le_rfl
  | cons s succs ih => exact (ih _).trans (potential_visit st s)

/-- What holds between two expansions: only reachable nodes are marked, the pushed
ones are marked, and the successors of a node that has been expanded are marked. -/
structure Inv (n : ℕ) (adj : ℕ → List ℕ) (entry : ℕ) (st : State) : Prop where
  entry_marked : st.marked entry = true
  sound : ∀ b, st.marked b = true → Flow.Reachable entry (EdgeIn n adj) b
  stack_marked : ∀ b ∈ st.stack, st.marked b = true
  expanded : ∀ b, st.marked b = true → b ∉ st.stack → ∀ c, EdgeIn n adj b c → st.marked c = true

theorem inv_start (n : ℕ) (adj : ℕ → List ℕ) (entry : ℕ) : Inv n adj entry (start entry) where
  entry_marked := by simp [start]
  sound b hb := by
    obtain rfl : b = entry := by simpa [start, update_true_iff] using hb
    exact .refl
  stack_marked := by simp [start]
  expanded b hb hstack := absurd (by simpa [start, update_true_iff] using hb) hstack

theorem inv_step {st st' : State} (hinv : Inv n adj entry st) (h : step n adj st = some st') :
    Inv n adj entry st' ∧ potential n st' < potential n st := by
  obtain ⟨marked, stack⟩ := st
  cases stack with
  | nil => cases h
  | cons b rest =>
    obtain rfl := Option.some.inj h
    have hb : marked b = true := hinv.stack_marked b (.head _)
    refine ⟨⟨(foldl_visit_marked ..).2 (.inl hinv.entry_marked), fun c hc => ?_, fun c hc => ?_,
      fun c hc hnot d hcd => (foldl_visit_marked ..).2 ?_⟩, ?_⟩
    · rcases (foldl_visit_marked ..).1 hc with hc | hc
      · exact hinv.sound c hc
      · exact (hinv.sound b hb).step hc
    · refine (foldl_visit_marked ..).2 (((foldl_visit_stack ..).1 hc).imp (fun hc => ?_) ?_)
      · exact hinv.stack_marked c (.tail _ hc)
      · exact fun hc => ⟨hc.1, hc.2.1⟩
    · by_cases hcb : c = b
      · exact .inr (hcb ▸ hcd)
      -- a node marked only now is still on the stack
      have hcm : marked c = true := by
        by_contra hm
        have hin := ((foldl_visit_marked ..).1 hc).resolve_left hm
        exact hnot ((foldl_visit_stack ..).2 (.inr ⟨hin.1, hin.2, hm⟩))
      refine .inl (hinv.expanded c hcm (fun hin => hnot ?_) d hcd)
      exact (foldl_visit_stack ..).2 (.inl ((mem_cons.1 hin).resolve_left hcb))
    refine (potential_foldl_visit _ _).trans_lt ?_
    simp only [potential, length_cons]
    omega

/-- **The search marks exactly the reachable nodes.** -/
theorem search_marks_reachable (n : ℕ) (adj : ℕ → List ℕ) (entry : ℕ) :
    ∃ t, (∀ fuel, 2 * n + 2 ≤ fuel → Loop.run (step n adj) fuel (start entry) = some t)
      ∧ ∀ b, t.marked b = true ↔ Flow.Reachable entry (EdgeIn n adj) b := by
  have hpot : potential n (start entry) < 2 * n + 2 := by
    have hcard := Finset.card_filter_le (Finset.range n) fun b => (start entry).marked b = false
    rw [Finset.card_range] at hcard
    simp only [potential, unmarked, start, length_singleton] at hcard ⊢
    omega
  obtain ⟨t, ht, hinv, hdone⟩ := Loop.run_ends (fun _ _ => inv_step) _ (inv_start n adj entry)
  have hempty : t.stack = [] := by
    unfold step at hdone
    split at hdone
    · assumption
    · simp at hdone
  refine ⟨t, fun fuel hfuel => ht fuel (hpot.trans_le hfuel), ?_⟩
  intro b
  constructor
  · exact hinv.sound b
  intro hb
  refine hb.mem_of_closed (S := fun b => t.marked b = true) hinv.entry_marked ?_
  intro a c ha hac
  exact hinv.expanded a ha (by rw [hempty]; simp) c hac

end

/-! ## Post-order -/

/-- The nodes met so far, the nodes being expanded with the index of their next
successor, and the finished nodes in the order they were finished. -/
structure OrderState where
  visited : ℕ → Bool
  stack : List (ℕ × ℕ)
  postorder : List ℕ

/-- Look at the next successor of the node on top, or finish the node. -/
def orderStep (n : ℕ) (adj : ℕ → List ℕ) (st : OrderState) : Option OrderState :=
  match st.stack with
  | [] => none
  | (b, i) :: rest =>
    match (adj b)[i]? with
    | some c =>
      if c < n ∧ st.visited c = false then
        some ⟨update st.visited c true, (c, 0) :: (b, i + 1) :: rest, st.postorder⟩
      else some { st with stack := (b, i + 1) :: rest }
    | none => some ⟨st.visited, rest, st.postorder ++ [b]⟩

/-- The walk starts with its root visited. -/
def orderStart (entry : ℕ) : OrderState :=
  ⟨update (fun _ => false) entry true, [(entry, 0)], []⟩

section

variable {n : ℕ} {st st' : OrderState} {rest : List (ℕ × ℕ)} {b i : ℕ}

/-- What holds between two steps: a visited node is on the stack or finished, and
the successors that have been looked at are visited. -/
structure OrderInv (n : ℕ) (adj : ℕ → List ℕ) (entry : ℕ) (st : OrderState) : Prop where
  entry_visited : st.visited entry = true
  placed : ∀ b, st.visited b = true → (∃ i, (b, i) ∈ st.stack) ∨ b ∈ st.postorder
  index_le : ∀ b i, (b, i) ∈ st.stack → i ≤ (adj b).length
  looked_at : ∀ b i, (b, i) ∈ st.stack → ∀ j < i, ∀ c, (adj b)[j]? = some c → c < n →
    st.visited c = true
  finished : ∀ b ∈ st.postorder, ∀ c, EdgeIn n adj b c → st.visited c = true

theorem orderInv_start (n : ℕ) (adj : ℕ → List ℕ) (entry : ℕ) :
    OrderInv n adj entry (orderStart entry) where
  entry_visited := by simp [orderStart]
  placed b hb := by
    obtain rfl : b = entry := by simpa [orderStart, update_true_iff] using hb
    exact .inl ⟨0, .head _⟩
  index_le b i hi := by
    cases mem_singleton.1 hi
    exact Nat.zero_le _
  looked_at b i hi j hj := by
    cases mem_singleton.1 hi
    exact absurd hj (Nat.not_lt_zero j)
  finished b hb := nomatch hb

theorem orderStep_cases (h : orderStep n adj st = some st') :
    ∃ b i rest, st.stack = (b, i) :: rest ∧
      ((∃ c, (adj b)[i]? = some c ∧ c < n ∧ st.visited c = false ∧
          st' = ⟨update st.visited c true, (c, 0) :: (b, i + 1) :: rest, st.postorder⟩)
        ∨ (∃ c, (adj b)[i]? = some c ∧ (c < n → st.visited c = true) ∧
          st' = { st with stack := (b, i + 1) :: rest })
        ∨ ((adj b)[i]? = none ∧ st' = ⟨st.visited, rest, st.postorder ++ [b]⟩)) := by
  unfold orderStep at h
  split at h
  · simp at h
  rename_i b i rest hstack
  refine ⟨b, i, rest, hstack, ?_⟩
  split at h
  next c hc =>
    split at h
    next hfresh => exact .inl ⟨c, hc, hfresh.1, hfresh.2, (Option.some.inj h).symm⟩
    next hold =>
      refine .inr (.inl ⟨c, hc, ?_, (Option.some.inj h).symm⟩)
      intro hlt
      by_contra hv
      exact hold ⟨hlt, by simpa using hv⟩
  next hnone => exact .inr (.inr ⟨hnone, (Option.some.inj h).symm⟩)

/-- What is still to be done: a node not met yet costs its successors, a push and
a finish; a node on the stack what is left of it. -/
def orderPotential (n : ℕ) (adj : ℕ → List ℕ) (st : OrderState) : ℕ :=
  (∑ b ∈ unmarked n st.visited, ((adj b).length + 2))
    + (st.stack.map fun p => (adj p.1).length + 1 - p.2).sum

theorem OrderInv.push (hinv : OrderInv n adj entry st) (c : ℕ) :
    OrderInv n adj entry ⟨update st.visited c true, (c, 0) :: st.stack, st.postorder⟩ := by
  have hgrow : ∀ d, st.visited d = true → update st.visited c true d = true :=
    fun d hd => update_true_iff.2 (.inr hd)
  refine ⟨hgrow _ hinv.entry_visited, ?_, ?_, ?_, ?_⟩
  · intro d hd
    rcases update_true_iff.1 hd with rfl | hd
    · exact .inl ⟨0, .head _⟩
    · exact (hinv.placed d hd).imp_left fun ⟨j, hj⟩ => ⟨j, .tail _ hj⟩
  · intro d j hd
    rcases mem_cons.1 hd with hd | hd
    · cases hd; exact Nat.zero_le _
    · exact hinv.index_le d j hd
  · intro d j hd k hk e he hlt
    rcases mem_cons.1 hd with hd | hd
    · cases hd; exact absurd hk (Nat.not_lt_zero k)
    · exact hgrow e (hinv.looked_at d j hd k hk e he hlt)
  intro d hd e hde
  exact hgrow e (hinv.finished d hd e hde)

theorem OrderInv.advance {visited : ℕ → Bool} {l : List (ℕ × ℕ)} {post : List ℕ}
    {c : ℕ} (hinv : OrderInv n adj entry ⟨visited, l ++ (b, i) :: rest, post⟩)
    (hc : (adj b)[i]? = some c) (hseen : c < n → visited c = true) :
    OrderInv n adj entry ⟨visited, l ++ (b, i + 1) :: rest, post⟩ := by
  have htop : (b, i) ∈ l ++ (b, i) :: rest := mem_append_right _ (.head _)
  -- an entry of the new stack is the advanced one or an old one
  have hmem : ∀ p, p ∈ l ++ (b, i + 1) :: rest → p = (b, i + 1) ∨ p ∈ l ++ (b, i) :: rest := by
    intro p
    simp only [mem_append, mem_cons]
    tauto
  refine ⟨hinv.entry_visited, ?_, ?_, ?_, hinv.finished⟩
  · intro d hd
    refine (hinv.placed d hd).imp_left fun ⟨j, hj⟩ => ?_
    simp only [mem_append, mem_cons] at hj ⊢
    rcases hj with hj | hj | hj
    · exact ⟨j, .inl hj⟩
    · cases hj
      exact ⟨_, .inr (.inl rfl)⟩
    · exact ⟨j, .inr (.inr hj)⟩
  · intro d j hd
    rcases hmem _ hd with hd | hd
    · cases hd; exact (List.getElem?_eq_some_iff.1 hc).1
    · exact hinv.index_le d j hd
  intro d j hd k hk e he hlt
  rcases hmem _ hd with hd | hd
  · obtain ⟨rfl, rfl⟩ := Prod.mk.inj hd
    rcases Nat.lt_succ_iff_lt_or_eq.1 hk with hk | rfl
    · exact hinv.looked_at d i htop k hk e he hlt
    rw [hc] at he
    cases he
    exact hseen hlt
  · exact hinv.looked_at d j hd k hk e he hlt

section

variable (hinv : OrderInv n adj entry st) (h : orderStep n adj st = some st')
include hinv h

theorem orderInv_step : OrderInv n adj entry st' := by
  obtain ⟨b, i, rest, hstack, hcase⟩ := orderStep_cases h
  obtain ⟨visited, stack, post⟩ := st
  obtain rfl : stack = (b, i) :: rest := hstack
  rcases hcase with ⟨c, hc, -, -, rfl⟩ | ⟨c, hc, hold, rfl⟩ | ⟨hnone, rfl⟩
  · exact (hinv.push c).advance (l := [(c, 0)]) hc (fun _ => by simp)
  · exact hinv.advance (l := []) hc hold
  -- the node on top is finished: all its successors have been looked at
  have hall : ∀ c, EdgeIn n adj b c → visited c = true := by
    rintro c ⟨hmem, hlt⟩
    obtain ⟨k, hk, hkc⟩ := getElem_of_mem hmem
    refine hinv.looked_at b i (.head _) k ?_ c
      (List.getElem?_eq_some_iff.2 ⟨hk, hkc⟩) hlt
    exact hk.trans_le (getElem?_eq_none_iff.1 hnone)
  refine ⟨hinv.entry_visited, ?_, ?_, ?_, ?_⟩
  · intro d hd
    rcases hinv.placed d hd with ⟨j, hj⟩ | hpost
    · rcases mem_cons.1 hj with hj | hj
      · cases hj
        exact .inr (by simp)
      · exact .inl ⟨j, hj⟩
    · exact .inr (mem_append_left _ hpost)
  · exact fun d j hd => hinv.index_le d j (.tail _ hd)
  · exact fun d j hd => hinv.looked_at d j (.tail _ hd)
  intro d hd
  rcases mem_append.1 hd with hd | hd
  · exact hinv.finished d hd
  · rw [mem_singleton.1 hd]; exact hall

theorem orderPotential_step : orderPotential n adj st' < orderPotential n adj st := by
  obtain ⟨b, i, rest, hstack, hcase⟩ := orderStep_cases h
  have hle : i ≤ (adj b).length := hinv.index_le b i (by rw [hstack]; exact .head _)
  rcases hcase with ⟨c, hc, hlt, hfresh, rfl⟩ | ⟨c, hc, -, rfl⟩ | ⟨-, rfl⟩
  · obtain ⟨heq, hmem⟩ := unmarked_update hlt hfresh
    have hilt : i < (adj b).length := (List.getElem?_eq_some_iff.1 hc).1
    have hsum := Finset.add_sum_erase (unmarked n st.visited)
      (fun b => (adj b).length + 2) hmem
    simp only [orderPotential, heq, hstack, map_cons, sum_cons]
    omega
  · have hilt : i < (adj b).length := (List.getElem?_eq_some_iff.1 hc).1
    simp only [orderPotential, hstack, map_cons, sum_cons]
    omega
  simp only [orderPotential, hstack, map_cons, sum_cons]
  omega

end

/-- The nodes on the stack are a path from the root, most recent first. -/
def StackPath (n : ℕ) (adj : ℕ → List ℕ) (entry : ℕ) : List (ℕ × ℕ) → Prop
  | [] => True
  | [p] => p.1 = entry
  | p :: q :: rest => EdgeIn n adj q.1 p.1 ∧ StackPath n adj entry (q :: rest)

theorem StackPath.tail {p : ℕ × ℕ}
    (h : StackPath n adj entry (p :: rest)) : StackPath n adj entry rest := by
  cases rest with
  | nil => exact trivial
  | cons q rest => exact h.2

theorem StackPath.advance {j : ℕ}
    (h : StackPath n adj entry ((b, i) :: rest)) : StackPath n adj entry ((b, j) :: rest) := by
  cases rest with
  | nil => exact h
  | cons q rest => exact h

/-- What holds between two steps of the order produced: every node is there once, and a
node that is finished was entered from one that is finished later. -/
structure OrderShape (n : ℕ) (adj : ℕ → List ℕ) (entry : ℕ) (st : OrderState) : Prop where
  path : StackPath n adj entry st.stack
  nodup : (st.stack.map Prod.fst ++ st.postorder).Nodup
  seen : ∀ b ∈ st.stack.map Prod.fst ++ st.postorder, st.visited b = true
  reachable : ∀ b, st.visited b = true → Flow.Reachable entry (EdgeIn n adj) b
  entered : ∀ l₁ b l₂, st.postorder = l₁ ++ b :: l₂ → b ≠ entry →
    ∃ a, EdgeIn n adj a b ∧ (a ∈ l₂ ∨ a ∈ st.stack.map Prod.fst)

theorem orderShape_start (n : ℕ) (adj : ℕ → List ℕ) (entry : ℕ) :
    OrderShape n adj entry (orderStart entry) where
  path := rfl
  nodup := by simp [orderStart]
  seen := by simp [orderStart]
  reachable b hb := by
    obtain rfl : b = entry := by simpa [orderStart, update_true_iff] using hb
    exact .refl
  entered := by simp [orderStart]

theorem orderShape_step (hsh : OrderShape n adj entry st)
    (h : orderStep n adj st = some st') : OrderShape n adj entry st' := by
  obtain ⟨b, i, rest, hstack, hcase⟩ := orderStep_cases h
  obtain ⟨visited, stack, post⟩ := st
  obtain rfl : stack = (b, i) :: rest := hstack
  rcases hcase with ⟨c, hc, hlt, hfresh, rfl⟩ | ⟨c, hc, -, rfl⟩ | ⟨-, rfl⟩
  · have hedge : EdgeIn n adj b c := ⟨mem_of_getElem? hc, hlt⟩
    have hnew : c ∉ b :: rest.map Prod.fst ++ post := by
      intro hmem
      have hseen := hsh.seen c hmem
      rw [hfresh] at hseen
      cases hseen
    refine ⟨⟨hedge, hsh.path.advance⟩, nodup_cons.2 ⟨hnew, hsh.nodup⟩, ?_, ?_, ?_⟩
    · exact fun d hd => update_true_iff.2 ((mem_cons.1 hd).imp_right (hsh.seen d))
    · intro d hd
      rcases update_true_iff.1 hd with rfl | hd
      · exact (hsh.reachable b (hsh.seen b (by simp))).step hedge
      · exact hsh.reachable d hd
    intro l₁ d l₂ hpost hd
    obtain ⟨a, ha, hplace⟩ := hsh.entered l₁ d l₂ hpost hd
    exact ⟨a, ha, hplace.imp_right (.tail _)⟩
  · exact ⟨hsh.path.advance, hsh.nodup, hsh.seen, hsh.reachable, hsh.entered⟩
  have hperm : (rest.map Prod.fst ++ (post ++ [b])).Perm (b :: (rest.map Prod.fst ++ post)) := by
    rw [← append_assoc]
    exact perm_append_singleton b _
  refine ⟨hsh.path.tail, hperm.nodup_iff.2 hsh.nodup, ?_, hsh.reachable, ?_⟩
  · intro d hd
    exact hsh.seen d (hperm.mem_iff.1 hd)
  intro l₁ d l₂ hpost hd
  rcases eq_nil_or_concat l₂ with rfl | ⟨l2', x, rfl⟩
  · -- the node just finished was entered from the one below it
    obtain ⟨-, hbd⟩ := append_inj' hpost rfl
    obtain rfl : b = d := by simpa using hbd
    cases rest with
    | nil => exact absurd hsh.path hd
    | cons q rest => exact ⟨q.1, hsh.path.1, .inr (by simp)⟩
  rw [concat_eq_append, ← cons_append, ← append_assoc] at hpost
  obtain ⟨hold, hbx⟩ := append_inj' hpost rfl
  obtain rfl : b = x := by simpa using hbx
  obtain ⟨a, ha, hplace⟩ := hsh.entered l₁ d l2' hold hd
  refine ⟨a, ha, ?_⟩
  rcases hplace with hl | hs
  · exact .inl (by simp [hl])
  rcases mem_cons.1 hs with rfl | hs
  · exact .inl (by simp)
  · exact .inr hs

/-- **The walk lists the reachable nodes, each once and before a node it was entered
from.** -/
theorem postOrder_spec (n : ℕ) (adj : ℕ → List ℕ) (entry : ℕ) :
    ∃ t bound, (∀ fuel, bound ≤ fuel → Loop.run (orderStep n adj) fuel (orderStart entry) = some t)
      ∧ (∀ b, b ∈ t.postorder ↔ Flow.Reachable entry (EdgeIn n adj) b)
      ∧ t.postorder.Nodup
      ∧ ∀ l₁ b l₂, t.postorder = l₁ ++ b :: l₂ → b ≠ entry → ∃ a ∈ l₂, EdgeIn n adj a b := by
  obtain ⟨t, ht, hinv, hdone⟩ := Loop.run_ends
    (fun _ _ hi hs => ⟨orderInv_step hi hs, orderPotential_step hi hs⟩) _
    (orderInv_start n adj entry)
  obtain ⟨hsh, -⟩ := Loop.run_invariant (fun _ _ hi hs => orderShape_step hi hs) _ _ _
    (orderShape_start n adj entry) (ht _ (Nat.lt_succ_self _))
  have hempty : t.stack = [] := by
    unfold orderStep at hdone
    split at hdone
    · assumption
    split at hdone
    · split at hdone <;> cases hdone
    · cases hdone
  have hpost : ∀ b, t.visited b = true → b ∈ t.postorder := by
    intro b hb
    rcases hinv.placed b hb with ⟨i, hi⟩ | hpost
    · rw [hempty] at hi; simp at hi
    · exact hpost
  refine ⟨t, _, ht, ?_, ?_, ?_⟩
  · intro b
    refine ⟨fun hb => hsh.reachable b (hsh.seen b (mem_append_right _ hb)), fun hb => ?_⟩
    refine hpost b (hb.mem_of_closed (S := fun b => t.visited b = true) hinv.entry_visited ?_)
    intro a c ha hac
    exact hinv.finished a (hpost a ha) c hac
  · exact (nodup_append.1 hsh.nodup).2.1
  intro l₁ b l₂ hsplit hb
  obtain ⟨a, ha, hplace⟩ := hsh.entered l₁ b l₂ hsplit hb
  rw [hempty] at hplace
  exact ⟨a, hplace.resolve_right (by simp), ha⟩

end

/-! ## Marking on removal -/

section MarkOnPop

variable {α : Type*} [DecidableEq α]

/-- The nodes seen so far, each once, and the stack of nodes to look at. -/
structure PopState (α : Type*) where
  seen : List α
  work : List α

/-- Pop a node; the first time it is met, push those of its neighbours that were not seen. -/
def popStep (adj : α → List α) (st : PopState α) : Option (PopState α) :=
  match st.work with
  | [] => none
  | b :: rest =>
    if b ∈ st.seen then some ⟨st.seen, rest⟩
    else some ⟨b :: st.seen, ((adj b).filter fun s => s ∉ b :: st.seen).reverse ++ rest⟩

/-- What every step keeps: everything met is reachable and lies in the universe, and an
edge out of a seen node leads to a node that was seen or is on the stack. -/
structure PopInv (adj : α → List α) (entry : α) (U : Finset α) (st : PopState α) : Prop where
  nodup : st.seen.Nodup
  met : ∀ b ∈ st.seen ++ st.work, Flow.Reachable entry (fun a c => c ∈ adj a) b ∧ b ∈ U
  start : entry ∈ st.seen ++ st.work
  closed : ∀ b ∈ st.seen, ∀ c ∈ adj b, c ∈ st.seen ++ st.work

variable {adj : α → List α} {entry : α} {U : Finset α}

variable {st' st : PopState α}

theorem popStep_cases (h : popStep adj st = some st') :
    (∃ b rest, st.work = b :: rest ∧ b ∈ st.seen ∧ st' = ⟨st.seen, rest⟩) ∨
    (∃ b rest, st.work = b :: rest ∧ b ∉ st.seen ∧
      st' = ⟨b :: st.seen, ((adj b).filter fun s => s ∉ b :: st.seen).reverse ++ rest⟩) := by
  unfold popStep at h
  split at h
  · simp at h
  rename_i b rest hwork
  split at h
  next hb => exact .inl ⟨b, rest, hwork, hb, (Option.some.inj h).symm⟩
  next hb => exact .inr ⟨b, rest, hwork, hb, (Option.some.inj h).symm⟩

theorem popInv_step (hU : ∀ b ∈ U, ∀ c ∈ adj b, c ∈ U) (hinv : PopInv adj entry U st)
    (h : popStep adj st = some st') :
    PopInv adj entry U st' ∧ Prod.Lex (· < ·) (· < ·)
      (U.card - st'.seen.length, st'.work.length) (U.card - st.seen.length, st.work.length) := by
  obtain ⟨hnodup, hmet, hstart, hclosed⟩ := hinv
  rcases popStep_cases h with ⟨b, rest, hwork, hb, rfl⟩ | ⟨b, rest, hwork, hb, rfl⟩
  · -- a node met before: nothing but the stack changes
    have hkeep : ∀ c, c ∈ st.seen ++ st.work → c ∈ st.seen ++ rest := by
      intro c hc
      simp only [hwork, mem_append, mem_cons] at hc ⊢
      rcases hc with hc | rfl | hc
      · exact .inl hc
      · exact .inl hb
      · exact .inr hc
    refine ⟨⟨hnodup, ?_, hkeep _ hstart, fun a ha c hc => hkeep c (hclosed a ha c hc)⟩, ?_⟩
    · intro c hc
      refine hmet c ?_
      rw [hwork]
      exact mem_append.2 ((mem_append.1 hc).imp_right (.tail _))
    refine .right _ ?_
    rw [hwork]
    exact Nat.lt_succ_self _
  have hbmet := hmet b (by rw [hwork]; simp)
  have hkeep : ∀ c, c ∈ st.seen ++ st.work →
      c ∈ b :: st.seen ++ (((adj b).filter fun s => s ∉ b :: st.seen).reverse ++ rest) := by
    intro c hc
    rw [hwork] at hc
    simp only [cons_append, mem_cons, mem_append] at hc ⊢
    tauto
  refine ⟨⟨nodup_cons.2 ⟨hb, hnodup⟩, ?_, hkeep _ hstart, ?_⟩, ?_⟩
  · intro c hc
    simp only [cons_append, mem_cons, mem_append, mem_reverse, mem_filter] at hc
    rcases hc with rfl | hc | ⟨hc, -⟩ | hc
    · exact hbmet
    · exact hmet c (mem_append_left _ hc)
    · exact ⟨hbmet.1.step hc, hU b hbmet.2 c hc⟩
    · exact hmet c (by rw [hwork]; simp [hc])
  · intro a ha c hc
    rcases mem_cons.1 ha with rfl | ha
    · by_cases hcs : c ∈ a :: st.seen
      · exact mem_append_left _ hcs
      refine mem_append_right _ (mem_append_left _ ?_)
      rw [mem_reverse, mem_filter]
      exact ⟨hc, by simpa using hcs⟩
    · exact hkeep c (hclosed a ha c hc)
  refine .left _ _ ?_
  have hsub : (b :: st.seen).length ≤ U.card := by
    rw [← toFinset_card_of_nodup (nodup_cons.2 ⟨hb, hnodup⟩)]
    refine Finset.card_le_card ?_
    intro c hc
    rcases mem_cons.1 (mem_toFinset.1 hc) with rfl | hc
    · exact hbmet.2
    · exact (hmet c (mem_append_left _ hc)).2
  rw [length_cons] at hsub ⊢
  omega

/-- **Marking on removal.**  In a finite universe closed under the edges the search ends,
and the nodes it has seen are the reachable ones, each listed once. -/
theorem pop_marks_reachable (adj : α → List α) (entry : α) (U : Finset α)
    (hU : ∀ b ∈ U, ∀ c ∈ adj b, c ∈ U) (hentry : entry ∈ U) :
    ∃ bound seen, (∀ fuel, bound ≤ fuel →
        Loop.run (popStep adj) fuel ⟨[], [entry]⟩ = some ⟨seen, []⟩)
      ∧ seen.Nodup ∧ ∀ b, b ∈ seen ↔ Flow.Reachable entry (fun a c => c ∈ adj a) b := by
  have hstart : PopInv adj entry U ⟨[], [entry]⟩ := by
    refine ⟨nodup_nil, ?_, by simp, by simp⟩
    intro b hb
    obtain rfl : b = entry := by simpa using hb
    exact ⟨Flow.Reachable.refl, hentry⟩
  have hwf : WellFounded (Prod.Lex (· < · : ℕ → ℕ → Prop) (· < · : ℕ → ℕ → Prop)) :=
    WellFounded.prod_lex wellFounded_lt wellFounded_lt
  obtain ⟨bound, t, hrun, ⟨hnodup, hmet, hin, hclosed⟩, hend⟩ := Loop.run_ends_of_wf hwf
    (fun s s' hs hstep => popInv_step hU hs hstep) _ hstart
  have hwork : t.work = [] := by
    unfold popStep at hend
    split at hend
    · assumption
    · split at hend <;> simp at hend
  obtain ⟨seen, work⟩ := t
  obtain rfl : work = [] := hwork
  simp only [append_nil] at hmet hin hclosed
  refine ⟨bound, seen, hrun, hnodup, ?_⟩
  intro b
  exact ⟨fun hb => (hmet b hb).1, fun hb => hb.mem_of_closed hin fun a c ha hc => hclosed a ha c hc⟩

/-! ## Looking for a target -/

/-- The nodes expanded so far, the stack, and whether the target has been met. -/
structure SeekState (α : Type*) where
  seen : List α
  work : List α
  found : Bool

/-- Pop a node and, the first time it is met, look for the target among its neighbours. -/
def seekStep (adj : α → List α) (target : α) (st : SeekState α) : Option (SeekState α) :=
  if st.found then none
  else
    match st.work with
    | [] => none
    | b :: rest =>
      if b ∈ st.seen then some { st with work := rest }
      else if target ∈ adj b then some { st with found := true }
      else some ⟨b :: st.seen, (adj b).reverse ++ rest, false⟩

/-- Whether an edge into the target is met in a search from `start`. -/
def seek (fuel : ℕ) (adj : α → List α) (target start : α) : Option Bool :=
  (Loop.run (seekStep adj target) fuel ⟨[], [start], false⟩).map SeekState.found

/-- What every step keeps. -/
structure SeekInv (adj : α → List α) (target start : α) (U : Finset α) (st : SeekState α) :
    Prop where
  nodup : st.seen.Nodup
  met : ∀ b ∈ st.seen ++ st.work, Relation.ReflTransGen (fun a c => c ∈ adj a) start b ∧ b ∈ U
  begun : start ∈ st.seen ++ st.work
  closed : ∀ b ∈ st.seen, target ∉ adj b ∧ ∀ c ∈ adj b, c ∈ st.seen ++ st.work
  hit : st.found = true → Relation.TransGen (fun a c => c ∈ adj a) start target

/-- What is still to be done: a node not expanded yet costs its neighbours and a turn. -/
def seekPotential (adj : α → List α) (U : Finset α) (st : SeekState α) : ℕ :=
  (∑ b ∈ U \ st.seen.toFinset, ((adj b).length + 2)) + st.work.length
    + if st.found then 0 else 1

theorem seekInv_step {target start : α} (hU : ∀ b ∈ U, ∀ c ∈ adj b, c ∈ U) {st st' : SeekState α}
    (hinv : SeekInv adj target start U st) (h : seekStep adj target st = some st') :
    SeekInv adj target start U st' ∧ seekPotential adj U st' < seekPotential adj U st := by
  obtain ⟨seen, work, found⟩ := st
  obtain ⟨hnodup, hmet, hbegun, hclosed, hhit⟩ := hinv
  cases found with
  | true => simp [seekStep] at h
  | false =>
    cases work with
    | nil => simp [seekStep] at h
    | cons b rest =>
      simp only [seekStep, Bool.false_eq_true, if_false] at h
      have hb := hmet b (by simp)
      split_ifs at h with hseen hhere
      · -- a node met before
        cases h
        have hkeep : ∀ c, c ∈ seen ++ b :: rest → c ∈ seen ++ rest := by
          intro c hc
          simp only [mem_append, mem_cons] at hc ⊢
          rcases hc with hc | rfl | hc
          · exact .inl hc
          · exact .inl hseen
          · exact .inr hc
        refine ⟨⟨hnodup, ?_, hkeep _ hbegun, ?_, hhit⟩, ?_⟩
        · intro c hc
          refine hmet c ?_
          simp only [mem_append, mem_cons] at hc ⊢
          tauto
        · intro a ha
          exact ⟨(hclosed a ha).1, fun c hc => hkeep c ((hclosed a ha).2 c hc)⟩
        simp only [seekPotential, length_cons]
        omega
      · -- the target is a neighbour
        cases h
        refine ⟨⟨hnodup, hmet, hbegun, hclosed, fun _ => ?_⟩, ?_⟩
        · exact .tail' hb.1 hhere
        simp only [seekPotential, if_true, Bool.false_eq_true, if_false]
        omega
      cases h
      have hkeep : ∀ c, c ∈ seen ++ b :: rest → c ∈ b :: seen ++ ((adj b).reverse ++ rest) := by
        intro c hc
        simp only [cons_append, mem_append, mem_cons] at hc ⊢
        tauto
      refine ⟨⟨nodup_cons.2 ⟨hseen, hnodup⟩, ?_, hkeep _ hbegun, ?_,
        fun hf => absurd hf (by simp)⟩, ?_⟩
      · intro c hc
        simp only [cons_append, mem_cons, mem_append, mem_reverse] at hc
        rcases hc with rfl | hc | hc | hc
        · exact hb
        · exact hmet c (mem_append_left _ hc)
        · exact ⟨hb.1.tail hc, hU b hb.2 c hc⟩
        · exact hmet c (by simp [hc])
      · intro a ha
        rcases mem_cons.1 ha with rfl | ha
        · exact ⟨hhere, fun c hc => by simp [hc]⟩
        · exact ⟨(hclosed a ha).1, fun c hc => hkeep c ((hclosed a ha).2 c hc)⟩
      -- the node leaves the sum and its neighbours enter the stack
      have hmem : b ∈ U \ seen.toFinset := by simp [hb.2, hseen]
      have hsum := Finset.add_sum_erase (U \ seen.toFinset)
        (fun b => (adj b).length + 2) hmem
      have herase : (U \ seen.toFinset).erase b = U \ (b :: seen).toFinset := by
        ext c
        simp only [Finset.mem_erase, Finset.mem_sdiff, mem_toFinset, mem_cons]
        tauto
      rw [herase] at hsum
      simp only [seekPotential, length_append, length_reverse, length_cons]
      omega

/-- **Looking for a target.**  In a finite universe closed under the edges the search ends,
within a bound that is the same for all starts, and says whether a path of one edge or more
leads to the target. -/
theorem seek_spec (adj : α → List α) (U : Finset α) (hU : ∀ b ∈ U, ∀ c ∈ adj b, c ∈ U) :
    ∃ bound, ∀ target, ∀ start ∈ U, ∃ r, (∀ fuel, bound ≤ fuel →
        seek fuel adj target start = some r)
      ∧ (r = true ↔ Relation.TransGen (fun a c => c ∈ adj a) start target) := by
  refine ⟨(∑ b ∈ U, ((adj b).length + 2)) + 3, ?_⟩
  intro target start hs
  have hstart : SeekInv adj target start U ⟨[], [start], false⟩ := by
    refine ⟨nodup_nil, ?_, by simp, by simp, fun hf => absurd hf (by simp)⟩
    intro b hb
    obtain rfl : b = start := by simpa using hb
    exact ⟨.refl, hs⟩
  obtain ⟨t, ht, hinv, hend⟩ := Loop.run_ends
    (fun s s' hi hstep => seekInv_step hU hi hstep) _ hstart
  have hpot : seekPotential adj U ⟨[], [start], false⟩ < (∑ b ∈ U, ((adj b).length + 2)) + 3 := by
    simp [seekPotential]
  refine ⟨t.found, fun fuel hfuel => by rw [seek, ht fuel (hpot.trans_le hfuel)]; rfl,
    hinv.hit, ?_⟩
  intro hpath
  by_contra hnot
  have hwork : t.work = [] := by
    unfold seekStep at hend
    rw [if_neg hnot] at hend
    split at hend
    · assumption
    · split_ifs at hend
  have hclosed := hinv.closed
  have hbegun := hinv.begun
  rw [hwork] at hclosed hbegun
  simp only [append_nil] at hclosed hbegun
  -- everything reachable has been expanded, and none of it has the target as a neighbour
  have hall : ∀ b, Relation.ReflTransGen (fun a c => c ∈ adj a) start b → b ∈ t.seen := by
    intro b hb
    induction hb with
    | refl => exact hbegun
    | tail _ hbc ih => exact (hclosed _ ih).2 _ hbc
  obtain ⟨b, hb, hlast⟩ := Relation.TransGen.tail'_iff.1 hpath
  exact (hclosed b (hall b hb)).1 hlast

end MarkOnPop

end TrustCg.Search
