import TrustCg.Lib.Dominators
import TrustCg.Lib.Search

/-!
# Walks over a tree given by parents

Two loops over the tree that a table `idom` of parents describes, each with an
explicit stack: the one that stamps every node with an entry and an exit time, and
the one that lists the nodes in pre-order.

* `tour_spec` : the stamps nest exactly along the chains, so comparing four numbers
  decides whether a node lies above another.
* `preorder_spec` : the list has every node once, after all nodes above it.
-/

namespace TrustCg.TreeTour

open Dominators Search List
open Function (update update_of_ne)

/-! ## Entry and exit times -/

/-- The times stamped so far, the clock, and the nodes being expanded with the index
of their next child. -/
structure TourState where
  tin : ℕ → Option ℕ
  tout : ℕ → Option ℕ
  timer : ℕ
  stack : List (ℕ × ℕ)

/-- Enter the next child of the node on top, or leave the node. -/
def tourStep (kids : ℕ → List ℕ) (st : TourState) : Option TourState :=
  match st.stack with
  | [] => none
  | (b, i) :: rest =>
    match (kids b)[i]? with
    | some c =>
      if (st.tin c).isSome then some { st with stack := (b, i + 1) :: rest }
      else some ⟨update st.tin c (some st.timer), st.tout, st.timer + 1,
        (c, 0) :: (b, i + 1) :: rest⟩
    | none => some ⟨st.tin, update st.tout b (some st.timer), st.timer + 1, rest⟩

/-- The root is entered at time zero. -/
def tourStart (entry : ℕ) : TourState :=
  ⟨update (fun _ => none) entry (some 0), fun _ => none, 1, [(entry, 0)]⟩

/-- The walk with the times forgotten: who has been entered, and who has been left. -/
def TourState.erase (st : TourState) (left : List ℕ) : OrderState :=
  ⟨fun b => (st.tin b).isSome, st.stack, left⟩

variable {entry : ℕ} {num : ℕ → ℕ} {idom : ℕ → Option ℕ} {kids : ℕ → List ℕ}

section

variable {n : ℕ} {st st' : TourState} {b c : ℕ} {left : List ℕ}

/-- The lists of children are those of the table. -/
structure Kids (n : ℕ) (idom : ℕ → Option ℕ) (kids : ℕ → List ℕ) : Prop where
  mem_iff : ∀ b c, c ∈ kids b ↔ idom c = some b ∧ c ≠ b
  nodup : ∀ b, (kids b).Nodup
  lt : ∀ b, (idom b).isSome → b < n

theorem Kids.edge_iff (hk : Kids n idom kids) : EdgeIn n kids b c ↔ idom c = some b ∧ c ≠ b := by
  rw [EdgeIn, hk.mem_iff]
  refine ⟨fun h => h.1, fun h => ⟨h, hk.lt c ?_⟩⟩
  rw [h.1]
  rfl

theorem mem_stack_iff (htree : Tree entry num idom) (hk : Kids n idom kids) :
    ∀ (p : ℕ × ℕ) (rest : List (ℕ × ℕ)), StackPath n kids entry (p :: rest) →
      ∀ a, a ∈ (p :: rest).map Prod.fst ↔ Anc idom a p.1 := by
  intro p rest
  induction rest generalizing p with
  | nil =>
    intro hpath a
    obtain rfl : p.1 = entry := hpath
    rw [htree.anc_entry_iff, eq_comm]
    simp
  | cons q rest ih =>
    intro hpath a
    obtain ⟨hpq, hne⟩ := hk.edge_iff.1 hpath.1
    rw [htree.anc_iff hpq (htree.ne_entry hpq hne.symm), map_cons, mem_cons, ih q hpath.2 a]

theorem tourStep_cases (h : tourStep kids st = some st') : ∃ b i rest, st.stack = (b, i) :: rest ∧
      ((∃ c, (kids b)[i]? = some c ∧ st.tin c = none ∧
          st' = ⟨update st.tin c (some st.timer), st.tout, st.timer + 1,
            (c, 0) :: (b, i + 1) :: rest⟩)
        ∨ (∃ c, (kids b)[i]? = some c ∧ (st.tin c).isSome ∧
          st' = { st with stack := (b, i + 1) :: rest })
        ∨ ((kids b)[i]? = none ∧
          st' = ⟨st.tin, update st.tout b (some st.timer), st.timer + 1, rest⟩)) := by
  unfold tourStep at h
  split at h
  · simp at h
  rename_i b i rest hstack
  refine ⟨b, i, rest, hstack, ?_⟩
  split at h
  next c hc =>
    split at h
    next hseen => exact .inr (.inl ⟨c, hc, hseen, (Option.some.inj h).symm⟩)
    next hfresh => exact .inl ⟨c, hc, by simpa using hfresh, (Option.some.inj h).symm⟩
  next hnone => exact .inr (.inr ⟨hnone, (Option.some.inj h).symm⟩)

theorem isSome_update (f : ℕ → Option ℕ) (c t : ℕ) :
    (fun d => (update f c (some t) d).isSome) = update (fun d => (f d).isSome) c true := by
  funext d
  rw [Function.update_apply, Function.update_apply]
  split_ifs <;> rfl

theorem tourStep_erase (hk : Kids n idom kids)
    (hleft : ∀ b, b ∈ left ↔ (st.tout b).isSome) (h : tourStep kids st = some st') :
    ∃ left', orderStep n kids (st.erase left) = some (st'.erase left')
      ∧ ∀ b, b ∈ left' ↔ (st'.tout b).isSome := by
  obtain ⟨b, i, rest, hstack, hcase⟩ := tourStep_cases h
  rcases hcase with ⟨c, hc, hfresh, rfl⟩ | ⟨c, hc, hseen, rfl⟩ | ⟨hnone, rfl⟩
  · have hlt : c < n := (hk.edge_iff.2 ((hk.mem_iff b c).1 (mem_of_getElem? hc))).2
    refine ⟨left, ?_, hleft⟩
    simp [orderStep, TourState.erase, hstack, hc, hfresh, Option.isSome_none, hlt, isSome_update]
  · refine ⟨left, ?_, hleft⟩
    simp [orderStep, TourState.erase, hstack, hc, hseen, Bool.true_eq_false, and_false]
  refine ⟨left ++ [b], ?_, ?_⟩
  · simp only [orderStep, TourState.erase, hstack, hnone]
  intro d
  by_cases hdb : d = b
  · subst hdb; simp
  · simp [hdb, hleft d]

/-- What holds between two steps.

* `down`, `nest` : a node above another is entered before it and left after it.
* `apart` : of two nodes on different branches the first has been left before the
  second is entered. -/
structure TourInv (idom : ℕ → Option ℕ) (st : TourState) : Prop where
  entered_lt : ∀ b t, st.tin b = some t → t < st.timer
  left_lt : ∀ b t, st.tout b = some t → t < st.timer
  left_entered : ∀ b, (st.tout b).isSome → (st.tin b).isSome
  after : ∀ b t u, st.tin b = some t → st.tout b = some u → t < u
  inj : ∀ a b t, st.tin a = some t → st.tin b = some t → a = b
  closed : ∀ b c, (st.tin b).isSome → idom b = some c → (st.tin c).isSome
  down : ∀ a b t u, st.tin a = some t → st.tin b = some u → Anc idom a b → a ≠ b → t < u
  apart : ∀ a b t u, st.tin a = some t → st.tin b = some u → t < u → ¬ Anc idom a b →
    ∃ e, st.tout a = some e ∧ e < u
  nest : ∀ a b t u, st.tout a = some t → st.tout b = some u → Anc idom a b → u ≤ t

theorem TourInv.entered_of_anc (hinv : TourInv idom st) {a : ℕ}
    (hab : Anc idom a b) (hb : (st.tin b).isSome) : (st.tin a).isSome := by
  induction hab with
  | refl => exact hb
  | up hc _ _ ih => exact ih (hinv.closed _ _ hb hc)

theorem tourInv_start (htree : Tree entry num idom) : TourInv idom (tourStart entry) := by
  have htin : ∀ b t, (tourStart entry).tin b = some t → b = entry ∧ t = 0 := by
    intro b t hb
    by_cases hbe : b = entry
    · subst hbe
      exact ⟨rfl, by simpa [tourStart, eq_comm] using hb⟩
    · simp [tourStart, update_of_ne hbe] at hb
  refine ⟨?_, ?_, ?_, ?_, ?_, ?_, ?_, ?_, ?_⟩
  · intro b t hb
    rw [(htin b t hb).2]
    exact Nat.one_pos
  · intro b t hb; simp [tourStart] at hb
  · intro b hb; simp [tourStart] at hb
  · intro b t u _ hb; simp [tourStart] at hb
  · intro a b t ha hb
    rw [(htin a t ha).1, (htin b t hb).1]
  · intro b c hb hc
    obtain ⟨t, ht⟩ := Option.isSome_iff_exists.1 hb
    rw [(htin b t ht).1, htree.root] at hc
    rw [← Option.some.inj hc]
    simp [tourStart]
  · intro a b t u ha hb _ hne
    exact absurd ((htin a t ha).1.trans (htin b u hb).1.symm) hne
  · intro a b t u ha hb hlt
    rw [(htin a t ha).2, (htin b u hb).2] at hlt
    exact absurd hlt (lt_irrefl 0)
  · intro a b t u ha; simp [tourStart] at ha

theorem TourInv.enter (hinv : TourInv idom st)
    (hc : idom c = some b ∧ c ≠ b) (hfresh : st.tin c = none)
    (hplaced : ∀ a, (st.tin a).isSome → Anc idom a b ∨ (st.tout a).isSome)
    (habove : ∀ a, Anc idom a b → (st.tin a).isSome) (stack : List (ℕ × ℕ)) :
    TourInv idom ⟨update st.tin c (some st.timer), st.tout, st.timer + 1, stack⟩ := by
  -- the stamps of the other nodes are the old ones
  have htin : ∀ d t, update st.tin c (some st.timer) d = some t →
      (d = c ∧ t = st.timer) ∨ (d ≠ c ∧ st.tin d = some t) := fun d t => update_some_iff.1
  have hgrow := fun d hd => (Dominators.isSome_update st.tin c st.timer d).2 (.inr hd)
  refine ⟨?_, ?_, fun d hd => hgrow d (hinv.left_entered d hd), ?_, ?_, ?_, ?_, ?_, hinv.nest⟩
  · intro d t hd
    rcases htin d t hd with ⟨-, rfl⟩ | ⟨-, hd⟩
    · exact Nat.lt_succ_self _
    · exact (hinv.entered_lt d t hd).trans (Nat.lt_succ_self _)
  · intro d t hd
    exact (hinv.left_lt d t hd).trans (Nat.lt_succ_self _)
  · intro d t u hd hu
    rcases htin d t hd with ⟨rfl, -⟩ | ⟨-, hd⟩
    · have hin := hinv.left_entered d (by rw [show st.tout d = some u from hu]; rfl)
      rw [hfresh] at hin
      simp at hin
    · exact hinv.after d t u hd hu
  · intro a d t ha hd
    rcases htin a t ha with ⟨hac, hat⟩ | ⟨-, ha'⟩ <;>
      rcases htin d t hd with ⟨hdc, hdt⟩ | ⟨-, hd'⟩
    · exact hac.trans hdc.symm
    · exact absurd (hinv.entered_lt d t hd') (not_lt.2 hat.ge)
    · exact absurd (hinv.entered_lt a t ha') (not_lt.2 hdt.ge)
    · exact hinv.inj a d t ha' hd'
  · intro d e hd he
    by_cases hdc : d = c
    · subst hdc
      rw [hc.1] at he
      cases he
      exact hgrow _ (habove _ (.refl _))
    refine hgrow e (hinv.closed d e ?_ he)
    simpa [update_of_ne hdc] using hd
  · intro a d t u ha hd had hne
    rcases htin a t ha with ⟨hac, -⟩ | ⟨-, ha'⟩ <;> rcases htin d u hd with ⟨hdc, hdt⟩ | ⟨-, hd'⟩
    · exact absurd (hac.trans hdc.symm) hne
    · -- nothing below the child has been entered
      have hin := hinv.entered_of_anc had (by rw [hd']; rfl)
      rw [hac, hfresh] at hin
      simp at hin
    · rw [hdt]
      exact hinv.entered_lt a t ha'
    · exact hinv.down a d t u ha' hd' had hne
  intro a d t u ha hd hlt hnot
  rcases htin a t ha with ⟨-, hat⟩ | ⟨-, ha'⟩ <;> rcases htin d u hd with ⟨hdc, hdt⟩ | ⟨-, hd'⟩
  · exact absurd hlt (not_lt.2 (hdt.trans hat.symm).le)
  · exact absurd (hinv.entered_lt d u hd') (not_lt.2 (hat ▸ hlt.le))
  · rcases hplaced a (by rw [ha']; rfl) with hab | hleft
    · rw [hdc] at hnot
      exact absurd (.up hc.1 (Ne.symm hc.2) hab) hnot
    obtain ⟨e, he⟩ := Option.isSome_iff_exists.1 hleft
    exact ⟨e, he, hdt ▸ hinv.left_lt a e he⟩
  · exact hinv.apart a d t u ha' hd' hlt hnot

theorem TourInv.leave (hinv : TourInv idom st)
    (hin : (st.tin b).isSome) (hnotleft : st.tout b = none)
    (habove : ∀ a, Anc idom a b → st.tout a = none) (stack : List (ℕ × ℕ)) :
    TourInv idom ⟨st.tin, update st.tout b (some st.timer), st.timer + 1, stack⟩ := by
  have htout : ∀ d t, update st.tout b (some st.timer) d = some t →
      (d = b ∧ t = st.timer) ∨ (d ≠ b ∧ st.tout d = some t) := fun d t => update_some_iff.1
  refine ⟨?_, ?_, ?_, ?_, hinv.inj, hinv.closed, hinv.down, ?_, ?_⟩
  · intro d t hd
    exact (hinv.entered_lt d t hd).trans (Nat.lt_succ_self _)
  · intro d t hd
    rcases htout d t hd with ⟨-, rfl⟩ | ⟨-, hd'⟩
    · exact Nat.lt_succ_self _
    · exact (hinv.left_lt d t hd').trans (Nat.lt_succ_self _)
  · intro d hd
    obtain ⟨t, ht⟩ := Option.isSome_iff_exists.1 hd
    rcases htout d t ht with ⟨rfl, -⟩ | ⟨-, ht'⟩
    · exact hin
    · exact hinv.left_entered d (by rw [ht']; rfl)
  · intro d t u hd hu
    rcases htout d u hu with ⟨-, rfl⟩ | ⟨-, hu'⟩
    · exact hinv.entered_lt d t hd
    · exact hinv.after d t u hd hu'
  · intro a d t u ha hd hlt hnot
    obtain ⟨e, he, hlt'⟩ := hinv.apart a d t u ha hd hlt hnot
    have hab : a ≠ b := by
      rintro rfl
      rw [hnotleft] at he
      simp at he
    exact ⟨e, (update_of_ne hab ..).trans he, hlt'⟩
  intro a d t u ha hd had
  rcases htout a t ha with ⟨-, hat⟩ | ⟨-, ha'⟩ <;> rcases htout d u hd with ⟨hdb, hdt⟩ | ⟨-, hd'⟩
  · exact (hdt.trans hat.symm).le
  · exact hat ▸ (hinv.left_lt d u hd').le
  · rw [hdb] at had
    rw [habove a had] at ha'
    simp at ha'
  · exact hinv.nest a d t u ha' hd' had

/-- The invariants of the plain walk and of the stamps together. -/
structure TourWalk (n entry : ℕ) (idom : ℕ → Option ℕ) (kids : ℕ → List ℕ) (st : TourState)
    (left : List ℕ) : Prop where
  mem_left : ∀ b, b ∈ left ↔ (st.tout b).isSome
  order : OrderInv n kids entry (st.erase left)
  shape : OrderShape n kids entry (st.erase left)
  stamps : TourInv idom st

section

variable (htree : Tree entry num idom) (hk : Kids n idom kids)
include htree hk

theorem tourWalk_step (hw : TourWalk n entry idom kids st left) (h : tourStep kids st = some st') :
    ∃ left', TourWalk n entry idom kids st' left'
      ∧ orderPotential n kids (st'.erase left') < orderPotential n kids (st.erase left) := by
  obtain ⟨left', hstep, hleft'⟩ := tourStep_erase hk hw.mem_left h
  refine ⟨left', ⟨hleft', orderInv_step hw.order hstep, orderShape_step hw.shape hstep, ?_⟩,
    orderPotential_step hw.order hstep⟩
  obtain ⟨b, i, rest, hstack, hcase⟩ := tourStep_cases h
  have hpath : StackPath n kids entry ((b, i) :: rest) := hstack ▸ hw.shape.path
  have hmem : ∀ a, a ∈ st.stack.map Prod.fst ↔ Anc idom a b := by
    rw [hstack]
    exact mem_stack_iff htree hk (b, i) rest hpath
  have habove : ∀ a, Anc idom a b → (st.tin a).isSome := fun a ha =>
    hw.shape.seen a (mem_append_left _ ((hmem a).2 ha))
  rcases hcase with ⟨c, hc, hfresh, rfl⟩ | ⟨c, hc, -, rfl⟩ | ⟨-, rfl⟩
  · refine hw.stamps.enter ((hk.mem_iff b c).1 (mem_of_getElem? hc)) hfresh ?_ habove _
    intro a ha
    rcases hw.order.placed a ha with ⟨j, hj⟩ | hpost
    · exact .inl ((hmem a).1 (mem_map_of_mem hj))
    · exact .inr ((hw.mem_left a).1 hpost)
  · exact { hw.stamps with }
  -- a node on the stack has not been left
  have hopen : ∀ a, Anc idom a b → st.tout a = none := by
    intro a ha
    by_contra hne
    have hleft := (hw.mem_left a).2 (Option.isSome_iff_ne_none.2 hne)
    exact (nodup_append.1 hw.shape.nodup).2.2 a ((hmem a).2 ha) a hleft rfl
  exact hw.stamps.leave (habove b (.refl b)) (hopen b (.refl b)) hopen _

/-- **The stamps nest exactly along the chains.** -/
theorem tour_spec :
    ∃ t bound, (∀ fuel, bound ≤ fuel → Loop.run (tourStep kids) fuel (tourStart entry) = some t)
      ∧ (∀ b, (t.tin b).isSome ↔ (idom b).isSome) ∧ (∀ b, (t.tout b).isSome ↔ (idom b).isSome)
      ∧ ∀ a b ta tb ua ub, t.tin a = some ta → t.tin b = some tb → t.tout a = some ua →
          t.tout b = some ub → ((ta ≤ tb ∧ ub ≤ ua) ↔ Anc idom a b) := by
  let Inv : TourState → Prop := fun st => ∃ left, TourWalk n entry idom kids st left
  have hstep : ∀ st st', Inv st → tourStep kids st = some st' →
      Inv st' ∧ orderPotential n kids (st'.erase []) < orderPotential n kids (st.erase []) := by
    rintro st st' ⟨left, hw⟩ hs
    obtain ⟨left', hw', hlt⟩ := tourWalk_step htree hk hw hs
    exact ⟨⟨left', hw'⟩, hlt⟩
  have hstart : Inv (tourStart entry) := by
    have herase : (tourStart entry).erase [] = orderStart entry := by
      rw [TourState.erase, tourStart, isSome_update]
      rfl
    refine ⟨[], by simp [tourStart], ?_, ?_, tourInv_start htree⟩
    · rw [herase]; exact orderInv_start n kids entry
    · rw [herase]; exact orderShape_start n kids entry
  obtain ⟨t, ht, ⟨left, hw⟩, hdone⟩ := Loop.run_ends
    (μ := fun st : TourState => orderPotential n kids (st.erase [])) hstep _ hstart
  have hempty : t.stack = [] := by
    cases hs : t.stack with
    | nil => rfl
    | cons p rest =>
      obtain ⟨b, i⟩ := p
      unfold tourStep at hdone
      rw [hs] at hdone
      simp only at hdone
      split at hdone
      · split at hdone <;> simp at hdone
      · simp at hdone
  have hout : ∀ b, (t.tin b).isSome → (t.tout b).isSome := by
    intro b hb
    rcases hw.order.placed b hb with ⟨j, hj⟩ | hpost
    · simp [TourState.erase, hempty] at hj
    · exact (hw.mem_left b).1 hpost
  have hin : ∀ b, (t.tin b).isSome ↔ (idom b).isSome := by
    intro b
    constructor
    · intro hb
      refine (hw.shape.reachable b hb).mem_of_closed (S := fun b => (idom b).isSome)
        (by rw [htree.root]; rfl) ?_
      intro a c _ hac
      rw [(hk.edge_iff.1 hac).1]
      rfl
    intro hb
    have hclosed : ∀ {a b}, Anc idom a b → (t.tin a).isSome → (t.tin b).isSome := by
      intro a b hab ha
      induction hab with
      | refl => exact ha
      | up hc hne _ ih =>
        exact hw.order.finished _ ((hw.mem_left _).2 (hout _ ih)) _
          (hk.edge_iff.2 ⟨hc, Ne.symm hne⟩)
    exact hclosed (htree.anc_entry hb) hw.order.entry_visited
  refine ⟨t, _, ht, hin, ?_, ?_⟩
  · exact fun b => ⟨fun hb => (hin b).1 (hw.stamps.left_entered b hb),
      fun hb => hout b ((hin b).2 hb)⟩
  intro a b ta tb ua ub hta htb hua hub
  constructor
  · rintro ⟨hle, hle'⟩
    by_contra hnot
    have hne : ta ≠ tb := by
      rintro rfl
      exact hnot (hw.stamps.inj a b ta hta htb ▸ .refl a)
    obtain ⟨e, he, hlt⟩ := hw.stamps.apart a b ta tb hta htb (lt_of_le_of_ne hle hne) hnot
    cases hua.symm.trans he
    have hafter := hw.stamps.after b tb ub htb hub
    omega
  intro hab
  refine ⟨?_, hw.stamps.nest a b ua ub hua hub hab⟩
  by_cases hne : a = b
  · subst hne
    exact (Option.some.inj (hta.symm.trans htb)).le
  · exact (hw.stamps.down a b ta tb hta htb hab hne).le

end

end

/-! ## Pre-order -/

/-- Take the node on top and put its children in its place. -/
def preorderStep (kids : ℕ → List ℕ) (st : List ℕ × List ℕ) : Option (List ℕ × List ℕ) :=
  match st.2 with
  | [] => none
  | b :: rest => some (st.1 ++ [b], kids b ++ rest)

section

variable {n : ℕ}

/-- What holds between two steps, of the list so far and the stack. -/
structure PreInv (entry : ℕ) (idom : ℕ → Option ℕ) (st : List ℕ × List ℕ) : Prop where
  nodup : (st.1 ++ st.2).Nodup
  met : ∀ b ∈ st.1 ++ st.2, (idom b).isSome
  covered : ∀ b, (idom b).isSome → b ∈ st.1 ∨ ∃ a ∈ st.2, Anc idom a b
  waiting : ∀ b ∈ st.2, b ≠ entry → ∃ c ∈ st.1, idom b = some c
  before : ∀ l₁ b l₂, st.1 = l₁ ++ b :: l₂ → b ≠ entry → ∃ c ∈ l₁, idom b = some c

section

variable (htree : Tree entry num idom) (hk : Kids n idom kids)
include htree hk

theorem preInv_step {st st' : List ℕ × List ℕ} (hinv : PreInv entry idom st)
    (h : preorderStep kids st = some st') :
    PreInv entry idom st' ∧ st'.1.length = st.1.length + 1 := by
  obtain ⟨order, stack⟩ := st
  cases stack with
  | nil => simp [preorderStep] at h
  | cons b rest =>
    cases h
    have hbfresh : b ∉ order := fun hb => (nodup_append.1 hinv.nodup).2.2 b hb b (.head _) rfl
    -- a child of the node is neither listed nor waiting: its parent was not listed
    have hkid : ∀ c ∈ kids b, c ∉ order ++ [b] ++ rest := by
      intro c hc hmem
      obtain ⟨hcb, hne⟩ := (hk.mem_iff b c).1 hc
      have hce := htree.ne_entry hcb hne.symm
      rcases mem_append.1 hmem with hmem | hmem
      · rcases mem_append.1 hmem with hmem | hmem
        · obtain ⟨l₁, l₂, hsplit⟩ := append_of_mem hmem
          obtain ⟨d, hd, hcd⟩ := hinv.before l₁ c l₂ hsplit hce
          rw [hcb] at hcd
          cases hcd
          exact hbfresh (by rw [show order = _ from hsplit]; exact mem_append_left _ hd)
        · exact hne (mem_singleton.1 hmem)
      obtain ⟨d, hd, hcd⟩ := hinv.waiting c (.tail _ hmem) hce
      rw [hcb] at hcd
      cases hcd
      exact hbfresh hd
    have hperm : (order ++ [b] ++ (kids b ++ rest)).Perm
        (kids b ++ (order ++ [b] ++ rest)) := by
      rw [← append_assoc, ← append_assoc (kids b)]
      exact .append_right _ perm_append_comm
    have hold : order ++ [b] ++ rest = order ++ b :: rest := by simp
    refine ⟨⟨?_, ?_, ?_, ?_, ?_⟩, by simp⟩
    · refine hperm.nodup_iff.2 (nodup_append.2 ⟨hk.nodup b, hold ▸ hinv.nodup, ?_⟩)
      rintro c hc d hd rfl
      exact hkid c hc hd
    · intro c hc
      rcases mem_append.1 (hperm.mem_iff.1 hc) with hc | hc
      · rw [((hk.mem_iff b c).1 hc).1]; rfl
      · exact hinv.met c (hold ▸ hc)
    · intro c hc
      rcases hinv.covered c hc with hc | ⟨a, ha, hac⟩
      · exact .inl (mem_append_left _ hc)
      rcases mem_cons.1 ha with rfl | ha
      · by_cases hne : a = c
        · exact .inl (by simp [hne])
        obtain ⟨d, hd, hdc⟩ := hac.exists_kid hne
        exact .inr ⟨d, mem_append_left _ ((hk.mem_iff a d).2 hd), hdc⟩
      · exact .inr ⟨a, mem_append_right _ ha, hac⟩
    · intro c hc hce
      rcases mem_append.1 hc with hc | hc
      · exact ⟨b, by simp, ((hk.mem_iff b c).1 hc).1⟩
      obtain ⟨d, hd, hcd⟩ := hinv.waiting c (.tail _ hc) hce
      exact ⟨d, mem_append_left _ hd, hcd⟩
    intro l₁ c l₂ hsplit hce
    rcases eq_nil_or_concat l₂ with rfl | ⟨l2', x, rfl⟩
    · obtain ⟨rfl, hbc⟩ := append_inj' hsplit rfl
      obtain rfl : b = c := by simpa using hbc
      exact hinv.waiting b (.head _) hce
    rw [concat_eq_append, ← cons_append, ← append_assoc] at hsplit
    exact hinv.before l₁ c l2' (append_inj' hsplit rfl).1 hce

/-- **The list has every node once, after all nodes above it.** -/
theorem preorder_spec {nodes : List ℕ} (hnodes : ∀ b, (idom b).isSome ↔ b ∈ nodes) :
    ∃ order bound, (∀ fuel, bound ≤ fuel →
        (Loop.run (preorderStep kids) fuel ([], [entry])).map Prod.fst = some order)
      ∧ order.Nodup ∧ (∀ b, b ∈ order ↔ b ∈ nodes)
      ∧ ∀ l₁ b l₂, order = l₁ ++ b :: l₂ → ∀ a, Anc idom a b → a ≠ b → a ∈ l₁ := by
  have hstart : PreInv entry idom ([], [entry]) := by
    refine ⟨by simp, ?_, ?_, ?_, ?_⟩
    · intro b hb
      obtain rfl : b = entry := by simpa using hb
      rw [htree.root]; rfl
    · exact fun b hb => .inr ⟨entry, by simp, htree.anc_entry hb⟩
    · intro b hb hne; exact absurd (by simpa using hb) hne
    · intro l₁ b l₂ h; simp at h
  -- the list never gets longer than the nodes
  have hlen : ∀ st, PreInv entry idom st → st.1.length ≤ nodes.length := by
    intro st hinv
    refine (subperm_of_subset (nodup_append.1 hinv.nodup).1 ?_).length_le
    intro b hb
    exact (hnodes b).1 (hinv.met b (mem_append_left _ hb))
  obtain ⟨t, ht, hinv, hdone⟩ := Loop.run_ends (μ := fun st => nodes.length - st.1.length)
    (fun st st' hi hs => by
      obtain ⟨hinv, hsucc⟩ := preInv_step htree hk hi hs
      have := hlen st' hinv
      exact ⟨hinv, by omega⟩) _ hstart
  have hempty : t.2 = [] := by
    cases hs : t.2 with
    | nil => rfl
    | cons b rest =>
      unfold preorderStep at hdone
      rw [hs] at hdone
      simp at hdone
  refine ⟨t.1, nodes.length + 1, ?_, (nodup_append.1 hinv.nodup).1, ?_, ?_⟩
  · intro fuel hfuel
    rw [ht fuel hfuel]
    rfl
  · intro b
    rw [← hnodes b]
    refine ⟨fun hb => hinv.met b (mem_append_left _ hb), fun hb => ?_⟩
    rcases hinv.covered b hb with hb | ⟨a, ha, -⟩
    · exact hb
    rw [hempty] at ha
    simp at ha
  -- by induction on the chain: each parent is in the part of the list before its child
  intro l₁ b l₂ hsplit a hab hne
  induction hab generalizing l₁ l₂ with
  | refl => exact absurd rfl hne
  | @up b c hc hcb hac ih =>
    obtain ⟨d, hd, hbd⟩ := hinv.before l₁ b l₂ hsplit (htree.ne_entry hc hcb)
    rw [hc] at hbd
    cases hbd
    by_cases hac' : a = c
    · rw [hac']; exact hd
    obtain ⟨m1, m2, hm⟩ := append_of_mem hd
    refine hm ▸ mem_append_left _ (ih m1 (m2 ++ b :: l₂) ?_ hac')
    rw [hsplit, hm]
    simp

end

end

end TrustCg.TreeTour
