import Mathlib.Data.List.Nodup
import Mathlib.Algebra.Order.BigOperators.Group.List
import Mathlib.Algebra.GroupWithZero.Nat
import Mathlib.Algebra.Order.Group.Nat
import TrustCg.Lib.Flow
import TrustCg.Lib.Loop
import TrustCg.Lib.Updates

/-!
# Immediate dominators by intersection

The iterative algorithm on a numbering of the nodes.  A table `idom` maps every
node met so far to a node with a smaller number; its chains (`Anc`) shrink pass
after pass until they are the dominators.

* `intersect_spec` : climbing two chains in step ends at their meet.
* `relax_inv` : what recomputing one node keeps.  The table moves a node only
  up its own chain, so the passes end.
* `fixIdom_spec` : the passes end, and the chains they leave are dominance.
-/

namespace TrustCg.Dominators

open TrustCg.Flow List Option
open Function (update_of_ne update_self)

/-! ## The algorithm -/

/-- One turn of climbing two chains: the node with the larger number goes up. -/
def climb (idom : ℕ → Option ℕ) (num : ℕ → ℕ) (p : ℕ × ℕ) : Option (ℕ × ℕ) :=
  if p.1 = p.2 then none
  else if num p.2 < num p.1 then some ((idom p.1).getD p.1, p.2)
  else some (p.1, (idom p.2).getD p.2)

/-- Climb until the two nodes meet. -/
def intersect (fuel : ℕ) (idom : ℕ → Option ℕ) (num : ℕ → ℕ) (b₁ b₂ : ℕ) : Option ℕ :=
  (Loop.run (climb idom num) fuel (b₁, b₂)).map Prod.fst

/-- Intersect a node with the predecessors that the table already has. -/
def meetPreds (fuel : ℕ) (idom : ℕ → Option ℕ) (num : ℕ → ℕ) (preds : List ℕ) (first : ℕ) :
    Option ℕ :=
  preds.foldlM (fun cur p =>
    if p = cur then some cur
    else if (idom p).isSome then intersect fuel idom num p cur
    else some cur) first

/-- Recompute one node; the flag records that the table has changed. -/
def relax (fuel entry : ℕ) (preds : ℕ → List ℕ) (num : ℕ → ℕ) (st : (ℕ → Option ℕ) × Bool)
    (b : ℕ) : Option ((ℕ → Option ℕ) × Bool) :=
  if b = entry then some st
  else
    match (preds b).find? fun p => (st.1 p).isSome with
    | none => some st
    | some first =>
      (meetPreds fuel st.1 num (preds b) first).map fun w =>
        if st.1 b = some w then st else (Function.update st.1 b (some w), true)

/-- Passes over the nodes in order until one changes nothing. -/
def fixIdom (entry : ℕ) (preds : ℕ → List ℕ) (num : ℕ → ℕ) (order : List ℕ) :
    ℕ → (ℕ → Option ℕ) → Option (ℕ → Option ℕ)
  | 0, _ => none
  | fuel + 1, idom =>
    (order.foldlM (relax fuel entry preds num) (idom, false)).bind fun st =>
      if st.2 then fixIdom entry preds num order fuel st.1 else some st.1

/-- The table that has the entry alone. -/
def idomStart (entry : ℕ) : ℕ → Option ℕ := Function.update (fun _ => none) entry (some entry)

/-! ## Chains -/

/-- `a` lies on the chain of `b`, or is `b`. -/
inductive Anc (idom : ℕ → Option ℕ) : ℕ → ℕ → Prop
  /-- every node lies on its own chain -/
  | refl (b : ℕ) : Anc idom b b
  /-- the chain goes on at the node the table names -/
  | up {a b c : ℕ} : idom b = some c → c ≠ b → Anc idom a c → Anc idom a b

variable {a b c : ℕ}

variable {idom : ℕ → Option ℕ}

theorem Anc.trans (hab : Anc idom a b) (hbc : Anc idom b c) : Anc idom a c := by
  induction hbc with
  | refl => exact hab
  | up hc hne _ ih => exact .up hc hne ih

/-- The chain of a node below `a` ends with a child of `a`. -/
theorem Anc.exists_kid (h : Anc idom a b) (hne : a ≠ b) :
    ∃ c, (idom c = some a ∧ c ≠ a) ∧ Anc idom c b := by
  induction h with
  | refl => exact absurd rfl hne
  | @up b c hc hcb hac ih =>
    by_cases heq : a = c
    · subst heq
      exact ⟨b, ⟨hc, Ne.symm hcb⟩, .refl b⟩
    obtain ⟨d, hd, hdc⟩ := ih heq
    exact ⟨d, hd, .up hc hcb hdc⟩

theorem Anc.above (h : Anc idom a b) (hne : a ≠ b) :
    ∃ c, idom b = some c ∧ c ≠ b ∧ Anc idom a c := by
  cases h with
  | refl => exact absurd rfl hne
  | up hc hcb hac => exact ⟨_, hc, hcb, hac⟩

theorem anc_getD (b : ℕ) : Anc idom ((idom b).getD b) b := by
  cases h : idom b with
  | none => exact .refl b
  | some c =>
    by_cases hc : c = b
    · subst hc
      exact .refl c
    · exact .up h hc (.refl c)

theorem intersect_anc {num : ℕ → ℕ} {fuel w : ℕ} (h : intersect fuel idom num a b = some w) :
    Anc idom w a ∧ Anc idom w b := by
  rw [intersect, map_eq_some_iff] at h
  obtain ⟨p, hrun, rfl⟩ := h
  have hstep : ∀ p p' : ℕ × ℕ, (Anc idom p.1 a ∧ Anc idom p.2 b) → climb idom num p = some p' →
      Anc idom p'.1 a ∧ Anc idom p'.2 b := by
    intro p p' hp hclimb
    unfold climb at hclimb
    split_ifs at hclimb
    · rw [← Option.some.inj hclimb]
      exact ⟨(anc_getD p.1).trans hp.1, hp.2⟩
    rw [← Option.some.inj hclimb]
    exact ⟨hp.1, (anc_getD p.2).trans hp.2⟩
  obtain ⟨⟨ha, hb⟩, hdone⟩ := Loop.run_invariant hstep fuel (a, b) p ⟨.refl a, .refl b⟩ hrun
  have hmeet : p.1 = p.2 := by
    unfold climb at hdone
    split_ifs at hdone with heq
    exact heq
  exact ⟨ha, hmeet ▸ hb⟩

/-- Every trail to `b` goes through `a`, or `a` is `b`. -/
def Dominates (entry : ℕ) (edge : ℕ → ℕ → Prop) (a b : ℕ) : Prop :=
  MustPass entry edge (fun c => c = a) b

theorem Dominates.refl (entry : ℕ) (edge : ℕ → ℕ → Prop) (a : ℕ) : Dominates entry edge a a :=
  fun _ _ => .inl rfl

theorem Dominates.trans {entry : ℕ} {edge : ℕ → ℕ → Prop} (hab : Dominates entry edge a b)
    (hbc : Dominates entry edge b c) : Dominates entry edge a c := by
  intro trail ht
  rcases hbc trail ht with rfl | ⟨x, hx, rfl⟩
  · exact hab trail ht
  obtain ⟨trail', ht', -, hsub⟩ := ht.cut hx
  rcases hab trail' ht' with rfl | ⟨y, hy, rfl⟩
  · exact .inr ⟨_, hx, rfl⟩
  · exact .inr ⟨_, hsub hy, rfl⟩

/-- A table whose chains go down in the numbering and end at the entry. -/
structure Tree (entry : ℕ) (num : ℕ → ℕ) (idom : ℕ → Option ℕ) : Prop where
  root : idom entry = some entry
  down : ∀ b c, idom b = some c → b ≠ entry → (idom c).isSome ∧ num c < num b

variable {entry : ℕ} {num : ℕ → ℕ}

section Tree

section

variable (h : Tree entry num idom)
include h

theorem Tree.ne_entry (hc : idom b = some c) (hne : c ≠ b) : b ≠ entry := by
  rintro rfl
  rw [h.root] at hc
  exact hne (Option.some.inj hc).symm

theorem Tree.up (hc : idom b = some c) (hne : c ≠ b) : (idom c).isSome ∧ num c < num b :=
  h.down b c hc (h.ne_entry hc hne)

theorem Tree.num_le (hab : Anc idom a b) : num a ≤ num b := by
  induction hab with
  | refl => exact le_rfl
  | up hc hne _ ih => exact ih.trans (h.up hc hne).2.le

theorem Tree.num_lt (hab : Anc idom a b) (hne : a ≠ b) : num a < num b := by
  cases hab with
  | refl => exact absurd rfl hne
  | up hc hcb hac => exact (h.num_le hac).trans_lt (h.up hc hcb).2

theorem Tree.isSome_of_anc (hab : Anc idom a b) (hb : (idom b).isSome) : (idom a).isSome := by
  induction hab with
  | refl => exact hb
  | up hc hne _ ih => exact ih (h.up hc hne).1

theorem Tree.anc_entry (hb : (idom b).isSome) : Anc idom entry b := by
  -- by strong induction on the number of the node
  induction hn : num b using Nat.strong_induction_on generalizing b with
  | _ n ih =>
    by_cases he : b = entry
    · subst he; exact .refl _
    obtain ⟨c, hc⟩ := isSome_iff_exists.1 hb
    obtain ⟨hsome, hlt⟩ := h.down b c hc he
    have hne : c ≠ b := by rintro rfl; exact lt_irrefl _ hlt
    exact .up hc hne (ih (num c) (hn ▸ hlt) hsome rfl)

/-- The chain of a node other than the entry is the node and the chain of the next one. -/
theorem Tree.anc_iff (hc : idom b = some c) (hb : b ≠ entry) :
    Anc idom a b ↔ a = b ∨ Anc idom a c := by
  have hne : c ≠ b := by
    rintro rfl
    exact lt_irrefl _ (h.down _ _ hc hb).2
  constructor
  · intro hab
    cases hab with
    | refl => exact .inl rfl
    | up hc' _ hac =>
      rw [hc] at hc'
      cases hc'
      exact .inr hac
  rintro (rfl | hac)
  · exact .refl _
  · exact .up hc hne hac

theorem Tree.anc_entry_iff : Anc idom a entry ↔ entry = a := by
  constructor
  · intro ha
    cases ha with
    | refl => rfl
    | up hc hne _ => exact absurd rfl (h.ne_entry hc hne)
  rintro rfl
  exact .refl _

end

/-! ## Climbing -/

section

variable (h : Tree entry num idom)
    (hinj : ∀ a b, (idom a).isSome → (idom b).isSome → num a = num b → a = b)
include h hinj

/-- What one turn of the climb keeps: both nodes are in the table, and the nodes on
both chains are those of the start. -/
theorem climb_inv {p p' : ℕ × ℕ} (h1 : (idom p.1).isSome) (h2 : (idom p.2).isSome)
    (hstep : climb idom num p = some p') :
    ((idom p'.1).isSome ∧ (idom p'.2).isSome
        ∧ ∀ a, (Anc idom a p'.1 ∧ Anc idom a p'.2) ↔ (Anc idom a p.1 ∧ Anc idom a p.2))
      ∧ num p'.1 + num p'.2 < num p.1 + num p.2 := by
  obtain ⟨b, c⟩ := p
  -- the node with the larger number is not the entry and lies on no chain of the other
  have hclimb : ∀ b c, (idom b).isSome → (idom c).isSome → num c < num b →
      ∃ d, idom b = some d ∧ (idom d).isSome ∧ num d < num b ∧
        ∀ a, (Anc idom a d ∧ Anc idom a c) ↔ (Anc idom a b ∧ Anc idom a c) := by
    intro b c hb hc hlt
    have he : b ≠ entry := by
      rintro rfl
      exact absurd (h.num_le (h.anc_entry hc)) (not_le.2 hlt)
    obtain ⟨d, hd⟩ := isSome_iff_exists.1 hb
    refine ⟨d, hd, (h.down b d hd he).1, (h.down b d hd he).2, ?_⟩
    intro a
    rw [h.anc_iff hd he]
    constructor
    · rintro ⟨had, hac⟩
      exact ⟨.inr had, hac⟩
    rintro ⟨rfl | had, hac⟩
    · exact absurd (h.num_le hac) (not_le.2 hlt)
    · exact ⟨had, hac⟩
  unfold climb at hstep
  split_ifs at hstep with heq hlt
  · obtain ⟨d, hd, hsome, hdlt, hiff⟩ := hclimb b c h1 h2 hlt
    cases hstep
    rw [hd]
    exact ⟨⟨hsome, h2, hiff⟩, Nat.add_lt_add_right hdlt _⟩
  have hlt' : num b < num c := by
    refine lt_of_le_of_ne (not_lt.1 hlt) ?_
    intro hnum
    exact heq (hinj b c h1 h2 hnum)
  obtain ⟨d, hd, hsome, hdlt, hiff⟩ := hclimb c b h2 h1 hlt'
  cases hstep
  rw [hd]
  refine ⟨⟨h1, hsome, ?_⟩, Nat.add_lt_add_left hdlt _⟩
  intro a
  exact and_comm.trans ((hiff a).trans and_comm)

/-- **Climbing two chains ends at their meet.** -/
theorem intersect_spec {b₁ b₂ : ℕ} (h1 : (idom b₁).isSome) (h2 : (idom b₂).isSome) :
    ∃ w, (∀ fuel, num b₁ + num b₂ + 1 ≤ fuel → intersect fuel idom num b₁ b₂ = some w)
      ∧ (idom w).isSome ∧ ∀ a, Anc idom a w ↔ (Anc idom a b₁ ∧ Anc idom a b₂) := by
  let Inv : ℕ × ℕ → Prop := fun p => (idom p.1).isSome ∧ (idom p.2).isSome ∧
    ∀ a, (Anc idom a p.1 ∧ Anc idom a p.2) ↔ (Anc idom a b₁ ∧ Anc idom a b₂)
  have hstep : ∀ p p', Inv p → climb idom num p = some p' →
      Inv p' ∧ num p'.1 + num p'.2 < num p.1 + num p.2 := by
    rintro p p' ⟨hp1, hp2, hiff⟩ hp
    obtain ⟨⟨hp1', hp2', hiff'⟩, hlt⟩ := climb_inv h hinj hp1 hp2 hp
    exact ⟨⟨hp1', hp2', fun a => (hiff' a).trans (hiff a)⟩, hlt⟩
  have hstart : Inv (b₁, b₂) := ⟨h1, h2, fun _ => Iff.rfl⟩
  obtain ⟨p, hp, ⟨hp1, -, hiff⟩, hdone⟩ :=
    Loop.run_ends (μ := fun p => num p.1 + num p.2) hstep _ hstart
  have heq : p.1 = p.2 := by
    unfold climb at hdone
    split_ifs at hdone with heq
    exact heq
  refine ⟨p.1, ?_, hp1, ?_⟩
  · intro fuel hfuel
    rw [intersect, hp fuel hfuel]
    rfl
  intro a
  rw [← hiff a, ← heq, and_self]

theorem meetPreds_spec (preds : List ℕ) (first : ℕ) (hfirst : (idom first).isSome) :
    ∃ w bound, (∀ fuel, bound ≤ fuel → meetPreds fuel idom num preds first = some w)
      ∧ (idom w).isSome
      ∧ ∀ a, Anc idom a w ↔ (Anc idom a first ∧ ∀ p ∈ preds, (idom p).isSome → Anc idom a p) := by
  induction preds generalizing first with
  | nil => exact ⟨first, 0, fun _ _ => rfl, hfirst, by simp⟩
  | cons p rest ih =>
    -- the node after this predecessor
    obtain ⟨cur, k, hcur, hsome, hiff⟩ : ∃ cur k, (∀ fuel, k ≤ fuel → (if p = first then some first
          else if (idom p).isSome then intersect fuel idom num p first
          else some first) = some cur) ∧ (idom cur).isSome ∧
        ∀ a, Anc idom a cur ↔ (Anc idom a first ∧ ((idom p).isSome → Anc idom a p)) := by
      by_cases hpf : p = first
      · subst hpf
        exact ⟨p, 0, fun _ _ => by rw [if_pos rfl], hfirst, fun a => by tauto⟩
      by_cases hp : (idom p).isSome
      · obtain ⟨w, hw, hwsome, hwiff⟩ := intersect_spec h hinj hp hfirst
        refine ⟨w, num p + num first + 1, ?_, hwsome, ?_⟩
        · intro fuel hfuel
          rw [if_neg hpf, if_pos hp]
          exact hw fuel hfuel
        intro a
        rw [hwiff a]
        tauto
      · exact ⟨first, 0, fun _ _ => by rw [if_neg hpf, if_neg hp], hfirst, fun a => by tauto⟩
    obtain ⟨w, bound, hw, hwsome, hwiff⟩ := ih cur hsome
    refine ⟨w, max k bound, ?_, hwsome, ?_⟩
    · intro fuel hfuel
      rw [meetPreds, foldlM_cons, hcur fuel (le_of_max_le_left hfuel)]
      exact hw fuel (le_of_max_le_right hfuel)
    intro a
    rw [hwiff a, hiff a, forall_mem_cons, and_assoc]

end

end Tree

/-! ## Moving one node -/

section Update

variable {w : ℕ}

theorem anc_update_of_lt (h : Tree entry num idom) (hc : num c < num b) :
    Anc (Function.update idom b (some w)) a c ↔ Anc idom a c := by
  have hcb : c ≠ b := by rintro rfl; exact lt_irrefl _ hc
  constructor
  · intro hac
    induction hac with
    | refl => exact .refl _
    | up hd hne _ ih =>
      rw [update_of_ne hcb] at hd
      have hlt := (h.up hd hne).2
      refine .up hd hne (ih (hlt.trans hc) ?_)
      rintro rfl
      exact lt_asymm hlt hc
  intro hac
  induction hac with
  | refl => exact .refl _
  | up hd hne _ ih =>
    have hlt := (h.up hd hne).2
    refine .up (by rwa [update_of_ne hcb]) hne (ih (hlt.trans hc) ?_)
    rintro rfl
    exact lt_asymm hlt hc

theorem anc_update_self (h : Tree entry num idom) (hw : num w < num b) :
    Anc (Function.update idom b (some w)) a b ↔ a = b ∨ Anc idom a w := by
  constructor
  · intro ha
    cases ha with
    | refl => exact .inl rfl
    | up hc hne hac =>
      rw [update_self] at hc
      cases hc
      exact .inr ((anc_update_of_lt h hw).1 hac)
  rintro (rfl | haw)
  · exact .refl _
  refine .up (update_self ..) ?_ ((anc_update_of_lt h hw).2 haw)
  rintro rfl
  exact lt_irrefl _ hw

/-- A chain is kept, or the part of it beyond the moved node is replaced. -/
theorem anc_update_or (hac : Anc idom a c) :
    Anc (Function.update idom b (some w)) a c ∨ (Anc idom b c ∧ Anc idom a b ∧ a ≠ b) := by
  induction hac with
  | refl => exact .inl (.refl _)
  | @up c d hd hne hac ih =>
    by_cases hcb : c = b
    · subst hcb
      by_cases hac' : a = c
      · subst hac'; exact .inl (.refl _)
      · exact .inr ⟨.refl _, .up hd hne hac, hac'⟩
    rcases ih with hnew | ⟨hbd, hab, hne'⟩
    · exact .inl (.up (by rwa [update_of_ne hcb]) hne hnew)
    · exact .inr ⟨.up hd hne hbd, hab, hne'⟩

/-- Moving a node up its own chain, or entering it in the table, adds nothing to the
chains that were there. -/
theorem anc_of_update (h : Tree entry num idom) (hw : num w < num b)
    (hmove : ∀ z, idom b = some z → Anc idom w z) (hb : b ≠ entry)
    (hc : (idom c).isSome) (hac : Anc (Function.update idom b (some w)) a c) : Anc idom a c := by
  induction hac with
  | refl => exact .refl _
  | @up c d hd hne hac ih =>
    rcases update_some_iff.1 hd with ⟨rfl, rfl⟩ | ⟨hcb, hd⟩
    · obtain ⟨z, hz⟩ := isSome_iff_exists.1 hc
      refine (h.anc_iff hz hb).2 (.inr ?_)
      exact ((anc_update_of_lt h hw).1 hac).trans (hmove z hz)
    exact .up hd hne (ih (h.up hd hne).1)

theorem isSome_update (idom : ℕ → Option ℕ) (b w c : ℕ) :
    (Function.update idom b (some w) c).isSome ↔ c = b ∨ (idom c).isSome := by
  by_cases hcb : c = b <;> simp [hcb]

theorem Tree.update (h : Tree entry num idom) (hb : b ≠ entry) (hwsome : (idom w).isSome)
    (hw : num w < num b) : Tree entry num (Function.update idom b (some w)) := by
  have hgrow := fun c hc => (isSome_update idom b w c).2 (.inr hc)
  refine ⟨?_, ?_⟩
  · rw [update_of_ne (Ne.symm hb)]
    exact h.root
  intro c d hd hc
  rcases update_some_iff.1 hd with ⟨rfl, rfl⟩ | ⟨hcb, hd⟩
  · exact ⟨hgrow _ hwsome, hw⟩
  exact ⟨hgrow _ (h.down c d hd hc).1, (h.down c d hd hc).2⟩

end Update

/-! ## Passes -/

section Passes

variable {edge : ℕ → ℕ → Prop} {preds : ℕ → List ℕ} {order : List ℕ} {par : ℕ → ℕ} {top : ℕ}
    {done : List ℕ}

/-- The reachable nodes in an order in which every node but the entry comes after one
of its predecessors. -/
structure Numbering (entry : ℕ) (edge : ℕ → ℕ → Prop) (preds : ℕ → List ℕ) (num : ℕ → ℕ)
    (order : List ℕ) (par : ℕ → ℕ) : Prop where
  mem_iff : ∀ b, b ∈ order ↔ Reachable entry edge b
  increasing : order.Pairwise fun a b => num a < num b
  preds_iff : ∀ b ∈ order, ∀ a ∈ order, a ∈ preds b ↔ edge a b
  par_mem : ∀ b ∈ order, b ≠ entry → par b ∈ order ∧ edge (par b) b ∧ num (par b) < num b

/-- `a` lies on the path that the predecessors `par` make from the entry to `b`. -/
inductive OnPath (entry : ℕ) (order : List ℕ) (par : ℕ → ℕ) : ℕ → ℕ → Prop
  /-- the path ends at its node -/
  | refl (b : ℕ) : OnPath entry order par b b
  /-- the path goes through the chosen predecessor -/
  | up {a b : ℕ} : b ∈ order → b ≠ entry → OnPath entry order par a (par b) →
      OnPath entry order par a b

variable {rest : List ℕ}

section Numbering

variable (h : Numbering entry edge preds num order par)
include h

theorem Numbering.mem_done (hsplit : order = done ++ b :: rest)
    (hc : c ∈ order) (hlt : num c < num b) : c ∈ done := by
  have hinc := h.increasing
  rw [hsplit] at hc hinc
  rcases mem_append.1 hc with hc | hc
  · exact hc
  rcases mem_cons.1 hc with rfl | hc
  · exact absurd hlt (lt_irrefl _)
  · exact absurd hlt (lt_asymm ((pairwise_cons.1 (pairwise_append.1 hinc).2.1).1 c hc))

theorem Numbering.lt_of_done (hsplit : order = done ++ b :: rest)
    (hc : c ∈ done) : num c < num b := by
  have hinc := h.increasing
  rw [hsplit] at hinc
  exact (pairwise_append.1 hinc).2.2 c hc b (.head _)

theorem Numbering.num_inj (ha : a ∈ order) (hb : b ∈ order) (hab : num a = num b) : a = b := by
  obtain ⟨done, rest, hsplit⟩ := append_of_mem ha
  rw [hsplit] at hb
  rcases mem_append.1 hb with hb | hb
  · exact absurd (h.lt_of_done hsplit hb) (not_lt.2 hab.le)
  rcases mem_cons.1 hb with rfl | hb
  · rfl
  have hinc := h.increasing
  rw [hsplit] at hinc
  exact absurd ((pairwise_cons.1 (pairwise_append.1 hinc).2.1).1 b hb)
    (not_lt.2 hab.ge)

theorem Numbering.par_mem_preds (hb : b ∈ order) (hne : b ≠ entry) : par b ∈ preds b :=
  (h.preds_iff b hb _ (h.par_mem b hb hne).1).2 (h.par_mem b hb hne).2.1

theorem Numbering.num_le_of_onPath (hab : OnPath entry order par a b) : num a ≤ num b := by
  induction hab with
  | refl => exact le_rfl
  | up hb hne _ ih => exact ih.trans (h.par_mem _ hb hne).2.2.le

/-- A trail that avoids a node goes on along a path of larger numbers. -/
theorem Numbering.exists_trail (hbc : OnPath entry order par b c)
    (hab : num a < num b) (hb : ∃ trail, Trail entry edge b trail ∧ a ∉ trail) :
    ∃ trail, Trail entry edge c trail ∧ a ∉ trail := by
  induction hbc with
  | refl => exact hb
  | up hc hne hpath ih =>
    obtain ⟨trail, ht, ha⟩ := ih
    refine ⟨_, ht.step (h.par_mem _ hc hne).2.1, ?_⟩
    rw [mem_cons]
    rintro (rfl | hmem)
    · exact absurd (h.num_le_of_onPath hpath) (not_le.2 hab)
    · exact ha hmem

end Numbering

theorem not_dominates_iff (hne : a ≠ b) :
    ¬ Dominates entry edge a b ↔ ∃ trail, Trail entry edge b trail ∧ a ∉ trail := by
  unfold Dominates MustPass
  constructor
  · intro hnot
    push Not at hnot
    obtain ⟨trail, ht, -, hnone⟩ := hnot
    exact ⟨trail, ht, fun hmem => hnone a hmem rfl⟩
  rintro ⟨trail, ht, hmem⟩ hall
  rcases hall trail ht with hb | ⟨c, hc, rfl⟩
  · exact hne hb.symm
  · exact hmem hc

theorem forall_mem_concat {p : ℕ → Prop} :
    (∀ c ∈ done ++ [b], p c) ↔ (∀ c ∈ done, p c) ∧ p b := by
  rw [forall_mem_append, forall_mem_singleton]

/-- The node is where the chains of the predecessors in the table meet. -/
def MeetsPreds (preds : ℕ → List ℕ) (idom : ℕ → Option ℕ) (b w : ℕ) : Prop :=
  ∀ a, Anc idom a w ↔ ∀ p ∈ preds b, (idom p).isSome → Anc idom a p

/-- What holds in a pass when the nodes `done` have been recomputed.

* `on_path`, `complete` : the chains lie between the dominators and one path to the node.
* `bound` : no node on all chains of the predecessors lies beyond what the table has.
* `tight` : the chain of a recomputed node is within that of its path's predecessor. -/
structure PassInv (entry : ℕ) (edge : ℕ → ℕ → Prop) (preds : ℕ → List ℕ) (num : ℕ → ℕ)
    (order : List ℕ) (par : ℕ → ℕ) (done : List ℕ) (idom : ℕ → Option ℕ) : Prop where
  tree : Tree entry num idom
  mem_order : ∀ b, (idom b).isSome → b ∈ order
  met : ∀ b ∈ done, (idom b).isSome
  on_path : ∀ a b, (idom b).isSome → Anc idom a b → OnPath entry order par a b
  complete : ∀ a b, (idom b).isSome → Dominates entry edge a b → Anc idom a b
  bound : ∀ b c a, idom b = some c → b ≠ entry →
    (∀ p ∈ preds b, (idom p).isSome → Anc idom a p) → num a ≤ num c
  tight : ∀ b ∈ done, b ≠ entry → ∀ a, Anc idom a b → a = b ∨ Anc idom a (par b)

section Pass

variable (h : Numbering entry edge preds num order par)
    (hinv : PassInv entry edge preds num order par done idom) (hsplit : order = done ++ b :: rest)
    (hb : b ≠ entry)
include h hinv hsplit hb

theorem PassInv.par_met : (idom (par b)).isSome := by
  have hmem : b ∈ order := by rw [hsplit]; simp
  exact hinv.met _ (h.mem_done hsplit (h.par_mem b hmem hb).1 (h.par_mem b hmem hb).2.2)

variable {w : ℕ} (hw : MeetsPreds preds idom b w)
include hw

theorem PassInv.anc_par (ha : Anc idom a w) : Anc idom a (par b) := by
  have hmem : b ∈ order := by rw [hsplit]; simp
  exact (hw a).1 ha _ (h.par_mem_preds hmem hb) (hinv.par_met h hsplit hb)

theorem PassInv.num_meet_lt : num w < num b := by
  have hmem : b ∈ order := by rw [hsplit]; simp
  exact (hinv.tree.num_le (hinv.anc_par h hsplit hb hw (.refl w))).trans_lt
    (h.par_mem b hmem hb).2.2

/-- **A node moves up its own chain.** -/
theorem PassInv.meet_up {z : ℕ} (hz : idom b = some z) : Anc idom w z := by
  have hmem : b ∈ order := by rw [hsplit]; simp
  have hwz : num w ≤ num z := hinv.bound b z w hz hb ((hw w).1 (.refl w))
  -- walk down the path from `z` to `b`: every node between has been recomputed in this pass
  have hwalk : ∀ y, OnPath entry order par z y → num y < num b → Anc idom w y → Anc idom w z := by
    intro y hzy
    induction hzy with
    | refl => intro _ hwy; exact hwy
    | @up y hy hne hpath ih =>
      intro hlt hwy
      have hpar := (h.par_mem y hy hne).2.2
      rcases hinv.tight y (h.mem_done hsplit hy hlt) hne w hwy with rfl | hwp
      · exact absurd ((h.num_le_of_onPath hpath).trans_lt hpar) (not_lt.2 hwz)
      · exact ih (hpar.trans hlt) hwp
  have hzb : z ≠ b := by
    rintro rfl
    exact lt_irrefl _ (hinv.tree.down _ _ hz hb).2
  have hpath : OnPath entry order par z b :=
    hinv.on_path z b (by rw [hz]; rfl) (.up hz hzb (.refl z))
  cases hpath with
  | refl => exact absurd rfl hzb
  | up _ _ hpath =>
    exact hwalk (par b) hpath (h.par_mem b hmem hb).2.2
      (hinv.anc_par h hsplit hb hw (.refl w))

theorem PassInv.keep (hbw : idom b = some w) :
    PassInv entry edge preds num order par (done ++ [b]) idom := by
  refine { hinv with
    met := forall_mem_concat.2 ⟨hinv.met, by rw [hbw]; rfl⟩
    tight := forall_mem_concat.2 ⟨hinv.tight, fun _ a hac => ?_⟩ }
  rcases (hinv.tree.anc_iff hbw hb).1 hac with rfl | haw
  · exact .inl rfl
  · exact .inr (hinv.anc_par h hsplit hb hw haw)

/-- Dominators stay on the chains of the table in which the node has moved. -/
theorem PassInv.complete_update (hc : c = b ∨ (idom c).isSome) (hdom : Dominates entry edge a c) :
    Anc (Function.update idom b (some w)) a c := by
  have hlt := hinv.num_meet_lt h hsplit hb hw
  have hmem : b ∈ order := by rw [hsplit]; simp
  have hself : ∀ a, Dominates entry edge a b → Anc (Function.update idom b (some w)) a b := by
    intro a hdom
    refine (anc_update_self hinv.tree hlt).2 ?_
    by_cases hab : a = b
    · exact .inl hab
    refine .inr ((hw a).2 ?_)
    intro p hp hsome
    have hedge := (h.preds_iff b hmem p (hinv.mem_order p hsome)).1 hp
    exact hinv.complete a p hsome (MustPass.pred hdom (Ne.symm hab) hedge)
  by_cases hcb : c = b
  · subst hcb; exact hself a hdom
  have hsome := hc.resolve_left hcb
  rcases anc_update_or (w := w) (b := b) (hinv.complete a c hsome hdom) with hnew | hold
  · exact hnew
  obtain ⟨hbc, hab, hne⟩ := hold
  have hnum := hinv.tree.num_lt hab hne
  by_cases hdomb : Dominates entry edge a b
  · rcases anc_update_or (w := w) (b := b) hbc with hbc' | ⟨-, -, hbb⟩
    · exact (hself a hdomb).trans hbc'
    · exact absurd rfl hbb
  -- a trail to `b` that avoids `a` goes on to `c`
  have hpath := hinv.on_path b c hsome hbc
  have htrail := h.exists_trail hpath hnum ((not_dominates_iff hne).1 hdomb)
  have hac : a ≠ c := by
    rintro rfl
    exact absurd (h.num_le_of_onPath hpath) (not_le.2 hnum)
  exact absurd hdom ((not_dominates_iff hac).2 htrail)

theorem PassInv.move (hwsome : (idom w).isSome) :
    PassInv entry edge preds num order par (done ++ [b]) (Function.update idom b (some w)) := by
  have hlt := hinv.num_meet_lt h hsplit hb hw
  have hmem : b ∈ order := by rw [hsplit]; simp
  have hshrink : ∀ a c, (idom c).isSome → Anc (Function.update idom b (some w)) a c →
      Anc idom a c :=
    fun a c hc => anc_of_update hinv.tree hlt (fun z => hinv.meet_up h hsplit hb hw) hb hc
  have hsome := fun c => (isSome_update idom b w c).1
  have hgrow := fun c hc => (isSome_update idom b w c).2 (.inr hc)
  -- the chain of the moved node is within that of its path's predecessor
  have htop : ∀ a, Anc (Function.update idom b (some w)) a b → a = b ∨ Anc idom a (par b) := by
    intro a ha
    rcases (anc_update_self hinv.tree hlt).1 ha with rfl | haw
    · exact .inl rfl
    · exact .inr (hinv.anc_par h hsplit hb hw haw)
  refine ⟨hinv.tree.update hb hwsome hlt, ?_, ?_, ?_, ?_, ?_, ?_⟩
  · intro c hc
    rcases hsome c hc with rfl | hc
    · exact hmem
    · exact hinv.mem_order c hc
  · exact forall_mem_concat.2 ⟨fun c hc => hgrow c (hinv.met c hc), by rw [update_self]; rfl⟩
  · intro a c hc hac
    rcases hsome c hc with rfl | hc
    · rcases htop a hac with rfl | hap
      · exact .refl _
      · exact .up hmem hb (hinv.on_path a _ (hinv.par_met h hsplit hb) hap)
    · exact hinv.on_path a c hc (hshrink a c hc hac)
  · intro a c hc hdom
    exact hinv.complete_update h hsplit hb hw (hsome c hc) hdom
  · intro c d a hd hce hall
    have hold : ∀ p ∈ preds c, (idom p).isSome → Anc idom a p :=
      fun p hp hps => hshrink a p hps (hall p hp (hgrow p hps))
    rcases update_some_iff.1 hd with ⟨rfl, rfl⟩ | ⟨hcb, hd⟩
    · exact hinv.tree.num_le ((hw a).2 hold)
    exact hinv.bound c d a hd hce hold
  refine forall_mem_concat.2 ⟨fun c hc hce a hac => ?_, fun _ a hac => ?_⟩
  · have hcb := h.lt_of_done hsplit hc
    have hcmem : c ∈ order := by rw [hsplit]; exact mem_append_left _ hc
    rcases hinv.tight c hc hce a ((anc_update_of_lt hinv.tree hcb).1 hac) with rfl | hap
    · exact .inl rfl
    refine .inr ((anc_update_of_lt hinv.tree ?_).2 hap)
    exact (h.par_mem c hcmem hce).2.2.trans hcb
  rcases htop a hac with rfl | hap
  · exact .inl rfl
  · exact .inr ((anc_update_of_lt hinv.tree (h.par_mem _ hmem hb).2.2).2 hap)

end Pass

/-! ## Convergence -/

/-- What the table says of a node, as a number that a move makes smaller. -/
def cost (num : ℕ → ℕ) (top : ℕ) : Option ℕ → ℕ
  | none => top
  | some c => num c

/-- The sum of the costs of all nodes. -/
def weight (num : ℕ → ℕ) (top : ℕ) (order : List ℕ) (idom : ℕ → Option ℕ) : ℕ :=
  (order.map fun b => cost num top (idom b)).sum

theorem weight_update {o : Option ℕ} (hb : b ∈ order)
    (hlt : cost num top o < cost num top (idom b)) :
    weight num top order (Function.update idom b o) < weight num top order idom := by
  refine sum_lt_sum _ _ ?_ ⟨b, hb, by rwa [update_self]⟩
  intro c _
  rw [Function.update_apply]
  split_ifs with hcb
  · exact hcb ▸ hlt.le
  · exact le_rfl

/-- The table names the meet of the predecessors of the node. -/
def Settled (preds : ℕ → List ℕ) (idom : ℕ → Option ℕ) (b : ℕ) : Prop :=
  ∃ w, idom b = some w ∧ MeetsPreds preds idom b w

/-- What holds in a pass that started from `idom₀`: the flag is set if the table has
moved, and otherwise the nodes done are settled. -/
structure SweepInv (entry : ℕ) (edge : ℕ → ℕ → Prop) (preds : ℕ → List ℕ) (num : ℕ → ℕ)
    (order : List ℕ) (par : ℕ → ℕ) (top : ℕ) (idom₀ : ℕ → Option ℕ) (done : List ℕ)
    (st : (ℕ → Option ℕ) × Bool) : Prop where
  pass : PassInv entry edge preds num order par done st.1
  le : weight num top order st.1 ≤ weight num top order idom₀
  lt : st.2 = true → weight num top order st.1 < weight num top order idom₀
  still : st.2 = false → st.1 = idom₀ ∧ ∀ b ∈ done, b ≠ entry → Settled preds idom₀ b

theorem relax_inv (h : Numbering entry edge preds num order par)
    (htop : ∀ b ∈ order, num b < top) {idom₀ : ℕ → Option ℕ} {rest : List ℕ}
    {st : (ℕ → Option ℕ) × Bool} (hsplit : order = done ++ b :: rest)
    (hinv : SweepInv entry edge preds num order par top idom₀ done st) :
    ∃ bound st', (∀ fuel, bound ≤ fuel → relax fuel entry preds num st b = some st')
      ∧ SweepInv entry edge preds num order par top idom₀ (done ++ [b]) st' := by
  have hmem : b ∈ order := by rw [hsplit]; simp
  by_cases hb : b = entry
  · refine ⟨0, st, fun _ _ => by rw [relax, if_pos hb], ?_, hinv.le, hinv.lt, ?_⟩
    · exact { hinv.pass with
        met := forall_mem_concat.2 ⟨hinv.pass.met, by rw [hb, hinv.pass.tree.root]; rfl⟩
        tight := forall_mem_concat.2 ⟨hinv.pass.tight, fun hne => absurd hb hne⟩ }
    · exact fun hflag => (hinv.still hflag).imp_right fun hold =>
        forall_mem_concat.2 ⟨hold, fun hne => absurd hb hne⟩
  have hpar := hinv.pass.par_met h hsplit hb
  -- the predecessor on the path has been met, so a first one is found
  obtain ⟨first, hfirst⟩ : ∃ first, (preds b).find? (fun p => (st.1 p).isSome) = some first := by
    refine isSome_iff_exists.1 (find?_isSome.2 ⟨par b, ?_, hpar⟩)
    exact h.par_mem_preds hmem hb
  have hfsome : (st.1 first).isSome := by simpa using find?_some hfirst
  obtain ⟨w, bound, hrun, hwsome, hmeet⟩ := meetPreds_spec hinv.pass.tree
    (fun a c ha hc => h.num_inj (hinv.pass.mem_order a ha) (hinv.pass.mem_order c hc))
    (preds b) first hfsome
  have hw : MeetsPreds preds st.1 b w := by
    intro a
    rw [hmeet a]
    refine ⟨fun ha => ha.2, fun ha => ⟨?_, ha⟩⟩
    exact ha first (mem_of_find?_eq_some hfirst) hfsome
  have hrelax : ∀ fuel, bound ≤ fuel → relax fuel entry preds num st b =
      some (if st.1 b = some w then st else (Function.update st.1 b (some w), true)) := by
    intro fuel hfuel
    rw [relax, if_neg hb, hfirst]
    dsimp only
    rw [hrun fuel hfuel]
    rfl
  refine ⟨bound, _, hrelax, ?_⟩
  by_cases hsame : st.1 b = some w
  · rw [if_pos hsame]
    refine ⟨hinv.pass.keep h hsplit hb hw hsame, hinv.le, hinv.lt, ?_⟩
    intro hflag
    obtain ⟨heq, hold⟩ := hinv.still hflag
    exact ⟨heq, forall_mem_concat.2 ⟨hold, fun _ => heq ▸ ⟨w, hsame, hw⟩⟩⟩
  rw [if_neg hsame]
  have hcost : cost num top (some w) < cost num top (st.1 b) := by
    cases hz : st.1 b with
    | none => exact htop w (hinv.pass.mem_order w hwsome)
    | some z =>
      refine hinv.pass.tree.num_lt (hinv.pass.meet_up h hsplit hb hw hz) ?_
      rintro rfl
      exact hsame hz
  have hlt := (weight_update hmem hcost).trans_le hinv.le
  exact ⟨hinv.pass.move h hsplit hb hw hwsome, hlt.le, fun _ => hlt,
    fun hflag => absurd hflag (by simp)⟩

theorem PassInv.restart (hinv : PassInv entry edge preds num order par done idom) :
    PassInv entry edge preds num order par [] idom :=
  { hinv with
    met := fun _ hb => absurd hb (by simp)
    tight := fun _ hb => absurd hb (by simp) }

section

variable (h : Numbering entry edge preds num order par)
include h

theorem passInv_start : PassInv entry edge preds num order par [] (idomStart entry) := by
  have hsome : ∀ b, (idomStart entry b).isSome → b = entry := by
    intro b hb
    by_contra hne
    simp [idomStart, update_of_ne hne] at hb
  have hroot : idomStart entry entry = some entry := update_self ..
  have htree : Tree entry num (idomStart entry) := by
    refine ⟨hroot, ?_⟩
    intro b c hc hne
    exact absurd (hsome b (by rw [hc]; rfl)) hne
  refine ⟨htree, ?_, by simp, ?_, ?_, ?_, by simp⟩
  · intro b hb
    rw [hsome b hb]
    exact (h.mem_iff entry).2 .refl
  · intro a b hb hab
    rw [hsome b hb] at hab ⊢
    rw [← htree.anc_entry_iff.1 hab]
    exact .refl _
  · intro a b hb hdom
    rw [hsome b hb] at hdom ⊢
    have hpass := mustPass_entry_iff.1 (show MustPass entry edge (fun c => c = a) entry from hdom)
    exact htree.anc_entry_iff.2 hpass
  intro b c a hc hne
  exact absurd (hsome b (by rw [hc]; rfl)) hne

theorem dominates_of_settled (htree : Tree entry num idom)
    (hsome : ∀ b, (idom b).isSome ↔ b ∈ order)
    (hsettled : ∀ b ∈ order, b ≠ entry → Settled preds idom b) (hab : Anc idom a b) :
    Dominates entry edge a b := by
  have hsol : IsSolution entry edge (fun c => c = a) (fun c => Anc idom a c) := by
    refine ⟨htree.anc_entry_iff, ?_⟩
    intro c hc hne
    have hcmem := (h.mem_iff c).2 hc
    obtain ⟨w, hw, hmeet⟩ := hsettled c hcmem hne
    rw [htree.anc_iff hw hne, hmeet a, eq_comm]
    refine or_congr Iff.rfl ⟨?_, ?_⟩
    · intro hall p hp hedge
      have hpmem := (h.mem_iff p).2 hp
      exact hall p ((h.preds_iff c hcmem p hpmem).2 hedge) ((hsome p).2 hpmem)
    intro hall p hp hps
    have hpmem := (hsome p).1 hps
    exact hall p ((h.mem_iff p).1 hpmem) ((h.preds_iff c hcmem p hpmem).1 hp)
  exact hsol.mustPass hab

/-- **The passes end, and the chains they leave are dominance.** -/
theorem fixIdom_spec :
    ∃ bound idom, (∀ fuel, bound ≤ fuel →
        fixIdom entry preds num order fuel (idomStart entry) = some idom)
      ∧ Tree entry num idom ∧ (∀ b, (idom b).isSome ↔ b ∈ order)
      ∧ ∀ a b, b ∈ order → (Anc idom a b ↔ Dominates entry edge a b) := by
  obtain ⟨top, htop⟩ : ∃ top, ∀ b ∈ order, num b < top := by
    refine ⟨(order.map num).sum + 1, ?_⟩
    intro b hb
    exact Nat.lt_succ_of_le (single_le_sum (by simp) _ (mem_map_of_mem hb))
  -- by strong induction on the weight of the table a pass starts from
  have hloop : ∀ (n : ℕ) (idom : ℕ → Option ℕ), weight num top order idom = n →
      PassInv entry edge preds num order par [] idom →
      ∃ bound idom', (∀ fuel, bound ≤ fuel → fixIdom entry preds num order fuel idom = some idom')
        ∧ PassInv entry edge preds num order par order idom'
        ∧ ∀ b ∈ order, b ≠ entry → Settled preds idom' b := by
    intro n
    induction n using Nat.strong_induction_on with
    | _ n ih =>
      intro idom hn hinv
      have hsweep : SweepInv entry edge preds num order par top idom [] (idom, false) :=
        ⟨hinv, le_rfl, fun hf => absurd hf (by simp), fun _ => ⟨rfl, by simp⟩⟩
      obtain ⟨k, st, hrun, hst⟩ := Loop.foldlM_prefix
        (fun fuel => relax fuel entry preds num)
        (SweepInv entry edge preds num order par top idom) order order [] (idom, false) rfl
        (fun done b rest s hs hi => relax_inv h htop hs hi) hsweep
      cases hflag : st.2 with
      | true =>
        obtain ⟨k', idom', hrun', hres⟩ := ih _ (hn ▸ hst.lt hflag) st.1 rfl hst.pass.restart
        refine ⟨max k k' + 1, idom', ?_, hres⟩
        intro fuel hfuel
        obtain ⟨f, rfl⟩ : ∃ f, fuel = f + 1 := ⟨fuel - 1, by omega⟩
        rw [fixIdom, hrun f (by omega)]
        simp only [bind_some, hflag, if_true]
        exact hrun' f (by omega)
      | false =>
        refine ⟨k + 1, st.1, ?_, hst.pass, ?_⟩
        · intro fuel hfuel
          obtain ⟨f, rfl⟩ : ∃ f, fuel = f + 1 := ⟨fuel - 1, by omega⟩
          rw [fixIdom, hrun f (by omega)]
          simp [bind_some, hflag, Bool.false_eq_true]
        rw [(hst.still hflag).1]
        exact (hst.still hflag).2
  obtain ⟨bound, idom, hrun, hinv, hsettled⟩ := hloop _ _ rfl (passInv_start h)
  have hsome : ∀ b, (idom b).isSome ↔ b ∈ order := fun b => ⟨hinv.mem_order b, hinv.met b⟩
  refine ⟨bound, idom, hrun, hinv.tree, hsome, ?_⟩
  intro a b hb
  exact ⟨dominates_of_settled h hinv.tree hsome hsettled, hinv.complete a b ((hsome b).2 hb)⟩

end

end Passes

end TrustCg.Dominators
