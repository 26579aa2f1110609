import TrustCg.Lib.Dominators
import TrustCg.Ir.Exec

/-!
# Paths of control and the instructions they execute

`Path` follows control through a function and collects the instructions it executes,
most recent first.  The passes that reason with dominance use it in two ways.

* `Path.mem_of_dominates` : what stands in a dominating block has been executed, where
  branches come last.
* `Path.mem_after` : if `i` comes before every `j`, and `j` before every arrival at a
  point, then on every path to the point each `i` is followed by a `j`.  In a loop this
  is what keeps a value computed at `j` from what `i` defines up to date.
-/

namespace TrustCg.Ir.MachFunction

open RegAlloc (BlockId InstId)
open List

/-- Control goes from position `p₀` of `b₀` to another position and executes the
instructions of the list on its way, most recent first. -/
inductive Path (f : MachFunction) (b₀ : BlockId) (p₀ : ℕ) : BlockId → ℕ → List InstId → Prop
  | refl : Path f b₀ p₀ b₀ p₀ []
  | inst {b : BlockId} {p : ℕ} {i : InstId} {l : List InstId} :
      Path f b₀ p₀ b p l → (f.blockInsts b)[p]? = some i → Path f b₀ p₀ b (p + 1) (i :: l)
  | branch {b c : BlockId} {p : ℕ} {l : List InstId} :
      Path f b₀ p₀ b p l → f.Exits b p → c ∈ f.succs b → Path f b₀ p₀ c 0 l

/-- A path from the entry. -/
abbrev Past (f : MachFunction) : BlockId → ℕ → List InstId → Prop := Path f f.entry 0

variable {f : MachFunction} {b₀ b c : BlockId} {p₀ p q : ℕ} {i j : InstId}
  {l l₁ l₂ : List InstId}

theorem Path.trans (h1 : Path f b₀ p₀ b p l₁) (h2 : Path f b p c q l₂) :
    Path f b₀ p₀ c q (l₂ ++ l₁) := by
  induction h2 with
  | refl => exact h1
  | inst _ hi ih => exact ih.inst hi
  | branch _ hexit hc ih => exact ih.branch hexit hc

/-- A path that has executed `i` can be cut there. -/
theorem Path.split (h : Path f b₀ p₀ c q l) (hl : l = l₂ ++ i :: l₁) :
    ∃ b p, (f.blockInsts b)[p]? = some i ∧ Path f b₀ p₀ b p l₁ ∧ Path f b (p + 1) c q l₂ := by
  induction h generalizing l₂ with
  | refl => simp at hl
  | @inst b p j l hpath hj ih =>
    cases l₂ with
    | nil =>
      obtain ⟨rfl, rfl⟩ := List.cons.inj hl
      exact ⟨b, p, hj, hpath, .refl⟩
    | cons k l₂ =>
      obtain ⟨rfl, htail⟩ := List.cons.inj hl
      obtain ⟨b', p', hi, hto, hfrom⟩ := ih htail
      exact ⟨b', p', hi, hto, hfrom.inst hj⟩
  | branch _ hexit hc ih =>
    obtain ⟨b', p', hi, hto, hfrom⟩ := ih hl
    exact ⟨b', p', hi, hto, hfrom.branch hexit hc⟩

theorem Path.eq_of_succs_nil (hsuccs : f.succs b₀ = []) (h : Path f b₀ p₀ b p l) : b = b₀ := by
  induction h with
  | refl => rfl
  | inst _ _ ih => exact ih
  | branch _ _ hc ih =>
    rw [ih, hsuccs] at hc
    simp at hc

/-- The instruction is executed at one place. -/
def OnePlace (f : MachFunction) (i : InstId) : Prop :=
  ∀ b p l b' p' l', (f.blockInsts b)[p]? = some i → f.Past b p l →
    (f.blockInsts b')[p']? = some i → f.Past b' p' l' → b = b' ∧ p = p'

/-- On every path `i` has been executed when `j` is about to be. -/
def Precedes (f : MachFunction) (i j : InstId) : Prop :=
  ∀ b p l, (f.blockInsts b)[p]? = some j → f.Past b p l → i ∈ l

/-- **What is executed again after each `i`.** -/
theorem Path.mem_after (hone : f.OnePlace i) (hij : f.Precedes i j)
    (hj : ∀ l, f.Past c q l → j ∈ l) :
    ∀ (l₁ : List InstId), f.Past c q (l₂ ++ i :: l₁) → j ∈ l₂ := by
  intro l₁
  -- by induction on what comes before this `i`: without an `i` there, it is the first
  induction hn : l₁.length using Nat.strong_induction_on generalizing l₁ with
  | _ n ih =>
    intro h
    obtain ⟨b, p, hi, hto, hfrom⟩ := h.split rfl
    by_cases hmem : i ∈ l₁
    · obtain ⟨k2, k1, rfl⟩ := append_of_mem hmem
      obtain ⟨b', p', hi', hto', -⟩ := hto.split rfl
      obtain ⟨rfl, rfl⟩ := hone _ _ _ _ _ _ hi' hto' hi hto
      have hshort : k1.length < n := by
        rw [← hn, length_append, length_cons]
        omega
      exact ih k1.length hshort k1 rfl ((hto'.inst hi').trans hfrom)
    rcases mem_append.1 (hj _ h) with hjl | hjl
    · exact hjl
    rcases mem_cons.1 hjl with rfl | hjl
    · exact absurd (hij b p l₁ hi hto) hmem
    obtain ⟨k2, k1, rfl⟩ := append_of_mem hjl
    obtain ⟨b', p', hj', hto', -⟩ := hto.split rfl
    exact absurd (mem_append_right _ (.tail _ (hij b' p' k1 hj' hto')))
      hmem

/-- What has been executed before something that has been executed has been executed. -/
theorem Precedes.mem (hij : f.Precedes i j) (h : Path f f.entry 0 b p l) (hj : j ∈ l) : i ∈ l := by
  obtain ⟨l₂, l₁, rfl⟩ := append_of_mem hj
  obtain ⟨b', p', hj', hto, -⟩ := h.split rfl
  exact mem_append_right _ (.tail _ (hij b' p' l₁ hj' hto))

theorem not_precedes_self (hi : (f.blockInsts b)[p]? = some i) :
    ∀ l, f.Past b p l → ¬ f.Precedes i i := by
  intro l
  induction hn : l.length using Nat.strong_induction_on generalizing b p l with
  | _ n ih =>
    intro h hii
    obtain ⟨l₂, l₁, rfl⟩ := append_of_mem (hii b p l hi h)
    obtain ⟨b', p', hi', hto, -⟩ := h.split rfl
    have hshort : l₁.length < n := by
      rw [← hn, length_append, length_cons]
      omega
    exact ih l₁.length hshort hi' l₁ rfl hto hii

theorem here_succ (hi : (f.blockInsts b)[p]? = some i)
    (hhere : ∀ q < p, ∀ k, (f.blockInsts b)[q]? = some k → k ∈ l) :
    ∀ q < p + 1, ∀ k, (f.blockInsts b)[q]? = some k → k ∈ i :: l := by
  intro q hq k hk
  rcases Nat.lt_succ_iff_lt_or_eq.1 hq with hq | rfl
  · exact .tail _ (hhere q hq k hk)
  · cases hi.symm.trans hk
    exact .head _

/-- The block a path is in has been executed up to its position, and where branches come
last, the blocks it has left up to their branches. -/
theorem Path.trail (h : f.Past b p l) : ∃ trail, Flow.Trail f.entry f.Edge b trail
      ∧ (f.BranchesLast → ∀ a ∈ trail, ∀ i ∈ f.blockInsts a, f.isBranchAt i = false → i ∈ l)
      ∧ ∀ q < p, ∀ i, (f.blockInsts b)[q]? = some i → i ∈ l := by
  induction h with
  | refl => exact ⟨[], .entry, by simp, by simp⟩
  | inst _ hi ih =>
    obtain ⟨trail, ht, hleft, hhere⟩ := ih
    exact ⟨trail, ht, fun hlast a ha k hk hb => .tail _ (hleft hlast a ha k hk hb),
      here_succ hi hhere⟩
  | @branch b c p l _ hexit hc ih =>
    obtain ⟨trail, ht, hleft, hhere⟩ := ih
    refine ⟨b :: trail, ht.step hc, ?_, by simp⟩
    intro hlast a ha k hk hb
    rcases mem_cons.1 ha with rfl | ha
    · obtain ⟨q, hq⟩ := getElem?_of_mem hk
      exact hhere q (hlast.lt hexit hq hb) k hq
    · exact hleft hlast a ha k hk hb

theorem Path.pos_le (h : f.Past b p l) : p ≤ (f.blockInsts b).length := by
  cases h with
  | refl => exact Nat.zero_le _
  | inst _ hi => exact (List.getElem?_eq_some_iff.1 hi).1
  | branch _ _ _ => exact Nat.zero_le _

theorem Path.runTo (h : f.Past b 0 l) : ∀ q ≤ (f.blockInsts b).length,
    ∃ l', f.Past b q (l' ++ l) ∧ ∀ i ∈ l', ∃ p < q, (f.blockInsts b)[p]? = some i
      ∧ ∃ l₁, f.Past b p l₁ := by
  intro q
  induction q with
  | zero => intro _; exact ⟨[], h, by simp⟩
  | succ q ih =>
    intro hq
    obtain ⟨l', hpast, hmem⟩ := ih (by omega)
    have hi := getElem?_eq_getElem (l := f.blockInsts b) (i := q) (by omega)
    refine ⟨(f.blockInsts b)[q] :: l', hpast.inst hi, ?_⟩
    intro i hi'
    rcases mem_cons.1 hi' with rfl | hi'
    · exact ⟨q, Nat.lt_succ_self q, hi, _, hpast⟩
    obtain ⟨p, hp, hrest⟩ := hmem i hi'
    exact ⟨p, Nat.lt_succ_of_lt hp, hrest⟩

/-- Control can follow a trail; it executes what stands in the blocks of the trail. -/
theorem exists_past_of_trail {trail : List BlockId} (ht : Flow.Trail f.entry f.Edge b trail) :
    ∀ q ≤ (f.blockInsts b).length, ∃ l, f.Past b q l ∧ ∀ i ∈ l, ∃ a p,
      (f.blockInsts a)[p]? = some i ∧ (a ∈ trail ∨ a = b ∧ p < q) ∧ ∃ l₁, f.Past a p l₁ := by
  induction ht with
  | entry =>
    intro q hq
    obtain ⟨l', hpast, hmem⟩ := Path.runTo .refl q hq
    refine ⟨l' ++ [], hpast, fun i hi => ?_⟩
    obtain ⟨p, hp, hi, hl1⟩ := hmem i (by simpa using hi)
    exact ⟨f.entry, p, hi, .inr ⟨rfl, hp⟩, hl1⟩
  | @step a b trail _ hab ih =>
    intro q hq
    obtain ⟨l, hpast, hmem⟩ := ih (f.blockInsts a).length le_rfl
    have hexit : f.Exits a (f.blockInsts a).length := by simp [Exits]
    obtain ⟨l', hpast', hmem'⟩ := (hpast.branch hexit hab).runTo q hq
    refine ⟨l' ++ l, hpast', fun i hi => ?_⟩
    rcases mem_append.1 hi with hi | hi
    · obtain ⟨p, hp, hi, hl1⟩ := hmem' i hi
      exact ⟨b, p, hi, .inr ⟨rfl, hp⟩, hl1⟩
    obtain ⟨c, p, hi, hc, hl1⟩ := hmem i hi
    refine ⟨c, p, hi, .inl ?_, hl1⟩
    rcases hc with hc | ⟨rfl, -⟩
    · exact .tail _ hc
    · exact .head _

theorem exists_past (hb : f.Reachable b) (hq : q ≤ (f.blockInsts b).length) :
    ∃ l, f.Past b q l := by
  obtain ⟨trail, ht⟩ := hb
  obtain ⟨l, hl, -⟩ := exists_past_of_trail ht q hq
  exact ⟨l, hl⟩

theorem Path.reachable (h : f.Past b p l) : f.Reachable b := by
  obtain ⟨trail, ht, -⟩ := h.trail
  exact ⟨trail, ht⟩

variable {a : BlockId}

theorem Path.mem_of_dominates (hlast : f.BranchesLast)
    (hdom : Dominators.Dominates f.entry f.Edge a b) (hab : a ≠ b) (hi : i ∈ f.blockInsts a)
    (hnb : f.isBranchAt i = false) (h : f.Past b p l) : i ∈ l := by
  obtain ⟨trail, ht, hleft, -⟩ := h.trail
  rcases hdom trail ht with hb | ⟨c, hc, rfl⟩
  · exact absurd hb.symm hab
  · exact hleft hlast c hc i hi hnb

theorem Path.mem_of_lt (h : f.Past b p l) (hq : q < p) (hi : (f.blockInsts b)[q]? = some i) :
    i ∈ l := by
  obtain ⟨trail, -, -, hhere⟩ := h.trail
  exact hhere q hq i hi

/-- A path stays in its block, where it executes what lies on its way, or enters the block
it ends in at the top. -/
theorem Path.stays_or_enters (h : Path f b₀ p₀ b p l) :
    (b₀ = b ∧ p₀ ≤ p ∧ ∀ i ∈ l, ∃ q, p₀ ≤ q ∧ q < p ∧ (f.blockInsts b)[q]? = some i)
      ∨ (Relation.TransGen f.Edge b₀ b ∧ ∀ q < p, ∀ i, (f.blockInsts b)[q]? = some i → i ∈ l) := by
  induction h with
  | refl => exact .inl ⟨rfl, le_rfl, by simp⟩
  | @inst b p i l _ hi ih =>
    rcases ih with ⟨rfl, hle, hway⟩ | ⟨hedges, hhere⟩
    · refine .inl ⟨rfl, hle.trans (Nat.le_succ _), fun k hk => ?_⟩
      rcases mem_cons.1 hk with rfl | hk
      · exact ⟨p, hle, Nat.lt_succ_self p, hi⟩
      obtain ⟨q, hq, hqp, hkq⟩ := hway k hk
      exact ⟨q, hq, Nat.lt_succ_of_lt hqp, hkq⟩
    exact .inr ⟨hedges, here_succ hi hhere⟩
  | branch _ _ hc ih =>
    refine .inr ⟨?_, by simp⟩
    rcases ih with ⟨rfl, -⟩ | ⟨hedges, -⟩
    · exact .single hc
    · exact hedges.tail hc

/-- A path executes `i` of the block `a`, or does not pass through `a`. -/
theorem Path.mem_or_avoids (hlast : f.BranchesLast) (hi : i ∈ f.blockInsts a)
    (hnb : f.isBranchAt i = false) (h : Path f b₀ p₀ b p l) :
    i ∈ l ∨ (b₀ = b ∧ p₀ ≤ p) ∨ Relation.TransGen (fun x y => f.Edge x y ∧ y ≠ a) b₀ b
      ∨ (b = a ∧ ∀ q < p, ∀ k, (f.blockInsts a)[q]? = some k → k ∈ l) := by
  obtain ⟨n, hn⟩ := getElem?_of_mem hi
  induction h with
  | refl => exact .inr (.inl ⟨rfl, le_rfl⟩)
  | inst _ hj ih =>
    rcases ih with hmem | ⟨rfl, hle⟩ | hedges | ⟨rfl, hhere⟩
    · exact .inl (.tail _ hmem)
    · exact .inr (.inl ⟨rfl, hle.trans (Nat.le_succ _)⟩)
    · exact .inr (.inr (.inl hedges))
    exact .inr (.inr (.inr ⟨rfl, here_succ hj hhere⟩))
  | @branch b c p l _ hexit hc ih =>
    by_cases hca : c = a
    · rcases ih with hmem | -
      · exact .inl hmem
      · exact .inr (.inr (.inr ⟨hca, by simp⟩))
    rcases ih with hmem | ⟨rfl, -⟩ | hedges | ⟨rfl, hhere⟩
    · exact .inl hmem
    · exact .inr (.inr (.inl (.single ⟨hc, hca⟩)))
    · exact .inr (.inr (.inl (hedges.tail ⟨hc, hca⟩)))
    -- the block is left after everything but branches, so `i` has been executed
    exact .inl (hhere n (hlast.lt hexit hn hnb) i hn)

end TrustCg.Ir.MachFunction
