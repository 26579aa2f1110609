import Mathlib.Data.List.Pairwise
import Mathlib.Order.MinMax

/-!
# Sets of positions as sorted range lists

A set of positions kept as a list of half-open ranges.  `add` inserts a range and
merges it with every range it overlaps or touches, in one scan over the list that
widens the merged range as it goes.

* `covers_add` : the insertion adds exactly the positions of the new range.
* `separated_add` : it keeps the list sorted, its ranges non-empty, and a gap
  between any two of them.
* `find_iff_covers` : on sorted disjoint ranges a binary search finds the range of a
  position exactly when there is one.
* `overlaps_iff` : the merging scan over two such lists tells whether they share a
  position.

The key is `split_around`: around a new range a separated list falls into the
ranges below it, the ranges it touches and the ranges above it, and the scan
merges exactly the middle part (`scan_split`).
-/

namespace TrustCg.Ranges

open List

/-- A half-open range of positions. -/
structure Range where
  start : ℕ
  stop : ℕ
  deriving DecidableEq, Repr

/-- The position lies in some range of the list. -/
def Covers (rs : List Range) (p : ℕ) : Prop := ∃ r ∈ rs, r.start ≤ p ∧ p < r.stop

/-- Sorted, with non-empty ranges and a gap between any two of them. -/
def Separated (rs : List Range) : Prop :=
  rs.Pairwise (fun a b => a.stop < b.start) ∧ ∀ r ∈ rs, r.start < r.stop

/-! ## Insertion -/

/-- The state of the scan: the merged range so far, and the first and last index
of a range merged into it. -/
structure Scan where
  start : ℕ
  stop : ℕ
  first : Option ℕ
  last : Option ℕ

/-- One range of the scan; ranges that touch are merged. -/
def scanStep (m : Scan) (i : ℕ) (r : Range) : Scan :=
  if r.start ≤ m.stop ∧ m.start ≤ r.stop then
    ⟨min m.start r.start, max m.stop r.stop, m.first.or (some i), some i⟩
  else m

/-- The scan from index `i` on. -/
def scan : List Range → ℕ → Scan → Scan
  | [], _, m => m
  | r :: rs, i, m => scan rs (i + 1) (scanStep m i r)

/-- Insert `[s, e)`, merging what it overlaps or touches. -/
def add (rs : List Range) (s e : ℕ) : List Range :=
  if s ≥ e then rs
  else
    let m := scan rs 0 ⟨s, e, none, none⟩
    match m.first, m.last with
    | some a, some b => rs.take a ++ ⟨m.start, m.stop⟩ :: rs.drop (b + 1)
    | _, _ => rs.takeWhile (fun r => r.start ≤ s) ++ ⟨s, e⟩ :: rs.dropWhile fun r => r.start ≤ s

theorem covers_nil (p : ℕ) : ¬ Covers [] p := by
  rintro ⟨r, hr, -⟩
  simp at hr

variable {rs : List Range} {p : ℕ} {r : Range}

theorem covers_cons : Covers (r :: rs) p ↔ (r.start ≤ p ∧ p < r.stop) ∨ Covers rs p := by
  simp [Covers]

variable {ts : List Range}

theorem covers_append : Covers (rs ++ ts) p ↔ Covers rs p ∨ Covers ts p := by
  simp [Covers, or_and_right, exists_or]

theorem pairwise_and_forall_cons {R : Range → Range → Prop} {P : Range → Prop} :
    ((r :: rs).Pairwise R ∧ ∀ t ∈ r :: rs, P t)
      ↔ P r ∧ (∀ t ∈ rs, R r t) ∧ rs.Pairwise R ∧ ∀ t ∈ rs, P t := by
  rw [pairwise_cons, forall_mem_cons, and_and_and_comm, and_comm (b := P r), and_assoc]

theorem separated_cons :
    Separated (r :: rs) ↔ r.start < r.stop ∧ (∀ t ∈ rs, r.stop < t.start) ∧ Separated rs :=
  pairwise_and_forall_cons

theorem separated_append :
    Separated (rs ++ ts) ↔ Separated rs ∧ Separated ts ∧ ∀ r ∈ rs, ∀ t ∈ ts, r.stop < t.start := by
  simp only [Separated, pairwise_append, forall_mem_append]
  constructor
  · rintro ⟨⟨h1, h2, h3⟩, h4, h5⟩
    exact ⟨⟨h1, h4⟩, ⟨h2, h5⟩, h3⟩
  · rintro ⟨⟨h1, h4⟩, ⟨h2, h5⟩, h3⟩
    exact ⟨⟨h1, h2, h3⟩, h4, h5⟩

section

variable {s e : ℕ} {mid rs below above : List Range}

/-- Around a new range a separated list falls into the ranges strictly below it,
those it overlaps or touches, and those strictly above it. -/
theorem split_around : ∀ (rs : List Range), Separated rs → s < e →
    ∃ below mid above, rs = below ++ (mid ++ above) ∧ (∀ r ∈ below, r.stop < s)
      ∧ (∀ r ∈ mid, r.start ≤ e ∧ s ≤ r.stop) ∧ ∀ r ∈ above, e < r.start := by
  intro rs
  induction rs with
  | nil => intro _ _; exact ⟨[], [], [], rfl, by simp, by simp, by simp⟩
  | cons r rs ih =>
    intro hsep hse
    obtain ⟨hr, hgap, hrs⟩ := separated_cons.1 hsep
    obtain ⟨below, mid, above, rfl, hbelow, hmid, habove⟩ := ih hrs hse
    by_cases hlow : r.stop < s
    · refine ⟨r :: below, mid, above, rfl, ?_, hmid, habove⟩
      exact forall_mem_cons.2 ⟨hlow, hbelow⟩
    -- nothing can lie below a range that reaches the new one
    have hnil : below = [] := by
      cases below with
      | nil => rfl
      | cons b below =>
        have h1 := hgap b (by simp)
        have h2 := hbelow b (by simp)
        have h3 := hrs.2 b (by simp)
        omega
    subst hnil
    by_cases hhigh : e < r.start
    · refine ⟨[], [], r :: (mid ++ above), rfl, by simp, by simp, ?_⟩
      intro t ht
      rcases mem_cons.1 ht with rfl | ht
      · exact hhigh
      have := hgap t (by simpa using ht)
      omega
    refine ⟨[], r :: mid, above, rfl, by simp, ?_, habove⟩
    exact forall_mem_cons.2 ⟨⟨by omega, by omega⟩, hmid⟩

/-! ## The scan -/

theorem scan_append (rs ts : List Range) (i : ℕ) (m : Scan) :
    scan (rs ++ ts) i m = scan ts (i + rs.length) (scan rs i m) := by
  induction rs generalizing ts i m with
  | nil => rfl
  | cons r rs ih =>
    rw [cons_append, scan, scan, ih, length_cons]
    congr 1
    omega

/-- Ranges that do not touch the merged range leave the scan alone. -/
theorem scan_of_apart (rs : List Range) (i : ℕ) (m : Scan)
    (h : ∀ r ∈ rs, m.stop < r.start ∨ r.stop < m.start) : scan rs i m = m := by
  induction rs generalizing i m with
  | nil => rfl
  | cons r rs ih =>
    have hskip : scanStep m i r = m := by
      have hr := h r (.head _)
      rw [scanStep, if_neg (by omega)]
    rw [scan, hskip]
    exact ih _ m fun t ht => h t (.tail _ ht)

theorem scan_of_touching (rs : List Range) (i : ℕ) (m : Scan) (h : rs ≠ []) :
    m.start ≤ s → e ≤ m.stop → (∀ r ∈ rs, r.start ≤ e ∧ s ≤ r.stop) →
      scan rs i m = ⟨(rs.map Range.start).foldl min m.start, (rs.map Range.stop).foldl max m.stop,
        m.first.or (some i), some (i + rs.length - 1)⟩ := by
  induction rs generalizing i m with
  | nil => exact absurd rfl h
  | cons r rs ih =>
    intro hs he htouch
    obtain ⟨hr1, hr2⟩ := htouch r (.head _)
    have hmerge : scanStep m i r
        = ⟨min m.start r.start, max m.stop r.stop, m.first.or (some i), some i⟩ := by
      rw [scanStep, if_pos ⟨by omega, by omega⟩]
    rw [scan, hmerge]
    by_cases hnil : rs = []
    · subst hnil
      simp [scan]
    rw [ih (i + 1) _ hnil (by simp only; omega) (by simp only; omega)
      fun t ht => htouch t (.tail _ ht)]
    have hfirst : (m.first.or (some i)).or (some (i + 1)) = m.first.or (some i) := by
      cases m.first <;> rfl
    simp only [map_cons, foldl_cons, hfirst, length_cons]
    congr 2
    omega

theorem foldl_min_spec {α : Type*} [LinearOrder α] (l : List α) (a : α) :
    l.foldl min a ≤ a ∧ (∀ x ∈ l, l.foldl min a ≤ x) ∧ (l.foldl min a = a ∨ l.foldl min a ∈ l) := by
  induction l generalizing a with
  | nil => exact ⟨le_rfl, by simp, .inl rfl⟩
  | cons x l ih =>
    obtain ⟨h1, h2, h3⟩ := ih (min a x)
    rw [foldl_cons]
    refine ⟨h1.trans (min_le_left a x), ?_, ?_⟩
    · exact forall_mem_cons.2 ⟨h1.trans (min_le_right a x), h2⟩
    rcases h3 with h3 | h3
    · rcases min_choice a x with h | h
      · exact .inl (h3.trans h)
      · exact .inr (by rw [h3, h]; exact .head _)
    · exact .inr (.tail _ h3)

/-- The range the new one grows to when it swallows `mid`. -/
def hull (mid : List Range) (s e : ℕ) : Range :=
  ⟨(mid.map Range.start).foldl min s, (mid.map Range.stop).foldl max e⟩

theorem foldl_min_map_spec {α : Type*} [LinearOrder α] (g : Range → α) (mid : List Range) (a : α) :
    (mid.map g).foldl min a ≤ a ∧ (∀ r ∈ mid, (mid.map g).foldl min a ≤ g r)
      ∧ ((mid.map g).foldl min a = a ∨ ∃ r ∈ mid, (mid.map g).foldl min a = g r) := by
  obtain ⟨h1, h2, h3⟩ := foldl_min_spec (mid.map g) a
  refine ⟨h1, fun r hr => h2 _ (mem_map_of_mem hr), h3.imp_right fun h3 => ?_⟩
  obtain ⟨r, hr, heq⟩ := mem_map.1 h3
  exact ⟨r, hr, heq.symm⟩

theorem hull_start (mid : List Range) (s e : ℕ) :
    (hull mid s e).start ≤ s ∧ (∀ r ∈ mid, (hull mid s e).start ≤ r.start)
      ∧ ((hull mid s e).start = s ∨ ∃ r ∈ mid, (hull mid s e).start = r.start) :=
  foldl_min_map_spec Range.start mid s

theorem hull_stop (mid : List Range) (s e : ℕ) :
    e ≤ (hull mid s e).stop ∧ (∀ r ∈ mid, r.stop ≤ (hull mid s e).stop)
      ∧ ((hull mid s e).stop = e ∨ ∃ r ∈ mid, (hull mid s e).stop = r.stop) :=
  @foldl_min_map_spec ℕᵒᵈ _ Range.stop mid e

/-- The hull of ranges that touch the new one has no position of its own. -/
theorem covers_hull (hmid : ∀ r ∈ mid, r.start ≤ e ∧ s ≤ r.stop) (p : ℕ) :
    ((hull mid s e).start ≤ p ∧ p < (hull mid s e).stop) ↔ Covers mid p ∨ (s ≤ p ∧ p < e) := by
  obtain ⟨hs1, hs2, hs3⟩ := hull_start mid s e
  obtain ⟨he1, he2, he3⟩ := hull_stop mid s e
  constructor
  · rintro ⟨hlo, hhi⟩
    by_cases hp : s ≤ p ∧ p < e
    · exact .inr hp
    left
    rcases lt_or_ge p s with hlt | hge
    · rcases hs3 with h | ⟨r, hr, h⟩
      · omega
      · exact ⟨r, hr, by omega, by have := (hmid r hr).2; omega⟩
    rcases he3 with h | ⟨r, hr, h⟩
    · omega
    · exact ⟨r, hr, by have := (hmid r hr).1; omega, by omega⟩
  rintro (⟨r, hr, hrp⟩ | hp)
  · have := hs2 r hr
    have := he2 r hr
    omega
  · omega

section

variable (hsep : Separated (below ++ (mid ++ above))) (hbelow : ∀ r ∈ below, r.stop < s)
  (hmid : ∀ r ∈ mid, r.start ≤ e ∧ s ≤ r.stop) (habove : ∀ r ∈ above, e < r.start)
include hsep hbelow hmid habove

theorem scan_split (hne : mid ≠ []) :
    scan (below ++ (mid ++ above)) 0 ⟨s, e, none, none⟩
      = ⟨(hull mid s e).start, (hull mid s e).stop, some below.length,
          some (below.length + mid.length - 1)⟩ := by
  obtain ⟨-, hsep, -⟩ := separated_append.1 hsep
  obtain ⟨-, -, hcross⟩ := separated_append.1 hsep
  rw [scan_append, scan_of_apart below 0 _ fun r hr => .inr (hbelow r hr), scan_append,
    scan_of_touching mid _ _ hne le_rfl le_rfl hmid, scan_of_apart above]
  · simp [hull]
  intro r hr
  left
  obtain ⟨-, -, hstop⟩ := hull_stop mid s e
  change (hull mid s e).stop < r.start
  rcases hstop with h | ⟨t, ht, h⟩
  · rw [h]; exact habove r hr
  · rw [h]; exact hcross t ht r hr

/-- **Insertion.**  The part of the list that the new range touches is replaced by
one range. -/
theorem add_eq (hse : s < e) :
    add (below ++ (mid ++ above)) s e = below ++ hull mid s e :: above := by
  unfold add
  rw [if_neg (by omega)]
  by_cases hne : mid = []
  · subst hne
    have happart : ∀ r ∈ below ++ ([] ++ above), e < r.start ∨ r.stop < s := by
      intro r hr
      rcases mem_append.1 hr with hr | hr
      · exact .inr (hbelow r hr)
      · exact .inl (habove r hr)
    rw [scan_of_apart _ 0 ⟨s, e, none, none⟩ happart]
    have hlow : ∀ r ∈ below, decide (r.start ≤ s) = true := by
      intro r hr
      have h1 := hsep.2 r (mem_append_left _ hr)
      have h2 := hbelow r hr
      exact decide_eq_true (by omega)
    have hhigh : above.takeWhile (fun r => decide (r.start ≤ s)) = []
        ∧ above.dropWhile (fun r => decide (r.start ≤ s)) = above := by
      cases above with
      | nil => exact ⟨rfl, rfl⟩
      | cons r above =>
        have := habove r (.head _)
        have hdec : decide (r.start ≤ s) = false := decide_eq_false (by omega)
        rw [takeWhile_cons, dropWhile_cons, hdec]
        exact ⟨rfl, rfl⟩
    simp only [nil_append]
    rw [takeWhile_append_of_pos hlow, dropWhile_append_of_pos hlow, hhigh.1, hhigh.2, append_nil]
    rfl
  · rw [scan_split hsep hbelow hmid habove hne]
    have hlen : 0 < mid.length := length_pos_iff.2 hne
    have hdrop : below.length + mid.length - 1 + 1 = (below ++ mid).length := by
      rw [length_append]; omega
    simp only [take_left, hdrop]
    rw [← append_assoc, drop_left]

end

theorem covers_add (hsep : Separated rs) (p : ℕ) :
    Covers (add rs s e) p ↔ Covers rs p ∨ (s ≤ p ∧ p < e) := by
  by_cases hse : s < e
  · obtain ⟨below, mid, above, rfl, hbelow, hmid, habove⟩ := split_around rs hsep hse
    rw [add_eq hsep hbelow hmid habove hse, covers_append, covers_cons, covers_hull hmid,
      covers_append, covers_append, or_right_comm (a := Covers mid p),
      ← or_assoc]
  · rw [add, if_pos (by omega)]
    exact (or_iff_left (by omega)).symm

theorem separated_add (hsep : Separated rs) : Separated (add rs s e) := by
  by_cases hse : s < e
  · obtain ⟨below, mid, above, rfl, hbelow, hmid, habove⟩ := split_around rs hsep hse
    rw [add_eq hsep hbelow hmid habove hse]
    obtain ⟨hsb, hsep', hcross⟩ := separated_append.1 hsep
    obtain ⟨-, hsa, hcross'⟩ := separated_append.1 hsep'
    obtain ⟨hs1, -, hs3⟩ := hull_start mid s e
    obtain ⟨he1, -, he3⟩ := hull_stop mid s e
    refine separated_append.2 ⟨hsb, separated_cons.2 ⟨by omega, ?_, hsa⟩, ?_⟩
    · intro t ht
      rcases he3 with h | ⟨r, hr, h⟩
      · rw [h]; exact habove t ht
      · rw [h]; exact hcross' r hr t ht
    intro r hr t ht
    rcases mem_cons.1 ht with rfl | ht
    · rcases hs3 with h | ⟨t, ht, h⟩
      · rw [h]; exact hbelow r hr
      · rw [h]; exact hcross r hr t (mem_append_left _ ht)
    · exact hcross r hr t (mem_append_right _ ht)
  · rw [add, if_pos (by omega)]
    exact hsep

theorem add_ne_nil (hsep : Separated rs) (hse : s < e) : add rs s e ≠ [] := by
  obtain ⟨below, mid, above, rfl, hbelow, hmid, habove⟩ := split_around rs hsep hse
  rw [add_eq hsep hbelow hmid habove hse]
  simp

end

/-! ## Ordered lists -/

/-- Sorted and pairwise disjoint, with non-empty ranges; neighbours may touch. -/
def Ordered (rs : List Range) : Prop :=
  rs.Pairwise (fun a b => a.stop ≤ b.start) ∧ ∀ r ∈ rs, r.start < r.stop

theorem Separated.ordered (h : Separated rs) : Ordered rs :=
  ⟨h.1.imp fun hlt => hlt.le, h.2⟩

theorem ordered_cons :
    Ordered (r :: rs) ↔ r.start < r.stop ∧ (∀ t ∈ rs, r.stop ≤ t.start) ∧ Ordered rs :=
  pairwise_and_forall_cons

theorem Ordered.head_le (h : Ordered rs) (hp : Covers rs p) :
    (rs.head?.map Range.start).getD 0 ≤ p := by
  cases rs with
  | nil => exact absurd hp (covers_nil p)
  | cons r rs =>
    obtain ⟨hr, hrs, -⟩ := ordered_cons.1 h
    show r.start ≤ p
    rcases covers_cons.1 hp with hin | ⟨t, ht, hin⟩
    · exact hin.1
    have := hrs t ht
    omega

theorem Ordered.lt_getLast (h : Ordered rs) (hp : Covers rs p) :
    p < (rs.getLast?.map Range.stop).getD 0 := by
  rcases eq_nil_or_concat rs with rfl | ⟨init, last, rfl⟩
  · exact absurd hp (covers_nil p)
  rw [concat_eq_append] at *
  rw [getLast?_concat]
  show p < last.stop
  obtain ⟨t, ht, hin⟩ := hp
  rcases mem_append.1 ht with ht | ht
  · have hcross := (pairwise_append.1 h.1).2.2 t ht last (by simp)
    have hlast := h.2 last (by simp)
    omega
  rw [mem_singleton.1 ht] at hin
  exact hin.2

/-! ## Bisection -/

section

variable {α : Type*} {cmp : α → Ordering} {xs : List α}

/-- The loop of a binary search: `size` elements from `base` on are left. -/
def bisect (cmp : α → Ordering) (xs : List α) : ℕ → ℕ → ℕ → ℕ
  | 0, base, _ => base
  | fuel + 1, base, size =>
    if size ≤ 1 then base
    else
      bisect cmp xs fuel
        (if (xs[base + size / 2]?).map cmp = some .gt then base else base + size / 2)
        (size - size / 2)

/-- Binary search for an element that compares equal. -/
def binarySearchBy (cmp : α → Ordering) (xs : List α) : Option ℕ :=
  match xs[bisect cmp xs xs.length 0 xs.length]? with
  | some x => if cmp x = .eq then some (bisect cmp xs xs.length 0 xs.length) else none
  | none => none

/-- Elements below come first, elements above last. -/
def SortedBy (cmp : α → Ordering) (xs : List α) : Prop :=
  ∀ (i j : ℕ) (x y : α), i < j → xs[i]? = some x → xs[j]? = some y →
    (cmp x = .gt → cmp y = .gt) ∧ (cmp y = .lt → cmp x = .lt)

/-- The loop keeps everything from `base + size` on above, and `base` not above. -/
theorem bisect_spec (hsorted : SortedBy cmp xs) : ∀ (fuel base size : ℕ), size ≤ fuel → 0 < size →
    base + size ≤ xs.length →
    (∀ (i : ℕ) (x : α), base + size ≤ i → xs[i]? = some x → cmp x = .gt) →
    (base = 0 ∨ ∃ x, xs[base]? = some x ∧ cmp x ≠ .gt) →
    (∀ (i : ℕ) (x : α), bisect cmp xs fuel base size < i → xs[i]? = some x → cmp x = .gt)
      ∧ (bisect cmp xs fuel base size = 0
        ∨ ∃ x, xs[bisect cmp xs fuel base size]? = some x ∧ cmp x ≠ .gt) := by
  intro fuel
  induction fuel with
  | zero => intro base size h1 h2; omega
  | succ fuel ih =>
    intro base size h1 h2 h3 habove hbase
    rw [bisect]
    by_cases hsize : size ≤ 1
    · rw [if_pos hsize]
      exact ⟨fun i x hi => habove i x (by omega), hbase⟩
    rw [if_neg hsize]
    have hlt : base + size / 2 < xs.length := by omega
    obtain ⟨y, hy⟩ : ∃ y, xs[base + size / 2]? = some y := ⟨_, getElem?_eq_getElem hlt⟩
    simp only [hy, Option.map_some, Option.some_inj]
    by_cases hgt : cmp y = .gt
    · simp only [if_pos hgt]
      refine ih base (size - size / 2) (by omega) (by omega) (by omega) ?_ hbase
      intro i x hi hx
      -- the upper half starts with an element above, so all of it is above
      rcases Nat.lt_trichotomy (base + size / 2) i with hlt' | heq | hgt'
      · exact (hsorted _ _ _ _ hlt' hy hx).1 hgt
      · subst heq
        rw [hy, Option.some_inj] at hx
        rw [← hx]
        exact hgt
      · omega
    simp only [if_neg hgt]
    exact ih (base + size / 2) (size - size / 2) (by omega) (by omega) (by omega)
      (fun i x hi => habove i x (by omega)) (.inr ⟨y, hy, hgt⟩)

/-- **Binary search is exact on sorted lists.** -/
theorem binarySearchBy_isSome (hsorted : SortedBy cmp xs) :
    (binarySearchBy cmp xs).isSome = true ↔ ∃ x ∈ xs, cmp x = .eq := by
  constructor
  · intro h
    unfold binarySearchBy at h
    split at h
    next x hx =>
      by_cases heq : cmp x = .eq
      · exact ⟨x, mem_of_getElem? hx, heq⟩
      rw [if_neg heq] at h
      simp at h
    · simp at h
  rintro ⟨x, hmem, heq⟩
  obtain ⟨i, hi⟩ := mem_iff_getElem?.1 hmem
  have hpos : 0 < xs.length := length_pos_of_mem hmem
  obtain ⟨habove, hfound⟩ := bisect_spec hsorted xs.length 0 xs.length le_rfl hpos (by omega)
    (fun j y hj hy => absurd (List.getElem?_eq_some_iff.1 hy).1 (by omega)) (.inl rfl)
  unfold binarySearchBy
  generalize bisect cmp xs xs.length 0 xs.length = r at *
  rcases Nat.lt_trichotomy r i with hlt | rfl | hgt
  · have := habove i x hlt hi
    rw [heq] at this
    cases this
  · simp [hi, heq]
  obtain ⟨y, hy, hne⟩ := hfound.resolve_left (by omega)
  have hyeq : cmp y = .eq := by
    cases hcmp : cmp y with
    | eq => rfl
    | gt => exact absurd hcmp hne
    | lt =>
      have := (hsorted i r x y hgt hi hy).2 hcmp
      rw [heq] at this
      cases this
  simp [hy, hyeq]

end

/-- How a range lies to a position. -/
def compareAt (p : ℕ) (r : Range) : Ordering :=
  if r.stop ≤ p then .lt else if r.start > p then .gt else .eq

theorem compareAt_eq_iff : compareAt p r = .eq ↔ r.start ≤ p ∧ p < r.stop := by
  unfold compareAt
  split_ifs <;> simp <;> omega

theorem Ordered.sortedBy (h : Ordered rs) (p : ℕ) : SortedBy (compareAt p) rs := by
  intro i j x y hij hx hy
  obtain ⟨hi, rfl⟩ := List.getElem?_eq_some_iff.1 hx
  obtain ⟨hj, rfl⟩ := List.getElem?_eq_some_iff.1 hy
  have hcross := pairwise_iff_getElem.1 h.1 i j hi hj hij
  have h2 := h.2 _ (getElem_mem hj)
  unfold compareAt
  constructor <;> intro hcmp <;> split_ifs at hcmp ⊢ <;> first | rfl | omega

/-- The search finds the range of a position exactly when there is one. -/
theorem find_iff_covers (h : Ordered rs) (p : ℕ) :
    (binarySearchBy (compareAt p) rs).isSome = true ↔ Covers rs p := by
  rw [binarySearchBy_isSome (h.sortedBy p)]
  simp only [compareAt_eq_iff]
  rfl

/-! ## Overlap -/

/-- Two ranges share a position. -/
def Range.overlaps (a b : Range) : Bool := a.start < b.stop && b.start < a.stop

/-- The merging scan over two lists; the first argument bounds its steps. -/
def overlapScan : ℕ → List Range → List Range → Bool
  | fuel + 1, a :: rs, b :: ts =>
    if a.overlaps b then true
    else if a.stop ≤ b.start then overlapScan fuel rs (b :: ts)
    else overlapScan fuel (a :: rs) ts
  | _, _, _ => false

/-- The scan behind a check of the outer bounds. -/
def overlaps (rs ts : List Range) : Bool :=
  match rs.head?, rs.getLast?, ts.head?, ts.getLast? with
  | some a, some z, some a', some z' =>
    if z.stop ≤ a'.start ∨ z'.stop ≤ a.start then false
    else overlapScan (rs.length + ts.length) rs ts
  | _, _, _, _ => false

/-- Some position lies in both. -/
def Meet (rs ts : List Range) : Prop := ∃ p, Covers rs p ∧ Covers ts p

theorem Meet.symm (h : Meet rs ts) : Meet ts rs := by
  obtain ⟨p, h1, h2⟩ := h
  exact ⟨p, h2, h1⟩

/-- Two lists of non-empty ranges meet where two of their ranges overlap. -/
theorem meet_iff (hrs : Ordered rs) (hts : Ordered ts) :
    Meet rs ts ↔ ∃ r ∈ rs, ∃ t ∈ ts, t.start < r.stop ∧ r.start < t.stop := by
  constructor
  · rintro ⟨p, ⟨r, hr, h1⟩, ⟨t, ht, h2⟩⟩
    exact ⟨r, hr, t, ht, by omega, by omega⟩
  rintro ⟨r, hr, t, ht, h1, h2⟩
  have h3 := hrs.2 r hr
  have h4 := hts.2 t ht
  exact ⟨max r.start t.start, ⟨r, hr, by omega⟩, ⟨t, ht, by omega⟩⟩

theorem meet_cons_of_le {a : Range} (h : ∀ t ∈ ts, a.stop ≤ t.start) :
    Meet (a :: rs) ts ↔ Meet rs ts := by
  constructor
  · rintro ⟨p, h1, h2⟩
    rcases covers_cons.1 h1 with hin | hin
    · obtain ⟨t, ht, hin'⟩ := h2
      have := h t ht
      omega
    · exact ⟨p, hin, h2⟩
  rintro ⟨p, h1, h2⟩
  exact ⟨p, covers_cons.2 (.inr h1), h2⟩

theorem overlapScan_iff : ∀ (fuel : ℕ) (rs ts : List Range), Ordered rs → Ordered ts →
    rs.length + ts.length ≤ fuel → (overlapScan fuel rs ts = true ↔ Meet rs ts) := by
  have hnil : ∀ rs ts : List Range, rs = [] ∨ ts = [] → ¬ Meet rs ts := by
    rintro rs ts (rfl | rfl) ⟨p, h1, h2⟩
    · exact covers_nil p h1
    · exact covers_nil p h2
  intro fuel
  induction fuel with
  | zero =>
    intro rs ts _ _ hlen
    have hrs : rs = [] := length_eq_zero_iff.1 (by omega)
    simp [overlapScan, hnil rs ts (.inl hrs)]
  | succ fuel ih =>
    intro rs ts hrs hts hlen
    match rs, ts with
    | [], ts => simp [overlapScan, hnil [] ts (.inl rfl)]
    | a :: rs, [] => simp [overlapScan, hnil (a :: rs) [] (.inr rfl)]
    | a :: rs, b :: ts =>
      obtain ⟨ha, hars, hrs'⟩ := ordered_cons.1 hrs
      obtain ⟨hb, hbts, hts'⟩ := ordered_cons.1 hts
      simp only [length_cons] at hlen
      simp only [overlapScan, Range.overlaps, Bool.and_eq_true, decide_eq_true_eq]
      by_cases hab : a.start < b.stop ∧ b.start < a.stop
      · rw [if_pos hab]
        simp only [true_iff]
        exact ⟨max a.start b.start, covers_cons.2 (.inl (by omega)),
          covers_cons.2 (.inl (by omega))⟩
      rw [if_neg hab]
      by_cases hle : a.stop ≤ b.start
      · rw [if_pos hle, ih rs (b :: ts) hrs' hts (by simp only [length_cons]; omega)]
        refine (meet_cons_of_le ?_).symm
        refine forall_mem_cons.2 ⟨hle, fun t ht => ?_⟩
        have := hbts t ht
        omega
      rw [if_neg hle, ih (a :: rs) ts hrs hts' (by simp only [length_cons]; omega)]
      have hba : b.stop ≤ a.start := by omega
      have hall : ∀ t ∈ a :: rs, b.stop ≤ t.start := by
        refine forall_mem_cons.2 ⟨hba, fun t ht => ?_⟩
        have := hars t ht
        omega
      exact ⟨fun h => ((meet_cons_of_le hall).2 h.symm).symm,
        fun h => ((meet_cons_of_le hall).1 h.symm).symm⟩

/-- **The overlap test is exact on ordered lists.** -/
theorem overlaps_iff (hrs : Ordered rs) (hts : Ordered ts) :
    overlaps rs ts = true ↔ Meet rs ts := by
  rw [← overlapScan_iff (rs.length + ts.length) rs ts hrs hts le_rfl]
  unfold overlaps
  split
  next a z a' z' ha hz ha' hz' =>
    by_cases hout : z.stop ≤ a'.start ∨ z'.stop ≤ a.start
    · rw [if_pos hout, overlapScan_iff _ _ _ hrs hts le_rfl]
      simp only [Bool.false_eq_true, false_iff]
      rintro ⟨p, h1, h2⟩
      have hb1 := hrs.head_le h1
      have hb2 := hrs.lt_getLast h1
      have hb3 := hts.head_le h2
      have hb4 := hts.lt_getLast h2
      rw [ha] at hb1
      rw [hz] at hb2
      rw [ha'] at hb3
      rw [hz'] at hb4
      simp only [Option.map_some, Option.getD_some] at hb1 hb2 hb3 hb4
      omega
    · rw [if_neg hout]
  next hnone =>
    match rs, ts with
    | [], ts => simp [overlapScan]
    | a :: rs, [] => simp [overlapScan]
    | a :: rs, b :: ts =>
      exact absurd (getLast?_eq_some_getLast (by simp)) (hnone a _ b _ rfl
        (getLast?_eq_some_getLast (by simp)) rfl)

end TrustCg.Ranges
