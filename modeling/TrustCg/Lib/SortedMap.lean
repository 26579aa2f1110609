import TrustCg.Lib.Ranges

/-!
# Ordered maps and stores of disjoint segments

A map kept as a list of entries with strictly increasing keys; the order is part of
the structure, so every map is well formed.  Beside lookup, insertion and removal by a
test it answers the two ordered queries of a search tree: the entries with keys in a
range, and the last entry below a key.

* `mem_entries` : the entries are what lookup finds.
* `get?_insert`, `get?_retain` : what insertion and removal do.
* `lastBelow_eq_some`, `lastBelow_eq_none` : the predecessor query.

A store of segments is such a map from the start of a segment to its end and owner.
`hits` looks at the segments that start inside a range and at the predecessor only;
while the segments are disjoint this finds every segment that overlaps the range
(`mem_hits`), inserting a range without hits keeps them disjoint (`Disjoint.insert`),
and so a list of such ranges can be placed as a whole (`foldl_place`).
-/

namespace TrustCg

open List

/-- A map as a list of entries with increasing keys. -/
structure SortedMap (κ α : Type*) [LinearOrder κ] where
  entries : List (κ × α)
  sorted : entries.Pairwise fun a b => a.1 < b.1

namespace SortedMap

variable {κ α : Type*} [LinearOrder κ] {m : SortedMap κ α} {k k' : κ} {v : α}

/-- No entries. -/
def empty : SortedMap κ α := ⟨[], List.Pairwise.nil⟩

/-- The value of a key. -/
def get? (m : SortedMap κ α) (k : κ) : Option α := (m.entries.find? fun e => e.1 = k).map Prod.snd

/-- Insertion into a list of entries; an entry with the same key is replaced. -/
def insertEntry (k : κ) (v : α) : List (κ × α) → List (κ × α)
  | [] => [(k, v)]
  | e :: es =>
    if k < e.1 then (k, v) :: e :: es
    else if k = e.1 then (k, v) :: es
    else e :: insertEntry k v es

theorem lookup_cons_ite (e : κ × α) (es : List (κ × α)) :
    (e :: es).lookup k = if k = e.1 then some e.2 else es.lookup k := by
  obtain ⟨a, b⟩ := e
  by_cases h : k = a
  · simp [h]
  · simp [lookup_cons, beq_false_of_ne h, h]

theorem lookup_insertEntry (es : List (κ × α)) :
    (insertEntry k v es).lookup k' = if k' = k then some v else es.lookup k' := by
  induction es with
  | nil => rw [insertEntry, lookup_cons_ite]
  | cons e es ih =>
    rw [insertEntry]
    split
    next hlt => rw [lookup_cons_ite]
    next hlt =>
      split
      next heq =>
        subst heq
        rw [lookup_cons_ite, lookup_cons_ite]
        by_cases h : k' = e.1 <;> simp [h]
      next hne =>
        rw [lookup_cons_ite, lookup_cons_ite, ih]
        by_cases he : k' = e.1
        · subst he
          simp [Ne.symm hne]
        · simp [he]

variable {e : κ × α}

theorem mem_insertEntry (es : List (κ × α)) (h : e ∈ insertEntry k v es) :
    e = (k, v) ∨ e ∈ es := by
  induction es with
  | nil => exact mem_cons.1 h
  | cons a es ih =>
    rw [insertEntry] at h
    split_ifs at h
    · exact mem_cons.1 h
    · exact (mem_cons.1 h).imp_right (.tail _)
    · rcases mem_cons.1 h with rfl | h
      · exact .inr (.head _)
      · exact (ih h).imp_right (.tail _)

theorem sorted_insertEntry (es : List (κ × α)) (hs : es.Pairwise fun a b => a.1 < b.1) :
    (insertEntry k v es).Pairwise fun a b => a.1 < b.1 := by
  induction es with
  | nil => simp [insertEntry]
  | cons a es ih =>
    obtain ⟨ha, hes⟩ := pairwise_cons.1 hs
    rw [insertEntry]
    by_cases hlt : k < a.1
    · rw [if_pos hlt]
      refine pairwise_cons.2 ⟨forall_mem_cons.2 ⟨hlt, fun e he => ?_⟩, hs⟩
      exact lt_trans hlt (ha e he)
    rw [if_neg hlt]
    by_cases heq : k = a.1
    · rw [if_pos heq, heq]
      exact pairwise_cons.2 ⟨ha, hes⟩
    rw [if_neg heq]
    refine pairwise_cons.2 ⟨fun e he => ?_, ih hes⟩
    rcases mem_insertEntry es he with rfl | he
    · exact lt_of_le_of_ne (not_lt.1 hlt) (Ne.symm heq)
    · exact ha e he

/-- Insertion. -/
def insert (m : SortedMap κ α) (k : κ) (v : α) : SortedMap κ α :=
  ⟨insertEntry k v m.entries, sorted_insertEntry _ m.sorted⟩

/-- Keep the entries that pass a test. -/
def retain (m : SortedMap κ α) (keep : κ → α → Bool) : SortedMap κ α :=
  ⟨m.entries.filter fun e => keep e.1 e.2, m.sorted.filter _⟩

/-- Change the value of a key that is present. -/
def modify (m : SortedMap κ α) (k : κ) (f : α → α) : SortedMap κ α :=
  match m.get? k with
  | some v => m.insert k (f v)
  | none => m

/-- The entries with keys from `lo` up to `hi`. -/
def range (m : SortedMap κ α) (lo hi : κ) : List (κ × α) :=
  m.entries.filter fun e => lo ≤ e.1 ∧ e.1 < hi

/-- The last entry below a key. -/
def lastBelow (m : SortedMap κ α) (k : κ) : Option (κ × α) :=
  (m.entries.filter fun e => e.1 < k).getLast?

theorem eq_of_mem {e' : κ × α} (h : e ∈ m.entries) (h' : e' ∈ m.entries) (hk : e.1 = e'.1) :
    e = e' := by
  obtain ⟨i, hi, rfl⟩ := getElem_of_mem h
  obtain ⟨j, hj, rfl⟩ := getElem_of_mem h'
  rcases Nat.lt_trichotomy i j with hij | rfl | hij
  · exact absurd hk (pairwise_iff_getElem.1 m.sorted i j hi hj hij).ne
  · rfl
  · exact absurd hk (pairwise_iff_getElem.1 m.sorted j i hj hi hij).ne'

/-- **The entries are what lookup finds.** -/
theorem mem_entries : (k, v) ∈ m.entries ↔ m.get? k = some v := by
  unfold get?
  constructor
  · intro h
    cases hfind : m.entries.find? fun e => e.1 = k with
    | none => exact absurd (find?_eq_none.1 hfind (k, v) h) (by simp)
    | some e =>
      have hek : e.1 = k := by simpa using find?_some hfind
      have heq := eq_of_mem (mem_of_find?_eq_some hfind) h hek
      rw [heq, Option.map_some]
  intro h
  obtain ⟨e, hfind, hev⟩ := Option.map_eq_some_iff.1 h
  have hek : e.1 = k := by simpa using find?_some hfind
  rw [← hek, ← hev]
  exact mem_of_find?_eq_some hfind

@[simp] theorem get?_empty : (empty : SortedMap κ α).get? k = none := rfl

theorem get?_eq_lookup : m.get? k = m.entries.lookup k := by
  unfold get?
  induction m.entries with
  | nil => rfl
  | cons e es ih =>
    rw [lookup_cons_ite, find?_cons, ← ih]
    by_cases h : k = e.1
    · simp [h]
    · simp [h, Ne.symm h]

theorem get?_insert : (m.insert k v).get? k' = if k' = k then some v else m.get? k' := by
  rw [get?_eq_lookup, get?_eq_lookup, insert, lookup_insertEntry]

theorem get?_retain {keep : κ → α → Bool} :
    (m.retain keep).get? k = some v ↔ m.get? k = some v ∧ keep k v = true := by
  rw [← mem_entries, retain, mem_filter, mem_entries]

theorem get?_modify {f : α → α} :
    (m.modify k f).get? k' = if k' = k then (m.get? k').map f else m.get? k' := by
  unfold modify
  cases hk : m.get? k with
  | some u =>
    rw [get?_insert]
    by_cases h : k' = k
    · simp [h, hk]
    · simp [h]
  | none =>
    by_cases h : k' = k
    · simp [h, hk]
    · simp [h]

theorem mem_range {lo hi : κ} :
    e ∈ m.range lo hi ↔ m.get? e.1 = some e.2 ∧ lo ≤ e.1 ∧ e.1 < hi := by
  rw [range, mem_filter, ← mem_entries]
  simp

/-- The predecessor is present, below, and nothing present lies between. -/
theorem lastBelow_eq_some {b : κ} (h : m.lastBelow b = some e) :
    m.get? e.1 = some e.2 ∧ e.1 < b ∧ ∀ k v, m.get? k = some v → k < b → k ≤ e.1 := by
  unfold lastBelow at h
  have hmem := mem_filter.1 (mem_of_getLast? h)
  refine ⟨mem_entries.1 hmem.1, by simpa using hmem.2, ?_⟩
  intro k v hk hkb
  obtain ⟨init, hinit⟩ := getLast?_eq_some_iff.1 h
  have hin : (k, v) ∈ init ++ [e] := by
    rw [← hinit]
    exact mem_filter.2 ⟨mem_entries.2 hk, by simpa using hkb⟩
  have hsorted : (init ++ [e]).Pairwise fun a b => a.1 < b.1 := by
    rw [← hinit]
    exact m.sorted.filter _
  rcases mem_append.1 hin with hin | hin
  · exact ((pairwise_append.1 hsorted).2.2 _ hin e (by simp)).le
  · rw [← mem_singleton.1 hin]

theorem lastBelow_eq_none {b : κ} (h : m.lastBelow b = none) (hk : m.get? k = some v) :
    ¬ k < b := by
  intro hkb
  have hnil := getLast?_eq_none_iff.1 h
  have hin : (k, v) ∈ m.entries.filter fun e => e.1 < b :=
    mem_filter.2 ⟨mem_entries.2 hk, by simpa using hkb⟩
  rw [hnil] at hin
  simp at hin

end SortedMap

/-! ## Segments -/

/-- Segments by start, each with its end and its owner. -/
abbrev Segments (α : Type*) := SortedMap ℕ (ℕ × α)

namespace Segments

open Ranges (Range)

variable {α : Type*} {m : Segments α} {r : Range} {v : α}

/-- Segments are non-empty and do not overlap. -/
structure Disjoint (m : Segments α) : Prop where
  nonempty : ∀ s e v, m.get? s = some (e, v) → s < e
  apart : ∀ s e v s' e' v', m.get? s = some (e, v) → m.get? s' = some (e', v') → s < s' → e ≤ s'

/-- The owners of the segments that start inside the range, and of the predecessor if
it reaches into the range. -/
def hits (m : Segments α) (r : Range) : List α :=
  (m.range r.start r.stop).map (fun e => e.2.2)
    ++ match m.lastBelow r.start with
      | some (_, stop, v) => if stop > r.start then [v] else []
      | none => []

/-- **The hits are the owners of the overlapping segments.**  Only the nearest
predecessor can reach into the range, since the segments before it end before it
starts. -/
theorem mem_hits (hm : m.Disjoint) (hr : r.start < r.stop) :
    v ∈ m.hits r ↔ ∃ s e, m.get? s = some (e, v) ∧ s < r.stop ∧ r.start < e := by
  unfold hits
  rw [mem_append, mem_map]
  constructor
  · rintro (⟨e, he, rfl⟩ | h)
    · obtain ⟨hget, hlo, hhi⟩ := SortedMap.mem_range.1 he
      have := hm.nonempty e.1 e.2.1 e.2.2 hget
      exact ⟨e.1, e.2.1, hget, hhi, by omega⟩
    cases hlast : m.lastBelow r.start with
    | none => rw [hlast] at h; simp at h
    | some p =>
      obtain ⟨s, stop, u⟩ := p
      rw [hlast] at h
      obtain ⟨hget, hlt, -⟩ := SortedMap.lastBelow_eq_some hlast
      simp only at h hget hlt
      split at h
      · rw [mem_singleton.1 h]
        exact ⟨s, stop, hget, by omega, by assumption⟩
      · simp at h
  rintro ⟨s, e, hget, hs, he⟩
  by_cases hlo : r.start ≤ s
  · exact .inl ⟨(s, e, v), SortedMap.mem_range.2 ⟨hget, hlo, hs⟩, rfl⟩
  right
  cases hlast : m.lastBelow r.start with
  | none => exact absurd (not_le.1 hlo) (SortedMap.lastBelow_eq_none hlast hget)
  | some p =>
    obtain ⟨s', stop, u⟩ := p
    obtain ⟨hget', hlt', hmax⟩ := SortedMap.lastBelow_eq_some hlast
    have hle := hmax s (e, v) hget (not_le.1 hlo)
    simp only at hget' hlt' hle ⊢
    rcases Nat.lt_or_eq_of_le hle with hlt | heq
    · have := hm.apart s e v s' stop u hget hget' hlt
      omega
    subst heq
    rw [hget, Option.some_inj, Prod.mk.injEq] at hget'
    rw [← hget'.1, ← hget'.2, if_pos he]
    simp

theorem get?_of_mem_hits (h : v ∈ m.hits r) : ∃ s e, m.get? s = some (e, v) := by
  unfold hits at h
  rcases mem_append.1 h with h | h
  · obtain ⟨⟨s, e, u⟩, hin, rfl⟩ := mem_map.1 h
    exact ⟨s, e, (SortedMap.mem_range.1 hin).1⟩
  split at h
  next s e u hlast =>
    split at h
    · rw [mem_singleton.1 h]
      exact ⟨s, e, (SortedMap.lastBelow_eq_some hlast).1⟩
    · simp at h
  · simp at h

section

variable (hm : m.Disjoint) (hr : r.start < r.stop)
include hm hr

theorem hits_eq_nil :
    m.hits r = [] ↔ ∀ s e u, m.get? s = some (e, u) → ¬ (s < r.stop ∧ r.start < e) := by
  simp only [eq_nil_iff_forall_not_mem, mem_hits hm hr]
  constructor
  · exact fun h s e u hget hover => h u ⟨s, e, hget, hover⟩
  · rintro h u ⟨s, e, hget, hover⟩
    exact h s e u hget hover

/-- A segment that starts where the range does would be hit. -/
theorem get?_insert_iff (hfree : m.hits r = []) {s e : ℕ} {u : α} :
    (SortedMap.insert m r.start (r.stop, v)).get? s = some (e, u)
      ↔ m.get? s = some (e, u) ∨ (u = v ∧ (⟨s, e⟩ : Range) = r) := by
  rw [SortedMap.get?_insert]
  by_cases hs : s = r.start
  · have hnone : m.get? s ≠ some (e, u) := by
      intro hold
      have hlt := hm.nonempty s e u hold
      exact (hits_eq_nil hm hr).1 hfree s e u hold (by omega)
    simp only [if_pos hs, Option.some_inj, Prod.mk.injEq, hnone, false_or]
    constructor
    · rintro ⟨rfl, rfl⟩
      exact ⟨rfl, by rw [hs]⟩
    rintro ⟨rfl, h⟩
    exact ⟨(congrArg Range.stop h).symm, rfl⟩
  rw [if_neg hs]
  constructor
  · exact .inl
  rintro (h | ⟨-, h⟩)
  · exact h
  · exact absurd (congrArg Range.start h) hs

theorem Disjoint.insert (hfree : m.hits r = []) (v : α) :
    Disjoint (SortedMap.insert m r.start (r.stop, v)) := by
  have hno := (hits_eq_nil hm hr).1 hfree
  constructor
  · intro s e u hget
    rcases (get?_insert_iff hm hr hfree).1 hget with hold | ⟨-, rfl⟩
    · exact hm.nonempty s e u hold
    · exact hr
  intro s e u s' e' u' hget hget' hlt
  rcases (get?_insert_iff hm hr hfree).1 hget with hold | ⟨-, rfl⟩ <;>
    rcases (get?_insert_iff hm hr hfree).1 hget' with hold' | ⟨-, heq⟩
  · exact hm.apart s e u s' e' u' hold hold' hlt
  · subst heq
    have h1 := hno s e u hold
    simp only at h1 hr
    omega
  · have h1 := hno s' e' u' hold'
    have h2 := hm.nonempty s' e' u' hold'
    simp only at h1
    omega
  · exact absurd (congrArg Range.start heq) hlt.ne'

end

/-- Insert a range for an owner unless it hits a segment; the second component collects
the ranges that did. -/
def place (v : α) (acc : Segments α × List Range) (r : Range) : Segments α × List Range :=
  if (hits acc.1 r).isEmpty then (SortedMap.insert acc.1 r.start (r.stop, v), acc.2)
  else (acc.1, acc.2 ++ [r])

theorem foldl_place_owner (rs : List Range) (acc : Segments α × List Range) {k : ℕ} {seg : ℕ × α}
    (h : (rs.foldl (place v) acc).1.get? k = some seg) : acc.1.get? k = some seg ∨ seg.2 = v := by
  induction rs generalizing acc with
  | nil => exact .inl h
  | cons r rs ih =>
    rcases ih _ h with h | h
    · rw [place] at h
      split at h
      · rw [SortedMap.get?_insert] at h
        split at h
        · exact .inr (by rw [← Option.some.inj h])
        · exact .inl h
      · exact .inl h
    · exact .inr h

/-- **Ranges without hits are all placed.** -/
theorem foldl_place (v : α) (rs : List Range) (m : Segments α) (lost : List Range) (hm : m.Disjoint)
    (hrs : Ranges.Ordered rs) (hfree : ∀ r ∈ rs, m.hits r = []) :
    (rs.foldl (place v) (m, lost)).2 = lost
      ∧ ∀ s e u, (rs.foldl (place v) (m, lost)).1.get? s = some (e, u)
        ↔ m.get? s = some (e, u) ∨ (u = v ∧ (⟨s, e⟩ : Range) ∈ rs) := by
  induction rs generalizing m lost with
  | nil => simp
  | cons r rs ih =>
    obtain ⟨hr, hlater, hrs'⟩ := Ranges.ordered_cons.1 hrs
    obtain ⟨hrfree, hfree'⟩ := forall_mem_cons.1 hfree
    have hm' := hm.insert hr hrfree v
    have hnext : ∀ t ∈ rs, hits (SortedMap.insert m r.start (r.stop, v)) t = [] := by
      intro t ht
      refine (hits_eq_nil hm' (hrs'.2 t ht)).2 fun s e u hseg => ?_
      rcases (get?_insert_iff hm hr hrfree).1 hseg with hold | ⟨-, rfl⟩
      · exact (hits_eq_nil hm (hrs'.2 t ht)).1 (hfree' t ht) s e u hold
      · have h4 := hlater t ht
        simp only at h4 ⊢
        omega
    have hplace : place v (m, lost) r = (SortedMap.insert m r.start (r.stop, v), lost) := by
      rw [place, hrfree]
      rfl
    rw [foldl_cons, hplace]
    obtain ⟨hlost, hall⟩ := ih _ lost hm' hrs' hnext
    refine ⟨hlost, ?_⟩
    intro s e u
    rw [hall, get?_insert_iff hm hr hrfree, mem_cons, or_assoc, ← and_or_left]

end Segments

end TrustCg
