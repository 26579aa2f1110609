import Mathlib.Data.Finset.Card

/-!
# Bitsets packed into 64-bit words

A set of indices below `k` stored in `⌈k / 64⌉` words.  The structure carries the
two facts every client of such a set relies on without checking: the number of
words, and that the padding above `k` is zero.  With them the word-wise
operations are the set operations, bit by bit (`get_union`, `get_inter`,
`get_set`, …), comparing words is comparing sets (`ext_get`), and the sets form a
semilattice whose join is the union of the words.
-/

namespace TrustCg

open List

/-- Bit `i` of a list of words. -/
def bitAt (words : List (BitVec 64)) (i : ℕ) : Bool :=
  (words.getD (i / 64) 0#64).getLsbD (i % 64)

/-- A set of indices below `k`, packed. -/
structure BitWords (k : ℕ) where
  words : List (BitVec 64)
  length_eq : words.length = (k + 63) / 64
  padding : ∀ i, k ≤ i → bitAt words i = false

namespace BitWords

/-! ## Bits of word lists -/

variable {us vs : List (BitVec 64)}

theorem bitAt_zipWith {f : BitVec 64 → BitVec 64 → BitVec 64} {g : Bool → Bool → Bool}
    (hf : ∀ u v i, (f u v).getLsbD i = g (u.getLsbD i) (v.getLsbD i)) (hg : g false false = false)
    (hlen : us.length = vs.length) (i : ℕ) :
    bitAt (List.zipWith f us vs) i = g (bitAt us i) (bitAt vs i) := by
  unfold bitAt
  simp only [getD_eq_getElem?_getD]
  by_cases h : i / 64 < us.length
  · simp [h, hlen ▸ h, hf]
  have hu : us.length ≤ i / 64 := not_lt.1 h
  have hv : vs.length ≤ i / 64 := hlen ▸ hu
  have hz : (List.zipWith f us vs).length ≤ i / 64 := by simp [hlen]; omega
  rw [getElem?_eq_none hu, getElem?_eq_none hv, getElem?_eq_none hz]
  simp [hg]

theorem bitAt_modify {f : BitVec 64 → BitVec 64} {j : ℕ} {words : List (BitVec 64)} {b : Bool}
    (hj : j / 64 < words.length)
    (hf : ∀ u i, (f u).getLsbD i = if i = j % 64 then b else u.getLsbD i) (i : ℕ) :
    bitAt (words.modify (j / 64) f) i = if i = j then b else bitAt words i := by
  unfold bitAt
  simp only [getD_eq_getElem?_getD, getElem?_modify]
  by_cases hword : j / 64 = i / 64
  · have hlt : i / 64 < words.length := hword ▸ hj
    simp only [hword, if_true]
    rw [getElem?_eq_getElem hlt]
    change (f words[i / 64]).getLsbD (i % 64) = if i = j then b else words[i / 64].getLsbD (i % 64)
    rw [hf]
    by_cases hij : i = j
    · rw [if_pos hij, if_pos (by rw [hij])]
    · rw [if_neg hij, if_neg (by omega)]
  have hij : i ≠ j := by rintro rfl; exact hword rfl
  simp [hword, hij]

variable {n : ℕ}

theorem getLsbD_or_bit (u : BitVec 64) (hn : n < 64) (i : ℕ) :
    (u ||| 1#64 <<< n).getLsbD i = if i = n then true else u.getLsbD i := by
  simp only [BitVec.getLsbD_or, BitVec.getLsbD_shiftLeft, BitVec.getLsbD_one]
  by_cases h : i = n
  · subst h; simp [hn]
  by_cases hlt : i < n
  · simp [h, hlt]
  · simp [h, show i - n ≠ 0 by omega]

theorem getLsbD_and_not_bit (u : BitVec 64) (hn : n < 64) (i : ℕ) :
    (u &&& ~~~(1#64 <<< n)).getLsbD i = if i = n then false else u.getLsbD i := by
  simp only [BitVec.getLsbD_and, BitVec.getLsbD_not, BitVec.getLsbD_shiftLeft, BitVec.getLsbD_one]
  by_cases h : i = n
  · subst h; simp [hn]
  by_cases hi : i < 64
  · by_cases hlt : i < n
    · simp [h, hi, hlt]
    · simp [h, hi, show i - n ≠ 0 by omega]
  · simp [h, hi, BitVec.getLsbD_of_ge u i (by omega)]

/-! ## The operations -/

section

variable {k : ℕ} {a b : BitWords k} {i : ℕ}

/-- Membership. -/
def get (b : BitWords k) (i : ℕ) : Bool := bitAt b.words i

theorem get_of_ge (b : BitWords k) (h : k ≤ i) : b.get i = false := b.padding i h

theorem bitAt_replicate_zero (n i : ℕ) : bitAt (List.replicate n 0#64) i = false := by
  unfold bitAt
  rw [getD_eq_getElem?_getD, getElem?_replicate]
  split <;> simp

/-- The empty set. -/
def empty (k : ℕ) : BitWords k where
  words := List.replicate ((k + 63) / 64) 0#64
  length_eq := by simp
  padding := fun i _ => bitAt_replicate_zero _ i

@[simp] theorem get_empty (i : ℕ) : (empty k).get i = false := bitAt_replicate_zero _ i

/-- The words of the full set: all ones, with the padding of the last word cleared. -/
def fullWords (k : ℕ) : List (BitVec 64) :=
  let ones := List.replicate ((k + 63) / 64) (BitVec.allOnes 64)
  if k % 64 ≠ 0 then ones.set ((k + 63) / 64 - 1) ((1#64 <<< (k % 64)) - 1#64) else ones

theorem getLsbD_shift_sub_one (hn : n < 64) (i : ℕ) :
    ((1#64 <<< n) - 1#64).getLsbD i = decide (i < n) := by
  have hval : ((1#64 <<< n) - 1#64).toNat = 2 ^ n - 1 := by
    have hlt : 2 ^ n < 2 ^ 64 := Nat.pow_lt_pow_right (by decide) hn
    have hpos := Nat.two_pow_pos n
    simp only [BitVec.toNat_sub, BitVec.toNat_shiftLeft, BitVec.toNat_ofNat, Nat.shiftLeft_eq]
    rw [Nat.mod_eq_of_lt (by decide : 1 < 2 ^ 64), Nat.one_mul, Nat.mod_eq_of_lt hlt]
    omega
  rw [BitVec.getLsbD, hval, Nat.testBit_two_pow_sub_one]

theorem bitAt_fullWords (k i : ℕ) : bitAt (fullWords k) i = decide (i < k) := by
  unfold bitAt fullWords
  simp only [getD_eq_getElem?_getD]
  split
  next hrem =>
    rw [getElem?_set]
    simp only [length_replicate, getElem?_replicate]
    by_cases hlast : (k + 63) / 64 - 1 = i / 64
    · rw [if_pos hlast, if_pos (by omega)]
      simp only [Option.getD_some]
      rw [getLsbD_shift_sub_one (Nat.mod_lt _ (by decide)), decide_eq_decide]
      omega
    rw [if_neg hlast]
    split
    · simp only [Option.getD_some, BitVec.getLsbD_allOnes, decide_eq_decide]; omega
    simp only [Option.getD_none, BitVec.getLsbD_zero]; rw [eq_comm, decide_eq_false_iff_not]
    omega
  · rw [getElem?_replicate]
    split
    · simp only [Option.getD_some, BitVec.getLsbD_allOnes, decide_eq_decide]; omega
    simp only [Option.getD_none, BitVec.getLsbD_zero]; rw [eq_comm, decide_eq_false_iff_not]
    omega

/-- The full set. -/
def full (k : ℕ) : BitWords k where
  words := fullWords k
  length_eq := by unfold fullWords; split <;> simp
  padding := by
    intro i hi
    rw [bitAt_fullWords, decide_eq_false_iff_not]
    omega

@[simp] theorem get_full (i : ℕ) : (full k).get i = decide (i < k) := bitAt_fullWords k i

theorem div_lt_length (b : BitWords k) (hi : i < k) : i / 64 < b.words.length := by
  rw [b.length_eq]
  omega

section

variable (b : BitWords k) (j : Fin k) (i : ℕ)

theorem bitAt_insert :
    bitAt (b.words.modify (j / 64) (· ||| 1#64 <<< (j % 64 : ℕ))) i
      = if i = j then true else bitAt b.words i :=
  bitAt_modify (b.div_lt_length j.isLt)
    (fun u i => getLsbD_or_bit u (Nat.mod_lt _ (by decide)) i) i

/-- Insertion of one index. -/
def set (b : BitWords k) (j : Fin k) : BitWords k where
  words := b.words.modify (j / 64) (· ||| 1#64 <<< (j % 64 : ℕ))
  length_eq := by rw [length_modify, b.length_eq]
  padding := by
    intro i hi
    rw [bitAt_insert, if_neg (by have := j.isLt; omega)]
    exact b.padding i hi

@[simp] theorem get_set : (b.set j).get i = if i = j then true else b.get i := bitAt_insert b j i

theorem bitAt_remove :
    bitAt (b.words.modify (j / 64) (· &&& ~~~(1#64 <<< (j % 64 : ℕ)))) i
      = if i = j then false else bitAt b.words i :=
  bitAt_modify (b.div_lt_length j.isLt)
    (fun u i => getLsbD_and_not_bit u (Nat.mod_lt _ (by decide)) i) i

/-- Removal of one index. -/
def remove (b : BitWords k) (j : Fin k) : BitWords k where
  words := b.words.modify (j / 64) (· &&& ~~~(1#64 <<< (j % 64 : ℕ)))
  length_eq := by rw [length_modify, b.length_eq]
  padding := by
    intro i hi
    rw [bitAt_remove, if_neg (by have := j.isLt; omega)]
    exact b.padding i hi

@[simp] theorem get_remove :
    (b.remove j).get i = if i = j then false else b.get i := bitAt_remove b j i

end

section

variable (a b : BitWords k) (i : ℕ)

theorem bitAt_union :
    bitAt (List.zipWith (· ||| ·) a.words b.words) i = (bitAt a.words i || bitAt b.words i) :=
  bitAt_zipWith (fun _ _ _ => BitVec.getLsbD_or) rfl (a.length_eq.trans b.length_eq.symm) i

/-- Union, word by word. -/
def union (a b : BitWords k) : BitWords k where
  words := List.zipWith (· ||| ·) a.words b.words
  length_eq := by simp [a.length_eq, b.length_eq]
  padding := by
    intro i hi
    rw [bitAt_union, a.padding i hi, b.padding i hi]
    rfl

@[simp] theorem get_union : (a.union b).get i = (a.get i || b.get i) := bitAt_union a b i

theorem bitAt_inter :
    bitAt (List.zipWith (· &&& ·) a.words b.words) i = (bitAt a.words i && bitAt b.words i) :=
  bitAt_zipWith (fun _ _ _ => BitVec.getLsbD_and) rfl (a.length_eq.trans b.length_eq.symm) i

/-- Intersection, word by word. -/
def inter (a b : BitWords k) : BitWords k where
  words := List.zipWith (· &&& ·) a.words b.words
  length_eq := by simp [a.length_eq, b.length_eq]
  padding := by
    intro i hi
    rw [bitAt_inter, a.padding i hi]
    rfl

@[simp] theorem get_inter : (a.inter b).get i = (a.get i && b.get i) := bitAt_inter a b i

theorem bitAt_diff :
    bitAt (List.zipWith (fun u v => u &&& ~~~v) a.words b.words) i =
      (bitAt a.words i && !bitAt b.words i) := by
  refine bitAt_zipWith (g := fun u v => u && !v) ?_ rfl (a.length_eq.trans b.length_eq.symm) i
  intro u v j
  rw [BitVec.getLsbD_and, BitVec.getLsbD_not]
  by_cases hj : j < 64
  · simp [hj]
  · simp [BitVec.getLsbD_of_ge _ _ (not_lt.1 hj)]

/-- Difference, word by word. -/
def diff (a b : BitWords k) : BitWords k where
  words := List.zipWith (fun u v => u &&& ~~~v) a.words b.words
  length_eq := by simp [a.length_eq, b.length_eq]
  padding := by
    intro i hi
    rw [bitAt_diff, a.padding i hi]
    rfl

@[simp] theorem get_diff : (a.diff b).get i = (a.get i && !b.get i) := bitAt_diff a b i

end

/-- Set a bit; an index out of range changes nothing. -/
def insert (b : BitWords k) (i : ℕ) : BitWords k := if h : i < k then b.set ⟨i, h⟩ else b

theorem get_insert (b : BitWords k) {j : ℕ} (hj : j < k) (i : ℕ) :
    (b.insert j).get i = (decide (i = j) || b.get i) := by
  rw [insert, dif_pos hj, get_set]
  by_cases h : i = j <;> simp [h]

theorem get_foldl_insert (js : List ℕ) (b : BitWords k) (hjs : ∀ j ∈ js, j < k) :
    ∀ i, ((js.foldl insert b).get i = true ↔ i ∈ js ∨ b.get i = true) := by
  induction js generalizing b with
  | nil => intro i; simp
  | cons j js ih =>
    intro i
    rw [foldl_cons, ih _ (fun c hc => hjs c (.tail _ hc)),
      get_insert b (hjs j (.head _)), Bool.or_eq_true, decide_eq_true_eq, mem_cons]
    tauto

/-! ## Comparison -/

theorem words_eq_of_bitAt (hlen : us.length = vs.length) (h : ∀ i, bitAt us i = bitAt vs i) :
    us = vs := by
  refine ext_getElem hlen ?_
  intro n hu hv
  apply BitVec.eq_of_getLsbD_eq
  intro i hi
  have hbit := h (64 * n + i)
  unfold bitAt at hbit
  rw [show (64 * n + i) / 64 = n by omega, show (64 * n + i) % 64 = i by omega] at hbit
  simpa [getD_eq_getElem?_getD, hu, hv] using hbit

theorem ext_get (h : ∀ i < k, a.get i = b.get i) : a = b := by
  have hwords : a.words = b.words := by
    refine words_eq_of_bitAt (a.length_eq.trans b.length_eq.symm) ?_
    intro i
    by_cases hi : i < k
    · exact h i hi
    · rw [a.padding i (not_lt.1 hi), b.padding i (not_lt.1 hi)]
  cases a
  cases b
  simp_all

/-- Comparison of the words, as the derived `PartialEq` does. -/
instance : DecidableEq (BitWords k) := fun a b => decidable_of_iff (a.words = b.words)
    ⟨fun h => by cases a; cases b; simp_all, fun h => by rw [h]⟩

/-- The members, as a finite set. -/
def toFinset (b : BitWords k) : Finset ℕ := (Finset.range k).filter fun i => b.get i

@[simp] theorem mem_toFinset (b : BitWords k) (i : ℕ) : i ∈ b.toFinset ↔ b.get i = true := by
  rw [toFinset, Finset.mem_filter, Finset.mem_range]
  constructor
  · exact fun h => h.2
  intro h
  refine ⟨?_, h⟩
  by_contra hi
  rw [b.get_of_ge (not_lt.1 hi)] at h
  cases h

theorem toFinset_injective (h : a.toFinset = b.toFinset) : a = b := by
  refine ext_get ?_
  intro i _
  have hmem : i ∈ a.toFinset ↔ i ∈ b.toFinset := by rw [h]
  rw [mem_toFinset, mem_toFinset] at hmem
  exact Bool.eq_iff_iff.2 hmem

/-- Sets are ordered by inclusion; the join is the union of the words. -/
instance : SemilatticeSup (BitWords k) where
  le a b := a.toFinset ⊆ b.toFinset
  le_refl a := Finset.Subset.refl _
  le_trans a b c := Finset.Subset.trans
  le_antisymm a b h h' := toFinset_injective (Finset.Subset.antisymm h h')
  sup := union
  le_sup_left a b := by
    intro i hi
    simp_all
  le_sup_right a b := by
    intro i hi
    simp_all
  sup_le a b c hac hbc := by
    intro i hi
    rw [mem_toFinset, get_union, Bool.or_eq_true] at hi
    rcases hi with hi | hi
    · exact hac ((mem_toFinset a i).2 hi)
    · exact hbc ((mem_toFinset b i).2 hi)

theorem le_iff : a ≤ b ↔ ∀ i, a.get i = true → b.get i = true := by
  constructor
  · intro h i hi
    exact (mem_toFinset b i).1 (h ((mem_toFinset a i).2 hi))
  intro h i hi
  exact (mem_toFinset b i).2 (h i ((mem_toFinset a i).1 hi))

theorem card_strictMono : StrictMono fun b : BitWords k => b.toFinset.card := by
  intro a b hab
  refine Finset.card_lt_card ⟨hab.le, fun h => ?_⟩
  exact absurd (toFinset_injective (Finset.Subset.antisymm hab.le h)) hab.ne

theorem card_le (b : BitWords k) : b.toFinset.card ≤ k := by
  refine (Finset.card_filter_le _ _).trans ?_
  rw [Finset.card_range]

end

end BitWords

end TrustCg
