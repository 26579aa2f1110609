import Mathlib.Data.Nat.Digits.Defs

/-!
# Fixed-length limb arithmetic

Little-endian lists of limbs over an arbitrary base, with the three loops a
hand-written wide integer is made of: the carry chain of an addition, the
schoolbook product truncated to the length of its accumulator, and the
comparison that walks down from the most significant limb.  The value of a limb
list is Mathlib's `Nat.ofDigits`.

Each loop comes with the equation that holds *with* its overflow: what was
dropped is a multiple of `B ^ length`, so a caller that knows its values fit
gets an exact result (`ofDigits_mulRows_of_lt`, `ofDigits_addChain_of_lt`).
-/

namespace TrustCg.Limbs

open List
open Nat (ofDigits ofDigits_cons)

/-! ## The carry chain -/

/-- Limb-wise addition with a running carry; the carry out of the last limb is
dropped. -/
def addChain (B : ℕ) : List ℕ → List ℕ → ℕ → List ℕ
  | x :: xs, y :: ys, carry => (x + y + carry) % B :: addChain B xs ys ((x + y + carry) / B)
  | _, _, _ => []

theorem length_addChain (B : ℕ) (xs ys : List ℕ) (carry : ℕ) (h : xs.length = ys.length) :
    (addChain B xs ys carry).length = xs.length := by
  fun_induction addChain B xs ys carry with
  | case1 x xs y ys carry ih => simpa using ih (by simpa using h)
  | case2 xs ys => cases xs <;> cases ys <;> grind

variable {B : ℕ}

theorem addChain_lt (hB : 0 < B) (xs ys : List ℕ) (carry : ℕ) :
    ∀ l ∈ addChain B xs ys carry, l < B := by
  fun_induction addChain B xs ys carry with
  | case1 x xs y ys carry ih => exact forall_mem_cons.2 ⟨Nat.mod_lt _ hB, ih⟩
  | case2 => simp

/-- The chain computes the sum up to a multiple of `B ^ length`. -/
theorem ofDigits_addChain (B : ℕ) (xs ys : List ℕ) (carry : ℕ) (h : xs.length = ys.length) :
    ∃ lost, ofDigits B (addChain B xs ys carry) + B ^ xs.length * lost
      = ofDigits B xs + ofDigits B ys + carry := by
  induction xs generalizing ys carry with
  | nil =>
    have hys : ys = [] := eq_nil_of_length_eq_zero h.symm
    subst hys
    exact ⟨carry, by simp [addChain]⟩
  | cons x xs ih =>
    cases ys with
    | nil => simp at h
    | cons y ys =>
      obtain ⟨lost, hlost⟩ := ih ys ((x + y + carry) / B) (by simpa using h)
      refine ⟨lost, ?_⟩
      have hdiv := Nat.mod_add_div (x + y + carry) B
      simp only [addChain, ofDigits_cons, length_cons, pow_succ]
      calc (x + y + carry) % B + B * ofDigits B (addChain B xs ys ((x + y + carry) / B))
            + B ^ xs.length * B * lost
          = (x + y + carry) % B + B * (ofDigits B (addChain B xs ys ((x + y + carry) / B))
            + B ^ xs.length * lost) := by ring
        _ = ((x + y + carry) % B + B * ((x + y + carry) / B))
            + B * (ofDigits B xs + ofDigits B ys) := by rw [hlost]; ring
        _ = x + B * ofDigits B xs + (y + B * ofDigits B ys) + carry := by rw [hdiv]; ring

/-! ## The schoolbook product -/

/-- One row of the schoolbook product: `acc += x * ys`, truncated to the length
of `acc`.  The running carry may exceed the base, so its high part is carried
separately, as the loop does. -/
def mulRow (B x : ℕ) : List ℕ → List ℕ → ℕ → List ℕ
  | cur :: acc, y :: ys, carry =>
    (cur + x * y % B + carry % B) % B ::
      mulRow B x acc ys (x * y / B + carry / B + (cur + x * y % B + carry % B) / B)
  | _, _, _ => []

/-- The rows of the product, one for each limb of the left factor: row `i`
works on the accumulator from limb `i` on, and a zero limb is skipped. -/
def mulRows (B : ℕ) : List ℕ → List ℕ → List ℕ → List ℕ
  | x :: xs, ys, acc =>
    match if x = 0 then acc else mulRow B x acc ys 0 with
    | [] => []
    | o :: os => o :: mulRows B xs ys os
  | [], _, acc => acc

theorem length_mulRow (B x : ℕ) (acc ys : List ℕ) (carry : ℕ) (h : acc.length ≤ ys.length) :
    (mulRow B x acc ys carry).length = acc.length := by
  fun_induction mulRow B x acc ys carry with
  | case1 carry cur acc y ys ih => simpa using ih (by simpa using h)
  | case2 acc ys => cases acc <;> cases ys <;> grind

theorem mulRow_lt (hB : 0 < B) (x : ℕ) (acc ys : List ℕ) (carry : ℕ) :
    ∀ l ∈ mulRow B x acc ys carry, l < B := by
  fun_induction mulRow B x acc ys carry with
  | case1 carry cur acc y ys ih => exact forall_mem_cons.2 ⟨Nat.mod_lt _ hB, ih⟩
  | case2 => simp

/-- One step of the row: what goes into the limb and what goes into the carry
add up to what came in. -/
theorem mulRow_step (B cur p carry : ℕ) : (cur + p % B + carry % B) % B
        + B * (p / B + carry / B + (cur + p % B + carry % B) / B) = cur + p + carry := by
  have h1 := Nat.mod_add_div (cur + p % B + carry % B) B
  have h2 := Nat.mod_add_div p B
  have h3 := Nat.mod_add_div carry B
  calc (cur + p % B + carry % B) % B
        + B * (p / B + carry / B + (cur + p % B + carry % B) / B)
      = ((cur + p % B + carry % B) % B + B * ((cur + p % B + carry % B) / B))
        + B * (p / B) + B * (carry / B) := by ring
    _ = cur + (p % B + B * (p / B)) + (carry % B + B * (carry / B)) := by rw [h1]; ring
    _ = cur + p + carry := by rw [h2, h3]

section

variable (B x : ℕ) (acc ys : List ℕ)

theorem ofDigits_mulRow (carry : ℕ) (h : acc.length ≤ ys.length) :
    ∃ lost, ofDigits B (mulRow B x acc ys carry) + B ^ acc.length * lost
      = ofDigits B acc + x * ofDigits B ys + carry := by
  induction acc generalizing ys carry with
  | nil => exact ⟨x * ofDigits B ys + carry, by simp [mulRow]⟩
  | cons cur acc ih =>
    cases ys with
    | nil => simp at h
    | cons y ys =>
      set next := x * y / B + carry / B + (cur + x * y % B + carry % B) / B with hnext
      obtain ⟨lost, hlost⟩ := ih ys next (by simpa using h)
      refine ⟨lost, ?_⟩
      have hstep := mulRow_step B cur (x * y) carry
      simp only [mulRow, ofDigits_cons, length_cons, pow_succ, ← hnext] at hstep ⊢
      calc (cur + x * y % B + carry % B) % B + B * ofDigits B (mulRow B x acc ys next)
            + B ^ acc.length * B * lost
          = (cur + x * y % B + carry % B) % B + B * (ofDigits B (mulRow B x acc ys next)
            + B ^ acc.length * lost) := by ring
        _ = ((cur + x * y % B + carry % B) % B + B * next)
            + B * (ofDigits B acc + x * ofDigits B ys) := by rw [hlost]; ring
        _ = cur + B * ofDigits B acc + x * (y + B * ofDigits B ys) + carry := by rw [hstep]; ring

/-- A row with its skip: a zero limb leaves the accumulator alone, which is what
the row would have computed. -/
theorem ofDigits_row (h : acc.length ≤ ys.length) :
    ∃ lost, ofDigits B (if x = 0 then acc else mulRow B x acc ys 0) + B ^ acc.length * lost
      = ofDigits B acc + x * ofDigits B ys := by
  by_cases hx : x = 0
  · exact ⟨0, by simp [hx]⟩
  · simpa [hx] using ofDigits_mulRow B x acc ys 0 h

theorem length_row (h : acc.length ≤ ys.length) :
    (if x = 0 then acc else mulRow B x acc ys 0).length = acc.length := by
  by_cases hx : x = 0
  · simp [hx]
  · simpa [hx] using length_mulRow B x acc ys 0 h

end

theorem length_mulRows (B : ℕ) (xs ys acc : List ℕ) (h : acc.length ≤ ys.length) :
    (mulRows B xs ys acc).length = acc.length := by
  induction xs generalizing ys acc with
  | nil => simp [mulRows]
  | cons x xs ih =>
    have hlen := length_row B x acc ys h
    rw [mulRows]
    split
    next hrow => rw [hrow] at hlen; simpa using hlen
    next o os hrow =>
      rw [hrow, length_cons] at hlen
      rw [length_cons, ih ys os (by omega), hlen]

theorem mulRows_lt (hB : 0 < B) (xs ys acc : List ℕ) (h : ∀ l ∈ acc, l < B) :
    ∀ l ∈ mulRows B xs ys acc, l < B := by
  induction xs generalizing ys acc with
  | nil => simpa [mulRows] using h
  | cons x xs ih =>
    have hrow : ∀ l ∈ (if x = 0 then acc else mulRow B x acc ys 0), l < B := by
      by_cases hx : x = 0
      · simpa [hx] using h
      · simpa [hx] using mulRow_lt hB x acc ys 0
    rw [mulRows]
    split
    · intro l hl; simp at hl
    rename_i o os ho
    rw [ho] at hrow
    intro l hl
    rcases mem_cons.1 hl with rfl | hl
    · exact hrow _ (.head _)
    · exact ih ys os (fun l hl => hrow l (.tail _ hl)) l hl

/-- The whole product: the accumulator grows by `xs * ys`, up to a multiple of
`B ^ length`. -/
theorem ofDigits_mulRows (B : ℕ) (xs ys acc : List ℕ) (h : acc.length ≤ ys.length) :
    acc.length ≤ xs.length →
      ∃ lost lost', ofDigits B (mulRows B xs ys acc) + B ^ acc.length * lost
        = ofDigits B acc + ofDigits B xs * ofDigits B ys + B ^ acc.length * lost' := by
  induction xs generalizing ys acc with
  | nil =>
    intro h
    exact ⟨0, 0, by simp [mulRows]⟩
  | cons x xs ih =>
    intro h'
    obtain ⟨lost, hlost⟩ := ofDigits_row B x acc ys h
    have hlen := length_row B x acc ys h
    rw [mulRows]
    split
    next hrow =>
      rw [hrow, length_nil] at hlen
      have hacc : acc = [] := eq_nil_of_length_eq_zero hlen.symm
      subst hacc
      exact ⟨ofDigits B (x :: xs) * ofDigits B ys, 0, by simp⟩
    rename_i o os hrow
    rw [hrow, length_cons] at hlen
    obtain ⟨lost1, lost2, hrest⟩ := ih ys os (by omega) (by simp at h'; omega)
    rw [hrow] at hlost
    refine ⟨lost1 + lost, lost2, ?_⟩
    rw [← hlen] at hlost ⊢
    simp only [ofDigits_cons, pow_succ] at hlost ⊢
    calc o + B * ofDigits B (mulRows B xs ys os) + B ^ os.length * B * (lost1 + lost)
        = o + B * (ofDigits B (mulRows B xs ys os) + B ^ os.length * lost1)
          + B ^ os.length * B * lost := by ring
      _ = (o + B * ofDigits B os + B ^ os.length * B * lost)
          + B * (ofDigits B xs * ofDigits B ys) + B ^ os.length * B * lost2 := by
          rw [hrest]; ring
      _ = ofDigits B acc + (x + B * ofDigits B xs) * ofDigits B ys
          + B ^ os.length * B * lost2 := by rw [hlost]; ring

/-! ## Exact results for values that fit -/

theorem eq_of_add_mul_eq {m a b s t : ℕ} (h : a + m * s = b + m * t)
    (ha : a < m) (hb : b < m) : a = b := by
  have hmod := congrArg (· % m) h
  simpa [Nat.add_mul_mod_self_left, Nat.mod_eq_of_lt ha, Nat.mod_eq_of_lt hb] using hmod

section

variable {xs ys : List ℕ} (hB : 1 < B) (h : xs.length = ys.length)
include hB h

theorem ofDigits_addChain_of_lt (hlt : ofDigits B xs + ofDigits B ys < B ^ xs.length) :
    ofDigits B (addChain B xs ys 0) = ofDigits B xs + ofDigits B ys := by
  obtain ⟨lost, hlost⟩ := ofDigits_addChain B xs ys 0 h
  refine eq_of_add_mul_eq (m := B ^ xs.length) (s := lost) (t := 0) (by simpa using hlost)
    ?_ hlt
  rw [← length_addChain B xs ys 0 h]
  exact Nat.ofDigits_lt_base_pow_length hB (addChain_lt (by omega) xs ys 0)

theorem ofDigits_mulRows_of_lt (hlt : ofDigits B xs * ofDigits B ys < B ^ xs.length) :
    ofDigits B (mulRows B xs ys (List.replicate xs.length 0))
      = ofDigits B xs * ofDigits B ys := by
  set acc := List.replicate xs.length 0 with hacc
  have hlen : acc.length = xs.length := by simp [hacc]
  have hzero : ofDigits B acc = 0 := by rw [hacc, Nat.ofDigits_replicate_zero]
  obtain ⟨lost, lost', hmul⟩ := ofDigits_mulRows B xs ys acc (by omega) (by omega)
  rw [hlen, hzero, Nat.zero_add] at hmul
  refine eq_of_add_mul_eq hmul ?_ hlt
  rw [← hlen, ← length_mulRows B xs ys acc (by omega)]
  refine Nat.ofDigits_lt_base_pow_length hB (mulRows_lt (by omega) xs ys acc ?_)
  intro l hl
  rw [eq_of_mem_replicate hl]
  omega

end

theorem ofDigits_set_zeros (B k v : ℕ) : ∀ n, k < n →
    ofDigits B ((List.replicate n 0).set k v) = B ^ k * v := by
  induction k with
  | zero =>
    intro n hn
    obtain ⟨n, rfl⟩ := Nat.exists_eq_succ_of_ne_zero (by omega : n ≠ 0)
    simp [replicate_succ, ofDigits_cons, Nat.ofDigits_replicate_zero]
  | succ k ih =>
    intro n hn
    obtain ⟨n, rfl⟩ := Nat.exists_eq_succ_of_ne_zero (by omega : n ≠ 0)
    simp only [replicate_succ, set_cons_succ, ofDigits_cons, ih n (by omega)]
    ring

/-! ## Comparison -/

/-- Comparison from the most significant limb down: a higher limb decides before
a lower one is looked at. -/
def cmpLimbs : List ℕ → List ℕ → Ordering
  | x :: xs, y :: ys =>
    match cmpLimbs xs ys with
    | .eq => compare x y
    | o => o
  | _, _ => .eq

theorem cmpLimbs_eq_compare (xs ys : List ℕ) (h : xs.length = ys.length) (hx : ∀ l ∈ xs, l < B)
    (hy : ∀ l ∈ ys, l < B) : cmpLimbs xs ys = compare (ofDigits B xs) (ofDigits B ys) := by
  induction xs generalizing ys with
  | nil =>
    have hys : ys = [] := eq_nil_of_length_eq_zero h.symm
    subst hys
    simp [cmpLimbs]
  | cons x xs ih =>
    cases ys with
    | nil => simp at h
    | cons y ys =>
      have hx0 : x < B := hx x (.head _)
      have hy0 : y < B := hy y (.head _)
      have hrec := ih ys (by simpa using h) (fun l hl => hx l (.tail _ hl))
        (fun l hl => hy l (.tail _ hl))
      rw [cmpLimbs, hrec, ofDigits_cons, ofDigits_cons]
      rcases lt_trichotomy (ofDigits B xs) (ofDigits B ys) with hlt | heq | hgt
      · rw [compare_lt_iff_lt.2 hlt]
        have hstep : B * (ofDigits B xs + 1) ≤ B * ofDigits B ys := Nat.mul_le_mul_left B hlt
        exact (compare_lt_iff_lt.2 (by nlinarith)).symm
      · rw [heq, compare_eq_iff_eq.2 rfl]
        rcases lt_trichotomy x y with h' | h' | h'
        · rw [compare_lt_iff_lt.2 h', compare_lt_iff_lt.2 (by omega)]
        · rw [h', compare_eq_iff_eq.2 rfl, compare_eq_iff_eq.2 rfl]
        · rw [compare_gt_iff_gt.2 h', compare_gt_iff_gt.2 (by omega)]
      rw [compare_gt_iff_gt.2 hgt]
      exact (compare_gt_iff_gt.2 (by nlinarith)).symm

end TrustCg.Limbs
