import Mathlib.Algebra.GroupWithZero.Nat
import TrustCg.Lib.Leb128

/-!
# Little-endian numbers

A number as a fixed count of bytes, the lowest first, and its reader.

* `ofLe_leBytes` : reading back what was written gives the number.
* `readLe_append` : a reader at an offset sees what was written there.
-/

namespace TrustCg.LittleEndian

open Leb128 (byte toNat_byte)

/-- The lowest `n` bytes of a number. -/
def leBytes : ℕ → ℕ → List UInt8
  | 0, _ => []
  | n + 1, v => byte (v % 256) :: leBytes n (v / 256)

/-- The number the bytes spell. -/
def ofLe : List UInt8 → ℕ
  | [] => 0
  | b :: bs => b.toNat + 256 * ofLe bs

@[simp] theorem length_leBytes (n v : ℕ) : (leBytes n v).length = n := by
  induction n generalizing v with
  | zero => rfl
  | succ n ih => rw [leBytes, List.length_cons, ih]

theorem ofLe_leBytes (n v : ℕ) (h : v < 256 ^ n) : ofLe (leBytes n v) = v := by
  induction n generalizing v with
  | zero =>
    rw [Nat.pow_zero] at h
    obtain rfl : v = 0 := by omega
    rfl
  | succ n ih =>
    have hdiv : v / 256 < 256 ^ n := by
      rw [Nat.pow_succ] at h
      exact Nat.div_lt_of_lt_mul (by rwa [Nat.mul_comm])
    rw [leBytes, ofLe, toNat_byte (Nat.mod_lt _ (by decide)), ih _ hdiv, Nat.mod_add_div]

/-- The `n`-byte number at an offset, when the input has that many bytes there. -/
def readLe (n : ℕ) (bytes : List UInt8) (offset : ℕ) : Option ℕ :=
  if offset + n ≤ bytes.length then some (ofLe ((bytes.drop offset).take n)) else none

/-- **Reading at an offset.** -/
theorem readLe_append {n v : ℕ} (h : v < 256 ^ n) (before after : List UInt8) :
    readLe n (before ++ leBytes n v ++ after) before.length = some v := by
  have hslice : ((before ++ leBytes n v ++ after).drop before.length).take n = leBytes n v := by
    rw [List.append_assoc, List.drop_left, List.take_left' (length_leBytes n v)]
  have hfit : before.length + n ≤ (before ++ leBytes n v ++ after).length := by
    rw [List.length_append, List.length_append, length_leBytes]
    omega
  rw [readLe, if_pos hfit, hslice, ofLe_leBytes n v h]

end TrustCg.LittleEndian
