import Mathlib.Data.Nat.Log

/-!
# LEB128

Numbers as bytes of seven bits each, the lowest first, every byte but the last with
its high bit set.  The signed form ends at the first byte whose sixth bit agrees with
the sign of what is left.

* `decodeUleb_encodeUleb`, `decodeSleb_encodeSleb` : reading back what was written
  gives the number and leaves the bytes after it.
* `length_encodeUleb`, `length_encodeSleb` : the length, counted without the bytes.
* `ulebLen_add_six` : the length grows at most once between a number and its sixth
  successor, so a table that holds its own length in this form can be aligned.
-/

namespace TrustCg.Leb128

/-- A byte from its value. -/
abbrev byte (n : ℕ) : UInt8 := UInt8.ofNat n

variable {n : ℕ}

theorem toNat_byte (h : n < 256) : (byte n).toNat = n := by
  simp [byte, Nat.mod_eq_of_lt h]

/-! ## Unsigned -/

/-- `encodeUleb` with a bound on the number of bytes. -/
def encodeUlebFuel : ℕ → ℕ → List UInt8
  | 0, v => [byte (v % 128)]
  | fuel + 1, v =>
    if v / 128 = 0 then [byte (v % 128)]
    else byte (v % 128 + 128) :: encodeUlebFuel fuel (v / 128)

/-- The unsigned encoding; a number has fewer groups than its value. -/
def encodeUleb (v : ℕ) : List UInt8 := encodeUlebFuel v v

/-- The number at the start of the input and the bytes after it. -/
def decodeUleb : List UInt8 → Option (ℕ × List UInt8)
  | [] => none
  | b :: bs =>
    if b.toNat < 128 then some (b.toNat, bs)
    else (decodeUleb bs).map fun p => (b.toNat - 128 + 128 * p.1, p.2)

theorem decodeUleb_last (h : n < 128) (rest : List UInt8) :
    decodeUleb (byte n :: rest) = some (n, rest) := by
  have hb : (byte n).toNat = n := toNat_byte (by omega)
  rw [decodeUleb, hb, if_pos h]

variable {v : ℕ} {rest : List UInt8}

variable {bs : List UInt8}

theorem decodeUleb_more (h : n < 128) (hbs : decodeUleb bs = some (v, rest)) :
    decodeUleb (byte (n + 128) :: bs) = some (n + 128 * v, rest) := by
  have hb : (byte (n + 128)).toNat = n + 128 := toNat_byte (by omega)
  rw [decodeUleb, hb, if_neg (by omega), hbs]
  simp

theorem decodeUleb_encodeUlebFuel (fuel v : ℕ) (rest : List UInt8) (h : v ≤ fuel) :
    decodeUleb (encodeUlebFuel fuel v ++ rest) = some (v, rest) := by
  induction fuel generalizing v rest with
  | zero =>
    obtain rfl : v = 0 := by omega
    exact decodeUleb_last (by decide) rest
  | succ fuel ih =>
    rw [encodeUlebFuel]
    split
    · have hv : v % 128 = v := Nat.mod_eq_of_lt (by omega)
      rw [hv]
      exact decodeUleb_last (by omega) rest
    have hmore := decodeUleb_more (n := v % 128) (Nat.mod_lt _ (by decide))
      (ih (v / 128) rest (by omega))
    rw [List.cons_append, hmore, Nat.mod_add_div]

/-- **Unsigned round trip.** -/
theorem decodeUleb_encodeUleb (v : ℕ) (rest : List UInt8) :
    decodeUleb (encodeUleb v ++ rest) = some (v, rest) :=
  decodeUleb_encodeUlebFuel v v rest (Nat.le_refl v)

/-- The number of bytes of the unsigned encoding, with a bound. -/
def ulebLenFuel : ℕ → ℕ → ℕ
  | 0, _ => 1
  | fuel + 1, v => if 128 ≤ v then ulebLenFuel fuel (v / 128) + 1 else 1

/-- The number of bytes of the unsigned encoding. -/
def ulebLen (v : ℕ) : ℕ := ulebLenFuel v v

theorem length_encodeUlebFuel (fuel v : ℕ) :
    (encodeUlebFuel fuel v).length = ulebLenFuel fuel v := by
  induction fuel generalizing v with
  | zero => rfl
  | succ fuel ih =>
    rw [encodeUlebFuel, ulebLenFuel]
    by_cases h : 128 ≤ v
    · rw [if_neg (by omega), if_pos h, List.length_cons, ih]
    rw [if_pos (by omega), if_neg h]
    rfl

theorem length_encodeUleb (v : ℕ) : (encodeUleb v).length = ulebLen v := length_encodeUlebFuel v v

theorem encodeUleb_ne_nil (v : ℕ) : encodeUleb v ≠ [] := by
  cases v with
  | zero => exact List.cons_ne_nil _ _
  | succ v =>
    rw [encodeUleb, encodeUlebFuel]
    split <;> exact List.cons_ne_nil _ _

theorem ulebLenFuel_eq_log (fuel v : ℕ) (h : v ≤ fuel) :
    ulebLenFuel fuel v = Nat.log 128 v + 1 := by
  induction fuel generalizing v with
  | zero =>
    obtain rfl : v = 0 := by omega
    rfl
  | succ fuel ih =>
    rw [ulebLenFuel]
    by_cases hv : 128 ≤ v
    · rw [if_pos hv, ih _ (by omega), Nat.log_of_one_lt_of_le (by decide) hv]
    · rw [if_neg hv, Nat.log_of_lt (by omega)]

theorem ulebLen_eq_log (v : ℕ) : ulebLen v = Nat.log 128 v + 1 :=
  ulebLenFuel_eq_log v v (Nat.le_refl v)

theorem ulebLen_mono {w : ℕ} (h : v ≤ w) : ulebLen v ≤ ulebLen w := by
  rw [ulebLen_eq_log, ulebLen_eq_log]
  exact Nat.succ_le_succ (Nat.log_mono_right h)

/-- **One boundary at most.**  If the length grows within the next three numbers, it does
not grow again within the three after them. -/
theorem ulebLen_add_six (h : ulebLen v ≠ ulebLen (v + 3)) : ulebLen (v + 6) = ulebLen (v + 3) := by
  refine Nat.le_antisymm ?_ (ulebLen_mono (by omega))
  have hgrow : Nat.log 128 v < Nat.log 128 (v + 3) := by
    have hle := ulebLen_mono (Nat.le_add_right v 3)
    rw [ulebLen_eq_log, ulebLen_eq_log] at h hle
    omega
  -- the boundary is a positive power of 128, and the next one is far away
  have hv : v < 128 ^ Nat.log 128 (v + 3) := Nat.lt_pow_of_log_lt (by decide) hgrow
  have hnext : v + 6 < 128 ^ (Nat.log 128 (v + 3) + 1) := by
    rw [Nat.pow_succ]
    omega
  rw [ulebLen_eq_log, ulebLen_eq_log]
  exact Nat.succ_le_succ (Nat.le_of_lt_succ (Nat.log_lt_of_lt_pow (by omega) hnext))

/-! ## Signed -/

/-- `encodeSleb` with a bound on the number of bytes. -/
def encodeSlebFuel : ℕ → ℤ → List UInt8
  | 0, v => [byte (v % 128).toNat]
  | fuel + 1, v =>
    if (v / 128 = 0 ∧ v % 128 < 64) ∨ (v / 128 = -1 ∧ 64 ≤ v % 128) then
      [byte (v % 128).toNat]
    else byte ((v % 128).toNat + 128) :: encodeSlebFuel fuel (v / 128)

/-- The signed encoding. -/
def encodeSleb (v : ℤ) : List UInt8 := encodeSlebFuel v.natAbs v

/-- The signed number at the start of the input and the bytes after it. -/
def decodeSleb : List UInt8 → Option (ℤ × List UInt8)
  | [] => none
  | b :: bs =>
    if b.toNat < 64 then some (b.toNat, bs)
    else if b.toNat < 128 then some (b.toNat - 128, bs)
    else (decodeSleb bs).map fun p => (b.toNat - 128 + 128 * p.1, p.2)

theorem decodeSleb_last {v : ℤ} (hlow : -64 ≤ v) (hhigh : v < 64) (rest : List UInt8) :
    decodeSleb (byte (v % 128).toNat :: rest) = some (v, rest) := by
  have hb : (byte (v % 128).toNat).toNat = (v % 128).toNat := toNat_byte (by omega)
  rw [decodeSleb, hb]
  split_ifs
  · rw [Option.some.injEq, Prod.mk.injEq]
    exact ⟨by omega, rfl⟩
  · rw [Option.some.injEq, Prod.mk.injEq]
    exact ⟨by omega, rfl⟩
  · omega

theorem decodeSleb_more {v : ℤ} (hbs : decodeSleb bs = some (v / 128, rest)) :
    decodeSleb (byte ((v % 128).toNat + 128) :: bs) = some (v, rest) := by
  have hb : (byte ((v % 128).toNat + 128)).toNat = (v % 128).toNat + 128 := toNat_byte (by omega)
  rw [decodeSleb, hb, if_neg (by omega), if_neg (by omega), hbs, Option.map_some,
    Option.some.injEq, Prod.mk.injEq]
  refine ⟨?_, rfl⟩
  omega

theorem decodeSleb_encodeSlebFuel (fuel : ℕ) (v : ℤ) (rest : List UInt8) (h : v.natAbs ≤ fuel) :
    decodeSleb (encodeSlebFuel fuel v ++ rest) = some (v, rest) := by
  induction fuel generalizing v rest with
  | zero => exact decodeSleb_last (by omega) (by omega) rest
  | succ fuel ih =>
    rw [encodeSlebFuel]
    split
    · exact decodeSleb_last (by omega) (by omega) rest
    · exact decodeSleb_more (ih (v / 128) rest (by omega))

/-- **Signed round trip.** -/
theorem decodeSleb_encodeSleb (v : ℤ) (rest : List UInt8) :
    decodeSleb (encodeSleb v ++ rest) = some (v, rest) :=
  decodeSleb_encodeSlebFuel v.natAbs v rest (Nat.le_refl _)

theorem encodeSleb_ne_nil (v : ℤ) : encodeSleb v ≠ [] := by
  rw [encodeSleb]
  cases v.natAbs with
  | zero => exact List.cons_ne_nil _ _
  | succ n =>
    rw [encodeSlebFuel]
    split <;> exact List.cons_ne_nil _ _

/-- The number of bytes of the signed encoding, with a bound. -/
def slebLenFuel : ℕ → ℤ → ℕ
  | 0, _ => 1
  | fuel + 1, v =>
    if (v / 128 = 0 ∧ v % 128 < 64) ∨ (v / 128 = -1 ∧ 64 ≤ v % 128) then 1
    else slebLenFuel fuel (v / 128) + 1

/-- The number of bytes of the signed encoding. -/
def slebLen (v : ℤ) : ℕ := slebLenFuel v.natAbs v

theorem length_encodeSlebFuel (fuel : ℕ) (v : ℤ) :
    (encodeSlebFuel fuel v).length = slebLenFuel fuel v := by
  induction fuel generalizing v with
  | zero => rfl
  | succ fuel ih =>
    rw [encodeSlebFuel, slebLenFuel]
    split
    · rfl
    · rw [List.length_cons, ih]

theorem length_encodeSleb (v : ℤ) : (encodeSleb v).length = slebLen v :=
  length_encodeSlebFuel v.natAbs v

end TrustCg.Leb128
