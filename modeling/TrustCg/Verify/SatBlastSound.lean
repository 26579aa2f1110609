import TrustCg.Lib.Outcome
import TrustCg.Verify.SatBlast

/-!
# What a blasted equivalence says

* `Grows` : later clauses constrain new variables only.
* `Shows` : bits spell a word under an assignment.
* `blastExpr_shows` : the bits of an expression spell its value.
* `blastEquivalenceMiter_unsat_iff` : the miter is unsatisfiable exactly if the sides agree,
  where every node has the width of the sides and no constant has a set bit that comes round
  again above bit 63 (`ConstFits`).
* `blastEquivalenceMiter_wide_const` : a constant of 65 bits where one does.
* `checkProvenance_sat_iff` : what accepted clauses say, and when that is what they should say.
* `checkProvenance_negated` : a negated literal is accepted too, and so is the least `i32`.
-/

namespace TrustCg.Verify.SatBlast

open List BitVec Bool
open BitVec (ofNat)

/-! ## Assignments -/

variable (σ : ℕ → Bool)

/-- The value of a literal. -/
def litVal (l : ℤ) : Bool := if 0 ≤ l then σ l.natAbs else !σ l.natAbs

/-- The value of a bit. -/
def Bit.val : Bit → Bool
  | .const b => b
  | .lit l => litVal σ l

/-- Every clause has a true literal. -/
def Sat (clauses : List (List ℤ)) : Prop :=
  ∀ c ∈ clauses, c.any (litVal σ) = true

/-- The literal is over the first `n` variables. -/
def LitIn (n : ℕ) (l : ℤ) : Prop := l ≠ 0 ∧ l.natAbs ≤ n

/-- The variable is among the first `n`. -/
def Bit.In (n : ℕ) : Bit → Prop
  | .const _ => True
  | .lit l => LitIn n l

theorem litVal_neg {l : ℤ} (h : l ≠ 0) : litVal σ (-l) = !litVal σ l := by
  unfold litVal
  rcases lt_or_gt_of_ne h with hneg | hpos
  · rw [if_pos (by omega), if_neg (by omega), Int.natAbs_neg, Bool.not_not]
  · rw [if_neg (by omega), if_pos (by omega), Int.natAbs_neg]

@[simp] theorem val_lit_natCast (v : ℕ) : (Bit.lit (v : ℤ)).val σ = σ v := by
  simp [Bit.val, litVal]

variable {σ' σ : ℕ → Bool}

theorem litVal_congr {n : ℕ} (h : ∀ v ≤ n, σ' v = σ v) {l : ℤ} (hl : LitIn n l) :
    litVal σ' l = litVal σ l := by
  rw [litVal, litVal, h _ hl.2]

theorem sat_append {cs ds : List (List ℤ)} :
    Sat σ (cs ++ ds) ↔ Sat σ cs ∧ Sat σ ds := forall_mem_append

variable {n : ℕ} {b x y z : Bit}

theorem Bit.In.mono {m : ℕ} (h : b.In n) (hle : n ≤ m) : b.In m := by
  cases b with
  | const => trivial
  | lit l => exact ⟨h.1, h.2.trans hle⟩

theorem Bit.In.negate (h : b.In n) : b.negate.In n := by
  cases b with
  | const => trivial
  | lit l => exact ⟨neg_ne_zero.2 h.1, by rw [Int.natAbs_neg]; exact h.2⟩

theorem val_negate (σ : ℕ → Bool) (h : b.In n) : b.negate.val σ = !b.val σ := by
  cases b with
  | const => rfl
  | lit l => exact litVal_neg σ h.1

variable {kind : GateKind} {ins : List ℤ}

/-- The clauses of a gate say what it computes. -/
theorem sat_canonical {o : ℤ} (ho : o ≠ 0) (hins : ∀ l ∈ ins, l ≠ 0)
    (harity : ins.length = kind.arity) (σ : ℕ → Bool) :
    Sat σ (canonicalGateClauses Neg.neg kind o ins)
      ↔ litVal σ o = kind.eval (ins.map (litVal σ)) := by
  cases kind with
  | xor2 | and2 =>
    obtain ⟨a, b, rfl⟩ := length_eq_two.1 harity
    simp only [forall_mem_cons] at hins
    simp only [Sat, canonicalGateClauses, GateKind.eval, forall_mem_cons, any_cons,
      any_nil, map_cons, map_nil, litVal_neg σ ho, litVal_neg σ hins.1, litVal_neg σ hins.2.1]
    cases litVal σ o <;> cases litVal σ a <;> cases litVal σ b <;> simp
  | xor3 | maj3 =>
    obtain ⟨a, b, c, rfl⟩ := length_eq_three.1 harity
    simp only [forall_mem_cons] at hins
    simp only [Sat, canonicalGateClauses, GateKind.eval, forall_mem_cons, any_cons,
      any_nil, map_cons, map_nil, litVal_neg σ ho, litVal_neg σ hins.1,
      litVal_neg σ hins.2.1, litVal_neg σ hins.2.2.1]
    cases litVal σ o <;> cases litVal σ a <;> cases litVal σ b <;> cases litVal σ c <;> simp

/-- The clauses of a gate are over its literals. -/
theorem litIn_canonical {o : ℤ} (ho : LitIn n o) (hins : ∀ l ∈ ins, LitIn n l) :
    ∀ c ∈ canonicalGateClauses Neg.neg kind o ins, ∀ l ∈ c, LitIn n l := by
  have hneg : ∀ {l}, LitIn n (-l) ↔ LitIn n l := by simp [LitIn]
  unfold canonicalGateClauses
  split <;> simp_all

/-! ## Growing clauses -/

/-- Clauses are over the variables given out. -/
def Blaster.Ok (s : Blaster) : Prop := ∀ c ∈ s.clauses, ∀ l ∈ c, LitIn s.nextVar l

/-- The later clauses keep the earlier ones and constrain new variables only. -/
structure Grows (s s' : Blaster) : Prop where
  ok : s'.Ok
  le : s.nextVar ≤ s'.nextVar
  sound : ∀ σ, Sat σ s'.clauses → Sat σ s.clauses
  extend : ∀ σ, Sat σ s.clauses → ∃ σ', (∀ v ≤ s.nextVar, σ' v = σ v) ∧ Sat σ' s'.clauses

variable {s : Blaster}

theorem Grows.refl (h : s.Ok) : Grows s s :=
  ⟨h, le_rfl, fun _ hσ => hσ, fun σ hσ => ⟨σ, fun _ _ => rfl, hσ⟩⟩

theorem Grows.trans {s1 s2 s3 : Blaster} (h1 : Grows s1 s2) (h2 : Grows s2 s3) : Grows s1 s3 := by
  refine ⟨h2.ok, h1.le.trans h2.le, fun σ hσ => h1.sound σ (h2.sound σ hσ), fun σ hσ => ?_⟩
  obtain ⟨σ1, hag1, hσ1⟩ := h1.extend σ hσ
  obtain ⟨σ2, hag2, hσ2⟩ := h2.extend σ1 hσ1
  exact ⟨σ2, fun v hv => (hag2 v (hv.trans h1.le)).trans (hag1 v hv), hσ2⟩

theorem Grows.withSide {s' : Blaster} (h : Grows s s') (side : MiterSide) :
    Grows s { s' with side } := { h with }

/-- The bit has the value `F`. -/
structure Yields (s : Blaster) (r : Bit × Blaster) (F : (ℕ → Bool) → Bool) : Prop where
  grows : Grows s r.2
  bit : r.1.In r.2.nextVar
  val : ∀ σ, Sat σ r.2.clauses → r.1.val σ = F σ

section Gates

variable {r : Bit × Blaster} {F : (ℕ → Bool) → Bool}

theorem yields_self (hs : s.Ok) (hb : b.In s.nextVar) (h : ∀ σ, b.val σ = F σ) :
    Yields s (b, s) F := ⟨.refl hs, hb, fun σ _ => h σ⟩

theorem Yields.negateIf (h : Yields s r F) (c : Bool) :
    Yields s (Blaster.negateIf c r) fun σ => c ^^ F σ := by
  cases c with
  | false => exact ⟨h.grows, h.bit, fun σ hσ => (h.val σ hσ).trans (false_xor _).symm⟩
  | true =>
    refine ⟨h.grows, h.bit.negate, fun σ hσ => ?_⟩
    rw [true_xor, ← h.val σ hσ]
    exact val_negate σ h.bit

theorem emitGate_yields (hs : s.Ok) (hins : ∀ l ∈ ins, LitIn s.nextVar l)
    (harity : ins.length = kind.arity) :
    Yields s (s.emitGate kind ins) fun σ => kind.eval (ins.map (litVal σ)) := by
  have ho : ((s.nextVar : ℤ) + 1) ≠ 0 := by omega
  have hout : ∀ σ, litVal σ ((s.nextVar : ℤ) + 1) = σ (s.nextVar + 1) := by
    intro σ
    rw [litVal, if_pos (by omega)]
    congr 1
  have hgate := sat_canonical ho (fun l hl => (hins l hl).1) harity
  have hbit : LitIn (s.nextVar + 1) ((s.nextVar : ℤ) + 1) := ⟨ho, by omega⟩
  refine ⟨⟨?_, Nat.le_succ _, fun σ hσ => (sat_append.1 hσ).1, fun σ hσ => ?_⟩, hbit,
    fun σ hσ => (hgate σ).1 (sat_append.1 hσ).2⟩
  · intro c hc l hl
    rcases mem_append.1 hc with hc | hc
    · exact ⟨(hs c hc l hl).1, (hs c hc l hl).2.trans (Nat.le_succ _)⟩
    exact litIn_canonical hbit (fun l hl => ⟨(hins l hl).1, (hins l hl).2.trans (Nat.le_succ _)⟩)
      c hc l hl
  -- the new variable takes the value of the gate
  let σ' := Function.update σ (s.nextVar + 1) (kind.eval (ins.map (litVal σ)))
  have hag : ∀ v ≤ s.nextVar, σ' v = σ v := fun v hv => Function.update_of_ne (by omega) _ _
  refine ⟨σ', hag, sat_append.2 ⟨fun c hc => ?_, (hgate σ').2 ?_⟩⟩
  · obtain ⟨l, hl, hval⟩ := any_eq_true.1 (hσ c hc)
    exact any_eq_true.2 ⟨l, hl, (litVal_congr hag (hs c hc l hl)).trans hval⟩
  rw [hout, map_congr_left fun l hl => litVal_congr hag (hins l hl)]
  exact Function.update_self ..

variable (hs : s.Ok) (hx : x.In s.nextVar) (hy : y.In s.nextVar) (hz : z.In s.nextVar)
include hs hx hy

theorem xor2_yields : Yields s (s.xor2 x y) fun σ => x.val σ ^^ y.val σ := by
  rcases x with (_ | _) | k
  · rcases y with _ | l
    · exact yields_self hs trivial fun _ => rfl
    · exact yields_self hs hy fun σ => (false_xor _).symm
  · rcases y with _ | l
    · exact yields_self hs trivial fun _ => rfl
    · exact yields_self hs hy.negate fun σ => (val_negate σ hy).trans (true_xor _).symm
  rcases y with (_ | _) | l
  · exact yields_self hs hx fun σ => (xor_false _).symm
  · exact yields_self hs hx.negate fun σ => (val_negate σ hx).trans (xor_true _).symm
  · exact emitGate_yields hs (by simpa using ⟨hx, hy⟩) rfl

theorem and2_yields : Yields s (s.and2 x y) fun σ => x.val σ && y.val σ := by
  rcases x with (_ | _) | k
  · exact yields_self hs trivial fun _ => rfl
  · rcases y with (_ | _) | l <;> exact yields_self hs hy fun _ => rfl
  rcases y with (_ | _) | l
  · exact yields_self hs trivial fun σ => (Bool.and_false _).symm
  · exact yields_self hs hx fun σ => (Bool.and_true _).symm
  · exact emitGate_yields hs (by simpa using ⟨hx, hy⟩) rfl

theorem or2_yields : Yields s (s.or2 x y) fun σ => x.val σ || y.val σ := by
  have h := (and2_yields hs hx.negate hy.negate).negateIf true
  refine ⟨h.grows, h.bit, fun σ hσ => (h.val σ hσ).trans ?_⟩
  rw [val_negate σ hx, val_negate σ hy, Bool.true_xor, Bool.not_and, Bool.not_not, Bool.not_not]

include hz

theorem xor3_yields : Yields s (s.xor3 x y z) fun σ => x.val σ ^^ (y.val σ ^^ z.val σ) := by
  cases x with
  | const a => exact (xor2_yields hs hy hz).negateIf a
  | lit k =>
    cases y with
    | const a =>
      have h := (xor2_yields hs hx hz).negateIf a
      exact ⟨h.grows, h.bit, fun σ hσ => (h.val σ hσ).trans (xor_left_comm ..)⟩
    | lit l =>
      cases z with
      | const a =>
        have h := (xor2_yields hs hx hy).negateIf a
        refine ⟨h.grows, h.bit, fun σ hσ => (h.val σ hσ).trans ?_⟩
        rw [Bool.xor_comm, Bool.xor_assoc]
        rfl
      | lit m => exact emitGate_yields hs (by simpa using ⟨hx, hy, hz⟩) rfl

theorem maj3_yields :
    Yields s (s.maj3 x y z) fun σ => Bool.atLeastTwo (x.val σ) (y.val σ) (z.val σ) := by
  have hand : ∀ {x y : Bit} {F : (ℕ → Bool) → Bool}, x.In s.nextVar → y.In s.nextVar →
      (∀ σ, (x.val σ && y.val σ) = F σ) → Yields s (s.and2 x y) F :=
    fun hx hy hF => (funext hF) ▸ and2_yields hs hx hy
  have hor : ∀ {x y : Bit} {F : (ℕ → Bool) → Bool}, x.In s.nextVar → y.In s.nextVar →
      (∀ σ, (x.val σ || y.val σ) = F σ) → Yields s (s.or2 x y) F :=
    fun hx hy hF => (funext hF) ▸ or2_yields hs hx hy
  rcases x with (_ | _) | k
  · exact hand hy hz fun σ => atLeastTwo_false_left.symm
  · rcases y with (_ | _) | l
    · exact hand hx hz fun σ => atLeastTwo_false_mid.symm
    · rcases z with (_ | _) | m
      · exact hand hx hy fun σ => rfl
      · exact hor hy hz fun σ => rfl
      · exact hor hy hz fun σ => atLeastTwo_true_left.symm
    rcases z with (_ | _) | m
    · exact hand hx hy fun σ => atLeastTwo_false_right.symm
    · exact hor hy hz fun σ => atLeastTwo_true_left.symm
    · exact hor hy hz fun σ => atLeastTwo_true_left.symm
  rcases y with (_ | _) | l
  · exact hand hx hz fun σ => atLeastTwo_false_mid.symm
  · rcases z with (_ | _) | m
    · exact hand hx hy fun σ => atLeastTwo_false_right.symm
    · exact hor hx hz fun σ => atLeastTwo_true_mid.symm
    · exact hor hx hz fun σ => atLeastTwo_true_mid.symm
  rcases z with (_ | _) | m
  · exact hand hx hy fun σ => atLeastTwo_false_right.symm
  · exact hor hx hy fun σ => atLeastTwo_true_right.symm
  · exact emitGate_yields hs (by simpa using ⟨hx, hy, hz⟩) rfl

end Gates

/-! ## Words -/

variable {w k : ℕ} {X Y : BitVec w} {bs : List Bit}

/-- From position `k` on, the bits are those of the word. -/
def Shows (σ : ℕ → Bool) (X : BitVec w) : ℕ → List Bit → Prop
  | k, [] => k = w
  | k, b :: bs => b.val σ = X.getLsbD k ∧ Shows σ X (k + 1) bs

theorem shows_iff : Shows σ X k bs ↔
    k + bs.length = w ∧ ∀ i, ∀ hi : i < bs.length, (bs.get ⟨i, hi⟩).val σ = X.getLsbD (k + i) := by
  induction bs generalizing k with
  | nil => simp [Shows]
  | cons b bs ih =>
    have hlen : (b :: bs).length = bs.length + 1 := rfl
    rw [Shows, ih]
    refine ⟨fun h => ⟨by omega, fun i hi => ?_⟩, fun h => ⟨h.2 0 (by omega), by omega, ?_⟩⟩
    · cases i with
      | zero => exact h.1
      | succ i => exact (h.2.2 i (by omega)).trans (by congr 1; omega)
    · exact fun i hi => (h.2 (i + 1) (by omega)).trans (by congr 1; omega)

/-- All bits are over the first `n` variables. -/
def AllIn (n : ℕ) (bs : List Bit) : Prop := ∀ b ∈ bs, b.In n

theorem AllIn.mono {m : ℕ} (h : AllIn n bs) (hle : n ≤ m) : AllIn m bs :=
  fun b hb => (h b hb).mono hle

theorem AllIn.tail (h : AllIn n (b :: bs)) : AllIn n bs := fun b hb => h b (.tail _ hb)

theorem AllIn.negate (h : AllIn n bs) : AllIn n (bs.map Bit.negate) :=
  forall_mem_map.2 fun b hb => (h b hb).negate

theorem Shows.congr (h : Shows σ X k bs) (hin : AllIn n bs) (hag : ∀ v ≤ n, σ' v = σ v) :
    Shows σ' X k bs := by
  obtain ⟨hlen, hval⟩ := shows_iff.1 h
  refine shows_iff.2 ⟨hlen, fun i hi => Eq.trans ?_ (hval i hi)⟩
  have hbit := hin _ (get_mem bs ⟨i, hi⟩)
  cases hb : bs.get ⟨i, hi⟩ with
  | const c => rfl
  | lit l =>
    rw [hb] at hbit
    exact litVal_congr hag hbit

theorem Shows.not (hin : AllIn n bs) (h : Shows σ X k bs) :
    Shows σ (~~~X) k (bs.map Bit.negate) := by
  obtain ⟨hlen, hval⟩ := shows_iff.1 h
  refine shows_iff.2 ⟨by rwa [length_map], fun i hi => ?_⟩
  rw [length_map] at hi
  have hlt : k + i < w := by omega
  have hbit := val_negate σ (hin _ (get_mem bs ⟨i, hi⟩))
  rw [hval i hi] at hbit
  simpa [hlt] using hbit

/-- Some bit is set exactly if the word is not zero. -/
theorem Shows.any (h : Shows σ X 0 bs) : (∃ b ∈ bs, b.val σ = true) ↔ X ≠ ofNat w 0 := by
  obtain ⟨hlen, hval⟩ := shows_iff.1 h
  constructor
  · rintro ⟨b, hb, hset⟩ rfl
    obtain ⟨⟨i, hi⟩, rfl⟩ := mem_iff_get.1 hb
    rw [hval i hi, getLsbD_zero] at hset
    cases hset
  intro hne
  by_contra hnone
  refine hne (eq_of_getLsbD_eq fun i hi => ?_)
  have hbit := hval i (by omega)
  rw [Nat.zero_add] at hbit
  rw [← hbit, getLsbD_zero, ← not_eq_true]
  exact fun hset => hnone ⟨_, get_mem .., hset⟩

/-- The result of an operator on words. -/
structure YieldsBits (s : Blaster) (r : List Bit × Blaster) : Prop where
  grows : Grows s r.2
  bits : AllIn r.2.nextVar r.1

theorem yieldsBits_nil (hs : s.Ok) : YieldsBits s ([], s) :=
  ⟨.refl hs, fun b hb => by cases hb⟩

variable {xs ys : List Bit}

/-- **The adder adds.** -/
theorem rippleAdd_yields {c : Bool} (carry : Bit) (hs : s.Ok) (hxs : AllIn s.nextVar xs)
    (hys : AllIn s.nextVar ys) (hc : carry.In s.nextVar) (hlen : xs.length = ys.length) :
    YieldsBits s (s.rippleAdd xs ys carry) ∧
      ∀ σ, Sat σ (s.rippleAdd xs ys carry).2.clauses → ∀ (X Y : BitVec w) (k : ℕ),
        Shows σ X k xs → Shows σ Y k ys → carry.val σ = BitVec.carry k X Y c →
        Shows σ (X + Y + BitVec.setWidth w (BitVec.ofBool c)) k (s.rippleAdd xs ys carry).1 := by
  induction xs generalizing ys s carry with
  | nil =>
    obtain rfl := eq_nil_of_length_eq_zero hlen.symm
    exact ⟨yieldsBits_nil hs, fun σ _ X Y k hX _ _ => hX⟩
  | cons x xs ih =>
    obtain ⟨y, ys, rfl⟩ := exists_cons_of_length_eq_add_one hlen.symm
    have hx := hxs x (.head _)
    have hy := hys y (.head _)
    have hsum := xor3_yields hs hx hy hc
    have hbit : ∀ σ, Sat σ (s.xor3 x y carry).2.clauses → ∀ (X Y : BitVec w) (k : ℕ),
        Shows σ X k (x :: xs) → y.val σ = Y.getLsbD k → carry.val σ = BitVec.carry k X Y c →
        (s.xor3 x y carry).1.val σ
          = (X + Y + BitVec.setWidth w (BitVec.ofBool c)).getLsbD k := by
      intro σ hσ X Y k hX hY hcar
      have hk := (shows_iff.1 hX).1
      rw [length_cons] at hk
      rw [hsum.val σ hσ, getLsbD_add_add_bool (by omega), hX.1, hY, hcar]
    rw [Blaster.rippleAdd]
    by_cases hlast : xs = []
    · rw [if_pos hlast]
      refine ⟨⟨hsum.grows, by simpa [AllIn] using hsum.bit⟩, fun σ hσ X Y k hX hY hcar => ?_⟩
      exact ⟨hbit σ hσ X Y k hX hY.1 hcar, by simpa [hlast, Shows] using hX.2⟩
    rw [if_neg hlast]
    have hle := hsum.grows.le
    have hnext := maj3_yields hsum.grows.ok (hx.mono hle) (hy.mono hle) (hc.mono hle)
    have hgrow := hsum.grows.trans hnext.grows
    obtain ⟨hrest, hval⟩ := ih _ hnext.grows.ok (hxs.tail.mono hgrow.le)
      (hys.tail.mono hgrow.le) hnext.bit (Nat.succ.inj hlen)
    refine ⟨⟨hgrow.trans hrest.grows, forall_mem_cons.2 ⟨?_, hrest.bits⟩⟩, ?_⟩
    · exact hsum.bit.mono (hnext.grows.le.trans hrest.grows.le)
    intro σ hσ X Y k hX hY hcar
    have hσ2 := hrest.grows.sound σ hσ
    refine ⟨hbit σ (hnext.grows.sound σ hσ2) X Y k hX hY.1 hcar,
      hval σ hσ X Y (k + 1) hX.2 hY.2 ?_⟩
    rw [hnext.val σ hσ2, carry_succ, hX.1, hY.1, hcar]

/-- The operator on single bits. -/
def onBits (s : Blaster) (op : GateKind) (x y : Bit) : Bit × Blaster :=
  match op with
  | .and2 => s.and2 x y
  | .xor2 => s.xor2 x y
  | _ => s.or2 x y

/-- What the operators on single bits do to words. -/
theorem bitwise_yields (op : GateKind) (g : Bool → Bool → Bool)
    (hop : ∀ {s : Blaster} {x y : Bit}, s.Ok → x.In s.nextVar → y.In s.nextVar →
      Yields s (onBits s op x y) fun σ => g (x.val σ) (y.val σ)) :
    ∀ {xs ys : List Bit} {s : Blaster}, s.Ok → AllIn s.nextVar xs → AllIn s.nextVar ys →
    xs.length = ys.length → YieldsBits s (s.bitwise op xs ys) ∧
      ∀ σ, Sat σ (s.bitwise op xs ys).2.clauses → ∀ (X Y Z : BitVec w) (k : ℕ),
        (∀ i, Z.getLsbD i = g (X.getLsbD i) (Y.getLsbD i)) →
        Shows σ X k xs → Shows σ Y k ys → Shows σ Z k (s.bitwise op xs ys).1 := by
  intro xs
  induction xs with
  | nil =>
    intro ys s hs _ _ hlen
    obtain rfl := eq_nil_of_length_eq_zero hlen.symm
    exact ⟨yieldsBits_nil hs, fun σ _ X Y Z k _ hX _ => hX⟩
  | cons x xs ih =>
    intro ys s hs hxs hys hlen
    obtain ⟨y, ys, rfl⟩ := exists_cons_of_length_eq_add_one hlen.symm
    have hfirst := hop hs (hxs x (.head _)) (hys y (.head _))
    obtain ⟨hrest, hval⟩ := ih hfirst.grows.ok (hxs.tail.mono hfirst.grows.le)
      (hys.tail.mono hfirst.grows.le) (Nat.succ.inj hlen)
    refine ⟨⟨hfirst.grows.trans hrest.grows, forall_mem_cons.2
      ⟨hfirst.bit.mono hrest.grows.le, hrest.bits⟩⟩, fun σ hσ X Y Z k hZ hX hY => ?_⟩
    refine ⟨?_, hval σ hσ X Y Z (k + 1) hZ hX.2 hY.2⟩
    rw [hZ k, ← hX.1, ← hY.1]
    exact hfirst.val σ (hrest.grows.sound σ hσ)

/-! ## Expressions -/

/-- The value of an expression whose nodes all have width `w`. -/
def value (ρ : String → BitVec w) : SmtExpr → BitVec w
  | .var name _ => ρ name
  | .bvConst v _ => v.setWidth w
  | .bvBin .add lhs rhs _ => value ρ lhs + value ρ rhs
  | .bvBin .sub lhs rhs _ => value ρ lhs - value ρ rhs
  | .bvBin .and lhs rhs _ => value ρ lhs &&& value ρ rhs
  | .bvBin .or lhs rhs _ => value ρ lhs ||| value ρ rhs
  | .bvBin .xor lhs rhs _ => value ρ lhs ^^^ value ρ rhs
  | .bvNeg operand _ => - value ρ operand
  | _ => ofNat w 0

/-- Every node has width `w`. -/
def Sized (w : ℕ) : SmtExpr → Prop
  | .var _ w' | .bvConst _ w' => w' = w
  | .bvBin _ lhs rhs w' => w' = w ∧ Sized w lhs ∧ Sized w rhs
  | .bvNeg operand w' => w' = w ∧ Sized w operand
  | _ => True

/-- In a constant of more than 64 bits, no set bit comes round again above bit 63. -/
def ConstFits : SmtExpr → Prop
  | .bvConst v w => ∀ i < w, 64 ≤ i → v.getLsbD (i % 64) = false
  | .bvBin _ lhs rhs _ => ConstFits lhs ∧ ConstFits rhs
  | .bvNeg operand _ => ConstFits operand
  | _ => True

/-- The bits of an input. -/
def inputBits (ids : List ℕ) : List Bit := ids.map fun (id : ℕ) => .lit (id : ℤ)

/-- The input variables spell the values of the inputs of width `w`. -/
def Spells (inputs : InputVars) (σ : ℕ → Bool) (ρ : String → BitVec w) : Prop :=
  ∀ name ids, inputs.lookup name = some ids → ids.length = w → Shows σ (ρ name) 0 (inputBits ids)

theorem setWidth_ofBool_true : BitVec.setWidth w (BitVec.ofBool true) = ofNat w 1 := by
  apply eq_of_toNat_eq
  simp

variable {name : String}

/-- What an operator does to words. -/
theorem binop_yields {op : BvBinOp} {emit : Blaster → List Bit → List Bit → List Bit × Blaster}
    (h : Blaster.binop op = some (name, emit)) (hs : s.Ok) (hxs : AllIn s.nextVar xs)
    (hys : AllIn s.nextVar ys) (hlen : xs.length = ys.length) (lhs rhs : SmtExpr) (w' : ℕ) :
    YieldsBits s (emit s xs ys) ∧ ∀ σ, Sat σ (emit s xs ys).2.clauses →
      ∀ ρ : String → BitVec w, Shows σ (value ρ lhs) 0 xs → Shows σ (value ρ rhs) 0 ys →
        Shows σ (value ρ (.bvBin op lhs rhs w')) 0 (emit s xs ys).1 := by
  cases op with cases h
  | add =>
    obtain ⟨hy, hval⟩ := rippleAdd_yields (w := w) (c := false) (.const false) hs hxs hys trivial
      hlen
    refine ⟨hy, fun σ hσ ρ hX hY => ?_⟩
    simpa [value] using hval σ hσ _ _ 0 hX hY (by simp [Bit.val])
  | sub =>
    obtain ⟨hy, hval⟩ := rippleAdd_yields (w := w) (c := true) (.const true) hs hxs hys.negate
      trivial (by rw [length_map, hlen])
    refine ⟨hy, fun σ hσ ρ hX hY => ?_⟩
    have hsum := hval σ hσ _ _ 0 hX (hY.not hys) (by simp [Bit.val])
    rwa [setWidth_ofBool_true, add_assoc, ← neg_eq_not_add, ← sub_eq_add_neg] at hsum
  | and =>
    obtain ⟨hy, hval⟩ := bitwise_yields .and2 and (w := w) and2_yields hs hxs hys hlen
    exact ⟨hy, fun σ hσ ρ hX hY => hval σ hσ _ _ _ 0 (fun i => getLsbD_and ..) hX hY⟩
  | or =>
    obtain ⟨hy, hval⟩ := bitwise_yields .maj3 or (w := w) or2_yields hs hxs hys hlen
    exact ⟨hy, fun σ hσ ρ hX hY => hval σ hσ _ _ _ 0 (fun i => getLsbD_or ..) hX hY⟩
  | xor =>
    obtain ⟨hy, hval⟩ := bitwise_yields .xor2 xor (w := w) xor2_yields hs hxs hys hlen
    exact ⟨hy, fun σ hσ ρ hX hY => hval σ hσ _ _ _ 0 (fun i => getLsbD_xor ..) hX hY⟩

/-- The inputs are over the first `n` variables. -/
def InputsIn (n : ℕ) (inputs : InputVars) : Prop :=
  ∀ name ids, inputs.lookup name = some ids → AllIn n (inputBits ids)

variable {inputs : InputVars}

/-- **The bits of an expression spell its value.** -/
theorem blastExpr_shows (hin : InputsIn n inputs) {e : SmtExpr} :
    ∀ {s : Blaster} {r : List Bit × Blaster}, Blaster.blastExpr inputs e s = .ok r → s.Ok →
      n ≤ s.nextVar → Sized w e → ConstFits e → YieldsBits s r ∧
        ∀ σ, Sat σ r.2.clauses → ∀ ρ : String → BitVec w, Spells inputs σ ρ →
          Shows σ (value ρ e) 0 r.1 := by
  induction e with
  | var name width =>
    intro s r h hs hn hsize _
    rw [Blaster.blastExpr] at h
    cases hids : inputs.lookup name with
    | none => simp [hids] at h
    | some ids =>
      simp only [hids] at h
      split at h
      · cases h
      cases h
      exact ⟨⟨.refl hs, (hin name ids hids).mono hn⟩,
        fun σ _ ρ hρ => hρ name ids hids (by rw [Sized] at hsize; omega)⟩
  | bvConst v width =>
    intro s r h hs _ hsize hfits
    cases h
    obtain rfl : width = w := hsize
    refine ⟨⟨.refl hs, forall_mem_map.2 fun _ _ => trivial⟩, fun σ _ ρ _ =>
      shows_iff.2 ⟨by simp, fun i hi => ?_⟩⟩
    have hlt : i < width := by simpa using hi
    have hbit : v.getLsbD (i % 64) = v.getLsbD i := by
      by_cases h64 : i < 64
      · rw [Nat.mod_eq_of_lt h64]
      · rw [hfits i hlt (by omega), getLsbD_of_ge _ _ (by omega)]
    simp [value, Bit.val, hlt, hbit]
  | bvBin op lhs rhs w' ihl ihr =>
    intro s r h hs hn hsize hfits
    rw [Blaster.blastExpr] at h
    cases hop : Blaster.binop op with
    | none => simp [hop] at h
    | some p =>
      obtain ⟨name, emit⟩ := p
      simp only [hop] at h
      obtain ⟨a, ha, h⟩ := Outcome.bind_eq_ok.1 h
      obtain ⟨b, hb, h⟩ := Outcome.bind_eq_ok.1 h
      split at h
      · cases h
      rename_i hlen
      cases h
      obtain ⟨hya, hva⟩ := ihl ha hs hn hsize.2.1 hfits.1
      obtain ⟨hyb, hvb⟩ := ihr hb hya.grows.ok (hn.trans hya.grows.le) hsize.2.2 hfits.2
      obtain ⟨hy, hval⟩ := binop_yields (w := w) hop hyb.grows.ok
        (hya.bits.mono hyb.grows.le) hyb.bits (by_contra fun hne => hlen (.inl hne)) lhs rhs w'
      refine ⟨⟨hya.grows.trans (hyb.grows.trans hy.grows), hy.bits⟩, fun σ hσ ρ hρ => ?_⟩
      have hσb := hy.grows.sound σ hσ
      exact hval σ hσ ρ (hva σ (hyb.grows.sound σ hσb) ρ hρ) (hvb σ hσb ρ hρ)
  | bvNeg operand width ih =>
    intro s r h hs hn hsize hfits
    rw [Blaster.blastExpr] at h
    obtain ⟨a, ha, h⟩ := Outcome.bind_eq_ok.1 h
    dsimp only at h
    split at h
    · cases h
    cases h
    obtain ⟨hya, hva⟩ := ih ha hs hn hsize.2 hfits
    have hzero : AllIn a.2.nextVar (List.replicate a.1.length (.const false)) :=
      fun b hb => eq_of_mem_replicate hb ▸ trivial
    obtain ⟨hy, hval⟩ := rippleAdd_yields (w := w) (c := true) (.const true) hya.grows.ok
      hya.bits.negate hzero trivial (by simp)
    refine ⟨⟨hya.grows.trans hy.grows, hy.bits⟩, fun σ hσ ρ hρ => ?_⟩
    have hshow := hva σ (hy.grows.sound σ hσ) ρ hρ
    have hlen := (shows_iff.1 hshow).1
    have hz : Shows σ (ofNat w 0) 0 (List.replicate a.1.length (.const false)) :=
      shows_iff.2 ⟨by simpa using hlen, fun i hi => by simp [Bit.val]⟩
    have hsum := hval σ hσ _ _ 0 (hshow.not hya.bits) hz (by simp [Bit.val])
    rwa [setWidth_ofBool_true, BitVec.add_zero, ← BitVec.neg_eq_not_add] at hsum
  | _ =>
    intro s r h
    cases h

/-! ## Inputs -/

theorem lookup_declared {name' : String} {ids ids' : List ℕ} :
    (inputs ++ [(name, ids)]).lookup name' = some ids' →
      inputs.lookup name' = some ids' ∨ name' = name ∧ ids' = ids := by
  rw [lookup_append]
  intro h
  cases hold : inputs.lookup name' with
  | some old => exact .inl (by simpa [hold] using h)
  | none =>
    rw [hold, Option.none_or, lookup_cons] at h
    split at h
    · exact .inr ⟨eq_of_beq ‹_›, (Option.some.inj h).symm⟩
    · cases h

/-- **Every choice of input values is spelled by an assignment.** -/
theorem declareInputs_spells (ρ : String → BitVec w) {decls : List (String × ℕ)} :
    ∀ {inputs : InputVars} {r : InputVars × ℕ}, declareInputs decls inputs n = .ok r →
      InputsIn n inputs → (∃ σ, Spells inputs σ ρ) → InputsIn r.2 r.1 ∧ ∃ σ, Spells r.1 σ ρ := by
  induction decls generalizing n with
  | nil =>
    intro inputs r h hin hσ
    cases h
    exact ⟨hin, hσ⟩
  | cons d decls ih =>
    obtain ⟨name, width⟩ := d
    rintro inputs r h hin ⟨σ, hσ⟩
    rw [declareInputs] at h
    split at h
    · cases h
    refine ih h (fun name' ids' hl => ?_) ⟨fun v => if v ≤ n then σ v else
      (ρ name).getLsbD (v - (n + 1)), fun name' ids' hl hlen => ?_⟩
    · rcases lookup_declared hl with hl | ⟨rfl, rfl⟩
      · exact (hin name' ids' hl).mono (Nat.le_add_right ..)
      refine forall_mem_map.2 fun id hid => ?_
      have := mem_range'_1.1 hid
      exact ⟨by omega, by omega⟩
    rcases lookup_declared hl with hl | ⟨rfl, rfl⟩
    · exact (hσ name' ids' hl hlen).congr (hin name' ids' hl) fun v hv => if_pos hv
    refine shows_iff.2 ⟨by simpa [inputBits] using hlen, fun i hi => ?_⟩
    have hbit : (inputBits (List.range' (n + 1) width)).get ⟨i, hi⟩
        = .lit ((n + 1 + i : ℕ) : ℤ) := by simp [inputBits]
    rw [hbit, val_lit_natCast, if_neg (by omega)]
    congr 1
    omega

/-- Every assignment spells some input values. -/
theorem exists_spells (inputs : InputVars) (σ : ℕ → Bool) :
    ∃ ρ : String → BitVec w, Spells inputs σ ρ := by
  refine ⟨fun name => (BitVec.ofBoolListLE (((inputs.lookup name).getD []).map σ)).setWidth w,
    fun name ids hl hlen => shows_iff.2 ⟨by simpa [inputBits] using hlen, fun i hi => ?_⟩⟩
  have hi' : i < ids.length := by simpa [inputBits] using hi
  have hbit : (inputBits ids).get ⟨i, hi⟩ = .lit (ids[i] : ℕ) := by simp [inputBits]
  rw [hbit, val_lit_natCast, getLsbD_setWidth, getLsbD_ofBoolListLE, hl]
  simp [hi', ← hlen]

/-! ## Miters -/

theorem diffBits_zip (s : Blaster) (xs ys : List Bit) :
    s.diffBits (xs.zip ys) = s.bitwise .xor2 xs ys := by
  induction xs generalizing s ys with
  | nil => rfl
  | cons x xs ih =>
    cases ys with
    | nil => rfl
    | cons y ys => simp only [zip_cons_cons, Blaster.diffBits, Blaster.bitwise, ih]

/-- The clauses of the miter: those of the sides, and that some bit differs. -/
theorem assemble_sat {ir mc : List Bit} {miter : MiterCnf}
    (h : assemble name inputs ir mc s = .ok miter) :
    Sat σ miter.clauses ↔ Sat σ (Blaster.bitwise { s with side := .diff } .xor2 ir mc).2.clauses ∧
        ∃ b ∈ (Blaster.bitwise { s with side := .diff } .xor2 ir mc).1, b.val σ = true := by
  unfold assemble at h
  rw [diffBits_zip] at h
  generalize Blaster.bitwise { s with side := .diff } .xor2 ir mc = d at h ⊢
  by_cases hconst : (.const true) ∈ d.1
  · simp only [contains_iff_mem.2 hconst, if_true] at h
    cases h
    exact ⟨fun hσ => ⟨hσ, _, hconst, rfl⟩, And.left⟩
  have hnot : d.1.contains (.const true) = false := by simpa using hconst
  simp only [hnot, false_eq_true, if_false] at h
  obtain ⟨_, -, h⟩ := Outcome.bind_eq_ok.1 h
  cases h
  rw [sat_append]
  refine and_congr_right fun _ => ?_
  simp only [Sat, mem_singleton, forall_eq, any_eq_true, mem_filterMap]
  constructor
  · rintro ⟨l, ⟨b, hb, hl⟩, hval⟩
    cases b with
    | const c => cases hl
    | lit l' => exact ⟨_, hb, Option.some.inj hl ▸ hval⟩
  rintro ⟨b, hb, hval⟩
  cases b with
  | const c =>
    obtain rfl : c = true := hval
    exact absurd hb hconst
  | lit l => exact ⟨l, ⟨_, hb, rfl⟩, hval⟩

/-- **The miter is unsatisfiable exactly if the sides agree.** -/
theorem blastEquivalenceMiter_unsat_iff {ob : ProofObligation} {miter : MiterCnf}
    (h : blastEquivalenceMiter ob = .ok miter) (hir : Sized w ob.trustIrExpr)
    (hmc : Sized w ob.aarch64Expr) (hir' : ConstFits ob.trustIrExpr)
    (hmc' : ConstFits ob.aarch64Expr) :
    (∀ σ, ¬ Sat σ miter.clauses) ↔
      ∀ ρ : String → BitVec w, value ρ ob.trustIrExpr = value ρ ob.aarch64Expr := by
  unfold blastEquivalenceMiter at h
  dsimp only at h
  split at h
  · cases h
  split at h
  · cases h
  split at h
  · cases h
  obtain ⟨decl, hdecl, h⟩ := Outcome.bind_eq_ok.1 h
  obtain ⟨ir, hblast, h⟩ := Outcome.bind_eq_ok.1 h
  obtain ⟨mc, hblast', h⟩ := Outcome.bind_eq_ok.1 h
  split at h
  · cases h
  rename_i hlen
  have hdeclared := fun ρ : String → BitVec w => declareInputs_spells ρ hdecl
    (fun _ _ hl => by cases hl) ⟨fun _ => false, fun _ _ hl => by cases hl⟩
  have hin := (hdeclared fun _ => ofNat w 0).1
  have hstart : Blaster.Ok ⟨decl.2, [], [], [], .ir⟩ := fun c hc => by cases hc
  obtain ⟨hy, hval⟩ := blastExpr_shows hin hblast hstart le_rfl hir hir'
  obtain ⟨hy', hval'⟩ := blastExpr_shows hin hblast' hy.grows.ok hy.grows.le hmc hmc'
  have hside := hy'.grows.withSide .diff
  obtain ⟨hyd, hvald⟩ := bitwise_yields .xor2 xor (w := w) xor2_yields hside.ok
    (hy.bits.mono hside.le) hy'.bits (by_contra fun hne => hlen (.inl hne))
  have hsat := fun σ => assemble_sat (σ := σ) h
  generalize Blaster.bitwise _ .xor2 ir.1 mc.1 = d at hyd hvald hsat
  -- under the clauses, some bit differs exactly if the sides do
  have hdiff : ∀ σ, Sat σ d.2.clauses → ∀ ρ : String → BitVec w, Spells decl.1 σ ρ →
      ((∃ b ∈ d.1, b.val σ = true) ↔ value ρ ob.trustIrExpr ≠ value ρ ob.aarch64Expr) := by
    intro σ hσ ρ hρ
    have hσ' := hyd.grows.sound σ hσ
    have hshow := hvald σ hσ _ _ _ 0 (fun i => getLsbD_xor)
      (hval σ (hy'.grows.sound σ hσ') ρ hρ) (hval' σ hσ' ρ hρ)
    rw [hshow.any, ne_eq, xor_eq_zero_iff]
  constructor
  · intro hunsat ρ
    by_contra hne
    obtain ⟨σ, hρ⟩ := (hdeclared ρ).2
    obtain ⟨σ', hag, hσ'⟩ := ((hy.grows.withSide .machine).trans (hside.trans hyd.grows)).extend σ
      fun c hc => by cases hc
    have hρ' : Spells decl.1 σ' ρ :=
      fun name ids hl hw => (hρ name ids hl hw).congr (hin name ids hl) hag
    exact hunsat σ' ((hsat σ').2 ⟨hσ', (hdiff σ' hσ' ρ hρ').2 hne⟩)
  intro heq σ hσ
  obtain ⟨hσ, hset⟩ := (hsat σ).1 hσ
  obtain ⟨ρ, hρ⟩ := exists_spells (w := w) decl.1 σ
  exact (hdiff σ hσ ρ hρ).1 hset (heq ρ)

/-- `x + 1` against `1 + x`. -/
def addComm : ProofObligation :=
  ⟨"add", .bvBin .add (.var "x" 2) (.bvConst 1 2) 2, .bvBin .add (.bvConst 1 2) (.var "x" 2) 2,
    [("x", 2)], [], []⟩

theorem addComm_unsat : ∃ miter, blastEquivalenceMiter addComm = .ok miter ∧
    ∀ σ, ¬ Sat σ miter.clauses := by
  have hok : (blastEquivalenceMiter addComm).isOk = true := by decide +kernel
  cases h : blastEquivalenceMiter addComm with
  | error e => simp [h, Except.isOk, Except.toBool] at hok
  | ok miter =>
    refine ⟨miter, rfl, (blastEquivalenceMiter_unsat_iff (w := 2) h ?_ ?_ ?_ ?_).2 fun ρ => ?_⟩
    · simp [addComm, Sized]
    · simp [addComm, Sized]
    · exact ⟨trivial, fun i hi h64 => by omega⟩
    · exact ⟨fun i hi h64 => by omega, trivial⟩
    · exact add_comm ..

/-- `1` against `1 & -1`, at 65 bits. -/
def wideConst : ProofObligation :=
  ⟨"wide", .bvConst 1 65, .bvBin .and (.bvConst 1 65) (.bvNeg (.bvConst 1 65) 65) 65, [("x", 65)],
    [], []⟩

/-- The sides have the same value, yet the clauses have an assignment. -/
theorem blastEquivalenceMiter_wide_const : ∃ miter, blastEquivalenceMiter wideConst = .ok miter ∧
    Sat (fun _ => false) miter.clauses ∧
      ∀ ρ : String → BitVec 65, value ρ wideConst.trustIrExpr = value ρ wideConst.aarch64Expr := by
  have hempty : (blastEquivalenceMiter wideConst).toOption.map MiterCnf.clauses = some [] := by
    decide +kernel
  cases h : blastEquivalenceMiter wideConst with
  | error e => simp [h, Except.toOption] at hempty
  | ok miter =>
    rw [h] at hempty
    have hnil : miter.clauses = [] := Option.some.inj hempty
    refine ⟨miter, rfl, fun c hc => ?_, fun ρ => ?_⟩
    · rw [hnil] at hc
      cases hc
    simp only [wideConst, value]
    decide

/-! ## Accepted provenance -/

variable {m : MiterCnf}

theorem require_eq_ok {test : Bool} {text : String} :
    require test text = .ok () ↔ test = true := by
  cases test <;> simp [require]

/-- The gate's output has the value of its kind on its inputs. -/
def GateRecord.Holds (gate : GateRecord) (σ : ℕ → Bool) : Prop :=
  litVal σ gate.out = gate.kind.eval (gate.ins.map (litVal σ))

theorem mem_tagged {tag : Option ℕ} {c : List ℤ} :
    c ∈ m.tagged tag ↔ ∃ c', (c', tag) ∈ m.clauses.zip m.clauseTags ∧ canon c' = c := by
  simp [MiterCnf.tagged]

theorem any_canon (c : List ℤ) : (canon c).any (litVal σ) = c.any (litVal σ) :=
  (perm_insertionSort _ c).any_eq

/-- The clauses are those of their tags. -/
theorem sat_iff_tagged (hlen : m.clauseTags.length = m.clauses.length) :
    Sat σ m.clauses ↔ ∀ tag, Sat σ (m.tagged tag) := by
  constructor
  · intro h tag c hc
    obtain ⟨c, hzip, rfl⟩ := mem_tagged.1 hc
    rw [any_canon]
    exact h c (of_mem_zip hzip).1
  intro h c hc
  obtain ⟨i, hi, rfl⟩ := getElem_of_mem hc
  have hzip : (m.clauses[i], m.clauseTags[i]) ∈ m.clauses.zip m.clauseTags :=
    mem_iff_getElem.2 ⟨i, by simpa [hlen] using hi, getElem_zip⟩
  rw [← any_canon]
  exact h _ _ (mem_tagged.2 ⟨_, hzip, rfl⟩)

/-- What `check_provenance` has found when it accepts. -/
structure MiterCnf.Accepted (m : MiterCnf) : Prop where
  lengths : m.clauseTags.length = m.clauses.length
  tags : ∀ g, some g ∈ m.clauseTags → g < m.provenance.gates.length
  gates : ∀ g gate, m.provenance.gates[g]? = some gate → gate.ins.length = gate.kind.arity
    ∧ ((canonicalGateClauses negLit gate.kind gate.out gate.ins).map canon).Perm (m.tagged (some g))
  disequality : m.tagged none = [canon m.provenance.diff]
  sides : m.provenance.irOut.length = m.provenance.machineOut.length
    ∧ m.provenance.irOut.length = m.provenance.diff.length
  diff : ∀ i d, m.provenance.diff[i]? = some d → ∃ gate ∈ m.provenance.gates,
    gate.out = absLit d ∧ gate.kind = .xor2
      ∧ gate.ins = [m.provenance.irOut.getD i 0, m.provenance.machineOut.getD i 0]

theorem MiterCnf.accepted (h : m.checkProvenance = .ok ()) : m.Accepted := by
  unfold MiterCnf.checkProvenance at h
  obtain ⟨_, hlen, h⟩ := Outcome.bind_eq_ok.1 h
  obtain ⟨_, htags, h⟩ := Outcome.bind_eq_ok.1 h
  obtain ⟨_, hgates, h⟩ := Outcome.bind_eq_ok.1 h
  obtain ⟨_, -, h⟩ := Outcome.bind_eq_ok.1 h
  obtain ⟨_, hnone, h⟩ := Outcome.bind_eq_ok.1 h
  obtain ⟨_, hsides, hbits⟩ := Outcome.bind_eq_ok.1 h
  refine ⟨of_decide_eq_true (require_eq_ok.1 hlen), fun g hg => ?_, fun g gate hg => ?_,
    of_decide_eq_true (require_eq_ok.1 hnone), of_decide_eq_true (require_eq_ok.1 hsides),
    fun i d hd => ?_⟩
  · exact of_decide_eq_true (require_eq_ok.1 (Outcome.forM_eq_ok.1 htags _ hg))
  · obtain ⟨_, harity, hperm⟩ := Outcome.bind_eq_ok.1
      (Outcome.forM_eq_ok.1 hgates (gate, g) (mk_mem_zipIdx_iff_getElem?.2 hg))
    exact ⟨of_decide_eq_true (require_eq_ok.1 harity), isPerm_iff.1 (require_eq_ok.1 hperm)⟩
  have hfind := Outcome.forM_eq_ok.1 hbits (d, i) (mk_mem_zipIdx_iff_getElem?.2 hd)
  dsimp only at hfind
  split at hfind
  · cases hfind
  next gate hgate =>
    have hout := find?_some hgate
    rw [decide_eq_true_eq] at hout
    exact ⟨gate, mem_of_find?_eq_some hgate, hout.2,
      of_decide_eq_true (require_eq_ok.1 hfind)⟩

/-- The literal is an `i32` that DIMACS can write with either sign. -/
def Proper (l : ℤ) : Prop := l ≠ 0 ∧ l ≠ -2 ^ 31

theorem negLit_eq {l : ℤ} (h : Proper l) : negLit l = -l := if_neg h.2

theorem canonicalGateClauses_negLit {kind : GateKind} {o : ℤ} {ins : List ℤ} (ho : Proper o)
    (hins : ∀ l ∈ ins, Proper l) :
    canonicalGateClauses negLit kind o ins = canonicalGateClauses Neg.neg kind o ins := by
  unfold canonicalGateClauses
  split <;> simp_all [negLit_eq]

theorem proper_of_tagged {tag : Option ℕ} {c : List ℤ}
    (hlits : ∀ c ∈ m.clauses, ∀ l ∈ c, Proper l) (hc : canon c ∈ m.tagged tag) :
    ∀ l ∈ c, Proper l := by
  obtain ⟨c', hzip, hcanon⟩ := mem_tagged.1 hc
  intro l hl
  refine hlits c' (of_mem_zip hzip).1 l ((perm_insertionSort (· ≤ ·) c').mem_iff.1 ?_)
  rw [show c'.insertionSort (· ≤ ·) = canon c from hcanon]
  exact (perm_insertionSort _ c).mem_iff.2 hl

/-- A gate over literals is said by the clauses that carry its number. -/
theorem sat_tagged_gate {gate : GateRecord} {g : ℕ} (hlits : ∀ c ∈ m.clauses, ∀ l ∈ c, Proper l)
    (harity : gate.ins.length = gate.kind.arity)
    (hperm : ((canonicalGateClauses negLit gate.kind gate.out gate.ins).map canon).Perm
      (m.tagged (some g))) : Sat σ (m.tagged (some g)) ↔ gate.Holds σ := by
  have hproper : ∀ c ∈ canonicalGateClauses negLit gate.kind gate.out gate.ins, ∀ l ∈ c,
      Proper l := fun c hc => proper_of_tagged hlits (hperm.mem_iff.1 (mem_map_of_mem hc))
  -- every literal of the gate stands in one of its clauses as it is
  have hgate : Proper gate.out ∧ ∀ l ∈ gate.ins, Proper l := by
    obtain ⟨side, kind, o, ins⟩ := gate
    cases kind with
    | xor2 | and2 =>
      obtain ⟨a, b, rfl⟩ := length_eq_two.1 harity
      simp only [canonicalGateClauses, forall_mem_cons] at hproper
      simp only [forall_mem_cons]
      tauto
    | xor3 | maj3 =>
      obtain ⟨a, b, c, rfl⟩ := length_eq_three.1 harity
      simp only [canonicalGateClauses, forall_mem_cons] at hproper
      simp only [forall_mem_cons]
      tauto
  rw [GateRecord.Holds, ← sat_canonical hgate.1.1 (fun l hl => (hgate.2 l hl).1) harity,
    ← canonicalGateClauses_negLit hgate.1 hgate.2]
  simp only [Sat, ← hperm.mem_iff, forall_mem_map, any_canon]

/-- What the clauses are meant to say: every gate has its value and a pair of output bits
differs. -/
def MiterCnf.Means (m : MiterCnf) (σ : ℕ → Bool) : Prop :=
  (∀ gate ∈ m.provenance.gates, gate.Holds σ) ∧
    ∃ pair ∈ m.provenance.irOut.zip m.provenance.machineOut, litVal σ pair.1 ≠ litVal σ pair.2

/-- The pairs of output bits, each with the literal that is asserted for it. -/
def MiterCnf.compared (m : MiterCnf) : List (ℤ × ℤ × ℤ) :=
  m.provenance.diff.zip (m.provenance.irOut.zip m.provenance.machineOut)

/-- Wherever no pair with a positive literal differs, one with a negated literal differs
exactly if another agrees. -/
def MiterCnf.NegatedCancel (m : MiterCnf) : Prop :=
  ∀ σ, (∀ gate ∈ m.provenance.gates, gate.Holds σ) →
    (∀ e ∈ m.compared, 0 < e.1 → litVal σ e.2.1 = litVal σ e.2.2) →
      ((∃ e ∈ m.compared, e.1 < 0 ∧ litVal σ e.2.1 ≠ litVal σ e.2.2) ↔
        ∃ e ∈ m.compared, e.1 < 0 ∧ litVal σ e.2.1 = litVal σ e.2.2)

section

variable (h : m.Accepted) (hlits : ∀ c ∈ m.clauses, ∀ l ∈ c, Proper l)
include h hlits

/-- Accepted clauses are the gates and the asserted literals. -/
theorem MiterCnf.Accepted.sat_iff (σ : ℕ → Bool) : Sat σ m.clauses ↔
    (∀ gate ∈ m.provenance.gates, gate.Holds σ) ∧ m.provenance.diff.any (litVal σ) = true := by
  have hgate : ∀ g gate, m.provenance.gates[g]? = some gate →
      (Sat σ (m.tagged (some g)) ↔ gate.Holds σ) := fun g gate hg =>
    sat_tagged_gate hlits (h.gates g gate hg).1 (h.gates g gate hg).2
  have hlast : Sat σ (m.tagged none) ↔ m.provenance.diff.any (litVal σ) = true := by
    rw [h.disequality, Sat, forall_mem_singleton, any_canon]
  rw [sat_iff_tagged h.lengths, ← hlast]
  refine ⟨fun hall => ⟨fun gate hmem => ?_, hall none⟩, fun ⟨hall, hsat⟩ tag => ?_⟩
  · obtain ⟨g, hg⟩ := mem_iff_getElem?.1 hmem
    exact (hgate g gate hg).1 (hall _)
  cases tag with
  | none => exact hsat
  | some g =>
    intro c hc
    obtain ⟨c', hzip, -⟩ := mem_tagged.1 hc
    have hlt := h.tags g (of_mem_zip hzip).2
    exact (hgate g _ (getElem?_eq_getElem hlt)).2 (hall _ (getElem_mem hlt)) c hc

theorem MiterCnf.Accepted.diff_proper : ∀ d ∈ m.provenance.diff, Proper d :=
  proper_of_tagged hlits (h.disequality ▸ mem_singleton_self _ :
    canon m.provenance.diff ∈ m.tagged none)

/-- An asserted literal is true where its two bits differ, or agree if it is negated. -/
theorem MiterCnf.Accepted.compared (hall : ∀ gate ∈ m.provenance.gates, gate.Holds σ) :
    ∀ e ∈ m.compared, litVal σ e.1 = true ↔ 0 < e.1 ∧ litVal σ e.2.1 ≠ litVal σ e.2.2
      ∨ e.1 < 0 ∧ litVal σ e.2.1 = litVal σ e.2.2 := by
  intro e he
  obtain ⟨hlen, hlen'⟩ := h.sides
  obtain ⟨i, hi, rfl⟩ := getElem_of_mem he
  simp only [MiterCnf.compared, length_zip] at hi
  have hir : i < m.provenance.irOut.length := by omega
  have hmc : i < m.provenance.machineOut.length := by omega
  have hdiff : i < m.provenance.diff.length := by omega
  simp only [MiterCnf.compared, getElem_zip]
  have hd := h.diff_proper hlits _ (getElem_mem hdiff)
  obtain ⟨gate, hmem, hout, hkind, hins⟩ := h.diff i _ (getElem?_eq_getElem hdiff)
  have hholds := hall gate hmem
  rw [GateRecord.Holds, hkind, hins, hout] at hholds
  have hxor : litVal σ (absLit m.provenance.diff[i])
      = (litVal σ m.provenance.irOut[i] ^^ litVal σ m.provenance.machineOut[i]) := by
    simpa [GateKind.eval, hir, hmc] using hholds
  rcases lt_or_gt_of_ne hd.1 with hneg | hpos
  · rw [absLit, if_pos hneg, negLit_eq hd, litVal_neg σ hd.1] at hxor
    rw [← Bool.not_not (litVal σ _), hxor]
    simp [hneg, hneg.not_gt]
  · rw [absLit, if_neg hpos.not_gt] at hxor
    rw [hxor]
    simp [hpos, hpos.not_gt]

/-- The asserted literals say that a pair differs exactly if the negated ones cancel. -/
theorem MiterCnf.Accepted.said_iff_meant (hall : ∀ gate ∈ m.provenance.gates, gate.Holds σ) :
    (m.provenance.diff.any (litVal σ) = true ↔ ∃ pair ∈ m.provenance.irOut.zip
      m.provenance.machineOut, litVal σ pair.1 ≠ litVal σ pair.2) ↔
    ((∀ e ∈ m.compared, 0 < e.1 → litVal σ e.2.1 = litVal σ e.2.2) →
      ((∃ e ∈ m.compared, e.1 < 0 ∧ litVal σ e.2.1 ≠ litVal σ e.2.2) ↔
        ∃ e ∈ m.compared, e.1 < 0 ∧ litVal σ e.2.1 = litVal σ e.2.2)) := by
  have hlit := h.compared hlits hall
  obtain ⟨hlen, hlen'⟩ := h.sides
  have hsides : m.compared.map Prod.fst = m.provenance.diff
      ∧ m.compared.map Prod.snd = m.provenance.irOut.zip m.provenance.machineOut := by
    refine ⟨map_fst_zip ?_, map_snd_zip ?_⟩ <;> rw [length_zip] <;> omega
  rw [← hsides.1, ← hsides.2]
  simp only [any_map, any_eq_true, Function.comp, mem_map, exists_exists_and_eq_and]
  by_cases hdiffers : ∃ e ∈ m.compared, 0 < e.1 ∧ litVal σ e.2.1 ≠ litVal σ e.2.2
  · obtain ⟨e, he, hpos, hne⟩ := hdiffers
    refine iff_of_true ?_ fun hagree => absurd (hagree e he hpos) hne
    exact iff_of_true ⟨e, he, (hlit e he).2 (.inl ⟨hpos, hne⟩)⟩ ⟨e, he, hne⟩
  have hagree : ∀ e ∈ m.compared, 0 < e.1 → litVal σ e.2.1 = litVal σ e.2.2 :=
    fun e he hpos => not_not.1 fun hne => hdiffers ⟨e, he, hpos, hne⟩
  have hsaid : (∃ e ∈ m.compared, litVal σ e.1 = true)
      ↔ ∃ e ∈ m.compared, e.1 < 0 ∧ litVal σ e.2.1 = litVal σ e.2.2 := by
    refine exists_congr fun e => and_congr_right fun he => ?_
    rw [hlit e he]
    exact or_iff_right fun hpos => hpos.2 (hagree e he hpos.1)
  have hmeant : (∃ e ∈ m.compared, litVal σ e.2.1 ≠ litVal σ e.2.2)
      ↔ ∃ e ∈ m.compared, e.1 < 0 ∧ litVal σ e.2.1 ≠ litVal σ e.2.2 := by
    refine exists_congr fun e => and_congr_right fun he => iff_and_self.2 fun hne => ?_
    have hzero := (h.diff_proper hlits e.1 (of_mem_zip he).1).1
    exact (lt_or_gt_of_ne hzero).resolve_right fun hpos => hne (hagree e he hpos)
  rw [hsaid, hmeant]
  exact ⟨fun hiff _ => hiff.symm, fun hiff => (hiff hagree).symm⟩

end

/-- **What accepted clauses say.**  Over literals that can be negated they say what they are
meant to say if every asserted literal is positive, and else exactly if the negated ones
cancel. -/
theorem checkProvenance_sat_iff (h : m.checkProvenance = .ok ())
    (hlits : ∀ c ∈ m.clauses, ∀ l ∈ c, Proper l) :
    ((∀ d ∈ m.provenance.diff, 0 < d) → ∀ σ, Sat σ m.clauses ↔ m.Means σ)
      ∧ ((∀ σ, Sat σ m.clauses ↔ m.Means σ) ↔ m.NegatedCancel) := by
  have hexact : (∀ σ, Sat σ m.clauses ↔ m.Means σ) ↔ m.NegatedCancel := by
    refine forall_congr' fun σ => ?_
    rw [(MiterCnf.accepted h).sat_iff hlits, MiterCnf.Means, and_congr_right_iff]
    exact forall_congr' fun hall => (MiterCnf.accepted h).said_iff_meant hlits hall
  refine ⟨fun hpos => hexact.2 fun σ _ _ => ?_, hexact⟩
  have hnone : ∀ e ∈ m.compared, ¬e.1 < 0 := fun e he =>
    (hpos e.1 (of_mem_zip he).1).not_gt
  exact ⟨fun ⟨e, he, hneg, _⟩ => absurd hneg (hnone e he),
    fun ⟨e, he, hneg, _⟩ => absurd hneg (hnone e he)⟩

/-- One bit of each side and the gate that compares them; `d` is asserted. -/
def oneBit (a d : ℤ) : MiterCnf :=
  ⟨3, canonicalGateClauses negLit .xor2 3 [1, a] ++ [[d]], [some 0, some 0, some 0, some 0, none],
    [("a", [1, 2])], "bit",
    ⟨"bit", 1, 3, [("a", [1, 2])], [⟨.diff, .xor2, 3, [1, a]⟩], [1], [a], [d]⟩⟩

theorem checkProvenance_sat_iff_oneBit : (oneBit 2 3).checkProvenance = .ok () ∧
    ∀ σ, Sat σ (oneBit 2 3).clauses ↔ (oneBit 2 3).Means σ :=
  ⟨rfl, (checkProvenance_sat_iff rfl (by unfold Proper; decide)).1 (by decide)⟩

/-- The negated literal is accepted as well; the clauses then say that the bits agree.  So is
the least `i32` as an input of a gate: its clauses hold wherever that literal is true. -/
theorem checkProvenance_negated : ((oneBit 2 (-3)).checkProvenance = .ok () ∧
    Sat (fun _ => false) (oneBit 2 (-3)).clauses ∧ ¬(oneBit 2 (-3)).Means fun _ => false)
      ∧ (oneBit (-2 ^ 31) 3).checkProvenance = .ok ()
      ∧ Sat (· ≤ 3) (oneBit (-2 ^ 31) 3).clauses ∧ ¬(oneBit (-2 ^ 31) 3).Means (· ≤ 3) := by
  unfold Sat MiterCnf.Means GateRecord.Holds
  refine ⟨⟨rfl, by decide, by decide⟩, rfl, by decide +kernel, by decide +kernel⟩

end TrustCg.Verify.SatBlast
