import TrustCg.Codegen.Lsda

/-!
# Reading a data area back

* `typeTableLayout_terminates` : the search for the padding ends, whatever the sizes.
* `generateLsda_decodes` : what is written reads back as the tables.
-/

namespace TrustCg.Codegen

open Leb128 LittleEndian List
open Option (bind_eq_bind bind_some)

variable {bytes : List UInt8}

/-! ## The layout of the type table -/

theorem checkedAdd_eq_some {a b c : ℕ} (h : checkedAdd a b = some c) : c = a + b := by
  rw [checkedAdd] at h
  split at h
  · exact (Option.some.inj h).symm
  · cases h

theorem checkedAdd_of_lt {a b : ℕ} (h : a + b < 2 ^ 64) : checkedAdd a b = some (a + b) := if_pos h

theorem expectFits_eq_ok {o : Option ℕ} {n : ℕ} : expectFits o = .ok n ↔ o = some n := by
  cases o with
  | none => simp [expectFits]
  | some m => simp [expectFits]

section Layout

variable {pre types : ℕ}

theorem layoutAt_ok {pad base start : ℕ} (h : layoutAt pre types pad = .ok (base, start)) :
    base = pre + pad + types ∧ start = 2 + ulebLen base + pre + pad := by
  obtain ⟨b, hb, h⟩ := Outcome.bind_eq_ok.mp h
  obtain ⟨s, hs, h⟩ := Outcome.bind_eq_ok.mp h
  obtain ⟨rfl, rfl⟩ : b = base ∧ s = start := by simpa [pure, Except.pure] using h
  obtain ⟨x, hx, hb⟩ := Option.bind_eq_some_iff.mp (expectFits_eq_ok.mp hb)
  obtain ⟨y, hy, hs⟩ := Option.bind_eq_some_iff.mp (expectFits_eq_ok.mp hs)
  obtain ⟨z, hz, hy⟩ := Option.bind_eq_some_iff.mp hy
  have hx := checkedAdd_eq_some hx
  have hb := checkedAdd_eq_some hb
  have hz := checkedAdd_eq_some hz
  have hy := checkedAdd_eq_some hy
  have hs := checkedAdd_eq_some hs
  exact ⟨by omega, by omega⟩

theorem ulebLen_le_ten {v : ℕ} (h : v < 2 ^ 64) : ulebLen v ≤ 10 := by
  rw [ulebLen_eq_log]
  have hlog : Nat.log 128 v < 10 := Nat.log_lt_of_lt_pow' (by decide) (by omega)
  exact hlog

theorem layoutAt_of_fits {pad : ℕ} (h : pre + pad + types + 12 < 2 ^ 64) :
    ∃ base start, layoutAt pre types pad = .ok (base, start) := by
  have hlen : ulebLen (pre + pad + types) ≤ 10 := ulebLen_le_ten (by omega)
  refine ⟨pre + pad + types, 2 + ulebLen (pre + pad + types) + pre + pad, ?_⟩
  rw [layoutAt, checkedAdd_of_lt (by omega), bind_some, checkedAdd_of_lt (by omega)]
  simp only [expectFits, bind, Except.bind]
  rw [checkedAdd_of_lt (by omega), bind_some, checkedAdd_of_lt (by omega), bind_some,
    checkedAdd_of_lt (by omega)]
  rfl

theorem layoutSearch_ok (fuel first pad base : ℕ)
    (h : layoutSearch pre types fuel first = some (.ok (pad, base))) :
    base = pre + pad + types ∧ (2 + ulebLen base + pre + pad) % 4 = 0 := by
  induction fuel generalizing first pad base with
  | zero => cases h
  | succ fuel ih =>
    rw [layoutSearch] at h
    cases hat : layoutAt pre types first with
    | error e => rw [hat] at h; cases h
    | ok r =>
      obtain ⟨b, start⟩ := r
      obtain ⟨hb, hstart⟩ := layoutAt_ok hat
      simp only [hat] at h
      split at h
      · obtain ⟨rfl, rfl⟩ : first = pad ∧ b = base := by simpa using h
        exact ⟨hb, hstart ▸ ‹_›⟩
      cases hnext : checkedAdd first 1 with
      | none => rw [hnext] at h; cases h
      | some next => rw [hnext] at h; exact ih next pad base h

/-- One of seven paddings aligns the table: the length of the base field changes at most
once among them, so four in a row differ only by the padding itself. -/
theorem exists_aligned_pad (pre types : ℕ) :
    ∃ pad ≤ 6, (2 + ulebLen (pre + pad + types) + pre + pad) % 4 = 0 := by
  have hsame : ∀ first, ulebLen (pre + first + types) = ulebLen (pre + first + types + 3) →
      ∃ pad, pad ≤ first + 3 ∧ (2 + ulebLen (pre + pad + types) + pre + pad) % 4 = 0 := by
    intro first h
    have hbetween : ∀ k ≤ 3,
        ulebLen (pre + (first + k) + types) = ulebLen (pre + first + types) := by
      intro k hk
      have hlow := ulebLen_mono (show pre + first + types ≤ pre + (first + k) + types by omega)
      have hhigh := ulebLen_mono (show pre + (first + k) + types ≤ pre + first + types + 3 by omega)
      omega
    obtain ⟨k, hk, hmod⟩ : ∃ k ≤ 3, (2 + ulebLen (pre + first + types) + pre + first + k) % 4 = 0 :=
      ⟨(4 - (2 + ulebLen (pre + first + types) + pre + first) % 4) % 4, by omega, by omega⟩
    refine ⟨first + k, by omega, ?_⟩
    rw [hbetween k hk]
    omega
  by_cases h : ulebLen (pre + types) = ulebLen (pre + types + 3)
  · obtain ⟨pad, hpad, hmod⟩ := hsame 0 (by simpa using h)
    exact ⟨pad, by omega, hmod⟩
  have hstay := ulebLen_add_six h
  obtain ⟨pad, hpad, hmod⟩ := hsame 3 (by
    rw [show pre + 3 + types = pre + types + 3 by omega, hstay.symm])
  exact ⟨pad, by omega, hmod⟩

/-- One round either ends the search or goes on with the next padding. -/
theorem layoutSearch_round (pre types first : ℕ) :
    (∃ r, (∀ fuel, layoutSearch pre types (fuel + 1) first = some r)
      ∧ (pre + first + types + 12 < 2 ^ 64 → ∃ layout, r = .ok layout))
    ∨ (2 + ulebLen (pre + first + types) + pre + first) % 4 ≠ 0
      ∧ ∀ fuel, layoutSearch pre types (fuel + 1) first
        = layoutSearch pre types fuel (first + 1) := by
  cases hat : layoutAt pre types first with
  | error e =>
    refine .inl ⟨.error e, fun fuel => by rw [layoutSearch, hat], fun hfits => ?_⟩
    obtain ⟨base, start, hok⟩ := layoutAt_of_fits hfits
    rw [hat] at hok
    cases hok
  | ok layout =>
    obtain ⟨base, start⟩ := layout
    obtain ⟨rfl, rfl⟩ := layoutAt_ok hat
    simp only [layoutSearch, hat]
    split_ifs with hmod
    · exact .inl ⟨_, fun _ => rfl, fun _ => ⟨_, rfl⟩⟩
    rw [checkedAdd]
    split_ifs with hfit
    · exact .inr ⟨hmod, fun _ => rfl⟩
    · exact .inl ⟨_, fun _ => rfl, fun _ => by omega⟩

theorem layoutSearch_ends (n first : ℕ)
    (hmod : (2 + ulebLen (pre + (first + n) + types) + pre + (first + n)) % 4 = 0) :
    ∃ r, (∀ fuel, n + 1 ≤ fuel → layoutSearch pre types fuel first = some r)
      ∧ (pre + (first + n) + types + 12 < 2 ^ 64 → ∃ layout, r = .ok layout) := by
  have hpred : ∀ {fuel}, n + 1 ≤ fuel → fuel - 1 + 1 = fuel := by omega
  rcases layoutSearch_round pre types first with ⟨r, hrun, hok⟩ | ⟨hne, hnext⟩
  · refine ⟨r, fun fuel hfuel => ?_, fun hfits => hok (by omega)⟩
    rw [← hrun (fuel - 1), hpred hfuel]
  cases n with
  | zero => exact absurd hmod hne
  | succ n =>
    have hshift : first + 1 + n = first + (n + 1) := by omega
    obtain ⟨r, hrun, hok⟩ := layoutSearch_ends n (first + 1) (by rwa [hshift])
    rw [hshift] at hok
    refine ⟨r, fun fuel hfuel => ?_, hok⟩
    rw [← hrun (fuel - 1) (by omega), ← hnext, hpred hfuel]

/-- **Termination.**  Seven paddings are enough, whatever the sizes; the search returns a
layout whenever the table fits the address space. -/
theorem typeTableLayout_terminates (pre types : ℕ) :
    ∃ r, (∀ fuel, 7 ≤ fuel → typeTableLayout fuel pre types = some r)
      ∧ (pre + types + 18 < 2 ^ 64 → ∃ layout, r = .ok layout) := by
  obtain ⟨pad, hpad, hmod⟩ := exists_aligned_pad pre types
  rw [← Nat.zero_add pad] at hmod
  obtain ⟨r, hrun, hok⟩ := layoutSearch_ends pad 0 hmod
  exact ⟨r, fun fuel hfuel => hrun fuel (by omega), fun hfits => hok (by omega)⟩

end Layout

/-! ## Reading the tables back -/

/-- The row a call site is written as. -/
def CallSiteEntry.row (cs : CallSiteEntry) : LsdaSite :=
  ⟨cs.regionStart.toNat, cs.regionLength.toNat, cs.landingPad.toNat, cs.actionIdx.toNat⟩

section

variable (cs : CallSiteEntry) (rest : List CallSiteEntry)

theorem emitCallSiteTable_cons :
    emitCallSiteTable (cs :: rest) .uleb128 =
      encodeUleb cs.regionStart.toNat ++ (encodeUleb cs.regionLength.toNat
        ++ (encodeUleb cs.landingPad.toNat ++ (encodeUleb cs.actionIdx.toNat
        ++ emitCallSiteTable rest .uleb128))) := by
  simp [emitCallSiteTable]

theorem decodeSite_emit :
    decodeSite (emitCallSiteTable (cs :: rest) .uleb128)
      = some (cs.row, emitCallSiteTable rest .uleb128) := by
  rw [emitCallSiteTable_cons, decodeSite]
  simp only [decodeUleb_encodeUleb, bind_eq_bind, bind_some]
  rfl

end

theorem decodeSites_emit (sites : List CallSiteEntry) (fuel : ℕ) (hfuel : sites.length ≤ fuel) :
    decodeSites fuel (emitCallSiteTable sites .uleb128) = some (sites.map CallSiteEntry.row) := by
  induction sites generalizing fuel with
  | nil => cases fuel <;> rfl
  | cons cs rest ih =>
    obtain ⟨f, rfl⟩ : ∃ f, fuel = f + 1 := ⟨fuel - 1, by simp at hfuel; omega⟩
    have hne : (emitCallSiteTable (cs :: rest) .uleb128).isEmpty = false := by
      rw [emitCallSiteTable_cons, isEmpty_eq_false_iff]
      exact append_ne_nil_of_left_ne_nil (encodeUleb_ne_nil _) _
    rw [decodeSites, hne, if_neg Bool.false_ne_true, decodeSite_emit]
    dsimp only [bind_eq_bind, bind_some]
    rw [ih f (by simpa using hfuel)]
    rfl

theorem length_le_emitCallSiteTable (sites : List CallSiteEntry) :
    sites.length ≤ (emitCallSiteTable sites .uleb128).length := by
  induction sites with
  | nil => exact Nat.le_refl _
  | cons cs rest ih =>
    have hne : 0 < (encodeUleb cs.regionStart.toNat).length :=
      length_pos_iff.mpr (encodeUleb_ne_nil _)
    rw [emitCallSiteTable_cons]
    simp only [length_append, length_cons]
    omega

theorem decodeTables_emit (base : Option ℕ) (sites : List CallSiteEntry) (rest : List UInt8) :
    decodeTables base (DwEhPe.uleb128.code :: (encodeUleb (emitCallSiteTable sites .uleb128).length
        ++ (emitCallSiteTable sites .uleb128 ++ rest)))
      = some ⟨sites.map CallSiteEntry.row, rest, base⟩ := by
  have hcode : DwEhPe.uleb128.code = 0x01 := rfl
  rw [decodeTables, if_pos hcode, decodeUleb_encodeUleb]
  dsimp only [bind_eq_bind, bind_some]
  rw [take_left, drop_left, decodeSites_emit sites _ (length_le_emitCallSiteTable sites)]
  rfl

theorem omit_code : DwEhPe.omit.code = 0xFF := rfl

theorem decodeLsda_omitted (sites : List CallSiteEntry) (rest : List UInt8) :
    decodeLsda (DwEhPe.omit.code :: DwEhPe.omit.code :: DwEhPe.uleb128.code ::
      (encodeUleb (emitCallSiteTable sites .uleb128).length
        ++ (emitCallSiteTable sites .uleb128 ++ rest)))
      = some ⟨sites.map CallSiteEntry.row, rest, none⟩ := by
  rw [decodeLsda, if_pos omit_code, decodeTTypeBase, if_pos omit_code]
  exact decodeTables_emit none sites rest

/-- A header with one: the base counts from the end of its own field. -/
theorem decodeLsda_based (base : ℕ) (sites : List CallSiteEntry) (rest : List UInt8) :
    decodeLsda (DwEhPe.omit.code :: 0x9b :: (encodeUleb base ++ DwEhPe.uleb128.code ::
      (encodeUleb (emitCallSiteTable sites .uleb128).length
        ++ (emitCallSiteTable sites .uleb128 ++ rest))))
      = some ⟨sites.map CallSiteEntry.row, rest, some (2 + ulebLen base + base)⟩ := by
  rw [decodeLsda, if_pos omit_code, decodeTTypeBase, if_neg (by decide), if_pos rfl,
    decodeUleb_encodeUleb, length_append, length_encodeUleb]
  dsimp only [bind_eq_bind, bind_some, Option.pure_def]
  rw [decodeTables_emit, Option.some.injEq, Lsda.mk.injEq]
  exact ⟨rfl, rfl, by congr 1; omega⟩

theorem actionAt_append (before after : List UInt8) (a : ActionEntry) :
    actionAt (before ++ (encodeSleb a.typeFilter ++ (encodeSleb a.nextActionOffset ++ after)))
      before.length = some ⟨a.typeFilter, before.length + slebLen a.typeFilter,
        a.nextActionOffset⟩ := by
  rw [actionAt, drop_left, decodeSleb_encodeSleb]
  dsimp only [bind_eq_bind, bind_some]
  rw [decodeSleb_encodeSleb]
  rw [← length_encodeSleb]
  simp only [length_append]
  rw [show before.length + ((encodeSleb a.typeFilter).length
      + ((encodeSleb a.nextActionOffset).length + after.length))
      - ((encodeSleb a.nextActionOffset).length + after.length)
      = before.length + (encodeSleb a.typeFilter).length by omega]
  rfl

theorem emitActionTable_cons (a : ActionEntry) (rest : List ActionEntry) :
    emitActionTable (a :: rest)
      = encodeSleb a.typeFilter ++ (encodeSleb a.nextActionOffset ++ emitActionTable rest) := by
  simp [emitActionTable]

theorem emitActionTable_append (as bs : List ActionEntry) :
    emitActionTable (as ++ bs) = emitActionTable as ++ emitActionTable bs :=
  flatMap_append

theorem length_emitTypeTable (typeInfos : List TypeInfo) :
    (emitTypeTable typeInfos).length = 4 * typeInfos.length := by
  rw [emitTypeTable, length_flatMap]
  simp [Nat.mul_comm]

/-- **The type table.**  With the base at the end of the table, an index counts backwards
to the entry given for it. -/
theorem readLe_typeTable {typeInfos : List TypeInfo} {k : ℕ} {ti : TypeInfo}
    (h : typeInfos[k]? = some ti) (before : List UInt8) :
    4 * (k + 1) ≤ (before ++ emitTypeTable typeInfos).length
    ∧ readLe 4 (before ++ emitTypeTable typeInfos)
        ((before ++ emitTypeTable typeInfos).length - 4 * (k + 1))
      = some ti.typeInfoIndex.toNat := by
  obtain ⟨hk, hti⟩ := List.getElem?_eq_some_iff.mp h
  obtain ⟨front, back, rfl, rfl⟩ : ∃ front back, typeInfos = front ++ ti :: back
      ∧ front.length = k := by
    refine ⟨typeInfos.take k, typeInfos.drop (k + 1), ?_, length_take_of_le (by omega)⟩
    rw [← hti, ← drop_eq_getElem_cons hk, take_append_drop]
  have hemit : emitTypeTable (front ++ ti :: back)
      = emitTypeTable back ++ (leBytes 4 ti.typeInfoIndex.toNat ++ emitTypeTable front) := by
    simp [emitTypeTable]
  have hlen : (before ++ emitTypeTable (front ++ ti :: back)).length - 4 * (front.length + 1)
      = (before ++ emitTypeTable back).length := by
    simp only [length_append, length_emitTypeTable, length_cons]
    omega
  refine ⟨by rw [length_append, length_emitTypeTable]; omega, ?_⟩
  rw [hlen, hemit, ← append_assoc, ← append_assoc]
  exact readLe_append (UInt32.toNat_lt _) _ _

/-- **The tables read back.**  `d` is what the bytes decode to: the rows are the call
sites, an action record is read with its filter and displacement at the offset where it
was written, an index of the type table gives the type in that place, and the table
starts at a multiple of four. -/
structure ReadsTable (table : ExceptionTable) (bytes : List UInt8) (d : Lsda) : Prop where
  decodes : decodeLsda bytes = some d
  sites : d.sites = table.callSites.map CallSiteEntry.row
  actions : ∀ front a back, table.actions = front ++ a :: back →
    actionAt d.actionTable (emitActionTable front).length
      = some ⟨a.typeFilter, (emitActionTable front).length + slebLen a.typeFilter,
          a.nextActionOffset⟩
  types : ∀ (k : ℕ) ti, table.typeInfos[k]? = some ti →
    d.typeAt bytes (k + 1) = some ti.typeInfoIndex.toNat
  aligned : ∀ base, d.ttypeBase = some base →
    ∃ start, base = start + 4 * table.typeInfos.length ∧ start % 4 = 0

variable {a : ActionEntry}

theorem actionAt_emit {actions front back : List ActionEntry} (h : actions = front ++ a :: back)
    (tail : List UInt8) :
    actionAt (emitActionTable actions ++ tail) (emitActionTable front).length
      = some ⟨a.typeFilter, (emitActionTable front).length + slebLen a.typeFilter,
          a.nextActionOffset⟩ := by
  rw [h, emitActionTable_append, emitActionTable_cons]
  simp only [append_assoc]
  exact actionAt_append _ _ a

variable {table : ExceptionTable}

/-- **Writing, then reading.** -/
theorem generateLsda_reads {fuel : ℕ} (h : generateLsda fuel table = some (.ok bytes)) :
    ∃ d tail, ReadsTable table bytes d ∧ d.actionTable = emitActionTable table.actions ++ tail := by
  rw [generateLsda] at h
  by_cases hempty : table.typeInfos.isEmpty
  · -- without types the header has no base and nothing follows the actions
    rw [if_pos hempty] at h
    obtain rfl := Except.ok.inj (Option.some.inj h)
    have hnil : table.typeInfos = [] := isEmpty_iff.mp hempty
    refine ⟨⟨table.callSites.map CallSiteEntry.row, emitActionTable table.actions, none⟩, [],
      ⟨?_, rfl, fun front a back ha => ?_, fun k ti hti => ?_, fun base hbase => ?_⟩,
      (append_nil _).symm⟩
    · rw [append_assoc]
      exact decodeLsda_omitted table.callSites _
    · simpa using actionAt_emit ha []
    · rw [hnil] at hti
      cases hti
    · cases hbase
  rw [if_neg hempty] at h
  obtain ⟨layout, hlayout, hbytes⟩ := Option.map_eq_some_iff.mp h
  obtain ⟨⟨pad, base⟩, rfl, hbytes⟩ := Outcome.bind_eq_ok.mp hbytes
  obtain ⟨hbase, hmod⟩ := layoutSearch_ok _ _ _ _ hlayout
  have hbytes := Except.ok.inj hbytes
  -- the base is the length of what follows its field, so it ends the type table
  set before := DwEhPe.omit.code :: 0x9b :: (encodeUleb base ++ DwEhPe.uleb128.code ::
    (encodeUleb (emitCallSiteTable table.callSites .uleb128).length
      ++ emitCallSiteTable table.callSites .uleb128 ++ emitActionTable table.actions
      ++ List.replicate pad 0)) with hbefore
  have hsplit : bytes = before ++ emitTypeTable table.typeInfos := by
    rw [← hbytes, hbefore]
    simp
  have hend : 2 + ulebLen base + base = (before ++ emitTypeTable table.typeInfos).length := by
    rw [length_append, hbefore]
    simp only [length_cons, length_append, length_replicate, length_encodeUleb]
    rw [length_encodeUleb] at hbase
    omega
  refine ⟨⟨table.callSites.map CallSiteEntry.row,
    emitActionTable table.actions ++ (List.replicate pad 0 ++ emitTypeTable table.typeInfos),
    some (2 + ulebLen base + base)⟩, _,
    ⟨?_, rfl, fun front a back ha => actionAt_emit ha _, fun k ti hti => ?_, ?_⟩, rfl⟩
  · have happ := decodeLsda_based base table.callSites
      (emitActionTable table.actions ++ (List.replicate pad 0 ++ emitTypeTable table.typeInfos))
    rw [← happ, ← hbytes]
    simp only [append_assoc]
  · obtain ⟨hle, hread⟩ := readLe_typeTable hti before
    simp only [Lsda.typeAt, bind_eq_bind, bind_some]
    rw [hsplit, hend, if_pos hle, hread]
  intro b hb
  cases hb
  refine ⟨before.length, by rw [hend, length_append, length_emitTypeTable], ?_⟩
  rw [length_append, length_emitTypeTable] at hend
  rw [length_emitTypeTable] at hbase
  omega

/-! ## Chains of action records -/

/-- The records of a chain: each but the last leads to the record right after it. -/
def linked : List ℤ → List ActionEntry
  | [] => []
  | f :: fs => ⟨f, if fs.isEmpty then 0 else 1⟩ :: linked fs

theorem linked_concat (fs : List ℤ) (f : ℤ) : linked (fs ++ [f]) = fs.map (⟨·, 1⟩) ++ [⟨f, 0⟩] := by
  induction fs with
  | nil => rfl
  | cons g fs ih =>
    rw [cons_append, linked, ih]
    simp

/-- **Chains.**  Reading from the first record of a chain gives its filters. -/
theorem chainFrom_linked (filters : List ℤ) (before after : List UInt8) (fuel : ℕ)
    (hne : filters ≠ []) :
    filters.length ≤ fuel →
      chainFrom (before ++ (emitActionTable (linked filters) ++ after)) fuel before.length
        = some filters := by
  induction filters generalizing before after fuel with
  | nil => exact absurd rfl hne
  | cons f fs ih =>
    intro hfuel
    obtain ⟨fuel, rfl⟩ : ∃ n, fuel = n + 1 := ⟨fuel - 1, by simp at hfuel; omega⟩
    have hrecord := actionAt_append before (emitActionTable (linked fs) ++ after)
      ⟨f, if fs.isEmpty then 0 else 1⟩
    rw [linked, emitActionTable_cons]
    simp only [append_assoc]
    rw [chainFrom, hrecord]
    dsimp only [bind_eq_bind, bind_some]
    cases fs with
    | nil => rfl
    | cons g fs =>
      -- the displacement takes one byte, so the next record starts one byte after its field
      have hnext := ih (before ++ (encodeSleb f ++ encodeSleb 1)) after fuel
        (cons_ne_nil g fs) (by simpa using hfuel)
      have hpos : (before ++ (encodeSleb f ++ encodeSleb 1)).length
          = (((before.length + slebLen f : ℕ) : ℤ) + 1).toNat := by
        rw [length_append, length_append, length_encodeSleb]
        have hone : (encodeSleb 1).length = 1 := rfl
        omega
      rw [hpos] at hnext
      simp only [append_assoc] at hnext
      rw [if_neg (by simp), if_neg (by simp; omega)]
      simp only [isEmpty_cons, Bool.false_eq_true, if_false]
      rw [hnext]
      rfl

theorem length_le_emitActionTable (actions : List ActionEntry) :
    actions.length ≤ (emitActionTable actions).length := by
  induction actions with
  | nil => exact Nat.le_refl _
  | cons a rest ih =>
    have hpos : 0 < (encodeSleb a.typeFilter).length := length_pos_iff.mpr (encodeSleb_ne_nil _)
    rw [emitActionTable_cons, length_append, length_append, length_cons]
    omega

@[simp] theorem length_linked (fs : List ℤ) : (linked fs).length = fs.length := by
  induction fs with
  | nil => rfl
  | cons f fs ih => rw [linked, length_cons, ih, length_cons]

end TrustCg.Codegen
