import Mathlib.Data.List.Nodup
import TrustCg.Codegen.LsdaRead

/-!
# The data area of the landing pads

* `generateLsdaFromPads_decodes` : what is written reads back as the pads with their
  handlers in order.
-/

namespace TrustCg.Codegen

open Leb128 LittleEndian List

variable {bytes : List UInt8} {slotOf : List (UInt32 × ℤ)} {firstAction : List (UInt32 × UInt32)}
  {ranges : List (UInt32 × UInt32 × UInt32)} {table : ExceptionTable}

/-! ## What the builder makes of the pads -/

/-- The filters of a pad: the slots of its types in order, then cleanup when requested. -/
def LandingPadDesc.filters (slotOf : List (UInt32 × ℤ)) (lp : LandingPadDesc) : List ℤ :=
  lp.catchTypeIndices.map (fun ti => (slotOf.lookup ti).getD 0)
    ++ if lp.isCleanup then [0] else []

/-- The records of a pad; a pad that only cleans up has none. -/
def LandingPadDesc.chain (slotOf : List (UInt32 × ℤ)) (lp : LandingPadDesc) : List ActionEntry :=
  if lp.catchTypeIndices.isEmpty then [] else linked (lp.filters slotOf)

variable {lp : LandingPadDesc}

theorem checkPad_ok {index : ℕ} {seen : List UInt32} (h : checkPad index seen lp = .ok ()) :
    lp.landingPadOffset ≠ 0 ∧ lp.landingPadOffset ∉ seen
      ∧ (lp.catchTypeIndices = [] → lp.isCleanup = true) := by
  unfold checkPad at h
  split_ifs at h with hzero hseen hempty
  refine ⟨hzero, hseen, fun hnil => ?_⟩
  simpa [hnil] using hempty

theorem checkPads_ok (pads : List LandingPadDesc) (index : ℕ) (seen offsets : List UInt32)
    (h : checkPads index seen pads = .ok offsets) :
    (∀ o ∈ seen, o ∈ offsets)
      ∧ (∀ lp ∈ pads, lp.landingPadOffset ≠ 0 ∧ lp.landingPadOffset ∈ offsets
        ∧ lp.landingPadOffset ∉ seen ∧ (lp.catchTypeIndices = [] → lp.isCleanup = true))
      ∧ (pads.map LandingPadDesc.landingPadOffset).Nodup := by
  induction pads generalizing index seen offsets with
  | nil =>
    cases h
    exact ⟨fun _ h => h, by simp, nodup_nil⟩
  | cons lp pads ih =>
    rw [checkPads] at h
    split at h
    · cases h
    rename_i hpad
    obtain ⟨hne, hnew, hcleanup⟩ := checkPad_ok hpad
    obtain ⟨hseen, hall, hnodup⟩ := ih _ _ _ h
    refine ⟨fun o ho => hseen o (.tail _ ho), ?_, ?_⟩
    · intro p hp
      rcases mem_cons.mp hp with rfl | hp
      · exact ⟨hne, hseen _ mem_cons_self, hnew, hcleanup⟩
      obtain ⟨h1, h2, h3, h4⟩ := hall p hp
      exact ⟨h1, h2, fun hmem => h3 (.tail _ hmem), h4⟩
    rw [map_cons, nodup_cons]
    refine ⟨fun hmem => ?_, hnodup⟩
    obtain ⟨p, hp, heq⟩ := mem_map.mp hmem
    exact (hall p hp).2.2.1 (heq ▸ mem_cons_self)

/-- Every slot that was given out names its place in the type table. -/
def TypeSlots.Sound (st : TypeSlots) : Prop :=
  ∀ ti slot, st.slotOf.lookup ti = some slot → ∃ k : ℕ, slot = k + 1 ∧ st.typeInfos[k]? = some ⟨ti⟩

/-- A type has a slot. -/
def TypeSlots.Has (st : TypeSlots) (ti : UInt32) : Prop := ∃ slot, st.slotOf.lookup ti = some slot

theorem TypeSlots.add_ok {st st' : TypeSlots} {ti : UInt32} (h : st.add ti = .ok st')
    (hs : st.Sound) : st'.Sound ∧ st'.Has ti ∧ ∀ t, st.Has t → st'.Has t := by
  -- the catch-all entry is the entry of type 0, so the type itself is added either way
  have hentry : (if ti = 0 then TypeInfo.catchAll else ⟨ti⟩) = (⟨ti⟩ : TypeInfo) := by
    split
    next hzero => rw [hzero, TypeInfo.catchAll]
    · rfl
  unfold TypeSlots.add at h
  split at h
  next slot hslot =>
    cases h
    exact ⟨hs, ⟨slot, hslot⟩, fun _ h => h⟩
  rw [hentry] at h
  dsimp only at h
  split at h
  · cases h
    refine ⟨fun t slot hslot => ?_, ⟨_, lookup_cons_self⟩, fun t ht => ?_⟩
    · rw [lookup_cons] at hslot
      split at hslot
      next heq =>
        obtain rfl : t = ti := by simpa using heq
        refine ⟨st.typeInfos.length, ?_, ?_⟩
        · simpa using (Option.some.inj hslot).symm
        · exact getElem?_concat_length
      · obtain ⟨k, hk, htype⟩ := hs t slot hslot
        refine ⟨k, hk, ?_⟩
        rw [List.getElem?_append_left (List.getElem?_eq_some_iff.mp htype).1, htype]
    obtain ⟨slot, hslot⟩ := ht
    unfold TypeSlots.Has
    rw [lookup_cons]
    split
    · exact ⟨_, rfl⟩
    · exact ⟨slot, hslot⟩
  · cases h

theorem foldlM_add_ok {tis : List UInt32} {st st' : TypeSlots} (hs : st.Sound)
    (h : tis.foldlM TypeSlots.add st = .ok st') :
    st'.Sound ∧ (∀ ti ∈ tis, st'.Has ti) ∧ ∀ t, st.Has t → st'.Has t := by
  refine Outcome.foldlM_invariant (fun done s => TypeSlots.Sound s
    ∧ (∀ ti ∈ done, TypeSlots.Has s ti) ∧ ∀ t, st.Has t → TypeSlots.Has s t) ?_
    ⟨hs, by simp, fun _ h => h⟩ h
  intro done ti rest s s' _ ⟨hsound, hdone, hold⟩ hadd
  obtain ⟨hsound', hti, hkeep⟩ := TypeSlots.add_ok hadd hsound
  refine ⟨hsound', fun t ht => ?_, fun t ht => hkeep t (hold t ht)⟩
  rcases mem_append.mp ht with ht | ht
  · exact hkeep t (hdone t ht)
  · exact mem_singleton.mp ht ▸ hti

variable {pads : List LandingPadDesc}

theorem collectTypes_ok {types : TypeSlots} (h : collectTypes pads = .ok types) :
    types.Sound ∧ ∀ lp ∈ pads, ∀ ti ∈ lp.catchTypeIndices, types.Has ti := by
  refine Outcome.foldlM_invariant (fun done st => TypeSlots.Sound st
    ∧ ∀ lp ∈ done, ∀ ti ∈ lp.catchTypeIndices, TypeSlots.Has st ti) ?_
    ⟨fun ti slot hslot => by simp at hslot, by simp⟩ h
  intro done lp rest st st' _ ⟨hsound, hdone⟩ hrun
  obtain ⟨hsound', hnew, hold⟩ := foldlM_add_ok hsound hrun
  refine ⟨hsound', fun p hp ti hti => ?_⟩
  rcases mem_append.mp hp with hp | hp
  · exact hold ti (hdone p hp ti hti)
  · exact hnew ti (mem_singleton.mp hp ▸ hti)

/-! ## The action table of the pads -/

variable {st st' : ActionState}

theorem ActionState.push_ok {width : ℕ} (h : st.push a width = .ok st') :
    st' = ⟨st.actions ++ [a], st.actionTableLen + width + 1, st.firstAction⟩ := by
  unfold ActionState.push at h
  split at h
  next len hlen =>
    obtain ⟨x, hx, hlen⟩ := Option.bind_eq_some_iff.mp hlen
    have hx := checkedAdd_eq_some hx
    have hlen := checkedAdd_eq_some hlen
    rw [← Except.ok.inj h, hlen, hx]
  · cases h

/-- The state after a few more records of known serialised length. -/
structure ActionState.Extends (st : ActionState) (as : List ActionEntry) (st' : ActionState) :
    Prop where
  actions : st'.actions = st.actions ++ as
  actionTableLen : st'.actionTableLen = st.actionTableLen + (emitActionTable as).length
  firstAction : st'.firstAction = st.firstAction

theorem ActionState.Extends.push {st'' : ActionState} {as : List ActionEntry}
    (hext : st.Extends as st') (h : st'.push a (slebLen a.typeFilter) = .ok st'')
    (hnext : slebLen a.nextActionOffset = 1) : st.Extends (as ++ [a]) st'' := by
  obtain rfl := ActionState.push_ok h
  refine ⟨by rw [hext.actions, append_assoc], ?_, hext.firstAction⟩
  have hone : (emitActionTable [a]).length = slebLen a.typeFilter + 1 := by
    rw [emitActionTable_cons, length_append, length_append, length_encodeSleb,
      length_encodeSleb, hnext]
    rfl
  have hlen := hext.actionTableLen
  rw [emitActionTable_append, length_append, hone]
  dsimp only
  omega

/-- The record of a catch type at a position of the pad. -/
def LandingPadDesc.catchRecord (slotOf : List (UInt32 × ℤ)) (lp : LandingPadDesc)
    (c : UInt32 × ℕ) : ActionEntry :=
  ⟨(slotOf.lookup c.1).getD 0,
    if c.2 == lp.catchTypeIndices.length - 1 && !lp.isCleanup then 0 else 1⟩

theorem pushCatches_ok
    (h : lp.catchTypeIndices.zipIdx.foldlM (ActionState.pushCatch slotOf lp) st = .ok st') :
    st.Extends (lp.catchTypeIndices.zipIdx.map (lp.catchRecord slotOf)) st' := by
  refine Outcome.foldlM_invariant
    (fun done s => st.Extends (done.map (lp.catchRecord slotOf)) s) ?_
    ⟨(append_nil _).symm, rfl, rfl⟩ h
  intro done c rest s s' _ hext hpush
  unfold ActionState.pushCatch at hpush
  split at hpush
  · cases hpush
  rename_i slot hslot
  have hrecord : lp.catchRecord slotOf c
      = ⟨slot, if c.2 == lp.catchTypeIndices.length - 1 && !lp.isCleanup then 0 else 1⟩ := by
    rw [LandingPadDesc.catchRecord, hslot, Option.getD_some]
  rw [map_append, map_singleton, hrecord]
  refine hext.push hpush ?_
  split <;> rfl

theorem catchRecords_eq_chain (slotOf : List (UInt32 × ℤ)) (lp : LandingPadDesc)
    (hne : lp.catchTypeIndices ≠ []) :
    lp.catchTypeIndices.zipIdx.map (lp.catchRecord slotOf)
        ++ (if lp.isCleanup then [⟨0, 0⟩] else [])
      = lp.chain slotOf := by
  rcases eq_nil_or_concat' lp.catchTypeIndices with hnil | ⟨front, last, hsplit⟩
  · exact absurd hnil hne
  have hfront : front.zipIdx.map (lp.catchRecord slotOf)
      = front.map fun ti => ⟨(slotOf.lookup ti).getD 0, 1⟩ := by
    rw [show (front.map fun ti => (⟨(slotOf.lookup ti).getD 0, 1⟩ : ActionEntry))
      = (front.zipIdx.map Prod.fst).map fun ti => ⟨(slotOf.lookup ti).getD 0, 1⟩ by
        rw [zipIdx_map_fst], map_map]
    refine map_congr_left fun c hc => ?_
    have hlt : c.2 < front.length := by
      have := mem_zipIdx hc
      omega
    have hlast : (c.2 == lp.catchTypeIndices.length - 1) = false := by
      rw [hsplit, beq_eq_false_iff_ne, length_append, length_singleton]
      omega
    rw [LandingPadDesc.catchRecord, hlast]
    rfl
  have hlast : lp.catchRecord slotOf (last, front.length)
      = ⟨(slotOf.lookup last).getD 0, if lp.isCleanup then 1 else 0⟩ := by
    rw [LandingPadDesc.catchRecord, hsplit]
    cases lp.isCleanup <;> simp
  have hsome : ¬ lp.catchTypeIndices.isEmpty := by simpa using hne
  rw [LandingPadDesc.chain, if_neg hsome, LandingPadDesc.filters, hsplit,
    zipIdx_append, map_append, hfront, map_append, map_singleton]
  cases hc : lp.isCleanup with
  | false =>
    rw [hc] at hlast
    simp only [zipIdx_singleton, map_singleton, Nat.zero_add, hlast,
      Bool.false_eq_true, if_false, append_nil]
    rw [linked_concat, map_map]
    rfl
  | true =>
    rw [hc] at hlast
    simp only [zipIdx_singleton, map_singleton, Nat.zero_add, hlast, if_true]
    rw [linked_concat, map_append, map_map]
    rfl

theorem ActionState.pushPad_ok (hvalid : lp.catchTypeIndices = [] → lp.isCleanup = true)
    (h : st.pushPad slotOf lp = .ok st') : ∃ action,
      st'.actions = st.actions ++ lp.chain slotOf
      ∧ st'.actionTableLen = st.actionTableLen + (emitActionTable (lp.chain slotOf)).length
      ∧ st'.firstAction = (lp.landingPadOffset, action) :: st.firstAction
      ∧ ((lp.catchTypeIndices = [] ∧ action = 0)
        ∨ (lp.catchTypeIndices ≠ [] ∧ action.toNat = st.actionTableLen + 1)) := by
  unfold ActionState.pushPad at h
  by_cases hnil : lp.catchTypeIndices = []
  · rw [if_pos (by simp [hnil, hvalid hnil])] at h
    cases h
    have hchain : lp.chain slotOf = [] := by rw [LandingPadDesc.chain, hnil]; rfl
    exact ⟨0, by rw [hchain, append_nil], by rw [hchain]; rfl, rfl, .inl ⟨hnil, rfl⟩⟩
  have hsome : lp.catchTypeIndices.isEmpty = false := isEmpty_eq_false_iff.mpr hnil
  rw [if_neg (by simp [hsome])] at h
  split at h
  next hfits =>
    obtain ⟨mid, hmid, h⟩ := Outcome.bind_eq_ok.mp h
    obtain ⟨last, hlast, h⟩ := Outcome.bind_eq_ok.mp h
    have hext : st.Extends (lp.chain slotOf) last := by
      have hcatches := pushCatches_ok hmid
      rw [← catchRecords_eq_chain slotOf lp hnil]
      rw [ActionState.pushCleanup, hsome] at hlast
      cases hc : lp.isCleanup with
      | false =>
        simp only [hc] at hlast
        cases hlast
        simpa using hcatches
      | true =>
        simp only [hc] at hlast
        exact hcatches.push hlast rfl
    cases h
    exact ⟨_, hext.actions, hext.actionTableLen, by rw [hext.firstAction],
      .inr ⟨hnil, UInt32.toNat_ofNat_of_lt' hfits⟩⟩
  · cases h

/-- **The chains.**  The records of the pads stand in order, and the number kept for a pad
is where its chain starts, counted from one. -/
structure ChainsOk (slotOf : List (UInt32 × ℤ)) (done : List LandingPadDesc) (st : ActionState) :
    Prop where
  actions : st.actions = done.flatMap (·.chain slotOf)
  actionTableLen : st.actionTableLen = (emitActionTable st.actions).length
  firstAction : ∀ offset action, st.firstAction.lookup offset = some action →
    ∃ front lp back, done = front ++ lp :: back ∧ lp.landingPadOffset = offset
      ∧ ((lp.catchTypeIndices = [] ∧ action = 0)
        ∨ (lp.catchTypeIndices ≠ [] ∧ action.toNat
          = (emitActionTable (front.flatMap (·.chain slotOf))).length + 1))

variable {done : List LandingPadDesc}

theorem ChainsOk.pushPad (hst : ChainsOk slotOf done st)
    (hvalid : lp.catchTypeIndices = [] → lp.isCleanup = true) (h : st.pushPad slotOf lp = .ok st') :
    ChainsOk slotOf (done ++ [lp]) st' := by
  obtain ⟨new, hacts, hlen, hfirst, hnew⟩ := ActionState.pushPad_ok hvalid h
  refine ⟨?_, ?_, fun offset action hlook => ?_⟩
  · rw [hacts, flatMap_append, flatMap_singleton, hst.actions]
  · rw [hlen, hacts, emitActionTable_append, length_append, hst.actionTableLen]
  rw [hfirst, lookup_cons] at hlook
  split at hlook
  next heq =>
    cases hlook
    rw [hst.actionTableLen, hst.actions] at hnew
    exact ⟨done, lp, [], rfl, (by simpa using heq : offset = _).symm, hnew⟩
  · obtain ⟨front, p, back, hdone, hoff, haction⟩ := hst.firstAction offset action hlook
    exact ⟨front, p, back ++ [lp], by rw [hdone]; simp, hoff, haction⟩

theorem pushPads_ok (hvalid : ∀ lp ∈ pads, lp.catchTypeIndices = [] → lp.isCleanup = true)
    (h : pads.foldlM (ActionState.pushPad slotOf) ⟨[], 0, []⟩ = .ok st) :
    ChainsOk slotOf pads st := by
  refine Outcome.foldlM_invariant (ChainsOk slotOf) ?_ ⟨rfl, rfl, ?_⟩ h
  · intro done lp rest s s' hl hs hpush
    exact hs.pushPad (hvalid lp (by simp [hl])) hpush
  intro offset action hlook
  simp at hlook

/-! ## The call-site table of the ranges -/

/-- **The rows.**  Every range has its row; a row without a landing pad has no action, and
one with a landing pad has the action kept for it. -/
structure SitesOk (firstAction : List (UInt32 × UInt32))
    (done : List ((UInt32 × UInt32 × UInt32) × ℕ)) (st : SiteState) : Prop where
  ranges : st.callSites.map (fun cs => (cs.regionStart, cs.regionLength, cs.landingPad))
    = done.map Prod.fst
  actions : ∀ cs ∈ st.callSites, (cs.landingPad = 0 ∧ cs.actionIdx = 0)
    ∨ (cs.landingPad ≠ 0 ∧ firstAction.lookup cs.landingPad = some cs.actionIdx)
  referenced : ∀ o ∈ st.referenced, ∃ cs ∈ st.callSites, cs.landingPad = o

section

variable {done : List ((UInt32 × UInt32 × UInt32) × ℕ)} {st st' : SiteState}
    (hst : SitesOk firstAction done st)
include hst

variable {range : (UInt32 × UInt32 × UInt32) × ℕ}

theorem SitesOk.snoc {cs : CallSiteEntry} (hsites : st'.callSites = st.callSites ++ [cs])
    (hrange : (cs.regionStart, cs.regionLength, cs.landingPad) = range.1)
    (haction : (cs.landingPad = 0 ∧ cs.actionIdx = 0)
      ∨ (cs.landingPad ≠ 0 ∧ firstAction.lookup cs.landingPad = some cs.actionIdx))
    (href : ∀ o ∈ st'.referenced, o = cs.landingPad ∨ o ∈ st.referenced) :
    SitesOk firstAction (done ++ [range]) st' := by
  refine ⟨?_, fun c hc => ?_, fun o ho => ?_⟩
  · rw [hsites, map_append, map_append, hst.ranges, map_singleton, map_singleton, hrange]
  · rw [hsites] at hc
    rcases mem_append.mp hc with hc | hc
    · exact hst.actions c hc
    · exact mem_singleton.mp hc ▸ haction
  rw [hsites]
  rcases href o ho with rfl | ho
  · exact ⟨cs, by simp, rfl⟩
  obtain ⟨c, hc, hpad⟩ := hst.referenced o ho
  exact ⟨c, mem_append_left _ hc, hpad⟩

theorem SitesOk.push (h : st.push firstAction range = .ok st') :
    SitesOk firstAction (done ++ [range]) st' := by
  obtain ⟨⟨start, length, lpOffset⟩, index⟩ := range
  unfold SiteState.push at h
  dsimp only at h
  split_ifs at h with hlen hover horder hzero
  · cases h
    exact hst.snoc rfl rfl (.inl ⟨hzero, rfl⟩) fun o ho => .inr ho
  split at h
  · cases h
  next action haction =>
    cases h
    exact hst.snoc rfl rfl (.inr ⟨hzero, haction⟩) fun o ho => mem_cons.mp ho

end

theorem pushSites_ok {st : SiteState}
    (h : ranges.zipIdx.foldlM (SiteState.push firstAction) ⟨0, [], []⟩ = .ok st) :
    SitesOk firstAction ranges.zipIdx st := by
  refine Outcome.foldlM_invariant (SitesOk firstAction) ?_ ⟨rfl, by simp, by simp⟩ h
  intro done range rest s s' _ hs hpush
  exact hs.push hpush

/-! ## The data area of the pads -/

/-- The handlers a pad asks for. -/
def LandingPadDesc.handlers (lp : LandingPadDesc) : List Handler :=
  lp.catchTypeIndices.map (fun ti => .catchType ti.toNat)
    ++ if lp.isCleanup then [.cleanup] else []

/-- **The pads read back.**  `d` is what the bytes decode to: its rows are the ranges with
their landing pads, a row without a landing pad has no handler, the rows of a pad have
the types it catches in order and then its cleanup, every pad has a row, and the entries
of the type table lie at multiples of four. -/
structure ReadsPads (pads : List LandingPadDesc) (ranges : List (UInt32 × UInt32 × UInt32))
    (bytes : List UInt8) (d : Lsda) : Prop where
  decodes : decodeLsda bytes = some d
  ranges : d.sites.map (fun s => (s.start, s.length, s.landingPad))
    = ranges.map fun r => (r.1.toNat, r.2.1.toNat, r.2.2.toNat)
  unhandled : ∀ site ∈ d.sites, site.landingPad = 0 → d.handlers bytes site = some []
  known : ∀ site ∈ d.sites, site.landingPad ≠ 0 →
    ∃ lp ∈ pads, lp.landingPadOffset.toNat = site.landingPad
  handled : ∀ lp ∈ pads, ∀ site ∈ d.sites, site.landingPad = lp.landingPadOffset.toNat →
    d.handlers bytes site = some lp.handlers
  referenced : ∀ lp ∈ pads, ∃ site ∈ d.sites, site.landingPad = lp.landingPadOffset.toNat
  aligned : ∀ base, d.ttypeBase = some base → base % 4 = 0

variable {personality : String}

theorem buildExceptionTableFromPads_ok
    (h : buildExceptionTableFromPads personality pads ranges = .ok table) :
    ∃ (offsets : List UInt32) (types : TypeSlots) (chains : ActionState) (sites : SiteState),
      checkPads 0 [] pads = .ok offsets ∧ collectTypes pads = .ok types
      ∧ pads.foldlM (ActionState.pushPad types.slotOf) ⟨[], 0, []⟩ = .ok chains
      ∧ ranges.zipIdx.foldlM (SiteState.push chains.firstAction) ⟨0, [], []⟩ = .ok sites
      ∧ (∀ o ∈ offsets, o ∈ sites.referenced)
      ∧ table.callSites = sites.callSites ∧ table.actions = chains.actions
      ∧ table.typeInfos = types.typeInfos := by
  obtain ⟨name, -, h⟩ := Outcome.bind_eq_ok.mp h
  obtain ⟨offsets, hoffsets, h⟩ := Outcome.bind_eq_ok.mp h
  obtain ⟨types, htypes, h⟩ := Outcome.bind_eq_ok.mp h
  obtain ⟨chains, hchains, h⟩ := Outcome.bind_eq_ok.mp h
  obtain ⟨sites, hsites, h⟩ := Outcome.bind_eq_ok.mp h
  refine ⟨offsets, types, chains, sites, Outcome.mapError_eq_ok.mp hoffsets,
    Outcome.mapError_eq_ok.mp htypes, hchains, Outcome.mapError_eq_ok.mp hsites, ?_⟩
  split at h
  · cases h
  rename_i hmin
  cases h
  refine ⟨fun o ho => ?_, rfl, rfl, rfl⟩
  have hnil := min?_eq_none_iff.mp hmin
  have := filter_eq_nil_iff.mp hnil o ho
  simpa using this

section

variable {d : Lsda} (hread : ReadsTable table bytes d)
include hread

theorem handlerOf_filters {types : TypeSlots} (htable : table.typeInfos = types.typeInfos)
    (hsound : types.Sound) (hslots : ∀ ti ∈ lp.catchTypeIndices, types.Has ti) :
    (lp.filters types.slotOf).mapM (d.handlerOf bytes) = some lp.handlers := by
  have hcatch : ∀ ti ∈ lp.catchTypeIndices,
      d.handlerOf bytes ((types.slotOf.lookup ti).getD 0) = some (.catchType ti.toNat) := by
    intro ti hti
    obtain ⟨slot, hslot⟩ := hslots ti hti
    obtain ⟨k, rfl, htype⟩ := hsound ti slot hslot
    rw [hslot, Option.getD_some, Lsda.handlerOf, if_neg (by omega), if_neg (by omega),
      show ((k : ℤ) + 1).toNat = k + 1 by omega, hread.types k ⟨ti⟩ (htable ▸ htype)]
    rfl
  rw [LandingPadDesc.filters, LandingPadDesc.handlers, mapM_append,
    Outcome.mapM_map_eq_some _ hcatch]
  cases lp.isCleanup <;> rfl

theorem handlers_of_chain {tail : List UInt8} {types : TypeSlots}
    {front back : List LandingPadDesc} {site : LsdaSite}
    (htail : d.actionTable = emitActionTable table.actions ++ tail)
    (hactions : table.actions = pads.flatMap (·.chain types.slotOf))
    (htable : table.typeInfos = types.typeInfos) (hsound : types.Sound)
    (hslots : ∀ ti ∈ lp.catchTypeIndices, types.Has ti) (hpads : pads = front ++ lp :: back)
    (hne : lp.catchTypeIndices ≠ [])
    (haction : site.action = (emitActionTable (front.flatMap (·.chain types.slotOf))).length + 1) :
    d.handlers bytes site = some lp.handlers := by
  have hchain : lp.chain types.slotOf = linked (lp.filters types.slotOf) := by
    rw [LandingPadDesc.chain, if_neg (by simpa using hne)]
  have hfilters : lp.filters types.slotOf ≠ [] := by
    rw [LandingPadDesc.filters]
    exact append_ne_nil_of_left_ne_nil (by simpa using hne) _
  have hsplit : d.actionTable = emitActionTable (front.flatMap (·.chain types.slotOf))
      ++ (emitActionTable (linked (lp.filters types.slotOf))
        ++ (emitActionTable (back.flatMap (·.chain types.slotOf)) ++ tail)) := by
    rw [htail, hactions, hpads, flatMap_append, flatMap_cons, hchain,
      emitActionTable_append, emitActionTable_append]
    simp only [append_assoc]
  have hfuel : (lp.filters types.slotOf).length ≤ d.actionTable.length := by
    have := length_le_emitActionTable (linked (lp.filters types.slotOf))
    rw [length_linked] at this
    rw [hsplit]
    simp only [length_append]
    omega
  have hread' := chainFrom_linked (lp.filters types.slotOf)
    (emitActionTable (front.flatMap (·.chain types.slotOf)))
    (emitActionTable (back.flatMap (·.chain types.slotOf)) ++ tail) _ hfilters hfuel
  rw [← hsplit] at hread'
  rw [Lsda.handlers, if_neg (by omega), haction, Nat.add_sub_cancel, hread']
  exact handlerOf_filters hread htable hsound hslots

end

/-- **Landing pads, then bytes, then landing pads.** -/
theorem generateLsdaFromPads_reads {fuel : ℕ}
    (h : generateLsdaFromPads fuel personality pads ranges = some (.ok bytes)) :
    ∃ d, ReadsPads pads ranges bytes d := by
  unfold generateLsdaFromPads at h
  split at h
  · cases h
  rename_i table hbuild
  obtain ⟨offsets, types, chains, sites, hoffsets, htypes, hchains, hsites, hrefs, hcs, hacts, htis⟩
    := buildExceptionTableFromPads_ok hbuild
  obtain ⟨-, hpads, hnodup⟩ := checkPads_ok _ _ _ _ hoffsets
  obtain ⟨hsound, hslots⟩ := collectTypes_ok htypes
  have hch := pushPads_ok (fun lp hlp => (hpads lp hlp).2.2.2) hchains
  have hst := pushSites_ok hsites
  obtain ⟨d, tail, hread, htail⟩ := generateLsda_reads h
  have hrow : ∀ site ∈ d.sites, ∃ cs ∈ sites.callSites, cs.row = site := by
    intro site hsite
    rw [hread.sites, hcs] at hsite
    exact mem_map.mp hsite
  refine ⟨d, hread.decodes, ?_, ?_, ?_, ?_, ?_, ?_⟩
  · have hmap := congrArg (List.map fun r : UInt32 × UInt32 × UInt32 =>
      (r.1.toNat, r.2.1.toNat, r.2.2.toNat)) hst.ranges
    rw [zipIdx_map_fst, map_map] at hmap
    rw [hread.sites, hcs, map_map, ← hmap]
    rfl
  · intro site hsite hzero
    obtain ⟨cs, hmem, rfl⟩ := hrow site hsite
    have hpad : cs.landingPad = 0 := UInt32.toNat_inj.mp hzero
    rcases hst.actions cs hmem with ⟨-, haction⟩ | ⟨hne, -⟩
    · have hact : cs.row.action = 0 := by rw [CallSiteEntry.row, haction]; rfl
      rw [Lsda.handlers, if_pos hact, if_pos hzero]
    · exact absurd hpad hne
  · intro site hsite hne
    obtain ⟨cs, hmem, rfl⟩ := hrow site hsite
    rcases hst.actions cs hmem with ⟨hzero, -⟩ | ⟨-, hlook⟩
    · exact absurd (by rw [CallSiteEntry.row, hzero]; rfl) hne
    obtain ⟨front, lp, back, hsplit, hoff, -⟩ := hch.firstAction _ _ hlook
    exact ⟨lp, by simp [hsplit], by rw [hoff]; rfl⟩
  · intro lp hlp site hsite heq
    obtain ⟨cs, hmem, rfl⟩ := hrow site hsite
    have hpad : cs.landingPad = lp.landingPadOffset := UInt32.toNat_inj.mp heq
    rcases hst.actions cs hmem with ⟨hzero, -⟩ | ⟨-, hlook⟩
    · exact absurd (hpad ▸ hzero) (hpads lp hlp).1
    obtain ⟨front, p, back, hsplit, hoff, haction⟩ := hch.firstAction _ _ hlook
    obtain rfl : p = lp := inj_on_of_nodup_map hnodup (by simp [hsplit]) hlp (hoff.trans hpad)
    rcases haction with ⟨hnil, haction⟩ | ⟨hne, haction⟩
    · have hact : cs.row.action = 0 := by rw [CallSiteEntry.row, haction]; rfl
      have hrowpad : ¬ cs.row.landingPad = 0 := by
        intro hzero
        exact (hpads p hlp).1 (hpad ▸ UInt32.toNat_inj.mp hzero)
      rw [Lsda.handlers, if_pos hact, if_neg hrowpad, LandingPadDesc.handlers, hnil,
        (hpads p hlp).2.2.2 hnil]
      rfl
    exact handlers_of_chain hread htail (hacts.trans hch.actions) htis hsound
      (hslots p hlp) hsplit hne haction
  · intro lp hlp
    obtain ⟨cs, hmem, hpad⟩ := hst.referenced _ (hrefs _ (hpads lp hlp).2.1)
    refine ⟨cs.row, ?_, by rw [← hpad]; rfl⟩
    rw [hread.sites, hcs]
    exact mem_map_of_mem hmem
  intro base hbase
  obtain ⟨start, rfl, hstart⟩ := hread.aligned base hbase
  omega

/-- **The data area reads back.**  Whatever `generate_lsda_from_pads` returns decodes to the
ranges and the handlers of the pads; whatever `generate_lsda` returns decodes to the
tables; and the search for the padding ends for all sizes, with a layout unless the table
does not fit the address space. -/
theorem lsda_reads_back : (∀ fuel personality pads ranges bytes,
      generateLsdaFromPads fuel personality pads ranges = some (.ok bytes) →
      ∃ d, ReadsPads pads ranges bytes d)
    ∧ (∀ fuel table bytes, generateLsda fuel table = some (.ok bytes) →
      ∃ d, ReadsTable table bytes d)
    ∧ ∀ preTypeLen typeDataLen,
      ∃ r, (∀ fuel, 7 ≤ fuel → typeTableLayout fuel preTypeLen typeDataLen = some r)
        ∧ (preTypeLen + typeDataLen + 18 < 2 ^ 64 → ∃ layout, r = .ok layout) := by
  refine ⟨fun fuel personality pads ranges bytes h => generateLsdaFromPads_reads h,
    fun fuel table bytes h => ?_, typeTableLayout_terminates⟩
  obtain ⟨d, tail, hread, -⟩ := generateLsda_reads h
  exact ⟨d, hread⟩

/-- A pad that catches everything and cleans up, and one that only cleans up. -/
theorem lsda_reads_back_two_pads :
    ∃ bytes d, generateLsdaFromPads 7 "rust_eh_personality" [⟨64, [0], true⟩, ⟨80, [], true⟩]
        [(0, 8, 64), (8, 4, 0), (16, 8, 80)] = some (.ok bytes)
      ∧ ReadsPads [⟨64, [0], true⟩, ⟨80, [], true⟩] [(0, 8, 64), (8, 4, 0), (16, 8, 80)]
          bytes d := by
  have hrun : generateLsdaFromPads 7 "rust_eh_personality" [⟨64, [0], true⟩, ⟨80, [], true⟩]
      [(0, 8, 64), (8, 4, 0), (16, 8, 80)] = some (.ok
        [0xFF, 0x9b, 0x19, 0x01, 0x0c, 0, 8, 64, 1, 8, 4, 0, 0, 16, 8, 80, 0, 1, 1, 0, 0,
          0, 0, 0, 0, 0, 0, 0]) := by
    decide +kernel
  obtain ⟨d, hd⟩ := lsda_reads_back.1 _ _ _ _ _ hrun
  exact ⟨_, d, hrun, hd⟩

end TrustCg.Codegen
