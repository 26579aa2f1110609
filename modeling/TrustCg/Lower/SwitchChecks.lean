import TrustCg.Lib.AssocList
import TrustCg.Lib.Outcome
import TrustCg.Lower.Switch

/-!
# The checks of a switch lowering pass

On distinct cases the structural checks accept what each strategy wires.

* `checkMappingPreserved_ok` : any order of the cases passes the shared check.
* `records_emitBstNode`, `checkSlots_ok` : the tree and the table route each case once.
* `selectSwitch_ne_mismatch` : no lowering is rejected by its check.
-/

namespace TrustCg.Lower.A64

open AssocList List

/-- The cases of a switch have distinct constants. -/
def Distinct (cases : Cases) : Prop := (cases.map Prod.fst).Nodup

variable {cases : Cases}

theorem Distinct.perm {cases' : Cases} (h : Distinct cases) (hperm : cases.Perm cases') :
    Distinct cases' :=
  (hperm.map Prod.fst).nodup_iff.mp h

theorem lookup_append_none {l l' : Cases} {v : ℤ} (h : Distinct (l ++ l')) {t : Block}
    (hmem : (v, t) ∈ l') : l.lookup v = none := by
  refine lookup_eq_none_of_forall fun e he heq => ?_
  rw [Distinct, map_append, nodup_append] at h
  exact h.2.2 e.1 (mem_map_of_mem he) v (mem_map.mpr ⟨_, hmem, rfl⟩) heq.symm

theorem sourceCaseMap_eq (cases map : Cases) (h : Distinct (map ++ cases)) :
    ∃ source, sourceCaseMap map cases = .ok source ∧ source.Perm (map ++ cases) := by
  induction cases generalizing map with
  | nil => exact ⟨map, rfl, by simp⟩
  | cons c cases ih =>
    obtain ⟨v, t⟩ := c
    rw [sourceCaseMap, lookup_append_none h mem_cons_self]
    have hmid : ((v, t) :: map ++ cases).Perm (map ++ (v, t) :: cases) := perm_middle.symm
    obtain ⟨source, hsource, hperm⟩ := ih ((v, t) :: map) (h.perm hmid.symm)
    exact ⟨source, hsource, hperm.trans hmid⟩

variable {source : Cases}

theorem walkRouted_eq (hsource : Distinct source) (routed seen : Cases)
    (h : Distinct (seen ++ routed)) (hmem : ∀ c ∈ routed, c ∈ source) :
    ∃ seen', walkRouted source seen routed = .ok seen' ∧ seen'.Perm (seen ++ routed) := by
  induction routed generalizing seen with
  | nil => exact ⟨seen, rfl, by simp⟩
  | cons c routed ih =>
    obtain ⟨v, t⟩ := c
    obtain ⟨hc, hrest⟩ := forall_mem_cons.mp hmem
    rw [walkRouted, (lookup_eq_some_iff hsource).mpr hc]
    have hmid : ((v, t) :: seen ++ routed).Perm (seen ++ (v, t) :: routed) := perm_middle.symm
    obtain ⟨seen', hseen, hperm⟩ := ih ((v, t) :: seen) (h.perm hmid.symm) hrest
    refine ⟨seen', ?_, hperm.trans hmid⟩
    rw [← hseen]
    simp [lookup_append_none h mem_cons_self]

variable {default : Block}

variable {routed : Cases}

/-- **The shared check.**  It accepts any order of the source cases. -/
theorem checkMappingPreserved_ok (hsource : Distinct source) (hperm : routed.Perm source) :
    checkMappingPreserved source ⟨routed, some default⟩ = .ok () := by
  obtain ⟨seen, hseen, hperm'⟩ := walkRouted_eq hsource routed []
    (hsource.perm hperm.symm) fun c hc => hperm.mem_iff.mp hc
  rw [nil_append] at hperm'
  have hall := hperm'.trans hperm
  have hnone : source.find? (fun e => (seen.lookup e.1).isNone) = none := by
    rw [find?_eq_none]
    intro e he
    rw [(lookup_eq_some_iff (hsource.perm hall.symm)).mpr (hall.mem_iff.mpr he)]
    simp
  unfold checkMappingPreserved
  rw [hseen]
  dsimp only [bind, Except.bind]
  rw [hnone, hall.length_eq]
  simp

theorem checkSource_ok (h : Distinct cases) (hperm : routed.Perm cases) :
    (do checkMappingPreserved (← sourceCaseMap [] cases) ⟨routed, some default⟩)
      = Except.ok () := by
  obtain ⟨source, hsource, hperm'⟩ := sourceCaseMap_eq cases [] h
  rw [nil_append] at hperm'
  rw [hsource]
  exact checkMappingPreserved_ok (h.perm hperm'.symm) (hperm.trans hperm'.symm)

theorem checkCascadePreserved_ok (h : Distinct cases) (default : Block) :
    checkCascadePreserved cases default = .ok () :=
  checkSource_ok h (List.Perm.refl cases)

/-! ## The tree -/

/-- What a lowering records: its cases and the default. -/
def Records (node : NodeEmitter) (default : Block) : Prop :=
  ∀ cases block f m, ((node cases block f m).2.routed).Perm (m.routed ++ cases)
    ∧ (node cases block f m).2.default = some default

theorem foldl_recordCase (cases : Cases) (m : NormalizedMapping) :
    (cases.foldl (fun m c => m.recordCase c.1 c.2) m).routed = m.routed ++ cases := by
  induction cases generalizing m with
  | nil => exact (append_nil _).symm
  | cons c cases ih =>
    rw [foldl_cons, ih, NormalizedMapping.recordCase]
    exact append_assoc ..

theorem records_emitLinearScanInto (sel : VReg) (is32 : Bool) (default : Block) :
    Records (fun cases block f m => emitLinearScanInto sel is32 cases default block f m)
      default := by
  intro cases block f m
  exact ⟨(foldl_recordCase cases m) ▸ .refl _, rfl⟩

theorem records_emitSubtree {node : NodeEmitter} (h : Records node default) :
    Records (emitSubtree node default) default := by
  intro cases block f m
  unfold emitSubtree
  split
  next hempty =>
    rw [isEmpty_iff.mp hempty, append_nil]
    exact ⟨.refl _, rfl⟩
  · exact h cases block f m

theorem records_emitBstNode (sel : VReg) (is32 : Bool) (default : Block) : ∀ (depth : ℕ),
    Records (emitBstNode sel is32 default depth) default := by
  intro depth
  induction depth with
  | zero => exact records_emitLinearScanInto sel is32 default
  | succ depth ih =>
    intro cases block f m
    rw [emitBstNode]
    split
    · exact records_emitLinearScanInto sel is32 default cases block f m
    rename_i hlen
    have hsplit := take_append_drop (cases.length / 2) cases
    split
    next hdrop =>
      rw [drop_eq_nil_iff] at hdrop
      rw [linearScanMax] at hlen
      omega
    rename_i p t rightCases hdrop
    rw [hdrop] at hsplit
    have hsub := records_emitSubtree ih
    refine ⟨(hsub rightCases _ _ _).1.trans
        (((hsub _ _ _ _).1.append_right rightCases).trans ?_), (hsub rightCases _ _ _).2⟩
    conv_rhs => rw [← hsplit]
    rw [NormalizedMapping.recordCase, append_assoc, append_assoc, singleton_append]
    exact .append_left _ perm_middle.symm

/-! ## The table -/

section

variable {source : Cases}

theorem denseTargets_succ (value : ℤ) (len : ℕ) : denseTargets cases default value (len + 1)
      = (cases.lookup value).getD default :: denseTargets cases default (value + 1) len := by
  rw [denseTargets, range_succ_eq_map, map_cons, map_map, denseTargets]
  refine congrArg₂ _ (by simp) (map_congr_left fun i _ => ?_)
  rw [Function.comp_apply, Nat.cast_succ, Int.add_assoc, Int.add_comm 1]

theorem checkSlots_ok (default : Block) (hlookup : ∀ v, source.lookup v = cases.lookup v) (len : ℕ)
    (value : ℤ) (m : NormalizedMapping) :
    ∃ extra : Cases, checkSlots source default value (denseTargets cases default value len) m
        = .ok { m with routed := m.routed ++ extra }
      ∧ Distinct extra
      ∧ ∀ v t, (v, t) ∈ extra ↔ (value ≤ v ∧ v < value + len) ∧ cases.lookup v = some t := by
  induction len generalizing value m with
  | zero =>
    refine ⟨[], by simp [denseTargets, checkSlots], nodup_nil, fun v t => ?_⟩
    simp only [not_mem_nil, false_iff]
    omega
  | succ len ih =>
    rw [denseTargets_succ, checkSlots, hlookup]
    -- a value is the first one or lies in the rest
    have hsplit : ∀ v : ℤ, value ≤ v ∧ v < value + (len + 1 : ℕ)
        ↔ v = value ∨ (value + 1 ≤ v ∧ v < value + 1 + len) := by
      intro v
      omega
    cases hcase : cases.lookup value with
    | none =>
      obtain ⟨extra, hok, hdistinct, hmem⟩ := ih (value + 1) m
      refine ⟨extra, by simpa using hok, hdistinct, fun v t => ?_⟩
      rw [hmem, hsplit, or_and_right]
      refine (or_iff_right ?_).symm
      rintro ⟨rfl, hv⟩
      rw [hcase] at hv
      cases hv
    | some src =>
      obtain ⟨extra, hok, hdistinct, hmem⟩ := ih (value + 1) (m.recordCase value src)
      refine ⟨(value, src) :: extra, ?_, ?_, fun v t => ?_⟩
      · simp only [Option.getD_some, ne_eq, not_true_eq_false, if_false]
        rw [hok, NormalizedMapping.recordCase, append_assoc, singleton_append]
      · refine nodup_cons.mpr ⟨fun hin => ?_, hdistinct⟩
        obtain ⟨e, he, heq⟩ := mem_map.mp hin
        have := ((hmem e.1 e.2).mp he).1
        omega
      rw [mem_cons, hmem, hsplit, or_and_right, Prod.mk.injEq]
      refine or_congr_left ⟨?_, ?_⟩
      · rintro ⟨rfl, rfl⟩
        exact ⟨rfl, hcase⟩
      rintro ⟨rfl, hv⟩
      exact ⟨rfl, Option.some.inj (hv.symm.trans hcase)⟩

theorem checkJumpTablePreserved_ok {minVal maxVal : ℤ} (h : Distinct cases)
    (hmin : (cases.map Prod.fst).min? = some minVal)
    (hmax : (cases.map Prod.fst).max? = some maxVal) (default : Block) :
    checkJumpTablePreserved cases default minVal
      (denseTargets cases default minVal (maxVal - minVal + 1).toNat) = .ok () := by
  obtain ⟨source, hsource, hperm⟩ := sourceCaseMap_eq cases [] h
  rw [nil_append] at hperm
  have hsourceD : Distinct source := h.perm hperm.symm
  obtain ⟨extra, hok, hdistinct, hmem⟩ := checkSlots_ok default
    (fun v => lookup_perm hperm hsourceD v) (maxVal - minVal + 1).toNat minVal ⟨[], some default⟩
  obtain ⟨hminMem, hminLe⟩ := min?_eq_some_iff.mp hmin
  obtain ⟨hmaxMem, hmaxLe⟩ := max?_eq_some_iff.mp hmax
  have hspan : minVal ≤ maxVal := hminLe _ hmaxMem
  have hextra : extra.Perm source := by
    refine (perm_ext_iff_of_nodup hdistinct.of_map hsourceD.of_map).mpr fun e => ?_
    obtain ⟨v, t⟩ := e
    rw [hmem, lookup_eq_some_iff h, hperm.mem_iff]
    refine and_iff_right_of_imp fun hv => ?_
    have hv' : v ∈ cases.map Prod.fst := mem_map.mpr ⟨_, hv, rfl⟩
    have := hminLe v hv'
    have := hmaxLe v hv'
    omega
  have hlen : ((denseTargets cases default minVal (maxVal - minVal + 1).toNat).length : ℤ)
      = maxVal - minVal + 1 := by
    rw [denseTargets, length_map, length_range]
    omega
  unfold checkJumpTablePreserved
  rw [hsource, hmin, hmax]
  simp only [bind, Except.bind, ne_eq, not_true_eq_false, if_false, hlen, hok, nil_append]
  exact checkMappingPreserved_ok hsourceD hextra

end

/-! ## The strategies -/

section

variable {f : Func} {sel : VReg} {ty : SelectorTy} {block : Block}

theorem gate_ok {strategy : Strategy} {check : Except Mismatch Unit} (h : check = .ok ())
    (f : Func) : gate strategy check f = .ok f := by
  rw [h, gate]

theorem checkRecorded_ok {m : NormalizedMapping} (h : Distinct cases)
    (hm : m.routed.Perm ([] ++ cases.insertionSort fun a b => a.1 ≤ b.1)
      ∧ m.default = some default) :
    (do checkMappingPreserved (← sourceCaseMap [] cases) m) = Except.ok () := by
  obtain ⟨routed, d⟩ := m
  obtain ⟨hperm, hdefault⟩ := hm
  subst hdefault
  exact checkSource_ok h (hperm.trans (perm_insertionSort _ cases))

/-- **No false alarm.**  On distinct cases the checks do not reject a lowering. -/
theorem selectSwitch_ne_mismatch (dense : Cases → Bool) (h : Distinct cases) (strategy : Strategy)
    (reason : Mismatch) :
    selectSwitch dense f sel ty cases default block ≠ .error (.mismatch strategy reason) := by
  intro herr
  unfold selectSwitch at herr
  split at herr
  · unfold selectSwitchJumpTable emitJumpTable at herr
    dsimp only at herr
    split at herr
    next minVal maxVal hmin hmax =>
      split at herr
      · cases herr
      rw [gate_ok (checkJumpTablePreserved_ok h hmin hmax default)] at herr
      cases herr
    · cases herr
  · unfold selectSwitchBinarySearch at herr
    split at herr
    · cases herr
    unfold emitBinarySearch at herr
    dsimp only at herr
    rw [gate_ok (checkRecorded_ok h
      (records_emitBstNode _ ty.is32 default _ _ block _ _))] at herr
    cases herr
  unfold selectSwitchCascade at herr
  dsimp only at herr
  rw [gate_ok (checkCascadePreserved_ok h default)] at herr
  cases herr

end

end TrustCg.Lower.A64
