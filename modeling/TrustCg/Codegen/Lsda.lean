import TrustCg.Lib.LittleEndian
import TrustCg.Lib.Outcome

/-!
# Language-specific data areas

`generate_lsda_from_pads` turns the landing pads and the protected ranges of a function
into the bytes that the personality routine reads while unwinding.  It checks the pads,
gives every caught type a slot of the type table, lays out one chain of action records
per pad, and serialises the tables.  The offset of the type table covers both itself and
the padding that aligns the table, so `type_table_layout` searches for a padding that
fits.

* `Lsda` and `decodeLsda` : the format as the personality routine reads it.
-/

namespace TrustCg.Codegen

open Leb128 LittleEndian List

/-! ## The data -/

/-- What is wrong with a personality name. -/
inductive PersonalitySymbolError
  | missing
  | empty
  | embeddedNul
deriving DecidableEq, Repr

/-- What is wrong with the pads or ranges. -/
inductive ExceptionTableBuildError
  | invalidPersonality (error : PersonalitySymbolError)
  | zeroLandingPadOffset (index : ℕ)
  | duplicateLandingPadOffset (offset : UInt32)
  | emptyLandingPad (offset : UInt32)
  | duplicateCatchType (offset typeIndex : UInt32)
  | typedCatchRelocationUnsupported (offset typeIndex : UInt32)
  | actionTableTooLarge
  | typeTableTooLarge
  | emptyCallSite (index : ℕ) (start : UInt32)
  | callSiteRangeOverflow (index : ℕ) (start length : UInt32)
  | overlappingOrUnsortedCallSites (index : ℕ) (start previousEnd : UInt32)
  | unknownLandingPadOffset (index : ℕ) (offset : UInt32)
  | orphanLandingPadOffset (offset : UInt32)
deriving DecidableEq, Repr

/-- How a call ends without a value: an error it returns, or an `expect` that fails. -/
inductive LsdaFailure
  | error (error : ExceptionTableBuildError)
  | expect
deriving DecidableEq, Repr

/-- Encodings of pointers. -/
inductive DwEhPe
  | absPtr
  | uleb128
  | uData2
  | uData4
  | uData8
  | sData4
  | omit
deriving DecidableEq, Repr

/-- The encoding byte. -/
def DwEhPe.code : DwEhPe → UInt8
  | .absPtr => 0x00
  | .uleb128 => 0x01
  | .uData2 => 0x02
  | .uData4 => 0x03
  | .uData8 => 0x04
  | .sData4 => 0x0B
  | .omit => 0xFF

/-- A protected range. -/
structure CallSiteEntry where
  regionStart : UInt32
  regionLength : UInt32
  landingPad : UInt32
  actionIdx : UInt32
deriving DecidableEq, Repr

/-- An action record. -/
structure ActionEntry where
  typeFilter : ℤ
  nextActionOffset : ℤ
deriving DecidableEq, Repr

/-- A caught type. -/
structure TypeInfo where
  typeInfoIndex : UInt32
deriving DecidableEq, Repr

/-- Null catches everything. -/
def TypeInfo.catchAll : TypeInfo := ⟨0⟩

/-- The tables of a function. -/
structure ExceptionTable where
  callSites : List CallSiteEntry
  actions : List ActionEntry
  typeInfos : List TypeInfo
  personality : Option String
deriving DecidableEq, Repr

/-- A landing pad and what it catches. -/
structure LandingPadDesc where
  landingPadOffset : UInt32
  catchTypeIndices : List UInt32
  isCleanup : Bool
deriving DecidableEq, Repr

/-! ## Serialising the tables -/

/-- The rows, field by field. -/
def emitCallSiteTable (callSites : List CallSiteEntry) (encoding : DwEhPe) : List UInt8 :=
  callSites.flatMap fun cs => (if encoding = .uleb128 then
      encodeUleb cs.regionStart.toNat ++ encodeUleb cs.regionLength.toNat
        ++ encodeUleb cs.landingPad.toNat
    else
      leBytes 4 cs.regionStart.toNat ++ leBytes 4 cs.regionLength.toNat
        ++ leBytes 4 cs.landingPad.toNat)
    ++ encodeUleb cs.actionIdx.toNat

/-- The records, as SLEB128. -/
def emitActionTable (actions : List ActionEntry) : List UInt8 :=
  actions.flatMap fun a => encodeSleb a.typeFilter ++ encodeSleb a.nextActionOffset

/-- The types, last slot first. -/
def emitTypeTable (typeInfos : List TypeInfo) : List UInt8 :=
  typeInfos.reverse.flatMap fun ti => leBytes 4 ti.typeInfoIndex.toNat

/-- `usize::checked_add`. -/
def checkedAdd (a b : ℕ) : Option ℕ := if a + b < 2 ^ 64 then some (a + b) else none

/-- `Option::expect`. -/
def expectFits : Option ℕ → Except LsdaFailure ℕ
  | some n => .ok n
  | none => .error .expect

/-- The TType base and the start of the type table for one padding. -/
def layoutAt (preTypeLen typeDataLen pad : ℕ) : Except LsdaFailure (ℕ × ℕ) := do
  let ttypeBase ← expectFits ((checkedAdd preTypeLen pad).bind (checkedAdd · typeDataLen))
  let typeTableStart ← expectFits
    (((checkedAdd 2 (ulebLen ttypeBase)).bind (checkedAdd · preTypeLen)).bind (checkedAdd · pad))
  return (ttypeBase, typeTableStart)

/-- The loop of `type_table_layout`; `none` means that the fuel ran out. -/
def layoutSearch (preTypeLen typeDataLen : ℕ) : ℕ → ℕ → Option (Except LsdaFailure (ℕ × ℕ))
  | 0, _ => none
  | fuel + 1, pad =>
    match layoutAt preTypeLen typeDataLen pad with
    | .error e => some (.error e)
    | .ok (ttypeBase, typeTableStart) =>
      if typeTableStart % 4 = 0 then some (.ok (pad, ttypeBase))
      else
        match checkedAdd pad 1 with
        | none => some (.error .expect)
        | some pad => layoutSearch preTypeLen typeDataLen fuel pad

/-- The padding that fits, by search. -/
def typeTableLayout (fuel preTypeLen typeDataLen : ℕ) : Option (Except LsdaFailure (ℕ × ℕ)) :=
  layoutSearch preTypeLen typeDataLen fuel 0

/-- The bytes of the tables. -/
def generateLsda (fuel : ℕ) (table : ExceptionTable) : Option (Except LsdaFailure (List UInt8)) :=
  let callSiteData := emitCallSiteTable table.callSites .uleb128
  let actionData := emitActionTable table.actions
  let typeData := emitTypeTable table.typeInfos
  let csLengthEncoded := encodeUleb callSiteData.length
  if table.typeInfos.isEmpty then
    some (.ok (DwEhPe.omit.code :: DwEhPe.omit.code :: DwEhPe.uleb128.code ::
      (csLengthEncoded ++ callSiteData ++ actionData)))
  else
    let preTypeLen := 1 + csLengthEncoded.length + callSiteData.length + actionData.length
    (typeTableLayout fuel preTypeLen typeData.length).map fun layout => do
      let (pad, ttypeBase) ← layout
      return DwEhPe.omit.code :: 0x9b :: (encodeUleb ttypeBase ++ DwEhPe.uleb128.code ::
        (csLengthEncoded ++ callSiteData ++ actionData ++ List.replicate pad 0 ++ typeData))

/-! ## Building the tables from the landing pads -/

/-- The name without platform underscores. -/
def canonicalPersonalitySymbol (name : String) : String :=
  if name = "_rust_eh_personality" ∨ name = "__rust_eh_personality" then "rust_eh_personality"
  else name

/-- The name, if there is a usable one. -/
def requiredPersonalitySymbol : Option String → Except PersonalitySymbolError String
  | none => .error .missing
  | some name =>
    if name.isEmpty then .error .empty
    else if name.toList.contains (Char.ofNat 0) then .error .embeddedNul
    else .ok (canonicalPersonalitySymbol name)

/-- The first element that repeats an earlier one. -/
def firstRepeat : List UInt32 → List UInt32 → Option UInt32
  | _, [] => none
  | seen, t :: ts => if t ∈ seen then some t else firstRepeat (t :: seen) ts

/-- The checks on one landing pad, given the offsets of those before it. -/
def checkPad (index : ℕ) (seen : List UInt32) (lp : LandingPadDesc) :
    Except ExceptionTableBuildError Unit :=
  if lp.landingPadOffset = 0 then .error (.zeroLandingPadOffset index)
  else if lp.landingPadOffset ∈ seen then
    .error (.duplicateLandingPadOffset lp.landingPadOffset)
  else if !lp.isCleanup && lp.catchTypeIndices.isEmpty then
    .error (.emptyLandingPad lp.landingPadOffset)
  else
    match firstRepeat [] lp.catchTypeIndices with
    | some typeIndex => .error (.duplicateCatchType lp.landingPadOffset typeIndex)
    | none =>
      match lp.catchTypeIndices.find? (· ≠ 0) with
      | some typeIndex =>
        .error (.typedCatchRelocationUnsupported lp.landingPadOffset typeIndex)
      | none => .ok ()

/-- The first loop: every pad is checked, and the offsets are collected. -/
def checkPads : ℕ → List UInt32 → List LandingPadDesc →
    Except ExceptionTableBuildError (List UInt32)
  | _, seen, [] => .ok seen
  | index, seen, lp :: rest =>
    match checkPad index seen lp with
    | .error e => .error e
    | .ok () => checkPads (index + 1) (lp.landingPadOffset :: seen) rest

/-- The type table and `slot_of`. -/
structure TypeSlots where
  typeInfos : List TypeInfo
  slotOf : List (UInt32 × ℤ)

/-- A catch type gets the next slot when it has none. -/
def TypeSlots.add (st : TypeSlots) (ti : UInt32) : Except ExceptionTableBuildError TypeSlots :=
  match st.slotOf.lookup ti with
  | some _ => .ok st
  | none =>
    let typeInfos := st.typeInfos ++ [if ti = 0 then TypeInfo.catchAll else ⟨ti⟩]
    if typeInfos.length < 2 ^ 31 then .ok ⟨typeInfos, (ti, typeInfos.length) :: st.slotOf⟩
    else .error .typeTableTooLarge

/-- The second loop: the types that the pads catch, in the order they appear. -/
def collectTypes (pads : List LandingPadDesc) : Except ExceptionTableBuildError TypeSlots :=
  pads.foldlM (fun st lp => lp.catchTypeIndices.foldlM TypeSlots.add st) ⟨[], []⟩

/-- The action table, its serialised length and `lp_to_first_action`. -/
structure ActionState where
  actions : List ActionEntry
  actionTableLen : ℕ
  firstAction : List (UInt32 × UInt32)

/-- An action record, whose displacement takes one byte. -/
def ActionState.push (st : ActionState) (a : ActionEntry) (width : ℕ) :
    Except LsdaFailure ActionState :=
  match (checkedAdd st.actionTableLen width).bind (checkedAdd · 1) with
  | some len => .ok { st with actions := st.actions ++ [a], actionTableLen := len }
  | none => .error (.error .actionTableTooLarge)

/-- The record of one catch type, given with its position in the pad. -/
def ActionState.pushCatch (slotOf : List (UInt32 × ℤ)) (lp : LandingPadDesc) (st : ActionState)
    (c : UInt32 × ℕ) : Except LsdaFailure ActionState :=
  match slotOf.lookup c.1 with
  | none => .error .expect
  | some typeFilter =>
    let isLast := c.2 == lp.catchTypeIndices.length - 1
    st.push ⟨typeFilter, if isLast && !lp.isCleanup then 0 else 1⟩ (slebLen typeFilter)

/-- The cleanup record after the catches of a pad that also cleans up. -/
def ActionState.pushCleanup (lp : LandingPadDesc) (st : ActionState) :
    Except LsdaFailure ActionState :=
  if lp.isCleanup && !lp.catchTypeIndices.isEmpty then st.push ⟨0, 0⟩ 1 else .ok st

/-- The chain of one landing pad. -/
def ActionState.pushPad (slotOf : List (UInt32 × ℤ)) (st : ActionState) (lp : LandingPadDesc) :
    Except LsdaFailure ActionState :=
  if lp.isCleanup && lp.catchTypeIndices.isEmpty then
    .ok { st with firstAction := (lp.landingPadOffset, 0) :: st.firstAction }
  else if st.actionTableLen + 1 < 2 ^ 32 then do
    let chainStart := UInt32.ofNat (st.actionTableLen + 1)
    let st ← lp.catchTypeIndices.zipIdx.foldlM (pushCatch slotOf lp) st
    let st ← st.pushCleanup lp
    return { st with firstAction := (lp.landingPadOffset, chainStart) :: st.firstAction }
  else .error (.error .actionTableTooLarge)

/-- The call-site table while it is built. -/
structure SiteState where
  previousEnd : UInt32
  referenced : List UInt32
  callSites : List CallSiteEntry

/-- One protected range, given with its index. -/
def SiteState.push (firstAction : List (UInt32 × UInt32)) (st : SiteState)
    (range : (UInt32 × UInt32 × UInt32) × ℕ) : Except ExceptionTableBuildError SiteState :=
  let ((start, length, lpOffset), index) := range
  if length = 0 then .error (.emptyCallSite index start)
  else if 2 ^ 32 ≤ start.toNat + length.toNat then
    .error (.callSiteRangeOverflow index start length)
  else if index ≠ 0 ∧ start < st.previousEnd then
    .error (.overlappingOrUnsortedCallSites index start st.previousEnd)
  else if lpOffset = 0 then
    .ok { st with
      previousEnd := start + length
      callSites := st.callSites ++ [⟨start, length, lpOffset, 0⟩] }
  else
    match firstAction.lookup lpOffset with
    | none => .error (.unknownLandingPadOffset index lpOffset)
    | some actionIdx => .ok
        { previousEnd := start + length
          referenced := lpOffset :: st.referenced
          callSites := st.callSites ++ [⟨start, length, lpOffset, actionIdx⟩] }

/-- The tables of checked pads and ranges. -/
def buildExceptionTableFromPads (personality : String) (landingPads : List LandingPadDesc)
    (callSiteRanges : List (UInt32 × UInt32 × UInt32)) : Except LsdaFailure ExceptionTable := do
  let personality ← (requiredPersonalitySymbol (some personality)).mapError
    (.error ∘ .invalidPersonality)
  let offsets ← (checkPads 0 [] landingPads).mapError .error
  let types ← (collectTypes landingPads).mapError .error
  let chains ← landingPads.foldlM (ActionState.pushPad types.slotOf) ⟨[], 0, []⟩
  let sites ← (callSiteRanges.zipIdx.foldlM (SiteState.push chains.firstAction)
    ⟨0, [], []⟩).mapError .error
  match (offsets.filter (· ∉ sites.referenced)).min? with
  | some offset => .error (.error (.orphanLandingPadOffset offset))
  | none => return ⟨sites.callSites, chains.actions, types.typeInfos, some personality⟩

/-- Tables from pads, then bytes. -/
def generateLsdaFromPads (fuel : ℕ) (personality : String) (landingPads : List LandingPadDesc)
    (callSiteRanges : List (UInt32 × UInt32 × UInt32)) :
    Option (Except LsdaFailure (List UInt8)) :=
  match buildExceptionTableFromPads personality landingPads callSiteRanges with
  | .error e => some (.error e)
  | .ok table => generateLsda fuel table

/-! ## The format as the personality routine reads it -/

/-- A row of the call-site table. -/
structure LsdaSite where
  start : ℕ
  length : ℕ
  landingPad : ℕ
  action : ℕ
deriving DecidableEq, Repr

/-- The parts of a data area: its rows, the bytes from the action table on, and the
position of the TType base. -/
structure Lsda where
  sites : List LsdaSite
  actionTable : List UInt8
  ttypeBase : Option ℕ
deriving DecidableEq, Repr

/-- One row and the bytes after it. -/
def decodeSite (bytes : List UInt8) : Option (LsdaSite × List UInt8) := do
  let (start, rest) ← decodeUleb bytes
  let (length, rest) ← decodeUleb rest
  let (landingPad, rest) ← decodeUleb rest
  let (action, rest) ← decodeUleb rest
  return (⟨start, length, landingPad, action⟩, rest)

/-- The rows that fill the bytes, with a bound on their number. -/
def decodeSites : ℕ → List UInt8 → Option (List LsdaSite)
  | 0, bytes => if bytes.isEmpty then some [] else none
  | fuel + 1, bytes =>
    if bytes.isEmpty then some []
    else do
      let (site, rest) ← decodeSite bytes
      let sites ← decodeSites fuel rest
      return site :: sites

/-- The header's TType base, measured from the end of its own field. -/
def decodeTTypeBase (encoding : UInt8) (total : ℕ) (bytes : List UInt8) :
    Option (Option ℕ × List UInt8) :=
  if encoding = 0xFF then some (none, bytes)
  else if encoding = 0x9b then do
    let (offset, rest) ← decodeUleb bytes
    return (some (total - rest.length + offset), rest)
  else none

/-- The call-site table with its encoding and length, and the action table after it. -/
def decodeTables (ttypeBase : Option ℕ) : List UInt8 → Option Lsda
  | [] => none
  | encoding :: bytes =>
    if encoding = 0x01 then do
      let (length, rest) ← decodeUleb bytes
      let sites ← decodeSites length (rest.take length)
      return ⟨sites, rest.drop length, ttypeBase⟩
    else none

/-- A data area whose landing pads are relative to the function. -/
def decodeLsda : List UInt8 → Option Lsda
  | lpStart :: encoding :: bytes =>
    if lpStart = 0xFF then do
      let (ttypeBase, rest) ← decodeTTypeBase encoding (bytes.length + 2) bytes
      decodeTables ttypeBase rest
    else none
  | _ => none

/-- An action record: the filter, where its displacement is and what it says. -/
structure ActionRecord where
  filter : ℤ
  nextField : ℕ
  next : ℤ
deriving DecidableEq, Repr

/-- The action record at a position of the action table. -/
def actionAt (actionTable : List UInt8) (position : ℕ) : Option ActionRecord := do
  let (filter, rest) ← decodeSleb (actionTable.drop position)
  let (next, _) ← decodeSleb rest
  return ⟨filter, actionTable.length - rest.length, next⟩

/-- The filters along a chain; a displacement counts from its own field. -/
def chainFrom (actionTable : List UInt8) : ℕ → ℕ → Option (List ℤ)
  | 0, _ => none
  | fuel + 1, position => do
    let record ← actionAt actionTable position
    if record.next = 0 then return [record.filter]
    else if record.nextField + record.next < 0 then none
    else do
      let filters ← chainFrom actionTable fuel (record.nextField + record.next).toNat
      return record.filter :: filters

/-- What the personality routine finds at a landing pad. -/
inductive Handler
  | catchType (typeInfo : ℕ)
  | cleanup
  | exceptionSpec (filter : ℤ)
deriving DecidableEq, Repr

namespace Lsda

/-- The entry of the type table with an index, counted backwards from the base. -/
def typeAt (d : Lsda) (bytes : List UInt8) (index : ℕ) : Option ℕ := do
  let base ← d.ttypeBase
  if 4 * index ≤ base then readLe 4 bytes (base - 4 * index) else none

/-- What a filter stands for. -/
def handlerOf (d : Lsda) (bytes : List UInt8) (filter : ℤ) : Option Handler :=
  if filter = 0 then some .cleanup
  else if filter < 0 then some (.exceptionSpec filter)
  else (d.typeAt bytes filter.toNat).map .catchType

/-- The handlers of a row, in the order they are tried. -/
def handlers (d : Lsda) (bytes : List UInt8) (site : LsdaSite) : Option (List Handler) :=
  if site.action = 0 then some (if site.landingPad = 0 then [] else [.cleanup])
  else do
    let filters ← chainFrom d.actionTable d.actionTable.length (site.action - 1)
    filters.mapM (d.handlerOf bytes)

end Lsda

end TrustCg.Codegen
