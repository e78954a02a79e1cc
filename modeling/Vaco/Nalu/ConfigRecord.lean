import Vaco.Bitstream.Golomb
import Vaco.Nalu.Framing
import Vaco.Sched.Wire

/-!
# Configuration records

A container that stores units behind their lengths keeps the parameter sets in a record of its own.
The record is built from the parameter sets of a buffer in the byte stream format; its counts and
lengths are cut to their fields, and the units behind them are not.

Main results:

- `takeUnits_lengthPrefixed16`: counted units are found again.
- `config_says_iff`: when a record says what it contains.
-/

namespace Vaco
namespace Nalu

open Library BitStream ByteWords Bitstream Vaco.Core
open Sched (Budget Limits)

/-! ## Unescaped units -/

theorem permissive_total_le : 1024 * 1048576 ≤ u64Max := by
  have hmax : u64Max = 18446744073709551615 := rfl
  omega

/-- The limits of a command-line program. -/
def permissive : Limits where
  maxAllocTotal := 1024 * 1048576
  maxAllocSingle := 512 * 1048576
  total_le := permissive_total_le

theorem drop_padding (rbsp : Bytes) :
    ((rbsp ++ List.replicate 64 0#8).drop rbsp.length).take 64 = List.replicate 64 0 := by
  rw [List.drop_left]
  rfl

/-- The payload of a unit without its escapes and a reader over it, if it can be allocated. -/
def rbspOf (ebsp : Bytes) : Option (Bytes × BitReader) :=
  match (Budget.new permissive).charge (satAddU64 ebsp.length 64) with
  | .error _ => none
  | .ok _ =>
      let rbsp := toRbsp ebsp
      if hlen : (rbsp ++ List.replicate 64 0#8).length < 9223372036854775808 then
        some (rbsp, BitReader.newPadded
          ⟨⟨rbsp ++ List.replicate 64 0#8, hlen⟩, rbsp.length, drop_padding rbsp⟩)
      else
        none

/-! ## The record of H.264 -/

/-- The profiles whose parameter sets carry a chroma format and bit depths. -/
def HIGH_PROFILE_IDC : List (BitVec 8) :=
  [100, 110, 122, 244, 44, 83, 86, 118, 128, 138, 139, 134, 135]

/-- The chroma format and the bit depths at the end of a record. -/
def highProfileExtension (spsNal : Bytes) : Option Bytes :=
  match spsNal with
  | [] => none
  | _ :: payload =>
      match rbspOf payload with
      | none => none
      | some (_, r) =>
          let level := (((r.get 8).1.get 8).1.get 8).1
          let chroma := level.ue.1.ue
          let afterFlag := if chroma.2 = 3 then (chroma.1.get 1).1 else chroma.1
          let luma := afterFlag.ue
          let chromaDepth := luma.1.ue
          if chromaDepth.1.overrun then
            none
          else
            some [0xFC ||| (chroma.2.setWidth 8 &&& 0x03), 0xF8 ||| (luma.2.setWidth 8 &&& 0x07),
              0xF8 ||| (chromaDepth.2.setWidth 8 &&& 0x07), 0]

/-- Units behind lengths of 16 bits, which a longer unit is cut to. -/
def lengthPrefixed16 (list : List Bytes) : Bytes :=
  list.flatMap fun unit => beBytes 2 (min unit.length 65535) ++ unit

/-- What stands behind the parameter sets. -/
def avccTail (profileIdc : BitVec 8) (firstSps : Bytes) : Bytes :=
  if profileIdc ∈ HIGH_PROFILE_IDC then (highProfileExtension firstSps).getD [] else []

/-- Build a record of H.264. -/
def buildH264Avcc (sps pps : List Bytes) : Option Bytes :=
  match sps with
  | (header :: profileIdc :: profileCompatibility :: levelIdc :: rest) :: _ =>
      some ([1, profileIdc, profileCompatibility, levelIdc, 0xFF,
          0xE0 ||| BitVec.ofNat 8 (min sps.length 31)] ++
        (lengthPrefixed16 sps ++ (BitVec.ofNat 8 (min pps.length 255) :: (lengthPrefixed16 pps ++
          avccTail profileIdc (header :: profileIdc :: profileCompatibility :: levelIdc :: rest)))))
  | _ => none

/-! ## The record of HEVC -/

/-- What a record takes from the first sequence parameter set. -/
structure HevcSpsInfo where
  ptl : Bytes
  numTemporalLayers : BitVec 8
  temporalIdNested : BitVec 8
  chromaFormatIdc : BitVec 8
  bitDepthLumaMinus8 : BitVec 8
  bitDepthChromaMinus8 : BitVec 8

def readSubLayers : Nat → BitReader → BitReader × List (Bool × Bool)
  | 0, r => (r, [])
  | layers + 1, r =>
      let profile := r.getBit
      let level := profile.1.getBit
      let rest := readSubLayers layers level.1
      (rest.1, (profile.2 = 1, level.2 = 1) :: rest.2)

def skipSubLayers : List (Bool × Bool) → BitReader → BitReader
  | [], r => r
  | (profile, level) :: rest, r =>
      let r := if profile then r.skip 88 else r
      let r := if level then r.skip 8 else r
      skipSubLayers rest r

/-- Parse the first sequence parameter set. -/
def HevcSpsInfo.parse (spsNal : Bytes) : Option HevcSpsInfo :=
  if spsNal.length < 2 then
    none
  else
    match rbspOf (spsNal.drop 2) with
    | none => none
    | some ([], _) => none
    | some (first :: rbsp, r) =>
        if rbsp.length < 12 then
          none
        else
          let maxSubLayersMinus1 := ((first >>> 1) &&& 0x07).toNat
          let layers := readSubLayers maxSubLayersMinus1 (r.skip (8 + 96))
          let aligned :=
            if 0 < maxSubLayersMinus1 then layers.1.skip ((8 - maxSubLayersMinus1) * 2) else layers.1
          let spsId := (skipSubLayers layers.2 aligned).ue
          let chroma := spsId.1.ue
          let afterFlag := if chroma.2 = 3 then chroma.1.getBit.1 else chroma.1
          let window := afterFlag.ue.1.ue.1.getBit
          let afterWindow := if window.2 = 1 then window.1.ue.1.ue.1.ue.1.ue.1 else window.1
          let luma := afterWindow.ue
          let chromaDepth := luma.1.ue
          if chromaDepth.1.overrun then
            none
          else
            some {
              ptl := rbsp.take 12
              numTemporalLayers := BitVec.ofNat 8 (maxSubLayersMinus1 + 1)
              temporalIdNested := first &&& 1
              chromaFormatIdc := chroma.2.setWidth 8
              bitDepthLumaMinus8 := luma.2.setWidth 8
              bitDepthChromaMinus8 := chromaDepth.2.setWidth 8 }

/-- The arrays of a record: those of one type each that hold units. -/
def hvccArrays (arrays : List (BitVec 8 × List Bytes)) : Bytes :=
  (arrays.filter fun array => !array.2.isEmpty).flatMap fun array =>
    array.1 :: (beBytes 2 (min array.2.length 65535) ++ lengthPrefixed16 array.2)

/-- The fields of a record in front of its arrays. -/
def hvccHeader (info : HevcSpsInfo) : Bytes :=
  1 :: (info.ptl ++ [0xF0, 0x00, 0xFC, 0xFC ||| (info.chromaFormatIdc &&& 0x03),
    0xF8 ||| (info.bitDepthLumaMinus8 &&& 0x07), 0xF8 ||| (info.bitDepthChromaMinus8 &&& 0x07),
    0, 0, ((info.numTemporalLayers &&& 0x07) <<< 3) ||| ((info.temporalIdNested &&& 1) <<< 2) |||
      0x03])

/-- Build a record of HEVC. -/
def buildHevcHvcc (vps sps pps : List Bytes) : Option Bytes :=
  match sps with
  | [] => none
  | first :: _ =>
      match HevcSpsInfo.parse first with
      | none => none
      | some info =>
          let arrays := [(32#8, vps), (33#8, sps), (34#8, pps)]
          some (hvccHeader info ++
            (BitVec.ofNat 8 (arrays.filter fun array => !array.2.isEmpty).length ::
              hvccArrays arrays))

/-! ## The decision -/

def recordNalLengthSize (kind : HeaderKind) (extradata : Bytes) : Option Nat :=
  if extradata[0]? ≠ some 1 then
    none
  else
    match kind with
    | .h264 => extradata[4]?.map fun b => (b &&& 0x03).toNat + 1
    | .h265 => extradata[21]?.map fun b => (b &&& 0x03).toNat + 1
    | .h266 => none

/-- A record, and whether the samples still are in the byte stream format. -/
structure LengthPrefixed where
  record : Bytes
  repack : Bool
deriving DecidableEq

/-- Parameter sets by their types. -/
structure Sets where
  vps : List Bytes
  sps : List Bytes
  pps : List Bytes

/-- Put a unit to the parameter sets of its type. -/
def Sets.add (kind : HeaderKind) (sets : Sets) (nal : Bytes) : Sets :=
  match NalHeader.parse kind nal with
  | none => sets
  | some header =>
      match kind, header.nalUnitType.toNat with
      | .h264, 7 | .h265, 33 => { sets with sps := sets.sps ++ [nal] }
      | .h264, 8 | .h265, 34 => { sets with pps := sets.pps ++ [nal] }
      | .h265, 32 => { sets with vps := sets.vps ++ [nal] }
      | _, _ => sets

/-- The parameter sets of some units. -/
def Sets.collect (kind : HeaderKind) (list : List Bytes) : Sets :=
  list.foldl (Sets.add kind) ⟨[], [], []⟩

/-- The record of the parameter sets. -/
def buildRecord (kind : HeaderKind) (sets : Sets) : Option Bytes :=
  match kind with
  | .h264 => buildH264Avcc sets.sps sets.pps
  | .h265 => buildHevcHvcc sets.vps sets.sps sets.pps
  | .h266 => none

/-- Decide what to store for some extradata: a record as it is, or one built from a byte stream. -/
def lengthPrefixedConfig (kind : HeaderKind) (extradata : Bytes) : Option LengthPrefixed :=
  match extradata with
  | [] => none
  | first :: _ =>
      if first = 0 then
        (buildRecord kind (Sets.collect kind (units extradata .annexB))).map (⟨·, true⟩)
      else
        some ⟨extradata, false⟩

/-! ## What a record says -/

/-- The units of one type, in their order. -/
def ofType (kind : HeaderKind) (type : Nat) (list : List Bytes) : List Bytes :=
  list.filter fun nal =>
    decide ((NalHeader.parse kind nal).map (fun header => header.nalUnitType.toNat) = some type)

/-- A number of units behind lengths of 16 bits, and what is left. -/
def takeUnits : Nat → Bytes → Option (List Bytes × Bytes)
  | 0, bytes => some ([], bytes)
  | count + 1, bytes =>
      let len := beNat (bytes.take 2)
      let rest := bytes.drop 2
      if bytes.length < 2 ∨ rest.length < len then
        none
      else
        (takeUnits count (rest.drop len)).map fun taken => (rest.take len :: taken.1, taken.2)

/-- The parameter sets in a record of H.264, and what stands behind them. -/
def parseAvcc (record : Bytes) : Option (List Bytes × List Bytes × Bytes) :=
  match record.drop 5 with
  | [] => none
  | count :: rest =>
      match takeUnits (count &&& 0x1F).toNat rest with
      | some (sps, count :: rest) =>
          (takeUnits count.toNat rest).map fun taken => (sps, taken.1, taken.2)
      | _ => none

def takeArrays : Nat → Bytes → Option (List (Nat × List Bytes) × Bytes)
  | 0, bytes => some ([], bytes)
  | count + 1, type :: high :: low :: rest =>
      match takeUnits (beNat [high, low]) rest with
      | none => none
      | some (list, rest) =>
          (takeArrays count rest).map fun taken =>
            (((type &&& 0x3F).toNat, list) :: taken.1, taken.2)
  | _ + 1, _ => none

/-- The arrays in a record of HEVC, and what stands behind them. -/
def parseHvcc (record : Bytes) : Option (List (Nat × List Bytes) × Bytes) :=
  match record.drop 22 with
  | [] => none
  | count :: rest => takeArrays count.toNat rest

/-- The arrays that the parameter sets of HEVC make. -/
def expectedArrays (list : List Bytes) : List (Nat × List Bytes) :=
  ([32, 33, 34].map fun type => (type, ofType .h265 type list)).filter fun array =>
    !array.2.isEmpty

/-- A record holds the parameter sets of some units, and behind them only the bytes of a high
profile. -/
def Says (kind : HeaderKind) (record : Bytes) (list : List Bytes) : Prop :=
  recordNalLengthSize kind record = some 4 ∧
    match kind with
    | .h264 => ∃ tail, parseAvcc record = some (ofType .h264 7 list, ofType .h264 8 list, tail) ∧
        (tail.length = 0 ∨ tail.length = 4)
    | .h265 => parseHvcc record = some (expectedArrays list, [])
    | .h266 => False

/-- The lengths of some units fit into 16 bits. -/
def Short (list : List Bytes) : Prop :=
  ∀ unit ∈ list, unit.length ≤ 65535

/-- The parameter sets fit into the fields of a record. -/
def Fits (kind : HeaderKind) (list : List Bytes) : Prop :=
  match kind with
  | .h264 => ((ofType .h264 7 list).length ≤ 31 ∧ Short (ofType .h264 7 list)) ∧
      (ofType .h264 8 list).length ≤ 255 ∧ Short (ofType .h264 8 list)
  | .h265 => ∀ type ∈ [32, 33, 34],
      (ofType .h265 type list).length ≤ 65535 ∧ Short (ofType .h265 type list)
  | .h266 => False

/-! ## Units behind a count -/

variable {kind : HeaderKind} {record bytes rest : Bytes} {list : List Bytes} {count : Nat}

/-- Units behind their lengths are found again. -/
theorem takeUnits_lengthPrefixed16 (h : Short list) (rest : Bytes) :
    takeUnits list.length (lengthPrefixed16 list ++ rest) = some (list, rest) := by
  induction list with
  | nil => rfl
  | cons unit list ih =>
      rcases List.forall_mem_cons.mp h with ⟨hunit, hlist⟩
      have hlen := length_beBytes 2 unit.length
      have hvalue : beNat (beBytes 2 unit.length) = unit.length :=
        beNat_beBytes (by omega)
      have henc : lengthPrefixed16 (unit :: list) ++ rest =
          beBytes 2 unit.length ++ (unit ++ (lengthPrefixed16 list ++ rest)) := by
        rw [lengthPrefixed16, List.flatMap_cons, Nat.min_eq_left hunit, List.append_assoc,
          List.append_assoc]
        rfl
      rw [henc, List.length_cons, takeUnits, List.take_left' hlen, List.drop_left' hlen, hvalue,
        List.drop_left, List.take_left, ih hlist,
        if_neg (by rw [List.length_append, List.length_append]; omega)]
      rfl

/-- As many units are found as are asked for, and none longer than its length can say. -/
theorem takeUnits_bounds (h : takeUnits count bytes = some (list, rest)) :
    list.length = count ∧ Short list := by
  induction count generalizing bytes list rest with
  | zero =>
      cases h
      exact ⟨rfl, nofun⟩
  | succ count ih =>
      rw [takeUnits] at h
      split at h
      · cases h
      · rename_i hlong
        rcases Option.map_eq_some_iff.mp h with ⟨⟨list', rest'⟩, htaken, heq⟩
        rcases ih htaken with ⟨hcount, hshort⟩
        have hlt := beNat_lt (bytes.take 2)
        rw [List.length_take, Nat.min_eq_left (by omega)] at hlt
        cases heq
        refine ⟨by rw [List.length_cons, hcount], List.forall_mem_cons.mpr ⟨?_, hshort⟩⟩
        rw [List.length_take]
        omega

/-- Arrays are found again. -/
theorem takeArrays_flatMap {arrays : List (BitVec 8 × List Bytes)} (rest : Bytes)
    (h : ∀ array ∈ arrays, array.2.length ≤ 65535 ∧ Short array.2) :
    takeArrays arrays.length ((arrays.flatMap fun array =>
        array.1 :: (beBytes 2 (min array.2.length 65535) ++ lengthPrefixed16 array.2)) ++ rest) =
      some (arrays.map fun array => ((array.1 &&& 0x3F).toNat, array.2), rest) := by
  induction arrays with
  | nil => rfl
  | cons array arrays ih =>
      rcases List.forall_mem_cons.mp h with ⟨⟨hcount, hshort⟩, harrays⟩
      have hvalue : beNat (beBytes 2 array.2.length) = array.2.length :=
        beNat_beBytes (by omega)
      rw [List.flatMap_cons, List.length_cons, Nat.min_eq_left hcount, List.cons_append,
        List.cons_append, List.append_assoc, List.append_assoc]
      cases hbytes : beBytes 2 array.2.length with
      | nil => cases hbytes
      | cons high low =>
          match low, hbytes with
          | [low], hbytes =>
              rw [hbytes] at hvalue
              rw [List.cons_append, List.cons_append, List.nil_append, takeArrays, hvalue,
                takeUnits_lengthPrefixed16 hshort]
              dsimp only
              rw [ih harrays]
              rfl

theorem takeArrays_bounds {arrays : List (Nat × List Bytes)}
    (h : takeArrays count bytes = some (arrays, rest)) :
    ∀ array ∈ arrays, array.2.length ≤ 65535 ∧ Short array.2 := by
  induction count generalizing bytes arrays rest with
  | zero =>
      cases h
      nofun
  | succ count ih =>
      match bytes with
      | [] | [_] | [_, _] => cases h
      | type :: high :: low :: bytes =>
          rw [takeArrays] at h
          cases hunits : takeUnits (beNat [high, low]) bytes with
          | none =>
              rw [hunits] at h
              cases h
          | some taken =>
              rw [hunits] at h
              rcases Option.map_eq_some_iff.mp h with ⟨⟨arrays', rest'⟩, htaken, heq⟩
              rcases takeUnits_bounds hunits with ⟨hcount, hshort⟩
              have hlt := beNat_lt [high, low]
              cases heq
              refine List.forall_mem_cons.mpr ⟨⟨?_, hshort⟩, ih htaken⟩
              dsimp only
              simp only [List.length_cons, List.length_nil] at hlt
              omega

/-! ## What is built -/

theorem Sets.collect_eq (kind : HeaderKind) (list : List Bytes) :
    Sets.collect kind list = match kind with
      | .h264 => ⟨[], ofType .h264 7 list, ofType .h264 8 list⟩
      | .h265 => ⟨ofType .h265 32 list, ofType .h265 33 list, ofType .h265 34 list⟩
      | .h266 => ⟨[], [], []⟩ := by
  induction list using List.reverseRecOn with
  | nil => cases kind <;> rfl
  | append_singleton list nal ih =>
      have hstep : Sets.collect kind (list ++ [nal]) = Sets.add kind (Sets.collect kind list) nal := by
        rw [Sets.collect, List.foldl_append]
        rfl
      rw [hstep, ih]
      unfold Sets.add
      cases hparse : NalHeader.parse kind nal with
      | none => cases kind <;> simp [ofType, hparse]
      | some header =>
          cases kind with
          | h264 => dsimp only; split <;> simp_all [ofType]
          | h265 => dsimp only; split <;> simp_all [ofType]
          | h266 => rfl

theorem avccTail_length (profileIdc : BitVec 8) (firstSps : Bytes) :
    (avccTail profileIdc firstSps).length = 0 ∨ (avccTail profileIdc firstSps).length = 4 := by
  unfold avccTail
  split
  · cases hext : highProfileExtension firstSps with
    | none => exact Or.inl rfl
    | some ext =>
        unfold highProfileExtension at hext
        split at hext
        · cases hext
        split at hext
        · cases hext
        rcases Option.ite_none_left_eq_some.mp hext with ⟨-, heq⟩
        cases heq
        exact Or.inr rfl
  · exact Or.inl rfl

theorem count_field {k : Nat} (h : k ≤ 31) :
    ((0xE0 ||| BitVec.ofNat 8 k) &&& 0x1F).toNat = k := by
  have hall : ∀ k < 32, ((0xE0 ||| BitVec.ofNat 8 k) &&& 0x1F).toNat = k := by decide +kernel
  exact hall k (by omega)

/-- A record of H.264 says what it contains if and only if its fields can. -/
theorem avcc_says_iff {sps pps : List Bytes} (h : buildH264Avcc sps pps = some record) :
    recordNalLengthSize .h264 record = some 4 ∧
      ((∃ tail, parseAvcc record = some (sps, pps, tail) ∧ (tail.length = 0 ∨ tail.length = 4)) ↔
        (sps.length ≤ 31 ∧ Short sps) ∧ pps.length ≤ 255 ∧ Short pps) := by
  unfold buildH264Avcc at h
  split at h
  swap
  · cases h
  · rename_i header profileIdc profileCompatibility levelIdc first others
    have hrecord := (Option.some.inj h).symm
    generalize (header :: profileIdc :: profileCompatibility :: levelIdc :: first) :: others = sps
      at *
    have hdrop : record.drop 5 = (0xE0 ||| BitVec.ofNat 8 (min sps.length 31)) ::
        (lengthPrefixed16 sps ++ (BitVec.ofNat 8 (min pps.length 255) :: (lengthPrefixed16 pps ++
          avccTail profileIdc
            (header :: profileIdc :: profileCompatibility :: levelIdc :: first)))) := by
      rw [hrecord]
      rfl
    refine ⟨by rw [hrecord]; rfl, ?_, ?_⟩
    · rintro ⟨tail, hparse, -⟩
      unfold parseAvcc at hparse
      split at hparse
      · cases hparse
      rename_i count rest _
      split at hparse
      · rename_i list count' rest' htaken
        rcases Option.map_eq_some_iff.mp hparse with ⟨⟨list', rest''⟩, htaken', heq⟩
        simp only [Prod.mk.injEq] at heq
        rcases heq with ⟨rfl, rfl, rfl⟩
        rcases takeUnits_bounds htaken with ⟨hcount, hshort⟩
        rcases takeUnits_bounds htaken' with ⟨hcount', hshort'⟩
        have hlt := count'.isLt
        have hle : (count &&& 0x1F).toNat ≤ 31 := by
          rw [BitVec.toNat_and]
          exact Nat.and_le_right
        exact ⟨⟨by omega, hshort⟩, by omega, hshort'⟩
      · cases hparse
    · rintro ⟨⟨hsps, hshort⟩, hpps, hshort'⟩
      refine ⟨_, ?_, avccTail_length profileIdc
        (header :: profileIdc :: profileCompatibility :: levelIdc :: first)⟩
      have hcount : (BitVec.ofNat 8 (min pps.length 255)).toNat = pps.length := by
        rw [BitVec.toNat_ofNat]
        omega
      unfold parseAvcc
      rw [hdrop]
      dsimp only
      rw [count_field (Nat.min_le_right _ _), Nat.min_eq_left hsps,
        takeUnits_lengthPrefixed16 hshort]
      dsimp only
      rw [hcount, takeUnits_lengthPrefixed16 hshort']
      rfl

theorem ptl_length {first : Bytes} {info : HevcSpsInfo} (h : HevcSpsInfo.parse first = some info) :
    info.ptl.length = 12 := by
  unfold HevcSpsInfo.parse at h
  split at h
  · cases h
  split at h
  · cases h
  · cases h
  · split at h
    · cases h
    · rename_i hlong
      rcases Option.ite_none_left_eq_some.mp h with ⟨-, heq⟩
      cases heq
      dsimp only
      rw [List.length_take]
      omega

theorem width_field (layers nested : BitVec 8) :
    ((((layers &&& 0x07) <<< 3) ||| ((nested &&& 1) <<< 2) ||| 0x03) &&& 0x03).toNat + 1 = 4 := by
  have hlayers : ∀ x : BitVec 8, (x <<< 3) &&& 0x03 = 0 := by decide +kernel
  have hnested : ∀ x : BitVec 8, (x <<< 2) &&& 0x03 = 0 := by decide +kernel
  rw [BitVec.and_or_distrib_right, BitVec.and_or_distrib_right, hlayers, hnested]
  rfl

/-- A record of HEVC says what it contains if and only if its fields can. -/
theorem hvcc_says_iff {vps sps pps : List Bytes} (h : buildHevcHvcc vps sps pps = some record) :
    recordNalLengthSize .h265 record = some 4 ∧
      (parseHvcc record = some (([(32#8, vps), (33#8, sps), (34#8, pps)].filter fun array =>
          !array.2.isEmpty).map fun array => ((array.1 &&& 0x3F).toNat, array.2), []) ↔
        ∀ list ∈ [vps, sps, pps], list.length ≤ 65535 ∧ Short list) := by
  unfold buildHevcHvcc at h
  split at h
  · cases h
  split at h
  · cases h
  rename_i first others _ info hinfo
  have hptl := ptl_length hinfo
  have hrecord := (Option.some.inj h).symm
  generalize hpresent : ([(32#8, vps), (33#8, first :: others), (34#8, pps)].filter fun array =>
    !array.2.isEmpty) = present at *
  rw [hvccArrays, hpresent] at hrecord
  have hfew : present.length ≤ 3 := hpresent ▸ List.length_filter_le _ _
  have hheader : (hvccHeader info).length = 22 := by
    rw [hvccHeader, List.length_cons, List.length_append, hptl]
    rfl
  have hcount : (BitVec.ofNat 8 present.length).toNat = present.length := by
    rw [BitVec.toNat_ofNat]
    omega
  have hdrop : record.drop 22 = BitVec.ofNat 8 present.length ::
      present.flatMap fun array =>
        array.1 :: (beBytes 2 (min array.2.length 65535) ++ lengthPrefixed16 array.2) :=
    hrecord ▸ List.drop_left' hheader
  have hmem : (∀ array ∈ present, array.2.length ≤ 65535 ∧ Short array.2) ↔
      ∀ list ∈ [vps, first :: others, pps], list.length ≤ 65535 ∧ Short list := by
    have hempty : ([] : List Bytes).length ≤ 65535 ∧ Short [] := ⟨Nat.zero_le _, nofun⟩
    rw [← hpresent]
    cases vps <;> cases pps <;> simp [hempty]
  refine ⟨?_, ?_⟩
  · have hwidth : record[21]? = some (((info.numTemporalLayers &&& 0x07) <<< 3) |||
        ((info.temporalIdNested &&& 1) <<< 2) ||| 0x03) := by
      rw [hrecord, List.getElem?_append_left (by omega), hvccHeader, List.getElem?_cons_succ,
        List.getElem?_append_right (by omega), hptl]
      rfl
    have hversion : record[0]? = some 1 := by
      rw [hrecord]
      rfl
    rw [recordNalLengthSize, if_neg (not_not.mpr hversion), hwidth, Option.map_some, width_field]
  · rw [parseHvcc, hdrop]
    show takeArrays _ _ = _ ↔ _
    rw [hcount, ← hmem]
    constructor
    · intro hparse array harray
      exact takeArrays_bounds hparse _ (List.mem_map_of_mem harray)
    · intro hfits
      have hfound := takeArrays_flatMap [] hfits
      rwa [List.append_nil] at hfound

theorem expectedArrays_eq (list : List Bytes) :
    expectedArrays list = ([(32#8, ofType .h265 32 list), (33#8, ofType .h265 33 list),
      (34#8, ofType .h265 34 list)].filter fun array => !array.2.isEmpty).map
        fun array => ((array.1 &&& 0x3F).toNat, array.2) := by
  have hmap : ([32, 33, 34].map fun type => (type, ofType .h265 type list)) =
      [(32#8, ofType .h265 32 list), (33#8, ofType .h265 33 list),
        (34#8, ofType .h265 34 list)].map fun array => ((array.1 &&& 0x3F).toNat, array.2) := by
    simp
  rw [expectedArrays, hmap, List.filter_map]
  rfl

theorem says_iff_fits (h : buildRecord kind (Sets.collect kind list) = some record) :
    Says kind record list ↔ Fits kind list := by
  rw [Sets.collect_eq] at h
  cases kind with
  | h264 =>
      rcases avcc_says_iff h with ⟨hwidth, hiff⟩
      rw [Says, Fits, ← hiff]
      exact and_iff_right hwidth
  | h265 =>
      rcases hvcc_says_iff h with ⟨hwidth, hiff⟩
      rw [← expectedArrays_eq] at hiff
      rw [Says, Fits, hiff, and_iff_right hwidth]
      simp
  | h266 => cases h

/-- Whenever a record is built, it says what it contains if and only if its counts and lengths can. -/
theorem config_says_iff (kind : HeaderKind) (extradata record : Bytes)
    (h : lengthPrefixedConfig kind extradata = some ⟨record, true⟩) :
    Says kind record (units extradata .annexB) ↔ Fits kind (units extradata .annexB) := by
  unfold lengthPrefixedConfig at h
  split at h
  · cases h
  · split at h
    · rcases Option.map_eq_some_iff.mp h with ⟨record', hbuild, heq⟩
      cases heq
      exact says_iff_fits hbuild
    · cases h

/-- A sequence parameter set of the baseline profile. -/
def shortSps : Bytes :=
  [0x67, 66, 0, 10]

/-- Units in the byte stream format are found, and are what a record is built from. -/
theorem config_frame (kind : HeaderKind) {first : Bool × Bytes} {framed : List (Bool × Bytes)}
    (h : ∀ unit ∈ first :: framed, scan unit.2 = none ∧ Terminated unit.2) :
    units (frame (first :: framed)) .annexB = (first :: framed).map Prod.snd ∧
      lengthPrefixedConfig kind (frame (first :: framed)) =
        (buildRecord kind (Sets.collect kind ((first :: framed).map Prod.snd))).map
          fun record => ⟨record, true⟩ := by
  have hunits : units (frame (first :: framed)) .annexB = (first :: framed).map Prod.snd :=
    NalIter.collect_frame h
  refine ⟨hunits, ?_⟩
  rw [← hunits]
  rcases first with ⟨long, unit⟩
  cases long <;> rfl

/-- Two sequence parameter sets and a picture parameter set. -/
def avcSets : List (Bool × Bytes) :=
  [(true, shortSps), (false, [0x67, 66, 0, 20, 5]), (true, [0x68, 0xCE, 0x80])]

/-- A parameter set of each of the three types. -/
def hevcSets : List (Bool × Bytes) :=
  [(true, [0x40, 1, 0x0C, 0x80]),
    (true, [0x42, 1, 1, 1, 96, 9, 9, 9, 9, 144, 9, 9, 9, 9, 93, 0xAD, 0x80]),
    (false, [0x44, 1, 0xC0, 0x80])]

/-- Records of several parameter sets. -/
theorem config_says_sets :
    Says .h264 [1, 66, 0, 10, 0xFF, 0xE2, 0, 4, 0x67, 66, 0, 10, 0, 5, 0x67, 66, 0, 20, 5, 1,
        0, 3, 0x68, 0xCE, 0x80] (avcSets.map Prod.snd) ∧
      ∃ record, lengthPrefixedConfig .h265 (frame hevcSets) = some ⟨record, true⟩ ∧
        Says .h265 record (hevcSets.map Prod.snd) := by
  have havc : ∀ unit ∈ avcSets, scan unit.2 = none ∧ Terminated unit.2 := by
    intro unit hunit
    fin_cases hunit <;> exact ⟨rfl, _, rfl, by decide⟩
  have hhevc : ∀ unit ∈ hevcSets, scan unit.2 = none ∧ Terminated unit.2 := by
    intro unit hunit
    fin_cases hunit <;> exact ⟨rfl, _, rfl, by decide⟩
  constructor
  · rcases config_frame .h264 havc with ⟨hunits, hconfig⟩
    have hsays := (config_says_iff .h264 _ [1, 66, 0, 10, 0xFF, 0xE2, 0, 4, 0x67, 66, 0, 10, 0, 5,
      0x67, 66, 0, 20, 5, 1, 0, 3, 0x68, 0xCE, 0x80] (hconfig.trans (by decide +kernel))).mpr
    rw [hunits] at hsays
    refine hsays ?_
    unfold Fits Short
    decide
  · rcases hbuild : buildRecord .h265 (Sets.collect .h265 (hevcSets.map Prod.snd)) with _ | record
    · exact absurd hbuild (by decide +kernel)
    have hconfig : lengthPrefixedConfig .h265 (frame hevcSets) =
        (buildRecord .h265 (Sets.collect .h265 (hevcSets.map Prod.snd))).map fun record =>
          ⟨record, true⟩ := (config_frame .h265 hhevc).2
    rw [hbuild, Option.map_some] at hconfig
    have hsays := (config_says_iff .h265 _ record hconfig).mpr
    rw [show units (frame hevcSets) .annexB = _ from (config_frame .h265 hhevc).1] at hsays
    refine ⟨record, hconfig, hsays ?_⟩
    unfold Fits Short
    decide

/-- With 32 parameter sets the record says 31 and holds all of them. -/
theorem not_says_many :
    ∃ record, lengthPrefixedConfig .h264 (frame (List.replicate 32 (false, shortSps))) =
        some ⟨record, true⟩ ∧
      ¬ Says .h264 record (units (frame (List.replicate 32 (false, shortSps))) .annexB) := by
  have hterminated : ∀ unit ∈ List.replicate 32 (false, shortSps),
      scan unit.2 = none ∧ Terminated unit.2 := by
    intro unit hunit
    rw [List.eq_of_mem_replicate hunit]
    exact ⟨rfl, 10, rfl, by decide⟩
  rw [List.replicate_succ] at hterminated ⊢
  rcases config_frame .h264 hterminated with ⟨hunits, hconfig⟩
  rw [← List.replicate_succ, List.map_replicate] at hunits hconfig
  rw [← List.replicate_succ]
  rcases hbuild : buildRecord .h264 (Sets.collect .h264 (List.replicate 32 shortSps)) with _ | record
  · cases hbuild
  refine ⟨record, hconfig.trans (by rw [hbuild]; rfl), ?_⟩
  rw [hunits, says_iff_fits hbuild]
  rintro ⟨⟨hcount, -⟩, -⟩
  exact absurd hcount (by decide)

end Nalu
end Vaco
