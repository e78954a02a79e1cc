import Vaco.H264.PictureOrder

/-!
# Picture order counts by the clause

Clause 8.2.1 derives the counts of a picture over unbounded integers, from its own syntax elements
and from what was derived for the pictures before it: the previous reference picture for the first
way, the previous picture for the others.  The operation that resets the counts takes them down by
the smaller one when the picture has been decoded, and its frame number to zero.

Main results:

- `advanceAll_eq_counts`: when the counts are those of the clause.

Current gaps:

- Frames that are inferred for gaps in frame numbers are not decoded pictures here.
-/

namespace Vaco
namespace H264

/-! ## The clause -/

/-- A picture with what the clause derived for it. -/
structure Decoded where
  header : SliceHeader
  picOrderCntMsb : Int
  frameNumOffset : Int
  counts : PictureOrderCount
deriving DecidableEq

/-- The count of the top field of a picture that resets the counts, when it has been decoded. -/
def Decoded.topAfterMmco5 (d : Decoded) : Int :=
  match d.counts.top, d.counts.bottom with
  | some top, some bottom => top - min top bottom
  | _, _ => 0

/-- The previous reference picture. -/
def prevReference (earlier : List Decoded) : Option Decoded :=
  earlier.find? fun d => d.header.isReference

/-- The high and the low part that the first way starts from. -/
def prevPicOrderCnt (earlier : List Decoded) (h : SliceHeader) : Int × Int :=
  if h.isIdr then
    (0, 0)
  else
    match prevReference earlier with
    | none => (0, 0)
    | some r =>
        if r.header.hasMmco5 then
          if r.header.isBottomField then (0, 0) else (0, r.topAfterMmco5)
        else
          (r.picOrderCntMsb, r.header.picOrderCntLsb.getD 0)

/-- The high part of a count: that of the previous one, or the next one up or down when the low part
has wrapped. -/
def msbFrom (maxLsb lsb : Int) (prev : Int × Int) : Int :=
  if lsb < prev.2 ∧ maxLsb / 2 ≤ prev.2 - lsb then
    prev.1 + maxLsb
  else if prev.2 < lsb ∧ maxLsb / 2 < lsb - prev.2 then
    prev.1 - maxLsb
  else
    prev.1

/-- The counts by the first way. -/
def countsType0 (msb : Int) (h : SliceHeader) : PictureOrderCount :=
  let lsb : Int := h.picOrderCntLsb.getD 0
  if !h.fieldPic then
    ⟨some (msb + lsb), some (msb + lsb + h.deltaPicOrderCntBottom.getD 0)⟩
  else if h.isBottomField then
    ⟨none, some (msb + lsb)⟩
  else
    ⟨some (msb + lsb), none⟩

/-- The previous frame number and its offset. -/
def prevFrameNum (earlier : List Decoded) : Nat × Int :=
  match earlier.head? with
  | none => (0, 0)
  | some d => if d.header.hasMmco5 then (0, 0) else (d.header.frameNum, d.frameNumOffset)

def frameNumOffsetOf (sps : Sps) (earlier : List Decoded) (h : SliceHeader) : Int :=
  if h.isIdr then
    0
  else if h.frameNum < (prevFrameNum earlier).1 then
    (prevFrameNum earlier).2 + sps.maxFrameNum
  else
    (prevFrameNum earlier).2

/-- The number of a frame from the last reset on, for a cycle that is not empty. -/
def absFrameNumOf (p : PocType1) (offset : Int) (h : SliceHeader) : Int :=
  let number := if p.offsetForRefFrame.length ≠ 0 then offset + h.frameNum else 0
  if !h.isReference ∧ 0 < number then number - 1 else number

/-- The count that the second way expects. -/
def expectedPicOrderCnt (p : PocType1) (offset : Int) (h : SliceHeader) : Int :=
  let number := absFrameNumOf p offset h
  let expected :=
    if 0 < number ∧ 0 < p.offsetForRefFrame.length then
      (number - 1) / p.offsetForRefFrame.length * p.offsetForRefFrame.sum +
        (p.offsetForRefFrame.take (((number - 1) % p.offsetForRefFrame.length).toNat + 1)).sum
    else
      0
  if h.isReference then expected else expected + p.offsetForNonRefPic

/-- The counts by the second way. -/
def countsType1 (p : PocType1) (offset : Int) (h : SliceHeader) : PictureOrderCount :=
  let expected := expectedPicOrderCnt p offset h
  let d0 := h.deltaPicOrderCnt.1.getD 0
  let d1 := h.deltaPicOrderCnt.2.getD 0
  if !h.fieldPic then
    ⟨some (expected + d0), some (expected + d0 + p.offsetForTopToBottomField + d1)⟩
  else if h.isBottomField then
    ⟨none, some (expected + p.offsetForTopToBottomField + d0)⟩
  else
    ⟨some (expected + d0), none⟩

/-- The count by the third way. -/
def tempPicOrderCnt (offset : Int) (h : SliceHeader) : Int :=
  if h.isIdr then
    0
  else if h.isReference then
    2 * (offset + h.frameNum)
  else
    2 * (offset + h.frameNum) - 1

/-- The counts by the third way. -/
def countsType2 (offset : Int) (h : SliceHeader) : PictureOrderCount :=
  let temp := tempPicOrderCnt offset h
  if !h.fieldPic then
    ⟨some temp, some temp⟩
  else if h.isBottomField then
    ⟨none, some temp⟩
  else
    ⟨some temp, none⟩

/-- What the clause derives for a picture from those before it, the last one first. -/
def decode (sps : Sps) (earlier : List Decoded) (h : SliceHeader) : Decoded :=
  match sps.picOrderCntType with
  | 0 =>
      let msb := msbFrom sps.maxPicOrderCntLsb (h.picOrderCntLsb.getD 0) (prevPicOrderCnt earlier h)
      ⟨h, msb, 0, countsType0 msb h⟩
  | 1 =>
      let offset := frameNumOffsetOf sps earlier h
      ⟨h, 0, offset,
        match sps.pocType1 with
        | none => ⟨some 0, some 0⟩
        | some p => countsType1 p offset h⟩
  | _ =>
      let offset := frameNumOffsetOf sps earlier h
      ⟨h, 0, offset, countsType2 offset h⟩

/-- What the clause derives for pictures in decoding order. -/
def decodeAll (sps : Sps) : List Decoded → List SliceHeader → List Decoded
  | _, [] => []
  | earlier, h :: rest =>
      decode sps earlier h :: decodeAll sps (decode sps earlier h :: earlier) rest

/-! ## What is kept -/

/-- The kept parts of the count: behind a reset the count of the top field as it was, for one
picture; else those of the previous reference picture. -/
def keptPicOrderCnt (earlier : List Decoded) (h : SliceHeader) : Int × Int :=
  if h.isIdr then
    (0, 0)
  else if (earlier.head?.map fun d => d.header.hasMmco5).getD false then
    if (earlier.head?.map fun d => d.header.isBottomField).getD false then
      (0, 0)
    else
      (0, (earlier.head?.bind fun d => d.counts.top).getD 0)
  else
    match prevReference earlier with
    | none => (0, 0)
    | some r => (r.picOrderCntMsb, r.header.picOrderCntLsb.getD 0)

/-- The frame number that is kept: that of the last picture that is not a bottom field. -/
def keptFrameNum (earlier : List Decoded) : Nat :=
  ((earlier.find? fun d => !d.header.fieldPic ∨ !d.header.isBottomField).map fun d =>
    d.header.frameNum).getD 0

/-- What is kept decides as what the clause names: the high part comes out the same, or the kept
frame number is larger exactly when that of the previous picture is. -/
structure Decides (sps : Sps) (earlier : List Decoded) (h : SliceHeader) : Prop where
  msb_eq : sps.picOrderCntType = 0 →
    msbFrom sps.maxPicOrderCntLsb (h.picOrderCntLsb.getD 0) (keptPicOrderCnt earlier h) =
      msbFrom sps.maxPicOrderCntLsb (h.picOrderCntLsb.getD 0) (prevPicOrderCnt earlier h)
  wraps_iff : sps.picOrderCntType ≠ 0 → h.isIdr = false → ∀ d ∈ earlier.head?,
    d.header.hasMmco5 = false →
      (h.frameNum < keptFrameNum earlier ↔ h.frameNum < d.header.frameNum)

/-- What is kept decides as what the clause names at each picture. -/
def AllDecide (sps : Sps) : List Decoded → List SliceHeader → Prop
  | _, [] => True
  | earlier, h :: rest =>
      Decides sps earlier h ∧ AllDecide sps (decode sps earlier h :: earlier) rest

instance (sps : Sps) (earlier : List Decoded) (h : SliceHeader) :
    Decidable (Decides sps earlier h) :=
  decidable_of_iff
    ((sps.picOrderCntType = 0 →
      msbFrom sps.maxPicOrderCntLsb (h.picOrderCntLsb.getD 0) (keptPicOrderCnt earlier h) =
        msbFrom sps.maxPicOrderCntLsb (h.picOrderCntLsb.getD 0) (prevPicOrderCnt earlier h)) ∧
      (sps.picOrderCntType ≠ 0 → h.isIdr = false → ∀ d ∈ earlier.head?,
        d.header.hasMmco5 = false →
          (h.frameNum < keptFrameNum earlier ↔ h.frameNum < d.header.frameNum)))
    ⟨fun ⟨hmsb, hwraps⟩ => ⟨hmsb, hwraps⟩, fun ⟨hmsb, hwraps⟩ => ⟨hmsb, hwraps⟩⟩

instance decidableAllDecide (sps : Sps) :
    (earlier : List Decoded) → (hs : List SliceHeader) → Decidable (AllDecide sps earlier hs)
  | _, [] => isTrue trivial
  | earlier, h :: rest =>
      have := decidableAllDecide sps (decode sps earlier h :: earlier) rest
      inferInstanceAs
        (Decidable (Decides sps earlier h ∧ AllDecide sps (decode sps earlier h :: earlier) rest))

/-- A parameter set whose fields are in range, with the offsets that the second way needs. -/
structure Sps.WellFormed (sps : Sps) : Prop where
  type_le : sps.picOrderCntType ≤ 2
  frameNum_le : sps.log2MaxFrameNum ≤ 16
  lsb_pos : 4 ≤ sps.log2MaxPicOrderCntLsb
  lsb_le : sps.log2MaxPicOrderCntLsb ≤ 16
  offsets : sps.picOrderCntType = 1 → sps.pocType1.isSome = true

/-- A header whose fields are in range; only a field says which one it is. -/
structure SliceHeader.WellFormed (sps : Sps) (h : SliceHeader) : Prop where
  frameNum_lt : h.frameNum < sps.maxFrameNum
  lsb_lt : h.picOrderCntLsb.getD 0 < sps.maxPicOrderCntLsb
  field_of_bottom : h.isBottomField = true → h.fieldPic = true

/-- 32 bits hold the values of a picture and what the top count lacks to 2^16. -/
structure Decoded.Small (d : Decoded) : Prop where
  msb : FitsI32 d.picOrderCntMsb
  offset : FitsI32 d.frameNumOffset
  top : ∀ top ∈ d.counts.top, FitsI32 top ∧ FitsI32 (2 ^ 16 - top)
  bottom : ∀ bottom ∈ d.counts.bottom, FitsI32 bottom

instance (sps : Sps) : Decidable sps.WellFormed :=
  decidable_of_iff
    (sps.picOrderCntType ≤ 2 ∧ sps.log2MaxFrameNum ≤ 16 ∧ 4 ≤ sps.log2MaxPicOrderCntLsb ∧
      sps.log2MaxPicOrderCntLsb ≤ 16 ∧ (sps.picOrderCntType = 1 → sps.pocType1.isSome = true))
    ⟨fun ⟨htype, hframe, hpos, hlsb, hoffsets⟩ => ⟨htype, hframe, hpos, hlsb, hoffsets⟩,
      fun ⟨htype, hframe, hpos, hlsb, hoffsets⟩ => ⟨htype, hframe, hpos, hlsb, hoffsets⟩⟩

instance (sps : Sps) (h : SliceHeader) : Decidable (h.WellFormed sps) :=
  decidable_of_iff
    (h.frameNum < sps.maxFrameNum ∧ h.picOrderCntLsb.getD 0 < sps.maxPicOrderCntLsb ∧
      (h.isBottomField = true → h.fieldPic = true))
    ⟨fun ⟨hframe, hlsb, hfield⟩ => ⟨hframe, hlsb, hfield⟩,
      fun ⟨hframe, hlsb, hfield⟩ => ⟨hframe, hlsb, hfield⟩⟩

instance (d : Decoded) : Decidable d.Small :=
  decidable_of_iff
    (FitsI32 d.picOrderCntMsb ∧ FitsI32 d.frameNumOffset ∧
      (∀ top ∈ d.counts.top, FitsI32 top ∧ FitsI32 (2 ^ 16 - top)) ∧
        ∀ bottom ∈ d.counts.bottom, FitsI32 bottom)
    ⟨fun ⟨hmsb, hoffset, htop, hbottom⟩ => ⟨hmsb, hoffset, htop, hbottom⟩,
      fun ⟨hmsb, hoffset, htop, hbottom⟩ => ⟨hmsb, hoffset, htop, hbottom⟩⟩

/-! ## The code keeps it -/

/-- What the code has kept of the pictures before. -/
structure Keeps (sps : Sps) (s : PocState) (earlier : List Decoded) : Prop where
  mmco5 : s.prevHadMmco5 = (earlier.head?.map fun d => d.header.hasMmco5).getD false
  bottom : s.prevWasBottomField = (earlier.head?.map fun d => d.header.isBottomField).getD false
  top : s.prevTopFieldOrderCnt = (earlier.head?.bind fun d => d.counts.top).getD 0
  parts : sps.picOrderCntType = 0 → (s.prevPocMsb, s.prevPocLsb) =
    match prevReference earlier with
    | none => (0, 0)
    | some r => (r.picOrderCntMsb, (r.header.picOrderCntLsb.getD 0 : Int))
  frameNum : s.prevFrameNum = keptFrameNum earlier
  offset : sps.picOrderCntType ≠ 0 →
    s.prevFrameNumOffset = (earlier.head?.map Decoded.frameNumOffset).getD 0
  small : ∀ d ∈ earlier, d.Small
  header : ∀ d ∈ earlier, d.header.WellFormed sps

theorem keeps_new (sps : Sps) : Keeps sps .new [] where
  mmco5 := rfl
  bottom := rfl
  top := rfl
  parts := fun _ => rfl
  frameNum := rfl
  offset := fun _ => rfl
  small := fun _ h => nomatch h
  header := fun _ h => nomatch h

section Step

variable {sps : Sps} {s : PocState} {earlier : List Decoded} {h : SliceHeader}

theorem Sps.WellFormed.maxFrameNum_le (hsps : sps.WellFormed) : sps.maxFrameNum ≤ 2 ^ 16 :=
  Nat.pow_le_pow_right (Nat.succ_pos 1) ((Nat.mod_le _ _).trans hsps.frameNum_le)

theorem Sps.WellFormed.maxLsb_le (hsps : sps.WellFormed) : sps.maxPicOrderCntLsb ≤ 2 ^ 16 :=
  Nat.pow_le_pow_right (Nat.succ_pos 1) ((Nat.mod_le _ _).trans hsps.lsb_le)

theorem Keeps.prev_eq (hkeeps : Keeps sps s earlier) (htype : sps.picOrderCntType = 0) :
    (if h.isIdr then
      ((0, 0) : Int × Int)
    else if s.prevHadMmco5 then
      if s.prevWasBottomField then (0, 0) else (0, s.prevTopFieldOrderCnt)
    else
      (s.prevPocMsb, s.prevPocLsb)) = keptPicOrderCnt earlier h := by
  rw [keptPicOrderCnt, hkeeps.parts htype, hkeeps.mmco5, hkeeps.bottom, hkeeps.top]

/-- What is kept leaves room for a difference with a low part. -/
theorem Keeps.kept_fits (hkeeps : Keeps sps s earlier) (hsps : sps.WellFormed) (h : SliceHeader) :
    FitsI32 (keptPicOrderCnt earlier h).1 ∧ FitsI32 (keptPicOrderCnt earlier h).2 ∧
      FitsI32 (2 ^ 16 - (keptPicOrderCnt earlier h).2) := by
  have hzero : FitsI32 0 ∧ FitsI32 0 ∧ FitsI32 (2 ^ 16 - 0) := by decide
  have hmax := hsps.maxLsb_le
  rw [keptPicOrderCnt]
  split
  · exact hzero
  · split
    · split
      · exact hzero
      · cases hhead : earlier.head? with
        | none => exact hzero
        | some d =>
            have hsmall := hkeeps.small d (List.mem_of_mem_head? hhead)
            change FitsI32 0 ∧ FitsI32 (d.counts.top.getD 0) ∧ FitsI32 (2 ^ 16 - d.counts.top.getD 0)
            cases htop : d.counts.top with
            | none => exact hzero
            | some top => exact ⟨hzero.1, hsmall.top top htop⟩
    · split
      · exact hzero
      · rename_i r hr
        have hmem : r ∈ earlier := List.mem_of_find?_eq_some hr
        have hlsb := (hkeeps.header r hmem).lsb_lt
        refine ⟨(hkeeps.small r hmem).msb, ?_, ?_⟩
        · dsimp only [FitsI32]
          omega
        · dsimp only [FitsI32]
          omega

/-- The high part of the code is that of the clause. -/
theorem Keeps.msb_eq (hkeeps : Keeps sps s earlier) (hsps : sps.WellFormed)
    (hheader : h.WellFormed sps) (hdecides : Decides sps earlier h)
    (htype : sps.picOrderCntType = 0)
    (hfits : FitsI32 (msbFrom sps.maxPicOrderCntLsb (h.picOrderCntLsb.getD 0)
      (prevPicOrderCnt earlier h))) :
    (if wrapI32 (h.picOrderCntLsb.getD 0) < (keptPicOrderCnt earlier h).2 ∧
        wrapI32 sps.maxPicOrderCntLsb / 2 ≤
          wrapI32 ((keptPicOrderCnt earlier h).2 - wrapI32 (h.picOrderCntLsb.getD 0)) then
      wrapI32 ((keptPicOrderCnt earlier h).1 + wrapI32 sps.maxPicOrderCntLsb)
    else if (keptPicOrderCnt earlier h).2 < wrapI32 (h.picOrderCntLsb.getD 0) ∧
        wrapI32 sps.maxPicOrderCntLsb / 2 <
          wrapI32 (wrapI32 (h.picOrderCntLsb.getD 0) - (keptPicOrderCnt earlier h).2) then
      wrapI32 ((keptPicOrderCnt earlier h).1 - wrapI32 sps.maxPicOrderCntLsb)
    else
      (keptPicOrderCnt earlier h).1) =
      msbFrom sps.maxPicOrderCntLsb (h.picOrderCntLsb.getD 0) (prevPicOrderCnt earlier h) := by
  rcases hkeeps.kept_fits hsps h with ⟨hmsb, hlow, hdiff⟩
  have hmax := hsps.maxLsb_le
  have hlsb := hheader.lsb_lt
  rw [← hdecides.msb_eq htype] at hfits ⊢
  have hmaxWrap : wrapI32 sps.maxPicOrderCntLsb = sps.maxPicOrderCntLsb :=
    wrapI32_of_fits (by dsimp only [FitsI32]; omega)
  have hlsbWrap : wrapI32 (h.picOrderCntLsb.getD 0) = (h.picOrderCntLsb.getD 0 : Nat) :=
    wrapI32_of_fits (by dsimp only [FitsI32]; omega)
  rw [hmaxWrap, hlsbWrap]
  generalize keptPicOrderCnt earlier h = kept at *
  rcases hlow with ⟨hlow, hhigh⟩
  rcases hdiff with ⟨-, hdiff⟩
  generalize h.picOrderCntLsb.getD 0 = lsb at *
  have hnext : ((lsb : Int) < kept.2 ∧ (sps.maxPicOrderCntLsb : Int) / 2 ≤ wrapI32 (kept.2 - lsb)) ↔
      (lsb : Int) < kept.2 ∧ (sps.maxPicOrderCntLsb : Int) / 2 ≤ kept.2 - lsb :=
    and_congr_right fun hlt => by rw [wrapI32_of_fits (by dsimp only [FitsI32]; omega)]
  have hprev : (kept.2 < (lsb : Int) ∧ (sps.maxPicOrderCntLsb : Int) / 2 < wrapI32 (lsb - kept.2)) ↔
      kept.2 < (lsb : Int) ∧ (sps.maxPicOrderCntLsb : Int) / 2 < lsb - kept.2 :=
    and_congr_right fun hlt => by rw [wrapI32_of_fits (by dsimp only [FitsI32]; omega)]
  rw [msbFrom] at hfits ⊢
  by_cases hwraps : (lsb : Int) < kept.2 ∧ (sps.maxPicOrderCntLsb : Int) / 2 ≤ kept.2 - lsb
  · rw [if_pos hwraps] at hfits ⊢
    rw [if_pos (hnext.mpr hwraps), wrapI32_of_fits hfits]
  · rw [if_neg hwraps] at hfits ⊢
    rw [if_neg fun hcode => hwraps (hnext.mp hcode)]
    by_cases hback : kept.2 < (lsb : Int) ∧ (sps.maxPicOrderCntLsb : Int) / 2 < lsb - kept.2
    · rw [if_pos hback] at hfits ⊢
      rw [if_pos (hprev.mpr hback), wrapI32_of_fits hfits]
    · rw [if_neg hback, if_neg fun hcode => hback (hprev.mp hcode)]

/-- The code takes counts that fit for what they are. -/
theorem Keeps.advanceType0_eq (hkeeps : Keeps sps s earlier) (hsps : sps.WellFormed)
    (hheader : h.WellFormed sps) (hdecides : Decides sps earlier h)
    (htype : sps.picOrderCntType = 0) (hsmall : (decode sps earlier h).Small) :
    s.advanceType0 sps h =
      (if h.isReference then
        { s with
          prevPocMsb := (decode sps earlier h).picOrderCntMsb
          prevPocLsb := h.picOrderCntLsb.getD 0 }
      else
        s, (decode sps earlier h).counts) := by
  have hlsb := hheader.lsb_lt
  have hmax := hsps.maxLsb_le
  have hlsbWrap : wrapI32 (h.picOrderCntLsb.getD 0) = (h.picOrderCntLsb.getD 0 : Nat) :=
    wrapI32_of_fits (by dsimp only [FitsI32]; omega)
  have hdecode : decode sps earlier h =
      ⟨h, msbFrom sps.maxPicOrderCntLsb (h.picOrderCntLsb.getD 0) (prevPicOrderCnt earlier h), 0,
        countsType0 (msbFrom sps.maxPicOrderCntLsb (h.picOrderCntLsb.getD 0)
          (prevPicOrderCnt earlier h)) h⟩ := by
    rw [decode, htype]
    rfl
  rw [hdecode] at hsmall ⊢
  have hmsb := hkeeps.msb_eq hsps hheader hdecides htype hsmall.msb
  rw [PocState.advanceType0, hkeeps.prev_eq htype, hmsb, hlsbWrap]
  generalize msbFrom sps.maxPicOrderCntLsb (h.picOrderCntLsb.getD 0)
    (prevPicOrderCnt earlier h) = msb at *
  refine congrArg (Prod.mk _) ?_
  cases hfield : h.fieldPic with
  | false =>
      have hbottom : h.isBottomField = false :=
        Bool.eq_false_iff.mpr fun htrue => Bool.false_ne_true (hfield ▸ hheader.field_of_bottom htrue)
      have hcounts : countsType0 msb h = ⟨some (msb + (h.picOrderCntLsb.getD 0 : Nat)),
          some (msb + (h.picOrderCntLsb.getD 0 : Nat) + h.deltaPicOrderCntBottom.getD 0)⟩ := by
        rw [countsType0, hfield]
        rfl
      rw [hcounts] at hsmall ⊢
      rw [hbottom, if_neg Bool.false_ne_true, Option.getD_some,
        wrapI32_of_fits (hsmall.top _ rfl).1, Bool.not_false, if_pos rfl,
        wrapI32_of_fits (hsmall.bottom _ rfl)]
  | true =>
      cases hbottom : h.isBottomField with
      | true =>
          have hcounts : countsType0 msb h =
              ⟨none, some (msb + (h.picOrderCntLsb.getD 0 : Nat))⟩ := by
            rw [countsType0, hfield, hbottom]
            rfl
          rw [hcounts] at hsmall ⊢
          rw [wrapI32_of_fits (hsmall.bottom _ rfl)]
          rfl
      | false =>
          have hcounts : countsType0 msb h =
              ⟨some (msb + (h.picOrderCntLsb.getD 0 : Nat)), none⟩ := by
            rw [countsType0, hfield, hbottom]
            rfl
          rw [hcounts] at hsmall ⊢
          rw [wrapI32_of_fits (hsmall.top _ rfl).1]
          rfl

/-- The offset of the code is that of the clause. -/
theorem Keeps.frameNumOffset_eq (hkeeps : Keeps sps s earlier) (hsps : sps.WellFormed)
    (hdecides : Decides sps earlier h) (htype : sps.picOrderCntType ≠ 0) :
    s.frameNumOffset h sps.maxFrameNum = frameNumOffsetOf sps earlier h := by
  rw [PocState.frameNumOffset, frameNumOffsetOf]
  cases hidr : h.isIdr with
  | true => rfl
  | false =>
      rw [if_neg Bool.false_ne_true, if_neg Bool.false_ne_true, hkeeps.mmco5,
        hkeeps.offset htype, hkeeps.frameNum]
      cases hhead : earlier.head? with
      | none =>
          have hprev : prevFrameNum earlier = (0, 0) := by rw [prevFrameNum, hhead]
          have hkept : keptFrameNum earlier = 0 := by
            rw [List.head?_eq_none_iff.mp hhead]
            rfl
          rw [hprev, hkept, Option.map_none, Option.getD_none, Option.map_none, Option.getD_none,
            if_neg Bool.false_ne_true]
          dsimp only
          rw [if_neg (Nat.not_lt_zero _), if_neg (Nat.not_lt_zero _)]
      | some d =>
          have hoffset := (hkeeps.small d (List.mem_of_mem_head? hhead)).offset
          have hmax := hsps.maxFrameNum_le
          rcases hoffset with ⟨hlow, hhigh⟩
          rw [Option.map_some, Option.getD_some, Option.map_some, Option.getD_some]
          cases hmmco5 : d.header.hasMmco5 with
          | true =>
              have hprev : prevFrameNum earlier = (0, 0) := by
                rw [prevFrameNum, hhead]
                exact if_pos hmmco5
              rw [hprev, if_pos rfl]
              dsimp only
              rw [if_neg (Nat.not_lt_zero _), if_neg (Nat.not_lt_zero _)]
          | false =>
              have hprev : prevFrameNum earlier = (d.header.frameNum, d.frameNumOffset) := by
                rw [prevFrameNum, hhead]
                exact if_neg (by rw [hmmco5]; exact Bool.false_ne_true)
              have hiff := hdecides.wraps_iff htype hidr d hhead hmmco5
              have hwrap : wrapI64 (d.frameNumOffset + sps.maxFrameNum) =
                  d.frameNumOffset + sps.maxFrameNum :=
                wrapI64_of_fits (by omega) (by omega)
              rw [hprev, if_neg Bool.false_ne_true]
              dsimp only
              rw [hwrap]
              by_cases hwraps : h.frameNum < d.header.frameNum
              · rw [if_pos hwraps, if_pos (hiff.mpr hwraps)]
              · rw [if_neg hwraps, if_neg fun hcode => hwraps (hiff.mp hcode)]

theorem foldl_wrapI32_add (offsets : List Int) (start : Int) :
    offsets.foldl (fun sum offset => wrapI32 (sum + offset)) (wrapI32 start) =
      wrapI32 (start + offsets.sum) := by
  induction offsets generalizing start with
  | nil => rw [List.foldl_nil, List.sum_nil, add_zero]
  | cons offset offsets ih =>
      rw [List.foldl_cons, wrapI32_wrapI32_add, ih, List.sum_cons, add_assoc]

theorem expectedDeltaPerCycle_eq (p : PocType1) :
    p.expectedDeltaPerCycle = wrapI32 p.offsetForRefFrame.sum := by
  have hsum := foldl_wrapI32_add p.offsetForRefFrame 0
  rw [zero_add] at hsum
  exact hsum

/-- The count that the code expects is that of the clause, wrapped. -/
theorem expectedType1_eq (p : PocType1) {offset : Int} (h : SliceHeader) (hfits : FitsI32 offset)
    (hframeNum : h.frameNum < 2 ^ 16) :
    PocState.expectedType1 p offset h = wrapI32 (expectedPicOrderCnt p offset h) := by
  rcases hfits with ⟨hlow, hhigh⟩
  have hnumber : wrapI64 (offset + h.frameNum) = offset + h.frameNum :=
    wrapI64_of_fits (by omega) (by omega)
  rw [PocState.expectedType1, expectedPicOrderCnt, absFrameNumOf, hnumber]
  dsimp only
  generalize (if (!h.isReference) = true ∧
      0 < (if p.offsetForRefFrame.length ≠ 0 then offset + (h.frameNum : Int) else 0) then
    (if p.offsetForRefFrame.length ≠ 0 then offset + (h.frameNum : Int) else 0) - 1
    else if p.offsetForRefFrame.length ≠ 0 then offset + (h.frameNum : Int) else 0) = number
  have hcycle : (if 0 < number ∧ 0 < p.offsetForRefFrame.length then
      (p.offsetForRefFrame.take (((number - 1) % p.offsetForRefFrame.length).toNat + 1)).foldl
        (fun sum offset => wrapI32 (sum + offset))
        (wrapI32 (wrapI32 ((number - 1) / p.offsetForRefFrame.length) * p.expectedDeltaPerCycle))
      else 0) =
      wrapI32 (if 0 < number ∧ 0 < p.offsetForRefFrame.length then
        (number - 1) / p.offsetForRefFrame.length * p.offsetForRefFrame.sum +
          (p.offsetForRefFrame.take (((number - 1) % p.offsetForRefFrame.length).toNat + 1)).sum
      else 0) := by
    split
    · rw [expectedDeltaPerCycle_eq, wrapI32_wrapI32_mul, wrapI32_mul_wrapI32, foldl_wrapI32_add]
    · rfl
  rw [hcycle]
  split
  · rfl
  · rw [wrapI32_wrapI32_add]

/-- The code takes counts that fit for what they are. -/
theorem advanceType1_eq {p : PocType1} (hp : sps.pocType1 = some p) {offset : Int}
    (hoffset : s.frameNumOffset h sps.maxFrameNum = offset) (hfits : FitsI32 offset)
    (hframeNum : h.frameNum < 2 ^ 16)
    (htop : ∀ top ∈ (countsType1 p offset h).top, FitsI32 top)
    (hbottom : ∀ bottom ∈ (countsType1 p offset h).bottom, FitsI32 bottom) :
    s.advanceType1 sps h =
      ({ s with prevFrameNumOffset := offset }, countsType1 p offset h) := by
  rw [PocState.advanceType1, hoffset, hp]
  dsimp only
  rw [expectedType1_eq p h hfits hframeNum]
  refine congrArg (Prod.mk _) ?_
  rw [countsType1] at htop hbottom ⊢
  cases hfield : h.fieldPic with
  | false =>
      rw [hfield] at htop hbottom
      have htop := wrapI32_of_fits (htop _ rfl)
      have hbottom := wrapI32_of_fits (hbottom _ rfl)
      rw [Bool.not_false, if_pos rfl, if_pos rfl, wrapI32_wrapI32_add, htop, wrapI32_wrapI32_add,
        hbottom]
  | true =>
      rw [hfield] at htop hbottom
      cases hfirst : h.isBottomField with
      | true =>
          rw [hfirst] at hbottom
          have hbottom := wrapI32_of_fits (hbottom _ rfl)
          rw [Bool.not_true, if_neg Bool.false_ne_true, if_pos rfl, if_neg Bool.false_ne_true,
            if_pos rfl, wrapI32_wrapI32_add (expectedPicOrderCnt p offset h),
            wrapI32_wrapI32_add, hbottom]
      | false =>
          rw [hfirst] at htop
          have htop := wrapI32_of_fits (htop _ rfl)
          rw [Bool.not_true, if_neg Bool.false_ne_true, if_neg Bool.false_ne_true,
            if_neg Bool.false_ne_true, if_neg Bool.false_ne_true, wrapI32_wrapI32_add, htop]

/-- The code takes counts that fit for what they are. -/
theorem advanceType2_eq {offset : Int} (hoffset : s.frameNumOffset h sps.maxFrameNum = offset)
    (hfits : FitsI32 offset) (hframeNum : h.frameNum < 2 ^ 16)
    (htop : ∀ top ∈ (countsType2 offset h).top, FitsI32 top)
    (hbottom : ∀ bottom ∈ (countsType2 offset h).bottom, FitsI32 bottom) :
    s.advanceType2 sps h =
      ({ s with prevFrameNumOffset := offset }, countsType2 offset h) := by
  rcases hfits with ⟨hlow, hhigh⟩
  have hnumber : wrapI64 (offset + h.frameNum) = offset + h.frameNum :=
    wrapI64_of_fits (by omega) (by omega)
  have hdouble : wrapI64 ((offset + h.frameNum) * 2) = 2 * (offset + h.frameNum) := by
    rw [wrapI64_of_fits (by omega) (by omega), mul_comm]
  have htemp : (if h.isIdr then 0
      else if h.isReference then 2 * (offset + (h.frameNum : Int))
      else 2 * (offset + (h.frameNum : Int)) - 1) = tempPicOrderCnt offset h := rfl
  have hsmall : FitsI32 (tempPicOrderCnt offset h) := by
    rw [countsType2] at htop hbottom
    cases hfield : h.fieldPic with
    | false =>
        rw [hfield] at htop
        exact htop _ rfl
    | true =>
        rw [hfield] at htop hbottom
        cases hfirst : h.isBottomField with
        | true =>
            rw [hfirst] at hbottom
            exact hbottom _ rfl
        | false =>
            rw [hfirst] at htop
            exact htop _ rfl
  rw [PocState.advanceType2, hoffset]
  dsimp only
  rw [hnumber, hdouble, htemp, wrapI32_of_fits hsmall]
  rfl

theorem decode_header (sps : Sps) (earlier : List Decoded) (h : SliceHeader) :
    (decode sps earlier h).header = h := by
  rw [decode]
  split <;> rfl

/-- Behind a picture the code has kept what it is to keep. -/
theorem Keeps.cons (hkeeps : Keeps sps s earlier) {s' : PocState} {d : Decoded} (hsmall : d.Small)
    (hheader : d.header.WellFormed sps) (hframeNum : s'.prevFrameNum = s.prevFrameNum)
    (hparts : sps.picOrderCntType = 0 → (s'.prevPocMsb, s'.prevPocLsb) =
      if d.header.isReference then
        (d.picOrderCntMsb, (d.header.picOrderCntLsb.getD 0 : Int))
      else
        (s.prevPocMsb, s.prevPocLsb))
    (hoffset : sps.picOrderCntType ≠ 0 → s'.prevFrameNumOffset = d.frameNumOffset) :
    Keeps sps
      { s' with
        prevHadMmco5 := d.header.hasMmco5
        prevWasBottomField := d.header.isBottomField
        prevTopFieldOrderCnt := d.counts.top.getD 0
        prevFrameNum :=
          if !d.header.fieldPic ∨ !d.header.isBottomField then
            d.header.frameNum
          else
            s'.prevFrameNum }
      (d :: earlier) where
  mmco5 := rfl
  bottom := rfl
  top := rfl
  parts := by
    intro htype
    change (s'.prevPocMsb, s'.prevPocLsb) = _
    rw [hparts htype, prevReference, List.find?_cons]
    cases hreference : d.header.isReference with
    | true => rfl
    | false => exact hkeeps.parts htype
  frameNum := by
    change (if !d.header.fieldPic ∨ !d.header.isBottomField then
      d.header.frameNum else s'.prevFrameNum) = _
    rw [hframeNum, hkeeps.frameNum, keptFrameNum, keptFrameNum, List.find?_cons]
    by_cases hframe : !d.header.fieldPic ∨ !d.header.isBottomField
    · rw [if_pos hframe, decide_eq_true hframe]
      rfl
    · rw [if_neg hframe, decide_eq_false hframe]
  offset := hoffset
  small := List.forall_mem_cons.mpr ⟨hsmall, hkeeps.small⟩
  header := List.forall_mem_cons.mpr ⟨hheader, hkeeps.header⟩

theorem Keeps.advance_of_way (hkeeps : Keeps sps s earlier) (hheader : h.WellFormed sps)
    {d : Decoded} (hdecoded : d.header = h) (hsmall : d.Small) (s' : PocState)
    (hway : s.advance sps h =
      ({ s' with
        prevHadMmco5 := h.hasMmco5
        prevWasBottomField := h.isBottomField
        prevTopFieldOrderCnt := d.counts.top.getD 0
        prevFrameNum := if !h.fieldPic ∨ !h.isBottomField then h.frameNum else s'.prevFrameNum },
        d.counts))
    (hframeNum : s'.prevFrameNum = s.prevFrameNum)
    (hparts : sps.picOrderCntType = 0 → (s'.prevPocMsb, s'.prevPocLsb) =
      if h.isReference then
        (d.picOrderCntMsb, (h.picOrderCntLsb.getD 0 : Int))
      else
        (s.prevPocMsb, s.prevPocLsb))
    (hoffset : sps.picOrderCntType ≠ 0 → s'.prevFrameNumOffset = d.frameNumOffset) :
    (s.advance sps h).2 = d.counts ∧ Keeps sps (s.advance sps h).1 (d :: earlier) := by
  rw [hway]
  subst hdecoded
  exact ⟨rfl, hkeeps.cons hsmall hheader hframeNum hparts hoffset⟩

/-- One picture: its counts are those of the clause, and the code keeps what it is to keep. -/
theorem Keeps.advance (hkeeps : Keeps sps s earlier) (hsps : sps.WellFormed)
    (hheader : h.WellFormed sps) (hdecides : Decides sps earlier h)
    (hsmall : (decode sps earlier h).Small) :
    (s.advance sps h).2 = (decode sps earlier h).counts ∧
      Keeps sps (s.advance sps h).1 (decode sps earlier h :: earlier) := by
  have hdecoded := decode_header sps earlier h
  have hframeNum : h.frameNum < 2 ^ 16 := hheader.frameNum_lt.trans_le hsps.maxFrameNum_le
  have htypes : sps.picOrderCntType = 0 ∨ sps.picOrderCntType = 1 ∨ sps.picOrderCntType = 2 := by
    have hle := hsps.type_le
    omega
  rcases htypes with htype | htype | htype
  · have hway := hkeeps.advanceType0_eq hsps hheader hdecides htype hsmall
    generalize decode sps earlier h = d at *
    refine hkeeps.advance_of_way hheader hdecoded hsmall
      (if h.isReference then
        { s with
          prevPocMsb := d.picOrderCntMsb
          prevPocLsb := h.picOrderCntLsb.getD 0 }
      else
        s)
      ?_ ?_ ?_ ?_
    · rw [PocState.advance, htype]
      dsimp only
      rw [hway]
      rfl
    · split <;> rfl
    · intro _
      split <;> rfl
    · exact fun hne => absurd htype hne
  · have hne : sps.picOrderCntType ≠ 0 := by omega
    have hoffset := hkeeps.frameNumOffset_eq hsps hdecides hne
    obtain ⟨p, hp⟩ := Option.isSome_iff_exists.mp (hsps.offsets htype)
    have hdecode : decode sps earlier h =
        ⟨h, 0, frameNumOffsetOf sps earlier h,
          countsType1 p (frameNumOffsetOf sps earlier h) h⟩ := by
      rw [decode, htype, hp]
      rfl
    rw [hdecode] at hsmall hdecoded ⊢
    have hway := advanceType1_eq hp hoffset hsmall.offset hframeNum
      (fun top htop => (hsmall.top top htop).1) hsmall.bottom
    exact hkeeps.advance_of_way hheader hdecoded hsmall
      { s with prevFrameNumOffset := frameNumOffsetOf sps earlier h }
      (by rw [PocState.advance, htype]; dsimp only; rw [hway]; rfl) rfl
      (fun hzero => absurd hzero hne) (fun _ => rfl)
  · have hne : sps.picOrderCntType ≠ 0 := by omega
    have hoffset := hkeeps.frameNumOffset_eq hsps hdecides hne
    have hdecode : decode sps earlier h =
        ⟨h, 0, frameNumOffsetOf sps earlier h,
          countsType2 (frameNumOffsetOf sps earlier h) h⟩ := by
      rw [decode, htype]
      rfl
    rw [hdecode] at hsmall hdecoded ⊢
    have hway := advanceType2_eq hoffset hsmall.offset hframeNum
      (fun top htop => (hsmall.top top htop).1) hsmall.bottom
    exact hkeeps.advance_of_way hheader hdecoded hsmall
      { s with prevFrameNumOffset := frameNumOffsetOf sps earlier h }
      (by rw [PocState.advance, htype]; dsimp only; rw [hway]; rfl) rfl
      (fun hzero => absurd hzero hne) (fun _ => rfl)

theorem Keeps.advanceAll {hs : List SliceHeader} (hkeeps : Keeps sps s earlier)
    (hsps : sps.WellFormed) (hheaders : ∀ h ∈ hs, h.WellFormed sps)
    (hsmall : ∀ d ∈ decodeAll sps earlier hs, d.Small) (hdecide : AllDecide sps earlier hs) :
    s.advanceAll sps hs = (decodeAll sps earlier hs).map Decoded.counts := by
  induction hs generalizing s earlier with
  | nil => rfl
  | cons h hs ih =>
      rcases List.forall_mem_cons.mp hheaders with ⟨hheader, hheaders⟩
      rcases List.forall_mem_cons.mp hsmall with ⟨hfirst, hsmall⟩
      rcases hkeeps.advance hsps hheader hdecide.1 hfirst with ⟨hcounts, hkeeps⟩
      rw [PocState.advanceAll, hcounts, ih hkeeps hheaders hsmall hdecide.2]
      rfl

end Step

/-- The counts are those of the clause wherever what is kept decides as what the clause names. -/
theorem advanceAll_eq_counts (sps : Sps) (hs : List SliceHeader) (hsps : sps.WellFormed)
    (hheaders : ∀ h ∈ hs, h.WellFormed sps) (hsmall : ∀ d ∈ decodeAll sps [] hs, d.Small)
    (hdecide : AllDecide sps [] hs) :
    PocState.new.advanceAll sps hs = (decodeAll sps [] hs).map Decoded.counts :=
  (keeps_new sps).advanceAll hsps hheaders hsmall hdecide

/-- A frame that other pictures refer to. -/
def referenceFrame (frameNum lsb : Nat) (ops : List Nat) : SliceHeader where
  nal := ⟨1, .nonIdrSlice⟩
  frameNum := frameNum
  fieldPic := false
  bottomField := none
  picOrderCntLsb := some lsb
  deltaPicOrderCntBottom := none
  deltaPicOrderCnt := (none, none)
  refPicMarking := some (.adaptive ops)

/-- A frame that begins a sequence. -/
def idrFrame : SliceHeader :=
  { referenceFrame 0 0 [] with
    nal := ⟨1, .idrSlice⟩
    refPicMarking := some .idr }

/-- A field that other pictures refer to. -/
def referenceField (frameNum lsb : Nat) (bottom : Bool) (ops : List Nat) : SliceHeader :=
  { referenceFrame frameNum lsb ops with
    fieldPic := true
    bottomField := some bottom }

/-- A parameter set of a way, with sixteen frame numbers and sixteen low parts. -/
def smallSps (picOrderCntType : Nat) : Sps where
  log2MaxFrameNum := 4
  picOrderCntType := picOrderCntType
  log2MaxPicOrderCntLsb := 4
  pocType1 := if picOrderCntType = 1 then some ⟨-2, 1, [4, 6]⟩ else none

/-- Frames, a pair of fields of which the second one resets the counts, and a frame behind them. -/
def fieldRun : List SliceHeader :=
  [idrFrame, referenceFrame 1 6 [],
    { referenceFrame 2 2 [] with
      nal := ⟨0, .nonIdrSlice⟩
      refPicMarking := none },
    referenceField 2 10 false [], referenceField 2 11 true [5], referenceFrame 0 4 []]

/-- The run in each of the three ways. -/
theorem advanceAll_eq_counts_fieldRun :
    PocState.new.advanceAll (smallSps 0) fieldRun =
        (decodeAll (smallSps 0) [] fieldRun).map Decoded.counts ∧
      PocState.new.advanceAll (smallSps 1) fieldRun =
        (decodeAll (smallSps 1) [] fieldRun).map Decoded.counts ∧
      PocState.new.advanceAll (smallSps 2) fieldRun =
        (decodeAll (smallSps 2) [] fieldRun).map Decoded.counts := by
  have hrun : ∀ way ∈ [0, 1, 2], (smallSps way).WellFormed ∧
      (∀ h ∈ fieldRun, h.WellFormed (smallSps way)) ∧
      (∀ d ∈ decodeAll (smallSps way) [] fieldRun, d.Small) ∧
      AllDecide (smallSps way) [] fieldRun := by decide +kernel
  have hcounts (way : Nat) (hway : way ∈ [0, 1, 2]) :
      PocState.new.advanceAll (smallSps way) fieldRun =
        (decodeAll (smallSps way) [] fieldRun).map Decoded.counts := by
    rcases hrun way hway with ⟨hsps, hheaders, hsmall, hdecide⟩
    exact advanceAll_eq_counts (smallSps way) fieldRun hsps hheaders hsmall hdecide
  exact ⟨hcounts 0 (by decide), hcounts 1 (by decide), hcounts 2 (by decide)⟩

def resetRun : List SliceHeader :=
  [idrFrame, referenceFrame 1 6 [], referenceFrame 2 10 [5], referenceFrame 1 2 []]

/-- Sixteen frames, and a pair of fields behind the wrap of which the bottom field comes first. -/
def bottomFirstRun : List SliceHeader :=
  idrFrame :: (List.range' 1 15).map (referenceFrame · 0 []) ++
    [referenceField 0 0 true [], referenceField 0 0 false []]

/-- Behind a reset the first way starts from the frame's count; behind a wrap the third way counts
it twice for a pair whose bottom field comes first. -/
theorem advanceAll_ne_counts :
    ((smallSps 0).WellFormed ∧ (∀ h ∈ resetRun, h.WellFormed (smallSps 0)) ∧
      (∀ d ∈ decodeAll (smallSps 0) [] resetRun, d.Small) ∧
      (PocState.new.advanceAll (smallSps 0) resetRun).getLast? = some ⟨some 18, some 18⟩ ∧
      ((decodeAll (smallSps 0) [] resetRun).map Decoded.counts).getLast? =
        some ⟨some 2, some 2⟩) ∧
    (smallSps 2).WellFormed ∧ (∀ h ∈ bottomFirstRun, h.WellFormed (smallSps 2)) ∧
      (∀ d ∈ decodeAll (smallSps 2) [] bottomFirstRun, d.Small) ∧
      (PocState.new.advanceAll (smallSps 2) bottomFirstRun).getLast? = some ⟨some 64, none⟩ ∧
      ((decodeAll (smallSps 2) [] bottomFirstRun).map Decoded.counts).getLast? =
        some ⟨some 32, none⟩ := by
  decide +kernel

end H264
end Vaco
