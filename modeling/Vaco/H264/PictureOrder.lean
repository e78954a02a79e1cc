import Mathlib.Tactic

/-!
# Picture order counts

The place of a picture in output order is worked out of a few fields of its header and of what is
kept of the pictures before it.  There are three ways to do it, and a sequence parameter set says
which one holds.

Main results:

- `PocState.advance`: the counts of a picture, and what is kept of it.
- `wrapI32_of_fits`: arithmetic that fits is not changed by wrapping.
-/

namespace Vaco
namespace H264

/-! ## Wrapping arithmetic -/

/-- The value of the low 32 bits, with a sign. -/
def wrapI32 (v : Int) : Int :=
  v.bmod (2 ^ 32)

/-- The value of the low 64 bits, with a sign. -/
def wrapI64 (v : Int) : Int :=
  v.bmod (2 ^ 64)

/-- A value that 32 bits with a sign hold. -/
def FitsI32 (v : Int) : Prop :=
  -2 ^ 31 ≤ v ∧ v < 2 ^ 31

instance : DecidablePred FitsI32 := fun v =>
  inferInstanceAs (Decidable (-2 ^ 31 ≤ v ∧ v < 2 ^ 31))

/-- Arithmetic that fits is not changed by wrapping. -/
theorem wrapI32_of_fits {v : Int} (h : FitsI32 v) : wrapI32 v = v := by
  rcases h with ⟨hlow, hhigh⟩
  exact Int.bmod_eq_of_le (by omega) (by omega)

theorem wrapI64_of_fits {v : Int} (hlow : -2 ^ 63 ≤ v) (hhigh : v < 2 ^ 63) : wrapI64 v = v :=
  Int.bmod_eq_of_le (by omega) (by omega)

@[simp]
theorem wrapI32_wrapI32_add (a b : Int) : wrapI32 (wrapI32 a + b) = wrapI32 (a + b) :=
  Int.bmod_add_bmod

@[simp]
theorem wrapI32_wrapI32_mul (a b : Int) : wrapI32 (wrapI32 a * b) = wrapI32 (a * b) :=
  Int.bmod_mul_bmod

@[simp]
theorem wrapI32_mul_wrapI32 (a b : Int) : wrapI32 (a * wrapI32 b) = wrapI32 (a * b) :=
  Int.mul_bmod_bmod

/-! ## Headers -/

/-- The kind of a slice's unit, as far as the counts go by it. -/
inductive NalUnitType where
  | nonIdrSlice
  | idrSlice
deriving DecidableEq

/-- The header of a slice's unit. -/
structure NalHeader where
  nalRefIdc : Nat
  nalUnitType : NalUnitType
deriving DecidableEq

/-- How a reference picture marks the others; of its commands only the operation. -/
inductive RefPicMarking where
  | idr
  | slidingWindow
  | adaptive (ops : List Nat)
deriving DecidableEq

/-- Whether a command resets the counts. -/
def RefPicMarking.hasMmco5 : RefPicMarking → Bool
  | adaptive ops => ops.any fun op => op == 5
  | _ => false

/-- The header of a picture's first slice. -/
structure SliceHeader where
  nal : NalHeader
  frameNum : Nat
  fieldPic : Bool
  bottomField : Option Bool
  picOrderCntLsb : Option Nat
  deltaPicOrderCntBottom : Option Int
  deltaPicOrderCnt : Option Int × Option Int
  refPicMarking : Option RefPicMarking
deriving DecidableEq

namespace SliceHeader

/-- Whether the picture begins a sequence. -/
def isIdr (h : SliceHeader) : Bool :=
  h.nal.nalUnitType == .idrSlice

/-- Whether other pictures refer to the picture. -/
def isReference (h : SliceHeader) : Bool :=
  h.nal.nalRefIdc != 0

/-- Whether the picture is a bottom field. -/
def isBottomField (h : SliceHeader) : Bool :=
  h.bottomField.getD false

/-- Whether the picture carries the operation that resets the counts. -/
def hasMmco5 (h : SliceHeader) : Bool :=
  (h.refPicMarking.map RefPicMarking.hasMmco5).getD false

end SliceHeader

/-- The offsets of the second way. -/
structure PocType1 where
  offsetForNonRefPic : Int
  offsetForTopToBottomField : Int
  offsetForRefFrame : List Int
deriving DecidableEq

/-- The sum of a cycle of offsets. -/
def PocType1.expectedDeltaPerCycle (p : PocType1) : Int :=
  p.offsetForRefFrame.foldl (fun sum offset => wrapI32 (sum + offset)) 0

/-- A sequence parameter set. -/
structure Sps where
  log2MaxFrameNum : Nat
  picOrderCntType : Nat
  log2MaxPicOrderCntLsb : Nat
  pocType1 : Option PocType1
deriving DecidableEq

namespace Sps

/-- The number of frame numbers. -/
def maxFrameNum (sps : Sps) : Nat :=
  2 ^ (sps.log2MaxFrameNum % 32)

/-- The number of low parts of a count. -/
def maxPicOrderCntLsb (sps : Sps) : Nat :=
  2 ^ (sps.log2MaxPicOrderCntLsb % 32)

end Sps

/-! ## The counts -/

/-- The counts of one picture. -/
structure PictureOrderCount where
  top : Option Int
  bottom : Option Int
deriving DecidableEq

/-- What is kept from one picture to the next. -/
structure PocState where
  prevPocMsb : Int
  prevPocLsb : Int
  prevFrameNum : Nat
  prevFrameNumOffset : Int
  prevHadMmco5 : Bool
  prevWasBottomField : Bool
  prevTopFieldOrderCnt : Int
deriving DecidableEq

/-- Nothing has been seen. -/
def PocState.new : PocState where
  prevPocMsb := 0
  prevPocLsb := 0
  prevFrameNum := 0
  prevFrameNumOffset := 0
  prevHadMmco5 := false
  prevWasBottomField := false
  prevTopFieldOrderCnt := 0

namespace PocState

/-- The first way: a low part in each header, and a high part that follows it. -/
def advanceType0 (s : PocState) (sps : Sps) (h : SliceHeader) : PocState × PictureOrderCount :=
  let maxLsb := wrapI32 sps.maxPicOrderCntLsb
  let lsb := wrapI32 (h.picOrderCntLsb.getD 0)
  let prev : Int × Int :=
    if h.isIdr then
      (0, 0)
    else if s.prevHadMmco5 then
      if s.prevWasBottomField then (0, 0) else (0, s.prevTopFieldOrderCnt)
    else
      (s.prevPocMsb, s.prevPocLsb)
  let half := maxLsb / 2
  let msb :=
    if lsb < prev.2 ∧ half ≤ wrapI32 (prev.2 - lsb) then
      wrapI32 (prev.1 + maxLsb)
    else if prev.2 < lsb ∧ half < wrapI32 (lsb - prev.2) then
      wrapI32 (prev.1 - maxLsb)
    else
      prev.1
  let top := if h.isBottomField then none else some (wrapI32 (msb + lsb))
  let bottom :=
    if !h.fieldPic then
      some (wrapI32 (top.getD 0 + h.deltaPicOrderCntBottom.getD 0))
    else if h.isBottomField then
      some (wrapI32 (msb + lsb))
    else
      none
  (if h.isReference then
    { s with
      prevPocMsb := msb
      prevPocLsb := lsb }
  else
    s, ⟨top, bottom⟩)

def frameNumOffset (s : PocState) (h : SliceHeader) (maxFrameNum : Int) : Int :=
  if h.isIdr then
    0
  else
    let prev : Int × Nat :=
      if s.prevHadMmco5 then (0, 0) else (s.prevFrameNumOffset, s.prevFrameNum)
    if h.frameNum < prev.2 then wrapI64 (prev.1 + maxFrameNum) else prev.1

/-- The count that the second way expects, before the picture's own differences. -/
def expectedType1 (p : PocType1) (frameNumOffset : Int) (h : SliceHeader) : Int :=
  let cycleLen := p.offsetForRefFrame.length
  let absFrameNum := if cycleLen ≠ 0 then wrapI64 (frameNumOffset + h.frameNum) else 0
  let absFrameNum :=
    if !h.isReference ∧ 0 < absFrameNum then absFrameNum - 1 else absFrameNum
  let expected :=
    if 0 < absFrameNum ∧ 0 < cycleLen then
      let cycleCnt := (absFrameNum - 1) / cycleLen
      let index := (absFrameNum - 1) % cycleLen
      (p.offsetForRefFrame.take (index.toNat + 1)).foldl
        (fun sum offset => wrapI32 (sum + offset))
        (wrapI32 (wrapI32 cycleCnt * p.expectedDeltaPerCycle))
    else
      0
  if h.isReference then expected else wrapI32 (expected + p.offsetForNonRefPic)

/-- The second way: a cycle of offsets. -/
def advanceType1 (s : PocState) (sps : Sps) (h : SliceHeader) : PocState × PictureOrderCount :=
  let offset := s.frameNumOffset h sps.maxFrameNum
  let s := { s with prevFrameNumOffset := offset }
  match sps.pocType1 with
  | none => (s, ⟨some 0, some 0⟩)
  | some p =>
      let expected := expectedType1 p offset h
      let d0 := h.deltaPicOrderCnt.1.getD 0
      let d1 := h.deltaPicOrderCnt.2.getD 0
      (s,
        if !h.fieldPic then
          let top := wrapI32 (expected + d0)
          ⟨some top, some (wrapI32 (wrapI32 (top + p.offsetForTopToBottomField) + d1))⟩
        else if h.isBottomField then
          ⟨none, some (wrapI32 (wrapI32 (expected + p.offsetForTopToBottomField) + d0))⟩
        else
          ⟨some (wrapI32 (expected + d0)), none⟩)

/-- The third way: output order is decoding order. -/
def advanceType2 (s : PocState) (sps : Sps) (h : SliceHeader) : PocState × PictureOrderCount :=
  let offset := s.frameNumOffset h sps.maxFrameNum
  let s := { s with prevFrameNumOffset := offset }
  let temp :=
    wrapI32
      (if h.isIdr then
        0
      else
        let base := wrapI64 (wrapI64 (offset + h.frameNum) * 2)
        if h.isReference then base else base - 1)
  (s,
    if !h.fieldPic then
      ⟨some temp, some temp⟩
    else if h.isBottomField then
      ⟨none, some temp⟩
    else
      ⟨some temp, none⟩)

def advance (s : PocState) (sps : Sps) (h : SliceHeader) : PocState × PictureOrderCount :=
  let (s, poc) :=
    match sps.picOrderCntType with
    | 0 => s.advanceType0 sps h
    | 1 => s.advanceType1 sps h
    | _ => s.advanceType2 sps h
  ({ s with
      prevHadMmco5 := h.hasMmco5
      prevWasBottomField := h.isBottomField
      prevTopFieldOrderCnt := poc.top.getD 0
      prevFrameNum := if !h.fieldPic ∨ !h.isBottomField then h.frameNum else s.prevFrameNum }, poc)

/-- The counts of pictures in decoding order. -/
def advanceAll (s : PocState) (sps : Sps) : List SliceHeader → List PictureOrderCount
  | [] => []
  | h :: rest => (s.advance sps h).2 :: (s.advance sps h).1.advanceAll sps rest

end PocState

end H264
end Vaco
