import Vaco.Codec.AudioTrim
import Vaco.Library.Region

/-!
# Video frames

A frame has one buffer for each plane of its format.  Rows lie a stride apart, and the stride of a
frame that is allocated is a multiple of the alignment.

Main results:

- `allocVideo`: allocate a frame within a budget.
- `allocVideo_of_admits`: a budget with room for a frame allocates it.
-/

namespace Vaco
namespace Codec

open Library Vaco.Core
open Sched (Budget LimitError)

/-! ## Formats -/

/-- Formats of pixels. -/
inductive PixFmt where
  | yuv420p
  | yuv422p
  | yuv444p
  | gbrp
  | gray8
  | rgb24
  | rgba
deriving DecidableEq

/-- Where the samples of a component lie. -/
structure PixFmt.Component where
  plane : Nat
  step : Nat
deriving DecidableEq

/-- The layout of a format. -/
structure PixFmtDescriptor where
  components : List PixFmt.Component
  planes : Nat
  log2ChromaW : Nat
  log2ChromaH : Nat
  bitsPerPixel : Nat
deriving DecidableEq

namespace PixFmt

/-- The layout of a format. -/
def descriptor : PixFmt → PixFmtDescriptor
  | yuv420p => ⟨[⟨0, 1⟩, ⟨1, 1⟩, ⟨2, 1⟩], 3, 1, 1, 12⟩
  | yuv422p => ⟨[⟨0, 1⟩, ⟨1, 1⟩, ⟨2, 1⟩], 3, 1, 0, 16⟩
  | yuv444p => ⟨[⟨0, 1⟩, ⟨1, 1⟩, ⟨2, 1⟩], 3, 0, 0, 24⟩
  | gbrp => ⟨[⟨2, 1⟩, ⟨0, 1⟩, ⟨1, 1⟩], 3, 0, 0, 24⟩
  | gray8 => ⟨[⟨0, 1⟩], 1, 0, 0, 8⟩
  | rgb24 => ⟨[⟨0, 3⟩, ⟨0, 3⟩, ⟨0, 3⟩], 1, 0, 0, 24⟩
  | rgba => ⟨[⟨0, 4⟩, ⟨0, 4⟩, ⟨0, 4⟩, ⟨0, 4⟩], 1, 0, 0, 32⟩

/-- Whether a plane holds only chroma: whether its first component is the second or third one. -/
def chromaPlane (format : PixFmt) (plane : Nat) : Bool :=
  match format.descriptor.components.findIdx? fun c => c.plane == plane with
  | some i => i == 1 || i == 2
  | none => false

/-- The number of rows of a plane. -/
def planeHeight (format : PixFmt) (height plane : Nat) : Nat :=
  if format.chromaPlane plane then
    (height + 2 ^ format.descriptor.log2ChromaH - 1) / 2 ^ format.descriptor.log2ChromaH
  else
    height

def componentSamples (format : PixFmt) (width index : Nat) : Nat :=
  if index = 1 ∨ index = 2 then
    (width + 2 ^ format.descriptor.log2ChromaW - 1) / 2 ^ format.descriptor.log2ChromaW
  else
    width

/-- The smallest stride that holds a row of a plane. -/
def minStride (format : PixFmt) (width plane : Nat) : Nat :=
  (format.descriptor.components.zipIdx.map fun (c, i) =>
    if c.plane = plane then format.componentSamples width i * c.step else 0).foldl max 0

/-- The stride of a plane that is allocated. -/
def alignedStride (format : PixFmt) (width plane : Nat) : Nat :=
  (format.minStride width plane + (bufferAlign - 1)) / bufferAlign * bufferAlign

def planeLayoutAt (format : PixFmt) (width height plane : Nat) : Option (Nat × Nat) :=
  let stride := format.alignedStride width plane
  let size := stride * format.planeHeight height plane
  if stride ≤ u64Max ∧ size ≤ u64Max then some (stride, size) else none

/-- The strides and sizes of some planes, the bytes before them counted. -/
def planeLayoutFrom (format : PixFmt) (width height total : Nat) :
    List Nat → Except Error (List (Nat × Nat))
  | [] => .ok []
  | plane :: rest =>
      match format.planeLayoutAt width height plane with
      | none => .error (.limitExceeded "image buffer" u64Max u64Max)
      | some (stride, size) =>
          if u64Max < total + size then
            .error (.limitExceeded "image buffer" u64Max u64Max)
          else
            (planeLayoutFrom format width height (total + size) rest).map ((stride, size) :: ·)

/-- The strides and sizes of the planes. -/
def planeLayout (format : PixFmt) (width height : Nat) : Except Error (List (Nat × Nat)) :=
  format.planeLayoutFrom width height 0 (List.range format.descriptor.planes)

end PixFmt

/-! ## Frames -/

/-- One plane of a frame. -/
structure Plane where
  data : List Byte
  stride : Nat
deriving DecidableEq

/-- The picture of a frame. -/
structure VideoFrame where
  format : PixFmt
  width : BitVec 32
  height : BitVec 32
  planes : List Plane
deriving DecidableEq

/-- A budget with the caps on pictures. -/
structure VideoBudget where
  budget : Budget
  maxDimension : Nat
  maxFrameBytes : Nat
  maxFrameBytes_le : maxFrameBytes ≤ u64Max

namespace VideoBudget

/-- Check the dimensions and the size of a picture, and give the size. -/
def checkFrame (b : VideoBudget) (width height bytesPerPixel : Nat) : Except LimitError Nat :=
  if b.maxDimension < width then
    .error (.exceeded "max_dimension (width)" width b.maxDimension)
  else if b.maxDimension < height then
    .error (.exceeded "max_dimension (height)" height b.maxDimension)
  else if u64Max < width * height ∨ u64Max < width * height * bytesPerPixel then
    .error .overflow
  else if b.maxFrameBytes < width * height * bytesPerPixel then
    .error (.exceeded "max_frame_bytes" (width * height * bytesPerPixel) b.maxFrameBytes)
  else
    .ok (width * height * bytesPerPixel)

end VideoBudget

/-- Allocate the planes of a layout.  What has been charged stays charged when a later plane
fails. -/
def allocLayout : List (Nat × Nat) → Budget → Budget × Except Error (List Plane)
  | [], b => (b, .ok [])
  | (stride, size) :: rest, b =>
      match allocBuffer b size with
      | .error e => (b, .error e)
      | .ok (b, data) =>
          let planes := allocLayout rest b
          (planes.1, planes.2.map (⟨data, stride⟩ :: ·))

def allocVideo (b : VideoBudget) (format : PixFmt) (width height : BitVec 32) :
    VideoBudget × Except Error VideoFrame :=
  let bytesPerPixel := max ((format.descriptor.bitsPerPixel + 7) / 8) 1
  match b.checkFrame width.toNat height.toNat bytesPerPixel with
  | .error e => (b, .error e.toError)
  | .ok _ =>
      match format.planeLayout width.toNat height.toNat with
      | .error e => (b, .error e)
      | .ok layout =>
          let allocated := allocLayout layout b.budget
          ({ b with budget := allocated.1 },
            allocated.2.map fun planes => ⟨format, width, height, planes⟩)

/-! ## Room for a frame -/

/-- The bytes of a plane that is allocated. -/
def PixFmt.planeSize (format : PixFmt) (width height plane : Nat) : Nat :=
  format.alignedStride width plane * format.planeHeight height plane

/-- A frame as it is allocated. -/
def blankFrame (format : PixFmt) (width height : BitVec 32) : VideoFrame where
  format := format
  width := width
  height := height
  planes := (List.range format.descriptor.planes).map fun plane =>
    ⟨List.replicate (format.planeSize width.toNat height.toNat plane) 0,
      format.alignedStride width.toNat plane⟩

/-- What the buffers of some planes cost. -/
def PixFmt.planesCost (format : PixFmt) (width height : Nat) (planes : List Nat) : Nat :=
  (planes.map fun plane => format.planeSize width height plane + (bufferAlign - 1)).sum

/-- A budget has room for a frame. -/
structure VideoBudget.Admits (b : VideoBudget) (format : PixFmt) (width height : Nat) : Prop where
  width_le : width ≤ b.maxDimension
  height_le : height ≤ b.maxDimension
  bytes_le : width * height * max ((format.descriptor.bitsPerPixel + 7) / 8) 1 ≤ b.maxFrameBytes
  single_le : ∀ plane < format.descriptor.planes,
    format.planeSize width height plane + (bufferAlign - 1) ≤ b.budget.limits.maxAllocSingle
  total_le : b.budget.committed + b.budget.pending +
    format.planesCost width height (List.range format.descriptor.planes) ≤
      b.budget.limits.maxAllocTotal

section Room

variable {b : VideoBudget} {format : PixFmt} {width height : Nat}

theorem VideoBudget.Admits.checkFrame_eq (h : b.Admits format width height) :
    b.checkFrame width height (max ((format.descriptor.bitsPerPixel + 7) / 8) 1) =
      .ok (width * height * max ((format.descriptor.bitsPerPixel + 7) / 8) 1) := by
  have hbytes := h.bytes_le
  have hmax := b.maxFrameBytes_le
  have hpos : 1 ≤ max ((format.descriptor.bitsPerPixel + 7) / 8) 1 := le_max_right _ _
  have hle : width * height ≤
      width * height * max ((format.descriptor.bitsPerPixel + 7) / 8) 1 :=
    Nat.le_mul_of_pos_right _ hpos
  rw [checkFrame, if_neg (not_lt.mpr h.width_le), if_neg (not_lt.mpr h.height_le),
    if_neg (by omega), if_neg (not_lt.mpr hbytes)]

/-- The layout of planes whose cost can be counted. -/
theorem planeLayoutFrom_eq {total : Nat} {planes : List Nat}
    (hstride : ∀ plane ∈ planes, format.alignedStride width plane ≤ u64Max)
    (htotal : total + format.planesCost width height planes ≤ u64Max) :
    format.planeLayoutFrom width height total planes =
      .ok (planes.map fun plane =>
        (format.alignedStride width plane, format.planeSize width height plane)) := by
  induction planes generalizing total with
  | nil => rfl
  | cons plane planes ih =>
      rcases List.forall_mem_cons.mp hstride with ⟨hfirst, hrest⟩
      rw [PixFmt.planesCost, List.map_cons, List.sum_cons] at htotal
      have hat : format.planeLayoutAt width height plane =
          some (format.alignedStride width plane, format.planeSize width height plane) :=
        if_pos ⟨hfirst, by rw [← PixFmt.planeSize]; omega⟩
      have hnext : format.planeLayoutFrom width height (total + format.planeSize width height plane)
          planes = .ok _ :=
        ih hrest (by rw [PixFmt.planesCost]; omega)
      rw [PixFmt.planeLayoutFrom, hat]
      dsimp only
      rw [if_neg (by omega), hnext]
      rfl

theorem allocBuffer_of_le {b : Budget} {len : Nat}
    (hsingle : len + (bufferAlign - 1) ≤ b.limits.maxAllocSingle)
    (htotal : b.committed + b.pending + (len + (bufferAlign - 1)) ≤ b.limits.maxAllocTotal) :
    allocBuffer b len =
      .ok ({ b with committed := b.committed + (len + (bufferAlign - 1)) },
        List.replicate len 0) := by
  have hmax := b.limits.total_le
  rw [allocBuffer, if_neg (by omega), Budget.charge_of_le hsingle htotal]

/-- Planes for which there is room. -/
theorem allocLayout_of_le {layout : List (Nat × Nat)} {b : Budget}
    (hsingle : ∀ p ∈ layout, p.2 + (bufferAlign - 1) ≤ b.limits.maxAllocSingle)
    (htotal : b.committed + b.pending + (layout.map fun p => p.2 + (bufferAlign - 1)).sum ≤
      b.limits.maxAllocTotal) :
    allocLayout layout b =
      ({ b with
        committed := b.committed + (layout.map fun p => p.2 + (bufferAlign - 1)).sum },
        .ok (layout.map fun p => ⟨List.replicate p.2 0, p.1⟩)) := by
  induction layout generalizing b with
  | nil => rfl
  | cons p layout ih =>
      rcases List.forall_mem_cons.mp hsingle with ⟨hfirst, hrest⟩
      rw [List.map_cons, List.sum_cons] at htotal
      have hnext := ih (b := { b with committed := b.committed + (p.2 + (bufferAlign - 1)) }) hrest
        (by dsimp only; omega)
      rw [allocLayout, allocBuffer_of_le hfirst (by omega)]
      dsimp only
      rw [hnext]
      dsimp only
      rw [List.map_cons, List.sum_cons, Nat.add_assoc b.committed]
      rfl

theorem foldl_max_le {bound : Nat} {values : List Nat} (h : ∀ v ∈ values, v ≤ bound) {init : Nat}
    (hinit : init ≤ bound) : values.foldl max init ≤ bound := by
  induction values generalizing init with
  | nil => exact hinit
  | cons v values ih =>
      rcases List.forall_mem_cons.mp h with ⟨hfirst, hrest⟩
      exact ih hrest (max_le hinit hfirst)

/-- The stride of a picture whose width is a 32-bit number can be counted. -/
theorem alignedStride_le (format : PixFmt) (hwidth : width < 2 ^ 32) (plane : Nat) :
    format.alignedStride width plane ≤ u64Max := by
  have hstep : ∀ c ∈ format.descriptor.components, c.step ≤ 4 := by
    cases format <;> decide
  have hmin : format.minStride width plane ≤ width * 4 := by
    refine foldl_max_le ?_ (Nat.zero_le _)
    intro v hv
    rcases List.mem_map.mp hv with ⟨⟨c, i⟩, hmem, rfl⟩
    have hcomponent := hstep c (List.fst_mem_of_mem_zipIdx hmem)
    have hsamples : format.componentSamples width i ≤ width := by
      rw [PixFmt.componentSamples]
      split
      · have hpow : 0 < 2 ^ format.descriptor.log2ChromaW := Nat.two_pow_pos _
        rw [Nat.div_le_iff_le_mul_add_pred hpow]
        have hle : width ≤ 2 ^ format.descriptor.log2ChromaW * width :=
          Nat.le_mul_of_pos_left width hpow
        omega
      · exact le_rfl
    dsimp only
    split
    · exact Nat.mul_le_mul hsamples hcomponent
    · exact Nat.zero_le _
  have hmax : u64Max = 18446744073709551615 := rfl
  rw [PixFmt.alignedStride, bufferAlign]
  omega

/-- A budget with room for a frame allocates it. -/
theorem allocVideo_of_admits {b : VideoBudget} {format : PixFmt} {width height : BitVec 32}
    (hadmits : b.Admits format width.toNat height.toNat) :
    allocVideo b format width height =
      ({ b with
        budget := { b.budget with
          committed := b.budget.committed +
            format.planesCost width.toNat height.toNat
              (List.range format.descriptor.planes) } },
        .ok (blankFrame format width height)) := by
  have htotal := hadmits.total_le
  have hmax := b.budget.limits.total_le
  have hlayout : format.planeLayout width.toNat height.toNat =
      .ok ((List.range format.descriptor.planes).map fun plane =>
        (format.alignedStride width.toNat plane,
          format.planeSize width.toNat height.toNat plane)) := by
    refine planeLayoutFrom_eq (fun plane _ => ?_) (by omega)
    exact alignedStride_le format width.isLt plane
  have hplanes : allocLayout ((List.range format.descriptor.planes).map fun plane =>
      (format.alignedStride width.toNat plane,
        format.planeSize width.toNat height.toNat plane)) b.budget = _ :=
    allocLayout_of_le
      (List.forall_mem_map.mpr fun plane hplane =>
        hadmits.single_le plane (List.mem_range.mp hplane))
      (by rw [List.map_map]; exact htotal)
  rw [List.map_map, List.map_map] at hplanes
  rw [allocVideo]
  dsimp only
  rw [hadmits.checkFrame_eq, hlayout]
  dsimp only
  rw [hplanes]
  rfl

end Room

end Codec
end Vaco
