import Vaco.Mp4.Options

/-!
# Per-track state of the MP4 muxer

A track collects one record for each sample and for each chunk.  At the end the records are
compressed into the runs that the sample tables store.

Main results:

- `TrackState.sttsRuns`: the runs that are stored, as for the other tables.
-/

namespace Vaco
namespace Mp4

open Library BitStream ByteWords RunLength Isom
open Vaco.Core (MediaType)

/-- One written sample, in the time base of its track. -/
structure SampleRecord where
  offset : Nat
  size : Nat
  dts : I64
  ctsOffset : I32
  isSync : Bool
deriving DecidableEq

/-- One finished chunk: the offset of its first sample and the samples it holds. -/
structure ChunkRecord where
  offset : Nat
  sampleCount : Nat
deriving DecidableEq, Repr

/-- Everything the muxer keeps for one stream. -/
structure TrackState where
  trackId : Nat
  media : MediaType
  handler : FourCc
  timescale : Nat
  volume : Int
  width : Nat
  height : Nat
  language : Nat
  entryBytes : Bytes
  bitRate : Option Nat
  isH264 : Bool
  samples : List SampleRecord
  chunks : List ChunkRecord
  lastDurationHint : Nat
  lastDurationHint_le : lastDurationHint ≤ u32Max
  matrix : List Nat
deriving DecidableEq

/-! ## Run-length compression -/

section Compression

variable {α : Type*} [DecidableEq α]

/-- One value behind the runs so far: the last run grows or a new one begins. -/
def pushRun (out : List (Nat × α)) (v : α) : List (Nat × α) :=
  match out.getLast? with
  | none => out ++ [(1, v)]
  | some last =>
      if last.2 = v then out.dropLast ++ [(satAdd u32Max last.1 1, last.2)] else out ++ [(1, v)]

/-- Run-length compress a sequence of values. -/
def compressRuns (values : List α) : List (Nat × α) :=
  values.foldl pushRun []

end Compression

/-! ## The runs of a track -/

namespace TrackState

/-- The step between two decode times as a `u32` field: zero where it is negative or does
not fit. -/
def stepField (a b : I64) : Nat :=
  let d := (b.saturatingSub a).val.toNat
  if d ≤ u32Max then d else 0

/-- The steps between consecutive samples. -/
def steps (t : TrackState) : List Nat :=
  (t.samples.zip t.samples.tail).map fun w => stepField w.1.dts w.2.dts

/-- The duration of the last sample: the hint, or the previous step without one. -/
def lastStep (t : TrackState) : Nat :=
  if t.lastDurationHint = 0 then t.steps.getLast?.getD 0 else t.lastDurationHint

/-- `stts`: runs of count and delta. -/
def sttsRuns (t : TrackState) : List (Nat × Nat) :=
  if t.samples = [] then [] else compressRuns (t.steps ++ [t.lastStep])

/-- `ctts`: runs of count and offset; none where every offset is zero. -/
def cttsRuns (t : TrackState) : List (Nat × Int) :=
  if t.samples.all fun s => decide (s.ctsOffset.val = 0) then []
  else compressRuns (t.samples.map fun s => s.ctsOffset.val)

/-- Whether every sample is a sync sample. -/
def allSync (t : TrackState) : Bool :=
  t.samples.all SampleRecord.isSync

/-- `stss`: numbers of the sync samples, or nothing where every sample is one. -/
def stssList (t : TrackState) : Option (List Nat) :=
  if t.allSync then none
  else some ((t.samples.zipIdx.filter fun s => s.1.isSync).map fun s =>
    satAdd u32Max (min s.2 u32Max) 1)

/-- `stsz`: one size for each sample. -/
def stszList (t : TrackState) : List Nat :=
  t.samples.map SampleRecord.size

/-- One offset for each chunk. -/
def chunkOffsetList (t : TrackState) : List Nat :=
  t.chunks.map ChunkRecord.offset

/-- One chunk behind the runs so far, with the sample count of the chunk before it. -/
def pushChunk (acc : List (Nat × Nat × Nat) × Option Nat) (c : ChunkRecord × Nat) :
    List (Nat × Nat × Nat) × Option Nat :=
  if acc.2 = some c.1.sampleCount then acc
  else (acc.1 ++ [(satAdd u32Max (min c.2 u32Max) 1, c.1.sampleCount, 1)], some c.1.sampleCount)

/-- `stsc`: runs of first chunk, samples in a chunk and description. -/
def stscRuns (t : TrackState) : List (Nat × Nat × Nat) :=
  (t.chunks.zipIdx.foldl pushChunk ([], none)).1

/-- Media duration in the timescale of the track. -/
def mediaDuration (t : TrackState) : Nat :=
  t.sttsRuns.foldl (fun total run => satAdd u64Max total (min (run.1 * run.2) u64Max)) 0

/-- The composition offset of the first sample, where that is positive. -/
def mediaTime (t : TrackState) : Nat :=
  ((t.samples.head?.map fun s : SampleRecord => s.ctsOffset.val).getD 0).toNat

/-- The media duration without the part before time zero. -/
def presentedDuration (t : TrackState) : Nat :=
  let pts0 : I64 := clampI64
    ((t.samples.head?.map fun s : SampleRecord => s.dts.val + s.ctsOffset.val).getD 0)
  t.mediaDuration - pts0.saturatingNeg.val.toNat

/-- The size of all samples together. -/
def totalBytes (t : TrackState) : Nat :=
  (t.samples.map SampleRecord.size).sum

end TrackState

end Mp4
end Vaco
