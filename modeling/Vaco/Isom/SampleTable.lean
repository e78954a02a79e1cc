import Vaco.Core.Packet
import Vaco.Isom.Table

/-!
# Sample tables

The tables of a `stbl` box answer where a sample lies, how long it is and when it is
decoded.  Each run-length coded table is looked up through its run index and a walk behind the
checkpoint; a table carries the proof that its index belongs to its runs.

Main results:

- `SampleTable.sample`: random access to one sample.
- `SampleTable.parse`: the tables of a `stbl` from its child boxes.
- `SampleSizes.readAt_le`: every stored size fits its 32-bit field.
- `SampleTable.parse_gathers`: what is parsed is that of the last box of each table.

Current gaps:

- The composition shift, the dependency flags and the encryption boxes of a table are kept out,
  and so are the extremes of the composition offsets.
-/

namespace Vaco
namespace Isom

open Library BitStream ByteWords RunLength
open Vaco.Core (Error)

/-! ## Boxes -/

/-- A four-character box type. -/
abbrev FourCc := Bytes

/-- A four-character code by the codes of its characters. -/
def fourCc (a b c d : Char) : FourCc :=
  [a, b, c, d].map fun ch => BitVec.ofNat 8 ch.toNat

/-- A box: its type and its payload. -/
structure IsoBox where
  kind : FourCc
  payload : Bytes
deriving DecidableEq, Repr

/-- Version, flags and payload of a full box. -/
structure FullBox where
  version : Nat
  flags : Nat
  body : Bytes
deriving DecidableEq, Repr

/-- Interpret the payload of a box as a full box. -/
def IsoBox.full (b : IsoBox) : Except Error FullBox :=
  if b.payload.length < 4 then .error (.invalidData "isom: truncated full-box header")
  else .ok
    { version := beNat (b.payload.take 1)
      flags := beNat ((b.payload.take 4).drop 1)
      body := b.payload.drop 4 }

/-! ## Decode times -/

/-- A carried position inside `stts`. -/
@[ext]
structure TimePosition where
  run : Nat
  firstSample : Nat
  dts : Nat
  count : Nat
  delta : Nat
deriving DecidableEq, Repr

/-- Decode time and duration of sample `n`, which must lie in this run. -/
def TimePosition.at (pos : TimePosition) (n : Nat) : Nat × Nat :=
  (satAdd i64Max pos.dts (min ((n - pos.firstSample) * pos.delta) i64Max), pos.delta)

/-- The count and the second word of a run of eight bytes, zero when the table has no such
run. -/
def pairEntry (runs : EntryTable) (i : Nat) : Nat × Nat :=
  ((runs.getU32 i 0).getD 0, (runs.getU32 i 4).getD 0)

/-- `stts`: decode-time deltas, run-length coded. -/
structure TimeToSample where
  runs : EntryTable
  index : RunIndex
  stride_eq : runs.stride = 8
  summarises : index.Summarises runs.len (pairEntry runs)

namespace TimeToSample

/-- Parse from a `stts` full box. -/
def parse (full : FullBox) : TimeToSample :=
  let runs := EntryTable.new (countAndRest full.body).2 8 (countAndRest full.body).1
  { runs := runs
    index := RunIndex.build runs.len (pairEntry runs)
    stride_eq := EntryTable.new_stride (by decide) _ _
    summarises := RunIndex.build_summarises _ _ }

/-- An empty table: no samples, no time. -/
def empty : TimeToSample :=
  { runs := EntryTable.new [] 8 0
    index := RunIndex.default
    stride_eq := rfl
    summarises := RunIndex.default_summarises _ }

/-- Samples the table accounts for. -/
def sampleCount (t : TimeToSample) : Nat :=
  t.index.totalSamples

/-- Count and delta of a run. -/
def run (t : TimeToSample) (i : Nat) : Option (Nat × Nat) :=
  (t.runs.getU32 i 0).bind fun count => (t.runs.getU32 i 4).map fun delta => (count, delta)

/-- The delta of the last run. -/
def lastDelta (t : TimeToSample) : Nat :=
  if t.runs.len = 0 then 0 else ((t.run (t.runs.len - 1)).map Prod.snd).getD 0

/-- The synthetic run of unbounded length behind the last run. -/
def tail (t : TimeToSample) (run : Nat) : TimePosition :=
  { run := run
    firstSample := t.index.totalSamples
    dts := t.index.totalValue
    count := u64Max
    delta := t.lastDelta }

def seekFrom (t : TimeToSample) (n : Nat) : Nat → Checkpoint → TimePosition
  | 0, cp => t.tail cp.run
  | left + 1, cp =>
      match t.run cp.run with
      | none => t.tail cp.run
      | some (count, delta) =>
          if n < satAdd u64Max cp.samples count then
            { run := cp.run
              firstSample := cp.samples
              dts := cp.value
              count := count
              delta := delta }
          else
            t.seekFrom n left
              ⟨cp.run + 1, satAdd u64Max cp.samples count,
                satAdd i64Max cp.value (min (count * delta) i64Max)⟩

/-- The run covering sample `n`. -/
def seekRun (t : TimeToSample) (n : Nat) : TimePosition :=
  let cp := t.index.checkpointForSample n
  t.seekFrom n (t.runs.len - cp.run) cp

/-- Decode time and duration of sample `n`. -/
def dtsAndDuration (t : TimeToSample) (n : Nat) : Nat × Nat :=
  (t.seekRun n).at n

def sampleNumber (t : TimeToSample) (n : Nat) : Option Nat :=
  let last := min n (t.index.totalSamples - 1)
  if last ≤ u32Max then some last else none

/-- How far into a run a time lies, in whole samples of the run. -/
def samplesInto (dts : Nat) (cp : Checkpoint) (count delta : Nat) : Nat :=
  if delta = 0 then 0 else min ((dts - cp.value) / delta) (count - 1)

/-- The loop of `sample_at_or_before_dts` from a checkpoint, with the runs left behind it. -/
def sampleFrom (t : TimeToSample) (dts : Nat) : Nat → Checkpoint → Option Nat
  | 0, _ => t.sampleNumber (t.index.totalSamples - 1)
  | left + 1, cp =>
      match t.run cp.run with
      | none => t.sampleNumber (t.index.totalSamples - 1)
      | some (count, delta) =>
          let endValue := satAdd i64Max cp.value (min (count * delta) i64Max)
          if dts < endValue ∨ delta = 0 then
            t.sampleNumber (satAdd u64Max cp.samples (samplesInto dts cp count delta))
          else t.sampleFrom dts left ⟨cp.run + 1, satAdd u64Max cp.samples count, endValue⟩

/-- The sample number looked up for a decode time. -/
def sampleAtOrBeforeDts (t : TimeToSample) (dts : Int) : Option Nat :=
  if t.index.totalSamples = 0 ∨ dts < 0 then none
  else
    let cp := t.index.checkpointForValue dts.toNat
    t.sampleFrom dts.toNat (t.runs.len - cp.run) cp

end TimeToSample

/-! ## Composition offsets -/

/-- `ctts`: composition offsets, run-length coded. -/
structure CompositionOffsets where
  runs : EntryTable
  index : RunIndex
  version : Nat
  stride_eq : runs.stride = 8
  summarises : index.Summarises runs.len fun i => ((pairEntry runs i).1, 0)

namespace CompositionOffsets

/-- Parse from a `ctts` full box. -/
def parse (full : FullBox) : CompositionOffsets :=
  let runs := EntryTable.new (countAndRest full.body).2 8 (countAndRest full.body).1
  { runs := runs
    index := RunIndex.build runs.len fun i => ((pairEntry runs i).1, 0)
    version := full.version
    stride_eq := EntryTable.new_stride (by decide) _ _
    summarises := RunIndex.build_summarises _ _ }

/-- The offset of a run: unsigned and clamped in version 0, signed otherwise. -/
def raw (t : CompositionOffsets) (i : Nat) : Int :=
  let v := (t.runs.getU32 i 4).getD 0
  if t.version = 0 then min v 2147483647 else (BitVec.ofNat 32 v).toInt

def offsetFrom (t : CompositionOffsets) (n : Nat) : Nat → Checkpoint → Int
  | 0, _ => 0
  | left + 1, cp =>
      match t.runs.getU32 cp.run 0 with
      | none => 0
      | some count =>
          if n < satAdd u64Max cp.samples count then t.raw cp.run
          else t.offsetFrom n left ⟨cp.run + 1, satAdd u64Max cp.samples count, cp.value⟩

/-- Composition offset of sample `n`; zero past the table's coverage. -/
def offset (t : CompositionOffsets) (n : Nat) : Int :=
  let cp := t.index.checkpointForSample n
  t.offsetFrom n (t.runs.len - cp.run) cp

end CompositionOffsets

/-! ## Chunks -/

/-- Where a sample sits within the chunk layout. -/
@[ext]
structure ChunkLocation where
  chunk : Nat
  firstSample : Nat
  samplesPerChunk : Nat
  descriptionIndex : Nat
deriving DecidableEq, Repr

/-- Chunks of a run of `stsc`: up to the first chunk of the next run, or to the last
chunk of all. -/
def chunksOfRun (runs : EntryTable) (chunkCount i first : Nat) : Nat :=
  (if i + 1 < runs.len then (runs.getU32 (i + 1) 0).getD first
    else satAdd u32Max chunkCount 1) - first

/-- Sample count of a run of `stsc` as the index keeps it. -/
def chunkEntry (runs : EntryTable) (chunkCount i : Nat) : Nat × Nat :=
  (min (chunksOfRun runs chunkCount i ((runs.getU32 i 0).getD 1) * (runs.getU32 i 4).getD 0)
    u32Max, 0)

def checkFirstChunks : Option Nat → List Nat → Except Error Unit
  | _, [] => .ok ()
  | none, first :: rest =>
      if first ≠ 1 then .error (.invalidData "isom: stsc does not start at chunk 1")
      else checkFirstChunks (some first) rest
  | some p, first :: rest =>
      if first ≤ p then .error (.invalidData "isom: stsc first_chunk not increasing")
      else checkFirstChunks (some first) rest

/-- The first chunks of all runs. -/
def firstChunks (runs : EntryTable) : List Nat :=
  (List.range runs.len).map fun i => (runs.getU32 i 0).getD 0

/-- `stsc`: sample-to-chunk runs. -/
structure SampleToChunk where
  runs : EntryTable
  index : RunIndex
  chunkCount : Nat
  stride_eq : runs.stride = 12
  chunkCount_le : chunkCount ≤ u32Max
  checked : checkFirstChunks none (firstChunks runs) = .ok ()
  summarises : index.Summarises runs.len (chunkEntry runs chunkCount)

namespace SampleToChunk

def parse (full : FullBox) (chunkCount : Nat) (hcount : chunkCount ≤ u32Max) :
    Except Error SampleToChunk :=
  let runs := EntryTable.new (countAndRest full.body).2 12 (countAndRest full.body).1
  match h : checkFirstChunks none (firstChunks runs) with
  | .error e => .error e
  | .ok () => .ok
      { runs := runs
        index := RunIndex.build runs.len (chunkEntry runs chunkCount)
        chunkCount := chunkCount
        stride_eq := EntryTable.new_stride (by decide) _ _
        chunkCount_le := hcount
        checked := h
        summarises := RunIndex.build_summarises _ _ }

/-- An empty table. -/
def empty : SampleToChunk :=
  { runs := EntryTable.new [] 12 0
    index := RunIndex.default
    chunkCount := 0
    stride_eq := rfl
    chunkCount_le := Nat.zero_le u32Max
    checked := rfl
    summarises := RunIndex.default_summarises _ }

/-- Samples the chunk layout accounts for. -/
def sampleCount (t : SampleToChunk) : Nat :=
  t.index.totalSamples

def run (t : SampleToChunk) (i : Nat) : Option (Nat × Nat × Nat) :=
  (t.runs.getU32 i 0).bind fun first => (t.runs.getU32 i 4).bind fun spc =>
    (t.runs.getU32 i 8).map fun sdi => (first, spc, sdi)

/-- Chunks of a run, given its first chunk. -/
def runChunks (t : SampleToChunk) (i first : Nat) : Nat :=
  chunksOfRun t.runs t.chunkCount i first

def locateFrom (t : SampleToChunk) (n : Nat) : Nat → Checkpoint → Option ChunkLocation
  | 0, _ => none
  | left + 1, cp =>
      match t.run cp.run with
      | none => none
      | some (first, spc, sdi) =>
          let inRun := min (t.runChunks cp.run first * spc) u64Max
          let next := satAdd u64Max cp.samples inRun
          if n < next ∧ 0 < spc then
            let chunksInto := (n - cp.samples) / spc
            let chunk := satAdd u64Max first chunksInto
            if chunk ≤ u32Max then
              some
                { chunk := chunk
                  firstSample := satAdd u64Max cp.samples (min (chunksInto * spc) u64Max)
                  samplesPerChunk := spc
                  descriptionIndex := sdi }
            else none
          else t.locateFrom n left ⟨cp.run + 1, next, cp.value⟩

def locate (t : SampleToChunk) (n : Nat) : Option ChunkLocation :=
  let cp := t.index.checkpointForSample n
  t.locateFrom n (t.runs.len - cp.run) cp

end SampleToChunk

/-! ## Sample sizes -/

/-- How `stsz` and `stz2` store their sizes. -/
inductive SizeStorage where
  | uniform (size : Nat)
  | bits4 (data : Bytes)
  | bits8 (data : Bytes)
  | bits16 (data : Bytes)
  | bits32 (data : Bytes)
deriving DecidableEq, Repr

namespace SizeStorage

/-- Whether every sample has the same size. -/
def isUniform : SizeStorage → Bool
  | .uniform _ => true
  | _ => false

def wordAt (data : Bytes) (width pos : Nat) : Nat :=
  if (data.drop pos).length < width then 0 else beNat ((data.drop pos).take width)

/-- The stored size of a sample, zero past the count. -/
def readAt (storage : SizeStorage) (i count : Nat) : Nat :=
  if count ≤ i then 0
  else match storage with
    | .uniform s => s
    | .bits4 d =>
        let byte := ((d[i / 2]?).getD 0).toNat
        if i % 2 = 0 then byte / 16 else byte % 16
    | .bits8 d => ((d[i]?).getD 0).toNat
    | .bits16 d => wordAt d 2 (2 * i)
    | .bits32 d => wordAt d 4 (4 * i)

end SizeStorage

/-- `stsz` or `stz2`: sample sizes, with decimated running sums where they vary. -/
structure SampleSizes where
  storage : SizeStorage
  count : Nat
  prefixSums : Option RunIndex
  count_le : count ≤ u32Max
  size_le : ∀ i, storage.readAt i count ≤ u32Max
  prefixSums_eq : prefixSums =
    if storage.isUniform then none
    else some (RunIndex.build count fun i => (1, storage.readAt i count))

namespace SampleSizes

/-- The largest number of entries that fit some bytes. -/
def clamp (declared bytes stride : Nat) : Nat :=
  if stride = 0 then 0 else min declared (min (bytes / stride) u32Max)

theorem clamp_le (declared bytes stride : Nat) : clamp declared bytes stride ≤ u32Max := by
  rw [clamp]
  split
  · exact Nat.zero_le _
  · exact (Nat.min_le_right _ _).trans (Nat.min_le_right _ _)

theorem wordAt_lt (data : Bytes) (width pos : Nat) :
    SizeStorage.wordAt data width pos < 256 ^ width := by
  rw [SizeStorage.wordAt]
  split
  · exact Nat.pow_pos (by decide)
  · apply lt_of_lt_of_le (beNat_lt _)
    exact Nat.pow_le_pow_right (by decide) (List.length_take_le _ _)

/-- Stored sizes of fewer than 32 bits and of 32 bits fit a `u32`. -/
theorem readAt_le (storage : SizeStorage) (i count : Nat)
    (h : ∀ s, storage = .uniform s → s ≤ u32Max) : storage.readAt i count ≤ u32Max := by
  unfold SizeStorage.readAt u32Max
  split
  · exact Nat.zero_le _
  · cases storage with
    | uniform s => exact h s rfl
    | bits4 d =>
        have hbyte := ((d[i / 2]?).getD 0).isLt
        dsimp only
        split <;> omega
    | bits8 d =>
        have hbyte := ((d[i]?).getD 0).isLt
        dsimp only
        omega
    | bits16 d =>
        have hword := wordAt_lt d 2 (2 * i)
        dsimp only
        omega
    | bits32 d =>
        have hword := wordAt_lt d 4 (4 * i)
        dsimp only
        omega

/-- A table where every sample is `size` bytes. -/
def uniform (size count : Nat) (hsize : size ≤ u32Max) (hcount : count ≤ u32Max) : SampleSizes :=
  { storage := .uniform size
    count := count
    prefixSums := none
    count_le := hcount
    size_le := fun i => readAt_le _ i count fun s hs => by
      rw [← SizeStorage.uniform.inj hs]
      exact hsize
    prefixSums_eq := rfl }

/-- A table whose sizes vary. -/
def ofStorage (storage : SizeStorage) (count : Nat) (hstorage : storage.isUniform = false)
    (hcount : count ≤ u32Max) : SampleSizes :=
  { storage := storage
    count := count
    prefixSums := some (RunIndex.build count fun i => (1, storage.readAt i count))
    count_le := hcount
    size_le := fun i => readAt_le _ i count fun s hs => by
      rw [hs] at hstorage
      cases hstorage
    prefixSums_eq := by rw [hstorage]; rfl }

/-- The big-endian `u32` at a byte of a body, zero past its end. -/
def be32At (body : Bytes) (pos : Nat) : Nat :=
  SizeStorage.wordAt body 4 pos

theorem be32At_le (body : Bytes) (pos : Nat) : be32At body pos ≤ u32Max :=
  Nat.le_of_lt_succ (wordAt_lt body 4 pos)

/-- Parse a `stsz` full box. -/
def parseStsz (full : FullBox) : SampleSizes :=
  let rest := full.body.drop 8
  if be32At full.body 0 ≠ 0 then
    uniform (be32At full.body 0) (be32At full.body 4) (be32At_le _ _) (be32At_le _ _)
  else
    .ofStorage (.bits32 rest) (clamp (be32At full.body 4) rest.length 4) rfl (clamp_le _ _ _)

/-- Parse a `stz2` full box. -/
def parseStz2 (full : FullBox) : SampleSizes :=
  let rest := full.body.drop 8
  let declared := be32At full.body 4
  match be32At full.body 0 % 256 with
  | 4 => .ofStorage (.bits4 rest) (min declared (min (rest.length * 2) u32Max)) rfl
      ((Nat.min_le_right _ _).trans (Nat.min_le_right _ _))
  | 8 => .ofStorage (.bits8 rest) (clamp declared rest.length 1) rfl (clamp_le _ _ _)
  | 16 => .ofStorage (.bits16 rest) (clamp declared rest.length 2) rfl (clamp_le _ _ _)
  | _ => uniform 0 0 (Nat.zero_le u32Max) (Nat.zero_le u32Max)

/-- Size of sample `n`, or nothing past the end. -/
def size (t : SampleSizes) (n : Nat) : Option Nat :=
  if t.count ≤ n then none else some (t.storage.readAt n t.count)

def addSizes (t : SampleSizes) (total start n : Nat) : Nat :=
  (List.range' start (n - start)).foldl
    (fun total i => satAdd u64Max total (t.storage.readAt i t.count)) total

/-- Total bytes of the first `n` samples. -/
def cumulative (t : SampleSizes) (n : Nat) : Nat :=
  let n := min n t.count
  match t.storage, t.prefixSums with
  | .uniform s, _ => min (n * s) u64Max
  | _, some sums =>
      let cp := sums.checkpointForSample n
      t.addSizes cp.value (min cp.samples u32Max) n
  | _, none => t.addSizes 0 0 n

end SampleSizes

/-! ## Chunk offsets and sync samples -/

/-- `stco` or `co64`: chunk offsets. -/
structure ChunkOffsets where
  table : EntryTable
  wide : Bool
  stride_eq : table.stride = if wide then 8 else 4

namespace ChunkOffsets

/-- Parse a `stco` full box. -/
def parseStco (full : FullBox) : ChunkOffsets :=
  { table := EntryTable.new (countAndRest full.body).2 4 (countAndRest full.body).1
    wide := false
    stride_eq := EntryTable.new_stride (by decide) _ _ }

/-- Parse a `co64` full box. -/
def parseCo64 (full : FullBox) : ChunkOffsets :=
  { table := EntryTable.new (countAndRest full.body).2 8 (countAndRest full.body).1
    wide := true
    stride_eq := EntryTable.new_stride (by decide) _ _ }

/-- An empty table. -/
def empty : ChunkOffsets :=
  { table := EntryTable.new [] 4 0
    wide := false
    stride_eq := rfl }

/-- Chunks held. -/
def len (t : ChunkOffsets) : Nat :=
  t.table.len

/-- File offset of a chunk, counted from one. -/
def offset (t : ChunkOffsets) (chunk : Nat) : Option Nat :=
  if chunk = 0 then none
  else if t.wide then t.table.getU64 (chunk - 1) 0
  else t.table.getU32 (chunk - 1) 0

end ChunkOffsets

/-- `stss`: sync samples, counted from one. -/
structure SyncSamples where
  table : EntryTable
  stride_eq : table.stride = 4

namespace SyncSamples

/-- Parse a `stss` full box. -/
def parse (full : FullBox) : SyncSamples :=
  { table := EntryTable.new (countAndRest full.body).2 4 (countAndRest full.body).1
    stride_eq := EntryTable.new_stride (by decide) _ _ }

/-- The one-based sample number at an entry. -/
def entry (t : SyncSamples) (i : Nat) : Option Nat :=
  t.table.getU32 i 0

/-- The bisection of `position` between two bounds. -/
def bisect (t : SyncSamples) (want lo hi : Nat) : Nat :=
  if lo < hi then
    let mid := lo + (hi - lo) / 2
    if (t.entry mid).getD u32Max < want then t.bisect want (mid + 1) hi
    else t.bisect want lo mid
  else lo
termination_by hi - lo

/-- Position of the first entry at or above `want`. -/
def position (t : SyncSamples) (want : Nat) : Nat :=
  t.bisect want 0 t.table.len

/-- Whether the zero-based sample `n` is listed. -/
def contains (t : SyncSamples) (n : Nat) : Bool :=
  if u32Max < n + 1 then false
  else t.entry (t.position (n + 1)) == some (n + 1)

end SyncSamples

/-! ## The whole table -/

/-- One resolved sample. -/
@[ext]
structure Sample where
  index : Nat
  offset : Nat
  size : Nat
  dts : Nat
  ctsOffset : Int
  duration : Nat
  isSync : Bool
  chunk : Nat
  descriptionIndex : Nat
deriving DecidableEq, Repr

/-- Every table of a `stbl` that sample access reads. -/
structure SampleTable where
  timeToSample : TimeToSample
  compositionOffsets : Option CompositionOffsets
  syncSamples : Option SyncSamples
  sampleToChunk : SampleToChunk
  sampleSizes : SampleSizes
  chunkOffsets : ChunkOffsets

/-- The tables gathered by the first pass of `parse`, with the `stsc` box and the
numbers of sample group boxes. -/
structure PartialTable where
  timeToSample : TimeToSample := TimeToSample.empty
  compositionOffsets : Option CompositionOffsets := none
  syncSamples : Option SyncSamples := none
  sampleSizes : SampleSizes := SampleSizes.uniform 0 0 (Nat.zero_le u32Max) (Nat.zero_le u32Max)
  chunkOffsets : ChunkOffsets := ChunkOffsets.empty
  stscBox : Option IsoBox := none
  groupDescriptions : Nat := 0
  sampleToGroups : Nat := 0

def maxSampleGroupBoxes : Nat := 256

def PartialTable.add (me : PartialTable) (child : IsoBox) : Except Error PartialTable :=
  if child.kind = fourCc 's' 't' 't' 's' then
    child.full.map fun full => { me with timeToSample := .parse full }
  else if child.kind = fourCc 'c' 't' 't' 's' then
    child.full.map fun full => { me with compositionOffsets := some (.parse full) }
  else if child.kind = fourCc 'c' 's' 'l' 'g' then
    child.full.map fun _ => me
  else if child.kind = fourCc 's' 't' 's' 's' then
    child.full.map fun full => { me with syncSamples := some (.parse full) }
  else if child.kind = fourCc 's' 't' 's' 'c' then
    .ok { me with stscBox := some child }
  else if child.kind = fourCc 's' 't' 's' 'z' then
    child.full.map fun full => { me with sampleSizes := .parseStsz full }
  else if child.kind = fourCc 's' 't' 'z' '2' then
    child.full.map fun full => { me with sampleSizes := .parseStz2 full }
  else if child.kind = fourCc 's' 't' 'c' 'o' then
    child.full.map fun full => { me with chunkOffsets := .parseStco full }
  else if child.kind = fourCc 'c' 'o' '6' '4' then
    child.full.map fun full => { me with chunkOffsets := .parseCo64 full }
  else if child.kind = fourCc 's' 'd' 't' 'p' then
    child.full.map fun _ => me
  else if child.kind = fourCc 's' 'g' 'p' 'd' then
    if maxSampleGroupBoxes ≤ me.groupDescriptions then
      .error (.limitExceeded "isom stbl sgpd boxes" (me.groupDescriptions + 1)
        maxSampleGroupBoxes)
    else .ok { me with groupDescriptions := me.groupDescriptions + 1 }
  else if child.kind = fourCc 's' 'b' 'g' 'p' then
    if maxSampleGroupBoxes ≤ me.sampleToGroups then
      .error (.limitExceeded "isom stbl sbgp boxes" (me.sampleToGroups + 1)
        maxSampleGroupBoxes)
    else .ok { me with sampleToGroups := me.sampleToGroups + 1 }
  else .ok me

/-- The first pass of `parse` over the children, the first broken one ending it. -/
def PartialTable.addAll (me : PartialTable) :
    List (Except Error IsoBox) → Except Error PartialTable
  | [] => .ok me
  | .error e :: _ => .error e
  | .ok child :: rest => (me.add child).bind fun me => me.addAll rest

namespace SampleTable

/-- The chunk layout, read once the number of chunks is known. -/
def parseLayout (me : PartialTable) : Except Error SampleToChunk :=
  match me.stscBox with
  | none => .ok SampleToChunk.empty
  | some b => b.full.bind fun full =>
      SampleToChunk.parse full me.chunkOffsets.len me.chunkOffsets.table.len_le

/-- Parse the children of a `stbl` container. -/
def parse (children : List (Except Error IsoBox)) : Except Error SampleTable :=
  (PartialTable.addAll {} children).bind fun me =>
    (parseLayout me).map fun sampleToChunk =>
        { timeToSample := me.timeToSample
          compositionOffsets := me.compositionOffsets
          syncSamples := me.syncSamples
          sampleToChunk := sampleToChunk
          sampleSizes := me.sampleSizes
          chunkOffsets := me.chunkOffsets }

/-- Samples in the track. -/
def sampleCount (t : SampleTable) : Nat :=
  t.sampleSizes.count

/-- Whether sample `n` may be decoded from cold. -/
def isSync (t : SampleTable) (n : Nat) : Bool :=
  match t.syncSamples with
  | none => true
  | some s => s.contains n

/-- Composition offset of sample `n`. -/
def ctsOffset (t : SampleTable) (n : Nat) : Int :=
  match t.compositionOffsets with
  | none => 0
  | some c => c.offset n

/-- Subtraction of unsigned words that fails below zero. -/
def checkedSub (a b : Nat) : Option Nat :=
  if b ≤ a then some (a - b) else none

/-- Addition of 64-bit words that fails above the greatest. -/
def checkedAdd (a b : Nat) : Option Nat :=
  if a + b ≤ u64Max then some (a + b) else none

/-- Fully resolve sample `n`. -/
def sample (t : SampleTable) (n : Nat) : Option Sample :=
  (t.sampleSizes.size n).bind fun size =>
  (t.sampleToChunk.locate n).bind fun loc =>
  (t.chunkOffsets.offset loc.chunk).bind fun base =>
  (if loc.firstSample ≤ u32Max then some loc.firstSample else none).bind fun first =>
  (checkedSub (t.sampleSizes.cumulative n) (t.sampleSizes.cumulative first)).bind fun within =>
  (checkedAdd base within).map fun offset =>
    { index := n
      offset := offset
      size := size
      dts := (t.timeToSample.dtsAndDuration n).1
      ctsOffset := t.ctsOffset n
      duration := (t.timeToSample.dtsAndDuration n).2
      isSync := t.isSync n
      chunk := loc.chunk
      descriptionIndex := loc.descriptionIndex }

end SampleTable

/-! ## What a container is parsed to -/

def IsoBox.readAs {α : Type} (kind : FourCc) (parse : FullBox → α) (b : IsoBox) : Option α :=
  if b.kind = kind then b.full.toOption.map parse else none

def lastRead {α : Type} (read : IsoBox → Option α) (default : α) (boxes : List IsoBox) : α :=
  (boxes.reverse.findSome? read).getD default

theorem lastRead_cons {α : Type} (read : IsoBox → Option α) (default : α) (b : IsoBox)
    (rest : List IsoBox) :
    lastRead read default (b :: rest) = lastRead read (lastRead read default [b]) rest := by
  simp only [lastRead, List.reverse_cons, List.findSome?_append, List.reverse_nil, List.nil_append]
  cases rest.reverse.findSome? read <;> rfl

namespace PartialTable

/-- Every table is that of the last box for it. -/
structure Gathers (boxes : List IsoBox) (me me' : PartialTable) : Prop where
  timeToSample : me'.timeToSample =
    lastRead (IsoBox.readAs (fourCc 's' 't' 't' 's') TimeToSample.parse) me.timeToSample boxes
  compositionOffsets : me'.compositionOffsets =
    lastRead (IsoBox.readAs (fourCc 'c' 't' 't' 's') (some ∘ CompositionOffsets.parse))
      me.compositionOffsets boxes
  syncSamples : me'.syncSamples =
    lastRead (IsoBox.readAs (fourCc 's' 't' 's' 's') (some ∘ SyncSamples.parse))
      me.syncSamples boxes
  sampleSizes : me'.sampleSizes =
    lastRead (fun b => (b.readAs (fourCc 's' 't' 's' 'z') .parseStsz).or
      (b.readAs (fourCc 's' 't' 'z' '2') .parseStz2)) me.sampleSizes boxes
  chunkOffsets : me'.chunkOffsets =
    lastRead (fun b => (b.readAs (fourCc 's' 't' 'c' 'o') .parseStco).or
      (b.readAs (fourCc 'c' 'o' '6' '4') .parseCo64)) me.chunkOffsets boxes
  stscBox : me'.stscBox =
    lastRead (fun b => if b.kind = fourCc 's' 't' 's' 'c' then some (some b) else none)
      me.stscBox boxes

theorem gathers_add {me me' : PartialTable} {b : IsoBox} (h : me.add b = .ok me') :
    Gathers [b] me me' := by
  rcases b with ⟨kind, payload⟩
  cases hfull : IsoBox.full ⟨kind, payload⟩
  all_goals
    simp only [add, hfull, Except.map, ite_eq_iff] at h
    rcases h with ⟨rfl, ⟨⟩⟩ | ⟨h₁, ⟨rfl, ⟨⟩⟩ | ⟨h₂, ⟨rfl, ⟨⟩⟩ | ⟨h₃, ⟨rfl, ⟨⟩⟩ | ⟨h₄, ⟨rfl, ⟨⟩⟩ |
      ⟨h₅, ⟨rfl, ⟨⟩⟩ | ⟨h₆, ⟨rfl, ⟨⟩⟩ | ⟨h₇, ⟨rfl, ⟨⟩⟩ | ⟨h₈, ⟨rfl, ⟨⟩⟩ | ⟨h₉, ⟨rfl, ⟨⟩⟩ |
      ⟨h₁₀, ⟨rfl, ⟨_, ⟨⟩⟩ | ⟨_, ⟨⟩⟩⟩ | ⟨h₁₁, ⟨rfl, ⟨_, ⟨⟩⟩ | ⟨_, ⟨⟩⟩⟩ | ⟨h₁₂, ⟨⟩⟩⟩⟩⟩⟩⟩⟩⟩⟩⟩⟩⟩
  all_goals constructor <;> simp +decide [lastRead, IsoBox.readAs, Except.toOption, *]

theorem gathers_addAll {me me' : PartialTable} {children : List (Except Error IsoBox)}
    (h : me.addAll children = .ok me') :
    ∃ boxes, children = boxes.map .ok ∧ Gathers boxes me me' := by
  induction children generalizing me with
  | nil =>
      cases h
      exact ⟨[], rfl, rfl, rfl, rfl, rfl, rfl, rfl⟩
  | cons child rest ih =>
      cases child with
      | error e => cases h
      | ok b =>
          rw [addAll] at h
          cases hadd : me.add b with
          | error e =>
              rw [hadd] at h
              cases h
          | ok next =>
              rw [hadd] at h
              rcases ih h with ⟨boxes, rfl, hrest⟩
              have hfirst := gathers_add hadd
              refine ⟨b :: boxes, rfl, ?_⟩
              constructor <;> rw [lastRead_cons]
              · exact hfirst.timeToSample ▸ hrest.timeToSample
              · exact hfirst.compositionOffsets ▸ hrest.compositionOffsets
              · exact hfirst.syncSamples ▸ hrest.syncSamples
              · exact hfirst.sampleSizes ▸ hrest.sampleSizes
              · exact hfirst.chunkOffsets ▸ hrest.chunkOffsets
              · exact hfirst.stscBox ▸ hrest.stscBox

end PartialTable

/-- A parsed container has whole children, in whatever order; its tables are those of the last box
of each type, also for the chunks that the layout is read by. -/
theorem SampleTable.parse_gathers {children : List (Except Error IsoBox)} {t : SampleTable}
    (h : SampleTable.parse children = .ok t) :
    ∃ boxes stscBox, children = boxes.map .ok ∧
      PartialTable.Gathers boxes {}
        { timeToSample := t.timeToSample
          compositionOffsets := t.compositionOffsets
          syncSamples := t.syncSamples
          sampleSizes := t.sampleSizes
          chunkOffsets := t.chunkOffsets
          stscBox := stscBox } ∧
      match stscBox with
      | none => t.sampleToChunk = SampleToChunk.empty
      | some b => ∃ full, b.full = .ok full ∧
          SampleToChunk.parse full t.chunkOffsets.len t.chunkOffsets.table.len_le =
            .ok t.sampleToChunk := by
  rw [parse] at h
  cases hall : PartialTable.addAll {} children with
  | error e =>
      rw [hall] at h
      cases h
  | ok me =>
      rcases PartialTable.gathers_addAll hall with ⟨boxes, hboxes, hme⟩
      simp only [hall, Except.bind] at h
      cases hlayout : parseLayout me with
      | error e =>
          rw [hlayout] at h
          cases h
      | ok layout =>
          rw [hlayout] at h
          cases h
          refine ⟨boxes, me.stscBox, hboxes, ⟨hme.1, hme.2, hme.3, hme.4, hme.5, hme.6⟩, ?_⟩
          rw [parseLayout] at hlayout
          cases hstsc : me.stscBox with
          | none =>
              simp only [hstsc] at hlayout
              exact (Except.ok.inj hlayout).symm
          | some b =>
              simp only [hstsc] at hlayout
              cases hfull : b.full with
              | error e =>
                  rw [hfull] at hlayout
                  cases hlayout
              | ok full =>
                  rw [hfull] at hlayout
                  exact ⟨full, hfull, hlayout⟩

/-- A chunk layout in front of the chunk offsets that it is read by. -/
def layoutFirst : List (Except Error IsoBox) :=
  [.ok ⟨fourCc 's' 't' 's' 'c', [0, 0, 0, 0, 0, 0, 0, 1, 0, 0, 0, 1, 0, 0, 0, 3, 0, 0, 0, 1]⟩,
    .ok ⟨fourCc 's' 't' 'c' 'o', [0, 0, 0, 0, 0, 0, 0, 2, 0, 0, 0, 9, 0, 0, 0, 99]⟩]

theorem parse_gathers_layoutFirst :
    ∃ t boxes stscBox, SampleTable.parse layoutFirst = .ok t ∧ layoutFirst = boxes.map .ok ∧
      stscBox = lastRead (fun b => if b.kind = fourCc 's' 't' 's' 'c' then some (some b) else none)
        none boxes := by
  cases hparse : SampleTable.parse layoutFirst with
  | error e =>
      have hok : (SampleTable.parse layoutFirst).isOk = true := by decide +kernel
      rw [hparse] at hok
      cases hok
  | ok t =>
      rcases SampleTable.parse_gathers hparse with ⟨boxes, stscBox, hboxes, hgathers, -⟩
      exact ⟨t, boxes, stscBox, rfl, hboxes, hgathers.stscBox⟩

end Isom
end Vaco
