import Vaco.Core.IoWriter
import Vaco.Mp4.Track

/-!
# Progressive MP4 output

With faststart the payload is held back, and `moov` is built again and again until it has
the length that its own chunk offsets assume.

Main results:

- `buildMoov`: the movie box over the records of all tracks.
-/

namespace Vaco
namespace Mp4

open Library BitStream ByteWords RunLength Isom
open Vaco.Core (Error IoWriter MediaType)

/-! ## The movie box -/

/-- `value * to / base`, saturating, and zero for a zero base. -/
def rescale (value base to' : Nat) : Nat :=
  if base = 0 then 0 else min (value * to' / base) u64Max

/-- The identity display matrix. -/
def identityMatrix : List Nat :=
  [0x00010000, 0, 0, 0, 0x00010000, 0, 0, 0, 0x40000000]

/-- The bit rate that `btrt` carries: the declared one, or the average of the payload. -/
def trackBitrate (track : TrackState) : Nat :=
  match track.bitRate.filter fun b => decide (0 < b) with
  | some bitRate => min bitRate u32Max
  | none =>
      let durationTicks := track.mediaDuration
      if durationTicks = 0 ∨ track.timescale = 0 then 0
      else min (min (track.totalBytes * 8) u64Max * track.timescale / durationTicks) u32Max

/-- Append a child to an already framed box and state the new size. -/
def appendChild (entryBytes child : Bytes) : Bytes :=
  let out := entryBytes ++ child
  if out.length < 4 then out else lenField out.length ++ out.drop 4

/-- The sample entry of a track with its bit rate box. -/
def withBtrt (track : TrackState) : Bytes :=
  appendChild track.entryBytes (Writer.btrt 0 (trackBitrate track) (trackBitrate track))

/-- The handler name of a track. -/
def handlerName (handler : FourCc) : String :=
  if handler = fourCc 's' 'o' 'u' 'n' then "SoundHandler" else "VideoHandler"

/-- The chunk offsets of a track as they are written: moved by a shift. -/
def shiftedOffsets (track : TrackState) (offsetShift : Nat) : List Nat :=
  track.chunkOffsetList.map fun o => satAdd u64Max o offsetShift

/-- The sync samples, where not every sample is one. -/
def stssBox (track : TrackState) : Bytes :=
  match track.stssList with
  | none => []
  | some syncs => Writer.stss syncs

/-- The composition offsets, where any is not zero. -/
def cttsBox (track : TrackState) : Bytes :=
  if track.cttsRuns = [] then [] else Writer.ctts track.cttsRuns

/-- The sample tables ahead of the chunk offsets. -/
def stblHead (track : TrackState) : Bytes :=
  Writer.stsd [withBtrt track] ++ Writer.stts track.sttsRuns ++ stssBox track ++
    cttsBox track ++ Writer.stsc track.stscRuns ++ Writer.stsz track.stszList

/-- The initialisation vectors of the samples of a track: their numbers, counted from one. -/
def sampleIvs (track : TrackState) : List Bytes :=
  (List.range (min track.samples.length u32Max)).map fun i => be64 (i + 1)

def encryptionBoxes (track : TrackState) (sencAbsStart : Nat) : Bytes :=
  Writer.senc (sampleIvs track) ++ Writer.saiz (min track.samples.length u32Max) ++
    Writer.saio (satAdd u64Max sencAbsStart 16)

def buildStbl (track : TrackState) (offsetShift : Nat) (encryption : Bool)
    (stblAbsStart : Nat) : Bytes :=
  let body := stblHead track ++ Writer.chunkOffsets (shiftedOffsets track offsetShift)
  bx (fourCc 's' 't' 'b' 'l')
    (body ++ if encryption then
      encryptionBoxes track (satAdd u64Max (satAdd u64Max stblAbsStart 8) body.length)
    else [])

/-- `edts` with its one entry. -/
def buildEdts (track : TrackState) (movieTimescale : Nat) : Bytes :=
  bx (fourCc 'e' 'd' 't' 's') (fullbx (fourCc 'e' 'l' 's' 't') 0 0
    (be32 1 ++ lenField (rescale track.presentedDuration track.timescale movieTimescale) ++
      be32 track.mediaTime ++ be32 0x00010000))

/-- The track header. -/
def trackHeader (track : TrackState) (movieTimescale creationTime : Nat) : Bytes :=
  Writer.tkhd
    { flags := Writer.tkhdEnabled + Writer.tkhdInMovie
      creationTime := creationTime
      modificationTime := creationTime
      trackId := track.trackId
      duration := rescale track.presentedDuration track.timescale movieTimescale
      layer := 0
      alternateGroup := 0
      volume := track.volume
      matrix := track.matrix
      width := track.width
      height := track.height }

/-- The media header and the handler of a track. -/
def mediaHead (track : TrackState) (creationTime : Nat) : Bytes :=
  Writer.mdhd
      { creationTime := creationTime
        modificationTime := creationTime
        timescale := track.timescale
        duration := track.mediaDuration
        language := track.language } ++
    Writer.hdlr track.handler (handlerName track.handler)

/-- The media information ahead of the sample tables. -/
def minfHead (track : TrackState) : Bytes :=
  (match track.media with
    | .audio => Writer.smhd
    | _ => Writer.vmhd) ++ Writer.dinfSelfContained

def buildTrak (track : TrackState) (movieTimescale creationTime offsetShift : Nat)
    (encryption : Bool) (trakAbsStart : Nat) : Bytes :=
  let tkhd := trackHeader track movieTimescale creationTime
  let edts := buildEdts track movieTimescale
  let mdiaAbsStart :=
    satAdd u64Max (satAdd u64Max (satAdd u64Max trakAbsStart 8) tkhd.length) edts.length
  let minfAbsStart :=
    satAdd u64Max (satAdd u64Max mdiaAbsStart 8) (mediaHead track creationTime).length
  let stblAbsStart :=
    satAdd u64Max (satAdd u64Max minfAbsStart 8) (minfHead track).length
  let minf := minfHead track ++ buildStbl track offsetShift encryption stblAbsStart
  let mdia := mediaHead track creationTime ++ bx (fourCc 'm' 'i' 'n' 'f') minf
  bx (fourCc 't' 'r' 'a' 'k') (tkhd ++ edts ++ bx (fourCc 'm' 'd' 'i' 'a') mdia)

/-- The movie header over all tracks. -/
def movieHeader (tracks : List TrackState) (opts : MuxOptions) (movieTimescale : Nat) : Bytes :=
  Writer.mvhd
    { creationTime := opts.creationTime
      modificationTime := opts.creationTime
      timescale := movieTimescale
      duration := (tracks.map fun t =>
        rescale t.presentedDuration t.timescale movieTimescale).foldr max 0
      rate := 0x00010000
      volume := 0x0100
      matrix := identityMatrix
      nextTrackId := satAdd u32Max ((tracks.map TrackState.trackId).foldr max 0) 1 }

/-- `udta`: the list of tags and cover art, written even if empty, and the chapters. -/
def buildUdta (opts : MuxOptions) : Bytes :=
  let items := (opts.tags.flatMap fun tag => Writer.ilstText tag.1 tag.2) ++
    (opts.coverArt.map fun art => Writer.covr art.isPng art.data).getD []
  let chapters := if opts.chapters = [] then []
    else Writer.chpl (opts.chapters.map fun c => Writer.chplEntry c.startTime100ns c.title)
  Writer.udta (Writer.metaBox (Writer.hdlr (fourCc 'm' 'd' 'i' 'r') "") (Writer.ilst items) ++
    chapters)

/-- The tracks behind the movie body so far. -/
def appendTraks (opts : MuxOptions) (movieTimescale offsetShift moovStart : Nat) :
    List TrackState → Bytes → Bytes
  | [], body => body
  | t :: tracks, body =>
      appendTraks opts movieTimescale offsetShift moovStart tracks
        (body ++ buildTrak t movieTimescale opts.creationTime offsetShift opts.encryption
          (satAdd u64Max (satAdd u64Max moovStart 8) body.length))

/-- The whole `moov`, every chunk offset moved by a shift. -/
def buildMoov (tracks : List TrackState) (opts : MuxOptions) (movieTimescale offsetShift
    moovStart : Nat) : Bytes :=
  bx (fourCc 'm' 'o' 'o' 'v')
    (appendTraks opts movieTimescale offsetShift moovStart tracks
        (movieHeader tracks opts movieTimescale) ++
      buildUdta opts)

/-! ## Finishing -/

/-- Bytes of the 64-bit header of `mdat`. -/
def mdatHeaderLen : Nat := 16

def maxFaststartPasses : Nat := 8

/-- The file offset of the payload behind a `moov` of some length. -/
def prefixBeforeMdat (ftypLen moovLen : Nat) : Nat :=
  satAdd u64Max (satAdd u64Max ftypLen moovLen) mdatHeaderLen

/-- A `moov` and the shift that its chunk offsets were moved by. -/
structure BuiltMoov where
  bytes : Bytes
  shift : Nat
deriving DecidableEq, Repr

/-- Build with a trial length, until the length built is the trial or no pass is left. -/
def faststartPasses (tracks : List TrackState) (opts : MuxOptions) (movieTimescale
    ftypLen : Nat) : Nat → Nat → BuiltMoov → BuiltMoov
  | 0, _, built => built
  | left + 1, trial, _ =>
      let shift := prefixBeforeMdat ftypLen trial
      let moov := buildMoov tracks opts movieTimescale shift ftypLen
      let built : BuiltMoov := ⟨moov, shift⟩
      let got := min moov.length u64Max
      if got = trial then built
      else faststartPasses tracks opts movieTimescale ftypLen left got built

/-- The `moov` that faststart writes. -/
def faststartMoov (tracks : List TrackState) (opts : MuxOptions) (movieTimescale
    ftypLen : Nat) : BuiltMoov :=
  faststartPasses tracks opts movieTimescale ftypLen maxFaststartPasses 0 ⟨[], 0⟩

/-- `moov` before the payload that was held back. -/
def finishFaststart (out : IoWriter) (tracks : List TrackState) (opts : MuxOptions)
    (movieTimescale : Nat) (mdatBuf : Bytes) : IoWriter :=
  let moov := (faststartMoov tracks opts movieTimescale out.pos).bytes
  let total := satAdd u64Max mdatHeaderLen (min mdatBuf.length u64Max)
  ((((out.write moov).write (be32 1)).write (fourCc 'm' 'd' 'a' 't')).write (be64 total)).write
    mdatBuf

end Mp4
end Vaco
