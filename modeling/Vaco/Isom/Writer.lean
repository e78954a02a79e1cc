import Vaco.Isom.Boxes

/-!
# Box writers

Every box that a muxer writes is a fixed layout over the numbers it is given.  Header boxes
choose their 64-bit version by the values, a composition table its signed version, and a chunk
offset table the width of all its entries.

Main results:

- `length_chunkOffsets`: how long a chunk offset table is.
-/

namespace Vaco
namespace Isom
namespace Writer

open Library BitStream ByteWords

/-- `ftyp` or `styp`: major brand, minor version, compatible brands. -/
def fileType (kind major : FourCc) (minorVersion : Nat) (compatible : List FourCc) : Bytes :=
  bx kind (major ++ be32 minorVersion ++ compatible.flatten)

/-! ## Movie and track headers -/

def needsVersion1 (creationTime modificationTime duration : Nat) : Bool :=
  decide (u32Max < creationTime) || decide (u32Max < modificationTime) ||
    decide (u32Max < duration)

/-- A time or a duration in the version of its header. -/
def timeField (wide : Bool) (v : Nat) : Bytes :=
  if wide then be64 v else be32 v

/-- The version byte of a header. -/
def versionOf (wide : Bool) : Nat :=
  if wide then 1 else 0

/-- The fields of a movie header. -/
structure MvhdFields where
  creationTime : Nat
  modificationTime : Nat
  timescale : Nat
  duration : Nat
  rate : Int
  volume : Int
  matrix : List Nat
  nextTrackId : Nat
deriving DecidableEq, Repr

/-- `mvhd`. -/
def mvhd (f : MvhdFields) : Bytes :=
  let wide := needsVersion1 f.creationTime f.modificationTime f.duration
  fullbx (fourCc 'm' 'v' 'h' 'd') (versionOf wide) 0
    (timeField wide f.creationTime ++ timeField wide f.modificationTime ++ be32 f.timescale ++
      timeField wide f.duration ++ beI32 f.rate ++ beI16 f.volume ++ List.replicate 10 0 ++
      f.matrix.flatMap be32 ++ List.replicate 24 0 ++ be32 f.nextTrackId)

/-- Flag bits of a track header. -/
def tkhdEnabled : Nat := 1

/-- The track is used in the presentation. -/
def tkhdInMovie : Nat := 2

/-- The fields of a track header. -/
structure TkhdFields where
  flags : Nat
  creationTime : Nat
  modificationTime : Nat
  trackId : Nat
  duration : Nat
  layer : Int
  alternateGroup : Int
  volume : Int
  matrix : List Nat
  width : Nat
  height : Nat
deriving DecidableEq, Repr

/-- `tkhd`. -/
def tkhd (f : TkhdFields) : Bytes :=
  let wide := needsVersion1 f.creationTime f.modificationTime f.duration
  fullbx (fourCc 't' 'k' 'h' 'd') (versionOf wide) f.flags
    (timeField wide f.creationTime ++ timeField wide f.modificationTime ++ be32 f.trackId ++
      be32 0 ++ timeField wide f.duration ++ List.replicate 8 0 ++ beI16 f.layer ++
      beI16 f.alternateGroup ++ beI16 f.volume ++ beBytes 2 0 ++ f.matrix.flatMap be32 ++
      be32 f.width ++ be32 f.height)

/-- The fields of a media header. -/
structure MdhdFields where
  creationTime : Nat
  modificationTime : Nat
  timescale : Nat
  duration : Nat
  language : Nat
deriving DecidableEq, Repr

/-- `mdhd`. -/
def mdhd (f : MdhdFields) : Bytes :=
  let wide := needsVersion1 f.creationTime f.modificationTime f.duration
  fullbx (fourCc 'm' 'd' 'h' 'd') (versionOf wide) 0
    (timeField wide f.creationTime ++ timeField wide f.modificationTime ++ be32 f.timescale ++
      timeField wide f.duration ++ beBytes 2 f.language ++ beBytes 2 0)

/-- The bytes of a text in ASCII. -/
def ascii (text : String) : Bytes :=
  text.toList.map fun ch => BitVec.ofNat 8 ch.toNat

/-- `hdlr`, its name ended by a zero byte. -/
def hdlr (handler : FourCc) (name : String) : Bytes :=
  fullbx (fourCc 'h' 'd' 'l' 'r') 0 0
    (be32 0 ++ handler ++ List.replicate 12 0 ++ ascii name ++ [0])

/-- `dinf` with one self-contained entry. -/
def dinfSelfContained : Bytes :=
  bx (fourCc 'd' 'i' 'n' 'f') (fullbx (fourCc 'd' 'r' 'e' 'f') 0 0
    (be32 1 ++ fullbx (fourCc 'u' 'r' 'l' ' ') 0 1 []))

/-- `vmhd`. -/
def vmhd : Bytes :=
  fullbx (fourCc 'v' 'm' 'h' 'd') 0 1 (List.replicate 8 0)

/-- `smhd`. -/
def smhd : Bytes :=
  fullbx (fourCc 's' 'm' 'h' 'd') 0 0 (List.replicate 4 0)

/-- `stsd`: the entry count and entries already framed. -/
def stsd (entries : List Bytes) : Bytes :=
  fullbx (fourCc 's' 't' 's' 'd') 0 0 (lenField entries.length ++ entries.flatten)

/-- `btrt`. -/
def btrt (bufferSizeDb maxBitrate avgBitrate : Nat) : Bytes :=
  bx (fourCc 'b' 't' 'r' 't') (be32 bufferSizeDb ++ be32 maxBitrate ++ be32 avgBitrate)

/-! ## Common encryption -/

/-- `senc`: one initialisation vector for each sample. -/
def senc (ivs : List Bytes) : Bytes :=
  fullbx (fourCc 's' 'e' 'n' 'c') 0 0 (lenField ivs.length ++ ivs.flatten)

/-- `saiz`: eight bytes of auxiliary information for each sample. -/
def saiz (sampleCount : Nat) : Bytes :=
  fullbx (fourCc 's' 'a' 'i' 'z') 0 0 (beBytes 1 8 ++ be32 sampleCount)

/-- `saio`: where the auxiliary information begins. -/
def saio (offset : Nat) : Bytes :=
  fullbx (fourCc 's' 'a' 'i' 'o') 0 0 (be32 1 ++ lenField offset)

/-! ## Sample tables -/

/-- The body of a table: a count and fixed-width entries. -/
def table {α : Type*} (entry : α → Bytes) (entries : List α) : Bytes :=
  lenField entries.length ++ entries.flatMap entry

/-- `stts`: runs of count and delta. -/
def stts (runs : List (Nat × Nat)) : Bytes :=
  fullbx (fourCc 's' 't' 't' 's') 0 0 (table (fun run => be32 run.1 ++ be32 run.2) runs)

/-- `ctts`: runs of count and offset, signed where an offset is negative. -/
def ctts (runs : List (Nat × Int)) : Bytes :=
  fullbx (fourCc 'c' 't' 't' 's') (versionOf (runs.any fun run => decide (run.2 < 0))) 0
    (table (fun run => be32 run.1 ++ beI32 run.2) runs)

/-- One entry of `stsc`. -/
def stscEntry (run : Nat × Nat × Nat) : Bytes :=
  be32 run.1 ++ be32 run.2.1 ++ be32 run.2.2

/-- `stsc`: runs of first chunk, samples in a chunk and description. -/
def stsc (runs : List (Nat × Nat × Nat)) : Bytes :=
  fullbx (fourCc 's' 't' 's' 'c') 0 0 (table stscEntry runs)

/-- `stsz` with one size for each sample. -/
def stsz (sizes : List Nat) : Bytes :=
  fullbx (fourCc 's' 't' 's' 'z') 0 0 (be32 0 ++ table be32 sizes)

/-- `stss`: sync samples, counted from one. -/
def stss (syncs : List Nat) : Bytes :=
  fullbx (fourCc 's' 't' 's' 's') 0 0 (table be32 syncs)

/-- Whether a chunk offset table would choose 64-bit entries. -/
def needsCo64 (offsets : List Nat) : Bool :=
  offsets.any fun o => decide (u32Max < o)

def chunkOffsets (offsets : List Nat) : Bytes :=
  if needsCo64 offsets then fullbx (fourCc 'c' 'o' '6' '4') 0 0 (table be64 offsets)
  else fullbx (fourCc 's' 't' 'c' 'o') 0 0 (table be32 offsets)

/-! ## Tags, cover art and chapters -/

/-- One item of a list: an outer box around one `data` box, whose flags say of what type it is. -/
def ilstItem (key : FourCc) (typeIndicator : Nat) (payload : Bytes) : Bytes :=
  bx key (fullbx (fourCc 'd' 'a' 't' 'a') 0 typeIndicator (be32 0 ++ payload))

/-- A text tag. -/
def ilstText (key : FourCc) (text : Bytes) : Bytes :=
  ilstItem key 1 text

/-- `covr`: cover art, JPEG or PNG. -/
def covr (isPng : Bool) (image : Bytes) : Bytes :=
  ilstItem (fourCc 'c' 'o' 'v' 'r') (if isPng then 14 else 13) image

/-- `ilst` around its items. -/
def ilst (items : Bytes) : Bytes :=
  bx (fourCc 'i' 'l' 's' 't') items

/-- `meta`: a handler and its items. -/
def metaBox (hdlrBytes ilstBytes : Bytes) : Bytes :=
  fullbx (fourCc 'm' 'e' 't' 'a') 0 0 (hdlrBytes ++ ilstBytes)

/-- One chapter: its start in units of 100 ns, and at most 255 bytes of its title. -/
def chplEntry (startTime100ns : Nat) (title : Bytes) : Bytes :=
  be64 startTime100ns ++ beBytes 1 (min title.length 255) ++ title.take 255

/-- `chpl`: the count and at most 255 chapters. -/
def chpl (entries : List Bytes) : Bytes :=
  fullbx (fourCc 'c' 'h' 'p' 'l') 0 0
    (beBytes 1 (min entries.length 255) ++ (entries.take 255).flatten)

/-- `udta` around its children. -/
def udta (children : Bytes) : Bytes :=
  bx (fourCc 'u' 'd' 't' 'a') children

/-! ## Lengths -/

theorem length_table {α : Type*} {entry : α → Bytes} {width : Nat}
    (h : ∀ a, (entry a).length = width) (entries : List α) :
    (table entry entries).length = 4 + entries.length * width := by
  rw [table, List.length_append, length_lenField, List.length_flatMap]
  simp [h]

/-- A chunk offset table takes four bytes for each chunk, or eight where an offset needs
them. -/
theorem length_chunkOffsets (offsets : List Nat) :
    (chunkOffsets offsets).length =
      16 + 4 * offsets.length + if needsCo64 offsets then 4 * offsets.length else 0 := by
  rw [chunkOffsets]
  split
  · rw [length_fullbx rfl, length_table fun o => length_beBytes 8 o]
    omega
  · rw [length_fullbx rfl, length_table fun o => length_beBytes 4 o]
    omega

end Writer
end Isom
end Vaco
