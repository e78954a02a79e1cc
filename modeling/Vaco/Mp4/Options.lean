import Vaco.Core.Packet
import Vaco.Isom.Writer

/-!
# Options of the MP4 muxer

What decides the shape of a file apart from its streams: the brand, the times, the tags, the
chapters and the encryption.

Main results:

- `MuxOptions`: what a caller may ask of the muxer.

Current gaps:

- The movie flags and the thresholds of fragments, which a file in one piece does not read, are
  left out.
- The start of a chapter is in units of 100 ns; the source computes it in floating point.
-/

namespace Vaco
namespace Mp4

open Library BitStream ByteWords Isom
open Vaco.Core (Error)

/-- A brand of container profile. -/
inductive Brand where
  | mp4
  | mov
  | ipod
  | ismv
  | f4v
  | psp
  | threeGp
  | threeG2
  | avif
deriving DecidableEq, Repr

/-- The fields of `ftyp` for one brand. -/
structure BrandSpec where
  major : FourCc
  minorVersion : Nat
  compatible : List FourCc
deriving DecidableEq, Repr

/-- The fields of `ftyp` that a brand writes. -/
def Brand.spec : Brand → BrandSpec
  | .mp4 =>
      ⟨fourCc 'i' 's' 'o' 'm', 0x200,
        [fourCc 'i' 's' 'o' 'm', fourCc 'i' 's' 'o' '2', fourCc 'm' 'p' '4' '1']⟩
  | .mov => ⟨fourCc 'q' 't' ' ' ' ', 0x200, [fourCc 'q' 't' ' ' ' ']⟩
  | .ipod =>
      ⟨fourCc 'M' '4' 'V' ' ', 0x200,
        [fourCc 'M' '4' 'V' ' ', fourCc 'i' 's' 'o' 'm', fourCc 'i' 's' 'o' '2']⟩
  | .ismv =>
      ⟨fourCc 'i' 's' 'm' 'l', 0x200, [fourCc 'i' 's' 'm' 'l', fourCc 'p' 'i' 'f' 'f']⟩
  | .f4v =>
      ⟨fourCc 'f' '4' 'v' ' ', 0x200,
        [fourCc 'f' '4' 'v' ' ', fourCc 'i' 's' 'o' 'm', fourCc 'i' 's' 'o' '2',
          fourCc 'a' 'v' 'c' '1']⟩
  | .psp =>
      ⟨fourCc 'M' 'S' 'N' 'V', 0x200,
        [fourCc 'M' 'S' 'N' 'V', fourCc 'i' 's' 'o' 'm', fourCc 'i' 's' 'o' '2']⟩
  | .threeGp =>
      ⟨fourCc '3' 'g' 'p' '4', 0x200,
        [fourCc '3' 'g' 'p' '4', fourCc 'i' 's' 'o' 'm', fourCc 'i' 's' 'o' '2']⟩
  | .threeG2 =>
      ⟨fourCc '3' 'g' '2' 'a', 0x10000,
        [fourCc '3' 'g' '2' 'a', fourCc 'i' 's' 'o' 'm', fourCc 'i' 's' 'o' '2']⟩
  | .avif =>
      ⟨fourCc 'a' 'v' 'i' 'f', 0,
        [fourCc 'a' 'v' 'i' 'f', fourCc 'm' 'i' 'f' '1', fourCc 'm' 'i' 'a' 'f',
          fourCc 'M' 'A' '1' 'B']⟩

def Brand.conditionsAvc1OnH264 : Brand → Bool
  | .mp4 | .ipod | .psp | .threeGp | .threeG2 => true
  | _ => false

/-- `ftyp` of a brand, given whether a track is H.264 video.  `avc1` stands before
`mp41`, or last. -/
def fileTypeBox (brand : Brand) (hasH264Video : Bool) : Bytes :=
  let s := brand.spec
  let avc1 := fourCc 'a' 'v' 'c' '1'
  let compatible :=
    if brand.conditionsAvc1OnH264 && hasH264Video && !s.compatible.contains avc1 then
      let at' := s.compatible.idxOf (fourCc 'm' 'p' '4' '1')
      s.compatible.take at' ++ avc1 :: s.compatible.drop at'
    else s.compatible
  Writer.fileType (fourCc 'f' 't' 'y' 'p') s.major s.minorVersion compatible

/-- One chapter: its start in units of 100 ns, and its title. -/
structure ChapterMark where
  startTime100ns : Nat
  title : Bytes
deriving DecidableEq, Repr

/-- Cover art. -/
structure CoverArt where
  isPng : Bool
  data : Bytes
deriving DecidableEq, Repr

/-- Everything the muxer needs that is not a stream. -/
structure MuxOptions where
  brand : Brand := .mp4
  creationTimeUnix : Option I64 := none
  bitexact : Bool := false
  tags : List (FourCc × Bytes) := []
  coverArt : Option CoverArt := none
  chapters : List ChapterMark := []
  encryptionScheme : Bool := false
  encryptionKey : Option Bytes := none
  encryptionKeyId : Option Bytes := none

namespace MuxOptions

/-- Whether samples are encrypted: the scheme, the key and its identifier are there. -/
def encryption (o : MuxOptions) : Bool :=
  o.encryptionScheme && o.encryptionKey.isSome && o.encryptionKeyId.isSome

/-- Seconds between the two epochs. -/
def epochOffsetSecs : Int := 2082844800

/-- Unix seconds as seconds of the format's own epoch; zero where that is negative. -/
def fromUnixTime (unixSecs : I64) : Nat :=
  (clampI64 (unixSecs.val + epochOffsetSecs)).val.toNat

/-- The creation time that headers carry. -/
def creationTime (o : MuxOptions) : Nat :=
  if o.bitexact then 0 else (o.creationTimeUnix.map fromUnixTime).getD 0

end MuxOptions

end Mp4
end Vaco
