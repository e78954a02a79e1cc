import Vaco.Ogg.Page

/-!
# Header packets of Ogg streams

The demuxer identifies the codec from the first packet and counts from it how many packets are
headers.

Main results:

- `identify`: what the first packet says about the codec.

Current gaps:

- The identification fields that only timestamps need are left out, and so are the comments.
-/

namespace Vaco
namespace Ogg

open Library BitStream ByteWords
open Vaco.Core (Byte Error)

/-! ## Identification -/

/-- What a logical bitstream is identified as. -/
inductive OggCodec where
  | opus
  | vorbis
  | flac
  | theora
  | speex
  | unknown
deriving DecidableEq, Repr

def bytesAt (data : Bytes) (pos len : Nat) : Option Bytes :=
  if pos + len ≤ data.length then some ((data.drop pos).take len) else none

/-- Identify a logical bitstream from its first packet. -/
def identify (bosPacket : Bytes) : OggCodec :=
  if bytesAt bosPacket 0 8 = some (ascii ['O', 'p', 'u', 's', 'H', 'e', 'a', 'd']) then
    .opus
  else if bytesAt bosPacket 0 1 = some [0x01#8] ∧
      bytesAt bosPacket 1 6 = some (ascii ['v', 'o', 'r', 'b', 'i', 's']) then
    .vorbis
  else if bytesAt bosPacket 0 1 = some [0x80#8] ∧
      bytesAt bosPacket 1 6 = some (ascii ['t', 'h', 'e', 'o', 'r', 'a']) then
    .theora
  else if bytesAt bosPacket 0 1 = some [0x7F#8] ∧
      bytesAt bosPacket 1 4 = some (ascii ['F', 'L', 'A', 'C']) then
    .flac
  else if bytesAt bosPacket 0 8 = some (ascii ['S', 'p', 'e', 'e', 'x', ' ', ' ', ' ']) then
    .speex
  else
    .unknown

/-- The fields of a Speex header. -/
structure SpeexIdent where
  rate : Nat
  channels : Nat
  frameSize : Nat
  framesPerPacket : Nat
  extraHeaders : Nat
deriving DecidableEq, Repr

/-- Read a Speex header. -/
def parseSpeexIdent (packet : Bytes) : Option SpeexIdent :=
  if bytesAt packet 0 8 ≠ some (ascii ['S', 'p', 'e', 'e', 'x', ' ', ' ', ' ']) then
    none
  else do
    let field := fun i => (bytesAt packet (28 + i * 4) 4).map leNat
    let rate ← field 2
    let channels ← field 5
    let frameSize ← field 7
    let framesPerPacket ← field 9
    let extraHeaders ← field 11
    return ⟨rate, channels, frameSize, framesPerPacket, extraHeaders⟩

/-- The number of metadata packets that a first FLAC packet announces. -/
def parseFlacHeaderCount (packet : Bytes) : Option Nat :=
  if bytesAt packet 0 1 ≠ some [0x7F#8] ∨
      bytesAt packet 1 4 ≠ some (ascii ['F', 'L', 'A', 'C']) then
    none
  else
    (bytesAt packet 7 2).map beNat

/-- How many packets carry codec setup, counting the first one. -/
def totalHeaderPackets (codec : OggCodec) (bosPacket : Bytes) : Nat :=
  match codec with
  | .opus => 2
  | .vorbis => 3
  | .theora => 3
  | .speex => 2 + min (((parseSpeexIdent bosPacket).map SpeexIdent.extraHeaders).getD 0) 1024
  | .flac => 1 + (parseFlacHeaderCount bosPacket).getD 0
  | .unknown => 1

end Ogg
end Vaco
