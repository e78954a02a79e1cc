import Vaco.Core.Packet
import Vaco.Library.ByteWords

/-!
# Packets and their checksum

A packet is a common header of twelve bytes with chunks behind it.  The header carries a checksum
over the whole packet, taken with the checksum's own field zeroed.

Main results:

- `CommonHeader.parse_build`: a header is read back.
- `verifyChecksum_build`: a packet that is built passes its own verification.
-/

namespace Vaco
namespace Sctp

open Library BitStream ByteWords
open Vaco.Core (ProtocolError)

/-- The name of the protocol in its errors. -/
def scheme : String :=
  "sctp"

/-- Something on the wire that cannot be. -/
def malformed (detail : String) : ProtocolError :=
  .malformed scheme detail

/-- The header in front of the chunks of a packet. -/
structure CommonHeader where
  sourcePort : BitVec 16
  destinationPort : BitVec 16
  verificationTag : BitVec 32
  checksum : BitVec 32
deriving DecidableEq

/-- The length of a common header. -/
def commonHeaderLen : Nat :=
  12

namespace CommonHeader

/-- Read a header from the front of a packet. -/
def parse (buf : Bytes) : Except ProtocolError CommonHeader :=
  if buf.length < commonHeaderLen then
    .error (malformed "SCTP common header is truncated")
  else
    .ok
      { sourcePort := .ofNat 16 (beNat (buf.take 2))
        destinationPort := .ofNat 16 (beNat ((buf.drop 2).take 2))
        verificationTag := .ofNat 32 (beNat ((buf.drop 4).take 4))
        checksum := .ofNat 32 (beNat ((buf.drop 8).take 4)) }

/-- Write a header with its checksum as it is. -/
def build (h : CommonHeader) : Bytes :=
  beBytes 2 h.sourcePort.toNat ++ (beBytes 2 h.destinationPort.toNat ++
    (beBytes 4 h.verificationTag.toNat ++ beBytes 4 h.checksum.toNat))

theorem length_build (h : CommonHeader) : h.build.length = commonHeaderLen := by
  simp [build, commonHeaderLen]

/-- A header is read back. -/
theorem parse_build (h : CommonHeader) (chunks : Bytes) : parse (h.build ++ chunks) = .ok h := by
  have hlen : ¬ (h.build ++ chunks).length < commonHeaderLen := by
    rw [List.length_append, length_build]
    exact not_lt.mpr (Nat.le_add_right _ _)
  have hall : h.build ++ chunks = beBytes 2 h.sourcePort.toNat ++
      (beBytes 2 h.destinationPort.toNat ++ (beBytes 4 h.verificationTag.toNat ++
        (beBytes 4 h.checksum.toNat ++ chunks))) := by
    simp [build]
  have htag : ((h.build ++ chunks).drop 4).take 4 = beBytes 4 h.verificationTag.toNat :=
    @field_eq _ (beBytes 2 h.sourcePort.toNat ++ beBytes 2 h.destinationPort.toNat) _
      (beBytes 4 h.checksum.toNat ++ chunks) _ _ (by simp [build]) (by simp) (length_beBytes _ _)
  have hchecksum : ((h.build ++ chunks).drop 8).take 4 = beBytes 4 h.checksum.toNat :=
    @field_eq _ (beBytes 2 h.sourcePort.toNat ++ beBytes 2 h.destinationPort.toNat ++
      beBytes 4 h.verificationTag.toNat) _ chunks _ _ (by simp [build]) (by simp)
      (length_beBytes _ _)
  rw [parse, if_neg hlen, htag, hchecksum, hall, List.take_left' (length_beBytes _ _),
    field_eq rfl (length_beBytes _ _) (length_beBytes _ _), ofNat_beNat rfl, ofNat_beNat rfl,
    ofNat_beNat rfl, ofNat_beNat rfl]

end CommonHeader

/-! ## The checksum -/

/-- Shift the checksum register by one bit. -/
def castagnoliBit (crc : BitVec 32) : BitVec 32 :=
  (crc >>> 1) ^^^ (0x82F63B78#32 &&& -(crc &&& 1#32))

/-- The Castagnoli checksum, bit by bit. -/
def castagnoli (data : Bytes) : BitVec 32 :=
  ~~~ data.foldl (fun crc b => castagnoliBit^[8] (crc ^^^ b.setWidth 32)) (BitVec.allOnes 32)

section Checksum

variable (crc32c : Bytes → BitVec 32)

/-- The checksum of a packet, with the checksum's field zeroed. -/
def computeChecksum (header : CommonHeader) (chunks : Bytes) : BitVec 32 :=
  crc32c (({ header with checksum := 0#32 } : CommonHeader).build ++ chunks)

/-- A whole packet, its checksum filled in. -/
def buildWithChecksum (header : CommonHeader) (chunks : Bytes) : Bytes :=
  ({ header with checksum := computeChecksum crc32c header chunks } : CommonHeader).build ++ chunks

def verifyChecksum (packet : Bytes) : Bool :=
  match CommonHeader.parse packet with
  | .error _ => false
  | .ok header =>
      computeChecksum crc32c header (packet.drop commonHeaderLen) == header.checksum

theorem parse_buildWithChecksum (header : CommonHeader) (chunks : Bytes) :
    CommonHeader.parse (buildWithChecksum crc32c header chunks) =
      .ok { header with checksum := computeChecksum crc32c header chunks } :=
  CommonHeader.parse_build _ _

theorem drop_buildWithChecksum (header : CommonHeader) (chunks : Bytes) :
    (buildWithChecksum crc32c header chunks).drop commonHeaderLen = chunks := by
  rw [buildWithChecksum, List.drop_left' (CommonHeader.length_build _)]

/-- A packet that is built passes its own verification. -/
theorem verifyChecksum_build (header : CommonHeader) (chunks : Bytes) :
    verifyChecksum crc32c (buildWithChecksum crc32c header chunks) = true := by
  rw [verifyChecksum, parse_buildWithChecksum]
  dsimp only
  rw [drop_buildWithChecksum]
  exact beq_self_eq_true _

end Checksum

end Sctp
end Vaco
