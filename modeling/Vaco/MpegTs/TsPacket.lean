import Vaco.Library.ByteWords
import Mathlib.Tactic

/-!
# Transport packets

The 188-byte transport packet, its four header bytes and its adaptation field, as the
demultiplexer reads them.

Main results:

- `TsPacket.parse`: the header, the adaptation field and the payload.
-/

namespace Vaco
namespace MpegTs

open Library.BitStream Library.ByteWords

/-- The sync byte every transport packet starts with. -/
def syncByte : BitVec 8 := 0x47

/-- The plain transport packet size. -/
def tsPacketSize : Nat := 188

/-- Largest PID value the 13-bit field can hold. -/
def maxPid : Nat := 0x1FFF

/-- A bit of a byte is set. -/
def hasBit (byte mask : BitVec 8) : Bool :=
  byte &&& mask != 0

/-- The 4-byte transport packet header. -/
structure TsHeader where
  transportError : Bool
  payloadUnitStart : Bool
  transportPriority : Bool
  pid : Nat
  scrambling : Nat
  adaptationControl : Nat
  continuity : Nat
deriving DecidableEq

namespace TsHeader

/-- Decode the four header bytes. -/
def parse : Bytes → Option TsHeader
  | b0 :: b1 :: b2 :: b3 :: _ =>
      if b0 ≠ syncByte then none
      else some
        { transportError := hasBit b1 0x80
          payloadUnitStart := hasBit b1 0x40
          transportPriority := hasBit b1 0x20
          pid := (b1 &&& 0x1F).toNat * 256 + b2.toNat
          scrambling := b3.toNat / 64
          adaptationControl := b3.toNat / 16 % 4
          continuity := b3.toNat % 16 }
  | _ => none

/-- An adaptation field is present. -/
def hasAdaptation (h : TsHeader) : Bool :=
  h.adaptationControl / 2 % 2 == 1

/-- A payload is present. -/
def hasPayload (h : TsHeader) : Bool :=
  h.adaptationControl % 2 == 1

/-- The payload is scrambled. -/
def isScrambled (h : TsHeader) : Bool :=
  h.scrambling != 0

end TsHeader

/-- A program clock reference. -/
structure Pcr where
  base : Int
  extension : Nat
deriving DecidableEq

/-- Decode the 48-bit field: 33 bits of base, 6 reserved, 9 of extension. -/
def Pcr.parse : Bytes → Option Pcr
  | b0 :: b1 :: b2 :: b3 :: b4 :: b5 :: _ =>
      some
        { base := (beNat [b0, b1, b2, b3] * 2 + b4.toNat / 128 : Nat)
          extension := b4.toNat % 2 * 256 + b5.toNat }
  | _ => none

/-- The adaptation field. -/
structure AdaptationField where
  totalLen : Nat
  discontinuity : Bool := false
  randomAccess : Bool := false
  esPriority : Bool := false
  pcr : Option Pcr := none
  opcr : Option Pcr := none
  spliceCountdown : Option Int := none
deriving DecidableEq

namespace AdaptationField

/-- The fields behind the flags; each is skipped if its flag is clear. -/
def ofFlags (totalLen : Nat) (flags : BitVec 8) (body : Bytes) : AdaptationField :=
  let afterPcr := if hasBit flags 0x10 then body.drop 6 else body
  let afterOpcr := if hasBit flags 0x08 then afterPcr.drop 6 else afterPcr
  { totalLen
    discontinuity := hasBit flags 0x80
    randomAccess := hasBit flags 0x40
    esPriority := hasBit flags 0x20
    pcr := if hasBit flags 0x10 then Pcr.parse body else none
    opcr := if hasBit flags 0x08 then Pcr.parse afterPcr else none
    spliceCountdown := if hasBit flags 0x04 then afterOpcr.head?.map BitVec.toInt else none }

/-- Parse the adaptation field at the start of `buf`. -/
def parse : Bytes → Option AdaptationField
  | [] => none
  | length :: rest =>
      if rest.length < length.toNat then none
      else
        match rest.take length.toNat with
        | [] => some { totalLen := 1 }
        | flags :: body => some (ofFlags (length.toNat + 1) flags body)

end AdaptationField

/-- One transport packet, split into what a demuxer consumes. -/
structure TsPacket where
  header : TsHeader
  adaptation : Option AdaptationField
  payload : Bytes
  malformedAdaptation : Bool
deriving DecidableEq

namespace TsPacket

/-- Parse one transport packet. -/
def parse (buf : Bytes) : Option TsPacket := do
  let header ← TsHeader.parse buf
  let rest := buf.drop 4
  let adaptation := if header.hasAdaptation then AdaptationField.parse rest else none
  let malformed := header.hasAdaptation && adaptation.isNone
  let payloadAt := (adaptation.map AdaptationField.totalLen).getD 0
  return {
    header
    adaptation
    payload := if header.hasPayload && !malformed then rest.drop payloadAt else []
    malformedAdaptation := malformed }

/-- The clock reference this packet carries, if any. -/
def pcr (p : TsPacket) : Option Pcr :=
  p.adaptation.bind AdaptationField.pcr

def discontinuity (p : TsPacket) : Bool :=
  p.adaptation.any AdaptationField.discontinuity

def randomAccess (p : TsPacket) : Bool :=
  p.adaptation.any AdaptationField.randomAccess

end TsPacket

end MpegTs
end Vaco
