import Vaco.Core.Packet
import Vaco.Library.ByteWords
import Vaco.Library.Lacing

/-!
# Ogg pages

A page is a fixed header, a table of lacing values and a body.  A lacing value of 255 says that
the packet goes on; the first smaller one ends it.  The checksum covers the whole page with its
own field zeroed.

Main results:

- `spanChunks_eq`: the spans of a page are the packets its pieces end and the one they leave open.

Current gaps:

- Table lookups of the checksum compute their entry.
- The search for pages in a stream of bytes is left out.
-/

namespace Vaco
namespace Ogg

open Library BitStream ByteWords
open Vaco.Core (Byte Error)

/-! ## The checksum -/

/-- The generator polynomial, most significant bit first. -/
def poly : BitVec 32 :=
  0x04C11DB7#32

/-- The value that the register starts at. -/
def crcInit : BitVec 32 :=
  0#32

/-- Shift the register by some bits. -/
def shiftBits : Nat → BitVec 32 → BitVec 32
  | 0, crc => crc
  | bits + 1, crc =>
      shiftBits bits (if crc &&& 0x80000000#32 ≠ 0#32 then (crc <<< 1) ^^^ poly else crc <<< 1)

/-- The entry of the checksum table for one byte. -/
def tableEntry (byte : Byte) : BitVec 32 :=
  shiftBits 8 (byte.setWidth 32 <<< 24)

/-- Continue a checksum over some bytes. -/
def crc32Update (crc : BitVec 32) (data : Bytes) : BitVec 32 :=
  data.foldl (fun crc b => (crc <<< 8) ^^^ tableEntry ((crc >>> 24).setWidth 8 ^^^ b)) crc

/-- The checksum of some bytes. -/
def crc32 (data : Bytes) : BitVec 32 :=
  crc32Update crcInit data

/-! ## The fields of a page -/

/-- Characters as bytes. -/
def ascii (text : List Char) : Bytes :=
  text.map fun c => BitVec.ofNat 8 c.toNat

/-- The four bytes that every page begins with. -/
def capturePattern : Bytes :=
  ascii ['O', 'g', 'g', 'S']

/-- A page declares at most this many segments. -/
def maxSegments : Nat :=
  255

/-- A lacing value this high says that more of the packet follows. -/
def continuationValue : Nat :=
  255

/-- The stream structure version that is understood. -/
def supportedVersion : Byte :=
  0#8

/-- The flags of a page header. -/
structure OggHeaderFlags where
  continued : Bool
  bos : Bool
  eos : Bool
deriving DecidableEq, Repr

namespace OggHeaderFlags

/-- The flags as the byte of a page header. -/
def bits (flags : OggHeaderFlags) : Byte :=
  (if flags.continued then 1#8 else 0#8) ||| (if flags.bos then 2#8 else 0#8) |||
    (if flags.eos then 4#8 else 0#8)

end OggHeaderFlags

/-- The granule position of a page on which no packet ends. -/
def granuleUnset : I64 :=
  clampI64 (-1)

/-- A signed word of eight bytes, least significant byte first. -/
def leI64 (v : I64) : Bytes :=
  leBytes 8 (BitVec.ofInt 64 v.val).toNat

/-- A parsed page header: everything before the body. -/
structure OggPageHeader where
  version : Byte
  flags : OggHeaderFlags
  granulePosition : I64
  serial : Nat
  sequence : Nat
  checksum : Nat
  segments : Bytes
deriving DecidableEq

/-! ## The layout of a page -/

/-- The part of a page before its checksum. -/
def pageStart (flags : OggHeaderFlags) (granule : I64) (serial sequence : Nat) : Bytes :=
  capturePattern ++ [supportedVersion] ++ [flags.bits] ++ leI64 granule ++ leBytes 4 serial ++
    leBytes 4 sequence

/-- The part of a page behind its checksum. -/
def pageEnd (segments body : Bytes) : Bytes :=
  [BitVec.ofNat 8 segments.length] ++ segments ++ body

/-- A page with a checksum of zero. -/
def unsummedPage (flags : OggHeaderFlags) (granule : I64) (serial sequence : Nat)
    (segments body : Bytes) : Bytes :=
  pageStart flags granule serial sequence ++ leBytes 4 0 ++ pageEnd segments body

/-! ## Spans -/

/-- A range of a page body, and whether a packet ends there. -/
structure PacketSpan where
  start : Nat
  stop : Nat
  complete : Bool
deriving DecidableEq, Repr

/-- The spans of the lacing values that are left, with the start of the current run and the
position in the body. -/
def packetSpansFrom (runStart pos : Nat) : Bytes → List PacketSpan
  | [] => []
  | v :: rest =>
      if v.toNat < continuationValue then
        ⟨runStart, satAddU64 pos v.toNat, true⟩ ::
          packetSpansFrom (satAddU64 pos v.toNat) (satAddU64 pos v.toNat) rest
      else if rest = [] then
        [⟨runStart, satAddU64 pos v.toNat, false⟩]
      else
        packetSpansFrom runStart (satAddU64 pos v.toNat) rest

/-- Split a segment table into the runs that it describes. -/
def packetSpans (segments : Bytes) : List PacketSpan :=
  packetSpansFrom 0 0 segments

/-- The bytes of a span. -/
def PacketSpan.chunk (span : PacketSpan) (body : Bytes) : Bytes :=
  if span.start ≤ span.stop ∧ span.stop ≤ body.length then
    (body.drop span.start).take (span.stop - span.start)
  else
    []

/-- The lacing value of a piece of a packet. -/
def lacingValue (piece : Bytes) : Byte :=
  BitVec.ofNat 8 piece.length

/-- Pieces of packets that a page can hold. -/
structure PagePieces (pieces : List Bytes) : Prop where
  count_le : pieces.length ≤ maxSegments
  length_le : ∀ piece ∈ pieces, piece.length ≤ continuationValue

theorem toNat_lacingValue {piece : Bytes} (h : piece.length ≤ continuationValue) :
    (lacingValue piece).toNat = piece.length := by
  rw [lacingValue, BitVec.toNat_ofNat]
  exact Nat.mod_eq_of_lt (Nat.lt_succ_of_le h)

theorem chunk_eq {body before chunk after : Bytes} {start stop : Nat} (complete : Bool)
    (hbody : body = before ++ (chunk ++ after)) (hstart : start = before.length)
    (hstop : stop = before.length + chunk.length) :
    PacketSpan.chunk ⟨start, stop, complete⟩ body = chunk := by
  have hle : start ≤ stop ∧ stop ≤ body.length := by
    rw [hstart, hstop, hbody, List.length_append, List.length_append]
    omega
  rw [PacketSpan.chunk, if_pos hle]
  exact field_eq hbody hstart.symm (by simp only [hstart, hstop]; omega)

/-- The spans from one piece on, behind what precedes the current packet and what is open of it. -/
theorem spanChunksFrom_eq {pieces : List Bytes}
    (hlength : ∀ piece ∈ pieces, piece.length ≤ continuationValue) (opened : Option Bytes)
    (hopened : pieces = [] → opened = none) {body before : Bytes}
    (hbody : body = before ++ (opened.getD [] ++ pieces.flatten)) (hsize : body.length ≤ u64Max) :
    (packetSpansFrom before.length (before.length + (opened.getD []).length)
        (pieces.map lacingValue)).map (fun span => (span.chunk body, span.complete)) =
      (Lacing.gather continuationValue opened pieces).1.map (·, true) ++
        (Lacing.gather continuationValue opened pieces).2.toList.map (·, false) := by
  induction pieces generalizing opened before with
  | nil =>
      rw [hopened rfl]
      rfl
  | cons piece rest ih =>
      have hpiece := hlength piece List.mem_cons_self
      have hrest : ∀ other ∈ rest, other.length ≤ continuationValue :=
        fun other hother => hlength other (List.mem_cons_of_mem _ hother)
      have hsum : before.length + (opened.getD []).length + piece.length =
          before.length + (opened.getD [] ++ piece).length := by
        rw [List.length_append, Nat.add_assoc]
      have hbody' : body = before ++ ((opened.getD [] ++ piece) ++ rest.flatten) := by
        rw [hbody, List.flatten_cons, List.append_assoc (opened.getD [])]
      have hadd : satAddU64 (before.length + (opened.getD []).length) (lacingValue piece).toNat =
          before.length + (opened.getD [] ++ piece).length := by
        rw [toNat_lacingValue hpiece, satAddU64_of_le, hsum]
        rw [hsum]
        refine Nat.le_trans ?_ hsize
        rw [hbody']
        simp only [List.length_append]
        omega
      rw [List.map_cons, packetSpansFrom, hadd, toNat_lacingValue hpiece]
      by_cases hshort : piece.length < continuationValue
      · have hnext := ih hrest none (fun _ => rfl)
          (hbody'.trans (List.append_assoc _ _ _).symm)
        rw [List.length_append] at hnext
        rw [if_pos hshort, List.map_cons, chunk_eq true hbody' rfl rfl, Lacing.gather_short hshort,
          List.map_cons, List.cons_append, ← hnext]
        rfl
      · rw [if_neg hshort, Lacing.gather_long (not_lt.mp hshort)]
        by_cases hlast : rest = []
        · subst hlast
          rw [if_pos List.map_nil, List.map_singleton, chunk_eq false hbody' rfl rfl]
          rfl
        · rw [if_neg (by simpa using hlast)]
          exact ih hrest (some (opened.getD [] ++ piece)) (fun h => absurd h hlast) hbody'

/-- The spans of a page are the packets that its pieces end and the one they leave open. -/
theorem spanChunks_eq {pieces : List Bytes} (h : PagePieces pieces) :
    (packetSpans (pieces.map lacingValue)).map
        (fun span => (span.chunk pieces.flatten, span.complete)) =
      (Lacing.gather continuationValue none pieces).1.map (·, true) ++
        (Lacing.gather continuationValue none pieces).2.toList.map (·, false) := by
  have hsize : pieces.flatten.length ≤ u64Max := by
    have hsum := List.sum_le_card_nsmul (pieces.map List.length) continuationValue (by
      simpa using h.length_le)
    have hcount := h.count_le
    rw [List.length_flatten]
    rw [List.length_map, smul_eq_mul] at hsum
    rw [maxSegments] at hcount
    rw [continuationValue] at hsum
    have hcap : u64Max = 18446744073709551615 := rfl
    omega
  exact @spanChunksFrom_eq _ h.length_le none (fun _ => rfl) pieces.flatten [] rfl hsize

end Ogg
end Vaco
