import Vaco.Core.Packet
import Vaco.Library.ByteWords

/-!
# Chunk headers

A chunk starts with a basic header of one to three bytes that names its chunk stream and the shape
of the message header behind it.  Four shapes say all, some or none of a message's fields; a
timestamp that does not fit 24 bits is announced by a sentinel and follows in four more bytes.

Main results:

- `decodeBasicHeader_take`: a basic header is read back from any number of bytes, or more bytes are
  asked for.
-/

namespace Vaco
namespace Rtmp

open Library BitStream ByteWords
open Vaco.Core (Byte ProtocolError)

/-- The name of the protocol in its errors. -/
def scheme : String :=
  "rtmp"

/-- Something on the wire that cannot be. -/
def malformed (detail : String) : ProtocolError :=
  .malformed scheme detail

/-- The timestamp that says that the real one follows in four bytes. -/
def extendedTimestamp : Nat :=
  0xffffff

/-- Which shape of message header follows, and which chunk stream the chunk belongs to. -/
structure BasicHeader where
  fmt : Nat
  csid : Nat
deriving DecidableEq, Repr

def basicHeaderBytes (fmt csid : Nat) : Bytes :=
  if csid ≤ 63 then
    [BitVec.ofNat 8 (fmt * 64 + csid)]
  else if csid ≤ 319 then
    [BitVec.ofNat 8 (fmt * 64), BitVec.ofNat 8 (csid - 64)]
  else
    [BitVec.ofNat 8 (fmt * 64 + 1), BitVec.ofNat 8 ((csid - 64) % 256),
      BitVec.ofNat 8 ((csid - 64) / 256)]

/-- Write a basic header. -/
def encodeBasicHeader (fmt csid : Nat) : Except ProtocolError Bytes :=
  if 3 < fmt then
    .error (malformed "chunk fmt must be 0..=3")
  else if csid ≤ 1 then
    .error (malformed "chunk stream id 0 and 1 are reserved selectors, not values")
  else if csid ≤ 65599 then
    .ok (basicHeaderBytes fmt csid)
  else
    .error (malformed "chunk stream id exceeds the three-byte form's range")

def decodeBasicHeader (input : Bytes) : Option (BasicHeader × Nat) :=
  match input with
  | [] => none
  | first :: rest =>
      let fmt := first.toNat / 64
      let low6 := first.toNat % 64
      if low6 = 0 then
        match rest with
        | second :: _ => some (⟨fmt, second.toNat + 64⟩, 2)
        | [] => none
      else if low6 = 1 then
        match rest with
        | b1 :: b2 :: _ => some (⟨fmt, b1.toNat + b2.toNat * 256 + 64⟩, 3)
        | _ => none
      else
        some (⟨fmt, low6⟩, 1)

/-- The four shapes of a message header. -/
inductive MessageHeader where
  | type0 (timestamp messageLength : Nat) (messageTypeId : Byte) (messageStreamId : Nat)
  | type1 (timestampDelta messageLength : Nat) (messageTypeId : Byte)
  | type2 (timestampDelta : Nat)
  | type3
deriving DecidableEq

namespace MessageHeader

/-- The shape's number in a basic header. -/
def fmt : MessageHeader → Nat
  | type0 .. => 0
  | type1 .. => 1
  | type2 .. => 2
  | type3 => 3

/-- Write the fields of a header. -/
def encode : MessageHeader → Bytes
  | type0 timestamp messageLength messageTypeId messageStreamId =>
      beBytes 3 (min timestamp extendedTimestamp) ++ beBytes 3 (messageLength % 2 ^ 24) ++
        [messageTypeId] ++ leBytes 4 messageStreamId
  | type1 timestampDelta messageLength messageTypeId =>
      beBytes 3 (min timestampDelta extendedTimestamp) ++ beBytes 3 (messageLength % 2 ^ 24) ++
        [messageTypeId]
  | type2 timestampDelta => beBytes 3 (min timestampDelta extendedTimestamp)
  | type3 => []

/-- Read the fields of a header and how long they are, or ask for more bytes. -/
def decode (fmt : Nat) (input : Bytes) : Except ProtocolError (Option (MessageHeader × Nat)) :=
  match fmt with
  | 0 =>
      if input.length < 11 then
        .ok none
      else
        .ok (some (type0 (beNat (input.take 3)) (beNat ((input.drop 3).take 3)) (input.getD 6 0#8)
          (leNat ((input.drop 7).take 4)), 11))
  | 1 =>
      if input.length < 7 then
        .ok none
      else
        .ok (some (type1 (beNat (input.take 3)) (beNat ((input.drop 3).take 3)) (input.getD 6 0#8),
          7))
  | 2 =>
      if input.length < 3 then
        .ok none
      else
        .ok (some (type2 (beNat (input.take 3)), 3))
  | 3 => .ok (some (type3, 0))
  | _ => .error (malformed "chunk fmt must be 0..=3")

def rawTimestamp : MessageHeader → Option Nat
  | type0 timestamp _ _ _ => some timestamp
  | type1 timestampDelta _ _ => some timestampDelta
  | type2 timestampDelta => some timestampDelta
  | type3 => none

/-- A header whose fields fit their widths. -/
def Fits : MessageHeader → Prop
  | type0 timestamp messageLength _ messageStreamId =>
      timestamp ≤ extendedTimestamp ∧ messageLength < 2 ^ 24 ∧ messageStreamId < 2 ^ 32
  | type1 timestampDelta messageLength _ =>
      timestampDelta ≤ extendedTimestamp ∧ messageLength < 2 ^ 24
  | type2 timestampDelta => timestampDelta ≤ extendedTimestamp
  | type3 => True

instance : DecidablePred Fits
  | type0 timestamp messageLength _ messageStreamId =>
      inferInstanceAs (Decidable (timestamp ≤ extendedTimestamp ∧ messageLength < 2 ^ 24 ∧
        messageStreamId < 2 ^ 32))
  | type1 timestampDelta messageLength _ =>
      inferInstanceAs (Decidable (timestampDelta ≤ extendedTimestamp ∧ messageLength < 2 ^ 24))
  | type2 timestampDelta => inferInstanceAs (Decidable (timestampDelta ≤ extendedTimestamp))
  | type3 => .isTrue trivial

end MessageHeader

/-- The extended timestamp behind a header that has one, and the bytes behind it. -/
def takeExtended (reads : Bool) (input : Bytes) : Option (Option Nat × Bytes) :=
  if reads then
    if input.length < 4 then none else some (some (beNat (input.take 4)), input.drop 4)
  else
    some (none, input)

/-! ## Reading back -/

theorem encodeBasicHeader_eq {fmt csid : Nat} (hfmt : fmt ≤ 3) (hlow : 2 ≤ csid)
    (hhigh : csid ≤ 65599) : encodeBasicHeader fmt csid = .ok (basicHeaderBytes fmt csid) := by
  rw [encodeBasicHeader, if_neg (not_lt.mpr hfmt), if_neg (by omega), if_pos hhigh]

theorem length_basicHeaderBytes_pos (fmt csid : Nat) : 0 < (basicHeaderBytes fmt csid).length := by
  rw [basicHeaderBytes]
  split
  · exact Nat.succ_pos _
  · split
    · exact Nat.succ_pos _
    · exact Nat.succ_pos _

theorem toNat_ofNat_byte {n : Nat} (h : n < 256) : (BitVec.ofNat 8 n).toNat = n := by
  rw [BitVec.toNat_ofNat]
  exact Nat.mod_eq_of_lt h

/-- A basic header is read back from any number of bytes, or more bytes are asked for. -/
theorem decodeBasicHeader_take {fmt csid : Nat} (hfmt : fmt ≤ 3) (hlow : 2 ≤ csid)
    (hhigh : csid ≤ 65599) (rest : Bytes) (n : Nat) :
    decodeBasicHeader ((basicHeaderBytes fmt csid ++ rest).take n) =
      if n < (basicHeaderBytes fmt csid).length then none
      else some (⟨fmt, csid⟩, (basicHeaderBytes fmt csid).length) := by
  rcases n with _ | n
  · rw [if_pos (length_basicHeaderBytes_pos fmt csid)]
    rfl
  unfold basicHeaderBytes
  by_cases hone : csid ≤ 63
  · have hfmt' : (fmt * 64 + csid) / 64 = fmt := by omega
    have hcsid : (fmt * 64 + csid) % 64 = csid := by omega
    rw [if_pos hone, List.singleton_append, List.take_succ_cons]
    unfold decodeBasicHeader
    dsimp only
    rw [toNat_ofNat_byte (by omega), hfmt', hcsid, if_neg (by omega), if_neg (by omega),
      List.length_singleton, if_neg (by omega)]
  · rw [if_neg hone]
    by_cases htwo : csid ≤ 319
    · have hfmt' : fmt * 64 / 64 = fmt := by omega
      have hlow6 : fmt * 64 % 64 = 0 := by omega
      have hcsid : csid - 64 + 64 = csid := by omega
      rw [if_pos htwo, List.cons_append, List.singleton_append, List.take_succ_cons]
      unfold decodeBasicHeader
      dsimp only
      rw [toNat_ofNat_byte (by omega), hlow6, if_pos rfl]
      rcases n with _ | n
      · rfl
      · rw [List.take_succ_cons, List.length_cons, List.length_singleton, if_neg (by omega)]
        dsimp only
        rw [toNat_ofNat_byte (by omega), hfmt', hcsid]
    · have hfmt' : (fmt * 64 + 1) / 64 = fmt := by omega
      have hlow6 : (fmt * 64 + 1) % 64 = 1 := by omega
      have hcsid : (csid - 64) % 256 + (csid - 64) / 256 * 256 + 64 = csid := by omega
      rw [if_neg htwo, List.cons_append, List.cons_append, List.singleton_append,
        List.take_succ_cons]
      unfold decodeBasicHeader
      dsimp only
      rw [toNat_ofNat_byte (by omega), hlow6, if_neg Nat.one_ne_zero, if_pos rfl]
      rcases n with _ | _ | n
      · rfl
      · rfl
      · rw [List.take_succ_cons, List.take_succ_cons, List.length_cons, List.length_cons,
          List.length_singleton, if_neg (by omega)]
        dsimp only
        rw [toNat_ofNat_byte (Nat.mod_lt _ (by decide)), toNat_ofNat_byte (by omega), hfmt', hcsid]

namespace MessageHeader

theorem fmt_le (header : MessageHeader) : header.fmt ≤ 3 := by
  cases header with
  | type0 => exact Nat.zero_le 3
  | type1 => exact Nat.le_of_ble_eq_true rfl
  | type2 => exact Nat.le_of_ble_eq_true rfl
  | type3 => exact le_rfl

/-- A header is read back from any number of bytes, or more bytes are asked for. -/
theorem decode_take {header : MessageHeader} (h : header.Fits) (rest : Bytes) (n : Nat) :
    decode header.fmt ((header.encode ++ rest).take n) =
      .ok (if n < header.encode.length then none else some (header, header.encode.length)) := by
  have hshort : ∀ k, n < k → ((header.encode ++ rest).take n).length < k := fun k hn =>
    (List.length_take_le _ _).trans_lt hn
  have hlong : ∀ k, header.encode.length = k → ¬ n < k →
      (header.encode ++ rest).take n = header.encode ++ rest.take (n - k) ∧
        ¬ ((header.encode ++ rest).take n).length < k := by
    intro k hk hn
    rw [List.take_append, List.take_of_length_le (by omega), hk]
    refine ⟨rfl, ?_⟩
    rw [List.length_append, hk]
    omega
  have htimestamp (t : Nat) (ht : t ≤ extendedTimestamp) :
      beNat (beBytes 3 (min t extendedTimestamp)) = t := by
    rw [beNat_beBytes (lt_of_le_of_lt (min_le_right _ _) (by decide)), min_eq_left ht]
  have hlength (l : Nat) (hl : l < 2 ^ 24) : beNat (beBytes 3 (l % 2 ^ 24)) = l := by
    rw [Nat.mod_eq_of_lt hl, beNat_beBytes hl]
  cases header with
  | type0 t l ty sid =>
      have hk : (type0 t l ty sid).encode.length = 11 := by simp [encode]
      rw [hk]
      by_cases hn : n < 11
      · rw [if_pos hn, fmt, decode, if_pos (hshort 11 hn)]
      · rcases hlong 11 hk hn with ⟨htake, hlen⟩
        rw [if_neg hn, fmt, decode, if_neg hlen, htake]
        generalize rest.take (n - 11) = tail
        have hall : (type0 t l ty sid).encode ++ tail =
            beBytes 3 (min t extendedTimestamp) ++ (beBytes 3 (l % 2 ^ 24) ++
              ([ty] ++ (leBytes 4 sid ++ tail))) := by
          simp [encode]
        have htype : (beBytes 3 (min t extendedTimestamp) ++ beBytes 3 (l % 2 ^ 24)).length = 6 := by
          rw [List.length_append, length_beBytes, length_beBytes]
        have hsid : (beBytes 3 (min t extendedTimestamp) ++ beBytes 3 (l % 2 ^ 24) ++
            [ty]).length = 7 := by
          rw [List.length_append, htype]
          rfl
        have hfield : ((beBytes 3 (min t extendedTimestamp) ++ (beBytes 3 (l % 2 ^ 24) ++
            ([ty] ++ (leBytes 4 sid ++ tail)))).drop 7).take 4 = leBytes 4 sid :=
          @field_eq _ _ (leBytes 4 sid) tail _ _ (by simp) hsid (length_leBytes 4 sid)
        rw [hall, List.take_left' (length_beBytes _ _),
          field_eq rfl (length_beBytes _ _) (length_beBytes _ _),
          getD_eq (List.append_assoc _ _ _).symm htype, hfield,
          htimestamp t h.1, hlength l h.2.1, leNat_leBytes h.2.2]
  | type1 t l ty =>
      have hk : (type1 t l ty).encode.length = 7 := by simp [encode]
      rw [hk]
      by_cases hn : n < 7
      · rw [if_pos hn, fmt, decode, if_pos (hshort 7 hn)]
      · rcases hlong 7 hk hn with ⟨htake, hlen⟩
        rw [if_neg hn, fmt, decode, if_neg hlen, htake]
        generalize rest.take (n - 7) = tail
        have hall : (type1 t l ty).encode ++ tail =
            beBytes 3 (min t extendedTimestamp) ++ (beBytes 3 (l % 2 ^ 24) ++ ([ty] ++ tail)) := by
          simp [encode]
        have htype : (beBytes 3 (min t extendedTimestamp) ++ beBytes 3 (l % 2 ^ 24)).length = 6 := by
          rw [List.length_append, length_beBytes, length_beBytes]
        rw [hall, List.take_left' (length_beBytes _ _),
          field_eq rfl (length_beBytes _ _) (length_beBytes _ _),
          getD_eq (List.append_assoc _ _ _).symm htype, htimestamp t h.1, hlength l h.2]
  | type2 t =>
      have hk : (type2 t).encode.length = 3 := length_beBytes 3 _
      rw [hk]
      by_cases hn : n < 3
      · rw [if_pos hn, fmt, decode, if_pos (hshort 3 hn)]
      · rcases hlong 3 hk hn with ⟨htake, hlen⟩
        rw [if_neg hn, fmt, decode, if_neg hlen, htake, encode,
          List.take_left' (length_beBytes _ _), htimestamp t h]
  | type3 => rfl

end MessageHeader

/-- An extended timestamp is read back from any number of bytes, or more bytes are asked for. -/
theorem takeExtended_take {extended : Option Nat} (h : ∀ value, extended = some value → value < 2 ^ 32)
    (rest : Bytes) (n : Nat) :
    takeExtended extended.isSome (((extended.map (beBytes 4)).getD [] ++ rest).take n) =
      if n < ((extended.map (beBytes 4)).getD []).length then none
      else some (extended, rest.take (n - ((extended.map (beBytes 4)).getD []).length)) := by
  cases extended with
  | none =>
      change some (none, rest.take n) = if n < 0 then none else some (none, rest.take (n - 0))
      rw [if_neg (Nat.not_lt_zero n), Nat.sub_zero]
  | some value =>
      have hlen : (beBytes 4 value).length = 4 := length_beBytes 4 value
      rw [Option.isSome_some, Option.map_some, Option.getD_some, hlen, takeExtended, if_pos rfl]
      by_cases hn : n < 4
      · rw [if_pos hn, if_pos ((List.length_take_le _ _).trans_lt hn)]
      · have htake : (beBytes 4 value ++ rest).take n = beBytes 4 value ++ rest.take (n - 4) := by
          rw [List.take_append, List.take_of_length_le (by omega), hlen]
        rw [if_neg hn, htake, if_neg (by rw [List.length_append]; omega), List.take_left' hlen,
          List.drop_left' hlen, beNat_beBytes (h value rfl)]

end Rtmp
end Vaco
