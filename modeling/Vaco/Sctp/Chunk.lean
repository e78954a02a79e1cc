import Vaco.Sctp.Packet

/-!
# Chunks

A chunk is a type, flags and a length of sixteen bits in front of a value, which is padded to a
multiple of four bytes.  A value that is too long for the length field is written whole, but its
length wraps.

Main results:

- `parseOne_encode`: a chunk whose value fits is read back, and its padding with it.

Current gaps:

- Chunks whose value does not fit the length field are not told apart from others.
-/

namespace Vaco
namespace Sctp

open Library BitStream ByteWords
open Vaco.Core (Byte ProtocolError)

/-- The number of zero bytes behind some bytes that makes them a multiple of four. -/
def padding (len : Nat) : Nat :=
  (4 - len % 4) % 4

/-- Pad with zero bytes to a multiple of four. -/
def padTo4 (bytes : Bytes) : Bytes :=
  bytes ++ List.replicate (padding bytes.length) 0#8

/-! ## The kinds of chunks -/

/-- The flags of a DATA chunk. -/
structure DataFlags where
  unordered : Bool
  beginningFragment : Bool
  endingFragment : Bool
deriving DecidableEq

/-- User data. -/
structure DataChunk where
  flags : DataFlags
  tsn : BitVec 32
  streamId : BitVec 16
  streamSequenceNumber : BitVec 16
  payloadProtocolId : BitVec 32
  userData : Bytes
deriving DecidableEq

/-- The first message of a handshake. -/
structure InitChunk where
  initiateTag : BitVec 32
  advertisedReceiverWindowCredit : BitVec 32
  outboundStreams : BitVec 16
  inboundStreams : BitVec 16
  initialTsn : BitVec 32
deriving DecidableEq

/-- Its answer. -/
structure InitAckChunk extends InitChunk where
  stateCookie : Bytes
deriving DecidableEq

/-- Sequence numbers that arrived behind a gap. -/
structure GapAckBlock where
  start : BitVec 16
  stop : BitVec 16
deriving DecidableEq

/-- An acknowledgement. -/
structure SackChunk where
  cumulativeTsnAck : BitVec 32
  advertisedReceiverWindowCredit : BitVec 32
  gapAckBlocks : List GapAckBlock
  duplicateTsns : List (BitVec 32)
deriving DecidableEq

/-- One chunk. -/
inductive Chunk where
  | data (chunk : DataChunk)
  | init (chunk : InitChunk)
  | initAck (chunk : InitAckChunk)
  | sack (chunk : SackChunk)
  | heartbeat (info : Bytes)
  | heartbeatAck (info : Bytes)
  | abort (causes : Bytes)
  | shutdown (cumulativeTsnAck : BitVec 32)
  | shutdownAck
  | shutdownComplete
  | error (causes : Bytes)
  | cookieEcho (cookie : Bytes)
  | cookieAck
  | unknown (chunkType flags : Byte) (value : Bytes)
deriving DecidableEq

/-! ## Writing -/

namespace DataChunk

/-- The flags as a byte. -/
def flagsByte (d : DataChunk) : Byte :=
  BitVec.ofNat 8 (4 * d.flags.unordered.toNat + 2 * d.flags.beginningFragment.toNat +
    d.flags.endingFragment.toNat)

/-- The value of a DATA chunk. -/
def encodeValue (d : DataChunk) : Bytes :=
  beBytes 4 d.tsn.toNat ++ (beBytes 2 d.streamId.toNat ++
    (beBytes 2 d.streamSequenceNumber.toNat ++ (beBytes 4 d.payloadProtocolId.toNat ++ d.userData)))

end DataChunk

/-- The value of an INIT chunk. -/
def InitChunk.encodeValue (i : InitChunk) : Bytes :=
  beBytes 4 i.initiateTag.toNat ++ (beBytes 4 i.advertisedReceiverWindowCredit.toNat ++
    (beBytes 2 i.outboundStreams.toNat ++ (beBytes 2 i.inboundStreams.toNat ++
      beBytes 4 i.initialTsn.toNat)))

/-- The parameter that carries the state cookie. -/
def paramStateCookie : Nat :=
  7

/-- The value of an INIT ACK chunk: that of an INIT chunk, and the state cookie. -/
def InitAckChunk.encodeValue (i : InitAckChunk) : Bytes :=
  padTo4 (i.toInitChunk.encodeValue ++ (beBytes 2 paramStateCookie ++
    (beBytes 2 ((4 + i.stateCookie.length) % 2 ^ 16) ++ i.stateCookie)))

/-- The value of an acknowledgement. -/
def SackChunk.encodeValue (s : SackChunk) : Bytes :=
  beBytes 4 s.cumulativeTsnAck.toNat ++ (beBytes 4 s.advertisedReceiverWindowCredit.toNat ++
    (beBytes 2 (s.gapAckBlocks.length % 2 ^ 16) ++ (beBytes 2 (s.duplicateTsns.length % 2 ^ 16) ++
      (s.gapAckBlocks.flatMap (fun b => beBytes 2 b.start.toNat ++ beBytes 2 b.stop.toNat) ++
        s.duplicateTsns.flatMap fun tsn => beBytes 4 tsn.toNat))))

namespace Chunk

/-- The type of a chunk. -/
def chunkType : Chunk → Byte
  | data _ => 0#8
  | init _ => 1#8
  | initAck _ => 2#8
  | sack _ => 3#8
  | heartbeat _ => 4#8
  | heartbeatAck _ => 5#8
  | abort _ => 6#8
  | shutdown _ => 7#8
  | shutdownAck => 8#8
  | error _ => 9#8
  | cookieEcho _ => 10#8
  | cookieAck => 11#8
  | shutdownComplete => 14#8
  | unknown chunkType _ _ => chunkType

/-- The flags of a chunk. -/
def flagsByte : Chunk → Byte
  | data d => d.flagsByte
  | unknown _ flags _ => flags
  | _ => 0#8

/-- The value of a chunk. -/
def encodeValue : Chunk → Bytes
  | data d => d.encodeValue
  | init i => i.encodeValue
  | initAck i => i.encodeValue
  | sack s => s.encodeValue
  | heartbeat info => info
  | heartbeatAck info => info
  | abort causes => causes
  | shutdown tsn => beBytes 4 tsn.toNat
  | shutdownAck => []
  | shutdownComplete => []
  | error causes => causes
  | cookieEcho cookie => cookie
  | cookieAck => []
  | unknown _ _ value => value

/-- Write a chunk, without padding. -/
def encode (c : Chunk) : Bytes :=
  c.chunkType :: c.flagsByte :: (beBytes 2 ((4 + c.encodeValue.length) % 2 ^ 16) ++ c.encodeValue)

end Chunk

/-! ## Reading -/

/-- Read the value of a DATA chunk. -/
def DataChunk.parse (flags : Byte) (value : Bytes) : Except ProtocolError DataChunk :=
  if value.length < 12 then
    .error (malformed "SCTP DATA chunk is truncated")
  else
    .ok
      { flags :=
          { unordered := flags.getLsbD 2
            beginningFragment := flags.getLsbD 1
            endingFragment := flags.getLsbD 0 }
        tsn := .ofNat 32 (beNat (value.take 4))
        streamId := .ofNat 16 (beNat ((value.drop 4).take 2))
        streamSequenceNumber := .ofNat 16 (beNat ((value.drop 6).take 2))
        payloadProtocolId := .ofNat 32 (beNat ((value.drop 8).take 4))
        userData := value.drop 12 }

/-- The fields that INIT and INIT ACK share. -/
def InitChunk.ofFixed (value : Bytes) : InitChunk where
  initiateTag := .ofNat 32 (beNat (value.take 4))
  advertisedReceiverWindowCredit := .ofNat 32 (beNat ((value.drop 4).take 4))
  outboundStreams := .ofNat 16 (beNat ((value.drop 8).take 2))
  inboundStreams := .ofNat 16 (beNat ((value.drop 10).take 2))
  initialTsn := .ofNat 32 (beNat ((value.drop 12).take 4))

/-- Read the value of an INIT chunk. -/
def InitChunk.parse (value : Bytes) : Except ProtocolError InitChunk :=
  if value.length < 16 then
    .error (malformed "SCTP INIT chunk is truncated")
  else
    .ok (.ofFixed value)

/-- Find the state cookie among the parameters of an INIT ACK chunk.  Every parameter takes four
bytes at least. -/
def findStateCookie : Nat → Bytes → Except ProtocolError Bytes
  | 0, _ => .error (malformed "SCTP INIT ACK has no State Cookie parameter")
  | fuel + 1, params =>
      if params.length < 4 then
        .error (malformed "SCTP INIT ACK has no State Cookie parameter")
      else
        let paramLen := beNat ((params.drop 2).take 2)
        if paramLen < 4 then
          .error (malformed "SCTP INIT ACK parameter length is shorter than its own header")
        else if params.length < paramLen then
          .error (malformed "SCTP INIT ACK parameter runs past the chunk")
        else if beNat (params.take 2) = paramStateCookie then
          .ok ((params.take paramLen).drop 4)
        else
          findStateCookie fuel (params.drop (paramLen + padding paramLen))

/-- Read the value of an INIT ACK chunk. -/
def InitAckChunk.parse (value : Bytes) : Except ProtocolError InitAckChunk :=
  if value.length < 16 then
    .error (malformed "SCTP INIT ACK chunk is truncated")
  else
    match findStateCookie (value.length + 1) (value.drop 16) with
    | .error e => .error e
    | .ok cookie =>
        .ok
          { toInitChunk := .ofFixed value
            stateCookie := cookie }

/-- Read the gap blocks of an acknowledgement, and leave the bytes behind them. -/
def parseGapAckBlocks : Nat → Bytes → Except ProtocolError (List GapAckBlock × Bytes)
  | 0, value => .ok ([], value)
  | count + 1, value =>
      if value.length < 4 then
        .error (malformed "SCTP SACK gap ack block is truncated")
      else
        match parseGapAckBlocks count (value.drop 4) with
        | .error e => .error e
        | .ok (blocks, rest) =>
            .ok (⟨.ofNat 16 (beNat (value.take 2)), .ofNat 16 (beNat ((value.drop 2).take 2))⟩ ::
              blocks, rest)

/-- Read the duplicates of an acknowledgement. -/
def parseDuplicateTsns : Nat → Bytes → Except ProtocolError (List (BitVec 32))
  | 0, _ => .ok []
  | count + 1, value =>
      if value.length < 4 then
        .error (malformed "SCTP SACK duplicate TSN is truncated")
      else
        match parseDuplicateTsns count (value.drop 4) with
        | .error e => .error e
        | .ok tsns => .ok (.ofNat 32 (beNat (value.take 4)) :: tsns)

/-- Read the value of an acknowledgement. -/
def SackChunk.parse (value : Bytes) : Except ProtocolError SackChunk :=
  if value.length < 12 then
    .error (malformed "SCTP SACK chunk is truncated")
  else
    match parseGapAckBlocks (beNat ((value.drop 8).take 2)) (value.drop 12) with
    | .error e => .error e
    | .ok (blocks, rest) =>
        match parseDuplicateTsns (beNat ((value.drop 10).take 2)) rest with
        | .error e => .error e
        | .ok tsns =>
            .ok
              { cumulativeTsnAck := .ofNat 32 (beNat (value.take 4))
                advertisedReceiverWindowCredit := .ofNat 32 (beNat ((value.drop 4).take 4))
                gapAckBlocks := blocks
                duplicateTsns := tsns }

/-- Read the value of a chunk of some type. -/
def Chunk.ofValue (chunkType flags : Byte) (value : Bytes) : Except ProtocolError Chunk :=
  match chunkType.toNat with
  | 0 => (DataChunk.parse flags value).map Chunk.data
  | 1 => (InitChunk.parse value).map Chunk.init
  | 2 => (InitAckChunk.parse value).map Chunk.initAck
  | 3 => (SackChunk.parse value).map Chunk.sack
  | 4 => .ok (.heartbeat value)
  | 5 => .ok (.heartbeatAck value)
  | 6 => .ok (.abort value)
  | 7 =>
      if value.length < 4 then
        .error (malformed "SCTP SHUTDOWN chunk is truncated")
      else
        .ok (.shutdown (.ofNat 32 (beNat (value.take 4))))
  | 8 => .ok .shutdownAck
  | 9 => .ok (.error value)
  | 10 => .ok (.cookieEcho value)
  | 11 => .ok .cookieAck
  | 14 => .ok .shutdownComplete
  | _ => .ok (.unknown chunkType flags value)

/-- Read one chunk from the front of some bytes, and how many bytes it takes with its padding, as
far as the padding is there. -/
def parseOne (buf : Bytes) : Except ProtocolError (Chunk × Nat) :=
  if buf.length < 4 then
    .error (malformed "SCTP chunk header is truncated")
  else
    let length := beNat ((buf.drop 2).take 2)
    if length < 4 then
      .error (malformed "SCTP chunk length is shorter than its own header")
    else if buf.length < length then
      .error (malformed "SCTP chunk runs past the end of the packet")
    else
      match Chunk.ofValue (buf.getD 0 0#8) (buf.getD 1 0#8) ((buf.take length).drop 4) with
      | .error e => .error e
      | .ok chunk => .ok (chunk, max (min (length + padding length) buf.length) length)

/-! ## Reading back -/

theorem length_padTo4 (bytes : Bytes) :
    (padTo4 bytes).length = bytes.length + padding bytes.length := by
  rw [padTo4, List.length_append, List.length_replicate]

theorem getLsbD_flags : ∀ unordered beginning ending : Bool,
    (BitVec.ofNat 8 (4 * unordered.toNat + 2 * beginning.toNat + ending.toNat)).getLsbD 2 =
        unordered ∧
      (BitVec.ofNat 8 (4 * unordered.toNat + 2 * beginning.toNat + ending.toNat)).getLsbD 1 =
        beginning ∧
      (BitVec.ofNat 8 (4 * unordered.toNat + 2 * beginning.toNat + ending.toNat)).getLsbD 0 =
        ending := by
  decide

theorem DataChunk.parse_encodeValue (d : DataChunk) :
    DataChunk.parse d.flagsByte d.encodeValue = .ok d := by
  rcases d with ⟨⟨unordered, beginning, ending⟩, tsn, streamId, number, protocol, userData⟩
  have hlen : ¬ (encodeValue ⟨⟨unordered, beginning, ending⟩, tsn, streamId, number, protocol,
      userData⟩).length < 12 := by
    simp only [encodeValue, List.length_append, length_beBytes]
    omega
  rcases getLsbD_flags unordered beginning ending with ⟨hunordered, hbeginning, hending⟩
  rw [parse, if_neg hlen, flagsByte, hunordered, hbeginning, hending, encodeValue]
  dsimp only
  have hnumber : ((beBytes 4 tsn.toNat ++ (beBytes 2 streamId.toNat ++ (beBytes 2 number.toNat ++
      (beBytes 4 protocol.toNat ++ userData)))).drop 6).take 2 = beBytes 2 number.toNat :=
    @field_eq _ (beBytes 4 tsn.toNat ++ beBytes 2 streamId.toNat) _
      (beBytes 4 protocol.toNat ++ userData) _ _ (by simp) (by simp) (length_beBytes _ _)
  have hprotocol : ((beBytes 4 tsn.toNat ++ (beBytes 2 streamId.toNat ++ (beBytes 2 number.toNat ++
      (beBytes 4 protocol.toNat ++ userData)))).drop 8).take 4 = beBytes 4 protocol.toNat :=
    @field_eq _ (beBytes 4 tsn.toNat ++ beBytes 2 streamId.toNat ++ beBytes 2 number.toNat) _
      userData _ _ (by simp) (by simp) (length_beBytes _ _)
  have hdata : (beBytes 4 tsn.toNat ++ (beBytes 2 streamId.toNat ++ (beBytes 2 number.toNat ++
      (beBytes 4 protocol.toNat ++ userData)))).drop 12 = userData := by
    rw [← List.append_assoc, ← List.append_assoc, ← List.append_assoc,
      List.drop_left' (by simp)]
  rw [hnumber, hprotocol, hdata, List.take_left' (length_beBytes _ _),
    field_eq rfl (length_beBytes _ _) (length_beBytes _ _), ofNat_beNat rfl, ofNat_beNat rfl,
    ofNat_beNat rfl, ofNat_beNat rfl]

/-- The fields that INIT and INIT ACK share are read back from in front of others. -/
theorem InitChunk.ofFixed_encodeValue (i : InitChunk) (rest : Bytes) :
    ofFixed (i.encodeValue ++ rest) = i := by
  have hall : i.encodeValue ++ rest = beBytes 4 i.initiateTag.toNat ++
      (beBytes 4 i.advertisedReceiverWindowCredit.toNat ++ (beBytes 2 i.outboundStreams.toNat ++
        (beBytes 2 i.inboundStreams.toNat ++ (beBytes 4 i.initialTsn.toNat ++ rest)))) := by
    simp [encodeValue]
  have hout : ((i.encodeValue ++ rest).drop 8).take 2 = beBytes 2 i.outboundStreams.toNat :=
    @field_eq _ (beBytes 4 i.initiateTag.toNat ++ beBytes 4 i.advertisedReceiverWindowCredit.toNat)
      _ (beBytes 2 i.inboundStreams.toNat ++ (beBytes 4 i.initialTsn.toNat ++ rest)) _ _
      (by simp [hall]) (by simp) (length_beBytes _ _)
  have hin : ((i.encodeValue ++ rest).drop 10).take 2 = beBytes 2 i.inboundStreams.toNat :=
    @field_eq _ (beBytes 4 i.initiateTag.toNat ++ beBytes 4 i.advertisedReceiverWindowCredit.toNat
      ++ beBytes 2 i.outboundStreams.toNat) _ (beBytes 4 i.initialTsn.toNat ++ rest) _ _
      (by simp [hall]) (by simp) (length_beBytes _ _)
  have htsn : ((i.encodeValue ++ rest).drop 12).take 4 = beBytes 4 i.initialTsn.toNat :=
    @field_eq _ (beBytes 4 i.initiateTag.toNat ++ beBytes 4 i.advertisedReceiverWindowCredit.toNat
      ++ beBytes 2 i.outboundStreams.toNat ++ beBytes 2 i.inboundStreams.toNat) _ rest _ _
      (by simp [hall]) (by simp) (length_beBytes _ _)
  rw [ofFixed, hout, hin, htsn, hall, List.take_left' (length_beBytes _ _),
    field_eq rfl (length_beBytes _ _) (length_beBytes _ _), ofNat_beNat rfl, ofNat_beNat rfl,
    ofNat_beNat rfl, ofNat_beNat rfl, ofNat_beNat rfl]

theorem InitChunk.length_encodeValue (i : InitChunk) : i.encodeValue.length = 16 := by
  simp [encodeValue]

theorem InitChunk.parse_encodeValue (i : InitChunk) : InitChunk.parse i.encodeValue = .ok i := by
  have hfixed := i.ofFixed_encodeValue []
  rw [List.append_nil] at hfixed
  rw [parse, if_neg (by rw [length_encodeValue]; decide), hfixed]

/-- A state cookie that fits its length field is read back. -/
theorem InitAckChunk.parse_encodeValue (i : InitAckChunk) (h : 4 + i.stateCookie.length < 2 ^ 16) :
    InitAckChunk.parse i.encodeValue = .ok i := by
  have hall : i.encodeValue = i.toInitChunk.encodeValue ++ (beBytes 2 paramStateCookie ++
      (beBytes 2 (4 + i.stateCookie.length) ++ (i.stateCookie ++
        List.replicate (padding (i.toInitChunk.encodeValue ++ (beBytes 2 paramStateCookie ++
          (beBytes 2 (4 + i.stateCookie.length) ++ i.stateCookie))).length) 0#8))) := by
    rw [encodeValue, padTo4, Nat.mod_eq_of_lt h]
    simp only [List.append_assoc]
  generalize List.replicate (padding (i.toInitChunk.encodeValue ++ (beBytes 2 paramStateCookie ++
    (beBytes 2 (4 + i.stateCookie.length) ++ i.stateCookie))).length) 0#8 = zeros at hall
  have hcookie : ((beBytes 2 paramStateCookie ++ (beBytes 2 (4 + i.stateCookie.length) ++
      (i.stateCookie ++ zeros))).take (4 + i.stateCookie.length)).drop 4 = i.stateCookie := by
    rw [List.drop_take, ← List.append_assoc, List.drop_left' (by simp), Nat.add_sub_cancel_left,
      List.take_left]
  have hlen : ∀ rest : Bytes, (i.toInitChunk.encodeValue ++ rest).length = 16 + rest.length :=
    fun rest => by rw [List.length_append, InitChunk.length_encodeValue]
  have hparams : (beBytes 2 paramStateCookie ++ (beBytes 2 (4 + i.stateCookie.length) ++
      (i.stateCookie ++ zeros))).length = 4 + (i.stateCookie.length + zeros.length) := by
    simp only [List.length_append, length_beBytes]
    omega
  rw [parse, hall, hlen, if_neg (by omega), List.drop_left' (InitChunk.length_encodeValue _),
    findStateCookie, if_neg (by rw [hparams]; omega),
    field_eq rfl (length_beBytes _ _) (length_beBytes _ _), beNat_beBytes (by omega),
    if_neg (by omega), if_neg (by rw [hparams]; omega), List.take_left' (length_beBytes _ _),
    beNat_beBytes (by decide), if_pos rfl, hcookie, InitChunk.ofFixed_encodeValue]

theorem parseGapAckBlocks_encode (blocks : List GapAckBlock) (rest : Bytes) :
    parseGapAckBlocks blocks.length
      (blocks.flatMap (fun b => beBytes 2 b.start.toNat ++ beBytes 2 b.stop.toNat) ++ rest) =
        .ok (blocks, rest) := by
  induction blocks with
  | nil => rfl
  | cons b blocks ih =>
      have hall : (b :: blocks).flatMap (fun b => beBytes 2 b.start.toNat ++
          beBytes 2 b.stop.toNat) ++ rest = beBytes 2 b.start.toNat ++ (beBytes 2 b.stop.toNat ++
            (blocks.flatMap (fun b => beBytes 2 b.start.toNat ++ beBytes 2 b.stop.toNat) ++
              rest)) := by
        simp
      have hlen : ¬ (beBytes 2 b.start.toNat ++ (beBytes 2 b.stop.toNat ++
          (blocks.flatMap (fun b => beBytes 2 b.start.toNat ++ beBytes 2 b.stop.toNat) ++
            rest))).length < 4 := by
        simp only [List.length_append, length_beBytes]
        omega
      rw [hall, List.length_cons, parseGapAckBlocks, if_neg hlen,
        List.take_left' (length_beBytes _ _), field_eq rfl (length_beBytes _ _) (length_beBytes _ _),
        ← List.append_assoc, List.drop_left' (by simp), ih, ofNat_beNat rfl, ofNat_beNat rfl]

theorem parseDuplicateTsns_encode (tsns : List (BitVec 32)) :
    parseDuplicateTsns tsns.length (tsns.flatMap fun tsn => beBytes 4 tsn.toNat) = .ok tsns := by
  induction tsns with
  | nil => rfl
  | cons tsn tsns ih =>
      rw [List.flatMap_cons, List.length_cons, parseDuplicateTsns, if_neg (by simp),
        List.take_left' (length_beBytes _ _), List.drop_left' (length_beBytes _ _), ih,
        ofNat_beNat rfl]

/-- An acknowledgement whose lists fit their counts is read back. -/
theorem SackChunk.parse_encodeValue (s : SackChunk) (hblocks : s.gapAckBlocks.length < 2 ^ 16)
    (htsns : s.duplicateTsns.length < 2 ^ 16) : SackChunk.parse s.encodeValue = .ok s := by
  have hgap : ((s.encodeValue).drop 8).take 2 = beBytes 2 s.gapAckBlocks.length := by
    rw [encodeValue, Nat.mod_eq_of_lt hblocks]
    exact @field_eq _ (beBytes 4 s.cumulativeTsnAck.toNat ++
      beBytes 4 s.advertisedReceiverWindowCredit.toNat) _ _ _ _ (List.append_assoc _ _ _).symm
      (by simp) (length_beBytes _ _)
  have hdup : ((s.encodeValue).drop 10).take 2 = beBytes 2 s.duplicateTsns.length := by
    rw [encodeValue, Nat.mod_eq_of_lt htsns]
    exact @field_eq _ (beBytes 4 s.cumulativeTsnAck.toNat ++
      beBytes 4 s.advertisedReceiverWindowCredit.toNat ++
      beBytes 2 (s.gapAckBlocks.length % 2 ^ 16)) _
      (s.gapAckBlocks.flatMap (fun b => beBytes 2 b.start.toNat ++ beBytes 2 b.stop.toNat) ++
        s.duplicateTsns.flatMap fun tsn => beBytes 4 tsn.toNat) _ _ (by simp) (by simp)
      (length_beBytes _ _)
  have hlists : (s.encodeValue).drop 12 =
      s.gapAckBlocks.flatMap (fun b => beBytes 2 b.start.toNat ++ beBytes 2 b.stop.toNat) ++
        s.duplicateTsns.flatMap fun tsn => beBytes 4 tsn.toNat := by
    rw [encodeValue, ← List.append_assoc, ← List.append_assoc, ← List.append_assoc,
      List.drop_left' (by simp)]
  have hlen : ¬ s.encodeValue.length < 12 := by
    simp only [encodeValue, List.length_append, length_beBytes]
    omega
  have hwindow : ((s.encodeValue).drop 4).take 4 =
      beBytes 4 s.advertisedReceiverWindowCredit.toNat :=
    field_eq rfl (length_beBytes _ _) (length_beBytes _ _)
  have htsn : (s.encodeValue).take 4 = beBytes 4 s.cumulativeTsnAck.toNat :=
    List.take_left' (length_beBytes _ _)
  rw [parse, if_neg hlen, hgap, hdup, hlists, hwindow, htsn, beNat_beBytes hblocks,
    beNat_beBytes htsns, parseGapAckBlocks_encode]
  dsimp only
  rw [parseDuplicateTsns_encode, ofNat_beNat rfl, ofNat_beNat rfl]

/-- A chunk whose value fits the length field is read back, and its padding with it. -/
theorem parseOne_encode {c : Chunk} (hlen : 4 + c.encodeValue.length < 2 ^ 16)
    (hvalue : Chunk.ofValue c.chunkType c.flagsByte c.encodeValue = .ok c) :
    parseOne (padTo4 c.encode) = .ok (c, (padTo4 c.encode).length) := by
  have hencode : c.encode.length = 4 + c.encodeValue.length := by
    simp only [Chunk.encode, List.length_cons, List.length_append, length_beBytes]
    omega
  have hall : padTo4 c.encode = [c.chunkType, c.flagsByte] ++ (beBytes 2 (4 + c.encodeValue.length)
      ++ (c.encodeValue ++ List.replicate (padding c.encode.length) 0#8)) := by
    rw [padTo4, Chunk.encode, Nat.mod_eq_of_lt hlen]
    simp
  have hlength : ((padTo4 c.encode).drop 2).take 2 = beBytes 2 (4 + c.encodeValue.length) :=
    field_eq hall rfl (length_beBytes _ _)
  have hbody : ((padTo4 c.encode).take (4 + c.encodeValue.length)).drop 4 = c.encodeValue := by
    rw [padTo4, List.take_left' hencode, Chunk.encode]
    rfl
  have htotal : (padTo4 c.encode).length =
      4 + c.encodeValue.length + padding (4 + c.encodeValue.length) := by
    rw [length_padTo4, hencode]
  have htype : (padTo4 c.encode).getD 0 0#8 = c.chunkType := by
    rw [hall]
    rfl
  have hflags : (padTo4 c.encode).getD 1 0#8 = c.flagsByte := by
    rw [hall]
    rfl
  rw [parseOne, if_neg (by omega), hlength, beNat_beBytes hlen]
  dsimp only
  rw [if_neg (by omega), if_neg (by omega), htype, hflags, hbody, hvalue]
  dsimp only
  rw [htotal, min_self, max_eq_left (Nat.le_add_right _ _)]

end Sctp
end Vaco
