import Vaco.Sctp.Chunk

/-!
# One side of an association

A side shakes hands with four messages, and then sends user data under consecutive numbers and
acknowledges what it takes of its peer's.  It takes the number behind the last one it took, and the
first one whatever it is.

Main results:

- `Association.onPacket`: what a packet does, and what is sent for it.

Current gaps:

- A shutdown is not modelled, as the source does not drive one.
-/

namespace Vaco
namespace Sctp

open Library BitStream ByteWords
open Vaco.Core (Byte ProtocolError)

/-- The receiver window that is advertised. -/
def defaultAdvertisedReceiverWindow : BitVec 32 :=
  131072#32

/-- How far the handshake is. -/
inductive State where
  | closed
  | cookieWait
  | cookieEchoed
  | established
deriving DecidableEq

/-- Who begins the handshake. -/
inductive Role where
  | client
  | server
deriving DecidableEq

/-! ## Received data -/

/-- What has been taken of the peer's data, and the number up to which it is acknowledged. -/
structure ReceiveState where
  cumulativeTsnAck : Option (BitVec 32)
  receivedData : List Bytes
deriving DecidableEq

namespace ReceiveState

/-- Nothing has been received. -/
def initial : ReceiveState where
  cumulativeTsnAck := none
  receivedData := []

/-- Take data that is next; the first data is next whatever its number. -/
def onData (r : ReceiveState) (tsn : BitVec 32) (userData : Bytes) : ReceiveState :=
  let isNext :=
    match r.cumulativeTsnAck with
    | none => true
    | some cum => tsn == cum + 1#32
  if isNext then
    { cumulativeTsnAck := some tsn
      receivedData := r.receivedData ++ [userData] }
  else
    r

end ReceiveState

/-! ## The association -/

/-- One side. -/
structure Association where
  role : Role
  state : State
  localPort : BitVec 16
  peerPort : BitVec 16
  localVerificationTag : BitVec 32
  peerVerificationTag : BitVec 32
  localInitialTsn : BitVec 32
  nextTsn : BitVec 32
  peerInitialTsn : Option (BitVec 32)
  receive : ReceiveState
deriving DecidableEq

/-- A state cookie: the tags and the initial numbers of both sides. -/
def buildCookie (serverTag clientTag serverInitialTsn clientInitialTsn : BitVec 32) : Bytes :=
  beBytes 4 serverTag.toNat ++ (beBytes 4 clientTag.toNat ++ (beBytes 4 serverInitialTsn.toNat ++
    beBytes 4 clientInitialTsn.toNat))

section Packets

variable (crc32c : Bytes → BitVec 32)

/-- A packet of one chunk. -/
def oneChunkPacket (header : CommonHeader) (chunk : Chunk) : Bytes :=
  buildWithChecksum crc32c header (padTo4 chunk.encode)

namespace Association

/-- A side that has not begun. -/
def new (role : Role) (localPort peerPort : BitVec 16)
    (localVerificationTag localInitialTsn : BitVec 32) : Association where
  role := role
  state := .closed
  localPort := localPort
  peerPort := peerPort
  localVerificationTag := localVerificationTag
  peerVerificationTag := 0#32
  localInitialTsn := localInitialTsn
  nextTsn := localInitialTsn
  peerInitialTsn := none
  receive := .initial

/-- The side that begins the handshake. -/
def newClient (localPort peerPort : BitVec 16)
    (localVerificationTag localInitialTsn : BitVec 32) : Association :=
  new .client localPort peerPort localVerificationTag localInitialTsn

/-- The side that waits for it. -/
def newServer (localPort peerPort : BitVec 16)
    (localVerificationTag localInitialTsn : BitVec 32) : Association :=
  new .server localPort peerPort localVerificationTag localInitialTsn

/-- The header of a packet to the peer. -/
def outHeader (a : Association) (tag : BitVec 32) : CommonHeader where
  sourcePort := a.localPort
  destinationPort := a.peerPort
  verificationTag := tag
  checksum := 0#32

/-- What a side says of itself in the handshake. -/
def initChunk (a : Association) : InitChunk where
  initiateTag := a.localVerificationTag
  advertisedReceiverWindowCredit := defaultAdvertisedReceiverWindow
  outboundStreams := 1#16
  inboundStreams := 1#16
  initialTsn := a.localInitialTsn

/-- Begin the handshake. -/
def initiate (a : Association) : Association × Bytes :=
  ({ a with state := .cookieWait }, oneChunkPacket crc32c (a.outHeader 0#32) (.init a.initChunk))

/-- The acknowledgement of what has been taken. -/
def sackOf (cum : BitVec 32) : SackChunk where
  cumulativeTsnAck := cum
  advertisedReceiverWindowCredit := defaultAdvertisedReceiverWindow
  gapAckBlocks := []
  duplicateTsns := []

def handleChunk (a : Association) (header : CommonHeader) (chunk : Chunk) :
    Except ProtocolError (Association × Option Bytes) :=
  match a.role, a.state, chunk with
  | .server, .closed, .init init =>
      let initAck : InitAckChunk :=
        { toInitChunk := a.initChunk
          stateCookie := buildCookie a.localVerificationTag init.initiateTag a.localInitialTsn
            init.initialTsn }
      .ok
        ({ a with
            peerVerificationTag := init.initiateTag
            peerInitialTsn := some init.initialTsn },
          some (oneChunkPacket crc32c (a.outHeader init.initiateTag) (.initAck initAck)))
  | .client, .cookieWait, .initAck initAck =>
      if header.verificationTag ≠ a.localVerificationTag then
        .error (malformed "SCTP INIT ACK has the wrong verification tag")
      else
        .ok
          ({ a with
              peerVerificationTag := initAck.initiateTag
              peerInitialTsn := some initAck.initialTsn
              state := .cookieEchoed },
            some (oneChunkPacket crc32c (a.outHeader initAck.initiateTag)
              (.cookieEcho initAck.stateCookie)))
  | .server, .closed, .cookieEcho _ =>
      if a.peerVerificationTag = 0#32 then
        .error (malformed "SCTP chunk is not valid for this association's current state")
      else if header.verificationTag ≠ a.localVerificationTag then
        .error (malformed "SCTP COOKIE ECHO has the wrong verification tag")
      else
        .ok
          ({ a with state := .established },
            some (oneChunkPacket crc32c (a.outHeader a.peerVerificationTag) .cookieAck))
  | .client, .cookieEchoed, .cookieAck =>
      if header.verificationTag ≠ a.localVerificationTag then
        .error (malformed "SCTP COOKIE ACK has the wrong verification tag")
      else
        .ok ({ a with state := .established }, none)
  | _, .established, .data data =>
      if header.verificationTag ≠ a.localVerificationTag then
        .error (malformed "SCTP DATA chunk has the wrong verification tag")
      else
        let receive := a.receive.onData data.tsn data.userData
        let cum := receive.cumulativeTsnAck.getD (data.tsn - 1#32)
        .ok
          ({ a with receive := receive },
            some (oneChunkPacket crc32c (a.outHeader a.peerVerificationTag) (.sack (sackOf cum))))
  | _, .established, .sack _ => .ok (a, none)
  | _, _, _ => .error (malformed "SCTP chunk is not valid for this association's current state")

/-- Handle the chunks of a packet one after the other.  A chunk takes four bytes at least. -/
def handleChunks (header : CommonHeader) :
    Nat → Association → Bytes → List Bytes → Association × Except ProtocolError (List Bytes)
  | 0, a, _, outgoing => (a, .ok outgoing)
  | fuel + 1, a, rest, outgoing =>
      if rest = [] then
        (a, .ok outgoing)
      else
        match parseOne rest with
        | .error e => (a, .error e)
        | .ok (chunk, consumed) =>
            match a.handleChunk crc32c header chunk with
            | .error e => (a, .error e)
            | .ok (a, reply) =>
                handleChunks header fuel a (rest.drop consumed) (outgoing ++ reply.toList)

/-- Handle a packet: the state behind it, and the packets that are sent for it. -/
def onPacket (a : Association) (packet : Bytes) :
    Association × Except ProtocolError (List Bytes) :=
  if verifyChecksum crc32c packet then
    match CommonHeader.parse packet with
    | .error e => (a, .error e)
    | .ok header =>
        handleChunks crc32c header packet.length a (packet.drop commonHeaderLen) []
  else
    (a, .error (malformed "SCTP packet failed CRC32c verification"))

/-- Send user data under the next number. -/
def sendData (a : Association) (streamId : BitVec 16) (payloadProtocolId : BitVec 32)
    (payload : Bytes) : Except ProtocolError (Association × Bytes) :=
  if a.state ≠ .established then
    .error (.unsupported scheme "send_data before the association is Established")
  else
    let data : DataChunk :=
      { flags :=
          { unordered := false
            beginningFragment := true
            endingFragment := true }
        tsn := a.nextTsn
        streamId := streamId
        streamSequenceNumber := 0#16
        payloadProtocolId := payloadProtocolId
        userData := payload }
    .ok
      ({ a with nextTsn := a.nextTsn + 1#32 },
        oneChunkPacket crc32c (a.outHeader a.peerVerificationTag) (.data data))

end Association

/-! ## Packets of one chunk -/

/-- A chunk that is read back from its bytes. -/
structure Chunk.Legible (c : Chunk) : Prop where
  fits : 4 + c.encodeValue.length < 2 ^ 16
  ofValue_eq : Chunk.ofValue c.chunkType c.flagsByte c.encodeValue = .ok c

theorem Chunk.legible_data {d : DataChunk} (h : d.userData.length ≤ 65519) :
    (Chunk.data d).Legible := by
  refine ⟨?_, ?_⟩
  · have hlen : d.encodeValue.length = 12 + d.userData.length := by
      simp only [DataChunk.encodeValue, List.length_append, length_beBytes]
      omega
    rw [encodeValue, hlen]
    omega
  · change (DataChunk.parse d.flagsByte d.encodeValue).map Chunk.data = _
    rw [d.parse_encodeValue]
    rfl

theorem Chunk.legible_sack (cum : BitVec 32) : (Chunk.sack (Association.sackOf cum)).Legible := by
  refine ⟨?_, ?_⟩
  · change 4 + (SackChunk.encodeValue _).length < 2 ^ 16
    simp only [SackChunk.encodeValue, Association.sackOf, List.length_append, length_beBytes,
      List.flatMap_nil, List.length_nil]
    decide
  · change (SackChunk.parse (Association.sackOf cum).encodeValue).map Chunk.sack = _
    rw [SackChunk.parse_encodeValue (Association.sackOf cum) (Nat.two_pow_pos 16)
      (Nat.two_pow_pos 16)]
    rfl

theorem Chunk.legible_init (i : InitChunk) : (Chunk.init i).Legible := by
  refine ⟨?_, ?_⟩
  · change 4 + i.encodeValue.length < 2 ^ 16
    rw [i.length_encodeValue]
    decide
  · change (InitChunk.parse i.encodeValue).map Chunk.init = _
    rw [i.parse_encodeValue]
    rfl

theorem length_buildCookie (a b c d : BitVec 32) : (buildCookie a b c d).length = 16 := by
  simp [buildCookie]

theorem Chunk.legible_initAck {i : InitAckChunk} (h : i.stateCookie.length = 16) :
    (Chunk.initAck i).Legible := by
  refine ⟨?_, ?_⟩
  · have hlen : (i.toInitChunk.encodeValue ++ (beBytes 2 paramStateCookie ++
        (beBytes 2 ((4 + i.stateCookie.length) % 2 ^ 16) ++ i.stateCookie))).length = 36 := by
      simp only [List.length_append, length_beBytes, InitChunk.length_encodeValue, h]
    change 4 + i.encodeValue.length < 2 ^ 16
    rw [InitAckChunk.encodeValue, length_padTo4, hlen]
    decide
  · change (InitAckChunk.parse i.encodeValue).map Chunk.initAck = _
    rw [i.parse_encodeValue (by rw [h]; decide)]
    rfl

theorem Chunk.legible_cookieEcho {cookie : Bytes} (h : cookie.length = 16) :
    (Chunk.cookieEcho cookie).Legible := by
  refine ⟨?_, rfl⟩
  change 4 + cookie.length < 2 ^ 16
  rw [h]
  decide

theorem Chunk.legible_cookieAck : Chunk.cookieAck.Legible :=
  ⟨by decide, rfl⟩

/-- The first chunk of a packet. -/
def chunkOf (packet : Bytes) : Option Chunk :=
  match parseOne (packet.drop commonHeaderLen) with
  | .ok (chunk, _) => some chunk
  | .error _ => none

variable {crc32c}

theorem chunkOf_oneChunkPacket {c : Chunk} (h : c.Legible) (header : CommonHeader) :
    chunkOf (oneChunkPacket crc32c header c) = some c := by
  rw [chunkOf, oneChunkPacket, drop_buildWithChecksum, parseOne_encode h.fits h.ofValue_eq]

/-- A packet that was built of one chunk is handled as that chunk. -/
theorem Association.onPacket_oneChunk {c : Chunk} (h : c.Legible) (a : Association)
    (header : CommonHeader) :
    ∃ checksum, a.onPacket crc32c (oneChunkPacket crc32c header c) =
      match a.handleChunk crc32c { header with checksum := checksum } c with
      | .error e => (a, .error e)
      | .ok (a, reply) => (a, .ok reply.toList) := by
  have hsome : padTo4 c.encode ≠ [] := by
    rw [Ne, ← List.length_eq_zero_iff, length_padTo4]
    simp [Chunk.encode]
  have hfuel : ∃ fuel, (oneChunkPacket crc32c header c).length = fuel + 2 := by
    refine ⟨10 + (padTo4 c.encode).length, ?_⟩
    rw [oneChunkPacket, buildWithChecksum, List.length_append, CommonHeader.length_build]
    rw [commonHeaderLen]
    omega
  rcases hfuel with ⟨fuel, hfuel⟩
  refine ⟨computeChecksum crc32c header (padTo4 c.encode), ?_⟩
  rw [onPacket, hfuel, oneChunkPacket, verifyChecksum_build, if_pos rfl, parse_buildWithChecksum]
  dsimp only
  rw [drop_buildWithChecksum, handleChunks, if_neg hsome, parseOne_encode h.fits h.ofValue_eq]
  dsimp only
  split
  · rfl
  · rename_i a' reply _
    rw [List.drop_of_length_le le_rfl, handleChunks, if_pos rfl, List.nil_append]

end Packets

end Sctp
end Vaco
