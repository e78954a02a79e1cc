import Vaco.Sctp.Association

/-!
# Two sides and a network

Two sides shake hands, and then send user data and acknowledge it over a network that delivers any
packet ever sent, in any order, any number of times or never.

Main results:

- `Network.step`: one call of a side, or one delivery.
- `inOrder_of_fair`: in every run whose deliveries are fair, each side has taken the payloads of its
  peer from the first one on, in order and each once, and acknowledges no others.
- `handshake_establishes`: when a handshake ends, and what the sides know then.
-/

namespace Vaco
namespace Sctp

open Library BitStream ByteWords
open Vaco.Core (ProtocolError)

/-! ## The system -/

/-- A packet that was sent; for user data, its place among the payloads of its sender. -/
structure Emitted where
  packet : Bytes
  place : Option Nat
deriving DecidableEq

/-- One side with the payloads that it was given so far, and the packets that it sent so far. -/
structure Endpoint where
  association : Association
  payloads : List Bytes
  emitted : List Emitted
deriving DecidableEq

/-- The two sides. -/
structure Network where
  client : Endpoint
  server : Endpoint
deriving DecidableEq

/-- One of the sides. -/
inductive Side where
  | client
  | server
deriving DecidableEq

namespace Side

/-- The other side. -/
def other : Side → Side
  | client => server
  | server => client

theorem eq_or_eq_other (s t : Side) : t = s ∨ t = s.other := by
  cases s <;> cases t
  · exact .inl rfl
  · exact .inr rfl
  · exact .inr rfl
  · exact .inl rfl

@[simp]
theorem other_other (s : Side) : s.other.other = s := by
  cases s <;> rfl

end Side

/-- A call of a side, or a packet of its peer that the network delivers to it. -/
inductive Event where
  | send (sender : Side) (streamId : BitVec 16) (payloadProtocolId : BitVec 32) (payload : Bytes)
  | deliver (receiver : Side) (index : Nat)

namespace Network

/-- One side of a network. -/
def get (net : Network) : Side → Endpoint
  | .client => net.client
  | .server => net.server

/-- Change one side of a network. -/
def set (net : Network) : Side → Endpoint → Network
  | .client, e => { net with client := e }
  | .server, e => { net with server := e }

@[simp]
theorem get_set_self (net : Network) (s : Side) (e : Endpoint) : (net.set s e).get s = e := by
  cases s <;> rfl

@[simp]
theorem get_set_other (net : Network) (s : Side) (e : Endpoint) :
    (net.set s e).get s.other = net.get s.other := by
  cases s <;> rfl

end Network

section Run

variable (crc32c : Bytes → BitVec 32)

/-- A side gets a packet: its state changes, and what it sends for it is on the network. -/
def Endpoint.receive (e : Endpoint) (packet : Bytes) : Endpoint :=
  match e.association.onPacket crc32c packet with
  | (a, .ok replies) =>
      { e with
        association := a
        emitted := e.emitted ++ replies.map fun packet => ⟨packet, none⟩ }
  | (a, .error _) => { e with association := a }

/-- A side is given a payload, and sends it if it may. -/
def Endpoint.send (e : Endpoint) (streamId : BitVec 16) (payloadProtocolId : BitVec 32)
    (payload : Bytes) : Endpoint :=
  match e.association.sendData crc32c streamId payloadProtocolId payload with
  | .ok (a, packet) =>
      { association := a
        payloads := e.payloads ++ [payload]
        emitted := e.emitted ++ [⟨packet, some e.payloads.length⟩] }
  | .error _ => e

namespace Network

/-- One call of a side, or one delivery. -/
def step (net : Network) : Event → Network
  | .send s streamId payloadProtocolId payload =>
      net.set s ((net.get s).send crc32c streamId payloadProtocolId payload)
  | .deliver s index =>
      match (net.get s.other).emitted[index]? with
      | some p => net.set s ((net.get s).receive crc32c p.packet)
      | none => net

/-- Events one after the other. -/
def run (net : Network) (events : List Event) : Network :=
  events.foldl (step crc32c) net

/-- The completed handshake of two sides. -/
def handshake (client server : Association) : Option Network :=
  let (client, init) := client.initiate crc32c
  match server.onPacket crc32c init with
  | (server, .ok [initAck]) =>
      match client.onPacket crc32c initAck with
      | (client, .ok [cookieEcho]) =>
          match server.onPacket crc32c cookieEcho with
          | (server, .ok [cookieAck]) =>
              match client.onPacket crc32c cookieAck with
              | (client, .ok []) =>
                  some
                    { client := ⟨client, [], [⟨init, none⟩, ⟨cookieEcho, none⟩]⟩
                      server := ⟨server, [], [⟨initAck, none⟩, ⟨cookieAck, none⟩]⟩ }
              | _ => none
          | _ => none
      | _ => none
  | _ => none

/-- Payloads fit a chunk, the first user data to reach a side is its sender's first, and none is
taken for other data, a multiple of 2^32 places away. -/
def Fair (net : Network) : Event → Prop
  | .send _ _ _ payload => payload.length ≤ 65519
  | .deliver s index =>
      ∀ place ∈ (net.get s.other).emitted[index]?.bind Emitted.place,
        ((net.get s).association.receive.receivedData = [] → place = 0) ∧
          (place % 2 ^ 32 = (net.get s).association.receive.receivedData.length % 2 ^ 32 →
            place = (net.get s).association.receive.receivedData.length)

instance (net : Network) : DecidablePred net.Fair
  | .send _ _ _ payload => inferInstanceAs (Decidable (payload.length ≤ 65519))
  | .deliver s index =>
      inferInstanceAs (Decidable (∀ place ∈ (net.get s.other).emitted[index]?.bind Emitted.place,
        _ ∧ _))

/-- Each event is fair when it comes. -/
def Fairly : Network → List Event → Prop
  | _, [] => True
  | net, event :: events => net.Fair event ∧ (net.step crc32c event).Fairly events

instance decidableFairly :
    (net : Network) → (events : List Event) → Decidable (net.Fairly crc32c events)
  | _, [] => .isTrue trivial
  | net, event :: events =>
      have := decidableFairly (net.step crc32c event) events
      inferInstanceAs (Decidable (net.Fair event ∧ (net.step crc32c event).Fairly crc32c events))

/-- One side has taken the payloads of the other in order and each once, and acknowledged no others.
-/
structure InOrder (net : Network) (s : Side) : Prop where
  announced : (net.get s).association.peerInitialTsn =
    some (net.get s.other).association.localInitialTsn
  numbered : ∀ p ∈ (net.get s.other).emitted, ∀ place, p.place = some place →
    ∃ data, chunkOf p.packet = some (.data data) ∧
      data.tsn = (net.get s.other).association.localInitialTsn + BitVec.ofNat 32 place ∧
        (net.get s.other).payloads[place]? = some data.userData
  taken : ∃ n ≤ (net.get s.other).payloads.length,
    (net.get s).association.receive.receivedData = (net.get s.other).payloads.take n ∧
      ∀ p ∈ (net.get s).emitted, ∀ sack, chunkOf p.packet = some (.sack sack) →
        ∃ m < n, sack.cumulativeTsnAck =
          (net.get s.other).association.localInitialTsn + BitVec.ofNat 32 m

end Network

/-! ## What the sides agree on -/

/-- A packet that a side may get from its peer. -/
inductive Genuine (tag initial : BitVec 32) (payloads : List Bytes) : Emitted → Prop where
  | data {header : CommonHeader} {d : DataChunk} {place : Nat} (htag : header.verificationTag = tag)
      (htsn : d.tsn = initial + BitVec.ofNat 32 place)
      (hpayload : payloads[place]? = some d.userData) (hlen : d.userData.length ≤ 65519) :
      Genuine tag initial payloads ⟨oneChunkPacket crc32c header (.data d), some place⟩
  | control {header : CommonHeader} {c : Chunk} (hlegible : c.Legible)
      (hcontrol : ∀ d, c ≠ .data d) :
      Genuine tag initial payloads ⟨oneChunkPacket crc32c header c, none⟩

/-- What has been taken of some payloads. -/
structure Taken (initial : BitVec 32) (payloads : List Bytes) (r : ReceiveState) : Prop where
  length_le : r.receivedData.length ≤ payloads.length
  data_eq : r.receivedData = payloads.take r.receivedData.length
  cumulative_eq : r.cumulativeTsnAck =
    if r.receivedData = [] then none
    else some (initial + BitVec.ofNat 32 (r.receivedData.length - 1))

/-- What a side has of its peer. -/
structure Agreed (e peer : Endpoint) : Prop where
  established : e.association.state = .established
  announced : e.association.peerInitialTsn = some peer.association.localInitialTsn
  tag_eq : peer.association.peerVerificationTag = e.association.localVerificationTag
  next_eq : peer.association.nextTsn =
    peer.association.localInitialTsn + BitVec.ofNat 32 peer.payloads.length
  genuine : ∀ p ∈ peer.emitted, Genuine crc32c e.association.localVerificationTag
    peer.association.localInitialTsn peer.payloads p
  taken : Taken peer.association.localInitialTsn peer.payloads e.association.receive
  acknowledged : ∀ p ∈ e.emitted, ∀ sack, chunkOf p.packet = some (.sack sack) →
    ∃ m < e.association.receive.receivedData.length,
      sack.cumulativeTsnAck = peer.association.localInitialTsn + BitVec.ofNat 32 m

end Run

section Steps

variable {crc32c : Bytes → BitVec 32}

theorem Genuine.more {tag initial : BitVec 32} {payloads : List Bytes} {p : Emitted}
    (h : Genuine crc32c tag initial payloads p) (payload : Bytes) :
    Genuine crc32c tag initial (payloads ++ [payload]) p := by
  cases h with
  | data htag htsn hpayload hlen =>
      refine .data htag htsn ?_ hlen
      rw [List.getElem?_append_left (List.getElem?_eq_some_iff.mp hpayload).1]
      exact hpayload
  | control hlegible hcontrol => exact .control hlegible hcontrol

theorem Association.handleChunk_control {a a' : Association} {header : CommonHeader} {c : Chunk}
    {reply : Option Bytes} (h : a.state = .established) (hcontrol : ∀ d, c ≠ .data d)
    (hhandle : a.handleChunk crc32c header c = .ok (a', reply)) : a' = a ∧ reply = none := by
  rcases a with ⟨role, state, lp, pp, ltag, ptag, ltsn, ntsn, ptsn, r⟩
  cases h
  cases c with
  | data d => exact absurd rfl (hcontrol d)
  | sack s =>
      cases role <;> cases hhandle <;> exact ⟨rfl, rfl⟩
  | _ => cases role <;> cases hhandle

theorem Association.handleChunk_data {a : Association} {header : CommonHeader} {d : DataChunk}
    (h : a.state = .established) (htag : header.verificationTag = a.localVerificationTag) :
    a.handleChunk crc32c header (.data d) =
      .ok ({ a with receive := a.receive.onData d.tsn d.userData },
        some (oneChunkPacket crc32c (a.outHeader a.peerVerificationTag)
          (.sack (sackOf ((a.receive.onData d.tsn d.userData).cumulativeTsnAck.getD
            (d.tsn - 1#32)))))) := by
  rcases a with ⟨role, state, lp, pp, ltag, ptag, ltsn, ntsn, ptsn, r⟩
  cases h
  have htag' : ¬ header.verificationTag ≠ ltag := not_not.mpr htag
  cases role with
  | client =>
      unfold handleChunk
      dsimp only
      rw [if_neg htag']
  | server =>
      unfold handleChunk
      dsimp only
      rw [if_neg htag']

/-- What a side does with a genuine packet: it takes user data and acknowledges it, or nothing. -/
theorem Endpoint.receive_genuine {e : Endpoint} {initial : BitVec 32} {payloads : List Bytes}
    {p : Emitted} (h : e.association.state = .established)
    (hp : Genuine crc32c e.association.localVerificationTag initial payloads p) :
    e.receive crc32c p.packet = e ∨
      ∃ place data cum header, p.place = some place ∧
        payloads[place]? = some data ∧
        e.receive crc32c p.packet =
          { e with
            association :=
              { e.association with
                receive :=
                  e.association.receive.onData (initial + BitVec.ofNat 32 place) data }
            emitted := e.emitted ++
              [⟨oneChunkPacket crc32c header (.sack (Association.sackOf cum)), none⟩] } ∧
        cum = ((e.association.receive.onData (initial + BitVec.ofNat 32 place)
          data).cumulativeTsnAck.getD (initial + BitVec.ofNat 32 place - 1#32)) := by
  cases hp with
  | @data header d place htag htsn hpayload hlen =>
      refine .inr ⟨place, d.userData, _,
        e.association.outHeader e.association.peerVerificationTag, rfl, hpayload, ?_, rfl⟩
      rcases @Association.onPacket_oneChunk crc32c _ (Chunk.legible_data hlen) e.association
        header with ⟨checksum, hpacket⟩
      have hhandle := @Association.handleChunk_data crc32c e.association
        { header with checksum := checksum } d h htag
      rw [receive, hpacket, hhandle, htsn]
      rfl
  | @control header c hlegible hcontrol =>
      refine .inl ?_
      rcases @Association.onPacket_oneChunk crc32c _ hlegible e.association header with
        ⟨checksum, hpacket⟩
      rw [receive, hpacket]
      cases hhandle : e.association.handleChunk crc32c { header with checksum := checksum } c with
      | error err => rfl
      | ok result =>
          rcases result with ⟨a', reply⟩
          rcases Association.handleChunk_control h hcontrol hhandle with ⟨rfl, rfl⟩
          dsimp only
          rw [Option.toList_none, List.map_nil, List.append_nil]

theorem ofNat_add_eq_iff {initial : BitVec 32} {m n : Nat} :
    initial + BitVec.ofNat 32 m = initial + BitVec.ofNat 32 n ↔ m % 2 ^ 32 = n % 2 ^ 32 := by
  rw [BitVec.add_right_inj, ← BitVec.toNat_inj, BitVec.toNat_ofNat, BitVec.toNat_ofNat]

/-- User data is taken exactly when it is the payload behind those taken. -/
theorem Taken.onData_eq {initial : BitVec 32} {payloads : List Bytes} {r : ReceiveState}
    (h : Taken initial payloads r) {place : Nat} (data : Bytes)
    (hfirst : r.receivedData = [] → place = 0)
    (hnext : place % 2 ^ 32 = r.receivedData.length % 2 ^ 32 → place = r.receivedData.length) :
    r.onData (initial + BitVec.ofNat 32 place) data =
      if place = r.receivedData.length then
        { cumulativeTsnAck := some (initial + BitVec.ofNat 32 place)
          receivedData := r.receivedData ++ [data] }
      else
        r := by
  by_cases hempty : r.receivedData = []
  · have hcum : r.cumulativeTsnAck = none := by rw [h.cumulative_eq, if_pos hempty]
    rw [ReceiveState.onData, hcum, if_pos rfl, if_pos (by rw [hfirst hempty, hempty]; rfl)]
  · have hpos : r.receivedData.length - 1 + 1 = r.receivedData.length :=
      Nat.sub_add_cancel (List.length_pos_iff.mpr hempty)
    have hcum : r.cumulativeTsnAck =
        some (initial + BitVec.ofNat 32 (r.receivedData.length - 1)) := by
      rw [h.cumulative_eq, if_neg hempty]
    have hsucc : initial + BitVec.ofNat 32 (r.receivedData.length - 1) + 1#32 =
        initial + BitVec.ofNat 32 r.receivedData.length := by
      rw [BitVec.add_assoc, ← BitVec.ofNat_add, hpos]
    rw [ReceiveState.onData, hcum]
    by_cases hplace : place = r.receivedData.length
    · rw [if_pos hplace, if_pos]
      exact beq_iff_eq.mpr (by rw [hsucc, hplace])
    · rw [if_neg hplace, if_neg]
      intro hnumber
      have heq := beq_iff_eq.mp hnumber
      rw [hsucc, ofNat_add_eq_iff] at heq
      exact hplace (hnext heq)

/-- User data that is fair to deliver is taken as the next payload, or not at all. -/
theorem Taken.onData {initial : BitVec 32} {payloads : List Bytes} {r : ReceiveState}
    (h : Taken initial payloads r) {place : Nat} {data : Bytes}
    (hpayload : payloads[place]? = some data) (hfirst : r.receivedData = [] → place = 0)
    (hnext : place % 2 ^ 32 = r.receivedData.length % 2 ^ 32 → place = r.receivedData.length) :
    Taken initial payloads (r.onData (initial + BitVec.ofNat 32 place) data) ∧
      r.receivedData.length ≤
        (r.onData (initial + BitVec.ofNat 32 place) data).receivedData.length ∧
      (r.onData (initial + BitVec.ofNat 32 place) data).receivedData ≠ [] := by
  rw [h.onData_eq data hfirst hnext]
  by_cases hplace : place = r.receivedData.length
  · have hlt : place < payloads.length := (List.getElem?_eq_some_iff.mp hpayload).1
    have hlen : (r.receivedData ++ [data]).length = r.receivedData.length + 1 :=
      List.length_append
    have hne : r.receivedData ++ [data] ≠ [] := by simp
    have htake : payloads.take (r.receivedData.length + 1) = r.receivedData ++ [data] := by
      rw [List.take_add_one, ← h.data_eq, ← hplace, hpayload]
      rfl
    rw [if_pos hplace]
    refine ⟨⟨?_, ?_, ?_⟩, ?_, hne⟩
    · rw [hlen]
      omega
    · rw [hlen, htake]
    · rw [if_neg hne, hlen, Nat.add_sub_cancel, hplace]
    · rw [hlen]
      exact Nat.le_succ _
  · rw [if_neg hplace]
    refine ⟨h, le_rfl, fun hempty => hplace ?_⟩
    rw [hfirst hempty, hempty]
    rfl

variable {e peer : Endpoint}

/-- A side that gets a genuine packet of its peer at a fair time still agrees with it. -/
theorem Agreed.receive_self (h : Agreed crc32c e peer) {p : Emitted} (hp : p ∈ peer.emitted)
    (hfair : ∀ place, p.place = some place →
      (e.association.receive.receivedData = [] → place = 0) ∧
        (place % 2 ^ 32 = e.association.receive.receivedData.length % 2 ^ 32 →
          place = e.association.receive.receivedData.length)) :
    Agreed crc32c (e.receive crc32c p.packet) peer := by
  rcases Endpoint.receive_genuine h.established (h.genuine p hp) with
    hsame | ⟨place, data, cum, header, hplace, hpayload, hreceive, hcum⟩
  · rw [hsame]
    exact h
  · rcases h.taken.onData hpayload (hfair place hplace).1 (hfair place hplace).2 with
      ⟨htaken, hle, hne⟩
    rw [hreceive]
    refine
      { established := h.established
        announced := h.announced
        tag_eq := h.tag_eq
        next_eq := h.next_eq
        genuine := h.genuine
        taken := htaken
        acknowledged := ?_ }
    intro q hq sack hsack
    rcases List.mem_append.mp hq with hq | hq
    · rcases h.acknowledged q hq sack hsack with ⟨m, hm, heq⟩
      exact ⟨m, hm.trans_le hle, heq⟩
    · rw [List.mem_singleton.mp hq, chunkOf_oneChunkPacket (Chunk.legible_sack cum)] at hsack
      cases hsack
      refine ⟨_, Nat.sub_lt (List.length_pos_iff.mpr hne) Nat.one_pos, ?_⟩
      change cum = _
      rw [hcum, htaken.cumulative_eq, if_neg hne]
      rfl

theorem Agreed.receive_peer (h : Agreed crc32c e peer) (h' : Agreed crc32c peer e) {p : Emitted}
    (hp : p ∈ e.emitted) : Agreed crc32c e (peer.receive crc32c p.packet) := by
  rcases Endpoint.receive_genuine h'.established (h'.genuine p hp) with
    hsame | ⟨place, data, cum, header, -, -, hreceive, -⟩
  · rw [hsame]
    exact h
  · rw [hreceive]
    refine
      { established := h.established
        announced := h.announced
        tag_eq := h.tag_eq
        next_eq := h.next_eq
        genuine := ?_
        taken := h.taken
        acknowledged := h.acknowledged }
    intro q hq
    rcases List.mem_append.mp hq with hq | hq
    · exact h.genuine q hq
    · rw [List.mem_singleton.mp hq]
      exact .control (Chunk.legible_sack cum) fun d hd => nomatch hd

theorem Endpoint.send_eq (h : e.association.state = .established) (streamId : BitVec 16)
    (payloadProtocolId : BitVec 32) (payload : Bytes) :
    ∃ d : DataChunk, d.tsn = e.association.nextTsn ∧ d.userData = payload ∧
      e.send crc32c streamId payloadProtocolId payload =
        { association := { e.association with nextTsn := e.association.nextTsn + 1#32 }
          payloads := e.payloads ++ [payload]
          emitted := e.emitted ++
            [⟨oneChunkPacket crc32c (e.association.outHeader e.association.peerVerificationTag)
              (.data d), some e.payloads.length⟩] } := by
  refine ⟨⟨⟨false, true, true⟩, e.association.nextTsn, streamId, 0#16, payloadProtocolId, payload⟩,
    rfl, rfl, ?_⟩
  rw [send, Association.sendData, if_neg (not_not.mpr h)]

theorem Agreed.send_self (h : Agreed crc32c e peer) (streamId : BitVec 16)
    (payloadProtocolId : BitVec 32) {payload : Bytes} (hlen : payload.length ≤ 65519) :
    Agreed crc32c (e.send crc32c streamId payloadProtocolId payload) peer := by
  rcases @Endpoint.send_eq crc32c e h.established streamId payloadProtocolId payload with
    ⟨d, -, hdata, hsend⟩
  rw [hsend]
  refine
    { established := h.established
      announced := h.announced
      tag_eq := h.tag_eq
      next_eq := h.next_eq
      genuine := h.genuine
      taken := h.taken
      acknowledged := ?_ }
  intro q hq sack hsack
  rcases List.mem_append.mp hq with hq | hq
  · exact h.acknowledged q hq sack hsack
  · rw [List.mem_singleton.mp hq,
      chunkOf_oneChunkPacket (Chunk.legible_data (by rw [hdata]; exact hlen))] at hsack
    cases hsack

/-- A side still agrees with its peer when the peer sends a payload that fits. -/
theorem Agreed.send_peer (h : Agreed crc32c e peer) (hpeer : peer.association.state = .established)
    (streamId : BitVec 16) (payloadProtocolId : BitVec 32) {payload : Bytes}
    (hlen : payload.length ≤ 65519) :
    Agreed crc32c e (peer.send crc32c streamId payloadProtocolId payload) := by
  rcases @Endpoint.send_eq crc32c peer hpeer streamId payloadProtocolId payload with
    ⟨d, htsn, hdata, hsend⟩
  rw [hsend]
  refine
    { established := h.established
      announced := h.announced
      tag_eq := h.tag_eq
      next_eq := ?_
      genuine := ?_
      taken := ?_
      acknowledged := h.acknowledged }
  · dsimp only
    rw [h.next_eq, List.length_append, List.length_singleton, BitVec.add_assoc, ← BitVec.ofNat_add]
  · intro q hq
    rcases List.mem_append.mp hq with hq | hq
    · exact (h.genuine q hq).more payload
    · rw [List.mem_singleton.mp hq]
      refine .data h.tag_eq (htsn.trans h.next_eq) ?_ (by rw [hdata]; exact hlen)
      rw [List.getElem?_append_right le_rfl, Nat.sub_self, hdata]
      rfl
  · refine ⟨h.taken.length_le.trans ?_, ?_, h.taken.cumulative_eq⟩
    · rw [List.length_append]
      exact Nat.le_add_right _ _
    · rw [List.take_append_of_le_length h.taken.length_le]
      exact h.taken.data_eq

/-! ## Runs -/

namespace Network

variable {net : Network}

/-- A fair event leaves both sides in agreement. -/
theorem agreed_step (h : ∀ s, Agreed crc32c (net.get s) (net.get s.other)) {event : Event}
    (hfair : net.Fair event) (s : Side) :
    Agreed crc32c ((net.step crc32c event).get s) ((net.step crc32c event).get s.other) := by
  cases event with
  | send sender streamId payloadProtocolId payload =>
      have hpeer := h sender.other
      rw [Side.other_other] at hpeer
      rw [step]
      rcases sender.eq_or_eq_other s with rfl | rfl
      · rw [get_set_self, get_set_other]
        exact (h s).send_self streamId payloadProtocolId hfair
      · rw [Side.other_other, get_set_self, get_set_other]
        exact hpeer.send_peer (h sender).established streamId payloadProtocolId hfair
  | deliver receiver index =>
      rw [step]
      cases hp : (net.get receiver.other).emitted[index]? with
      | none => exact h s
      | some p =>
          have hmem : p ∈ (net.get receiver.other).emitted := List.mem_of_getElem? hp
          have hpeer := h receiver.other
          rw [Side.other_other] at hpeer
          dsimp only
          rcases receiver.eq_or_eq_other s with rfl | rfl
          · rw [get_set_self, get_set_other]
            refine (h s).receive_self hmem fun place hplace => hfair place ?_
            rw [hp]
            exact hplace
          · rw [Side.other_other, get_set_self, get_set_other]
            exact hpeer.receive_peer (h receiver) hmem

theorem agreed_run {events : List Event} (h : ∀ s, Agreed crc32c (net.get s) (net.get s.other))
    (hfair : net.Fairly crc32c events) (s : Side) :
    Agreed crc32c ((net.run crc32c events).get s) ((net.run crc32c events).get s.other) := by
  induction events generalizing net with
  | nil => exact h s
  | cons event events ih => exact ih (agreed_step h hfair.1) hfair.2

theorem inOrder_of_agreed {s : Side} (h : Agreed crc32c (net.get s) (net.get s.other)) :
    net.InOrder s where
  announced := h.announced
  numbered := by
    intro p hp place hplace
    have hgenuine := h.genuine p hp
    cases hgenuine with
    | data htag htsn hpayload hlen =>
        cases hplace
        exact ⟨_, chunkOf_oneChunkPacket (Chunk.legible_data hlen) _, htsn, hpayload⟩
    | control hlegible hcontrol => cases hplace
  taken := ⟨_, h.taken.length_le, h.taken.data_eq, h.acknowledged⟩

end Network

end Steps

/-! ## The handshake -/

section Handshake

variable {crc32c : Bytes → BitVec 32}

theorem Association.onPacket_init (s : Association) (hrole : s.role = .server)
    (hstate : s.state = .closed) (header : CommonHeader) (i : InitChunk) :
    s.onPacket crc32c (oneChunkPacket crc32c header (.init i)) =
      ({ s with
          peerVerificationTag := i.initiateTag
          peerInitialTsn := some i.initialTsn },
        .ok [oneChunkPacket crc32c (s.outHeader i.initiateTag) (.initAck
          { toInitChunk := s.initChunk
            stateCookie := buildCookie s.localVerificationTag i.initiateTag s.localInitialTsn
              i.initialTsn })]) := by
  rcases s with ⟨role, state, lp, pp, ltag, ptag, ltsn, ntsn, ptsn, r⟩
  cases hrole
  cases hstate
  rcases @onPacket_oneChunk crc32c _ (Chunk.legible_init i)
    ⟨.server, .closed, lp, pp, ltag, ptag, ltsn, ntsn, ptsn, r⟩ header with ⟨checksum, hpacket⟩
  exact hpacket

theorem Association.onPacket_initAck (c : Association) (hrole : c.role = .client)
    (hstate : c.state = .cookieWait) {header : CommonHeader} {i : InitAckChunk}
    (htag : header.verificationTag = c.localVerificationTag) (hcookie : i.stateCookie.length = 16) :
    c.onPacket crc32c (oneChunkPacket crc32c header (.initAck i)) =
      ({ c with
          peerVerificationTag := i.initiateTag
          peerInitialTsn := some i.initialTsn
          state := .cookieEchoed },
        .ok [oneChunkPacket crc32c (c.outHeader i.initiateTag) (.cookieEcho i.stateCookie)]) := by
  rcases c with ⟨role, state, lp, pp, ltag, ptag, ltsn, ntsn, ptsn, r⟩
  cases hrole
  cases hstate
  rcases @onPacket_oneChunk crc32c _ (Chunk.legible_initAck hcookie)
    ⟨.client, .cookieWait, lp, pp, ltag, ptag, ltsn, ntsn, ptsn, r⟩ header with ⟨checksum, hpacket⟩
  rw [hpacket]
  unfold handleChunk
  dsimp only
  rw [if_neg (not_not.mpr htag)]
  rfl

/-- The server takes its cookie back, from a client whose tag is not zero. -/
theorem Association.onPacket_cookieEcho (s : Association) (hrole : s.role = .server)
    (hstate : s.state = .closed) {header : CommonHeader} {cookie : Bytes}
    (htag : header.verificationTag = s.localVerificationTag) (hcookie : cookie.length = 16) :
    s.onPacket crc32c (oneChunkPacket crc32c header (.cookieEcho cookie)) =
      if s.peerVerificationTag = 0#32 then
        (s, .error (malformed "SCTP chunk is not valid for this association's current state"))
      else
        ({ s with state := .established },
          .ok [oneChunkPacket crc32c (s.outHeader s.peerVerificationTag) .cookieAck]) := by
  rcases s with ⟨role, state, lp, pp, ltag, ptag, ltsn, ntsn, ptsn, r⟩
  cases hrole
  cases hstate
  rcases @onPacket_oneChunk crc32c _ (Chunk.legible_cookieEcho hcookie)
    ⟨.server, .closed, lp, pp, ltag, ptag, ltsn, ntsn, ptsn, r⟩ header with ⟨checksum, hpacket⟩
  rw [hpacket]
  unfold handleChunk
  dsimp only
  by_cases hzero : ptag = 0#32
  · rw [if_pos hzero, if_pos hzero]
  · rw [if_neg hzero, if_neg hzero, if_neg (not_not.mpr htag)]
    rfl

theorem Association.onPacket_cookieAck (c : Association) (hrole : c.role = .client)
    (hstate : c.state = .cookieEchoed) {header : CommonHeader}
    (htag : header.verificationTag = c.localVerificationTag) :
    c.onPacket crc32c (oneChunkPacket crc32c header .cookieAck) =
      ({ c with state := .established }, .ok []) := by
  rcases c with ⟨role, state, lp, pp, ltag, ptag, ltsn, ntsn, ptsn, r⟩
  cases hrole
  cases hstate
  rcases @onPacket_oneChunk crc32c _ Chunk.legible_cookieAck
    ⟨.client, .cookieEchoed, lp, pp, ltag, ptag, ltsn, ntsn, ptsn, r⟩ header with
    ⟨checksum, hpacket⟩
  rw [hpacket]
  unfold handleChunk
  dsimp only
  rw [if_neg (not_not.mpr htag)]
  rfl

section Replies

variable {client client₁ client₂ server server₁ : Association} {init initAck cookieEcho : Bytes}

theorem Network.handshake_some {client₃ server₂ : Association} {cookieAck : Bytes}
    (hinit : client.initiate crc32c = (client₁, init))
    (hinitAck : server.onPacket crc32c init = (server₁, .ok [initAck]))
    (hcookieEcho : client₁.onPacket crc32c initAck = (client₂, .ok [cookieEcho]))
    (hcookieAck : server₁.onPacket crc32c cookieEcho = (server₂, .ok [cookieAck]))
    (hdone : client₂.onPacket crc32c cookieAck = (client₃, .ok [])) :
    handshake crc32c client server =
      some
        { client := ⟨client₃, [], [⟨init, none⟩, ⟨cookieEcho, none⟩]⟩
          server := ⟨server₂, [], [⟨initAck, none⟩, ⟨cookieAck, none⟩]⟩ } := by
  rw [handshake, hinit]
  dsimp only
  rw [hinitAck]
  dsimp only
  rw [hcookieEcho]
  dsimp only
  rw [hcookieAck]
  dsimp only
  rw [hdone]

theorem Network.handshake_none {server₂ : Association} {err : ProtocolError}
    (hinit : client.initiate crc32c = (client₁, init))
    (hinitAck : server.onPacket crc32c init = (server₁, .ok [initAck]))
    (hcookieEcho : client₁.onPacket crc32c initAck = (client₂, .ok [cookieEcho]))
    (hcookieAck : server₁.onPacket crc32c cookieEcho = (server₂, .error err)) :
    handshake crc32c client server = none := by
  rw [handshake, hinit]
  dsimp only
  rw [hinitAck]
  dsimp only
  rw [hcookieEcho]
  dsimp only
  rw [hcookieAck]

end Replies

/-- A packet of the handshake. -/
def Greeting (crc32c : Bytes → BitVec 32) (p : Emitted) : Prop :=
  ∃ header c, c.Legible ∧ (∀ d, c ≠ .data d) ∧ (∀ sack, c ≠ .sack sack) ∧
    p = ⟨oneChunkPacket crc32c header c, none⟩

/-- Sides that know each other and have sent nothing but greetings agree. -/
theorem Agreed.begin {e peer : Endpoint} (established : e.association.state = .established)
    (announced : e.association.peerInitialTsn = some peer.association.localInitialTsn)
    (htag : peer.association.peerVerificationTag = e.association.localVerificationTag)
    (hnext : peer.association.nextTsn = peer.association.localInitialTsn)
    (hpayloads : peer.payloads = []) (hreceive : e.association.receive = .initial)
    (hpeer : ∀ p ∈ peer.emitted, Greeting crc32c p) (hself : ∀ p ∈ e.emitted, Greeting crc32c p) :
    Agreed crc32c e peer where
  established := established
  announced := announced
  tag_eq := htag
  next_eq := by rw [hnext, hpayloads, List.length_nil, BitVec.add_zero]
  genuine := by
    intro p hp
    rcases hpeer p hp with ⟨header, c, hlegible, hdata, -, rfl⟩
    exact .control hlegible hdata
  taken := by
    rw [hreceive]
    exact ⟨Nat.zero_le _, rfl, rfl⟩
  acknowledged := by
    intro p hp sack hchunk
    rcases hself p hp with ⟨header, c, hlegible, -, hsack, rfl⟩
    rw [chunkOf_oneChunkPacket hlegible] at hchunk
    exact absurd (Option.some.inj hchunk) (hsack sack)

/-- Sides that have shaken hands agree. -/
theorem Network.agreed_handshake {clientPort clientPeer serverPort serverPeer : BitVec 16}
    {clientTag clientTsn serverTag serverTsn : BitVec 32} {net : Network}
    (h : handshake crc32c (.newClient clientPort clientPeer clientTag clientTsn)
      (.newServer serverPort serverPeer serverTag serverTsn) = some net) (s : Side) :
    Agreed crc32c (net.get s) (net.get s.other) := by
  have hcookie := length_buildCookie serverTag clientTag serverTsn clientTsn
  have hinitAck := @Association.onPacket_init crc32c
    (.newServer serverPort serverPeer serverTag serverTsn) rfl rfl
    ((Association.newClient clientPort clientPeer clientTag clientTsn).outHeader 0#32)
    (Association.newClient clientPort clientPeer clientTag clientTsn).initChunk
  have hcookieEcho := @Association.onPacket_initAck crc32c
    ⟨.client, .cookieWait, clientPort, clientPeer, clientTag, 0#32, clientTsn, clientTsn, none,
      .initial⟩ rfl rfl
    ((Association.newServer serverPort serverPeer serverTag serverTsn).outHeader clientTag)
    { toInitChunk := (Association.newServer serverPort serverPeer serverTag serverTsn).initChunk
      stateCookie := buildCookie serverTag clientTag serverTsn clientTsn } rfl hcookie
  have hcookieAck := @Association.onPacket_cookieEcho crc32c
    ⟨.server, .closed, serverPort, serverPeer, serverTag, clientTag, serverTsn, serverTsn,
      some clientTsn, .initial⟩ rfl rfl
    ((Association.newClient clientPort clientPeer clientTag clientTsn).outHeader serverTag)
    (buildCookie serverTag clientTag serverTsn clientTsn) rfl hcookie
  by_cases hzero : clientTag = 0#32
  · rw [if_pos hzero] at hcookieAck
    rw [handshake_none rfl hinitAck hcookieEcho hcookieAck] at h
    cases h
  · rw [if_neg hzero] at hcookieAck
    have hdone := @Association.onPacket_cookieAck crc32c
      ⟨.client, .cookieEchoed, clientPort, clientPeer, clientTag, serverTag, clientTsn, clientTsn,
        some serverTsn, .initial⟩ rfl rfl
      ((Association.newServer serverPort serverPeer serverTag serverTsn).outHeader clientTag) rfl
    rw [handshake_some rfl hinitAck hcookieEcho hcookieAck hdone] at h
    cases h
    have hgreeting : ∀ {header₁ header₂ : CommonHeader} {c₁ c₂ : Chunk}, c₁.Legible → c₂.Legible →
        (∀ d, c₁ ≠ .data d) → (∀ d, c₂ ≠ .data d) → (∀ sack, c₁ ≠ .sack sack) →
        (∀ sack, c₂ ≠ .sack sack) →
        ∀ p ∈ ([⟨oneChunkPacket crc32c header₁ c₁, none⟩,
          ⟨oneChunkPacket crc32c header₂ c₂, none⟩] : List Emitted), Greeting crc32c p := by
      intro header₁ header₂ c₁ c₂ h₁ h₂ hdata₁ hdata₂ hsack₁ hsack₂ p hp
      rcases List.mem_cons.mp hp with rfl | hp
      · exact ⟨_, _, h₁, hdata₁, hsack₁, rfl⟩
      · rw [List.mem_singleton.mp hp]
        exact ⟨_, _, h₂, hdata₂, hsack₂, rfl⟩
    have hclient := @hgreeting
      ((Association.newClient clientPort clientPeer clientTag clientTsn).outHeader 0#32)
      ((Association.newClient clientPort clientPeer clientTag clientTsn).outHeader serverTag)
      _ _ (Chunk.legible_init (Association.newClient clientPort clientPeer clientTag
        clientTsn).initChunk) (Chunk.legible_cookieEcho hcookie) (fun _ => nofun) (fun _ => nofun)
      (fun _ => nofun) (fun _ => nofun)
    have hserver := @hgreeting
      ((Association.newServer serverPort serverPeer serverTag serverTsn).outHeader clientTag)
      ((Association.newServer serverPort serverPeer serverTag serverTsn).outHeader clientTag)
      _ _ (@Chunk.legible_initAck
        { toInitChunk := (Association.newServer serverPort serverPeer serverTag serverTsn).initChunk
          stateCookie := buildCookie serverTag clientTag serverTsn clientTsn } hcookie)
      Chunk.legible_cookieAck (fun _ => nofun) (fun _ => nofun) (fun _ => nofun) (fun _ => nofun)
    cases s with
    | client => exact .begin rfl rfl rfl rfl rfl rfl hserver hclient
    | server => exact .begin rfl rfl rfl rfl rfl rfl hclient hserver

/-- After a handshake each side has taken the payloads of the other in order and each once, and
acknowledges no others, whatever the network delivers at a fair time. -/
theorem inOrder_of_fair {clientPort clientPeer serverPort serverPeer : BitVec 16}
    {clientTag clientTsn serverTag serverTsn : BitVec 32} {net : Network}
    (hhandshake : Network.handshake crc32c
      (.newClient clientPort clientPeer clientTag clientTsn)
      (.newServer serverPort serverPeer serverTag serverTsn) = some net)
    {events : List Event} (hfair : net.Fairly crc32c events) (s : Side) :
    (net.run crc32c events).InOrder s :=
  Network.inOrder_of_agreed (Network.agreed_run (Network.agreed_handshake hhandshake) hfair s)

/-- A handshake ends exactly if the client's tag is not zero, with both sides established and
agreed. -/
theorem handshake_establishes (crc32c : Bytes → BitVec 32)
    (clientPort clientPeer serverPort serverPeer : BitVec 16)
    (clientTag clientTsn serverTag serverTsn : BitVec 32) :
    let reached := Network.handshake crc32c (.newClient clientPort clientPeer clientTag clientTsn)
      (.newServer serverPort serverPeer serverTag serverTsn)
    (reached.isSome ↔ clientTag ≠ 0#32) ∧ ∀ net ∈ reached, ∀ s,
      (net.get s).association.state = .established ∧
        (net.get s.other).association.peerVerificationTag =
          (net.get s).association.localVerificationTag ∧
        (net.get s).association.peerInitialTsn =
          some (net.get s.other).association.localInitialTsn := by
  refine ⟨?_, fun net hnet s => ?_⟩
  · have hcookie := length_buildCookie serverTag clientTag serverTsn clientTsn
    have hinitAck := @Association.onPacket_init crc32c
      (.newServer serverPort serverPeer serverTag serverTsn) rfl rfl
      ((Association.newClient clientPort clientPeer clientTag clientTsn).outHeader 0#32)
      (Association.newClient clientPort clientPeer clientTag clientTsn).initChunk
    have hcookieEcho := @Association.onPacket_initAck crc32c
      ⟨.client, .cookieWait, clientPort, clientPeer, clientTag, 0#32, clientTsn, clientTsn, none,
        .initial⟩ rfl rfl ⟨serverPort, serverPeer, clientTag, 0#32⟩
      ⟨(Association.newServer serverPort serverPeer serverTag serverTsn).initChunk,
        buildCookie serverTag clientTag serverTsn clientTsn⟩ rfl hcookie
    have hcookieAck := @Association.onPacket_cookieEcho crc32c
      ⟨.server, .closed, serverPort, serverPeer, serverTag, clientTag, serverTsn, serverTsn,
        some clientTsn, .initial⟩ rfl rfl ⟨clientPort, clientPeer, serverTag, 0#32⟩ _ rfl
      hcookie
    by_cases hzero : clientTag = 0#32
    · rw [if_pos hzero] at hcookieAck
      rw [Network.handshake_none rfl hinitAck hcookieEcho hcookieAck]
      simp [hzero]
    · rw [if_neg hzero] at hcookieAck
      have hdone := @Association.onPacket_cookieAck crc32c
        ⟨.client, .cookieEchoed, clientPort, clientPeer, clientTag, serverTag, clientTsn, clientTsn,
          some serverTsn, .initial⟩ rfl rfl ⟨serverPort, serverPeer, clientTag, 0#32⟩ rfl
      rw [Network.handshake_some rfl hinitAck hcookieEcho hcookieAck hdone]
      simp [hzero]
  · have hagreed := Network.agreed_handshake hnet s
    exact ⟨hagreed.established, hagreed.tag_eq, hagreed.announced⟩

end Handshake

/-- Two sides behind their handshake. -/
def greeted : Network :=
  (Network.handshake castagnoli (.newClient 10000#16 20000#16 0x11111111#32 1000#32)
    (.newServer 20000#16 10000#16 0x22222222#32 5000#32)).getD ⟨⟨.newClient 0 0 0 0, [], []⟩,
      ⟨.newServer 0 0 0 0, [], []⟩⟩

theorem greeted_handshake :
    Network.handshake castagnoli (.newClient 10000#16 20000#16 0x11111111#32 1000#32)
      (.newServer 20000#16 10000#16 0x22222222#32 5000#32) = some greeted := by
  decide +kernel

/-- Payloads both ways, one of them delivered twice, and an old greeting delivered late. -/
def shuffled : List Event :=
  [.send .client 1#16 0#32 [1#8], .send .client 1#16 0#32 [2#8, 3#8], .deliver .server 2,
    .send .server 1#16 0#32 [9#8], .deliver .server 2, .deliver .server 0, .deliver .server 3,
    .deliver .client 3, .deliver .client 2]

/-- Each side has what it was sent. -/
theorem shuffled_inOrder :
    (greeted.run castagnoli shuffled).InOrder .client ∧
      (greeted.run castagnoli shuffled).InOrder .server :=
  ⟨inOrder_of_fair greeted_handshake (by decide +kernel) .client,
    inOrder_of_fair greeted_handshake (by decide +kernel) .server⟩

/-- The first of two payloads is lost. -/
def lossy : List Event :=
  [.send .client 1#16 0#32 [1#8], .send .client 1#16 0#32 [2#8], .deliver .server 3]

/-- A side that has taken nothing takes the second payload, and acknowledges the first with it. -/
theorem lossy_not_inOrder :
    (∃ net, Network.handshake castagnoli (.newClient 10000#16 20000#16 0x11111111#32 1000#32)
      (.newServer 20000#16 10000#16 0x22222222#32 5000#32) = some net ∧
        ¬ (net.run castagnoli lossy).InOrder .server) := by
  refine ⟨greeted, greeted_handshake, fun h => ?_⟩
  have hreceived : (greeted.run castagnoli lossy).server.association.receive.receivedData =
      [[2#8]] := by
    decide +kernel
  have hpayloads : (greeted.run castagnoli lossy).client.payloads = [[1#8], [2#8]] := by
    decide +kernel
  generalize greeted.run castagnoli lossy = net at h hreceived hpayloads
  rcases h.taken with ⟨n, -, hdata, -⟩
  change net.server.association.receive.receivedData = net.client.payloads.take n at hdata
  rw [hreceived, hpayloads] at hdata
  rcases n with _ | n
  · cases hdata
  · cases hdata

end Sctp
end Vaco
