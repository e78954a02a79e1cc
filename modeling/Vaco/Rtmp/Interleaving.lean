import Vaco.Rtmp.Receiving

/-!
# Interleaved messages

Each message is cut into chunks on its chunk stream, and the chunks of different chunk streams are
sent in any order.  The receiver gives out each message when its last chunk is there, exactly when
every length fits the 24 bits that a header has for it.

Main results:

- `Dechunker.receive_length_lt`: how long messages get.
- `received_iff_short`: when exactly the sent messages come out.
-/

namespace Vaco
namespace Rtmp

open Library BitStream ByteWords
open Vaco.Core (Byte)
open Sched (Budget Limits)

/-! ## The chunks of a message -/

/-- A chunk with the message that it belongs to, and whether it is its first or its last one. -/
structure SentChunk where
  chunk : WireChunk
  message : RtmpMessage
  first : Bool
  last : Bool

def chunksFrom (msg : RtmpMessage) (csid chunkSize : Nat) : Nat → Bool → Bytes → List SentChunk
  | 0, _, _ => []
  | fuel + 1, first, payload =>
      if payload ≠ [] ∨ (first = true ∧ msg.payload = []) then
        { chunk :=
            { csid := csid
              header :=
                if first then
                  .type0 (min msg.timestamp extendedTimestamp) msg.payload.length msg.messageTypeId
                    msg.messageStreamId
                else
                  .type3
              extended := if extendedTimestamp ≤ msg.timestamp then some msg.timestamp else none
              payload := payload.take chunkSize }
          message := msg
          first := first
          last := decide (payload.length ≤ chunkSize) } ::
          chunksFrom msg csid chunkSize fuel false (payload.drop chunkSize)
      else
        []

/-- The chunks of a message. -/
def sentChunks (chunkSize : Nat) (csid : Nat) (msg : RtmpMessage) : List SentChunk :=
  chunksFrom msg csid (max chunkSize 1) (msg.payload.length + 1) true msg.payload

theorem chunkFrom_eq {msg : RtmpMessage} {csid chunkSize : Nat} (hlow : 2 ≤ csid)
    (hhigh : csid ≤ 65599) (fuel : Nat) (first : Bool) (payload : Bytes) :
    chunkFrom msg csid chunkSize fuel first payload =
      .ok (wireBytes ((chunksFrom msg csid chunkSize fuel first payload).map SentChunk.chunk)) := by
  induction fuel generalizing first payload with
  | zero => rfl
  | succ fuel ih =>
      rw [chunkFrom, chunksFrom]
      split
      · rw [ih, encodeBasicHeader_eq (by cases first <;> decide) hlow hhigh]
        dsimp only
        rw [List.map_cons, wireBytes, wireBytes, List.flatMap_cons, WireChunk.bytes,
          WireChunk.head]
        cases first with
        | true =>
            by_cases hextended : extendedTimestamp ≤ msg.timestamp
            · simp [hextended, MessageHeader.fmt]
            · simp [hextended, MessageHeader.fmt]
        | false =>
            by_cases hextended : extendedTimestamp ≤ msg.timestamp
            · simp [hextended, MessageHeader.fmt, MessageHeader.encode]
            · simp [hextended, MessageHeader.fmt, MessageHeader.encode]
      · rfl

/-- A message as its chunks. -/
theorem chunkMessage_eq {msg : RtmpMessage} {csid chunkSize : Nat} (hlow : 2 ≤ csid)
    (hhigh : csid ≤ 65599) (hlen : msg.payload.length < 2 ^ 32) :
    chunkMessage msg csid chunkSize =
      .ok (wireBytes ((sentChunks chunkSize csid msg).map SentChunk.chunk)) := by
  rw [chunkMessage, if_neg (not_le.mpr hlen), sentChunks, chunkFrom_eq hlow hhigh]

theorem chunkMessage_ok {msg : RtmpMessage} {csid chunkSize : Nat} {wire : Bytes}
    (h : chunkMessage msg csid chunkSize = .ok wire) :
    2 ≤ csid ∧ csid ≤ 65599 ∧ msg.payload.length < 2 ^ 32 := by
  rw [chunkMessage] at h
  split at h
  · cases h
  · rename_i hlen
    have hfirst : msg.payload ≠ [] ∨ (true = true ∧ msg.payload = []) := by
      by_cases hempty : msg.payload = []
      · exact .inr ⟨rfl, hempty⟩
      · exact .inl hempty
    rw [chunkFrom, if_pos hfirst, encodeBasicHeader, if_neg (by decide)] at h
    split at h
    · cases h
    · rename_i hbasic
      split at hbasic
      · cases hbasic
      · split at hbasic
        · exact ⟨by omega, by omega, by omega⟩
        · cases hbasic

/-- The chunks of one chunk stream. -/
def onStream (csid : Nat) (wire : List SentChunk) : List SentChunk :=
  wire.filter fun c => c.chunk.csid == csid

/-- The messages of one chunk stream. -/
def messagesOn (csid : Nat) (sent : List (Nat × RtmpMessage)) : List RtmpMessage :=
  (sent.filter fun m => m.1 == csid).map Prod.snd

/-- The chunks of each chunk stream are those of its messages, one message after the other. -/
def Interleaves (chunkSize : Nat) (sent : List (Nat × RtmpMessage)) (wire : List SentChunk) :
    Prop :=
  ∀ csid, onStream csid wire = (messagesOn csid sent).flatMap (sentChunks chunkSize csid)

theorem onStream_cons_self (c : SentChunk) (wire : List SentChunk) :
    onStream c.chunk.csid (c :: wire) = c :: onStream c.chunk.csid wire :=
  List.filter_cons_of_pos (beq_self_eq_true _)

theorem onStream_cons_of_ne {c : SentChunk} {csid : Nat} (h : csid ≠ c.chunk.csid)
    (wire : List SentChunk) : onStream csid (c :: wire) = onStream csid wire :=
  List.filter_cons_of_neg fun heq => h (beq_iff_eq.mp heq).symm

def RoomFor (limits : Limits) : Nat → List SentChunk → Prop
  | _, [] => True
  | inFlight, c :: wire =>
      (c.first = true → c.message.payload.length ≤ limits.maxAllocSingle ∧
        inFlight + c.message.payload.length ≤ limits.maxAllocTotal) ∧
        RoomFor limits
          (inFlight + (if c.first then c.message.payload.length else 0) -
            (if c.last then c.message.payload.length else 0)) wire

/-! ## What is still to be sent -/

/-- A message whose fields a header can say. -/
structure Short (msg : RtmpMessage) : Prop where
  length_lt : msg.payload.length < 2 ^ 24
  timestamp_lt : msg.timestamp < 2 ^ 32
  messageStreamId_lt : msg.messageStreamId < 2 ^ 32

/-- The chunks still to be sent on a chunk stream, those of the message in progress first. -/
inductive Upcoming (chunkSize csid : Nat) : PeerStream → List SentChunk → Prop where
  | idle {p : PeerStream} {msgs : List RtmpMessage} (hsending : p.sending = none)
      (hshort : ∀ msg ∈ msgs, Short msg) :
      Upcoming chunkSize csid p (msgs.flatMap (sentChunks chunkSize csid))
  | busy {p : PeerStream} {msg : RtmpMessage} {sent fuel : Nat} {msgs : List RtmpMessage}
      (hsending : p.sending =
        some ({ msg with payload := msg.payload.take sent }, msg.payload.length - sent))
      (hsent : sent < msg.payload.length) (hfuel : msg.payload.length - sent ≤ fuel)
      (hextended : p.extendedTimestampInEffect = decide (extendedTimestamp ≤ msg.timestamp))
      (hmsg : Short msg) (hshort : ∀ msg ∈ msgs, Short msg) :
      Upcoming chunkSize csid p
        (chunksFrom msg csid (max chunkSize 1) fuel false (msg.payload.drop sent) ++
          msgs.flatMap (sentChunks chunkSize csid))

structure Sending (chunkSize csid : Nat) (p : PeerStream) (c : SentChunk) (todo : List SentChunk) :
    Prop where
  csid_eq : c.chunk.csid = csid
  allows : p.Allows c.chunk
  length_eq : c.chunk.payload.length = min (p.due c.chunk) chunkSize
  first_eq : c.first = !p.sending.isSome
  due_eq : c.first = true → p.due c.chunk = c.message.payload.length
  sent_eq : (p.send c.chunk).2 = if c.last then some c.message else none
  upcoming : Upcoming chunkSize csid (p.send c.chunk).1 todo

/-- A chunk with the next bytes of a message leaves the rest of it. -/
theorem PeerStream.send_next {p : PeerStream} {c : WireChunk} {msg : RtmpMessage}
    {sent chunkSize : Nat}
    (hmessage : p.message c = { msg with payload := msg.payload.take sent })
    (hdue : p.due c = msg.payload.length - sent)
    (hpayload : c.payload = (msg.payload.drop sent).take chunkSize) :
    p.send c =
      if msg.payload.length - sent ≤ chunkSize then
        (⟨p.commit c.header c.extended (p.meaning c), none⟩, some msg)
      else
        (⟨p.commit c.header c.extended (p.meaning c),
          some ({ msg with payload := msg.payload.take (sent + chunkSize) },
            msg.payload.length - (sent + chunkSize))⟩, none) := by
  have hlen : c.payload.length = min chunkSize (msg.payload.length - sent) := by
    rw [hpayload, List.length_take, List.length_drop]
  have hextended : p.extendedBy c =
      { msg with payload := msg.payload.take (sent + chunkSize) } := by
    rw [extendedBy, hmessage, hpayload, ← List.take_add]
  rw [send, hextended, hdue, hlen]
  split
  · rename_i hdone
    rw [if_pos (by omega), List.take_of_length_le (by omega)]
  · rename_i hmore
    rw [if_neg (by omega), min_eq_left (by omega), Nat.sub_add_eq]

theorem chunksFrom_nil (msg : RtmpMessage) (csid chunkSize fuel : Nat) :
    chunksFrom msg csid chunkSize fuel false [] = [] := by
  cases fuel with
  | zero => rfl
  | succ fuel =>
      rw [chunksFrom, if_neg]
      rintro (hne | ⟨hfalse, -⟩)
      · exact hne rfl
      · exact Bool.false_ne_true hfalse

section Next

variable {chunkSize csid : Nat} {msg : RtmpMessage} {msgs : List RtmpMessage} {sent fuel : Nat}

/-- What is still to be sent behind a chunk of a message. -/
theorem Upcoming.rest (hsize : 1 ≤ chunkSize) {last : LastHeader}
    (hfuel : msg.payload.length - (sent + chunkSize) ≤ fuel)
    (hextended : last.extendedTimestampInEffect = decide (extendedTimestamp ≤ msg.timestamp))
    (hmsg : Short msg) (hshort : ∀ msg ∈ msgs, Short msg) :
    Upcoming chunkSize csid
      (if msg.payload.length - sent ≤ chunkSize then
        ((⟨last, none⟩, some msg) : PeerStream × Option RtmpMessage)
      else
        (⟨last, some ({ msg with payload := msg.payload.take (sent + chunkSize) },
          msg.payload.length - (sent + chunkSize))⟩, none)).1
      (chunksFrom msg csid (max chunkSize 1) fuel false
        ((msg.payload.drop sent).drop (max chunkSize 1)) ++
          msgs.flatMap (sentChunks chunkSize csid)) := by
  rw [max_eq_left hsize]
  split
  · rw [List.drop_drop, List.drop_of_length_le (by omega), chunksFrom_nil, List.nil_append]
    exact .idle rfl hshort
  · have hbusy : Upcoming chunkSize csid
        ⟨last, some ({ msg with payload := msg.payload.take (sent + chunkSize) },
          msg.payload.length - (sent + chunkSize))⟩ _ :=
      .busy rfl (by omega) hfuel hextended hmsg hshort
    rw [max_eq_left hsize] at hbusy
    rw [List.drop_drop]
    exact hbusy

/-- A chunk that goes on with a message where it is. -/
theorem Sending.of_next (hsize : 1 ≤ chunkSize) {p : PeerStream} {c : WireChunk} {first : Bool}
    (hcsid : c.csid = csid) (hallows : p.Allows c)
    (hmessage : p.message c = { msg with payload := msg.payload.take sent })
    (hdue : p.due c = msg.payload.length - sent)
    (hpayload : c.payload = (msg.payload.drop sent).take (max chunkSize 1))
    (hfirst : first = !p.sending.isSome) (hsent : first = true → sent = 0)
    (hextended : p.readsExtended c.header = decide (extendedTimestamp ≤ msg.timestamp))
    (hfuel : msg.payload.length - (sent + chunkSize) ≤ fuel) (hmsg : Short msg)
    (hshort : ∀ msg ∈ msgs, Short msg) :
    Sending chunkSize csid p
      ⟨c, msg, first, decide ((msg.payload.drop sent).length ≤ max chunkSize 1)⟩
      (chunksFrom msg csid (max chunkSize 1) fuel false
        ((msg.payload.drop sent).drop (max chunkSize 1)) ++
          msgs.flatMap (sentChunks chunkSize csid)) := by
  have hmax : max chunkSize 1 = chunkSize := max_eq_left hsize
  have hsend := p.send_next hmessage hdue (hpayload.trans (by rw [hmax]))
  refine ⟨hcsid, hallows, ?_, hfirst, ?_, ?_, ?_⟩
  · rw [hpayload, hdue, List.length_take, List.length_drop, hmax, min_comm]
  · intro hbegins
    rw [hdue, hsent hbegins, Nat.sub_zero]
  · rw [hsend, List.length_drop, hmax]
    by_cases hdone : msg.payload.length - sent ≤ chunkSize
    · rw [if_pos hdone, if_pos (decide_eq_true hdone)]
    · rw [if_neg hdone, if_neg (by rw [decide_eq_true_eq]; exact hdone)]
  · rw [hsend]
    exact Upcoming.rest hsize hfuel hextended hmsg hshort

theorem extended_eq (hmsg : Short msg) :
    (if extendedTimestamp ≤ msg.timestamp then some msg.timestamp else none).isSome =
        decide (extendedTimestamp ≤ msg.timestamp) ∧
      ∀ value, (if extendedTimestamp ≤ msg.timestamp then some msg.timestamp else none) =
        some value → value < 2 ^ 32 := by
  by_cases hextended : extendedTimestamp ≤ msg.timestamp
  · rw [if_pos hextended, decide_eq_true hextended]
    refine ⟨rfl, fun value hvalue => ?_⟩
    cases hvalue
    exact hmsg.timestamp_lt
  · rw [if_neg hextended, decide_eq_false hextended]
    exact ⟨rfl, fun value hvalue => nomatch hvalue⟩

/-- The first chunk of a message. -/
theorem Sending.begin (hsize : 1 ≤ chunkSize) (hlow : 2 ≤ csid) (hhigh : csid ≤ 65599)
    {p : PeerStream} (hsending : p.sending = none) (hmsg : Short msg)
    (hshort : ∀ msg ∈ msgs, Short msg) :
    ∃ c todo, (msg :: msgs).flatMap (sentChunks chunkSize csid) = c :: todo ∧
      Sending chunkSize csid p c todo := by
  have hfirst : msg.payload ≠ [] ∨ (true = true ∧ msg.payload = []) := by
    by_cases hempty : msg.payload = []
    · exact .inr ⟨rfl, hempty⟩
    · exact .inl hempty
  have hread : (min msg.timestamp extendedTimestamp == extendedTimestamp) =
      decide (extendedTimestamp ≤ msg.timestamp) := by
    by_cases hextended : extendedTimestamp ≤ msg.timestamp
    · rw [min_eq_right hextended, decide_eq_true hextended]
      rfl
    · rw [min_eq_left (le_of_not_ge hextended), decide_eq_false hextended]
      exact beq_eq_false_iff_ne.mpr (Nat.ne_of_lt (not_le.mp hextended))
  have htimestamp : (if extendedTimestamp ≤ msg.timestamp then some msg.timestamp else none).getD
      (min msg.timestamp extendedTimestamp) = msg.timestamp := by
    split
    · rfl
    · rename_i hshort
      exact min_eq_left (le_of_not_ge hshort)
  rw [List.flatMap_cons, sentChunks, chunksFrom, if_pos hfirst, List.cons_append]
  refine ⟨_, _, rfl, @Sending.of_next _ _ _ _ 0 _ hsize _ _ _ rfl ?_ ?_ ?_ rfl ?_ (fun _ => rfl)
    hread (Nat.sub_le _ _) hmsg hshort⟩
  · refine ⟨hlow, hhigh, ⟨min_le_right _ _, hmsg.length_lt, hmsg.messageStreamId_lt⟩,
      (extended_eq hmsg).1.trans hread.symm, (extended_eq hmsg).2, fun hbusy => ?_⟩
    rw [hsending] at hbusy
    cases hbusy
  · rw [PeerStream.message, hsending]
    exact congrArg (fun timestamp => (⟨timestamp, msg.messageTypeId, msg.messageStreamId, []⟩ :
      RtmpMessage)) htimestamp
  · rw [PeerStream.due, hsending]
    rfl
  · rw [hsending]
    rfl

/-- A further chunk of a message. -/
theorem Sending.resume (hsize : 1 ≤ chunkSize) (hlow : 2 ≤ csid) (hhigh : csid ≤ 65599)
    {p : PeerStream}
    (hsending : p.sending =
      some ({ msg with payload := msg.payload.take sent }, msg.payload.length - sent))
    (hsent : sent < msg.payload.length) (hfuel : msg.payload.length - sent ≤ fuel)
    (hextended : p.extendedTimestampInEffect = decide (extendedTimestamp ≤ msg.timestamp))
    (hmsg : Short msg) (hshort : ∀ msg ∈ msgs, Short msg) :
    ∃ c todo, chunksFrom msg csid (max chunkSize 1) fuel false (msg.payload.drop sent) ++
        msgs.flatMap (sentChunks chunkSize csid) = c :: todo ∧
      Sending chunkSize csid p c todo := by
  rcases fuel with _ | fuel
  · omega
  have hnonempty : msg.payload.drop sent ≠ [] := by
    rw [Ne, List.drop_eq_nil_iff]
    exact not_le.mpr hsent
  rw [chunksFrom, if_pos (.inl hnonempty), List.cons_append]
  refine ⟨_, _, rfl, Sending.of_next hsize rfl ?_ ?_ ?_ rfl ?_ (fun h => absurd h Bool.false_ne_true)
    hextended (by omega) hmsg hshort⟩
  · exact ⟨hlow, hhigh, trivial, (extended_eq hmsg).1.trans hextended.symm, (extended_eq hmsg).2,
      fun _ => rfl⟩
  · rw [PeerStream.message, hsending]
  · rw [PeerStream.due, hsending]
  · rw [hsending]
    rfl

theorem Upcoming.next (hsize : 1 ≤ chunkSize) (hlow : 2 ≤ csid) (hhigh : csid ≤ 65599)
    {p : PeerStream} {c : SentChunk} {todo : List SentChunk}
    (h : Upcoming chunkSize csid p (c :: todo)) : Sending chunkSize csid p c todo := by
  generalize hall : c :: todo = all at h
  cases h with
  | @idle msgs hsending hshort =>
      cases msgs with
      | nil => cases hall
      | cons msg msgs =>
          rcases Sending.begin hsize hlow hhigh hsending (hshort msg List.mem_cons_self)
            (fun other hother => hshort other (List.mem_cons_of_mem _ hother)) with
            ⟨c', todo', heq, hnext⟩
          cases hall.trans heq
          exact hnext
  | busy hsending hsent hfuel hextended hmsg hshort =>
      rcases Sending.resume hsize hlow hhigh hsending hsent hfuel hextended hmsg hshort with
        ⟨c', todo', heq, hnext⟩
      cases hall.trans heq
      exact hnext

end Next

/-! ## The whole run -/

/-- The caller applies no announcement. -/
def noSize : RtmpMessage → Option Nat :=
  fun _ => none

theorem sizeBehind_noSize (size : Nat) (msgs : List RtmpMessage) :
    sizeBehind noSize size msgs = size := by
  induction msgs with
  | nil => rfl
  | cons msg msgs ih => exact ih

/-- Interleaved chunks may be sent as they are, and complete the messages in the order of their last
chunks. -/
theorem sends_of_upcoming {limits : Limits} {chunkSize : Nat} (hsize : 1 ≤ chunkSize)
    {wire : List SentChunk} {peer : Peer}
    (hcsid : ∀ c ∈ wire, 2 ≤ c.chunk.csid ∧ c.chunk.csid ≤ 65599)
    (hupcoming : ∀ csid, Upcoming chunkSize csid (peer.streams csid) (onStream csid wire))
    (hroom : RoomFor limits peer.inFlight wire) :
    peer.Sends limits noSize chunkSize (wire.map SentChunk.chunk) ∧
      peer.messages (wire.map SentChunk.chunk) =
        (wire.filter SentChunk.last).map SentChunk.message := by
  induction wire generalizing peer with
  | nil => exact ⟨trivial, rfl⟩
  | cons c wire ih =>
      rcases hcsid c List.mem_cons_self with ⟨hlow, hhigh⟩
      have hthis := hupcoming c.chunk.csid
      rw [onStream_cons_self] at hthis
      have hnext := hthis.next hsize hlow hhigh
      have hbegins : (if (peer.streams c.chunk.csid).sending.isSome then 0
          else (peer.streams c.chunk.csid).due c.chunk) =
          if c.first then c.message.payload.length else 0 := by
        have hfirst := hnext.first_eq
        have hdue := hnext.due_eq
        cases hbusy : (peer.streams c.chunk.csid).sending.isSome with
        | true =>
            rw [hbusy] at hfirst
            rw [hfirst]
            rfl
        | false =>
            rw [hbusy] at hfirst
            rw [hdue hfirst, hfirst]
            rfl
      have hends : (((peer.streams c.chunk.csid).send c.chunk).2.map
          fun msg => msg.payload.length).getD 0 =
          if c.last then c.message.payload.length else 0 := by
        rw [hnext.sent_eq]
        cases c.last <;> rfl
      have hinFlight : (peer.send c.chunk).1.inFlight = peer.inFlight +
          (if c.first then c.message.payload.length else 0) -
            (if c.last then c.message.payload.length else 0) := by
        rw [Peer.send]
        dsimp only
        rw [hbegins, hends]
      have hothers : ∀ csid, Upcoming chunkSize csid ((peer.send c.chunk).1.streams csid)
          (onStream csid wire) := by
        intro csid
        rw [Peer.send]
        dsimp only
        by_cases heq : csid = c.chunk.csid
        · rw [heq, Function.update_self]
          exact hnext.upcoming
        · have hother := hupcoming csid
          rw [onStream_cons_of_ne heq] at hother
          rw [Function.update_of_ne heq]
          exact hother
      rcases hroom with ⟨hfits, hroom⟩
      rw [← hinFlight] at hroom
      rcases ih (fun c hc => hcsid c (List.mem_cons_of_mem _ hc)) hothers hroom with
        ⟨hsends, hmessages⟩
      refine ⟨⟨hnext.allows, ?_, hnext.length_eq, ?_⟩, ?_⟩
      · intro hsending
        have hfirst : c.first = true := by
          rw [hnext.first_eq, hsending]
          rfl
        rw [hnext.due_eq hfirst]
        exact hfits hfirst
      · rw [sizeBehind_noSize]
        exact hsends
      · rw [List.map_cons, Peer.messages, hmessages, Peer.send]
        dsimp only
        rw [hnext.sent_eq]
        cases hlast : c.last with
        | true =>
            rw [List.filter_cons_of_pos hlast]
            rfl
        | false =>
            rw [List.filter_cons_of_neg (by rw [hlast]; exact Bool.false_ne_true)]
            rfl

section OneSize

variable {limits : Limits} {chunkSize : Nat}

theorem aligned_noSize {peer : Peer} {cs : List WireChunk}
    (h : peer.Sends limits noSize chunkSize cs) (available : Nat) :
    peer.Aligned chunkSize cs available := by
  induction cs generalizing peer available with
  | nil => trivial
  | cons c cs ih =>
      rcases h with ⟨-, -, hlen, hrest⟩
      rw [sizeBehind_noSize] at hrest
      intro _
      refine ⟨?_, ih hrest _⟩
      rw [Peer.readLength, WireChunk.bytes, List.length_append, hlen]

theorem wholeChunks_drop_taken {peer : Peer} {cs : List WireChunk}
    (h : peer.Sends limits noSize chunkSize cs) (available : Nat) :
    wholeChunks (cs.drop (peer.taken chunkSize cs available))
        (available - (wireBytes (cs.take (peer.taken chunkSize cs available))).length) = [] := by
  induction cs generalizing peer available with
  | nil => rfl
  | cons c cs ih =>
      rcases h with ⟨-, -, hlen, hrest⟩
      rw [sizeBehind_noSize] at hrest
      have hread : peer.readLength chunkSize c = c.bytes.length := by
        rw [Peer.readLength, WireChunk.bytes, List.length_append, hlen]
      rw [Peer.taken, hread]
      split
      · rw [List.take_succ_cons, List.drop_succ_cons, length_wireBytes_cons, Nat.sub_add_eq]
        exact ih hrest _
      · rename_i hpart
        rw [List.drop_zero, wholeChunks, if_neg]
        exact fun hle => hpart (hle.trans (Nat.sub_le _ _))

theorem timely_noSize {segments : List Bytes} {peer : Peer} {cs : List WireChunk} {held : Nat}
    (h : peer.Sends limits noSize chunkSize cs) (hheld : wholeChunks cs held = []) :
    peer.Timely noSize chunkSize cs held segments := by
  induction segments generalizing peer cs held with
  | nil => exact hheld
  | cons data segments ih =>
      have hsends : (peer.after (cs.take (peer.taken chunkSize cs (held + data.length)))).Sends
          limits noSize chunkSize (cs.drop (peer.taken chunkSize cs (held + data.length))) := by
        have hrest := h.drop (peer.taken chunkSize cs (held + data.length))
        rw [sizeBehind_noSize] at hrest
        exact hrest
      refine ⟨aligned_noSize h _, ?_⟩
      rw [sizeBehind_noSize]
      exact ih hsends (wholeChunks_drop_taken h _)

theorem wholeChunks_all (cs : List WireChunk) :
    wholeChunks cs (wireBytes cs).length = cs := by
  induction cs with
  | nil => rfl
  | cons c cs ih =>
      rw [length_wireBytes_cons, wholeChunks, if_pos (Nat.le_add_right _ _),
        Nat.add_sub_cancel_left, ih]

theorem wholeChunks_zero (cs : List WireChunk) : wholeChunks cs 0 = [] := by
  cases cs with
  | nil => rfl
  | cons c cs =>
      have hhead := c.length_head_pos
      rw [wholeChunks, if_neg]
      rw [WireChunk.bytes, List.length_append]
      omega

end OneSize

/-- No message that comes out of a connection is longer than 24 bits can say. -/
theorem Dechunker.receive_length_lt {announced : RtmpMessage → Option Nat} {segments : List Bytes}
    {d d' : Dechunker} {msgs : List RtmpMessage} (h : d.Bounded)
    (hreceive : d.receive announced segments = .ok (d', msgs)) :
    ∀ msg ∈ msgs, msg.payload.length < 2 ^ 24 := by
  induction segments generalizing d msgs with
  | nil =>
      cases hreceive
      intro msg hmsg
      cases hmsg
  | cons data segments ih =>
      rw [receive] at hreceive
      split at hreceive
      · cases hreceive
      · rename_i d₁ first hfeed
        rcases feed_length_lt h hfeed with ⟨hbounded, hfirst⟩
        split at hreceive
        · cases hreceive
        · rename_i d₂ more hmore
          cases hreceive
          intro msg hmsg
          rcases List.mem_append.mp hmsg with hmsg | hmsg
          · exact hfirst msg hmsg
          · refine ih ?_ hmore msg hmsg
            exact ⟨hbounded.length_lt, hbounded.declared_lt⟩

/-- A message has a last chunk. -/
theorem exists_last (msg : RtmpMessage) (chunkSize csid : Nat) :
    ∃ c ∈ sentChunks chunkSize csid msg, c.last = true ∧ c.message = msg := by
  have hfrom : ∀ fuel (first : Bool) (payload : Bytes), payload.length < fuel →
      (payload ≠ [] ∨ (first = true ∧ msg.payload = [])) →
      ∃ c ∈ chunksFrom msg csid (max chunkSize 1) fuel first payload,
        c.last = true ∧ c.message = msg := by
    intro fuel
    induction fuel with
    | zero => exact fun first payload hfuel => absurd hfuel (Nat.not_lt_zero _)
    | succ fuel ih =>
        intro first payload hfuel hsome
        rw [chunksFrom, if_pos hsome]
        by_cases hlast : payload.length ≤ max chunkSize 1
        · exact ⟨_, List.mem_cons_self, decide_eq_true hlast, rfl⟩
        · have hsize : 1 ≤ max chunkSize 1 := le_max_right _ _
          have hmore : payload.drop (max chunkSize 1) ≠ [] := by
            rw [Ne, List.drop_eq_nil_iff]
            exact hlast
          rcases ih false (payload.drop (max chunkSize 1)) (by rw [List.length_drop]; omega)
            (.inl hmore) with ⟨c, hmem, hc⟩
          exact ⟨c, List.mem_cons_of_mem _ hmem, hc⟩
  refine hfrom _ _ _ (Nat.lt_succ_self _) ?_
  by_cases hempty : msg.payload = []
  · exact .inr ⟨rfl, hempty⟩
  · exact .inl hempty

theorem Interleaves.exists_message {chunkSize : Nat} {sent : List (Nat × RtmpMessage)}
    {wire : List SentChunk} (h : Interleaves chunkSize sent wire) {c : SentChunk} (hc : c ∈ wire) :
    ∃ m ∈ sent, m.1 = c.chunk.csid := by
  have hmem : c ∈ onStream c.chunk.csid wire :=
    List.mem_filter.mpr ⟨hc, beq_self_eq_true _⟩
  rw [h c.chunk.csid] at hmem
  rcases List.mem_flatMap.mp hmem with ⟨msg, hmsg, -⟩
  rcases List.mem_map.mp hmsg with ⟨m, hm, -⟩
  rcases List.mem_filter.mp hm with ⟨hm, heq⟩
  exact ⟨m, hm, beq_iff_eq.mp heq⟩

theorem Interleaves.completes {chunkSize : Nat} {sent : List (Nat × RtmpMessage)}
    {wire : List SentChunk} (h : Interleaves chunkSize sent wire) {m : Nat × RtmpMessage}
    (hm : m ∈ sent) : m.2 ∈ (wire.filter SentChunk.last).map SentChunk.message := by
  rcases exists_last m.2 chunkSize m.1 with ⟨c, hc, hlast, hmessage⟩
  have hon : c ∈ onStream m.1 wire := by
    rw [h m.1]
    refine List.mem_flatMap.mpr ⟨m.2, ?_, hc⟩
    exact List.mem_map_of_mem (List.mem_filter.mpr ⟨hm, beq_self_eq_true m.1⟩)
  exact List.mem_map.mpr ⟨c, List.mem_filter.mpr ⟨(List.mem_filter.mp hon).1, hlast⟩, hmessage⟩

/-- Every interleaving in any segments gives exactly the accepted messages, in order of completion,
when and only when each of them is shorter than 24 bits can say. -/
theorem received_iff_short (limits : Limits) {chunkSize : Nat} (hsize : 1 ≤ chunkSize)
    (sent : List (Nat × RtmpMessage))
    (haccepted : ∀ m ∈ sent, ∃ bytes, chunkMessage m.2 m.1 chunkSize = .ok bytes)
    (hfields : ∀ m ∈ sent, m.2.timestamp < 2 ^ 32 ∧ m.2.messageStreamId < 2 ^ 32)
    (wire : List SentChunk) (hwire : Interleaves chunkSize sent wire)
    (hroom : RoomFor limits 0 wire) (segments : List Bytes)
    (hsegments : segments.flatten = wireBytes (wire.map SentChunk.chunk)) :
    (∀ m ∈ sent, chunkMessage m.2 m.1 chunkSize =
      .ok (wireBytes ((sentChunks chunkSize m.1 m.2).map SentChunk.chunk))) ∧
    ((((Dechunker.new limits).setChunkSize chunkSize).receive noSize segments).map Prod.snd =
        .ok ((wire.filter SentChunk.last).map SentChunk.message) ↔
      ∀ m ∈ sent, m.2.payload.length < 2 ^ 24) := by
  refine ⟨fun m hm => ?_, fun hreceived m hm => ?_, fun hshort => ?_⟩
  · rcases haccepted m hm with ⟨bytes, hbytes⟩
    rcases chunkMessage_ok hbytes with ⟨hlow, hhigh, hlen⟩
    exact chunkMessage_eq hlow hhigh hlen
  · cases hrun : ((Dechunker.new limits).setChunkSize chunkSize).receive noSize segments with
    | error e =>
        rw [hrun] at hreceived
        cases hreceived
    | ok result =>
        rw [hrun] at hreceived
        have hbounded : ((Dechunker.new limits).setChunkSize chunkSize).Bounded :=
          ⟨(Dechunker.bounded_new limits).length_lt, (Dechunker.bounded_new limits).declared_lt⟩
        have hmem := hwire.completes hm
        rw [← Except.ok.inj hreceived] at hmem
        exact Dechunker.receive_length_lt hbounded hrun m.2 hmem
  · have hcsid : ∀ c ∈ wire, 2 ≤ c.chunk.csid ∧ c.chunk.csid ≤ 65599 := by
      intro c hc
      rcases hwire.exists_message hc with ⟨m, hm, heq⟩
      rcases haccepted m hm with ⟨bytes, hbytes⟩
      rcases chunkMessage_ok hbytes with ⟨hlow, hhigh, -⟩
      rw [← heq]
      exact ⟨hlow, hhigh⟩
    have hupcoming : ∀ csid, Upcoming chunkSize csid (Peer.initial.streams csid)
        (onStream csid wire) := by
      intro csid
      rw [hwire csid]
      refine .idle rfl fun msg hmsg => ?_
      rcases List.mem_map.mp hmsg with ⟨m, hm, rfl⟩
      have hm := (List.mem_filter.mp hm).1
      exact ⟨hshort m hm, (hfields m hm).1, (hfields m hm).2⟩
    rcases sends_of_upcoming hsize hcsid hupcoming hroom with ⟨hsends, hmessages⟩
    have hholds : Holds limits ((Dechunker.new limits).setChunkSize chunkSize) .initial :=
      { header_eq := (holds_new limits).header_eq
        matched := (holds_new limits).matched
        limits_eq := rfl
        pending_eq := rfl
        inFlight_le := (holds_new limits).inFlight_le
        accounted := (holds_new limits).accounted }
    have hdata : (wireBytes (wire.map SentChunk.chunk)).drop 0 = segments.flatten ++ [] := by
      rw [List.drop_zero, List.append_nil, hsegments]
    rcases Dechunker.receive_eq hholds hsends (timely_noSize hsends (wholeChunks_zero _))
      (Nat.zero_le _) rfl hdata with ⟨d', hreceive⟩
    rw [hreceive, hsegments, Nat.zero_add, wholeChunks_all, hmessages]
    rfl

/-- A message of three bytes with an extended timestamp, one of none, and another one, on two chunk
streams. -/
def mixed : List (Nat × RtmpMessage) :=
  [(3, ⟨0x1000000, 9#8, 1, [1#8, 2#8, 3#8]⟩), (400, ⟨7, 8#8, 1, []⟩), (3, ⟨5, 9#8, 1, [4#8]⟩)]

/-- The chunks of these messages, with the empty one in the middle of the first one. -/
def mixedWire : List SentChunk :=
  let first := sentChunks 2 3 ⟨0x1000000, 9#8, 1, [1#8, 2#8, 3#8]⟩
  first.take 1 ++ sentChunks 2 400 ⟨7, 8#8, 1, []⟩ ++ first.drop 1 ++
    sentChunks 2 3 ⟨5, 9#8, 1, [4#8]⟩

theorem mixedWire_interleaves : Interleaves 2 mixed mixedWire := by
  intro csid
  by_cases hfirst : csid = 3
  · rw [hfirst]
    rfl
  · by_cases hsecond : csid = 400
    · rw [hsecond]
      rfl
    · have hthree : ¬ (3 == csid) = true := fun h => hfirst (beq_iff_eq.mp h).symm
      have hfour : ¬ (400 == csid) = true := fun h => hsecond (beq_iff_eq.mp h).symm
      simp [onStream, messagesOn, mixed, mixedWire, sentChunks, chunksFrom, hthree, hfour]

/-- They come out in the order in which they are complete. -/
theorem mixed_received :
    (∀ m ∈ mixed, chunkMessage m.2 m.1 2 =
      .ok (wireBytes ((sentChunks 2 m.1 m.2).map SentChunk.chunk))) ∧
    ((((Dechunker.new ample).setChunkSize 2).receive noSize
        [wireBytes (mixedWire.map SentChunk.chunk)]).map Prod.snd =
        .ok ((mixedWire.filter SentChunk.last).map SentChunk.message) ↔
      ∀ m ∈ mixed, m.2.payload.length < 2 ^ 24) :=
  received_iff_short ample (by decide) mixed
    (by
      intro m hm
      rcases List.mem_cons.mp hm with rfl | hm
      · exact ⟨_, rfl⟩
      · rcases List.mem_cons.mp hm with rfl | hm
        · exact ⟨_, rfl⟩
        · rw [List.mem_singleton.mp hm]
          exact ⟨_, rfl⟩)
    (by decide) mixedWire mixedWire_interleaves
    ⟨fun _ => by decide, fun _ => by decide, fun h => absurd h (by decide),
      fun _ => by decide, trivial⟩
    [wireBytes (mixedWire.map SentChunk.chunk)] (List.append_nil _)

/-- A message that is a byte too long for 24 bits. -/
def long : RtmpMessage where
  timestamp := 0
  messageTypeId := 9#8
  messageStreamId := 1
  payload := List.replicate (2 ^ 24) 0#8

/-- Limits that leave room for it. -/
def spacious : Limits where
  maxAllocTotal := 2 ^ 30
  maxAllocSingle := 2 ^ 30
  total_le := Nat.le_of_ble_eq_true rfl

/-- A message that is too long is accepted, and there is room for it, but it never comes out. -/
theorem long_lost :
    (∃ bytes, chunkMessage long 3 128 = .ok bytes) ∧
      long.payload.length ≤ spacious.maxAllocSingle ∧
        ∀ bytes, chunkMessage long 3 128 = .ok bytes →
          ((Dechunker.new spacious).feed bytes).map Prod.snd ≠ .ok [long] := by
  have hlen : long.payload.length = 2 ^ 24 := List.length_replicate
  refine ⟨⟨_, chunkMessage_eq (by decide) (by decide) (by rw [hlen]; decide)⟩, ?_, ?_⟩
  · rw [hlen]
    decide
  · intro bytes _ hreceived
    cases hfeed : (Dechunker.new spacious).feed bytes with
    | error e =>
        rw [hfeed] at hreceived
        cases hreceived
    | ok result =>
        rw [hfeed] at hreceived
        have hshort := (Dechunker.feed_length_lt (Dechunker.bounded_new spacious) hfeed).2
        rw [Except.ok.inj hreceived] at hshort
        have hlt := hshort long (List.mem_singleton_self _)
        rw [hlen] at hlt
        exact Nat.lt_irrefl _ hlt

end Rtmp
end Vaco
