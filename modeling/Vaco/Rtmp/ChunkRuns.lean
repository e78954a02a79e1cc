import Mathlib.Algebra.Order.BigOperators.Group.Finset
import Vaco.Rtmp.Dechunker

/-!
# Chunk streams on the wire

A peer sends chunks on any chunk streams, each chunk going on with the message of its stream or
beginning one.  What the messages are follows from the chunks alone; the receiver finds the same
messages, chunk by chunk, however the bytes arrive, as long as it cuts the chunks where the peer
did.

Main results:

- `Peer.send`: what one chunk does to what a peer has sent.
- `Dechunker.tryTakeOne_part`: a part of a chunk is left in the buffer.

Current gaps:

- A chunk that begins a message in the middle of another one of its stream is not sent.
-/

namespace Vaco
namespace Rtmp

open Library BitStream ByteWords
open Vaco.Core (Byte)
open Sched (Budget LimitError Limits)

/-! ## What a peer sends -/

/-- One chunk. -/
structure WireChunk where
  csid : Nat
  header : MessageHeader
  extended : Option Nat
  payload : Bytes
deriving DecidableEq

namespace WireChunk

/-- The bytes in front of the payload. -/
def head (c : WireChunk) : Bytes :=
  basicHeaderBytes c.header.fmt c.csid ++ (c.header.encode ++ (c.extended.map (beBytes 4)).getD [])

/-- The bytes of a chunk. -/
def bytes (c : WireChunk) : Bytes :=
  c.head ++ c.payload

theorem length_head_pos (c : WireChunk) : 0 < c.head.length := by
  rw [head, List.length_append]
  exact Nat.add_pos_left (length_basicHeaderBytes_pos _ _) _

end WireChunk

/-- The last header sent on a chunk stream, and the message in progress with its bytes to come. -/
structure PeerStream extends LastHeader where
  sending : Option (RtmpMessage × Nat)
deriving DecidableEq

namespace PeerStream

/-- A chunk stream on which nothing has been sent. -/
def initial : PeerStream where
  toLastHeader := .initial
  sending := none

/-- What the header of a chunk means. -/
def meaning (p : PeerStream) (c : WireChunk) : Resolved :=
  p.resolve p.sending.isSome c.header c.extended

def message (p : PeerStream) (c : WireChunk) : RtmpMessage :=
  match p.sending with
  | some (msg, _) => msg
  | none =>
      ⟨(p.meaning c).timestamp, (p.meaning c).messageTypeId, (p.meaning c).messageStreamId, []⟩

/-- How many bytes of its message are to come, a chunk's own among them. -/
def due (p : PeerStream) (c : WireChunk) : Nat :=
  match p.sending with
  | some (_, remaining) => remaining
  | none => (p.meaning c).messageLength

/-- The message with the bytes of a chunk. -/
def extendedBy (p : PeerStream) (c : WireChunk) : RtmpMessage :=
  { p.message c with payload := (p.message c).payload ++ c.payload }

/-- What a chunk leaves, and the message that it completes. -/
def send (p : PeerStream) (c : WireChunk) : PeerStream × Option RtmpMessage :=
  let last := p.commit c.header c.extended (p.meaning c)
  if p.due c - c.payload.length = 0 then
    (⟨last, none⟩, some (p.extendedBy c))
  else
    (⟨last, some (p.extendedBy c, p.due c - c.payload.length)⟩, none)

/-- The fields of the chunk fit, its extended timestamp is there when due, and its message goes on.
-/
structure Allows (p : PeerStream) (c : WireChunk) : Prop where
  csid_low : 2 ≤ c.csid
  csid_high : c.csid ≤ 65599
  fits : c.header.Fits
  extended_eq : c.extended.isSome = p.readsExtended c.header
  extended_lt : ∀ value, c.extended = some value → value < 2 ^ 32
  resumes : p.sending.isSome = true → c.header = .type3

theorem allows_iff {p : PeerStream} {c : WireChunk} :
    p.Allows c ↔ 2 ≤ c.csid ∧ c.csid ≤ 65599 ∧ c.header.Fits ∧
      c.extended.isSome = p.readsExtended c.header ∧ (∀ value ∈ c.extended, value < 2 ^ 32) ∧
        (p.sending.isSome = true → c.header = .type3) :=
  ⟨fun h => ⟨h.csid_low, h.csid_high, h.fits, h.extended_eq, h.extended_lt, h.resumes⟩,
    fun ⟨hlow, hhigh, hfits, heq, hlt, hresumes⟩ => ⟨hlow, hhigh, hfits, heq, hlt, hresumes⟩⟩

instance (p : PeerStream) (c : WireChunk) : Decidable (p.Allows c) :=
  decidable_of_iff' _ allows_iff

/-- How many bytes the message in the middle of its chunks has in all. -/
def declared (p : PeerStream) : Nat :=
  (p.sending.map fun sending => sending.1.payload.length + sending.2).getD 0

theorem Allows.isContinuation_eq {p : PeerStream} {c : WireChunk} (h : p.Allows c) :
    (p.meaning c).isContinuation = p.sending.isSome := by
  rw [meaning]
  cases hsending : p.sending with
  | none => cases c.header <;> rfl
  | some sending =>
      rw [h.resumes (by rw [hsending]; rfl)]
      rfl

end PeerStream

/-- The chunk streams of a peer, and how many bytes the messages in progress have. -/
structure Peer where
  streams : Nat → PeerStream
  inFlight : Nat

namespace Peer

/-- A peer that has sent nothing. -/
def initial : Peer where
  streams := fun _ => .initial
  inFlight := 0

/-- What a chunk leaves, and the message that it completes. -/
def send (peer : Peer) (c : WireChunk) : Peer × Option RtmpMessage :=
  let p := peer.streams c.csid
  ({ streams := Function.update peer.streams c.csid (p.send c).1
     inFlight := peer.inFlight + (if p.sending.isSome then 0 else p.due c) -
       ((p.send c).2.map fun msg => msg.payload.length).getD 0 },
    (p.send c).2)

/-- There is room for a message that begins with a chunk, beside those in flight. -/
def Room (limits : Limits) (peer : Peer) (c : WireChunk) : Prop :=
  (peer.streams c.csid).sending = none →
    (peer.streams c.csid).due c ≤ limits.maxAllocSingle ∧
      peer.inFlight + (peer.streams c.csid).due c ≤ limits.maxAllocTotal

instance (limits : Limits) (peer : Peer) (c : WireChunk) : Decidable (peer.Room limits c) :=
  inferInstanceAs (Decidable ((peer.streams c.csid).sending = none → _ ∧ _))

/-- The messages that some chunks complete, in order of completion. -/
def messages (peer : Peer) : List WireChunk → List RtmpMessage
  | [] => []
  | c :: cs => (peer.send c).2.toList ++ (peer.send c).1.messages cs

end Peer

/-! ## What the receiver holds -/

/-- The message that the receiver is in the middle of is the one the peer is in the middle of. -/
structure SameMessage (limits : Limits) (m : IncompleteMessage) (msg : RtmpMessage)
    (remaining : Nat) : Prop where
  timestamp_eq : m.timestamp = msg.timestamp
  messageTypeId_eq : m.messageTypeId = msg.messageTypeId
  messageStreamId_eq : m.messageStreamId = msg.messageStreamId
  data_eq : m.body.data = msg.payload
  remaining_eq : m.remaining = remaining
  declared_eq : m.body.declared = msg.payload.length + remaining
  declared_le : m.body.declared ≤ limits.maxAllocSingle
  charged_eq : m.body.charged = m.body.capacity
  capacity_le : m.body.capacity ≤ m.body.declared
  data_le : m.body.data.length ≤ m.body.capacity

/-- Both sides are in the middle of the same message, or of none. -/
def Matches (limits : Limits) : Option IncompleteMessage → Option (RtmpMessage × Nat) → Prop
  | none, none => True
  | some m, some (msg, remaining) => SameMessage limits m msg remaining
  | _, _ => False

/-- The bytes charged for a chunk stream. -/
def ChunkStreamState.charged (s : ChunkStreamState) : Nat :=
  (s.inProgress.map fun m => m.body.charged).getD 0

/-- The receiver holds what the peer has sent, and has charged for it no more than its length. -/
structure Holds (limits : Limits) (d : Dechunker) (peer : Peer) : Prop where
  header_eq : ∀ csid, (d.streams csid).toLastHeader = (peer.streams csid).toLastHeader
  matched : ∀ csid, Matches limits (d.streams csid).inProgress (peer.streams csid).sending
  limits_eq : d.budget.limits = limits
  pending_eq : d.budget.pending = 0
  inFlight_le : peer.inFlight ≤ limits.maxAllocTotal
  accounted : ∃ active : Finset Nat,
    (∀ csid, csid ∉ active → (peer.streams csid).sending = none) ∧
      d.budget.committed = ∑ csid ∈ active, (d.streams csid).charged ∧
        peer.inFlight = ∑ csid ∈ active, (peer.streams csid).declared

/-- What taking a chunk did that completed a message or none. -/
def outcomeOf : Option RtmpMessage → ChunkOutcome
  | none => .consumed
  | some message => .message message

theorem Matches.isSome_eq {limits : Limits} {m : Option IncompleteMessage}
    {sending : Option (RtmpMessage × Nat)} (h : Matches limits m sending) :
    m.isSome = sending.isSome := by
  cases m with
  | none =>
      cases sending with
      | none => rfl
      | some s => exact h.elim
  | some m =>
      cases sending with
      | none => exact h.elim
      | some s => rfl

theorem Matches.charged_le {limits : Limits} {s : ChunkStreamState} {p : PeerStream}
    (h : Matches limits s.inProgress p.sending) : s.charged ≤ p.declared := by
  rw [ChunkStreamState.charged, PeerStream.declared]
  cases hm : s.inProgress with
  | none => exact Nat.zero_le _
  | some m =>
      cases hp : p.sending with
      | none =>
          rw [hm, hp] at h
          exact h.elim
      | some sending =>
          rw [hm, hp] at h
          rw [Option.map_some, Option.map_some, Option.getD_some, Option.getD_some, h.charged_eq,
            ← h.declared_eq]
          exact h.capacity_le

theorem holds_new (limits : Limits) : Holds limits (Dechunker.new limits) .initial where
  header_eq := fun _ => rfl
  matched := fun _ => trivial
  limits_eq := rfl
  pending_eq := rfl
  inFlight_le := Nat.zero_le _
  accounted := ⟨∅, fun _ _ => rfl, rfl, rfl⟩

namespace Dechunker

variable {limits : Limits} {d : Dechunker} {peer : Peer} {c : WireChunk}

/-- The header of a chunk is understood as the peer means it, or more bytes are asked for. -/
theorem tryTakeOne_head (h : Holds limits d peer) (hallows : (peer.streams c.csid).Allows c)
    (tail : Bytes) (n : Nat) (hbuf : d.buf = (c.head ++ tail).take n) :
    d.tryTakeOne =
      if n < c.head.length then
        .ok (d, .needMoreData)
      else if (tail.take (n - c.head.length)).length <
          min ((peer.streams c.csid).due c) d.chunkSize then
        .ok (d, .needMoreData)
      else
        { d with
          buf := (tail.take (n - c.head.length)).drop
            (min ((peer.streams c.csid).due c) d.chunkSize) }.collect c.csid (d.streams c.csid)
          ((peer.streams c.csid).commit c.header c.extended ((peer.streams c.csid).meaning c))
          ((peer.streams c.csid).meaning c)
          ((tail.take (n - c.head.length)).take
            (min ((peer.streams c.csid).due c) d.chunkSize)) := by
  have hlast := h.header_eq c.csid
  have hmatch := h.matched c.csid
  have hmeaning : (d.streams c.csid).resolve (d.streams c.csid).inProgress.isSome c.header
      c.extended = (peer.streams c.csid).meaning c := by
    rw [hlast, hmatch.isSome_eq]
    rfl
  have hdue : (d.streams c.csid).remainingBefore ((peer.streams c.csid).meaning c) =
      (peer.streams c.csid).due c := by
    rw [ChunkStreamState.remainingBefore, PeerStream.due]
    cases hsending : (peer.streams c.csid).sending with
    | none =>
        have hfresh : ((peer.streams c.csid).meaning c).isContinuation = false := by
          rw [hallows.isContinuation_eq, hsending]
          rfl
        rw [hfresh, if_neg Bool.false_ne_true]
    | some sending =>
        rcases sending with ⟨msg, remaining⟩
        have hcontinues : ((peer.streams c.csid).meaning c).isContinuation = true := by
          rw [hallows.isContinuation_eq, hsending]
          rfl
        rw [hsending] at hmatch
        cases hm : (d.streams c.csid).inProgress with
        | none =>
            rw [hm] at hmatch
            exact hmatch.elim
        | some m =>
            rw [hm] at hmatch
            rw [hcontinues, if_pos rfl, Option.map_some, Option.getD_some]
            exact hmatch.remaining_eq
  have hbasic := decodeBasicHeader_take c.header.fmt_le hallows.csid_low hallows.csid_high
    (c.header.encode ++ (c.extended.map (beBytes 4)).getD [] ++ tail) n
  have hheader := MessageHeader.decode_take hallows.fits
    ((c.extended.map (beBytes 4)).getD [] ++ tail)
    (n - (basicHeaderBytes c.header.fmt c.csid).length)
  have hextended := takeExtended_take hallows.extended_lt tail
    (n - (basicHeaderBytes c.header.fmt c.csid).length - c.header.encode.length)
  have hlen : c.head.length = (basicHeaderBytes c.header.fmt c.csid).length +
      (c.header.encode.length + ((c.extended.map (beBytes 4)).getD []).length) := by
    rw [WireChunk.head, List.length_append, List.length_append]
  have hall : c.head ++ tail = basicHeaderBytes c.header.fmt c.csid ++
      (c.header.encode ++ (c.extended.map (beBytes 4)).getD [] ++ tail) := by
    rw [WireChunk.head, List.append_assoc, List.append_assoc]
  have hdrop (first second : Bytes) (k : Nat) :
      ((first ++ second).take k).drop first.length = second.take (k - first.length) := by
    rw [List.drop_take, List.drop_left]
  rw [tryTakeOne, hbuf, hall, hbasic]
  by_cases hn : n < (basicHeaderBytes c.header.fmt c.csid).length
  · rw [if_pos hn, if_pos (by omega)]
  rw [if_neg hn]
  dsimp only
  rw [hdrop, List.append_assoc, hheader]
  by_cases hn' : n - (basicHeaderBytes c.header.fmt c.csid).length < c.header.encode.length
  · rw [if_pos hn', if_pos (by omega)]
  rw [if_neg hn']
  dsimp only
  rw [hdrop, hlast, ← hallows.extended_eq, hextended]
  by_cases hn'' : n - (basicHeaderBytes c.header.fmt c.csid).length - c.header.encode.length <
      ((c.extended.map (beBytes 4)).getD []).length
  · rw [if_pos hn'', if_pos (by omega)]
  have hrest : n - (basicHeaderBytes c.header.fmt c.csid).length - c.header.encode.length -
      ((c.extended.map (beBytes 4)).getD []).length = n - c.head.length := by omega
  rw [hlast] at hmeaning
  rw [if_neg hn'', if_neg (by omega), hrest]
  dsimp only
  rw [hmeaning, hdue]

/-- A part of a chunk is left in the buffer. -/
theorem tryTakeOne_part (h : Holds limits d peer) (hallows : (peer.streams c.csid).Allows c)
    {more : Bytes} {n : Nat} (hbuf : d.buf = (c.bytes ++ more).take n)
    (hn : n < c.head.length + min ((peer.streams c.csid).due c) d.chunkSize) :
    d.tryTakeOne = .ok (d, .needMoreData) := by
  rw [WireChunk.bytes, List.append_assoc] at hbuf
  rw [tryTakeOne_head h hallows _ n hbuf]
  by_cases hhead : n < c.head.length
  · rw [if_pos hhead]
  · have hshort := List.length_take_le (n - c.head.length) (c.payload ++ more)
    rw [if_neg hhead, if_pos (by omega)]

end Dechunker

/-! ## A whole chunk -/

/-- Bytes that a message still misses are added to it. -/
theorem SameMessage.push {limits : Limits} {m : IncompleteMessage} {msg : RtmpMessage}
    {remaining : Nat} (h : SameMessage limits m msg remaining) {budget : Budget} {payload : Bytes}
    (hlen : payload.length ≤ remaining) (hlimits : budget.limits = limits)
    (hpending : budget.pending = 0)
    (hroom : budget.committed + (msg.payload.length + remaining - m.body.charged) ≤
      limits.maxAllocTotal) :
    ∃ body budget', m.body.pushSlice budget payload = .ok (body, budget') ∧
      SameMessage limits
        { m with
          remaining := remaining - payload.length
          body := body }
        { msg with payload := msg.payload ++ payload } (remaining - payload.length) ∧
      budget'.limits = limits ∧ budget'.pending = 0 ∧
        budget'.committed + m.body.charged = budget.committed + body.charged := by
  have hdeclared := h.declared_eq
  have hcapacity := h.capacity_le
  have hcharged := h.charged_eq
  have hdata : m.body.data.length = msg.payload.length := by rw [h.data_eq]
  have hsingle := h.declared_le
  have hadded : (m.body.data ++ payload).length = m.body.data.length + payload.length :=
    List.length_append
  have hextended : (msg.payload ++ payload).length = msg.payload.length + payload.length :=
    List.length_append
  rw [IncrementalVec.pushSlice, if_neg (by omega)]
  split
  · rename_i hgrow
    have htarget : m.body.target (m.body.data.length + payload.length) ≤ m.body.declared ∧
        m.body.data.length + payload.length ≤
          m.body.target (m.body.data.length + payload.length) := by
      rw [IncrementalVec.target]
      omega
    rw [Budget.charge_of_le (by rw [hlimits]; omega) (by rw [hlimits, hpending]; omega)]
    refine ⟨_, _, rfl, ?_, hlimits, hpending, ?_⟩
    · exact
        { timestamp_eq := h.timestamp_eq
          messageTypeId_eq := h.messageTypeId_eq
          messageStreamId_eq := h.messageStreamId_eq
          data_eq := congrArg (· ++ payload) h.data_eq
          remaining_eq := rfl
          declared_eq := by
            dsimp only
            omega
          declared_le := hsingle
          charged_eq := by
            dsimp only
            omega
          capacity_le := htarget.1
          data_le := by
            dsimp only
            omega }
    · dsimp only
      omega
  · refine ⟨_, _, rfl, ?_, hlimits, hpending, rfl⟩
    exact
      { h with
        data_eq := congrArg (· ++ payload) h.data_eq
        remaining_eq := rfl
        declared_eq := by
          dsimp only
          omega
        data_le := by
          dsimp only
          omega }

/-- What is charged and in flight for one chunk stream, and for the others. -/
theorem Holds.others {limits : Limits} {d : Dechunker} {peer : Peer} (h : Holds limits d peer)
    (csid : Nat) :
    ∃ others : Finset Nat, csid ∉ others ∧
      (∀ other, other ∉ insert csid others → (peer.streams other).sending = none) ∧
        d.budget.committed = (d.streams csid).charged +
          ∑ other ∈ others, (d.streams other).charged ∧
        peer.inFlight = (peer.streams csid).declared +
          ∑ other ∈ others, (peer.streams other).declared ∧
        ∑ other ∈ others, (d.streams other).charged ≤
          ∑ other ∈ others, (peer.streams other).declared := by
  rcases h.accounted with ⟨active, hidle, hcommitted, hinFlight⟩
  have hle : ∑ other ∈ active.erase csid, (d.streams other).charged ≤
      ∑ other ∈ active.erase csid, (peer.streams other).declared :=
    Finset.sum_le_sum fun other _ => (h.matched other).charged_le
  refine ⟨active.erase csid, Finset.notMem_erase _ _, ?_, ?_, ?_, hle⟩
  · intro other hother
    refine hidle other fun hactive => hother ?_
    by_cases heq : other = csid
    · exact heq ▸ Finset.mem_insert_self _ _
    · exact Finset.mem_insert_of_mem (Finset.mem_erase.mpr ⟨heq, hactive⟩)
  · by_cases hactive : csid ∈ active
    · rw [hcommitted, Finset.add_sum_erase _ (fun other => (d.streams other).charged) hactive]
    · have hzero : (d.streams csid).charged ≤ 0 := by
        have hle := (h.matched csid).charged_le
        rw [PeerStream.declared, hidle csid hactive] at hle
        exact hle
      rw [hcommitted, Finset.erase_eq_of_notMem hactive, Nat.le_zero.mp hzero, Nat.zero_add]
  · by_cases hactive : csid ∈ active
    · rw [hinFlight, Finset.add_sum_erase _ (fun other => (peer.streams other).declared) hactive]
    · rw [hinFlight, Finset.erase_eq_of_notMem hactive, PeerStream.declared, hidle csid hactive,
        Option.map_none, Option.getD_none, Nat.zero_add]

/-- Both sides go on with one chunk stream, and the receiver charges for it what it holds. -/
theorem Holds.update {limits : Limits} {d d' : Dechunker} {peer peer' : Peer}
    (h : Holds limits d peer) {csid : Nat} {s : ChunkStreamState} {p : PeerStream}
    (hstreams : d'.streams = Function.update d.streams csid s)
    (hsent : peer'.streams = Function.update peer.streams csid p)
    (hlast : s.toLastHeader = p.toLastHeader) (hmatch : Matches limits s.inProgress p.sending)
    (hlimits : d'.budget.limits = limits) (hpending : d'.budget.pending = 0)
    (hcommitted : d'.budget.committed + (d.streams csid).charged = d.budget.committed + s.charged)
    (hinFlight : peer'.inFlight + (peer.streams csid).declared = peer.inFlight + p.declared)
    (hle : peer'.inFlight ≤ limits.maxAllocTotal) : Holds limits d' peer' := by
  rcases h.others csid with ⟨others, hnotin, hidle, hcharged, hdeclared, -⟩
  have hother : ∀ other ∈ others, other ≠ csid := fun other hmem heq => hnotin (heq ▸ hmem)
  refine ⟨?_, ?_, hlimits, hpending, hle, insert csid others, ?_, ?_, ?_⟩
  · intro other
    rw [hstreams, hsent]
    by_cases heq : other = csid
    · rw [heq, Function.update_self, Function.update_self, hlast]
    · rw [Function.update_of_ne heq, Function.update_of_ne heq, h.header_eq]
  · intro other
    rw [hstreams, hsent]
    by_cases heq : other = csid
    · rw [heq, Function.update_self, Function.update_self]
      exact hmatch
    · rw [Function.update_of_ne heq, Function.update_of_ne heq]
      exact h.matched other
  · intro other hmem
    have heq : other ≠ csid := fun heq => hmem (heq ▸ Finset.mem_insert_self _ _)
    rw [hsent, Function.update_of_ne heq]
    exact hidle other hmem
  · have hsame : ∑ other ∈ others, (d'.streams other).charged =
        ∑ other ∈ others, (d.streams other).charged := by
      refine Finset.sum_congr rfl fun other hmem => ?_
      rw [hstreams, Function.update_of_ne (hother other hmem)]
    rw [Finset.sum_insert hnotin, hsame, hstreams, Function.update_self]
    omega
  · have hsame : ∑ other ∈ others, (peer'.streams other).declared =
        ∑ other ∈ others, (peer.streams other).declared := by
      refine Finset.sum_congr rfl fun other hmem => ?_
      rw [hsent, Function.update_of_ne (hother other hmem)]
    rw [Finset.sum_insert hnotin, hsame, hsent, Function.update_self]
    omega

/-- What is in flight on a chunk stream is what was, and the message that a chunk begins; a message
that it completes is no longer. -/
theorem PeerStream.declared_send {p : PeerStream} {c : WireChunk}
    (hle : c.payload.length ≤ p.due c) :
    (p.send c).1.declared + ((p.send c).2.map fun msg => msg.payload.length).getD 0 =
      (p.message c).payload.length + p.due c ∧
    p.declared + (if p.sending.isSome then 0 else p.due c) =
      (p.message c).payload.length + p.due c := by
  have hextended : (p.extendedBy c).payload.length =
      (p.message c).payload.length + c.payload.length := by
    rw [extendedBy, List.length_append]
  refine ⟨?_, ?_⟩
  · rw [send]
    split
    · rename_i hdone
      rw [declared]
      change 0 + (p.extendedBy c).payload.length = _
      omega
    · rw [declared]
      change (p.extendedBy c).payload.length + (p.due c - c.payload.length) + 0 = _
      omega
  · rw [declared, message, due]
    cases p.sending with
    | none => rfl
    | some sending => rfl

namespace Dechunker

variable {limits : Limits} {d : Dechunker} {peer : Peer} {c : WireChunk}

/-- The message of a chunk is found, or begun, and there is room for what it misses. -/
theorem messageOf_eq (h : Holds limits d peer) (hallows : (peer.streams c.csid).Allows c)
    (hroom : peer.Room limits c) :
    ∃ m, d.messageOf (d.streams c.csid) ((peer.streams c.csid).meaning c) = .ok m ∧
      SameMessage limits m ((peer.streams c.csid).message c) ((peer.streams c.csid).due c) ∧
      m.body.charged = (d.streams c.csid).charged ∧
      d.budget.committed + (((peer.streams c.csid).message c).payload.length +
        (peer.streams c.csid).due c - m.body.charged) ≤ limits.maxAllocTotal := by
  rcases h.others c.csid with ⟨others, -, -, hcommitted, hinFlight, hle⟩
  have hmatch := h.matched c.csid
  have htotal := h.inFlight_le
  have hcharged := hmatch.charged_le
  cases hsending : (peer.streams c.csid).sending with
  | none =>
      have hfresh : ((peer.streams c.csid).meaning c).isContinuation = false := by
        rw [hallows.isContinuation_eq, hsending]
        rfl
      have hdue : (peer.streams c.csid).due c =
          ((peer.streams c.csid).meaning c).messageLength := by
        rw [PeerStream.due, hsending]
      have hempty : ((peer.streams c.csid).message c).payload = [] := by
        rw [PeerStream.message, hsending]
      have hdeclared : (peer.streams c.csid).declared = 0 := by
        rw [PeerStream.declared, hsending]
        rfl
      rcases hroom hsending with ⟨hsingle, hfits⟩
      have hcheck : d.budget.check ((peer.streams c.csid).meaning c).messageLength = .ok () := by
        rw [Budget.check_eq_ok_iff, h.limits_eq, h.pending_eq, ← hdue]
        omega
      rw [messageOf, hfresh, if_neg Bool.false_ne_true, hcheck]
      refine ⟨_, rfl, ?_, ?_, ?_⟩
      · rw [PeerStream.message, hsending, hdue]
        exact
          { timestamp_eq := rfl
            messageTypeId_eq := rfl
            messageStreamId_eq := rfl
            data_eq := rfl
            remaining_eq := rfl
            declared_eq := (Nat.zero_add _).symm
            declared_le := hdue ▸ hsingle
            charged_eq := rfl
            capacity_le := Nat.zero_le _
            data_le := le_rfl }
      · change 0 = _
        omega
      · change d.budget.committed + (((peer.streams c.csid).message c).payload.length +
          (peer.streams c.csid).due c - 0) ≤ limits.maxAllocTotal
        rw [hempty, List.length_nil]
        omega
  | some sending =>
      rcases sending with ⟨msg, remaining⟩
      have hcontinues : ((peer.streams c.csid).meaning c).isContinuation = true := by
        rw [hallows.isContinuation_eq, hsending]
        rfl
      have hmessage : (peer.streams c.csid).message c = msg := by
        rw [PeerStream.message, hsending]
      have hdue : (peer.streams c.csid).due c = remaining := by
        rw [PeerStream.due, hsending]
      have hdeclared : (peer.streams c.csid).declared = msg.payload.length + remaining := by
        rw [PeerStream.declared, hsending]
        rfl
      rw [hsending] at hmatch
      cases hm : (d.streams c.csid).inProgress with
      | none =>
          rw [hm] at hmatch
          exact hmatch.elim
      | some m =>
          rw [hm] at hmatch
          have hbody : (d.streams c.csid).charged = m.body.charged := by
            rw [ChunkStreamState.charged, hm]
            rfl
          rw [messageOf, hcontinues, if_pos rfl, hm, hmessage, hdue]
          exact ⟨m, rfl, hmatch, hbody.symm, by omega⟩

/-- A whole chunk is taken as the peer sent it. -/
theorem tryTakeOne_whole (h : Holds limits d peer) (hallows : (peer.streams c.csid).Allows c)
    (hroom : peer.Room limits c)
    (hlen : c.payload.length = min ((peer.streams c.csid).due c) d.chunkSize) {rest : Bytes}
    (hbuf : d.buf = c.bytes ++ rest) :
    ∃ d', d.tryTakeOne = .ok (d', outcomeOf (peer.send c).2) ∧ d'.buf = rest ∧
      d'.chunkSize = d.chunkSize ∧ Holds limits d' (peer.send c).1 := by
  rcases messageOf_eq h hallows hroom with ⟨m, hmessage, hsame, hcharged, hfits⟩
  rcases h.others c.csid with ⟨_, -, -, hcommitted, hinFlight, -⟩
  rcases hsame.push (hlen.trans_le (min_le_left _ _)) h.limits_eq h.pending_eq hfits with
    ⟨body, budget, hpush, hpushed, hlimits, hpending, hspent⟩
  rcases PeerStream.declared_send (hlen.trans_le (min_le_left _ _)) with ⟨hsent, hbegun⟩
  have hall : d.buf = (c.head ++ (c.payload ++ rest)).take (c.head.length +
      (c.payload ++ rest).length) := by
    rw [List.take_of_length_le (by rw [List.length_append]), hbuf, WireChunk.bytes,
      List.append_assoc]
  have hkept : (if ((peer.streams c.csid).meaning c).isContinuation then none
      else (d.streams c.csid).inProgress) = none := by
    rw [hallows.isContinuation_eq, ← (h.matched c.csid).isSome_eq]
    cases (d.streams c.csid).inProgress with
    | none => rfl
    | some m => rfl
  have hdeclared : (peer.send c).1.inFlight + (peer.streams c.csid).declared =
      peer.inFlight + ((peer.streams c.csid).send c).1.declared ∧
        (peer.send c).1.inFlight ≤ limits.maxAllocTotal := by
    have hroom' : peer.inFlight + (if (peer.streams c.csid).sending.isSome then 0
        else (peer.streams c.csid).due c) ≤ limits.maxAllocTotal := by
      cases hsending : (peer.streams c.csid).sending with
      | none => exact (hroom hsending).2
      | some sending => exact h.inFlight_le
    rw [Peer.send]
    dsimp only
    omega
  rw [tryTakeOne_head h hallows _ _ hall, if_neg (by omega), Nat.add_sub_cancel_left,
    List.take_of_length_le le_rfl, ← hlen, if_neg (by rw [List.length_append]; omega),
    List.take_left, List.drop_left, collect]
  have hmessage' : ({ d with buf := rest } : Dechunker).messageOf (d.streams c.csid)
      ((peer.streams c.csid).meaning c) = .ok m := hmessage
  rw [hmessage']
  dsimp only
  rw [hpush, hkept, hsame.remaining_eq]
  dsimp only
  have hdata : body.data = ((peer.streams c.csid).extendedBy c).payload := hpushed.data_eq
  by_cases hdone : (peer.streams c.csid).due c - c.payload.length = 0
  · have hsend : (peer.streams c.csid).send c =
        (⟨(peer.streams c.csid).commit c.header c.extended ((peer.streams c.csid).meaning c),
          none⟩, some ((peer.streams c.csid).extendedBy c)) := by
      rw [PeerStream.send, if_pos hdone]
    have hmsg : outcomeOf (peer.send c).2 =
        .message ⟨m.timestamp, m.messageTypeId, m.messageStreamId, body.data⟩ := by
      rw [Peer.send, hsend, hsame.timestamp_eq, hsame.messageTypeId_eq, hsame.messageStreamId_eq,
        hdata]
      rfl
    rw [if_pos hdone, hmsg]
    refine ⟨_, rfl, rfl, rfl, h.update rfl rfl ?_ ?_ hlimits hpending ?_ hdeclared.1 hdeclared.2⟩
    · rw [hsend]
    · rw [hsend]
      trivial
    · change budget.committed - body.charged + _ = d.budget.committed + 0
      omega
  · have hsend : (peer.streams c.csid).send c =
        (⟨(peer.streams c.csid).commit c.header c.extended ((peer.streams c.csid).meaning c),
          some ((peer.streams c.csid).extendedBy c,
            (peer.streams c.csid).due c - c.payload.length)⟩, none) := by
      rw [PeerStream.send, if_neg hdone]
    have hnone : outcomeOf (peer.send c).2 = .consumed := by
      rw [Peer.send, hsend]
      rfl
    rw [if_neg hdone, hnone]
    refine ⟨_, rfl, rfl, rfl, h.update rfl rfl ?_ ?_ hlimits hpending ?_ hdeclared.1 hdeclared.2⟩
    · rw [hsend]
    · rw [hsend]
      exact hpushed
    · change budget.committed + _ = d.budget.committed + body.charged
      omega

end Dechunker

end Rtmp
end Vaco
