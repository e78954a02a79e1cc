import Mathlib.Logic.Function.Basic
import Vaco.Sched.Wire
import Vaco.Rtmp.Chunk

/-!
# Messages in chunks

A message is cut into chunks of at most the chunk size; its first chunk says what it is, and the
others only name their chunk stream.  The receiving side keeps what a chunk stream said last, and
the message it is in the middle of, and takes whole chunks only.

Main results:

- `Dechunker.feed`: whole messages out of bytes as they arrive.
- `chunkMessage`: one message as chunks.

Current gaps:

- What an error leaves behind is not modelled, and an allocator never refuses.
-/

namespace Vaco
namespace Rtmp

open Library BitStream ByteWords
open Vaco.Core (Byte ProtocolError)
open Sched (Budget LimitError)

/-- A whole message. -/
structure RtmpMessage where
  timestamp : Nat
  messageTypeId : Byte
  messageStreamId : Nat
  payload : Bytes
deriving DecidableEq

/-! ## Bytes charged as they arrive -/

/-- A buffer that grows with what is delivered and never past what was declared. -/
structure IncrementalVec where
  data : Bytes
  capacity : Nat
  declared : Nat
  charged : Nat
deriving DecidableEq

namespace IncrementalVec

/-- The smallest capacity worth asking for. -/
def minCap : Nat :=
  32

/-- An empty buffer. -/
def new (declared : Nat) : IncrementalVec where
  data := []
  capacity := 0
  declared := declared
  charged := 0

/-- The capacity for some bytes: doubled, but never past what was declared. -/
def target (v : IncrementalVec) (needed : Nat) : Nat :=
  min (max (max needed (v.capacity * 2)) minCap) (max v.declared needed)

/-- Append bytes that have arrived. -/
def pushSlice (v : IncrementalVec) (budget : Budget) (src : Bytes) :
    Except LimitError (IncrementalVec × Budget) :=
  let needed := v.data.length + src.length
  if v.declared < needed then
    .error (.exceeded "declared_size" needed v.declared)
  else if v.capacity < needed then
    match budget.charge (v.target needed - v.capacity) with
    | .error e => .error e
    | .ok budget =>
        .ok
          ({ v with
              data := v.data ++ src
              capacity := v.target needed
              charged := v.charged + (v.target needed - v.capacity) }, budget)
  else
    .ok ({ v with data := v.data ++ src }, budget)

end IncrementalVec

/-! ## Chunk streams -/

/-- What the last header on a chunk stream said. -/
structure LastHeader where
  lastTimestamp : Nat
  lastTimestampDelta : Nat
  lastMessageLength : Nat
  lastMessageTypeId : Byte
  lastMessageStreamId : Nat
  extendedTimestampInEffect : Bool
deriving DecidableEq

/-- A message in the middle of its chunks. -/
structure IncompleteMessage where
  timestamp : Nat
  messageTypeId : Byte
  messageStreamId : Nat
  remaining : Nat
  body : IncrementalVec
deriving DecidableEq

/-- What a receiver keeps for a chunk stream. -/
structure ChunkStreamState extends LastHeader where
  inProgress : Option IncompleteMessage
deriving DecidableEq

/-- What a header means on its chunk stream. -/
structure Resolved where
  timestamp : Nat
  messageTypeId : Byte
  messageStreamId : Nat
  messageLength : Nat
  isContinuation : Bool
deriving DecidableEq

namespace LastHeader

/-- A chunk stream that has seen nothing. -/
def initial : LastHeader where
  lastTimestamp := 0
  lastTimestampDelta := 0
  lastMessageLength := 0
  lastMessageTypeId := 0#8
  lastMessageStreamId := 0
  extendedTimestampInEffect := false

/-- Whether an extended timestamp follows a header: one without a timestamp goes by the header
before it. -/
def readsExtended (s : LastHeader) (header : MessageHeader) : Bool :=
  match header.rawTimestamp with
  | some timestamp => timestamp == extendedTimestamp
  | none => s.extendedTimestampInEffect

/-- Fill in what a header leaves out. -/
def resolve (s : LastHeader) (inProgress : Bool) (header : MessageHeader) (extended : Option Nat) :
    Resolved :=
  match header with
  | .type0 timestamp messageLength messageTypeId messageStreamId =>
      ⟨extended.getD timestamp, messageTypeId, messageStreamId, messageLength, false⟩
  | .type1 timestampDelta messageLength messageTypeId =>
      ⟨(s.lastTimestamp + extended.getD timestampDelta) % 2 ^ 32, messageTypeId,
        s.lastMessageStreamId, messageLength, false⟩
  | .type2 timestampDelta =>
      ⟨(s.lastTimestamp + extended.getD timestampDelta) % 2 ^ 32, s.lastMessageTypeId,
        s.lastMessageStreamId, s.lastMessageLength, false⟩
  | .type3 =>
      if inProgress then
        ⟨s.lastTimestamp, s.lastMessageTypeId, s.lastMessageStreamId, s.lastMessageLength, true⟩
      else
        ⟨(s.lastTimestamp + s.lastTimestampDelta) % 2 ^ 32, s.lastMessageTypeId,
          s.lastMessageStreamId, s.lastMessageLength, false⟩

/-- What the chunk stream keeps of a header. -/
def commit (s : LastHeader) (header : MessageHeader) (extended : Option Nat) (r : Resolved) :
    LastHeader where
  lastTimestamp := r.timestamp
  lastTimestampDelta :=
    match header with
    | .type0 .. => 0
    | .type1 timestampDelta _ _ => extended.getD timestampDelta
    | .type2 timestampDelta => extended.getD timestampDelta
    | .type3 => s.lastTimestampDelta
  lastMessageLength := r.messageLength
  lastMessageTypeId := r.messageTypeId
  lastMessageStreamId := r.messageStreamId
  extendedTimestampInEffect := s.readsExtended header

end LastHeader

/-- A chunk stream that has seen nothing. -/
def ChunkStreamState.initial : ChunkStreamState where
  toLastHeader := .initial
  inProgress := none

/-- How many bytes of its message are to come, a chunk's own among them. -/
def ChunkStreamState.remainingBefore (s : ChunkStreamState) (r : Resolved) : Nat :=
  if r.isContinuation then
    (s.inProgress.map IncompleteMessage.remaining).getD r.messageLength
  else
    r.messageLength

/-! ## The receiver -/

/-- What taking one chunk did. -/
inductive ChunkOutcome where
  | needMoreData
  | consumed
  | message (message : RtmpMessage)
deriving DecidableEq

/-- Whole messages out of a stream of bytes. -/
structure Dechunker where
  chunkSize : Nat
  streams : Nat → ChunkStreamState
  buf : Bytes
  budget : Budget

namespace Dechunker

/-- A receiver that has seen nothing. -/
def new (limits : Sched.Limits) : Dechunker where
  chunkSize := 128
  streams := fun _ => .initial
  buf := []
  budget := .new limits

/-- Read with another chunk size. -/
def setChunkSize (d : Dechunker) (size : Nat) : Dechunker :=
  { d with chunkSize := size }

/-- The message that a chunk belongs to, begun with it or before it. -/
def messageOf (d : Dechunker) (s : ChunkStreamState) (r : Resolved) :
    Except ProtocolError IncompleteMessage :=
  if r.isContinuation then
    match s.inProgress with
    | some m => .ok m
    | none => .error (malformed "chunk continues a message that was never started")
  else
    match d.budget.check r.messageLength with
    | .error e => .error (.io e.toError)
    | .ok () =>
        .ok
          { timestamp := r.timestamp
            messageTypeId := r.messageTypeId
            messageStreamId := r.messageStreamId
            remaining := r.messageLength
            body := .new r.messageLength }

def collect (d : Dechunker) (csid : Nat) (s : ChunkStreamState) (last : LastHeader) (r : Resolved)
    (payload : Bytes) : Except ProtocolError (Dechunker × ChunkOutcome) :=
  match d.messageOf s r with
  | .error e => .error e
  | .ok m =>
      match m.body.pushSlice d.budget payload with
      | .error e => .error (.io e.toError)
      | .ok (body, budget) =>
          let kept := if r.isContinuation then none else s.inProgress
          if m.remaining - payload.length = 0 then
            .ok
              ({ d with
                  streams := Function.update d.streams csid ⟨last, kept⟩
                  budget := budget.release body.charged },
                .message ⟨m.timestamp, m.messageTypeId, m.messageStreamId, body.data⟩)
          else
            .ok
              ({ d with
                  streams := Function.update d.streams csid
                    ⟨last, some
                      { m with
                        remaining := m.remaining - payload.length
                        body := body }⟩
                  budget := budget }, .consumed)

def tryTakeOne (d : Dechunker) : Except ProtocolError (Dechunker × ChunkOutcome) :=
  match decodeBasicHeader d.buf with
  | none => .ok (d, .needMoreData)
  | some (basic, basicLen) =>
      match MessageHeader.decode basic.fmt (d.buf.drop basicLen) with
      | .error e => .error e
      | .ok none => .ok (d, .needMoreData)
      | .ok (some (header, headerLen)) =>
          let s := d.streams basic.csid
          match takeExtended (s.readsExtended header) ((d.buf.drop basicLen).drop headerLen) with
          | none => .ok (d, .needMoreData)
          | some (extended, after) =>
              let r := s.resolve s.inProgress.isSome header extended
              let take := min (s.remainingBefore r) d.chunkSize
              if after.length < take then
                .ok (d, .needMoreData)
              else
                { d with buf := after.drop take }.collect basic.csid s (s.commit header extended r)
                  r (after.take take)

/-- Take chunks until more bytes are needed. -/
def drain : Nat → Dechunker → List RtmpMessage →
    Except ProtocolError (Dechunker × List RtmpMessage)
  | 0, d, out => .ok (d, out)
  | fuel + 1, d, out =>
      match d.tryTakeOne with
      | .error e => .error e
      | .ok (d, .needMoreData) => .ok (d, out)
      | .ok (d, .consumed) => drain fuel d out
      | .ok (d, .message message) => drain fuel d (out ++ [message])

/-- Take bytes as they arrive, and give out the messages that are whole then. -/
def feed (d : Dechunker) (data : Bytes) : Except ProtocolError (Dechunker × List RtmpMessage) :=
  drain ((d.buf ++ data).length + 1) { d with buf := d.buf ++ data } []

end Dechunker

/-! ## Lengths -/

/-- The length that a header gives is one of 24 bits. -/
theorem MessageHeader.resolve_length_lt {fmt n : Nat} {input : Bytes} {header : MessageHeader}
    (h : decode fmt input = .ok (some (header, n))) {s : LastHeader}
    (hlast : s.lastMessageLength < 2 ^ 24) (inProgress : Bool) (extended : Option Nat) :
    (s.resolve inProgress header extended).messageLength < 2 ^ 24 := by
  have hfield : beNat ((input.drop 3).take 3) < 2 ^ 24 :=
    (beNat_lt _).trans_le (Nat.pow_le_pow_right (Nat.succ_pos 255) (List.length_take_le 3 _))
  unfold decode at h
  split at h
  · split at h
    · cases h
    · cases h
      exact hfield
  · split at h
    · cases h
    · cases h
      exact hfield
  · split at h
    · cases h
    · cases h
      exact hlast
  · cases h
    cases inProgress <;> exact hlast
  · cases h

theorem IncrementalVec.pushSlice_ok {v v' : IncrementalVec} {budget budget' : Budget} {src : Bytes}
    (h : v.pushSlice budget src = .ok (v', budget')) :
    v'.declared = v.declared ∧ v'.data.length ≤ v.declared := by
  rw [pushSlice] at h
  split at h
  · cases h
  · rename_i hfits
    have hlen : (v.data ++ src).length ≤ v.declared := by
      rw [List.length_append]
      exact not_lt.mp hfits
    split at h
    · split at h
      · cases h
      · cases h
        exact ⟨rfl, hlen⟩
    · cases h
      exact ⟨rfl, hlen⟩

/-- All lengths that a receiver keeps are of 24 bits. -/
structure Dechunker.Bounded (d : Dechunker) : Prop where
  length_lt : ∀ csid, (d.streams csid).lastMessageLength < 2 ^ 24
  declared_lt : ∀ csid m, (d.streams csid).inProgress = some m → m.body.declared < 2 ^ 24

namespace Dechunker

theorem bounded_new (limits : Sched.Limits) : (new limits).Bounded where
  length_lt := fun _ => Nat.two_pow_pos 24
  declared_lt := fun _ _ h => nomatch h

theorem Bounded.update {d d' : Dechunker} {csid : Nat} {s : ChunkStreamState} (h : d.Bounded)
    (hstreams : d'.streams = Function.update d.streams csid s)
    (hlength : s.lastMessageLength < 2 ^ 24)
    (hdeclared : ∀ m, s.inProgress = some m → m.body.declared < 2 ^ 24) : d'.Bounded := by
  refine ⟨fun other => ?_, fun other => ?_⟩
  · rw [hstreams]
    by_cases heq : other = csid
    · rw [heq, Function.update_self]
      exact hlength
    · rw [Function.update_of_ne heq]
      exact h.length_lt other
  · rw [hstreams]
    by_cases heq : other = csid
    · rw [heq, Function.update_self]
      exact hdeclared
    · rw [Function.update_of_ne heq]
      exact h.declared_lt other

/-- A message that a chunk completes is no longer than it was declared. -/
theorem Bounded.collect {d d' : Dechunker} {csid : Nat} {last : LastHeader} {r : Resolved}
    {payload : Bytes} {outcome : ChunkOutcome} (h : d.Bounded)
    (hlast : last.lastMessageLength < 2 ^ 24) (hlength : r.messageLength < 2 ^ 24)
    (hcollect : d.collect csid (d.streams csid) last r payload = .ok (d', outcome)) :
    d'.Bounded ∧ ∀ msg, outcome = .message msg → msg.payload.length < 2 ^ 24 := by
  rw [Dechunker.collect] at hcollect
  split at hcollect
  · cases hcollect
  · rename_i m hmessage
    have hdeclared : m.body.declared < 2 ^ 24 := by
      rw [messageOf] at hmessage
      split at hmessage
      · split at hmessage
        · rename_i hm
          cases hmessage
          exact h.declared_lt csid _ hm
        · cases hmessage
      · split at hmessage
        · cases hmessage
        · cases hmessage
          exact hlength
    split at hcollect
    · cases hcollect
    · rename_i body budget hpush
      rcases IncrementalVec.pushSlice_ok hpush with ⟨hsame, hle⟩
      dsimp only at hcollect
      split at hcollect
      · cases hcollect
        refine ⟨h.update rfl hlast ?_, ?_⟩
        · intro m hm
          dsimp only at hm
          split at hm
          · cases hm
          · exact h.declared_lt csid m hm
        · intro msg hmsg
          cases hmsg
          exact hle.trans_lt hdeclared
      · cases hcollect
        refine ⟨h.update rfl hlast ?_, fun msg hmsg => nomatch hmsg⟩
        intro m hm
        cases hm
        exact hsame.trans_lt hdeclared

/-- A message that is taken is no longer than 24 bits can say. -/
theorem Bounded.tryTakeOne {d d' : Dechunker} {outcome : ChunkOutcome} (h : d.Bounded)
    (htake : d.tryTakeOne = .ok (d', outcome)) :
    d'.Bounded ∧ ∀ msg, outcome = .message msg → msg.payload.length < 2 ^ 24 := by
  have hsame : ∀ d' outcome, (Except.ok (d, ChunkOutcome.needMoreData) :
      Except ProtocolError (Dechunker × ChunkOutcome)) = .ok (d', outcome) →
      d'.Bounded ∧ ∀ msg, outcome = .message msg → msg.payload.length < 2 ^ 24 := by
    intro d' outcome heq
    cases heq
    exact ⟨h, fun msg hmsg => nomatch hmsg⟩
  rw [Dechunker.tryTakeOne] at htake
  split at htake
  · exact hsame _ _ htake
  · rename_i basic basicLen _
    split at htake
    · cases htake
    · exact hsame _ _ htake
    · rename_i header headerLen hheader
      dsimp only at htake
      split at htake
      · exact hsame _ _ htake
      · rename_i extended after _
        have hlength := MessageHeader.resolve_length_lt hheader (h.length_lt basic.csid)
          (d.streams basic.csid).inProgress.isSome extended
        split at htake
        · exact hsame _ _ htake
        · refine Bounded.collect ?_ ?_ hlength htake
          · exact ⟨h.length_lt, h.declared_lt⟩
          · exact hlength

/-- No message that some chunks complete is longer than 24 bits can say. -/
theorem Bounded.drain {fuel : Nat} {d d' : Dechunker} {out msgs : List RtmpMessage}
    (h : d.Bounded) (hout : ∀ msg ∈ out, msg.payload.length < 2 ^ 24)
    (hdrain : drain fuel d out = .ok (d', msgs)) :
    d'.Bounded ∧ ∀ msg ∈ msgs, msg.payload.length < 2 ^ 24 := by
  induction fuel generalizing d out with
  | zero =>
      cases hdrain
      exact ⟨h, hout⟩
  | succ fuel ih =>
      rw [Dechunker.drain] at hdrain
      split at hdrain
      · cases hdrain
      · rename_i htake
        cases hdrain
        exact ⟨(h.tryTakeOne htake).1, hout⟩
      · rename_i htake
        exact ih (h.tryTakeOne htake).1 hout hdrain
      · rename_i message htake
        refine ih (h.tryTakeOne htake).1 ?_ hdrain
        intro msg hmsg
        rcases List.mem_append.mp hmsg with hmsg | hmsg
        · exact hout msg hmsg
        · rw [List.mem_singleton.mp hmsg]
          exact (h.tryTakeOne htake).2 message rfl

/-- No message that comes out of a call is longer than 24 bits can say. -/
theorem feed_length_lt {d d' : Dechunker} {data : Bytes} {msgs : List RtmpMessage} (h : d.Bounded)
    (hfeed : d.feed data = .ok (d', msgs)) :
    d'.Bounded ∧ ∀ msg ∈ msgs, msg.payload.length < 2 ^ 24 := by
  rw [feed] at hfeed
  refine Bounded.drain ?_ ?_ hfeed
  · exact ⟨h.length_lt, h.declared_lt⟩
  · intro msg hmsg
    cases hmsg

end Dechunker

/-! ## The sender -/

/-- The chunks of a message behind its first bytes. -/
def chunkFrom (msg : RtmpMessage) (csid chunkSize : Nat) :
    Nat → Bool → Bytes → Except ProtocolError Bytes
  | 0, _, _ => .ok []
  | fuel + 1, first, payload =>
      if payload ≠ [] ∨ (first = true ∧ msg.payload = []) then
        match encodeBasicHeader (if first then 0 else 3) csid with
        | .error e => .error e
        | .ok basic =>
            let header :=
              if first then
                (MessageHeader.type0 (min msg.timestamp extendedTimestamp) msg.payload.length
                  msg.messageTypeId msg.messageStreamId).encode
              else
                []
            let extended :=
              if extendedTimestamp ≤ msg.timestamp then beBytes 4 msg.timestamp else []
            match chunkFrom msg csid chunkSize fuel false (payload.drop chunkSize) with
            | .error e => .error e
            | .ok rest => .ok (basic ++ header ++ extended ++ payload.take chunkSize ++ rest)
      else
        .ok []

/-- One message as chunks: a full header on the first one, none on the others. -/
def chunkMessage (msg : RtmpMessage) (csid chunkSize : Nat) : Except ProtocolError Bytes :=
  if 2 ^ 32 ≤ msg.payload.length then
    .error (malformed "message payload does not fit RTMP's 24-bit length field")
  else
    chunkFrom msg csid (max chunkSize 1) (msg.payload.length + 1) true msg.payload

/-! ## Control messages -/

/-- The chunk size that a message announces: a Set Chunk Size message carries it in its low 31
bits. -/
def announcedSize (msg : RtmpMessage) : Except ProtocolError (Option Nat) :=
  if msg.messageTypeId = 1#8 then
    if msg.payload.length = 4 then
      .ok (some (beNat msg.payload % 2 ^ 31))
    else
      .error (malformed "Set Chunk Size needs 4 bytes")
  else
    .ok none

end Rtmp
end Vaco
