import Vaco.Rtmp.ChunkRuns

/-!
# Feeding as bytes arrive

The bytes of a peer's chunks arrive in segments.  One call takes every chunk that is there, all with
the chunk size of before the call; a Set Chunk Size message among them takes effect behind it.

Main results:

- `Dechunker.feed_eq`: what one call takes.
- `same_messages_of_timely`: which segmentations give the same messages.

Current gaps:

- A caller that is told of a malformed Set Chunk Size message goes on with its chunk size.
-/

namespace Vaco
namespace Rtmp

open Library BitStream ByteWords
open Vaco.Core (ProtocolError)
open Sched (Limits)

/-! ## Chunk sizes -/

def sizeBehind (announced : RtmpMessage → Option Nat) (size : Nat) (msgs : List RtmpMessage) :
    Nat :=
  msgs.foldl (fun size msg => (announced msg).getD size) size

/-- What the caller applies of a message: the size that it announces, if it is a good one. -/
def appliedSize (msg : RtmpMessage) : Option Nat :=
  match announcedSize msg with
  | .ok size => size
  | .error _ => none

/-- Each chunk is as long as the chunk size lets it be, and each message that begins has room. -/
def Peer.Sends (limits : Limits) (announced : RtmpMessage → Option Nat) :
    Nat → Peer → List WireChunk → Prop
  | _, _, [] => True
  | size, peer, c :: cs =>
      (peer.streams c.csid).Allows c ∧ peer.Room limits c ∧
        c.payload.length = min ((peer.streams c.csid).due c) size ∧
          (peer.send c).1.Sends limits announced (sizeBehind announced size (peer.send c).2.toList)
            cs

instance Peer.decidableSends (limits : Limits) (announced : RtmpMessage → Option Nat) :
    (size : Nat) → (peer : Peer) → (cs : List WireChunk) →
      Decidable (peer.Sends limits announced size cs)
  | _, _, [] => .isTrue trivial
  | size, peer, c :: cs =>
      have := Peer.decidableSends limits announced
        (sizeBehind announced size (peer.send c).2.toList) (peer.send c).1 cs
      inferInstanceAs (Decidable (_ ∧ _ ∧ _ ∧ _))

/-! ## What a reader takes -/

def Peer.readLength (peer : Peer) (size : Nat) (c : WireChunk) : Nat :=
  c.head.length + min ((peer.streams c.csid).due c) size

def Peer.taken (size : Nat) : Peer → List WireChunk → Nat → Nat
  | _, [], _ => 0
  | peer, c :: cs, available =>
      if peer.readLength size c ≤ available then
        (peer.send c).1.taken size cs (available - c.bytes.length) + 1
      else
        0

def Peer.Aligned (size : Nat) : Peer → List WireChunk → Nat → Prop
  | _, [], _ => True
  | peer, c :: cs, available =>
      peer.readLength size c ≤ available →
        peer.readLength size c = c.bytes.length ∧
          (peer.send c).1.Aligned size cs (available - c.bytes.length)

instance Peer.decidableAligned (size : Nat) :
    (peer : Peer) → (cs : List WireChunk) → (available : Nat) →
      Decidable (peer.Aligned size cs available)
  | _, [], _ => .isTrue trivial
  | peer, c :: cs, available =>
      have := Peer.decidableAligned size (peer.send c).1 cs (available - c.bytes.length)
      inferInstanceAs (Decidable (peer.readLength size c ≤ available → _ ∧ _))

/-- What a peer has sent behind some chunks. -/
def Peer.after (peer : Peer) : List WireChunk → Peer
  | [] => peer
  | c :: cs => (peer.send c).1.after cs

/-- The bytes of some chunks. -/
def wireBytes (cs : List WireChunk) : Bytes :=
  cs.flatMap WireChunk.bytes

/-- The chunks that are whole in some bytes. -/
def wholeChunks : List WireChunk → Nat → List WireChunk
  | [], _ => []
  | c :: cs, available =>
      if c.bytes.length ≤ available then
        c :: wholeChunks cs (available - c.bytes.length)
      else
        []

/-- In no call does the chunk size of before cut a chunk wrongly, and the last leaves no whole
chunk. -/
def Peer.Timely (announced : RtmpMessage → Option Nat) :
    Nat → Peer → List WireChunk → Nat → List Bytes → Prop
  | _, _, cs, held, [] => wholeChunks cs held = []
  | size, peer, cs, held, data :: segments =>
      let count := peer.taken size cs (held + data.length)
      peer.Aligned size cs (held + data.length) ∧
        (peer.after (cs.take count)).Timely announced
          (sizeBehind announced size (peer.messages (cs.take count))) (cs.drop count)
          (held + data.length - (wireBytes (cs.take count)).length) segments

instance Peer.decidableTimely (announced : RtmpMessage → Option Nat) :
    (size : Nat) → (peer : Peer) → (cs : List WireChunk) → (held : Nat) →
      (segments : List Bytes) → Decidable (peer.Timely announced size cs held segments)
  | _, _, cs, held, [] => inferInstanceAs (Decidable (wholeChunks cs held = []))
  | size, peer, cs, held, data :: segments =>
      have := Peer.decidableTimely announced
        (sizeBehind announced size
          (peer.messages (cs.take (peer.taken size cs (held + data.length)))))
        (peer.after (cs.take (peer.taken size cs (held + data.length))))
        (cs.drop (peer.taken size cs (held + data.length)))
        (held + data.length -
          (wireBytes (cs.take (peer.taken size cs (held + data.length)))).length) segments
      inferInstanceAs (Decidable (_ ∧ _))

theorem length_wireBytes_cons (c : WireChunk) (cs : List WireChunk) :
    (wireBytes (c :: cs)).length = c.bytes.length + (wireBytes cs).length :=
  (congrArg List.length List.flatMap_cons).trans List.length_append

theorem wireBytes_split (cs : List WireChunk) (count : Nat) :
    wireBytes cs = wireBytes (cs.take count) ++ wireBytes (cs.drop count) := by
  rw [wireBytes, wireBytes, wireBytes, ← List.flatMap_append, List.take_append_drop]

theorem wholeChunks_split (cs : List WireChunk) (count : Nat) {available : Nat}
    (h : (wireBytes (cs.take count)).length ≤ available) :
    wholeChunks cs available =
      cs.take count ++
        wholeChunks (cs.drop count) (available - (wireBytes (cs.take count)).length) := by
  induction cs generalizing count available with
  | nil =>
      rw [List.take_nil, List.drop_nil]
      rfl
  | cons c cs ih =>
      cases count with
      | zero => rfl
      | succ count =>
          rw [List.take_succ_cons, length_wireBytes_cons] at h
          rw [List.take_succ_cons, List.drop_succ_cons, length_wireBytes_cons, wholeChunks,
            if_pos (by omega), ih count (by omega), Nat.sub_add_eq, List.cons_append]

theorem Peer.messages_append (peer : Peer) (cs cs' : List WireChunk) :
    peer.messages (cs ++ cs') = peer.messages cs ++ (peer.after cs).messages cs' := by
  induction cs generalizing peer with
  | nil => rfl
  | cons c cs ih =>
      rw [List.cons_append, messages, messages, ih, List.append_assoc]
      rfl

theorem Peer.Sends.drop {limits : Limits} {announced : RtmpMessage → Option Nat} {size : Nat}
    {peer : Peer} {cs : List WireChunk} (h : peer.Sends limits announced size cs) (count : Nat) :
    (peer.after (cs.take count)).Sends limits announced
      (sizeBehind announced size (peer.messages (cs.take count))) (cs.drop count) := by
  induction cs generalizing peer size count with
  | nil =>
      rw [List.take_nil, List.drop_nil]
      trivial
  | cons c cs ih =>
      cases count with
      | zero => exact h
      | succ count =>
          have hrest := ih h.2.2.2 count
          rw [sizeBehind, sizeBehind, ← List.foldl_append] at hrest
          exact hrest

namespace Dechunker

/-- Take segments as they arrive, and change the chunk size as soon as a message announces it. -/
def receive (announced : RtmpMessage → Option Nat) (d : Dechunker) :
    List Bytes → Except ProtocolError (Dechunker × List RtmpMessage)
  | [] => .ok (d, [])
  | data :: segments =>
      match d.feed data with
      | .error e => .error e
      | .ok (d, msgs) =>
          match (d.setChunkSize (sizeBehind announced d.chunkSize msgs)).receive announced
              segments with
          | .error e => .error e
          | .ok (d, more) => .ok (d, msgs ++ more)

variable {limits : Limits} {announced : RtmpMessage → Option Nat}

/-- The chunks that are there are taken, and the others stay. -/
theorem drain_eq {cs : List WireChunk} {d : Dechunker} {peer : Peer} {size n fuel : Nat}
    {out : List RtmpMessage} (h : Holds limits d peer) (hsends : peer.Sends limits announced size cs)
    (haligned : peer.Aligned d.chunkSize cs n) (hn : n ≤ (wireBytes cs).length)
    (hbuf : d.buf = (wireBytes cs).take n) (hfuel : n < fuel) :
    ∃ d', drain fuel d out =
        .ok (d', out ++ peer.messages (cs.take (peer.taken d.chunkSize cs n))) ∧
      d'.chunkSize = d.chunkSize ∧
      Holds limits d' (peer.after (cs.take (peer.taken d.chunkSize cs n))) ∧
      (wireBytes (cs.take (peer.taken d.chunkSize cs n))).length ≤ n ∧
      d'.buf = (wireBytes (cs.drop (peer.taken d.chunkSize cs n))).take
        (n - (wireBytes (cs.take (peer.taken d.chunkSize cs n))).length) := by
  induction cs generalizing d peer size n fuel out with
  | nil =>
      rcases fuel with _ | fuel
      · exact absurd hfuel (Nat.not_lt_zero n)
      have hempty : d.buf = [] := hbuf.trans List.take_nil
      have hmore : d.tryTakeOne = .ok (d, .needMoreData) := by
        rw [tryTakeOne, hempty]
        rfl
      refine ⟨d, ?_, rfl, h, Nat.zero_le n, ?_⟩
      · rw [drain, hmore]
        exact congrArg (fun msgs => Except.ok (d, msgs)) (List.append_nil out).symm
      · rw [hempty]
        exact List.take_nil.symm
  | cons c cs ih =>
      rcases fuel with _ | fuel
      · exact absurd hfuel (Nat.not_lt_zero n)
      rcases hsends with ⟨hallows, hroom, -, hsends⟩
      have hwire : wireBytes (c :: cs) = c.bytes ++ wireBytes cs := List.flatMap_cons
      rw [hwire, List.length_append] at hn
      rw [hwire] at hbuf
      by_cases hthere : peer.readLength d.chunkSize c ≤ n
      · rcases haligned hthere with ⟨hcut, haligned⟩
        have hlen : c.payload.length = min ((peer.streams c.csid).due c) d.chunkSize := by
          rw [Peer.readLength, WireChunk.bytes, List.length_append] at hcut
          omega
        have hpos : 0 < c.bytes.length := by
          have hhead := c.length_head_pos
          rw [WireChunk.bytes, List.length_append]
          omega
        have hbuf' : d.buf = c.bytes ++ (wireBytes cs).take (n - c.bytes.length) := by
          rw [hbuf, List.take_append, List.take_of_length_le (by omega)]
        rcases tryTakeOne_whole h hallows hroom hlen hbuf' with
          ⟨d₁, htake, hrest, hsize, hholds⟩
        rw [← hsize] at haligned
        rcases @ih d₁ _ _ _ fuel (out ++ (peer.send c).2.toList) hholds hsends haligned (by omega)
          hrest (by omega) with ⟨d', hdrain, hsize', hholds', hle, hleft⟩
        have hcount : peer.taken d.chunkSize (c :: cs) n =
            (peer.send c).1.taken d₁.chunkSize cs (n - c.bytes.length) + 1 := by
          rw [Peer.taken, if_pos hthere, hsize]
        have hstep : drain (fuel + 1) d out = drain fuel d₁ (out ++ (peer.send c).2.toList) := by
          rw [drain, htake]
          cases (peer.send c).2 with
          | none => exact congrArg (drain fuel d₁) (List.append_nil out).symm
          | some msg => rfl
        rw [hcount, List.take_succ_cons, List.drop_succ_cons, length_wireBytes_cons, hstep, hdrain,
          List.append_assoc]
        refine ⟨d', rfl, hsize'.trans hsize, hholds', by omega, ?_⟩
        rw [hleft, Nat.sub_add_eq]
      · have hcount : peer.taken d.chunkSize (c :: cs) n = 0 := by
          rw [Peer.taken, if_neg hthere]
        have hmore : d.tryTakeOne = .ok (d, .needMoreData) :=
          tryTakeOne_part h hallows hbuf (not_le.mp hthere)
        rw [hcount, drain, hmore]
        refine ⟨d, ?_, rfl, h, Nat.zero_le n, ?_⟩
        · exact congrArg (fun msgs => Except.ok (d, msgs)) (List.append_nil out).symm
        · rw [hbuf, ← hwire]
          rfl

/-- One call takes the chunks that are there, when its chunk size cuts them where the peer did. -/
theorem feed_eq {cs : List WireChunk} {d : Dechunker} {peer : Peer} {size held : Nat} {data : Bytes}
    (h : Holds limits d peer) (hsends : peer.Sends limits announced size cs)
    (haligned : peer.Aligned d.chunkSize cs (held + data.length)) {more : Bytes}
    (hheld : held ≤ (wireBytes cs).length) (hbuf : d.buf = (wireBytes cs).take held)
    (hdata : (wireBytes cs).drop held = data ++ more) :
    ∃ d', d.feed data = .ok (d',
        peer.messages (cs.take (peer.taken d.chunkSize cs (held + data.length)))) ∧
      d'.chunkSize = d.chunkSize ∧
      Holds limits d' (peer.after (cs.take (peer.taken d.chunkSize cs (held + data.length)))) ∧
      (wireBytes (cs.take (peer.taken d.chunkSize cs (held + data.length)))).length ≤
        held + data.length ∧
      d'.buf = (wireBytes (cs.drop (peer.taken d.chunkSize cs (held + data.length)))).take
        (held + data.length -
          (wireBytes (cs.take (peer.taken d.chunkSize cs (held + data.length)))).length) := by
  have hlen : (wireBytes cs).length = held + (data.length + more.length) := by
    have hsplit := congrArg List.length hdata
    rw [List.length_drop, List.length_append] at hsplit
    omega
  have hall : d.buf ++ data = (wireBytes cs).take (held + data.length) := by
    rw [hbuf, List.take_add, hdata, List.take_left]
  have hheld' : (d.buf ++ data).length = held + data.length := by
    rw [hall, List.length_take, min_eq_left (by omega)]
  have hholds : Holds limits { d with buf := d.buf ++ data } peer :=
    { header_eq := h.header_eq
      matched := h.matched
      limits_eq := h.limits_eq
      pending_eq := h.pending_eq
      inFlight_le := h.inFlight_le
      accounted := h.accounted }
  rw [feed, hheld']
  exact drain_eq hholds hsends haligned (by omega) hall (Nat.lt_succ_self _)

/-- Segments that are timely give the messages of the chunks that are whole in them. -/
theorem receive_eq {segments : List Bytes} {cs : List WireChunk} {d : Dechunker} {peer : Peer}
    {size held : Nat} {more : Bytes} (h : Holds limits d peer)
    (hsends : peer.Sends limits announced size cs)
    (htimely : peer.Timely announced d.chunkSize cs held segments)
    (hheld : held ≤ (wireBytes cs).length) (hbuf : d.buf = (wireBytes cs).take held)
    (hdata : (wireBytes cs).drop held = segments.flatten ++ more) :
    ∃ d', d.receive announced segments =
      .ok (d', peer.messages (wholeChunks cs (held + segments.flatten.length))) := by
  induction segments generalizing cs d peer size held with
  | nil =>
      have hdone : wholeChunks cs held = [] := htimely
      refine ⟨d, ?_⟩
      rw [List.flatten_nil, List.length_nil, Nat.add_zero, hdone]
      rfl
  | cons data segments ih =>
      rcases htimely with ⟨haligned, htimely⟩
      rw [List.flatten_cons, List.append_assoc] at hdata
      rcases feed_eq h hsends haligned hheld hbuf hdata with
        ⟨d₁, hfeed, hsize, hholds, hle, hleft⟩
      have hsends' := hsends.drop (peer.taken d.chunkSize cs (held + data.length))
      have hrest : (wireBytes cs).drop (held + data.length) = segments.flatten ++ more := by
        rw [← List.drop_drop, hdata, List.drop_left]
      have hlen : held + data.length ≤ (wireBytes cs).length := by
        have hsplit := congrArg List.length hdata
        rw [List.length_drop, List.length_append] at hsplit
        omega
      rw [wireBytes_split cs (peer.taken d.chunkSize cs (held + data.length))] at hrest hlen
      rw [List.drop_append, List.drop_of_length_le hle, List.nil_append] at hrest
      rw [List.length_append] at hlen
      have hholds' : Holds limits
          (d₁.setChunkSize (sizeBehind announced d.chunkSize
            (peer.messages (cs.take (peer.taken d.chunkSize cs (held + data.length))))))
          (peer.after (cs.take (peer.taken d.chunkSize cs (held + data.length)))) :=
        { header_eq := hholds.header_eq
          matched := hholds.matched
          limits_eq := hholds.limits_eq
          pending_eq := hholds.pending_eq
          inFlight_le := hholds.inFlight_le
          accounted := hholds.accounted }
      rcases ih hholds' hsends' htimely (by omega) hleft hrest with ⟨d', hreceive⟩
      have hwhole := wholeChunks_split cs (peer.taken d.chunkSize cs (held + data.length))
        (hle.trans (Nat.le_add_right _ segments.flatten.length))
      rw [receive, hfeed]
      dsimp only
      rw [hsize, hreceive, List.flatten_cons, List.length_append, ← Nat.add_assoc, hwhole,
        Peer.messages_append, Nat.sub_add_comm hle]
      exact ⟨d', rfl⟩

end Dechunker

/-- The messages that come out of the segments of a connection. -/
def received (limits : Limits) (segments : List Bytes) : Except ProtocolError (List RtmpMessage) :=
  ((Dechunker.new limits).receive appliedSize segments).map Prod.snd

/-- Two segmentations give the messages that the peer has sent, when the chunk size of before a call
never cuts a chunk wrongly. -/
theorem same_messages_of_timely (limits : Limits) (cs : List WireChunk)
    (hsends : Peer.initial.Sends limits appliedSize 128 cs) (stream more : Bytes)
    (hwire : stream ++ more = wireBytes cs) (segments segments' : List Bytes)
    (hsegments : segments.flatten = stream) (hsegments' : segments'.flatten = stream)
    (htimely : Peer.initial.Timely appliedSize 128 cs 0 segments)
    (htimely' : Peer.initial.Timely appliedSize 128 cs 0 segments') :
    received limits segments = received limits segments' ∧
      received limits segments =
        .ok (Peer.initial.messages (wholeChunks cs stream.length)) := by
  have hreceived : ∀ segments : List Bytes, segments.flatten = stream →
      Peer.initial.Timely appliedSize 128 cs 0 segments →
        received limits segments =
          .ok (Peer.initial.messages (wholeChunks cs stream.length)) := by
    intro segments hsegments htimely
    have hdata : (wireBytes cs).drop 0 = segments.flatten ++ more := by
      rw [List.drop_zero, hsegments, hwire]
    rcases Dechunker.receive_eq (holds_new limits) hsends htimely (Nat.zero_le _) rfl hdata with
      ⟨d', hreceive⟩
    rw [received, hreceive, hsegments, Nat.zero_add]
    rfl
  exact ⟨(hreceived segments hsegments htimely).trans (hreceived segments' hsegments' htimely').symm,
    hreceived segments hsegments htimely⟩

/-- A peer announces chunks of one byte, and sends two of them. -/
def announcing : List WireChunk :=
  [⟨2, .type0 0 4 1#8 0, none, [0#8, 0#8, 0#8, 1#8]⟩, ⟨3, .type0 0 2 9#8 1, none, [7#8]⟩,
    ⟨3, .type3, none, [8#8]⟩]

theorem thousand_le_u64Max : 1000 ≤ u64Max := Nat.le_of_ble_eq_true rfl

/-- Limits that a short connection does not reach. -/
def ample : Limits where
  maxAllocTotal := 1000
  maxAllocSingle := 1000
  total_le := thousand_le_u64Max

/-- The announcement in a segment of its own, or in two. -/
theorem announcing_alone :
    received ample [(wireBytes announcing).take 16, (wireBytes announcing).drop 16] =
        received ample [(wireBytes announcing).take 5, ((wireBytes announcing).take 16).drop 5,
          (wireBytes announcing).drop 16] ∧
      received ample [(wireBytes announcing).take 16, (wireBytes announcing).drop 16] =
        .ok (Peer.initial.messages (wholeChunks announcing (wireBytes announcing).length)) :=
  same_messages_of_timely ample announcing (by decide +kernel) (wireBytes announcing) []
    (List.append_nil _) [(wireBytes announcing).take 16, (wireBytes announcing).drop 16]
    [(wireBytes announcing).take 5, ((wireBytes announcing).take 16).drop 5,
      (wireBytes announcing).drop 16]
    (by decide +kernel) (by decide +kernel) (by decide +kernel) (by decide +kernel)

/-- With the announcement in the segment of the chunks behind it, the first of them is read with the
old chunk size. -/
theorem announcing_coalesced :
    Peer.initial.Sends ample appliedSize 128 announcing ∧
      [wireBytes announcing].flatten = wireBytes announcing ∧
      [(wireBytes announcing).take 16, (wireBytes announcing).drop 16].flatten =
        wireBytes announcing ∧
      received ample [wireBytes announcing] ≠
        received ample [(wireBytes announcing).take 16, (wireBytes announcing).drop 16] ∧
      received ample [wireBytes announcing] ≠
        .ok (Peer.initial.messages (wholeChunks announcing (wireBytes announcing).length)) := by
  decide +kernel

end Rtmp
end Vaco
