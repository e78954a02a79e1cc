import Vaco.Sched.Wire
import Vaco.Ogg.Headers

/-!
# Reassembly in the Ogg demuxer

Each page belongs to one logical stream.  Its runs are packets and parts of packets; a part at the
end of a page waits in the stream's pending buffer for the next page of the stream.  Only the
flag of a page and whether something is pending decide whether its first run goes on with what is
pending.

Main results:

- `OggDemuxer.acceptPage`: what one page does once it has been read.

Current gaps:

- Comments and extradata are left out, and of a stream that is exposed only its codec is kept.
  The timestamps of a stream's packets are modelled apart, page by page.
- What an error leaves behind is not modelled: nothing is read after one.
-/

namespace Vaco
namespace Ogg

open Library BitStream
open Vaco.Core (Byte Error)
open Sched (Budget LimitError)

/-- The largest that a packet may grow across pages. -/
def maxPacketBytes : Nat :=
  33554432

/-- What a packet's buffer takes beside its bytes: padding for readers and for alignment. -/
def bufferOverhead : Nat :=
  64 + 63

/-- Counters for triage. -/
structure OggDemuxStats where
  danglingContinuations : Nat
  oversizedPackets : Nat
  sequenceGaps : Nat
deriving DecidableEq, Repr

/-- A logical stream. -/
structure LogicalStream where
  serial : Nat
  streamIndex : Nat
  codec : OggCodec
  headerTotal : Nat
  headerSeen : Nat
  pending : Bytes
  pendingOpen : Bool
  lastSequence : Option Nat
  eos : Bool
deriving DecidableEq, Repr

structure DemuxedPacket where
  streamIndex : Nat
  data : Bytes
deriving DecidableEq, Repr

/-- The demuxer behind its reader of pages. -/
structure OggDemuxer where
  streams : List OggCodec
  logical : List LogicalStream
  budget : Budget
  queue : List DemuxedPacket
  stats : OggDemuxStats
deriving DecidableEq

/-! ## One stream -/

structure Assembly where
  stream : LogicalStream
  budget : Budget
  stats : OggDemuxStats
deriving DecidableEq

namespace Assembly

/-- Count a page whose sequence number does not follow the one before. -/
def checkSequenceGap (a : Assembly) (sequence : Nat) : Assembly :=
  { a with
    stream := { a.stream with lastSequence := some sequence }
    stats :=
      match a.stream.lastSequence with
      | none => a.stats
      | some prev =>
          if sequence ≠ (prev + 1) % 2 ^ 32 then
            { a.stats with sequenceGaps := satAddU64 a.stats.sequenceGaps 1 }
          else
            a.stats }

/-- Count a page whose flag does not agree with what is pending. -/
def noteDangling (a : Assembly) : Assembly :=
  { a with
    stats :=
      { a.stats with danglingContinuations := satAddU64 a.stats.danglingContinuations 1 } }

/-- Drop what is pending. -/
def discardPending (a : Assembly) : Assembly :=
  { a with
    stream :=
      { a.stream with
        pending := []
        pendingOpen := false }
    budget := a.budget.release a.stream.pending.length }

/-- Add to what is pending, dropping all of it where it grows too large. -/
def appendPending (a : Assembly) (chunk : Bytes) : Except Error Assembly :=
  match a.budget.charge chunk.length with
  | .error e => .error e.toError
  | .ok budget =>
      if maxPacketBytes < a.stream.pending.length + chunk.length then
        .ok
          { stream :=
              { a.stream with
                pending := []
                pendingOpen := false }
            budget := (budget.release a.stream.pending.length).release chunk.length
            stats :=
              { a.stats with oversizedPackets := satAddU64 a.stats.oversizedPackets 1 } }
      else
        .ok
          { a with
            stream := { a.stream with pending := a.stream.pending ++ chunk }
            budget := budget }

/-- Mark what is pending as open. -/
def openPending (a : Assembly) : Assembly :=
  { a with stream := { a.stream with pendingOpen := true } }

/-- What is left once the pending packet has been taken. -/
def takePending (a : Assembly) : Assembly :=
  { a with
    stream :=
      { a.stream with
        pending := []
        pendingOpen := false }
    budget := a.budget.release a.stream.pending.length }

/-- The runs of a page that do not go on with what is pending. -/
def takeRuns (a : Assembly) : List (Bytes × Bool) → List Bytes → Except Error (Assembly × List Bytes)
  | [], completed => .ok (a, completed)
  | (chunk, true) :: rest, completed => takeRuns a rest (completed ++ [chunk])
  | (chunk, false) :: rest, completed =>
      match a.appendPending chunk with
      | .error e => .error e
      | .ok a => takeRuns a.openPending rest completed

/-- All runs of a page: the first one goes on with what is pending where the page says so and
something is. -/
def reassemble (a : Assembly) (continuing : Bool) :
    List (Bytes × Bool) → Except Error (Assembly × List Bytes)
  | [] => .ok (a, [])
  | (chunk, complete) :: rest =>
      if continuing && a.stream.pendingOpen then
        match a.appendPending chunk with
        | .error e => .error e
        | .ok a =>
            if complete then
              a.takePending.takeRuns rest [a.stream.pending]
            else
              a.takeRuns rest []
      else if continuing != a.stream.pendingOpen then
        a.noteDangling.discardPending.takeRuns ((chunk, complete) :: rest) []
      else
        a.takeRuns ((chunk, complete) :: rest) []

end Assembly

/-- Count the packets that are headers still, and keep the ones that are data. -/
def LogicalStream.classify (l : LogicalStream) : List Bytes → LogicalStream × List Bytes
  | [] => (l, [])
  | bytes :: rest =>
      if l.headerSeen < l.headerTotal then
        { l with headerSeen := l.headerSeen + 1 }.classify rest
      else
        ((l.classify rest).1, bytes :: (l.classify rest).2)

/-! ## The demuxer -/

/-- The runs of a page: their bytes, and whether a packet ends with them. -/
def pageRuns (header : OggPageHeader) (body : Bytes) : List (Bytes × Bool) :=
  (packetSpans header.segments).map fun span => (span.chunk body, span.complete)

namespace OggDemuxer

/-- A demuxer that has read nothing. -/
def new (budget : Budget) : OggDemuxer where
  streams := []
  logical := []
  budget := budget
  queue := []
  stats := ⟨0, 0, 0⟩

/-- The position of the stream with a serial number. -/
def logicalIndex (d : OggDemuxer) (serial : Nat) : Option Nat :=
  d.logical.findIdx? fun l => l.serial == serial

/-- The first packet of a page, or what the page has of it. -/
def bosBytes (header : OggPageHeader) (body : Bytes) : Bytes :=
  ((pageRuns header body).head?.map Prod.fst).getD []

/-- A stream that begins with a page. -/
def newStream (d : OggDemuxer) (header : OggPageHeader) (body : Bytes) : LogicalStream where
  serial := header.serial
  streamIndex := d.streams.length
  codec := identify (bosBytes header body)
  headerTotal := totalHeaderPackets (identify (bosBytes header body)) (bosBytes header body)
  headerSeen := 0
  pending := []
  pendingOpen := false
  lastSequence := none
  eos := false

/-- Register the stream that begins with a page. -/
def beginLogicalStream (d : OggDemuxer) (header : OggPageHeader) (body : Bytes) : OggDemuxer :=
  { d with
    streams := d.streams ++ [identify (bosBytes header body)]
    logical := d.logical ++ [d.newStream header body] }

def withStream (d : OggDemuxer) (header : OggPageHeader) (body : Bytes) : OggDemuxer :=
  match d.logicalIndex header.serial with
  | none => d.beginLogicalStream header body
  | some _ => d

def streamOf (d : OggDemuxer) (header : OggPageHeader) : Nat :=
  (d.logicalIndex header.serial).getD d.logical.length

/-- Queue packets of a stream, leaving out those that the budget refuses. -/
def emit (streamIndex : Nat) : Budget → List Bytes → Budget × List DemuxedPacket
  | budget, [] => (budget, [])
  | budget, bytes :: rest =>
      match budget.charge (bytes.length + bufferOverhead) with
      | .error _ => emit streamIndex budget rest
      | .ok budget => ((emit streamIndex budget rest).1,
          ⟨streamIndex, bytes⟩ :: (emit streamIndex budget rest).2)

/-- What one page does once it has been read. -/
def acceptPage (d : OggDemuxer) (header : OggPageHeader) (body : Bytes) :
    Except Error OggDemuxer :=
  match (d.withStream header body).logical[d.streamOf header]? with
  | none => .ok (d.withStream header body)
  | some l =>
      match (Assembly.mk l d.budget d.stats |>.checkSequenceGap header.sequence).reassemble
          header.flags.continued (pageRuns header body) with
      | .error e => .error e
      | .ok (a, completed) =>
          let classified := a.stream.classify completed
          let emitted := emit l.streamIndex a.budget classified.2
          .ok
            { streams := (d.withStream header body).streams
              logical := (d.withStream header body).logical.set (d.streamOf header)
                { classified.1 with eos := classified.1.eos || header.flags.eos }
              budget := emitted.1
              queue := d.queue ++ emitted.2
              stats := a.stats }

def acceptPages (d : OggDemuxer) : List (OggPageHeader × Bytes) → OggDemuxer × Except Error Unit
  | [] => (d, .ok ())
  | (header, body) :: rest =>
      match d.acceptPage header body with
      | .error e => (d, .error e)
      | .ok d => d.acceptPages rest

/-- What a seek to a byte leaves: nothing pending and nothing queued. -/
def afterSeek (d : OggDemuxer) : OggDemuxer :=
  { d with
    queue := []
    logical := d.logical.map fun l =>
      { l with
        pending := []
        pendingOpen := false } }

end OggDemuxer

end Ogg
end Vaco
