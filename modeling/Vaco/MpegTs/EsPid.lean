import Vaco.Codec.AudioTrim
import Vaco.MpegTs.ProgramClock
import Vaco.MpegTs.TsPacket

/-!
# Reassembly of PES packets

The demultiplexer collects the payloads of one elementary PID.  A PES packet is handed
on when its declared length has arrived, or when the next one starts; a gap in the
continuity counter marks what is being collected as corrupt.

Main results:

- `PidDemuxer.flushPes_packets`: what a flush hands on.
- `checkContinuity_of_advance`: the verdict on a packet.

Current gaps:

- The scans made when a file is opened hand on no packet and are left out, and so are the
  index, the estimate of durations and the sample rate read from a first audio frame.
- The frames of an audio payload are those of any splitting function.
-/

namespace Vaco
namespace MpegTs

open Library Library.BitStream Library.ByteWords Vaco.Core Vaco.Format
open Sched (Budget)
open Codec (allocBuffer)

/-! ## The PES header -/

/-- The fixed part of every PES header. -/
def pesPrefixLen : Nat := 6

/-- The packet start code. -/
def startCode : Bytes := [0x00, 0x00, 0x01]

/-- The identifier of a padding stream. -/
def sidPadding : BitVec 8 := 0xBE

/-- The stream identifiers that introduce no optional header. -/
def plainStreamIds : List (BitVec 8) :=
  [0xBC, sidPadding, 0xBF, 0xF0, 0xF1, 0xFF, 0xF2, 0xF8]

def hasOptionalHeader (streamId : BitVec 8) : Bool :=
  !plainStreamIds.contains streamId

/-- Decode a 33-bit timestamp from its five bytes; the marker bits are not checked. -/
def decodeTimestamp : Bytes → Timestamp
  | b0 :: b1 :: b2 :: b3 :: b4 :: _ =>
      some (clampI64 ((b0.toNat / 2 % 8) * 2 ^ 30 + b1.toNat * 2 ^ 22 +
        (b2.toNat / 2) * 2 ^ 15 + b3.toNat * 2 ^ 7 + b4.toNat / 2 : Nat))
  | _ => none

/-- A decoded PES header. -/
structure PesHeader where
  streamId : BitVec 8
  packetLength : Nat
  payloadOffset : Nat
  pts : Timestamp
  dts : Timestamp
  dataAlignment : Bool
  scrambling : Nat
deriving DecidableEq

namespace PesHeader

/-- The optional header behind the fixed part. -/
def parseOptional (streamId : BitVec 8) (packetLength : Nat) : Bytes → Option PesHeader
  | f0 :: f1 :: headerLen :: rest =>
      if f0 &&& 0xC0 ≠ 0x80 then none
      else if rest.length < headerLen.toNat then none
      else
        let optional := rest.take headerLen.toNat
        some
          { streamId
            packetLength
            payloadOffset := pesPrefixLen + 3 + headerLen.toNat
            pts := if f1.toNat / 64 = 2 ∨ f1.toNat / 64 = 3 then decodeTimestamp optional else none
            dts := if f1.toNat / 64 = 3 then decodeTimestamp (optional.drop 5) else none
            dataAlignment := hasBit f0 0x04
            scrambling := f0.toNat / 16 % 4 }
  | _ => none

/-- Parse the header at the start of `buf`. -/
def parse : Bytes → Option PesHeader
  | s0 :: s1 :: s2 :: streamId :: l0 :: l1 :: ext =>
      if [s0, s1, s2] ≠ startCode then none
      else if !hasOptionalHeader streamId then
        some
          { streamId
            packetLength := beNat [l0, l1]
            payloadOffset := pesPrefixLen
            pts := none
            dts := none
            dataAlignment := false
            scrambling := 0 }
      else parseOptional streamId (beNat [l0, l1]) ext
  | _ => none

def totalLen (h : PesHeader) : Option Nat :=
  if h.packetLength = 0 then none else some (pesPrefixLen + h.packetLength)

def isPadding (h : PesHeader) : Bool :=
  h.streamId == sidPadding

end PesHeader

/-- The total size that the bytes collected declare, absent without a length field. -/
def declaredTotal (buf : Bytes) : Option Nat :=
  if buf.length < pesPrefixLen then none
  else
    let declared := beNat ((buf.drop 4).take 2)
    if declared = 0 then none else some (declared + pesPrefixLen)

/-! ## The state of one PID -/

/-- One frame found in an audio payload. -/
structure SplitFrame where
  offset : Nat
  len : Nat
  samples : Nat
  sampleRate : Nat
deriving DecidableEq

/-- Whether the codec is video, and how its payloads are split into frames. -/
structure StreamKind where
  video : Bool
  split : Bytes → List SplitFrame

/-- A packet handed on, with the flags and the position of the source. -/
structure EsPacket where
  payload : Bytes
  pts : Timestamp
  dts : Timestamp
  pos : Option Nat
  key : Bool
  corrupt : Bool
  streamId : BitVec 8
deriving DecidableEq

/-- Elementary stream state of one PID. -/
structure EsPid where
  buf : Bytes
  total : Option Nat
  started : Bool
  cc : Option Nat
  pos : Nat
  corrupt : Bool
  key : Bool
  discontinuity : Bool
  held : List EsPacket

/-- Counters for triage. -/
structure DemuxStats where
  continuityGaps : Nat := 0
  duplicates : Nat := 0
  oversizedPes : Nat := 0
deriving DecidableEq

/-- What the demultiplexer keeps for one PID. -/
structure PidDemuxer where
  es : EsPid
  clock : ProgramClock
  budget : Budget
  queue : List EsPacket
  stats : DemuxStats

/-- The largest PES packet that is collected. -/
def maxPesBytes : Nat := 6 * 2 ^ 20

/-- The bytes behind the payload of a packet that a bit reader may touch. -/
def bitstreamPadding : Nat := 64

/-- How a packet follows the one before. -/
inductive Continuity where
  | ok
  | duplicate
  | gap
deriving DecidableEq

/-- Compare a packet's counter with the last one; it advances on packets with a payload. -/
def checkContinuity (prev : Option Nat) (cc : Nat) (hasPayload discontinuity : Bool) :
    Option Nat × Continuity :=
  if discontinuity then (some cc, .ok)
  else
    match prev with
    | none => (some cc, .ok)
    | some last =>
        let expected := if hasPayload then (last + 1) % 16 else last
        if cc = expected then (some cc, .ok)
        else if cc = last ∧ hasPayload then (some last, .duplicate)
        else (some cc, .gap)

/-! ## Handing packets on -/

/-- The time of a frame behind some samples of its payload, in ticks of the container. -/
def frameDelta (samplesBefore sampleRate : Nat) : I64 :=
  if samplesBefore = 0 then clampI64 0
  else
    ((muldivRnd samplesBefore 90000 sampleRate .nearestAwayFromZero).bind toI64?).getD (clampI64 0)

/-- The bytes of a frame. -/
def SplitFrame.slice (payload : Bytes) (frame : SplitFrame) : Bytes :=
  (payload.drop frame.offset).take frame.len

/-- Allocate a packet's payload. -/
def chargePacket (b : Budget) (len : Nat) : Except Error Budget :=
  (allocBuffer b (len + bitstreamPadding)).map Prod.fst

def framePackets (first : EsPacket) :
    Nat → List SplitFrame → Budget → Budget × List EsPacket × Option Error
  | _, [], b => (b, [], none)
  | samplesBefore, frame :: frames, b =>
      if first.payload.length < frame.offset + frame.len then (b, [], none)
      else
        match chargePacket b frame.len with
        | .error e => (b, [], some e)
        | .ok b =>
            let delta := frameDelta samplesBefore frame.sampleRate
            let others := framePackets first (samplesBefore + frame.samples) frames b
            let packet : EsPacket :=
              { first with
                payload := frame.slice first.payload
                pts := first.pts.offset delta
                dts := first.dts.offset delta
                pos := if samplesBefore = 0 then first.pos else none }
            (others.1, packet :: others.2.1, others.2.2)

/-- The packets of a payload: one, or one for each frame. -/
def cutPayload (kind : StreamKind) (whole : EsPacket) (b : Budget) :
    Budget × List EsPacket × Option Error :=
  match kind.split whole.payload with
  | [] =>
      match chargePacket b whole.payload.length with
      | .error e => (b, [], some e)
      | .ok b => (b, [whole], none)
  | frame :: frames => framePackets whole 0 (frame :: frames) b

/-- The payload of the bytes collected: no more than the header declares. -/
def collectedPayload (header : PesHeader) (raw : Bytes) : Bytes :=
  (raw.take (min (header.totalLen.getD raw.length) raw.length)).drop header.payloadOffset

/-- What a flush hands on: the byte position where its PES packet started, and the
packets. -/
structure Flush where
  start : Nat
  packets : List EsPacket

namespace PidDemuxer

/-- Packets held back one PES packet long join the queue. -/
def releaseHeld (d : PidDemuxer) : PidDemuxer :=
  { d with
    queue := d.queue ++ d.es.held
    es := { d.es with
      held := [] } }

/-- The state after the bytes collected are taken. -/
def taken (d : PidDemuxer) : PidDemuxer :=
  { d with
    budget := d.budget.release d.es.buf.length
    es := { d.es with
      buf := []
      total := none
      started := false
      discontinuity := false } }

/-- Packets of a PES packet without a length are held back, others are queued. -/
def enqueue (d : PidDemuxer) (unbounded : Bool) (packets : List EsPacket) : PidDemuxer :=
  if unbounded then
    { d with
      es := { d.es with
        held := d.es.held ++ packets } }
  else
    { d with
      queue := d.queue ++ packets }

/-- Hand the bytes collected on as packets. -/
def flushPes (kind : StreamKind) (d : PidDemuxer) : PidDemuxer × List EsPacket × Option Error :=
  let es := d.es
  let d := d.releaseHeld.taken
  match PesHeader.parse es.buf with
  | none => (d, [], none)
  | some header =>
      let payload := collectedPayload header es.buf
      if header.isPadding ∨ (payload = [] ∧ header.pts.isNone) then (d, [], none)
      else
        let clock := if es.discontinuity then d.clock.reset else d.clock
        let stamped := clock.stamp header.pts header.dts
        let whole : EsPacket :=
          { payload
            pts := stamped.2.1
            dts := if header.dts.isSome || header.pts.isSome then stamped.2.2 else none
            pos := some es.pos
            key := es.key || !kind.video
            corrupt := es.corrupt
            streamId := header.streamId }
        let cut := cutPayload kind whole d.budget
        ({ d with
            clock := stamped.1
            budget := cut.1 }.enqueue es.total.isNone cut.2.1, cut.2.1, cut.2.2)

def startUnit (d : PidDemuxer) (pkt : TsPacket) (pos : Nat) : PidDemuxer :=
  if pkt.header.payloadUnitStart then
    { d with
      es := { d.es with
        buf := []
        total := none
        started := true
        pos
        corrupt := false
        key := pkt.randomAccess } }
  else d

/-- What one call hands on: at most the flush before a start and the flush of a complete
PES packet. -/
structure Handled where
  demuxer : PidDemuxer
  flushes : List Flush
  error : Option Error

/-- The stream state with a payload more; the total is known with the length field. -/
def grown (d : PidDemuxer) (payload : Bytes) : EsPid :=
  { d.es with
    buf := d.es.buf ++ payload
    total := if d.es.total.isNone then declaredTotal (d.es.buf ++ payload) else d.es.total }

def collect (kind : StreamKind) (d : PidDemuxer) (payload : Bytes) : Handled :=
  if maxPesBytes < d.es.buf.length + payload.length then
    ⟨{ d with
        budget := d.budget.release d.es.buf.length
        es := { d.es with
          buf := []
          started := false }
        stats := { d.stats with
          oversizedPes := d.stats.oversizedPes + 1 } }, [], none⟩
  else
    match d.budget.charge payload.length with
    | .error e => ⟨d, [], some e.toError⟩
    | .ok budget =>
        let d := { d with
          budget
          es := d.grown payload }
        if d.es.total.any (· ≤ d.es.buf.length) then
          let flushed := d.flushPes kind
          ⟨flushed.1, [⟨d.es.pos, flushed.2.1⟩], flushed.2.2⟩
        else ⟨d, [], none⟩

/-- Mark the PES packet in progress. -/
def marked (d : PidDemuxer) (corruptNow : Bool) : PidDemuxer :=
  { d with
    es := { d.es with
      corrupt := d.es.corrupt || corruptNow } }

/-- The part of `handle_es` behind the continuity check and the flush before. -/
def enter (kind : StreamKind) (d : PidDemuxer) (pkt : TsPacket) (pos : Nat)
    (corruptNow : Bool) : Handled :=
  let d := (d.startUnit pkt pos).marked corruptNow
  if !d.es.started || !pkt.header.hasPayload then ⟨d, [], none⟩
  else if pkt.header.isScrambled then
    ⟨d.marked true, [], none⟩
  else d.collect kind pkt.payload

/-- What the continuity check changes. -/
def noted (d : PidDemuxer) (cc : Option Nat) (discontinuity gap : Bool) : PidDemuxer :=
  { d with
    es := { d.es with
      cc
      discontinuity := d.es.discontinuity || discontinuity }
    stats := { d.stats with
      continuityGaps := d.stats.continuityGaps + if gap then 1 else 0 } }

/-- Fold one transport packet of the PID in. -/
def handleEs (kind : StreamKind) (d : PidDemuxer) (pkt : TsPacket) (pos : Nat) : Handled :=
  let checked :=
    checkContinuity d.es.cc pkt.header.continuity pkt.header.hasPayload pkt.discontinuity
  if checked.2 = .duplicate then
    ⟨{ d with
        stats := { d.stats with
          duplicates := d.stats.duplicates + 1 } }, [], none⟩
  else
    let gap := decide (checked.2 = .gap)
    let d := d.noted checked.1 pkt.discontinuity gap
    let corruptNow := pkt.header.transportError || gap
    if pkt.header.payloadUnitStart ∧ d.es.started ∧ d.es.buf ≠ [] then
      let flushed := d.flushPes kind
      if flushed.2.2.isSome then ⟨flushed.1, [⟨d.es.pos, flushed.2.1⟩], flushed.2.2⟩
      else
        let entered := flushed.1.enter kind pkt pos corruptNow
        ⟨entered.demuxer, ⟨d.es.pos, flushed.2.1⟩ :: entered.flushes, entered.error⟩
    else d.enter kind pkt pos corruptNow

/-- The budget when the payload of a packet is charged for. -/
def charging (kind : StreamKind) (d : PidDemuxer) (pkt : TsPacket) : Budget :=
  if pkt.header.payloadUnitStart ∧ d.es.started ∧ d.es.buf ≠ [] then (d.flushPes kind).1.budget
  else d.budget

/-- If the payload of a packet is collected, the budget has room for it. -/
def HasRoom (kind : StreamKind) (d : PidDemuxer) (pkt : TsPacket) : Prop :=
  pkt.header.hasPayload = true → pkt.header.payloadUnitStart = true ∨ d.es.started = true →
    ((d.charging kind pkt).charge pkt.payload.length).isOk = true

instance (kind : StreamKind) (d : PidDemuxer) (pkt : TsPacket) : Decidable (d.HasRoom kind pkt) :=
  inferInstanceAs (Decidable (_ → _ → _))

/-- The end of the input: what is being collected is handed on. -/
def flushAll (kind : StreamKind) (d : PidDemuxer) : Handled :=
  if d.es.started ∧ d.es.buf ≠ [] then
    let flushed := d.flushPes kind
    ⟨if flushed.2.2.isNone then flushed.1.releaseHeld else flushed.1,
      [⟨d.es.pos, flushed.2.1⟩], flushed.2.2⟩
  else ⟨d.releaseHeld, [], none⟩

end PidDemuxer

/-- The payloads of the packets that a payload is handed on in. -/
def cutBytes (kind : StreamKind) (payload : Bytes) : List Bytes :=
  match kind.split payload with
  | [] => [payload]
  | frames => frames.map (SplitFrame.slice payload)

/-! ## What is handed on -/

theorem framePackets_mem {first : EsPacket} {samplesBefore : Nat} {frames : List SplitFrame}
    {b : Budget} {packet : EsPacket}
    (h : packet ∈ (framePackets first samplesBefore frames b).2.1) :
    packet.corrupt = first.corrupt ∧
      packet.payload ∈ frames.map (SplitFrame.slice first.payload) := by
  induction frames generalizing samplesBefore b with
  | nil => cases h
  | cons frame frames ih =>
      rw [framePackets] at h
      split at h
      · cases h
      · split at h
        · cases h
        · rcases List.mem_cons.1 h with hhead | htail
          · rw [hhead]
            exact ⟨rfl, List.mem_cons_self⟩
          · rcases ih htail with ⟨hcorrupt, hpayload⟩
            exact ⟨hcorrupt, List.mem_cons_of_mem _ hpayload⟩

theorem cutPayload_mem {kind : StreamKind} {whole : EsPacket} {b : Budget} {packet : EsPacket}
    (h : packet ∈ (cutPayload kind whole b).2.1) :
    packet.corrupt = whole.corrupt ∧ packet.payload ∈ cutBytes kind whole.payload := by
  unfold cutPayload at h
  unfold cutBytes
  cases hsplit : kind.split whole.payload with
  | nil =>
      rw [hsplit] at h
      dsimp only at h
      split at h
      · cases h
      · rw [List.mem_singleton.1 h]
        exact ⟨rfl, List.mem_singleton.2 rfl⟩
  | cons frame frames =>
      rw [hsplit] at h
      exact framePackets_mem h

namespace PidDemuxer

variable {kind : StreamKind} {d : PidDemuxer} {payload : Bytes}

@[simp]
theorem enqueue_cc (d : PidDemuxer) (unbounded : Bool) (packets : List EsPacket) :
    (d.enqueue unbounded packets).es.cc = d.es.cc := by
  unfold enqueue
  split
  · rfl
  · rfl

@[simp]
theorem enqueue_started (d : PidDemuxer) (unbounded : Bool) (packets : List EsPacket) :
    (d.enqueue unbounded packets).es.started = d.es.started := by
  unfold enqueue
  split
  · rfl
  · rfl

theorem flushPes_started : (d.flushPes kind).1.es.started = false := by
  unfold flushPes
  dsimp only
  split
  · rfl
  · split
    · rfl
    · rw [enqueue_started]
      rfl

theorem flushPes_cc : (d.flushPes kind).1.es.cc = d.es.cc := by
  unfold flushPes
  dsimp only
  split
  · rfl
  · split
    · rfl
    · rw [enqueue_cc]
      rfl

/-- What a flush hands on is cut from the payload of the bytes collected and carries the
mark of their state. -/
theorem flushPes_packets {packet : EsPacket} (h : packet ∈ (d.flushPes kind).2.1) :
    packet.corrupt = d.es.corrupt ∧
      ∃ header, PesHeader.parse d.es.buf = some header ∧
        packet.payload ∈ cutBytes kind (collectedPayload header d.es.buf) := by
  unfold flushPes at h
  dsimp only at h
  split at h
  · cases h
  · rename_i header hparse
    split at h
    · cases h
    · rcases cutPayload_mem h with ⟨hcorrupt, hpayload⟩
      exact ⟨hcorrupt, header, hparse, hpayload⟩

/-- A flush charges for the same bytes whatever the counter was. -/
theorem flushPes_budget_noted (cc : Option Nat) (gap : Bool) :
    ((d.noted cc false gap).flushPes kind).1.budget = (d.flushPes kind).1.budget := by
  unfold flushPes
  dsimp only [noted, releaseHeld, taken]
  rw [Bool.or_false]
  split
  · rfl
  · split
    · rfl
    · unfold enqueue
      split
      · rfl
      · rfl

/-- A payload is dropped with all that was collected, or collected, or completes the PES packet. -/
theorem collect_cases (kind : StreamKind)
    (hroom : (d.budget.charge payload.length).isOk = true) :
    ((d.collect kind payload).flushes = [] ∧
        (d.collect kind payload).demuxer.es.started = false) ∨
      ((d.collect kind payload).flushes = [] ∧
        (d.collect kind payload).demuxer.es = d.grown payload ∧
          ¬ (d.grown payload).total.any (· ≤ (d.grown payload).buf.length) = true) ∨
        ∃ d' : PidDemuxer, d'.es = d.grown payload ∧
          (d.grown payload).total.any (· ≤ (d.grown payload).buf.length) = true ∧
            (d.collect kind payload).flushes = [⟨d.es.pos, (d'.flushPes kind).2.1⟩] ∧
              (d.collect kind payload).demuxer = (d'.flushPes kind).1 := by
  unfold collect
  split
  · exact .inl ⟨rfl, rfl⟩
  · split
    · rename_i hrefused
      rw [hrefused] at hroom
      cases hroom
    · dsimp only
      split
      · rename_i hcomplete
        exact .inr (.inr ⟨_, rfl, hcomplete, rfl, rfl⟩)
      · rename_i hshort
        exact .inr (.inl ⟨rfl, rfl, hshort⟩)

theorem collect_cc : (d.collect kind payload).demuxer.es.cc = d.es.cc := by
  unfold collect
  split
  · rfl
  · split
    · rfl
    · dsimp only
      split
      · exact flushPes_cc
      · rfl

theorem enter_cc {pkt : TsPacket} {pos : Nat} {corruptNow : Bool} :
    (d.enter kind pkt pos corruptNow).demuxer.es.cc = d.es.cc := by
  have hcc : ((d.startUnit pkt pos).marked corruptNow).es.cc = d.es.cc := by
    unfold startUnit
    split
    · rfl
    · rfl
  unfold enter
  dsimp only
  split
  · exact hcc
  · split
    · exact hcc
    · rw [collect_cc, hcc]

end PidDemuxer

/-! ## The length field -/

theorem le_length_of_declaredTotal {buf : Bytes} {total : Nat}
    (h : declaredTotal buf = some total) : pesPrefixLen ≤ buf.length := by
  unfold declaredTotal at h
  split at h
  · cases h
  · rename_i hlen
    exact Nat.le_of_not_lt hlen

theorem declaredTotal_append {buf : Bytes} (h : pesPrefixLen ≤ buf.length) (more : Bytes) :
    declaredTotal (buf ++ more) = declaredTotal buf := by
  have hlen : 6 ≤ buf.length := h
  have hlong : ¬ (buf ++ more).length < pesPrefixLen := by
    rw [List.length_append]
    omega
  have hfield : ((buf ++ more).drop 4).take 2 = (buf.drop 4).take 2 := by
    rw [List.drop_append_of_le_length (by omega),
      List.take_append_of_le_length (by rw [List.length_drop]; omega)]
  unfold declaredTotal
  rw [if_neg hlong, if_neg (Nat.not_lt_of_le h), hfield]

theorem PidDemuxer.grown_total {d : PidDemuxer} (h : d.es.total = declaredTotal d.es.buf)
    (payload : Bytes) :
    (d.grown payload).total = declaredTotal (d.es.buf ++ payload) := by
  unfold PidDemuxer.grown
  dsimp only
  cases htotal : d.es.total with
  | none => rfl
  | some total =>
      rw [htotal] at h
      rw [declaredTotal_append (le_length_of_declaredTotal h.symm) payload, ← h]
      rfl

/-- A readable header states the total that its length field declares. -/
theorem PesHeader.parse_declared {buf : Bytes} {header : PesHeader}
    (h : PesHeader.parse buf = some header) :
    pesPrefixLen ≤ buf.length ∧ declaredTotal buf = header.totalLen := by
  unfold PesHeader.parse at h
  split at h
  · rename_i s0 s1 s2 streamId l0 l1 ext
    have hlen : pesPrefixLen ≤ (s0 :: s1 :: s2 :: streamId :: l0 :: l1 :: ext).length := by
      simp only [List.length_cons, pesPrefixLen]
      omega
    have hlength : header.packetLength = beNat [l0, l1] := by
      split at h
      · cases h
      · split at h
        · rw [← Option.some.inj h]
        · unfold PesHeader.parseOptional at h
          split at h
          · split at h
            · cases h
            · split at h
              · cases h
              · rw [← Option.some.inj h]
          · cases h
    refine ⟨hlen, ?_⟩
    unfold declaredTotal PesHeader.totalLen
    rw [if_neg (Nat.not_lt_of_le hlen), hlength, Nat.add_comm pesPrefixLen]
    rfl
  · cases h

/-! ## The continuity check -/

/-- The verdict on a packet, from the number `missed` of payloads since the last one
seen. -/
theorem checkContinuity_of_advance {last missed cc : Nat} (hlast : last < 16)
    (hmissed : missed < 16) (hasPayload : Bool)
    (hcc : cc = (last + missed + if hasPayload then 1 else 0) % 16) :
    checkContinuity (some last) cc hasPayload false =
      if missed = 0 then (some cc, .ok)
      else if missed = 15 ∧ hasPayload then (some last, .duplicate)
      else (some cc, .gap) := by
  rw [checkContinuity, if_neg Bool.false_ne_true]
  cases hasPayload with
  | true =>
      simp only [if_true, and_true] at hcc ⊢
      by_cases hzero : missed = 0
      · rw [if_pos hzero, if_pos (by omega)]
      · rw [if_neg hzero, if_neg (by omega)]
        by_cases hfifteen : missed = 15
        · rw [if_pos hfifteen, if_pos (by omega)]
        · rw [if_neg hfifteen, if_neg (by omega)]
  | false =>
      simp only [Bool.false_eq_true, if_false, and_false] at hcc ⊢
      by_cases hzero : missed = 0
      · rw [if_pos hzero, if_pos (by omega)]
      · rw [if_neg hzero, if_neg (by omega)]

end MpegTs
end Vaco
