import Vaco.Core.Time
import Vaco.Ebml.Elements
import Vaco.Io.Checksum
import Vaco.Matroska.Block
import Vaco.Nalu.ConfigRecord
import Vaco.Nalu.Convert

/-!
# Cues

The blocks of a cluster are gathered until the cluster is full or a keyframe of a video track comes,
which opens the next one.  When a cluster is written that a keyframe opened, cue entries are
recorded for its start: one for every video track.

Main results:

- `Muxer.Inv.writeBlock`: what one packet keeps, in clusters that are written and in the one that is
  not.
- `cues_right_iff`: the cues of a run are right if and only if no keyframe of one of several video
  tracks is written.
- `cues_land`: every cue leads to a cluster, whatever tracks there are.

Current gaps:

- Packets that are held back until the header is written are left out; they come in their order.
- Nothing is written behind an error.
-/

namespace Vaco
namespace Matroska

open Library BitStream ByteWords Vaco.Core Ebml

/-! ## Blocks -/

def CLUSTER : Nat := 0x1F43B675
def TIMESTAMP : Nat := 0xE7
def CRC32 : Nat := 0xBF
def SIMPLEBLOCK : Nat := 0xA3
def BLOCKGROUP : Nat := 0xA0
def BLOCK : Nat := 0xA1
def BLOCKDURATION : Nat := 0x9B
def REFERENCEBLOCK : Nat := 0xFB

/-- An unsigned element in the fewest octets. -/
def uint (id value : Nat) : Bytes :=
  match (beBytes 8 value).dropWhile fun b => b = 0 with
  | [] => element id [0]
  | bytes => element id bytes

/-- A block with its keyframe flag. -/
def simpleBlock (track : Nat) (relTs : Int) (keyframe : Bool) (payload : Bytes) :
    Except Error Bytes :=
  (blockHeader track relTs (if keyframe then 0x80 else 0)).map fun header =>
    element SIMPLEBLOCK (header ++ payload)

def blockGroup (track : Nat) (relTs : Int) (payload : Bytes) (durationTicks : Option Nat) :
    Except Error Bytes :=
  (blockHeader track relTs 0).map fun header =>
    element BLOCKGROUP (element BLOCK (header ++ payload) ++
      (durationTicks.map fun ticks => uint BLOCKDURATION ticks).getD [])

/-- The number in an element. -/
def asUint (data : Bytes) : Option Nat :=
  if 8 < data.length then none else some (beNat data)

/-- The block in an element of a cluster, and whether it is a keyframe; in a group, if it refers to
no other. -/
def blockIn (caps : Caps) (child : Child) : Option (BlockHeader × Bool) :=
  if child.id = SIMPLEBLOCK then
    (parseHeader child.data true).toOption.map fun header => (header, header.keyframe)
  else if child.id = BLOCKGROUP then
    let found := children caps child.data
    ((found.filter fun inner => inner.id = BLOCK).getLast?).bind fun block =>
      (parseHeader block.data false).toOption.map fun header =>
        (header, !found.any fun inner => inner.id = REFERENCEBLOCK)
  else
    none

theorem blockIn_none {caps : Caps} {id : Nat} {data : Bytes} (hsimple : id ≠ SIMPLEBLOCK)
    (hgroup : id ≠ BLOCKGROUP) (pos dataPos : Nat) :
    blockIn caps ⟨id, data, pos, dataPos⟩ = none := by
  rw [blockIn, if_neg hsimple, if_neg hgroup]

/-- What a reader finds in a cluster: its time, and its first block. -/
structure Opening where
  time : Nat
  header : BlockHeader
  key : Bool

/-- What a reader finds in the cluster that some bytes begin with, if they do. -/
def openingOf (caps : Caps) (bytes : Bytes) : Option Opening :=
  (next caps bytes 0).bind fun (cluster, _) =>
    if cluster.id = CLUSTER then
      let inside := children caps cluster.data
      ((inside.find? fun child => child.id = TIMESTAMP).bind fun child =>
        asUint child.data).bind fun time =>
          (inside.findSome? (blockIn caps)).map fun (header, key) => ⟨time, header, key⟩
    else
      none

/-! ## The muxer -/

/-- What is written of one declared track. -/
structure TrackOut where
  number : Nat
  isVideo : Bool
  defaultDurationNs : Option Nat
  needsAvcRepack : Bool

/-- One cluster before it is written. -/
structure Cluster where
  startTicks : I64
  blocks : List Bytes
  bytePos : Nat
  keyframeOpened : Bool

/-- The time that is written for a cluster. -/
def Cluster.timestamp (c : Cluster) : Nat :=
  c.startTicks.val.toNat

/-- One entry of the cues. -/
structure CueEntry where
  timeTicks : Nat
  track : Nat
  clusterPosRel : Nat
deriving DecidableEq

/-- The muxer behind its header; the ghost `closed` holds the clusters that were written. -/
structure Muxer where
  tracks : List TrackOut
  out : Bytes
  segmentDataStart : Nat
  maxClusterMs : I64
  wroteFirstBlock : List Bool
  cluster : Option Cluster
  cues : List CueEntry
  clusterStarts : List Nat
  maxEndTicks : Nat
  closed : List Cluster

/-- A packet for a track. -/
structure Input where
  idx : Nat
  packet : Packet
  isKey : Bool

/-- The checksum of a body: all bits set before it, and all turned over behind it. -/
def crc32 (body : Bytes) : BitVec 32 :=
  ~~~ Io.crc32Reflected 0xFFFFFFFF body

/-- A body behind its checksum. -/
def withCrc32 (body : Bytes) : Bytes :=
  element CRC32 (leBytes 4 (crc32 body).toNat) ++ body

/-- A cluster as it is written. -/
def Cluster.encode (c : Cluster) : Bytes :=
  element CLUSTER (withCrc32 (uint TIMESTAMP c.timestamp ++ c.blocks.flatten))

namespace Muxer

/-- The entries that are recorded for a cluster. -/
def entries (m : Muxer) (c : Cluster) : List CueEntry :=
  if c.keyframeOpened then
    (m.tracks.filter fun t => t.isVideo).map fun t =>
      ⟨c.timestamp, t.number, c.bytePos - m.segmentDataStart⟩
  else
    []

/-- Write the cluster in progress. -/
def flushCluster (m : Muxer) : Muxer :=
  match m.cluster with
  | none => m
  | some c =>
      { m with
        cluster := none
        out := m.out ++ c.encode
        cues := m.cues ++ m.entries c
        closed := m.closed ++ [c] }

/-- The time of a packet in its cluster. -/
def relTicks (ts start : I64) : I64 :=
  clampI64 (ts.val - start.val)

/-- Whether a packet belongs to a video track. -/
def isVideo (m : Muxer) (idx : Nat) : Bool :=
  (m.tracks[idx]?.map fun t => t.isVideo).getD false

/-- Whether a packet cannot be put into the cluster in progress. -/
def needsNewCluster (m : Muxer) (p : Input) (ts : I64) : Bool :=
  match m.cluster with
  | none => true
  | some c =>
      (m.isVideo p.idx && p.isKey) || decide (m.maxClusterMs < relTicks ts c.startTicks) ||
        !decide (-32768 ≤ (relTicks ts c.startTicks).val ∧ (relTicks ts c.startTicks).val ≤ 32767)

/-- Open the next cluster. -/
def openCluster (m : Muxer) (p : Input) (ts : I64) : Muxer :=
  let m := m.flushCluster
  { m with
    clusterStarts := m.clusterStarts ++ [m.out.length]
    cluster := some ⟨ts, [], m.out.length, m.isVideo p.idx && p.isKey⟩ }

/-- The base of the times of a file, a thousandth of a second. -/
def timestampScale : TimeBase :=
  ⟨castI32 1, castI32 1000⟩

/-- The duration that a packet states. -/
def durationTicks (p : Packet) : Option I64 :=
  match p.durationTs.filter fun ticks => decide (ticks.val ≠ 0) with
  | some ticks => some ticks
  | none => if p.duration = Duration.ZERO then none else p.duration.toTicks timestampScale

def defaultDurationTicks (t : TrackOut) : Option I64 :=
  t.defaultDurationNs.map fun ns => clampI64 (ns / 1000000)

/-- The data of a packet as its track stores it. -/
def payloadOf (t : TrackOut) (p : Packet) : Except Error Bytes :=
  let payload := p.data.take p.len
  if t.needsAvcRepack then
    match Nalu.annexbToLengthPrefixed payload Nalu.LengthSize.FOUR []
        (Sched.Budget.new Nalu.permissive) with
    | (_, _, .error e) => .error e
    | (out, _, .ok _) => .ok out
  else
    .ok payload

/-- The block of a packet. -/
def blockOf (t : TrackOut) (p : Input) (relTs : Int) : Except Error Bytes :=
  let duration := durationTicks p.packet
  match payloadOf t p.packet with
  | .error e => .error e
  | .ok payload =>
      if duration.isSome ∧ duration ≠ defaultDurationTicks t then
        blockGroup t.number relTs payload (duration.map fun ticks => ticks.val.toNat)
      else
        simpleBlock t.number relTs p.isKey payload

/-- Put a block into the cluster in progress. -/
def pushBlock (m : Muxer) (p : Input) (ts : I64) : Except Error Muxer :=
  match m.cluster with
  | none => .error (.invalidData "matroska: no open cluster")
  | some c =>
      match m.tracks[p.idx]? with
      | none => .error (.invalidData "matroska: packet names an unknown stream")
      | some t =>
          (blockOf t p (relTicks ts c.startTicks).val).map fun block =>
            let endDelta := (durationTicks p.packet).getD ((defaultDurationTicks t).getD (clampI64 0))
            { m with
              cluster := some { c with blocks := c.blocks ++ [block] }
              maxEndTicks := max m.maxEndTicks (clampI64 (ts.val + endDelta.val)).val.toNat }

/-- Write one packet. -/
def writeBlock (m : Muxer) (p : Input) : Except Error Muxer :=
  if m.wroteFirstBlock[p.idx]? = some false ∧ p.packet.pts = none then
    .error (.invalidData "matroska: first pts value must be set")
  else
    let ts := p.packet.pts.getD (clampI64 0)
    let m := { m with wroteFirstBlock := m.wroteFirstBlock.set p.idx true }
    (if m.needsNewCluster p ts then m.openCluster p ts else m).pushBlock p ts

/-- Write some packets and the cluster in progress behind them. -/
def run (m : Muxer) : List Input → Except Error Muxer
  | [] => .ok (m.flushCluster)
  | p :: rest =>
      match m.writeBlock p with
      | .error e => .error e
      | .ok m => m.run rest

end Muxer

open Muxer

variable {m m' : Muxer} {p : Input} {ts : I64} {c : Cluster} {t : TrackOut} {b : Bytes}
  {relTs : Int} {done : List Input}

/-! ## The bytes of a block -/

theorem exists_of_map {α β : Type} {x : Except Error α} {f : α → β} {b : β}
    (h : x.map f = .ok b) : ∃ a, x = .ok a ∧ f a = b := by
  cases x with
  | error e => cases h
  | ok a => exact ⟨a, rfl, Except.ok.inj h⟩

/-- The number in an unsigned element is read back. -/
theorem uint_eq (id value : Nat) (h : value < 2 ^ 64) :
    ∃ body, uint id value = element id body ∧ body.length ≤ 8 ∧ asUint body = some value := by
  have hdrop : ∀ bytes : Bytes, beNat (bytes.dropWhile fun b => b = 0) = beNat bytes := by
    intro bytes
    induction bytes with
    | nil => rfl
    | cons b bytes ih =>
        rw [List.dropWhile_cons]
        split
        · rename_i hzero
          rw [ih, beNat_cons, of_decide_eq_true hzero]
          simp
        · rfl
  have hlen := (List.dropWhile_sublist (l := beBytes 8 value) fun b => b = 0).length_le
  have hvalue := hdrop (beBytes 8 value)
  rw [beNat_beBytes (by norm_num; omega)] at hvalue
  rw [length_beBytes] at hlen
  rw [uint]
  split
  · rename_i hnil
    rw [hnil] at hvalue
    exact ⟨[0], rfl, by simp, by rw [← hvalue]; rfl⟩
  · exact ⟨_, rfl, hlen, by rw [asUint, if_neg (by omega), hvalue]⟩

/-- The duration that the block of a packet states. -/
def Input.stated (t : TrackOut) (p : Input) : Option Nat :=
  if durationTicks p.packet = defaultDurationTicks t then none
  else (durationTicks p.packet).map fun ticks => ticks.val.toNat

/-- The bytes of a block. -/
theorem blockOf_bytes (h : blockOf t p relTs = .ok b) :
    ∃ payload head flags, payloadOf t p.packet = .ok payload ∧
      blockHeader t.number relTs flags = .ok head ∧ (flags = 0 ∨ flags = 0x80#8) ∧
      (p.stated t = none ∧ (flags &&& 0x80#8 != 0) = p.isKey ∧
          b = element SIMPLEBLOCK (head ++ payload) ∨
        (p.stated t).isSome ∧ ∃ data, data.length ≤ 8 ∧ asUint data = p.stated t ∧
          b = element BLOCKGROUP
            (element BLOCK (head ++ payload) ++ element BLOCKDURATION data)) := by
  rw [blockOf] at h
  cases hpayload : payloadOf t p.packet with
  | error e =>
      rw [hpayload] at h
      cases h
  | ok payload =>
      rw [hpayload] at h
      dsimp only at h
      split at h
      · rename_i htimed
        rcases exists_of_map h with ⟨head, hhead, rfl⟩
        rcases Option.isSome_iff_exists.1 htimed.1 with ⟨ticks, hticks⟩
        have hmax := ticks.val_le
        rcases uint_eq BLOCKDURATION ticks.val.toNat (by omega) with
          ⟨data, huint, hlen, hback⟩
        have hstated : p.stated t = some ticks.val.toNat := by
          rw [Input.stated, if_neg htimed.2, hticks, Option.map_some]
        refine ⟨payload, head, 0, rfl, hhead, Or.inl rfl,
          Or.inr ⟨Option.isSome_of_eq_some hstated, data, hlen, hback.trans hstated.symm, ?_⟩⟩
        rw [hticks, Option.map_some, Option.map_some, Option.getD_some, huint]
      · rename_i htimed
        rcases exists_of_map h with ⟨head, hhead, rfl⟩
        have hstated : p.stated t = none := by
          rw [Input.stated]
          split
          · rfl
          · rename_i hother
            have hnone := Option.not_isSome_iff_eq_none.1 fun hsome => htimed ⟨hsome, hother⟩
            rw [hnone, Option.map_none]
        refine ⟨payload, head, _, rfl, hhead, ?_, Or.inl ⟨hstated, ?_, rfl⟩⟩
        · cases p.isKey <;> simp
        · cases p.isKey <;> decide

/-- In a written block its block is found, of its track, at its time, with the keyframe mark of its
packet. -/
theorem blockIn_blockOf (h : blockOf t p relTs = .ok b) (hnumber : t.number < 2 ^ 56 - 1)
    (hsize : b.length < 2 ^ 56 - 1) :
    ∃ id body header, b = element id body ∧ ValidId id ∧ body.length < 2 ^ 56 - 1 ∧
      id ≠ TIMESTAMP ∧ (∀ pos dataPos, blockIn Caps.default ⟨id, body, pos, dataPos⟩ =
        some (header, p.isKey || (p.stated t).isSome)) ∧
      header.track = t.number ∧ header.relTimestamp = relTs := by
  rcases blockOf_bytes h with ⟨payload, head, flags, -, hhead, -,
    ⟨hstated, hkey, rfl⟩ | ⟨hstated, data, hdata, -, rfl⟩⟩
  all_goals
    have hread : ∀ simple, ∃ header, parseHeader (head ++ payload) simple = .ok header ∧
        header.track = t.number ∧ header.relTimestamp = relTs ∧
        header.keyframe = (simple && (flags &&& 0x80#8 != 0)) :=
      fun simple => ⟨_, parseHeader_blockHeader hnumber hhead payload simple, rfl, rfl, rfl⟩
  · have hle := le_element SIMPLEBLOCK (head ++ payload)
    rcases hread true with ⟨header, hread, htrack, hrel, hflag⟩
    refine ⟨SIMPLEBLOCK, head ++ payload, header, rfl, by decide, by omega, by decide,
      fun pos dataPos => ?_, htrack, hrel⟩
    rw [Bool.true_and, hkey] at hflag
    rw [blockIn, if_pos rfl, hread, hstated, ← hflag, Option.isSome_none, Bool.or_false]
    rfl
  · have hle := le_element BLOCKGROUP
      (element BLOCK (head ++ payload) ++ element BLOCKDURATION data)
    have hinner := le_element BLOCK (head ++ payload)
    have hparts : (element BLOCK (head ++ payload) ++ element BLOCKDURATION data).length =
        (element BLOCK (head ++ payload)).length + (element BLOCKDURATION data).length :=
      List.length_append
    have hwalk := @children_encodeAll Caps.default
      [.leaf BLOCK (head ++ payload), .leaf BLOCKDURATION data]
      ⟨⟨by decide, by omega⟩, ⟨by decide, by omega⟩, trivial⟩ (by decide) (by decide)
    rw [encodeAll, encodeAll, encodeAll, List.append_nil] at hwalk
    dsimp only [Element.id, Element.body] at hwalk
    rcases hread false with ⟨header, hread, htrack, hrel, -⟩
    refine ⟨BLOCKGROUP, _, header, rfl, by decide, by omega, by decide, fun pos dataPos => ?_,
      htrack, hrel⟩
    rw [blockIn, if_neg (show ¬ BLOCKGROUP = SIMPLEBLOCK by decide), if_pos rfl]
    dsimp only
    have hother : BLOCKDURATION ≠ BLOCK := by decide
    have hnone : BLOCK ≠ REFERENCEBLOCK ∧ BLOCKDURATION ≠ REFERENCEBLOCK := by decide
    simp only [hwalk, expected, Element.id, Element.body, List.filter_cons, hother, hnone.1, hnone.2,
      decide_true, decide_false, if_true, Bool.false_eq_true, if_false, List.filter_nil,
      List.getLast?_singleton, Option.bind_some, List.any_cons, List.any_nil,
      hread, hstated, Bool.or_true]
    rfl

/-! ## What a cluster holds -/

/-- The time of a packet. -/
def Input.time (p : Input) : I64 :=
  p.packet.pts.getD (clampI64 0)

/-- The block of a packet in a cluster at a time. -/
def Holding (tracks : List TrackOut) (start : I64) (b : Bytes) (p : Input) : Prop :=
  ∃ t, tracks[p.idx]? = some t ∧ blockOf t p (relTicks p.time start).val = .ok b

/-- The first block of a cluster is at its time, a video keyframe if a keyframe opened the cluster.
-/
structure Cluster.Holds (tracks : List TrackOut) (c : Cluster) (packets : List Input) : Prop where
  first : packets.head?.map Input.time = some c.startTicks
  blocks : List.Forall₂ (Holding tracks c.startTicks) c.blocks packets
  opened : c.keyframeOpened = true → ∀ p ∈ packets.head?, p.isKey = true ∧
    ∃ t, tracks[p.idx]? = some t ∧ t.isVideo = true

/-- A further block. -/
theorem Cluster.Holds.push {tracks : List TrackOut} {packets : List Input}
    (h : c.Holds tracks packets) (hb : Holding tracks c.startTicks b p) :
    Cluster.Holds tracks { c with blocks := c.blocks ++ [b] } (packets ++ [p]) := by
  have hfirst := h.first
  cases packets with
  | nil => cases hfirst
  | cons first packets => exact ⟨hfirst, List.rel_append h.blocks (.cons hb .nil), h.opened⟩

theorem relTicks_self (ts : I64) : (relTicks ts ts).val = 0 := by
  rw [relTicks, Int.sub_self]
  rfl

/-- Written blocks are elements one after another. -/
theorem exists_elements {tracks : List TrackOut} {start : I64} {blocks : List Bytes}
    {packets : List Input} (h : List.Forall₂ (Holding tracks start) blocks packets)
    (hnumbers : ∀ t ∈ tracks, t.number < 2 ^ 56 - 1) (hsize : blocks.flatten.length < 2 ^ 56 - 1) :
    ∃ elements, AllValid elements ∧ encodeAll elements = blocks.flatten := by
  induction h with
  | nil => exact ⟨[], trivial, rfl⟩
  | cons hb _ ih =>
      rcases hb with ⟨t, ht, hb⟩
      rw [List.flatten_cons, List.length_append] at hsize
      rcases blockIn_blockOf hb (hnumbers t (List.mem_of_getElem? ht)) (by omega) with
        ⟨id, body, -, rfl, hid, hbody, -⟩
      rcases ih (by omega) with ⟨elements, hvalid, hencode⟩
      exact ⟨.leaf id body :: elements, ⟨⟨hid, hbody⟩, hvalid⟩, by
        rw [encodeAll, hencode, List.flatten_cons]
        rfl⟩

/-- What is found in a written cluster: its time, and the block of its first packet at that time. -/
theorem openingOf_encode {tracks : List TrackOut} {packets : List Input}
    (h : c.Holds tracks packets) (hnumbers : ∀ t ∈ tracks, t.number < 2 ^ 56 - 1)
    (hsize : c.encode.length < 2 ^ 56 - 1) (more : Bytes) :
    ∃ p ∈ packets.head?, ∃ t header, tracks[p.idx]? = some t ∧
      openingOf Caps.default (c.encode ++ more) =
        some ⟨c.timestamp, header, p.isKey || (p.stated t).isSome⟩ ∧
      header.track = t.number ∧ header.relTimestamp = 0 := by
  have hfirst := h.first
  have hblocks := h.blocks
  rcases hall : c.blocks with - | ⟨b, blocks⟩
  · rw [hall] at hblocks
    cases hblocks
    cases hfirst
  rw [hall] at hblocks
  cases hblocks with
  | @cons _ p _ packets hb hblocks =>
  rcases hb with ⟨t, ht, hb⟩
  rw [Option.some.inj hfirst, relTicks_self] at hb
  have hmax := c.startTicks.val_le
  rcases uint_eq TIMESTAMP c.timestamp (by rw [Cluster.timestamp]; omega) with
    ⟨time, huint, hlen, htime⟩
  have hcrc := length_leBytes 4 (crc32 (uint TIMESTAMP c.timestamp ++ c.blocks.flatten)).toNat
  rw [Cluster.encode, withCrc32, hall, huint, List.flatten_cons] at hsize ⊢
  rw [hall, huint, List.flatten_cons] at hcrc
  generalize leBytes 4 (crc32 (element TIMESTAMP time ++ (b ++ blocks.flatten))).toNat = sum at *
  have hle := le_element CLUSTER (element CRC32 sum ++ (element TIMESTAMP time ++
    (b ++ blocks.flatten)))
  simp only [List.length_append] at hle
  rcases blockIn_blockOf hb (hnumbers t (List.mem_of_getElem? ht)) (by omega) with
    ⟨id, body, header, rfl, hid, hbody, hne, hblock, htrack, hrel⟩
  rcases exists_elements hblocks hnumbers (by omega) with ⟨elements, hvalid, hencode⟩
  have hwalk := @children_encodeAll Caps.default
    (.leaf CRC32 sum :: .leaf TIMESTAMP time :: .leaf id body :: elements)
    ⟨⟨by decide, by omega⟩, ⟨by decide, by omega⟩, ⟨hid, hbody⟩, hvalid⟩ (by decide) (by decide)
  rw [encodeAll, encodeAll, encodeAll, hencode, expected, expected, expected] at hwalk
  dsimp only [Element.id, Element.body] at hwalk
  have hnext := @next_element Caps.default CLUSTER (element CRC32 sum ++ (element TIMESTAMP time ++
    (element id body ++ blocks.flatten))) more [] (by decide)
    (by rw [List.length_append, List.length_append, List.length_append]; omega)
    (by decide) (by decide)
  rw [List.nil_append, List.length_nil] at hnext
  rw [openingOf, hnext, Option.bind_some]
  dsimp only
  rw [if_pos rfl, hwalk]
  have hother : CRC32 ≠ TIMESTAMP := by decide
  have hbefore : (CRC32 ≠ SIMPLEBLOCK ∧ CRC32 ≠ BLOCKGROUP) ∧ TIMESTAMP ≠ SIMPLEBLOCK ∧
      TIMESTAMP ≠ BLOCKGROUP := by decide
  refine ⟨p, rfl, t, header, ht, ?_, htrack, hrel⟩
  simp only [List.find?_cons, hother, decide_false, decide_true, Option.bind_some, htime,
    List.findSome?_cons, blockIn_none hbefore.1.1 hbefore.1.2,
    blockIn_none hbefore.2.1 hbefore.2.2, hblock, Option.map_some]

namespace Muxer

/-! ## What is kept -/

/-- A packet that opens a cluster and earns it cues. -/
def Keys (m : Muxer) (p : Input) : Prop :=
  m.isVideo p.idx = true ∧ p.isKey = true

/-- The cues are those of the written clusters, one of them opened by a keyframe if a keyframe came.
-/
structure Inv (m : Muxer) (done : List Input) : Prop where
  cues_eq : m.cues = m.closed.flatMap m.entries
  start_le : m.segmentDataStart ≤ m.out.length
  sorted : m.closed.Pairwise fun c c' => c.bytePos < c'.bytePos
  closed : ∀ c ∈ m.closed, (∃ packets, c.Holds m.tracks packets) ∧
    m.segmentDataStart ≤ c.bytePos ∧ c.bytePos < m.out.length ∧ c.encode <+: m.out.drop c.bytePos
  cluster : ∀ c ∈ m.cluster, (∃ packets, c.Holds m.tracks packets) ∧ c.bytePos = m.out.length
  keys : (∃ c, (c ∈ m.closed ∨ c ∈ m.cluster) ∧ c.keyframeOpened = true) ↔ ∃ p ∈ done, m.Keys p

theorem encode_pos (c : Cluster) : 0 < (c.encode).length := by
  have hid : (idBytes CLUSTER).length = 4 := by decide
  rw [Cluster.encode, element, List.length_append, List.length_append]
  omega

theorem flushCluster_cluster (m : Muxer) : (m.flushCluster).cluster = none := by
  unfold flushCluster
  split
  · assumption
  · rfl

theorem flushCluster_tracks (m : Muxer) : (m.flushCluster).tracks = m.tracks := by
  unfold flushCluster
  split <;> rfl

/-- Writing the cluster in progress. -/
theorem Inv.flushCluster (h : Inv m done) : Inv (m.flushCluster) done := by
  unfold Muxer.flushCluster
  split
  · exact h
  · rename_i c hcluster
    rcases h.cluster c hcluster with ⟨hopened, hpos⟩
    have hlen := encode_pos c
    have hstart := h.start_le
    refine ⟨?_, ?_, ?_, ?_, ?_, ?_⟩
    · rw [h.cues_eq, List.flatMap_append, List.flatMap_singleton]
      rfl
    · rw [List.length_append]
      exact Nat.le_add_right_of_le hstart
    · refine List.pairwise_append.mpr ⟨h.sorted, List.pairwise_singleton _ _, ?_⟩
      intro c' hc' c'' hc''
      rw [List.mem_singleton.mp hc'', hpos]
      exact (h.closed c' hc').2.2.1
    · intro c' hc'
      rw [List.length_append]
      rcases List.mem_append.mp hc' with hc' | hc'
      · rcases h.closed c' hc' with ⟨hopened', hstart', hlt, hprefix⟩
        refine ⟨hopened', hstart', Nat.lt_add_right _ hlt, ?_⟩
        rw [List.drop_append_of_le_length hlt.le]
        exact hprefix.trans (List.prefix_append _ _)
      · rw [List.mem_singleton.mp hc', hpos, List.drop_left]
        exact ⟨hopened, hstart, Nat.lt_add_of_pos_right hlen, List.prefix_refl _⟩
    · rintro c' ⟨⟩
    · refine Iff.trans ?_ h.keys
      simp [hcluster]

theorem pushBlock_ok (h : m.pushBlock p ts = .ok m') :
    ∃ c t b e, m.cluster = some c ∧ m.tracks[p.idx]? = some t ∧
      blockOf t p (relTicks ts c.startTicks).val = .ok b ∧
      m' = { m with cluster := some { c with blocks := c.blocks ++ [b] }, maxEndTicks := e } := by
  unfold pushBlock at h
  split at h
  · cases h
  rename_i c hcluster
  split at h
  · cases h
  rename_i t htrack
  rcases exists_of_map h with ⟨b, hblock, rfl⟩
  exact ⟨c, t, b, _, hcluster, htrack, hblock, rfl⟩

/-- A packet is put behind other blocks. -/
theorem Inv.append (h : Inv m done) (hnew : m.needsNewCluster p p.time = false)
    (hpush : m.pushBlock p p.time = .ok m') :
    Inv m' (done ++ [p]) ∧ m'.tracks = m.tracks := by
  rcases pushBlock_ok hpush with ⟨c, t, b, e, hcluster, htrack, hblock, rfl⟩
  refine ⟨⟨h.cues_eq, h.start_le, h.sorted, h.closed, ?_, ?_⟩, rfl⟩
  · rintro c' ⟨⟩
    rcases h.cluster c hcluster with ⟨⟨packets, hholds⟩, hpos⟩
    exact ⟨⟨packets ++ [p], hholds.push ⟨t, htrack, hblock⟩⟩, hpos⟩
  · have hkeys : ¬ m.Keys p := by
      rw [needsNewCluster, hcluster] at hnew
      simp only [Bool.or_eq_false_iff] at hnew
      rintro ⟨hvideo, hkey⟩
      rw [hvideo, hkey] at hnew
      cases hnew.1.1
    have hbefore := h.keys
    simp only [hcluster, Option.mem_some_iff] at hbefore
    simp only [List.mem_append, List.mem_singleton]
    constructor
    · rintro ⟨c', hmem, hkey⟩
      rcases hmem with hmem | ⟨⟨⟩⟩
      · rcases hbefore.mp ⟨c', Or.inl hmem, hkey⟩ with ⟨p', hp', hkeyed⟩
        exact ⟨p', Or.inl hp', hkeyed⟩
      · rcases hbefore.mp ⟨c, Or.inr rfl, hkey⟩ with ⟨p', hp', hkeyed⟩
        exact ⟨p', Or.inl hp', hkeyed⟩
    · rintro ⟨p', hp' | rfl, hkeyed⟩
      · rcases hbefore.mpr ⟨p', hp', hkeyed⟩ with ⟨c', hmem | rfl, hkey⟩
        · exact ⟨c', Or.inl hmem, hkey⟩
        · exact ⟨_, Or.inr rfl, hkey⟩
      · exact absurd hkeyed hkeys

/-- A packet opens the next cluster. -/
theorem Inv.opens (h : Inv m done)
    (hpush : (m.openCluster p p.time).pushBlock p p.time = .ok m') :
    Inv m' (done ++ [p]) ∧ m'.tracks = m.tracks := by
  have hflush := h.flushCluster
  have htracks := flushCluster_tracks m
  have hnone := flushCluster_cluster m
  rcases pushBlock_ok hpush with ⟨c, t, b, e, hcluster, htrack, hblock, rfl⟩
  unfold openCluster at hcluster htrack ⊢
  generalize m.flushCluster = m₁ at *
  cases hcluster
  have hvideo : m₁.isVideo p.idx = t.isVideo := by
    rw [isVideo, htrack]
    rfl
  have hkeys : (m₁.isVideo p.idx && p.isKey) = true ↔ m₁.Keys p := Bool.and_eq_true_iff
  refine ⟨⟨hflush.cues_eq, hflush.start_le, hflush.sorted, hflush.closed, ?_, ?_⟩, htracks⟩
  · rintro c' ⟨⟩
    refine ⟨⟨[p], rfl, .cons ⟨t, htrack, hblock⟩ .nil, ?_⟩, rfl⟩
    rintro hopened p' ⟨⟩
    rcases hkeys.mp hopened with ⟨hvid, hpkey⟩
    exact ⟨hpkey, t, htrack, hvideo ▸ hvid⟩
  · have hbefore := hflush.keys
    simp only [hnone, Option.not_mem_none, or_false] at hbefore
    simp only [List.mem_append, List.mem_singleton]
    constructor
    · rintro ⟨c', hmem | ⟨⟨⟩⟩, hopened⟩
      · rcases hbefore.mp ⟨c', hmem, hopened⟩ with ⟨p', hp', hkeyed⟩
        exact ⟨p', Or.inl hp', hkeyed⟩
      · exact ⟨p, Or.inr rfl, hkeys.mp hopened⟩
    · rintro ⟨p', hp' | rfl, hkeyed⟩
      · rcases hbefore.mpr ⟨p', hp', hkeyed⟩ with ⟨c', hmem, hopened⟩
        exact ⟨c', Or.inl hmem, hopened⟩
      · exact ⟨_, Or.inr rfl, hkeys.mpr hkeyed⟩

/-- What one packet keeps. -/
theorem Inv.writeBlock (h : Inv m done) (hwrite : m.writeBlock p = .ok m') :
    Inv m' (done ++ [p]) ∧ m'.tracks = m.tracks := by
  unfold Muxer.writeBlock at hwrite
  split at hwrite
  · cases hwrite
  dsimp only at hwrite
  have hseen : Inv { m with wroteFirstBlock := m.wroteFirstBlock.set p.idx true } done :=
    ⟨h.cues_eq, h.start_le, h.sorted, h.closed, h.cluster, h.keys⟩
  split at hwrite
  · exact hseen.opens hwrite
  · rename_i hnew
    exact hseen.append (Bool.eq_false_iff.mpr hnew) hwrite

theorem Inv.run {packets : List Input} (h : Inv m done)
    (hrun : m.run packets = .ok m') :
    Inv m' (done ++ packets) ∧ m'.tracks = m.tracks ∧ m'.cluster = none := by
  induction packets generalizing m done with
  | nil =>
      cases hrun
      rw [List.append_nil]
      exact ⟨h.flushCluster, flushCluster_tracks m, flushCluster_cluster m⟩
  | cons p packets ih =>
      rw [Muxer.run] at hrun
      cases hwrite : m.writeBlock p with
      | error e =>
          rw [hwrite] at hrun
          cases hrun
      | ok m₁ =>
          rw [hwrite] at hrun
          rcases h.writeBlock hwrite with ⟨hinv, htracks⟩
          rcases ih hinv hrun with ⟨hinv', htracks', hnone⟩
          rw [List.append_assoc] at hinv'
          exact ⟨hinv', htracks'.trans htracks, hnone⟩

/-! ## Right cues -/

/-- A muxer that has written its header, with tracks numbered from one on. -/
structure Fresh (m : Muxer) : Prop where
  numbers : ∀ t ∈ m.tracks, t.number < 2 ^ 56 - 1
  cluster : m.cluster = none
  cues : m.cues = []
  closed : m.closed = []
  start_le : m.segmentDataStart ≤ m.out.length

theorem Fresh.inv (h : Fresh m) : Inv m [] where
  cues_eq := by
    rw [h.cues, h.closed]
    rfl
  start_le := h.start_le
  sorted := by
    rw [h.closed]
    exact List.Pairwise.nil
  closed := by
    rw [h.closed]
    intro c hc
    cases hc
  cluster := by
    rw [h.cluster]
    rintro c ⟨⟩
  keys := by
    rw [h.closed, h.cluster]
    simp

/-- What a reader finds in the written bytes at the place of an entry. -/
def openingAt (m : Muxer) (e : CueEntry) : Option Opening :=
  openingOf Caps.default (m.out.drop (m.segmentDataStart + e.clusterPosRel))

/-- Every entry names the place of a cluster whose first block is a keyframe of its track at its
time, and every cluster that a keyframe opened has one entry. -/
def CuesRight (m : Muxer) : Prop :=
  (∀ e ∈ m.cues, ∃ found ∈ m.openingAt e, found.header.track = e.track ∧ found.key = true ∧
    (found.time : Int) + found.header.relTimestamp = e.timeTicks) ∧
  ∀ c ∈ m.closed, c.keyframeOpened = true →
    (m.cues.filter fun e => decide (e.clusterPosRel = c.bytePos - m.segmentDataStart)).length = 1

/-- Where a cluster stands that a keyframe opened, a reader finds a keyframe of a video track at the
time of the cluster. -/
theorem Inv.openingAt (h : Inv m done) (hnumbers : ∀ t ∈ m.tracks, t.number < 2 ^ 56 - 1)
    (hsize : m.out.length < 2 ^ 56 - 1) (hc : c ∈ m.closed) (hopened : c.keyframeOpened = true)
    (track : Nat) :
    ∃ found ∈ m.openingAt ⟨c.timestamp, track, c.bytePos - m.segmentDataStart⟩,
      (∃ t ∈ m.tracks, t.isVideo = true ∧ t.number = found.header.track) ∧ found.key = true ∧
        (found.time : Int) + found.header.relTimestamp = c.timestamp := by
  rcases h.closed c hc with ⟨⟨packets, hholds⟩, hstart, -, more, hmore⟩
  have hlen : c.encode.length < 2 ^ 56 - 1 := by
    have hdrop := congrArg List.length hmore
    rw [List.length_append, List.length_drop] at hdrop
    omega
  rcases openingOf_encode hholds hnumbers hlen more with
    ⟨p, hp, t, header, ht, hfound, htrack, hrel⟩
  rcases hholds.opened hopened p hp with ⟨hkey, t', ht', hvideo⟩
  cases ht.symm.trans ht'
  rw [hmore] at hfound
  rw [Muxer.openingAt, Nat.add_sub_cancel' hstart, hfound, hkey, Bool.true_or]
  exact ⟨_, rfl, ⟨t, List.mem_of_getElem? ht, hvideo, htrack.symm⟩, rfl, by rw [hrel, Int.add_zero]⟩

theorem mem_entries {e : CueEntry} (h : e ∈ m.entries c) :
    c.keyframeOpened = true ∧ ∃ t ∈ m.tracks, t.isVideo = true ∧
      e = ⟨c.timestamp, t.number, c.bytePos - m.segmentDataStart⟩ := by
  unfold entries at h
  split at h
  · rename_i hopened
    rcases List.mem_map.mp h with ⟨t, ht, rfl⟩
    rcases List.mem_filter.mp ht with ⟨hmem, hvideo⟩
    exact ⟨hopened, t, hmem, hvideo, rfl⟩
  · cases h

/-- The entries at the place of a cluster are those that were recorded for it. -/
theorem filter_entries {clusters : List Cluster}
    (hsorted : clusters.Pairwise fun c c' => c.bytePos < c'.bytePos)
    (hstart : ∀ c ∈ clusters, m.segmentDataStart ≤ c.bytePos) (hc : c ∈ clusters) :
    ((clusters.flatMap m.entries).filter fun e =>
      decide (e.clusterPosRel = c.bytePos - m.segmentDataStart)) = m.entries c := by
  have hother : ∀ c', m.segmentDataStart ≤ c'.bytePos → c'.bytePos ≠ c.bytePos →
      m.segmentDataStart ≤ c.bytePos → ((m.entries c').filter fun e =>
        decide (e.clusterPosRel = c.bytePos - m.segmentDataStart)) = [] := by
    intro c' hle hne hle'
    rw [List.filter_eq_nil_iff]
    intro e he
    rcases mem_entries he with ⟨-, t, -, -, rfl⟩
    simp only [decide_eq_true_eq]
    omega
  induction clusters with
  | nil => cases hc
  | cons c' clusters ih =>
      rcases List.pairwise_cons.mp hsorted with ⟨hbefore, hrest⟩
      rcases List.forall_mem_cons.mp hstart with ⟨hle, hstart'⟩
      rw [List.flatMap_cons, List.filter_append]
      rcases List.mem_cons.mp hc with rfl | hc
      · have hself : ((m.entries c).filter fun e =>
            decide (e.clusterPosRel = c.bytePos - m.segmentDataStart)) = m.entries c := by
          rw [List.filter_eq_self]
          intro e he
          rcases mem_entries he with ⟨-, t, -, -, rfl⟩
          exact decide_eq_true rfl
        rw [hself, List.filter_flatMap, List.flatMap_eq_nil_iff.mpr, List.append_nil]
        intro c' hc'
        exact hother c' (hstart' c' hc') (hbefore c' hc').ne' hle
      · rw [hother c' hle (hbefore c hc).ne (hstart' c hc), List.nil_append]
        exact ih hrest hstart' hc

/-- The cues are right if and only if there is at most one video track or no keyframe of one came. -/
theorem Inv.cuesRight_iff (h : Inv m done) (hnone : m.cluster = none)
    (hnumbers : ∀ t ∈ m.tracks, t.number < 2 ^ 56 - 1) (hsize : m.out.length < 2 ^ 56 - 1) :
    CuesRight m ↔ (m.tracks.filter fun t => t.isVideo).length ≤ 1 ∨ ∀ p ∈ done, ¬ m.Keys p := by
  have hcount : ∀ c ∈ m.closed, c.keyframeOpened = true → (m.cues.filter fun e =>
      decide (e.clusterPosRel = c.bytePos - m.segmentDataStart)).length =
        (m.tracks.filter fun t => t.isVideo).length := by
    intro c hc hopened
    rw [h.cues_eq, filter_entries h.sorted (fun c' hc' => (h.closed c' hc').2.1) hc, entries,
      if_pos hopened, List.length_map]
  have hkeys := h.keys
  simp only [hnone, Option.not_mem_none, or_false] at hkeys
  constructor
  · rintro ⟨-, hone⟩
    by_contra hnot
    push Not at hnot
    rcases hkeys.mpr hnot.2 with ⟨c, hc, hopened⟩
    have hcued := hone c hc hopened
    rw [hcount c hc hopened] at hcued
    omega
  · intro hright
    -- At most one track is a video track if a keyframe opened a cluster.
    have hsingle : ∀ c ∈ m.closed, c.keyframeOpened = true →
        (m.tracks.filter fun t => t.isVideo).length ≤ 1 := by
      intro c hc hopened
      rcases hright with hone | hkey
      · exact hone
      · rcases hkeys.mp ⟨c, hc, hopened⟩ with ⟨p, hp, hkeyed⟩
        exact absurd hkeyed (hkey p hp)
    constructor
    · intro e he
      rw [h.cues_eq] at he
      rcases List.mem_flatMap.mp he with ⟨c, hc, hentry⟩
      rcases mem_entries hentry with ⟨hopened, t, ht, hvideo, rfl⟩
      rcases h.openingAt hnumbers hsize hc hopened t.number with
        ⟨found, hfound, ⟨t', ht', hvideo', hnumber⟩, hkey, htime⟩
      have hsame : t = t' := by
        have hmem : t ∈ m.tracks.filter fun t => t.isVideo := List.mem_filter.mpr ⟨ht, hvideo⟩
        have hmem' : t' ∈ m.tracks.filter fun t => t.isVideo :=
          List.mem_filter.mpr ⟨ht', hvideo'⟩
        have hpos := List.length_pos_of_mem hmem
        have hle := hsingle c hc hopened
        have hlen : (m.tracks.filter fun t => t.isVideo).length = 1 := by omega
        rcases List.length_eq_one_iff.mp hlen with ⟨only, heq⟩
        rw [heq, List.mem_singleton] at hmem hmem'
        exact hmem.trans hmem'.symm
      exact ⟨found, hfound, by rw [hsame, hnumber], hkey, htime⟩
    · intro c hc hopened
      rcases h.openingAt hnumbers hsize hc hopened 0 with ⟨-, -, ⟨t, ht, hvideo, -⟩, -⟩
      have hpos : 0 < (m.tracks.filter fun t => t.isVideo).length :=
        List.length_pos_of_mem (List.mem_filter.mpr ⟨ht, hvideo⟩)
      have hle := hsingle c hc hopened
      rw [hcount c hc hopened]
      omega

theorem run_cuesRight_iff (packets : List Input) (h : m.Fresh) (hrun : m.run packets = .ok m')
    (hsize : m'.out.length < 2 ^ 56 - 1) :
    CuesRight m' ↔
      (m.tracks.filter fun t => t.isVideo).length ≤ 1 ∨ ∀ p ∈ packets, ¬ m.Keys p := by
  rcases h.inv.run hrun with ⟨hinv, htracks, hnone⟩
  rw [List.nil_append] at hinv
  have hkeys : ∀ p, m'.Keys p ↔ m.Keys p := by
    intro p
    rw [Keys, Keys, isVideo, isVideo, htracks]
  rw [hinv.cuesRight_iff hnone (htracks ▸ h.numbers) hsize, htracks]
  simp only [hkeys]

end Muxer

open Muxer in
/-- The cues are right if and only if there is one video track at most or no packet is a keyframe of
one. -/
theorem cues_right_iff (m m' : Muxer) (packets : List Input) (h : m.Fresh)
    (hrun : m.run packets = .ok m') (hsize : m'.out.length < 2 ^ 56 - 1) :
    CuesRight m' ↔
      (m.tracks.filter fun t => t.isVideo).length ≤ 1 ∨
        ∀ p ∈ packets, ¬ (m.isVideo p.idx = true ∧ p.isKey = true) :=
  run_cuesRight_iff packets h hrun hsize

/-- A muxer of some tracks, numbered from one on: the video tracks, and an audio track. -/
def freshMuxer (videos : Nat) : Muxer where
  tracks := (List.range videos).map (fun i => ⟨i + 1, true, none, false⟩) ++
    [⟨videos + 1, false, none, false⟩]
  out := []
  segmentDataStart := 0
  maxClusterMs := clampI64 5000
  wroteFirstBlock := List.replicate (videos + 1) false
  cluster := none
  cues := []
  clusterStarts := []
  maxEndTicks := 0
  closed := []

theorem fresh_freshMuxer (videos : Nat) (h : videos < 2 ^ 56 - 2) : (freshMuxer videos).Fresh where
  numbers := by
    intro t ht
    rcases List.mem_append.mp ht with ht | ht
    · rcases List.mem_map.mp ht with ⟨i, hi, rfl⟩
      have hlt := List.mem_range.mp hi
      dsimp only
      omega
    · rw [List.mem_singleton.mp ht]
      dsimp only
      omega
  cluster := rfl
  cues := rfl
  closed := rfl
  start_le := Nat.le_refl 0

/-- A packet of some bytes for a track, with or without a duration. -/
def packetAt (idx : Nat) (isKey : Bool) (ticks : Int) (duration : Option Int) (data : Bytes) :
    Input where
  idx := idx
  packet := { Packet.empty with
    pts := some (clampI64 ticks)
    data := data
    len := data.length
    sideDataEntries := (duration.map fun d => .durationTicks (clampI64 d)).toList }
  isKey := isKey

/-- Pictures, two of three keyframes, and sound, once in a group with its duration. -/
def soundAndPictures : List Input :=
  [packetAt 0 true 0 none [1, 2], packetAt 1 true 10 (some 20) [3], packetAt 0 false 40 none [4],
    packetAt 0 true 80 none [5, 6], packetAt 1 true 90 none [7]]

/-- Of one video track and its sound two clusters are written and two cues, which are right. -/
theorem cues_right_soundAndPictures :
    ∃ m', (freshMuxer 1).run soundAndPictures = .ok m' ∧ m'.cues.length = 2 ∧
      Muxer.CuesRight m' := by
  have hsizes : ((freshMuxer 1).run soundAndPictures).map
      (fun m => (m.out.length, m.cues.length)) = .ok (70, 2) := by
    decide
  rcases exists_of_map hsizes with ⟨m', hrun, hsizes⟩
  rcases Prod.mk.inj hsizes with ⟨hout, hcues⟩
  exact ⟨m', hrun, hcues, (cues_right_iff (freshMuxer 1) m' soundAndPictures
    (fresh_freshMuxer 1 (by norm_num)) hrun (by omega)).mpr (Or.inl (by decide))⟩

/-- With two video tracks a keyframe of the first is recorded for the second too. -/
theorem not_cues_right_two :
    ∃ m', (freshMuxer 2).run [packetAt 0 true 0 none [1]] = .ok m' ∧ ¬ Muxer.CuesRight m' := by
  have hsize : ((freshMuxer 2).run [packetAt 0 true 0 none [1]]).map (fun m => m.out.length) =
      .ok 21 := by
    decide
  rcases exists_of_map hsize with ⟨m', hrun, hsize⟩
  refine ⟨m', hrun, ?_⟩
  rw [Muxer.run_cuesRight_iff _ (fresh_freshMuxer 2 (by norm_num)) hrun (by omega)]
  rintro (hone | hkey)
  · exact absurd hone (by decide)
  · exact hkey _ (List.mem_singleton.mpr rfl) ⟨rfl, rfl⟩

/-- With any number of video tracks every entry leads to the bytes of a cluster in which a reader
finds first a video keyframe at its time, and the entries are in the order of their places. -/
theorem cues_land (m m' : Muxer) (packets : List Input) (h : m.Fresh)
    (hrun : m.run packets = .ok m') (hsize : m'.out.length < 2 ^ 56 - 1) :
    (∀ e ∈ m'.cues, ∃ found ∈ m'.openingAt e,
      (∃ t ∈ m.tracks, t.isVideo = true ∧ t.number = found.header.track) ∧ found.key = true ∧
        (found.time : Int) + found.header.relTimestamp = e.timeTicks) ∧
      m'.cues.Pairwise fun e e' => e.clusterPosRel ≤ e'.clusterPosRel := by
  rcases h.inv.run hrun with ⟨hinv, htracks, -⟩
  rw [hinv.cues_eq, ← htracks]
  constructor
  · intro e he
    rcases List.mem_flatMap.mp he with ⟨c, hc, hentry⟩
    rcases Muxer.mem_entries hentry with ⟨hopened, t, -, -, rfl⟩
    exact hinv.openingAt (htracks ▸ h.numbers) hsize hc hopened t.number
  · rw [List.pairwise_flatMap]
    refine ⟨fun c _ => List.pairwise_of_forall_mem_list fun e he e' he' => ?_,
      hinv.sorted.imp fun hlt e he e' he' => ?_⟩
    · rcases Muxer.mem_entries he with ⟨-, _, -, -, rfl⟩
      rcases Muxer.mem_entries he' with ⟨-, _, -, -, rfl⟩
      exact le_refl _
    · rcases Muxer.mem_entries he with ⟨-, _, -, -, rfl⟩
      rcases Muxer.mem_entries he' with ⟨-, _, -, -, rfl⟩
      exact Nat.sub_le_sub_right hlt.le _

/-- Keyframes of two video tracks, with sound in a group. -/
def twoPictures : List Input :=
  [packetAt 0 true 0 none [1, 2], packetAt 2 true 10 (some 20) [3], packetAt 1 true 40 none [4],
    packetAt 0 false 40 none [5]]

theorem cues_land_twoPictures :
    ∃ m', (freshMuxer 2).run twoPictures = .ok m' ∧ m'.cues.length = 4 ∧
      (∀ e ∈ m'.cues, ∃ found ∈ m'.openingAt e,
        (∃ t ∈ (freshMuxer 2).tracks, t.isVideo = true ∧ t.number = found.header.track) ∧
          found.key = true ∧ (found.time : Int) + found.header.relTimestamp = e.timeTicks) ∧
      m'.cues.Pairwise fun e e' => e.clusterPosRel ≤ e'.clusterPosRel := by
  have hsizes : ((freshMuxer 2).run twoPictures).map (fun m => (m.out.length, m.cues.length)) =
      .ok (62, 4) := by
    decide
  rcases exists_of_map hsizes with ⟨m', hrun, hsizes⟩
  rcases Prod.mk.inj hsizes with ⟨hout, hcues⟩
  exact ⟨m', hrun, hcues, cues_land (freshMuxer 2) m' twoPictures (fresh_freshMuxer 2 (by norm_num))
    hrun (by omega)⟩

end Matroska
end Vaco
