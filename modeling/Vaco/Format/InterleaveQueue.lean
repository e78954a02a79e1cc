import Vaco.Core.Packet
import Vaco.Format.Options
import Vaco.Library.StreamMerge

/-!
# The interleave queue

A muxer takes packets in one order only, and the queue decides it: each stream has its
own queue of packets keyed by decode time in microseconds, and the next packet is the
head with the least key, lower streams first.  A packet may leave when every live
stream has one queued, when the spread of times says that a stream is sparse, or on
request.  A chunk policy keeps runs of one stream together.

Main results:

- `InterleaveQueue.oldest_eq_least`: the oldest head is the least head of a merge.
- `InterleaveQueue.drain_eq_mergeAll`: the final flush merges the queues.
-/

namespace Vaco
namespace Format

open Library Vaco.Core StreamMerge

/-- Widen a 32-bit value. -/
def I64.ofI32 (v : I32) : I64 where
  val := v.val
  le_val := by
    have := v.le_val
    omega
  val_le := by
    have := v.val_le
    omega

/-- How a container that stores per-track runs wants its packets grouped. -/
structure ChunkPolicy where
  maxDurationUs : I64
  maxSizeBytes : Nat
  audioPreloadUs : I64

namespace ChunkPolicy

/-- Read the policy off the option set; a negative size disables the limit. -/
def fromOptions (opts : FormatOptions) : ChunkPolicy where
  maxDurationUs := I64.ofI32 opts.chunkDuration
  maxSizeBytes := opts.chunkSize.val.toNat
  audioPreloadUs := I64.ofI32 opts.audioPreload

/-- Whether any grouping is in force. -/
def isChunked (chunk : ChunkPolicy) : Bool :=
  0 < chunk.maxDurationUs.val || 0 < chunk.maxSizeBytes

end ChunkPolicy

/-- A queued packet with its decode time in microseconds, biased by the preload, and its arrival. -/
structure Queued where
  pkt : Packet
  keyUs : I64
  seq : Nat
deriving DecidableEq

/-- Per-stream queues plus the readiness rules over them. -/
structure InterleaveQueue where
  perStream : List (List Queued)
  live : List Bool
  timeBases : List TimeBase
  preload : List Bool
  maxDeltaUs : I64
  chunk : ChunkPolicy
  seq : Nat
  newestUs : Option I64
  runStream : Option Nat
  runBytes : Nat
  runStartUs : Option I64
  notimestamps : Bool

namespace InterleaveQueue

/-- A queue for a number of streams, every one of them live. -/
def new (streamCount : Nat) (opts : FormatOptions) : InterleaveQueue where
  perStream := List.replicate streamCount []
  live := List.replicate streamCount true
  timeBases := List.replicate streamCount Rational.MICROSECONDS
  preload := List.replicate streamCount false
  maxDeltaUs := opts.maxInterleaveDelta
  chunk := ChunkPolicy.fromOptions opts
  seq := 0
  newestUs := none
  runStream := none
  runBytes := 0
  runStartUs := none
  notimestamps := false

/-- Declare a stream's output time base. -/
def setTimeBase (q : InterleaveQueue) (streamIndex : Nat) (tb : TimeBase) : InterleaveQueue :=
  { q with timeBases := q.timeBases.set streamIndex tb }

/-- Mark a stream as one the preload applies to. -/
def setPreloaded (q : InterleaveQueue) (streamIndex : Nat) (preloaded : Bool) :
    InterleaveQueue :=
  { q with preload := q.preload.set streamIndex preloaded }

/-- Total packets waiting. -/
def pending (q : InterleaveQueue) : Nat :=
  (q.perStream.map List.length).sum

/-- Whether nothing is waiting. -/
def isEmpty (q : InterleaveQueue) : Bool :=
  q.perStream.all List.isEmpty

/-- Accept packets with no decode time, ordering them by arrival. -/
def withoutTimestamps (q : InterleaveQueue) : InterleaveQueue :=
  { q with notimestamps := true }

/-- Declare a stream finished. -/
def endStream (q : InterleaveQueue) (streamIndex : Nat) : InterleaveQueue :=
  { q with live := q.live.set streamIndex false }

def dtsUs (q : InterleaveQueue) (pkt : Packet) : Except Error I64 :=
  match pkt.dts.rescale ((q.timeBases[pkt.streamIndex]?).getD Rational.MICROSECONDS)
      Rational.MICROSECONDS Rounding.default with
  | some t => .ok t
  | none =>
      if q.notimestamps then .ok (.lit 0)
      else .error (.invalidData "packet has no dts; interleaving cannot order it")

def keyUs (q : InterleaveQueue) (streamIndex : Nat) (dtsUs : I64) : I64 :=
  if (q.preload[streamIndex]?).getD false then dtsUs.saturatingSub q.chunk.audioPreloadUs
  else dtsUs

def entryFor (q : InterleaveQueue) (pkt : Packet) : Except Error (Queued × I64) :=
  if pkt.streamIndex < q.perStream.length then
    match q.dtsUs pkt with
    | .error e => .error e
    | .ok dtsUs =>
        .ok ({ pkt := pkt
               keyUs := q.keyUs pkt.streamIndex dtsUs
               seq := min (q.seq + 1) u64Max }, dtsUs)
  else
    .error (.invalidData "packet names a stream the muxer does not have")

/-- Queue one packet. -/
def push (q : InterleaveQueue) (pkt : Packet) : InterleaveQueue × Except Error Unit :=
  match q.entryFor pkt with
  | .error e => (q, .error e)
  | .ok (entry, dtsUs) =>
      ({ q with
          newestUs := some ((q.newestUs.map fun n => max n dtsUs).getD dtsUs)
          seq := entry.seq
          perStream := q.perStream.modify pkt.streamIndex (· ++ [entry]) }, .ok ())

/-- The place of a queued packet: by key, then by stream, then by arrival. -/
def place (x : Nat × Queued) : I64 ×ₗ ℕ ×ₗ ℕ :=
  toLex (x.2.keyUs, toLex (x.1, x.2.seq))

def oldest (q : InterleaveQueue) : Option (Nat × Queued) :=
  (q.perStream.zipIdx.filterMap fun x => x.1.head?.map fun h => (x.2, h)).argmin place

/-- Whether every live stream has something queued. -/
def allReady (q : InterleaveQueue) : Bool :=
  (q.live.zipIdx.filter Prod.fst).all fun x =>
    (q.perStream[x.2]?).any fun queue => !queue.isEmpty

/-- Whether the spread of the queued times says that a stream is sparse. -/
def sparseEscape (q : InterleaveQueue) : Bool :=
  match q.newestUs, q.oldest with
  | some newest, some (_, oldest) => q.maxDeltaUs < newest.saturatingSub oldest.keyUs
  | _, _ => false

/-- Whether the open run has hit either chunk limit. -/
def runExhausted (q : InterleaveQueue) (run : Nat) : Bool :=
  (0 < q.chunk.maxSizeBytes && q.chunk.maxSizeBytes ≤ q.runBytes) ||
    (0 < q.chunk.maxDurationUs.val &&
      match q.runStartUs, (q.perStream[run]?).bind List.head? with
      | some start, some head => q.chunk.maxDurationUs ≤ head.keyUs.saturatingSub start
      | _, _ => false)

/-- Which stream the next packet comes from: the open run while it is viable, the
oldest head otherwise. -/
def pickStream (q : InterleaveQueue) : InterleaveQueue × Option Nat :=
  let viable := fun run =>
    ((q.perStream[run]?).any fun queue => !queue.isEmpty) && !q.runExhausted run &&
      !q.sparseEscape
  match if q.chunk.isChunked then q.runStream.filter viable else none with
  | some run => (q, some run)
  | none =>
      match q.oldest with
      | none => (if q.chunk.isChunked then { q with runStream := none } else q, none)
      | some (pick, _) => ({ q with runStream := none }, some pick)

def advanceRun (q : InterleaveQueue) (pick : Nat) (taken : Queued) : InterleaveQueue :=
  if q.runStream = some pick then
    { q with runBytes := min (q.runBytes + taken.pkt.len) u64Max }
  else
    { q with
      runStream := some pick
      runBytes := taken.pkt.len
      runStartUs := some taken.keyUs }

/-- The next entry in output order, with its stream, unless the queue is not ready. -/
def nextEntry (q : InterleaveQueue) (flush : Bool) : InterleaveQueue × Option (Nat × Queued) :=
  if q.isEmpty then
    ({ q with runStream := none }, none)
  else if !flush && !q.allReady && !q.sparseEscape then
    (q, none)
  else
    match q.pickStream with
    | (q, none) => (q, none)
    | (q, some pick) =>
        match (q.perStream[pick]?).bind List.head? with
        | none => (q, none)
        | some out =>
            (({ q with perStream := q.perStream.modify pick List.tail }).advanceRun pick out,
              some (pick, out))

/-- The next packet in output order, unless the queue is not ready. -/
def next (q : InterleaveQueue) (flush : Bool) : InterleaveQueue × Option Packet :=
  ((q.nextEntry flush).1, (q.nextEntry flush).2.map fun x => x.2.pkt)

/-- Take packets until none is left, at most `fuel` of them. -/
def drainLoop : Nat → InterleaveQueue → InterleaveQueue × List Packet
  | 0, q => (q, [])
  | fuel + 1, q =>
      match q.next true with
      | (q, none) => (q, [])
      | (q, some p) => ((drainLoop fuel q).1, p :: (drainLoop fuel q).2)

/-- Take everything in output order: the final flush. -/
def drain (q : InterleaveQueue) : InterleaveQueue × List Packet :=
  drainLoop (q.pending + 1) q

/-! ## The oldest head -/

theorem place_le_iff {x y : Nat × Queued} :
    place x ≤ place y ↔
      rank Queued.keyUs x < rank Queued.keyUs y ∨
        rank Queued.keyUs x = rank Queued.keyUs y ∧ x.2.seq ≤ y.2.seq := by
  simp only [place, rank, Prod.Lex.toLex_le_toLex, Prod.Lex.toLex_lt_toLex,
    EmbeddingLike.apply_eq_iff_eq, Prod.mk.injEq]
  tauto

/-- The oldest head is the least head of the merge: streams differ, so the arrival
sequence never decides. -/
theorem oldest_eq_least (q : InterleaveQueue) : q.oldest = least Queued.keyUs q.perStream := by
  have hheads : (q.perStream.zipIdx.filterMap fun x => x.1.head?.map fun h => (x.2, h)) =
      heads q.perStream := rfl
  cases hold : q.oldest with
  | none =>
      rw [oldest, hheads, List.argmin_eq_none] at hold
      rw [least, hold]
      rfl
  | some x =>
      rw [oldest, hheads] at hold
      symm
      refine least_eq_some_iff.mpr ⟨mem_heads.mp (List.argmin_mem hold), ?_⟩
      intro j b rest hj
      have hle := List.le_of_mem_argmin (mem_heads.mpr ⟨rest, hj⟩) hold
      rcases place_le_iff.mp hle with hlt | ⟨heq, -⟩
      · exact hlt.le
      · exact heq.le

theorem isEmpty_iff_least (q : InterleaveQueue) :
    q.isEmpty = true ↔ least Queued.keyUs q.perStream = none := by
  simp [isEmpty, least_eq_none_iff]

theorem allReady_iff (q : InterleaveQueue) :
    q.allReady = true ↔
      ∀ i : Nat, q.live[i]? = some true → ∃ a, (i, a) ∈ queuedItems q.perStream := by
  simp only [allReady, List.all_eq_true, List.mem_filter, List.mem_zipIdx_iff_getElem?,
    Prod.forall, Option.any_eq_true, Bool.not_eq_true', mem_queuedItems]
  constructor
  · intro h i hi
    rcases h true i ⟨hi, rfl⟩ with ⟨queue, hqueue, hne⟩
    rcases List.exists_mem_of_ne_nil queue (by simpa using hne) with ⟨a, ha⟩
    exact ⟨a, queue, hqueue, ha⟩
  · rintro h l i ⟨hi, rfl⟩
    rcases h i hi with ⟨a, queue, hqueue, ha⟩
    exact ⟨queue, hqueue, by simpa using List.ne_nil_of_mem ha⟩

/-! ## Taking packets without a chunk policy -/

/-- The queue after the head of a stream was taken, without a chunk policy. -/
def takeHead (q : InterleaveQueue) (x : Nat × Queued) : InterleaveQueue :=
  { q with
    perStream := q.perStream.modify x.1 List.tail
    runStream := some x.1
    runBytes := x.2.pkt.len
    runStartUs := some x.2.keyUs }

/-- Without a chunk policy a ready queue gives up the least head, and a queue that is
not ready keeps its packets. -/
theorem nextEntry_of_unchunked {q : InterleaveQueue} (hchunk : q.chunk.isChunked = false)
    (flush : Bool) :
    q.nextEntry flush =
      if flush || q.allReady || q.sparseEscape then
        match least Queued.keyUs q.perStream with
        | none => ({ q with runStream := none }, none)
        | some x => (q.takeHead x, some x)
      else (if q.isEmpty then { q with runStream := none } else q, none) := by
  unfold nextEntry
  by_cases hempty : q.isEmpty = true
  · rw [if_pos hempty, (isEmpty_iff_least q).mp hempty]
    split <;> simp
  · rw [if_neg hempty]
    cases hleast : least Queued.keyUs q.perStream with
    | none => exact absurd ((isEmpty_iff_least q).mpr hleast) hempty
    | some x =>
        rcases (least_eq_some_iff (a := x.2)).mp hleast with ⟨⟨rest, hx⟩, -⟩
        have hpick : q.pickStream = ({ q with runStream := none }, some x.1) := by
          simp [pickStream, hchunk, oldest_eq_least, hleast]
        rw [hpick]
        cases flush <;> cases q.allReady <;> cases q.sparseEscape <;>
          simp [hx, advanceRun, takeHead, hempty]

theorem drainLoop_of_unchunked {q : InterleaveQueue} (hchunk : q.chunk.isChunked = false)
    (fuel : Nat) :
    (drainLoop fuel q).2 =
        (mergeAll Queued.keyUs fuel q.perStream).map (fun x => x.2.pkt) ∧
      (drainLoop fuel q).1.perStream = leftOver Queued.keyUs fuel q.perStream := by
  induction fuel generalizing q with
  | zero => exact ⟨rfl, rfl⟩
  | succ fuel ih =>
      rw [drainLoop, mergeAll, leftOver, next, nextEntry_of_unchunked hchunk]
      cases least Queued.keyUs q.perStream with
      | none => exact ⟨rfl, rfl⟩
      | some x =>
          have hrest := ih (q := q.takeHead x) hchunk
          exact ⟨congrArg (x.2.pkt :: ·) hrest.1, hrest.2⟩

theorem pending_eq (q : InterleaveQueue) : q.pending = (queuedItems q.perStream).length := by
  have hlengths : ∀ start : Nat, (q.perStream.zipIdx start).map
      (fun x => (x.1.map (Prod.mk x.2)).length) = q.perStream.map List.length := by
    intro start
    generalize q.perStream = queues
    induction queues generalizing start with
    | nil => rfl
    | cons queue queues ih => simpa using ih (start + 1)
  rw [queuedItems, List.length_flatMap, hlengths, pending]

/-- Without a chunk policy the final flush merges the queues of the streams, and
leaves nothing behind. -/
theorem drain_eq_mergeAll {q : InterleaveQueue} (hchunk : q.chunk.isChunked = false) :
    q.drain.2 =
        (mergeAll Queued.keyUs (q.pending + 1) q.perStream).map (fun x => x.2.pkt) ∧
      q.drain.1.pending = 0 := by
  have hloop := drainLoop_of_unchunked hchunk (q.pending + 1)
  refine ⟨hloop.1, ?_⟩
  have hbound : (queuedItems q.perStream).length ≤ q.pending + 1 := by
    rw [pending_eq]
    omega
  rw [pending_eq, drain, hloop.2, queuedItems_leftOver hbound, List.length_nil]

end InterleaveQueue

end Format
end Vaco
