import Vaco.Core.Packet
import Vaco.Format.Options
import Vaco.Library.ReorderWindow

/-!
# Timestamp generation and repair

One fixer serves one demuxer and keeps a small record for each stream.  A packet
passes six rules in a fixed order: decode times are ignored on request, copied from
presentation times where the codec does not reorder, taken from a reorder window
where it does; presentation times are generated on request; a missing duration
comes from the frame rate; and a decode time that does not advance is pushed
forward.

Main results:

- `fixStream_leaves`: where the decode time of a packet comes from.

Current gaps:

- The fixed array behind the reorder window is modelled by the list of its live
  entries; `Vaco.Format.ReorderArray` has the array itself.
- Construction from container streams is left out: a run starts from a fresh fixer
  and declares the delays itself.
-/

namespace Vaco
namespace Format

open Library Vaco.Core

/-! ## The state of a stream -/

/-- Deepest reorder window that is maintained. -/
def MAX_REORDER : Nat := 16

/-- Per-stream state of the timestamp-generation rules. -/
structure StreamTs where
  curDts : Timestamp
  lastDuration : I64
  reorder : List I64
  delay : Nat
  reorders : Bool
  repaired : Nat

/-- The state of a stream nothing is known about. -/
def StreamTs.default : StreamTs where
  curDts := none
  lastDuration := .lit 0
  reorder := []
  delay := 0
  reorders := false
  repaired := 0

/-- Why a packet's timestamps were changed. -/
structure FixReport where
  dtsFromPts : Bool := false
  ptsGenerated : Bool := false
  durationFilled : Bool := false
  dtsRepaired : Bool := false
  dtsIgnored : Bool := false
  dtsOverflow : Bool := false
  dtsExceedsPts : Bool := false
deriving DecidableEq

/-- Push a value into the reorder window; once the window is deep enough its least
value leaves. -/
def pushReorder (st : StreamTs) (dts : Timestamp) : StreamTs × Option I64 :=
  match dts with
  | none => (st, none)
  | some v =>
      if st.reorder.length ≥ MAX_REORDER then
        (st, none)
      else
        let pos := st.reorder.findIdx fun x => v < x
        let window := st.reorder.insertIdx pos v
        if window.length ≤ st.delay then
          ({ st with reorder := window }, none)
        else
          ({ st with reorder := window.tail }, window.head?)

/-- One frame's exact duration at a rate; absent for an unusable rate. -/
def durationFromRate (rate : Rational) : Option Duration :=
  if !rate.isDefined || rate.isZero || rate.isInfinite then
    none
  else
    -- A duration is longer than zero exactly when its numerator is positive.
    (Duration.fromTicks (.lit 1) ⟨rate.den, rate.num⟩).filter
      fun duration => 0 < duration.numerator.val

/-! ## The rules -/

structure Repair where
  st : StreamTs
  packet : Packet
  report : FixReport

namespace Repair

/-- Drop the decode time of a packet that carries both. -/
def ignoreDts (igndts : Bool) (x : Repair) : Repair :=
  if igndts ∧ x.packet.dts.isSome ∧ x.packet.pts.isSome then
    { x with
      packet := { x.packet with dts := none }
      report := { x.report with dtsIgnored := true } }
  else
    x

/-- Copy the presentation time where the codec cannot reorder. -/
def dtsFromPts (fillIn : Bool) (x : Repair) : Repair :=
  if fillIn ∧ x.packet.dts.isNone ∧ x.packet.pts.isSome ∧ ¬ x.st.reorders ∧ x.st.delay = 0 then
    { x with
      packet := { x.packet with dts := x.packet.pts }
      report := { x.report with dtsFromPts := true } }
  else
    x

/-- Take the decode time from the reorder window where the codec reorders. -/
def dtsFromWindow (fillIn : Bool) (x : Repair) : Repair :=
  if fillIn ∧ x.packet.dts.isNone ∧ x.packet.pts.isSome ∧ x.st.reorders ∧ 0 < x.st.delay then
    match pushReorder x.st x.packet.pts with
    | (st, some dts) =>
        { st := st
          packet := { x.packet with dts := some dts }
          report := { x.report with dtsFromPts := true } }
    | (st, none) => { x with st := st }
  else
    x

/-- Generate a presentation time from the reorder window of decode times. -/
def ptsFromWindow (genpts : Bool) (x : Repair) : Repair :=
  if genpts ∧ x.packet.pts.isNone ∧ x.packet.dts.isSome then
    match pushReorder x.st x.packet.dts with
    | (st, some pts) =>
        { st := st
          packet := { x.packet with pts := some pts }
          report := { x.report with ptsGenerated := true } }
    | (st, none) => { x with st := st }
  else
    x

def fillDuration (fillIn : Bool) (frameRate : Rational) (x : Repair) : Repair :=
  if fillIn ∧ x.packet.duration = Duration.ZERO then
    match durationFromRate frameRate with
    | some d =>
        { x with
          packet := { x.packet with duration := d }
          report := { x.report with durationFilled := true } }
    | none => x
  else
    x

/-- Push a decode time that does not advance past the last one of its stream. -/
def repairDts (fillIn discont : Bool) (x : Repair) : Repair :=
  match x.st.curDts, x.packet.dts with
  | some cur, some dts =>
      if fillIn ∧ ¬ discont ∧ dts ≤ cur then
        let step : I64 := max x.st.lastDuration (.lit 1)
        let repaired := cur.saturatingAdd step
        { st := { x.st with repaired := min (x.st.repaired + 1) u64Max }
          packet := { x.packet with dts := some repaired }
          report :=
            { x.report with
              dtsRepaired := true
              dtsOverflow := repaired ≤ cur
              dtsExceedsPts := x.packet.pts.any fun pts => pts < repaired } }
      else
        x
  | _, _ => x

def remember (timeBase : TimeBase) (x : Repair) : Repair :=
  let st :=
    match x.packet.dts with
    | some dts => { x.st with curDts := some dts }
    | none => x.st
  match x.packet.duration.toTicks timeBase with
  | some ticks =>
      if 0 < ticks.val then { x with st := { st with lastDuration := ticks } }
      else { x with st := st }
  | none => { x with st := st }

end Repair

/-- Switches that govern the rules for a whole run. -/
structure FixRules where
  genpts : Bool
  igndts : Bool
  discont : Bool
  fillIn : Bool

def generate (rules : FixRules) (st : StreamTs) (packet : Packet) (frameRate : Rational) :
    Repair :=
  let x : Repair := { st := st, packet := packet, report := {} }
  let x := x.ignoreDts rules.igndts
  let x := x.dtsFromPts rules.fillIn
  let x := x.dtsFromWindow rules.fillIn
  let x := x.ptsFromWindow rules.genpts
  x.fillDuration rules.fillIn frameRate

def fixStream (rules : FixRules) (st : StreamTs) (packet : Packet) (timeBase : TimeBase)
    (frameRate : Rational) : Repair :=
  ((generate rules st packet frameRate).repairDts rules.fillIn rules.discont).remember timeBase

/-- Fills in and repairs what the container omitted or got wrong. -/
structure TimestampFixer where
  streams : List StreamTs
  flags : FormatFlags
  fflags : FFlags
  fillIn : Bool

namespace TimestampFixer

/-- A fixer for a number of streams. -/
def new (streamCount : Nat) (flags : FormatFlags) (opts : FormatOptions) : TimestampFixer where
  streams := List.replicate streamCount StreamTs.default
  flags := flags
  fflags := opts.fflags
  fillIn := opts.fillsInTimestamps

def setStreamDelay (f : TimestampFixer) (streamIndex delay : Nat) (reorders : Bool) :
    TimestampFixer :=
  match f.streams[streamIndex]? with
  | some s =>
      { f with
        streams := f.streams.set streamIndex
          { s with delay := min delay (MAX_REORDER - 1), reorders := reorders } }
  | none => f

/-- The switches of a fixer. -/
def rules (f : TimestampFixer) : FixRules where
  genpts := f.fflags.contains FFlags.GENPTS
  igndts := f.fflags.contains FFlags.IGNDTS
  discont := f.flags.contains FormatFlags.TS_DISCONT
  fillIn := f.fillIn

/-- Apply every rule to one packet. -/
def fix (f : TimestampFixer) (packet : Packet) (timeBase : TimeBase) (frameRate : Rational) :
    TimestampFixer × Packet × FixReport :=
  match f.streams[packet.streamIndex]? with
  | none => (f, packet, {})
  | some st =>
      let x := fixStream f.rules st packet timeBase frameRate
      ({ f with streams := f.streams.set packet.streamIndex x.st }, x.packet, x.report)

end TimestampFixer

/-! ## The reorder window -/

theorem pushReorder_length {st : StreamTs} (v : Timestamp) (hdelay : st.delay < MAX_REORDER)
    (h : st.reorder.length < MAX_REORDER) :
    (pushReorder st v).1.reorder.length < MAX_REORDER := by
  cases v with
  | none => exact h
  | some v =>
      have hlen : (st.reorder.insertIdx (st.reorder.findIdx fun x => v < x) v).length =
          st.reorder.length + 1 := length_windowInsert st.reorder v
      simp only [pushReorder]
      split
      · exact h
      · split
        · dsimp only
          omega
        · simp only [List.length_tail]
          omega

/-- The reorder window of a stream is the library's bounded window. -/
theorem pushReorder_eq_windowPush {st : StreamTs} (v : I64)
    (h : st.reorder.length < MAX_REORDER) :
    pushReorder st (some v) =
      ({ st with reorder := (windowPush st.delay st.reorder v).1 },
        (windowPush st.delay st.reorder v).2) := by
  have hinsert : st.reorder.insertIdx (st.reorder.findIdx fun x => v < x) v =
      windowInsert st.reorder v := rfl
  simp only [pushReorder, if_neg (not_le.mpr h), hinsert, windowPush]
  split <;> rfl

theorem pushReorder_frame (st : StreamTs) (v : Timestamp) :
    ∃ window, (pushReorder st v).1 = { st with reorder := window } := by
  unfold pushReorder
  split
  · exact ⟨st.reorder, rfl⟩
  · dsimp only
    split
    · exact ⟨st.reorder, rfl⟩
    · split <;> exact ⟨_, rfl⟩

theorem pushReorder_snd {st : StreamTs} (v : I64) (h : st.reorder.length < MAX_REORDER) :
    (pushReorder st (some v)).2 =
      if st.reorder.length < st.delay then none
      else some (st.reorder.head?.elim v fun x => if v < x then v else x) := by
  rw [pushReorder_eq_windowPush v h]
  simp only [windowPush, length_windowInsert, head?_windowInsert]
  by_cases hfill : st.reorder.length < st.delay
  · rw [if_pos hfill, if_pos (by omega)]
  · rw [if_neg hfill, if_neg (by omega)]

theorem pushReorder_le {st : StreamTs} {v d : I64} (h : (pushReorder st (some v)).2 = some d) :
    d ≤ v := by
  by_cases hlen : st.reorder.length < MAX_REORDER
  · rw [pushReorder_eq_windowPush v hlen] at h
    exact windowPush_le (Prod.ext rfl h)
  · simp [pushReorder, not_lt.mp hlen] at h

/-! ## What generation can do -/

namespace Repair

/-- The last decode time of the stream, the stream itself and the exceptions that
only a repair reports. -/
def tracking (x : Repair) : Timestamp × Nat × Nat × Bool × Nat × Bool × Bool :=
  (x.st.curDts, x.st.repaired, x.st.delay, x.st.reorders, x.packet.streamIndex,
    x.report.dtsOverflow, x.report.dtsExceedsPts)

variable (x : Repair)

@[simp]
theorem ignoreDts_tracking (igndts : Bool) : (x.ignoreDts igndts).tracking = x.tracking := by
  unfold ignoreDts
  split <;> rfl

@[simp]
theorem dtsFromPts_tracking (fillIn : Bool) : (x.dtsFromPts fillIn).tracking = x.tracking := by
  unfold dtsFromPts
  split <;> rfl

@[simp]
theorem dtsFromWindow_tracking (fillIn : Bool) :
    (x.dtsFromWindow fillIn).tracking = x.tracking := by
  rcases pushReorder_frame x.st x.packet.pts with ⟨window, hframe⟩
  unfold dtsFromWindow
  split
  · split <;> rename_i st _ hpush <;> rw [hpush] at hframe <;> subst hframe <;> rfl
  · rfl

@[simp]
theorem ptsFromWindow_tracking (genpts : Bool) :
    (x.ptsFromWindow genpts).tracking = x.tracking := by
  rcases pushReorder_frame x.st x.packet.dts with ⟨window, hframe⟩
  unfold ptsFromWindow
  split
  · split <;> rename_i st _ hpush <;> rw [hpush] at hframe <;> subst hframe <;> rfl
  · rfl

@[simp]
theorem fillDuration_tracking (fillIn : Bool) (frameRate : Rational) :
    (x.fillDuration fillIn frameRate).tracking = x.tracking := by
  unfold fillDuration
  split
  · split <;> rfl
  · rfl

@[simp]
theorem fillDuration_times (fillIn : Bool) (frameRate : Rational) :
    (x.fillDuration fillIn frameRate).packet.pts = x.packet.pts ∧
      (x.fillDuration fillIn frameRate).packet.dts = x.packet.dts ∧
      (x.fillDuration fillIn frameRate).st = x.st := by
  unfold fillDuration
  split
  · split <;> simp
  · simp

@[simp]
theorem ignoreDts_pts (igndts : Bool) : (x.ignoreDts igndts).packet.pts = x.packet.pts := by
  unfold ignoreDts
  split <;> rfl

@[simp]
theorem ignoreDts_st (igndts : Bool) : (x.ignoreDts igndts).st = x.st := by
  unfold ignoreDts
  split <;> rfl

theorem ignoreDts_dts (igndts : Bool) :
    (x.ignoreDts igndts).packet.dts = x.packet.dts ∨ (x.ignoreDts igndts).packet.dts = none := by
  unfold ignoreDts
  split
  · exact Or.inr rfl
  · exact Or.inl rfl

@[simp]
theorem dtsFromPts_pts (fillIn : Bool) : (x.dtsFromPts fillIn).packet.pts = x.packet.pts := by
  unfold dtsFromPts
  split <;> rfl

@[simp]
theorem dtsFromPts_st (fillIn : Bool) : (x.dtsFromPts fillIn).st = x.st := by
  unfold dtsFromPts
  split <;> rfl

theorem dtsFromPts_dts (fillIn : Bool) :
    (x.dtsFromPts fillIn).packet.dts = x.packet.dts ∨
      (x.packet.dts = none ∧ (x.dtsFromPts fillIn).packet.dts = x.packet.pts) := by
  unfold dtsFromPts
  split
  · rename_i h
    exact Or.inr ⟨by simpa using h.2.1, rfl⟩
  · exact Or.inl rfl

@[simp]
theorem dtsFromWindow_pts (fillIn : Bool) :
    (x.dtsFromWindow fillIn).packet.pts = x.packet.pts := by
  unfold dtsFromWindow
  split
  · split <;> rfl
  · rfl

theorem dtsFromWindow_dts (fillIn : Bool) :
    (x.dtsFromWindow fillIn).packet.dts = x.packet.dts ∨
      ∃ t d, x.packet.pts = some t ∧ (x.dtsFromWindow fillIn).packet.dts = some d ∧ d ≤ t := by
  unfold dtsFromWindow
  split
  · rename_i h
    rcases Option.isSome_iff_exists.mp h.2.2.1 with ⟨t, ht⟩
    rw [ht]
    split
    · rename_i st d hpush
      exact Or.inr ⟨t, d, rfl, rfl, pushReorder_le (congrArg Prod.snd hpush)⟩
    · exact Or.inl rfl
  · exact Or.inl rfl

theorem dts_rules_of_no_pts (igndts fillIn : Bool) (h : x.packet.pts = none) :
    ((x.ignoreDts igndts).dtsFromPts fillIn).dtsFromWindow fillIn = x := by
  simp [ignoreDts, dtsFromPts, dtsFromWindow, h]

theorem ptsFromWindow_of_pts (genpts : Bool) (h : x.packet.pts.isSome) :
    x.ptsFromWindow genpts = x := by
  simp [ptsFromWindow, Option.isSome_iff_ne_none.mp h]

@[simp]
theorem ptsFromWindow_dts (genpts : Bool) :
    (x.ptsFromWindow genpts).packet.dts = x.packet.dts := by
  unfold ptsFromWindow
  split
  · split <;> rfl
  · rfl

theorem ptsFromWindow_pts (genpts : Bool) (h : x.packet.pts = none) :
    (x.ptsFromWindow genpts).packet.pts =
      if genpts then (pushReorder x.st x.packet.dts).2 else none := by
  unfold ptsFromWindow
  cases hdts : x.packet.dts with
  | none => simp [h, pushReorder]
  | some v =>
      by_cases hgen : genpts
      · rw [if_pos (by simp [hgen, h])]
        split <;> rename_i hpush <;> simp [hpush, hgen, h]
      · simp [hgen, h]

end Repair

variable (rules : FixRules) (st : StreamTs) (p : Packet) (timeBase : TimeBase)
  (frameRate : Rational)

theorem generate_tracking :
    (generate rules st p frameRate).tracking =
      (st.curDts, st.repaired, st.delay, st.reorders, p.streamIndex, false, false) := by
  simp only [generate, Repair.fillDuration_tracking, Repair.ptsFromWindow_tracking,
    Repair.dtsFromWindow_tracking, Repair.dtsFromPts_tracking, Repair.ignoreDts_tracking]
  rfl

/-- A presentation time is kept, and a generated decode time does not exceed it. -/
theorem generate_of_pts {t : I64} (h : p.pts = some t) :
    (generate rules st p frameRate).packet.pts = some t ∧
      ((generate rules st p frameRate).packet.dts = p.dts ∨
        ∀ d, (generate rules st p frameRate).packet.dts = some d → d ≤ t) := by
  let x : Repair := { st := st, packet := p, report := {} }
  have hx : x.packet.pts = some t := h
  let y := ((x.ignoreDts rules.igndts).dtsFromPts rules.fillIn).dtsFromWindow rules.fillIn
  have hy : y.packet.pts = some t := by simp [y, hx]
  have hgen : generate rules st p frameRate = y.fillDuration rules.fillIn frameRate := by
    have : y.ptsFromWindow rules.genpts = y := y.ptsFromWindow_of_pts _ (by simp [hy])
    exact congrArg (Repair.fillDuration rules.fillIn frameRate) this
  rw [hgen]
  simp only [Repair.fillDuration_times, hy, true_and]
  -- Each rule keeps the decode time, drops it or derives one from the presentation time.
  rcases (((x.ignoreDts rules.igndts).dtsFromPts rules.fillIn)).dtsFromWindow_dts rules.fillIn with
    hkeep | ⟨t', d, ht', hd, hle⟩
  · rcases (x.ignoreDts rules.igndts).dtsFromPts_dts rules.fillIn with hcopy | ⟨-, hcopy⟩
    · rcases x.ignoreDts_dts rules.igndts with hsame | hnone
      · exact Or.inl (hkeep.trans (hcopy.trans hsame))
      · right
        intro d hd
        rw [show y.packet.dts = none from hkeep.trans (hcopy.trans hnone)] at hd
        cases hd
    · right
      intro d hd
      rw [show y.packet.dts = some t from hkeep.trans (hcopy.trans (by simp [hx]))] at hd
      exact (Option.some.inj hd).ge
  · right
    intro d' hd'
    rw [show y.packet.dts = some d from hd, Option.some.injEq] at hd'
    simp only [Repair.dtsFromPts_pts, Repair.ignoreDts_pts, hx, Option.some.injEq] at ht'
    rw [← hd', ht']
    exact hle

theorem generate_of_no_pts (h : p.pts = none) :
    (generate rules st p frameRate).packet.dts = p.dts ∧
      (generate rules st p frameRate).packet.pts =
        if rules.genpts then (pushReorder st p.dts).2 else none := by
  let x : Repair := { st := st, packet := p, report := {} }
  have hgen : generate rules st p frameRate =
      (x.ptsFromWindow rules.genpts).fillDuration rules.fillIn frameRate := by
    have : ((x.ignoreDts rules.igndts).dtsFromPts rules.fillIn).dtsFromWindow rules.fillIn = x :=
      x.dts_rules_of_no_pts _ _ h
    rw [← this]
    rfl
  rw [hgen]
  constructor
  · simp [x]
  · have := x.ptsFromWindow_pts rules.genpts h
    simpa [x] using this

/-! ## What a repair can do -/

namespace Repair

/-- A packet that does not advance is pushed to at least the last decode time, and reported where
that does not help. -/
theorem repairDts_cases (x : Repair) :
    (x.repairDts true false = x ∧
      ∀ c d, x.st.curDts = some c → x.packet.dts = some d → c < d) ∨
    ∃ c d r, x.st.curDts = some c ∧ x.packet.dts = some d ∧ d ≤ c ∧ c ≤ r ∧
      x.repairDts true false =
        { st := { x.st with repaired := min (x.st.repaired + 1) u64Max }
          packet := { x.packet with dts := some r }
          report :=
            { x.report with
              dtsRepaired := true
              dtsOverflow := r ≤ c
              dtsExceedsPts := x.packet.pts.any fun pts => pts < r } } := by
  cases hcur : x.st.curDts with
  | none => exact Or.inl ⟨by simp [repairDts, hcur], by simp⟩
  | some c =>
      cases hdts : x.packet.dts with
      | none => exact Or.inl ⟨by simp [repairDts, hcur, hdts], by simp⟩
      | some d =>
          by_cases hle : d ≤ c
          · right
            let step : I64 := max x.st.lastDuration (.lit 1)
            have hstep : (1 : Int) ≤ step.val :=
              Ranged.le_iff.mp (le_max_right x.st.lastDuration (.lit 1))
            have hadvance : c ≤ c.saturatingAdd step := by
              have := Ranged.clamp_mono c.lo_le_hi (show c.val ≤ c.val + step.val by omega)
              rwa [Ranged.clamp_val] at this
            refine ⟨c, d, c.saturatingAdd step, rfl, rfl, hle, hadvance, ?_⟩
            simp only [repairDts, hcur, hdts, hle]
            rfl
          · left
            constructor
            · simp [repairDts, hcur, hdts, hle]
            · intro c' d' hc hd
              cases hc
              cases hd
              exact not_le.mp hle

/-- The last decode time is the one that leaves, if any; only the last duration may
change besides. -/
theorem remember_eq (timeBase : TimeBase) (x : Repair) :
    ∃ last, x.remember timeBase =
      { x with
        st := { x.st with
          curDts := x.packet.dts.or x.st.curDts
          lastDuration := last } } := by
  unfold remember
  cases x.packet.dts with
  | none =>
      cases x.packet.duration.toTicks timeBase with
      | none => exact ⟨x.st.lastDuration, rfl⟩
      | some ticks =>
          by_cases hpos : 0 < ticks.val
          · exact ⟨ticks, by simp [hpos]⟩
          · exact ⟨x.st.lastDuration, by simp [hpos]⟩
  | some dts =>
      cases x.packet.duration.toTicks timeBase with
      | none => exact ⟨x.st.lastDuration, rfl⟩
      | some ticks =>
          by_cases hpos : 0 < ticks.val
          · exact ⟨ticks, by simp [hpos]⟩
          · exact ⟨x.st.lastDuration, by simp [hpos]⟩

@[simp]
theorem remember_packet (timeBase : TimeBase) (x : Repair) :
    (x.remember timeBase).packet = x.packet := by
  rcases remember_eq timeBase x with ⟨last, h⟩
  rw [h]

@[simp]
theorem remember_report (timeBase : TimeBase) (x : Repair) :
    (x.remember timeBase).report = x.report := by
  rcases remember_eq timeBase x with ⟨last, h⟩
  rw [h]

@[simp]
theorem remember_curDts (timeBase : TimeBase) (x : Repair) :
    (x.remember timeBase).st.curDts = x.packet.dts.or x.st.curDts := by
  rcases remember_eq timeBase x with ⟨last, h⟩
  rw [h]

@[simp]
theorem remember_window (timeBase : TimeBase) (x : Repair) :
    (x.remember timeBase).st.reorder = x.st.reorder ∧
      (x.remember timeBase).st.delay = x.st.delay ∧
      (x.remember timeBase).st.reorders = x.st.reorders := by
  rcases remember_eq timeBase x with ⟨last, h⟩
  rw [h]
  simp

end Repair

variable {rules st p}

/-- A packet leaves with a decode time that advances the stream, or with an overflow report. -/
theorem fixStream_leaves (hfill : rules.fillIn = true) (hdiscont : rules.discont = false) :
    (fixStream rules st p timeBase frameRate).st.curDts =
        (fixStream rules st p timeBase frameRate).packet.dts.or st.curDts ∧
      (fixStream rules st p timeBase frameRate).packet.streamIndex = p.streamIndex ∧
      ∀ c d, st.curDts = some c →
        (fixStream rules st p timeBase frameRate).packet.dts = some d →
        c ≤ d ∧ ((fixStream rules st p timeBase frameRate).report.dtsOverflow = false → c < d) := by
  have htrack := generate_tracking rules st p frameRate
  simp only [Repair.tracking, Prod.mk.injEq] at htrack
  rcases htrack with ⟨hcur, -, -, -, hindex, -, -⟩
  simp only [fixStream, hfill, hdiscont, Repair.remember_packet, Repair.remember_report,
    Repair.remember_curDts]
  rcases Repair.repairDts_cases (generate rules st p frameRate) with
    ⟨hkeep, hadvance⟩ | ⟨c, d, r, hc, hd, hle, hr, hrepair⟩
  · rw [hkeep, hcur]
    refine ⟨rfl, hindex, ?_⟩
    intro c d hc hd
    have hlt := hadvance c d (hcur.trans hc) hd
    exact ⟨hlt.le, fun _ => hlt⟩
  · rw [hrepair]
    refine ⟨rfl, hindex, ?_⟩
    intro c' d' hc' hd'
    rw [hcur, hc'] at hc
    cases hc
    cases hd'
    exact ⟨hr, fun hover => not_le.mp (of_decide_eq_false hover)⟩

/-- A packet's decode time lies after its presentation time. -/
def Exceeds (p : Packet) : Prop :=
  ∃ d t, p.dts = some d ∧ p.pts = some t ∧ t < d

instance (p : Packet) : Decidable (Exceeds p) :=
  decidable_of_iff ((p.dts.any fun d => p.pts.any fun t => t < d) = true) (by
    simp only [Exceeds, Option.any_eq_true, decide_eq_true_eq]
    constructor
    · rintro ⟨d, hd, t, ht, hlt⟩
      exact ⟨d, t, hd, ht, hlt⟩
    · rintro ⟨d, t, hd, ht, hlt⟩
      exact ⟨d, hd, t, ht, hlt⟩)

/-- A packet without a presentation time receives a smaller value from a window that is full. -/
def GeneratesEarlierPts (rules : FixRules) (st : StreamTs) (p : Packet) : Prop :=
  rules.genpts = true ∧ p.pts = none ∧ st.delay ≤ st.reorder.length ∧
    ∃ v x, p.dts = some v ∧ st.reorder.head? = some x ∧ x < v ∧
      ∀ c, st.curDts = some c → c < v

/-- Generation lets a decode time pass a presentation time only where that came so or is an earlier
one. -/
theorem generate_exceeds (hlen : st.reorder.length < MAX_REORDER)
    (h : Exceeds (generate rules st p frameRate).packet) :
    Exceeds p ∨
      (rules.genpts = true ∧ p.pts = none ∧ st.delay ≤ st.reorder.length ∧
        ∃ v x, p.dts = some v ∧ (generate rules st p frameRate).packet.dts = some v ∧
          st.reorder.head? = some x ∧ x < v) := by
  rcases h with ⟨d, t, hd, ht, hlt⟩
  cases hpts : p.pts with
  | some t' =>
      rcases generate_of_pts rules st p frameRate hpts with ⟨hkeep, hdts⟩
      rw [hkeep, Option.some.injEq] at ht
      subst ht
      rcases hdts with hsame | hle
      · exact Or.inl ⟨d, t', hsame.symm.trans hd, hpts, hlt⟩
      · exact absurd (hle d hd) (not_le.mpr hlt)
  | none =>
      right
      rcases generate_of_no_pts rules st p frameRate hpts with ⟨hdts, hgen⟩
      rw [hdts] at hd
      rw [hgen] at ht
      split at ht
      · rename_i hgenpts
        rw [hd, pushReorder_snd d hlen] at ht
        split at ht
        · cases ht
        · rename_i hfull
          refine ⟨hgenpts, rfl, not_lt.mp hfull, d, ?_⟩
          rw [Option.some.injEq] at ht
          cases hhead : st.reorder.head? with
          | none =>
              rw [hhead] at ht
              exact absurd hlt (ht ▸ lt_irrefl d)
          | some x =>
              simp only [hhead, Option.elim_some] at ht
              split at ht
              · exact absurd hlt (ht ▸ lt_irrefl d)
              · exact ⟨x, hd, hdts.trans hd, rfl, ht ▸ hlt⟩
      · cases ht

/-- For one packet the report is complete exactly when it receives no earlier presentation time. -/
theorem fixStream_reports_iff (hfill : rules.fillIn = true) (hdiscont : rules.discont = false)
    (hlen : st.reorder.length < MAX_REORDER) :
    (Exceeds (fixStream rules st p timeBase frameRate).packet →
      Exceeds p ∨ (fixStream rules st p timeBase frameRate).report.dtsExceedsPts = true) ↔
      ¬ GeneratesEarlierPts rules st p := by
  have htrack := generate_tracking rules st p frameRate
  simp only [Repair.tracking, Prod.mk.injEq] at htrack
  rcases htrack with ⟨hcur, -, -, -, -, -, hclean⟩
  simp only [fixStream, hfill, hdiscont, Repair.remember_packet, Repair.remember_report]
  rcases Repair.repairDts_cases (generate rules st p frameRate) with
    ⟨hkeep, hadvance⟩ | ⟨c, d, r, hc, hd, hle, hr, hrepair⟩
  · rw [hkeep, hclean]
    constructor
    · rintro hreport ⟨hgen, hpts, hfull, v, x, hv, hx, hlt, -⟩
      rcases generate_of_no_pts rules st p frameRate hpts with ⟨hdts, hgenerated⟩
      rw [if_pos hgen, hv, pushReorder_snd v hlen, if_neg (not_lt.mpr hfull), hx] at hgenerated
      simp only [Option.elim_some, if_neg hlt.not_gt] at hgenerated
      rcases hreport ⟨v, x, hdts.trans hv, hgenerated, hlt⟩ with harrived | hflag
      · rcases harrived with ⟨-, t, -, ht, -⟩
        rw [hpts] at ht
        cases ht
      · cases hflag
    · intro hnot hexceeds
      rcases generate_exceeds frameRate hlen hexceeds with harrived | ⟨hgen, hpts, hfull, v, x, hv,
        hdts, hx, hlt⟩
      · exact Or.inl harrived
      · refine absurd ⟨hgen, hpts, hfull, v, x, hv, hx, hlt, ?_⟩ hnot
        intro c hc
        exact hadvance c v (hcur.trans hc) hdts
  · rw [hrepair]
    constructor
    · rintro - ⟨-, hpts, -, v, x, hv, -, -, hcurrent⟩
      have hdts := (generate_of_no_pts rules st p frameRate hpts).1
      rw [hdts, hv, Option.some.injEq] at hd
      subst hd
      exact absurd hle (not_le.mpr (hcurrent c (hcur.symm.trans hc)))
    · rintro - ⟨d', t, hd', ht, hlt⟩
      right
      dsimp only at hd' ht ⊢
      rw [Option.some.injEq] at hd'
      simp [ht, hd', hlt]

/-! ## The window stays bounded -/

/-- The declared delay and the live window both leave room in the array. -/
def StreamTs.Bounded (st : StreamTs) : Prop :=
  st.delay < MAX_REORDER ∧ st.reorder.length < MAX_REORDER

theorem pushReorder_bounded {st : StreamTs} (v : Timestamp) (h : st.Bounded) :
    (pushReorder st v).1.Bounded := by
  constructor
  · rcases pushReorder_frame st v with ⟨window, hframe⟩
    rw [hframe]
    exact h.1
  · exact pushReorder_length v h.1 h.2

namespace Repair

theorem dtsFromWindow_bounded {x : Repair} (fillIn : Bool) (h : x.st.Bounded) :
    (x.dtsFromWindow fillIn).st.Bounded := by
  have hpush := pushReorder_bounded x.packet.pts h
  unfold dtsFromWindow
  split
  · split <;> rename_i heq <;> rw [heq] at hpush <;> exact hpush
  · exact h

theorem ptsFromWindow_bounded {x : Repair} (genpts : Bool) (h : x.st.Bounded) :
    (x.ptsFromWindow genpts).st.Bounded := by
  have hpush := pushReorder_bounded x.packet.dts h
  unfold ptsFromWindow
  split
  · split <;> rename_i heq <;> rw [heq] at hpush <;> exact hpush
  · exact h

theorem repairDts_bounded {x : Repair} (fillIn discont : Bool) (h : x.st.Bounded) :
    (x.repairDts fillIn discont).st.Bounded := by
  unfold repairDts
  split
  · split <;> exact h
  · exact h

end Repair

theorem fixStream_bounded (h : st.Bounded) :
    (fixStream rules st p timeBase frameRate).st.Bounded := by
  have hgen : (generate rules st p frameRate).st.Bounded := by
    simp only [generate, Repair.fillDuration_times]
    apply Repair.ptsFromWindow_bounded
    apply Repair.dtsFromWindow_bounded
    simpa using h
  have hrepair := Repair.repairDts_bounded rules.fillIn rules.discont hgen
  unfold StreamTs.Bounded at *
  simpa [fixStream] using hrepair

end Format
end Vaco
