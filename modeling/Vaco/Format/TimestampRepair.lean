import Vaco.Format.TimestampFixer

/-!
# Timestamp repair over whole runs

A demuxer feeds packets of many streams to one fixer and may declare a stream's
reorder depth at any point.  Each stream remembers the last decode time that left
it, which carries the order of decode times through the run; the reports single out
the packets for which a promise could not be kept.

Main results:

- `dtsIncreases_run`: decode times increase.
- `repairInvariant_run_iff`: when both promises hold throughout a run.

Current gaps:

- Runs do not seek: the reset after a seek starts a new run.
-/

namespace Vaco
namespace Format

open Library Vaco.Core

/-! ## Runs -/

/-- What a demuxer does with a fixer. -/
inductive FixOp where
  | fix (packet : Packet) (timeBase : TimeBase) (frameRate : Rational)
  | setStreamDelay (streamIndex delay : Nat) (reorders : Bool)

/-- One operation; fixing a packet answers with the packet that leaves and its
report. -/
def fixStep (f : TimestampFixer) : FixOp → TimestampFixer × Option (Packet × FixReport)
  | .fix packet timeBase frameRate =>
      ((f.fix packet timeBase frameRate).1, some (f.fix packet timeBase frameRate).2)
  | .setStreamDelay streamIndex delay reorders =>
      (f.setStreamDelay streamIndex delay reorders, none)

/-- A packet that went through a fixer. -/
structure FixedPacket where
  arrived : Packet
  left : Packet
  report : FixReport

def fixedPacket : FixOp × Option (Packet × FixReport) → Option FixedPacket
  | (.fix packet _ _, some (left, report)) =>
      some { arrived := packet, left := left, report := report }
  | _ => none

/-- The packets that a run fixed, in order. -/
def fixedPackets (past : List (FixOp × Option (Packet × FixReport))) : List FixedPacket :=
  past.filterMap fixedPacket

/-- Decode times leave each stream of the fixer strictly increasing, except at packets
that report an overflow. -/
def DtsIncreases (streamCount : Nat) (fixed : List FixedPacket) : Prop :=
  fixed.Pairwise fun a b =>
    a.left.streamIndex = b.left.streamIndex → b.left.streamIndex < streamCount →
      ∀ d e, a.left.dts = some d → b.left.dts = some e →
        b.report.dtsOverflow = false → d < e

/-- A decode time after its presentation time either arrived that way or is
reported. -/
def ExceedsReported (fixed : List FixedPacket) : Prop :=
  ∀ x ∈ fixed, Exceeds x.left → Exceeds x.arrived ∨ x.report.dtsExceedsPts = true

instance (fixed : List FixedPacket) : Decidable (ExceedsReported fixed) :=
  inferInstanceAs (Decidable (∀ x ∈ fixed, _))

def RepairInvariant (streamCount : Nat) (past : List (FixOp × Option (Packet × FixReport))) :
    Prop :=
  DtsIncreases streamCount (fixedPackets past) ∧ ExceedsReported (fixedPackets past)

/-- An operation hands a stream a packet that receives an earlier presentation time. -/
def OpGeneratesEarlierPts (f : TimestampFixer) : FixOp → Prop
  | .fix packet _ _ =>
      ∃ st, f.streams[packet.streamIndex]? = some st ∧ GeneratesEarlierPts f.rules st packet
  | .setStreamDelay .. => False

/-- Each stream of a fixer remembers a decode time no smaller than all that left it. -/
structure FixerTracks (streamCount : Nat) (past : List (FixOp × Option (Packet × FixReport)))
    (f : TimestampFixer) : Prop where
  length_eq : f.streams.length = streamCount
  fills : f.rules.fillIn = true
  repairs : f.rules.discont = false
  bounded : ∀ (i : Nat) (st : StreamTs), f.streams[i]? = some st → st.Bounded
  remembers : ∀ x ∈ fixedPackets past, ∀ st, f.streams[x.left.streamIndex]? = some st →
    ∀ d, x.left.dts = some d → ∃ c, st.curDts = some c ∧ d ≤ c
  increases : DtsIncreases streamCount (fixedPackets past)

/-- Declaring a delay changes neither the rules nor what the streams remember. -/
theorem FixerTracks.setStreamDelay {streamCount : Nat}
    {past : List (FixOp × Option (Packet × FixReport))} {f : TimestampFixer}
    (h : FixerTracks streamCount past f) (i delay : Nat) (reorders : Bool) :
    FixerTracks streamCount (past ++ [(.setStreamDelay i delay reorders, none)])
      (f.setStreamDelay i delay reorders) := by
  have hpast : fixedPackets (past ++ [(.setStreamDelay i delay reorders, none)]) =
      fixedPackets past := by
    simp [fixedPackets, fixedPacket]
  cases hget : f.streams[i]? with
  | none =>
      have hsame : f.setStreamDelay i delay reorders = f := by
        simp [TimestampFixer.setStreamDelay, hget]
      rw [hsame]
      exact { h with
        remembers := by rw [hpast]; exact h.remembers
        increases := by rw [hpast]; exact h.increases }
  | some s =>
      let s' : StreamTs := { s with delay := min delay (MAX_REORDER - 1), reorders := reorders }
      have hset : f.setStreamDelay i delay reorders =
          { f with streams := f.streams.set i s' } := by
        simp [TimestampFixer.setStreamDelay, hget, s']
      rw [hset]
      have hstream : ∀ (j : Nat) (st : StreamTs), (f.streams.set i s')[j]? = some st →
          ∃ st' : StreamTs, f.streams[j]? = some st' ∧ st'.curDts = st.curDts ∧
            (st'.Bounded → st.Bounded) := by
        intro j st hst
        by_cases hij : i = j
        · subst hij
          rw [List.getElem?_set_self (List.getElem?_eq_some_iff.mp hget).1,
            Option.some.injEq] at hst
          subst hst
          refine ⟨s, hget, rfl, ?_⟩
          intro hb
          refine ⟨?_, hb.2⟩
          simp only [s', MAX_REORDER]
          omega
        · rw [List.getElem?_set_ne hij] at hst
          exact ⟨st, hst, rfl, id⟩
      constructor
      · simpa using h.length_eq
      · exact h.fills
      · exact h.repairs
      · intro j st hst
        rcases hstream j st hst with ⟨st', hst', -, hb⟩
        exact hb (h.bounded j st' hst')
      · intro x hx st hst d hd
        rw [hpast] at hx
        rcases hstream _ st hst with ⟨st', hst', hcur, -⟩
        rcases h.remembers x hx st' hst' d hd with ⟨c, hc, hle⟩
        exact ⟨c, hcur ▸ hc, hle⟩
      · rw [hpast]
        exact h.increases

/-- Fixing a packet keeps the tracking of every stream. -/
theorem FixerTracks.fix {streamCount : Nat}
    {past : List (FixOp × Option (Packet × FixReport))} {f : TimestampFixer}
    (h : FixerTracks streamCount past f) (packet : Packet) (timeBase : TimeBase)
    (frameRate : Rational) :
    FixerTracks streamCount
      (past ++ [(.fix packet timeBase frameRate, some (f.fix packet timeBase frameRate).2)])
      (f.fix packet timeBase frameRate).1 := by
  have hpast : fixedPackets
      (past ++ [(.fix packet timeBase frameRate, some (f.fix packet timeBase frameRate).2)]) =
      fixedPackets past ++ [⟨packet, (f.fix packet timeBase frameRate).2.1,
        (f.fix packet timeBase frameRate).2.2⟩] := by
    simp [fixedPackets, fixedPacket]
  cases hget : f.streams[packet.streamIndex]? with
  | none =>
      have hsame : f.fix packet timeBase frameRate = (f, packet, {}) := by
        simp [TimestampFixer.fix, hget]
      rw [hsame] at hpast ⊢
      refine { h with remembers := ?_, increases := ?_ }
      · rw [hpast]
        intro x hx st hst d hd
        rcases List.mem_append.mp hx with hx | hx
        · exact h.remembers x hx st hst d hd
        · rw [List.mem_singleton.mp hx] at hst
          rw [show f.streams[packet.streamIndex]? = some st from hst] at hget
          cases hget
      · rw [hpast]
        apply List.pairwise_append.mpr
        refine ⟨h.increases, List.pairwise_singleton _ _, ?_⟩
        intro a _ b hb _ hlt
        rw [List.mem_singleton.mp hb, ← h.length_eq] at hlt
        exact absurd hlt (not_lt.mpr (List.getElem?_eq_none_iff.mp hget))
  | some st =>
      have hfix : f.fix packet timeBase frameRate =
          ({ f with
              streams := f.streams.set packet.streamIndex
                (fixStream f.rules st packet timeBase frameRate).st },
            (fixStream f.rules st packet timeBase frameRate).packet,
            (fixStream f.rules st packet timeBase frameRate).report) := by
        simp [TimestampFixer.fix, hget]
      rcases @fixStream_leaves f.rules st packet timeBase frameRate h.fills h.repairs with
        ⟨hcur, hindex, hadvance⟩
      have hbounded := @fixStream_bounded f.rules st packet timeBase frameRate
        (h.bounded _ st hget)
      rw [hfix] at hpast ⊢
      generalize fixStream f.rules st packet timeBase frameRate = x at *
      have hself : (f.streams.set packet.streamIndex x.st)[packet.streamIndex]? = some x.st :=
        List.getElem?_set_self (List.getElem?_eq_some_iff.mp hget).1
      constructor
      · simpa using h.length_eq
      · exact h.fills
      · exact h.repairs
      · intro j st' hst'
        by_cases hj : packet.streamIndex = j
        · subst hj
          rw [hself, Option.some.injEq] at hst'
          exact hst' ▸ hbounded
        · rw [List.getElem?_set_ne hj] at hst'
          exact h.bounded j st' hst'
      · rw [hpast]
        intro y hy st' hst' d hd
        rcases List.mem_append.mp hy with hy | hy
        · by_cases hj : packet.streamIndex = y.left.streamIndex
          · rw [← hj, hself, Option.some.injEq] at hst'
            rcases h.remembers y hy st (hj ▸ hget) d hd with ⟨c, hc, hle⟩
            rw [← hst', hcur]
            cases hleft : x.packet.dts with
            | none => exact ⟨c, hc, hle⟩
            | some e => exact ⟨e, rfl, hle.trans (hadvance c e hc hleft).1⟩
          · rw [List.getElem?_set_ne hj] at hst'
            exact h.remembers y hy st' hst' d hd
        · rw [List.mem_singleton.mp hy] at hst' hd
          rw [hindex, hself, Option.some.injEq] at hst'
          rw [← hst', hcur, hd]
          exact ⟨d, rfl, le_rfl⟩
      · rw [hpast]
        apply List.pairwise_append.mpr
        refine ⟨h.increases, List.pairwise_singleton _ _, ?_⟩
        intro a ha b hb hsame _ d e hd he hover
        rw [List.mem_singleton.mp hb] at hsame he hover
        rw [hindex] at hsame
        rcases h.remembers a ha st (hsame ▸ hget) d hd with ⟨c, hc, hle⟩
        exact hle.trans_lt ((hadvance c e hc he).2 hover)

theorem FixerTracks.start {streamCount : Nat} {flags : FormatFlags} {opts : FormatOptions}
    (hdiscont : flags.contains FormatFlags.TS_DISCONT = false)
    (hfill : opts.fillsInTimestamps = true) :
    FixerTracks streamCount [] (TimestampFixer.new streamCount flags opts) := by
  constructor
  · simp [TimestampFixer.new]
  · exact hfill
  · exact hdiscont
  · intro i st hst
    have hst' : st = StreamTs.default := by
      simp only [TimestampFixer.new] at hst
      exact List.eq_of_mem_replicate (List.mem_of_getElem? hst)
    rw [hst']
    exact ⟨by decide, by decide⟩
  · intro x hx
    cases hx
  · exact List.Pairwise.nil

theorem fixerTracks_run {streamCount : Nat} {flags : FormatFlags} {opts : FormatOptions}
    (hdiscont : flags.contains FormatFlags.TS_DISCONT = false)
    (hfill : opts.fillsInTimestamps = true) (ops : List FixOp) :
    FixerTracks streamCount
      (Transducer.trace fixStep (TimestampFixer.new streamCount flags opts) ops)
      (Transducer.stateAfter fixStep (TimestampFixer.new streamCount flags opts) ops) := by
  apply Transducer.history_induction (P := fun _ _ => True)
  · exact FixerTracks.start hdiscont hfill
  · intro past f op h _
    cases op with
    | fix packet timeBase frameRate => exact h.fix packet timeBase frameRate
    | setStreamDelay i delay reorders => exact h.setStreamDelay i delay reorders
  · induction ops using List.reverseRecOn with
    | nil => trivial
    | append_singleton ops op ih => simp [Transducer.admissible_append, ih]

/-- Decode times leave every stream strictly increasing, except at packets that report
an overflow. -/
theorem dtsIncreases_run {streamCount : Nat} {flags : FormatFlags} {opts : FormatOptions}
    (hdiscont : flags.contains FormatFlags.TS_DISCONT = false)
    (hfill : opts.fillsInTimestamps = true) (ops : List FixOp) :
    DtsIncreases streamCount (fixedPackets
      (Transducer.trace fixStep (TimestampFixer.new streamCount flags opts) ops)) :=
  (fixerTracks_run hdiscont hfill ops).increases

/-! ## Complete reports -/

theorem exceedsReported_step_iff {streamCount : Nat}
    {past : List (FixOp × Option (Packet × FixReport))} {f : TimestampFixer}
    (h : FixerTracks streamCount past f) (op : FixOp) :
    ExceedsReported (fixedPackets [(op, (fixStep f op).2)]) ↔ ¬ OpGeneratesEarlierPts f op := by
  cases op with
  | setStreamDelay i delay reorders =>
      simp [ExceedsReported, fixedPackets, fixedPacket, OpGeneratesEarlierPts]
  | fix packet timeBase frameRate =>
      cases hget : f.streams[packet.streamIndex]? with
      | none =>
          simp [ExceedsReported, fixedPackets, fixedPacket, fixStep, TimestampFixer.fix, hget,
            OpGeneratesEarlierPts]
      | some st =>
          have hiff := @fixStream_reports_iff f.rules st packet timeBase frameRate h.fills
            h.repairs (h.bounded _ st hget).2
          simpa [ExceedsReported, fixedPackets, fixedPacket, fixStep, TimestampFixer.fix, hget,
            OpGeneratesEarlierPts] using hiff

/-- A decode time after its presentation time came so or is reported, exactly when no packet of the
run receives an earlier presentation time. -/
theorem exceedsReported_run_iff {streamCount : Nat} {flags : FormatFlags} {opts : FormatOptions}
    (hdiscont : flags.contains FormatFlags.TS_DISCONT = false)
    (hfill : opts.fillsInTimestamps = true) (ops : List FixOp) :
    ExceedsReported (fixedPackets
        (Transducer.trace fixStep (TimestampFixer.new streamCount flags opts) ops)) ↔
      Transducer.Admissible fixStep (fun f op => ¬ OpGeneratesEarlierPts f op)
        (TimestampFixer.new streamCount flags opts) ops := by
  induction ops using List.reverseRecOn with
  | nil => simp [ExceedsReported, fixedPackets]
  | append_singleton ops op ih =>
      have hstep := exceedsReported_step_iff
        (@fixerTracks_run streamCount flags opts hdiscont hfill ops) op
      rw [Transducer.trace_append, Transducer.admissible_append, ← ih,
        Transducer.admissible_cons, ← hstep]
      simp only [ExceedsReported, fixedPackets, List.filterMap_append, List.mem_append,
        Transducer.trace_cons, Transducer.trace_nil, Transducer.admissible_nil, and_true]
      constructor
      · intro hall
        exact ⟨fun x hx => hall x (Or.inl hx), fun x hx => hall x (Or.inr hx)⟩
      · rintro ⟨hpast, hone⟩ x (hx | hx)
        · exact hpast x hx
        · exact hone x hx

/-- The repair invariant holds throughout a run exactly when no packet of the run
receives an earlier presentation time. -/
theorem repairInvariant_run_iff {streamCount : Nat} {flags : FormatFlags} {opts : FormatOptions}
    (hdiscont : flags.contains FormatFlags.TS_DISCONT = false)
    (hfill : opts.fillsInTimestamps = true) (ops : List FixOp) :
    RepairInvariant streamCount
        (Transducer.trace fixStep (TimestampFixer.new streamCount flags opts) ops) ↔
      Transducer.Admissible fixStep (fun f op => ¬ OpGeneratesEarlierPts f op)
        (TimestampFixer.new streamCount flags opts) ops := by
  rw [← @exceedsReported_run_iff streamCount flags opts hdiscont hfill ops]
  constructor
  · intro h
    exact h.2
  · intro h
    exact ⟨dtsIncreases_run hdiscont hfill ops, h⟩

/-- The default options with generated presentation times. -/
def genptsOptions : FormatOptions :=
  { FormatOptions.default with fflags := FFlags.GENPTS }

/-- A packet of stream zero with the given times. -/
def packetAt (pts dts : Option Int) : Packet :=
  { Packet.empty with pts := pts.map clampI64, dts := dts.map clampI64 }

/-- Packets that carry both times receive none, even where a repair is needed. -/
theorem repairInvariant_run_out_of_order :
    RepairInvariant 1 (Transducer.trace fixStep (TimestampFixer.new 1 ⟨0⟩ genptsOptions)
      [.fix (packetAt (some 160) (some 160)) Rational.MICROSECONDS Rational.MICROSECONDS,
        .fix (packetAt (some 80) (some 80)) Rational.MICROSECONDS Rational.MICROSECONDS]) := by
  apply (repairInvariant_run_iff rfl rfl _).mpr
  refine ⟨?_, ?_, trivial⟩
  · rintro ⟨st, -, -, hpts, -⟩
    cases hpts
  · rintro ⟨st, -, -, hpts, -⟩
    cases hpts

/-- The second packet receives the first one's decode time, which is before its own, and unreported.
-/
theorem not_repairInvariant_run_delay :
    ¬ RepairInvariant 1 (Transducer.trace fixStep (TimestampFixer.new 1 ⟨0⟩ genptsOptions)
      [.setStreamDelay 0 1 true,
        .fix (packetAt none (some 0)) Rational.MICROSECONDS Rational.MICROSECONDS,
        .fix (packetAt none (some 1)) Rational.MICROSECONDS Rational.MICROSECONDS]) := by
  intro h
  exact absurd h.2 (by decide +kernel)

end Format
end Vaco
