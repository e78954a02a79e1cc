import Vaco.Core.Packet
import Vaco.Format.Options
import Vaco.Library.Transducer

/-!
# The mux-side timestamp chain

Before a packet reaches the interleave queue its times are rescaled to the output
base, a missing decode time is backfilled or copied, the user's offset and the
frozen shift are added, and the decode time is checked against the last one of the
stream.  The shift is computed once, from the first packet across all streams.

Main results:

- `apply_eq_applyRecord`: with a frozen shift only the record of the stream matters.
-/

namespace Vaco
namespace Format

open Library Vaco.Core

/-- Refuse a decode time that does not advance as the container requires. -/
def checkMonotonic (prev dts : Timestamp) (flags : FormatFlags) : Except Error Unit :=
  match prev, dts with
  | some p, some d =>
      if flags.requiresStrictDts then
        if d ≤ p then
          .error (.invalidData
            "non-monotonic dts: this container requires strictly increasing timestamps")
        else .ok ()
      else if d < p then
        .error (.invalidData
          "decreasing dts: this container requires non-decreasing timestamps")
      else .ok ()
  | _, _ => .ok ()

/-- The chain applied before a packet reaches the interleave queue. -/
structure MuxTimestamps where
  policy : AvoidNegativeTs
  offsetUs : Option I64
  outputTsOffset : Duration
  flags : FormatFlags
  lastDts : List Timestamp
  notimestamps : Bool
  reorderDelay : List Nat
  decodeIndex : List Nat

/-- The decode time of a packet that has none: counted back from the reorder delay at first, the
presentation time later. -/
def leadingDts (delay index : Nat) (duration : Duration) (dst : TimeBase) (pts : Timestamp) :
    Timestamp :=
  let backfilled :=
    if 0 < delay ∧ index < delay then
      ((duration.toTicks dst).filter fun step => 0 < step.val).map fun step =>
        let behind : I64 := (toI64? ((delay - index : Nat) : Int)).getD (.lit 9223372036854775807)
        behind.saturatingNeg.saturatingMul step
    else
      none
  backfilled.or pts

/-- Give a packet without a decode time one, or refuse it. -/
def dtsFor (delay index : Nat) (pkt : Packet) (dst : TimeBase) : Except Error Packet :=
  if pkt.dts.isNone then
    if pkt.pts.isNone then
      .error (.invalidData "this container needs timestamps and the packet has none")
    else
      .ok { pkt with dts := leadingDts delay index pkt.duration dst pkt.pts }
  else
    .ok pkt

/-- Move both times of a packet by the same number of ticks, if there is one. -/
def shiftPacket (ticks : Option I64) (pkt : Packet) : Packet :=
  match ticks with
  | some ticks => { pkt with pts := pkt.pts.offset ticks, dts := pkt.dts.offset ticks }
  | none => pkt

namespace MuxTimestamps

/-- A chain for a number of streams. -/
def new (streamCount : Nat) (flags : FormatFlags) (opts : FormatOptions) : MuxTimestamps where
  policy := AvoidNegativeTs.resolve opts.avoidNegativeTs (flags.contains FormatFlags.TS_NEGATIVE)
  offsetUs := none
  outputTsOffset := opts.outputTsOffset
  flags := flags
  lastDts := List.replicate streamCount none
  notimestamps := flags.contains FormatFlags.NOTIMESTAMPS
  reorderDelay := List.replicate streamCount 0
  decodeIndex := List.replicate streamCount 0

/-- Declare a stream's reorder depth. -/
def setReorderDelay (m : MuxTimestamps) (streamIndex delay : Nat) : MuxTimestamps :=
  { m with reorderDelay := m.reorderDelay.set streamIndex delay }

/-- Count one packet of a stream. -/
def countPacket (m : MuxTimestamps) (streamIndex : Nat) : MuxTimestamps :=
  { m with decodeIndex := m.decodeIndex.modify streamIndex fun slot => min (slot + 1) u64Max }

def giveDts (m : MuxTimestamps) (index : Option Nat) (pkt : Packet) (dst : TimeBase) :
    Except Error Packet :=
  dtsFor ((m.reorderDelay[pkt.streamIndex]?).getD 0) (index.getD 0) pkt dst

def outputTicks (m : MuxTimestamps) (dst : TimeBase) : Option I64 :=
  if m.outputTsOffset ≠ Duration.ZERO then m.outputTsOffset.toTicks dst else none

/-- The frozen shift in ticks of the output base. -/
def frozenTicks (m : MuxTimestamps) (dst : TimeBase) : Option I64 :=
  match m.offsetUs with
  | some off => if off.val ≠ 0 then (Duration.fromMicros off).toTicks dst else none
  | none => none

/-- The smaller of two timestamps, or the one that is present. -/
def earliest (pts dts : Timestamp) : Timestamp :=
  match pts, dts with
  | some p, some d => some (min p d)
  | p, d => p.or d

/-- The shift a policy settles on for the earliest time of the first packet. -/
def policyOffset (policy : AvoidNegativeTs) (first : I64) : I64 :=
  match policy with
  | .makeZero => first.saturatingNeg
  | .makeNonNegative =>
      if first.val < 0 then first.saturatingNeg else .lit 0
  | .disabled => .lit 0

/-- Freeze the shift, from the first packet across all streams. -/
def establishOffset (m : MuxTimestamps) (pkt : Packet) (dst : TimeBase) : MuxTimestamps :=
  if m.offsetUs.isSome ∨ m.policy = .disabled then
    { m with offsetUs := some (m.offsetUs.getD (.lit 0)) }
  else
    let dtsUs := pkt.dts.rescale dst Rational.MICROSECONDS .down
    let ptsUs := pkt.pts.rescale dst Rational.MICROSECONDS .down
    match earliest ptsUs dtsUs with
    | none => m
    | some first => { m with offsetUs := some (policyOffset m.policy first) }

def checkAndRemember (m : MuxTimestamps) (pkt : Packet) :
    MuxTimestamps × Packet × Except Error Unit :=
  match m.lastDts[pkt.streamIndex]? with
  | none => (m, pkt, .ok ())
  | some prev =>
      match checkMonotonic prev pkt.dts m.flags with
      | .error e => (m, pkt, .error e)
      | .ok () => ({ m with lastDts := m.lastDts.set pkt.streamIndex pkt.dts }, pkt, .ok ())

/-- Run the chain over one packet. -/
def apply (m : MuxTimestamps) (pkt : Packet) (src dst : TimeBase) :
    MuxTimestamps × Packet × Except Error Unit :=
  let pkt := pkt.rescaleTs src dst Rounding.default
  if m.notimestamps then
    (m, { pkt with pts := none, dts := none }, .ok ())
  else
    let index := m.decodeIndex[pkt.streamIndex]?
    let m := m.countPacket pkt.streamIndex
    match m.giveDts index pkt dst with
    | .error e => (m, pkt, .error e)
    | .ok pkt =>
        let pkt := shiftPacket (m.outputTicks dst) pkt
        let m := m.establishOffset pkt dst
        m.checkAndRemember (shiftPacket (m.frozenTicks dst) pkt)

/-! ## One stream of the chain -/

/-- What the chain keeps about one stream; the slots are absent for a stream the chain
does not have. -/
structure StreamRecord where
  last : Option Timestamp
  index : Option Nat
  delay : Nat

/-- Count one packet of the stream. -/
def StreamRecord.count (r : StreamRecord) : StreamRecord :=
  { r with index := r.index.map fun slot => min (slot + 1) u64Max }

/-- The record of a stream. -/
def record (m : MuxTimestamps) (i : Nat) : StreamRecord where
  last := m.lastDts[i]?
  index := m.decodeIndex[i]?
  delay := (m.reorderDelay[i]?).getD 0

/-- What the chain keeps for all streams together. -/
def settings (m : MuxTimestamps) : MuxTimestamps :=
  { m with lastDts := [], decodeIndex := [] }

def applyRecord (m : MuxTimestamps) (r : StreamRecord) (pkt : Packet) (src dst : TimeBase) :
    StreamRecord × Packet × Except Error Unit :=
  let pkt := pkt.rescaleTs src dst Rounding.default
  if m.notimestamps then
    (r, { pkt with pts := none, dts := none }, .ok ())
  else
    match dtsFor r.delay (r.index.getD 0) pkt dst with
    | .error e => (r.count, pkt, .error e)
    | .ok pkt =>
        let pkt := shiftPacket (m.frozenTicks dst) (shiftPacket (m.outputTicks dst) pkt)
        match r.last with
        | none => (r.count, pkt, .ok ())
        | some prev =>
            match checkMonotonic prev pkt.dts m.flags with
            | .error e => (r.count, pkt, .error e)
            | .ok () => ({ r.count with last := some pkt.dts }, pkt, .ok ())

theorem applyRecord_settings (m : MuxTimestamps) : m.settings.applyRecord = m.applyRecord :=
  rfl

theorem establishOffset_of_isSome {m : MuxTimestamps} (pkt : Packet) (dst : TimeBase)
    (h : m.offsetUs.isSome) : m.establishOffset pkt dst = m := by
  rcases Option.isSome_iff_exists.mp h with ⟨o, ho⟩
  rw [establishOffset, if_pos (Or.inl h), ho]
  cases m
  simp_all

@[simp]
theorem rescaled_streamIndex_of_dtsFor {delay index : Nat} {pkt pkt' : Packet} {dst : TimeBase}
    (h : dtsFor delay index pkt dst = .ok pkt') : pkt'.streamIndex = pkt.streamIndex := by
  unfold dtsFor at h
  split at h
  · split at h
    · cases h
    · cases h
      rfl
  · cases h
    rfl

@[simp]
theorem shiftPacket_streamIndex (ticks : Option I64) (pkt : Packet) :
    (shiftPacket ticks pkt).streamIndex = pkt.streamIndex := by
  cases ticks <;> rfl

@[simp]
theorem record_countPacket_self (m : MuxTimestamps) (i : Nat) :
    (m.countPacket i).record i = (m.record i).count := by
  simp [record, countPacket, StreamRecord.count]

@[simp]
theorem record_countPacket_ne (m : MuxTimestamps) {i j : Nat} (h : j ≠ i) :
    (m.countPacket i).record j = m.record j := by
  simp [record, countPacket, h.symm]

/-- Store the last decode time of a stream. -/
def setLast (m : MuxTimestamps) (i : Nat) (dts : Timestamp) : MuxTimestamps :=
  { m with lastDts := m.lastDts.set i dts }

theorem record_setLast_self (m : MuxTimestamps) {i : Nat} (dts : Timestamp)
    (h : (m.record i).last.isSome) :
    (m.setLast i dts).record i = { m.record i with last := some dts } := by
  rcases Option.isSome_iff_exists.mp h with ⟨prev, hprev⟩
  have hlt := (List.getElem?_eq_some_iff.mp (show m.lastDts[i]? = some prev from hprev)).1
  simp [record, setLast, hlt]

theorem record_setLast_ne (m : MuxTimestamps) {i j : Nat} (dts : Timestamp) (h : j ≠ i) :
    (m.setLast i dts).record j = m.record j := by
  simp [record, setLast, List.getElem?_set_ne h.symm]

/-- The chain once the times are rescaled and the packet is counted, with a frozen
shift. -/
theorem apply_of_isSome {m : MuxTimestamps} (pkt : Packet) (src dst : TimeBase)
    (h : m.offsetUs.isSome) (htimes : m.notimestamps = false) :
    m.apply pkt src dst =
      match dtsFor (m.record pkt.streamIndex).delay ((m.record pkt.streamIndex).index.getD 0)
        (pkt.rescaleTs src dst Rounding.default) dst with
      | .error e => (m.countPacket pkt.streamIndex, pkt.rescaleTs src dst Rounding.default, .error e)
      | .ok pkt' =>
          let pkt' := shiftPacket (m.frozenTicks dst) (shiftPacket (m.outputTicks dst) pkt')
          match (m.record pkt.streamIndex).last with
          | none => (m.countPacket pkt.streamIndex, pkt', .ok ())
          | some prev =>
              match checkMonotonic prev pkt'.dts m.flags with
              | .error e => (m.countPacket pkt.streamIndex, pkt', .error e)
              | .ok () =>
                  ((m.countPacket pkt.streamIndex).setLast pkt.streamIndex pkt'.dts, pkt',
                    .ok ()) := by
  have hgive : ∀ index pkt', (m.countPacket pkt.streamIndex).giveDts index pkt' dst =
      dtsFor ((m.reorderDelay[pkt'.streamIndex]?).getD 0) (index.getD 0) pkt' dst := by
    intro index pkt'
    rfl
  have hestablish : ∀ pkt', (m.countPacket pkt.streamIndex).establishOffset pkt' dst =
      m.countPacket pkt.streamIndex := by
    intro pkt'
    exact establishOffset_of_isSome pkt' dst h
  simp only [apply, htimes, Packet.rescaleTs_streamIndex, hgive, record]
  cases hdts : dtsFor ((m.reorderDelay[pkt.streamIndex]?).getD 0)
      ((m.decodeIndex[pkt.streamIndex]?).getD 0) (pkt.rescaleTs src dst Rounding.default) dst with
  | error e => rfl
  | ok pkt' =>
      have hindex : pkt'.streamIndex = pkt.streamIndex := by
        simpa using rescaled_streamIndex_of_dtsFor hdts
      simp only [hestablish, checkAndRemember, shiftPacket_streamIndex, hindex]
      rfl

/-- With a frozen shift, or nothing to shift, the chain works on the record of the packet's own
stream. -/
theorem apply_eq_applyRecord {m : MuxTimestamps} (pkt : Packet) (src dst : TimeBase)
    (h : m.notimestamps = true ∨ m.offsetUs.isSome) :
    (m.apply pkt src dst).2 = (m.applyRecord (m.record pkt.streamIndex) pkt src dst).2 ∧
      (m.apply pkt src dst).1.record pkt.streamIndex =
        (m.applyRecord (m.record pkt.streamIndex) pkt src dst).1 ∧
      (∀ j, j ≠ pkt.streamIndex → (m.apply pkt src dst).1.record j = m.record j) ∧
      (m.apply pkt src dst).1.settings = m.settings := by
  cases htimes : m.notimestamps with
  | true => simp [apply, applyRecord, htimes]
  | false =>
      have hfrozen : m.offsetUs.isSome := by simpa [htimes] using h
      rw [apply_of_isSome pkt src dst hfrozen htimes]
      simp only [applyRecord, htimes]
      cases dtsFor (m.record pkt.streamIndex).delay ((m.record pkt.streamIndex).index.getD 0)
          (pkt.rescaleTs src dst Rounding.default) dst with
      | error e =>
          exact ⟨rfl, record_countPacket_self m _, fun j hj => record_countPacket_ne m hj, rfl⟩
      | ok pkt' =>
          dsimp only
          cases hlast : (m.record pkt.streamIndex).last with
          | none =>
              exact ⟨rfl, record_countPacket_self m _, fun j hj => record_countPacket_ne m hj, rfl⟩
          | some prev =>
              dsimp only
              cases checkMonotonic prev
                  (shiftPacket (m.frozenTicks dst) (shiftPacket (m.outputTicks dst) pkt')).dts
                  m.flags with
              | error e =>
                  exact ⟨rfl, record_countPacket_self m _,
                    fun j hj => record_countPacket_ne m hj, rfl⟩
              | ok done =>
                  cases done
                  have hslot : ((m.countPacket pkt.streamIndex).record
                      pkt.streamIndex).last.isSome := by
                    simp [StreamRecord.count, hlast]
                  refine ⟨rfl, ?_, ?_, rfl⟩
                  · rw [record_setLast_self _ _ hslot, record_countPacket_self]
                    rfl
                  · intro j hj
                    rw [record_setLast_ne _ _ hj, record_countPacket_ne m hj]

/-! ## Freezing the shift -/

theorem establishOffset_eq (m : MuxTimestamps) (pkt : Packet) (dst : TimeBase) :
    m.establishOffset pkt dst =
      { m with offsetUs := (m.establishOffset pkt dst).offsetUs } := by
  unfold establishOffset
  split
  · rfl
  · dsimp only
    split <;> rfl

@[simp]
theorem checkAndRemember_offsetUs (m : MuxTimestamps) (pkt : Packet) :
    (m.checkAndRemember pkt).1.offsetUs = m.offsetUs := by
  unfold checkAndRemember
  split
  · rfl
  · split <;> rfl

theorem apply_of_giveDts {m : MuxTimestamps} {pkt pkt' : Packet} {src dst : TimeBase}
    (htimes : m.notimestamps = false)
    (h : (m.countPacket pkt.streamIndex).giveDts (m.decodeIndex[pkt.streamIndex]?)
      (pkt.rescaleTs src dst Rounding.default) dst = .ok pkt') :
    m.apply pkt src dst =
      (((m.countPacket pkt.streamIndex).establishOffset
          (shiftPacket (m.outputTicks dst) pkt') dst).checkAndRemember
        (shiftPacket (((m.countPacket pkt.streamIndex).establishOffset
          (shiftPacket (m.outputTicks dst) pkt') dst).frozenTicks dst)
          (shiftPacket (m.outputTicks dst) pkt'))) := by
  simp only [apply, htimes, Packet.rescaleTs_streamIndex, h]
  rfl

/-- A packet processed by a chain that ends up frozen at a shift is processed as if frozen before. -/
theorem apply_freeze {m : MuxTimestamps} {pkt : Packet} {src dst : TimeBase} {o : I64}
    (h : (m.apply pkt src dst).1.offsetUs = some o) :
    m.apply pkt src dst = ({ m with offsetUs := some o } : MuxTimestamps).apply pkt src dst := by
  have hsame : m.offsetUs = some o → ({ m with offsetUs := some o } : MuxTimestamps) = m := by
    intro ho
    rw [← ho]
  by_cases htimes : m.notimestamps = true
  · have ho : m.offsetUs = some o := by simpa [apply, htimes] using h
    rw [hsame ho]
  · have htimes' : m.notimestamps = false := by simpa using htimes
    cases hdts : (m.countPacket pkt.streamIndex).giveDts (m.decodeIndex[pkt.streamIndex]?)
        (pkt.rescaleTs src dst Rounding.default) dst with
    | error e =>
        have ho : (m.countPacket pkt.streamIndex).offsetUs = some o := by
          simpa [apply, htimes, hdts] using h
        rw [hsame ho]
    | ok pkt' =>
        have hestablish : (m.countPacket pkt.streamIndex).establishOffset
              (shiftPacket (m.outputTicks dst) pkt') dst =
            { m.countPacket pkt.streamIndex with offsetUs := some o } := by
          rw [apply_of_giveDts htimes' hdts, checkAndRemember_offsetUs] at h
          rw [establishOffset_eq, h]
        -- The frozen run differs in nothing but where the shift comes from.
        rw [apply_of_giveDts htimes' hdts, hestablish,
          apply_of_giveDts (m := { m with offsetUs := some o }) htimes' hdts,
          establishOffset_of_isSome _ dst rfl]
        rfl

theorem dtsFor_rescaled {delay index : Nat} {pkt pkt' : Packet} {src dst : TimeBase}
    (h : dtsFor delay index (pkt.rescaleTs src dst Rounding.default) dst = .ok pkt') :
    pkt'.dts.isSome ∧ TimeBase.Usable dst := by
  unfold dtsFor at h
  rw [Packet.rescaleTs_dts, Packet.rescaleTs_pts] at h
  split at h
  · split at h
    · cases h
    · rename_i hpts
      have hsome : (pkt.pts.rescale src dst Rounding.default).isSome := by
        simpa [Option.isSome_iff_ne_none] using hpts
      cases h
      refine ⟨?_, (Timestamp.usable_of_rescale hsome).2.2⟩
      rcases Option.isSome_iff_exists.mp hsome with ⟨t, ht⟩
      simp [leadingDts, ht]
  · rename_i hdts
    have hsome : (pkt.dts.rescale src dst Rounding.default).isSome := by
      simpa [Option.isSome_iff_ne_none] using hdts
    cases h
    exact ⟨by simpa using hsome, (Timestamp.usable_of_rescale hsome).2.2⟩

@[simp]
theorem shiftPacket_dts_isSome (ticks : Option I64) (pkt : Packet) :
    (shiftPacket ticks pkt).dts.isSome = pkt.dts.isSome := by
  cases ticks <;> simp [shiftPacket, Timestamp.offset]

theorem establishOffset_isSome {m : MuxTimestamps} {pkt : Packet} {dst : TimeBase}
    (hdts : pkt.dts.isSome) (hdst : TimeBase.Usable dst) :
    (m.establishOffset pkt dst).offsetUs.isSome := by
  rcases Option.isSome_iff_exists.mp hdts with ⟨d, hd⟩
  rcases Option.isSome_iff_exists.mp (Timestamp.rescale_isSome hdst
    (show TimeBase.Usable Rational.MICROSECONDS by decide) d .down) with ⟨t, ht⟩
  unfold establishOffset
  split
  · rfl
  · simp only [hd, ht]
    cases pkt.pts.rescale dst Rational.MICROSECONDS .down <;> rfl

/-- Outside a container without timestamps every accepted packet leaves the shift
frozen. -/
theorem apply_ok_frozen {m : MuxTimestamps} {pkt : Packet} {src dst : TimeBase}
    (htimes : m.notimestamps = false) (h : (m.apply pkt src dst).2.2 = .ok ()) :
    (m.apply pkt src dst).1.offsetUs.isSome := by
  cases hdts : (m.countPacket pkt.streamIndex).giveDts (m.decodeIndex[pkt.streamIndex]?)
      (pkt.rescaleTs src dst Rounding.default) dst with
  | error e => simp [apply, htimes, hdts] at h
  | ok pkt' =>
      rcases dtsFor_rescaled hdts with ⟨hsome, hdst⟩
      rw [apply_of_giveDts htimes hdts, checkAndRemember_offsetUs]
      exact establishOffset_isSome (by simpa using hsome) hdst

end MuxTimestamps

end Format
end Vaco
