import Vaco.Format.MuxTimestamps
import Vaco.Format.TimestampFixer

/-!
# The demux-side and mux-side rules in one chain

A stream that reorders arrives with presentation times only.  On the demux side the
reorder window gives every packet but the leading ones the sorted presentation times
as decode times; on the mux side the leading packets are counted back from zero by
their duration.  The two inventions meet at one seam.

Main results:

- `outputs_fix`: on the demux side the packets of a stream of bounded reorder depth leave with the
  answers of the reorder window.
- `recordRun_advances_iff`: on the mux side a stream advances without a refusal exactly when the
  decode times it is given strictly increase.
- `chain_advances_iff`: the chain advances exactly when the counted-back times, the seam and the
  rescaled sorted times strictly increase.
-/

namespace Vaco
namespace Format

open Library Vaco.Core

/-! ## The demux side -/

def fixPacket (timeBase : TimeBase) (frameRate : Rational) (f : TimestampFixer) (p : Packet) :
    TimestampFixer × Packet :=
  ((f.fix p timeBase frameRate).1, (f.fix p timeBase frameRate).2.1)

structure Reordering (st : StreamTs) (delay : Nat) (window : List I64) (cur : Timestamp) :
    Prop where
  reorders : st.reorders = true
  delay_eq : st.delay = delay
  reorder_eq : st.reorder = window
  curDts_eq : st.curDts = cur

structure DefaultRules (rules : FixRules) : Prop where
  genpts : rules.genpts = false
  igndts : rules.igndts = false
  fillIn : rules.fillIn = true

/-- A reordering stream leaves with the answers of the window, as long as they advance. -/
theorem fixStream_reordering {rules : FixRules} (hrules : DefaultRules rules) {st : StreamTs}
    {delay : Nat} {window : List I64} {cur : Timestamp} (hst : Reordering st delay window cur)
    (hdelay : 0 < delay) (hwindow : window.length < MAX_REORDER) {p : Packet} {v : I64}
    (hpts : p.pts = some v) (hdts : p.dts = none) (hduration : p.duration ≠ Duration.ZERO)
    (hadvance : ∀ c e, cur = some c → (windowPush delay window v).2 = some e → c < e)
    (timeBase : TimeBase) (frameRate : Rational) :
    (fixStream rules st p timeBase frameRate).packet =
        { p with dts := (windowPush delay window v).2 } ∧
      Reordering (fixStream rules st p timeBase frameRate).st delay (windowPush delay window v).1
        ((windowPush delay window v).2.or cur) := by
  rcases hst with ⟨hreorders, rfl, rfl, rfl⟩
  have hpush := pushReorder_eq_windowPush v hwindow
  have hgen : ∃ report, generate rules st p frameRate =
      { st := { st with reorder := (windowPush st.delay st.reorder v).1 }
        packet := { p with dts := (windowPush st.delay st.reorder v).2 }
        report := report } := by
    cases hout : (windowPush st.delay st.reorder v).2 with
    | none =>
        have hsame : p = { p with pts := some v, dts := none } := by
          rw [← hpts, ← hdts]
        refine ⟨{}, ?_⟩
        simp [generate, Repair.ignoreDts, Repair.dtsFromPts, Repair.dtsFromWindow,
          Repair.ptsFromWindow, Repair.fillDuration, hrules.igndts, hrules.genpts,
          hrules.fillIn, hreorders, hdelay, hpts, hdts, hduration, hpush, hout]
        exact hsame
    | some e =>
        refine ⟨{ dtsFromPts := true }, ?_⟩
        simp [generate, Repair.ignoreDts, Repair.dtsFromPts, Repair.dtsFromWindow,
          Repair.ptsFromWindow, Repair.fillDuration, hrules.igndts, hrules.genpts,
          hrules.fillIn, hreorders, hdelay, hpts, hdts, hduration, hpush, hout]
  rcases hgen with ⟨report, hgen⟩
  have hkeep : (generate rules st p frameRate).repairDts rules.fillIn rules.discont =
      generate rules st p frameRate := by
    rw [hgen]
    unfold Repair.repairDts
    split
    · rename_i c e hc he
      rw [if_neg]
      rintro ⟨-, -, hle⟩
      exact absurd hle (not_le.mpr (hadvance c e hc he))
    · rfl
  rw [fixStream, hkeep, hgen]
  constructor
  · rw [Repair.remember_packet]
  · rcases Repair.remember_window timeBase
      { st := { st with reorder := (windowPush st.delay st.reorder v).1 }
        packet := { p with dts := (windowPush st.delay st.reorder v).2 }
        report := report } with ⟨hreorder, hdelayEq, hreordersEq⟩
    exact ⟨hreordersEq.trans hreorders, hdelayEq, hreorder, Repair.remember_curDts _ _⟩

/-- A packet of a reordering stream before the demux side: a presentation time, no
decode time and a duration. -/
structure PtsOnly (streamIndex : Nat) (p : Packet) : Prop where
  stream : p.streamIndex = streamIndex
  pts : p.pts.isSome
  dts : p.dts = none
  duration : p.duration ≠ Duration.ZERO

/-- The packets of a reordering stream leave with the answers of the window while those increase. -/
theorem outputs_fix {streamIndex delay : Nat} (hdelay : 0 < delay) (hdepth : delay < MAX_REORDER)
    (timeBase : TimeBase) (frameRate : Rational) {ps : List Packet} {vs : List I64}
    (hps : ∀ p ∈ ps, PtsOnly streamIndex p) (hvs : ps.map Packet.pts = vs.map some)
    {f : TimestampFixer} (hrules : DefaultRules f.rules) {st : StreamTs}
    (hget : f.streams[streamIndex]? = some st) {window : List I64} {cur : Timestamp}
    (hst : Reordering st delay window cur) (hwindow : window.length ≤ delay)
    (hincreases : (cur.toList ++
      (Transducer.outputs (windowPush delay) window vs).filterMap id).Pairwise (· < ·)) :
    Transducer.outputs (fixPacket timeBase frameRate) f ps =
      List.zipWith (fun p out => { p with dts := out }) ps
        (Transducer.outputs (windowPush delay) window vs) := by
  induction ps generalizing vs f st window cur with
  | nil => simp
  | cons p ps ih =>
      cases vs with
      | nil => simp at hvs
      | cons v vs =>
          rcases List.cons.inj hvs with ⟨hpts, hrest⟩
          have hp := hps p List.mem_cons_self
          have hadvance : ∀ c e, cur = some c → (windowPush delay window v).2 = some e →
              c < e := by
            intro c e hc he
            rw [Transducer.outputs_cons, he, hc] at hincreases
            simp only [Option.toList_some, List.singleton_append] at hincreases
            exact (List.pairwise_cons.mp hincreases).1 e (by simp)
          have hfix := fixStream_reordering hrules hst hdelay (hwindow.trans_lt hdepth) hpts hp.dts
            hp.duration hadvance timeBase frameRate
          let f' : TimestampFixer :=
            { f with
              streams := f.streams.set streamIndex
                (fixStream f.rules st p timeBase frameRate).st }
          have hrules' : DefaultRules f'.rules := hrules
          have hget' : f'.streams[streamIndex]? =
              some (fixStream f.rules st p timeBase frameRate).st :=
            List.getElem?_set_self (List.getElem?_eq_some_iff.mp hget).1
          have hrun : f.fix p timeBase frameRate =
              (f',
                (fixStream f.rules st p timeBase frameRate).packet,
                (fixStream f.rules st p timeBase frameRate).report) := by
            simp [TimestampFixer.fix, hp.stream, hget, f']
          rw [Transducer.outputs_cons, Transducer.outputs_cons, List.zipWith_cons_cons]
          simp only [fixPacket, hrun]
          congr 1
          · exact hfix.1
          · apply ih (fun q hq => hps q (List.mem_cons_of_mem _ hq)) hrest hrules' hget' hfix.2
            · exact windowPush_length_le hwindow v
            · refine List.Pairwise.sublist ?_ hincreases
              cases hout : (windowPush delay window v).2 with
              | none => simp [hout]
              | some e => simp [hout]

/-! ## The mux side -/

namespace MuxTimestamps

/-- Applying the chain to one packet, as a step that answers with packet and
verdict. -/
def applyPacket (src dst : TimeBase) (m : MuxTimestamps) (p : Packet) :
    MuxTimestamps × Packet × Except Error Unit :=
  m.apply p src dst

def recordPacket (m : MuxTimestamps) (src dst : TimeBase) (r : StreamRecord) (p : Packet) :
    StreamRecord × Packet × Except Error Unit :=
  m.applyRecord r p src dst

/-- With a frozen shift the packets of one stream are processed from its record
alone. -/
theorem outputs_applyPacket {m : MuxTimestamps} (hfrozen : m.offsetUs.isSome) (src dst : TimeBase)
    {streamIndex : Nat} {ps : List Packet} (hps : ∀ p ∈ ps, p.streamIndex = streamIndex) :
    Transducer.outputs (applyPacket src dst) m ps =
      Transducer.outputs (m.recordPacket src dst) (m.record streamIndex) ps := by
  have hsettings : ∀ m' : MuxTimestamps, m'.settings = m.settings → m'.offsetUs.isSome ∧
      ∀ r p, m'.applyRecord r p src dst = m.applyRecord r p src dst := by
    intro m' h
    constructor
    · have hoffset : m'.settings.offsetUs = m.settings.offsetUs := by rw [h]
      rw [show m'.offsetUs = m.offsetUs from hoffset]
      exact hfrozen
    · intro r p
      rw [← applyRecord_settings m', h, applyRecord_settings]
  have hlegal : ∀ m' : MuxTimestamps, Transducer.Admissible (applyPacket src dst)
      (fun _ p => p.streamIndex = streamIndex) m' ps := by
    induction ps with
    | nil => simp
    | cons p ps ih =>
        intro m'
        exact ⟨hps p List.mem_cons_self, ih (fun q hq => hps q (List.mem_cons_of_mem _ hq)) _⟩
  refine (Transducer.simulation (R := fun m' r => m'.settings = m.settings ∧
    m'.record streamIndex = r) ⟨rfl, rfl⟩ ?_ (hlegal m)).2
  rintro m' r p ⟨hset, rfl⟩ rfl
  rcases hsettings m' hset with ⟨hfrozen', hsame⟩
  rcases apply_eq_applyRecord p src dst (Or.inr hfrozen') with ⟨hout, hrec, -, hset'⟩
  rw [applyPacket, recordPacket, ← hsame]
  exact ⟨⟨hset'.trans hset, hrec⟩, hout⟩

theorem outputs_applyPacket_freeze {m : MuxTimestamps} {src dst : TimeBase} {p : Packet}
    {o : I64} (ps : List Packet) (h : (m.apply p src dst).1.offsetUs = some o) :
    Transducer.outputs (applyPacket src dst) m (p :: ps) =
      Transducer.outputs (applyPacket src dst) { m with offsetUs := some o } (p :: ps) := by
  simp only [Transducer.outputs_cons, applyPacket]
  rw [apply_freeze h]

/-- The decode time that a packet is given at a position of its stream, rescaled and
shifted. -/
def decodeTime (m : MuxTimestamps) (delay index : Nat) (src dst : TimeBase) (p : Packet) :
    Timestamp :=
  match dtsFor delay index (p.rescaleTs src dst Rounding.default) dst with
  | .ok p => (shiftPacket (m.frozenTicks dst) (shiftPacket (m.outputTicks dst) p)).dts
  | .error _ => none

def decodeTimes (m : MuxTimestamps) (delay : Nat) (src dst : TimeBase) :
    Nat → List Packet → List Timestamp
  | _, [] => []
  | index, p :: ps =>
      m.decodeTime delay index src dst p ::
        m.decodeTimes delay src dst (min (index + 1) u64Max) ps

end MuxTimestamps

/-- The errors that refuse a decode time which does not advance. -/
def IsMonotonicityError (e : Error) : Prop :=
  e = .invalidData "non-monotonic dts: this container requires strictly increasing timestamps" ∨
    e = .invalidData "decreasing dts: this container requires non-decreasing timestamps"

/-- The packets that a run accepted. -/
def accepted (results : List (Packet × Except Error Unit)) : List Packet :=
  results.filterMap fun r =>
    match r.2 with
    | .ok () => some r.1
    | .error _ => none

/-- No decode time is refused for not advancing, and the accepted ones strictly
increase. -/
def Advances (results : List (Packet × Except Error Unit)) : Prop :=
  (∀ r ∈ results, ∀ e, r.2 = .error e → ¬ IsMonotonicityError e) ∧
    (accepted results).Pairwise fun a b => ∀ d e, a.dts = some d → b.dts = some e → d < e

/-- The accepted decode times continue a stream from its last one. -/
def AdvancesFrom (prev : Timestamp) (results : List (Packet × Except Error Unit)) : Prop :=
  Advances results ∧ ∀ a ∈ accepted results, ∀ c d, prev = some c → a.dts = some d → c < d

theorem advancesFrom_none (results : List (Packet × Except Error Unit)) :
    AdvancesFrom none results ↔ Advances results := by
  simp [AdvancesFrom]

theorem advancesFrom_cons_ok {prev : Timestamp} {q : Packet} {e : I64}
    {results : List (Packet × Except Error Unit)} (hq : q.dts = some e) :
    AdvancesFrom prev ((q, .ok ()) :: results) ↔
      (∀ c, prev = some c → c < e) ∧ AdvancesFrom (some e) results := by
  have haccepted : accepted ((q, .ok ()) :: results) = q :: accepted results := rfl
  simp only [AdvancesFrom, Advances, haccepted, List.pairwise_cons, List.mem_cons,
    forall_eq_or_imp, hq, Option.some.injEq]
  constructor
  · rintro ⟨⟨⟨-, hrest⟩, hhead, hpairs⟩, hfirst, -⟩
    exact ⟨fun c hc => hfirst c e hc rfl, ⟨hrest, hpairs⟩, hhead⟩
  · rintro ⟨hfirst, ⟨hrest, hpairs⟩, hhead⟩
    refine ⟨⟨⟨by simp, hrest⟩, hhead, hpairs⟩, ?_, ?_⟩
    · intro c d hc hd
      exact hd ▸ hfirst c hc
    · intro a ha c d hc hd
      exact (hfirst c hc).trans (hhead a ha e d rfl hd)

theorem not_advancesFrom_cons_error {prev : Timestamp} {q : Packet} {err : Error}
    {results : List (Packet × Except Error Unit)} (herr : IsMonotonicityError err) :
    ¬ AdvancesFrom prev ((q, .error err) :: results) := by
  intro h
  exact h.1.1 _ List.mem_cons_self err rfl herr

/-- A decode time that advances is accepted; one that does not is refused, or accepted
where it only repeats the last one. -/
theorem checkMonotonic_cases (prev : Timestamp) (e : I64) (flags : FormatFlags) :
    ((∀ c, prev = some c → c < e) ∧ checkMonotonic prev (some e) flags = .ok ()) ∨
      ∃ c, prev = some c ∧ e ≤ c ∧
        (checkMonotonic prev (some e) flags = .ok () ∨
          ∃ err, IsMonotonicityError err ∧ checkMonotonic prev (some e) flags = .error err) := by
  cases prev with
  | none => exact Or.inl ⟨by simp, rfl⟩
  | some c =>
      by_cases hlt : c < e
      · left
        refine ⟨by simpa using hlt, ?_⟩
        simp [checkMonotonic, not_le.mpr hlt, not_lt.mpr hlt.le]
      · right
        have hle := not_lt.mp hlt
        refine ⟨c, rfl, hle, ?_⟩
        by_cases hstrict : flags.requiresStrictDts
        · right
          exact ⟨_, Or.inl rfl, by simp [checkMonotonic, hstrict, hle]⟩
        · by_cases heq : e < c
          · right
            exact ⟨_, Or.inr rfl, by simp [checkMonotonic, hstrict, heq]⟩
          · left
            simp [checkMonotonic, hstrict, heq]

/-- On the mux side a stream advances without a refusal exactly when the decode times
it is given strictly increase. -/
theorem recordRun_advances_iff {m : MuxTimestamps} (htimes : m.notimestamps = false)
    {src dst : TimeBase} {ps : List Packet} {r : MuxTimestamps.StreamRecord} {prev : Timestamp}
    {index : Nat} {es : List I64} (hlast : r.last = some prev) (hindex : r.index = some index)
    (hes : m.decodeTimes r.delay src dst index ps = es.map some) :
    AdvancesFrom prev (Transducer.outputs (m.recordPacket src dst) r ps) ↔
      (prev.toList ++ es).Pairwise (· < ·) := by
  induction ps generalizing r prev index es with
  | nil =>
      have : es = [] := by simpa [MuxTimestamps.decodeTimes] using hes.symm
      subst this
      cases prev <;> simp [AdvancesFrom, Advances, accepted]
  | cons p ps ih =>
      cases es with
      | nil => simp [MuxTimestamps.decodeTimes] at hes
      | cons e es =>
          rcases List.cons.inj hes with ⟨hdecode, hrest⟩
          simp only [MuxTimestamps.decodeTime] at hdecode
          cases hdts : dtsFor r.delay index (p.rescaleTs src dst Rounding.default) dst with
          | error err => simp [hdts] at hdecode
          | ok p' =>
              simp only [hdts] at hdecode
              have hpairs : (prev.toList ++ e :: es).Pairwise (· < ·) ↔
                  (∀ c, prev = some c → c < e) ∧ ((some e).toList ++ es).Pairwise (· < ·) := by
                cases prev with
                | none => simp
                | some c =>
                    simp only [Option.toList_some, List.singleton_append, List.pairwise_cons,
                      List.mem_cons, forall_eq_or_imp, Option.some.injEq, forall_eq']
                    constructor
                    · rintro ⟨⟨hce, -⟩, hrest⟩
                      exact ⟨hce, hrest⟩
                    · rintro ⟨hce, hhead, hrest⟩
                      exact ⟨⟨hce, fun a ha => hce.trans (hhead a ha)⟩, hhead, hrest⟩
              let q := shiftPacket (m.frozenTicks dst) (shiftPacket (m.outputTicks dst) p')
              have hpass : checkMonotonic prev (some e) m.flags = .ok () →
                  m.applyRecord r p src dst =
                    ({ r.count with last := some (some e) }, q, .ok ()) := by
                intro hok
                simp only [MuxTimestamps.applyRecord, htimes, hindex, Option.getD_some, hdts,
                  hlast, hdecode, hok]
                rfl
              have hfail : ∀ err, checkMonotonic prev (some e) m.flags = .error err →
                  m.applyRecord r p src dst = (r.count, q, .error err) := by
                intro err herr
                simp only [MuxTimestamps.applyRecord, htimes, hindex, Option.getD_some, hdts,
                  hlast, hdecode, herr]
                rfl
              rw [Transducer.outputs_cons, hpairs, MuxTimestamps.recordPacket]
              rcases checkMonotonic_cases prev e m.flags with ⟨hadvance, hok⟩ |
                ⟨c, hc, hle, hok | ⟨err, herr, hcheck⟩⟩
              · rw [hpass hok, advancesFrom_cons_ok hdecode]
                rw [ih (r := { r.count with last := some (some e) }) rfl
                  (by simp [MuxTimestamps.StreamRecord.count, hindex]) hrest]
              · rw [hpass hok, advancesFrom_cons_ok hdecode]
                constructor
                · intro h
                  exact absurd (h.1 c hc) (not_lt.mpr hle)
                · intro h
                  exact absurd (h.1 c hc) (not_lt.mpr hle)
              · rw [hfail err hcheck]
                constructor
                · intro h
                  exact absurd h (not_advancesFrom_cons_error herr)
                · intro h
                  exact absurd (h.1 c hc) (not_lt.mpr hle)

/-! ## The decode times of a reordering stream -/

/-- Move a time by a number of ticks, if there is one. -/
def shiftTicks (ticks : Option I64) (t : I64) : I64 :=
  ticks.elim t t.saturatingAdd

@[simp]
theorem shiftPacket_dts (ticks : Option I64) (p : Packet) :
    (shiftPacket ticks p).dts = p.dts.map (shiftTicks ticks) := by
  cases ticks with
  | none => exact Option.map_id'.symm
  | some ticks => rfl

@[simp]
theorem shiftPacket_pts (ticks : Option I64) (p : Packet) :
    (shiftPacket ticks p).pts = p.pts.map (shiftTicks ticks) := by
  cases ticks with
  | none => exact Option.map_id'.symm
  | some ticks => rfl

def rescaleTicks (src dst : TimeBase) (t : I64) : I64 :=
  (Timestamp.rescale (some t) src dst Rounding.default).getD t

/-- The time a leading packet is counted back to, from its place in decode order. -/
def leadingTicks (delay index : Nat) (duration : Duration) (dst : TimeBase) (pts : I64) : I64 :=
  (leadingDts delay index duration dst (some pts)).getD pts

theorem rescale_eq_rescaleTicks {src dst : TimeBase} (hsrc : TimeBase.Usable src)
    (hdst : TimeBase.Usable dst) (t : I64) :
    Timestamp.rescale (some t) src dst Rounding.default = some (rescaleTicks src dst t) := by
  rcases Option.isSome_iff_exists.mp
    (Timestamp.rescale_isSome hsrc hdst t Rounding.default) with ⟨t', ht'⟩
  simp [rescaleTicks, ht']

theorem leadingDts_eq_leadingTicks (delay index : Nat) (duration : Duration) (dst : TimeBase)
    (pts : I64) :
    leadingDts delay index duration dst (some pts) =
      some (leadingTicks delay index duration dst pts) := by
  have hsome : (leadingDts delay index duration dst (some pts)).isSome := by
    simp [leadingDts]
  rcases Option.isSome_iff_exists.mp hsome with ⟨t, ht⟩
  simp [leadingTicks, ht]

namespace MuxTimestamps

/-- The user's offset and the frozen shift together. -/
def shifted (m : MuxTimestamps) (dst : TimeBase) (t : I64) : I64 :=
  shiftTicks (m.frozenTicks dst) (shiftTicks (m.outputTicks dst) t)

variable (m : MuxTimestamps) {src dst : TimeBase}

theorem decodeTime_of_pts (hsrc : TimeBase.Usable src) (hdst : TimeBase.Usable dst)
    (delay index : Nat) {p : Packet} {t : I64} (hpts : p.pts = some t) (hdts : p.dts = none) :
    m.decodeTime delay index src dst p =
      some (m.shifted dst
        (leadingTicks delay index p.duration dst (rescaleTicks src dst t))) := by
  simp [decodeTime, dtsFor, hpts, hdts, rescale_eq_rescaleTicks hsrc hdst,
    leadingDts_eq_leadingTicks, shifted]

theorem decodeTime_of_dts (hsrc : TimeBase.Usable src) (hdst : TimeBase.Usable dst)
    (delay index : Nat) {p : Packet} {t : I64} (hdts : p.dts = some t) :
    m.decodeTime delay index src dst p = some (m.shifted dst (rescaleTicks src dst t)) := by
  simp [decodeTime, dtsFor, hdts, rescale_eq_rescaleTicks hsrc hdst, shifted]

theorem decodeTimes_eq_mapIdx (delay index : Nat) (ps : List Packet)
    (h : index + ps.length ≤ u64Max) :
    m.decodeTimes delay src dst index ps =
      ps.mapIdx fun j p => m.decodeTime delay (index + j) src dst p := by
  induction ps generalizing index with
  | nil => simp [decodeTimes]
  | cons p ps ih =>
      simp only [List.length_cons] at h
      have hmin : min (index + 1) u64Max = index + 1 := min_eq_left (by omega)
      rw [decodeTimes, hmin, ih (index + 1) (by omega), List.mapIdx_cons]
      simp [Nat.add_right_comm, Nat.add_assoc]

theorem decodeTimes_of_dts (hsrc : TimeBase.Usable src) (hdst : TimeBase.Usable dst)
    (delay index : Nat) {ps : List Packet} {ts : List I64}
    (h : ps.map Packet.dts = ts.map some) :
    m.decodeTimes delay src dst index ps =
      (ts.map fun t => m.shifted dst (rescaleTicks src dst t)).map some := by
  induction ps generalizing index ts with
  | nil =>
      have : ts = [] := by simpa using h.symm
      simp [decodeTimes, this]
  | cons p ps ih =>
      cases ts with
      | nil => simp at h
      | cons t ts =>
          rcases List.cons.inj h with ⟨hdts, hrest⟩
          simp [decodeTimes, m.decodeTime_of_dts hsrc hdst delay index hdts, ih _ hrest]

theorem exists_decodeTimes_append (src dst : TimeBase) (delay index : Nat)
    (first second : List Packet) :
    ∃ index', m.decodeTimes delay src dst index (first ++ second) =
      m.decodeTimes delay src dst index first ++ m.decodeTimes delay src dst index' second := by
  induction first generalizing index with
  | nil => exact ⟨index, rfl⟩
  | cons p first ih =>
      rcases ih (min (index + 1) u64Max) with ⟨index', h⟩
      exact ⟨index', by simp [decodeTimes, h]⟩

end MuxTimestamps

/-! ## The seam -/

/-- The presentation times that the window hands out as decode times: all but the
`d` greatest, in order. -/
def windowedPts (d : Nat) (pts : List I64) : List I64 :=
  (pts.insertionSort (· ≤ ·)).take (pts.length - d)

/-- The counted-back times increase, lie below the windowed ones, and no two of those are merged. -/
structure SeamHolds (d : Nat) (pts : List I64) (leading : Nat → I64) (place : I64 → I64) :
    Prop where
  leading_lt : ∀ j k, j < k → k < min d pts.length → leading j < leading k
  seam_lt : ∀ j, j < min d pts.length → ∀ t ∈ windowedPts d pts, leading j < place t
  windowed_lt : ∀ s ∈ windowedPts d pts, ∀ t ∈ windowedPts d pts, s < t → place s < place t

theorem windowedPts_pairwise {d : Nat} {pts : List I64} (h : pts.Nodup) :
    (windowedPts d pts).Pairwise (· < ·) := by
  have hsorted := (List.pairwise_insertionSort (· ≤ ·) pts).and
    ((List.perm_insertionSort (· ≤ ·) pts).nodup_iff.mpr h)
  have hlt : (pts.insertionSort (· ≤ ·)).Pairwise (· < ·) :=
    hsorted.imp fun hab => lt_of_le_of_ne hab.1 hab.2
  exact List.Pairwise.sublist (List.take_sublist _ _) hlt

/-- The two inventions fit together exactly when the list of decode times strictly
increases. -/
theorem seamHolds_iff {d : Nat} {pts : List I64} (h : pts.Nodup) (leading : Nat → I64)
    (place : I64 → I64) :
    ((List.range (min d pts.length)).map leading ++ (windowedPts d pts).map place).Pairwise
        (· < ·) ↔ SeamHolds d pts leading place := by
  have hwindow := windowedPts_pairwise (d := d) h
  rw [List.pairwise_append, List.pairwise_map, List.pairwise_map]
  constructor
  · rintro ⟨hleading, hplace, hseam⟩
    constructor
    · intro j k hjk hk
      rw [List.pairwise_iff_getElem] at hleading
      have hlt := hleading j k (by rw [List.length_range]; omega)
        (by rw [List.length_range]; exact hk) hjk
      rwa [List.getElem_range, List.getElem_range] at hlt
    · intro j hj t ht
      exact hseam _ (List.mem_map_of_mem (List.mem_range.mpr hj)) _ (List.mem_map_of_mem ht)
    · intro s hs t ht hst
      rcases List.getElem_of_mem hs with ⟨a, ha, rfl⟩
      rcases List.getElem_of_mem ht with ⟨b, hb, rfl⟩
      rw [List.pairwise_iff_getElem] at hplace hwindow
      rcases lt_trichotomy a b with hab | hab | hab
      · exact hplace a b ha hb hab
      · subst hab
        exact absurd hst (lt_irrefl _)
      · exact absurd hst (hwindow b a hb ha hab).not_gt
  · intro hseam
    refine ⟨?_, ?_, ?_⟩
    · rw [List.pairwise_iff_getElem]
      intro j k hj hk hjk
      rw [List.length_range] at hk
      rw [List.getElem_range, List.getElem_range]
      exact hseam.leading_lt j k hjk hk
    · apply List.Pairwise.imp_of_mem _ hwindow
      intro s t hs ht hst
      exact hseam.windowed_lt s hs t ht hst
    · intro a ha b hb
      rcases List.mem_map.mp ha with ⟨j, hj, rfl⟩
      rcases List.mem_map.mp hb with ⟨t, ht, rfl⟩
      exact hseam.seam_lt j (List.mem_range.mp hj) t ht

/-! ## The whole chain -/

/-- A fixer with default options that knows the reorder depth of one stream. -/
def demuxSide (streamCount streamIndex d : Nat) (flags : FormatFlags) : TimestampFixer :=
  (TimestampFixer.new streamCount flags FormatOptions.default).setStreamDelay streamIndex d true

def muxSide (streamCount streamIndex d : Nat) (flags : FormatFlags) (opts : FormatOptions) :
    MuxTimestamps :=
  (MuxTimestamps.new streamCount flags opts).setReorderDelay streamIndex d

/-- Packets through the demux side and then the mux side. -/
def chainResults (f : TimestampFixer) (m : MuxTimestamps) (src dst : TimeBase)
    (frameRate : Rational) (ps : List Packet) : List (Packet × Except Error Unit) :=
  Transducer.outputs (Transducer.cascade (fixPacket src frameRate)
    (MuxTimestamps.applyPacket src dst)) (f, m) ps

def frozenChain (m : MuxTimestamps) (d : Nat) (duration : Duration) (src dst : TimeBase)
    (first : I64) : MuxTimestamps :=
  m.establishOffset
    { Packet.empty with
      pts := some (shiftTicks (m.outputTicks dst) (rescaleTicks src dst first))
      dts := some (shiftTicks (m.outputTicks dst)
        (leadingTicks d 0 duration dst (rescaleTicks src dst first))) } dst

def leadingPlace (m : MuxTimestamps) (d : Nat) (duration : Duration) (src dst : TimeBase)
    (pts : List I64) (k : Nat) : I64 :=
  m.shifted dst (leadingTicks d k duration dst (rescaleTicks src dst (pts.getD k (clampI64 0))))

theorem clearDts_eq_self {p : Packet} (h : p.dts = none) : { p with dts := none } = p := by
  rw [← h]

/-- A stream of bounded depth keeps its leading packets and gives the others the windowed times. -/
theorem outputs_demuxSide {streamCount streamIndex d : Nat} (hstream : streamIndex < streamCount)
    (hd : 1 ≤ d) (hd' : d ≤ 15) (flags : FormatFlags) (src : TimeBase) (frameRate : Rational)
    {ps : List Packet} {pts : List I64} (hps : ∀ p ∈ ps, PtsOnly streamIndex p)
    (hpts : ps.map Packet.pts = pts.map some) (hdistinct : pts.Nodup)
    (hdepth : ReorderDepthAtMost d pts) :
    ∃ rest : List Packet,
      Transducer.outputs (fixPacket src frameRate) (demuxSide streamCount streamIndex d flags) ps =
        ps.take (min d pts.length) ++ rest ∧
      rest.map Packet.dts = (windowedPts d pts).map some ∧
      ∀ p ∈ rest, p.streamIndex = streamIndex := by
  have hlen : ps.length = pts.length := by
    simpa using congrArg List.length hpts
  have hstreams : (demuxSide streamCount streamIndex d flags).streams[streamIndex]? =
      some { StreamTs.default with delay := d, reorders := true } := by
    have hmin : min d (MAX_REORDER - 1) = d := min_eq_left (by simpa [MAX_REORDER] using hd')
    simp [demuxSide, TimestampFixer.setStreamDelay, TimestampFixer.new, hstream, hmin]
  have hrules : DefaultRules (demuxSide streamCount streamIndex d flags).rules := by
    have hfields : (demuxSide streamCount streamIndex d flags).fflags = FFlags.AUTOBSF ∧
        (demuxSide streamCount streamIndex d flags).fillIn = true := by
      simp only [demuxSide, TimestampFixer.setStreamDelay, TimestampFixer.new]
      split <;> exact ⟨rfl, rfl⟩
    constructor
    · simp only [TimestampFixer.rules, hfields.1]
      rfl
    · simp only [TimestampFixer.rules, hfields.1]
      rfl
    · exact hfields.2
  have hmax : d < MAX_REORDER := by
    simp only [MAX_REORDER]
    omega
  have hwindow : Transducer.outputs (windowPush d) [] pts =
      List.replicate (min d pts.length) none ++ (windowedPts d pts).map some :=
    outputs_windowPush d hdepth
  have hemitted : (Transducer.outputs (windowPush d) [] pts).filterMap id = windowedPts d pts := by
    simp [hwindow, List.filterMap_append, List.filterMap_map]
  have hfresh : Reordering { StreamTs.default with delay := d, reorders := true } d [] none :=
    ⟨rfl, rfl, rfl, rfl⟩
  have houts := outputs_fix hd hmax src frameRate hps hpts hrules hstreams hfresh (by simp) (by
    rw [hemitted]
    exact windowedPts_pairwise hdistinct)
  have hsplit : ps = ps.take (min d pts.length) ++ ps.drop (min d pts.length) :=
    (List.take_append_drop _ ps).symm
  have hleading : List.zipWith (fun (p : Packet) out => { p with dts := out })
      (ps.take (min d pts.length)) (List.replicate (min d pts.length) none) =
      ps.take (min d pts.length) := by
    apply List.ext_getElem
    · simp [hlen]
    · intro j hj hj'
      have hp := hps _ (List.mem_of_mem_take (List.getElem_mem hj'))
      rw [List.getElem_zipWith, List.getElem_replicate]
      exact clearDts_eq_self hp.dts
  refine ⟨List.zipWith (fun (p : Packet) out => { p with dts := out })
    (ps.drop (min d pts.length)) ((windowedPts d pts).map some), ?_, ?_, ?_⟩
  · rw [houts, hwindow]
    nth_rewrite 1 [hsplit]
    rw [List.zipWith_append (by simp [hlen]), hleading]
  · apply List.ext_getElem
    · simp [hlen, windowedPts]
      omega
    · intro j hj hj'
      simp
  · intro p hp
    rcases List.getElem_of_mem hp with ⟨j, hj, rfl⟩
    simp only [List.getElem_zipWith]
    exact (hps _ (List.mem_of_mem_drop (List.getElem_mem _))).stream

theorem apply_first_offset {m : MuxTimestamps} (htimes : m.notimestamps = false)
    {src dst : TimeBase} (hsrc : TimeBase.Usable src) (hdst : TimeBase.Usable dst) {p : Packet}
    {t : I64} {d : Nat} (hpts : p.pts = some t) (hdts : p.dts = none)
    (hdelay : (m.reorderDelay[p.streamIndex]?).getD 0 = d)
    (hindex : m.decodeIndex[p.streamIndex]? = some 0) :
    (m.apply p src dst).1.offsetUs = (frozenChain m d p.duration src dst t).offsetUs := by
  have hgive : (m.countPacket p.streamIndex).giveDts (m.decodeIndex[p.streamIndex]?)
      (p.rescaleTs src dst Rounding.default) dst =
      .ok { p.rescaleTs src dst Rounding.default with
        dts := some (leadingTicks d 0 p.duration dst (rescaleTicks src dst t)) } := by
    have hdelay' : ((m.countPacket p.streamIndex).reorderDelay[p.streamIndex]?).getD 0 = d := hdelay
    simp [MuxTimestamps.giveDts, dtsFor, hpts, hdts, hdelay', hindex,
      rescale_eq_rescaleTicks hsrc hdst, leadingDts_eq_leadingTicks]
  rw [MuxTimestamps.apply_of_giveDts htimes hgive, MuxTimestamps.checkAndRemember_offsetUs]
  simp only [MuxTimestamps.establishOffset, frozenChain, MuxTimestamps.countPacket,
    shiftPacket_dts, shiftPacket_pts, Packet.rescaleTs_pts, hpts,
    rescale_eq_rescaleTicks hsrc hdst, Option.map_some]
  split
  · rfl
  · split <;> rfl

/-- Decode times leave the demux side as the leading and the windowed ones. -/
theorem decodeTimes_demuxed (m : MuxTimestamps) {src dst : TimeBase}
    (hsrc : TimeBase.Usable src) (hdst : TimeBase.Usable dst) {streamIndex d : Nat} (hd' : d ≤ 15)
    {duration : Duration} {ps rest : List Packet} {pts : List I64}
    (hps : ∀ p ∈ ps, PtsOnly streamIndex p ∧ p.duration = duration)
    (hpts : ps.map Packet.pts = pts.map some)
    (hrest : rest.map Packet.dts = (windowedPts d pts).map some) :
    m.decodeTimes d src dst 0 (ps.take (min d pts.length) ++ rest) =
      ((List.range (min d pts.length)).map (leadingPlace m d duration src dst pts) ++
        (windowedPts d pts).map fun t => m.shifted dst (rescaleTicks src dst t)).map some := by
  have hlen : ps.length = pts.length := by
    simpa using congrArg List.length hpts
  have hmax : min d pts.length ≤ u64Max := by
    have : u64Max = 18446744073709551615 := rfl
    omega
  rcases m.exists_decodeTimes_append src dst d 0 (ps.take (min d pts.length)) rest
    with ⟨index, happend⟩
  rw [happend, m.decodeTimes_of_dts hsrc hdst d index hrest, List.map_append]
  congr 1
  rw [m.decodeTimes_eq_mapIdx d 0 _ (by simp [hlen]; omega)]
  apply List.ext_getElem
  · simp [hlen]
  · intro j hj hj'
    have hjlt : j < min d pts.length := by simpa using hj'
    have hjps : j < ps.length := by omega
    have hp := hps _ (List.getElem_mem hjps)
    have hpj : (ps[j]).pts = some (pts.getD j (clampI64 0)) := by
      have hmap : (ps.map Packet.pts)[j]? = (pts.map some)[j]? := by rw [hpts]
      have hjpts : j < pts.length := by omega
      simpa [hjps, hjpts] using hmap
    simp only [List.getElem_mapIdx, List.getElem_take, Nat.zero_add, List.getElem_map,
      List.getElem_range]
    rw [m.decodeTime_of_pts hsrc hdst d j hpj hp.1.dts, hp.2]
    rfl

/-- Results without decode times, or refused for having no times at all, advance
trivially. -/
theorem advances_of_no_dts {results : List (Packet × Except Error Unit)}
    (h : ∀ r ∈ results, r.1.dts = none ∧
      (r.2 = .ok () ∨ r.2 = .error (.invalidData
        "this container needs timestamps and the packet has none"))) : Advances results := by
  constructor
  · intro r hr e he hmono
    rcases (h r hr).2 with hok | herr
    · rw [hok] at he
      cases he
    · rw [herr] at he
      cases he
      rcases hmono with hmono | hmono <;> simp at hmono
  · apply List.Pairwise.imp_of_mem (R := fun _ _ => True) _
      (List.pairwise_of_forall fun _ _ => trivial)
    intro a b ha _ _ d e hd
    rcases List.mem_filterMap.mp ha with ⟨r, hr, hra⟩
    have hnone := (h r hr).1
    split at hra
    · cases hra
      rw [hnone] at hd
      cases hd
    · cases hra

/-- A container without timestamps, or a base that names no tick length, leaves no
decode time to compare. -/
theorem outputs_applyPacket_no_dts {m : MuxTimestamps} {src dst : TimeBase}
    (h : m.notimestamps = true ∨ ¬ TimeBase.Usable src ∨ ¬ TimeBase.Usable dst)
    (ps : List Packet) :
    ∀ r ∈ Transducer.outputs (MuxTimestamps.applyPacket src dst) m ps, r.1.dts = none ∧
      (r.2 = .ok () ∨ r.2 = .error (.invalidData
        "this container needs timestamps and the packet has none")) := by
  induction ps generalizing m with
  | nil => simp
  | cons p ps ih =>
      have hone : (m.apply p src dst).1.notimestamps = m.notimestamps ∧
          (m.apply p src dst).2.1.dts = none ∧
          ((m.apply p src dst).2.2 = .ok () ∨ (m.apply p src dst).2.2 = .error (.invalidData
            "this container needs timestamps and the packet has none")) := by
        by_cases htimes : m.notimestamps = true
        · simp [MuxTimestamps.apply, htimes]
        · have hnone : ∀ t : Timestamp, t.rescale src dst Rounding.default = none := by
            intro t
            by_contra hsome
            have husable := Timestamp.usable_of_rescale (Option.isSome_iff_ne_none.mpr hsome)
            rcases h with h | h | h
            · exact htimes h
            · exact h husable.2.1
            · exact h husable.2.2
          simp [MuxTimestamps.apply, htimes, MuxTimestamps.giveDts, dtsFor, hnone,
            MuxTimestamps.countPacket]
      intro r hr
      rw [Transducer.outputs_cons] at hr
      rcases List.mem_cons.mp hr with rfl | hr
      · exact hone.2
      · apply ih _ r hr
        rw [MuxTimestamps.applyPacket, hone.1]
        exact h

theorem record_muxSide {streamCount streamIndex : Nat} (hstream : streamIndex < streamCount)
    (d : Nat) (flags : FormatFlags) (opts : FormatOptions) :
    (muxSide streamCount streamIndex d flags opts).record streamIndex =
      { last := some none, index := some 0, delay := d } := by
  simp [MuxTimestamps.record, muxSide, MuxTimestamps.setReorderDelay, MuxTimestamps.new, hstream]

/-- A run from a fresh mux side advances exactly when the decode times of the frozen chain increase.
-/
theorem muxSide_advances_iff {streamCount streamIndex d : Nat}
    (hstream : streamIndex < streamCount) {flags : FormatFlags} (opts : FormatOptions)
    (htimes : flags.contains FormatFlags.NOTIMESTAMPS = false) {src dst : TimeBase}
    (hsrc : TimeBase.Usable src) (hdst : TimeBase.Usable dst) {p : Packet} {ps : List Packet}
    (hps : ∀ q ∈ p :: ps, q.streamIndex = streamIndex) {t : I64} (hpts : p.pts = some t)
    (hdts : p.dts = none) {es : List I64}
    (hes : (frozenChain (muxSide streamCount streamIndex d flags opts) d p.duration src dst
      t).decodeTimes d src dst 0 (p :: ps) = es.map some) :
    Advances (Transducer.outputs (MuxTimestamps.applyPacket src dst)
        (muxSide streamCount streamIndex d flags opts) (p :: ps)) ↔ es.Pairwise (· < ·) := by
  let m := muxSide streamCount streamIndex d flags opts
  have hrecord : m.record streamIndex = { last := some none, index := some 0, delay := d } :=
    record_muxSide hstream d flags opts
  have hp := hps p List.mem_cons_self
  have hdelay : (m.reorderDelay[p.streamIndex]?).getD 0 = d := by
    rw [hp]
    exact congrArg MuxTimestamps.StreamRecord.delay hrecord
  have hindex : m.decodeIndex[p.streamIndex]? = some 0 := by
    rw [hp]
    exact congrArg MuxTimestamps.StreamRecord.index hrecord
  have hfrozen : (frozenChain m d p.duration src dst t).offsetUs.isSome :=
    MuxTimestamps.establishOffset_isSome rfl hdst
  rcases Option.isSome_iff_exists.mp hfrozen with ⟨o, ho⟩
  have hoffset : (m.apply p src dst).1.offsetUs = some o :=
    (apply_first_offset htimes hsrc hdst hpts hdts hdelay hindex).trans ho
  have hchain : ({ m with offsetUs := some o } : MuxTimestamps) =
      frozenChain m d p.duration src dst t := by
    rw [← ho]
    exact (MuxTimestamps.establishOffset_eq m _ dst).symm
  have hrecord' : (frozenChain m d p.duration src dst t).record streamIndex =
      { last := some none, index := some 0, delay := d } := by
    rw [← hchain]
    exact hrecord
  have htimes' : (frozenChain m d p.duration src dst t).notimestamps = false := by
    rw [← hchain]
    exact htimes
  rw [MuxTimestamps.outputs_applyPacket_freeze ps hoffset, hchain,
    MuxTimestamps.outputs_applyPacket hfrozen src dst hps, hrecord', ← advancesFrom_none,
    recordRun_advances_iff htimes' rfl rfl hes]
  simp

/-- The chain advances on a reordering stream exactly when the mux side keeps no timestamps, a base
names no tick length, or the decode times that the two sides invent fit together. -/
theorem chain_advances_iff {streamCount streamIndex d : Nat} (hstream : streamIndex < streamCount)
    (hd : 1 ≤ d) (hd' : d ≤ 15) (demuxFlags muxFlags : FormatFlags) (muxOpts : FormatOptions)
    (src dst : TimeBase) (frameRate : Rational) {duration : Duration}
    (hduration : 0 < duration.numerator.val) {ps : List Packet} {pts : List I64}
    (hps : ∀ p ∈ ps, p.streamIndex = streamIndex ∧ p.dts = none ∧ p.duration = duration)
    (hpts : ps.map Packet.pts = pts.map some) (hdistinct : pts.Nodup)
    (hdepth : ReorderDepthAtMost d pts) :
    Advances (chainResults (demuxSide streamCount streamIndex d demuxFlags)
        (muxSide streamCount streamIndex d muxFlags muxOpts) src dst frameRate ps) ↔
      muxFlags.contains FormatFlags.NOTIMESTAMPS = true ∨
        ¬ TimeBase.Usable src ∨ ¬ TimeBase.Usable dst ∨
        SeamHolds d pts
          (leadingPlace (frozenChain (muxSide streamCount streamIndex d muxFlags muxOpts) d duration
            src dst (pts.headD (clampI64 0))) d duration src dst pts)
          (fun t => (frozenChain (muxSide streamCount streamIndex d muxFlags muxOpts) d duration
            src dst (pts.headD (clampI64 0))).shifted dst (rescaleTicks src dst t)) := by
  have hpts' : ∀ p ∈ ps, p.pts.isSome := by
    intro p hp
    have hmem : p.pts ∈ pts.map some := hpts ▸ List.mem_map_of_mem hp
    rcases List.mem_map.mp hmem with ⟨t, -, ht⟩
    rw [← ht]
    rfl
  have hzero : duration ≠ Duration.ZERO := by
    intro h
    rw [h] at hduration
    exact absurd hduration (by decide)
  have honly : ∀ p ∈ ps, PtsOnly streamIndex p := by
    intro p hp
    rcases hps p hp with ⟨hstream', hdts, hdur⟩
    exact ⟨hstream', hpts' p hp, hdts, hdur ▸ hzero⟩
  rcases outputs_demuxSide hstream hd hd' demuxFlags src frameRate honly hpts hdistinct hdepth with
    ⟨rest, hdemux, hrest, hreststream⟩
  rw [chainResults, Transducer.outputs_cascade, hdemux]
  by_cases hnone : muxFlags.contains FormatFlags.NOTIMESTAMPS = true ∨
      ¬ TimeBase.Usable src ∨ ¬ TimeBase.Usable dst
  · have hadvances := advances_of_no_dts (outputs_applyPacket_no_dts
      (m := muxSide streamCount streamIndex d muxFlags muxOpts) hnone
      (ps.take (min d pts.length) ++ rest))
    constructor
    · intro _
      rcases hnone with h | h | h
      · exact Or.inl h
      · exact Or.inr (Or.inl h)
      · exact Or.inr (Or.inr (Or.inl h))
    · intro _
      exact hadvances
  · simp only [not_or, not_not, Bool.not_eq_true] at hnone
    rcases hnone with ⟨htimes, hsrc, hdst⟩
    simp only [htimes, hsrc, hdst, not_true_eq_false, false_or, Bool.false_eq_true]
    cases pts with
    | nil =>
        have hps' : ps = [] := by simpa using hpts
        have hrest' : rest = [] := by simpa [windowedPts] using hrest
        subst hps' hrest'
        constructor
        · intro _
          constructor <;> simp [windowedPts]
        · intro _
          exact advances_of_no_dts (by simp)
    | cons t pts =>
        cases ps with
        | nil => simp at hpts
        | cons p ps =>
            have hp := hps p List.mem_cons_self
            have hpt : p.pts = some t := (List.cons.inj hpts).1
            have hdemuxed := decodeTimes_demuxed
              (frozenChain (muxSide streamCount streamIndex d muxFlags muxOpts) d duration src dst t)
              hsrc hdst hd' (fun q hq => ⟨honly q hq, (hps q hq).2.2⟩) hpts hrest
            have hcount : min d (t :: pts).length = min (d - 1) pts.length + 1 := by
              simp
              omega
            have hall : ∀ q ∈ (p :: ps).take (min d (t :: pts).length) ++ rest,
                q.streamIndex = streamIndex := by
              intro q hq
              rcases List.mem_append.mp hq with hq | hq
              · exact (hps q (List.mem_of_mem_take hq)).1
              · exact hreststream q hq
            rw [← seamHolds_iff hdistinct]
            rw [hcount, List.take_succ_cons, List.cons_append] at hdemuxed hall ⊢
            rw [← hp.2.2] at hdemuxed ⊢
            exact muxSide_advances_iff hstream muxOpts htimes hsrc hdst hall hpt hp.2.1 hdemuxed

/-- Milliseconds. -/
def milliseconds : TimeBase :=
  ⟨.lit 1, .lit 1000⟩

/-- Presentation times of five frames of 40 ms behind a delay of two, from an origin. -/
def reorderedPts (origin : Int) : List I64 :=
  [origin, origin + 160, origin + 80, origin + 40, origin + 120].map clampI64

/-- One frame of 40 ms with a presentation time only. -/
def framePacket (pts : I64) : Packet :=
  { Packet.empty with pts := some pts, duration := Duration.fromMicros (clampI64 40000) }

/-- From origin zero the chain advances. -/
theorem chain_advances_origin_zero :
    Advances (chainResults (demuxSide 1 0 2 ⟨0⟩) (muxSide 1 0 2 ⟨0⟩ FormatOptions.default)
      milliseconds milliseconds Rational.MICROSECONDS
      ((reorderedPts 0).map framePacket)) := by
  have hdistinct : (reorderedPts 0).Nodup := by decide +kernel
  apply (chain_advances_iff (by decide) (by decide) (by decide) ⟨0⟩ ⟨0⟩ FormatOptions.default
    milliseconds milliseconds Rational.MICROSECONDS
    (show 0 < (Duration.fromMicros (clampI64 40000)).numerator.val by decide +kernel)
    (by decide +kernel) (by rw [List.map_map]; rfl) hdistinct (by decide +kernel)).mpr
  right
  right
  right
  exact (seamHolds_iff hdistinct _ _).mp (by decide +kernel)

/-- From an origin of minus one second a stream that meets every condition is refused at
the seam. -/
theorem not_chain_advances_negative_origin :
    (reorderedPts (-1000)).Nodup ∧ ReorderDepthAtMost 2 (reorderedPts (-1000)) ∧
      (Duration.fromMicros (clampI64 40000)).toTicks milliseconds = some (clampI64 40) ∧
      ¬ Advances (chainResults (demuxSide 1 0 2 ⟨0⟩) (muxSide 1 0 2 ⟨0⟩ FormatOptions.default)
        milliseconds milliseconds Rational.MICROSECONDS
        ((reorderedPts (-1000)).map framePacket)) := by
  refine ⟨by decide +kernel, by decide +kernel, by decide +kernel, ?_⟩
  intro h
  have hrefused : ∃ q, (chainResults (demuxSide 1 0 2 ⟨0⟩)
      (muxSide 1 0 2 ⟨0⟩ FormatOptions.default) milliseconds milliseconds Rational.MICROSECONDS
      ((reorderedPts (-1000)).map framePacket))[2]? = some (q, .error (.invalidData
        "non-monotonic dts: this container requires strictly increasing timestamps")) :=
    ⟨_, rfl⟩
  rcases hrefused with ⟨q, hq⟩
  exact h.1 _ (List.mem_of_getElem? hq) _ rfl (Or.inl rfl)

end Format
end Vaco
