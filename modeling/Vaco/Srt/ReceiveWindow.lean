import Mathlib.Tactic
import Vaco.Library.BitStream

/-!
# The SRT receive window

The receiving side of the ARQ engine: a reorder buffer, a list of missing
sequence numbers with the time each was first noticed missing, and the number
expected next.  Arrivals fill the two maps, a tick delivers and drops from the
front.

Main results:

- `ReceiveWindow.onTick_spec`: what one tick delivers and drops, in closed form over the two maps
  the window held.

Current gaps:

- Time is a natural number of milliseconds; the addition to the highest
  sequence number is the one of the naturals, so statements about runs bound the
  sequence numbers.
-/

namespace Vaco
namespace Srt

open Library.BitStream

/-- The largest value of a 32-bit unsigned integer. -/
def u32Max : ℕ := 4294967295

/-- Counters of a receive window. -/
structure ReceiveStats where
  packetsDelivered : ℕ
  packetsDropped : ℕ
  bytesDelivered : ℕ
  deriving DecidableEq, Repr

/-- What one tick reports. -/
structure ReceiveTick where
  delivered : List (ℕ × Bytes)
  dropped : List ℕ
  renak : List ℕ
  deriving DecidableEq, Repr

/-- A tick that has nothing to report. -/
def ReceiveTick.default : ReceiveTick where
  delivered := []
  dropped := []
  renak := []

/-- The receiver's loss detector, reorder buffer and delivery gate. -/
structure ReceiveWindow where
  latencyMs : ℕ
  nextExpected : ℕ
  highestSeen : Option ℕ
  lossList : Std.ExtTreeMap ℕ ℕ
  buffered : Std.ExtTreeMap ℕ Bytes
  stats : ReceiveStats

namespace ReceiveWindow

/-- A fresh window. -/
def new (latencyMs firstExpectedSeqNo : ℕ) : ReceiveWindow where
  latencyMs := latencyMs
  nextExpected := firstExpectedSeqNo
  highestSeen := none
  lossList := ∅
  buffered := ∅
  stats := ⟨0, 0, 0⟩

/-- The numbers of a gap after the highest seen that are neither buffered nor known lost. -/
def newLosses (buffered : Std.ExtTreeMap ℕ Bytes) (lossList : Std.ExtTreeMap ℕ ℕ)
    (highestSeen : Option ℕ) (seqNo : ℕ) : List ℕ :=
  match highestSeen with
  | some highest =>
    if highest + 1 < seqNo then
      (List.range' (highest + 1) (seqNo - (highest + 1))).filter fun missing =>
        (buffered[missing]?).isNone && (lossList[missing]?).isNone
    else
      []
  | none => []

/-- Feed one arrived data packet; the numbers newly noticed missing come back. -/
def onData (w : ReceiveWindow) (seqNo : ℕ) (payload : Bytes) (nowMs : ℕ) :
    ReceiveWindow × List ℕ :=
  if seqNo < w.nextExpected then
    (w, [])
  else
    let buffered := w.buffered.insert seqNo payload
    let lossList := w.lossList.erase seqNo
    let losses := newLosses buffered lossList w.highestSeen seqNo
    ({ w with
        buffered := buffered
        lossList := losses.foldl (fun list missing => list.insert missing nowMs) lossList
        highestSeen := some (w.highestSeen.elim seqNo fun highest => max highest seqNo) },
      losses)

def deliver (w : ReceiveWindow) (payload : Bytes) : ReceiveWindow :=
  { w with
    buffered := w.buffered.erase w.nextExpected
    lossList := w.lossList.erase w.nextExpected
    nextExpected := min (w.nextExpected + 1) u32Max
    stats :=
      { w.stats with
        packetsDelivered := w.stats.packetsDelivered + 1
        bytesDelivered := w.stats.bytesDelivered + payload.length } }

/-- The window after the next number was given up. -/
def drop (w : ReceiveWindow) : ReceiveWindow :=
  { w with
    lossList := w.lossList.erase w.nextExpected
    nextExpected := min (w.nextExpected + 1) u32Max
    stats :=
      { w.stats with
        packetsDropped := w.stats.packetsDropped + 1 } }

def tickLoop (nowMs : ℕ) : ℕ → ReceiveWindow → ReceiveTick → ReceiveWindow × ReceiveTick
  | 0, w, tick => (w, tick)
  | fuel + 1, w, tick =>
    match w.buffered[w.nextExpected]? with
    | some payload =>
      tickLoop nowMs fuel (w.deliver payload)
        { tick with delivered := tick.delivered ++ [(w.nextExpected, payload)] }
    | none =>
      match w.lossList[w.nextExpected]? with
      | some detectedAt =>
        if w.latencyMs ≤ nowMs - detectedAt then
          tickLoop nowMs fuel w.drop { tick with dropped := tick.dropped ++ [w.nextExpected] }
        else
          (w, tick)
      | none => (w, tick)

/-- Deliver everything ready, drop everything too late, and report what still needs a NAK. -/
def onTick (w : ReceiveWindow) (nowMs : ℕ) : ReceiveWindow × ReceiveTick :=
  let result := tickLoop nowMs (w.buffered.size + w.lossList.size) w ReceiveTick.default
  (result.1, { result.2 with renak := result.1.lossList.keys })

/-! ## Arrivals -/

theorem mem_newLosses {buffered : Std.ExtTreeMap ℕ Bytes}
    {lossList : Std.ExtTreeMap ℕ ℕ} {highestSeen : Option ℕ} {seqNo k : ℕ} :
    k ∈ newLosses buffered lossList highestSeen seqNo ↔
      (∃ highest, highestSeen = some highest ∧ highest < k) ∧ k < seqNo ∧
        buffered[k]? = none ∧ lossList[k]? = none := by
  rcases highestSeen with _ | highest
  · simp [newLosses]
  · unfold newLosses
    dsimp only
    split
    · simp only [List.mem_filter, List.mem_range'_1, Bool.and_eq_true,
        Option.isNone_iff_eq_none]
      constructor
      · rintro ⟨⟨hlow, hhigh⟩, hbuffered, hloss⟩
        exact ⟨⟨highest, rfl, by omega⟩, by omega, hbuffered, hloss⟩
      · rintro ⟨⟨top, htop, hlow⟩, hhigh, hbuffered, hloss⟩
        obtain rfl := Option.some.inj htop
        exact ⟨⟨by omega, by omega⟩, hbuffered, hloss⟩
    · constructor
      · intro hk
        exact absurd hk (by simp)
      · rintro ⟨⟨top, htop, hlow⟩, hhigh, -, -⟩
        obtain rfl := Option.some.inj htop
        omega

theorem foldl_insert_getElem? (losses : List ℕ) (list : Std.ExtTreeMap ℕ ℕ) (nowMs k : ℕ) :
    (losses.foldl (fun list missing => list.insert missing nowMs) list)[k]? =
      if k ∈ losses then some nowMs else list[k]? := by
  induction losses generalizing list with
  | nil => simp
  | cons missing losses ih =>
    rw [List.foldl_cons, ih, Std.ExtTreeMap.getElem?_insert]
    by_cases hmem : k ∈ losses
    · simp [hmem]
    · by_cases hk : missing = k
      · simp [hk]
      · have hk' : ¬ k = missing := fun h => hk h.symm
        simp [hmem, hk, hk']

theorem onData_stale {w : ReceiveWindow} {seqNo : ℕ} (h : seqNo < w.nextExpected)
    (payload : Bytes) (nowMs : ℕ) : w.onData seqNo payload nowMs = (w, []) :=
  if_pos h

@[simp]
theorem onData_nextExpected (w : ReceiveWindow) (seqNo : ℕ) (payload : Bytes) (nowMs : ℕ) :
    (w.onData seqNo payload nowMs).1.nextExpected = w.nextExpected := by
  unfold onData
  split
  · rfl
  · rfl

@[simp]
theorem onData_latencyMs (w : ReceiveWindow) (seqNo : ℕ) (payload : Bytes) (nowMs : ℕ) :
    (w.onData seqNo payload nowMs).1.latencyMs = w.latencyMs := by
  unfold onData
  split
  · rfl
  · rfl

section Accepted

variable {w : ReceiveWindow} {seqNo : ℕ} (h : w.nextExpected ≤ seqNo) (payload : Bytes)
  (nowMs : ℕ)

include h

theorem onData_highestSeen :
    (w.onData seqNo payload nowMs).1.highestSeen =
      some (w.highestSeen.elim seqNo fun highest => max highest seqNo) := by
  unfold onData
  rw [if_neg (by omega)]

/-- The buffer after a packet that is not stale. -/
theorem onData_buffered (k : ℕ) :
    (w.onData seqNo payload nowMs).1.buffered[k]? =
      if seqNo = k then some payload else w.buffered[k]? := by
  unfold onData
  rw [if_neg (by omega)]
  simp [Std.ExtTreeMap.getElem?_insert]

/-- A packet's own number leaves the loss list, and unknown ones between it and the highest seen
enter. -/
theorem onData_lossList (k : ℕ) :
    (w.onData seqNo payload nowMs).1.lossList[k]? =
      if (∃ highest, w.highestSeen = some highest ∧ highest < k) ∧ k < seqNo ∧
          w.buffered[k]? = none ∧ w.lossList[k]? = none then some nowMs
      else if k = seqNo then none else w.lossList[k]? := by
  have herase : (w.lossList.erase seqNo)[k]? = if k = seqNo then none else w.lossList[k]? := by
    by_cases hk : seqNo = k
    · simp [hk]
    · have hk' : ¬ k = seqNo := fun h => hk h.symm
      simp [Std.ExtTreeMap.getElem?_erase, hk, hk']
  have hmem : k ∈ newLosses (w.buffered.insert seqNo payload) (w.lossList.erase seqNo)
        w.highestSeen seqNo ↔
      (∃ highest, w.highestSeen = some highest ∧ highest < k) ∧ k < seqNo ∧
        w.buffered[k]? = none ∧ w.lossList[k]? = none := by
    rw [mem_newLosses, herase, Std.ExtTreeMap.getElem?_insert]
    constructor
    · rintro ⟨hhighest, hhigh, hbuffered, hloss⟩
      have hk : ¬ k = seqNo := by omega
      have hk' : ¬ seqNo = k := by omega
      exact ⟨hhighest, hhigh, by simpa [hk'] using hbuffered, by simpa [hk] using hloss⟩
    · rintro ⟨hhighest, hhigh, hbuffered, hloss⟩
      have hk : ¬ k = seqNo := by omega
      have hk' : ¬ seqNo = k := by omega
      exact ⟨hhighest, hhigh, by simpa [hk'] using hbuffered, by simpa [hk] using hloss⟩
  unfold onData
  rw [if_neg (by omega)]
  dsimp only
  rw [foldl_insert_getElem?, herase]
  simp only [hmem]

end Accepted

/-! ## Ticks -/

/-- The window's maps are what `arrived` and `missing` say from the next expected number on. -/
structure Shows (w : ReceiveWindow) (arrived : ℕ → Option Bytes)
    (missing : ℕ → Option ℕ) : Prop where
  buffered : ∀ k, w.buffered[k]? = if w.nextExpected ≤ k then arrived k else none
  lossList : ∀ k, w.lossList[k]? = if w.nextExpected ≤ k then missing k else none
  bounded : ∀ k, (arrived k).isSome ∨ (missing k).isSome → k < u32Max
  apart : ∀ k, (arrived k).isSome → missing k = none

/-- The window waits: its next number has not arrived and may not be dropped. -/
def Rests (w : ReceiveWindow) (nowMs : ℕ) : Prop :=
  w.buffered[w.nextExpected]? = none ∧
    ∀ detectedAt, w.lossList[w.nextExpected]? = some detectedAt →
      nowMs - detectedAt < w.latencyMs

def deliveredOf (arrived : ℕ → Option Bytes) (numbers : List ℕ) : List (ℕ × Bytes) :=
  numbers.filterMap fun k => (arrived k).map fun payload => (k, payload)

/-- The numbers dropped from a stretch. -/
def droppedOf (arrived : ℕ → Option Bytes) (numbers : List ℕ) : List ℕ :=
  numbers.filter fun k => (arrived k).isNone

theorem deliveredOf_numbers (arrived : ℕ → Option Bytes) (numbers : List ℕ) :
    (deliveredOf arrived numbers).map Prod.fst = numbers.filter fun k => (arrived k).isSome := by
  induction numbers with
  | nil => rfl
  | cons k numbers ih =>
    unfold deliveredOf at ih ⊢
    rcases harrived : arrived k with _ | payload
    · simp [harrived, ih]
    · simp [harrived, ih]

/-- What the tick loop does, from the number `start` to the window's next
expected one. -/
structure Swept (arrived : ℕ → Option Bytes) (missing : ℕ → Option ℕ) (nowMs : ℕ)
    (w : ReceiveWindow) (tick : ReceiveTick) (w' : ReceiveWindow) (tick' : ReceiveTick) : Prop where
  advanced : w.nextExpected ≤ w'.nextExpected
  shows : w'.Shows arrived missing
  delivered : tick'.delivered = tick.delivered ++
    deliveredOf arrived (List.range' w.nextExpected (w'.nextExpected - w.nextExpected))
  dropped : tick'.dropped = tick.dropped ++
    droppedOf arrived (List.range' w.nextExpected (w'.nextExpected - w.nextExpected))
  overdue : ∀ k, w.nextExpected ≤ k → k < w'.nextExpected → arrived k = none →
    ∃ detectedAt, missing k = some detectedAt ∧ w.latencyMs ≤ nowMs - detectedAt
  latencyMs : w'.latencyMs = w.latencyMs
  highestSeen : w'.highestSeen = w.highestSeen

section Loop

variable {arrived : ℕ → Option Bytes} {missing : ℕ → Option ℕ} {w : ReceiveWindow}
  {nowMs : ℕ}

/-- A pass that delivers keeps showing the same two maps. -/
theorem Shows.deliver (h : w.Shows arrived missing) {payload : Bytes}
    (hnext : w.buffered[w.nextExpected]? = some payload) :
    (w.deliver payload).nextExpected = w.nextExpected + 1 ∧
      (w.deliver payload).Shows arrived missing := by
  have harrived : arrived w.nextExpected = some payload := by
    rw [h.buffered, if_pos le_rfl] at hnext
    exact hnext
  have hbound := h.bounded w.nextExpected (Or.inl (by rw [harrived]; rfl))
  have hnext' : (w.deliver payload).nextExpected = w.nextExpected + 1 := by
    change min (w.nextExpected + 1) u32Max = _
    omega
  refine ⟨hnext', ⟨?_, ?_, h.bounded, h.apart⟩⟩
  · intro k
    rw [hnext']
    change (w.buffered.erase w.nextExpected)[k]? = _
    rw [Std.ExtTreeMap.getElem?_erase, h.buffered]
    grind
  · intro k
    rw [hnext']
    change (w.lossList.erase w.nextExpected)[k]? = _
    rw [Std.ExtTreeMap.getElem?_erase, h.lossList]
    grind

/-- A pass that drops keeps showing the same two maps. -/
theorem Shows.drop (h : w.Shows arrived missing) {detectedAt : ℕ}
    (hbuffered : w.buffered[w.nextExpected]? = none)
    (hloss : w.lossList[w.nextExpected]? = some detectedAt) :
    w.drop.nextExpected = w.nextExpected + 1 ∧ w.drop.Shows arrived missing := by
  rw [h.lossList, if_pos le_rfl] at hloss
  rw [h.buffered, if_pos le_rfl] at hbuffered
  have hbound := h.bounded w.nextExpected (Or.inr (by rw [hloss]; rfl))
  have hnext' : w.drop.nextExpected = w.nextExpected + 1 := by
    change min (w.nextExpected + 1) u32Max = _
    omega
  refine ⟨hnext', ⟨?_, ?_, h.bounded, h.apart⟩⟩
  · intro k
    rw [hnext']
    change w.buffered[k]? = _
    rw [h.buffered]
    grind
  · intro k
    rw [hnext']
    change (w.lossList.erase w.nextExpected)[k]? = _
    rw [Std.ExtTreeMap.getElem?_erase, h.lossList]
    grind

theorem range'_sweep {start stop : ℕ} (h : start + 1 ≤ stop) :
    List.range' start (stop - start) = start :: List.range' (start + 1) (stop - (start + 1)) := by
  have hlength : stop - start = (stop - (start + 1)) + 1 := by omega
  rw [hlength, List.range'_succ]

/-- The tick loop sweeps a stretch of numbers. -/
theorem tickLoop_swept (fuel : ℕ) (h : w.Shows arrived missing) (tick : ReceiveTick) :
    Swept arrived missing nowMs w tick (tickLoop nowMs fuel w tick).1
      (tickLoop nowMs fuel w tick).2 := by
  induction fuel generalizing w tick with
  | zero => exact ⟨le_rfl, h, by simp [tickLoop, deliveredOf], by simp [tickLoop, droppedOf],
      fun k hlow hhigh => absurd hhigh (by simpa [tickLoop] using hlow), rfl, rfl⟩
  | succ fuel ih =>
    have hstay : Swept arrived missing nowMs w tick w tick :=
      ⟨le_rfl, h, by simp [deliveredOf], by simp [droppedOf],
        fun k hlow hhigh => absurd hhigh (by omega), rfl, rfl⟩
    unfold tickLoop
    rcases hbuffered : w.buffered[w.nextExpected]? with _ | payload
    · rcases hloss : w.lossList[w.nextExpected]? with _ | detectedAt
      · exact hstay
      · dsimp only
        by_cases hlate : w.latencyMs ≤ nowMs - detectedAt
        · rw [if_pos hlate]
          rcases h.drop hbuffered hloss with ⟨hnext, hshows⟩
          have hrest := ih hshows { tick with dropped := tick.dropped ++ [w.nextExpected] }
          have hadvanced := hrest.advanced
          rw [hnext] at hadvanced
          have harrived : arrived w.nextExpected = none := by
            rw [h.buffered, if_pos le_rfl] at hbuffered
            exact hbuffered
          have hmissing : missing w.nextExpected = some detectedAt := by
            rw [h.lossList, if_pos le_rfl] at hloss
            exact hloss
          refine ⟨by omega, hrest.shows, ?_, ?_, ?_, hrest.latencyMs, hrest.highestSeen⟩
          · rw [hrest.delivered, hnext, range'_sweep hadvanced]
            simp [deliveredOf, harrived]
          · rw [hrest.dropped, hnext, range'_sweep hadvanced]
            simp [droppedOf, harrived]
          · intro k hlow hhigh hk
            rcases Nat.eq_or_lt_of_le hlow with heq | hlt
            · exact ⟨detectedAt, heq ▸ hmissing, hlate⟩
            · exact hrest.overdue k (by omega) hhigh hk
        · rw [if_neg hlate]
          exact hstay
    · dsimp only
      rcases h.deliver hbuffered with ⟨hnext, hshows⟩
      have hrest := ih hshows
        { tick with delivered := tick.delivered ++ [(w.nextExpected, payload)] }
      have hadvanced := hrest.advanced
      rw [hnext] at hadvanced
      have harrived : arrived w.nextExpected = some payload := by
        rw [h.buffered, if_pos le_rfl] at hbuffered
        exact hbuffered
      refine ⟨by omega, hrest.shows, ?_, ?_, ?_, hrest.latencyMs, hrest.highestSeen⟩
      · rw [hrest.delivered, hnext, range'_sweep hadvanced]
        simp [deliveredOf, harrived]
      · rw [hrest.dropped, hnext, range'_sweep hadvanced]
        simp [droppedOf, harrived]
      · intro k hlow hhigh hk
        rcases Nat.eq_or_lt_of_le hlow with heq | hlt
        · rw [← heq, harrived] at hk
          exact absurd hk (by simp)
        · exact hrest.overdue k (by omega) hhigh hk

theorem size_erase_lt {β : Type} {map : Std.ExtTreeMap ℕ β} {k : ℕ} {value : β}
    (h : map[k]? = some value) : (map.erase k).size < map.size := by
  have hmem : map.contains k = true := by
    rw [← Std.ExtTreeMap.isSome_getElem?_eq_contains, h]
    rfl
  have hpos : map.size ≠ 0 := by
    intro hzero
    rw [Std.ExtTreeMap.eq_empty_iff_size_eq_zero.mpr hzero] at h
    simp at h
  rw [Std.ExtTreeMap.size_erase, if_pos hmem]
  omega

/-- With a bound that covers both maps the loop stops by itself. -/
theorem tickLoop_rests (fuel : ℕ) (w : ReceiveWindow) (tick : ReceiveTick)
    (hfuel : w.buffered.size + w.lossList.size ≤ fuel) :
    (tickLoop nowMs fuel w tick).1.Rests nowMs := by
  induction fuel generalizing w tick with
  | zero =>
    have hbuffered : w.buffered = ∅ := Std.ExtTreeMap.eq_empty_iff_size_eq_zero.mpr (by omega)
    have hloss : w.lossList = ∅ := Std.ExtTreeMap.eq_empty_iff_size_eq_zero.mpr (by omega)
    simp [tickLoop, Rests, hbuffered, hloss]
  | succ fuel ih =>
    unfold tickLoop
    rcases hbuffered : w.buffered[w.nextExpected]? with _ | payload
    · rcases hloss : w.lossList[w.nextExpected]? with _ | detectedAt
      · exact ⟨hbuffered, by simp [hloss]⟩
      · dsimp only
        by_cases hlate : w.latencyMs ≤ nowMs - detectedAt
        · rw [if_pos hlate]
          apply ih
          have hsize := size_erase_lt hloss
          change w.buffered.size + (w.lossList.erase w.nextExpected).size ≤ fuel
          omega
        · rw [if_neg hlate]
          refine ⟨hbuffered, fun detected hdetected => ?_⟩
          rw [hloss] at hdetected
          obtain rfl := Option.some.inj hdetected
          exact not_le.mp hlate
    · dsimp only
      apply ih
      have hsize := size_erase_lt hbuffered
      have hle := Std.ExtTreeMap.size_erase_le (t := w.lossList) (k := w.nextExpected)
      change (w.buffered.erase w.nextExpected).size + (w.lossList.erase w.nextExpected).size ≤ fuel
      omega

/-- One tick: a stretch of numbers from the front is delivered or dropped, and
the window rests. -/
theorem onTick_spec (h : w.Shows arrived missing) (nowMs : ℕ) :
    Swept arrived missing nowMs w ReceiveTick.default (w.onTick nowMs).1 (w.onTick nowMs).2 ∧
      (w.onTick nowMs).1.Rests nowMs ∧
      (w.onTick nowMs).2.renak = (w.onTick nowMs).1.lossList.keys := by
  have hswept := @tickLoop_swept arrived missing w nowMs
    (w.buffered.size + w.lossList.size) h ReceiveTick.default
  have hrests := @tickLoop_rests nowMs (w.buffered.size + w.lossList.size) w
    ReceiveTick.default le_rfl
  exact ⟨⟨hswept.advanced, hswept.shows, hswept.delivered, hswept.dropped, hswept.overdue,
    hswept.latencyMs, hswept.highestSeen⟩, hrests, rfl⟩

end Loop

end ReceiveWindow

end Srt
end Vaco
