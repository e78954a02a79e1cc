import Vaco.Library.Timeline
import Vaco.Rist.ReceiveBuffer

/-!
# Runs of the RIST receive buffer

A run feeds an empty buffer packets and ticks.  The buffer keeps one clock for
the gap at its head; the log of calls knows the time each number was first
missing.  As long as the clock shows the time of the head, ticks drop exactly
the numbers whose time has run out.

Main results:

- `BufferRun.keeps`: what timely calls keep.
- `buffer_drops_at_deadline`: what such a run reports and drops.

Current gaps:

- A run that leaves the clock wrong may still drop at the deadline, when no tick
  comes while the clock is wrong; the condition does not cover such runs.
-/

namespace Vaco
namespace Rist

open Library Library.BitStream Library.Timeline

/-- A call of the driver on a receive buffer. -/
abbrev BufferCall := Call Bytes

/-- A receive buffer with every event reported so far. -/
structure BufferRun where
  buffer : ReceiveBuffer
  events : List BufferEvent

namespace ReceiveBuffer

/-- One call on the buffer. -/
def onCall (b : ReceiveBuffer) : BufferCall → ReceiveBuffer × List BufferEvent
  | .arrival seq payload nowMs => b.onPacket seq payload nowMs
  | .tick nowMs => b.onTick nowMs

end ReceiveBuffer

namespace BufferRun

/-- One call of a run. -/
def step (s : BufferRun) (call : BufferCall) : BufferRun where
  buffer := (s.buffer.onCall call).1
  events := s.events ++ (s.buffer.onCall call).2

/-- A run of an empty buffer. -/
def after (totalMs start : ℕ) (calls : List BufferCall) : BufferRun :=
  calls.foldl step ⟨ReceiveBuffer.new totalMs start, []⟩

theorem after_append_singleton (totalMs start : ℕ) (calls : List BufferCall)
    (call : BufferCall) :
    after totalMs start (calls ++ [call]) = (after totalMs start calls).step call := by
  simp [after]

end BufferRun

/-! ## The clock shows the time of the head -/

/-- What waits is what arrived from the head on, and the clock shows when the head was first
missing. -/
structure OnTime (calls : List BufferCall) (b : ReceiveBuffer) : Prop where
  holds : b.Holds (lastPayload calls)
  waits : lastPayload calls b.nextDeliver = none
  clock : b.gapOpenedAtMs = firstBeyond calls b.nextDeliver

/-- What a call does to a buffer that is on time. -/
structure Moves (calls : List BufferCall) (b b' : ReceiveBuffer) (events : List BufferEvent) :
    Prop where
  onTime : OnTime calls b'
  advanced : b.nextDeliver ≤ b'.nextDeliver
  events : events = ReceiveBuffer.eventsOf (lastPayload calls) b.nextDeliver b'.nextDeliver
  totalMs : b'.totalMs = b.totalMs

/-- The packet that closes the gap at the head opens no view on a gap that was
first missing at another time. -/
def ClosesInStep (calls : List BufferCall) (b : ReceiveBuffer) (seq : ℕ) : Prop :=
  seq = b.nextDeliver → ∀ m, seq < m → lastPayload calls m = none →
    (∀ j, seq < j → j < m → (lastPayload calls j).isSome) →
    firstBeyond calls m = none ∨ firstBeyond calls m = firstBeyond calls seq

/-- A tick that gives up on the head finds no second gap among the packets that
wait. -/
def DropsLastGap (calls : List BufferCall) (b : ReceiveBuffer) (nowMs : ℕ) : Prop :=
  (∃ since, firstBeyond calls b.nextDeliver = some since ∧ b.totalMs ≤ nowMs - since) →
    ∀ j m, b.nextDeliver < j → j < m → (lastPayload calls j).isSome →
      lastPayload calls m = none → firstBeyond calls m = none

/-- A call that leaves the clock right. -/
def LeavesClockRight (calls : List BufferCall) (b : ReceiveBuffer) : BufferCall → Prop
  | .arrival seq _ _ => ClosesInStep calls b seq
  | .tick nowMs => DropsLastGap calls b nowMs

section Steps

variable {calls : List BufferCall} {b : ReceiveBuffer}

theorem OnTime.stale (h : OnTime calls b) {seq nowMs : ℕ} {payload : Bytes}
    (hseq : seq < b.nextDeliver) :
    Moves (calls ++ [.arrival seq payload nowMs]) b (b.onPacket seq payload nowMs).1
      (b.onPacket seq payload nowMs).2 := by
  have hpacket : b.onPacket seq payload nowMs = (b, []) := if_pos hseq
  rw [hpacket]
  dsimp only
  refine ⟨⟨?_, ?_, ?_⟩, le_rfl, (ReceiveBuffer.eventsOf_self _ _).symm, rfl⟩
  · intro k
    rw [h.holds k, lastPayload_append_arrival]
    grind
  · rw [lastPayload_append_arrival, if_neg (by omega)]
    exact h.waits
  · rw [firstBeyond_append_arrival, if_neg (by omega), Option.or_none]
    exact h.clock

theorem OnTime.insert_holds (h : OnTime calls b) {seq nowMs : ℕ} {payload : Bytes}
    (hseq : b.nextDeliver ≤ seq) (gap : Option ℕ) :
    ReceiveBuffer.Holds
      { b with
        pending := b.pending.insert seq payload
        gapOpenedAtMs := gap }
      (lastPayload (calls ++ [.arrival seq payload nowMs])) := by
  intro k
  change (b.pending.insert seq payload)[k]? = if b.nextDeliver ≤ k then _ else none
  rw [Std.ExtTreeMap.getElem?_insert, h.holds k, lastPayload_append_arrival]
  grind

/-- A packet beyond the head waits, and starts the clock if it was off. -/
theorem OnTime.ahead (h : OnTime calls b) {seq nowMs : ℕ} {payload : Bytes}
    (hseq : b.nextDeliver < seq) :
    Moves (calls ++ [.arrival seq payload nowMs]) b (b.onPacket seq payload nowMs).1
      (b.onPacket seq payload nowMs).2 := by
  have hpacket : b.onPacket seq payload nowMs = ReceiveBuffer.drainReady
      { b with
        pending := b.pending.insert seq payload
        gapOpenedAtMs :=
          if b.nextDeliver < seq ∧ b.gapOpenedAtMs = none then some nowMs
          else b.gapOpenedAtMs } := if_neg (by omega)
  have hwaits : lastPayload (calls ++ [.arrival seq payload nowMs]) b.nextDeliver = none := by
    rw [lastPayload_append_arrival, if_neg (by omega)]
    exact h.waits
  rcases ReceiveBuffer.drainReady_spec (h.insert_holds hseq.le _) with ⟨hdrained, hon, -⟩
  rw [← hpacket] at hdrained hon
  have hadvanced := hdrained.advanced
  change b.nextDeliver ≤ _ at hadvanced
  have hnext : (b.onPacket seq payload nowMs).1.nextDeliver = b.nextDeliver := by
    by_contra hne
    have hsome := hdrained.ready b.nextDeliver le_rfl (by omega)
    rw [hwaits] at hsome
    exact absurd hsome (by simp)
  have harrived : (lastPayload (calls ++ [.arrival seq payload nowMs]) seq).isSome := by
    rw [lastPayload_append_arrival, if_pos rfl]
    rfl
  refine ⟨⟨hdrained.holds, hdrained.waits, ?_⟩, hadvanced, hdrained.events, hdrained.totalMs⟩
  rw [hon ⟨seq, by omega, harrived⟩, hnext, firstBeyond_append_arrival, if_pos hseq]
  dsimp only
  rw [h.clock]
  rcases firstBeyond calls b.nextDeliver with _ | since
  · simp [hseq]
  · simp

/-- The packet at the head is delivered with the run behind it. -/
theorem OnTime.head (h : OnTime calls b) {nowMs : ℕ} {payload : Bytes}
    (hcloses : ClosesInStep calls b b.nextDeliver) :
    Moves (calls ++ [.arrival b.nextDeliver payload nowMs]) b
      (b.onPacket b.nextDeliver payload nowMs).1 (b.onPacket b.nextDeliver payload nowMs).2 := by
  have hpacket : b.onPacket b.nextDeliver payload nowMs = ReceiveBuffer.drainReady
      { b with
        pending := b.pending.insert b.nextDeliver payload
        gapOpenedAtMs :=
          if b.nextDeliver < b.nextDeliver ∧ b.gapOpenedAtMs = none then some nowMs
          else b.gapOpenedAtMs } := if_neg (lt_irrefl _)
  rcases ReceiveBuffer.drainReady_spec
    (@OnTime.insert_holds calls b h b.nextDeliver nowMs payload le_rfl _) with
    ⟨hdrained, hon, hoff⟩
  rw [← hpacket] at hdrained hon hoff
  have hadvanced := hdrained.advanced
  change b.nextDeliver ≤ _ at hadvanced
  have hbeyond : b.nextDeliver < (b.onPacket b.nextDeliver payload nowMs).1.nextDeliver := by
    by_contra hle
    have heq : (b.onPacket b.nextDeliver payload nowMs).1.nextDeliver = b.nextDeliver := by omega
    have hnone := hdrained.waits
    rw [heq, lastPayload_append_arrival, if_pos rfl] at hnone
    exact absurd hnone (by simp)
  have hold : ∀ k, b.nextDeliver < k →
      lastPayload (calls ++ [.arrival b.nextDeliver payload nowMs]) k = lastPayload calls k := by
    intro k hk
    rw [lastPayload_append_arrival, if_neg (by omega)]
  refine ⟨⟨hdrained.holds, hdrained.waits, ?_⟩, hadvanced, hdrained.events, hdrained.totalMs⟩
  have hnew : firstBeyond (calls ++ [.arrival b.nextDeliver payload nowMs])
        (b.onPacket b.nextDeliver payload nowMs).1.nextDeliver =
      firstBeyond calls (b.onPacket b.nextDeliver payload nowMs).1.nextDeliver := by
    rw [firstBeyond_append_arrival, if_neg (by omega), Option.or_none]
  rw [hnew]
  have hcase := hcloses rfl _ hbeyond ((hold _ hbeyond).symm.trans hdrained.waits) fun j hj hlt => by
    rw [← hold j hj]
    exact hdrained.ready j hj.le hlt
  by_cases hwaits : ∃ q, (b.onPacket b.nextDeliver payload nowMs).1.nextDeliver < q ∧
      (lastPayload (calls ++ [.arrival b.nextDeliver payload nowMs]) q).isSome
  · rw [hon hwaits]
    rw [← firstBeyond_isSome, hnew] at hwaits
    rcases hcase with hnone | hsame
    · rw [hnone] at hwaits
      exact absurd hwaits (by simp)
    · rw [hsame]
      simp [h.clock]
  · rw [hoff hwaits]
    rw [← firstBeyond_isSome, hnew, Bool.not_eq_true, Option.isSome_eq_false_iff,
      Option.isNone_iff_eq_none] at hwaits
    exact hwaits.symm

theorem OnTime.append_tick (h : OnTime calls b) (nowMs : ℕ) :
    OnTime (calls ++ [.tick nowMs]) b := by
  refine ⟨fun k => ?_, ?_, ?_⟩
  · rw [lastPayload_append_tick]
    exact h.holds k
  · rw [lastPayload_append_tick]
    exact h.waits
  · rw [firstBeyond_append_tick]
    exact h.clock

theorem OnTime.skip_holds (h : OnTime calls b) (gap : Option ℕ) :
    ReceiveBuffer.Holds
      { b with
        nextDeliver := b.nextDeliver + 1
        gapOpenedAtMs := gap }
      (lastPayload calls) := by
  intro k
  change b.pending[k]? = if b.nextDeliver + 1 ≤ k then _ else none
  have hwaits := h.waits
  rw [h.holds k]
  grind

/-- Behind a given-up head the run drains and the clock goes off, or the gap goes on. -/
theorem OnTime.dropHead (h : OnTime calls b) {since : ℕ}
    (hsince : firstBeyond calls b.nextDeliver = some since)
    (hlast : ∀ j m, b.nextDeliver < j → j < m → (lastPayload calls j).isSome →
      lastPayload calls m = none → firstBeyond calls m = none) :
    Moves calls b (b.dropHead since).1 (b.dropHead since).2 ∧
      b.nextDeliver < (b.dropHead since).1.nextDeliver ∧
      (∀ k, b.nextDeliver < k → k < (b.dropHead since).1.nextDeliver →
        (lastPayload calls k).isSome) ∧
      ((b.dropHead since).1.gapOpenedAtMs = none ∨ (b.dropHead since).1.reach < b.reach) := by
  have hdropped : ReceiveBuffer.eventOf (lastPayload calls) b.nextDeliver =
      .dropped b.nextDeliver := by
    simp [ReceiveBuffer.eventOf, h.waits]
  have hcontains : b.pending.contains (b.nextDeliver + 1) =
      (lastPayload calls (b.nextDeliver + 1)).isSome := by
    rw [← Std.ExtTreeMap.isSome_getElem?_eq_contains, h.holds, if_pos (by omega)]
  rcases ReceiveBuffer.drainReady_spec (h.skip_holds
      (if b.pending.contains (b.nextDeliver + 1) then none
        else if b.waitsBeyond (b.nextDeliver + 1) then some since else none)) with
    ⟨hdrained, hon, hoff⟩
  have hadvanced := hdrained.advanced
  change b.nextDeliver + 1 ≤ (b.dropHead since).1.nextDeliver at hadvanced
  have hevents : (b.dropHead since).2 = ReceiveBuffer.eventsOf (lastPayload calls) b.nextDeliver
      (b.dropHead since).1.nextDeliver := by
    rw [ReceiveBuffer.eventsOf_cons _ hadvanced, hdropped]
    exact congrArg _ hdrained.events
  rcases harrived : lastPayload calls (b.nextDeliver + 1) with _ | payload
  · -- the gap goes on
    have hsame := (firstBeyond_succ harrived).trans hsince
    have hnext : (b.dropHead since).1.nextDeliver = b.nextDeliver + 1 := by
      by_contra hne
      have hsome := hdrained.ready (b.nextDeliver + 1) le_rfl
        (by change b.nextDeliver + 1 < (b.dropHead since).1.nextDeliver; omega)
      rw [harrived] at hsome
      exact absurd hsome (by simp)
    have hfar : ∃ q, b.nextDeliver + 1 < q ∧ (lastPayload calls q).isSome := by
      rw [← firstBeyond_isSome, hsame]
      rfl
    rcases hfar with ⟨q, hq, hqArrived⟩
    have hwaits : b.waitsBeyond (b.nextDeliver + 1) = true := by
      rw [ReceiveBuffer.waitsBeyond_iff]
      exact ⟨q, hq, by rw [h.holds, if_pos (by omega)]; exact hqArrived⟩
    have hclock : (b.dropHead since).1.gapOpenedAtMs = some since := by
      have hgap : (if b.pending.contains (b.nextDeliver + 1) then none
          else if b.waitsBeyond (b.nextDeliver + 1) then some since else none) = some since := by
        rw [hcontains, harrived, hwaits]
        rfl
      exact (hon ⟨q, by change (b.dropHead since).1.nextDeliver < q; omega, hqArrived⟩).trans hgap
    have hpending : (b.dropHead since).1.pending = b.pending := by
      apply Std.ExtTreeMap.ext_getElem?
      intro k
      have hk := hdrained.holds k
      change (b.dropHead since).1.pending[k]? =
        if (b.dropHead since).1.nextDeliver ≤ k then lastPayload calls k else none at hk
      have hwaiting := h.waits
      rw [hk, hnext, h.holds k]
      grind
    refine ⟨⟨⟨hdrained.holds, hdrained.waits, ?_⟩, by omega, hevents, hdrained.totalMs⟩,
      by omega, fun k hk => hdrained.ready k hk, Or.inr ?_⟩
    · rw [hclock, hnext, hsame]
    · unfold ReceiveBuffer.waitsBeyond at hwaits
      unfold ReceiveBuffer.reach
      rw [hpending, hnext]
      rcases hmax : b.pending.maxKey? with _ | highest
      · rw [hmax] at hwaits
        exact absurd hwaits (by simp)
      · rw [hmax] at hwaits
        have hlt : b.nextDeliver + 1 < highest := by simpa using hwaits
        rw [Option.getD_some, Option.getD_some]
        omega
  · -- the run behind the head drains
    have hbeyond : b.nextDeliver + 1 < (b.dropHead since).1.nextDeliver := by
      by_contra hle
      have heq : (b.dropHead since).1.nextDeliver = b.nextDeliver + 1 := by omega
      have hnone : lastPayload calls (b.dropHead since).1.nextDeliver = none := hdrained.waits
      rw [heq, harrived] at hnone
      exact absurd hnone (by simp)
    have hnone := hlast (b.nextDeliver + 1) _ (by omega) hbeyond (by rw [harrived]; rfl)
      hdrained.waits
    have hclock : (b.dropHead since).1.gapOpenedAtMs = none := by
      apply hoff
      intro hex
      have hsome := firstBeyond_isSome.mpr hex
      change (firstBeyond calls (b.dropHead since).1.nextDeliver).isSome at hsome
      rw [hnone] at hsome
      exact absurd hsome (by simp)
    refine ⟨⟨⟨hdrained.holds, hdrained.waits, ?_⟩, by omega, hevents, hdrained.totalMs⟩,
      by omega, fun k hk => hdrained.ready k hk, Or.inl hclock⟩
    rw [hclock]
    exact hnone.symm

/-- A tick moves the head past numbers that arrived or whose time has run out. -/
theorem OnTime.tickLoop (h : OnTime calls b) {nowMs : ℕ} (fuel : ℕ)
    (hlast : DropsLastGap calls b nowMs)
    (hfuel : b.gapOpenedAtMs = none ∨ b.reach ≤ fuel) :
    Moves calls b (b.tickLoop nowMs fuel).1 (b.tickLoop nowMs fuel).2 ∧
      (b.tickLoop nowMs fuel).1.Rests nowMs ∧
      ∀ k, b.nextDeliver ≤ k → k < (b.tickLoop nowMs fuel).1.nextDeliver →
        lastPayload calls k = none →
        ∃ since, firstBeyond calls k = some since ∧ b.totalMs ≤ nowMs - since := by
  have hstay : Moves calls b b [] :=
    ⟨h, le_rfl, (ReceiveBuffer.eventsOf_self _ _).symm, rfl⟩
  have hnone : ∀ k, b.nextDeliver ≤ k → k < b.nextDeliver → lastPayload calls k = none →
      ∃ since, firstBeyond calls k = some since ∧ b.totalMs ≤ nowMs - since :=
    fun k hlow hhigh => absurd hlow (not_le.mpr hhigh)
  induction fuel generalizing b with
  | zero =>
    refine ⟨hstay, ?_, hnone⟩
    intro openedAt hopened
    change b.gapOpenedAtMs = some openedAt at hopened
    rcases hfuel with hoff | hreach
    · rw [hoff] at hopened
      exact absurd hopened (by simp)
    · unfold ReceiveBuffer.reach at hreach
      omega
  | succ fuel ih =>
    unfold ReceiveBuffer.tickLoop
    rcases hgap : b.gapOpenedAtMs with _ | openedAt
    · refine ⟨hstay, ?_, hnone⟩
      intro openedAt hopened
      exact absurd (hgap.symm.trans hopened) (by simp)
    · dsimp only
      by_cases hyoung : nowMs - openedAt < b.totalMs
      · rw [if_pos hyoung]
        refine ⟨hstay, ?_, hnone⟩
        intro openedAt' hopened
        obtain rfl := Option.some.inj (hgap.symm.trans hopened)
        exact hyoung
      · rw [if_neg hyoung]
        dsimp only
        have hsince : firstBeyond calls b.nextDeliver = some openedAt := h.clock.symm.trans hgap
        have hgaps := hlast ⟨openedAt, hsince, by omega⟩
        rcases h.dropHead hsince hgaps with ⟨hmoves, hlt, hready, hreach⟩
        have hlast' : DropsLastGap calls (b.dropHead openedAt).1 nowMs :=
          fun _ j m hj => hgaps j m (lt_trans hlt hj)
        have hfuel' : (b.dropHead openedAt).1.gapOpenedAtMs = none ∨
            (b.dropHead openedAt).1.reach ≤ fuel := by
          rcases hreach with hoff | hless
          · exact Or.inl hoff
          · rcases hfuel with hoff | hle
            · rw [hgap] at hoff
              exact absurd hoff (by simp)
            · exact Or.inr (by omega)
        rcases ih hmoves.onTime hlast' hfuel'
            ⟨hmoves.onTime, le_rfl, (ReceiveBuffer.eventsOf_self _ _).symm, rfl⟩
            (fun k hlow hhigh => absurd hlow (not_le.mpr hhigh)) with
          ⟨hrest, hrests, hold⟩
        have hadvanced := hrest.advanced
        refine ⟨⟨hrest.onTime, by omega, ?_, hrest.totalMs.trans hmoves.totalMs⟩, hrests, ?_⟩
        · rw [hmoves.events, hrest.events]
          exact ReceiveBuffer.eventsOf_append _ hlt.le hadvanced
        · intro k hlow hhigh hk
          by_cases hpast : (b.dropHead openedAt).1.nextDeliver ≤ k
          · have hexpired := hold k hpast hhigh hk
            rw [hmoves.totalMs] at hexpired
            exact hexpired
          · -- between the old head and the new one only the head is missing
            rcases Nat.eq_or_lt_of_le hlow with rfl | hbeyond
            · exact ⟨openedAt, hsince, by omega⟩
            · have hsome := hready k hbeyond (by omega)
              rw [hk] at hsome
              exact absurd hsome (by simp)

end Steps

/-! ## Runs -/

/-- Every call of a run leaves the clock right. -/
def KeepsClock (totalMs start : ℕ) (calls : List BufferCall) : Prop :=
  ∀ earlier call, earlier ++ [call] <+: calls →
    LeavesClockRight earlier (BufferRun.after totalMs start earlier).buffer call

/-- The state of a run whose clock was kept right. -/
structure Kept (totalMs start : ℕ) (calls : List BufferCall) (s : BufferRun) : Prop where
  onTime : OnTime calls s.buffer
  totalMs : s.buffer.totalMs = totalMs
  low : start ≤ s.buffer.nextDeliver
  numbers : s.events.map BufferEvent.number =
    List.range' start (s.buffer.nextDeliver - start)
  payloads : ∀ k payload, BufferEvent.delivered k payload ∈ s.events →
    ∃ earlier, earlier <+: calls ∧ lastPayload earlier k = some payload

section Runs

variable {totalMs start : ℕ} {calls : List BufferCall} {s : BufferRun}

theorem Kept.mem_numbers (h : Kept totalMs start calls s) {k : ℕ} :
    k ∈ s.events.map BufferEvent.number ↔ start ≤ k ∧ k < s.buffer.nextDeliver := by
  have hlow := h.low
  rw [h.numbers, List.mem_range'_1]
  omega

/-- One call that leaves the clock right. -/
theorem OnTime.onCall {b : ReceiveBuffer} (h : OnTime calls b) (call : BufferCall)
    (hcall : LeavesClockRight calls b call) :
    OnTime (calls ++ [call]) (b.onCall call).1 ∧
      b.nextDeliver ≤ (b.onCall call).1.nextDeliver ∧
      (b.onCall call).1.totalMs = b.totalMs ∧
      (b.onCall call).2 = ReceiveBuffer.eventsOf (lastPayload (calls ++ [call])) b.nextDeliver
        (b.onCall call).1.nextDeliver := by
  rcases call with ⟨seq, payload, nowMs⟩ | nowMs
  · have hmoves : Moves (calls ++ [.arrival seq payload nowMs]) b (b.onPacket seq payload nowMs).1
        (b.onPacket seq payload nowMs).2 := by
      rcases Nat.lt_trichotomy seq b.nextDeliver with hlt | rfl | hgt
      · exact h.stale hlt
      · exact h.head hcall
      · exact h.ahead hgt
    exact ⟨hmoves.onTime, hmoves.advanced, hmoves.totalMs, hmoves.events⟩
  · rcases h.tickLoop b.reach hcall (Or.inr le_rfl) with ⟨hmoves, -, -⟩
    refine ⟨hmoves.onTime.append_tick nowMs, hmoves.advanced, hmoves.totalMs, ?_⟩
    have hsame : lastPayload (calls ++ [.tick nowMs]) = lastPayload calls :=
      funext fun k => lastPayload_append_tick calls nowMs k
    rw [hsame]
    exact hmoves.events

/-- One step of a run whose clock is right. -/
theorem Kept.step (h : Kept totalMs start calls s) (call : BufferCall)
    (hcall : LeavesClockRight calls s.buffer call) :
    Kept totalMs start (calls ++ [call]) (s.step call) := by
  rcases h.onTime.onCall call hcall with ⟨honTime, hadvanced, htotal, hevents⟩
  have hlow := h.low
  refine ⟨honTime, htotal.trans h.totalMs, hlow.trans hadvanced, ?_, ?_⟩
  · change (s.events ++ (s.buffer.onCall call).2).map BufferEvent.number =
      List.range' start ((s.buffer.onCall call).1.nextDeliver - start)
    have hlength : (s.buffer.onCall call).1.nextDeliver - start =
        (s.buffer.nextDeliver - start) +
          ((s.buffer.onCall call).1.nextDeliver - s.buffer.nextDeliver) := by omega
    have hmid : start + 1 * (s.buffer.nextDeliver - start) = s.buffer.nextDeliver := by omega
    have happend := @List.range'_append start (s.buffer.nextDeliver - start)
      ((s.buffer.onCall call).1.nextDeliver - s.buffer.nextDeliver) 1
    rw [hmid] at happend
    rw [List.map_append, h.numbers, hevents, ReceiveBuffer.eventsOf_number, happend, hlength]
  · intro k payload hmem
    rcases List.mem_append.mp hmem with hold | hnew
    · rcases h.payloads k payload hold with ⟨earlier, hpre, hlast⟩
      exact ⟨earlier, hpre.trans (List.prefix_append _ _), hlast⟩
    · rw [hevents] at hnew
      exact ⟨calls ++ [call], List.prefix_rfl, ReceiveBuffer.delivered_mem_eventsOf hnew⟩

/-- A run whose calls leave the clock right keeps it right. -/
theorem BufferRun.keeps (hclock : KeepsClock totalMs start calls) :
    Kept totalMs start calls (BufferRun.after totalMs start calls) := by
  induction calls using List.reverseRecOn with
  | nil =>
    refine ⟨⟨?_, rfl, rfl⟩, rfl, le_rfl, by simp [BufferRun.after, ReceiveBuffer.new], ?_⟩
    · intro k
      exact Std.ExtTreeMap.getElem?_empty.trans (ite_self none).symm
    · intro k payload hmem
      exact absurd hmem (by simp [BufferRun.after])
  | append_singleton calls call ih =>
    rw [BufferRun.after_append_singleton]
    exact (ih fun earlier c hpre => hclock earlier c (hpre.trans (List.prefix_append _ _))).step
      call (hclock calls call List.prefix_rfl)

end Runs

/-- What is asked of a receive buffer after a run. -/
structure DropsAtDeadline (totalMs start : ℕ) (calls : List BufferCall) : Prop where
  enumerates : ∃ stop, start ≤ stop ∧
    (BufferRun.after totalMs start calls).events.map BufferEvent.number =
      List.range' start (stop - start)
  payloads : ∀ k payload,
    BufferEvent.delivered k payload ∈ (BufferRun.after totalMs start calls).events →
    ∃ earlier, earlier <+: calls ∧ lastPayload earlier k = some payload
  onlyTicks : ∀ earlier seq payload nowMs, calls = earlier ++ [.arrival seq payload nowMs] →
    ∀ k, BufferEvent.dropped k ∉
      ((BufferRun.after totalMs start earlier).buffer.onPacket seq payload nowMs).2
  atDeadline : ∀ earlier nowMs, calls = earlier ++ [.tick nowMs] → ∀ k,
    BufferEvent.dropped k ∈ ((BufferRun.after totalMs start earlier).buffer.onTick nowMs).2 ↔
      start ≤ k ∧ k ∉ (BufferRun.after totalMs start earlier).events.map BufferEvent.number ∧
        lastPayload earlier k = none ∧
        ∃ since, firstBeyond earlier k = some since ∧ since + totalMs ≤ nowMs
  noneBehind : ∀ earlier nowMs, calls = earlier ++ [.tick nowMs] → ∀ q, start ≤ q →
    (lastPayload earlier q).isSome →
    q ∉ (BufferRun.after totalMs start calls).events.map BufferEvent.number →
    (∃ k, start ≤ k ∧ k < q ∧ lastPayload earlier k = none ∧
      k ∉ (BufferRun.after totalMs start calls).events.map BufferEvent.number) ∧
    ∀ k, start ≤ k → k < q → lastPayload earlier k = none →
      k ∉ (BufferRun.after totalMs start calls).events.map BufferEvent.number →
      ∃ since, firstBeyond earlier k = some since ∧ nowMs < since + totalMs

section Deadline

variable {totalMs start : ℕ} {calls : List BufferCall}

theorem young_after_tick {nowMs : ℕ} {b : ReceiveBuffer} (h : OnTime calls b)
    (hsorted : calls.Pairwise fun c d => c.time ≤ d.time)
    (hlast : DropsLastGap calls b nowMs) {k since : ℕ}
    (hk : (b.onTick nowMs).1.nextDeliver ≤ k) (hsince : firstBeyond calls k = some since) :
    nowMs < since + b.totalMs := by
  rcases h.tickLoop b.reach hlast (Or.inr le_rfl) with ⟨hmoves, hrests, -⟩
  rcases firstBeyond_mono hsorted hk hsince with
    ⟨headSince, hheadSince, hle⟩
  have hyoung := hrests headSince (hmoves.onTime.clock.trans hheadSince)
  rw [hmoves.totalMs] at hyoung
  omega

/-- A run whose clock is kept right drops exactly at the deadline. -/
theorem buffer_drops_at_deadline (totalMs start : ℕ) (calls : List BufferCall)
    (hsorted : calls.Pairwise fun c d => c.time ≤ d.time)
    (hclock : KeepsClock totalMs start calls) :
    ∀ earlier, earlier <+: calls → DropsAtDeadline totalMs start earlier := by
  intro reached hreached
  have hkeeps : KeepsClock totalMs start reached :=
    fun earlier call hpre => hclock earlier call (hpre.trans hreached)
  have hkept := BufferRun.keeps hkeeps
  refine ⟨⟨_, hkept.low, hkept.numbers⟩, hkept.payloads, ?_, ?_, ?_⟩
  · rintro earlier seq payload nowMs rfl k
    exact ReceiveBuffer.onPacket_drops_none _ seq payload nowMs k
  · rintro earlier nowMs rfl k
    have hbefore := BufferRun.keeps fun e c hpre =>
      hkeeps e c (hpre.trans (List.prefix_append _ _))
    have hpairs := List.pairwise_append.mp (hsorted.sublist hreached.sublist)
    have hsorted' := hpairs.1
    have hlast : DropsLastGap earlier (BufferRun.after totalMs start earlier).buffer nowMs :=
      hkeeps earlier _ List.prefix_rfl
    rcases hbefore.onTime.tickLoop _ hlast (Or.inr le_rfl) with ⟨hmoves, -, hold⟩
    rw [hbefore.mem_numbers]
    have hevents : ((BufferRun.after totalMs start earlier).buffer.onTick nowMs).2 = _ :=
      hmoves.events
    rw [hevents, ReceiveBuffer.dropped_mem_eventsOf]
    have hlow := hbefore.low
    have htotal := hbefore.totalMs
    constructor
    · rintro ⟨hk, hlt, hmissing⟩
      rcases hold k hk hlt hmissing with ⟨since, hsince, hexpired⟩
      rcases firstBeyond_some_mem hsince with ⟨q, payload, hmem, -⟩
      have hle : since ≤ nowMs :=
        hpairs.2.2 (.arrival q payload since) hmem (.tick nowMs) (List.mem_singleton_self _)
      exact ⟨by omega, by omega, hmissing, since, hsince, by omega⟩
    · rintro ⟨hstart, hout, hmissing, since, hsince, hexpired⟩
      refine ⟨by omega, ?_, hmissing⟩
      by_contra hge
      have hyoung := young_after_tick hbefore.onTime hsorted' hlast (not_lt.mp hge) hsince
      omega
  · rintro earlier nowMs rfl q hq harrived hout
    have hbefore := BufferRun.keeps fun e c hpre =>
      hkeeps e c (hpre.trans (List.prefix_append _ _))
    have hpairs := List.pairwise_append.mp (hsorted.sublist hreached.sublist)
    have hsorted' := hpairs.1
    have hlast : DropsLastGap earlier (BufferRun.after totalMs start earlier).buffer nowMs :=
      hkeeps earlier _ List.prefix_rfl
    have hwaits := hkept.onTime.waits
    rw [lastPayload_append_tick] at hwaits
    have hlow := hkept.low
    rw [hkept.mem_numbers] at hout
    have hne : (BufferRun.after totalMs start (earlier ++ [.tick nowMs])).buffer.nextDeliver
        ≠ q := by
      rintro rfl
      rw [hwaits] at harrived
      exact absurd harrived (by simp)
    refine ⟨⟨_, hlow, by omega, hwaits, by rw [hkept.mem_numbers]; omega⟩, ?_⟩
    intro k hk hlt _ hkout
    rw [hkept.mem_numbers] at hkout
    have hbeyond : (firstBeyond earlier k).isSome := firstBeyond_isSome.mpr ⟨q, hlt, harrived⟩
    rcases Option.isSome_iff_exists.mp hbeyond with ⟨since, hsince⟩
    refine ⟨since, hsince, ?_⟩
    rw [← hbefore.totalMs]
    refine young_after_tick hbefore.onTime hsorted' hlast ?_ hsince
    have hsame : (BufferRun.after totalMs start (earlier ++ [.tick nowMs])).buffer =
        ((BufferRun.after totalMs start earlier).buffer.onTick nowMs).1 := by
      rw [BufferRun.after_append_singleton]
      rfl
    rw [hsame] at hkout
    omega

/-- Two gaps that opened together: the first is closed by its packet, the second is given up. -/
def twoGaps : List BufferCall :=
  [.arrival 3 [3] 0, .arrival 1 [1] 10, .arrival 0 [0] 20, .tick 50, .tick 100]

theorem buffer_drops_at_deadline_twoGaps :
    KeepsClock 100 0 twoGaps ∧ ∀ earlier, earlier <+: twoGaps → DropsAtDeadline 100 0 earlier := by
  have hsorted : twoGaps.Pairwise fun c d => c.time ≤ d.time := by
    unfold twoGaps
    decide
  have hclock : KeepsClock 100 0 twoGaps := by
    intro earlier call hpre
    have hsplit : earlier = twoGaps.take earlier.length ∧ twoGaps[earlier.length]? = some call ∧
        earlier.length < 5 := by
      rcases hpre with ⟨rest, hrest⟩
      have hlength := congrArg List.length hrest
      simp only [List.length_append, twoGaps, List.length_cons, List.length_nil] at hlength
      rw [← hrest]
      simp
      omega
    generalize earlier.length = k at hsplit
    rcases hsplit with ⟨rfl, hcall, hk⟩
    interval_cases k
    all_goals cases hcall
    · exact fun hhead => absurd hhead (by decide)
    · exact fun hhead => absurd hhead (by decide)
    · -- the second gap, at 2, is first missing when the first one is
      intro _ m _ _ _
      by_cases hm : m < 3
      · right
        simp [firstBeyond, Call.beyond, twoGaps, hm]
      · left
        simp [firstBeyond, Call.beyond, twoGaps]
        omega
    · rintro ⟨since, hsince, hexpired⟩
      have hzero : firstBeyond (twoGaps.take 3) 2 = some 0 := rfl
      obtain rfl := Option.some.inj (hzero.symm.trans hsince)
      exact absurd hexpired (by decide)
    · intro _ j m hj hm _ _
      have hhead : 2 < j := hj
      simp [firstBeyond, Call.beyond, twoGaps]
      omega
  exact ⟨hclock, buffer_drops_at_deadline 100 0 twoGaps hsorted hclock⟩

/-- The second of two gaps inherits the clock of the first and is dropped ten milliseconds late. -/
theorem not_drops_at_deadline_two_gaps :
    ¬ DropsAtDeadline 100 0
      [.arrival 1 [1] 0, .arrival 3 [3] 90, .arrival 0 [0] 95, .tick 100] := by
  intro h
  rcases (h.atDeadline [.arrival 1 [1] 0, .arrival 3 [3] 90, .arrival 0 [0] 95] 100 rfl 2).mp
    (by decide) with ⟨-, -, -, since, hsince, hexpired⟩
  have hninety : firstBeyond
      [Call.arrival 1 [(1 : BitVec 8)] 0, .arrival 3 [3] 90, .arrival 0 [0] 95] 2 = some 90 := rfl
  obtain rfl := Option.some.inj (hninety.symm.trans hsince)
  omega

end Deadline

end Rist
end Vaco
