import Mathlib.Tactic
import Vaco.Library.BitStream

/-!
# The RIST receive buffer

The reorder and retransmission buffer of one flow: packets ahead of the next
number to deliver wait in an ordered map, and one timestamp stands for the gap
at the head.  An arrival drains what it unblocks; a tick gives up on the head
when the gap's time has run out.

Main results:

- `ReceiveBuffer.drainReady_spec`: what the drain delivers, and where it stops.

Current gaps:

- Sequence numbers are natural numbers, as the source takes them unwrapped and
  adds to them without a wrap.
- The list of missing numbers for a NACK is not modelled: neither entry point
  reads it.
-/

namespace Vaco
namespace Rist

open Library.BitStream

/-- One outcome of feeding a packet or a tick. -/
inductive BufferEvent where
  | delivered (seq : ℕ) (payload : Bytes)
  | dropped (seq : ℕ)
  deriving DecidableEq, Repr

/-- The number an event is about. -/
def BufferEvent.number : BufferEvent → ℕ
  | .delivered seq _ => seq
  | .dropped seq => seq

/-- The reorder and retransmission buffer of one flow. -/
structure ReceiveBuffer where
  totalMs : ℕ
  nextDeliver : ℕ
  pending : Std.ExtTreeMap ℕ Bytes
  gapOpenedAtMs : Option ℕ

namespace ReceiveBuffer

/-- An empty buffer. -/
def new (totalMs startSeq : ℕ) : ReceiveBuffer where
  totalMs := totalMs
  nextDeliver := startSeq
  pending := ∅
  gapOpenedAtMs := none

/-- The buffer after its next number was taken out. -/
def pop (b : ReceiveBuffer) : ReceiveBuffer :=
  { b with
    pending := b.pending.erase b.nextDeliver
    nextDeliver := b.nextDeliver + 1 }

def drainLoop : ℕ → ReceiveBuffer → ReceiveBuffer × List BufferEvent
  | 0, b => (b, [])
  | fuel + 1, b =>
    match b.pending[b.nextDeliver]? with
    | some payload =>
      let rest := drainLoop fuel b.pop
      (rest.1, .delivered b.nextDeliver payload :: rest.2)
    | none => (b, [])

/-- Deliver the packets at the head; an empty buffer has no gap. -/
def drainReady (b : ReceiveBuffer) : ReceiveBuffer × List BufferEvent :=
  let drained := drainLoop b.pending.size b
  (if drained.1.pending.isEmpty then { drained.1 with gapOpenedAtMs := none } else drained.1,
    drained.2)

/-- Feed one arriving packet. -/
def onPacket (b : ReceiveBuffer) (seq : ℕ) (payload : Bytes) (nowMs : ℕ) :
    ReceiveBuffer × List BufferEvent :=
  if seq < b.nextDeliver then
    (b, [])
  else
    drainReady
      { b with
        pending := b.pending.insert seq payload
        gapOpenedAtMs :=
          if b.nextDeliver < seq ∧ b.gapOpenedAtMs = none then some nowMs else b.gapOpenedAtMs }

/-- Whether a packet waits beyond a number. -/
def waitsBeyond (b : ReceiveBuffer) (seq : ℕ) : Bool :=
  b.pending.maxKey?.any fun highest => decide (seq < highest)

def dropHead (b : ReceiveBuffer) (openedAt : ℕ) : ReceiveBuffer × List BufferEvent :=
  let next := b.nextDeliver + 1
  let drained := drainReady
    { b with
      nextDeliver := next
      gapOpenedAtMs :=
        if b.pending.contains next then none
        else if b.waitsBeyond next then some openedAt
        else none }
  (drained.1, .dropped b.nextDeliver :: drained.2)

def tickLoop (nowMs : ℕ) : ℕ → ReceiveBuffer → ReceiveBuffer × List BufferEvent
  | 0, b => (b, [])
  | fuel + 1, b =>
    match b.gapOpenedAtMs with
    | none => (b, [])
    | some openedAt =>
      if nowMs - openedAt < b.totalMs then
        (b, [])
      else
        let head := b.dropHead openedAt
        let rest := tickLoop nowMs fuel head.1
        (rest.1, head.2 ++ rest.2)

/-- The numbers a tick may give up on: those up to the highest one waiting. -/
def reach (b : ReceiveBuffer) : ℕ :=
  b.pending.maxKey?.getD b.nextDeliver - b.nextDeliver + 1

/-- Advance time, and pass over numbers up to a packet that waits. -/
def onTick (b : ReceiveBuffer) (nowMs : ℕ) : ReceiveBuffer × List BufferEvent :=
  tickLoop nowMs b.reach b

/-! ## The drain -/

/-- The event a number leaves the buffer with. -/
def eventOf (arrived : ℕ → Option Bytes) (k : ℕ) : BufferEvent :=
  match arrived k with
  | some payload => .delivered k payload
  | none => .dropped k

@[simp]
theorem eventOf_number (arrived : ℕ → Option Bytes) (k : ℕ) :
    (eventOf arrived k).number = k := by
  unfold eventOf
  split
  · rfl
  · rfl

def eventsOf (arrived : ℕ → Option Bytes) (start stop : ℕ) : List BufferEvent :=
  (List.range' start (stop - start)).map (eventOf arrived)

theorem eventsOf_self (arrived : ℕ → Option Bytes) (start : ℕ) :
    eventsOf arrived start start = [] := by
  simp [eventsOf]

theorem eventsOf_cons (arrived : ℕ → Option Bytes) {start stop : ℕ}
    (h : start + 1 ≤ stop) :
    eventsOf arrived start stop = eventOf arrived start :: eventsOf arrived (start + 1) stop := by
  have hlength : stop - start = (stop - (start + 1)) + 1 := by omega
  unfold eventsOf
  rw [hlength, List.range'_succ, List.map_cons]

theorem eventsOf_append (arrived : ℕ → Option Bytes) {start mid stop : ℕ}
    (hmid : start ≤ mid) (hstop : mid ≤ stop) :
    eventsOf arrived start mid ++ eventsOf arrived mid stop = eventsOf arrived start stop := by
  have hlength : stop - start = (mid - start) + (stop - mid) := by omega
  have hstart : start + 1 * (mid - start) = mid := by omega
  have happend := @List.range'_append start (mid - start) (stop - mid) 1
  rw [hstart] at happend
  unfold eventsOf
  rw [← List.map_append, happend, hlength]

theorem eventsOf_number (arrived : ℕ → Option Bytes) (start stop : ℕ) :
    (eventsOf arrived start stop).map BufferEvent.number = List.range' start (stop - start) := by
  unfold eventsOf
  rw [List.map_map]
  exact (List.map_congr_left fun k _ => eventOf_number arrived k).trans (List.map_id _)

theorem mem_eventsOf {arrived : ℕ → Option Bytes} {start stop : ℕ} {event : BufferEvent} :
    event ∈ eventsOf arrived start stop ↔
      ∃ k, start ≤ k ∧ k < stop ∧ eventOf arrived k = event := by
  unfold eventsOf
  rw [List.mem_map]
  constructor
  · rintro ⟨k, hk, rfl⟩
    have hbounds := List.mem_range'_1.mp hk
    exact ⟨k, by omega, by omega, rfl⟩
  · rintro ⟨k, hlow, hhigh, rfl⟩
    exact ⟨k, List.mem_range'_1.mpr (by omega), rfl⟩

theorem dropped_mem_eventsOf {arrived : ℕ → Option Bytes} {start stop k : ℕ} :
    BufferEvent.dropped k ∈ eventsOf arrived start stop ↔
      start ≤ k ∧ k < stop ∧ arrived k = none := by
  rw [mem_eventsOf]
  constructor
  · rintro ⟨m, hlow, hhigh, hm⟩
    unfold eventOf at hm
    split at hm
    · exact absurd hm (by simp)
    · obtain rfl := BufferEvent.dropped.inj hm
      exact ⟨hlow, hhigh, ‹_›⟩
  · rintro ⟨hlow, hhigh, hnone⟩
    exact ⟨k, hlow, hhigh, by simp [eventOf, hnone]⟩

theorem delivered_mem_eventsOf {arrived : ℕ → Option Bytes} {start stop k : ℕ}
    {payload : Bytes} (h : BufferEvent.delivered k payload ∈ eventsOf arrived start stop) :
    arrived k = some payload := by
  rcases mem_eventsOf.mp h with ⟨m, -, -, hm⟩
  unfold eventOf at hm
  split at hm
  · obtain ⟨rfl, rfl⟩ := BufferEvent.delivered.inj hm
    assumption
  · exact absurd hm (by simp)

/-- The packets that wait are those of a fixed map from the head on. -/
def Holds (b : ReceiveBuffer) (arrived : ℕ → Option Bytes) : Prop :=
  ∀ k, b.pending[k]? = if b.nextDeliver ≤ k then arrived k else none

/-- What a drain does. -/
structure Drained (arrived : ℕ → Option Bytes) (b b' : ReceiveBuffer)
    (events : List BufferEvent) : Prop where
  advanced : b.nextDeliver ≤ b'.nextDeliver
  holds : b'.Holds arrived
  waits : arrived b'.nextDeliver = none
  ready : ∀ k, b.nextDeliver ≤ k → k < b'.nextDeliver → (arrived k).isSome
  events : events = eventsOf arrived b.nextDeliver b'.nextDeliver
  totalMs : b'.totalMs = b.totalMs

section Drain

variable {arrived : ℕ → Option Bytes} {b : ReceiveBuffer}

theorem Holds.pop (h : b.Holds arrived) : b.pop.Holds arrived := by
  intro k
  change (b.pending.erase b.nextDeliver)[k]? = if b.nextDeliver + 1 ≤ k then arrived k else none
  rw [Std.ExtTreeMap.getElem?_erase, h k]
  grind

theorem pop_size_lt {payload : Bytes} (h : b.pending[b.nextDeliver]? = some payload) :
    b.pop.pending.size < b.pending.size := by
  have hmem : b.pending.contains b.nextDeliver = true := by
    rw [← Std.ExtTreeMap.isSome_getElem?_eq_contains, h]
    rfl
  have hpos : b.pending.size ≠ 0 := by
    intro hzero
    rw [Std.ExtTreeMap.eq_empty_iff_size_eq_zero.mpr hzero] at h
    simp at h
  change (b.pending.erase b.nextDeliver).size < b.pending.size
  rw [Std.ExtTreeMap.size_erase, if_pos hmem]
  omega

/-- The drain loop delivers up to the first number that has not arrived. -/
theorem drainLoop_spec (fuel : ℕ) (h : b.Holds arrived) (hfuel : b.pending.size ≤ fuel) :
    Drained arrived b (drainLoop fuel b).1 (drainLoop fuel b).2 ∧
      (drainLoop fuel b).1.gapOpenedAtMs = b.gapOpenedAtMs := by
  induction fuel generalizing b with
  | zero =>
    have hempty : b.pending = ∅ := Std.ExtTreeMap.eq_empty_iff_size_eq_zero.mpr (by omega)
    have hnone : arrived b.nextDeliver = none := by
      have hnext := h b.nextDeliver
      rw [hempty, if_pos le_rfl] at hnext
      simpa using hnext.symm
    exact ⟨⟨le_rfl, h, hnone, fun k hlow hhigh => absurd hlow (not_le.mpr hhigh),
      (eventsOf_self _ _).symm, rfl⟩, rfl⟩
  | succ fuel ih =>
    unfold drainLoop
    have hnext := h b.nextDeliver
    rw [if_pos le_rfl] at hnext
    rcases hpending : b.pending[b.nextDeliver]? with _ | payload
    · rw [hpending] at hnext
      exact ⟨⟨le_rfl, h, hnext.symm, fun k hlow hhigh => absurd hlow (not_le.mpr hhigh),
        (eventsOf_self _ _).symm, rfl⟩, rfl⟩
    · have hlt := pop_size_lt hpending
      rcases ih h.pop (by omega) with ⟨hrest, hgap⟩
      rw [hpending] at hnext
      have hadvanced := hrest.advanced
      change b.nextDeliver + 1 ≤ _ at hadvanced
      refine ⟨⟨by dsimp only; omega, hrest.holds, hrest.waits, ?_, ?_, hrest.totalMs⟩, hgap⟩
      · intro k hlow hhigh
        rcases Nat.eq_or_lt_of_le hlow with heq | hlt
        · rw [← heq, ← hnext]
          rfl
        · exact hrest.ready k hlt hhigh
      · dsimp only
        rw [eventsOf_cons arrived hadvanced, hrest.events]
        simp only [eventOf, ← hnext]
        rfl

theorem Holds.pending_eq_empty (h : b.Holds arrived) :
    b.pending = ∅ ↔ ∀ q, b.nextDeliver ≤ q → arrived q = none := by
  constructor
  · intro hempty q hq
    have hpending := h q
    rw [hempty, if_pos hq] at hpending
    simpa using hpending.symm
  · intro hnone
    apply Std.ExtTreeMap.ext_getElem?
    intro q
    rw [h q]
    by_cases hq : b.nextDeliver ≤ q
    · simp [hq, hnone q hq]
    · simp [hq]

/-- The drain delivers the packets at the head, and turns the clock off if
nothing waits beyond it. -/
theorem drainReady_spec (h : b.Holds arrived) :
    Drained arrived b b.drainReady.1 b.drainReady.2 ∧
      ((∃ q, b.drainReady.1.nextDeliver < q ∧ (arrived q).isSome) →
        b.drainReady.1.gapOpenedAtMs = b.gapOpenedAtMs) ∧
      (¬ (∃ q, b.drainReady.1.nextDeliver < q ∧ (arrived q).isSome) →
        b.drainReady.1.gapOpenedAtMs = none) := by
  rcases drainLoop_spec b.pending.size h le_rfl with ⟨hdrained, hgap⟩
  have hempty := hdrained.holds.pending_eq_empty
  unfold drainReady
  dsimp only
  by_cases hwaits : (drainLoop b.pending.size b).1.pending.isEmpty
  · have hnone := hempty.mp (Std.ExtTreeMap.isEmpty_iff.mp hwaits)
    simp only [hwaits, if_true]
    refine ⟨⟨hdrained.advanced, hdrained.holds, hdrained.waits, hdrained.ready, hdrained.events,
      hdrained.totalMs⟩, ?_, fun _ => trivial⟩
    rintro ⟨q, hq, hsome⟩
    rw [hnone q hq.le] at hsome
    exact absurd hsome (by simp)
  · rw [if_neg hwaits]
    refine ⟨hdrained, fun _ => hgap, fun hno => ?_⟩
    refine absurd (Std.ExtTreeMap.isEmpty_iff.mpr (hempty.mpr fun q hq => ?_)) hwaits
    rcases Nat.eq_or_lt_of_le hq with heq | hlt
    · rw [← heq]
      exact hdrained.waits
    · by_contra hne
      exact hno ⟨q, hlt, Option.isSome_iff_ne_none.mpr hne⟩

end Drain

theorem drainLoop_drops_none (fuel : ℕ) (b : ReceiveBuffer) (k : ℕ) :
    BufferEvent.dropped k ∉ (drainLoop fuel b).2 := by
  induction fuel generalizing b with
  | zero => exact List.not_mem_nil
  | succ fuel ih =>
    unfold drainLoop
    rcases b.pending[b.nextDeliver]? with _ | payload
    · exact List.not_mem_nil
    · intro hmem
      rcases List.mem_cons.mp hmem with heq | hrest
      · exact absurd heq (by simp)
      · exact ih b.pop hrest

/-- An arrival drops nothing. -/
theorem onPacket_drops_none (b : ReceiveBuffer) (seq : ℕ) (payload : Bytes) (nowMs k : ℕ) :
    BufferEvent.dropped k ∉ (b.onPacket seq payload nowMs).2 := by
  unfold onPacket
  split
  · exact List.not_mem_nil
  · exact drainLoop_drops_none _ _ k

/-! ## The loop of a tick -/

/-- The clock is off, or its time has not run out. -/
def Rests (b : ReceiveBuffer) (nowMs : ℕ) : Prop :=
  ∀ openedAt, b.gapOpenedAtMs = some openedAt → nowMs - openedAt < b.totalMs

theorem waitsBeyond_iff (b : ReceiveBuffer) (seq : ℕ) :
    b.waitsBeyond seq = true ↔ ∃ q, seq < q ∧ (b.pending[q]?).isSome := by
  unfold waitsBeyond
  rcases hmax : b.pending.maxKey? with _ | highest
  · have hempty := Std.ExtTreeMap.maxKey?_eq_none_iff.mp hmax
    simp [hempty]
  · rcases Std.ExtTreeMap.maxKey?_eq_some_iff_mem_and_forall.mp hmax with ⟨hmem, hall⟩
    simp only [Option.any_some, decide_eq_true_eq]
    constructor
    · intro hlt
      exact ⟨highest, hlt, Std.ExtTreeMap.isSome_getElem?_iff_mem.mpr hmem⟩
    · rintro ⟨q, hlt, hq⟩
      have hle := hall q (Std.ExtTreeMap.isSome_getElem?_iff_mem.mp hq)
      rw [Nat.isLE_compare] at hle
      omega

end ReceiveBuffer

end Rist
end Vaco
