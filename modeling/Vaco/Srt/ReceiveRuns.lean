import Vaco.Library.Timeline
import Vaco.Srt.ReceiveWindow

/-!
# Runs of the SRT receive window

A run feeds a fresh window arrivals and ticks in any order.  Everything a tick
decides is a function of the log of calls: the payload that arrived last for a
number, the first arrival beyond it, and the opening arrival, the first one
that is not stale.

Main results:

- `ReceiverRun.after_follows`: the window read off the log of calls.
- `receive_window_accounts`: when every number is accounted for.

Current gaps:

- Sequence numbers stay below the largest 32-bit value; the run across a wrap
  is the subject of the link between the two windows.
-/

namespace Vaco
namespace Srt

open Library Library.BitStream Library.Timeline

/-- A call of the driver on a receive window. -/
abbrev ReceiveCall := Call Bytes

/-- The times at which the window notices a number missing, beyond the opening arrival only. -/
def noticedMissing (calls : List ReceiveCall) (first k : ℕ) : Option ℕ :=
  match opening calls first, lastPayload calls k with
  | some (opened, _), none => if opened < k then firstBeyond calls k else none
  | _, _ => none

/-- A receive window with everything its ticks have reported so far. -/
structure ReceiverRun where
  window : ReceiveWindow
  delivered : List (ℕ × Bytes)
  dropped : List ℕ

namespace ReceiverRun

/-- One call of a run. -/
def step (s : ReceiverRun) : ReceiveCall → ReceiverRun
  | .arrival seqNo payload nowMs =>
    { s with
      window := (s.window.onData seqNo payload nowMs).1 }
  | .tick nowMs =>
    let result := s.window.onTick nowMs
    { window := result.1
      delivered := s.delivered ++ result.2.delivered
      dropped := s.dropped ++ result.2.dropped }

/-- A run of a fresh window. -/
def after (latencyMs first : ℕ) (calls : List ReceiveCall) : ReceiverRun :=
  calls.foldl step ⟨ReceiveWindow.new latencyMs first, [], []⟩

theorem after_append_singleton (latencyMs first : ℕ) (calls : List ReceiveCall)
    (call : ReceiveCall) :
    after latencyMs first (calls ++ [call]) = (after latencyMs first calls).step call := by
  simp [after]

end ReceiverRun

/-! ## Reading the log -/

section Reading

variable {calls : List ReceiveCall}

@[simp]
theorem noticedMissing_append_tick (nowMs first k : ℕ) :
    noticedMissing (calls ++ [.tick nowMs]) first k = noticedMissing calls first k := by
  simp [noticedMissing]

theorem noticedMissing_some {first k nowMs : ℕ}
    (h : noticedMissing calls first k = some nowMs) :
    (∃ opened openedAt, opening calls first = some (opened, openedAt) ∧ opened < k) ∧
      lastPayload calls k = none ∧ firstBeyond calls k = some nowMs := by
  unfold noticedMissing at h
  rcases hopening : opening calls first with _ | ⟨opened, openedAt⟩
  · simp [hopening] at h
  · rcases hpayload : lastPayload calls k with _ | payload
    · simp only [hopening, hpayload] at h
      by_cases hlt : opened < k
      · rw [if_pos hlt] at h
        exact ⟨⟨opened, openedAt, rfl, hlt⟩, rfl, h⟩
      · simp [hlt] at h
    · simp [hopening, hpayload] at h

theorem noticedMissing_eq {first k opened openedAt : ℕ}
    (hopening : opening calls first = some (opened, openedAt)) (hlt : opened < k)
    (hpayload : lastPayload calls k = none) :
    noticedMissing calls first k = firstBeyond calls k := by
  simp [noticedMissing, hopening, hpayload, hlt]

theorem noticedMissing_before {first k opened openedAt : ℕ}
    (hopening : opening calls first = some (opened, openedAt)) (hle : k ≤ opened) :
    noticedMissing calls first k = none := by
  by_contra hne
  rcases Option.ne_none_iff_exists'.mp hne with ⟨since, hsince⟩
  rcases noticedMissing_some hsince with ⟨⟨opened', openedAt', hopening', hlt⟩, -, -⟩
  rw [hopening] at hopening'
  obtain ⟨rfl, rfl⟩ := Prod.mk.inj (Option.some.inj hopening')
  omega

theorem noticedMissing_of_payload {first k : ℕ} (h : (lastPayload calls k).isSome) :
    noticedMissing calls first k = none := by
  rcases Option.isSome_iff_exists.mp h with ⟨payload, hpayload⟩
  simp [noticedMissing, hpayload]

theorem noticedMissing_unopened {first k : ℕ} (h : opening calls first = none) :
    noticedMissing calls first k = none := by
  simp [noticedMissing, h]

end Reading

/-! ## The window follows the log -/

/-- The window of a run, and what it reported, read off the log of calls. -/
structure Follows (latencyMs first : ℕ) (calls : List ReceiveCall) (s : ReceiverRun) : Prop where
  latencyMs : s.window.latencyMs = latencyMs
  shows : s.window.Shows (lastPayload calls) (noticedMissing calls first)
  unseen : s.window.highestSeen = none →
    opening calls first = none ∧ s.window.nextExpected = first
  highest : ∀ highest, s.window.highestSeen = some highest →
    (opening calls first).isSome ∧ (lastPayload calls highest).isSome ∧
      firstBeyond calls highest = none ∧ s.window.nextExpected ≤ highest + 1
  swept : Timeline.Swept first s.window.nextExpected (s.delivered.map Prod.fst) s.dropped
  payloads : ∀ e ∈ s.delivered, ∃ earlier nowMs,
    earlier ++ [.tick nowMs] <+: calls ∧ lastPayload earlier e.1 = some e.2
  beyondOpening : ∀ k ∈ s.dropped, ∃ opened openedAt,
    opening calls first = some (opened, openedAt) ∧ opened < k

section Follows

variable {latencyMs first : ℕ} {calls : List ReceiveCall} {s : ReceiverRun}

theorem shows_log {w : ReceiveWindow} (hcalls : Below u32Max calls)
    (hbuffered : ∀ k, w.buffered[k]? = if w.nextExpected ≤ k then lastPayload calls k else none)
    (hlossList : ∀ k, w.lossList[k]? =
      if w.nextExpected ≤ k then noticedMissing calls first k else none) :
    w.Shows (lastPayload calls) (noticedMissing calls first) where
  buffered := hbuffered
  lossList := hlossList
  bounded := by
    intro k h
    rcases h with h | h
    · rcases lastPayload_isSome.mp h with ⟨payload, nowMs, hmem⟩
      exact hcalls k payload nowMs hmem
    · rcases Option.isSome_iff_exists.mp h with ⟨nowMs, hmissing⟩
      rcases noticedMissing_some hmissing with ⟨-, -, hbeyond⟩
      rcases firstBeyond_some_mem hbeyond with ⟨seqNo, payload, hmem, hk⟩
      have hbound := hcalls seqNo payload nowMs hmem
      omega
  apart := fun _ h => noticedMissing_of_payload h

theorem Follows.new (latencyMs first : ℕ) :
    Follows latencyMs first [] ⟨ReceiveWindow.new latencyMs first, [], []⟩ where
  latencyMs := rfl
  shows := by
    refine shows_log (fun _ _ _ h => absurd h List.not_mem_nil) ?_ ?_
    · intro k
      exact Std.ExtTreeMap.getElem?_empty.trans (ite_self none).symm
    · intro k
      exact Std.ExtTreeMap.getElem?_empty.trans (ite_self none).symm
  unseen := fun _ => ⟨rfl, rfl⟩
  highest := by simp [ReceiveWindow.new]
  swept := Timeline.Swept.start first
  payloads := by simp
  beyondOpening := by simp

/-- A stale arrival leaves the window as it is, and the log says the same. -/
theorem Follows.stale (h : Follows latencyMs first calls s) {seqNo nowMs : ℕ}
    {payload : Bytes} (hcalls : Below u32Max (calls ++ [.arrival seqNo payload nowMs]))
    (hstale : seqNo < s.window.nextExpected) :
    Follows latencyMs first (calls ++ [.arrival seqNo payload nowMs])
      (s.step (.arrival seqNo payload nowMs)) := by
  have hstep : s.step (.arrival seqNo payload nowMs) = s := by
    change { s with window := (s.window.onData seqNo payload nowMs).1 } = s
    rw [ReceiveWindow.onData_stale hstale]
  have hopening : opening (calls ++ [.arrival seqNo payload nowMs]) first = opening calls first := by
    rcases hsome : opening calls first with _ | found
    · have hunseen : s.window.highestSeen = none := by
        by_contra hne
        rcases Option.ne_none_iff_exists'.mp hne with ⟨highest, hhighest⟩
        have := (h.highest highest hhighest).1
        rw [hsome] at this
        exact absurd this (by simp)
      have hnext := (h.unseen hunseen).2
      rw [opening_append_arrival, hsome, if_neg (by omega)]
      rfl
    · exact opening_extend hsome _
  have hpayload : ∀ k, s.window.nextExpected ≤ k →
      lastPayload (calls ++ [.arrival seqNo payload nowMs]) k = lastPayload calls k := by
    intro k hk
    rw [lastPayload_append_arrival, if_neg (by omega)]
  have hbeyond : ∀ k, s.window.nextExpected ≤ k →
      firstBeyond (calls ++ [.arrival seqNo payload nowMs]) k = firstBeyond calls k := by
    intro k hk
    rw [firstBeyond_append_arrival, if_neg (by omega), Option.or_none]
  rw [hstep]
  refine ⟨h.latencyMs, shows_log hcalls ?_ ?_, ?_, ?_, h.swept, ?_, ?_⟩
  · intro k
    rw [h.shows.buffered]
    split
    · rw [hpayload k ‹_›]
    · rfl
  · intro k
    rw [h.shows.lossList]
    split
    · unfold noticedMissing
      rw [hopening, hpayload k ‹_›, hbeyond k ‹_›]
    · rfl
  · intro hunseen
    rw [hopening]
    exact h.unseen hunseen
  · intro highest hhighest
    rcases h.highest highest hhighest with ⟨hopened, harrived, hnone, hnext⟩
    refine ⟨by rw [hopening]; exact hopened, ?_, ?_, hnext⟩
    · rw [lastPayload_append_arrival]
      split
      · rfl
      · exact harrived
    · rw [firstBeyond_append_arrival, hnone, if_neg (by omega)]
      rfl
  · intro e he
    rcases h.payloads e he with ⟨earlier, time, hpre, hlast⟩
    exact ⟨earlier, time, hpre.trans (List.prefix_append _ _), hlast⟩
  · rw [hopening]
    exact h.beyondOpening

/-- What an arrival that is not stale enters in the loss list. -/
theorem Follows.accepted_lossList (h : Follows latencyMs first calls s) {seqNo nowMs : ℕ}
    {payload : Bytes} (haccepted : s.window.nextExpected ≤ seqNo) {k : ℕ}
    (hk : s.window.nextExpected ≤ k) :
    (s.window.onData seqNo payload nowMs).1.lossList[k]? =
      noticedMissing (calls ++ [.arrival seqNo payload nowMs]) first k := by
  have hlow := h.swept.le
  have hbuffered : s.window.buffered[k]? = lastPayload calls k := by
    rw [h.shows.buffered, if_pos hk]
  have hloss : s.window.lossList[k]? = noticedMissing calls first k := by
    rw [h.shows.lossList, if_pos hk]
  rw [ReceiveWindow.onData_lossList haccepted, hbuffered, hloss]
  rcases Nat.lt_trichotomy k seqNo with hlt | heq | hgt
  · -- before the packet: the gap above the highest number seen is noticed now
    have hpayload : lastPayload (calls ++ [.arrival seqNo payload nowMs]) k = lastPayload calls k := by
      rw [lastPayload_append_arrival, if_neg (by omega)]
    have hbeyond : firstBeyond (calls ++ [.arrival seqNo payload nowMs]) k =
        (firstBeyond calls k).or (some nowMs) := by
      rw [firstBeyond_append_arrival, if_pos hlt]
    rw [if_neg (by omega : ¬ k = seqNo)]
    rcases hhighest : s.window.highestSeen with _ | highest
    · rcases h.unseen hhighest with ⟨hopening, hnext⟩
      have hnew : opening (calls ++ [.arrival seqNo payload nowMs]) first = some (seqNo, nowMs) := by
        rw [opening_append_arrival, hopening, if_pos (by omega)]
        rfl
      rw [noticedMissing_unopened hopening, noticedMissing_before hnew hlt.le]
      simp
    · rcases h.highest highest hhighest with ⟨hopened, harrived, hnone, -⟩
      rcases Option.isSome_iff_exists.mp hopened with ⟨⟨opened, openedAt⟩, hopening⟩
      have hnew := opening_extend hopening (.arrival seqNo payload nowMs)
      rcases opening_some_mem hopening with ⟨-, payload', hmem⟩
      have hopenedLe := firstBeyond_none.mp hnone opened payload' openedAt hmem
      rcases hlast : lastPayload calls k with _ | old
      · by_cases hgap : highest < k
        · have hfirst : firstBeyond calls k = none := by
            rw [firstBeyond_none]
            intro q p t hq
            have hle := firstBeyond_none.mp hnone q p t hq
            omega
          rw [noticedMissing_eq hopening (by omega) hlast,
            noticedMissing_eq hnew (by omega) (by rw [hpayload, hlast]), hbeyond, hfirst]
          simp [hgap, hlt]
        · have hfirst : (firstBeyond calls k).isSome := by
            rw [Option.isSome_iff_ne_none, ne_eq, firstBeyond_none]
            intro hall
            rcases lastPayload_isSome.mp harrived with ⟨p, t, hq⟩
            have hle := hall highest p t hq
            have heq : highest = k := by omega
            rw [heq, hlast] at harrived
            exact absurd harrived (by simp)
          rcases Option.isSome_iff_exists.mp hfirst with ⟨since, hsince⟩
          have hmissing : noticedMissing (calls ++ [.arrival seqNo payload nowMs]) first k =
              noticedMissing calls first k := by
            unfold noticedMissing
            rw [hnew, hopening, hpayload, hlast, hbeyond, hsince]
            rfl
          rw [hmissing]
          simp [hgap]
      · rw [noticedMissing_of_payload (by rw [hlast]; rfl),
          noticedMissing_of_payload (by rw [hpayload, hlast]; rfl)]
        simp
  · -- the packet's own number
    have hpayload : (lastPayload (calls ++ [.arrival seqNo payload nowMs]) k).isSome := by
      rw [lastPayload_append_arrival, if_pos heq.symm]
      rfl
    rw [noticedMissing_of_payload hpayload]
    simp [heq]
  · -- beyond the packet nothing changes
    have hnew : noticedMissing (calls ++ [.arrival seqNo payload nowMs]) first k =
        noticedMissing calls first k := by
      rcases hopening : opening calls first with _ | found
      · have hnone : firstBeyond calls k = none := by
          rw [firstBeyond_none]
          intro q p t hq
          have hfirst := opening_none hopening hq
          omega
        rw [noticedMissing_unopened hopening]
        by_contra hne
        rcases Option.ne_none_iff_exists'.mp hne with ⟨since, hsince⟩
        rcases noticedMissing_some hsince with ⟨-, -, hbeyond⟩
        rw [firstBeyond_append_arrival, hnone, if_neg (by omega)] at hbeyond
        exact absurd hbeyond (by simp)
      · unfold noticedMissing
        rw [opening_extend hopening, hopening, lastPayload_append_arrival, if_neg (by omega),
          firstBeyond_append_arrival, if_neg (by omega), Option.or_none]
    rw [hnew]
    have h1 : ¬ k < seqNo := by omega
    have h2 : ¬ k = seqNo := by omega
    simp [h1, h2]

/-- An arrival that is not stale. -/
theorem Follows.accepted (h : Follows latencyMs first calls s) {seqNo nowMs : ℕ}
    {payload : Bytes} (hcalls : Below u32Max (calls ++ [.arrival seqNo payload nowMs]))
    (haccepted : s.window.nextExpected ≤ seqNo) :
    Follows latencyMs first (calls ++ [.arrival seqNo payload nowMs])
      (s.step (.arrival seqNo payload nowMs)) := by
  have hlow := h.swept.le
  have hnext : (s.window.onData seqNo payload nowMs).1.nextExpected = s.window.nextExpected :=
    ReceiveWindow.onData_nextExpected ..
  have hopened : (opening (calls ++ [.arrival seqNo payload nowMs]) first).isSome := by
    rw [opening_append_arrival, if_pos (by omega)]
    simp
  refine ⟨?_, shows_log hcalls ?_ ?_, ?_, ?_, ?_, ?_, ?_⟩
  · exact (ReceiveWindow.onData_latencyMs ..).trans h.latencyMs
  · intro k
    change (s.window.onData seqNo payload nowMs).1.buffered[k]? =
      if (s.window.onData seqNo payload nowMs).1.nextExpected ≤ k then _ else _
    rw [hnext, ReceiveWindow.onData_buffered haccepted, lastPayload_append_arrival,
      h.shows.buffered]
    by_cases hk : seqNo = k
    · rw [if_pos hk, if_pos hk, if_pos (by omega)]
    · rw [if_neg hk, if_neg hk]
  · intro k
    change (s.window.onData seqNo payload nowMs).1.lossList[k]? =
      if (s.window.onData seqNo payload nowMs).1.nextExpected ≤ k then _ else _
    rw [hnext]
    by_cases hk : s.window.nextExpected ≤ k
    · rw [if_pos hk, h.accepted_lossList haccepted hk]
    · have hloss : s.window.lossList[k]? = none := by
        rw [h.shows.lossList, if_neg hk]
      have hgap : ¬ ((∃ highest, s.window.highestSeen = some highest ∧ highest < k) ∧
          k < seqNo ∧ s.window.buffered[k]? = none ∧ s.window.lossList[k]? = none) := by
        rintro ⟨⟨highest, hhighest, hlt⟩, -, -, -⟩
        have hbound := (h.highest highest hhighest).2.2.2
        omega
      rw [if_neg hk, ReceiveWindow.onData_lossList haccepted, if_neg hgap, if_neg (by omega),
        hloss]
  · intro hunseen
    change (s.window.onData seqNo payload nowMs).1.highestSeen = none at hunseen
    rw [ReceiveWindow.onData_highestSeen haccepted] at hunseen
    exact absurd hunseen (by simp)
  · intro highest hhighest
    change (s.window.onData seqNo payload nowMs).1.highestSeen = some highest at hhighest
    rw [ReceiveWindow.onData_highestSeen haccepted] at hhighest
    obtain rfl := Option.some.inj hhighest
    refine ⟨hopened, ?_, ?_, ?_⟩
    · rw [lastPayload_append_arrival]
      rcases hseen : s.window.highestSeen with _ | old
      · simp
      · rcases le_total old seqNo with hle | hle
        · simp [hle]
        · have harrived := (h.highest old hseen).2.1
          rw [Option.elim_some, max_eq_left hle]
          split
          · rfl
          · exact harrived
    · rw [firstBeyond_none]
      intro q p t hq
      rcases List.mem_append.mp hq with hold | hnew
      · rcases hseen : s.window.highestSeen with _ | old
        · have hfirst := opening_none (h.unseen hseen).1 hold
          simp
          omega
        · have hle := firstBeyond_none.mp (h.highest old hseen).2.2.1 q p t hold
          simp [hle]
      · have heq : q = seqNo := by
          have := List.mem_singleton.mp hnew
          simp at this
          exact this.1
        rcases s.window.highestSeen with _ | old
        · simp [heq]
        · simp [heq]
    · change (s.window.onData seqNo payload nowMs).1.nextExpected ≤ _
      rw [hnext]
      rcases s.window.highestSeen with _ | old
      · simp
        omega
      · simp
        omega
  · change Timeline.Swept first (s.window.onData seqNo payload nowMs).1.nextExpected
      (s.delivered.map Prod.fst) s.dropped
    rw [hnext]
    exact h.swept
  · intro e he
    rcases h.payloads e he with ⟨earlier, time, hpre, hlast⟩
    exact ⟨earlier, time, hpre.trans (List.prefix_append _ _), hlast⟩
  · intro k hk
    rcases h.beyondOpening k hk with ⟨opened, openedAt, hopening, hlt⟩
    exact ⟨opened, openedAt, opening_extend hopening _, hlt⟩

/-- A tick. -/
theorem Follows.tick (h : Follows latencyMs first calls s) {nowMs : ℕ}
    (hcalls : Below u32Max (calls ++ [.tick nowMs])) :
    Follows latencyMs first (calls ++ [.tick nowMs]) (s.step (.tick nowMs)) := by
  rcases ReceiveWindow.onTick_spec h.shows nowMs with ⟨hswept, -, -⟩
  have hdelivered : (s.delivered ++ (s.window.onTick nowMs).2.delivered).map Prod.fst =
      s.delivered.map Prod.fst ++
        (List.range' s.window.nextExpected
          ((s.window.onTick nowMs).1.nextExpected - s.window.nextExpected)).filter
            fun k => (lastPayload calls k).isSome := by
    rw [List.map_append, hswept.delivered]
    simp only [ReceiveTick.default, List.nil_append]
    rw [ReceiveWindow.deliveredOf_numbers]
  have hdropped : (s.window.onTick nowMs).2.dropped =
      (List.range' s.window.nextExpected
        ((s.window.onTick nowMs).1.nextExpected - s.window.nextExpected)).filter
          fun k => !(lastPayload calls k).isSome := by
    rw [hswept.dropped]
    simp [ReceiveTick.default, ReceiveWindow.droppedOf]
  refine ⟨hswept.latencyMs.trans h.latencyMs, shows_log hcalls ?_ ?_, ?_, ?_, ?_, ?_, ?_⟩
  · intro k
    rw [lastPayload_append_tick]
    exact hswept.shows.buffered k
  · intro k
    rw [noticedMissing_append_tick]
    exact hswept.shows.lossList k
  · intro hunseen
    have hunseen' : s.window.highestSeen = none := hswept.highestSeen.symm.trans hunseen
    rcases h.unseen hunseen' with ⟨hopening, hnext⟩
    refine ⟨by rw [opening_append_tick, hopening], ?_⟩
    change (s.window.onTick nowMs).1.nextExpected = first
    by_contra hne
    have hadvanced := hswept.advanced
    have hpayload : lastPayload calls first = none := by
      by_contra hsome
      rcases lastPayload_isSome.mp (Option.isSome_iff_ne_none.mpr hsome) with ⟨p, t, hmem⟩
      have hlt := opening_none hopening hmem
      omega
    rcases hswept.overdue first (by omega) (by omega) hpayload with ⟨since, hsince, -⟩
    rw [noticedMissing_unopened hopening] at hsince
    exact absurd hsince (by simp)
  · intro highest hhighest
    have hhighest' : s.window.highestSeen = some highest := hswept.highestSeen.symm.trans hhighest
    rcases h.highest highest hhighest' with ⟨hopened, harrived, hnone, hnext⟩
    refine ⟨by rw [opening_append_tick]; exact hopened,
      by rw [lastPayload_append_tick]; exact harrived,
      by rw [firstBeyond_append_tick]; exact hnone, ?_⟩
    change (s.window.onTick nowMs).1.nextExpected ≤ highest + 1
    by_contra hgt
    have hmissing : lastPayload calls (highest + 1) = none := by
      by_contra hsome
      rcases lastPayload_isSome.mp (Option.isSome_iff_ne_none.mpr hsome) with ⟨p, t, hmem⟩
      have hle := firstBeyond_none.mp hnone (highest + 1) p t hmem
      omega
    rcases hswept.overdue (highest + 1) hnext (by omega) hmissing with ⟨since, hsince, -⟩
    rcases firstBeyond_some_mem (noticedMissing_some hsince).2.2 with ⟨q, p, hmem, hlt⟩
    have hle := firstBeyond_none.mp hnone q p since hmem
    omega
  · change Timeline.Swept first (s.window.onTick nowMs).1.nextExpected
      ((s.delivered ++ (s.window.onTick nowMs).2.delivered).map Prod.fst)
      (s.dropped ++ (s.window.onTick nowMs).2.dropped)
    rw [hdelivered, hdropped]
    exact h.swept.extend hswept.advanced _
  · intro e he
    rcases List.mem_append.mp he with hold | hnew
    · rcases h.payloads e hold with ⟨earlier, time, hpre, hlast⟩
      exact ⟨earlier, time, hpre.trans (List.prefix_append _ _), hlast⟩
    · rw [hswept.delivered] at hnew
      rcases List.mem_filterMap.mp hnew with ⟨k, -, hk⟩
      rcases Option.map_eq_some_iff.mp hk with ⟨payload, hpayload, rfl⟩
      exact ⟨calls, nowMs, List.prefix_rfl, hpayload⟩
  · intro k hk
    rw [opening_append_tick]
    rcases List.mem_append.mp hk with hold | hnew
    · exact h.beyondOpening k hold
    · rw [hdropped] at hnew
      rcases List.mem_filter.mp hnew with ⟨hrange, hnone⟩
      have hbounds := List.mem_range'_1.mp hrange
      have hpayload : lastPayload calls k = none := by simpa using hnone
      rcases hswept.overdue k (by omega) (by omega) hpayload with ⟨since, hsince, -⟩
      exact (noticedMissing_some hsince).1

end Follows

/-- The window of every run follows the log of its calls. -/
theorem ReceiverRun.after_follows (latencyMs first : ℕ) (calls : List ReceiveCall)
    (hcalls : Below u32Max calls) :
    Follows latencyMs first calls (ReceiverRun.after latencyMs first calls) := by
  induction calls using List.reverseRecOn with
  | nil => exact Follows.new latencyMs first
  | append_singleton calls call ih =>
    have h := ih (hcalls.ofPrefix (List.prefix_append _ _))
    rw [ReceiverRun.after_append_singleton]
    rcases call with ⟨seqNo, payload, nowMs⟩ | nowMs
    · by_cases hstale : seqNo < (ReceiverRun.after latencyMs first calls).window.nextExpected
      · exact h.stale hcalls hstale
      · exact h.accepted hcalls (not_lt.mp hstale)
    · exact h.tick hcalls

/-! ## Account of every number -/

/-- A number that has arrived is not dropped by later calls. -/
theorem ReceiverRun.arrived_not_dropped {latencyMs first : ℕ} {earlier : List ReceiveCall}
    {seqNo nowMs : ℕ} {payload : Bytes} (rest : List ReceiveCall)
    (hcalls : Below u32Max (earlier ++ .arrival seqNo payload nowMs :: rest))
    (hkept : seqNo ∉ (after latencyMs first earlier).dropped) :
    seqNo ∉ (after latencyMs first (earlier ++ .arrival seqNo payload nowMs :: rest)).dropped := by
  induction rest using List.reverseRecOn with
  | nil =>
    rw [after_append_singleton]
    exact hkept
  | append_singleton rest call ih =>
    have hassoc : earlier ++ .arrival seqNo payload nowMs :: (rest ++ [call]) =
        (earlier ++ .arrival seqNo payload nowMs :: rest) ++ [call] := by simp
    rw [hassoc] at hcalls ⊢
    have hbefore := hcalls.ofPrefix (List.prefix_append _ _)
    have hkept' := ih hbefore
    rw [after_append_singleton]
    rcases call with ⟨seqNo', payload', nowMs'⟩ | nowMs'
    · exact hkept'
    · intro hmem
      have hfollows := after_follows latencyMs first _ hbefore
      rcases ReceiveWindow.onTick_spec hfollows.shows nowMs' with ⟨hswept, -, -⟩
      rcases List.mem_append.mp hmem with hold | hnew
      · exact hkept' hold
      · rw [hswept.dropped] at hnew
        have hnone := (List.mem_filter.mp hnew).2
        have hsome : (lastPayload (earlier ++ .arrival seqNo payload nowMs :: rest) seqNo).isSome :=
          lastPayload_isSome.mpr ⟨payload, nowMs, by simp⟩
        rw [Option.isNone_iff_eq_none] at hnone
        rw [hnone] at hsome
        exact absurd hsome (by simp)

/-- The reported numbers are consecutive, payloads are those received, none that came in time is
dropped, and a final tick leaves no number missing for the latency. -/
structure AccountsAfter (latencyMs first : ℕ) (calls : List ReceiveCall) : Prop where
  enumerates : ∃ stop, Timeline.Swept first stop
    ((ReceiverRun.after latencyMs first calls).delivered.map Prod.fst)
    (ReceiverRun.after latencyMs first calls).dropped
  payloads : ∀ e ∈ (ReceiverRun.after latencyMs first calls).delivered, ∃ earlier nowMs,
    earlier ++ [.tick nowMs] <+: calls ∧ lastPayload earlier e.1 = some e.2
  keepsReceived : ∀ earlier seqNo payload nowMs rest,
    calls = earlier ++ .arrival seqNo payload nowMs :: rest →
    seqNo ∉ (ReceiverRun.after latencyMs first earlier).dropped →
    seqNo ∉ (ReceiverRun.after latencyMs first calls).dropped
  neverStalls : ∀ earlier nowMs k since, calls = earlier ++ [.tick nowMs] → first ≤ k →
    lastPayload earlier k = none → k ∉ (ReceiverRun.after latencyMs first calls).dropped →
    firstBeyond earlier k = some since → nowMs < since + latencyMs

/-- By the first tick that comes the latency or more after the opening arrival,
every number before it has arrived. -/
def OpenedInTime (latencyMs first : ℕ) (calls : List ReceiveCall) : Prop :=
  ∀ earlier nowMs opened openedAt, earlier ++ [.tick nowMs] <+: calls →
    opening earlier first = some (opened, openedAt) → openedAt + latencyMs ≤ nowMs →
    ∀ k, first ≤ k → k < opened → (lastPayload earlier k).isSome

section Accounts

variable {latencyMs first : ℕ} {calls : List ReceiveCall}

/-- After a tick a number still missing beyond the opening arrival is young,
and so is one before it as long as the opening arrival is. -/
theorem missing_is_young {nowMs : ℕ} (hcalls : Driven u32Max (calls ++ [.tick nowMs]))
    (hopened : ∀ opened openedAt, opening calls first = some (opened, openedAt) →
      openedAt + latencyMs ≤ nowMs → ∀ k, first ≤ k → k < opened → (lastPayload calls k).isSome)
    {k since : ℕ} (hk : first ≤ k) (hmissing : lastPayload calls k = none)
    (hkept : k ∉ (ReceiverRun.after latencyMs first (calls ++ [.tick nowMs])).dropped)
    (hsince : firstBeyond calls k = some since) : nowMs < since + latencyMs := by
  have hbefore := hcalls.ofPrefix (List.prefix_append _ _)
  have hfollows := ReceiverRun.after_follows latencyMs first calls hbefore.bounded
  have hafter := ReceiverRun.after_follows latencyMs first _ hcalls.bounded
  rw [ReceiverRun.after_append_singleton] at hkept hafter
  rcases ReceiveWindow.onTick_spec hfollows.shows nowMs with ⟨hswept, hrests, -⟩
  -- the window stands at a number that is not after k
  have hfront : (ReceiverRun.after latencyMs first calls |>.window.onTick nowMs).1.nextExpected
      ≤ k := by
    by_contra hlt
    rcases (hafter.swept.taken_or_skipped k).mpr ⟨hk, not_le.mp hlt⟩ with htaken | hskipped
    · rcases List.mem_map.mp htaken with ⟨e, he, rfl⟩
      rcases hafter.payloads e he with ⟨earlier, time, hpre, hlast⟩
      have hpre' : earlier <+: calls :=
        List.prefix_of_prefix_length_le ((List.prefix_append _ _).trans hpre)
          (List.prefix_append _ _) (by have := hpre.length_le; simp at this; omega)
      rcases lastPayload_isSome.mp (by rw [hlast]; rfl) with ⟨p, t, hmem⟩
      have hsome := lastPayload_isSome.mpr ⟨p, t, hpre'.subset hmem⟩
      rw [hmissing] at hsome
      exact absurd hsome (by simp)
    · exact hkept hskipped
  have hstop := hafter.swept.le
  change first ≤ (ReceiverRun.after latencyMs first calls |>.window.onTick nowMs).1.nextExpected
    at hstop
  have hfrontMissing : lastPayload calls
      (ReceiverRun.after latencyMs first calls |>.window.onTick nowMs).1.nextExpected = none := by
    have hrest := hrests.1
    rw [hswept.shows.buffered, if_pos le_rfl] at hrest
    exact hrest
  rcases firstBeyond_mono hbefore.sorted hfront hsince with ⟨frontSince, hfrontSince, hle⟩
  rcases opening_earlier hbefore.sorted hk hsince with ⟨opened, openedAt, hopening, hopenedAt⟩
  by_cases hfrontOpened : opened <
      (ReceiverRun.after latencyMs first calls |>.window.onTick nowMs).1.nextExpected
  · -- beyond the opening arrival: the loss list holds the front
    have hlisted : (ReceiverRun.after latencyMs first calls |>.window.onTick nowMs).1.lossList[
        (ReceiverRun.after latencyMs first calls |>.window.onTick nowMs).1.nextExpected]? =
          some frontSince := by
      rw [hswept.shows.lossList, if_pos le_rfl,
        noticedMissing_eq hopening hfrontOpened hfrontMissing, hfrontSince]
    have hyoung := hrests.2 frontSince hlisted
    rw [hswept.latencyMs, hfollows.latencyMs] at hyoung
    omega
  · -- before it: the front would have arrived, were the opening arrival old
    by_contra hold
    have hne : (ReceiverRun.after latencyMs first calls |>.window.onTick nowMs).1.nextExpected
        ≠ opened := by
      intro heq
      rcases (opening_some_mem hopening).2 with ⟨p, hmem⟩
      have hsome := lastPayload_isSome.mpr ⟨p, openedAt, hmem⟩
      rw [← heq, hfrontMissing] at hsome
      exact absurd hsome (by simp)
    have harrived := hopened opened openedAt hopening (by omega) _ hstop (by omega)
    rw [hfrontMissing] at harrived
    exact absurd harrived (by simp)

/-- A receive window keeps account of every number and never stalls if and only if the numbers
before the opening arrival come in time. -/
theorem receive_window_accounts (latencyMs first : ℕ) (calls : List ReceiveCall)
    (hcalls : Driven u32Max calls) :
    (∀ earlier, earlier <+: calls → AccountsAfter latencyMs first earlier) ↔
      OpenedInTime latencyMs first calls := by
  constructor
  · intro h earlier nowMs opened openedAt hpre hopening hold k hk hlt
    by_contra hnone
    have hmissing : lastPayload earlier k = none := by simpa using hnone
    have hafter := ReceiverRun.after_follows latencyMs first _ (hcalls.ofPrefix hpre).bounded
    have hkept : k ∉ (ReceiverRun.after latencyMs first (earlier ++ [.tick nowMs])).dropped := by
      intro hmem
      rcases hafter.beyondOpening k hmem with ⟨opened', openedAt', hopening', hlt'⟩
      rw [opening_append_tick, hopening] at hopening'
      obtain ⟨rfl, rfl⟩ := Prod.mk.inj (Option.some.inj hopening')
      omega
    have hyoung := (h _ hpre).neverStalls earlier nowMs k openedAt rfl hk hmissing hkept
      (opening_beyond hopening hk hlt)
    omega
  · intro h earlier hpre
    have hbefore := hcalls.ofPrefix hpre
    have hfollows := ReceiverRun.after_follows latencyMs first earlier hbefore.bounded
    refine ⟨⟨_, hfollows.swept⟩, hfollows.payloads, ?_, ?_⟩
    · rintro earlier' seqNo payload nowMs rest rfl hkept
      exact ReceiverRun.arrived_not_dropped rest hbefore.bounded hkept
    · rintro earlier' nowMs k since rfl hk hmissing hkept hsince
      exact missing_is_young hbefore (fun opened openedAt => h earlier' nowMs opened openedAt hpre)
        hk hmissing hkept hsince

/-- A packet in order, a gap after it, and a tick at the deadline of the gap. -/
def gapCalls : List ReceiveCall :=
  [.arrival 1 [1] 0, .arrival 3 [3] 0, .tick 50, .tick 100]

theorem receive_window_accounts_gap :
    Driven u32Max gapCalls ∧ ∀ earlier, earlier <+: gapCalls → AccountsAfter 100 1 earlier := by
  have hcalls : Driven u32Max gapCalls := by
    refine ⟨by unfold gapCalls; decide, ?_⟩
    intro seqNo payload nowMs hmem
    simp only [gapCalls, List.mem_cons, Call.arrival.injEq, reduceCtorEq, List.not_mem_nil,
      or_false] at hmem
    unfold u32Max
    omega
  refine ⟨hcalls, (receive_window_accounts 100 1 gapCalls hcalls).mpr ?_⟩
  intro earlier nowMs opened openedAt hpre hopening _ k hk hlt
  rcases earlier with _ | ⟨c, earlier⟩
  · have hnone : opening ([] : List ReceiveCall) 1 = none := rfl
    rw [hnone] at hopening
    exact absurd hopening (by simp)
  · obtain ⟨rfl, -⟩ := List.cons_prefix_cons.mp hpre
    have hfirst : opening (Call.arrival 1 [(1 : BitVec 8)] 0 :: earlier) 1 = some (1, 0) := rfl
    rw [hfirst] at hopening
    obtain ⟨rfl, -⟩ := Prod.mk.inj (Option.some.inj hopening)
    omega

/-- When the first packet that arrives is not the first expected one, the
window waits for ever. -/
theorem not_accounts_first_lost :
    ¬ AccountsAfter 100 1 [.arrival 2 [2] 0, .tick 1000] := by
  intro h
  have hyoung := h.neverStalls [.arrival 2 [2] 0] 1000 1 0 rfl le_rfl (by decide) (by decide)
    (by decide)
  omega

end Accounts

end Srt
end Vaco
