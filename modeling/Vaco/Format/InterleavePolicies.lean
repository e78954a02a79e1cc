import Vaco.Format.InterleaveRun
import Vaco.Library.Transducer

/-!
# Interleaving policies

A muxer offers a packet to its queue and asks for one in a single call.  One policy
pushes the packet and takes the next one that is ready; the other passes packets straight
through, and first hands on what an earlier policy left in the queue.  The policies may be
swapped between calls.

Main results:

- `Filed.contents_next`: taking a packet drops it from the head of the queue of its stream.
- `Filed.step`: a call that is not lossy conserves the packets of every stream.
- `interleave_keeps_iff`: runs keep every packet they accept, and a failed call changes nothing,
  exactly when no call of the run offers a packet that the queue refuses to the policy that passes
  through while another is held.

Current gaps:

- What the muxer does with a packet it is handed is not part of a run.
-/

namespace Vaco
namespace Format

open Library Vaco.Core StreamMerge

/-! ## The policies -/

namespace InterleaveQueue

/-- Push a packet if there is one. -/
def pushGiven (q : InterleaveQueue) (pkt : Option Packet) : InterleaveQueue × Except Error Unit :=
  match pkt with
  | none => (q, .ok ())
  | some p => q.push p

end InterleaveQueue

/-- Push a packet if there is one, then take a packet if the queue is ready to give one up. -/
def interleavePerDts (queue : InterleaveQueue) (pkt : Option Packet) (flush : Bool) :
    InterleaveQueue × Except Error (Option Packet) :=
  match queue.pushGiven pkt with
  | (queue, .error e) => (queue, .error e)
  | (queue, .ok ()) => ((queue.next flush).1, .ok (queue.next flush).2)

/-- Pass a packet straight through, after anything an earlier policy left behind. -/
def interleaveNone (queue : InterleaveQueue) (pkt : Option Packet) (_flush : Bool) :
    InterleaveQueue × Except Error (Option Packet) :=
  match queue.next true with
  | (queue, some held) =>
      match queue.pushGiven pkt with
      | (queue, .error e) => (queue, .error e)
      | (queue, .ok ()) => (queue, .ok (some held))
  | (queue, none) => (queue, .ok pkt)

/-- The two policies a muxer may have. -/
inductive InterleavePolicy
  | perDts
  | none
deriving DecidableEq

/-- One call: the policy of the moment, the packet offered and whether to flush. -/
structure InterleaveCall where
  policy : InterleavePolicy
  pkt : Option Packet
  flush : Bool

namespace InterleaveCall

/-- A call with nothing to offer that flushes. -/
def flushing (policy : InterleavePolicy) : InterleaveCall where
  policy := policy
  pkt := .none
  flush := true

/-- The packet that an answer accepts. -/
def accepted (c : InterleaveCall) : Except Error (Option Packet) → List Packet
  | .ok _ => c.pkt.toList
  | .error _ => []

end InterleaveCall

/-- Answer a call under its policy. -/
def interleave (queue : InterleaveQueue) (c : InterleaveCall) :
    InterleaveQueue × Except Error (Option Packet) :=
  match c.policy with
  | .perDts => interleavePerDts queue c.pkt c.flush
  | .none => interleaveNone queue c.pkt c.flush

/-- The packet that an answer hands on. -/
def handedOn : Except Error (Option Packet) → List Packet
  | .ok out => out.toList
  | .error _ => []

/-- The packets of a stream. -/
def onStream (s : Nat) (packets : List Packet) : List Packet :=
  packets.filter fun p => p.streamIndex = s

namespace InterleaveQueue

/-- The packets waiting in the queue of a stream. -/
def contents (q : InterleaveQueue) (s : Nat) : List Packet :=
  ((q.perStream[s]?).getD []).map Queued.pkt

def Filed (q : InterleaveQueue) : Prop :=
  ∀ (s : Nat) (p : Packet), p ∈ q.contents s → p.streamIndex = s

/-- The queue refuses unknown streams, and packets without a decode time if it carries times. -/
def Declines (q : InterleaveQueue) (p : Packet) : Prop :=
  q.perStream.length ≤ p.streamIndex ∨
    q.notimestamps = false ∧
      p.dts.rescale ((q.timeBases[p.streamIndex]?).getD Rational.MICROSECONDS)
        Rational.MICROSECONDS Rounding.default = none

/-- A call that passes a packet through which the queue refuses, while another is held. -/
def Lossy (q : InterleaveQueue) (c : InterleaveCall) : Prop :=
  c.policy = .none ∧ q.isEmpty = false ∧ ∃ p, c.pkt = some p ∧ q.Declines p

instance (q : InterleaveQueue) (p : Packet) : Decidable (q.Declines p) :=
  inferInstanceAs (Decidable (_ ∨ _))

instance (q : InterleaveQueue) (c : InterleaveCall) : Decidable (q.Lossy c) :=
  decidable_of_iff (c.policy = .none ∧ q.isEmpty = false ∧
    c.pkt.any (fun p => decide (q.Declines p)) = true) (by
      simp [Lossy, Option.any_eq_true])

/-! ## Packets on a stream -/

@[simp]
theorem onStream_nil (s : Nat) : onStream s [] = [] :=
  rfl

@[simp]
theorem onStream_append (s : Nat) (first second : List Packet) :
    onStream s (first ++ second) = onStream s first ++ onStream s second :=
  List.filter_append first second

theorem contents_of_isEmpty {q : InterleaveQueue} (h : q.isEmpty = true) (s : Nat) :
    q.contents s = [] := by
  rw [contents]
  cases hqueue : q.perStream[s]? with
  | none => rfl
  | some queue =>
      have hnil : queue = [] := by
        have := List.all_eq_true.mp h queue (List.mem_of_getElem? hqueue)
        simpa using this
      rw [hnil]
      rfl

theorem pending_eq_zero_iff (q : InterleaveQueue) : q.pending = 0 ↔ q.isEmpty = true := by
  simp [pending, isEmpty, List.sum_eq_zero_iff]

/-! ## Taking a packet -/

theorem oldest_cases (q : InterleaveQueue) :
    (q.oldest = none ∧ q.isEmpty = true) ∨
      ∃ pick out rest, q.oldest = some (pick, out) ∧ q.perStream[pick]? = some (out :: rest) := by
  cases hold : q.oldest with
  | none =>
      rw [oldest_eq_least] at hold
      exact Or.inl ⟨rfl, (isEmpty_iff_least q).mpr hold⟩
  | some x =>
      rw [oldest_eq_least] at hold
      rcases (least_eq_some_iff (a := x.2)).mp hold with ⟨⟨rest, hx⟩, -⟩
      exact Or.inr ⟨x.1, x.2, rest, rfl, hx⟩

/-- Picking a stream changes the open run only; the picked stream has a packet, and only an
empty queue picks none. -/
theorem pickStream_cases (q : InterleaveQueue) :
    ∃ run, q.pickStream.1 = { q with runStream := run } ∧
      ((q.pickStream.2 = none ∧ q.isEmpty = true) ∨
        ∃ pick out rest, q.pickStream.2 = some pick ∧
          q.perStream[pick]? = some (out :: rest)) := by
  unfold pickStream
  by_cases hchunk : q.chunk.isChunked = true
  · simp only [if_pos hchunk]
    split
    · -- An open run goes on only while its stream has a packet.
      rename_i run hrun
      have hviable := (Option.filter_eq_some_iff.mp hrun).2
      simp only [Bool.and_eq_true, Option.any_eq_true] at hviable
      rcases hviable.1.1 with ⟨queue, hqueue, hne⟩
      cases queue with
      | nil => simp at hne
      | cons out rest => exact ⟨q.runStream, rfl, Or.inr ⟨run, out, rest, rfl, hqueue⟩⟩
    · rcases oldest_cases q with ⟨hold, hempty⟩ | ⟨pick, out, rest, hold, hqueue⟩
      · rw [hold]
        exact ⟨none, rfl, Or.inl ⟨rfl, hempty⟩⟩
      · rw [hold]
        exact ⟨none, rfl, Or.inr ⟨pick, out, rest, rfl, hqueue⟩⟩
  · simp only [if_neg hchunk]
    rcases oldest_cases q with ⟨hold, hempty⟩ | ⟨pick, out, rest, hold, hqueue⟩
    · rw [hold]
      exact ⟨q.runStream, rfl, Or.inl ⟨rfl, hempty⟩⟩
    · rw [hold]
      exact ⟨none, rfl, Or.inr ⟨pick, out, rest, rfl, hqueue⟩⟩

/-- Taking an entry drops it from the head of a queue, or changes none; a flush takes one if it can.
-/
theorem nextEntry_cases (q : InterleaveQueue) (flush : Bool) :
    (q.nextEntry flush).1.timeBases = q.timeBases ∧
      (q.nextEntry flush).1.notimestamps = q.notimestamps ∧
      (((q.nextEntry flush).2 = none ∧ (q.nextEntry flush).1.perStream = q.perStream ∧
          (flush = true → q.isEmpty = true)) ∨
        ∃ pick out rest, (q.nextEntry flush).2 = some (pick, out) ∧
          q.perStream[pick]? = some (out :: rest) ∧
          (q.nextEntry flush).1.perStream = q.perStream.modify pick List.tail) := by
  unfold nextEntry
  split
  · rename_i hempty
    exact ⟨rfl, rfl, Or.inl ⟨rfl, rfl, fun _ => hempty⟩⟩
  · split
    · rename_i hwait
      refine ⟨rfl, rfl, Or.inl ⟨rfl, rfl, ?_⟩⟩
      rintro rfl
      simp at hwait
    · rcases pickStream_cases q with
        ⟨run, hstate, ⟨hnone, hempty⟩ | ⟨pick, out, rest, hpick, hqueue⟩⟩
      · rw [show q.pickStream = ({ q with runStream := run }, none) from Prod.ext hstate hnone]
        exact ⟨rfl, rfl, Or.inl ⟨rfl, rfl, fun _ => hempty⟩⟩
      · rw [show q.pickStream = ({ q with runStream := run }, some pick) from
          Prod.ext hstate hpick]
        have hhead : (q.perStream[pick]?).bind List.head? = some out := by
          rw [hqueue]
          rfl
        simp only [hhead]
        unfold advanceRun
        split
        · exact ⟨rfl, rfl, Or.inr ⟨pick, out, rest, rfl, hqueue, rfl⟩⟩
        · exact ⟨rfl, rfl, Or.inr ⟨pick, out, rest, rfl, hqueue, rfl⟩⟩

theorem declines_next (q : InterleaveQueue) (flush : Bool) (p : Packet) :
    (q.next flush).1.Declines p ↔ q.Declines p := by
  rcases nextEntry_cases q flush with ⟨htb, hno, hcase⟩
  have hlen : (q.nextEntry flush).1.perStream.length = q.perStream.length := by
    rcases hcase with ⟨-, hsame, -⟩ | ⟨pick, out, rest, -, -, htaken⟩
    · rw [hsame]
    · rw [htaken, List.length_modify]
  rw [Declines, Declines, next, htb, hno, hlen]

/-- Taking a packet drops it from the head of the queue of its stream. -/
theorem Filed.contents_next {q : InterleaveQueue} (h : q.Filed) (flush : Bool) (s : Nat) :
    q.contents s = onStream s (q.next flush).2.toList ++ (q.next flush).1.contents s := by
  rcases nextEntry_cases q flush with
    ⟨-, -, ⟨hnone, hsame, -⟩ | ⟨pick, out, rest, hout, hqueue, htaken⟩⟩
  · simp [next, hnone, contents, hsame]
  · have hown : out.pkt.streamIndex = pick := by
      apply h
      rw [contents, hqueue]
      exact List.mem_cons_self
    rw [next, hout, contents, contents, htaken, List.getElem?_modify]
    by_cases hs : pick = s
    · subst hs
      simp [hqueue, onStream, hown]
    · simp [hs, onStream, hown]

theorem Filed.next {q : InterleaveQueue} (h : q.Filed) (flush : Bool) :
    (q.next flush).1.Filed := by
  intro s p hp
  apply h s p
  rw [h.contents_next flush s]
  exact List.mem_append_right _ hp

theorem next_true_eq_none_iff (q : InterleaveQueue) :
    (q.next true).2 = none ↔ q.isEmpty = true := by
  rw [InterleaveQueue.next, Option.map_eq_none_iff]
  rcases nextEntry_cases q true with
    ⟨-, -, ⟨hnone, -, hempty⟩ | ⟨pick, out, rest, hout, hqueue, -⟩⟩
  · exact ⟨fun _ => hempty rfl, fun _ => hnone⟩
  · rw [hout]
    constructor
    · intro h
      cases h
    intro hempty
    have := List.all_eq_true.mp hempty _ (List.mem_of_getElem? hqueue)
    simp at this

theorem pending_next_true (q : InterleaveQueue) : (q.next true).1.pending = q.pending - 1 := by
  rcases nextEntry_cases q true with
    ⟨-, -, ⟨-, hsame, hempty⟩ | ⟨pick, out, rest, -, hqueue, htaken⟩⟩
  · have hzero := (pending_eq_zero_iff q).mpr (hempty rfl)
    have hpending : (q.next true).1.pending = q.pending :=
      congrArg (fun queues => (queues.map List.length).sum) hsame
    omega
  · have hlen := (queuedItems_take hqueue).length_eq
    rw [pending_eq, pending_eq, InterleaveQueue.next, htaken]
    simp only [List.length_cons] at hlen
    omega

/-! ## Pushing a packet -/

theorem declines_iff (q : InterleaveQueue) (p : Packet) :
    q.Declines p ↔ ∃ e, q.entryFor p = .error e := by
  unfold Declines entryFor dtsUs
  by_cases hstream : p.streamIndex < q.perStream.length
  · rw [if_pos hstream]
    cases p.dts.rescale ((q.timeBases[p.streamIndex]?).getD Rational.MICROSECONDS)
        Rational.MICROSECONDS Rounding.default with
    | some t => simp [hstream]
    | none => cases q.notimestamps <;> simp [hstream]
  · rw [if_neg hstream]
    simp [not_lt.mp hstream]

/-- A packet that is pushed joins the end of the queue of its stream; a push that fails
leaves the queue as it was. -/
theorem pushGiven_cases (q : InterleaveQueue) (pkt : Option Packet) :
    ((q.pushGiven pkt).2 = .ok () ∧ (∀ p ∈ pkt, ¬q.Declines p) ∧
        ∀ s, (q.pushGiven pkt).1.contents s = q.contents s ++ onStream s pkt.toList) ∨
      ∃ e, (q.pushGiven pkt).2 = .error e ∧ (q.pushGiven pkt).1 = q ∧
        ∃ p ∈ pkt, q.Declines p := by
  cases pkt with
  | none => exact Or.inl ⟨rfl, by simp, by simp [pushGiven]⟩
  | some p =>
      cases hentry : q.entryFor p with
      | error e =>
          exact Or.inr ⟨e, by simp [pushGiven, push, hentry], push_of_refused hentry, p, rfl,
            (declines_iff q p).mpr ⟨e, hentry⟩⟩
      | ok ok =>
          rcases ok with ⟨entry, dtsUs⟩
          rcases entryFor_ok hentry with ⟨hstream, -, hnew⟩
          refine Or.inl ⟨by simp [pushGiven, push, hentry], ?_, ?_⟩
          · simp [declines_iff, hentry]
          · intro s
            have hstate : (q.pushGiven (some p)).1 = _ := push_of_entryFor hentry
            rw [hstate, contents, contents, List.getElem?_modify]
            by_cases hs : p.streamIndex = s
            · subst hs
              simp [hstream, onStream, hnew]
            · simp [hs, onStream]

theorem Filed.of_contents {q q' : InterleaveQueue} (h : q.Filed) {packets : List Packet}
    (hcontents : ∀ s, q'.contents s = q.contents s ++ onStream s packets) : q'.Filed := by
  intro s p hp
  rw [hcontents, List.mem_append] at hp
  rcases hp with hp | hp
  · exact h s p hp
  · simpa using (List.mem_filter.mp hp).2

/-! ## Queues in use -/

/-- The queues that the operations of a muxer build. -/
inductive Reachable : InterleaveQueue → Prop
  | new (streamCount : Nat) (opts : FormatOptions) : Reachable (new streamCount opts)
  | setTimeBase {q : InterleaveQueue} (h : Reachable q) (i : Nat) (tb : TimeBase) :
      Reachable (q.setTimeBase i tb)
  | setPreloaded {q : InterleaveQueue} (h : Reachable q) (i : Nat) (preloaded : Bool) :
      Reachable (q.setPreloaded i preloaded)
  | withoutTimestamps {q : InterleaveQueue} (h : Reachable q) : Reachable q.withoutTimestamps
  | endStream {q : InterleaveQueue} (h : Reachable q) (i : Nat) : Reachable (q.endStream i)
  | push {q : InterleaveQueue} (h : Reachable q) (p : Packet) : Reachable (q.push p).1
  | next {q : InterleaveQueue} (h : Reachable q) (flush : Bool) : Reachable (q.next flush).1

/-- Every queue in use is filed. -/
theorem Reachable.filed {q : InterleaveQueue} (h : q.Reachable) : q.Filed := by
  induction h with
  | new streamCount opts =>
      intro s p hp
      rw [contents_of_isEmpty (List.all_eq_true.mpr ?_)] at hp
      · cases hp
      · intro queue hqueue
        rw [List.eq_of_mem_replicate hqueue]
        rfl
  | setTimeBase _ _ _ ih => exact ih
  | setPreloaded _ _ _ ih => exact ih
  | withoutTimestamps _ ih => exact ih
  | endStream _ _ ih => exact ih
  | push _ p ih =>
      rename_i q _
      rcases pushGiven_cases q (some p) with ⟨-, -, hcontents⟩ | ⟨e, -, hsame, -⟩
      · exact ih.of_contents hcontents
      · have hqueue : (q.push p).1 = q := hsame
        rw [hqueue]
        exact ih
  | next _ flush ih => exact ih.next flush

/-! ## One call -/

/-- A call conserves the packets of every stream, and changes no queue when it fails. -/
structure Conserves (q : InterleaveQueue) (c : InterleaveCall)
    (after : InterleaveQueue × Except Error (Option Packet)) : Prop where
  filed : after.1.Filed
  failed : ∀ e, after.2 = .error e → after.1.perStream = q.perStream
  packets : ∀ s, q.contents s ++ onStream s (c.accepted after.2) =
    onStream s (handedOn after.2) ++ after.1.contents s

theorem Filed.interleavePerDts {q : InterleaveQueue} (h : q.Filed) (c : InterleaveCall) :
    q.Conserves c (interleavePerDts q c.pkt c.flush) := by
  unfold Format.interleavePerDts
  rcases pushGiven_cases q c.pkt with ⟨hanswer, -, hcontents⟩ | ⟨e, hanswer, hsame, -⟩
  · have hfiled : (q.pushGiven c.pkt).1.Filed := h.of_contents hcontents
    rw [show q.pushGiven c.pkt = ((q.pushGiven c.pkt).1, .ok ()) from Prod.ext rfl hanswer]
    refine ⟨hfiled.next c.flush, fun _ he => (nomatch he), fun s => ?_⟩
    calc
      q.contents s ++ onStream s c.pkt.toList = (q.pushGiven c.pkt).1.contents s :=
        (hcontents s).symm
      _ = _ := hfiled.contents_next c.flush s
  · rw [show q.pushGiven c.pkt = (q, .error e) from Prod.ext hsame hanswer]
    refine ⟨h, fun _ _ => rfl, fun s => ?_⟩
    simp [InterleaveCall.accepted, handedOn]

/-- Passing a packet through conserves packets unless it is refused while another is held. -/
theorem Filed.interleaveNone {q : InterleaveQueue} (h : q.Filed) {c : InterleaveCall}
    (hc : q.isEmpty = false → ∀ p ∈ c.pkt, ¬q.Declines p) :
    q.Conserves c (interleaveNone q c.pkt c.flush) := by
  unfold Format.interleaveNone
  have hnext := h.contents_next true
  cases htaken : (q.next true).2 with
  | none =>
      have hempty := (next_true_eq_none_iff q).mp htaken
      rw [show q.next true = ((q.next true).1, none) from Prod.ext rfl htaken]
      refine ⟨h.next true, fun _ he => (nomatch he), fun s => ?_⟩
      have hkept : (q.next true).1.contents s = [] := by
        have := hnext s
        rw [contents_of_isEmpty hempty s, htaken] at this
        simpa using this.symm
      rw [contents_of_isEmpty hempty s, hkept, List.append_nil]
      rfl
  | some held =>
      have hheld : q.isEmpty = false := by
        rw [← Bool.not_eq_true, ← next_true_eq_none_iff, htaken]
        exact Option.some_ne_none held
      rw [show q.next true = ((q.next true).1, some held) from Prod.ext rfl htaken]
      dsimp only
      rcases pushGiven_cases (q.next true).1 c.pkt with
        ⟨hanswer, -, hcontents⟩ | ⟨e, -, -, p, hp, hdeclines⟩
      · rw [show (q.next true).1.pushGiven c.pkt = (((q.next true).1.pushGiven c.pkt).1, .ok ())
          from Prod.ext rfl hanswer]
        refine ⟨(h.next true).of_contents hcontents, fun _ he => (nomatch he), fun s => ?_⟩
        have hkept := hcontents s
        dsimp only at hkept ⊢
        rw [hkept, hnext s, htaken, List.append_assoc]
        rfl
      · exact absurd ((declines_next q true p).mp hdeclines) (hc hheld p hp)

/-- A call that is not lossy conserves the packets of every stream. -/
theorem Filed.step {q : InterleaveQueue} (h : q.Filed) {c : InterleaveCall} (hc : ¬q.Lossy c) :
    q.Conserves c (interleave q c) := by
  unfold interleave
  cases hpolicy : c.policy with
  | perDts => exact h.interleavePerDts c
  | none =>
      apply h.interleaveNone
      intro hheld p hp hdeclines
      exact hc ⟨hpolicy, hheld, p, hp, hdeclines⟩

/-- A lossy call fails and changes the queues. -/
theorem Lossy.step {q : InterleaveQueue} {c : InterleaveCall} (h : q.Lossy c) :
    ∃ e, (interleave q c).2 = .error e ∧ (interleave q c).1.perStream ≠ q.perStream := by
  rcases h with ⟨hpolicy, hheld, p, hp, hdeclines⟩
  rw [interleave, hpolicy]
  unfold Format.interleaveNone
  cases htaken : (q.next true).2 with
  | none =>
      have hempty := (next_true_eq_none_iff q).mp htaken
      rw [hheld] at hempty
      cases hempty
  | some held =>
      rw [show q.next true = ((q.next true).1, some held) from Prod.ext rfl htaken]
      dsimp only
      rcases pushGiven_cases (q.next true).1 c.pkt with
        ⟨-, hopen, -⟩ | ⟨e, hanswer, hsame, -⟩
      · exact absurd ((declines_next q true p).mpr hdeclines) (hopen p hp)
      · rw [show (q.next true).1.pushGiven c.pkt = ((q.next true).1, .error e) from
          Prod.ext hsame hanswer]
        refine ⟨e, rfl, fun hqueues => ?_⟩
        -- The packet that was taken is in no queue any more.
        have hpending : (q.next true).1.pending = q.pending :=
          congrArg (fun queues => (queues.map List.length).sum) hqueues
        rw [pending_next_true] at hpending
        have hzero : q.pending = 0 := by omega
        rw [pending_eq_zero_iff, hheld] at hzero
        cases hzero

/-! ## Runs -/

theorem interleave_flushing (q : InterleaveQueue) (policy : InterleavePolicy) :
    (interleave q (.flushing policy)).1 = (q.next true).1 := by
  cases policy with
  | perDts => rfl
  | none =>
      simp only [interleave, InterleaveCall.flushing, Format.interleaveNone, pushGiven]
      split <;> rename_i h <;> rw [h]

theorem pending_flushes (q : InterleaveQueue) (flushes : List InterleavePolicy) :
    (Transducer.stateAfter interleave q (flushes.map .flushing)).pending =
      q.pending - flushes.length := by
  induction flushes generalizing q with
  | nil => rfl
  | cons policy flushes ih =>
      rw [List.map_cons, Transducer.stateAfter_cons, ih, interleave_flushing, pending_next_true,
        List.length_cons]
      omega

theorem admissible_flushes (q : InterleaveQueue) (flushes : List InterleavePolicy) :
    Transducer.Admissible interleave (fun q c => ¬q.Lossy c) q (flushes.map .flushing) := by
  induction flushes generalizing q with
  | nil => trivial
  | cons policy flushes ih =>
      refine ⟨?_, ih _⟩
      rintro ⟨-, -, p, hp, -⟩
      cases hp

end InterleaveQueue

/-- The packets that a run accepted. -/
def packetsAccepted (trace : List (InterleaveCall × Except Error (Option Packet))) :
    List Packet :=
  trace.flatMap fun x => x.1.accepted x.2

/-- The packets that a run handed on. -/
def packetsHandedOn (trace : List (InterleaveCall × Except Error (Option Packet))) :
    List Packet :=
  trace.flatMap fun x => handedOn x.2

namespace InterleaveQueue

theorem packetsAccepted_flushes (q : InterleaveQueue) (flushes : List InterleavePolicy) :
    packetsAccepted (Transducer.trace interleave q (flushes.map .flushing)) = [] := by
  induction flushes generalizing q with
  | nil => rfl
  | cons policy flushes ih =>
      rw [List.map_cons, Transducer.trace_cons, packetsAccepted, List.flatMap_cons]
      cases (interleave q (.flushing policy)).2 with
      | ok out => exact ih _
      | error e => exact ih _

/-- Failed calls change nothing, and a flush hands on, on every stream, what was waiting and what
was accepted, in order. -/
structure KeepsPackets (q : InterleaveQueue) (calls : List InterleaveCall) : Prop where
  failed : ∀ earlier c later e, calls = earlier ++ c :: later →
    (interleave (Transducer.stateAfter interleave q earlier) c).2 = .error e →
      (interleave (Transducer.stateAfter interleave q earlier) c).1.perStream =
        (Transducer.stateAfter interleave q earlier).perStream
  emitted : ∀ flushes : List InterleavePolicy,
    (Transducer.stateAfter interleave q calls).pending ≤ flushes.length → ∀ s,
      q.contents s ++ onStream s (packetsAccepted (Transducer.trace interleave q calls)) =
        onStream s (packetsHandedOn
          (Transducer.trace interleave q (calls ++ flushes.map .flushing)))

/-- A run without a lossy call conserves the packets of every stream. -/
theorem Filed.run {q : InterleaveQueue} (h : q.Filed) {calls : List InterleaveCall}
    (hcalls : Transducer.Admissible interleave (fun q c => ¬q.Lossy c) q calls) :
    (Transducer.stateAfter interleave q calls).Filed ∧ ∀ s,
      q.contents s ++ onStream s (packetsAccepted (Transducer.trace interleave q calls)) =
        onStream s (packetsHandedOn (Transducer.trace interleave q calls)) ++
          (Transducer.stateAfter interleave q calls).contents s := by
  refine Transducer.history_induction (H := fun past q' => q'.Filed ∧ ∀ s,
    q.contents s ++ onStream s (packetsAccepted past) =
      onStream s (packetsHandedOn past) ++ q'.contents s) ⟨h, fun s => ?_⟩ ?_ hcalls
  · simp [packetsAccepted, packetsHandedOn]
  · rintro past q' c ⟨hfiled, hpast⟩ hc
    have hstep := hfiled.step hc
    refine ⟨hstep.filed, fun s => ?_⟩
    have haccepted : packetsAccepted (past ++ [(c, (interleave q' c).2)]) =
        packetsAccepted past ++ c.accepted (interleave q' c).2 := by
      simp [packetsAccepted]
    have hhanded : packetsHandedOn (past ++ [(c, (interleave q' c).2)]) =
        packetsHandedOn past ++ handedOn (interleave q' c).2 := by
      simp [packetsHandedOn]
    rw [haccepted, hhanded, onStream_append, onStream_append, ← List.append_assoc, hpast s,
      List.append_assoc, hstep.packets s, List.append_assoc]

/-- Runs keep every packet exactly when no call passes through a packet that is refused while
another is held. -/
theorem interleave_keeps_iff {q : InterleaveQueue} (hq : q.Filed) (calls : List InterleaveCall) :
    q.KeepsPackets calls ↔
      Transducer.Admissible interleave (fun q c => ¬q.Lossy c) q calls := by
  constructor
  · intro h
    rw [Transducer.admissible_iff_forall]
    intro earlier c later hcut hlossy
    rcases hlossy.step with ⟨e, herror, hchanged⟩
    exact hchanged (h.failed earlier c later e hcut herror)
  · intro h
    constructor
    · intro earlier c later e hcut herror
      have hearlier := h
      rw [hcut, Transducer.admissible_append] at hearlier
      exact ((hq.run hearlier.1).1.step hearlier.2.1).failed e herror
    · intro flushes hflushes s
      have hall : Transducer.Admissible interleave (fun q c => ¬q.Lossy c) q
          (calls ++ flushes.map .flushing) :=
        (Transducer.admissible_append q _ _).mpr ⟨h, admissible_flushes _ flushes⟩
      have hempty : (Transducer.stateAfter interleave q
          (calls ++ flushes.map .flushing)).contents s = [] := by
        apply contents_of_isEmpty
        rw [← pending_eq_zero_iff, Transducer.stateAfter_append, pending_flushes]
        omega
      have hrun := (hq.run hall).2 s
      rw [hempty, List.append_nil] at hrun
      rw [← hrun, Transducer.trace_append]
      have hnothing := packetsAccepted_flushes (Transducer.stateAfter interleave q calls) flushes
      simp only [packetsAccepted, List.flatMap_append] at hnothing ⊢
      rw [hnothing, List.append_nil]

/-- The policies are swapped while a packet is held, and no packet is lost. -/
theorem interleave_keeps_swapped :
    ((new 1 FormatOptions.default).push
        { Packet.empty with dts := some (clampI64 3) }).1.KeepsPackets
      [⟨.perDts, some { Packet.empty with dts := some (clampI64 5) }, false⟩,
        ⟨.none, some { Packet.empty with dts := some (clampI64 7) }, false⟩,
        ⟨.none, none, false⟩, ⟨.perDts, some { Packet.empty with streamIndex := 4 }, false⟩] :=
  (interleave_keeps_iff (((Reachable.new 1 FormatOptions.default).push _).filed) _).mpr
    (by decide +kernel)

/-- A held packet is lost when one of a stream the queue does not have is passed through. -/
theorem interleave_none_drops :
    ¬((new 1 FormatOptions.default).push
        { Packet.empty with dts := some (clampI64 3) }).1.KeepsPackets
      [⟨.none, some { Packet.empty with streamIndex := 1 }, false⟩] := by
  intro h
  have hlossy : ((new 1 FormatOptions.default).push
      { Packet.empty with dts := some (clampI64 3) }).1.Lossy
      ⟨.none, some { Packet.empty with streamIndex := 1 }, false⟩ := by
    decide +kernel
  rcases hlossy.step with ⟨e, herror, hchanged⟩
  exact hchanged (h.failed [] _ [] e rfl herror)

end InterleaveQueue
end Format
end Vaco
