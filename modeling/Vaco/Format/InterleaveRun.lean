import Vaco.Format.InterleaveQueue
import Vaco.Library.Transducer

/-!
# Runs of the interleave queue

Packets are pushed, streams end, and the muxer asks for the next packet whenever it
likes.  Without a chunk policy, and while the sparse escape stays silent, the queue is
a streaming merge of its streams.

Main results:

- `InterleaveQueue.merging_run`: every run keeps the merge invariant.
- `InterleaveQueue.merge_run`: what has left is merged.

Current gaps:

- Runs with a chunk policy, and runs in which a sparse stream is overtaken, are left
  out: they give up the order between streams by design.
-/

namespace Vaco
namespace Format

open Library Vaco.Core StreamMerge

/-- One call on the queue. -/
inductive QueueCall where
  | push (pkt : Packet)
  | endStream (streamIndex : Nat)
  | next
deriving DecidableEq

/-- What a call on the queue does. -/
inductive QueueEvent where
  | accepted (x : Nat × Queued)
  | refused (e : Error)
  | ended
  | emitted (x : Nat × Queued)
  | waiting
deriving DecidableEq

def acceptedIn (events : List QueueEvent) : List (Nat × Queued) :=
  events.filterMap fun event => match event with
    | .accepted x => some x
    | _ => none

def emittedIn (events : List QueueEvent) : List (Nat × Queued) :=
  events.filterMap fun event => match event with
    | .emitted x => some x
    | _ => none

/-- The keys of each stream do not decrease. -/
def KeysOrdered (xs : List (Nat × Queued)) : Prop :=
  xs.Pairwise fun x y => x.1 = y.1 → x.2.keyUs ≤ y.2.keyUs

instance (xs : List (Nat × Queued)) : Decidable (KeysOrdered xs) :=
  inferInstanceAs (Decidable (xs.Pairwise _))

/-- Nothing that has left has a greater key than something accepted after it. -/
def EmittedBelowLater (events : List QueueEvent) : Prop :=
  events.Pairwise fun earlier later =>
    ∀ x ∈ emittedIn [earlier], ∀ y ∈ acceptedIn [later], x.2.keyUs ≤ y.2.keyUs

namespace InterleaveQueue

/-- A queue that was set up and not used yet. -/
structure Fresh (q : InterleaveQueue) : Prop where
  empty : ∀ queue ∈ q.perStream, queue = []
  live : q.live = List.replicate q.perStream.length true
  seq : q.seq = 0

theorem fresh_new (streamCount : Nat) (opts : FormatOptions) : (new streamCount opts).Fresh where
  empty := fun queue h => List.eq_of_mem_replicate h
  live := by simp [new]
  seq := rfl

theorem Fresh.setTimeBase {q : InterleaveQueue} (h : q.Fresh) (i : Nat) (tb : TimeBase) :
    (q.setTimeBase i tb).Fresh :=
  ⟨h.empty, h.live, h.seq⟩

/-- Answer one call. -/
def call (q : InterleaveQueue) : QueueCall → InterleaveQueue × QueueEvent
  | .push pkt =>
      ((q.push pkt).1,
        match q.entryFor pkt with
        | .ok (entry, _) => .accepted (pkt.streamIndex, entry)
        | .error e => .refused e)
  | .endStream i => (q.endStream i, .ended)
  | .next =>
      ((q.nextEntry false).1,
        match (q.nextEntry false).2 with
        | some x => .emitted x
        | none => .waiting)

/-- A call that respects the ends of the streams, in a state in which the sparse escape
does not let a packet out. -/
def Respects (q : InterleaveQueue) : QueueCall → Prop
  | .push pkt => q.live[pkt.streamIndex]? ≠ some false
  | .endStream _ => True
  | .next => q.allReady = true ∨ q.sparseEscape = false

instance (q : InterleaveQueue) (c : QueueCall) : Decidable (q.Respects c) := by
  cases c <;> unfold Respects <;> infer_instance

/-- The events of a run. -/
def events (q : InterleaveQueue) (calls : List QueueCall) : List QueueEvent :=
  Transducer.outputs call q calls

/-- The queue after a run. -/
def afterCalls (q : InterleaveQueue) (calls : List QueueCall) : InterleaveQueue :=
  Transducer.stateAfter call q calls

/-- What holds after every run: the events merge the streams so far. -/
structure RunHolds (past : List QueueEvent) (q : InterleaveQueue) : Prop where
  unchunked : q.chunk.isChunked = false
  streams : q.live.length = q.perStream.length
  merging : Merging Queued.keyUs (acceptedIn past) (emittedIn past) q.perStream
    fun i => q.live[i]? = some true
  final : EmittedBelowLater past
  arrivals : (acceptedIn past).Pairwise fun x y => x.2.seq ≤ y.2.seq
  arrived : ∀ x ∈ acceptedIn past, x.2.seq ≤ q.seq
  seq_le : q.seq ≤ u64Max

/-! ## What one call does -/

@[simp]
theorem acceptedIn_append (first second : List QueueEvent) :
    acceptedIn (first ++ second) = acceptedIn first ++ acceptedIn second :=
  List.filterMap_append

@[simp]
theorem emittedIn_append (first second : List QueueEvent) :
    emittedIn (first ++ second) = emittedIn first ++ emittedIn second :=
  List.filterMap_append

theorem emittedBelowLater_append {past : List QueueEvent} {event : QueueEvent}
    (hpast : EmittedBelowLater past)
    (h : ∀ x ∈ emittedIn past, ∀ y ∈ acceptedIn [event], x.2.keyUs ≤ y.2.keyUs) :
    EmittedBelowLater (past ++ [event]) := by
  refine List.pairwise_append.mpr ⟨hpast, List.pairwise_singleton _ _, ?_⟩
  intro earlier hearlier later hlater x hx
  rw [List.mem_singleton.mp hlater]
  refine h x ?_
  rcases List.mem_filterMap.mp hx with ⟨event', hevent', hx'⟩
  rw [List.mem_singleton.mp hevent'] at hx'
  exact List.mem_filterMap.mpr ⟨earlier, hearlier, hx'⟩

theorem push_of_entryFor {q : InterleaveQueue} {pkt : Packet} {entry : Queued} {dtsUs : I64}
    (h : q.entryFor pkt = .ok (entry, dtsUs)) :
    (q.push pkt).1 =
      { q with
        newestUs := some ((q.newestUs.map fun n => max n dtsUs).getD dtsUs)
        seq := entry.seq
        perStream := q.perStream.modify pkt.streamIndex (· ++ [entry]) } := by
  rw [push, h]

theorem entryFor_ok {q : InterleaveQueue} {pkt : Packet} {entry : Queued} {dtsUs : I64}
    (h : q.entryFor pkt = .ok (entry, dtsUs)) :
    pkt.streamIndex < q.perStream.length ∧ q.dtsUs pkt = .ok dtsUs ∧
      entry = { pkt := pkt, keyUs := q.keyUs pkt.streamIndex dtsUs,
                seq := min (q.seq + 1) u64Max } := by
  unfold entryFor at h
  split at h
  · rename_i hstream
    split at h
    · cases h
    · rename_i t ht
      cases h
      exact ⟨hstream, ht, rfl⟩
  · cases h

theorem push_of_refused {q : InterleaveQueue} {pkt : Packet} {e : Error}
    (h : q.entryFor pkt = .error e) : (q.push pkt).1 = q := by
  rw [push, h]

namespace RunHolds

variable {past : List QueueEvent} {q : InterleaveQueue}

theorem start (hfresh : q.Fresh) (hchunk : q.chunk.isChunked = false) : RunHolds [] q where
  unchunked := hchunk
  streams := by simp [hfresh.live]
  merging := Merging.start hfresh.empty _
  final := List.Pairwise.nil
  arrivals := List.Pairwise.nil
  arrived := by simp [acceptedIn]
  seq_le := by simp [hfresh.seq]

theorem of_idle (h : RunHolds past q) {q' : InterleaveQueue} {event : QueueEvent}
    (haccepted : acceptedIn [event] = []) (hemitted : emittedIn [event] = [])
    (hchunk : q'.chunk = q.chunk) (hqueues : q'.perStream = q.perStream)
    (hlive : ∀ i : Nat, q'.live[i]? = some true → q.live[i]? = some true)
    (hlength : q'.live.length = q.live.length) (hseq : q'.seq = q.seq) :
    RunHolds (past ++ [event]) q' where
  unchunked := by rw [hchunk, h.unchunked]
  streams := by rw [hlength, hqueues, h.streams]
  merging := by
    rw [acceptedIn_append, emittedIn_append, haccepted, hemitted, List.append_nil,
      List.append_nil, hqueues]
    exact h.merging.close hlive
  final := emittedBelowLater_append h.final (by simp [haccepted])
  arrivals := by simpa [haccepted] using h.arrivals
  arrived := by simpa [haccepted, hseq] using h.arrived
  seq_le := by rw [hseq]; exact h.seq_le

/-- A push keeps what holds. -/
theorem push (h : RunHolds past q) {pkt : Packet} (hopen : q.live[pkt.streamIndex]? ≠ some false)
    (hordered : KeysOrdered (acceptedIn (past ++ [(q.call (.push pkt)).2]))) :
    RunHolds (past ++ [(q.call (.push pkt)).2]) (q.call (.push pkt)).1 := by
  cases hentry : q.entryFor pkt with
  | error e =>
      have hevent : (q.call (.push pkt)).2 = .refused e := by simp [call, hentry]
      have hstate : (q.call (.push pkt)).1 = q := push_of_refused hentry
      rw [hevent, hstate]
      exact h.of_idle rfl rfl rfl rfl (fun _ hi => hi) rfl rfl
  | ok ok =>
      rcases ok with ⟨entry, dtsUs⟩
      rcases entryFor_ok hentry with ⟨hstream, -, hnew⟩
      have hevent : (q.call (.push pkt)).2 = .accepted (pkt.streamIndex, entry) := by
        simp [call, hentry]
      have hstate : (q.call (.push pkt)).1 = _ := push_of_entryFor hentry
      have haccepted : acceptedIn [(q.call (.push pkt)).2] = [(pkt.streamIndex, entry)] := by
        rw [hevent]
        rfl
      have hemitted : emittedIn [(q.call (.push pkt)).2] = [] := by
        rw [hevent]
        rfl
      have hlive : q.live[pkt.streamIndex]? = some true := by
        have hlt : pkt.streamIndex < q.live.length := by
          rw [h.streams]
          exact hstream
        rw [List.getElem?_eq_getElem hlt] at hopen ⊢
        simpa using hopen
      rw [KeysOrdered, acceptedIn_append, haccepted, List.pairwise_append] at hordered
      have hlater : ∀ b, (pkt.streamIndex, b) ∈ acceptedIn past → b.keyUs ≤ entry.keyUs := by
        intro b hb
        exact hordered.2.2 _ hb _ (List.mem_singleton_self _) rfl
      have hseq : entry.seq = min (q.seq + 1) u64Max := by rw [hnew]
      have hseq_le := h.seq_le
      have hmono : q.seq ≤ entry.seq := by omega
      have hmerging := h.merging.push hlive hstream hlater
      rw [hstate]
      constructor
      · exact h.unchunked
      · simpa using h.streams
      · rw [acceptedIn_append, emittedIn_append, haccepted, hemitted, List.append_nil]
        exact hmerging
      · refine emittedBelowLater_append h.final ?_
        intro x hx y hy
        rw [haccepted, List.mem_singleton] at hy
        rw [hy]
        exact key_le_of_rank_le (h.merging.key_le_of_open hlive hlater x hx)
      · rw [acceptedIn_append, haccepted, List.pairwise_append]
        refine ⟨h.arrivals, List.pairwise_singleton _ _, ?_⟩
        intro x hx y hy
        rw [List.mem_singleton.mp hy]
        exact (h.arrived x hx).trans hmono
      · intro x hx
        rw [acceptedIn_append, haccepted, List.mem_append, List.mem_singleton] at hx
        rcases hx with hold | rfl
        · exact (h.arrived x hold).trans hmono
        · exact le_rfl
      · simp only [hseq]
        omega

theorem endStream (h : RunHolds past q) (i : Nat) :
    RunHolds (past ++ [(q.call (.endStream i)).2]) (q.call (.endStream i)).1 := by
  refine h.of_idle rfl rfl rfl rfl ?_ (by simp [call, InterleaveQueue.endStream]) rfl
  intro j hj
  simp only [call, InterleaveQueue.endStream, List.getElem?_set] at hj
  split at hj
  · split at hj <;> simp at hj
  · exact hj

/-- Asking for the next packet keeps what holds, unless the sparse escape lets one
out. -/
theorem next (h : RunHolds past q) (hready : q.allReady = true ∨ q.sparseEscape = false) :
    RunHolds (past ++ [(q.call .next).2]) (q.call .next).1 := by
  have hnext := nextEntry_of_unchunked h.unchunked false
  cases hall : q.allReady with
  | false =>
      have hescape : q.sparseEscape = false := by simpa [hall] using hready
      rw [hall, hescape] at hnext
      have hevent : (q.call .next).2 = .waiting := by simp [call, hnext]
      have hstate : (q.call .next).1 = if q.isEmpty then { q with runStream := none } else q := by
        simp [call, hnext]
      rw [hevent, hstate]
      split
      · exact h.of_idle rfl rfl rfl rfl (fun _ hi => hi) rfl rfl
      · exact h.of_idle rfl rfl rfl rfl (fun _ hi => hi) rfl rfl
  | true =>
      rw [hall] at hnext
      cases hleast : least Queued.keyUs q.perStream with
      | none =>
          rw [hleast] at hnext
          have hevent : (q.call .next).2 = .waiting := by simp [call, hnext]
          have hstate : (q.call .next).1 = { q with runStream := none } := by simp [call, hnext]
          rw [hevent, hstate]
          exact h.of_idle rfl rfl rfl rfl (fun _ hi => hi) rfl rfl
      | some x =>
          rw [hleast] at hnext
          have hevent : (q.call .next).2 = .emitted x := by simp [call, hnext]
          have hstate : (q.call .next).1 = q.takeHead x := by simp [call, hnext]
          have haccepted : acceptedIn [(q.call .next).2] = [] := by
            rw [hevent]
            rfl
          have hemitted : emittedIn [(q.call .next).2] = [x] := by
            rw [hevent]
            rfl
          have htake := h.merging.take (i := x.1) (a := x.2) hleast ((allReady_iff q).mp hall)
          rw [hstate]
          constructor
          · exact h.unchunked
          · simpa [takeHead] using h.streams
          · rw [acceptedIn_append, emittedIn_append, haccepted, hemitted, List.append_nil]
            exact htake
          · exact emittedBelowLater_append h.final (by simp [haccepted])
          · simpa [haccepted] using h.arrivals
          · simpa [haccepted, takeHead] using h.arrived
          · exact h.seq_le

end RunHolds

/-! ## Whole runs -/

/-- Every run with ordered keys and a silent escape keeps the merge invariant. -/
theorem merging_run {q : InterleaveQueue} (hfresh : q.Fresh)
    (hchunk : q.chunk.isChunked = false) {calls : List QueueCall}
    (hcalls : Transducer.Admissible call Respects q calls)
    (hordered : KeysOrdered (acceptedIn (q.events calls))) :
    RunHolds (q.events calls) (q.afterCalls calls) := by
  induction calls using List.reverseRecOn with
  | nil => exact RunHolds.start hfresh hchunk
  | append_singleton calls last ih =>
      rw [Transducer.admissible_append] at hcalls
      have hevents : q.events (calls ++ [last]) =
          q.events calls ++ [((q.afterCalls calls).call last).2] :=
        Transducer.outputs_append q calls [last]
      have hafter : q.afterCalls (calls ++ [last]) = ((q.afterCalls calls).call last).1 :=
        Transducer.stateAfter_append q calls [last]
      rw [hevents] at hordered
      have hpast : KeysOrdered (acceptedIn (q.events calls)) := by
        rw [KeysOrdered, acceptedIn_append, List.pairwise_append] at hordered
        exact hordered.1
      have hrun := ih hcalls.1 hpast
      have hlast : Respects (q.afterCalls calls) last := hcalls.2.1
      rw [hevents, hafter]
      cases last with
      | push pkt => exact hrun.push hlast hordered
      | endStream i => exact hrun.endStream i
      | next => exact hrun.next hlast

/-- Without a chunk policy, as long as keys do not decrease, no stream that has ended is pushed on
and the sparse escape is quiet, what has left is sorted, precedes what is accepted later, keeps each
stream's order and is with what is queued what was accepted. -/
theorem merge_run {q : InterleaveQueue} (hfresh : q.Fresh)
    (hchunk : q.chunk.isChunked = false) {calls : List QueueCall}
    (hcalls : Transducer.Admissible call Respects q calls)
    (hordered : KeysOrdered (acceptedIn (q.events calls))) :
    (emittedIn (q.events calls)).Pairwise (fun x y => place x ≤ place y) ∧
      EmittedBelowLater (q.events calls) ∧
      (∀ i, (acceptedIn (q.events calls)).filter (·.1 = i) =
        (emittedIn (q.events calls)).filter (·.1 = i) ++
          (((q.afterCalls calls).perStream[i]?).getD []).map (Prod.mk i)) ∧
      (emittedIn (q.events calls) ++ queuedItems (q.afterCalls calls).perStream).Perm
        (acceptedIn (q.events calls)) := by
  have hrun := merging_run hfresh hchunk hcalls hordered
  refine ⟨?_, hrun.final, hrun.merging.fifo, hrun.merging.perm⟩
  have haccepted : (acceptedIn (q.events calls)).Pairwise
      fun x y => x.1 = y.1 → x.2.seq ≤ y.2.seq := by
    refine hrun.arrivals.imp ?_
    intro x y hle _
    exact hle
  have harrivals := hrun.merging.emitted_of_accepted haccepted
  refine (hrun.merging.sorted.and harrivals).imp ?_
  intro x y hxy
  rw [place_le_iff]
  rcases hxy.1.lt_or_eq with hlt | heq
  · exact Or.inl hlt
  · exact Or.inr ⟨heq, hxy.2 (congrArg (fun r => (ofLex r).2) heq)⟩

/-- Two streams, the first of which ends while a packet of the second is queued. -/
def twoStreamCalls : List QueueCall :=
  let packet := fun streamIndex ticks =>
    { Packet.empty with streamIndex := streamIndex, dts := some (clampI64 ticks) }
  [.push (packet 0 3), .next, .push (packet 1 5), .next, .push (packet 0 5), .next,
    .endStream 0, .next, .next]

theorem merge_run_two_streams :
    (emittedIn ((new 2 FormatOptions.default).events twoStreamCalls)).Pairwise
        (fun x y => place x ≤ place y) ∧
      EmittedBelowLater ((new 2 FormatOptions.default).events twoStreamCalls) ∧
      (emittedIn ((new 2 FormatOptions.default).events twoStreamCalls)).length = 3 := by
  have hrun := @merge_run _ (fresh_new 2 FormatOptions.default)
    (by decide +kernel) twoStreamCalls (by decide +kernel) (by decide +kernel)
  exact ⟨hrun.1, hrun.2.1, by decide +kernel⟩

end InterleaveQueue

end Format
end Vaco
