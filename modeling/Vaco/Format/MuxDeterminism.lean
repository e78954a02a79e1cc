import Vaco.Format.CrossBaseOrder
import Vaco.Format.MuxTimestamps

/-!
# Determinism of the mux side

Packets arrive from several streams in some order, pass the timestamp chain and are
queued; at the end the queue is drained.  Once the shift is frozen, the chain and the
queue treat each stream on its own, so the result does not depend on how the streams
were interleaved.  The shift itself comes from whichever packet arrives first.

Main results:

- `splits_muxPacket`: a packet changes only what is of its stream.
- `muxed_eq_of_firstOffset_eq`: two arrival orders give the same packets.
-/

namespace Vaco
namespace Format

open Library Vaco.Core StreamMerge

def muxPacket (src dst : Nat → TimeBase) (s : MuxTimestamps × InterleaveQueue) (pkt : Packet) :
    (MuxTimestamps × InterleaveQueue) × Except Error Unit :=
  match s.1.apply pkt (src pkt.streamIndex) (dst pkt.streamIndex) with
  | (m, _, .error e) => ((m, s.2), .error e)
  | (m, pkt, .ok ()) => ((m, (s.2.push pkt).1), (s.2.push pkt).2)

/-- Every packet is accepted. -/
def AllAccepted (src dst : Nat → TimeBase) (m : MuxTimestamps) (q : InterleaveQueue)
    (ps : List Packet) : Prop :=
  ∀ verdict ∈ Transducer.outputs (muxPacket src dst) (m, q) ps, verdict = .ok ()

instance (src dst : Nat → TimeBase) (m : MuxTimestamps) (q : InterleaveQueue)
    (ps : List Packet) : Decidable (AllAccepted src dst m q ps) :=
  inferInstanceAs (Decidable (∀ verdict ∈ _, verdict = _))

/-- The packets that are drained at the end. -/
def muxed (src dst : Nat → TimeBase) (m : MuxTimestamps) (q : InterleaveQueue)
    (ps : List Packet) : List Packet :=
  (Transducer.stateAfter (muxPacket src dst) (m, q) ps).2.drain.2

/-- The shift that is frozen once the first packet has arrived. -/
def firstOffset (src dst : Nat → TimeBase) (m : MuxTimestamps) (ps : List Packet) : Option I64 :=
  ps.head?.bind fun pkt =>
    (m.apply pkt (src pkt.streamIndex) (dst pkt.streamIndex)).1.offsetUs

/-- Two lists of packets that differ only in how the streams are interleaved. -/
def SameStreams (xs ys : List Packet) : Prop :=
  ∀ i, (xs.filter fun p => p.streamIndex = i) = ys.filter fun p => p.streamIndex = i

/-! ## One stream -/

/-- What the chain and the queue keep about one stream: its record and its queued
packets with their keys. -/
structure StreamPart where
  record : MuxTimestamps.StreamRecord
  queue : Option (List (Packet × I64))

def Queued.timed (x : Queued) : Packet × I64 :=
  (x.pkt, x.keyUs)

def streamPart (i : Nat) (s : MuxTimestamps × InterleaveQueue) : StreamPart where
  record := s.1.record i
  queue := (s.2.perStream[i]?).map (List.map Queued.timed)

def InterleaveQueue.setup (q : InterleaveQueue) : InterleaveQueue :=
  { q with perStream := [], seq := 0, newestUs := none }

/-- The queue of one stream after a packet was pushed, from the settings of the queue. -/
def queueTimed (setup : InterleaveQueue) (queue : Option (List (Packet × I64))) (pkt : Packet) :
    Option (List (Packet × I64)) :=
  match setup.dtsUs pkt with
  | .error _ => queue
  | .ok dtsUs => queue.map fun entries => entries ++ [(pkt, setup.keyUs pkt.streamIndex dtsUs)]

/-- One packet on the part of its stream. -/
def muxStream (src dst : Nat → TimeBase) (m : MuxTimestamps) (setup : InterleaveQueue)
    (part : StreamPart) (pkt : Packet) : StreamPart :=
  match m.applyRecord part.record pkt (src pkt.streamIndex) (dst pkt.streamIndex) with
  | (record, _, .error _) => { record := record, queue := part.queue }
  | (record, pkt, .ok ()) => { record := record, queue := queueTimed setup part.queue pkt }

namespace MuxTimestamps

theorem applyRecord_streamIndex (m : MuxTimestamps) (r : StreamRecord) (pkt : Packet)
    (src dst : TimeBase) : (m.applyRecord r pkt src dst).2.1.streamIndex = pkt.streamIndex := by
  unfold applyRecord
  dsimp only
  split
  · exact Packet.rescaleTs_streamIndex ..
  · split
    · exact Packet.rescaleTs_streamIndex ..
    · rename_i pkt' hdts
      have hindex : pkt'.streamIndex = pkt.streamIndex := by
        simpa using rescaled_streamIndex_of_dtsFor hdts
      split
      · simpa using hindex
      · split <;> simpa using hindex

end MuxTimestamps

namespace InterleaveQueue

theorem push_timed (q : InterleaveQueue) (pkt : Packet) :
    ((q.push pkt).1.perStream[pkt.streamIndex]?).map (List.map Queued.timed) =
      queueTimed q.setup ((q.perStream[pkt.streamIndex]?).map (List.map Queued.timed)) pkt := by
  have hdts : q.setup.dtsUs pkt = q.dtsUs pkt := rfl
  have hkey : q.setup.keyUs = q.keyUs := rfl
  unfold push entryFor queueTimed
  rw [hdts, hkey]
  by_cases hstream : pkt.streamIndex < q.perStream.length
  · rw [if_pos hstream]
    cases q.dtsUs pkt with
    | error e => rfl
    | ok dtsUs => simp [hstream, Queued.timed]
  · have hnone : q.perStream[pkt.streamIndex]? = none := by simpa using hstream
    rw [if_neg hstream, hnone]
    cases q.dtsUs pkt <;> rfl

theorem push_others (q : InterleaveQueue) (pkt : Packet) :
    (∀ j, j ≠ pkt.streamIndex → (q.push pkt).1.perStream[j]? = q.perStream[j]?) ∧
      (q.push pkt).1.setup = q.setup := by
  cases hentry : q.entryFor pkt with
  | error e => simp [push, hentry]
  | ok ok =>
      rcases ok with ⟨entry, dtsUs⟩
      refine ⟨?_, by simp [push, hentry, setup]⟩
      intro j hj
      simp [push, hentry, hj.symm]

end InterleaveQueue

/-! ## All streams -/

structure Settled (m : MuxTimestamps) (setup : InterleaveQueue)
    (s : MuxTimestamps × InterleaveQueue) : Prop where
  frozen : s.1.notimestamps = true ∨ s.1.offsetUs.isSome
  chain : s.1.settings = m.settings
  queue : s.2.setup = setup

/-- With a frozen shift every packet changes the part of its own stream only. -/
theorem splits_muxPacket (src dst : Nat → TimeBase) (m : MuxTimestamps) (setup : InterleaveQueue) :
    Transducer.Splits (muxPacket src dst) (Settled m setup) Packet.streamIndex streamPart
      (muxStream src dst m setup) := by
  have hrecord : ∀ s, Settled m setup s → ∀ pkt r,
      s.1.applyRecord r pkt (src pkt.streamIndex) (dst pkt.streamIndex) =
        m.applyRecord r pkt (src pkt.streamIndex) (dst pkt.streamIndex) := by
    intro s hs pkt r
    rw [← MuxTimestamps.applyRecord_settings s.1, hs.chain, MuxTimestamps.applyRecord_settings]
  have hfrozen : ∀ m' : MuxTimestamps, ∀ s, Settled m setup s → m'.settings = s.1.settings →
      m'.notimestamps = true ∨ m'.offsetUs.isSome := by
    intro m' s hs h
    have hnotimestamps : m'.settings.notimestamps = s.1.settings.notimestamps := by rw [h]
    have hoffset : m'.settings.offsetUs = s.1.settings.offsetUs := by rw [h]
    rw [show m'.notimestamps = s.1.notimestamps from hnotimestamps,
      show m'.offsetUs = s.1.offsetUs from hoffset]
    exact hs.frozen
  constructor
  · intro s pkt hs
    rcases MuxTimestamps.apply_eq_applyRecord pkt (src pkt.streamIndex) (dst pkt.streamIndex)
      hs.frozen with ⟨-, -, -, hsettings⟩
    unfold muxPacket
    split <;> rename_i happly <;> rw [happly] at hsettings
    · exact ⟨hfrozen _ s hs hsettings, hsettings.trans hs.chain, hs.queue⟩
    · exact ⟨hfrozen _ s hs hsettings, hsettings.trans hs.chain,
        (InterleaveQueue.push_others _ _).2.trans hs.queue⟩
  · intro s pkt hs
    rcases MuxTimestamps.apply_eq_applyRecord pkt (src pkt.streamIndex) (dst pkt.streamIndex)
      hs.frozen with ⟨hout, hown, -, -⟩
    rw [hrecord s hs] at hout hown
    have hindex := m.applyRecord_streamIndex (s.1.record pkt.streamIndex) pkt
      (src pkt.streamIndex) (dst pkt.streamIndex)
    unfold muxPacket muxStream
    cases hone : m.applyRecord (s.1.record pkt.streamIndex) pkt (src pkt.streamIndex)
        (dst pkt.streamIndex) with
    | mk record rest =>
        rcases rest with ⟨pkt', verdict⟩
        cases happly : s.1.apply pkt (src pkt.streamIndex) (dst pkt.streamIndex) with
        | mk m' rest' =>
            rw [hone, happly] at hout hown
            rw [hone] at hindex
            dsimp only at hout hown hindex
            subst hout hown
            cases verdict with
            | error e => simp [streamPart, hone]
            | ok done =>
                have hpush := s.2.push_timed pkt'
                rw [hindex, hs.queue] at hpush
                simp [streamPart, hone, hpush]
  · intro s pkt j hs hj
    rcases MuxTimestamps.apply_eq_applyRecord pkt (src pkt.streamIndex) (dst pkt.streamIndex)
      hs.frozen with ⟨hout, -, hothers, -⟩
    have hindex := s.1.applyRecord_streamIndex (s.1.record pkt.streamIndex) pkt
      (src pkt.streamIndex) (dst pkt.streamIndex)
    rw [← hout] at hindex
    unfold muxPacket streamPart
    split <;> rename_i happly <;> rw [happly] at hothers hindex
    · simp [hothers j hj]
    · have hqueue := (s.2.push_others _).1 j (by rw [hindex]; exact hj)
      simp [hothers j hj, hqueue]

/-- The final flush depends on the packets and keys of each queue only. -/
theorem drain_eq_of_timed {q r : InterleaveQueue} (hq : q.chunk.isChunked = false)
    (hr : r.chunk.isChunked = false)
    (h : ∀ i : Nat, (q.perStream[i]?).map (List.map Queued.timed) =
      (r.perStream[i]?).map (List.map Queued.timed)) : q.drain.2 = r.drain.2 := by
  have hqueues : q.perStream.map (List.map Queued.timed) =
      r.perStream.map (List.map Queued.timed) := by
    apply List.ext_getElem?
    simpa using h
  have hpending : q.pending = r.pending := by
    have hlengths : ∀ s : InterleaveQueue, s.pending =
        ((s.perStream.map (List.map Queued.timed)).map List.length).sum := by
      intro s
      simp [InterleaveQueue.pending, Function.comp_def]
    rw [hlengths, hlengths, hqueues]
  have hkey : ∀ x : Queued, (Queued.timed x).2 = x.keyUs := fun _ => rfl
  have hmerge := mergeAll_map hkey (q.pending + 1) q.perStream
  rw [hqueues, mergeAll_map hkey, hpending] at hmerge
  have hpackets : ∀ l : List (Nat × Queued),
      l.map (fun x => x.2.pkt) = (l.map (Prod.map id Queued.timed)).map fun x => x.2.1 := by
    intro l
    simp [Queued.timed]
  rw [(InterleaveQueue.drain_eq_mergeAll hq).1, (InterleaveQueue.drain_eq_mergeAll hr).1,
    hpackets, hpackets, hpending, ← hmerge]

theorem muxed_eq_of_settled {src dst : Nat → TimeBase} {m : MuxTimestamps} {q : InterleaveQueue}
    (hfrozen : m.notimestamps = true ∨ m.offsetUs.isSome) (hchunk : q.chunk.isChunked = false)
    {xs ys : List Packet} (hsame : SameStreams xs ys) :
    muxed src dst m q xs = muxed src dst m q ys := by
  have hsplits := splits_muxPacket src dst m q.setup
  have hstart : Settled m q.setup (m, q) := ⟨hfrozen, rfl, rfl⟩
  have hunchunked : ∀ ps, (Transducer.stateAfter (muxPacket src dst) (m, q) ps).2.chunk.isChunked
      = false := by
    intro ps
    have hqueue : (Transducer.stateAfter (muxPacket src dst) (m, q) ps).2.setup.chunk =
        q.setup.chunk := by rw [(hsplits.stateAfter hstart ps).queue]
    rw [show (Transducer.stateAfter (muxPacket src dst) (m, q) ps).2.chunk = q.chunk from hqueue]
    exact hchunk
  apply drain_eq_of_timed (hunchunked xs) (hunchunked ys)
  intro i
  have hxs := hsplits.part_stateAfter hstart xs i
  have hys := hsplits.part_stateAfter hstart ys i
  rw [hsame i] at hxs
  exact congrArg StreamPart.queue (hxs.trans hys.symm)

theorem muxed_eq_frozen {src dst : Nat → TimeBase} {m : MuxTimestamps} {q : InterleaveQueue}
    {p : Packet} {ps : List Packet} (htimes : m.notimestamps = false)
    (haccepted : AllAccepted src dst m q (p :: ps)) :
    ∃ o, firstOffset src dst m (p :: ps) = some o ∧
      muxed src dst m q (p :: ps) = muxed src dst { m with offsetUs := some o } q (p :: ps) := by
  have hok : (m.apply p (src p.streamIndex) (dst p.streamIndex)).2.2 = .ok () := by
    have hverdict := haccepted _ (List.mem_cons_self ..)
    unfold muxPacket at hverdict
    split at hverdict <;> rename_i happly
    · cases hverdict
    · rw [happly]
  rcases Option.isSome_iff_exists.mp (MuxTimestamps.apply_ok_frozen htimes hok) with ⟨o, ho⟩
  refine ⟨o, ho, ?_⟩
  have hstep : muxPacket src dst (m, q) p =
      muxPacket src dst ({ m with offsetUs := some o }, q) p := by
    unfold muxPacket
    rw [MuxTimestamps.apply_freeze ho]
  rw [muxed, muxed, Transducer.stateAfter_cons, Transducer.stateAfter_cons, hstep]

/-- Two arrival orders of the same streams that freeze the same shift give the same packets, as long
as every packet is accepted and there is no chunk policy. -/
theorem muxed_eq_of_firstOffset_eq {src dst : Nat → TimeBase} {m : MuxTimestamps}
    {q : InterleaveQueue} (hchunk : q.chunk.isChunked = false) {xs ys : List Packet}
    (hsame : SameStreams xs ys) (hxs : AllAccepted src dst m q xs)
    (hys : AllAccepted src dst m q ys)
    (hfirst : firstOffset src dst m xs = firstOffset src dst m ys) :
    muxed src dst m q xs = muxed src dst m q ys := by
  cases htimes : m.notimestamps with
  | true => exact muxed_eq_of_settled (Or.inl htimes) hchunk hsame
  | false =>
      cases xs with
      | nil =>
          have hnil : ys = [] := by
            rw [List.eq_nil_iff_forall_not_mem]
            intro p hp
            have hmem : p ∈ ys.filter fun r => r.streamIndex = p.streamIndex := by simp [hp]
            rw [← hsame] at hmem
            cases hmem
          rw [hnil]
      | cons p xs =>
          cases ys with
          | nil =>
              have hmem : p ∈ (p :: xs).filter fun r => r.streamIndex = p.streamIndex := by simp
              rw [hsame] at hmem
              cases hmem
          | cons r ys =>
              rcases muxed_eq_frozen htimes hxs with ⟨o, ho, hx⟩
              rcases muxed_eq_frozen htimes hys with ⟨o', ho', hy⟩
              rw [hx, hy]
              have hoffset : o = o' := Option.some.inj (ho.symm.trans (hfirst.trans ho'))
              rw [hoffset]
              exact muxed_eq_of_settled (Or.inr rfl) hchunk hsame

/-! ## Two streams in milliseconds -/

/-- Every stream in milliseconds. -/
def inMilliseconds : Nat → TimeBase :=
  fun _ => ⟨.lit 1, .lit 1000⟩

/-- A queue for two streams in milliseconds. -/
def millisecondQueue : InterleaveQueue :=
  ((InterleaveQueue.new 2 FormatOptions.default).setTimeBase 0 (inMilliseconds 0)).setTimeBase 1
    (inMilliseconds 1)

/-- A packet shown when it is decoded. -/
def packetOn (streamIndex : Nat) (ticks : Int) : Packet :=
  { Packet.empty with
    streamIndex := streamIndex
    pts := some (clampI64 ticks)
    dts := some (clampI64 ticks) }

theorem muxed_eq_same_first :
    muxed inMilliseconds inMilliseconds (MuxTimestamps.new 2 ⟨0⟩ FormatOptions.default)
        millisecondQueue [packetOn 0 (-250), packetOn 0 0, packetOn 1 0] =
      muxed inMilliseconds inMilliseconds (MuxTimestamps.new 2 ⟨0⟩ FormatOptions.default)
        millisecondQueue [packetOn 0 (-250), packetOn 1 0, packetOn 0 0] := by
  apply muxed_eq_of_firstOffset_eq (by decide +kernel)
  · intro i
    by_cases h0 : i = 0
    · subst h0
      decide +kernel
    · by_cases h1 : i = 1
      · subst h1
        decide +kernel
      · simp [packetOn, Ne.symm h0, Ne.symm h1]
  · decide +kernel
  · decide +kernel
  · rfl

/-- A stream that starts below zero is shifted only if it arrives first. -/
theorem not_muxed_eq_first_arrival :
    let m := MuxTimestamps.new 2 ⟨0⟩ FormatOptions.default
    let xs := [packetOn 0 (-250), packetOn 1 0]
    let ys := [packetOn 1 0, packetOn 0 (-250)]
    SameStreams xs ys ∧ StreamsAdvance xs ∧ StreamsAdvance ys ∧
      millisecondQueue.chunk.isChunked = false ∧
      AllAccepted inMilliseconds inMilliseconds m millisecondQueue xs ∧
      AllAccepted inMilliseconds inMilliseconds m millisecondQueue ys ∧
      (muxed inMilliseconds inMilliseconds m millisecondQueue xs).map
          (fun p => (p.streamIndex, p.pts, p.dts)) ≠
        (muxed inMilliseconds inMilliseconds m millisecondQueue ys).map
          (fun p => (p.streamIndex, p.pts, p.dts)) := by
  refine ⟨?_, ?_, ?_, ?_, ?_, ?_, ?_⟩
  · intro i
    by_cases h0 : i = 0
    · subst h0
      decide +kernel
    · simp [packetOn, List.filter_cons, Ne.symm h0]
  all_goals decide +kernel

end Format
end Vaco
