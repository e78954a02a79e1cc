import Vaco.Format.TimestampChain

/-!
# Packets the mux-side chain refuses

The chain refuses a packet without timestamps and one whose decode time does not
advance.  Both refusals come after the packet has been counted; a decode time can fail
to advance only against an accepted packet, and that one has frozen the shift already.
So a refusal leaves everything but the count of the packet's stream as it was, and the
count matters only while the reorder window of that stream is filling.

Main results:

- `Reachable.consistent`: in every reachable chain a decode time is remembered only where the shift
  is frozen.
- `apply_refused`: a refused packet is counted, nothing else changes, and past the reorder window of
  its stream the packets after it are processed as if it had never been offered.
- `accepted_advance`: what is accepted of a stream advances as its container requires.

Current gaps:

- The chain is followed on its own; what the writer and the queue do around it is not
  part of these runs.
-/

namespace Vaco
namespace Format

open Library Vaco.Core

namespace MuxTimestamps

/-- A chain that declarations of reorder depths and packets lead to. -/
inductive Reachable : MuxTimestamps → Prop
  | new (streamCount : Nat) (flags : FormatFlags) (opts : FormatOptions) :
      Reachable (new streamCount flags opts)
  | setReorderDelay {m : MuxTimestamps} (reached : Reachable m) (streamIndex : Nat)
      (delay : BitVec 8) : Reachable (m.setReorderDelay streamIndex delay.toNat)
  | apply {m : MuxTimestamps} (reached : Reachable m) (pkt : Packet) (src dst : TimeBase) :
      Reachable (m.apply pkt src dst).1

/-- Applying the chain to a packet with its two bases, as a step that answers with packet
and verdict. -/
def applyCall (m : MuxTimestamps) (call : Packet × TimeBase × TimeBase) :
    MuxTimestamps × Packet × Except Error Unit :=
  m.apply call.1 call.2.1 call.2.2

/-! ## What the counts reach -/

/-- The chain with other counts. -/
def withIndex (m : MuxTimestamps) (index : List Nat) : MuxTimestamps :=
  { m with decodeIndex := index }

/-- The declared reorder depth of a stream. -/
def delayOf (m : MuxTimestamps) (i : Nat) : Nat :=
  (m.reorderDelay[i]?).getD 0

theorem establishOffset_withIndex (m : MuxTimestamps) (index : List Nat) (pkt : Packet)
    (dst : TimeBase) :
    (m.withIndex index).establishOffset pkt dst =
      (m.establishOffset pkt dst).withIndex index := by
  by_cases hset : m.offsetUs.isSome ∨ m.policy = .disabled
  · simp [establishOffset, withIndex, hset]
  · cases hearly : earliest (pkt.pts.rescale dst Rational.MICROSECONDS .down)
        (pkt.dts.rescale dst Rational.MICROSECONDS .down) <;>
      simp [establishOffset, withIndex, hset, hearly]

theorem checkAndRemember_withIndex (m : MuxTimestamps) (index : List Nat) (pkt : Packet) :
    (m.withIndex index).checkAndRemember pkt =
      ((m.checkAndRemember pkt).1.withIndex index, (m.checkAndRemember pkt).2) := by
  cases hlast : m.lastDts[pkt.streamIndex]? with
  | none => simp [checkAndRemember, withIndex, hlast]
  | some prev =>
      cases hcheck : checkMonotonic prev pkt.dts m.flags <;>
        simp [checkAndRemember, withIndex, hlast, hcheck]

theorem checkAndRemember_kept (m : MuxTimestamps) (pkt : Packet) :
    (m.checkAndRemember pkt).1.decodeIndex = m.decodeIndex ∧
      (m.checkAndRemember pkt).1.reorderDelay = m.reorderDelay ∧
      (m.checkAndRemember pkt).1.notimestamps = m.notimestamps := by
  unfold checkAndRemember
  split
  · exact ⟨rfl, rfl, rfl⟩
  · split <;> exact ⟨rfl, rfl, rfl⟩

theorem apply_kept {m : MuxTimestamps} (htimes : m.notimestamps = false) (pkt : Packet)
    (src dst : TimeBase) :
    (m.apply pkt src dst).1.decodeIndex = (m.countPacket pkt.streamIndex).decodeIndex ∧
      (m.apply pkt src dst).1.reorderDelay = m.reorderDelay ∧
      (m.apply pkt src dst).1.notimestamps = false := by
  cases hdts : (m.countPacket pkt.streamIndex).giveDts (m.decodeIndex[pkt.streamIndex]?)
      (pkt.rescaleTs src dst Rounding.default) dst with
  | error e =>
      simp only [apply, htimes, Packet.rescaleTs_streamIndex, hdts]
      exact ⟨rfl, rfl, htimes⟩
  | ok pkt' =>
      rw [apply_of_giveDts htimes hdts]
      rcases checkAndRemember_kept ((m.countPacket pkt.streamIndex).establishOffset
        (shiftPacket (m.outputTicks dst) pkt') dst) _ with ⟨hindex, hdelay, hkind⟩
      rw [hindex, hdelay, hkind, establishOffset_eq]
      exact ⟨rfl, rfl, htimes⟩

/-- Two chains that give a packet the same decode time differ after it in their counts
only. -/
theorem apply_withIndex {m : MuxTimestamps} (htimes : m.notimestamps = false) {index : List Nat}
    {pkt : Packet} {src dst : TimeBase}
    (h : dtsFor (m.delayOf pkt.streamIndex) ((index[pkt.streamIndex]?).getD 0)
        (pkt.rescaleTs src dst Rounding.default) dst =
      dtsFor (m.delayOf pkt.streamIndex) ((m.decodeIndex[pkt.streamIndex]?).getD 0)
        (pkt.rescaleTs src dst Rounding.default) dst) :
    (m.withIndex index).apply pkt src dst =
      ((m.apply pkt src dst).1.withIndex
        ((m.withIndex index).countPacket pkt.streamIndex).decodeIndex,
        (m.apply pkt src dst).2) := by
  have hgive : ((m.withIndex index).countPacket pkt.streamIndex).giveDts
        ((m.withIndex index).decodeIndex[pkt.streamIndex]?)
        (pkt.rescaleTs src dst Rounding.default) dst =
      (m.countPacket pkt.streamIndex).giveDts (m.decodeIndex[pkt.streamIndex]?)
        (pkt.rescaleTs src dst Rounding.default) dst := by
    simpa only [giveDts, countPacket, withIndex, delayOf, Packet.rescaleTs_streamIndex] using h
  cases hdts : (m.countPacket pkt.streamIndex).giveDts (m.decodeIndex[pkt.streamIndex]?)
      (pkt.rescaleTs src dst Rounding.default) dst with
  | error e =>
      have htimes' : (m.withIndex index).notimestamps = false := htimes
      rw [hdts] at hgive
      simp only [apply, htimes, htimes', Packet.rescaleTs_streamIndex, hdts, hgive]
      rfl
  | ok pkt' =>
      rw [hdts] at hgive
      have hcounted : (m.withIndex index).countPacket pkt.streamIndex =
          (m.countPacket pkt.streamIndex).withIndex
            ((m.withIndex index).countPacket pkt.streamIndex).decodeIndex := rfl
      rw [apply_of_giveDts htimes hdts, apply_of_giveDts (m := m.withIndex index) htimes hgive,
        hcounted, establishOffset_withIndex]
      exact checkAndRemember_withIndex _ _ _

/-! ## Counts that process alike -/

/-- Two counts of a stream that give its packets the same decode times, now and later. -/
def CountsAlike (delay first second : Nat) : Prop :=
  first = second ∨ delay ≤ first ∧ delay ≤ second

theorem dtsFor_of_countsAlike {delay first second : Nat} (h : CountsAlike delay first second)
    (pkt : Packet) (dst : TimeBase) : dtsFor delay first pkt dst = dtsFor delay second pkt dst := by
  rcases h with rfl | ⟨hfirst, hsecond⟩
  · rfl
  · have hleading : leadingDts delay first pkt.duration dst pkt.pts =
        leadingDts delay second pkt.duration dst pkt.pts := by
      simp [leadingDts, Nat.not_lt.mpr hfirst, Nat.not_lt.mpr hsecond]
    rw [dtsFor, dtsFor, hleading]

theorem CountsAlike.count {delay first second : Nat} (h : CountsAlike delay first second)
    (hdelay : delay ≤ 255) :
    CountsAlike delay (min (first + 1) u64Max) (min (second + 1) u64Max) := by
  have hmax : 255 ≤ u64Max := by decide
  rcases h with rfl | ⟨hfirst, hsecond⟩
  · exact Or.inl rfl
  · exact Or.inr ⟨by omega, by omega⟩

/-- Two chains that differ in counts only, and in counts that process alike. -/
structure Alike (m n : MuxTimestamps) : Prop where
  fields : n = m.withIndex n.decodeIndex
  slots : n.decodeIndex.length = m.decodeIndex.length
  counts : ∀ i, CountsAlike (m.delayOf i) ((m.decodeIndex[i]?).getD 0) ((n.decodeIndex[i]?).getD 0)
  depths : ∀ i, m.delayOf i ≤ 255

theorem countPacket_getD (m : MuxTimestamps) (i j : Nat) :
    (((m.countPacket i).decodeIndex[j]?).getD 0) =
      if i = j ∧ j < m.decodeIndex.length then min ((m.decodeIndex[j]?).getD 0 + 1) u64Max
      else (m.decodeIndex[j]?).getD 0 := by
  by_cases hj : j < m.decodeIndex.length
  · by_cases hij : i = j
    · subst hij
      simp [countPacket, hj]
    · simp [countPacket, hij, hj]
  · simp [countPacket, hj]

/-- Chains that process alike answer a packet the same and still process alike. -/
theorem Alike.apply {m n : MuxTimestamps} (h : Alike m n) (call : Packet × TimeBase × TimeBase) :
    Alike (m.applyCall call).1 (n.applyCall call).1 ∧
      (m.applyCall call).2 = (n.applyCall call).2 := by
  rcases call with ⟨pkt, src, dst⟩
  simp only [applyCall]
  cases htimes : m.notimestamps with
  | true =>
      have htimes' : n.notimestamps = true := by
        rw [h.fields]
        exact htimes
      simpa [MuxTimestamps.apply, htimes, htimes'] using h
  | false =>
      have hstep := apply_withIndex htimes
        (dtsFor_of_countsAlike (h.counts pkt.streamIndex)
          (pkt.rescaleTs src dst Rounding.default) dst).symm
      rw [← h.fields] at hstep
      rcases apply_kept htimes pkt src dst with ⟨hindex, hdelay, -⟩
      have hdelays : (m.apply pkt src dst).1.delayOf = m.delayOf := by
        funext i
        rw [delayOf, delayOf, hdelay]
      rw [hstep]
      refine ⟨⟨rfl, ?_, ?_, ?_⟩, rfl⟩
      · rw [hindex]
        simpa [withIndex, countPacket] using h.slots
      · intro i
        rw [hdelays, hindex]
        simp only [withIndex]
        rw [countPacket_getD, countPacket_getD, h.slots]
        split
        · exact (h.counts i).count (h.depths i)
        · exact h.counts i
      · intro i
        rw [hdelays]
        exact h.depths i

/-! ## Refusals -/

/-- A decode time is remembered only where the shift is frozen, and depths are bytes. -/
structure Consistent (m : MuxTimestamps) : Prop where
  frozen : m.notimestamps = false →
    ∀ (i : Nat) (t : I64), m.lastDts[i]? = some (some t) → m.offsetUs.isSome
  depths : ∀ i, m.delayOf i ≤ 255

theorem exists_of_checkMonotonic_error {prev dts : Timestamp} {flags : FormatFlags} {e : Error}
    (h : checkMonotonic prev dts flags = .error e) : ∃ t, prev = some t := by
  cases prev with
  | none => simp [checkMonotonic] at h
  | some t => exact ⟨t, rfl⟩

/-- A refused packet is counted, and nothing else changes. -/
theorem apply_error_eq {m : MuxTimestamps} (hm : m.Consistent) {pkt : Packet} {src dst : TimeBase}
    {e : Error} (h : (m.apply pkt src dst).2.2 = .error e) :
    (m.apply pkt src dst).1 = m.countPacket pkt.streamIndex := by
  cases htimes : m.notimestamps with
  | true => simp [apply, htimes] at h
  | false =>
      cases hdts : (m.countPacket pkt.streamIndex).giveDts (m.decodeIndex[pkt.streamIndex]?)
          (pkt.rescaleTs src dst Rounding.default) dst with
      | error e => simp [apply, htimes, hdts]
      | ok pkt' =>
          have hstream : pkt'.streamIndex = pkt.streamIndex := by
            simpa using rescaled_streamIndex_of_dtsFor hdts
          rw [apply_of_giveDts htimes hdts] at h ⊢
          have hlasts : ∀ shifted, ((m.countPacket pkt.streamIndex).establishOffset shifted
              dst).lastDts = m.lastDts := by
            intro shifted
            rw [establishOffset_eq]
            rfl
          simp only [checkAndRemember, shiftPacket_streamIndex, hstream, hlasts] at h ⊢
          cases hlast : m.lastDts[pkt.streamIndex]? with
          | none => simp [hlast] at h
          | some prev =>
              simp only [hlast] at h ⊢
              split at h
              · rename_i hcheck
                rcases exists_of_checkMonotonic_error hcheck with ⟨t, rfl⟩
                have hfrozen : (m.countPacket pkt.streamIndex).offsetUs.isSome :=
                  hm.frozen htimes _ t hlast
                exact establishOffset_of_isSome _ dst hfrozen
              · simp at h

theorem Consistent.apply {m : MuxTimestamps} (hm : m.Consistent) (pkt : Packet)
    (src dst : TimeBase) : (m.apply pkt src dst).1.Consistent := by
  cases htimes : m.notimestamps with
  | true => simpa [MuxTimestamps.apply, htimes] using hm
  | false =>
      have hdepths : ∀ i, (m.apply pkt src dst).1.delayOf i ≤ 255 := by
        intro i
        rw [delayOf, (apply_kept htimes pkt src dst).2.1]
        exact hm.depths i
      cases hverdict : (m.apply pkt src dst).2.2 with
      | ok done => exact ⟨fun _ _ _ _ => apply_ok_frozen htimes hverdict, hdepths⟩
      | error e =>
          refine ⟨fun _ i t hlast => ?_, hdepths⟩
          rw [apply_error_eq hm hverdict] at hlast ⊢
          exact hm.frozen htimes i t hlast

/-- In every reachable chain a decode time is remembered only where the shift is frozen. -/
theorem Reachable.consistent {m : MuxTimestamps} (h : Reachable m) : m.Consistent := by
  induction h with
  | new streamCount flags opts =>
      refine ⟨fun _ i t hlast => ?_, fun i => ?_⟩
      · simp [MuxTimestamps.new, List.getElem?_replicate] at hlast
      · by_cases hi : i < streamCount <;> simp [delayOf, MuxTimestamps.new, hi]
  | @setReorderDelay m reached streamIndex delay ih =>
      refine ⟨ih.frozen, fun i => ?_⟩
      have hdelay := delay.isLt
      have hold := ih.depths i
      rw [delayOf] at hold ⊢
      by_cases hi : streamIndex = i
      · subst hi
        by_cases hlt : streamIndex < m.reorderDelay.length
        · simp only [MuxTimestamps.setReorderDelay, List.getElem?_set_self hlt, Option.getD_some]
          omega
        · simp [MuxTimestamps.setReorderDelay, hlt]
      · simpa [MuxTimestamps.setReorderDelay, List.getElem?_set_ne hi] using hold
  | apply reached pkt src dst ih => exact ih.apply pkt src dst

theorem alike_countPacket {m : MuxTimestamps} (hm : m.Consistent) {i : Nat}
    (h : m.delayOf i ≤ (m.decodeIndex[i]?).getD 0) : Alike m (m.countPacket i) := by
  have hmax : 255 ≤ u64Max := by decide
  refine ⟨rfl, by simp [countPacket], fun j => ?_, hm.depths⟩
  have hdepth := hm.depths i
  rw [countPacket_getD]
  split
  · rename_i hj
    rcases hj with ⟨rfl, -⟩
    exact Or.inr ⟨h, by omega⟩
  · exact Or.inl rfl

/-- A refused packet of a reachable chain only counts, up to the largest count there is; on a stream
whose reorder window is full all later packets are answered as if it had never been offered. -/
theorem apply_refused {m : MuxTimestamps} (hm : Reachable m) {pkt : Packet} {src dst : TimeBase}
    {e : Error} (h : (m.apply pkt src dst).2.2 = .error e) :
    (m.apply pkt src dst).1 =
        { m with
          decodeIndex := m.decodeIndex.modify pkt.streamIndex fun slot => min (slot + 1) u64Max } ∧
      ((m.reorderDelay[pkt.streamIndex]?).getD 0 ≤ (m.decodeIndex[pkt.streamIndex]?).getD 0 →
        ∀ later : List (Packet × TimeBase × TimeBase),
          Transducer.outputs applyCall (m.apply pkt src dst).1 later =
            Transducer.outputs applyCall m later) := by
  have hrefused := apply_error_eq hm.consistent h
  refine ⟨hrefused, fun hfull later => ?_⟩
  rw [hrefused]
  exact (Transducer.simulation (alike_countPacket hm.consistent hfull)
    (fun _ _ call halike _ => halike.apply call)
    (Transducer.admissible_true m later)).2.symm

/-- A stream with two packets to reorder, in a container that keeps negative times. -/
def reorderingChain : MuxTimestamps :=
  (new 1 FormatFlags.TS_NEGATIVE FormatOptions.default).setReorderDelay 0 2

/-- A refused packet counts, so the frame behind it is backfilled one frame later. -/
theorem refused_packet_counted :
    Reachable reorderingChain ∧
      (reorderingChain.apply Packet.empty milliseconds milliseconds).2.2 =
        .error (.invalidData "this container needs timestamps and the packet has none") ∧
      reorderingChain.decodeIndex = [0] ∧
      (reorderingChain.apply Packet.empty milliseconds milliseconds).1.decodeIndex = [1] ∧
      (reorderingChain.apply (framePacket (clampI64 0)) milliseconds milliseconds).2.1.dts =
        some (clampI64 (-80)) ∧
      ((reorderingChain.apply Packet.empty milliseconds milliseconds).1.apply
        (framePacket (clampI64 0)) milliseconds milliseconds).2.1.dts =
        some (clampI64 (-40)) := by
  refine ⟨(Reachable.new 1 FormatFlags.TS_NEGATIVE FormatOptions.default).setReorderDelay 0 2,
    ?_, ?_, ?_, ?_, ?_⟩
  all_goals decide +kernel

/-- A refusal on one stream that does not reorder is not seen by the frame behind it. -/
theorem apply_refused_unreordered :
    Transducer.outputs applyCall
        ((new 1 FormatFlags.TS_NEGATIVE FormatOptions.default).apply Packet.empty
          milliseconds milliseconds).1
        [(framePacket (clampI64 0), milliseconds, milliseconds)] =
      Transducer.outputs applyCall (new 1 FormatFlags.TS_NEGATIVE FormatOptions.default)
        [(framePacket (clampI64 0), milliseconds, milliseconds)] := by
  have hrefused : ((new 1 FormatFlags.TS_NEGATIVE FormatOptions.default).apply Packet.empty
      milliseconds milliseconds).2.2 =
      .error (.invalidData "this container needs timestamps and the packet has none") := by
    decide +kernel
  exact (apply_refused (Reachable.new 1 FormatFlags.TS_NEGATIVE FormatOptions.default)
    hrefused).2 (by decide) _

/-! ## What leaves the chain -/

/-- A decode time may come behind another one of its stream. -/
def Advances (flags : FormatFlags) (p d : I64) : Prop :=
  if flags.requiresStrictDts then p < d else p ≤ d

def acceptedDts (i : Nat) (answers : List (Packet × Except Error Unit)) : List Timestamp :=
  (answers.filter fun a => a.1.streamIndex == i && a.2.isOk).map fun a => a.1.dts

theorem advances_of_checkMonotonic {p d : I64} {flags : FormatFlags}
    (h : checkMonotonic (some p) (some d) flags = .ok ()) : Advances flags p d := by
  simp only [checkMonotonic] at h
  unfold Advances
  split at h <;> split at h <;> simp_all

theorem Advances.trans {flags : FormatFlags} {p d t : I64} (h : Advances flags p d)
    (h' : Advances flags d t) : Advances flags p t := by
  unfold Advances at *
  split at h <;> rename_i hstrict <;> simp only [hstrict] at h' ⊢
  · exact lt_trans h h'
  · exact le_trans h h'

/-- An accepted packet of the stream has a decode time that may come behind the last one and
replaces it; no other packet touches it. -/
def Remembers (flags : FormatFlags) (i : Nat) (prev : Timestamp)
    (answer : MuxTimestamps × Packet × Except Error Unit) : Prop :=
  if answer.2.1.streamIndex == i && answer.2.2.isOk then
    ∃ d, answer.2.1.dts = some d ∧ answer.1.lastDts[i]? = some (some d) ∧
      checkMonotonic prev (some d) flags = .ok ()
  else answer.1.lastDts[i]? = some prev

theorem remembers_checkAndRemember {m : MuxTimestamps} {i : Nat} {prev : Timestamp}
    (hslot : m.lastDts[i]? = some prev) {pkt : Packet} (hdts : pkt.dts.isSome) :
    (m.checkAndRemember pkt).1.flags = m.flags ∧
      Remembers m.flags i prev (m.checkAndRemember pkt) := by
  rcases Option.isSome_iff_exists.1 hdts with ⟨d, hd⟩
  by_cases hstream : pkt.streamIndex = i
  · subst hstream
    rcases List.getElem?_eq_some_iff.1 hslot with ⟨hlt, rfl⟩
    cases hcheck : checkMonotonic m.lastDts[pkt.streamIndex] (some d) m.flags <;>
      simp [checkAndRemember, Remembers, hd, hcheck, hlt, Except.isOk, Except.toBool]
  · unfold checkAndRemember
    split
    · simp [Remembers, hstream, hslot]
    · split <;> simp [Remembers, hstream, hslot]

theorem remembers_apply {m : MuxTimestamps} (htimes : m.notimestamps = false) {i : Nat}
    {prev : Timestamp} (hslot : m.lastDts[i]? = some prev) (pkt : Packet) (src dst : TimeBase) :
    (m.apply pkt src dst).1.flags = m.flags ∧
      Remembers m.flags i prev (m.apply pkt src dst) := by
  cases hdts : (m.countPacket pkt.streamIndex).giveDts (m.decodeIndex[pkt.streamIndex]?)
      (pkt.rescaleTs src dst Rounding.default) dst with
  | error e =>
      simp only [apply, htimes, Packet.rescaleTs_streamIndex, hdts]
      exact ⟨rfl, by simpa [Remembers, countPacket, Except.isOk, Except.toBool] using hslot⟩
  | ok pkt' =>
      rw [apply_of_giveDts htimes hdts, establishOffset_eq]
      refine remembers_checkAndRemember (m := { m.countPacket pkt.streamIndex with offsetUs := _ })
        hslot ?_
      simpa using (dtsFor_rescaled hdts).1

/-- The accepted packets of a stream have decode times that advance as the container requires,
whatever was refused between them. -/
theorem accepted_advance {m : MuxTimestamps} (htimes : m.notimestamps = false) {i : Nat}
    {prev : Timestamp} (hslot : m.lastDts[i]? = some prev)
    (calls : List (Packet × TimeBase × TimeBase)) :
    ∃ ts : List I64, acceptedDts i (Transducer.outputs applyCall m calls) = ts.map some ∧
      (∀ p, prev = some p → ∀ t ∈ ts, Advances m.flags p t) ∧ ts.Pairwise (Advances m.flags) := by
  induction calls generalizing m prev with
  | nil => exact ⟨[], rfl, fun _ _ _ ht => (List.not_mem_nil ht).elim, List.Pairwise.nil⟩
  | cons call calls ih =>
      rcases remembers_apply htimes hslot call.1 call.2.1 call.2.2 with ⟨hflags, hstep⟩
      have hnext := (apply_kept htimes call.1 call.2.1 call.2.2).2.2
      rw [Transducer.outputs_cons, acceptedDts, List.filter_cons]
      unfold Remembers at hstep
      split at hstep
      · rename_i hours
        rcases hstep with ⟨d, hd, hlast, hcheck⟩
        rcases ih hnext hlast with ⟨ts, hts, hbehind, hpairs⟩
        rw [hflags] at hbehind hpairs
        refine ⟨d :: ts, ?_, ?_, List.pairwise_cons.2 ⟨hbehind d rfl, hpairs⟩⟩
        · rw [applyCall, if_pos hours, List.map_cons, hd, List.map_cons, ← hts]
          rfl
        · rintro p rfl t ht
          have hfirst := advances_of_checkMonotonic hcheck
          rcases List.mem_cons.1 ht with rfl | ht
          · exact hfirst
          · exact hfirst.trans (hbehind d rfl t ht)
      · rename_i hother
        rcases ih hnext hstep with ⟨ts, hts, hbehind, hpairs⟩
        rw [hflags] at hbehind hpairs
        refine ⟨ts, ?_, hbehind, hpairs⟩
        rw [applyCall, if_neg hother, ← hts]
        rfl

theorem accepted_advance_two :
    ∃ ts : List I64, acceptedDts 0 (Transducer.outputs applyCall reorderingChain
        [(framePacket (clampI64 0), milliseconds, milliseconds),
          (framePacket (clampI64 40), milliseconds, milliseconds)]) = ts.map some ∧
      ts.Pairwise (Advances reorderingChain.flags) := by
  rcases @accepted_advance reorderingChain rfl 0 none rfl
    [(framePacket (clampI64 0), milliseconds, milliseconds),
      (framePacket (clampI64 40), milliseconds, milliseconds)] with ⟨ts, hts, -, hpairs⟩
  exact ⟨ts, hts, hpairs⟩

end MuxTimestamps

end Format
end Vaco
