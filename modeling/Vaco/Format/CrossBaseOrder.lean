import Vaco.Format.InterleaveRun

/-!
# Order across time bases

The queue orders packets of different time bases by their decode times in
microseconds.  Those are rounded, so two packets less than a microsecond apart can tie,
and a tie goes to the lower stream whichever packet is exactly earlier.

Main results:

- `InterleaveQueue.drain_inExactOrder_iff`: when the flush is in exact order.

Current gaps:

- Packets are all pushed before the flush; the order of a run that takes packets in
  between is that of the keys.
-/

namespace Vaco
namespace Format

open Library Vaco.Core StreamMerge

/-- Whether a timestamp is present and below another one in the same base. -/
def Timestamp.Before : Timestamp → Timestamp → Prop
  | some s, some t => s < t
  | _, _ => False

instance (s t : Timestamp) : Decidable (Timestamp.Before s t) := by
  cases s <;> cases t <;> unfold Timestamp.Before <;> infer_instance

/-- The decode times of each stream strictly increase. -/
def StreamsAdvance (ps : List Packet) : Prop :=
  ps.Pairwise fun p r => p.streamIndex = r.streamIndex → Timestamp.Before p.dts r.dts

instance (ps : List Packet) : Decidable (StreamsAdvance ps) :=
  inferInstanceAs (Decidable (ps.Pairwise _))

namespace InterleaveQueue

/-- The time base of a packet's stream. -/
def baseOf (q : InterleaveQueue) (p : Packet) : TimeBase :=
  (q.timeBases[p.streamIndex]?).getD Rational.MICROSECONDS

def microseconds (q : InterleaveQueue) (p : Packet) : Timestamp :=
  p.dts.rescale (q.baseOf p) Rational.MICROSECONDS Rounding.default

/-- How the exact decode times of two packets compare. -/
def compareDts (q : InterleaveQueue) (p r : Packet) : Option Ordering :=
  p.dts.compare (q.baseOf p) r.dts (q.baseOf r)

/-- An earlier packet, or one at the same exact time on a lower stream. -/
def ExactlyBefore (q : InterleaveQueue) (p r : Packet) : Prop :=
  q.compareDts p r = some .lt ∨ q.compareDts p r = some .eq ∧ p.streamIndex < r.streamIndex

instance (q : InterleaveQueue) (p r : Packet) : Decidable (q.ExactlyBefore p r) :=
  inferInstanceAs (Decidable (_ ∨ _))

def drained (q : InterleaveQueue) (ps : List Packet) : List Packet :=
  (q.afterCalls (ps.map .push)).drain.2

def DrainsInExactOrder (q : InterleaveQueue) (ps : List Packet) : Prop :=
  (q.drained ps).Perm ps ∧ (q.drained ps).Pairwise q.ExactlyBefore

/-- No packet is exactly later than one on a higher stream that rounds to the same
microsecond. -/
def TiesKeepOrder (q : InterleaveQueue) (ps : List Packet) : Prop :=
  ∀ p ∈ ps, ∀ r ∈ ps, p.streamIndex < r.streamIndex → q.microseconds p = q.microseconds r →
    q.compareDts p r ≠ some .gt

/-- A queue whose keys are the decode times of its packets in positive time bases. -/
structure Plain (q : InterleaveQueue) : Prop where
  bases : ∀ tb ∈ q.timeBases, TimeBase.Positive tb
  unbiased : ∀ i : Nat, q.preload[i]? = some true → q.chunk.audioPreloadUs.val = 0

/-- An entry as its packet was queued: with the packet's stream and rounded time. -/
def EntryOf (q : InterleaveQueue) (x : Nat × Queued) : Prop :=
  x.1 = x.2.pkt.streamIndex ∧ q.microseconds x.2.pkt = some x.2.keyUs

variable {q : InterleaveQueue}

/-! ## Exact and rounded times -/

theorem exists_dts (q : InterleaveQueue) {p : Packet} {k : I64}
    (hp : q.microseconds p = some k) : ∃ s, p.dts = some s := by
  have hsome : (p.dts.rescale (q.baseOf p) Rational.MICROSECONDS Rounding.default).isSome :=
    Option.isSome_of_eq_some hp
  exact Option.isSome_iff_exists.mp (Timestamp.usable_of_rescale hsome).1

namespace Plain

theorem positive (h : q.Plain) (p : Packet) : TimeBase.Positive (q.baseOf p) := by
  unfold baseOf
  cases hbase : q.timeBases[p.streamIndex]? with
  | none =>
      rw [Option.getD_none]
      decide
  | some tb => exact h.bases tb (List.mem_of_getElem? hbase)

theorem keyUs_eq (h : q.Plain) (i : Nat) (t : I64) : q.keyUs i t = t := by
  unfold keyUs
  split
  · rename_i hpreload
    have hzero := h.unbiased i (by simpa [Option.getD_eq_iff] using hpreload)
    rw [Ranged.saturatingSub, hzero, Int.sub_zero, Ranged.clamp_val]
  · rfl

theorem microseconds_eq (h : q.Plain) {p : Packet} {t : I64} (ht : p.dts = some t) :
    q.microseconds p = some (clampI64 (nearestAway
      ((t.val : ℚ) * (q.baseOf p).value / Rational.MICROSECONDS.value))) := by
  rw [microseconds, ht]
  exact Timestamp.rescale_nearest (h.positive p).usable (by decide) t

theorem compareDts_eq (h : q.Plain) {p r : Packet} {s t : I64} (hs : p.dts = some s)
    (ht : r.dts = some t) :
    q.compareDts p r =
      some (Ord.compare ((s.val : ℚ) * (q.baseOf p).value) (t.val * (q.baseOf r).value)) := by
  rw [compareDts, hs, ht]
  exact Timestamp.compare_eq (h.positive p).usable (h.positive r).usable s t

theorem microseconds_le (h : q.Plain) {p r : Packet} {s t k l : I64} (hs : p.dts = some s)
    (ht : r.dts = some t) (hp : q.microseconds p = some k) (hr : q.microseconds r = some l)
    (hle : (s.val : ℚ) * (q.baseOf p).value ≤ t.val * (q.baseOf r).value) : k ≤ l := by
  have hmicros : TimeBase.Positive Rational.MICROSECONDS := by decide
  have hscaled := div_le_div_of_nonneg_right hle hmicros.value_pos.le
  rw [h.microseconds_eq hs, Option.some.injEq] at hp
  rw [h.microseconds_eq ht, Option.some.injEq] at hr
  rw [← hp, ← hr]
  exact Ranged.clamp_mono _ (nearestAway_mono hscaled)

theorem compareDts_of_lt (h : q.Plain) {p r : Packet} {k l : I64}
    (hp : q.microseconds p = some k) (hr : q.microseconds r = some l) (hlt : k < l) :
    q.compareDts p r = some .lt := by
  rcases exists_dts q hp with ⟨s, hs⟩
  rcases exists_dts q hr with ⟨t, ht⟩
  rw [h.compareDts_eq hs ht, Option.some.injEq, compare_lt_iff_lt]
  by_contra hle
  exact absurd hlt (not_lt.mpr (h.microseconds_le ht hs hr hp (not_lt.mp hle)))

theorem exactTime_lt (h : q.Plain) {p r : Packet} {s t : I64}
    (hstream : p.streamIndex = r.streamIndex) (hs : p.dts = some s) (ht : r.dts = some t)
    (hbefore : Timestamp.Before p.dts r.dts) :
    (s.val : ℚ) * (q.baseOf p).value < t.val * (q.baseOf r).value := by
  have hbase : q.baseOf r = q.baseOf p := by rw [baseOf, baseOf, hstream]
  rw [hs, ht] at hbefore
  rw [hbase]
  exact mul_lt_mul_of_pos_right (by exact_mod_cast Ranged.lt_iff.mp hbefore)
    (h.positive p).value_pos

theorem compareDts_of_before (h : q.Plain) {p r : Packet}
    (hstream : p.streamIndex = r.streamIndex) (hbefore : Timestamp.Before p.dts r.dts) :
    q.compareDts p r = some .lt := by
  cases hs : p.dts with
  | none =>
      rw [hs] at hbefore
      exact hbefore.elim
  | some s =>
      cases ht : r.dts with
      | none =>
          rw [hs, ht] at hbefore
          exact hbefore.elim
      | some t =>
          rw [h.compareDts_eq hs ht, Option.some.injEq, compare_lt_iff_lt]
          exact h.exactTime_lt hstream hs ht hbefore

end Plain

/-! ## What the pushes accept -/

theorem Plain.entryFor_eq (h : q.Plain) {p : Packet} (hstream : p.streamIndex < q.perStream.length)
    (hdts : p.dts.isSome) :
    ∃ k, q.microseconds p = some k ∧
      q.entryFor p = .ok ({ pkt := p, keyUs := k, seq := min (q.seq + 1) u64Max }, k) := by
  rcases Option.isSome_iff_exists.mp hdts with ⟨s, hs⟩
  have hk := h.microseconds_eq hs
  have hdtsUs : q.dtsUs p = .ok (clampI64 (nearestAway
      ((s.val : ℚ) * (q.baseOf p).value / Rational.MICROSECONDS.value))) := by
    unfold microseconds baseOf at hk
    rw [dtsUs, hk]
    rfl
  exact ⟨_, hk, by simp [entryFor, hstream, hdtsUs, h.keyUs_eq]⟩

/-- Pushing packets with decode times accepts each of them as its entry. -/
theorem Plain.accepted_pushes (h : q.Plain) {ps : List Packet}
    (hps : ∀ p ∈ ps, p.streamIndex < q.perStream.length ∧ p.dts.isSome) :
    (acceptedIn (q.events (ps.map .push))).map (fun x => x.2.pkt) = ps ∧
      (∀ x ∈ acceptedIn (q.events (ps.map .push)), q.EntryOf x) ∧
      emittedIn (q.events (ps.map .push)) = [] := by
  induction ps generalizing q with
  | nil => simp [events, acceptedIn, emittedIn]
  | cons p ps ih =>
      rcases hps p (List.mem_cons_self ..) with ⟨hstream, hdts⟩
      rcases h.entryFor_eq hstream hdts with ⟨k, hk, hentry⟩
      have hevent : (q.call (.push p)).2 =
          .accepted (p.streamIndex, { pkt := p, keyUs := k, seq := min (q.seq + 1) u64Max }) := by
        simp [call, hentry]
      have hstate : (q.call (.push p)).1 = _ := push_of_entryFor hentry
      have hrest := ih (q := (q.call (.push p)).1) (by rw [hstate]; exact ⟨h.bases, h.unbiased⟩)
        (by
          intro r hr
          rw [hstate]
          simpa using hps r (List.mem_cons_of_mem _ hr))
      have hentries : ∀ x, (q.call (.push p)).1.EntryOf x ↔ q.EntryOf x := by
        intro x
        rw [hstate]
        rfl
      have hsplit : q.events ((p :: ps).map .push) =
          (q.call (.push p)).2 :: (q.call (.push p)).1.events (ps.map .push) := rfl
      rw [hsplit, hevent]
      refine ⟨?_, ?_, hrest.2.2⟩
      · exact congrArg (p :: ·) hrest.1
      · intro x hx
        rcases List.mem_cons.mp hx with rfl | hx
        · exact ⟨rfl, hk⟩
        · exact (hentries x).mp (hrest.2.1 x hx)

theorem respects_pushes {q : InterleaveQueue} (hlive : ∀ i : Nat, q.live[i]? ≠ some false)
    (ps : List Packet) :
    Transducer.Admissible call Respects q (ps.map .push) := by
  induction ps generalizing q with
  | nil => trivial
  | cons p ps ih =>
      refine ⟨hlive _, ih ?_⟩
      cases hentry : q.entryFor p with
      | error e =>
          have hstate : (q.call (.push p)).1 = q := push_of_refused hentry
          rwa [hstate]
      | ok ok =>
          have hstate : (q.call (.push p)).1 = _ := push_of_entryFor hentry
          rwa [hstate]

/-! ## The final flush -/

theorem Plain.keysOrdered (h : q.Plain) {xs : List (Nat × Queued)}
    (hentries : ∀ x ∈ xs, q.EntryOf x) (hadvance : StreamsAdvance (xs.map fun x => x.2.pkt)) :
    KeysOrdered xs := by
  refine (List.pairwise_map.mp hadvance).imp_of_mem ?_
  intro x y hx hy hbefore hstream
  rcases hentries x hx with ⟨hxs, hxk⟩
  rcases hentries y hy with ⟨hys, hyk⟩
  rw [hxs, hys] at hstream
  rcases exists_dts q hxk with ⟨s, hs⟩
  rcases exists_dts q hyk with ⟨t, ht⟩
  exact h.microseconds_le hs ht hxk hyk (h.exactTime_lt hstream hs ht (hbefore hstream)).le

/-- The final flush sorts by rounded time and stream, and keeps the order of each stream. -/
theorem Plain.drained_entries (h : q.Plain) (hfresh : q.Fresh)
    (hchunk : q.chunk.isChunked = false) {ps : List Packet}
    (hps : ∀ p ∈ ps, p.streamIndex < q.perStream.length ∧ p.dts.isSome)
    (hadvance : StreamsAdvance ps) :
    ∃ entries : List (Nat × Queued),
      q.drained ps = entries.map (fun x => x.2.pkt) ∧
        (entries.map fun x => x.2.pkt).Perm ps ∧ (∀ x ∈ entries, q.EntryOf x) ∧
        entries.Pairwise fun x y => rank Queued.keyUs x ≤ rank Queued.keyUs y ∧
          (x.1 = y.1 → Timestamp.Before x.2.pkt.dts y.2.pkt.dts) := by
  rcases h.accepted_pushes hps with ⟨hpackets, hentries, hemitted⟩
  have hlive : ∀ i : Nat, q.live[i]? ≠ some false := by
    intro i
    simp [hfresh.live, List.getElem?_replicate]
  have hbefore : (acceptedIn (q.events (ps.map .push))).Pairwise fun x y =>
      x.1 = y.1 → Timestamp.Before x.2.pkt.dts y.2.pkt.dts := by
    rw [← hpackets] at hadvance
    refine (List.pairwise_map.mp hadvance).imp_of_mem ?_
    intro x y hx hy hxy hstream
    rw [(hentries x hx).1, (hentries y hy).1] at hstream
    exact hxy hstream
  have hordered : KeysOrdered (acceptedIn (q.events (ps.map .push))) :=
    h.keysOrdered hentries (by rwa [hpackets])
  have hrun := merging_run hfresh hchunk (respects_pushes hlive ps) hordered
  have hmerging := hrun.merging.close fun i (hi : (fun _ => False) i) => hi.elim
  rw [hemitted] at hmerging
  have hbound : (queuedItems (q.afterCalls (ps.map .push)).perStream).length ≤
      (q.afterCalls (ps.map .push)).pending + 1 := by
    rw [pending_eq]
    omega
  rcases hmerging.mergeAll_complete hbound with ⟨hperm, hsorted⟩
  refine ⟨_, (drain_eq_mergeAll hrun.unchunked).1, ?_, ?_, ?_⟩
  · have hmap := hperm.map fun x => x.2.pkt
    rwa [hpackets] at hmap
  · intro x hx
    exact hentries x (hperm.mem_iff.mp hx)
  · have hstreams :=
      (hmerging.mergeAll ((q.afterCalls (ps.map .push)).pending + 1)).emitted_of_accepted
      hbefore
    exact hsorted.and hstreams

/-- The final flush is in exact order exactly when no packet is exactly later than one
on a higher stream that rounds to the same microsecond. -/
theorem drain_inExactOrder_iff {q : InterleaveQueue} (hfresh : q.Fresh)
    (hchunk : q.chunk.isChunked = false) (hplain : q.Plain) {ps : List Packet}
    (hps : ∀ p ∈ ps, p.streamIndex < q.perStream.length ∧ p.dts.isSome)
    (hadvance : StreamsAdvance ps) : q.DrainsInExactOrder ps ↔ q.TiesKeepOrder ps := by
  rcases hplain.drained_entries hfresh hchunk hps hadvance with
    ⟨entries, hdrained, hperm, hentries, hsorted⟩
  rw [DrainsInExactOrder, hdrained]
  constructor
  · rintro ⟨-, hexact⟩ p hp r hr hstream hmicros
    rcases List.mem_map.mp (hperm.mem_iff.mpr hp) with ⟨x, hx, rfl⟩
    rcases List.mem_map.mp (hperm.mem_iff.mpr hr) with ⟨y, hy, rfl⟩
    rcases hentries x hx with ⟨hxs, hxk⟩
    rcases hentries y hy with ⟨hys, hyk⟩
    rcases List.getElem_of_mem hx with ⟨i, hi, rfl⟩
    rcases List.getElem_of_mem hy with ⟨j, hj, rfl⟩
    rw [hxk, hyk, Option.some.injEq] at hmicros
    rw [List.pairwise_map, List.pairwise_iff_getElem] at hexact
    rw [List.pairwise_iff_getElem] at hsorted
    rcases lt_trichotomy i j with hlt | heq | hgt
    · rcases hexact i j hi hj hlt with hbefore | hbefore
      · simp [hbefore]
      · simp [hbefore.1]
    · subst heq
      exact absurd hstream (lt_irrefl _)
    -- The entry on the higher stream cannot have left first.
    · rcases rank_le_iff.mp (hsorted j i hj hi hgt).1 with hkey | hkey
      · exact absurd hkey (by rw [hmicros]; exact lt_irrefl _)
      · rw [hxs, hys] at hkey
        exact absurd hstream (not_lt.mpr hkey.2)
  · intro hties
    refine ⟨hperm, List.pairwise_map.mpr (hsorted.imp_of_mem ?_)⟩
    rintro x y hx hy ⟨hrank, hbefore⟩
    rcases hentries x hx with ⟨hxs, hxk⟩
    rcases hentries y hy with ⟨hys, hyk⟩
    rcases rank_le_iff.mp hrank with hkey | ⟨hkey, hstream⟩
    · exact Or.inl (hplain.compareDts_of_lt hxk hyk hkey)
    · rcases hstream.lt_or_eq with hstream | hstream
      · rw [hxs, hys] at hstream
        have hmicros : q.microseconds x.2.pkt = q.microseconds y.2.pkt := by
          rw [hxk, hyk, hkey]
        have hne := hties _ (hperm.mem_iff.mp (List.mem_map_of_mem hx)) _
          (hperm.mem_iff.mp (List.mem_map_of_mem hy)) hstream hmicros
        rcases exists_dts q hxk with ⟨s, hs⟩
        rcases exists_dts q hyk with ⟨t, ht⟩
        have hcompare := hplain.compareDts_eq hs ht
        cases ho : Ord.compare ((s.val : ℚ) * (q.baseOf x.2.pkt).value)
            (t.val * (q.baseOf y.2.pkt).value) with
        | lt => exact Or.inl (by rw [hcompare, ho])
        | eq => exact Or.inr ⟨by rw [hcompare, ho], hstream⟩
        | gt => exact absurd (by rw [hcompare, ho]) hne
      · have hsame := hbefore hstream
        rw [hxs, hys] at hstream
        exact Or.inl (hplain.compareDts_of_before hstream hsame)

/-! ## Fixed bases -/

/-- A queue for two streams with ticks of the given fractions of a second. -/
def twoBases (first second : I32) : InterleaveQueue :=
  let one : I32 := .lit 1
  ((new 2 FormatOptions.default).setTimeBase 0 ⟨one, first⟩).setTimeBase 1 ⟨one, second⟩

theorem fresh_twoBases (first second : I32) : (twoBases first second).Fresh :=
  ((fresh_new 2 FormatOptions.default).setTimeBase 0 _).setTimeBase 1 _

theorem plain_twoBases {first second : I32} (hfirst : 0 < first.val) (hsecond : 0 < second.val) :
    (twoBases first second).Plain where
  bases := by
    intro tb htb
    simp only [twoBases, setTimeBase, new, List.replicate_succ, List.replicate_zero,
      List.set_cons_zero, List.set_cons_succ, List.mem_cons, List.not_mem_nil, or_false] at htb
    rcases htb with rfl | rfl
    · exact ⟨Int.one_pos, hfirst⟩
    · exact ⟨Int.one_pos, hsecond⟩
  unbiased := fun _ _ => rfl

/-- One packet at a tick of each of two streams. -/
def packetPair (first second : I64) : List Packet :=
  [{ Packet.empty with streamIndex := 0, dts := some first },
    { Packet.empty with streamIndex := 1, dts := some second }]

theorem drain_inExactOrder_video_audio :
    (twoBases ⟨90000, by decide, by decide⟩ ⟨48000, by decide, by decide⟩).DrainsInExactOrder
      (packetPair (clampI64 90000) (clampI64 47999)) := by
  refine (drain_inExactOrder_iff (fresh_twoBases _ _) (by decide +kernel)
    (plain_twoBases (by decide) (by decide)) (by decide +kernel) (by decide +kernel)).mpr ?_
  unfold TiesKeepOrder
  decide +kernel

/-- With ticks of a tenth of a microsecond the packet at tick 4 leaves before the one at
tick 1 of a higher stream. -/
theorem not_drain_inExactOrder_tenths :
    let q := twoBases ⟨10000000, by decide, by decide⟩ ⟨10000000, by decide, by decide⟩
    let ps := packetPair (clampI64 4) (clampI64 1)
    q.Fresh ∧ q.Plain ∧ q.chunk.isChunked = false ∧
      (∀ p ∈ ps, p.streamIndex < q.perStream.length ∧ p.dts.isSome) ∧ StreamsAdvance ps ∧
      ¬ (q.drained ps).Pairwise fun p r => q.compareDts p r ≠ some .gt := by
  refine ⟨fresh_twoBases _ _, plain_twoBases (by decide) (by decide), ?_, ?_, ?_, ?_⟩ <;>
    decide +kernel

end InterleaveQueue

end Format
end Vaco
