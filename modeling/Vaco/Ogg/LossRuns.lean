import Vaco.Ogg.Reassembly

/-!
# Lost pages

Some pages of a file never reach the demuxer.  What it gives out then is made of whole packets,
each in its order, as long as no page that goes on with a packet comes without the pages before
it; the sequence numbers show every loss between two pages of a stream.

Main results:

- `wholePackets`: the packets of a stream that have lost no piece.
- `Tracks.lost`: the step in which a page is lost.
- `Tracks.kept`: the step in which a page is read.
- `OggDemuxer.Reached.givesWhole`: whatever pages are lost, only whole packets are given out, if no
  kept page goes on with a packet that has lost a piece.
- `not_givesWhole`: the rest of a packet that has lost its beginning is given out.

Current gaps:

- That the condition is necessary is not shown: the rest of a packet may be taken for a header, be
  refused by the budget, or be a whole packet by chance.
-/

namespace Vaco
namespace Ogg

open Library BitStream
open Vaco.Core (Byte Error)
open Sched (Budget Limits)

/-! ## Pages that are marked as kept or lost -/

/-- The pages that reach the demuxer. -/
def keptPages (marked : List (Page × Bool)) : List (OggPageHeader × Bytes) :=
  (marked.filter Prod.snd).map fun entry => entry.1.content

/-- The pages of one stream. -/
def streamPages (serial : Nat) (marked : List (Page × Bool)) : List (Page × Bool) :=
  marked.filter fun entry => entry.1.serial == serial

def markedPieces (pages : List (Page × Bool)) : List (Bytes × Bool) :=
  pages.flatMap fun entry => entry.1.pieces.map (·, entry.2)

/-- The pieces of each packet that some pages end, and those of the packet they leave open. -/
def markedPackets (pages : List (Page × Bool)) :
    List (List (Bytes × Bool)) × List (Bytes × Bool) :=
  Lacing.group continuationValue [] (markedPieces pages)

/-- No piece has been lost. -/
def AllKept (pieces : List (Bytes × Bool)) : Prop :=
  ∀ piece ∈ pieces, piece.2 = true

instance (pieces : List (Bytes × Bool)) : Decidable (AllKept pieces) :=
  inferInstanceAs (Decidable (∀ piece ∈ pieces, piece.2 = true))

def wholePackets (pages : List (Page × Bool)) : List Bytes :=
  ((markedPackets pages).1.filter fun pieces => decide (AllKept pieces)).map Lacing.unitOf

/-- The last page that has been kept. -/
def lastKept (pages : List (Page × Bool)) : Option (Page × Bool) :=
  (pages.filter Prod.snd).getLast?

/-- The pages between two kept ones are lost, and so few that their numbers tell. -/
structure LostBetween (pages : List (Page × Bool)) (i j : Nat) : Prop where
  apart : i + 1 < j
  near : j ≤ i + 2 ^ 32
  first : ∃ page, pages[i]? = some (page, true)
  second : ∃ page, pages[j]? = some (page, true)
  lost : ∀ k, i < k → k < j → ∃ page, pages[k]? = some (page, false)

/-- The pages of a file, whose streams each continue their packets and number their pages. -/
structure ValidPages (marked : List (Page × Bool)) : Prop where
  fits : ∀ entry ∈ marked, entry.1.Fits
  continues : ∀ serial, Continues ((streamPages serial marked).map Prod.fst)
  numbered : ∀ serial, ∃ first, ∀ (k : Nat) (entry : Page × Bool),
    (streamPages serial marked)[k]? = some entry → entry.1.sequence = (first + k) % 2 ^ 32

/-- A kept page that goes on with a packet comes behind all earlier pieces of it. -/
def KeepsHeads (marked : List (Page × Bool)) : Prop :=
  ∀ (serial k : Nat) (page : Page), (streamPages serial marked)[k]? = some (page, true) →
    page.flags.continued = true → page.pieces ≠ [] →
      AllKept (markedPackets ((streamPages serial marked).take k)).2

/-- No packet that has lost no piece is larger than the demuxer allows. -/
def WithinLimit (marked : List (Page × Bool)) : Prop :=
  ∀ serial, ∀ packet ∈ wholePackets (streamPages serial marked), packet.length ≤ maxPacketBytes

section Marked

variable {serial : Nat} {page : Page} {kept : Bool} {first second done : List (Page × Bool)}

theorem streamPages_append (serial : Nat) (first second : List (Page × Bool)) :
    streamPages serial (first ++ second) = streamPages serial first ++ streamPages serial second :=
  List.filter_append first second

theorem streamPages_singleton (page : Page) (kept : Bool) :
    streamPages page.serial [(page, kept)] = [(page, kept)] := by
  simp [streamPages]

theorem streamPages_singleton_of_ne (hne : page.serial ≠ serial) (kept : Bool) :
    streamPages serial [(page, kept)] = [] := by
  simp [streamPages, hne]

theorem markedPackets_append (first second : List (Page × Bool)) :
    markedPackets (first ++ second) =
      ((markedPackets first).1 ++
          (Lacing.group continuationValue (markedPackets first).2 (markedPieces second)).1,
        (Lacing.group continuationValue (markedPackets first).2 (markedPieces second)).2) := by
  rw [markedPackets, markedPieces, List.flatMap_append]
  exact Lacing.group_append _ _ _

theorem wholePackets_append (first second : List (Page × Bool)) :
    wholePackets (first ++ second) = wholePackets first ++
      ((Lacing.group continuationValue (markedPackets first).2 (markedPieces second)).1.filter
        fun pieces => decide (AllKept pieces)).map Lacing.unitOf := by
  rw [wholePackets, markedPackets_append, List.filter_append, List.map_append]
  rfl

theorem wholePackets_initial (first second : List (Page × Bool)) :
    wholePackets first <+: wholePackets (first ++ second) := by
  rw [wholePackets_append]
  exact List.prefix_append _ _

theorem gathered_pages (pages : List (Page × Bool)) :
    gathered ((pages.map Prod.fst).flatMap Page.pieces) =
      ((markedPackets pages).1.map Lacing.unitOf, Lacing.openOf (markedPackets pages).2) := by
  have hpieces : (markedPieces pages).map Prod.fst = (pages.map Prod.fst).flatMap Page.pieces := by
    rw [markedPieces, List.map_flatMap, List.flatMap_map]
    apply List.flatMap_congr
    intro entry _
    rw [List.map_map]
    exact List.map_id _
  rw [gathered, ← hpieces]
  exact Lacing.gather_map_fst [] (markedPieces pages)

theorem isSome_openOf (pieces : List (Bytes × Bool)) :
    (Lacing.openOf pieces).isSome = true ↔ pieces ≠ [] := by
  rw [Lacing.openOf]
  split
  · rename_i hnil
    exact ⟨fun hsome => Bool.noConfusion hsome, fun hne => absurd hnil hne⟩
  · rename_i hne
    exact ⟨fun _ => hne, fun _ => rfl⟩

theorem lastKept_append_kept (pages : List (Page × Bool)) (page : Page) :
    lastKept (pages ++ [(page, true)]) = some (page, true) := by
  rw [lastKept, List.filter_append, List.filter_cons_of_pos rfl, List.filter_nil]
  exact List.getLast?_concat

theorem lastKept_append_lost (hlost : ∀ entry ∈ second, entry.2 = false) :
    lastKept (first ++ second) = lastKept first := by
  have hnone : second.filter Prod.snd = [] :=
    List.filter_eq_nil_iff.mpr fun entry hentry => ne_true_of_eq_false (hlost entry hentry)
  rw [lastKept, List.filter_append, hnone, List.append_nil]
  rfl

theorem not_allKept_of_lost (pages : List (Page × Bool)) (hne : page.pieces ≠ [])
    (hopen : (markedPackets (pages ++ [(page, false)])).2 ≠ []) :
    ¬AllKept (markedPackets (pages ++ [(page, false)])).2 := by
  rw [markedPackets_append] at hopen ⊢
  have hmarks : markedPieces [(page, false)] = page.pieces.map (·, false) :=
    List.flatMap_singleton _ _
  rw [hmarks] at hopen ⊢
  rcases Lacing.exists_mem_of_mem_left (mt List.map_eq_nil_iff.mp hne) hopen with
    ⟨piece, hleft, hmem⟩
  rcases List.mem_map.mp hmem with ⟨bytes, -, rfl⟩
  exact fun hkept => Bool.false_ne_true (hkept _ hleft)

theorem not_allKept_of_forall_lost {pages : List (Page × Bool)}
    (hlost : ∀ entry ∈ pages, entry.2 = false) (hopen : (markedPackets pages).2 ≠ []) :
    ¬AllKept (markedPackets pages).2 := by
  have hmarks : ∀ piece ∈ markedPieces pages, piece.2 = false := by
    intro piece hpiece
    rcases List.mem_flatMap.mp hpiece with ⟨entry, hentry, hpiece⟩
    rcases List.mem_map.mp hpiece with ⟨bytes, -, rfl⟩
    exact hlost entry hentry
  have hleft := (@Lacing.group_forall _ continuationValue _ (· = false) [] _
    (fun piece h => absurd h List.not_mem_nil) hmarks).2
  intro hkept
  rcases List.exists_mem_of_ne_nil _ hopen with ⟨piece, hpiece⟩
  exact Bool.false_ne_true ((hleft piece hpiece).symm.trans (hkept piece hpiece))

namespace LostBetween

variable {i j : Nat} {entry : Page × Bool}

theorem of_append (h : LostBetween (done ++ [entry]) i j) (hlt : j < done.length) :
    LostBetween done i j where
  apart := h.apart
  near := h.near
  first := by
    rcases h.first with ⟨page, hpage⟩
    have hi : i < done.length := (Nat.lt_of_succ_lt h.apart).trans hlt
    rw [List.getElem?_append_left hi] at hpage
    exact ⟨page, hpage⟩
  second := by
    rcases h.second with ⟨page, hpage⟩
    rw [List.getElem?_append_left hlt] at hpage
    exact ⟨page, hpage⟩
  lost := by
    intro k hik hkj
    rcases h.lost k hik hkj with ⟨page, hpage⟩
    rw [List.getElem?_append_left (hkj.trans hlt)] at hpage
    exact ⟨page, hpage⟩

theorem le_length (h : LostBetween (done ++ [entry]) i j) : j ≤ done.length := by
  rcases h.second with ⟨page, hpage⟩
  have hlt := (List.getElem?_eq_some_iff.mp hpage).1
  rw [List.length_append, List.length_singleton] at hlt
  exact Nat.le_of_lt_succ hlt

theorem of_append_lost (h : LostBetween (done ++ [(page, false)]) i j) : LostBetween done i j := by
  refine h.of_append (lt_of_le_of_ne h.le_length ?_)
  rintro rfl
  rcases h.second with ⟨other, hother⟩
  rw [List.getElem?_concat_length] at hother
  cases hother

theorem lastKept_eq (h : LostBetween (done ++ [entry]) i done.length) :
    ∃ page, done[i]? = some (page, true) ∧ lastKept done = some (page, true) := by
  have hi : i < done.length := Nat.lt_of_succ_lt h.apart
  rcases h.first with ⟨page, hpage⟩
  rw [List.getElem?_append_left hi] at hpage
  refine ⟨page, hpage, ?_⟩
  have hsplit : done = done.take i ++ [(page, true)] ++ done.drop (i + 1) := by
    have htake := @List.take_add_one _ done i
    rw [hpage, Option.toList_some] at htake
    rw [← htake, List.take_append_drop]
  rw [hsplit, lastKept_append_lost, lastKept_append_kept]
  intro lost hlost
  rcases List.mem_iff_getElem?.mp hlost with ⟨k, hk⟩
  rw [List.getElem?_drop] at hk
  have hlt := (List.getElem?_eq_some_iff.mp hk).1
  rcases h.lost (i + 1 + k) (by omega) hlt with ⟨other, hother⟩
  rw [List.getElem?_append_left hlt, hk] at hother
  cases hother
  rfl

end LostBetween

end Marked

/-! ## One page of one stream -/

namespace Assembly

variable {a a' : Assembly} {page : Page} {before : List (Page × Bool)} {completed : List Bytes}

theorem reassemble_part {continuing : Bool} {chunk : Bytes}
    (h : a.reassemble continuing [(chunk, false)] = .ok (a', completed)) : completed = [] := by
  rw [reassemble] at h
  split at h
  · split at h
    · cases h
    · rw [if_neg Bool.false_ne_true] at h
      cases h
      rfl
  · split at h
    · rw [takeRuns] at h
      split at h
      · cases h
      · cases h
        rfl
    · rw [takeRuns] at h
      split at h
      · cases h
      · cases h
        rfl

theorem length_flatten_le {pieces : List Bytes} (hfit : PagePieces pieces) :
    pieces.flatten.length ≤ maxPacketBytes := by
  rw [List.length_flatten]
  calc (pieces.map List.length).sum ≤ (pieces.map List.length).length • continuationValue := by
        apply List.sum_le_card_nsmul
        intro len hlen
        rcases List.mem_map.mp hlen with ⟨piece, hpiece, rfl⟩
        exact hfit.length_le piece hpiece
    _ ≤ maxSegments * continuationValue := by
        rw [List.length_map, smul_eq_mul]
        exact Nat.mul_le_mul_right _ hfit.count_le
    _ ≤ maxPacketBytes := by decide

theorem length_part_le {pieces others : List Bytes} {first : Bytes} (hfit : PagePieces pieces)
    (hends : (Lacing.gather continuationValue none pieces).1 = first :: others)
    (opened : Option Bytes) :
    ((Lacing.gather continuationValue opened pieces).2.getD []).length ≤ maxPacketBytes := by
  have hall := @Lacing.sum_length_gather _ continuationValue none pieces
  rw [Option.getD_none, List.length_nil, Nat.zero_add] at hall
  have hle := (Nat.le_of_add_left_le hall.le).trans (length_flatten_le hfit)
  cases opened with
  | none => exact hle
  | some u =>
      have hne : pieces ≠ [] := by
        rintro rfl
        cases hends
      rw [Lacing.gather_some u hne, hends]
      exact hle

/-- A kept page completes the packets that end on it, if no earlier piece of its first packet has
been lost. -/
theorem reassemble_marked (hfit : PagePieces page.pieces) (htidy : a.stream.Tidy)
    (hcontinued : page.flags.continued = (Lacing.openOf (markedPackets before).2).isSome)
    (hhead : page.pieces ≠ [] → AllKept (markedPackets before).2)
    (hheld : ∀ u, Lacing.openOf (markedPackets before).2 = some u →
      AllKept (markedPackets before).2 → u.length ≤ maxPacketBytes → a.stream.held = some u)
    (hwhole : ∀ packet ∈ wholePackets (before ++ [(page, true)]),
      packet.length ≤ maxPacketBytes)
    (h : a.reassemble page.flags.continued (pageRuns page.header page.pieces.flatten) =
      .ok (a', completed)) :
    wholePackets (before ++ [(page, true)]) = wholePackets before ++ completed ∧
      ∀ u, Lacing.openOf (markedPackets (before ++ [(page, true)])).2 = some u →
        AllKept (markedPackets (before ++ [(page, true)])).2 → u.length ≤ maxPacketBytes →
          a'.stream.held = some u := by
  have hmarks : markedPieces [(page, true)] = page.pieces.map (·, true) :=
    List.flatMap_singleton _ _
  have hpieces : (page.pieces.map (·, true)).map Prod.fst = page.pieces := by
    rw [List.map_map]
    exact List.map_id _
  have hgather := @Lacing.gather_map_fst _ continuationValue _ (markedPackets before).2
    (page.pieces.map (·, true))
  rw [hpieces] at hgather
  have hruns : pageRuns page.header page.pieces.flatten =
      (gathered page.pieces).1.map (·, true) ++ (gathered page.pieces).2.toList.map (·, false) :=
    spanChunks_eq hfit
  rw [wholePackets_append, hmarks] at hwhole ⊢
  rw [markedPackets_append, hmarks]
  by_cases hne : page.pieces = []
  · rw [hruns, hne] at h
    rw [hne]
    cases h
    exact ⟨rfl, hheld⟩
  have htags : ∀ piece ∈ page.pieces.map (·, true), piece.2 = true := by
    intro piece hpiece
    rcases List.mem_map.mp hpiece with ⟨bytes, -, rfl⟩
    rfl
  rcases @Lacing.group_forall _ continuationValue _ (· = true) _ _ (hhead hne) htags with
    ⟨hunits, -⟩
  have hall (unit : List (Bytes × Bool)) (hunit : unit ∈ (Lacing.group continuationValue
      (markedPackets before).2 (page.pieces.map (·, true))).1) : decide (AllKept unit) = true :=
    decide_eq_true (hunits unit hunit)
  rw [List.filter_eq_self.mpr hall] at hwhole ⊢
  have hended : ∀ v ∈ (Lacing.gather continuationValue
      (Lacing.openOf (markedPackets before).2) page.pieces).1, v.length ≤ maxPacketBytes := by
    rw [hgather]
    exact fun v hv => hwhole v (List.mem_append_right _ hv)
  have hspec (hleft : ((Lacing.gather continuationValue
      (Lacing.openOf (markedPackets before).2) page.pieces).2.getD []).length ≤ maxPacketBytes) :
      a.Reassembled a' (Lacing.openOf (markedPackets before).2) page.pieces completed := by
    have hopened := Lacing.length_opened_le _ _ hended hleft
    rw [hcontinued] at h
    refine reassemble_spec hfit htidy (fun u hu => hheld u hu (hhead hne) ?_) hended ?_ h
    · rw [hu] at hopened
      exact hopened
    · intro v hv
      rw [hv] at hleft
      exact hleft
  have hcompleted : completed = (Lacing.gather continuationValue
      (Lacing.openOf (markedPackets before).2) page.pieces).1 := by
    cases hends : (Lacing.gather continuationValue none page.pieces).1 with
    | nil =>
        -- no packet ends here, so that it does not matter what is pending
        have hlen := @Lacing.length_gather _ continuationValue
          (Lacing.openOf (markedPackets before).2) page.pieces
        rw [← @Lacing.length_gather _ continuationValue none page.pieces, hends,
          List.length_nil, List.length_eq_zero_iff] at hlen
        rcases gather_part_isSome hne hends with ⟨part, hpart⟩
        rw [hruns, gathered, hends, hpart] at h
        rw [hlen, reassemble_part h]
    | cons first others => exact (hspec (length_part_le hfit hends _)).completed_eq
  refine ⟨by rw [hcompleted, hgather], fun u hu _ hlen => ?_⟩
  have hpart : (Lacing.gather continuationValue (Lacing.openOf (markedPackets before).2)
      page.pieces).2 = some u := by
    rw [hgather]
    exact hu
  have hleft := hspec (by rw [hpart]; exact hlen)
  rw [hleft.stream_eq, if_neg hne, LogicalStream.held_holding, hpart]

end Assembly

/-! ## What has been read so far -/

/-- The packets of one stream among those given out. -/
def packetsOf (streamIndex : Nat) (packets : List DemuxedPacket) : List Bytes :=
  (packets.filter fun packet => packet.streamIndex == streamIndex).map DemuxedPacket.data

theorem packetsOf_append (streamIndex : Nat) (first second : List DemuxedPacket) :
    packetsOf streamIndex (first ++ second) =
      packetsOf streamIndex first ++ packetsOf streamIndex second := by
  rw [packetsOf, List.filter_append, List.map_append]
  rfl

theorem packetsOf_eq_nil {streamIndex : Nat} {packets : List DemuxedPacket}
    (h : ∀ packet ∈ packets, packet.streamIndex ≠ streamIndex) :
    packetsOf streamIndex packets = [] := by
  rw [packetsOf, List.filter_eq_nil_iff.mpr fun packet hpacket => by simpa using h packet hpacket,
    List.map_nil]

theorem packetsOf_eq_map {streamIndex : Nat} {packets : List DemuxedPacket}
    (h : ∀ packet ∈ packets, packet.streamIndex = streamIndex) :
    packetsOf streamIndex packets = packets.map DemuxedPacket.data := by
  rw [packetsOf, List.filter_eq_self.mpr fun packet hpacket => by simpa using h packet hpacket]

def CountsGap (d d' : OggDemuxer) : Prop :=
  d.stats.sequenceGaps < d'.stats.sequenceGaps ∨ d'.stats.sequenceGaps = u64Max

/-- How far a demuxer has come that has read the kept pages of a part of a file. -/
structure Tracks (d₀ d : OggDemuxer) (done : List (Page × Bool)) (emitted : List DemuxedPacket) :
    Prop where
  indexed : d.Indexed
  queue_eq : d.queue = d₀.queue ++ emitted
  owned : ∀ packet ∈ emitted, ∃ l ∈ d.logical, l.streamIndex = packet.streamIndex
  seen : ∀ page, (page, true) ∈ done → ∃ l ∈ d.logical, l.serial = page.serial
  held : ∀ l ∈ d.logical, ∀ u,
    Lacing.openOf (markedPackets (streamPages l.serial done)).2 = some u →
      AllKept (markedPackets (streamPages l.serial done)).2 → u.length ≤ maxPacketBytes →
        l.held = some u
  whole : ∀ l ∈ d.logical,
    (packetsOf l.streamIndex emitted).Sublist (wholePackets (streamPages l.serial done))
  last : ∀ l ∈ d.logical, ∀ page, lastKept (streamPages l.serial done) = some (page, true) →
    l.lastSequence = some page.sequence
  counted : d₀.stats.sequenceGaps ≤ d.stats.sequenceGaps ∨ d.stats.sequenceGaps = u64Max
  reported : ∀ serial i j, LostBetween (streamPages serial done) i j → CountsGap d₀ d

theorem Assembly.checkSequenceGap_gaps (a : Assembly) (sequence : Nat) :
    ((a.checkSequenceGap sequence).stats.sequenceGaps = a.stats.sequenceGaps ∨
        (a.checkSequenceGap sequence).stats.sequenceGaps = satAddU64 a.stats.sequenceGaps 1) ∧
      ∀ prev, a.stream.lastSequence = some prev → sequence ≠ (prev + 1) % 2 ^ 32 →
        (a.checkSequenceGap sequence).stats.sequenceGaps =
          satAddU64 a.stats.sequenceGaps 1 := by
  rw [checkSequenceGap]
  cases hlast : a.stream.lastSequence with
  | none => exact ⟨.inl rfl, fun prev hprev => by cases hprev⟩
  | some prev =>
      dsimp only
      by_cases hgap : sequence ≠ (prev + 1) % 2 ^ 32
      · rw [if_pos hgap]
        exact ⟨.inr rfl, fun _ _ _ => rfl⟩
      · rw [if_neg hgap]
        refine ⟨.inl rfl, fun other hother hne => absurd ?_ hgap⟩
        rw [Option.some_inj.mp hother]
        exact hne

namespace OggDemuxer.Accepted

variable {d d' : OggDemuxer} {page : Page} {l l' : LogicalStream} {a : Assembly}
  {completed : List Bytes} {new : List DemuxedPacket}

theorem serial_eq (h : Accepted d d' page.header page.pieces.flatten l l' a completed new) :
    l'.serial = page.serial := by
  rw [h.stream_eq]
  exact h.registers.serial_eq

theorem streamIndex_eq
    (h : Accepted d d' page.header page.pieces.flatten l l' a completed new) :
    l'.streamIndex = l.streamIndex := by
  rw [h.stream_eq]

theorem lastSequence_eq
    (h : Accepted d d' page.header page.pieces.flatten l l' a completed new) :
    l'.lastSequence = some page.sequence := by
  rw [h.stream_eq]
  rfl

theorem held_eq (h : Accepted d d' page.header page.pieces.flatten l l' a completed new) :
    l'.held = a.stream.held := by
  rw [h.stream_eq]
  rfl

theorem persists (hd : d.Indexed)
    (h : Accepted d d' page.header page.pieces.flatten l l' a completed new) {other : LogicalStream}
    (hother : other ∈ d.logical) :
    ∃ other' ∈ d'.logical,
      other'.serial = other.serial ∧ other'.streamIndex = other.streamIndex := by
  by_cases hserial : other.serial = page.serial
  · refine ⟨l', (h.mem_iff l').mpr (.inl rfl), h.serial_eq.trans hserial.symm, ?_⟩
    rcases h.registers.known with hl | ⟨-, hnew⟩
    · rw [h.streamIndex_eq, hd.eq_of_serial hl hother (h.registers.serial_eq.trans hserial.symm)]
    · exact absurd hserial (hnew other hother)
  · exact ⟨other, (h.mem_iff other).mpr (.inr ⟨hother, hserial⟩), rfl, rfl⟩

theorem gaps (h : Accepted d d' page.header page.pieces.flatten l l' a completed new) :
    (d'.stats.sequenceGaps = d.stats.sequenceGaps ∨
        d'.stats.sequenceGaps = satAddU64 d.stats.sequenceGaps 1) ∧
      ∀ prev, l.lastSequence = some prev → page.sequence ≠ (prev + 1) % 2 ^ 32 →
        d'.stats.sequenceGaps = satAddU64 d.stats.sequenceGaps 1 := by
  have hcheck := (Assembly.mk l d.budget d.stats).checkSequenceGap_gaps page.sequence
  have hkeeps := (Assembly.reassemble_keeps h.reassembled).gaps_eq
  rw [h.stats_eq, hkeeps]
  exact hcheck

end OggDemuxer.Accepted

namespace Tracks

variable {d₀ d d' : OggDemuxer} {done : List (Page × Bool)} {emitted : List DemuxedPacket}
  {page : Page}

theorem nil (hindexed : d.Indexed) : Tracks d d [] [] where
  indexed := hindexed
  queue_eq := (List.append_nil _).symm
  owned := fun packet h => absurd h List.not_mem_nil
  seen := fun page h => absurd h List.not_mem_nil
  held := fun l _ u hu => by cases hu
  whole := fun l _ => List.nil_sublist _
  last := fun l _ page h => by cases h
  counted := .inl le_rfl
  reported := fun serial i j h => by
    rcases h.first with ⟨page, hpage⟩
    cases hpage

/-- The step in which a page is lost. -/
theorem lost (h : Tracks d₀ d done emitted) (page : Page) :
    Tracks d₀ d (done ++ [(page, false)]) emitted where
  indexed := h.indexed
  queue_eq := h.queue_eq
  owned := h.owned
  seen := by
    intro other hother
    rcases List.mem_append.mp hother with hother | hother
    · exact h.seen other hother
    · cases List.mem_singleton.mp hother
  held := by
    intro l hl u hu hkept
    rw [streamPages_append] at hu hkept
    by_cases hserial : page.serial = l.serial
    · rw [← hserial, streamPages_singleton] at hu hkept
      by_cases hne : page.pieces = []
      · have hsame : markedPackets (streamPages page.serial done ++ [(page, false)]) =
            markedPackets (streamPages page.serial done) := by
          rw [markedPackets, markedPieces, List.flatMap_append, List.flatMap_singleton, hne,
            List.map_nil, List.append_nil]
          rfl
        rw [hsame, hserial] at hu hkept
        exact h.held l hl u hu hkept
      · refine absurd hkept (not_allKept_of_lost _ hne ((isSome_openOf _).mp ?_))
        rw [hu]
        rfl
    · rw [streamPages_singleton_of_ne hserial, List.append_nil] at hu hkept
      exact h.held l hl u hu hkept
  whole := by
    intro l hl
    rw [streamPages_append]
    exact (h.whole l hl).trans (wholePackets_initial _ _).sublist
  last := by
    intro l hl other hother
    rw [streamPages_append, lastKept_append_lost] at hother
    · exact h.last l hl other hother
    · intro entry hentry
      rw [List.mem_singleton.mp (List.mem_of_mem_filter hentry)]
  counted := h.counted
  reported := by
    intro serial i j hlost
    rw [streamPages_append] at hlost
    by_cases hserial : page.serial = serial
    · subst hserial
      rw [streamPages_singleton] at hlost
      exact h.reported page.serial i j hlost.of_append_lost
    · rw [streamPages_singleton_of_ne hserial, List.append_nil] at hlost
      exact h.reported serial i j hlost

theorem forall_lost (h : Tracks d₀ d done emitted) {serial : Nat}
    (hnew : ∀ other ∈ d.logical, other.serial ≠ serial) :
    ∀ entry ∈ streamPages serial done, entry.2 = false := by
  rintro ⟨page, kept⟩ hentry
  rcases List.mem_filter.mp hentry with ⟨hmem, hserial⟩
  cases kept with
  | false => rfl
  | true =>
      rcases h.seen page hmem with ⟨l, hl, hsame⟩
      exact absurd (hsame.trans (beq_iff_eq.mp hserial)) (hnew l hl)

theorem held_registers (h : Tracks d₀ d done emitted) {header : OggPageHeader} {body : Bytes}
    {l : LogicalStream} (hl : d.Registers header body l) (u : Bytes)
    (hu : Lacing.openOf (markedPackets (streamPages header.serial done)).2 = some u)
    (hkept : AllKept (markedPackets (streamPages header.serial done)).2)
    (hlen : u.length ≤ maxPacketBytes) : l.held = some u := by
  rcases hl.known with hknown | ⟨-, hnew⟩
  · rw [← hl.serial_eq] at hu hkept
    exact h.held l hknown u hu hkept hlen
  · refine absurd hkept (not_allKept_of_forall_lost (h.forall_lost hnew) ?_)
    apply (isSome_openOf _).mp
    rw [hu]
    rfl

theorem whole_registers (h : Tracks d₀ d done emitted) {l l' : LogicalStream} {a : Assembly}
    {completed : List Bytes} {new : List DemuxedPacket}
    (hacc : d.Accepted d' page.header page.pieces.flatten l l' a completed new) :
    (packetsOf l.streamIndex emitted).Sublist (wholePackets (streamPages page.serial done)) := by
  rcases hacc.registers.known with hknown | ⟨-, hnew⟩
  · have hserial : l.serial = page.serial := hacc.registers.serial_eq
    rw [← hserial]
    exact h.whole l hknown
  · rw [packetsOf_eq_nil]
    · exact List.nil_sublist _
    · intro packet hpacket heq
      rcases h.owned packet hpacket with ⟨other, hother, hindex⟩
      rcases hacc.persists h.indexed hother with ⟨other', hother', hserial, hplace⟩
      have hsame : other' = l' := by
        refine hacc.indexed.eq_of_index hother' ((hacc.mem_iff l').mpr (.inl rfl)) ?_
        rw [hplace, hindex, heq, hacc.streamIndex_eq]
      apply hnew other hother
      rw [← hserial, hsame]
      exact hacc.serial_eq

/-- The loss in front of a page is counted with that page. -/
theorem counts_page (h : Tracks d₀ d done emitted) {l l' : LogicalStream} {a : Assembly}
    {completed : List Bytes} {new : List DemuxedPacket}
    (hacc : d.Accepted d' page.header page.pieces.flatten l l' a completed new)
    (hnumbered : ∃ first, ∀ (k : Nat) (entry : Page × Bool),
      (streamPages page.serial done ++ [(page, true)])[k]? = some entry →
        entry.1.sequence = (first + k) % 2 ^ 32)
    {i : Nat} (hlost : LostBetween (streamPages page.serial done ++ [(page, true)]) i
      (streamPages page.serial done).length) :
    d'.stats.sequenceGaps = satAddU64 d.stats.sequenceGaps 1 := by
  rcases hlost.lastKept_eq with ⟨previous, hprevious, hlastKept⟩
  rcases hnumbered with ⟨first, hnumbered⟩
  have hmem := List.mem_filter.mp (List.mem_of_getElem? hprevious)
  have hknown : l ∈ d.logical := by
    rcases hacc.registers.known with hknown | ⟨-, hnew⟩
    · exact hknown
    · rcases h.seen previous hmem.1 with ⟨other, hother, hserial⟩
      exact absurd (hserial.trans (beq_iff_eq.mp hmem.2)) (hnew other hother)
  have hserial : l.serial = page.serial := hacc.registers.serial_eq
  have hlast := h.last l hknown previous (by rw [hserial]; exact hlastKept)
  refine hacc.gaps.2 _ hlast ?_
  have hi := (List.getElem?_eq_some_iff.mp hprevious).1
  have hfirst := hnumbered i (previous, true) (by rw [List.getElem?_append_left hi, hprevious])
  have hsecond := hnumbered _ (page, true) List.getElem?_concat_length
  have hapart := hlost.apart
  have hnear := hlost.near
  dsimp only at hfirst hsecond
  rw [hfirst, hsecond]
  omega

/-- The step in which a page is read. -/
theorem kept (h : Tracks d₀ d done emitted) (hfit : PagePieces page.pieces)
    (hcontinued : page.flags.continued =
      (Lacing.openOf (markedPackets (streamPages page.serial done)).2).isSome)
    (hhead : page.pieces ≠ [] → AllKept (markedPackets (streamPages page.serial done)).2)
    (hwhole : ∀ packet ∈ wholePackets (streamPages page.serial done ++ [(page, true)]),
      packet.length ≤ maxPacketBytes)
    (hnumbered : ∃ first, ∀ (k : Nat) (entry : Page × Bool),
      (streamPages page.serial done ++ [(page, true)])[k]? = some entry →
        entry.1.sequence = (first + k) % 2 ^ 32)
    (haccept : d.acceptPage page.header page.pieces.flatten = .ok d') :
    ∃ new, Tracks d₀ d' (done ++ [(page, true)]) (emitted ++ new) := by
  rcases OggDemuxer.acceptPage_spec h.indexed haccept with ⟨l, l', a, completed, new, hacc⟩
  have htidy : l.Tidy :=
    hacc.registers.indexed.tidy l (List.mem_of_getElem? hacc.registers.getElem?_eq)
  rcases @Assembly.reassemble_marked
    ((Assembly.mk l d.budget d.stats).checkSequenceGap page.sequence) a page _ completed hfit htidy
    hcontinued hhead (h.held_registers hacc.registers) hwhole hacc.reassembled with
    ⟨hpackets, hheld⟩
  have hmem : l' ∈ d'.logical := (hacc.mem_iff l').mpr (.inl rfl)
  have hsame : streamPages page.serial (done ++ [(page, true)]) =
      streamPages page.serial done ++ [(page, true)] := by
    rw [streamPages_append, streamPages_singleton]
  have hother {serial : Nat} (hne : page.serial ≠ serial) :
      streamPages serial (done ++ [(page, true)]) = streamPages serial done := by
    rw [streamPages_append, streamPages_singleton_of_ne hne, List.append_nil]
  have hgaps := hacc.gaps.1
  have hcounted := h.counted
  refine ⟨new, hacc.indexed, ?_, fun packet hpacket => ?_, fun other hkept => ?_,
    fun other hmem' => ?_, fun other hmem' => ?_, fun other hmem' => ?_, ?_,
    fun serial i j hlost => ?_⟩
  · rw [hacc.queue_eq, h.queue_eq, List.append_assoc]
  · rcases List.mem_append.mp hpacket with hpacket | hpacket
    · rcases h.owned packet hpacket with ⟨other, hother, hindex⟩
      rcases hacc.persists h.indexed hother with ⟨other', hother', -, hplace⟩
      exact ⟨other', hother', hplace.trans hindex⟩
    · exact ⟨l', hmem, hacc.streamIndex_eq.trans (hacc.emitted_index packet hpacket).symm⟩
  · rcases List.mem_append.mp hkept with hkept | hkept
    · rcases h.seen other hkept with ⟨known, hknown, hserial⟩
      rcases hacc.persists h.indexed hknown with ⟨known', hknown', hserial', -⟩
      exact ⟨known', hknown', hserial'.trans hserial⟩
    · cases List.mem_singleton.mp hkept
      exact ⟨l', hmem, hacc.serial_eq⟩
  · rcases (hacc.mem_iff other).mp hmem' with rfl | ⟨hold, hne⟩
    · rw [hacc.serial_eq, hsame, hacc.held_eq]
      exact hheld
    · rw [hother (Ne.symm hne)]
      exact h.held other hold
  · rw [packetsOf_append]
    rcases (hacc.mem_iff other).mp hmem' with rfl | ⟨hold, hne⟩
    · rw [hacc.serial_eq, hsame, hpackets, hacc.streamIndex_eq,
        packetsOf_eq_map hacc.emitted_index]
      exact (h.whole_registers hacc).append hacc.emitted_sublist
    · have hnone : packetsOf other.streamIndex new = [] := by
        apply packetsOf_eq_nil
        intro packet hpacket heq
        rw [hacc.emitted_index packet hpacket, ← hacc.streamIndex_eq] at heq
        rw [← hacc.indexed.eq_of_index hmem hmem' heq] at hne
        exact hne hacc.serial_eq
      rw [hother (Ne.symm hne), hnone, List.append_nil]
      exact h.whole other hold
  · rcases (hacc.mem_iff other).mp hmem' with rfl | ⟨hold, hne⟩
    · rw [hacc.serial_eq, hsame, lastKept_append_kept]
      rintro last hlast
      cases hlast
      exact hacc.lastSequence_eq
    · rw [hother (Ne.symm hne)]
      exact h.last other hold
  · rw [satAddU64] at hgaps
    omega
  · have hstill (hbefore : LostBetween (streamPages serial done) i j) : CountsGap d₀ d' := by
      have hcounts := h.reported serial i j hbefore
      rw [CountsGap] at hcounts ⊢
      rw [satAddU64] at hgaps
      omega
    by_cases hserial : page.serial = serial
    · subst hserial
      rw [hsame] at hlost
      rcases lt_or_eq_of_le hlost.le_length with hlt | rfl
      · exact hstill (hlost.of_append hlt)
      · have hcounts := h.counts_page hacc hnumbered hlost
        rw [satAddU64] at hcounts
        rw [CountsGap]
        omega
    · rw [hother hserial] at hlost
      exact hstill hlost

/-- The step in which the next page of a file is read. -/
theorem next {rest : List (Page × Bool)} (h : Tracks d₀ d done emitted)
    (hvalid : ValidPages (done ++ (page, true) :: rest))
    (hheads : KeepsHeads (done ++ (page, true) :: rest))
    (hwithin : WithinLimit (done ++ (page, true) :: rest))
    (haccept : d.acceptPage page.header page.pieces.flatten = .ok d') :
    ∃ new, Tracks d₀ d' (done ++ [(page, true)]) (emitted ++ new) := by
  have hpages : streamPages page.serial (done ++ (page, true) :: rest) =
      streamPages page.serial done ++ [(page, true)] ++ streamPages page.serial rest := by
    rw [← List.singleton_append, ← List.append_assoc, streamPages_append, streamPages_append,
      streamPages_singleton]
  have hpage : (streamPages page.serial (done ++ (page, true) :: rest))[
      (streamPages page.serial done).length]? = some (page, true) := by
    rw [hpages, List.append_assoc, List.singleton_append, List.getElem?_append_right le_rfl,
      Nat.sub_self]
    rfl
  have htake : (streamPages page.serial (done ++ (page, true) :: rest)).take
      (streamPages page.serial done).length = streamPages page.serial done := by
    rw [hpages, List.append_assoc, List.take_left]
  have hcontinued : page.flags.continued =
      (Lacing.openOf (markedPackets (streamPages page.serial done)).2).isSome := by
    have hpage' := congrArg (Option.map Prod.fst) hpage
    rw [← List.getElem?_map] at hpage'
    rw [hvalid.continues page.serial _ page hpage', ← List.map_take, htake, gathered_pages]
  refine h.kept (hvalid.fits (page, true) (List.mem_append_right _ List.mem_cons_self)).pieces
    hcontinued (fun hne => ?_) (fun packet hpacket => ?_) ?_ haccept
  · cases hflag : page.flags.continued with
    | true =>
        have hhead := hheads page.serial _ page hpage hflag hne
        rwa [htake] at hhead
    | false =>
        rw [hflag] at hcontinued
        have hnone : (markedPackets (streamPages page.serial done)).2 = [] := by
          by_contra hopen
          rw [(isSome_openOf _).mpr hopen] at hcontinued
          cases hcontinued
        rw [hnone]
        exact fun piece hpiece => absurd hpiece List.not_mem_nil
  · apply hwithin page.serial packet
    rw [hpages]
    exact (wholePackets_initial _ _).subset hpacket
  · rcases hvalid.numbered page.serial with ⟨first, hnumbered⟩
    refine ⟨first, fun k entry hentry => hnumbered k entry ?_⟩
    rw [hpages, List.getElem?_append_left (List.getElem?_eq_some_iff.mp hentry).1]
    exact hentry

/-- Some pages more have been read, up to the first error. -/
theorem run {rest : List (Page × Bool)} {result : Except Error Unit}
    (h : Tracks d₀ d done emitted) (hvalid : ValidPages (done ++ rest))
    (hheads : KeepsHeads (done ++ rest)) (hwithin : WithinLimit (done ++ rest))
    (hread : d.acceptPages (keptPages rest) = (d', result)) :
    ∃ done' emitted', done' <+: done ++ rest ∧ Tracks d₀ d' done' emitted' ∧
      (result = .ok () → done' = done ++ rest) := by
  induction rest generalizing d done emitted with
  | nil =>
      cases hread
      exact ⟨done, emitted, List.prefix_append _ _, h, fun _ => (List.append_nil _).symm⟩
  | cons entry rest ih =>
      rcases entry with ⟨page, kept⟩
      have hassoc : done ++ (page, kept) :: rest = done ++ [(page, kept)] ++ rest := by
        rw [List.append_assoc, List.singleton_append]
      cases kept with
      | false =>
          have hskip : keptPages ((page, false) :: rest) = keptPages rest := rfl
          rw [hskip] at hread
          rw [hassoc] at hvalid hheads hwithin ⊢
          exact ih (h.lost page) hvalid hheads hwithin hread
      | true =>
          have hcons : keptPages ((page, true) :: rest) = page.content :: keptPages rest := rfl
          rw [hcons, Page.content, OggDemuxer.acceptPages] at hread
          split at hread
          · cases hread
            exact ⟨done, emitted, List.prefix_append _ _, h, fun hok => by cases hok⟩
          · rename_i d₁ haccept
            rcases h.next hvalid hheads hwithin haccept with ⟨new, hnext⟩
            rw [hassoc] at hvalid hheads hwithin ⊢
            exact ih hnext hvalid hheads hwithin hread

end Tracks

/-! ## Whole packets only -/

/-- Some packet of a stream has lost a piece. -/
def LosesPacket (pages : List (Page × Bool)) : Prop :=
  (∃ pieces ∈ (markedPackets pages).1, ¬AllKept pieces) ∨ ¬AllKept (markedPackets pages).2

theorem LosesPacket.exists_lost {pages : List (Page × Bool)} (h : LosesPacket pages) :
    ∃ (k : Nat) (page : Page), pages[k]? = some (page, false) ∧ page.pieces ≠ [] := by
  by_contra hnone
  have hmarks : ∀ piece ∈ markedPieces pages, piece.2 = true := by
    intro piece hpiece
    rcases List.mem_flatMap.mp hpiece with ⟨⟨page, kept⟩, hentry, hpiece⟩
    rcases List.mem_map.mp hpiece with ⟨bytes, hbytes, rfl⟩
    cases kept with
    | true => rfl
    | false =>
        rcases List.mem_iff_getElem?.mp hentry with ⟨k, hk⟩
        exact absurd ⟨k, page, hk, List.ne_nil_of_mem hbytes⟩ hnone
  rcases @Lacing.group_forall _ continuationValue _ (· = true) [] _
    (fun piece h => absurd h List.not_mem_nil) hmarks with ⟨hunits, hleft⟩
  rcases h with ⟨pieces, hpieces, hlost⟩ | hlost
  · exact hlost (hunits pieces hpieces)
  · exact hlost hleft

/-- Every lost page with a piece is between two kept pages near enough for their numbers to tell. -/
def LossesShow (marked : List (Page × Bool)) : Prop :=
  ∀ (serial k : Nat) (page : Page), (streamPages serial marked)[k]? = some (page, false) →
    page.pieces ≠ [] → ∃ i j, i < k ∧ k < j ∧ LostBetween (streamPages serial marked) i j

/-- What a demuxer has queued since are whole packets of the streams, each in its order. -/
def GivesWhole (d d' : OggDemuxer) (marked : List (Page × Bool)) : Prop :=
  ∃ emitted, d'.queue = d.queue ++ emitted ∧
    (∀ packet ∈ emitted, ∃ l ∈ d'.logical, l.streamIndex = packet.streamIndex) ∧
    ∀ l ∈ d'.logical,
      (packetsOf l.streamIndex emitted).Sublist (wholePackets (streamPages l.serial marked))

def Reports (d d' : OggDemuxer) (marked : List (Page × Bool)) : Prop :=
  ∀ serial, LosesPacket (streamPages serial marked) → CountsGap d d'

/-- Only whole packets are given out, in order, and the losses are reported, if no kept page goes on
with a packet that has lost a piece. -/
theorem OggDemuxer.Reached.givesWhole {d d' : OggDemuxer} {marked : List (Page × Bool)}
    {result : Except Error Unit} (hd : d.Reached) (hvalid : ValidPages marked)
    (hheads : KeepsHeads marked) (hwithin : WithinLimit marked)
    (hread : d.acceptPages (keptPages marked) = (d', result)) :
    GivesWhole d d' marked ∧ (result = .ok () → LossesShow marked → Reports d d' marked) := by
  rcases (Tracks.nil hd.indexed).run hvalid hheads hwithin hread with
    ⟨done, emitted, ⟨rest, hprefix⟩, htracks, hall⟩
  rw [List.nil_append] at hprefix hall
  refine ⟨⟨emitted, htracks.queue_eq, htracks.owned, fun l hl => ?_⟩,
    fun hok hshow serial hloses => ?_⟩
  · rw [← hprefix, streamPages_append]
    exact (htracks.whole l hl).trans (wholePackets_initial _ _).sublist
  · rcases hloses.exists_lost with ⟨k, page, hpage, hne⟩
    rcases hshow serial k page hpage hne with ⟨i, j, -, -, hlost⟩
    rw [← hall hok] at hlost
    exact htracks.reported serial i j hlost

theorem streamPages_single {serial : Nat} {marked : List (Page × Bool)}
    (hserial : ∀ entry ∈ marked, entry.1.serial = serial) (other : Nat) :
    streamPages other marked = marked ∨ streamPages other marked = [] := by
  by_cases hother : other = serial
  · left
    exact List.filter_eq_self.mpr fun entry hentry => by
      rw [hserial entry hentry, hother]
      exact beq_self_eq_true serial
  · right
    exact List.filter_eq_nil_iff.mpr fun entry hentry => by
      rw [hserial entry hentry, beq_iff_eq]
      exact Ne.symm hother

theorem ValidPages.of_single {serial : Nat} {marked : List (Page × Bool)}
    (hserial : ∀ entry ∈ marked, entry.1.serial = serial)
    (hfits : ∀ entry ∈ marked, entry.1.Fits) (hcontinues : Continues (marked.map Prod.fst))
    (hnumbered : ∀ (k : Nat) (entry : Page × Bool), marked[k]? = some entry →
      entry.1.sequence = k % 2 ^ 32) : ValidPages marked := by
  refine ⟨hfits, fun other => ?_, fun other => ⟨0, fun k entry hentry => ?_⟩⟩
  · rcases streamPages_single hserial other with hsame | hnone
    · rw [hsame]
      exact hcontinues
    · rw [hnone]
      intro k page hpage
      cases hpage
  · rw [Nat.zero_add]
    rcases streamPages_single hserial other with hsame | hnone
    · rw [hsame] at hentry
      exact hnumbered k entry hentry
    · rw [hnone] at hentry
      cases hentry

/-- A demuxer that may allocate a few thousand bytes. -/
def smallDemuxer : OggDemuxer :=
  .new (Budget.new ⟨4096, 4096, by decide⟩)

/-- A page of a first stream. -/
def smallPage (continued : Bool) (sequence : Nat) (piece : Bytes) : Page where
  flags := ⟨continued, sequence = 0, false⟩
  granule := granuleUnset
  serial := 0
  sequence := sequence
  pieces := [piece]

/-- A packet goes on over two pages, and the page behind it is lost. -/
def fivePages : List (Page × Bool) :=
  [(smallPage false 0 [1#8], true), (smallPage false 1 (List.replicate 255 0#8), true),
    (smallPage true 2 [9#8], true), (smallPage false 3 [2#8], false),
    (smallPage false 4 [3#8], true)]

theorem fivePages_valid : ValidPages fivePages := by
  refine @ValidPages.of_single 0 _ (by decide) ?_ ?_ ?_
  · intro entry hentry
    fin_cases hentry <;> exact ⟨⟨by decide, by decide +kernel⟩, by decide, by decide⟩
  · intro k page hpage
    match k, hpage with
    | 0, hpage => cases hpage; rfl
    | 1, hpage => cases hpage; rfl
    | 2, hpage => cases hpage; decide +kernel
    | 3, hpage => cases hpage; decide +kernel
    | 4, hpage => cases hpage; decide +kernel
  · intro k entry hentry
    match k, hentry with
    | 0, hentry => cases hentry; rfl
    | 1, hentry => cases hentry; rfl
    | 2, hentry => cases hentry; rfl
    | 3, hentry => cases hentry; rfl
    | 4, hentry => cases hentry; rfl

/-- Of four packets, one lost, the others come out, also the one on two pages, and the loss is
counted. -/
theorem OggDemuxer.Reached.givesWhole_fivePages :
    GivesWhole smallDemuxer (smallDemuxer.acceptPages (keptPages fivePages)).1 fivePages ∧
      Reports smallDemuxer (smallDemuxer.acceptPages (keptPages fivePages)).1 fivePages := by
  have hheads : KeepsHeads fivePages := by
    intro serial k page hpage hcontinued _
    rcases @streamPages_single 0 fivePages (by decide) serial with hsame | hnone
    · rw [hsame] at hpage ⊢
      match k, hpage with
      | 0, hpage => cases hpage; cases hcontinued
      | 1, hpage => cases hpage; cases hcontinued
      | 2, hpage => decide +kernel
      | 3, hpage => cases hpage
      | 4, hpage => cases hpage; cases hcontinued
    · rw [hnone] at hpage
      cases hpage
  have hwithin : WithinLimit fivePages := by
    intro serial
    rcases @streamPages_single 0 fivePages (by decide) serial with hsame | hnone
    · rw [hsame]
      decide +kernel
    · rw [hnone]
      exact fun packet hpacket => absurd hpacket List.not_mem_nil
  have hshow : LossesShow fivePages := by
    intro serial k page hpage _
    rcases @streamPages_single 0 fivePages (by decide) serial with hsame | hnone
    · rw [hsame] at hpage ⊢
      match k, hpage with
      | 3, _ =>
          refine ⟨2, 4, by decide, by decide, by decide, by decide, ⟨_, rfl⟩, ⟨_, rfl⟩,
            fun k hlow hhigh => ?_⟩
          have hk : k = 3 := by omega
          subst hk
          exact ⟨_, rfl⟩
      | 4, hpage => cases hpage
    · rw [hnone] at hpage
      cases hpage
  have hread : smallDemuxer.acceptPages (keptPages fivePages) =
      ((smallDemuxer.acceptPages (keptPages fivePages)).1, .ok ()) := by decide +kernel
  have hboth := OggDemuxer.Reached.givesWhole (.new _) fivePages_valid hheads hwithin hread
  exact ⟨hboth.1, hboth.2 rfl hshow⟩

/-- The beginning of a packet is lost with its page, and the rest of it comes on the next one. -/
def brokenPages : List (Page × Bool) :=
  [(smallPage false 0 [1#8], true), (smallPage false 1 (List.replicate 255 0#8), false),
    (smallPage true 2 [9#8], true)]

theorem brokenPages_valid : ValidPages brokenPages := by
  refine @ValidPages.of_single 0 _ (by decide) ?_ ?_ ?_
  · intro entry hentry
    fin_cases hentry <;> exact ⟨⟨by decide, by decide +kernel⟩, by decide, by decide⟩
  · intro k page hpage
    match k, hpage with
    | 0, hpage => cases hpage; rfl
    | 1, hpage => cases hpage; rfl
    | 2, hpage => cases hpage; decide +kernel
  · intro k entry hentry
    match k, hentry with
    | 0, hentry => cases hentry; rfl
    | 1, hentry => cases hentry; rfl
    | 2, hentry => cases hentry; rfl

/-- The rest of a packet that has lost its beginning is given out as a packet. -/
theorem not_givesWhole :
    ¬ ∀ (d d' : OggDemuxer) (marked : List (Page × Bool)) (result : Except Error Unit),
      d.Reached → ValidPages marked →
        (∀ serial entry, (streamPages serial marked).head? = some entry → entry.2 = true) →
          d.acceptPages (keptPages marked) = (d', result) →
            GivesWhole d d' marked ∧ (result = .ok () → Reports d d' marked) := by
  intro hall
  have hfirst (serial : Nat) (entry : Page × Bool)
      (hentry : (streamPages serial brokenPages).head? = some entry) : entry.2 = true := by
    rcases @streamPages_single 0 brokenPages (by decide) serial with hsame | hnone
    · rw [hsame] at hentry
      cases hentry
      rfl
    · rw [hnone] at hentry
      cases hentry
  have hread : smallDemuxer.acceptPages (keptPages brokenPages) =
      ((smallDemuxer.acceptPages (keptPages brokenPages)).1, .ok ()) := rfl
  rcases (hall smallDemuxer _ brokenPages _ (.new _) brokenPages_valid hfirst hread).1 with
    ⟨emitted, hqueue, -, hwhole⟩
  have hgiven : (smallDemuxer.acceptPages (keptPages brokenPages)).1.queue = [⟨0, [9#8]⟩] := by
    decide +kernel
  have hstream : (smallDemuxer.acceptPages (keptPages brokenPages)).1.logical.map
      (fun l => (l.serial, l.streamIndex)) = [(0, 0)] := by
    decide +kernel
  have hpackets : wholePackets (streamPages 0 brokenPages) = [[1#8]] := by
    decide +kernel
  rw [hgiven, smallDemuxer, OggDemuxer.new, List.nil_append] at hqueue
  rcases List.map_eq_singleton_iff.mp hstream with ⟨l, hlogical, hl⟩
  have hserial : l.serial = 0 := congrArg Prod.fst hl
  have hindex : l.streamIndex = 0 := congrArg Prod.snd hl
  have hsub := hwhole l (by rw [hlogical]; exact List.mem_singleton_self l)
  rw [hserial, hindex, hpackets, ← hqueue] at hsub
  exact absurd hsub (by decide)

end Ogg
end Vaco
