import Vaco.Ogg.Demuxer

/-!
# What the reassembly of one page gives

Behind an open packet, or behind none, the runs of a page are the packets that its pieces end and
the one they leave open.  Where the stream's pending buffer holds what is open, and the page says
by its flag whether something is, the reassembly completes exactly these packets.

Main results:

- `Assembly.reassemble_keeps`: whatever a page holds, only what is pending changes.
- `Assembly.reassemble_spec`: a page completes the packets that end on it.
- `OggDemuxer.acceptPage_spec`: an accepted page changes its own stream only.
- `OggDemuxer.Reached.indexed`: every stream is found by its serial number, and knows its place.
-/

namespace Vaco
namespace Ogg

open Library BitStream
open Vaco.Core (Byte Error)
open Sched (Budget LimitError)

/-! ## Written pages -/

/-- A page that was written, with the pieces of packets that it holds. -/
structure Page where
  flags : OggHeaderFlags
  granule : I64
  serial : Nat
  sequence : Nat
  pieces : List Bytes
deriving DecidableEq

/-- The header that a page is read with. -/
def Page.header (page : Page) : OggPageHeader where
  version := supportedVersion
  flags := page.flags
  granulePosition := page.granule
  serial := page.serial
  sequence := page.sequence
  checksum := (crc32 (unsummedPage page.flags page.granule page.serial page.sequence
    (page.pieces.map lacingValue) page.pieces.flatten)).toNat
  segments := page.pieces.map lacingValue

/-- A page whose fields fit. -/
structure Page.Fits (page : Page) : Prop where
  pieces : PagePieces page.pieces
  serial_lt : page.serial < 2 ^ 32
  sequence_lt : page.sequence < 2 ^ 32

/-- The packets that some pieces end and the one that they leave open. -/
def gathered (pieces : List Bytes) : List Bytes × Option Bytes :=
  Lacing.gather continuationValue none pieces

/-- Each page is marked as continued exactly when a packet is open behind the pages before it. -/
def Continues (pages : List Page) : Prop :=
  ∀ (k : Nat) (page : Page), pages[k]? = some page →
    page.flags.continued = (gathered ((pages.take k).flatMap Page.pieces)).2.isSome

/-- A page as its reader hands it on. -/
def Page.content (page : Page) : OggPageHeader × Bytes :=
  (page.header, page.pieces.flatten)

/-! ## Pending bytes -/

def LogicalStream.holding (l : LogicalStream) (part : Option Bytes) : LogicalStream :=
  { l with
    pending := part.getD []
    pendingOpen := part.isSome }

def LogicalStream.held (l : LogicalStream) : Option Bytes :=
  if l.pendingOpen then some l.pending else none

/-- Nothing is left in the buffer of a stream that has no packet open. -/
def LogicalStream.Tidy (l : LogicalStream) : Prop :=
  l.pendingOpen = false → l.pending = []

namespace LogicalStream

@[simp]
theorem held_holding (l : LogicalStream) (part : Option Bytes) : (l.holding part).held = part := by
  cases part with
  | none => rfl
  | some u => rfl

theorem Tidy.holding_held {l : LogicalStream} (h : l.Tidy) : l.holding l.held = l := by
  rcases l with ⟨serial, streamIndex, codec, headerTotal, headerSeen, pending, pendingOpen,
    lastSequence, eos⟩
  cases pendingOpen with
  | true => rfl
  | false =>
      have hpending : pending = [] := h rfl
      rw [hpending]
      rfl

theorem isSome_held (l : LogicalStream) : l.held.isSome = l.pendingOpen := by
  rw [held]
  cases l.pendingOpen with
  | true => rfl
  | false => rfl

end LogicalStream

namespace Assembly

variable {a a' : Assembly}

/-! ## What a page leaves alone -/

/-- Of the stream only what is pending may have changed, and no gap has been counted. -/
structure Keeps (a a' : Assembly) : Prop where
  stream_eq : a'.stream =
    { a.stream with
      pending := a'.stream.pending
      pendingOpen := a'.stream.pendingOpen }
  gaps_eq : a'.stats.sequenceGaps = a.stats.sequenceGaps

theorem Keeps.refl (a : Assembly) : a.Keeps a where
  stream_eq := rfl
  gaps_eq := rfl

theorem Keeps.trans {a'' : Assembly} (h : a.Keeps a') (h' : a'.Keeps a'') : a.Keeps a'' where
  stream_eq := by
    rw [h'.stream_eq, h.stream_eq]
  gaps_eq := h'.gaps_eq.trans h.gaps_eq

theorem noteDangling_keeps (a : Assembly) : a.Keeps a.noteDangling where
  stream_eq := rfl
  gaps_eq := rfl

theorem discardPending_keeps (a : Assembly) : a.Keeps a.discardPending where
  stream_eq := rfl
  gaps_eq := rfl

theorem openPending_keeps (a : Assembly) : a.Keeps a.openPending where
  stream_eq := rfl
  gaps_eq := rfl

theorem takePending_keeps (a : Assembly) : a.Keeps a.takePending where
  stream_eq := rfl
  gaps_eq := rfl

theorem appendPending_keeps {chunk : Bytes} (h : a.appendPending chunk = .ok a') :
    a.Keeps a' := by
  unfold appendPending at h
  split at h
  · cases h
  · split at h
    · cases h
      exact ⟨rfl, rfl⟩
    · cases h
      exact ⟨rfl, rfl⟩

theorem takeRuns_keeps {runs : List (Bytes × Bool)} {done completed : List Bytes}
    (h : a.takeRuns runs done = .ok (a', completed)) : a.Keeps a' := by
  induction a, runs, done using takeRuns.induct with
  | case1 a done =>
      cases h
      exact .refl _
  | case2 a chunk rest done ih => exact ih h
  | case3 a chunk rest done e happend =>
      rw [takeRuns, happend] at h
      cases h
  | case4 a chunk rest done a₁ happend ih =>
      rw [takeRuns, happend] at h
      exact (appendPending_keeps happend).trans ((openPending_keeps a₁).trans (ih h))

/-- Whatever a page holds, only what is pending changes. -/
theorem reassemble_keeps {continuing : Bool} {runs : List (Bytes × Bool)}
    {completed : List Bytes} (h : a.reassemble continuing runs = .ok (a', completed)) :
    a.Keeps a' := by
  rcases runs with _ | ⟨⟨chunk, complete⟩, rest⟩
  · cases h
    exact .refl a
  · rw [reassemble] at h
    split at h
    · split at h
      · cases h
      · rename_i a₁ happend
        have hfirst := appendPending_keeps happend
        split at h
        · exact hfirst.trans ((takePending_keeps a₁).trans (takeRuns_keeps h))
        · exact hfirst.trans (takeRuns_keeps h)
    · split at h
      · exact (noteDangling_keeps a).trans
          ((discardPending_keeps a.noteDangling).trans (takeRuns_keeps h))
      · exact takeRuns_keeps h

theorem takeRuns_tidy {runs : List (Bytes × Bool)} {done completed : List Bytes}
    (htidy : a.stream.Tidy) (h : a.takeRuns runs done = .ok (a', completed)) :
    a'.stream.Tidy := by
  induction a, runs, done using takeRuns.induct with
  | case1 a done =>
      cases h
      exact htidy
  | case2 a chunk rest done ih => exact ih htidy h
  | case3 a chunk rest done e happend =>
      rw [takeRuns, happend] at h
      cases h
  | case4 a chunk rest done a₁ happend ih =>
      rw [takeRuns, happend] at h
      exact ih (fun hopen => Bool.noConfusion hopen) h

theorem appendPending_tidy {chunk : Bytes} (hopen : a.stream.pendingOpen = true)
    (h : a.appendPending chunk = .ok a') : a'.stream.Tidy := by
  unfold appendPending at h
  split at h
  · cases h
  · split at h
    · cases h
      exact fun _ => rfl
    · cases h
      intro hclosed
      rw [hopen] at hclosed
      cases hclosed

theorem reassemble_tidy {continuing : Bool} {runs : List (Bytes × Bool)}
    {completed : List Bytes} (htidy : a.stream.Tidy)
    (h : a.reassemble continuing runs = .ok (a', completed)) : a'.stream.Tidy := by
  rcases runs with _ | ⟨⟨chunk, complete⟩, rest⟩
  · cases h
    exact htidy
  · rw [reassemble] at h
    split at h
    · rename_i hboth
      split at h
      · cases h
      · rename_i a₁ happend
        split at h
        · exact takeRuns_tidy (fun _ => rfl) h
        · exact takeRuns_tidy (appendPending_tidy (Bool.and_eq_true_iff.mp hboth).2 happend) h
    · split at h
      · exact takeRuns_tidy (fun _ => rfl) h
      · exact takeRuns_tidy htidy h

/-! ## What a page completes -/

theorem appendPending_eq_ok {chunk : Bytes} (h : a.appendPending chunk = .ok a')
    (hsize : a.stream.pending.length + chunk.length ≤ maxPacketBytes) :
    a'.stream = { a.stream with pending := a.stream.pending ++ chunk } ∧ a'.stats = a.stats := by
  unfold appendPending at h
  split at h
  · cases h
  · rw [if_neg (not_lt.mpr hsize)] at h
    cases h
    exact ⟨rfl, rfl⟩

/-- Packets and one part of a packet behind an empty buffer. -/
theorem takeRuns_eq_ok {units : List Bytes} {part : Option Bytes} {done completed : List Bytes}
    {l : LogicalStream}
    (h : a.takeRuns (units.map (·, true) ++ part.toList.map (·, false)) done = .ok (a', completed))
    (hidle : a.stream = l.holding none) (hsize : ∀ u, part = some u → u.length ≤ maxPacketBytes) :
    completed = done ++ units ∧ a'.stats = a.stats ∧ a'.stream = l.holding part := by
  induction units generalizing done with
  | nil =>
      cases part with
      | none =>
          cases h
          exact ⟨(List.append_nil _).symm, rfl, hidle⟩
      | some u =>
          have hsum : a.stream.pending.length + u.length ≤ maxPacketBytes := by
            rw [hidle]
            exact (Nat.le_of_eq (Nat.zero_add _)).trans (hsize u rfl)
          rw [List.map_nil, List.nil_append, Option.toList_some, List.map_singleton, takeRuns] at h
          split at h
          · cases h
          · rename_i a₁ happend
            rcases appendPending_eq_ok happend hsum with ⟨hstream, hstats⟩
            cases h
            refine ⟨(List.append_nil _).symm, hstats, ?_⟩
            change { a₁.stream with pendingOpen := true } = l.holding (some u)
            rw [hstream, hidle]
            rfl
  | cons unit units ih =>
      rw [List.map_cons, List.cons_append, takeRuns] at h
      rcases ih h with ⟨hcompleted, hstats, hstream⟩
      refine ⟨?_, hstats, hstream⟩
      rw [hcompleted, List.append_assoc]
      rfl

theorem gather_part_isSome {pieces : List Bytes} (hne : pieces ≠ [])
    (hnone : (Lacing.gather continuationValue none pieces).1 = []) :
    ∃ u, (Lacing.gather continuationValue none pieces).2 = some u := by
  have hlen := @Lacing.length_gather _ continuationValue none pieces
  rw [hnone, List.length_nil, eq_comm, List.countP_eq_zero] at hlen
  have hlast := hlen _ (List.getLast_mem hne)
  rw [decide_eq_true_eq, not_lt] at hlast
  exact Option.isSome_iff_exists.mp ((Lacing.isSome_gather none hne).mpr hlast)

/-- What reassembling a page behind an open packet, or behind none, leaves. -/
structure Reassembled (a a' : Assembly) (opened : Option Bytes) (pieces completed : List Bytes) :
    Prop where
  completed_eq : completed = (Lacing.gather continuationValue opened pieces).1
  stream_eq : a'.stream =
    if pieces = [] then a.stream
    else a.stream.holding (Lacing.gather continuationValue opened pieces).2
  stats_eq : a.stream.pendingOpen = opened.isSome → a'.stats = a.stats

/-- A page that goes on with the pending packet completes it, or leaves more of it pending. -/
theorem reassemble_continued {pieces completed : List Bytes} {u : Bytes} (hfit : PagePieces pieces)
    (hheld : a.stream.held = some u)
    (hended : ∀ v ∈ (Lacing.gather continuationValue (some u) pieces).1, v.length ≤ maxPacketBytes)
    (hleft : ∀ v, (Lacing.gather continuationValue (some u) pieces).2 = some v →
      v.length ≤ maxPacketBytes)
    (h : a.reassemble true ((packetSpans (pieces.map lacingValue)).map
      fun span => (span.chunk pieces.flatten, span.complete)) = .ok (a', completed)) :
    Reassembled a a' (some u) pieces completed := by
  have hopen : a.stream.pendingOpen = true := by
    rw [← LogicalStream.isSome_held, hheld]
    rfl
  have hpending : a.stream.pending = u := by
    rw [LogicalStream.held, if_pos hopen, Option.some_inj] at hheld
    exact hheld
  rw [spanChunks_eq hfit] at h
  by_cases hne : pieces = []
  · subst hne
    cases h
    exact ⟨rfl, rfl, fun _ => rfl⟩
  have hgather := @Lacing.gather_some _ continuationValue u _ hne
  rcases hunits : (Lacing.gather continuationValue none pieces).1 with _ | ⟨first, others⟩
  · rcases gather_part_isSome hne hunits with ⟨part, hpart⟩
    rw [hunits, hpart] at hgather h
    dsimp only at hgather
    rw [hgather] at hleft
    have hsize : a.stream.pending.length + part.length ≤ maxPacketBytes := by
      have hle := hleft _ rfl
      rwa [Option.getD_some, List.length_append, ← hpending] at hle
    rw [List.map_nil, List.nil_append, Option.toList_some, List.map_singleton, reassemble,
      if_pos (by rw [hopen]; rfl)] at h
    split at h
    · cases h
    · rename_i a₁ happend
      rcases appendPending_eq_ok happend hsize with ⟨hstream, hstats⟩
      rw [if_neg Bool.false_ne_true] at h
      cases h
      refine ⟨by rw [hgather], ?_, fun _ => hstats⟩
      rw [if_neg hne, hgather, hstream, hpending]
      change { a.stream with pending := u ++ part } =
        { a.stream with
          pending := u ++ part
          pendingOpen := true }
      rw [← hopen]
  · rw [hunits] at hgather h
    dsimp only at hgather
    rw [hgather] at hended hleft
    have hsize : a.stream.pending.length + first.length ≤ maxPacketBytes := by
      have hle := hended _ List.mem_cons_self
      rwa [List.length_append, ← hpending] at hle
    rw [List.map_cons, List.cons_append, reassemble, if_pos (by rw [hopen]; rfl)] at h
    split at h
    · cases h
    · rename_i a₁ happend
      rcases appendPending_eq_ok happend hsize with ⟨hstream, hstats⟩
      rw [if_pos rfl] at h
      have hidle : a₁.takePending.stream = a.stream.holding none := by
        rw [takePending, hstream]
        rfl
      rcases takeRuns_eq_ok h hidle hleft with ⟨hcompleted, htaken, hlast⟩
      have hfirst : a₁.stream.pending = u ++ first := by rw [hstream, hpending]
      have hall : a'.stats = a.stats := htaken.trans hstats
      refine ⟨?_, ?_, fun _ => hall⟩
      · rw [hcompleted, hgather, hfirst]
        rfl
      · rw [if_neg hne, hlast, hgather]

/-- A page that goes on with nothing drops what is pending and completes its own packets. -/
theorem reassemble_fresh {pieces completed : List Bytes} (hfit : PagePieces pieces)
    (htidy : a.stream.Tidy)
    (hleft : ∀ v, (Lacing.gather continuationValue none pieces).2 = some v →
      v.length ≤ maxPacketBytes)
    (h : a.reassemble false ((packetSpans (pieces.map lacingValue)).map
      fun span => (span.chunk pieces.flatten, span.complete)) = .ok (a', completed)) :
    Reassembled a a' none pieces completed := by
  rw [spanChunks_eq hfit] at h
  by_cases hne : pieces = []
  · subst hne
    cases h
    exact ⟨rfl, rfl, fun _ => rfl⟩
  rcases hruns : (Lacing.gather continuationValue none pieces).1.map (·, true) ++
      (Lacing.gather continuationValue none pieces).2.toList.map (·, false) with
    _ | ⟨⟨chunk, complete⟩, rest⟩
  · rw [List.append_eq_nil_iff, List.map_eq_nil_iff] at hruns
    rcases gather_part_isSome hne hruns.1 with ⟨part, hpart⟩
    rw [hpart] at hruns
    cases hruns.2
  · rw [hruns, reassemble, Bool.false_and, if_neg Bool.false_ne_true] at h
    cases hopen : a.stream.pendingOpen with
    | true =>
        rw [hopen, if_pos (by decide), ← hruns] at h
        have hidle : a.noteDangling.discardPending.stream = a.stream.holding none := rfl
        rcases takeRuns_eq_ok h hidle hleft with ⟨hcompleted, htaken, hlast⟩
        refine ⟨hcompleted, ?_, fun hno => ?_⟩
        · rw [if_neg hne, hlast]
        · rw [hopen] at hno
          cases hno
    | false =>
        rw [hopen, if_neg (by decide), ← hruns] at h
        have hidle : a.stream = a.stream.holding none := by
          have hheld := htidy.holding_held
          rw [LogicalStream.held, hopen, if_neg Bool.false_ne_true] at hheld
          exact hheld.symm
        rcases takeRuns_eq_ok h hidle hleft with ⟨hcompleted, htaken, hlast⟩
        refine ⟨hcompleted, ?_, fun _ => htaken⟩
        rw [if_neg hne, hlast]

/-- A page completes the packets that end on it, behind what the pending buffer holds. -/
theorem reassemble_spec {pieces completed : List Bytes} {opened : Option Bytes}
    (hfit : PagePieces pieces) (htidy : a.stream.Tidy)
    (hopened : ∀ u, opened = some u → a.stream.held = some u)
    (hended : ∀ v ∈ (Lacing.gather continuationValue opened pieces).1, v.length ≤ maxPacketBytes)
    (hleft : ∀ v, (Lacing.gather continuationValue opened pieces).2 = some v →
      v.length ≤ maxPacketBytes)
    (h : a.reassemble opened.isSome ((packetSpans (pieces.map lacingValue)).map
      fun span => (span.chunk pieces.flatten, span.complete)) = .ok (a', completed)) :
    Reassembled a a' opened pieces completed := by
  cases opened with
  | none => exact reassemble_fresh hfit htidy hleft h
  | some u => exact reassemble_continued hfit (hopened u rfl) hended hleft h

end Assembly

/-! ## One page in the demuxer -/

theorem LogicalStream.classify_spec (l : LogicalStream) (completed : List Bytes) :
    (l.classify completed).1 = { l with headerSeen := (l.classify completed).1.headerSeen } ∧
      (l.classify completed).2.Sublist completed := by
  induction completed generalizing l with
  | nil => exact ⟨rfl, List.Sublist.refl _⟩
  | cons bytes rest ih =>
      rw [classify]
      split
      · rcases ih { l with headerSeen := l.headerSeen + 1 } with ⟨hstream, hdata⟩
        refine ⟨?_, hdata.cons bytes⟩
        rw [hstream]
      · rcases ih l with ⟨hstream, hdata⟩
        exact ⟨hstream, hdata.cons_cons bytes⟩

/-- In a table without a repeated key, overwriting an entry takes it out and puts another in. -/
theorem mem_set_iff_of_nodup {α β : Type*} {key : α → β} {xs : List α} {k : Nat} {x y z : α}
    (hnodup : (xs.map key).Nodup) (hx : xs[k]? = some x) :
    z ∈ xs.set k y ↔ z = y ∨ z ∈ xs ∧ key z ≠ key x := by
  have hlt := (List.getElem?_eq_some_iff.mp hx).1
  constructor
  · intro hz
    rcases List.mem_iff_getElem?.mp hz with ⟨i, hi⟩
    rw [List.getElem?_set] at hi
    by_cases hki : k = i
    · rw [if_pos hki, if_pos hlt, Option.some_inj] at hi
      exact .inl hi.symm
    · rw [if_neg hki] at hi
      refine .inr ⟨List.mem_of_getElem? hi, fun heq => hki ?_⟩
      apply (List.getElem?_inj (by rwa [List.length_map]) hnodup).mp
      rw [List.getElem?_map, List.getElem?_map, hx, hi, Option.map_some, Option.map_some, heq]
  · rintro (rfl | ⟨hz, hne⟩)
    · exact List.mem_set hlt _
    · rcases List.mem_iff_getElem?.mp hz with ⟨i, hi⟩
      have hki : k ≠ i := by
        rintro rfl
        rw [hx] at hi
        cases hi
        exact hne rfl
      exact List.mem_iff_getElem?.mpr ⟨i, (List.getElem?_set_ne hki).trans hi⟩

namespace OggDemuxer

variable {d d' : OggDemuxer} {header : OggPageHeader} {body : Bytes}

theorem emit_spec (streamIndex : Nat) (budget : Budget) (packets : List Bytes) :
    (∀ packet ∈ (emit streamIndex budget packets).2, packet.streamIndex = streamIndex) ∧
      ((emit streamIndex budget packets).2.map DemuxedPacket.data).Sublist packets := by
  induction packets generalizing budget with
  | nil => exact ⟨fun packet h => absurd h List.not_mem_nil, List.Sublist.refl _⟩
  | cons bytes rest ih =>
      rw [emit]
      split
      · rcases ih budget with ⟨hindex, hdata⟩
        exact ⟨hindex, hdata.cons bytes⟩
      · rename_i charged _
        rcases ih charged with ⟨hindex, hdata⟩
        refine ⟨fun packet h => ?_, hdata.cons_cons bytes⟩
        rcases List.mem_cons.mp h with rfl | h
        · rfl
        · exact hindex packet h

/-- Every stream is found by its serial number, and knows its place. -/
structure Indexed (d : OggDemuxer) : Prop where
  length_streams : d.streams.length = d.logical.length
  serials_nodup : (d.logical.map LogicalStream.serial).Nodup
  index_eq : ∀ (k : Nat) (l : LogicalStream), d.logical[k]? = some l → l.streamIndex = k
  tidy : ∀ l ∈ d.logical, l.Tidy

namespace Indexed

theorem eq_of_index (h : d.Indexed) {l l' : LogicalStream} (hl : l ∈ d.logical)
    (hl' : l' ∈ d.logical) (hindex : l.streamIndex = l'.streamIndex) : l = l' := by
  rcases List.mem_iff_getElem?.mp hl with ⟨k, hk⟩
  rcases List.mem_iff_getElem?.mp hl' with ⟨k', hk'⟩
  rw [h.index_eq k l hk, h.index_eq k' l' hk'] at hindex
  subst hindex
  exact Option.some_inj.mp (hk.symm.trans hk')

theorem eq_of_serial (h : d.Indexed) {l l' : LogicalStream} (hl : l ∈ d.logical)
    (hl' : l' ∈ d.logical) (hserial : l.serial = l'.serial) : l = l' :=
  List.inj_on_of_nodup_map h.serials_nodup hl hl' hserial

/-- One stream is replaced by another under its serial number and in its place. -/
theorem set (h : d.Indexed) {k : Nat} {l l' : LogicalStream} (hl : d.logical[k]? = some l)
    (hserial : l'.serial = l.serial) (hindex : l'.streamIndex = l.streamIndex) (htidy : l'.Tidy)
    (hstreams : d'.streams = d.streams) (hlogical : d'.logical = d.logical.set k l') :
    d'.Indexed where
  length_streams := by
    rw [hstreams, hlogical, List.length_set, h.length_streams]
  serials_nodup := by
    have hsame : d'.logical.map LogicalStream.serial = d.logical.map LogicalStream.serial := by
      apply List.ext_getElem?
      intro i
      rw [hlogical, List.getElem?_map, List.getElem?_map, List.getElem?_set]
      by_cases hki : k = i
      · subst hki
        rw [if_pos rfl, if_pos (List.getElem?_eq_some_iff.mp hl).1, hl, Option.map_some,
          Option.map_some, hserial]
      · rw [if_neg hki]
    rw [hsame]
    exact h.serials_nodup
  index_eq := by
    intro i other hother
    rw [hlogical, List.getElem?_set] at hother
    by_cases hki : k = i
    · subst hki
      rw [if_pos rfl, if_pos (List.getElem?_eq_some_iff.mp hl).1, Option.some_inj] at hother
      rw [← hother, hindex]
      exact h.index_eq k l hl
    · rw [if_neg hki] at hother
      exact h.index_eq i other hother
  tidy := by
    intro other hother
    rw [hlogical] at hother
    rcases List.mem_or_eq_of_mem_set hother with hother | rfl
    · exact h.tidy other hother
    · exact htidy

end Indexed

/-- The stream that a page belongs to, registered before or with it. -/
structure Registers (d : OggDemuxer) (header : OggPageHeader) (body : Bytes)
    (l : LogicalStream) : Prop where
  getElem?_eq : (d.withStream header body).logical[d.streamOf header]? = some l
  serial_eq : l.serial = header.serial
  indexed : (d.withStream header body).Indexed
  known : l ∈ d.logical ∨
    l = d.newStream header body ∧ ∀ other ∈ d.logical, other.serial ≠ header.serial
  mem_iff : ∀ other, other ∈ (d.withStream header body).logical ↔ other ∈ d.logical ∨ other = l

theorem exists_registers (h : d.Indexed) (header : OggPageHeader) (body : Bytes) :
    ∃ l, d.Registers header body l := by
  cases hfind : d.logicalIndex header.serial with
  | none =>
      have hwith : d.withStream header body = d.beginLogicalStream header body := by
        rw [withStream, hfind]
      have hat : d.streamOf header = d.logical.length := by
        rw [streamOf, hfind, Option.getD_none]
      have hnew : ∀ other ∈ d.logical, other.serial ≠ header.serial := fun other hother =>
        beq_eq_false_iff_ne.mp (List.findIdx?_eq_none_iff.mp hfind other hother)
      refine ⟨d.newStream header body, ?_, rfl, ?_, .inr ⟨rfl, hnew⟩, fun other => ?_⟩
      · rw [hwith, hat]
        exact List.getElem?_concat_length
      · rw [hwith]
        refine ⟨?_, ?_, fun k l hl => ?_, fun l hl => ?_⟩
        · change (d.streams ++ [_]).length = (d.logical ++ [_]).length
          rw [List.length_append, List.length_append, h.length_streams]
          rfl
        · change ((d.logical ++ [d.newStream header body]).map LogicalStream.serial).Nodup
          rw [List.map_append, List.nodup_append]
          refine ⟨h.serials_nodup, List.nodup_singleton _, fun serial hserial other hother => ?_⟩
          rcases List.mem_map.mp hserial with ⟨l, hl, rfl⟩
          rw [List.map_singleton, List.mem_singleton] at hother
          rw [hother]
          exact hnew l hl
        · change (d.logical ++ [d.newStream header body])[k]? = some l at hl
          rw [List.getElem?_append] at hl
          split at hl
          · exact h.index_eq k l hl
          · rename_i hle
            rw [List.getElem?_singleton] at hl
            split at hl
            · rename_i hzero
              rw [← Option.some_inj.mp hl]
              change d.streams.length = k
              rw [h.length_streams]
              omega
            · cases hl
        · change l ∈ d.logical ++ [d.newStream header body] at hl
          rcases List.mem_append.mp hl with hl | hl
          · exact h.tidy l hl
          · rw [List.mem_singleton.mp hl]
            exact fun _ => rfl
      · rw [hwith]
        change other ∈ d.logical ++ [d.newStream header body] ↔ _
        rw [List.mem_append, List.mem_singleton]
  | some k =>
      have hwith : d.withStream header body = d := by
        rw [withStream, hfind]
      have hat : d.streamOf header = k := by
        rw [streamOf, hfind, Option.getD_some]
      rcases List.findIdx?_eq_some_iff_getElem.mp hfind with ⟨hlt, hserial, -⟩
      have hmem := List.getElem_mem hlt
      refine ⟨d.logical[k], ?_, beq_iff_eq.mp hserial, ?_, .inl hmem, fun other => ?_⟩
      · rw [hwith, hat]
        exact List.getElem?_eq_getElem hlt
      · rw [hwith]
        exact h
      · rw [hwith]
        refine ⟨.inl, fun hor => ?_⟩
        rcases hor with hother | rfl
        · exact hother
        · exact hmem

/-- What an accepted page has done: only its own stream has changed. -/
structure Accepted (d d' : OggDemuxer) (header : OggPageHeader) (body : Bytes)
    (l l' : LogicalStream) (a : Assembly) (completed : List Bytes)
    (emitted : List DemuxedPacket) : Prop where
  registers : d.Registers header body l
  reassembled : ((Assembly.mk l d.budget d.stats).checkSequenceGap header.sequence).reassemble
    header.flags.continued (pageRuns header body) = .ok (a, completed)
  stream_eq : l' =
    { l with
      headerSeen := l'.headerSeen
      pending := a.stream.pending
      pendingOpen := a.stream.pendingOpen
      lastSequence := some header.sequence
      eos := l'.eos }
  indexed : d'.Indexed
  mem_iff : ∀ other, other ∈ d'.logical ↔
    other = l' ∨ other ∈ d.logical ∧ other.serial ≠ header.serial
  queue_eq : d'.queue = d.queue ++ emitted
  emitted_index : ∀ packet ∈ emitted, packet.streamIndex = l.streamIndex
  emitted_sublist : (emitted.map DemuxedPacket.data).Sublist completed
  charged : ∃ packets, packets.Sublist completed ∧
    d'.budget = (emit l.streamIndex a.budget packets).1
  stats_eq : d'.stats = a.stats

/-- An accepted page changes its own stream only. -/
theorem acceptPage_spec (h : d.Indexed) (haccept : d.acceptPage header body = .ok d') :
    ∃ l l' a completed emitted, Accepted d d' header body l l' a completed emitted := by
  rcases exists_registers h header body with ⟨l, hl⟩
  rw [acceptPage, hl.getElem?_eq] at haccept
  dsimp only at haccept
  split at haccept
  · cases haccept
  · rename_i a completed hreassemble
    cases haccept
    rcases (a.stream.classify_spec completed) with ⟨hclassified, hdata⟩
    rcases emit_spec l.streamIndex a.budget (a.stream.classify completed).2 with
      ⟨hindex, hemitted⟩
    have hkeeps := (Assembly.reassemble_keeps hreassemble).stream_eq
    have hstream : (a.stream.classify completed).1 =
        { l with
          headerSeen := (a.stream.classify completed).1.headerSeen
          pending := a.stream.pending
          pendingOpen := a.stream.pendingOpen
          lastSequence := some header.sequence } := by
      rw [hclassified, hkeeps]
      rfl
    have htidy : a.stream.Tidy := by
      refine Assembly.reassemble_tidy ?_ hreassemble
      exact hl.indexed.tidy l (List.mem_of_getElem? hl.getElem?_eq)
    refine ⟨l,
      { (a.stream.classify completed).1 with
        eos := (a.stream.classify completed).1.eos || header.flags.eos },
      a, completed, _, hl, hreassemble, ?_, ?_, fun other => ?_, rfl, hindex,
      hemitted.trans hdata, ⟨_, hdata, rfl⟩, rfl⟩
    · rw [hstream]
    · refine hl.indexed.set hl.getElem?_eq ?_ ?_ ?_ rfl rfl
      · rw [hstream]
      · rw [hstream]
      · rw [hstream]
        exact htidy
    · dsimp only
      rw [mem_set_iff_of_nodup hl.indexed.serials_nodup hl.getElem?_eq, hl.mem_iff, hl.serial_eq]
      refine or_congr_right ⟨fun ⟨hor, hne⟩ => ?_, fun ⟨hother, hne⟩ => ⟨.inl hother, hne⟩⟩
      rcases hor with hother | rfl
      · exact ⟨hother, hne⟩
      · exact absurd hl.serial_eq hne

/-- The states that a demuxer comes to, by the pages it accepts and by seeking. -/
inductive Reached : OggDemuxer → Prop
  | new (budget : Budget) : Reached (new budget)
  | acceptPage {d d' : OggDemuxer} {header : OggPageHeader} {body : Bytes} :
      Reached d → d.acceptPage header body = .ok d' → Reached d'
  | afterSeek {d : OggDemuxer} : Reached d → Reached d.afterSeek

theorem afterSeek_indexed (h : d.Indexed) : d.afterSeek.Indexed where
  length_streams := by
    rw [afterSeek, List.length_map]
    exact h.length_streams
  serials_nodup := by
    rw [afterSeek, List.map_map]
    exact h.serials_nodup
  index_eq := by
    intro k l hl
    rw [afterSeek, List.getElem?_map, Option.map_eq_some_iff] at hl
    rcases hl with ⟨l', hl', rfl⟩
    exact h.index_eq k l' hl'
  tidy := by
    intro l hl
    rcases List.mem_map.mp hl with ⟨l', -, rfl⟩
    exact fun _ => rfl

/-- Every stream is found by its serial number, and knows its place. -/
theorem Reached.indexed (h : Reached d) : d.Indexed := by
  induction h with
  | new budget =>
      refine ⟨rfl, List.nodup_nil, fun k l hl => ?_, fun l hl => absurd hl List.not_mem_nil⟩
      cases hl
  | acceptPage _ haccept ih =>
      rcases acceptPage_spec ih haccept with ⟨l, l', a, completed, emitted, haccepted⟩
      exact haccepted.indexed
  | afterSeek _ ih => exact afterSeek_indexed ih

end OggDemuxer

end Ogg
end Vaco
