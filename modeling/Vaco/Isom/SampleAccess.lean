import Vaco.Isom.TableLookup

/-!
# Random access against naive expansion

The naive reading of a sample table writes every run out: deltas and composition offsets
sample by sample, the chunk layout chunk by chunk and then sample by sample.  Random access
answers from run indexes and never writes a run out; the two agree on every table whose
totals are consistent.

Main results:

- `sample_eq_expansion`: random access gives the expanded sample.
- `sample_ne_expansion`: neither restriction can be dropped.
-/

namespace Vaco
namespace Isom

open Library BitStream ByteWords RunLength

/-! ## The naive expansion -/

namespace CompositionOffsets

/-- The offset of a run as the file states it: unsigned in version 0, signed otherwise. -/
def stated (t : CompositionOffsets) (i : Nat) : Int :=
  let v := (t.runs.getU32 i 4).getD 0
  if t.version = 0 then v else (BitVec.ofNat 32 v).toInt

/-- The offset of every sample. -/
def expanded (t : CompositionOffsets) : List Int :=
  expand (entryList t.runs.len fun i => ((pairEntry t.runs i).1, t.stated i))

end CompositionOffsets

namespace SampleToChunk

/-- All chunks run by run: their samples, number and description. -/
def layout (t : SampleToChunk) : List (Nat × Nat × Nat) :=
  (List.range t.runs.len).flatMap fun i =>
    (List.range (t.chunks i)).map fun j => (t.perChunk i, t.first i + j, t.description i)

/-- The chunk and the description of every sample. -/
def expanded (t : SampleToChunk) : List (Nat × Nat) :=
  expand t.layout

end SampleToChunk

def SyncSamples.listed (t : SyncSamples) : List Nat :=
  entryList t.table.len fun i => (t.entry i).getD 0

namespace SampleTable

variable {t : SampleTable} {n : Nat}

/-- The deltas of all samples. -/
def deltas (t : SampleTable) : List Nat :=
  expand t.timeToSample.entries

def bytesInChunk (t : SampleTable) (n : Nat) : Nat :=
  (((List.range n).filter fun m =>
    decide ((t.sampleToChunk.expanded[m]?).map Prod.fst =
      (t.sampleToChunk.expanded[n]?).map Prod.fst)).map
    fun m => t.sampleSizes.storage.readAt m t.sampleCount).sum

def listedSync (t : SampleTable) (n : Nat) : Bool :=
  match t.syncSamples with
  | none => true
  | some s => decide (n + 1 ∈ s.listed)

/-- The stated composition offset of sample `n`. -/
def statedOffset (t : SampleTable) (n : Nat) : Int :=
  match t.compositionOffsets with
  | none => 0
  | some c => (c.expanded[n]?).getD 0

def expansion (t : SampleTable) (n : Nat) : Option Sample :=
  (t.sampleToChunk.expanded[n]?).bind fun chunk =>
  (t.chunkOffsets.offset chunk.1).map fun base =>
    { index := n
      offset := base + t.bytesInChunk n
      size := t.sampleSizes.storage.readAt n t.sampleCount
      dts := (t.deltas.take n).sum
      ctsOffset := t.statedOffset n
      duration := (t.deltas[n]?).getD 0
      isSync := t.listedSync n
      chunk := chunk.1
      descriptionIndex := chunk.2 }

/-- The field widths leave no sample beyond 64 bits, and a clamped composition offset. -/
def representable (s : Sample) : Option Sample :=
  if s.offset ≤ u64Max then some { s with ctsOffset := min s.ctsOffset 2147483647 } else none

/-- Tables of one track that agree on its number of samples. -/
structure WellFormed (t : SampleTable) : Prop where
  times : t.deltas.length = t.sampleCount
  offsets : ∀ c, t.compositionOffsets = some c → c.expanded.length = t.sampleCount
  chunks : t.sampleToChunk.expanded.length = t.sampleCount
  sync : ∀ s, t.syncSamples = some s → s.Ascending
  size_lt : t.sampleSizes.bytesBefore t.sampleCount < 9223372036854775808
  duration_lt : t.deltas.sum < 9223372036854775808

end SampleTable

/-! ## Each table against its expansion -/

namespace TimeToSample

variable {t : TimeToSample} {n : Nat}

theorem dtsAndDuration_eq (hn : n < u64Max) (h : n < (expand t.entries).length) :
    t.dtsAndDuration n =
      (min ((expand t.entries).take n).sum i64Max, ((expand t.entries)[n]?).getD 0) := by
  have hlen : t.entries.length = t.runs.len := length_entryList _ _
  rw [length_expand, hlen] at h
  rcases exists_covers (a := 0) (by rw [before_zero]; exact Nat.zero_le n) h (Nat.zero_le _)
    with ⟨r, -, hr, hcovers⟩
  have hentry := getElem?_entries hr
  rw [dtsAndDuration, seekRun_covers hn hr hcovers, sum_take_expand hentry hcovers,
    getElem?_expand hentry hcovers, TimePosition.at, position, Option.getD_some]
  dsimp only
  rw [satAdd, Prod.mk.injEq]
  refine ⟨by omega, rfl⟩

end TimeToSample

namespace CompositionOffsets

variable {t : CompositionOffsets} {n : Nat}

theorem raw_eq (t : CompositionOffsets) (i : Nat) : t.raw i = min (t.stated i) 2147483647 := by
  rw [raw, stated]
  split
  · rfl
  · have hlt := (BitVec.ofNat 32 ((t.runs.getU32 i 4).getD 0)).toInt_lt
    rw [min_eq_left (by omega)]

theorem offset_eq (hn : n < u64Max) (h : n < t.expanded.length) :
    t.offset n = min ((t.expanded[n]?).getD 0) 2147483647 := by
  have hstarts : before (entryList t.runs.len fun i => ((pairEntry t.runs i).1, t.stated i)) =
      before t.entries := by
    ext i
    rw [before, before, entries, entryList, entryList, ← List.map_take, ← List.map_take,
      List.map_map, List.map_map]
    rfl
  rw [expanded, length_expand, hstarts, length_entryList] at h
  rcases exists_covers (a := 0) (by rw [before_zero]; exact Nat.zero_le n) h (Nat.zero_le _)
    with ⟨r, -, hr, hcovers⟩
  rw [offset_covers hn hr hcovers, raw_eq, expanded,
    getElem?_expand (getElem?_entryList hr _) (by rwa [hstarts])]
  rfl

end CompositionOffsets

namespace SampleToChunk

variable {t : SampleToChunk} {n : Nat}

theorem expanded_eq (t : SampleToChunk) :
    t.expanded = (List.range t.runs.len).flatMap fun i =>
      expand ((List.range (t.chunks i)).map fun j =>
        (t.perChunk i, t.first i + j, t.description i)) := by
  rw [expanded, layout, expand, List.flatMap_assoc]
  rfl

theorem before_entries_succ {i : Nat} (hi : i < t.runs.len) :
    before t.entries (i + 1) = before t.entries i +
      (expand ((List.range (t.chunks i)).map fun j =>
        (t.perChunk i, t.first i + j, t.description i))).length := by
  rw [before_succ (getElem?_entries hi),
    length_expand_const fun j => (t.first i + j, t.description i)]

theorem length_expanded (t : SampleToChunk) :
    t.expanded.length = before t.entries t.runs.len := by
  rw [expanded_eq]
  exact length_blocks (before_zero _) fun i hi => before_entries_succ hi

theorem getElem?_expanded {r : Nat} (hr : r < t.runs.len)
    (h : Covers (before t.entries) n r) :
    t.expanded[n]? =
      some ((t.locationIn n r).chunk, (t.locationIn n r).descriptionIndex) := by
  have hin : n - before t.entries r < t.chunks r * t.perChunk r := by
    have hend := h.2
    have hstart := h.1
    rw [before_succ (getElem?_entries hr)] at hend
    dsimp only at hend
    omega
  rw [expanded_eq, getElem?_blocks (before_zero _) (before_mono _)
    (fun i hi => before_entries_succ hi) hr h,
    getElem?_expand_const (fun j => (t.first r + j, t.description r)) hin]
  rfl

theorem exists_covers_of_lt (h : n < t.expanded.length) :
    ∃ r < t.runs.len, Covers (before t.entries) n r := by
  rw [length_expanded] at h
  rcases exists_covers (a := 0) (by rw [before_zero]; exact Nat.zero_le n) h (Nat.zero_le _)
    with ⟨r, -, hr, hcovers⟩
  exact ⟨r, hr, hcovers⟩

theorem sameChunk_iff {m r : Nat} (hr : r < t.runs.len) (h : Covers (before t.entries) n r)
    (hmn : m < n) :
    (t.expanded[m]?).map Prod.fst = (t.expanded[n]?).map Prod.fst ↔
      (t.locationIn n r).firstSample ≤ m := by
  have hlt : n < t.expanded.length := by
    by_contra hge
    have hnone := List.getElem?_eq_none (not_lt.mp hge)
    rw [getElem?_expanded hr h] at hnone
    cases hnone
  rcases exists_covers_of_lt (hmn.trans hlt) with ⟨r', hr', h'⟩
  rw [getElem?_expanded hr h, getElem?_expanded hr' h', Option.map_some, Option.map_some,
    Option.some.injEq]
  constructor
  · exact (chunk_le_chunk (Nat.le_of_lt hmn) hr' hr h' h).2
  · intro hle
    have hsame := locationIn_eq_of_mem hr h hle (hmn.trans (firstSample_le hr h).2)
    rw [Covers.unique (before_mono _) h' hsame.1, hsame.2]

end SampleToChunk

namespace SyncSamples

variable {t : SyncSamples}

theorem mem_listed {v : Nat} : v ∈ t.listed ↔ ∃ i, t.entry i = some v := by
  rw [listed, entryList, List.mem_map]
  constructor
  · rintro ⟨i, hi, hv⟩
    rcases exists_entry (List.mem_range.mp hi) with ⟨w, hw, -⟩
    rw [hw, Option.getD_some] at hv
    exact ⟨i, hv ▸ hw⟩
  · rintro ⟨i, hi⟩
    refine ⟨i, List.mem_range.mpr (EntryTable.lt_of_getWord hi), ?_⟩
    rw [hi, Option.getD_some]

end SyncSamples

namespace SampleTable

variable {t : SampleTable} {n : Nat}

/-- The sum over the entries from a position on. -/
theorem sum_filter_le (g : Nat → Nat) {first : Nat} (h : first ≤ n) :
    (((List.range n).filter fun m => decide (first ≤ m)).map g).sum =
      ((List.range n).map g).sum - ((List.range first).map g).sum := by
  induction n, h using Nat.le_induction with
  | base =>
      have hnone : (List.range first).filter (fun m => decide (first ≤ m)) = [] := by
        rw [List.filter_eq_nil_iff]
        intro m hm
        have hlt := List.mem_range.mp hm
        simpa using hlt
      rw [hnone, Nat.sub_self]
      rfl
  | succ n h ih =>
      have hle : ((List.range first).map g).sum ≤ ((List.range n).map g).sum := by
        apply List.Sublist.sum_le_sum
        · exact (List.range_sublist.mpr h).map g
        · intro _ _
          exact Nat.zero_le _
      rw [List.range_succ, List.filter_append, List.map_append, List.sum_append, ih,
        List.map_append, List.sum_append]
      simp only [List.filter_cons, List.filter_nil, h, decide_true, if_true, List.map_cons,
        List.map_nil, List.sum_cons, List.sum_nil]
      omega

theorem bytesInChunk_eq {r : Nat} (hr : r < t.sampleToChunk.runs.len)
    (h : Covers (before t.sampleToChunk.entries) n r) :
    t.bytesInChunk n = t.sampleSizes.bytesBefore n -
      t.sampleSizes.bytesBefore (t.sampleToChunk.locationIn n r).firstSample := by
  have hfirst := (SampleToChunk.firstSample_le hr h).1
  have hfilter : ((List.range n).filter fun m =>
      decide ((t.sampleToChunk.expanded[m]?).map Prod.fst =
        (t.sampleToChunk.expanded[n]?).map Prod.fst)) =
      (List.range n).filter fun m =>
        decide ((t.sampleToChunk.locationIn n r).firstSample ≤ m) := by
    apply List.filter_congr
    intro m hm
    exact decide_eq_decide.mpr (SampleToChunk.sameChunk_iff hr h (List.mem_range.mp hm))
  rw [bytesInChunk, hfilter, sum_filter_le _ hfirst]
  rfl

/-- Sample `n` of tables that put it into a chunk. -/
theorem sample_of_chunk (h : t.WellFormed) (hn : n < t.sampleCount) {chunk : Nat × Nat}
    (hchunk : t.sampleToChunk.expanded[n]? = some chunk) :
    t.sample n = (t.chunkOffsets.offset chunk.1).bind fun base => representable
      { index := n
        offset := base + t.bytesInChunk n
        size := t.sampleSizes.storage.readAt n t.sampleCount
        dts := (t.deltas.take n).sum
        ctsOffset := t.statedOffset n
        duration := (t.deltas[n]?).getD 0
        isSync := t.listedSync n
        chunk := chunk.1
        descriptionIndex := chunk.2 } := by
  have hcount := t.sampleSizes.count_le
  have hn32 : n < u32Max := hn.trans_le hcount
  have hn64 : n < u64Max := hn32.trans (by decide)
  rcases SampleToChunk.exists_covers_of_lt (h.chunks ▸ hn) with ⟨r, hr, hcovers⟩
  have hfirst := (SampleToChunk.firstSample_le hr hcovers).1
  have hbytes : t.sampleSizes.bytesBefore t.sampleSizes.count ≤ i64Max :=
    Nat.le_of_lt_succ h.size_lt
  have hduration : (t.deltas.take n).sum ≤ i64Max := by
    have hle : (t.deltas.take n).sum ≤ t.deltas.sum := by
      apply List.Sublist.sum_le_sum (List.take_sublist _ _)
      intro _ _
      exact Nat.zero_le _
    exact hle.trans (Nat.le_of_lt_succ h.duration_lt)
  have hsize : t.sampleSizes.size n = some (t.sampleSizes.storage.readAt n t.sampleCount) :=
    if_neg (not_le.mpr hn)
  have htime := TimeToSample.dtsAndDuration_eq (t := t.timeToSample) hn64
    (by rw [← h.times] at hn; exact hn)
  have hsync : t.isSync n = t.listedSync n := by
    rw [isSync, listedSync]
    cases hs : t.syncSamples with
    | none => rfl
    | some s =>
        dsimp only
        rw [Bool.eq_iff_iff, SyncSamples.contains_iff (h.sync s hs), decide_eq_true_iff,
          SyncSamples.mem_listed]
  have hcts : t.ctsOffset n = min (t.statedOffset n) 2147483647 := by
    rw [ctsOffset, statedOffset]
    cases hc : t.compositionOffsets with
    | none => rfl
    | some c => exact CompositionOffsets.offset_eq hn64 (by rw [h.offsets c hc]; exact hn)
  have hcum := SampleSizes.cumulative_eq hbytes hn
  have hcumFirst := SampleSizes.cumulative_eq hbytes (hfirst.trans_lt hn)
  have hmono := t.sampleSizes.bytesBefore_mono hfirst
  have hlocation := SampleToChunk.getElem?_expanded hr hcovers
  rw [hchunk] at hlocation
  rw [Option.some.inj hlocation, sample, hsize, SampleToChunk.locate_covers hn32 hr hcovers,
    Option.bind_some, Option.bind_some]
  dsimp only
  cases hbase : t.chunkOffsets.offset (t.sampleToChunk.locationIn n r).chunk with
  | none => rfl
  | some base =>
      rw [Option.bind_some, if_pos (by omega), Option.bind_some, hcum, hcumFirst, checkedSub,
        if_pos hmono, Option.bind_some, Option.bind_some, representable, checkedAdd,
        bytesInChunk_eq hr hcovers, htime, hsync, hcts]
      dsimp only
      rw [show expand t.timeToSample.entries = t.deltas from rfl, Nat.min_eq_left hduration]
      split
      · rfl
      · rfl

/-- Random access gives the expanded sample, as far as the fields of a sample can hold it. -/
theorem sample_eq_expansion (t : SampleTable) (h : t.WellFormed) (n : Nat)
    (hn : n < t.sampleCount) : t.sample n = (t.expansion n).bind representable := by
  have hlt : n < t.sampleToChunk.expanded.length := h.chunks ▸ hn
  have hchunk := List.getElem?_eq_getElem hlt
  rw [sample_of_chunk h hn hchunk, expansion, hchunk, Option.bind_some]
  cases t.chunkOffsets.offset (t.sampleToChunk.expanded[n]).1 with
  | none => rfl
  | some base => rfl

/-- A full box of version 0 that holds some 32-bit words. -/
def wordsBox (words : List Nat) : FullBox :=
  { version := 0
    flags := 0
    body := words.flatMap (beBytes 4) }

def twoChunks : SampleTable :=
  { timeToSample := .parse (wordsBox [2, 1, 10, 2, 20])
    compositionOffsets := none
    syncSamples := some (.parse (wordsBox [2, 1, 3]))
    sampleToChunk :=
      { runs := EntryTable.new (countAndRest (wordsBox [2, 1, 2, 1, 2, 1, 1]).body).2 12 2
        index := RunIndex.build 2
          (chunkEntry (EntryTable.new
            (countAndRest (wordsBox [2, 1, 2, 1, 2, 1, 1]).body).2 12 2) 2)
        chunkCount := 2
        stride_eq := by decide
        chunkCount_le := by decide
        checked := by decide
        summarises := RunIndex.build_summarises _ _ }
    sampleSizes := .parseStsz (wordsBox [0, 3, 5, 6, 7])
    chunkOffsets := .parseStco (wordsBox [2, 100, 200]) }

theorem twoChunks_wellFormed : twoChunks.WellFormed where
  times := by decide
  offsets := by
    intro c hc
    cases hc
  chunks := by decide
  sync := by
    intro s hs i j hij hj
    rw [← Option.some.inj hs] at hj ⊢
    have hlen : j < 2 := hj
    interval_cases j
    · interval_cases i
      decide
    · interval_cases i
      · decide
      · decide
  size_lt := by decide
  duration_lt := by decide

/-- The second sample of the first chunk. -/
theorem sample_eq_expansion_twoChunks :
    twoChunks.sample 1 = (twoChunks.expansion 1).bind representable :=
  sample_eq_expansion twoChunks twoChunks_wellFormed 1 (by decide)

/-- Two samples in a chunk that starts at the last byte a 64-bit offset can name. -/
def lastByte : SampleTable :=
  { timeToSample := .parse (wordsBox [1, 2, 10])
    compositionOffsets := none
    syncSamples := none
    sampleToChunk :=
      { runs := EntryTable.new (countAndRest (wordsBox [1, 1, 2, 1]).body).2 12 1
        index := RunIndex.build 1
          (chunkEntry (EntryTable.new (countAndRest (wordsBox [1, 1, 2, 1]).body).2 12 1) 1)
        chunkCount := 1
        stride_eq := by decide
        chunkCount_le := by decide
        checked := by decide
        summarises := RunIndex.build_summarises _ _ }
    sampleSizes := .parseStsz (wordsBox [0, 2, 1, 1])
    chunkOffsets := .parseCo64 (wordsBox [1, 4294967295, 4294967295]) }

/-- One sample that is shown `2 ^ 31` units after it is decoded. -/
def lateSample : SampleTable :=
  { lastByte with
    timeToSample := .parse (wordsBox [1, 1, 10])
    compositionOffsets := some (.parse (wordsBox [1, 1, 2147483648]))
    sampleToChunk :=
      { runs := EntryTable.new (countAndRest (wordsBox [1, 1, 1, 1]).body).2 12 1
        index := RunIndex.build 1
          (chunkEntry (EntryTable.new (countAndRest (wordsBox [1, 1, 1, 1]).body).2 12 1) 1)
        chunkCount := 1
        stride_eq := by decide
        chunkCount_le := by decide
        checked := by decide
        summarises := RunIndex.build_summarises _ _ }
    sampleSizes := .parseStsz (wordsBox [0, 1, 1])
    chunkOffsets := .parseStco (wordsBox [1, 100]) }

theorem lastByte_wellFormed : lastByte.WellFormed where
  times := by decide
  offsets := by
    intro c hc
    cases hc
  chunks := by decide
  sync := by
    intro s hs
    cases hs
  size_lt := by decide
  duration_lt := by decide

theorem lateSample_wellFormed : lateSample.WellFormed where
  times := by decide
  offsets := by
    intro c hc
    rw [← Option.some.inj hc]
    decide
  chunks := by decide
  sync := by
    intro s hs
    cases hs
  size_lt := by decide
  duration_lt := by decide

/-- A sample beyond the last 64-bit offset is not found, and a composition offset of
`2 ^ 31` is not kept. -/
theorem sample_ne_expansion :
    (∃ t, WellFormed t ∧ ∃ n < t.sampleCount,
      t.sample n = none ∧ (t.expansion n).isSome = true) ∧
    ∃ t, WellFormed t ∧ ∃ n < t.sampleCount,
      ((t.sample n).map Sample.ctsOffset).getD 0 < ((t.expansion n).map Sample.ctsOffset).getD 0 :=
  ⟨⟨lastByte, lastByte_wellFormed, 1, by decide, by decide, by decide⟩,
    ⟨lateSample, lateSample_wellFormed, 0, by decide, by decide⟩⟩

end SampleTable

end Isom
end Vaco
