import Vaco.Isom.SampleTable

/-!
# Lookups in sample tables

A lookup starts at a checkpoint of a run index and walks to the run that covers the sample.
The checkpoint stands at or before that run and its running sums are exact there, so the
lookup depends on the runs alone and not on which checkpoints were kept.

Main results:

- `TimeToSample.seekRun_covers`: the walk ends at the run that covers a sample.
- `SampleToChunk.locate_covers`: a sample is located in the chunk of the run that covers it.
- `SampleSizes.cumulative_eq`: the running byte count is exact but for what the checkpoint lost to
  saturation.
- `SyncSamples.contains_iff`: the bisection finds exactly the listed samples of an ascending table.
-/

namespace Vaco
namespace Isom

open Library BitStream ByteWords RunLength
open Vaco.Core (Error)

/-! ## Decode times -/

theorem getU32_getD_le (runs : EntryTable) (i off : Nat) : (runs.getU32 i off).getD 0 ≤ u32Max := by
  rw [EntryTable.getU32, EntryTable.getWord]
  cases runs.entry i with
  | none => exact Nat.zero_le _
  | some e =>
      rw [Option.bind_some]
      split
      · exact Nat.zero_le _
      · have hlt := beNat_lt ((e.drop off).take 4)
        have hlen : 256 ^ ((e.drop off).take 4).length ≤ 256 ^ 4 :=
          Nat.pow_le_pow_right (by decide) (List.length_take_le _ _)
        rw [Option.getD_some]
        exact Nat.le_of_lt_succ (hlt.trans_le hlen)

theorem pairEntry_fst_le (runs : EntryTable) (i : Nat) : (pairEntry runs i).1 ≤ u64Max :=
  (getU32_getD_le runs i 0).trans (by decide)

theorem pairEntry_eq {runs : EntryTable} (hstride : runs.stride = 8) {i : Nat} (hi : i < runs.len) :
    runs.getU32 i 0 = some (pairEntry runs i).1 ∧ runs.getU32 i 4 = some (pairEntry runs i).2 := by
  rcases @EntryTable.exists_getU32 _ _ 0 hi (by omega) with ⟨count, hcount, -⟩
  rcases @EntryTable.exists_getU32 _ _ 4 hi (by omega) with ⟨v, hv, -⟩
  rw [pairEntry, hcount, hv]
  exact ⟨rfl, rfl⟩

namespace TimeToSample

variable {t : TimeToSample} {n : Nat}

/-- The runs of the table: counts and deltas. -/
def entries (t : TimeToSample) : List (Nat × Nat) :=
  entryList t.runs.len (pairEntry t.runs)

theorem getElem?_entries {i : Nat} (hi : i < t.runs.len) :
    t.entries[i]? = some (pairEntry t.runs i) :=
  getElem?_entryList hi _

theorem run_eq {i : Nat} (hi : i < t.runs.len) : t.run i = some (pairEntry t.runs i) := by
  rcases pairEntry_eq t.stride_eq hi with ⟨hcount, hdelta⟩
  rw [run, hcount, hdelta]
  rfl

theorem run_of_le {i : Nat} (hi : t.runs.len ≤ i) : t.run i = none := by
  rw [run, EntryTable.getU32_of_le hi]
  rfl

/-- The position at the start of a run. -/
def position (t : TimeToSample) (r : Nat) : TimePosition :=
  { run := r
    firstSample := before t.entries r
    dts := min (weight t.entries r) i64Max
    count := (pairEntry t.runs r).1
    delta := (pairEntry t.runs r).2 }

/-- The walk from the start of a run that lies at or before a sample. -/
theorem seekFrom_eq (hn : n < u64Max) {left c : Nat} (hleft : c + left = t.runs.len)
    (hle : before t.entries c ≤ n) :
    t.seekFrom n left ⟨c, before t.entries c, min (weight t.entries c) i64Max⟩ =
      ((findRun (before t.entries) n left c).map t.position).getD (t.tail t.runs.len) := by
  induction left generalizing c with
  | zero =>
      rw [seekFrom, findRun, show c = t.runs.len by omega]
      rfl
  | succ left ih =>
      have hentry : t.entries[c]? = some (pairEntry t.runs c) := getElem?_entries (by omega)
      have hstart := before_succ hentry
      have hvalue := weight_succ hentry
      rw [seekFrom, run_eq (show c < t.runs.len by omega), findRun]
      dsimp only
      by_cases h : n < before t.entries (c + 1)
      · rw [if_pos h, if_pos (by rw [satAdd]; omega)]
        rfl
      · have hnext : satAdd u64Max (before t.entries c) (pairEntry t.runs c).1 =
            before t.entries (c + 1) := by
          rw [satAdd]
          omega
        have hsum : satAdd i64Max (min (weight t.entries c) i64Max)
            (min ((pairEntry t.runs c).1 * (pairEntry t.runs c).2) i64Max) =
            min (weight t.entries (c + 1)) i64Max := by
          rw [satAdd, hvalue]
          omega
        rw [if_neg h, hnext, if_neg h, hsum]
        exact ih (by omega) (not_lt.mp h)

theorem exists_start (t : TimeToSample) (hn : n < u64Max) :
    ∃ c ≤ t.runs.len, before t.entries c ≤ n ∧ t.index.checkpointForSample n =
      ⟨c, before t.entries c, min (weight t.entries c) i64Max⟩ := by
  rcases RunIndex.exists_start t.summarises (pairEntry t.runs) le_rfl
    (fun i => (Nat.min_eq_left (pairEntry_fst_le t.runs i)).symm) hn with ⟨c, hc, hle, hpoint⟩
  rw [RunIndex.point_value_eq hc] at hpoint
  exact ⟨c, hc, hle, hpoint⟩

/-- The run that covers a sample is found. -/
theorem seekRun_covers (hn : n < u64Max) {r : Nat} (hr : r < t.runs.len)
    (h : Covers (before t.entries) n r) : t.seekRun n = t.position r := by
  rcases t.exists_start hn with ⟨c, hc, hle, hpoint⟩
  have hcr := h.le_of_start (before_mono _) hle
  rw [seekRun, hpoint]
  dsimp only
  rw [seekFrom_eq hn (by omega) hle, findRun_of_covers (before_mono _) h hcr (by omega)]
  rfl

theorem seekRun_past (hn : n < u64Max) (h : before t.entries t.runs.len ≤ n) :
    t.seekRun n = t.tail t.runs.len := by
  rcases t.exists_start hn with ⟨c, hc, hle, hpoint⟩
  rw [seekRun, hpoint]
  dsimp only
  rw [seekFrom_eq hn (by omega) hle,
    findRun_of_le (before_mono _) (by rwa [Nat.add_sub_of_le hc])]
  rfl

end TimeToSample

/-! ## Composition offsets -/

namespace CompositionOffsets

variable {t : CompositionOffsets} {n : Nat}

/-- The runs of the table: counts and offsets. -/
def entries (t : CompositionOffsets) : List (Nat × Int) :=
  entryList t.runs.len fun i => ((pairEntry t.runs i).1, t.raw i)

theorem getElem?_entries {i : Nat} (hi : i < t.runs.len) :
    t.entries[i]? = some ((pairEntry t.runs i).1, t.raw i) :=
  getElem?_entryList hi _

theorem offsetFrom_eq (hn : n < u64Max) {left c : Nat} (hleft : c + left = t.runs.len)
    (hle : before t.entries c ≤ n) (value : Nat) :
    t.offsetFrom n left ⟨c, before t.entries c, value⟩ =
      ((findRun (before t.entries) n left c).map t.raw).getD 0 := by
  induction left generalizing c with
  | zero => rfl
  | succ left ih =>
      have hstart := before_succ (getElem?_entries (t := t) (i := c) (by omega))
      dsimp only at hstart
      rw [offsetFrom, (pairEntry_eq t.stride_eq (show c < t.runs.len by omega)).1, findRun]
      dsimp only
      by_cases h : n < before t.entries (c + 1)
      · rw [if_pos h, if_pos (by rw [satAdd]; omega)]
        rfl
      · have hnext : satAdd u64Max (before t.entries c) (pairEntry t.runs c).1 =
            before t.entries (c + 1) := by
          rw [satAdd]
          omega
        rw [if_neg h, hnext, if_neg h]
        exact ih (by omega) (not_lt.mp h)

theorem exists_start (t : CompositionOffsets) (hn : n < u64Max) :
    ∃ c ≤ t.runs.len, ∃ value, before t.entries c ≤ n ∧
      t.index.checkpointForSample n = ⟨c, before t.entries c, value⟩ := by
  rcases RunIndex.exists_start t.summarises (fun i => ((pairEntry t.runs i).1, t.raw i)) le_rfl
    (fun i => (Nat.min_eq_left (pairEntry_fst_le t.runs i)).symm) hn with ⟨c, hc, hle, hpoint⟩
  exact ⟨c, hc, _, hle, hpoint⟩

theorem offset_covers (hn : n < u64Max) {r : Nat} (hr : r < t.runs.len)
    (h : Covers (before t.entries) n r) : t.offset n = t.raw r := by
  rcases t.exists_start hn with ⟨c, hc, value, hle, hpoint⟩
  have hcr := h.le_of_start (before_mono _) hle
  rw [offset, hpoint]
  dsimp only
  rw [offsetFrom_eq hn (by omega) hle, findRun_of_covers (before_mono _) h hcr (by omega)]
  rfl

end CompositionOffsets

/-! ## Chunks -/

namespace SampleToChunk

variable {t : SampleToChunk} {n : Nat}

/-- First chunk of a run. -/
def first (t : SampleToChunk) (i : Nat) : Nat :=
  (t.runs.getU32 i 0).getD 1

/-- Samples in every chunk of a run. -/
def perChunk (t : SampleToChunk) (i : Nat) : Nat :=
  (t.runs.getU32 i 4).getD 0

/-- Sample description of a run. -/
def description (t : SampleToChunk) (i : Nat) : Nat :=
  (t.runs.getU32 i 8).getD 0

/-- Chunks of a run. -/
def chunks (t : SampleToChunk) (i : Nat) : Nat :=
  t.runChunks i (t.first i)

/-- The runs of the table: the samples of a run, and the run. -/
def entries (t : SampleToChunk) : List (Nat × Nat) :=
  entryList t.runs.len fun i => (t.chunks i * t.perChunk i, i)

theorem getElem?_entries {i : Nat} (hi : i < t.runs.len) :
    t.entries[i]? = some (t.chunks i * t.perChunk i, i) :=
  getElem?_entryList hi _

theorem run_eq {i : Nat} (hi : i < t.runs.len) :
    t.run i = some (t.first i, t.perChunk i, t.description i) := by
  have hstride := t.stride_eq
  rcases @EntryTable.exists_getU32 _ _ 0 hi (by omega) with ⟨first, hfirst, -⟩
  rcases @EntryTable.exists_getU32 _ _ 4 hi (by omega) with ⟨spc, hspc, -⟩
  rcases @EntryTable.exists_getU32 _ _ 8 hi (by omega) with ⟨sdi, hsdi, -⟩
  rw [run, SampleToChunk.first, perChunk, description, hfirst, hspc, hsdi]
  rfl

theorem perChunk_le (t : SampleToChunk) (i : Nat) : t.perChunk i ≤ u32Max :=
  getU32_getD_le t.runs i 4

theorem first_add_chunks_le (h : 0 < t.chunks n) : t.first n + t.chunks n ≤ u32Max := by
  rw [chunks, runChunks, chunksOfRun] at *
  split at h
  · rename_i hi
    rcases @EntryTable.exists_getU32 _ _ 0 hi (by rw [t.stride_eq]; decide) with
      ⟨next, hnext, hle⟩
    rw [hnext, Option.getD_some] at h
    rw [if_pos hi, hnext, Option.getD_some]
    omega
  · rename_i hi
    have htop : satAdd u32Max t.chunkCount 1 ≤ u32Max := Nat.min_le_right _ _
    rw [if_neg hi]
    omega

theorem chunks_le (t : SampleToChunk) (i : Nat) : t.chunks i ≤ u32Max := by
  rcases Nat.eq_zero_or_pos (t.chunks i) with hzero | hpos
  · rw [hzero]
    exact Nat.zero_le _
  · exact (Nat.le_add_left _ _).trans (first_add_chunks_le hpos)

/-- Where a sample of a run lies. -/
def locationIn (t : SampleToChunk) (n r : Nat) : ChunkLocation :=
  { chunk := t.first r + (n - before t.entries r) / t.perChunk r
    firstSample := before t.entries r + (n - before t.entries r) / t.perChunk r * t.perChunk r
    samplesPerChunk := t.perChunk r
    descriptionIndex := t.description r }

theorem chunk_lt_of_covers {r : Nat} (hr : r < t.runs.len)
    (h : Covers (before t.entries) n r) :
    0 < t.perChunk r ∧ (n - before t.entries r) / t.perChunk r < t.chunks r := by
  rcases h with ⟨hle, hlt⟩
  rw [before_succ (getElem?_entries hr)] at hlt
  dsimp only at hlt
  have hpos : 0 < t.perChunk r := by
    rcases Nat.eq_zero_or_pos (t.perChunk r) with hzero | hpos
    · rw [hzero, Nat.mul_zero] at hlt
      omega
    · exact hpos
  refine ⟨hpos, ?_⟩
  rw [Nat.div_lt_iff_lt_mul hpos]
  omega

/-- The walk from the start of a run that lies at or before a sample. -/
theorem locateFrom_eq (hn : n < u32Max) {left c : Nat} (hleft : c + left = t.runs.len)
    (hle : before t.entries c ≤ n) (value : Nat) :
    t.locateFrom n left ⟨c, before t.entries c, value⟩ =
      (findRun (before t.entries) n left c).map (t.locationIn n) := by
  have hcaps : u32Max < u64Max := by decide
  induction left generalizing c with
  | zero => rfl
  | succ left ih =>
      have hc : c < t.runs.len := by omega
      have hstart := before_succ (getElem?_entries hc)
      dsimp only at hstart
      have hrun : min (t.chunks c * t.perChunk c) u64Max = t.chunks c * t.perChunk c := by
        have hprod := Nat.mul_le_mul (t.chunks_le c) (t.perChunk_le c)
        exact Nat.min_eq_left (hprod.trans (by decide))
      rw [locateFrom, run_eq hc, findRun]
      dsimp only
      rw [show t.runChunks c (t.first c) = t.chunks c from rfl, hrun]
      by_cases h : n < before t.entries (c + 1)
      · rcases chunk_lt_of_covers hc ⟨hle, h⟩ with ⟨hpos, hchunk⟩
        have hlast := first_add_chunks_le (Nat.zero_lt_of_lt hchunk)
        have hback := Nat.div_mul_le_self (n - before t.entries c) (t.perChunk c)
        have hnext : n < satAdd u64Max (before t.entries c) (t.chunks c * t.perChunk c) := by
          rw [satAdd]
          omega
        have hnumber : satAdd u64Max (t.first c)
            ((n - before t.entries c) / t.perChunk c) =
            t.first c + (n - before t.entries c) / t.perChunk c := satAdd_of_le (by omega)
        have hfirst : satAdd u64Max (before t.entries c)
            (min ((n - before t.entries c) / t.perChunk c * t.perChunk c) u64Max) =
            before t.entries c +
              (n - before t.entries c) / t.perChunk c * t.perChunk c := by
          rw [satAdd]
          omega
        rw [if_pos h, if_pos ⟨hnext, hpos⟩, hnumber, hfirst, if_pos (by omega)]
        rfl
      · have hnext : satAdd u64Max (before t.entries c) (t.chunks c * t.perChunk c) =
            before t.entries (c + 1) := by
          rw [satAdd]
          omega
        rw [if_neg h, hnext, if_neg (fun hboth => h hboth.1)]
        exact ih (by omega) (not_lt.mp h)

theorem exists_start (t : SampleToChunk) (hn : n < u32Max) :
    ∃ c ≤ t.runs.len, ∃ value, before t.entries c ≤ n ∧
      t.index.checkpointForSample n = ⟨c, before t.entries c, value⟩ := by
  rcases RunIndex.exists_start t.summarises (fun i => (t.chunks i * t.perChunk i, i))
    (by decide) (fun i => rfl) hn with ⟨c, hc, hle, hpoint⟩
  exact ⟨c, hc, _, hle, hpoint⟩

/-- A sample is located in its chunk of the run that covers it. -/
theorem locate_covers (hn : n < u32Max) {r : Nat} (hr : r < t.runs.len)
    (h : Covers (before t.entries) n r) : t.locate n = some (t.locationIn n r) := by
  rcases t.exists_start hn with ⟨c, hc, value, hle, hpoint⟩
  have hcr := h.le_of_start (before_mono _) hle
  rw [locate, hpoint]
  dsimp only
  rw [locateFrom_eq hn (by omega) hle, findRun_of_covers (before_mono _) h hcr (by omega)]
  rfl

theorem locate_past (hn : n < u32Max) (h : before t.entries t.runs.len ≤ n) :
    t.locate n = none := by
  rcases t.exists_start hn with ⟨c, hc, value, hle, hpoint⟩
  rw [locate, hpoint]
  dsimp only
  rw [locateFrom_eq hn (by omega) hle,
    findRun_of_le (before_mono _) (by rwa [Nat.add_sub_of_le hc])]
  rfl

theorem exists_covers_of_locate (hn : n < u32Max) {loc : ChunkLocation}
    (h : t.locate n = some loc) :
    ∃ r < t.runs.len, Covers (before t.entries) n r ∧ loc = t.locationIn n r := by
  have hlt : n < before t.entries t.runs.len := by
    by_contra hge
    rw [locate_past hn (not_lt.mp hge)] at h
    cases h
  rcases exists_covers (a := 0) (by rw [before_zero]; exact Nat.zero_le n) hlt (Nat.zero_le _)
    with ⟨r, -, hr, hcovers⟩
  rw [locate_covers hn hr hcovers] at h
  exact ⟨r, hr, hcovers, (Option.some.inj h).symm⟩

/-! ### The order of chunks -/

theorem pairwise_of_checkFirstChunks {p : Nat} {l : List Nat}
    (h : checkFirstChunks (some p) l = .ok ()) : (p :: l).Pairwise (· < ·) := by
  induction l generalizing p with
  | nil => exact List.pairwise_singleton _ _
  | cons first rest ih =>
      rw [checkFirstChunks] at h
      split at h
      · cases h
      · rename_i hlt
        have hrest := ih h
        refine List.Pairwise.cons ?_ hrest
        intro x hx
        rcases List.mem_cons.mp hx with rfl | hmem
        · exact not_le.mp hlt
        · exact (not_le.mp hlt).trans (List.rel_of_pairwise_cons hrest hmem)

theorem firstChunks_spec (t : SampleToChunk) :
    (firstChunks t.runs).Pairwise (· < ·) ∧ ∀ x ∈ firstChunks t.runs, 0 < x := by
  have h := t.checked
  cases hlist : firstChunks t.runs with
  | nil =>
      refine ⟨List.Pairwise.nil, ?_⟩
      intro x hx
      cases hx
  | cons first rest =>
      rw [hlist, checkFirstChunks] at h
      split at h
      · cases h
      · rename_i hone
        have hsorted := pairwise_of_checkFirstChunks h
        refine ⟨hsorted, ?_⟩
        intro x hx
        rcases List.mem_cons.mp hx with rfl | hmem
        · omega
        · exact Nat.zero_lt_of_lt (List.rel_of_pairwise_cons hsorted hmem)

theorem getElem?_firstChunks {i : Nat} (hi : i < t.runs.len) :
    (firstChunks t.runs)[i]? = some (t.first i) := by
  rcases @EntryTable.exists_getU32 _ _ 0 hi (by rw [t.stride_eq]; decide) with ⟨v, hv, -⟩
  rw [firstChunks, List.getElem?_map, List.getElem?_range hi, Option.map_some, first, hv]
  rfl

theorem first_pos {i : Nat} (hi : i < t.runs.len) : 0 < t.first i :=
  t.firstChunks_spec.2 _ (List.mem_of_getElem? (getElem?_firstChunks hi))

theorem first_lt_first {i j : Nat} (hij : i < j) (hj : j < t.runs.len) : t.first i < t.first j := by
  have hlen : (firstChunks t.runs).length = t.runs.len := by
    rw [firstChunks, List.length_map, List.length_range]
  have hsorted := List.pairwise_iff_getElem.mp t.firstChunks_spec.1 i j (by omega) (by omega) hij
  have hi' := getElem?_firstChunks (t := t) (hij.trans hj)
  have hj' := getElem?_firstChunks (t := t) hj
  rw [List.getElem?_eq_getElem (by omega)] at hi' hj'
  rw [← Option.some.inj hi', ← Option.some.inj hj']
  exact hsorted

theorem first_add_chunks_le_first {i j : Nat} (hij : i < j) (hj : j < t.runs.len) :
    t.first i + t.chunks i ≤ t.first j := by
  have hnext : i + 1 < t.runs.len := by omega
  have hlt := first_lt_first (t := t) (show i < i + 1 by omega) hnext
  have hchunks : t.chunks i = t.first (i + 1) - t.first i := by
    rcases @EntryTable.exists_getU32 _ _ 0 hnext (by rw [t.stride_eq]; decide) with ⟨v, hv, -⟩
    rw [chunks, runChunks, chunksOfRun, if_pos hnext, first, first, hv]
    rfl
  rcases Nat.eq_or_lt_of_le (show i + 1 ≤ j from hij) with heq | hlt'
  · rw [hchunks, ← heq]
    omega
  · have hlater := first_lt_first (t := t) hlt' hj
    rw [hchunks]
    omega

theorem locationIn_eq_of_mem {m r : Nat} (hr : r < t.runs.len)
    (h : Covers (before t.entries) n r) (hm : (t.locationIn n r).firstSample ≤ m)
    (hm' : m < (t.locationIn n r).firstSample + t.perChunk r) :
    Covers (before t.entries) m r ∧ t.locationIn m r = t.locationIn n r := by
  rcases chunk_lt_of_covers hr h with ⟨hpos, hchunk⟩
  have hstart := before_succ (getElem?_entries hr)
  dsimp only [locationIn] at hm hm' hstart
  have hlast : ((n - before t.entries r) / t.perChunk r + 1) * t.perChunk r ≤
      t.chunks r * t.perChunk r := Nat.mul_le_mul_right _ hchunk
  rw [Nat.add_mul, Nat.one_mul] at hlast
  have hquot : (m - before t.entries r) / t.perChunk r =
      (n - before t.entries r) / t.perChunk r := by
    rw [Nat.div_eq_iff hpos]
    constructor
    · omega
    · omega
  refine ⟨⟨by omega, by omega⟩, ?_⟩
  rw [locationIn, locationIn, hquot]

theorem firstSample_le {r : Nat} (hr : r < t.runs.len) (h : Covers (before t.entries) n r) :
    (t.locationIn n r).firstSample ≤ n ∧ n < (t.locationIn n r).firstSample + t.perChunk r := by
  rcases chunk_lt_of_covers hr h with ⟨hpos, -⟩
  have hback := Nat.div_mul_le_self (n - before t.entries r) (t.perChunk r)
  have hlt := Nat.lt_div_mul_add (a := n - before t.entries r) hpos
  have hle := h.1
  dsimp only [locationIn]
  omega

/-- Chunk numbers do not decrease along the samples. -/
theorem chunk_le_chunk {m r' r : Nat} (hmn : m ≤ n) (hr' : r' < t.runs.len) (hr : r < t.runs.len)
    (hm : Covers (before t.entries) m r') (hn : Covers (before t.entries) n r) :
    (t.locationIn m r').chunk ≤ (t.locationIn n r).chunk ∧
      ((t.locationIn m r').chunk = (t.locationIn n r).chunk →
        (t.locationIn n r).firstSample ≤ m) := by
  rcases chunk_lt_of_covers hr' hm with ⟨hpos', hchunk'⟩
  have hle : r' ≤ r := hn.le_of_start (before_mono _) (hm.1.trans hmn)
  rcases Nat.eq_or_lt_of_le hle with rfl | hlt
  · have hdiv := Nat.div_le_div_right (c := t.perChunk r') (Nat.sub_le_sub_right hmn
      (before t.entries r'))
    have hback := Nat.div_mul_le_self (m - before t.entries r') (t.perChunk r')
    have hstart := hm.1
    dsimp only [locationIn]
    refine ⟨by omega, ?_⟩
    intro heq
    rw [show (n - before t.entries r') / t.perChunk r' =
      (m - before t.entries r') / t.perChunk r' by omega]
    omega
  · have horder := first_add_chunks_le_first hlt hr
    have hfirst := Nat.le_add_right (t.first r) ((n - before t.entries r) / t.perChunk r)
    dsimp only [locationIn]
    refine ⟨by omega, ?_⟩
    intro heq
    omega

/-! ### Located samples -/

variable {m : Nat} {loc loc' : ChunkLocation}

theorem mem_of_locate (hn : n < u32Max) (h : t.locate n = some loc) :
    loc.firstSample ≤ n ∧ n < loc.firstSample + loc.samplesPerChunk := by
  rcases exists_covers_of_locate hn h with ⟨r, hr, hcovers, rfl⟩
  exact firstSample_le hr hcovers

theorem locate_of_mem (hn : n < u32Max) (h : t.locate n = some loc) (hm : m < u32Max)
    (hle : loc.firstSample ≤ m) (hlt : m < loc.firstSample + loc.samplesPerChunk) :
    t.locate m = some loc := by
  rcases exists_covers_of_locate hn h with ⟨r, hr, hcovers, rfl⟩
  rcases locationIn_eq_of_mem hr hcovers hle hlt with ⟨hcovers', heq⟩
  rw [locate_covers hm hr hcovers', heq]

theorem firstSample_of_locate_end (hn : n < u32Max) (h : t.locate n = some loc)
    (hm : loc.firstSample + loc.samplesPerChunk < u32Max)
    (h' : t.locate (loc.firstSample + loc.samplesPerChunk) = some loc') :
    loc'.firstSample = loc.firstSample + loc.samplesPerChunk := by
  have hmem := mem_of_locate hn h
  have hmem' := mem_of_locate hm h'
  by_contra hne
  have hlast : loc.firstSample + loc.samplesPerChunk - 1 < u32Max := by omega
  have hsame := locate_of_mem hn h hlast (by omega) (by omega)
  have hsame' := locate_of_mem hm h' hlast (by omega) (by omega)
  rw [hsame] at hsame'
  rw [Option.some.inj hsame'] at hmem'
  omega

theorem locate_none_of_le (hm : m < u32Max) (hnm : n ≤ m) (h : t.locate n = none) :
    t.locate m = none := by
  apply locate_past hm
  by_contra hlt
  have hn : n < u32Max := by omega
  rcases exists_covers (a := 0) (by rw [before_zero]; exact Nat.zero_le n)
    (hnm.trans_lt (not_le.mp hlt)) (Nat.zero_le _) with ⟨r, -, hr, hcovers⟩
  rw [locate_covers hn hr hcovers] at h
  cases h

theorem chunk_le_of_locate (hm : m < u32Max) (hnm : n ≤ m) (h : t.locate n = some loc)
    (h' : t.locate m = some loc') : 0 < loc.chunk ∧ loc.chunk ≤ loc'.chunk := by
  rcases exists_covers_of_locate (hnm.trans_lt hm) h with ⟨r, hr, hcovers, rfl⟩
  rcases exists_covers_of_locate hm h' with ⟨r', hr', hcovers', rfl⟩
  refine ⟨?_, (chunk_le_chunk hnm hr hr' hcovers hcovers').1⟩
  exact (first_pos hr).trans_le (Nat.le_add_right _ _)

end SampleToChunk

/-- A chunk past the end of the offset table leaves every later chunk past it. -/
theorem ChunkOffsets.offset_none_of_le {t : ChunkOffsets} {chunk chunk' : Nat} (hpos : 0 < chunk)
    (hle : chunk ≤ chunk') (h : t.offset chunk = none) : t.offset chunk' = none := by
  have hstride := t.stride_eq
  have hlen : t.table.len ≤ chunk - 1 := by
    by_contra hlt
    rw [offset, if_neg (by omega)] at h
    cases hwide : t.wide with
    | true =>
        rw [hwide, if_pos rfl] at h hstride
        rcases @EntryTable.exists_getWord _ 8 _ 0 (not_le.mp hlt) (by omega) with
          ⟨v, hv, -⟩
        rw [EntryTable.getU64, hv] at h
        cases h
    | false =>
        rw [hwide, if_neg Bool.false_ne_true] at h hstride
        rcases @EntryTable.exists_getWord _ 4 _ 0 (not_le.mp hlt) (by omega) with
          ⟨v, hv, -⟩
        rw [EntryTable.getU32, hv] at h
        cases h
  rw [offset, if_neg (by omega), EntryTable.getU64, EntryTable.getU32,
    EntryTable.getWord_of_le (by omega), EntryTable.getWord_of_le (by omega), ite_self]

/-! ## Sample sizes -/

namespace SampleSizes

variable {t : SampleSizes} {n : Nat}

/-- Total bytes of the first `n` samples, exactly. -/
def bytesBefore (t : SampleSizes) (n : Nat) : Nat :=
  ((List.range n).map fun i => t.storage.readAt i t.count).sum

@[simp]
theorem bytesBefore_zero (t : SampleSizes) : t.bytesBefore 0 = 0 :=
  rfl

theorem bytesBefore_succ (t : SampleSizes) (n : Nat) :
    t.bytesBefore (n + 1) = t.bytesBefore n + t.storage.readAt n t.count := by
  rw [bytesBefore, List.range_succ, List.map_append, List.sum_append, List.map_singleton,
    List.sum_singleton]
  rfl

theorem bytesBefore_mono (t : SampleSizes) : Monotone t.bytesBefore := by
  apply monotone_nat_of_le_succ
  intro n
  rw [bytesBefore_succ]
  exact Nat.le_add_right _ _

theorem bytesBefore_le (t : SampleSizes) (n : Nat) : t.bytesBefore n ≤ n * u32Max := by
  induction n with
  | zero => exact Nat.zero_le _
  | succ n ih =>
      have hsize := t.size_le n
      rw [bytesBefore_succ, Nat.succ_mul]
      omega

theorem bytesBefore_lt (t : SampleSizes) (hn : n ≤ t.count) : t.bytesBefore n < u64Max := by
  have hle := t.bytesBefore_le n
  have hprod := Nat.mul_le_mul_right u32Max (hn.trans t.count_le)
  exact (hle.trans hprod).trans_lt (by decide)

theorem addSizes_eq {total start : Nat} (hle : start ≤ n)
    (h : total + (t.bytesBefore n - t.bytesBefore start) ≤ u64Max) :
    t.addSizes total start n = total + (t.bytesBefore n - t.bytesBefore start) := by
  induction n, hle using Nat.le_induction with
  | base => rw [addSizes, Nat.sub_self, Nat.sub_self]; rfl
  | succ n hle ih =>
      have hmono := t.bytesBefore_mono hle
      rw [bytesBefore_succ] at h ⊢
      have hlast := ih (by omega)
      rw [addSizes] at hlast
      rw [addSizes, Nat.succ_sub hle, List.range'_concat, List.foldl_append, hlast,
        Nat.one_mul, Nat.add_sub_of_le hle, List.foldl_cons, List.foldl_nil,
        satAdd_of_le (by omega)]
      omega

def checkpointBefore (t : SampleSizes) (n : Nat) : Nat :=
  n / decimationStride t.count * decimationStride t.count

theorem checkpointBefore_le (t : SampleSizes) (n : Nat) : t.checkpointBefore n ≤ n :=
  Nat.div_mul_le_self _ _

theorem checkpointBefore_mono (t : SampleSizes) : Monotone t.checkpointBefore :=
  fun _ _ h => Nat.mul_le_mul_right _ (Nat.div_le_div_right h)

/-- Bytes that the checkpoint of a sample lost to saturation: what stands before it beyond the
greatest `i64`. -/
def shortfall (t : SampleSizes) (n : Nat) : Nat :=
  if t.storage.isUniform then 0 else t.bytesBefore (t.checkpointBefore n) - i64Max

theorem shortfall_mono (t : SampleSizes) : Monotone t.shortfall := by
  intro m n h
  rw [shortfall, shortfall]
  split
  · exact le_rfl
  · exact Nat.sub_le_sub_right (t.bytesBefore_mono (t.checkpointBefore_mono h)) _

theorem shortfall_eq_zero (h : t.bytesBefore t.count ≤ i64Max) (hn : n ≤ t.count) :
    t.shortfall n = 0 := by
  have hmono := t.bytesBefore_mono ((t.checkpointBefore_le n).trans hn)
  rw [shortfall]
  split
  · rfl
  · omega

/-- The checkpoint for a sample of a table whose sizes vary. -/
theorem checkpoint_eq (hn : n < t.count) :
    (RunIndex.build t.count fun i => (1, t.storage.readAt i t.count)).checkpointForSample n =
      ⟨t.checkpointBefore n, t.checkpointBefore n,
        min (t.bytesBefore (t.checkpointBefore n)) i64Max⟩ := by
  have hentries : ∀ i ≤ t.count,
      before (entryList t.count fun i => (1, t.storage.readAt i t.count)) i = i ∧
      weight (entryList t.count fun i => (1, t.storage.readAt i t.count)) i =
        t.bytesBefore i := by
    intro i hi
    rw [before, weight, entryList, ← List.map_take, List.take_range, Nat.min_eq_left hi,
      List.map_map, List.map_map, bytesBefore]
    constructor
    · simp [Function.comp_def]
    · simp [Function.comp_def]
  have hcount := t.count_le
  have hsamples : ∀ i ≤ t.count,
      (RunIndex.point (fun i => (1, t.storage.readAt i t.count)) i).samples = i := by
    intro i hi
    induction i with
    | zero => rfl
    | succ i ih =>
        have hstep : (RunIndex.point (fun i => (1, t.storage.readAt i t.count)) (i + 1)).samples =
            satAdd u64Max
              (RunIndex.point (fun i => (1, t.storage.readAt i t.count)) i).samples 1 := rfl
        rw [hstep, ih (by omega), satAdd_of_le (hi.trans (hcount.trans (by decide)))]
  rcases RunIndex.exists_checkpoint
      (RunIndex.build_summarises t.count fun i => (1, t.storage.readAt i t.count)) n with
    ⟨c, hpoint, hlt, hle, hkept, hmax⟩
  rw [RunIndex.build_stride] at hkept hmax
  have hc : c ≤ t.count := by omega
  rw [hsamples c hc] at hle
  have hlast : c = t.checkpointBefore n := by
    apply Nat.le_antisymm
    · rw [checkpointBefore]
      have hdiv := Nat.div_le_div_right (c := decimationStride t.count) hle
      have hmul := Nat.div_mul_cancel (Nat.dvd_of_mod_eq_zero hkept)
      have hprod := Nat.mul_le_mul_right (decimationStride t.count) hdiv
      omega
    · have hbound := t.checkpointBefore_le n
      apply hmax
      · omega
      · exact Nat.mul_mod_left _ _
      · rwa [hsamples _ (by omega)]
  rw [hpoint, ← hlast]
  refine Checkpoint.ext (RunIndex.point_run _ _) (hsamples c hc) ?_
  rw [RunIndex.point_value_eq hc, (hentries c hc).2]

theorem cumulative_of_varying (hn : n ≤ t.count) (h : t.storage.isUniform = false) :
    t.cumulative n =
      t.addSizes
        ((RunIndex.build t.count fun i => (1, t.storage.readAt i t.count)).checkpointForSample
          n).value
        (min ((RunIndex.build t.count fun i =>
          (1, t.storage.readAt i t.count)).checkpointForSample n).samples u32Max) n := by
  have hsums := t.prefixSums_eq
  rw [h, if_neg Bool.false_ne_true] at hsums
  unfold cumulative
  rw [Nat.min_eq_left hn, hsums]
  cases hstorage : t.storage with
  | uniform s =>
      rw [hstorage] at h
      cases h
  | _ => rfl

theorem cumulative_of_uniform (hn : n ≤ t.count) {s : Nat} (h : t.storage = .uniform s) :
    t.cumulative n = t.bytesBefore n := by
  have hfits := t.bytesBefore_lt hn
  have hprod : ∀ i ≤ t.count, t.bytesBefore i = i * s := by
    intro i hi
    induction i with
    | zero => rw [bytesBefore_zero, Nat.zero_mul]
    | succ i ih =>
        have hsize : t.storage.readAt i t.count = s := by
          rw [h, SizeStorage.readAt.eq_def, if_neg (by omega)]
        rw [bytesBefore_succ, ih (by omega), hsize, Nat.succ_mul]
  rw [hprod n hn] at hfits ⊢
  unfold cumulative
  rw [Nat.min_eq_left hn, h]
  exact Nat.min_eq_left (Nat.le_of_lt hfits)

/-- The running byte count is exact but for what its checkpoint lost. -/
theorem cumulative_add_shortfall (hn : n < t.count) :
    t.cumulative n + t.shortfall n = t.bytesBefore n := by
  cases hstorage : t.storage.isUniform with
  | true =>
      rw [shortfall, hstorage, if_pos rfl, Nat.add_zero]
      cases h : t.storage with
      | uniform s => exact cumulative_of_uniform (Nat.le_of_lt hn) h
      | _ =>
          rw [h] at hstorage
          cases hstorage
  | false =>
      have hfits := t.bytesBefore_lt (Nat.le_of_lt hn)
      have hmono := t.bytesBefore_mono (t.checkpointBefore_le n)
      have hback := t.checkpointBefore_le n
      have hcount := t.count_le
      rw [cumulative_of_varying (Nat.le_of_lt hn) hstorage, checkpoint_eq hn, shortfall, hstorage,
        if_neg Bool.false_ne_true]
      dsimp only
      rw [Nat.min_eq_left (show t.checkpointBefore n ≤ u32Max by omega),
        addSizes_eq hback (by omega)]
      omega

theorem cumulative_eq_sub (hn : n < t.count) :
    t.cumulative n = t.bytesBefore n - t.shortfall n := by
  rw [← cumulative_add_shortfall hn, Nat.add_sub_cancel]

theorem shortfall_le (hn : n < t.count) : t.shortfall n ≤ t.bytesBefore n := by
  rw [← cumulative_add_shortfall hn]
  exact Nat.le_add_left _ _

/-- Where all samples together stay within the greatest `i64` the count is exact. -/
theorem cumulative_eq (h : t.bytesBefore t.count ≤ i64Max) (hn : n < t.count) :
    t.cumulative n = t.bytesBefore n := by
  rw [← cumulative_add_shortfall hn, shortfall_eq_zero h (Nat.le_of_lt hn), Nat.add_zero]

end SampleSizes

/-! ## Sync samples -/

namespace SyncSamples

variable {t : SyncSamples}

/-- The listed sample numbers never decrease. -/
def Ascending (t : SyncSamples) : Prop :=
  ∀ i j, i ≤ j → j < t.table.len → (t.entry i).getD u32Max ≤ (t.entry j).getD u32Max

theorem exists_entry {i : Nat} (hi : i < t.table.len) :
    ∃ v, t.entry i = some v ∧ v ≤ u32Max :=
  EntryTable.exists_getU32 hi (by rw [t.stride_eq])

/-- The bisection separates the entries below a number from the others. -/
theorem bisect_spec (h : t.Ascending) {want lo hi : Nat} (hle : lo ≤ hi)
    (hhi : hi ≤ t.table.len)
    (hlow : ∀ i < lo, (t.entry i).getD u32Max < want)
    (hhigh : ∀ i, hi ≤ i → i < t.table.len → want ≤ (t.entry i).getD u32Max) :
    t.bisect want lo hi ≤ t.table.len ∧
      (∀ i < t.bisect want lo hi, (t.entry i).getD u32Max < want) ∧
      ∀ i, t.bisect want lo hi ≤ i → i < t.table.len →
        want ≤ (t.entry i).getD u32Max := by
  fun_induction bisect t want lo hi with
  | case1 lo hi hlt mid hbelow ih =>
      apply ih (by omega) hhi _ hhigh
      intro i hi'
      exact (h i mid (by omega) (by omega)).trans_lt hbelow
  | case2 lo hi hlt mid hnot ih =>
      apply ih (by omega) (by omega) hlow
      intro i hmid hi'
      exact (not_lt.mp hnot).trans (h mid i hmid hi')
  | case3 lo hi hnot =>
      refine ⟨by omega, hlow, ?_⟩
      intro i hlo hi'
      exact hhigh i (by omega) hi'

/-- The bisection finds exactly the listed samples of an ascending table. -/
theorem contains_iff (h : t.Ascending) (n : Nat) :
    t.contains n = true ↔ ∃ i, t.entry i = some (n + 1) := by
  rcases @bisect_spec t h (n + 1) 0 t.table.len (Nat.zero_le t.table.len) le_rfl
    (fun i hi => absurd hi (Nat.not_lt_zero i))
    (fun i hi hlt => absurd hlt (not_lt.mpr hi)) with ⟨hle, hlow, hhigh⟩
  have hread : ∀ i v, t.entry i = some v → i < t.table.len :=
    fun i v hv => EntryTable.lt_of_getWord hv
  rw [contains]
  split
  · rename_i hbig
    constructor
    · intro hfalse
      cases hfalse
    · rintro ⟨i, hi⟩
      rcases exists_entry (hread i _ hi) with ⟨v, hv, hvle⟩
      rw [hi] at hv
      have heq := Option.some.inj hv
      omega
  · rw [beq_iff_eq]
    constructor
    · intro hfound
      exact ⟨_, hfound⟩
    · rintro ⟨i, hi⟩
      have hi' := hread i _ hi
      have hpos : t.position (n + 1) ≤ i := by
        by_contra hgt
        have hless := hlow i (not_le.mp hgt)
        rw [hi, Option.getD_some] at hless
        omega
      have hat := hhigh _ le_rfl (hpos.trans_lt hi')
      have hback := h _ i hpos hi'
      rcases exists_entry (hpos.trans_lt hi') with ⟨v, hv, -⟩
      rw [hi, Option.getD_some] at hback
      rw [position] at hv hback ⊢
      rw [hv, Option.getD_some] at hat hback
      rw [hv]
      congr 1
      omega

end SyncSamples

end Isom
end Vaco
