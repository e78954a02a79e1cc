import Vaco.Isom.TableLookup

/-!
# The sequential cursor against random access

The cursor carries the run of the time table, the chunk and the running byte offset of its
sample and steps them forward; random access looks everything up again.  The cursor adds
sizes exactly, while random access takes the difference of two running sums that saturate at
the greatest `i64`.

Main results:

- `TimeToSample.advanceTo_eq`: a carried time position steps to the looked-up one.
- `collect_eq`: the cursor yields the samples that running sums place.
- `cursor_eq_access_iff`: the cursor yields exactly what random access resolves where no sample's
  chunk crosses a loss of the saturated sums.
- `cursor_ne_access`: it does not for a table of sizes beyond that limit.

Current gaps:

- Calls of `next` behind the end of the iteration are not modelled.
-/

namespace Vaco
namespace Isom

open Library BitStream ByteWords RunLength

/-! ## Carried time positions -/

namespace TimeToSample

def advanceFrom (t : TimeToSample) (n : Nat) : Nat → TimePosition → TimePosition
  | 0, pos =>
      if n < satAdd u64Max pos.firstSample pos.count then pos else t.seekRun n
  | left + 1, pos =>
      if n < satAdd u64Max pos.firstSample pos.count then pos
      else
        match t.run pos.run with
        | none => t.seekRun n
        | some (count, delta) =>
            let dts := satAdd i64Max pos.dts (min (count * delta) i64Max)
            let firstSample := satAdd u64Max pos.firstSample count
            match t.run (pos.run + 1) with
            | none =>
                { run := pos.run + 1
                  firstSample := firstSample
                  dts := dts
                  count := u64Max
                  delta := t.lastDelta }
            | some (c, d) =>
                t.advanceFrom n left
                  { run := pos.run + 1
                    firstSample := firstSample
                    dts := dts
                    count := c
                    delta := d }

/-- Move a carried position forward to cover sample `n`. -/
def advanceTo (t : TimeToSample) (pos : TimePosition) (n : Nat) : TimePosition :=
  t.advanceFrom n (t.runs.len - pos.run) pos

variable {t : TimeToSample} {n : Nat}

/-- The synthetic run starts where the last run ends. -/
theorem tail_eq (hn : n < u64Max) (h : before t.entries t.runs.len ≤ n) :
    t.tail t.runs.len =
      { run := t.runs.len
        firstSample := before t.entries t.runs.len
        dts := min (weight t.entries t.runs.len) i64Max
        count := u64Max
        delta := t.lastDelta } := by
  have hsamples : ∀ i ≤ t.runs.len,
      (RunIndex.point (pairEntry t.runs) i).samples = before t.entries i := by
    intro i hi
    induction i with
    | zero => exact (before_zero _).symm
    | succ i ih =>
        have hstep : (RunIndex.point (pairEntry t.runs) (i + 1)).samples =
            satAdd u64Max (RunIndex.point (pairEntry t.runs) i).samples
              (pairEntry t.runs i).1 := rfl
        have hstart := before_succ (getElem?_entries hi)
        have hmono : before t.entries (i + 1) ≤ before t.entries t.runs.len :=
          before_mono _ hi
        rw [hstep, ih (by omega), satAdd_of_le (by omega), hstart]
  rw [tail, t.summarises.totalSamples_eq, t.summarises.totalValue_eq, hsamples _ le_rfl,
    RunIndex.point_value_eq le_rfl]
  rfl

/-- A position at the start of a run steps to the run that covers a later sample. -/
theorem advanceFrom_eq (hn : n < u64Max) {left r : Nat} (hr : r < t.runs.len)
    (hleft : r + left = t.runs.len) (hle : before t.entries r ≤ n) :
    t.advanceFrom n left (t.position r) = t.seekRun n := by
  induction left generalizing r with
  | zero => omega
  | succ left ih =>
      have hstart := before_succ (getElem?_entries hr)
      have hvalue := weight_succ (getElem?_entries hr)
      have hpos : (t.position r).firstSample = before t.entries r ∧
          (t.position r).count = (pairEntry t.runs r).1 ∧ (t.position r).run = r ∧
          (t.position r).dts = min (weight t.entries r) i64Max := ⟨rfl, rfl, rfl, rfl⟩
      rcases hpos with ⟨hfirst, hcount, hrun, hdts⟩
      rw [advanceFrom, hfirst, hcount, hrun, hdts, run_eq hr]
      by_cases h : n < before t.entries (r + 1)
      · rw [if_pos (by rw [satAdd]; omega), seekRun_covers hn hr ⟨hle, h⟩]
      · have hnext : satAdd u64Max (before t.entries r) (pairEntry t.runs r).1 =
            before t.entries (r + 1) := by
          rw [satAdd]
          omega
        have hsum : satAdd i64Max (min (weight t.entries r) i64Max)
            (min ((pairEntry t.runs r).1 * (pairEntry t.runs r).2) i64Max) =
            min (weight t.entries (r + 1)) i64Max := by
          rw [satAdd, hvalue]
          omega
        rw [hnext, if_neg h]
        dsimp only
        rw [hsum, hnext]
        by_cases hlast : r + 1 < t.runs.len
        · rw [run_eq hlast]
          exact ih hlast (by omega) (not_lt.mp h)
        · have hend : r + 1 = t.runs.len := by omega
          have hpast : before t.entries t.runs.len ≤ n := by
            rw [← hend]
            exact not_lt.mp h
          rw [run_of_le (by omega), seekRun_past hn hpast, tail_eq hn hpast, hend]

/-- A position looked up for an earlier sample steps to the looked-up one. -/
theorem advanceTo_eq (hn : n < u64Max) {m : Nat} (hmn : m ≤ n) :
    t.advanceTo (t.seekRun m) n = t.seekRun n := by
  by_cases h : m < before t.entries t.runs.len
  · rcases exists_covers (a := 0) (by rw [before_zero]; exact Nat.zero_le m) h (Nat.zero_le _)
      with ⟨r, -, hr, hcovers⟩
    rw [seekRun_covers (by omega) hr hcovers, advanceTo]
    exact advanceFrom_eq hn hr (Nat.add_sub_of_le (Nat.le_of_lt hr)) (hcovers.1.trans hmn)
  · have hpast := not_lt.mp h
    have hinside : n < satAdd u64Max (before t.entries t.runs.len) u64Max := by
      rw [satAdd]
      omega
    rw [seekRun_past (hmn.trans_lt hn) hpast, seekRun_past hn (hpast.trans hmn), advanceTo,
      tail_eq hn (hpast.trans hmn)]
    dsimp only
    rw [Nat.sub_self, advanceFrom]
    exact if_pos hinside

end TimeToSample

/-! ## The cursor -/

/-- The state of a cursor over a table. -/
structure SampleCursor where
  index : Nat
  loc : Option ChunkLocation
  within : Nat
  time : TimePosition

/-- What one pass of the loop of `next` does. -/
inductive Pass where
  | stop
  | yield (s : Sample) (c : SampleCursor)
  | skip (c : SampleCursor)

namespace SampleTable

/-- A cursor positioned at sample `n`. -/
def cursorAt (t : SampleTable) (n : Nat) : SampleCursor :=
  { index := n
    loc := t.sampleToChunk.locate n
    within :=
      match t.sampleToChunk.locate n with
      | some loc =>
          if loc.firstSample ≤ u32Max then
            t.sampleSizes.cumulative n - t.sampleSizes.cumulative loc.firstSample
          else 0
      | none => 0
    time := t.timeToSample.seekRun n }

/-- The cursor behind a sample whether or not it resolved: in the same chunk, or at the first
sample of the next. -/
def stepOver (t : SampleTable) (c : SampleCursor) (loc : ChunkLocation) (size : Nat)
    (time : TimePosition) : SampleCursor :=
  let index := satAdd u32Max c.index 1
  if loc.samplesPerChunk ≤ index - loc.firstSample then
    { index := index
      loc := t.sampleToChunk.locate index
      within := 0
      time := time }
  else
    { index := index
      loc := some loc
      within := satAdd u64Max c.within size
      time := time }

/-- The cursor behind the chunk of a sample that did not resolve. -/
def stepOut (t : SampleTable) (c : SampleCursor) (loc : ChunkLocation) : SampleCursor :=
  let start := satAdd u64Max loc.firstSample loc.samplesPerChunk
  if c.index < start then
    { index := if start ≤ u32Max then start else u32Max
      loc := t.sampleToChunk.locate (if start ≤ u32Max then start else u32Max)
      within := 0
      time := c.time }
  else c

def resolved (t : SampleTable) (n offset : Nat) (loc : ChunkLocation) (time : TimePosition) :
    Sample :=
  { index := n
    offset := offset
    size := t.sampleSizes.storage.readAt n t.sampleCount
    dts := (time.at n).1
    ctsOffset := t.ctsOffset n
    duration := (time.at n).2
    isSync := t.isSync n
    chunk := loc.chunk
    descriptionIndex := loc.descriptionIndex }

/-- One pass of the loop of `next`. -/
def pass (t : SampleTable) (c : SampleCursor) : Pass :=
  match t.sampleSizes.size c.index, c.loc with
  | none, _ => .stop
  | some _, none => .stop
  | some size, some loc =>
      let time := t.timeToSample.advanceTo c.time c.index
      match t.chunkOffsets.offset loc.chunk with
      | none => .stop
      | some base =>
          match checkedAdd base c.within with
          | some offset =>
              .yield (t.resolved c.index offset loc time) (t.stepOver c loc size time)
          | none => .skip (t.stepOut (t.stepOver c loc size time) loc)

variable {t : SampleTable} {k n : Nat} {c c' : SampleCursor} {loc : ChunkLocation}

theorem stepOver_index (h : c.index < u32Max) (loc : ChunkLocation) (size : Nat)
    (time : TimePosition) : (t.stepOver c loc size time).index = c.index + 1 := by
  simp only [stepOver, satAdd_of_le (show c.index + 1 ≤ u32Max by omega)]
  split
  · rfl
  · rfl

theorem index_le_stepOut (h : c.index ≤ u32Max) (loc : ChunkLocation) :
    c.index ≤ (t.stepOut c loc).index := by
  simp only [stepOut]
  split
  · dsimp only
    split
    · omega
    · exact h
  · exact le_rfl

theorem size_of_lt (h : n < t.sampleCount) :
    t.sampleSizes.size n = some (t.sampleSizes.storage.readAt n t.sampleCount) :=
  if_neg (not_le.mpr h)

theorem size_of_le (h : t.sampleCount ≤ n) : t.sampleSizes.size n = none :=
  if_pos h

theorem stepOut_index_le (h : c.index ≤ loc.firstSample + loc.samplesPerChunk) :
    (t.stepOut c loc).index ≤ loc.firstSample + loc.samplesPerChunk := by
  have hstart : satAdd u64Max loc.firstSample loc.samplesPerChunk ≤
      loc.firstSample + loc.samplesPerChunk := Nat.min_le_left _ _
  simp only [stepOut]
  split
  · dsimp only
    split
    · exact hstart
    · omega
  · exact h

/-- A pass stops, yields a sample whose offset fits, or skips one whose offset does not. -/
theorem pass_cases (t : SampleTable) (c : SampleCursor) :
    (t.pass c = .stop ∧ (t.sampleCount ≤ c.index ∨ c.loc = none ∨
      ∃ loc, c.loc = some loc ∧ t.chunkOffsets.offset loc.chunk = none)) ∨
    ∃ loc base, c.index < t.sampleCount ∧ c.loc = some loc ∧
      t.chunkOffsets.offset loc.chunk = some base ∧
      ((∃ offset, checkedAdd base c.within = some offset ∧
        t.pass c = .yield
          (t.resolved c.index offset loc (t.timeToSample.advanceTo c.time c.index))
          (t.stepOver c loc (t.sampleSizes.storage.readAt c.index t.sampleCount)
            (t.timeToSample.advanceTo c.time c.index))) ∨
      checkedAdd base c.within = none ∧
        t.pass c = .skip
          (t.stepOut (t.stepOver c loc (t.sampleSizes.storage.readAt c.index t.sampleCount)
            (t.timeToSample.advanceTo c.time c.index)) loc)) := by
  unfold pass
  rcases Nat.lt_or_ge c.index t.sampleCount with hlt | hge
  · rw [size_of_lt hlt]
    cases hloc : c.loc with
    | none => exact Or.inl ⟨rfl, Or.inr (Or.inl rfl)⟩
    | some loc =>
        dsimp only
        cases hbase : t.chunkOffsets.offset loc.chunk with
        | none => exact Or.inl ⟨rfl, Or.inr (Or.inr ⟨loc, rfl, hbase⟩)⟩
        | some base =>
            refine Or.inr ⟨loc, base, hlt, rfl, hbase, ?_⟩
            dsimp only
            cases hadd : checkedAdd base c.within with
            | none => exact Or.inr ⟨rfl, rfl⟩
            | some offset => exact Or.inl ⟨offset, rfl, rfl⟩
  · rw [size_of_le hge]
    exact Or.inl ⟨rfl, Or.inl hge⟩

/-- A pass that goes on stood at a sample and leaves it behind. -/
theorem index_lt_of_pass (h : (∃ s, t.pass c = .yield s c') ∨ t.pass c = .skip c') :
    c.index < t.sampleCount ∧ c.index < c'.index := by
  rcases pass_cases t c with ⟨hstop, -⟩ | ⟨loc, base, hlt, -, -, hgo⟩
  · rw [hstop] at h
    rcases h with ⟨s, hs⟩ | hs
    · cases hs
    · cases hs
  · have hmax : c.index < u32Max := hlt.trans_le t.sampleSizes.count_le
    have hstep := stepOver_index (t := t) hmax loc
      (t.sampleSizes.storage.readAt c.index t.sampleCount)
      (t.timeToSample.advanceTo c.time c.index)
    refine ⟨hlt, ?_⟩
    rcases hgo with ⟨offset, -, hpass⟩ | ⟨-, hpass⟩
    · rw [hpass] at h
      rcases h with ⟨s, hs⟩ | hs
      · rw [← (Pass.yield.inj hs).2]
        omega
      · cases hs
    · rw [hpass] at h
      rcases h with ⟨s, hs⟩ | hs
      · cases hs
      · have hout := index_le_stepOut (t := t) (hstep.le.trans hmax) loc
        rw [← Pass.skip.inj hs]
        omega

/-- The next sample of a cursor, and the cursor behind it. -/
def next (t : SampleTable) (c : SampleCursor) : Option (Sample × SampleCursor) :=
  match _h : t.pass c with
  | .stop => none
  | .yield s c' => some (s, c')
  | .skip c' => t.next c'
termination_by t.sampleCount - c.index
decreasing_by
  have hindex := index_lt_of_pass (Or.inr _h)
  omega

theorem index_lt_of_next {s : Sample} (h : t.next c = some (s, c')) :
    c.index < t.sampleCount ∧ c.index < c'.index := by
  fun_induction next t c with
  | case1 c hpass => cases h
  | case2 c s' c'' hpass =>
      rw [Option.some.injEq, Prod.mk.injEq] at h
      rw [← h.2]
      exact index_lt_of_pass (Or.inl ⟨s', hpass⟩)
  | case3 c c'' hpass ih =>
      have hfirst := index_lt_of_pass (Or.inr hpass)
      have hrest := ih h
      omega

/-- All samples that a cursor yields. -/
def collect (t : SampleTable) (c : SampleCursor) : List Sample :=
  match _h : t.next c with
  | none => []
  | some (s, c') => s :: t.collect c'
termination_by t.sampleCount - c.index
decreasing_by
  have hindex := index_lt_of_next _h
  omega

theorem collect_stop (h : t.pass c = .stop) : t.collect c = [] := by
  have hnext : t.next c = none := by
    rw [next]
    split <;> simp_all
  rw [collect]
  split <;> simp_all

theorem collect_yield {s : Sample} (h : t.pass c = .yield s c') :
    t.collect c = s :: t.collect c' := by
  have hnext : t.next c = some (s, c') := by
    rw [next]
    split <;> simp_all
  rw [collect]
  split <;> simp_all

theorem collect_skip (h : t.pass c = .skip c') : t.collect c = t.collect c' := by
  have hnext : t.next c = t.next c' := by
    conv_lhs => rw [next]
    split <;> simp_all
  rw [collect, collect]
  split <;> split <;> simp_all

/-! ## What the cursor yields -/

/-- Bytes from the first sample of a chunk up to sample `n`, saturated up to the cursor's start. -/
def runningBytes (t : SampleTable) (k first n : Nat) : Nat :=
  let bytes := t.sampleSizes.bytesBefore
  let lost := t.sampleSizes.shortfall
  if first ≤ k then (bytes k - lost k - (bytes first - lost first)) + (bytes n - bytes k)
  else bytes n - bytes first

def placed (t : SampleTable) (k n : Nat) : Option Sample :=
  (t.sampleToChunk.locate n).bind fun loc =>
  (t.chunkOffsets.offset loc.chunk).bind fun base =>
  (checkedAdd base (t.runningBytes k loc.firstSample n)).map fun offset =>
    t.resolved n offset loc (t.timeToSample.seekRun n)

theorem runningBytes_le (h : k ≤ n) (first : Nat) :
    t.runningBytes k first n ≤ t.sampleSizes.bytesBefore n := by
  have hmono := t.sampleSizes.bytesBefore_mono h
  simp only [runningBytes]
  split
  · omega
  · omega

theorem runningBytes_add {m first : Nat} (hk : k ≤ n) (hfirst : first ≤ n) (hnm : n ≤ m) :
    t.runningBytes k first m = t.runningBytes k first n +
      (t.sampleSizes.bytesBefore m - t.sampleSizes.bytesBefore n) := by
  have hmono := t.sampleSizes.bytesBefore_mono hk
  have hmono' := t.sampleSizes.bytesBefore_mono hfirst
  have hmono'' := t.sampleSizes.bytesBefore_mono hnm
  simp only [runningBytes]
  split
  · omega
  · omega

theorem runningBytes_first (h : k < n) : t.runningBytes k n n = 0 := by
  simp only [runningBytes]
  rw [if_neg (by omega), Nat.sub_self]

/-- A cursor started at `k` stands at a sample with everything it carries in step. -/
structure Tracks (t : SampleTable) (k : Nat) (c : SampleCursor) : Prop where
  start_le : k ≤ c.index
  time_eq : ∃ m ≤ c.index, c.time = t.timeToSample.seekRun m
  loc_eq : c.index < t.sampleCount → c.loc = t.sampleToChunk.locate c.index
  within_eq : c.index < t.sampleCount → ∀ loc, t.sampleToChunk.locate c.index = some loc →
    c.within = t.runningBytes k loc.firstSample c.index

theorem tracks_cursorAt (t : SampleTable) (k : Nat) : t.Tracks k (t.cursorAt k) where
  start_le := le_rfl
  time_eq := ⟨k, le_rfl, rfl⟩
  loc_eq := fun _ => rfl
  within_eq := by
    intro hk loc hloc
    have hcount : k < t.sampleSizes.count := hk
    have hmax : k < u32Max := hcount.trans_le t.sampleSizes.count_le
    have hmem := SampleToChunk.mem_of_locate hmax hloc
    rw [cursorAt] at *
    dsimp only at *
    rw [hloc]
    dsimp only
    rw [if_pos (by omega), SampleSizes.cumulative_eq_sub hcount,
      SampleSizes.cumulative_eq_sub (hmem.1.trans_lt hcount)]
    simp only [runningBytes]
    rw [if_pos hmem.1, Nat.sub_self, Nat.add_zero]

theorem tracks_first {m n : Nat} (hk : k < n) (hm : m ≤ n)
    (hfirst : n < t.sampleCount → ∀ loc, t.sampleToChunk.locate n = some loc →
      loc.firstSample = n) :
    t.Tracks k
      { index := n
        loc := t.sampleToChunk.locate n
        within := 0
        time := t.timeToSample.seekRun m } where
  start_le := Nat.le_of_lt hk
  time_eq := ⟨m, hm, rfl⟩
  loc_eq := fun _ => rfl
  within_eq := by
    intro hn loc hloc
    dsimp only at hn hloc ⊢
    rw [hfirst hn loc hloc, runningBytes_first hk]

theorem Tracks.time_step (h : t.Tracks k c) (hlt : c.index < t.sampleCount) :
    t.timeToSample.advanceTo c.time c.index = t.timeToSample.seekRun c.index := by
  have hmax : c.index < u32Max := hlt.trans_le t.sampleSizes.count_le
  rcases h.time_eq with ⟨m, hm, heq⟩
  rw [heq]
  exact TimeToSample.advanceTo_eq (hmax.trans (by decide)) hm

/-- A cursor in step stays in step when it leaves a sample. -/
theorem Tracks.stepOver (h : t.Tracks k c) (hlt : c.index < t.sampleCount)
    (hloc : t.sampleToChunk.locate c.index = some loc) :
    t.Tracks k (t.stepOver c loc (t.sampleSizes.storage.readAt c.index t.sampleCount)
      (t.timeToSample.seekRun c.index)) := by
  have hcount : c.index < t.sampleSizes.count := hlt
  have hmax : c.index < u32Max := hcount.trans_le t.sampleSizes.count_le
  have hmem := SampleToChunk.mem_of_locate hmax hloc
  have hstart := h.start_le
  simp only [SampleTable.stepOver, satAdd_of_le (show c.index + 1 ≤ u32Max by omega)]
  split
  · rename_i hend
    have hsum : c.index + 1 = loc.firstSample + loc.samplesPerChunk := by omega
    apply tracks_first
    · omega
    · omega
    · intro hn loc' hloc'
      have hn' : c.index + 1 < u32Max := hn.trans_le t.sampleSizes.count_le
      rw [hsum] at hloc' hn' ⊢
      exact SampleToChunk.firstSample_of_locate_end hmax hloc hn' hloc'
  · rename_i hinside
    have hbytes := t.sampleSizes.bytesBefore_succ c.index
    have hadd := runningBytes_add (t := t) hstart hmem.1 (Nat.le_succ c.index)
    have hsum : t.runningBytes k loc.firstSample c.index +
        t.sampleSizes.storage.readAt c.index t.sampleCount =
        t.runningBytes k loc.firstSample (c.index + 1) := by
      rw [hadd, Nat.succ_eq_add_one, hbytes, Nat.add_sub_cancel_left]
      rfl
    have hfits : t.runningBytes k loc.firstSample (c.index + 1) ≤ u64Max :=
      (runningBytes_le (by omega) _).trans
        (Nat.le_of_lt (t.sampleSizes.bytesBefore_lt (show c.index + 1 ≤ _ by omega)))
    have hsame : c.index + 1 < u32Max → t.sampleToChunk.locate (c.index + 1) = some loc :=
      fun hn => SampleToChunk.locate_of_mem hmax hloc hn (by omega) (by omega)
    refine ⟨by dsimp only; omega, ⟨c.index, by dsimp only; omega, rfl⟩, ?_, ?_⟩
    · intro hn
      exact (hsame (hn.trans_le t.sampleSizes.count_le)).symm
    · intro hn loc' hloc'
      dsimp only at hn hloc' ⊢
      rw [hsame (hn.trans_le t.sampleSizes.count_le)] at hloc'
      rw [← Option.some.inj hloc', h.within_eq hlt loc hloc, satAdd_of_le (by omega), hsum]

/-- A cursor in step stays in step when it leaves a chunk. -/
theorem Tracks.stepOut (h : t.Tracks k c) {n : Nat} (hk : k ≤ n) (hn : c.index = n + 1)
    (hlt : n < t.sampleCount) (htime : c.time = t.timeToSample.seekRun n)
    (hloc : t.sampleToChunk.locate n = some loc) : t.Tracks k (t.stepOut c loc) := by
  have hcaps : u32Max < u64Max := by decide
  have hmax : n < u32Max := hlt.trans_le t.sampleSizes.count_le
  have hmem := SampleToChunk.mem_of_locate hmax hloc
  simp only [SampleTable.stepOut]
  split
  · rename_i hjump
    rw [htime]
    by_cases hfits : satAdd u64Max loc.firstSample loc.samplesPerChunk ≤ u32Max
    · have hsum : satAdd u64Max loc.firstSample loc.samplesPerChunk =
          loc.firstSample + loc.samplesPerChunk := by
        rw [satAdd] at hfits ⊢
        omega
      rw [if_pos hfits, hsum]
      rw [hsum] at hjump
      apply tracks_first
      · omega
      · omega
      · intro hn' loc' hloc'
        exact SampleToChunk.firstSample_of_locate_end hmax hloc
          (hn'.trans_le t.sampleSizes.count_le) hloc'
    · rw [if_neg hfits]
      apply tracks_first
      · omega
      · omega
      · intro hn'
        exact absurd hn' (not_lt.mpr t.sampleSizes.count_le)
  · exact h

theorem placed_none_of_overflow {m base : Nat} (hk : k ≤ n) (hnm : n ≤ m)
    (hm : m < t.sampleCount) (hloc : t.sampleToChunk.locate n = some loc)
    (hbase : t.chunkOffsets.offset loc.chunk = some base)
    (hover : checkedAdd base (t.runningBytes k loc.firstSample n) = none)
    (hend : m < loc.firstSample + loc.samplesPerChunk) : t.placed k m = none := by
  have hmax : m < u32Max := hm.trans_le t.sampleSizes.count_le
  have hmem := SampleToChunk.mem_of_locate (hnm.trans_lt hmax) hloc
  have hadd := runningBytes_add (t := t) hk hmem.1 hnm
  have hover' : checkedAdd base (t.runningBytes k loc.firstSample m) = none := by
    rw [checkedAdd] at hover ⊢
    split at hover
    · cases hover
    · exact if_neg (by omega)
  rw [placed, SampleToChunk.locate_of_mem (hnm.trans_lt hmax) hloc hmax (by omega) hend,
    Option.bind_some, hbase, Option.bind_some, hover']
  rfl

/-- What one pass of a cursor in step does to the samples still to come. -/
theorem Tracks.pass_spec (h : t.Tracks k c) :
    (t.pass c = .stop ∧ ∀ m, c.index ≤ m → m < t.sampleCount → t.placed k m = none) ∨
    (∃ s c', t.pass c = .yield s c' ∧ c.index < t.sampleCount ∧ t.placed k c.index = some s ∧
      c'.index = c.index + 1 ∧ t.Tracks k c') ∨
    ∃ c', t.pass c = .skip c' ∧ c.index < c'.index ∧ t.Tracks k c' ∧
      ∀ m, c.index ≤ m → m < c'.index → m < t.sampleCount → t.placed k m = none := by
  rcases pass_cases t c with ⟨hstop, hwhy⟩ | ⟨loc, base, hlt, hloc, hbase, hgo⟩
  · refine Or.inl ⟨hstop, ?_⟩
    intro m hm hlt
    have hlt' : c.index < t.sampleCount := by omega
    have hmax : m < u32Max := hlt.trans_le t.sampleSizes.count_le
    rcases hwhy with hpast | hnone | ⟨loc, hloc, hoff⟩
    · omega
    · rw [h.loc_eq hlt'] at hnone
      rw [placed, SampleToChunk.locate_none_of_le hmax hm hnone]
      rfl
    · rw [h.loc_eq hlt'] at hloc
      rw [placed]
      cases hlocate : t.sampleToChunk.locate m with
      | none => rfl
      | some loc' =>
          rcases SampleToChunk.chunk_le_of_locate hmax hm hloc hlocate with ⟨hpos, hle⟩
          rw [Option.bind_some, ChunkOffsets.offset_none_of_le hpos hle hoff]
          rfl
  · have hmax : c.index < u32Max := hlt.trans_le t.sampleSizes.count_le
    rw [h.loc_eq hlt] at hloc
    rw [h.within_eq hlt loc hloc, h.time_step hlt] at hgo
    have hover := h.stepOver hlt hloc
    have hindex := stepOver_index (t := t) hmax loc
      (t.sampleSizes.storage.readAt c.index t.sampleCount) (t.timeToSample.seekRun c.index)
    rcases hgo with ⟨offset, hadd, hpass⟩ | ⟨hadd, hpass⟩
    · refine Or.inr (Or.inl ⟨_, _, hpass, hlt, ?_, hindex, hover⟩)
      rw [placed, hloc, Option.bind_some, hbase, Option.bind_some, hadd]
      rfl
    · refine Or.inr (Or.inr ⟨_, hpass, ?_, ?_, ?_⟩)
      · have hout := index_le_stepOut (t := t) (hindex.le.trans hmax) loc
        omega
      · apply hover.stepOut h.start_le hindex hlt _ hloc
        simp only [SampleTable.stepOver]
        split
        · rfl
        · rfl
      · intro m hm hm' hlt'
        have hmem := SampleToChunk.mem_of_locate hmax hloc
        have hout := stepOut_index_le (t := t) (hindex.le.trans hmem.2)
        exact placed_none_of_overflow h.start_le hm hlt' hloc hbase hadd (hm'.trans_le hout)

/-- A cursor in step yields the samples still to come that running sums place. -/
theorem collect_of_tracks (h : t.Tracks k c) :
    t.collect c = (List.range' c.index (t.sampleCount - c.index)).filterMap (t.placed k) := by
  generalize hleft : t.sampleCount - c.index = left
  induction left using Nat.strong_induction_on generalizing c with
  | _ left ih =>
      rcases h.pass_spec with ⟨hpass, hnone⟩ | ⟨s, c', hpass, hlt, hplaced, hindex, hnext⟩ |
        ⟨c', hpass, hindex, hnext, hnone⟩
      · rw [collect_stop hpass]
        symm
        rw [List.filterMap_eq_nil_iff]
        intro m hm
        rw [List.mem_range'_1] at hm
        exact hnone m (by omega) (by omega)
      · have hsplit : left = (t.sampleCount - c'.index) + 1 := by omega
        rw [collect_yield hpass, ih _ (by omega) hnext rfl, hsplit, List.range'_succ,
          List.filterMap_cons_some hplaced, hindex]
      · have hlt := (index_lt_of_pass (Or.inr hpass)).1
        rw [collect_skip hpass, ih _ (by omega) hnext rfl]
        have hskipped : ∀ stop ≤ c'.index, stop ≤ t.sampleCount →
            (List.range' c.index (stop - c.index)).filterMap (t.placed k) = [] := by
          intro stop hstop hstop'
          rw [List.filterMap_eq_nil_iff]
          intro m hm
          rw [List.mem_range'_1] at hm
          exact hnone m (by omega) (by omega) (by omega)
        rcases Nat.le_total c'.index t.sampleCount with hle | hle
        · have hsplit : left = (c'.index - c.index) + (t.sampleCount - c'.index) := by omega
          rw [hsplit, ← List.range'_append_1, List.filterMap_append, hskipped _ le_rfl hle,
            List.nil_append, Nat.add_sub_of_le (Nat.le_of_lt hindex)]
        · rw [← hleft, hskipped _ hle le_rfl, Nat.sub_eq_zero_of_le hle]
          rfl

/-- A cursor yields the samples that running sums place, in order. -/
theorem collect_eq (t : SampleTable) (k : Nat) :
    t.collect (t.cursorAt k) = (List.range' k (t.sampleCount - k)).filterMap (t.placed k) :=
  collect_of_tracks (tracks_cursorAt t k)

/-! ## Against random access -/

/-- Random access in terms of exact byte counts and of what the saturated sums lost. -/
theorem sample_eq (hn : n < t.sampleCount) :
    t.sample n =
      (t.sampleToChunk.locate n).bind fun loc =>
      (t.chunkOffsets.offset loc.chunk).bind fun base =>
      (checkedSub (t.sampleSizes.bytesBefore n - t.sampleSizes.shortfall n)
        (t.sampleSizes.bytesBefore loc.firstSample -
          t.sampleSizes.shortfall loc.firstSample)).bind fun within =>
      (checkedAdd base within).map fun offset =>
        t.resolved n offset loc (t.timeToSample.seekRun n) := by
  have hcount : n < t.sampleSizes.count := hn
  have hmax : n < u32Max := hcount.trans_le t.sampleSizes.count_le
  rw [sample, size_of_lt hn, Option.bind_some]
  cases hloc : t.sampleToChunk.locate n with
  | none => rfl
  | some loc =>
      have hmem := SampleToChunk.mem_of_locate hmax hloc
      rw [Option.bind_some, Option.bind_some]
      cases t.chunkOffsets.offset loc.chunk with
      | none => rfl
      | some base =>
          rw [Option.bind_some, Option.bind_some, if_pos (by omega), Option.bind_some,
            SampleSizes.cumulative_eq_sub hcount,
            SampleSizes.cumulative_eq_sub (hmem.1.trans_lt hcount)]
          rfl

/-- Running sums and saturated differences place sample `n` alike, or both out of reach. -/
def AgreesAt (t : SampleTable) (k first n base : Nat) : Prop :=
  let bytes := t.sampleSizes.bytesBefore
  let lost := t.sampleSizes.shortfall
  lost n = lost (max first k) ∧
      lost (max first k) - lost first ≤ bytes (max first k) - bytes first ∨
    u64Max < base + t.runningBytes k first n ∧
      (bytes n - bytes first < lost n - lost first ∨
        u64Max < base + (bytes n - bytes first - (lost n - lost first)))

/-- A checked difference and a checked sum give the offset of a running sum. -/
theorem checked_eq_iff {base x y w : Nat} :
    (checkedSub x y).bind (checkedAdd base) = checkedAdd base w ↔
      y ≤ x ∧ x - y = w ∨ u64Max < base + w ∧ (x < y ∨ u64Max < base + (x - y)) := by
  rw [checkedSub]
  by_cases hle : y ≤ x
  · rw [if_pos hle, Option.bind_some, checkedAdd, checkedAdd]
    split
    · split
      · rw [Option.some.injEq]
        omega
      · simp
        omega
    · split
      · simp
        omega
      · simp
        omega
  · rw [if_neg hle, Option.bind_none, checkedAdd]
    split
    · simp
      omega
    · simp
      omega

/-- The condition in terms of the saturated sums that random access subtracts. -/
theorem agreesAt_iff {first base : Nat} (hk : k ≤ n) (hfirst : first ≤ n)
    (hn : n < t.sampleCount) :
    t.AgreesAt k first n base ↔
      (checkedSub (t.sampleSizes.bytesBefore n - t.sampleSizes.shortfall n)
        (t.sampleSizes.bytesBefore first - t.sampleSizes.shortfall first)).bind
          (checkedAdd base) = checkedAdd base (t.runningBytes k first n) := by
  have hlost := t.sampleSizes.shortfall_le hn
  have hlostFirst := t.sampleSizes.shortfall_le (hfirst.trans_lt hn)
  have hlostStart := t.sampleSizes.shortfall_le (hk.trans_lt hn)
  have hmono := t.sampleSizes.shortfall_mono hfirst
  have hmonoStart := t.sampleSizes.shortfall_mono hk
  have hbytes := t.sampleSizes.bytesBefore_mono hfirst
  have hbytesStart := t.sampleSizes.bytesBefore_mono hk
  rw [checked_eq_iff]
  simp only [AgreesAt, runningBytes]
  rcases Nat.le_total first k with hle | hle
  · have hmonoBetween := t.sampleSizes.shortfall_mono hle
    have hbytesBetween := t.sampleSizes.bytesBefore_mono hle
    rw [Nat.max_eq_right hle, if_pos hle]
    omega
  · rw [Nat.max_eq_left hle]
    rcases Nat.eq_or_lt_of_le hle with rfl | hlt
    · rw [if_pos le_rfl]
      omega
    · rw [if_neg (by omega)]
      omega

theorem filterMap_eq_iff {f g : Nat → Option Sample} {l : List Nat}
    (hf : ∀ n s, f n = some s → s.index = n) (hg : ∀ n s, g n = some s → s.index = n) :
    l.filterMap f = l.filterMap g ↔ ∀ n ∈ l, f n = g n := by
  constructor
  · intro h n hn
    apply Option.ext
    intro s
    constructor
    · intro hs
      have hmem : s ∈ l.filterMap g := h ▸ List.mem_filterMap.mpr ⟨n, hn, hs⟩
      rcases List.mem_filterMap.mp hmem with ⟨m, -, hm⟩
      rw [← hf n s hs, hg m s hm, hm]
    · intro hs
      have hmem : s ∈ l.filterMap f := h ▸ List.mem_filterMap.mpr ⟨n, hn, hs⟩
      rcases List.mem_filterMap.mp hmem with ⟨m, -, hm⟩
      rw [← hg n s hs, hf m s hm, hm]
  · exact List.filterMap_congr

theorem index_of_placed {s : Sample} (h : t.placed k n = some s) : s.index = n := by
  simp only [placed, Option.bind_eq_some_iff, Option.map_eq_some_iff] at h
  rcases h with ⟨loc, -, base, -, offset, -, rfl⟩
  rfl

theorem index_of_sample {s : Sample} (h : t.sample n = some s) : s.index = n := by
  simp only [sample, Option.bind_eq_some_iff, Option.map_eq_some_iff] at h
  rcases h with ⟨size, -, loc, -, base, -, first, -, within, -, offset, -, rfl⟩
  rfl

/-- Both ways resolve a sample alike exactly under the condition. -/
theorem placed_eq_sample_iff (hk : k ≤ n) (hn : n < t.sampleCount) :
    t.placed k n = t.sample n ↔
      ∀ loc base, t.sampleToChunk.locate n = some loc →
        t.chunkOffsets.offset loc.chunk = some base → t.AgreesAt k loc.firstSample n base := by
  have hmax : n < u32Max := hn.trans_le t.sampleSizes.count_le
  rw [sample_eq hn, placed]
  cases hloc : t.sampleToChunk.locate n with
  | none => simp
  | some loc =>
      have hmem := SampleToChunk.mem_of_locate hmax hloc
      rw [Option.bind_some, Option.bind_some]
      cases hbase : t.chunkOffsets.offset loc.chunk with
      | none =>
          constructor
          · intro _ loc' base hloc' hbase'
            rw [← Option.some.inj hloc', hbase] at hbase'
            cases hbase'
          · intro _
            rfl
      | some base =>
          have hinj : Function.Injective fun offset =>
              t.resolved n offset loc (t.timeToSample.seekRun n) := by
            intro a b hab
            exact congrArg Sample.offset hab
          have hiff := @agreesAt_iff _ _ _ _ base hk hmem.1 hn
          have hmap : ((checkedSub (t.sampleSizes.bytesBefore n - t.sampleSizes.shortfall n)
              (t.sampleSizes.bytesBefore loc.firstSample -
                t.sampleSizes.shortfall loc.firstSample)).bind fun within =>
              (checkedAdd base within).map fun offset =>
                t.resolved n offset loc (t.timeToSample.seekRun n)) =
              ((checkedSub (t.sampleSizes.bytesBefore n - t.sampleSizes.shortfall n)
                (t.sampleSizes.bytesBefore loc.firstSample -
                  t.sampleSizes.shortfall loc.firstSample)).bind (checkedAdd base)).map fun offset =>
                t.resolved n offset loc (t.timeToSample.seekRun n) := Option.map_bind.symm
          rw [Option.bind_some, Option.bind_some, hmap, (Option.map_injective hinj).eq_iff, eq_comm,
            ← hiff]
          constructor
          · intro hagrees loc' base' hloc' hbase'
            rw [← Option.some.inj hloc', hbase] at hbase'
            rw [← Option.some.inj hloc', ← Option.some.inj hbase']
            exact hagrees
          · intro hagrees
            exact hagrees loc base rfl hbase

/-- The condition at every sample from `k` on that lies in a chunk with an offset. -/
def LosesNothingFrom (t : SampleTable) (k : Nat) : Prop :=
  ∀ n, k ≤ n → n < t.sampleCount → ∀ loc base, t.sampleToChunk.locate n = some loc →
    t.chunkOffsets.offset loc.chunk = some base → t.AgreesAt k loc.firstSample n base

theorem placed_eq_access_iff (t : SampleTable) (k : Nat) :
    (List.range' k (t.sampleCount - k)).filterMap (t.placed k) =
        (List.range' k (t.sampleCount - k)).filterMap t.sample ↔ t.LosesNothingFrom k := by
  rw [filterMap_eq_iff (fun n s => index_of_placed) fun n s => index_of_sample]
  constructor
  · intro h n hk hn
    exact (placed_eq_sample_iff hk hn).mp (h n (List.mem_range'_1.mpr ⟨hk, by omega⟩))
  · intro h n hmem
    rw [List.mem_range'_1] at hmem
    exact (placed_eq_sample_iff hmem.1 (by omega)).mpr (h n hmem.1 (by omega))

/-- A cursor yields what random access resolves where the saturated sums lose nothing that matters.
-/
theorem cursor_eq_access_iff (t : SampleTable) (k : Nat) :
    t.collect (t.cursorAt k) = (List.range' k (t.sampleCount - k)).filterMap t.sample ↔
      t.LosesNothingFrom k := by
  rw [collect_eq]
  exact placed_eq_access_iff t k

/-! ## A table beyond the limit -/

/-- As many samples as a table can count, each as long as a size can state. -/
def hugeSizes : SampleSizes :=
  .ofStorage (.bits32 (List.replicate (4 * u32Max) 255#8)) u32Max rfl le_rfl

theorem one_le_u32Max : 1 ≤ u32Max := by decide

/-- All of them in one chunk at the start of the file. -/
def hugeTable : SampleTable :=
  { timeToSample := .empty
    compositionOffsets := none
    syncSamples := none
    sampleToChunk :=
      { runs := EntryTable.new ([1, u32Max, 1].flatMap (beBytes 4)) 12 1
        index := RunIndex.build 1
          (chunkEntry (EntryTable.new ([1, u32Max, 1].flatMap (beBytes 4)) 12 1) 1)
        chunkCount := 1
        stride_eq := by decide
        chunkCount_le := one_le_u32Max
        checked := by decide
        summarises := RunIndex.build_summarises _ _ }
    sampleSizes := hugeSizes
    chunkOffsets := .parseStco ⟨0, 0, [1, 0].flatMap (beBytes 4)⟩ }

theorem hugeSizes_readAt {i : Nat} (hi : i < u32Max) :
    hugeSizes.storage.readAt i hugeSizes.count = u32Max := by
  have hlen : ¬((List.replicate (4 * u32Max) 255#8).drop (4 * i)).length < 4 := by
    rw [List.length_drop, List.length_replicate]
    omega
  have hbytes : ((List.replicate (4 * u32Max) 255#8).drop (4 * i)).take 4 =
      [255#8, 255#8, 255#8, 255#8] := by
    rw [List.drop_replicate, List.take_replicate, Nat.min_eq_left (by omega)]
    rfl
  have hword : SizeStorage.wordAt (List.replicate (4 * u32Max) 255#8) 4 (4 * i) = u32Max := by
    rw [SizeStorage.wordAt, if_neg hlen, hbytes]
    rfl
  show SizeStorage.readAt (.bits32 (List.replicate (4 * u32Max) 255#8)) i u32Max = u32Max
  rw [SizeStorage.readAt.eq_def, if_neg (not_le.mpr hi)]
  exact hword

theorem hugeSizes_bytesBefore {n : Nat} (hn : n ≤ u32Max) :
    hugeSizes.bytesBefore n = n * u32Max := by
  induction n with
  | zero => rw [SampleSizes.bytesBefore_zero, Nat.zero_mul]
  | succ n ih =>
      rw [SampleSizes.bytesBefore_succ, ih (by omega), hugeSizes_readAt hn, Nat.succ_mul]

theorem hugeSizes_shortfall :
    hugeSizes.shortfall 2148532224 = 2148532224 * u32Max - i64Max ∧ hugeSizes.shortfall 0 = 0 := by
  have hstride : decimationStride hugeSizes.count = 1048576 := by
    show decimationStride 4294967295 = 1048576
    decide
  rw [SampleSizes.shortfall, SampleSizes.shortfall, SampleSizes.checkpointBefore,
    SampleSizes.checkpointBefore, hstride]
  constructor
  · rw [if_neg (show ¬hugeSizes.storage.isUniform = true by exact Bool.false_ne_true),
      hugeSizes_bytesBefore (by decide)]
  · rw [if_neg (show ¬hugeSizes.storage.isUniform = true by exact Bool.false_ne_true),
      hugeSizes_bytesBefore (by decide)]
    rfl

/-- Behind 8 EiB the cursor places a sample where it is, and random access does not. -/
theorem cursor_ne_access :
    ¬∀ t k, k ≤ u32Max →
      collect t (cursorAt t k) = (List.range' k (t.sampleCount - k)).filterMap t.sample := by
  intro hall
  have hequal := hall hugeTable 0 (Nat.zero_le _)
  rw [collect_eq, placed_eq_access_iff] at hequal
  have hcount : hugeTable.sampleCount = u32Max := rfl
  have hlocate : hugeTable.sampleToChunk.locate 2148532224 = some ⟨1, 0, u32Max, 1⟩ := by decide
  have hagrees := hequal 2148532224 (Nat.zero_le _) (by rw [hcount]; decide) ⟨1, 0, u32Max, 1⟩ 0
    hlocate (by decide)
  rcases hugeSizes_shortfall with ⟨hlost, hlostZero⟩
  have hbytes : hugeSizes.bytesBefore 2148532224 = 2148532224 * u32Max :=
    hugeSizes_bytesBefore (by decide)
  have hbytesZero : hugeSizes.bytesBefore 0 = 0 := SampleSizes.bytesBefore_zero _
  simp only [AgreesAt, runningBytes, show hugeTable.sampleSizes = hugeSizes from rfl,
    Nat.max_self, le_refl, if_true, hlost, hlostZero, hbytes, hbytesZero,
    u32Max, u64Max, i64Max] at hagrees
  omega

end SampleTable

end Isom
end Vaco
