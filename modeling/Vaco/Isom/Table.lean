import Vaco.Library.ByteWords
import Vaco.Library.RunLength
import Vaco.Library.FixedWidth

/-!
# Fixed-stride tables and decimated prefix sums

A sample table is a declared count and entries of a fixed width.  The count is clamped to what
the bytes hold and entries are read on demand.  A run index keeps the samples and the value
that stand before a run at every few runs, so that a lookup is a search over the kept points
and a bounded walk behind the last of them.

Main results:

- `EntryTable.exists_getU32`: an entry below the length of the table can be read.
- `RunIndex.build_summarises`: a built index keeps the exact running sums of the source's loop at
  its points.
- `RunIndex.exists_checkpoint`: the checkpoint for a sample is the last kept point at or before it.
- `RunIndex.exists_checkpointForValue`: the checkpoint for a value is the last kept point below it,
  or the first point.
-/

namespace Vaco
namespace Isom

open Library BitStream ByteWords RunLength

/-- The largest unsigned 32-bit value. -/
abbrev u32Max : Nat := 4294967295

/-- The largest signed 64-bit value. -/
abbrev i64Max : Nat := 9223372036854775807

/-- Saturating addition of unsigned words. -/
def satAdd (top a b : Nat) : Nat :=
  min (a + b) top

theorem satAdd_of_le {top a b : Nat} (h : a + b ≤ top) : satAdd top a b = a + b :=
  Nat.min_eq_left h

/-- A `u32` count and the bytes that follow it. -/
def countAndRest (body : Bytes) : Nat × Bytes :=
  (if 4 ≤ body.length then beNat (body.take 4) else 0, body.drop 4)

/-! ## Tables of fixed-width entries -/

structure EntryTable where
  data : Bytes
  stride : Nat
  len : Nat
  fits : len * stride ≤ data.length
  len_le : len ≤ u32Max

namespace EntryTable

def new (data : Bytes) (stride declared : Nat) : EntryTable :=
  if stride = 0 then
    ⟨[], 1, 0, by decide, by decide⟩
  else
    ⟨data, stride, min (min (data.length / stride) u32Max) declared,
      (Nat.mul_le_mul_right stride
        ((Nat.min_le_left _ _).trans (Nat.min_le_left _ _))).trans (Nat.div_mul_le_self _ _),
      (Nat.min_le_left _ _).trans (Nat.min_le_right _ _)⟩

/-- The bytes of one entry. -/
def entry (t : EntryTable) (i : Nat) : Option Bytes :=
  if t.len ≤ i then none else some ((t.data.drop (i * t.stride)).take t.stride)

/-- The big-endian word of `width` bytes at a byte of an entry. -/
def getWord (t : EntryTable) (width i off : Nat) : Option Nat :=
  (t.entry i).bind fun e =>
    if (e.drop off).length < width then none else some (beNat ((e.drop off).take width))

/-- The big-endian `u32` at a byte of an entry. -/
def getU32 (t : EntryTable) (i off : Nat) : Option Nat :=
  t.getWord 4 i off

/-- The big-endian `u64` at a byte of an entry. -/
def getU64 (t : EntryTable) (i off : Nat) : Option Nat :=
  t.getWord 8 i off

theorem new_len {stride : Nat} (hstride : stride ≠ 0) (data : Bytes) (declared : Nat) :
    (new data stride declared).len = min (min (data.length / stride) u32Max) declared := by
  rw [new, if_neg hstride]

theorem new_stride {stride : Nat} (hstride : stride ≠ 0) (data : Bytes) (declared : Nat) :
    (new data stride declared).stride = stride := by
  rw [new, if_neg hstride]

theorem length_entry {t : EntryTable} {i : Nat} {e : Bytes} (h : t.entry i = some e) :
    e.length = t.stride := by
  rw [entry] at h
  split at h
  · cases h
  · rename_i hi
    have hlt : i + 1 ≤ t.len := Nat.lt_of_not_le hi
    have hend : (i + 1) * t.stride ≤ t.data.length :=
      (Nat.mul_le_mul_right t.stride hlt).trans t.fits
    rw [Nat.add_mul, Nat.one_mul] at hend
    rw [← Option.some.inj h, List.length_take, List.length_drop]
    omega

theorem exists_getWord {t : EntryTable} {width i off : Nat} (hi : i < t.len)
    (hoff : off + width ≤ t.stride) : ∃ v, t.getWord width i off = some v ∧ v < 256 ^ width := by
  have hentry : t.entry i = some ((t.data.drop (i * t.stride)).take t.stride) :=
    if_neg (not_le.mpr hi)
  have hlen := length_entry hentry
  refine ⟨beNat ((((t.data.drop (i * t.stride)).take t.stride).drop off).take width), ?_, ?_⟩
  · rw [getWord, hentry, Option.bind_some, if_neg (by rw [List.length_drop]; omega)]
  · apply lt_of_lt_of_le (beNat_lt _)
    exact Nat.pow_le_pow_right (by decide) (List.length_take_le _ _)

theorem getWord_of_le {t : EntryTable} {i : Nat} (hi : t.len ≤ i) (width off : Nat) :
    t.getWord width i off = none := by
  rw [getWord, entry, if_pos hi]
  rfl

/-- A word below the length of the table, within its entry, can be read. -/
theorem exists_getU32 {t : EntryTable} {i off : Nat} (hi : i < t.len)
    (hoff : off + 4 ≤ t.stride) : ∃ v, t.getU32 i off = some v ∧ v ≤ u32Max := by
  rcases exists_getWord hi hoff with ⟨v, hv, hlt⟩
  exact ⟨v, hv, Nat.le_of_lt_succ hlt⟩

theorem getU32_of_le {t : EntryTable} {i : Nat} (hi : t.len ≤ i) (off : Nat) :
    t.getU32 i off = none :=
  getWord_of_le hi 4 off

theorem lt_of_getWord {t : EntryTable} {width i off v : Nat} (h : t.getWord width i off = some v) :
    i < t.len := by
  by_contra hi
  rw [getWord_of_le (not_lt.mp hi)] at h
  cases h

end EntryTable

/-! ## Decimated prefix sums -/

/-- A checkpoint: the run it sits before, the samples of earlier runs and the value over them. -/
@[ext]
structure Checkpoint where
  run : Nat
  samples : Nat
  value : Nat
deriving DecidableEq, Repr

/-- A decimated prefix sum over run-length coded entries. -/
structure RunIndex where
  points : List Checkpoint
  stride : Nat
  totalSamples : Nat
  totalValue : Nat
  runs : Nat
deriving DecidableEq, Repr

/-- Largest number of checkpoints any one summary holds. -/
def maxCheckpoints : Nat := 4096

/-- Runs per checkpoint for a table of `runs` entries. -/
def decimationStride (runs : Nat) : Nat :=
  if runs ≤ maxCheckpoints then 1
  else max (min ((runs + (maxCheckpoints - 1)) / maxCheckpoints) u32Max) 1

namespace RunIndex

/-- The loop of `build` over the first `i` runs: kept points, samples and value. -/
def scan (stride : Nat) (entry : Nat → Nat × Nat) : Nat → List Checkpoint × Nat × Nat
  | 0 => ([], 0, 0)
  | i + 1 =>
      match scan stride entry i with
      | (points, samples, value) =>
          (if i % stride = 0 then points ++ [⟨i, samples, value⟩] else points,
            satAdd u64Max samples (entry i).1,
            satAdd i64Max value (min ((entry i).1 * (entry i).2) i64Max))

def build (runs : Nat) (entry : Nat → Nat × Nat) : RunIndex :=
  match scan (decimationStride runs) entry runs with
  | (points, samples, value) =>
      { points := points
        stride := decimationStride runs
        totalSamples := samples
        totalValue := value
        runs := runs }

/-- The summary of no runs at all. -/
def default : RunIndex :=
  { points := []
    stride := 0
    totalSamples := 0
    totalValue := 0
    runs := 0 }

/-- The last checkpoint at or before sample `n`. -/
def checkpointForSample (idx : RunIndex) (n : Nat) : Checkpoint :=
  let at' := (idx.points.takeWhile fun c => decide (c.samples ≤ n)).length
  (idx.points[at' - 1]?).getD ⟨0, 0, 0⟩

/-- The last checkpoint whose value is strictly below `v`, or the first when none is. -/
def checkpointForValue (idx : RunIndex) (v : Nat) : Checkpoint :=
  let at' := (idx.points.takeWhile fun c => decide (c.value < v)).length
  (idx.points[at' - 1]?).getD ⟨0, 0, 0⟩

/-! ### Running sums -/

/-- The running sums before a run, saturating as the build loop does. -/
def point (entry : Nat → Nat × Nat) : Nat → Checkpoint
  | 0 => ⟨0, 0, 0⟩
  | i + 1 =>
      ⟨i + 1, satAdd u64Max (point entry i).samples (entry i).1,
        satAdd i64Max (point entry i).value (min ((entry i).1 * (entry i).2) i64Max)⟩

variable {entry : Nat → Nat × Nat} {runs : Nat} {idx : RunIndex}

@[simp]
theorem point_run (entry : Nat → Nat × Nat) (i : Nat) : (point entry i).run = i := by
  cases i <;> rfl

theorem point_samples_le (entry : Nat → Nat × Nat) (i : Nat) :
    (point entry i).samples ≤ u64Max := by
  cases i with
  | zero => exact Nat.zero_le _
  | succ i => exact Nat.min_le_right _ _

theorem point_samples_mono (entry : Nat → Nat × Nat) :
    Monotone fun i => (point entry i).samples := by
  apply monotone_nat_of_le_succ
  intro i
  exact le_min (Nat.le_add_right _ _) (point_samples_le entry i)

theorem point_value_mono (entry : Nat → Nat × Nat) :
    Monotone fun i => (point entry i).value := by
  have hle : ∀ i, (point entry i).value ≤ i64Max := by
    intro i
    cases i with
    | zero => exact Nat.zero_le _
    | succ i => exact Nat.min_le_right _ _
  apply monotone_nat_of_le_succ
  intro i
  exact le_min (Nat.le_add_right _ _) (hle i)

theorem point_samples_eq {α : Type} {exact : Nat → Nat × α} {cap len : Nat} (hcap : cap ≤ u64Max)
    (hentry : ∀ i, (entry i).1 = min (exact i).1 cap) {i : Nat} (hi : i ≤ len)
    (h : (point entry i).samples < cap) :
    (point entry i).samples = before (entryList len exact) i := by
  induction i with
  | zero => exact (before_zero _).symm
  | succ i ih =>
      have hstep : (point entry (i + 1)).samples =
          min ((point entry i).samples + min (exact i).1 cap) u64Max := by
        rw [← hentry]
        rfl
      rw [before_succ (getElem?_entryList hi exact), ← ih (by omega) (by omega)]
      omega

theorem point_value_eq {len i : Nat} (hi : i ≤ len) :
    (point entry i).value = min (weight (entryList len entry) i) i64Max := by
  induction i with
  | zero => rw [weight_zero, Nat.zero_min]; rfl
  | succ i ih =>
      have hstep : (point entry (i + 1)).value =
          min ((point entry i).value + min ((entry i).1 * (entry i).2) i64Max) i64Max := rfl
      rw [hstep, ih (by omega), weight_succ (getElem?_entryList hi entry)]
      omega

/-- An index keeps the running sums of some runs at the multiples of its stride, and the totals. -/
structure Summarises (idx : RunIndex) (runs : Nat) (entry : Nat → Nat × Nat) : Prop where
  points_eq : idx.points =
    ((List.range runs).filter fun i => decide (i % idx.stride = 0)).map (point entry)
  totalSamples_eq : idx.totalSamples = (point entry runs).samples
  totalValue_eq : idx.totalValue = (point entry runs).value

theorem scan_eq (stride : Nat) (entry : Nat → Nat × Nat) (i : Nat) :
    scan stride entry i =
      (((List.range i).filter fun j => decide (j % stride = 0)).map (point entry),
        (point entry i).samples, (point entry i).value) := by
  induction i with
  | zero => rfl
  | succ i ih =>
      have hpoint : (⟨i, (point entry i).samples, (point entry i).value⟩ : Checkpoint) =
          point entry i := Checkpoint.ext (point_run entry i).symm rfl rfl
      rw [scan, ih, List.range_succ, List.filter_append, List.map_append]
      dsimp only
      rw [hpoint]
      by_cases h : i % stride = 0
      · simp [h, point]
      · simp [h, point]

/-- A built index keeps the running sums at its points. -/
theorem build_summarises (runs : Nat) (entry : Nat → Nat × Nat) :
    (build runs entry).Summarises runs entry := by
  rw [build, scan_eq]
  exact ⟨rfl, rfl, rfl⟩

theorem build_stride (runs : Nat) (entry : Nat → Nat × Nat) :
    (build runs entry).stride = decimationStride runs := by
  rw [build]

theorem default_summarises (entry : Nat → Nat × Nat) : default.Summarises 0 entry :=
  ⟨rfl, rfl, rfl⟩

/-! ### Checkpoint lookup -/

theorem takeWhile_eq_filter {α : Type*} {p : α → Bool} {l : List α}
    (h : l.Pairwise fun a b => p b = true → p a = true) : l.takeWhile p = l.filter p := by
  induction l with
  | nil => rfl
  | cons a l ih =>
      rw [List.pairwise_cons] at h
      cases ha : p a with
      | true => rw [List.takeWhile_cons_of_pos ha, List.filter_cons_of_pos ha, ih h.2]
      | false =>
          have hnone : l.filter p = [] := by
            rw [List.filter_eq_nil_iff]
            intro b hb hpb
            rw [h.1 b hb hpb] at ha
            cases ha
          rw [List.takeWhile_cons_of_neg (by rw [ha]; exact Bool.false_ne_true),
            List.filter_cons_of_neg (by rw [ha]; exact Bool.false_ne_true), hnone]

/-- The point before the first one that fails a test is the last that passes it, or the first one.
-/
theorem exists_lastPoint (h : idx.Summarises runs entry) {p : Checkpoint → Bool}
    (hp : ∀ a b, a ≤ b → p (point entry b) = true → p (point entry a) = true) :
    ∃ c, (idx.points[(idx.points.takeWhile p).length - 1]?).getD ⟨0, 0, 0⟩ = point entry c ∧
      (c = 0 ∨ c < runs ∧ p (point entry c) = true) ∧ c % idx.stride = 0 ∧
      ∀ c' < runs, c' % idx.stride = 0 → p (point entry c') = true → c' ≤ c := by
  let kept : List Nat := (List.range runs).filter fun i => decide (i % idx.stride = 0)
  let passed : List Nat := kept.filter fun i => p (point entry i)
  have hmem : ∀ {i}, i ∈ passed ↔ i < runs ∧ i % idx.stride = 0 ∧ p (point entry i) = true := by
    intro i
    rw [List.mem_filter, List.mem_filter, List.mem_range, decide_eq_true_iff, and_assoc]
  have hpoints : idx.points = kept.map (point entry) := h.points_eq
  have htake : idx.points.takeWhile p = passed.map (point entry) := by
    rw [hpoints, List.takeWhile_map]
    refine congrArg (List.map (point entry)) (takeWhile_eq_filter ?_)
    apply List.Pairwise.filter
    exact List.pairwise_lt_range.imp fun hab => hp _ _ (Nat.le_of_lt hab)
  rw [htake, List.length_map]
  by_cases hnil : passed = []
  · refine ⟨0, ?_, Or.inl rfl, Nat.zero_mod _, ?_⟩
    · rw [hnil, hpoints]
      cases runs with
      | zero => rfl
      | succ runs =>
          have hfirst : kept[0]? = some 0 := by
            rw [← List.head?_eq_getElem?]
            simp [kept, List.range_succ_eq_map]
          rw [List.getElem?_map, List.length_nil, hfirst]
          rfl
    · intro c' hlt hkept hpass
      have hin : c' ∈ passed := hmem.mpr ⟨hlt, hkept, hpass⟩
      rw [hnil] at hin
      cases hin
  · have hpos := List.length_pos_of_ne_nil hnil
    have hlast := hmem.mp (List.getLast_mem hnil)
    have hsplit : passed.map (point entry) <+: idx.points := by
      rw [← htake]
      exact List.takeWhile_prefix _
    have hget : idx.points[passed.length - 1]? = some (point entry (passed.getLast hnil)) := by
      rw [List.prefix_iff_eq_append.mp hsplit |>.symm,
        List.getElem?_append_left (by rw [List.length_map]; omega), List.getElem?_map,
        ← List.getLast?_eq_getElem?, List.getLast?_eq_getLast_of_ne_nil hnil]
      rfl
    refine ⟨passed.getLast hnil, ?_, Or.inr ⟨hlast.1, hlast.2.2⟩, hlast.2.1, ?_⟩
    · rw [hget]
      rfl
    · intro c' hlt hkept hpass
      have hsorted : passed.Pairwise (· ≤ ·) :=
        ((List.pairwise_lt_range.imp Nat.le_of_lt).filter _).filter _
      exact hsorted.rel_getLast (hmem.mpr ⟨hlt, hkept, hpass⟩)

/-- The checkpoint for a sample is the last kept point at or before it. -/
theorem exists_checkpoint (h : idx.Summarises runs entry) (n : Nat) :
    ∃ c, idx.checkpointForSample n = point entry c ∧ (c = 0 ∨ c < runs) ∧
      (point entry c).samples ≤ n ∧ c % idx.stride = 0 ∧
      ∀ c' < runs, c' % idx.stride = 0 → (point entry c').samples ≤ n → c' ≤ c := by
  rcases exists_lastPoint h (p := fun c => decide (c.samples ≤ n)) (fun a b hab hb =>
      decide_eq_true (le_trans (point_samples_mono entry hab) (of_decide_eq_true hb)))
    with ⟨c, hpoint, hc, hkept, hlast⟩
  refine ⟨c, hpoint, hc.imp_right And.left, ?_, hkept, fun c' hlt hmod hle =>
    hlast c' hlt hmod (decide_eq_true hle)⟩
  rcases hc with rfl | ⟨-, hle⟩
  · exact Nat.zero_le _
  · exact of_decide_eq_true hle

theorem exists_start (h : idx.Summarises runs entry) {α : Type} (exact : Nat → Nat × α) {cap : Nat}
    (hcap : cap ≤ u64Max) (hentry : ∀ i, (entry i).1 = min (exact i).1 cap) {n : Nat}
    (hn : n < cap) :
    ∃ c ≤ runs, before (entryList runs exact) c ≤ n ∧ idx.checkpointForSample n =
      ⟨c, before (entryList runs exact) c, (point entry c).value⟩ := by
  rcases exists_checkpoint h n with ⟨c, hpoint, hlt, hle, -, -⟩
  have hc : c ≤ runs := by omega
  have hsamples : (point entry c).samples = before (entryList runs exact) c :=
    point_samples_eq hcap hentry hc (hle.trans_lt hn)
  refine ⟨c, hc, by omega, ?_⟩
  rw [hpoint]
  exact Checkpoint.ext (point_run _ _) hsamples rfl

/-- The checkpoint for a value is the last kept point strictly below it, or the first point. -/
theorem exists_checkpointForValue (h : idx.Summarises runs entry) (v : Nat) :
    ∃ c, idx.checkpointForValue v = point entry c ∧
      (c = 0 ∨ c < runs ∧ (point entry c).value < v) ∧ c % idx.stride = 0 ∧
      ∀ c' < runs, c' % idx.stride = 0 → (point entry c').value < v → c' ≤ c := by
  rcases exists_lastPoint h (p := fun c => decide (c.value < v)) (fun a b hab hb =>
      decide_eq_true (lt_of_le_of_lt (point_value_mono entry hab) (of_decide_eq_true hb)))
    with ⟨c, hpoint, hc, hkept, hlast⟩
  refine ⟨c, hpoint, ?_, hkept, fun c' hlt hmod hle => hlast c' hlt hmod (decide_eq_true hle)⟩
  rcases hc with rfl | ⟨hlt, hle⟩
  · exact Or.inl rfl
  · exact Or.inr ⟨hlt, of_decide_eq_true hle⟩

end RunIndex

end Isom
end Vaco
