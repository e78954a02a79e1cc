import Vaco.Isom.TableWriting

/-!
# Lookup by decode time

The runs of a `stts` table give every sample a decode time.  The sample at or before a time
is looked up from the last checkpoint below the time, by a walk over the runs that stops at the
run that ends beyond the time, and at every run of zero delta.

Main results:

- `TimeToSample.sampleFrom_spec`: where the walk from the start of a run ends.
- `TimeToSample.exists_found`: the number looked up is that of the last sample at or before the
  time, or the walk stopped at a run of zero delta.
- `TimeToSample.findsSample_iff`: the lookup finds the right sample exactly when no sample lies
  between the run of zero delta it stops at and the time, and the number found fits its type.
- `TimeToSample.reaches_of_stride_one`: an index that keeps every run never stops early.
-/

namespace Vaco
namespace Isom

open Library BitStream ByteWords RunLength

namespace TimeToSample

variable {t : TimeToSample} {n : Nat}

/-! ## The decode times of a table -/

/-- Decode time of a sample by the deltas of the samples before it. -/
def elapsed (t : TimeToSample) (n : Nat) : Nat :=
  ((expand t.entries).take n).sum

theorem elapsed_mono (t : TimeToSample) : Monotone t.elapsed :=
  sum_take_mono _

theorem elapsed_before (t : TimeToSample) (r : Nat) :
    t.elapsed (before t.entries r) = weight t.entries r :=
  sum_take_before _ _

theorem elapsed_run {r : Nat} (hr : r < t.runs.len) (hle : before t.entries r ≤ n)
    (hn : n ≤ before t.entries (r + 1)) :
    t.elapsed n = weight t.entries r + (n - before t.entries r) * (pairEntry t.runs r).2 :=
  sum_take_run (getElem?_entries hr) hle hn

theorem point_samples_le_mul (t : TimeToSample) (i : Nat) :
    (RunIndex.point (pairEntry t.runs) i).samples ≤ i * u32Max := by
  induction i with
  | zero => exact Nat.zero_le _
  | succ i ih =>
      have hcount : (pairEntry t.runs i).1 ≤ u32Max := getU32_getD_le t.runs i 0
      rw [Nat.succ_mul]
      exact (Nat.min_le_left _ _).trans (Nat.add_le_add ih hcount)

theorem point_samples_lt (t : TimeToSample) :
    (RunIndex.point (pairEntry t.runs) t.runs.len).samples < u64Max := by
  apply (t.point_samples_le_mul t.runs.len).trans_lt
  exact (Nat.mul_le_mul_right u32Max t.runs.len_le).trans_lt (by decide)

theorem sampleCount_eq (t : TimeToSample) : t.sampleCount = before t.entries t.runs.len := by
  rw [sampleCount, t.summarises.totalSamples_eq]
  exact RunIndex.point_samples_eq le_rfl
    (fun i => (Nat.min_eq_left (pairEntry_fst_le t.runs i)).symm) le_rfl t.point_samples_lt

theorem sampleCount_lt (t : TimeToSample) : t.sampleCount < u64Max := by
  rw [sampleCount, t.summarises.totalSamples_eq]
  exact t.point_samples_lt

theorem weight_le (h : (expand t.entries).sum < 9223372036854775808) (r : Nat) :
    weight t.entries r ≤ i64Max := by
  rw [← sum_take_before]
  have hle : ((expand t.entries).take (before t.entries r)).sum ≤ (expand t.entries).sum := by
    apply List.Sublist.sum_le_sum (List.take_sublist _ _)
    intro _ _
    exact Nat.zero_le _
  exact hle.trans (Nat.le_of_lt_succ h)

theorem dts_eq (h : (expand t.entries).sum < 9223372036854775808) (hn : n < t.sampleCount) :
    (t.dtsAndDuration n).1 = t.elapsed n := by
  have hlen : n < (expand t.entries).length := by
    rwa [length_expand, entries, length_entryList, ← entries, ← sampleCount_eq]
  have hend : t.elapsed n ≤ weight t.entries t.runs.len := by
    rw [← elapsed_before, ← sampleCount_eq]
    exact t.elapsed_mono (Nat.le_of_lt hn)
  rw [dtsAndDuration_eq (hn.trans t.sampleCount_lt) hlen]
  exact Nat.min_eq_left (hend.trans (weight_le h _))

/-! ## The walk -/

/-- The walk stops at a run of zero delta that starts at or before the time. -/
structure StopsAt (t : TimeToSample) (dts : Int) (z : Nat) : Prop where
  lt_len : z < t.runs.len
  delta_eq : (pairEntry t.runs z).2 = 0
  start_le : (weight t.entries z : Int) ≤ dts
  last : ∀ c, z < c → c < t.runs.len → c % t.index.stride = 0 → dts ≤ weight t.entries c

structure EndsAt (t : TimeToSample) (dts c r : Nat) : Prop where
  le_run : c ≤ r
  lt_len : r < t.runs.len
  start_le : weight t.entries r ≤ dts
  delta_before : ∀ z, c ≤ z → z < r → (pairEntry t.runs z).2 ≠ 0
  stops : dts < weight t.entries (r + 1) ∨ (pairEntry t.runs r).2 = 0

/-- The walk ends at the first run that has a zero delta or ends beyond the time, or behind all
runs. -/
theorem sampleFrom_spec (h : (expand t.entries).sum < 9223372036854775808) {dts left c : Nat}
    (hleft : c + left = t.runs.len) (hle : weight t.entries c ≤ dts) :
    (∃ r, t.EndsAt dts c r ∧
      t.sampleFrom dts left ⟨c, before t.entries c, weight t.entries c⟩ =
        t.sampleNumber (satAdd u64Max (before t.entries r)
          (samplesInto dts ⟨r, before t.entries r, weight t.entries r⟩
            (pairEntry t.runs r).1 (pairEntry t.runs r).2))) ∨
    ((∀ z, c ≤ z → z < t.runs.len → (pairEntry t.runs z).2 ≠ 0) ∧
      weight t.entries t.runs.len ≤ dts ∧
      t.sampleFrom dts left ⟨c, before t.entries c, weight t.entries c⟩ =
        t.sampleNumber (t.index.totalSamples - 1)) := by
  induction left generalizing c with
  | zero =>
      refine Or.inr ⟨fun z hz hlt => by omega, ?_, rfl⟩
      rwa [← hleft]
  | succ left ih =>
      have hc : c < t.runs.len := by omega
      have hentry := getElem?_entries hc
      have hvalue := weight_succ hentry
      have hstart := before_succ hentry
      have hcap := weight_le h (c + 1)
      have hend : satAdd i64Max (weight t.entries c)
          (min ((pairEntry t.runs c).1 * (pairEntry t.runs c).2) i64Max) =
          weight t.entries (c + 1) := by
        rw [satAdd, hvalue]
        omega
      have hnext : satAdd u64Max (before t.entries c) (pairEntry t.runs c).1 =
          before t.entries (c + 1) := by
        rw [hstart]
        apply satAdd_of_le
        rw [← hstart]
        have hmono : before t.entries (c + 1) ≤ before t.entries t.runs.len := before_mono _ hc
        rw [← sampleCount_eq] at hmono
        exact hmono.trans (Nat.le_of_lt t.sampleCount_lt)
      by_cases hstop : dts < weight t.entries (c + 1) ∨ (pairEntry t.runs c).2 = 0
      · refine Or.inl ⟨c, ⟨le_rfl, hc, hle, fun z hz hlt => by omega, hstop⟩, ?_⟩
        rw [sampleFrom, run_eq hc]
        dsimp only
        rw [hend, if_pos hstop]
      · have hstep : t.sampleFrom dts (left + 1) ⟨c, before t.entries c, weight t.entries c⟩ =
            t.sampleFrom dts left ⟨c + 1, before t.entries (c + 1), weight t.entries (c + 1)⟩ := by
          rw [sampleFrom, run_eq hc]
          dsimp only
          rw [hend, if_neg hstop, hnext]
        have hdelta : ∀ z, c ≤ z → (c + 1 ≤ z → (pairEntry t.runs z).2 ≠ 0) →
            (pairEntry t.runs z).2 ≠ 0 := by
          intro z hz hrest
          rcases Nat.eq_or_lt_of_le hz with rfl | hlt
          · exact fun hzero => hstop (Or.inr hzero)
          · exact hrest hlt
        have hle' : weight t.entries (c + 1) ≤ dts := not_lt.mp fun hlt => hstop (Or.inl hlt)
        rw [hstep]
        rcases ih (by omega) hle' with ⟨r, hend, hresult⟩ | ⟨hall, hdone, hresult⟩
        · refine Or.inl ⟨r, ⟨by have hcr := hend.le_run; omega, hend.lt_len, hend.start_le,
            fun z hz hlt => hdelta z hz fun hz' => hend.delta_before z hz' hlt, hend.stops⟩,
            hresult⟩
        · refine Or.inr ⟨fun z hz hlt => ?_, hdone, hresult⟩
          exact hdelta z hz fun hz' => hall z hz' hlt

theorem point_eq (h : (expand t.entries).sum < 9223372036854775808) {i : Nat}
    (hi : i ≤ t.runs.len) :
    RunIndex.point (pairEntry t.runs) i = ⟨i, before t.entries i, weight t.entries i⟩ := by
  have hlt : (RunIndex.point (pairEntry t.runs) i).samples < u64Max :=
    (RunIndex.point_samples_mono _ hi).trans_lt t.point_samples_lt
  refine Checkpoint.ext (RunIndex.point_run _ _) ?_ ?_
  · exact RunIndex.point_samples_eq le_rfl
      (fun i => (Nat.min_eq_left (pairEntry_fst_le t.runs i)).symm) hi hlt
  · rw [RunIndex.point_value_eq hi]
    exact Nat.min_eq_left (weight_le h i)

/-- The walk starts at or before the time, and stops at the runs of zero delta from there on. -/
theorem exists_walkStart (h : (expand t.entries).sum < 9223372036854775808) (dts : Nat) :
    ∃ c ≤ t.runs.len, t.index.checkpointForValue dts =
        ⟨c, before t.entries c, weight t.entries c⟩ ∧ weight t.entries c ≤ dts ∧
      ∀ z, t.StopsAt dts z ↔ c ≤ z ∧ z < t.runs.len ∧ (pairEntry t.runs z).2 = 0 ∧
        weight t.entries z ≤ dts := by
  rcases RunIndex.exists_checkpointForValue t.summarises dts with ⟨c, hpoint, hc, hkept, hlast⟩
  have hlen : c ≤ t.runs.len := by omega
  have hvalue : ∀ {i}, i ≤ t.runs.len →
      (RunIndex.point (pairEntry t.runs) i).value = weight t.entries i := by
    intro i hi
    rw [point_eq h hi]
  have hbelow : c = 0 ∨ weight t.entries c < dts := by
    rw [← hvalue hlen]
    exact hc.imp_right And.right
  refine ⟨c, hlen, hpoint.trans (point_eq h hlen), ?_, fun z => ⟨fun hz => ?_, fun hz => ?_⟩⟩
  · rcases hbelow with rfl | hlt
    · rw [weight_zero]
      exact Nat.zero_le _
    · exact Nat.le_of_lt hlt
  · refine ⟨not_lt.mp fun hzc => ?_, hz.lt_len, hz.delta_eq, by exact_mod_cast hz.start_le⟩
    have hle := hz.last c hzc (by omega) hkept
    omega
  · rcases hz with ⟨hcz, hzlen, hdelta, hle⟩
    refine ⟨hzlen, hdelta, by exact_mod_cast hle, fun c' hzc' hlt hmod => ?_⟩
    by_contra hless
    have hcc' := hlast c' hlt hmod (by rw [hvalue (Nat.le_of_lt hlt)]; omega)
    omega

/-! ## The sample found -/

/-- A run that starts at or before a time and ends beyond it has the last sample at or before
the time. -/
theorem exists_last_of_run {dts r : Nat} (hr : r < t.runs.len) (hle : weight t.entries r ≤ dts)
    (hlt : dts < weight t.entries (r + 1)) :
    ∃ q < (pairEntry t.runs r).1,
      samplesInto dts ⟨r, before t.entries r, weight t.entries r⟩
        (pairEntry t.runs r).1 (pairEntry t.runs r).2 = q ∧
      t.elapsed (before t.entries r + q) ≤ dts ∧ dts < t.elapsed (before t.entries r + q + 1) := by
  have hentry := getElem?_entries hr
  have hstart := before_succ hentry
  rw [weight_succ hentry] at hlt
  have hdelta : 0 < (pairEntry t.runs r).2 := by
    rcases Nat.eq_zero_or_pos (pairEntry t.runs r).2 with hzero | hpos
    · rw [hzero, Nat.mul_zero] at hlt
      omega
    · exact hpos
  let q := (dts - weight t.entries r) / (pairEntry t.runs r).2
  have hq : q < (pairEntry t.runs r).1 := by
    rw [Nat.div_lt_iff_lt_mul hdelta]
    omega
  have hlow : q * (pairEntry t.runs r).2 ≤ dts - weight t.entries r := Nat.div_mul_le_self _ _
  have hhigh : dts - weight t.entries r < (q + 1) * (pairEntry t.runs r).2 := by
    rw [← Nat.div_lt_iff_lt_mul hdelta]
    exact Nat.lt_succ_self q
  refine ⟨q, hq, ?_, ?_, ?_⟩
  · rw [samplesInto, if_neg (Nat.ne_of_gt hdelta)]
    exact Nat.min_eq_left (Nat.le_sub_one_of_lt hq)
  · rw [elapsed_run hr (Nat.le_add_right _ _) (by omega), Nat.add_sub_cancel_left]
    omega
  · rw [Nat.add_assoc, elapsed_run hr (Nat.le_add_right _ _) (by omega), Nat.add_sub_cancel_left]
    omega

/-- A number is the last sample at or before a time. -/
structure LastUpTo (t : TimeToSample) (dts f : Nat) : Prop where
  le_dts : t.elapsed f ≤ dts
  last : ∀ m < t.sampleCount, t.elapsed m ≤ dts → m ≤ f

/-- The walk found the last sample at or before a time, or stopped at a run of zero delta. -/
def Found (t : TimeToSample) (dts f : Nat) : Prop :=
  (t.LastUpTo dts f ∧ ∀ z, ¬ t.StopsAt dts z) ∨
    ∃ z, t.StopsAt dts z ∧ (∀ z', t.StopsAt dts z' → z ≤ z') ∧
      f = min (before t.entries z) (t.sampleCount - 1)

/-- The number looked up is the one that the walk found, where it fits its type. -/
theorem exists_found (h : (expand t.entries).sum < 9223372036854775808)
    (hcount : t.sampleCount ≠ 0) (dts : Nat) :
    ∃ f < t.sampleCount, t.Found dts f ∧
      t.sampleAtOrBeforeDts dts = if f ≤ u32Max then some f else none := by
  rcases exists_walkStart h dts with ⟨c, hc, hpoint, hle, hstops⟩
  have hlookup : t.sampleAtOrBeforeDts dts =
      t.sampleFrom dts (t.runs.len - c) ⟨c, before t.entries c, weight t.entries c⟩ := by
    rw [sampleAtOrBeforeDts, if_neg (by rintro (hzero | hneg); exacts [hcount hzero, by omega]),
      Int.toNat_natCast, hpoint]
  have hnumber : ∀ n, t.sampleNumber n =
      if min n (t.sampleCount - 1) ≤ u32Max then some (min n (t.sampleCount - 1)) else none :=
    fun n => rfl
  rw [hlookup]
  rcases sampleFrom_spec h (Nat.add_sub_of_le hc) hle with
    ⟨r, hend, hresult⟩ | ⟨hall, hdone, hresult⟩
  · have hsum : ∀ q, before t.entries r + q ≤ before t.entries (r + 1) →
        satAdd u64Max (before t.entries r) q = before t.entries r + q := by
      intro q hq
      have hmono : before t.entries (r + 1) ≤ before t.entries t.runs.len :=
        before_mono _ hend.lt_len
      have hcap := t.sampleCount_lt
      rw [← sampleCount_eq] at hmono
      exact satAdd_of_le (by omega)
    by_cases hdelta : (pairEntry t.runs r).2 = 0
    · refine ⟨min (before t.entries r) (t.sampleCount - 1), by omega, Or.inr ⟨r, ?_, ?_, rfl⟩, ?_⟩
      · exact (hstops r).mpr ⟨hend.le_run, hend.lt_len, hdelta, hend.start_le⟩
      · intro z hz
        have hz' := (hstops z).mp hz
        by_contra hlt
        exact hend.delta_before z hz'.1 (not_le.mp hlt) hz'.2.2.1
      · rw [hresult, samplesInto, if_pos hdelta, hsum 0 (before_mono _ (Nat.le_succ r)), hnumber,
          Nat.add_zero]
    · have hbeyond := hend.stops.resolve_right hdelta
      rcases exists_last_of_run hend.lt_len hend.start_le hbeyond with ⟨q, hq, hinto, hlow, hhigh⟩
      have hstart := before_succ (getElem?_entries hend.lt_len)
      have hmono : before t.entries (r + 1) ≤ before t.entries t.runs.len :=
        before_mono _ hend.lt_len
      rw [← sampleCount_eq] at hmono
      have hmin : min (before t.entries r + q) (t.sampleCount - 1) = before t.entries r + q := by
        omega
      refine ⟨before t.entries r + q, by omega, Or.inl ⟨⟨hlow, fun m hm hmle => ?_⟩, ?_⟩, ?_⟩
      · by_contra hlt
        have hstep := t.elapsed_mono (show before t.entries r + q + 1 ≤ m by omega)
        omega
      · intro z hz
        have hz' := (hstops z).mp hz
        have hrz : r + 1 ≤ z := by
          rcases Nat.lt_trichotomy z r with hlt | rfl | hgt
          · exact absurd hz'.2.2.1 (hend.delta_before z hz'.1 hlt)
          · exact absurd hz'.2.2.1 hdelta
          · exact hgt
        have hweight := weight_mono t.entries hrz
        omega
      · rw [hresult, hinto, hsum q (by omega), hnumber, hmin]
  · refine ⟨t.sampleCount - 1, by omega, Or.inl ⟨⟨?_, fun m hm _ => by omega⟩, ?_⟩, ?_⟩
    · have hend := t.elapsed_mono (Nat.sub_le t.sampleCount 1)
      rw [sampleCount_eq, elapsed_before, ← sampleCount_eq] at hend
      exact hend.trans hdone
    · intro z hz
      have hz' := (hstops z).mp hz
      exact hall z hz'.1 hz'.2.1 hz'.2.2.1
    · rw [hresult, hnumber, show t.index.totalSamples = t.sampleCount from rfl, Nat.min_self]

/-- A lookup fails exactly before the first sample and in an empty table, and else gives a sample
with the greatest decode time at or before the time. -/
def FindsSample (t : TimeToSample) (dts : Int) : Prop :=
  (t.sampleAtOrBeforeDts dts = none ↔ dts < 0 ∨ t.sampleCount = 0) ∧
    ∀ n, t.sampleAtOrBeforeDts dts = some n →
      IsGreatest {d : Int | d ≤ dts ∧ ∃ m < t.sampleCount, d = (t.dtsAndDuration m).1}
        (t.dtsAndDuration n).1

/-- No sample lies between a run of zero delta that stops the walk and the time, and the sample
numbers fit. -/
structure Reaches (t : TimeToSample) (dts : Int) : Prop where
  nothing_between : ∀ z, t.StopsAt dts z → ∀ n < t.sampleCount,
    (t.elapsed n : Int) ≤ dts → t.elapsed n ≤ weight t.entries z
  numbered : (∀ n < t.sampleCount, (t.elapsed n : Int) ≤ dts → n ≤ u32Max) ∨
    ∃ z, t.StopsAt dts z ∧ before t.entries z ≤ u32Max

/-- A lookup is right if its number fits and no sample lies between it and the time. -/
theorem findsSample_iff_of_found (h : (expand t.entries).sum < 9223372036854775808) {dts f : Nat}
    (hf : f < t.sampleCount)
    (hresult : t.sampleAtOrBeforeDts dts = if f ≤ u32Max then some f else none) :
    t.FindsSample dts ↔ f ≤ u32Max ∧ t.elapsed f ≤ dts ∧
      ∀ m < t.sampleCount, t.elapsed m ≤ dts → t.elapsed m ≤ t.elapsed f := by
  have hnone : ¬ ((dts : Int) < 0 ∨ t.sampleCount = 0) := by omega
  rw [FindsSample, hresult]
  by_cases hfit : f ≤ u32Max
  · rw [if_pos hfit]
    constructor
    · rintro ⟨-, hgreatest⟩
      rcases hgreatest f rfl with ⟨⟨hle, -⟩, hupper⟩
      rw [dts_eq h hf] at hle hupper
      refine ⟨hfit, by exact_mod_cast hle, fun m hm hmle => ?_⟩
      have hin : (t.elapsed m : Int) ≤ t.elapsed f :=
        hupper ⟨by exact_mod_cast hmle, m, hm, by rw [dts_eq h hm]⟩
      exact_mod_cast hin
    · rintro ⟨-, hle, hupper⟩
      refine ⟨⟨fun heq => absurd heq (Option.some_ne_none f), fun hbad => absurd hbad hnone⟩,
        fun n hn => ?_⟩
      cases hn
      rw [dts_eq h hf]
      refine ⟨⟨by exact_mod_cast hle, f, hf, by rw [dts_eq h hf]⟩, ?_⟩
      rintro d ⟨hd, m, hm, rfl⟩
      rw [dts_eq h hm] at hd ⊢
      exact_mod_cast hupper m hm (by exact_mod_cast hd)
  · rw [if_neg hfit]
    exact ⟨fun hfinds => absurd (hfinds.1.mp rfl) hnone, fun hright => absurd hright.1 hfit⟩

theorem elapsed_stop (t : TimeToSample) (z : Nat) :
    t.elapsed (min (before t.entries z) (t.sampleCount - 1)) ≤ weight t.entries z ∧
      ∀ m < t.sampleCount, t.elapsed m ≤ weight t.entries z →
        t.elapsed m ≤ t.elapsed (min (before t.entries z) (t.sampleCount - 1)) := by
  refine ⟨?_, fun m hm hle => ?_⟩
  · rw [← elapsed_before]
    exact t.elapsed_mono (Nat.min_le_left _ _)
  · rcases Nat.le_total (before t.entries z) (t.sampleCount - 1) with hmin | hmin
    · rwa [Nat.min_eq_left hmin, elapsed_before]
    · rw [Nat.min_eq_right hmin]
      exact t.elapsed_mono (by omega)

theorem findsSample_of_none {dts : Int} (hnone : dts < 0 ∨ t.sampleCount = 0) :
    t.FindsSample dts ∧ t.Reaches dts := by
  have hresult : t.sampleAtOrBeforeDts dts = none := by
    rw [sampleAtOrBeforeDts]
    exact if_pos hnone.symm
  have hvacuous : ∀ n < t.sampleCount, ¬ (t.elapsed n : Int) ≤ dts := by omega
  refine ⟨⟨⟨fun _ => hnone, fun _ => hresult⟩, fun n hn => ?_⟩, ⟨fun z _ n hn hle => ?_, Or.inl ?_⟩⟩
  · rw [hresult] at hn
    cases hn
  · exact absurd hle (hvacuous n hn)
  · exact fun n hn hle => absurd hle (hvacuous n hn)

/-- Every run is a checkpoint in a table of few runs. -/
theorem reaches_of_stride_one (hstride : t.index.stride = 1) (hcount : t.sampleCount ≤ u32Max + 1)
    (dts : Int) : t.Reaches dts := by
  refine ⟨fun z hz n hn hle => ?_, Or.inl fun n hn _ => by omega⟩
  have hnext : weight t.entries (z + 1) = weight t.entries z := by
    rw [weight_succ (getElem?_entries hz.lt_len), hz.delta_eq, Nat.mul_zero, Nat.add_zero]
  rcases Nat.eq_or_lt_of_le (Nat.succ_le_of_lt hz.lt_len) with hend | hlt
  · have hmono := t.elapsed_mono (Nat.le_of_lt hn)
    rw [sampleCount_eq, elapsed_before, ← hend, hnext] at hmono
    exact hmono
  · have hkept := hz.last (z + 1) (Nat.lt_succ_self z) hlt (by rw [hstride, Nat.mod_one])
    rw [hnext] at hkept
    omega

/-- The lookup by decode time is right exactly where its walk reaches the sample. -/
theorem findsSample_iff (t : TimeToSample) (h : (expand t.entries).sum < 9223372036854775808)
    (dts : Int) : t.FindsSample dts ↔ t.Reaches dts := by
  by_cases hnone : dts < 0 ∨ t.sampleCount = 0
  · exact iff_of_true (findsSample_of_none hnone).1 (findsSample_of_none hnone).2
  · have hcount : t.sampleCount ≠ 0 := fun hzero => hnone (Or.inr hzero)
    obtain ⟨d, rfl⟩ : ∃ d : Nat, dts = d := Int.eq_ofNat_of_zero_le (by omega)
    rcases exists_found h hcount d with ⟨f, hf, hfound, hresult⟩
    rw [findsSample_iff_of_found h hf hresult]
    rcases hfound with ⟨hlast, hstops⟩ | ⟨z, hz, hfirst, hfz⟩
    · constructor
      · rintro ⟨hfit, -, -⟩
        refine ⟨fun z hz => absurd hz (hstops z), Or.inl fun n hn hle => ?_⟩
        exact (hlast.last n hn (by exact_mod_cast hle)).trans hfit
      · intro hreach
        refine ⟨?_, hlast.le_dts, fun m hm hle => t.elapsed_mono (hlast.last m hm hle)⟩
        rcases hreach.numbered with hall | ⟨z, hz, -⟩
        · exact hall f hf (by exact_mod_cast hlast.le_dts)
        · exact absurd hz (hstops z)
    · have hstop := t.elapsed_stop z
      rw [← hfz] at hstop
      have hstart : weight t.entries z ≤ d := by exact_mod_cast hz.start_le
      constructor
      · rintro ⟨hfit, -, hgreatest⟩
        refine ⟨fun z' hz' n hn hle => ?_, ?_⟩
        · have hn' := hgreatest n hn (by exact_mod_cast hle)
          exact (hn'.trans hstop.1).trans (weight_mono _ (hfirst z' hz'))
        · rcases Nat.le_total (before t.entries z) (t.sampleCount - 1) with hmin | hmin
          · exact Or.inr ⟨z, hz, by omega⟩
          · exact Or.inl fun n hn _ => by omega
      · intro hreach
        refine ⟨?_, hstop.1.trans hstart, fun m hm hle => ?_⟩
        · rcases hreach.numbered with hall | ⟨z', hz', hfit⟩
          · exact hall f hf (by exact_mod_cast hstop.1.trans hstart)
          · have hmono := before_mono t.entries (hfirst z' hz')
            omega
        · exact hstop.2 m hm (hreach.nothing_between z hz m hm (by exact_mod_cast hle))

/-- Three samples at time zero and two of 100 units behind them. -/
def pausedTable : TimeToSample :=
  .parse (SampleTable.wordsBox [2, 3, 0, 2, 100])

theorem findsSample_iff_paused : pausedTable.FindsSample 150 :=
  (findsSample_iff pausedTable (by decide +kernel) 150).mpr
    (reaches_of_stride_one (by decide +kernel) (by decide +kernel) 150)

/-- A run of zero delta, a run of three samples, and more runs of one sample than an index keeps
checkpoints for. -/
def stalledRuns : List (Nat × Nat) :=
  (1, 0) :: (3, 10) :: List.replicate 4096 (1, 10)

/-- The table of these runs. -/
def stalledTable : TimeToSample :=
  .parse
    { version := 0
      flags := 0
      body := Writer.table (fun run => be32 run.1 ++ be32 run.2) stalledRuns }

theorem length_stalledRuns : stalledRuns.length = 4098 := by
  rw [stalledRuns, List.length_cons, List.length_cons, List.length_replicate]

theorem stalled_entries : stalledTable.entries = stalledRuns := by
  apply entries_written
  · rw [length_stalledRuns]
    decide
  · intro run hrun
    rw [stalledRuns, List.mem_cons, List.mem_cons] at hrun
    rcases hrun with rfl | rfl | hrun
    · decide
    · decide
    · rw [List.eq_of_mem_replicate hrun]
      decide

theorem stalled_len : stalledTable.runs.len = 4098 := by
  have hlen := congrArg List.length stalled_entries
  rwa [entries, length_entryList, length_stalledRuns] at hlen

theorem stalled_stride : stalledTable.index.stride = 2 := by
  have hstride : stalledTable.index.stride = decimationStride stalledTable.runs.len :=
    RunIndex.build_stride _ _
  rw [hstride, stalled_len]
  decide

theorem stalled_stopsAt : stalledTable.StopsAt 15 0 := by
  have hlen : 0 < stalledTable.runs.len := by
    rw [stalled_len]
    decide
  refine ⟨hlen, ?_, ?_, ?_⟩
  · have hentry := getElem?_entries hlen
    rw [stalled_entries] at hentry
    rw [← Option.some.inj hentry]
  · rw [weight_zero]
    decide
  · intro c hpos _ hmod
    rw [stalled_stride] at hmod
    have hmono := weight_mono stalledTable.entries (show 2 ≤ c by omega)
    have hstart : weight stalledTable.entries 2 = 30 := by
      rw [stalled_entries]
      rfl
    omega

/-- The lookup of a time gives the sample of zero delta at time 0, and not the one at time 10. -/
theorem stalled_lookup_wrong : (expand stalledTable.entries).sum < 9223372036854775808 ∧
    ¬ stalledTable.FindsSample 15 := by
  have hsum : (expand stalledTable.entries).sum < 9223372036854775808 := by
    rw [stalled_entries, sum_expand, weight, List.take_length, stalledRuns, List.map_cons,
      List.map_cons, List.map_replicate, List.sum_cons, List.sum_cons, List.sum_replicate]
    decide
  have htime : stalledTable.elapsed 2 = 10 := by
    rw [elapsed, stalled_entries]
    rfl
  have hcount : 2 < stalledTable.sampleCount := by
    have hmono := before_mono stalledTable.entries (show 2 ≤ stalledTable.runs.len by
      rw [stalled_len]
      decide)
    have hstart : before stalledTable.entries 2 = 4 := by
      rw [stalled_entries]
      rfl
    rw [sampleCount_eq]
    omega
  refine ⟨hsum, fun hfinds => ?_⟩
  rcases exists_found hsum (by omega) 15 with ⟨f, hf, hfound, hresult⟩
  have hright := ((findsSample_iff_of_found hsum hf hresult).mp hfinds).2.2 2 hcount (by omega)
  rcases hfound with ⟨-, hstops⟩ | ⟨z, -, hfirst, hfz⟩
  · exact hstops 0 stalled_stopsAt
  · have hzero := hfirst 0 stalled_stopsAt
    rw [Nat.le_zero.mp hzero, before_zero, Nat.zero_min] at hfz
    have hstart : stalledTable.elapsed 0 = 0 := rfl
    rw [hfz, hstart] at hright
    omega

end TimeToSample

end Isom
end Vaco
