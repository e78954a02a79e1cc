import Vaco.Core.Packet
import Vaco.Format.PacketIndex

/-!
# Seeking by bisection

A seek without a native index halves a range of byte positions, asking the container for the first
sync point at or after a position.  What it finds goes into the index as well.

Main results:

- `Bisection.loop_ends`: the bisection ends close to the target.
- `binary_search_lands`: where a search lands.
-/

namespace Vaco
namespace Format

open Library Vaco.Core PacketIndex

/-- The smallest byte span that is bisected. -/
def MIN_SEEK_STEP : Nat := 65536

/-- The hard iteration cap. -/
def MAX_SEEK_ITERATIONS : Nat := 80

/-- Where a seek ends. -/
structure SeekLanding where
  pos : Nat
  timestamp : Timestamp
deriving DecidableEq

/-- What a container answers: the first sync point from a position up to a limit. -/
abbrev Probe : Type :=
  Nat → Nat → Except Error (Option (Nat × Timestamp))

/-- A bisection under way, with the number of probes so far. -/
structure Bisection where
  lo : Nat
  hi : Nat
  best : Option SeekLanding
  index : PacketIndex
  probes : Nat
deriving DecidableEq

namespace Bisection

def loop (want : Int) (probe : Probe) : Nat → Bisection → Except Error Unit × Bisection
  | 0, s => (.ok (), s)
  | left + 1, s =>
      if MIN_SEEK_STEP < s.hi - s.lo then
        let mid := satAddU64 s.lo ((s.hi - s.lo) / 2)
        let asked := { s with probes := s.probes + 1 }
        match probe mid s.hi with
        | .error e => (.error e, asked)
        | .ok none => loop want probe left { asked with hi := mid }
        | .ok (some (_, none)) => loop want probe left { asked with hi := mid }
        | .ok (some (found, some v)) =>
            let added := { asked with index := s.index.add (.keyframe found (some v)) }
            if v.val ≤ want then
              let landed := { added with best := some ⟨found, some v⟩ }
              let next := satAddU64 (max found mid) 1
              if s.hi ≤ next then (.ok (), landed)
              else loop want probe left { landed with lo := next }
            else loop want probe left { added with hi := mid }
      else (.ok (), s)

end Bisection

/-- Bisect byte positions to the last sync point at or before the target, counting the probes. -/
def binarySearch (target : Timestamp) (loPos hiPos : Nat) (index : PacketIndex) (probe : Probe) :
    Except Error (Option SeekLanding) × PacketIndex × Nat :=
  match target with
  | none => (.error (.invalidData "binary seek needs a target timestamp"), index, 0)
  | some want =>
      match Bisection.loop want.val probe MAX_SEEK_ITERATIONS
          ⟨loPos, max hiPos loPos, none, index, 0⟩ with
      | (.error e, s) => (.error e, s.index, s.probes)
      | (.ok (), s) =>
          match s.best with
          | some landing => (.ok (some landing), s.index, s.probes)
          | none =>
              match probe loPos hiPos with
              | .error e => (.error e, s.index, s.probes + 1)
              | .ok none => (.ok none, s.index, s.probes + 1)
              | .ok (some (found, ts)) =>
                  (.ok (some ⟨found, ts⟩), s.index.add (.keyframe found ts), s.probes + 1)

/-! ## Sync points -/

/-- The sync points of a file, by position, with timestamps that do not decrease. -/
structure SyncPoints where
  points : List (Nat × I64)
  ordered : points.Pairwise fun a b => a.1 < b.1 ∧ a.2.val ≤ b.2.val

namespace SyncPoints

def first (self : SyncPoints) (pos limit : Nat) : Option (Nat × I64) :=
  self.points.find? fun p => decide (pos ≤ p.1 ∧ p.1 ≤ limit)

/-- A container that finds these sync points. -/
def probe (self : SyncPoints) : Probe :=
  fun pos limit => .ok ((self.first pos limit).map fun p => (p.1, some p.2))

variable {self : SyncPoints} {pos limit : Nat} {p q : Nat × I64}

theorem le_of_pos_le (hp : p ∈ self.points) (hq : q ∈ self.points) (h : p.1 ≤ q.1) :
    p.2.val ≤ q.2.val := by
  rcases List.getElem?_of_mem hp with ⟨i, hi⟩
  rcases List.getElem?_of_mem hq with ⟨j, hj⟩
  rcases List.getElem?_eq_some_iff.mp hi with ⟨hil, rfl⟩
  rcases List.getElem?_eq_some_iff.mp hj with ⟨hjl, rfl⟩
  have hpair := List.pairwise_iff_getElem.mp self.ordered
  rcases Nat.lt_trichotomy i j with hlt | rfl | hgt
  · exact (hpair i j hil hjl hlt).2
  · exact le_rfl
  · exact absurd h (not_le.mpr (hpair j i hjl hil hgt).1)

theorem first_eq_none (h : self.first pos limit = none) (hq : q ∈ self.points) :
    ¬ (pos ≤ q.1 ∧ q.1 ≤ limit) := by
  have hnone := List.find?_eq_none.mp h q hq
  rwa [decide_eq_true_iff] at hnone

theorem first_eq_some (h : self.first pos limit = some p) :
    p ∈ self.points ∧ pos ≤ p.1 ∧ p.1 ≤ limit ∧
      ∀ q ∈ self.points, pos ≤ q.1 → q.1 ≤ limit → p.1 ≤ q.1 := by
  rcases List.find?_eq_some_iff_append.mp h with ⟨hp, before, behind, hpoints, hbefore⟩
  have hin := of_decide_eq_true hp
  have hordered := self.ordered
  rw [hpoints, List.pairwise_append, List.pairwise_cons] at hordered
  refine ⟨hpoints ▸ List.mem_append_right _ List.mem_cons_self, hin.1, hin.2, ?_⟩
  intro q hq hpos hlimit
  rw [hpoints] at hq
  rcases List.mem_append.mp hq with hq | hq
  · have hno := hbefore q hq
    rw [Bool.not_eq_true', decide_eq_false_iff_not] at hno
    exact absurd ⟨hpos, hlimit⟩ hno
  · rcases List.mem_cons.mp hq with rfl | hq
    · exact le_rfl
    · exact (hordered.2.1.1 q hq).1.le

end SyncPoints

namespace Bisection

variable (sync : SyncPoints) (want : I64) (loPos : Nat) (index : PacketIndex)

def Grown (now : PacketIndex) : Prop :=
  ∃ added, now = index.addAll added ∧
    ∀ e ∈ added, ∃ p ∈ sync.points, e = .keyframe p.1 (some p.2)

/-- What is known of a bisection: nothing wanted lies beyond it, and it starts right behind the
best landing. -/
structure Halving (s : Bisection) : Prop where
  ordered : s.lo ≤ s.hi
  beyond : ∀ q ∈ sync.points, s.hi < q.1 → want.val < q.2.val
  start : s.best = none → s.lo = loPos
  landed : ∀ b ∈ s.best, ∃ p ∈ sync.points, b = ⟨p.1, some p.2⟩ ∧ p.2.val ≤ want.val ∧
    s.lo = p.1 + 1
  index_grown : Grown sync index s.index

/-- What is known at the end: all that is wanted lies within a step of the best landing. -/
structure Ended (s : Bisection) : Prop where
  near : s.best = none → ∀ q ∈ sync.points, q.2.val ≤ want.val → q.1 ≤ loPos + MIN_SEEK_STEP
  landed : ∀ b ∈ s.best, ∃ p ∈ sync.points, b = ⟨p.1, some p.2⟩ ∧ p.2.val ≤ want.val ∧
    ∀ q ∈ sync.points, q.2.val ≤ want.val → q.1 < p.1 + MIN_SEEK_STEP + 2
  index_grown : Grown sync index s.index

variable {sync want loPos index} {s : Bisection} {probe : Probe}

theorem Grown.add {now : PacketIndex} (h : Grown sync index now) {p : Nat × I64}
    (hp : p ∈ sync.points) : Grown sync index (now.add (.keyframe p.1 (some p.2))) := by
  rcases h with ⟨added, rfl, hadded⟩
  refine ⟨added ++ [.keyframe p.1 (some p.2)], (addAll_append_singleton _ _ _).symm, ?_⟩
  intro e he
  rcases List.mem_append.mp he with he | he
  · exact hadded e he
  · exact ⟨p, hp, List.mem_singleton.mp he⟩

theorem Halving.ended (h : Halving sync want loPos index s) (hspan : s.hi - s.lo ≤ MIN_SEEK_STEP) :
    Ended sync want loPos index s := by
  have hle : ∀ q ∈ sync.points, q.2.val ≤ want.val → q.1 ≤ s.hi := fun q hq hqv =>
    not_lt.mp fun hlt => absurd (h.beyond q hq hlt) (not_lt.mpr hqv)
  have hordered := h.ordered
  refine ⟨fun hnone q hq hqv => ?_, fun b hb => ?_, h.index_grown⟩
  · have hstart := h.start hnone
    have hq' := hle q hq hqv
    omega
  · rcases h.landed b hb with ⟨p, hp, hbp, hpv, hlo⟩
    refine ⟨p, hp, hbp, hpv, fun q hq hqv => ?_⟩
    have hq' := hle q hq hqv
    omega

theorem Halving.cut (h : Halving sync want loPos index s) {mid : Nat} (hlo : s.lo ≤ mid)
    (hmid : ∀ q ∈ sync.points, mid ≤ q.1 → q.1 ≤ s.hi → want.val < q.2.val)
    {now : PacketIndex} (hnow : Grown sync index now) (probes : Nat) :
    Halving sync want loPos index ⟨s.lo, mid, s.best, now, probes⟩ where
  ordered := hlo
  beyond := by
    intro q hq hlt
    rcases Nat.lt_or_ge s.hi q.1 with hbeyond | hwithin
    · exact h.beyond q hq hbeyond
    · exact hmid q hq hlt.le hwithin
  start := h.start
  landed := h.landed
  index_grown := hnow

theorem Halving.advance (h : Halving sync want loPos index s) {p : Nat × I64}
    (hp : p ∈ sync.points) (hpv : p.2.val ≤ want.val) (hnext : p.1 + 1 < s.hi) {now : PacketIndex}
    (hnow : Grown sync index now) (probes : Nat) :
    Halving sync want loPos index ⟨p.1 + 1, s.hi, some ⟨p.1, some p.2⟩, now, probes⟩ where
  ordered := hnext.le
  beyond := h.beyond
  start := fun hnone => absurd hnone (Option.some_ne_none _)
  landed := fun _ hb => ⟨p, hp, (Option.mem_some_iff.mp hb).symm, hpv, rfl⟩
  index_grown := hnow

theorem Halving.broken (h : Halving sync want loPos index s) {p : Nat × I64}
    (hp : p ∈ sync.points) (hpv : p.2.val ≤ want.val) (hnext : s.hi ≤ p.1 + 1) {now : PacketIndex}
    (hnow : Grown sync index now) (probes : Nat) :
    Ended sync want loPos index ⟨s.lo, s.hi, some ⟨p.1, some p.2⟩, now, probes⟩ where
  near := fun hnone => absurd hnone (Option.some_ne_none _)
  landed := by
    intro b hb
    refine ⟨p, hp, (Option.mem_some_iff.mp hb).symm, hpv, fun q hq hqv => ?_⟩
    have hq' : q.1 ≤ s.hi := not_lt.mp fun hlt => absurd (h.beyond q hq hlt) (not_lt.mpr hqv)
    omega
  index_grown := hnow

/-- The bisection ends within one step of what is wanted, and every probe halves the span. -/
theorem loop_ends {m left : Nat} (hm : m ≤ left) (h : Halving sync want loPos index s)
    (hspan : s.hi - s.lo ≤ MIN_SEEK_STEP * 2 ^ m) (hhi : s.hi ≤ u64Max) :
    ∃ r, loop want.val sync.probe left s = (.ok (), r) ∧ Ended sync want loPos index r ∧
      r.probes ≤ s.probes + m := by
  induction m generalizing left s with
  | zero =>
      rw [pow_zero, Nat.mul_one] at hspan
      refine ⟨s, ?_, h.ended hspan, le_rfl⟩
      cases left with
      | zero => rfl
      | succ left => rw [loop, if_neg (not_lt.mpr hspan)]
  | succ m ih =>
      rcases Nat.exists_eq_add_of_le' (Nat.lt_of_lt_of_le (Nat.succ_pos m) hm) with ⟨left, rfl⟩
      by_cases hwide : MIN_SEEK_STEP < s.hi - s.lo
      · rw [loop, if_pos hwide]
        have hordered := h.ordered
        have hmid : satAddU64 s.lo ((s.hi - s.lo) / 2) = s.lo + (s.hi - s.lo) / 2 :=
          satAddU64_of_le (by omega)
        rw [pow_succ, ← Nat.mul_assoc] at hspan
        simp only [hmid, SyncPoints.probe]
        set mid := s.lo + (s.hi - s.lo) / 2 with hmideq
        have hcut : ∀ now, Grown sync index now →
            (∀ q ∈ sync.points, mid ≤ q.1 → q.1 ≤ s.hi → want.val < q.2.val) →
            ∃ r, loop want.val sync.probe left ⟨s.lo, mid, s.best, now, s.probes + 1⟩ =
                (.ok (), r) ∧ Ended sync want loPos index r ∧ r.probes ≤ s.probes + (m + 1) := by
          intro now hnow hmidq
          rcases ih (Nat.le_of_succ_le_succ hm)
            (h.cut (Nat.le_add_right _ _) hmidq hnow (s.probes + 1))
            (by dsimp only; omega) (by dsimp only; omega) with ⟨r, hr, hended, hcount⟩
          exact ⟨r, hr, hended, by dsimp only at hcount; omega⟩
        cases hfirst : sync.first mid s.hi with
        | none =>
            exact hcut s.index h.index_grown fun q hq hlo hle =>
              absurd ⟨hlo, hle⟩ (SyncPoints.first_eq_none hfirst hq)
        | some p =>
            rcases SyncPoints.first_eq_some hfirst with ⟨hp, hmidp, hphi, hleast⟩
            have hgrown := h.index_grown.add hp
            dsimp only [Option.map_some]
            by_cases hpv : p.2.val ≤ want.val
            · rw [if_pos hpv, max_eq_left hmidp]
              by_cases hnext : p.1 + 1 < s.hi
              · rw [satAddU64_of_le (by omega), if_neg (not_le.mpr hnext)]
                rcases ih (Nat.le_of_succ_le_succ hm)
                  (h.advance hp hpv hnext hgrown (s.probes + 1))
                  (by dsimp only; omega) hhi with ⟨r, hr, hended, hcount⟩
                exact ⟨r, hr, hended, by dsimp only at hcount; omega⟩
              · rw [satAddU64, if_pos (le_min (not_lt.mp hnext) hhi)]
                exact ⟨_, rfl, h.broken hp hpv (not_lt.mp hnext) hgrown (s.probes + 1),
                  by dsimp only; omega⟩
            · rw [if_neg hpv]
              refine hcut _ hgrown fun q hq hlo hle => ?_
              exact (not_le.mp hpv).trans_le (SyncPoints.le_of_pos_le hp hq (hleast q hq hlo hle))
      · refine ⟨s, ?_, h.ended (not_lt.mp hwide), Nat.le_add_right _ _⟩
        rw [loop, if_neg hwide]

end Bisection

/-! ## Landing -/

/-- Where a search lands, and what it leaves in the index. -/
structure Lands (sync : SyncPoints) (want : I64) (index : PacketIndex)
    (r : Except Error (Option SeekLanding) × PacketIndex × Nat) : Prop where
  probes_le : r.2.2 ≤ 49
  returns : ∃ landing, r.1 = .ok landing ∧ (landing = none ↔ sync.points = [])
  landed : ∀ landing, r.1 = .ok (some landing) → ∃ p ∈ sync.points, landing = ⟨p.1, some p.2⟩ ∧
    if ∃ q ∈ sync.points, q.2.val ≤ want.val then
      p.2.val ≤ want.val ∧
        ∀ q ∈ sync.points, q.2.val ≤ want.val → q.1 < p.1 + (MIN_SEEK_STEP + 2)
    else ∀ q ∈ sync.points, p.1 ≤ q.1
  index_grown : Bisection.Grown sync index r.2.1

theorem binary_search_lands (sync : SyncPoints) (want : I64) (loPos hiPos : Nat)
    (index : PacketIndex) (hhi : max hiPos loPos ≤ u64Max)
    (hwithin : ∀ q ∈ sync.points, loPos ≤ q.1 ∧ q.1 ≤ hiPos) :
    Lands sync want index (binarySearch (some want) loPos hiPos index sync.probe) := by
  have hstart : Bisection.Halving sync want loPos index
      ⟨loPos, max hiPos loPos, none, index, 0⟩ := by
    refine ⟨le_max_right _ _, fun q hq hlt => ?_, fun _ => rfl, fun b hb => ?_, ⟨[], rfl, ?_⟩⟩
    · exact absurd ((hwithin q hq).2.trans (le_max_left _ _)) (not_le.mpr hlt)
    · cases hb
    · exact fun e he => absurd he List.not_mem_nil
  have hiters : 48 ≤ MAX_SEEK_ITERATIONS := by decide
  rcases Bisection.loop_ends hiters hstart
    (Nat.le_trans (Nat.sub_le _ _) (hhi.trans (by decide))) hhi with ⟨r, hr, hended, hcount⟩
  rw [binarySearch, hr]
  dsimp only at hcount ⊢
  cases hbest : r.best with
  | some b =>
      rcases hended.landed b hbest with ⟨p, hp, hbp, hpv, hnear⟩
      refine ⟨by dsimp only; omega, ⟨some b, rfl, ?_⟩, ?_, hended.index_grown⟩
      · exact iff_of_false (Option.some_ne_none b) (List.ne_nil_of_mem hp)
      · intro landing heq
        have hlanding := Option.some.inj (Except.ok.inj heq)
        refine ⟨p, hp, hlanding ▸ hbp, ?_⟩
        rw [if_pos ⟨p, hp, hpv⟩]
        exact ⟨hpv, hnear⟩
  | none =>
      dsimp only [SyncPoints.probe]
      cases hfirst : sync.first loPos hiPos with
      | none =>
          have hempty : sync.points = [] := List.eq_nil_iff_forall_not_mem.mpr fun q hq =>
            SyncPoints.first_eq_none hfirst hq (hwithin q hq)
          refine ⟨by dsimp only [Option.map_none]; omega, ⟨none, rfl, iff_of_true rfl hempty⟩, ?_,
            hended.index_grown⟩
          intro landing heq
          cases Except.ok.inj heq
      | some p =>
          rcases SyncPoints.first_eq_some hfirst with ⟨hp, hlo, -, hleast⟩
          have hfirst' : ∀ q ∈ sync.points, p.1 ≤ q.1 := fun q hq =>
            hleast q hq (hwithin q hq).1 (hwithin q hq).2
          refine ⟨by dsimp only [Option.map_some]; omega, ⟨_, rfl, ?_⟩, ?_,
            hended.index_grown.add hp⟩
          · exact iff_of_false (Option.some_ne_none _) (List.ne_nil_of_mem hp)
          · intro landing heq
            refine ⟨p, hp, (Option.some.inj (Except.ok.inj heq)).symm, ?_⟩
            split
            · rename_i hex
              rcases hex with ⟨q, hq, hqv⟩
              refine ⟨(SyncPoints.le_of_pos_le hp hq (hfirst' q hq)).trans hqv,
                fun q' hq' hqv' => ?_⟩
              have hnear := hended.near hbest q' hq' hqv'
              omega
            · exact hfirst'

/-- Two sync points far apart. -/
def farApart : SyncPoints where
  points := [(1000, clampI64 5), (500000, clampI64 9)]
  ordered := by decide

theorem binary_search_lands_far_apart :
    Lands farApart (clampI64 7) (withOptions (castI32 4096))
      (binarySearch (some (clampI64 7)) 0 1000000 (withOptions (castI32 4096)) farApart.probe) :=
  binary_search_lands farApart (clampI64 7) 0 1000000 (withOptions (castI32 4096)) (by decide)
    (by decide)

end Format
end Vaco
