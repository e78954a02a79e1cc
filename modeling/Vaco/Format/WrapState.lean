import Vaco.Format.Options
import Vaco.Library.Transducer

/-!
# Wraparound correction of one clock

A container clock is a field of a few bits, so its values wrap.  The state places
the first value by the pivot that discovery established, then follows the clock by
whole periods: two consecutive values more than half a period apart are a wrap.
After a seek the offset is recomputed from the time that was asked for.

Main results:

- `WrapState.correct_unwraps`: corrected times follow the true ones.

Current gaps:

- A field of 63 bits has a negative period in the source; it is modelled, and the
  results are about fields of at most 62 bits.
-/

namespace Vaco
namespace Format

open Library Vaco.Core

/-- What to do with a timestamp on the wrong side of the pivot. -/
inductive WrapBehavior where
  | ignore
  | addOffset
  | subOffset
deriving DecidableEq

/-- Wraparound correction for one clock. -/
structure WrapState where
  bits : Nat
  reference : Option I64
  behavior : WrapBehavior
  offset : I64
  last : Option I64
  sawHigh : Bool
  correctOverflow : Bool
deriving DecidableEq

/-- One shifted left in a signed 64-bit word. -/
def shiftOne (bits : Nat) : I64 where
  val := (1#64 <<< bits).toInt
  le_val := BitVec.le_toInt _
  val_le := Int.le_of_lt_add_one BitVec.toInt_lt

theorem tdiv_two (v : Int) : v.tdiv 2 = v / 2 + if 0 ≤ v ∨ 2 ∣ v then 0 else 1 :=
  Int.tdiv_eq_ediv

/-- Half of a 64-bit value, rounded towards zero. -/
def halfOf (v : I64) : I64 where
  val := v.val.tdiv 2
  le_val := by
    have := v.le_val
    rw [tdiv_two]
    split <;> omega
  val_le := by
    have := v.val_le
    rw [tdiv_two]
    split <;> omega

theorem halfOf_val (v : I64) : (halfOf v).val = v.val.tdiv 2 :=
  rfl

namespace WrapState

/-- A state for a field of the given width. -/
def new (bits : Nat) : WrapState where
  bits := bits
  reference := none
  behavior := .ignore
  offset := .lit 0
  last := none
  sawHigh := false
  correctOverflow := true

/-- Honour the overflow-correction option. -/
def withOptions (s : WrapState) (opts : FormatOptions) : WrapState :=
  { s with correctOverflow := opts.correctTsOverflow }

/-- Whether this clock can wrap at all. -/
def wraps (s : WrapState) : Bool :=
  s.bits > 0 && s.bits < 64

/-- The period, when the clock can wrap. -/
def period (s : WrapState) : Option I64 :=
  if s.wraps then some (shiftOne s.bits) else none

/-- Feed a timestamp seen during stream discovery, to establish the pivot. -/
def observe (s : WrapState) (ts : I64) : WrapState :=
  match s.period with
  | none => s
  | some period =>
      let quarter := period.val.tdiv 4
      let half := halfOf period
      let threeQuarters := period.val.tdiv 4 * 3
      match s.reference with
      | none =>
          let s := { s with reference := some half }
          if ts.val > threeQuarters then
            { s with behavior := .addOffset, sawHigh := true }
          else if ts.val < quarter then
            { s with behavior := .ignore }
          else
            { s with behavior := .ignore }
      | some _ =>
          if ts.val > threeQuarters then
            if !s.sawHigh && s.behavior = .ignore then
              { s with behavior := .subOffset, sawHigh := true }
            else
              { s with sawHigh := true }
          else
            s

/-- Apply the pivot rule to one raw value. -/
def pivot (s : WrapState) (ts : I64) : I64 :=
  match s.period, s.reference with
  | some period, some r =>
      match s.behavior with
      | .ignore => ts
      | .addOffset => if ts.val < r.val then ts.saturatingAdd period else ts
      | .subOffset => if ts.val ≥ r.val then ts.saturatingSub period else ts
  | _, _ => ts

/-- The offset after one raw value, by the pivot or the distance to the value before. -/
def trackedOffset (s : WrapState) (period raw : I64) : I64 :=
  match s.last with
  | none => (s.pivot raw).saturatingSub raw
  | some prev =>
      if s.correctOverflow then
        let half := (halfOf period).val
        let delta := raw.val - prev.val
        if delta > half then
          s.offset.saturatingSub period
        else if delta < -half then
          s.offset.saturatingAdd period
        else
          s.offset
      else
        s.offset

def correct (s : WrapState) (ts : Timestamp) : WrapState × Timestamp :=
  match ts, s.period with
  | none, _ => (s, none)
  | some raw, none => (s, some raw)
  | some raw, some period =>
      let offset := s.trackedOffset period raw
      ({ s with offset := offset, last := some raw }, some (raw.saturatingAdd offset))

/-- The whole number of periods nearest to the distance between the target and the first value. -/
def resyncOffset (period target seen : I64) : I64 :=
  let diff := target.val - seen.val
  let p := period.val
  let periods := (diff + if diff ≥ 0 then p.tdiv 2 else -(p.tdiv 2)).tdiv p
  (toI64? (clampI128 (periods * p)).val).getD (.lit 0)

/-- Recompute the cumulative offset after a seek. -/
def resync (s : WrapState) (target firstSeen : Timestamp) : WrapState :=
  let s := { s with last := none }
  match s.period with
  | none => s
  | some period =>
      match target, firstSeen with
      | some t, some seen =>
          { s with offset := resyncOffset period t seen, last := some seen }
      | _, _ => { s with offset := .lit 0 }

/-- Forget everything derived from packets, keeping the field width. -/
def reset (s : WrapState) : WrapState :=
  { new s.bits with correctOverflow := s.correctOverflow }

/-! ## Fields that wrap -/

theorem shiftOne_val {bits : Nat} (h : bits ≤ 62) : (shiftOne bits).val = 2 ^ bits := by
  have hlt : 2 ^ bits < 2 ^ 63 := Nat.pow_lt_pow_right (by decide) (by omega)
  have hnat : (1#64 <<< bits).toNat = 2 ^ bits := by
    simp [BitVec.toNat_shiftLeft, Nat.one_shiftLeft]
    omega
  have hint : (1#64 <<< bits).toInt = (2 ^ bits : Nat) := by
    rw [BitVec.toInt_eq_toNat_of_lt (by omega), hnat]
  exact hint.trans (by norm_cast)

theorem period_eq {s : WrapState} {bits : Nat} (hs : s.bits = bits) (hpos : 1 ≤ bits)
    (hle : bits ≤ 62) :
    s.period = some (shiftOne bits) ∧ (shiftOne bits).val = 2 * 2 ^ (bits - 1) ∧
      0 < (shiftOne bits).val ∧ (shiftOne bits).val ≤ 4611686018427387904 ∧
      (halfOf (shiftOne bits)).val = 2 ^ (bits - 1) := by
  have hval : (shiftOne bits).val = 2 * 2 ^ (bits - 1) := by
    rw [shiftOne_val hle, ← pow_succ']
    congr 1
    omega
  have hhalf : (halfOf (shiftOne bits)).val = 2 ^ (bits - 1) := by
    rw [halfOf_val, hval]
    exact Int.mul_tdiv_cancel_left _ (by decide)
  have hpow : (0 : Int) < 2 ^ (bits - 1) := by positivity
  have hbound : (2 : Int) ^ (bits - 1) ≤ 2 ^ 61 :=
    pow_le_pow_right₀ (by decide) (by omega)
  refine ⟨?_, hval, by omega, by omega, hhalf⟩
  have hwraps : s.wraps = true := by
    simp [wraps, hs]
    omega
  rw [period, if_pos hwraps, hs]

theorem observe_frame (s : WrapState) (ts : I64) :
    (s.observe ts).bits = s.bits ∧ (s.observe ts).last = s.last ∧
      (s.observe ts).correctOverflow = s.correctOverflow := by
  unfold observe
  split
  · simp
  · dsimp only
    split <;> split <;> try split
    all_goals simp

theorem foldl_observe_frame (s : WrapState) (seen : List I64) :
    (seen.foldl observe s).bits = s.bits ∧ (seen.foldl observe s).last = s.last ∧
      (seen.foldl observe s).correctOverflow = s.correctOverflow := by
  induction seen generalizing s with
  | nil => simp
  | cons ts seen ih =>
      have hone := observe_frame s ts
      simp [ih, hone]

/-! ## Tracking the true time -/

/-- The values a 64-bit timestamp can hold. -/
abbrev FitsI64 (v : Int) : Prop :=
  -9223372036854775808 ≤ v ∧ v ≤ 9223372036854775807

/-- The clock follows true time `t` at a distance `shift`: its last raw value is the field of `t`. -/
structure Tracks (s : WrapState) (bits : Nat) (shift t : Int) : Prop where
  bits_eq : s.bits = bits
  corrects : s.correctOverflow = true
  last_eq : ∃ prev, s.last = some prev ∧ prev.val = t % 2 ^ bits
  offset_eq : s.offset.val = shift + t - t % 2 ^ bits

/-- Raw and true distance differ by one period exactly when the raw one exceeds half of it. -/
theorem emod_distance {p h t t' : Int} (hp : p = 2 * h) (hh : 0 < h) (hmove : |t' - t| < h) :
    (t' % p - t % p > h → t' - t' % p = t - t % p - p) ∧
      (t' % p - t % p < -h → t' - t' % p = t - t % p + p) ∧
      (¬ t' % p - t % p > h → ¬ t' % p - t % p < -h → t' - t' % p = t - t % p) := by
  have hpos : 0 < p := by omega
  have hlo := Int.emod_nonneg t hpos.ne'
  have hhi := Int.emod_lt_of_pos t hpos
  have hlo' := Int.emod_nonneg t' hpos.ne'
  have hhi' := Int.emod_lt_of_pos t' hpos
  have hdiv : t' - t' % p - (t - t % p) = p * (t' / p - t / p) := by
    have := Int.mul_ediv_add_emod t p
    have := Int.mul_ediv_add_emod t' p
    rw [mul_sub]
    omega
  rw [abs_lt] at hmove
  -- The number of periods between the two times is -1, 0 or 1.
  have hlow : -2 < t' / p - t / p := by
    by_contra hle
    have := mul_le_mul_of_nonneg_left (not_lt.mp hle) hpos.le
    omega
  have hhigh : t' / p - t / p < 2 := by
    by_contra hle
    have := mul_le_mul_of_nonneg_left (not_lt.mp hle) hpos.le
    omega
  generalize t' / p - t / p = k at *
  have hk : k = -1 ∨ k = 0 ∨ k = 1 := by omega
  rcases hk with rfl | rfl | rfl <;> omega

/-- One tracked value: the clock returns the shifted true time and keeps following
it. -/
theorem correct_tracks {s : WrapState} {bits : Nat} {shift t t' : Int} {raw : I64}
    (hpos : 1 ≤ bits) (hle : bits ≤ 62) (hs : s.Tracks bits shift t)
    (hraw : raw.val = t' % 2 ^ bits) (hmove : |t' - t| < 2 ^ (bits - 1))
    (hoffset : FitsI64 (shift + t' - raw.val)) :
    (correct s (some raw)).1.Tracks bits shift t' ∧
      (correct s (some raw)).2 = some (clampI64 (shift + t')) := by
  rcases period_eq hs.bits_eq hpos hle with ⟨hperiod, hval, hppos, hple, hhalf⟩
  rcases hs.last_eq with ⟨prev, hprev, hprevval⟩
  have hpow : (2 : Int) ^ bits = (shiftOne bits).val := (shiftOne_val hle).symm
  rw [hpow] at hraw hprevval
  have hhpos : (0 : Int) < 2 ^ (bits - 1) := by positivity
  rcases emod_distance hval hhpos hmove with ⟨hup, hdown, hstay⟩
  have hoff := hs.offset_eq
  rw [hpow] at hoff
  -- The offset never saturates: the one that is needed fits.
  have htrack : (s.trackedOffset (shiftOne bits) raw).val = shift + t' - raw.val := by
    simp only [trackedOffset, hprev, hs.corrects, if_true, hhalf, hprevval, hraw]
    split
    · rename_i h
      have := hup h
      rw [Ranged.saturatingSub, Ranged.clamp_of_mem] <;> omega
    · split
      · rename_i h
        have := hdown h
        rw [Ranged.saturatingAdd, Ranged.clamp_of_mem] <;> omega
      · rename_i h h'
        have := hstay h h'
        omega
  have hsum : raw.val + (s.trackedOffset (shiftOne bits) raw).val = shift + t' := by omega
  simp only [correct, hperiod]
  constructor
  · constructor
    · exact hs.bits_eq
    · exact hs.corrects
    · exact ⟨raw, rfl, by rw [hpow, hraw]⟩
    · rw [hpow, ← hraw]
      exact htrack
  · rw [Ranged.saturatingAdd, hsum]
    rfl

theorem outputs_of_tracks {s : WrapState} {bits : Nat} {t : ℕ → Int} {raw : ℕ → I64} {c : I64}
    (hpos : 1 ≤ bits) (hle : bits ≤ 62) (hraw : ∀ i, (raw i).val = t i % 2 ^ bits)
    (hstep : ∀ i, |t (i + 1) - t i| < 2 ^ (bits - 1))
    (hfirst : (correct s (some (raw 0))).1.Tracks bits (c.val - t 0) (t 0))
    (hanswer : (correct s (some (raw 0))).2 = some c) (n : Nat)
    (hfits : ∀ i ≤ n, FitsI64 (c.val - t 0 + t i - (raw i).val)) :
    (Transducer.stateAfter correct s ((List.range (n + 1)).map fun i => some (raw i))).Tracks bits
        (c.val - t 0) (t n) ∧
      Transducer.outputs correct s ((List.range (n + 1)).map fun i => some (raw i)) =
        (List.range (n + 1)).map fun i => some (clampI64 (c.val - t 0 + t i)) := by
  induction n with
  | zero => simp [hfirst, hanswer]
  | succ n ih =>
      rcases ih fun i hi => hfits i (by omega) with ⟨htracks, houts⟩
      have hone := correct_tracks hpos hle htracks (hraw (n + 1)) (hstep n)
        (hfits (n + 1) le_rfl)
      rw [List.range_succ, List.map_append, List.map_append, Transducer.stateAfter_append,
        Transducer.outputs_append, houts]
      exact ⟨hone.1, by simp [hone.2]⟩

/-! ## Fresh and resynchronised clocks -/

/-- Without history the pivot places the first value, on the clock's own grid. -/
theorem pivot_first {s : WrapState} {bits : Nat} {raw : I64} {t : Int} (hpos : 1 ≤ bits)
    (hle : bits ≤ 62) (hbits : s.bits = bits) (hcorrects : s.correctOverflow = true)
    (hlast : s.last = none) (hraw : raw.val = t % 2 ^ bits) :
    (correct s (some raw)).1.Tracks bits ((s.pivot raw).val - t) t ∧
      (correct s (some raw)).2 = some (s.pivot raw) ∧
      (s.pivot raw).val ≡ raw.val [ZMOD 2 ^ bits] := by
  rcases period_eq hbits hpos hle with ⟨hperiod, -, hppos, hple, -⟩
  have hpow : (2 : Int) ^ bits = (shiftOne bits).val := (shiftOne_val hle).symm
  rw [hpow] at hraw ⊢
  have hlo := Int.emod_nonneg t hppos.ne'
  have hhi := Int.emod_lt_of_pos t hppos
  -- The pivot moves by a whole period or not at all, and cannot saturate.
  have hpivot : (s.pivot raw).val = raw.val ∨
      (s.pivot raw).val = raw.val + (shiftOne bits).val ∨
      (s.pivot raw).val = raw.val - (shiftOne bits).val := by
    unfold pivot
    rw [hperiod]
    cases s.reference with
    | none => simp
    | some r =>
        cases s.behavior with
        | ignore => simp
        | addOffset =>
            dsimp only
            split
            · rw [Ranged.saturatingAdd, Ranged.clamp_of_mem] <;> omega
            · simp
        | subOffset =>
            dsimp only
            split
            · rw [Ranged.saturatingSub, Ranged.clamp_of_mem] <;> omega
            · simp
  have hoff : (s.trackedOffset (shiftOne bits) raw).val = (s.pivot raw).val - raw.val := by
    rw [trackedOffset, hlast, Ranged.saturatingSub, Ranged.clamp_of_mem] <;> omega
  have hsum : raw.saturatingAdd (s.trackedOffset (shiftOne bits) raw) = s.pivot raw := by
    rw [Ranged.saturatingAdd, hoff]
    simp
  simp only [correct, hperiod, hsum, true_and]
  refine ⟨⟨hbits, hcorrects, ⟨raw, rfl, by rw [hpow, hraw]⟩, ?_⟩, ?_⟩
  · rw [hoff, hpow, hraw]
    omega
  · rcases hpivot with h | h | h <;> rw [h] <;> simp [Int.ModEq]

theorem nearest_multiple {p d m k : Int} (hm : p ∣ m) (hk : p ∣ k)
    (hclose : 2 * |m - d| ≤ p) : |m - d| ≤ |k - d| := by
  by_cases heq : k = m
  · rw [heq]
  · have hfar : p ≤ |k - m| :=
      Int.le_of_dvd (abs_pos.mpr (sub_ne_zero.mpr heq)) ((dvd_abs _ _).mpr (dvd_sub hk hm))
    have htri : |k - m| ≤ |k - d| + |m - d| := by
      rw [abs_sub_comm m d]
      exact abs_sub_le k d m
    omega

/-- Among the values congruent to `raw` modulo the period, `v` is nearest
to the target. -/
def Nearest (bits : Nat) (raw target v : Int) : Prop :=
  v ≡ raw [ZMOD 2 ^ bits] ∧
    ∀ w, w ≡ raw [ZMOD 2 ^ bits] → |v - target| ≤ |w - target|

theorem roundedPeriods_nearest {p d h : Int} (hp : p = 2 * h) (hh : 0 < h) :
    2 * |(d + if d ≥ 0 then h else -h).tdiv p * p - d| ≤ p := by
  have hpos : 0 < p := by omega
  split
  · rename_i hd
    rw [Int.tdiv_eq_ediv_of_nonneg (by omega)]
    have := Int.ediv_mul_add_emod (d + h) p
    have := Int.emod_nonneg (d + h) hpos.ne'
    have := Int.emod_lt_of_pos (d + h) hpos
    rcases abs_cases ((d + h) / p * p - d) with ⟨habs, -⟩ | ⟨habs, -⟩ <;> omega
  · rename_i hd
    have hneg : (d + -h).tdiv p = -((-d + h) / p) := by
      rw [← Int.tdiv_eq_ediv_of_nonneg (by omega), ← Int.neg_tdiv]
      congr 1
      ring
    rw [hneg, neg_mul]
    have := Int.ediv_mul_add_emod (-d + h) p
    have := Int.emod_nonneg (-d + h) hpos.ne'
    have := Int.emod_lt_of_pos (-d + h) hpos
    rcases abs_cases (-((-d + h) / p * p) - d) with ⟨habs, -⟩ | ⟨habs, -⟩ <;> omega

/-- The first value behind a resynchronisation is nearest to the target, and the clock follows the
true time. -/
theorem resync_nearest {s : WrapState} {bits : Nat} {target raw : I64} {t : Int}
    (hpos : 1 ≤ bits) (hle : bits ≤ 62) (hbits : s.bits = bits)
    (hcorrects : s.correctOverflow = true) (hraw : raw.val = t % 2 ^ bits)
    (hfits : ∀ v, Nearest bits raw.val target.val v → FitsI64 v ∧ FitsI64 (v - raw.val)) :
    ∃ c : I64, Nearest bits raw.val target.val c.val ∧
      (correct (s.resync (some target) (some raw)) (some raw)).1.Tracks bits (c.val - t) t ∧
      (correct (s.resync (some target) (some raw)) (some raw)).2 = some c := by
  rcases period_eq hbits hpos hle with ⟨hperiod, hval, hppos, hple, hhalf⟩
  have hpow : (2 : Int) ^ bits = (shiftOne bits).val := (shiftOne_val hle).symm
  have hhpos : (0 : Int) < 2 ^ (bits - 1) := by positivity
  have htdiv : (shiftOne bits).val.tdiv 2 = 2 ^ (bits - 1) := hhalf
  set d := target.val - raw.val with hd
  set m := (d + if d ≥ 0 then 2 ^ (bits - 1) else -2 ^ (bits - 1)).tdiv (shiftOne bits).val *
    (shiftOne bits).val with hm
  have hclose : 2 * |m - d| ≤ (shiftOne bits).val := roundedPeriods_nearest hval hhpos
  have hnearest : Nearest bits raw.val target.val (raw.val + m) := by
    constructor
    · rw [hpow, hm]
      exact Int.modEq_iff_dvd.mpr (by simp)
    · intro w hw
      rw [hpow] at hw
      have hdvd : (shiftOne bits).val ∣ w - raw.val := Int.modEq_iff_dvd.mp hw.symm
      have hle := nearest_multiple (Dvd.intro_left _ rfl) hdvd hclose
      rw [← hm, hd] at hle
      rwa [show raw.val + m - target.val = m - (target.val - raw.val) by ring,
        show w - target.val = w - raw.val - (target.val - raw.val) by ring]
  rcases hfits _ hnearest with ⟨hvalue, hoffset⟩
  have hoffm : (resyncOffset (shiftOne bits) target raw).val = m := by
    have hfit : FitsI64 m := by
      rw [show m = raw.val + m - raw.val by ring]
      exact hoffset
    have hclamp : (clampI128 m).val = m :=
      Ranged.clamp_of_mem _ (by omega) (by omega)
    have hcast : toI64? m = some ⟨m, hfit.1, hfit.2⟩ := Ranged.ofInt?_of_mem ..
    simp only [resyncOffset, ← hd, htdiv, ← hm, hclamp, hcast, Option.getD_some]
  have hstate : s.resync (some target) (some raw) =
      { s with offset := resyncOffset (shiftOne bits) target raw, last := some raw } := by
    have : ({ s with last := none } : WrapState).period = some (shiftOne bits) := hperiod
    simp only [resync, this]
  have htracks : (s.resync (some target) (some raw)).Tracks bits (raw.val + m - t) t := by
    rw [hstate]
    refine ⟨hbits, hcorrects, ⟨raw, rfl, hraw⟩, ?_⟩
    rw [hoffm, hraw]
    ring
  have hone := correct_tracks hpos hle htracks hraw (by simp) (by simpa using hoffset)
  refine ⟨⟨raw.val + m, hvalue.1, hvalue.2⟩, hnearest, hone.1, ?_⟩
  rw [hone.2, sub_add_cancel]
  exact congrArg some (clampI64_val ⟨raw.val + m, hvalue.1, hvalue.2⟩)

/-- From a first answer `c` on every answer is congruent to its raw value and moves with the true
time, while nothing leaves 64 bits. -/
def FollowsFrom (s : WrapState) (bits : Nat) (t : ℕ → Int) (raw : ℕ → I64) (c0 : I64) : Prop :=
  ∀ n, (∀ i ≤ n, FitsI64 (c0.val + (t i - t 0)) ∧ FitsI64 (c0.val + (t i - t 0) - (raw i).val)) →
    ∃ c : ℕ → I64, c 0 = c0 ∧
      Transducer.outputs correct s ((List.range (n + 1)).map fun i => some (raw i)) =
        (List.range (n + 1)).map (fun i => some (c i)) ∧
      ∀ i ≤ n, (c i).val - (c 0).val = t i - t 0 ∧ (c i).val ≡ (raw i).val [ZMOD 2 ^ bits]

/-- A first answer that starts tracking is followed by every later one. -/
theorem followsFrom_of_tracks {s : WrapState} {bits : Nat} {t : ℕ → Int} {raw : ℕ → I64}
    {c0 : I64} (hpos : 1 ≤ bits) (hle : bits ≤ 62)
    (hraw : ∀ i, (raw i).val = t i % 2 ^ bits)
    (hstep : ∀ i, |t (i + 1) - t i| < 2 ^ (bits - 1))
    (hcongr : c0.val ≡ (raw 0).val [ZMOD 2 ^ bits])
    (hfirst : (correct s (some (raw 0))).1.Tracks bits (c0.val - t 0) (t 0))
    (hanswer : (correct s (some (raw 0))).2 = some c0) : s.FollowsFrom bits t raw c0 := by
  intro n hfits
  have hshift : ∀ i, c0.val - t 0 + t i = c0.val + (t i - t 0) := by
    intro i
    ring
  have hrun := outputs_of_tracks hpos hle hraw hstep hfirst hanswer n
    fun i hi => (hshift i) ▸ (hfits i hi).2
  have hval : ∀ i ≤ n, (clampI64 (c0.val + (t i - t 0))).val = c0.val + (t i - t 0) := by
    intro i hi
    exact Ranged.clamp_of_mem _ (hfits i hi).1.1 (hfits i hi).1.2
  refine ⟨fun i => clampI64 (c0.val + (t i - t 0)), by simp, ?_, ?_⟩
  · simpa only [hshift] using hrun.2
  · intro i hi
    constructor
    · rw [hval i hi, hval 0 (Nat.zero_le n)]
      ring
    · rw [hval i hi, hraw i]
      have hbase : c0.val - t 0 ≡ 0 [ZMOD 2 ^ bits] := by
        rw [hraw 0] at hcongr
        have := (hcongr.trans (Int.mod_modEq _ _)).sub_right (t 0)
        simpa using this
      have := (hbase.add_right (t i)).trans (by simpa using (Int.mod_modEq (t i) _).symm)
      rwa [hshift] at this

/-- Unwrapping is exact across any number of wraps, from a fresh clock and from one resynchronised
to a target, whose first answer is nearest to it. -/
theorem correct_unwraps {bits : Nat} (hpos : 1 ≤ bits) (hle : bits ≤ 62)
    {t : ℕ → Int} {raw : ℕ → I64} (hraw : ∀ i, (raw i).val = t i % 2 ^ bits)
    (hstep : ∀ i, |t (i + 1) - t i| < 2 ^ (bits - 1)) :
    (∀ (opts : FormatOptions) (seen : List I64), opts.correctTsOverflow = true →
      ∃ c0 : I64, c0.val ≡ (raw 0).val [ZMOD 2 ^ bits] ∧
        (seen.foldl observe ((new bits).withOptions opts)).FollowsFrom bits t raw c0) ∧
    ∀ (s : WrapState) (target : I64), s.bits = bits → s.correctOverflow = true →
      (∀ v, Nearest bits (raw 0).val target.val v → FitsI64 v ∧ FitsI64 (v - (raw 0).val)) →
      ∃ c0 : I64, Nearest bits (raw 0).val target.val c0.val ∧
        (s.resync (some target) (some (raw 0))).FollowsFrom bits t raw c0 := by
  constructor
  · intro opts seen hopts
    rcases foldl_observe_frame ((new bits).withOptions opts) seen with ⟨hbits, hlast, hcorrects⟩
    rcases pivot_first hpos hle hbits (hcorrects.trans hopts) hlast (hraw 0) with
      ⟨htracks, hanswer, hcongr⟩
    exact ⟨_, hcongr, followsFrom_of_tracks hpos hle hraw hstep hcongr htracks hanswer⟩
  · intro s target hbits hcorrects hfits
    rcases resync_nearest hpos hle hbits hcorrects (hraw 0) hfits with
      ⟨c0, hnearest, htracks, hanswer⟩
    exact ⟨c0, hnearest,
      followsFrom_of_tracks hpos hle hraw hstep hnearest.1 htracks hanswer⟩

/-- A 33-bit clock that moves by almost half a period at every step, from a fresh
state and after a seek. -/
theorem correct_unwraps_steady :
    (∃ c0 : I64, c0.val ≡ 0 [ZMOD 2 ^ 33] ∧
      FollowsFrom ((new 33).withOptions FormatOptions.default) 33
        (fun i => 4000000000 * i) (fun i => clampI64 (4000000000 * i % 2 ^ 33)) c0) ∧
    ∃ c0 : I64, Nearest 33 0 20000000000 c0.val ∧
      FollowsFrom ((new 33).resync (some (clampI64 20000000000)) (some (clampI64 0))) 33
        (fun i => 4000000000 * i) (fun i => clampI64 (4000000000 * i % 2 ^ 33)) c0 := by
  have hraw : ∀ i : ℕ, (clampI64 (4000000000 * i % 2 ^ 33)).val = 4000000000 * i % 2 ^ 33 := by
    intro i
    apply Ranged.clamp_of_mem <;> omega
  have hstep : ∀ i : ℕ, |(4000000000 * (i + 1 : ℕ) : Int) - 4000000000 * i| < 2 ^ (33 - 1) := by
    intro i
    have : (4000000000 * (i + 1 : ℕ) : Int) - 4000000000 * i = 4000000000 := by
      push_cast
      ring
    rw [this]
    decide
  rcases @correct_unwraps 33 (by decide) (by decide) (fun i => 4000000000 * i) _ hraw hstep
    with ⟨hfresh, hresync⟩
  refine ⟨hfresh FormatOptions.default [] rfl, ?_⟩
  apply hresync (new 33) (clampI64 20000000000) rfl rfl
  intro v hv
  have hbound := hv.2 0 rfl
  have htarget : (clampI64 20000000000).val = 20000000000 := rfl
  rw [htarget, abs_le] at hbound
  have : |(0 : Int) - 20000000000| = 20000000000 := rfl
  have hzero : (clampI64 (4000000000 * (0 : ℕ) % 2 ^ 33)).val = 0 := rfl
  rw [hzero]
  omega

end WrapState

end Format
end Vaco
