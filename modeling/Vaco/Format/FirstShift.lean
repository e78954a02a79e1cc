import Vaco.Core.Duration
import Vaco.Format.MuxTimestamps

/-!
# Where the shift puts the first packet

The shift that avoids negative times is measured on the first packet: its earliest time is
floored to microseconds, the sign is changed, and the microseconds are rounded back to
ticks of the output base.  What the flooring cuts off comes back as a part of a tick; the
packet lands on zero where that part is rounded off again.

Main results:

- `measuredTicks_eq_neg_iff`: when the measured shift is exact.
- `first_packet_lands`: where the first packet lands.
-/

namespace Vaco
namespace Format

open Library Vaco.Core

namespace MuxTimestamps

/-! ## The earliest time of a packet -/

theorem earliest_map {f : I64 → I64} (hf : Monotone f) (pts dts : Timestamp) :
    earliest (pts.map f) (dts.map f) = (earliest pts dts).map f := by
  cases pts with
  | none => cases dts <;> rfl
  | some p =>
      cases dts with
      | none => rfl
      | some d => exact congrArg some (hf.map_min).symm

theorem earliest_le {pts dts : Timestamp} {t u : I64} (h : earliest pts dts = some t)
    (hu : pts = some u ∨ dts = some u) : t ≤ u := by
  cases pts with
  | none =>
      have hdts : dts = some t := h
      rcases hu with hpts | hu
      · cases hpts
      · exact (Option.some.inj (hdts.symm.trans hu)).le
  | some p =>
      cases dts with
      | none =>
          have hpts : some p = some t := h
          rcases hu with hu | hdts
          · exact (Option.some.inj (hpts.symm.trans hu)).le
          · cases hdts
      | some d =>
          have hmin : min p d = t := Option.some.inj h
          rcases hu with hu | hu
          · exact hmin ▸ Option.some.inj hu ▸ min_le_left p d
          · exact hmin ▸ Option.some.inj hu ▸ min_le_right p d

/-! ## The measured shift -/

/-- What flooring a tick count to microseconds cuts off, in parts of the denominator. -/
def cutOff (dst : TimeBase) (t : Int) : Int :=
  t * dst.num.val * 1000000 % dst.den.val

/-- What flooring to microseconds cuts off is less than half a tick, or half a tick of a positive
time. -/
def RoundsOff (dst : TimeBase) (t : Int) : Prop :=
  2 * cutOff dst t < dst.num.val * 1000000 ∨
    2 * cutOff dst t = dst.num.val * 1000000 ∧ 0 < t

instance (dst : TimeBase) (t : Int) : Decidable (RoundsOff dst t) :=
  inferInstanceAs (Decidable (_ ∨ _))

/-- A tick count in whole microseconds. -/
def flooredUs (dst : TimeBase) (t : Int) : Int :=
  t * dst.num.val * 1000000 / dst.den.val

/-- The ticks that take back the floored microseconds. -/
def measuredTicks (dst : TimeBase) (t : Int) : Int :=
  nearestAway (((-flooredUs dst t : Int) : ℚ) / 1000000 / dst.value)

/-- The measured shift takes a time to zero exactly when what was cut off is rounded
off. -/
theorem measuredTicks_eq_neg_iff {dst : TimeBase} (hdst : TimeBase.Positive dst) (t : Int) :
    measuredTicks dst t = -t ↔ RoundsOff dst t := by
  have hnum : (0 : ℚ) < dst.num.val * 1000000 := by
    have : (0 : ℚ) < dst.num.val := by exact_mod_cast hdst.1
    linarith
  have hnumq : (dst.num.val : ℚ) ≠ 0 := by exact_mod_cast hdst.1.ne'
  have hdenq : (dst.den.val : ℚ) ≠ 0 := by exact_mod_cast hdst.2.ne'
  have hsplit : flooredUs dst t * dst.den.val =
      t * (dst.num.val * 1000000) - cutOff dst t := by
    have := Int.mul_ediv_add_emod (t * dst.num.val * 1000000) dst.den.val
    rw [flooredUs, cutOff]
    linarith
  have hexact : ((-flooredUs dst t : Int) : ℚ) / 1000000 / dst.value =
      (cutOff dst t : ℚ) / (dst.num.val * 1000000) - t := by
    have hcast : (flooredUs dst t : ℚ) * dst.den.val =
        t * (dst.num.val * 1000000) - cutOff dst t := by exact_mod_cast hsplit
    rw [Rational.value, eq_sub_iff_add_eq, eq_div_iff hnum.ne']
    push_cast
    field_simp
    linarith
  have hnonneg : (0 : ℚ) ≤ (cutOff dst t : ℚ) / (dst.num.val * 1000000) := by
    have : 0 ≤ cutOff dst t := Int.emod_nonneg _ hdst.2.ne'
    exact div_nonneg (by exact_mod_cast this) hnum.le
  rw [measuredTicks, hexact, nearestAway_sub_eq_neg_iff hnonneg, RoundsOff, ← mul_div_assoc,
    div_lt_one hnum, div_eq_one_iff_eq hnum.ne']
  norm_cast

theorem flooredUs_neg_iff {dst : TimeBase} (hdst : TimeBase.Positive dst) (t : Int) :
    flooredUs dst t < 0 ↔ t < 0 := by
  have hfactor : 0 < dst.num.val * 1000000 := by
    have := hdst.1
    omega
  rw [flooredUs, Int.ediv_lt_iff_lt_mul hdst.2, Int.zero_mul, Int.mul_assoc]
  constructor
  · intro h
    exact neg_of_mul_neg_left h hfactor.le
  · intro h
    exact mul_neg_of_neg_of_pos h hfactor

/-- Microseconds of a tick count, floored, as the chain measures them. -/
theorem rescale_floored {dst : TimeBase} (hdst : TimeBase.Positive dst) (t : Timestamp) :
    t.rescale dst Rational.MICROSECONDS .down =
      t.map fun ticks => clampI64 (flooredUs dst ticks.val) := by
  cases t with
  | none => rfl
  | some ticks =>
      rcases Timestamp.muldivRnd_rescale hdst.usable
        (show TimeBase.Usable Rational.MICROSECONDS by decide) ticks .down with
        ⟨b, c, hfactors, hquotient⟩
      have hvalue : (ticks.val : ℚ) * dst.value / Rational.MICROSECONDS.value =
          ((ticks.val * dst.num.val * 1000000 : Int) : ℚ) / dst.den.val := by
        have hus : Rational.MICROSECONDS.value = 1 / 1000000 := by
          rw [Rational.value]
          norm_num [Rational.MICROSECONDS]
        rw [hus, Rational.value]
        push_cast
        ring
      have hfloor : Rounding.round .down ((ticks.val : ℚ) * dst.value /
          Rational.MICROSECONDS.value) = flooredUs dst ticks.val := by
        rw [hvalue, Rounding.round, Int.floor_div_cast_of_nonneg hdst.2.le, Int.floor_intCast]
        rfl
      rw [Timestamp.rescale, hfactors]
      simp only [Option.bind_eq_bind, Option.bind_some]
      rw [hquotient, hfloor]
      rfl

theorem toTicks_saturatingNeg {dst : TimeBase} (hdst : TimeBase.Positive dst) {t : Int} {us : I64}
    (hus : us.saturatingNeg.val = -flooredUs dst t) :
    (Duration.fromMicros us.saturatingNeg).toTicks dst = toI64? (measuredTicks dst t) := by
  have hden := Duration.fromMicros_denominator_le us.saturatingNeg
  rw [Duration.toTicks, Duration.toTicksRounding_eq _ hdst.usable (by omega),
    Duration.fromMicros_value, hus]
  rfl

theorem shiftPacket_zero {zero : I64} (h : zero.val = 0) (pkt : Packet) :
    shiftPacket (some zero) pkt = pkt := by
  have hadd : (fun ticks : I64 => ticks.saturatingAdd zero) = id := by
    funext ticks
    rw [Ranged.saturatingAdd, h, Int.add_zero]
    exact Ranged.clamp_val _ ticks
  rw [shiftPacket, Timestamp.offset, Timestamp.offset, hadd, Option.map_id]
  rfl

/-! ## The first packet -/

/-- A packet as it reaches the shift: in the output base, with a decode time, moved by the
user's offset. -/
def reaching (m : MuxTimestamps) (pkt : Packet) (src dst : TimeBase) : Except Error Packet :=
  ((m.countPacket pkt.streamIndex).giveDts (m.decodeIndex[pkt.streamIndex]?)
    (pkt.rescaleTs src dst Rounding.default) dst).map (shiftPacket (m.outputTicks dst))

/-- A packet whose times moved by the same number of ticks, the earliest to a target. -/
def Lands (before after : Packet) (target : Int) : Prop :=
  (earliest after.pts after.dts).map (·.val) = some target ∧
    ∃ ticks : Int, after.pts.map (·.val) = before.pts.map (·.val + ticks) ∧
      after.dts.map (·.val) = before.dts.map (·.val + ticks)

/-- No time of the packet saturates: not the earliest one, nor its negation, nor those moved by it.
-/
structure Unsaturated (pkt : Packet) (dst : TimeBase) (t : Int) : Prop where
  lt_flooredUs : -9223372036854775808 < flooredUs dst t
  flooredUs_le : flooredUs dst t ≤ 9223372036854775807
  lt_first : -9223372036854775808 < t
  moved : ∀ u : I64, pkt.pts = some u ∨ pkt.dts = some u → u.val - t ≤ 9223372036854775807

variable {m : MuxTimestamps} {pkt before : Packet} {src dst : TimeBase} {t : I64}

theorem offset_val {time : Timestamp} {ticks : I64}
    (h : ∀ u : I64, time = some u → -9223372036854775808 ≤ u.val + ticks.val ∧
      u.val + ticks.val ≤ 9223372036854775807) :
    (time.offset ticks).map (·.val) = time.map (·.val + ticks.val) := by
  cases time with
  | none => rfl
  | some u => exact congrArg some (Ranged.clamp_of_mem _ (h u rfl).1 (h u rfl).2)

theorem earliest_shiftPacket (ticks : I64) (pkt : Packet) :
    earliest (shiftPacket (some ticks) pkt).pts (shiftPacket (some ticks) pkt).dts =
      (earliest pkt.pts pkt.dts).map fun u => u.saturatingAdd ticks :=
  earliest_map (fun _ _ hle => Ranged.saturatingAdd_mono ticks hle) pkt.pts pkt.dts

/-- The measured ticks take a packet to zero exactly when what was cut off is rounded
off. -/
theorem lands_shiftPacket_iff (hdst : TimeBase.Positive dst)
    (ht : earliest before.pts before.dts = some t) (hsat : Unsaturated before dst t.val) :
    Lands before (shiftPacket (toI64? (measuredTicks dst t.val)) before) 0 ↔
      RoundsOff dst t.val := by
  rw [← measuredTicks_eq_neg_iff hdst]
  have hlow := t.le_val
  have hhigh := t.val_le
  have hlt := hsat.lt_first
  constructor
  · rintro ⟨hzero, -⟩
    cases hticks : toI64? (measuredTicks dst t.val) with
    | none =>
        -- Ticks that do not fit move nothing, and nothing had to be moved only at zero.
        rw [hticks, shiftPacket, ht] at hzero
        have hfirst : t.val = 0 := Option.some.inj hzero
        have hrounds : measuredTicks dst t.val = -t.val := by
          rw [measuredTicks_eq_neg_iff hdst, RoundsOff, cutOff, hfirst]
          have := hdst.1
          simp
          omega
        rw [hrounds, hfirst] at hticks
        cases hticks
    | some ticks =>
        rw [hticks, earliest_shiftPacket, ht] at hzero
        have hclamp :
            max (-9223372036854775808) (min 9223372036854775807 (t.val + ticks.val)) = 0 :=
          Option.some.inj hzero
        have hval := Ranged.ofInt?_eq_some_iff.mp hticks
        omega
  · intro hrounds
    have hticks : toI64? (-t.val) = some ⟨-t.val, by omega, by omega⟩ := Ranged.ofInt?_of_mem _ _
    have hmoved : ∀ u : I64, before.pts = some u ∨ before.dts = some u →
        -9223372036854775808 ≤ u.val + -t.val ∧ u.val + -t.val ≤ 9223372036854775807 := by
      intro u hu
      have hle := Ranged.le_iff.mp (earliest_le ht hu)
      have := hsat.moved u hu
      omega
    rw [hrounds, hticks]
    refine ⟨?_, -t.val, ?_, ?_⟩
    · rw [earliest_shiftPacket, ht, Option.map_some, Option.map_some, Ranged.saturatingAdd]
      dsimp only
      rw [add_neg_cancel]
      rfl
    · exact offset_val fun u hu => hmoved u (Or.inl hu)
    · exact offset_val fun u hu => hmoved u (Or.inr hu)

theorem flooredUs_mono (hdst : TimeBase.Positive dst) :
    Monotone fun ticks : I64 => clampI64 (flooredUs dst ticks.val) := by
  intro u v huv
  refine Ranged.clamp_mono _ (Int.ediv_le_ediv hdst.2 ?_)
  have hnum := mul_le_mul_of_nonneg_right (Ranged.le_iff.mp huv) hdst.1.le
  exact mul_le_mul_of_nonneg_right hnum (by decide)

theorem establishOffset_first (hdst : TimeBase.Positive dst) (hnone : m.offsetUs = none)
    (hpolicy : m.policy ≠ .disabled) (ht : earliest before.pts before.dts = some t) :
    (m.establishOffset before dst).offsetUs =
      some (policyOffset m.policy (clampI64 (flooredUs dst t.val))) := by
  have hunsettled : ¬(m.offsetUs.isSome ∨ m.policy = .disabled) := by simp [hnone, hpolicy]
  rw [establishOffset, if_neg hunsettled]
  simp only [rescale_floored hdst, earliest_map (flooredUs_mono hdst), ht, Option.map_some]

/-- A chain that settles on the negated earliest time shifts by the measured ticks. -/
theorem establishOffset_frozenTicks (hdst : TimeBase.Positive dst) (hnone : m.offsetUs = none)
    (hpolicy : m.policy ≠ .disabled) (ht : earliest before.pts before.dts = some t)
    (hsat : Unsaturated before dst t.val)
    (hneg : policyOffset m.policy (clampI64 (flooredUs dst t.val)) =
      (clampI64 (flooredUs dst t.val)).saturatingNeg) :
    shiftPacket ((m.establishOffset before dst).frozenTicks dst) before =
      shiftPacket (toI64? (measuredTicks dst t.val)) before := by
  have hlow := hsat.lt_flooredUs
  have hhigh := hsat.flooredUs_le
  have hus : (clampI64 (flooredUs dst t.val)).val = flooredUs dst t.val :=
    Ranged.clamp_of_mem _ hlow.le hhigh
  have hoff : (clampI64 (flooredUs dst t.val)).saturatingNeg.val = -flooredUs dst t.val := by
    rw [Ranged.saturatingNeg, hus]
    exact Ranged.clamp_of_mem _ (by omega) (by omega)
  rw [frozenTicks, establishOffset_first hdst hnone hpolicy ht, hneg]
  by_cases hzero : flooredUs dst t.val = 0
  · have hticks : measuredTicks dst t.val = 0 := by
      rw [measuredTicks, hzero]
      simp [nearestAway]
    rw [hticks]
    dsimp only
    rw [hoff, hzero, if_neg (by decide)]
    exact (shiftPacket_zero rfl before).symm
  · dsimp only
    rw [hoff, if_pos (by omega), toTicks_saturatingNeg hdst hoff]

theorem apply_packet (htimes : m.notimestamps = false)
    (hreach : m.reaching pkt src dst = .ok before) :
    (m.apply pkt src dst).2.1 =
      shiftPacket (((m.countPacket pkt.streamIndex).establishOffset before dst).frozenTicks dst)
        before := by
  unfold reaching at hreach
  cases hdts : (m.countPacket pkt.streamIndex).giveDts (m.decodeIndex[pkt.streamIndex]?)
      (pkt.rescaleTs src dst Rounding.default) dst with
  | error e =>
      rw [hdts] at hreach
      cases hreach
  | ok pkt' =>
      rw [hdts] at hreach
      cases hreach
      rw [apply_of_giveDts htimes hdts, checkAndRemember]
      split
      · rfl
      · split <;> rfl

theorem not_lands_of_notimestamps (htimes : m.notimestamps = true) (target : Int) :
    ¬ Lands before (m.apply pkt src dst).2.1 target := by
  rintro ⟨hfirst, -⟩
  simp [apply, htimes, earliest] at hfirst

theorem lands_self (ht : earliest before.pts before.dts = some t) :
    Lands before before t.val := by
  refine ⟨by rw [ht]; rfl, 0, ?_, ?_⟩ <;> simp

theorem lands_makeZero_iff (hdst : TimeBase.Positive dst) (hnone : m.offsetUs = none)
    (hpolicy : m.policy = .makeZero) (ht : earliest before.pts before.dts = some t)
    (hsat : Unsaturated before dst t.val) :
    Lands before (shiftPacket ((m.establishOffset before dst).frozenTicks dst) before) 0 ↔
      RoundsOff dst t.val := by
  rw [establishOffset_frozenTicks hdst hnone (by simp [hpolicy]) ht hsat (by rw [hpolicy]; rfl)]
  exact lands_shiftPacket_iff hdst ht hsat

/-- The first packet is taken to the later of zero and its earliest time exactly when that is no
earlier than zero or what was cut off is rounded off. -/
theorem lands_makeNonNegative_iff (hdst : TimeBase.Positive dst) (hnone : m.offsetUs = none)
    (hpolicy : m.policy = .makeNonNegative) (ht : earliest before.pts before.dts = some t)
    (hsat : Unsaturated before dst t.val) :
    Lands before (shiftPacket ((m.establishOffset before dst).frozenTicks dst) before)
        (max 0 t.val) ↔
      0 ≤ t.val ∨ RoundsOff dst t.val := by
  have hus : (clampI64 (flooredUs dst t.val)).val = flooredUs dst t.val :=
    Ranged.clamp_of_mem _ hsat.lt_flooredUs.le hsat.flooredUs_le
  rcases Int.lt_or_le t.val 0 with hneg | hnonneg
  · have hoffset : policyOffset m.policy (clampI64 (flooredUs dst t.val)) =
        (clampI64 (flooredUs dst t.val)).saturatingNeg := by
      rw [hpolicy, policyOffset, hus, if_pos ((flooredUs_neg_iff hdst t.val).mpr hneg)]
    rw [establishOffset_frozenTicks hdst hnone (by simp [hpolicy]) ht hsat hoffset,
      max_eq_left hneg.le, lands_shiftPacket_iff hdst ht hsat]
    simp [hneg]
  · have hkept : (m.establishOffset before dst).frozenTicks dst = none := by
      rw [frozenTicks, establishOffset_first hdst hnone (by simp [hpolicy]) ht, hpolicy,
        policyOffset, hus, if_neg ((flooredUs_neg_iff hdst t.val).not.mpr (not_lt.mpr hnonneg))]
      rfl
    rw [hkept, max_eq_right hnonneg, shiftPacket]
    exact ⟨fun _ => Or.inl hnonneg, fun _ => lands_self ht⟩

/-- A first packet without saturated times lands where the policy says, both times moved alike,
exactly when the container stores times and what flooring cuts off is rounded off again, or nothing
has to be shifted. -/
theorem first_packet_lands (m : MuxTimestamps) (pkt before : Packet) (src dst : TimeBase)
    (t : I64) (hdst : TimeBase.Positive dst) (hnone : m.offsetUs = none)
    (hreach : m.reaching pkt src dst = .ok before)
    (ht : earliest before.pts before.dts = some t) (hsat : Unsaturated before dst t.val) :
    (m.policy = .makeZero →
      (Lands before (m.apply pkt src dst).2.1 0 ↔
        m.notimestamps = false ∧ RoundsOff dst t.val)) ∧
    (m.policy = .makeNonNegative →
      (Lands before (m.apply pkt src dst).2.1 (max 0 t.val) ↔
        m.notimestamps = false ∧ (0 ≤ t.val ∨ RoundsOff dst t.val))) := by
  cases htimes : m.notimestamps with
  | true => simp [not_lands_of_notimestamps htimes]
  | false =>
      rw [apply_packet htimes hreach]
      simp only [true_and]
      exact ⟨fun hpolicy => lands_makeZero_iff hdst hnone hpolicy ht hsat,
        fun hpolicy => lands_makeNonNegative_iff hdst hnone hpolicy ht hsat⟩

/-- A packet shown when it is decoded. -/
def shownAt (ticks : Int) : Packet :=
  { Packet.empty with
    pts := some (clampI64 ticks)
    dts := some (clampI64 ticks) }

/-- A chain of one stream with a policy. -/
def chainWith (policy : AvoidNegativeTs) : MuxTimestamps :=
  { MuxTimestamps.new 1 ⟨0⟩ FormatOptions.default with policy := policy }

theorem unsaturated_shownAt {ticks : Int} (hlow : -9223372036854775808 < flooredUs dst ticks)
    (hhigh : flooredUs dst ticks ≤ 9223372036854775807)
    (hlt : -9223372036854775808 < ticks) (hle : ticks ≤ 9223372036854775807) :
    Unsaturated (shownAt ticks) dst (clampI64 ticks).val := by
  have hval : (clampI64 ticks).val = ticks := Ranged.clamp_of_mem _ hlt.le hle
  rw [hval]
  refine ⟨hlow, hhigh, hlt, ?_⟩
  rintro u (hu | hu)
  all_goals
    have hu' : (clampI64 ticks).val = u.val := congrArg Ranged.val (Option.some.inj hu)
    omega

/-- In microseconds, a positive first time is taken to zero, and so is a negative one. -/
theorem first_packet_lands_microseconds :
    Lands (shownAt 5000) ((chainWith .makeZero).apply (shownAt 5000) Rational.MICROSECONDS
        Rational.MICROSECONDS).2.1 0 ∧
      Lands (shownAt (-250)) ((chainWith .makeNonNegative).apply (shownAt (-250))
        Rational.MICROSECONDS Rational.MICROSECONDS).2.1 (max 0 (-250)) :=
  ⟨((first_packet_lands (chainWith .makeZero) (shownAt 5000) (shownAt 5000)
      Rational.MICROSECONDS Rational.MICROSECONDS (clampI64 5000) (by decide) rfl
      (by rfl) rfl (unsaturated_shownAt (by decide) (by decide) (by decide) (by decide))).1
      rfl).mpr (by decide +kernel),
    ((first_packet_lands (chainWith .makeNonNegative) (shownAt (-250)) (shownAt (-250))
      Rational.MICROSECONDS Rational.MICROSECONDS (clampI64 (-250)) (by decide) rfl
      (by rfl) rfl (unsaturated_shownAt (by decide) (by decide) (by decide) (by decide))).2
      rfl).mpr (by decide +kernel)⟩

/-- Tenths of a microsecond. -/
def tenths : TimeBase where
  num := Rational.MICROSECONDS.num
  den := .lit 10000000

/-- In tenths of a microsecond, five ticks are floored to no shift at all. -/
theorem first_packet_stays :
    ¬∀ (m : MuxTimestamps) (pkt before : Packet) (src dst : TimeBase) (t : I64),
      TimeBase.Positive dst → m.offsetUs = none → m.notimestamps = false →
      m.reaching pkt src dst = .ok before → earliest before.pts before.dts = some t →
      Unsaturated before dst t.val → m.policy = .makeZero →
      Lands before (m.apply pkt src dst).2.1 0 := by
  intro h
  have hdst : TimeBase.Positive tenths := by decide
  have hreach : (chainWith .makeZero).reaching (shownAt 5) tenths tenths = .ok (shownAt 5) := by
    rfl
  have hfirst : earliest (shownAt 5).pts (shownAt 5).dts = some (clampI64 5) := rfl
  have hsat : Unsaturated (shownAt 5) tenths (clampI64 5).val :=
    unsaturated_shownAt (by decide) (by decide) (by decide) (by decide)
  have hlands := h _ _ _ _ _ _ hdst rfl rfl hreach hfirst hsat rfl
  rw [apply_packet rfl hreach, lands_makeZero_iff hdst rfl rfl hfirst hsat] at hlands
  exact absurd hlands (by decide)

end MuxTimestamps

end Format
end Vaco
