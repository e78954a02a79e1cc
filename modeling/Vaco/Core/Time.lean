import Mathlib.Tactic
import Vaco.Core.Rational
import Vaco.Library.FixedWidth
import Vaco.Library.Rounding

/-!
# Timestamps, rescaling and exact durations

A timestamp is an optional 64-bit tick count in a time base its owner tracks.
Rescaling multiplies by the source base and divides by the target base once, with
an explicit rounding mode; comparison cross-multiplies and rounds nothing.  The
quotient is computed on magnitudes, in 128 bits where the product fits and bit by
bit where it does not.

Main results:

- `muldivRnd_nearest`: on a product that fits, rounding to nearest returns the exact rational
  quotient rounded away from zero on ties.
- `Timestamp.rescale_nearest`: rescaling to nearest is the clamp of the rounded exact time.
- `Timestamp.compare_eq`: comparison is the comparison of exact times.
- `Timestamp.rescale_there_and_back`: a finer base keeps a timestamp.

Current gaps:

- The bit-by-bit quotient of products beyond 128 bits is modelled but has no
  spec lemma here; no tick count with 32-bit bases reaches it.
-/

namespace Vaco
namespace Core

open Library

/-! ## Rounded quotients -/

/-- How a rescale that cannot be represented exactly should round. -/
inductive Rounding where
  | zero
  | infinity
  | down
  | up
  | nearestAwayFromZero
deriving DecidableEq, Repr

/-- The default rounding mode. -/
def Rounding.default : Rounding :=
  .nearestAwayFromZero

def Rounding.away (rounding : Rounding) (negative : Bool) (remainder denominator : Nat) : Bool :=
  match rounding with
  | .zero => false
  | .infinity => true
  | .down => negative
  | .up => !negative
  | .nearestAwayFromZero => denominator - remainder ≤ remainder

/-- The doubling half of one quotient bit: doubles the remainder modulo the
denominator. -/
def muldivDouble (denominator quotient remainder : Nat) : Option (Nat × Nat) := do
  let quotient ← toU128? (quotient * 2)
  if denominator - remainder ≤ remainder then
    let quotient ← toU128? (quotient + 1)
    return (quotient, remainder - (denominator - remainder))
  else
    return (quotient, remainder + remainder)

/-- The adding half of one quotient bit: adds the multiplicand modulo the
denominator. -/
def muldivAdd (addend denominator quotient remainder : Nat) : Option (Nat × Nat) :=
  if denominator - addend ≤ remainder then do
    let quotient ← toU128? (quotient + 1)
    return (quotient, remainder - (denominator - addend))
  else
    some (quotient, remainder + addend)

def muldivBits (b addend denominator : Nat) : Nat → Nat → Nat → Option (Nat × Nat)
  | 0, quotient, remainder => some (quotient, remainder)
  | bit + 1, quotient, remainder => do
      let (quotient, remainder) ← muldivDouble denominator quotient remainder
      let (quotient, remainder) ←
        if b.testBit bit then muldivAdd addend denominator quotient remainder
        else some (quotient, remainder)
      muldivBits b addend denominator bit quotient remainder

/-- Divide a product without requiring that the product itself fit. -/
def unsignedMuldiv (a b denominator : Nat) : Option (Nat × Nat) :=
  match toU128? (a * b) with
  | some product => some (product / denominator, product % denominator)
  | none => do
      let whole ← toU128? (a / denominator * b)
      let (quotient, remainder) ← muldivBits b (a % denominator) denominator 128 0 0
      let quotient ← toU128? (whole + quotient)
      return (quotient, remainder)

/-- The rounded quotient `a * b / c`; absent for a zero divisor or an
unrepresentable result. -/
def muldivRnd (a b c : Int) (rounding : Rounding) : Option Int :=
  if c = 0 then
    none
  else do
    let negative := (decide (a < 0) ^^ decide (b < 0)) ^^ decide (c < 0)
    let denominator := c.natAbs
    let (quotient, remainder) ← unsignedMuldiv a.natAbs b.natAbs denominator
    let quotient ←
      if remainder ≠ 0 ∧ rounding.away negative remainder denominator then
        toU128? (quotient + 1)
      else some quotient
    if negative ∧ quotient = 170141183460469231731687303715884105728 then
      return -170141183460469231731687303715884105728
    else
      let result ← toI128? quotient
      return if negative then -result.val else result.val

/-! ## Time bases -/

/-- Numerator and positive denominator of a base that names a tick length. -/
def finiteBase (tb : TimeBase) : Option (Int × Int) :=
  if tb.den.val = 0 ∨ tb.num.val = 0 then
    none
  else if tb.den.val < 0 then
    some (-tb.num.val, -tb.den.val)
  else
    some (tb.num.val, tb.den.val)

/-- The factor and divisor that convert ticks between two bases. -/
def rescaleFactors (src dst : TimeBase) : Option (Int × Int) := do
  let (fnum, fden) ← finiteBase src
  let (tnum, tden) ← finiteBase dst
  return (fnum * tden, fden * tnum)

/-- A base that names a tick length. -/
def TimeBase.Usable (tb : TimeBase) : Prop :=
  tb.den.val ≠ 0 ∧ tb.num.val ≠ 0

instance (tb : TimeBase) : Decidable (TimeBase.Usable tb) :=
  inferInstanceAs (Decidable (_ ∧ _))

/-- A base that names a positive tick length. -/
def TimeBase.Positive (tb : TimeBase) : Prop :=
  0 < tb.num.val ∧ 0 < tb.den.val

instance (tb : TimeBase) : Decidable (TimeBase.Positive tb) :=
  inferInstanceAs (Decidable (_ ∧ _))

/-! ## Timestamps -/

/-- A point in time, in ticks of a base tracked by the owner; absent when
`none`. -/
abbrev Timestamp := Option I64

namespace Timestamp

/-- Offset by a tick count in the same base; absent stays absent. -/
def offset (t : Timestamp) (delta : I64) : Timestamp :=
  t.map fun ticks => ticks.saturatingAdd delta

/-- Convert between time bases with explicit rounding, saturating. -/
def rescale (t : Timestamp) (src dst : TimeBase) (rounding : Rounding) : Timestamp := do
  let ticks ← t
  let (b, c) ← rescaleFactors src dst
  let v ← muldivRnd ticks.val b c rounding
  return clampI64 v

/-- Compare two timestamps that may be in different bases. -/
def compare (self : Timestamp) (selfBase : TimeBase) (other : Timestamp)
    (otherBase : TimeBase) : Option Ordering := do
  let a ← self
  let b ← other
  let (an, ad) ← finiteBase selfBase
  let (bn, bd) ← finiteBase otherBase
  let lhs := a.val * an * bd
  let rhs := b.val * bn * ad
  return Ord.compare lhs rhs

end Timestamp

/-! ## Exact durations -/

/-- The bound every 128-bit value satisfies. -/
abbrev FitsI128 (v : Int) : Prop :=
  -170141183460469231731687303715884105728 ≤ v ∧ v ≤ 170141183460469231731687303715884105727

/-- An exact span of time: reduced rational seconds with a positive denominator. -/
@[ext]
structure Duration where
  numerator : I128
  denominator : I128
  den_pos : 0 < denominator.val
  reduced : Int.gcd numerator.val denominator.val = 1
deriving DecidableEq

/-- Greatest common divisor, at least one. -/
def gcdI128 (a b : Int) : Int :=
  let g : Int := Int.gcd a b
  if g > 1 then g else 1

theorem gcdI128_tmod {n d : Int} (hd : 0 < d) :
    gcdI128 |n.tmod d| d = Int.gcd n d := by
  have hgcd : Int.gcd |n.tmod d| d = Int.gcd n d := by
    rw [Int.gcd_def, Int.gcd_def, Int.natAbs_abs, Int.natAbs_tmod, ← Nat.gcd_rec,
      Nat.gcd_comm]
  have hpos : 0 < Int.gcd n d := Int.gcd_pos_of_ne_zero_right n hd.ne'
  rw [gcdI128, hgcd]
  split <;> omega

theorem FitsI128.tdiv {n g : Int} (h : FitsI128 n) (hg : 0 < g) : FitsI128 (n.tdiv g) := by
  have habs : |n.tdiv g| ≤ |n| := by
    rw [Int.abs_eq_natAbs, Int.abs_eq_natAbs, Int.natAbs_tdiv]
    exact_mod_cast Nat.div_le_self _ _
  unfold FitsI128 at *
  rcases le_or_gt 0 n with hn | hn
  · have hq : 0 ≤ n.tdiv g := Int.tdiv_nonneg hn hg.le
    rw [abs_of_nonneg hn, abs_of_nonneg hq] at habs
    omega
  · have := abs_le.mp (habs.trans (abs_of_neg hn).le)
    have hq : n.tdiv g ≤ 0 := by
      rw [← Int.neg_neg n, Int.neg_tdiv]
      have := Int.tdiv_nonneg (show 0 ≤ -n by omega) hg.le
      omega
    omega

theorem tdiv_gcd_reduced {n d g : Int} (hd : 0 < d) (hg : g = Int.gcd n d) :
    0 < d.tdiv g ∧ Int.gcd (n.tdiv g) (d.tdiv g) = 1 := by
  have hgcd : 0 < Int.gcd n d := Int.gcd_pos_of_ne_zero_right n hd.ne'
  have hnd : g ∣ n := hg ▸ Int.gcd_dvd_left n d
  have hdd : g ∣ d := hg ▸ Int.gcd_dvd_right n d
  rw [Int.tdiv_eq_ediv_of_dvd hnd, Int.tdiv_eq_ediv_of_dvd hdd]
  constructor
  · exact Int.ediv_pos_of_pos_of_dvd hd (by omega) hdd
  · rw [hg]
    exact Int.gcd_ediv_gcd_ediv_gcd hgcd

namespace Duration

/-- Zero length. -/
def ZERO : Duration where
  numerator := .lit 0
  denominator := .lit 1
  den_pos := by decide
  reduced := by decide

/-- Reduce a seconds fraction with a positive denominator. -/
def fromRatio (numerator denominator : Int) (hn : FitsI128 numerator)
    (hd : FitsI128 denominator) (hpos : 0 < denominator) : Duration :=
  if numerator = 0 then
    ZERO
  else
    -- Reducing the remainder avoids taking the absolute value of the least value.
    let g := gcdI128 |numerator.tmod denominator| denominator
    have hg : g = Int.gcd numerator denominator := gcdI128_tmod hpos
    have hgpos : 0 < g := by
      have := Int.gcd_pos_of_ne_zero_right numerator hpos.ne'
      omega
    { numerator := ⟨numerator.tdiv g, (hn.tdiv hgpos).1, (hn.tdiv hgpos).2⟩
      denominator := ⟨denominator.tdiv g, (hd.tdiv hgpos).1, (hd.tdiv hgpos).2⟩
      den_pos := (tdiv_gcd_reduced hpos hg).1
      reduced := (tdiv_gcd_reduced hpos hg).2 }

/-- From a microsecond count, without loss. -/
def fromMicros (micros : I64) : Duration :=
  fromRatio micros.val 1000000
    (by have := micros.le_val; have := micros.val_le; unfold FitsI128; omega)
    (by unfold FitsI128; omega) (by decide)

theorem fitsI128_mul {a b : Int} (ha : |a| ≤ 9223372036854775808) (hb : |b| ≤ 2147483648) :
    FitsI128 (a * b) := by
  have habs : |a * b| ≤ 9223372036854775808 * 2147483648 := by
    rw [abs_mul]
    exact mul_le_mul ha hb (abs_nonneg b) (by decide)
  have := abs_le.mp habs
  unfold FitsI128
  omega

/-- An exact duration from ticks in a base. -/
def fromTicks (ticks : I64) (timeBase : TimeBase) : Option Duration :=
  match h : finiteBase timeBase with
  | none => none
  | some (num, den) =>
      have hbase : |num| ≤ 2147483648 ∧ 0 < den ∧ den ≤ 2147483648 := by
        have := timeBase.num.le_val
        have := timeBase.num.val_le
        have := timeBase.den.le_val
        have := timeBase.den.val_le
        simp only [finiteBase] at h
        rw [abs_le]
        split at h
        · cases h
        · split at h <;>
          · simp only [Option.some.injEq, Prod.mk.injEq] at h
            omega
      have hticks : |ticks.val| ≤ 9223372036854775808 := by
        have := ticks.le_val
        have := ticks.val_le
        rw [abs_le]
        omega
      some (fromRatio (ticks.val * num) den (fitsI128_mul hticks hbase.1)
        (by unfold FitsI128; omega) hbase.2.1)

/-- Convert to ticks with explicit rounding, refusing invalid bases or overflow. -/
def toTicksRounding (d : Duration) (base : TimeBase) (rounding : Rounding) : Option I64 := do
  let (num, den) ← finiteBase base
  let divisor ← toI128? (d.denominator.val * num)
  let ticks ← muldivRnd d.numerator.val den divisor.val rounding
  toI64? ticks

/-- Convert to ticks in a base, rounding to nearest and refusing overflow. -/
def toTicks (d : Duration) (base : TimeBase) : Option I64 :=
  d.toTicksRounding base Rounding.default

end Duration

/-! ## The quotient on products that fit -/

theorem unsignedMuldiv_of_lt {a b denominator : Nat} (h : a * b < u128Card) :
    unsignedMuldiv a b denominator = some (a * b / denominator, a * b % denominator) := by
  simp [unsignedMuldiv, toU128?, h]

/-- Magnitude of a rounded quotient. -/
def roundedMagnitude (rounding : Rounding) (negative : Bool) (m c : Nat) : Nat :=
  if m % c ≠ 0 ∧ rounding.away negative (m % c) c then m / c + 1 else m / c

theorem roundedMagnitude_le (rounding : Rounding) (negative : Bool) (m c : Nat) :
    roundedMagnitude rounding negative m c ≤ m + 1 := by
  have := Nat.div_le_self m c
  unfold roundedMagnitude
  split <;> omega

/-- On a product well inside 128 bits the quotient exists and is the signed
rounded magnitude. -/
theorem muldivRnd_of_small {a b c : Int} (rounding : Rounding) (hc : c ≠ 0)
    (h : (a * b).natAbs < 85070591730234615865843651857942052864) :
    let negative := (decide (a < 0) ^^ decide (b < 0)) ^^ decide (c < 0)
    let m := roundedMagnitude rounding negative (a * b).natAbs c.natAbs
    muldivRnd a b c rounding = some (if negative then -(m : Int) else m) := by
  intro negative m
  have hcard : u128Card = 340282366920938463463374607431768211456 := rfl
  have hle : m ≤ (a * b).natAbs + 1 := roundedMagnitude_le ..
  have hfit : toI128? (m : Int) = some ⟨m, by omega, by omega⟩ :=
    Ranged.ofInt?_of_mem (by omega) (by omega)
  have hne : ¬ m = 170141183460469231731687303715884105728 := by omega
  have hmul : a.natAbs * b.natAbs = (a * b).natAbs := (Int.natAbs_mul a b).symm
  have hprod : a.natAbs * b.natAbs < u128Card := by omega
  have hdiv := Nat.div_le_self (a * b).natAbs c.natAbs
  simp only [muldivRnd, if_neg hc, unsignedMuldiv_of_lt hprod, hmul]
  by_cases haway : (a * b).natAbs % c.natAbs ≠ 0 ∧
      rounding.away negative ((a * b).natAbs % c.natAbs) c.natAbs
  · have hm : m = (a * b).natAbs / c.natAbs + 1 := if_pos haway
    have hsucc : toU128? ((a * b).natAbs / c.natAbs + 1) = some m := by
      rw [toU128?, if_pos (by omega), hm]
    simp [negative] at haway
    simp [haway, hsucc, hne, hfit, negative]
  · have hm : m = (a * b).natAbs / c.natAbs := if_neg haway
    simp only [Option.bind_eq_bind, Option.bind_some]
    rw [if_neg haway, ← hm]
    simp [hne, hfit, negative]

theorem signed_quotient (a b c : Int) :
    ((a * b : Int) : ℚ) / c =
      if (decide (a < 0) ^^ decide (b < 0)) ^^ decide (c < 0) then
        -(((a * b).natAbs : ℚ) / c.natAbs)
      else ((a * b).natAbs : ℚ) / c.natAbs := by
  rw [Int.natAbs_mul, Nat.cast_mul, Nat.cast_natAbs, Nat.cast_natAbs, Nat.cast_natAbs,
    Int.cast_mul]
  by_cases ha : a < 0 <;> by_cases hb : b < 0 <;> by_cases hc : c < 0 <;>
    simp [ha, hb, hc, abs_of_neg, abs_of_nonneg, not_lt.mp, neg_div, div_neg]

/-- Rounding to nearest returns the exact quotient rounded with ties away from
zero. -/
theorem muldivRnd_nearest {a b c : Int} (hc : c ≠ 0)
    (h : (a * b).natAbs < 85070591730234615865843651857942052864) :
    muldivRnd a b c .nearestAwayFromZero = some (nearestAway (((a * b : Int) : ℚ) / c)) := by
  have hcpos : 0 < c.natAbs := Int.natAbs_pos.mpr hc
  have hmag : ∀ negative : Bool,
      (roundedMagnitude .nearestAwayFromZero negative (a * b).natAbs c.natAbs : Int) =
        nearestAway (((a * b).natAbs : ℚ) / c.natAbs) := by
    intro negative
    have hnonneg : ¬ ((a * b).natAbs : ℚ) / c.natAbs < 0 := not_lt.mpr (by positivity)
    rw [nearestAway, if_neg hnonneg, round_div_eq hcpos, roundedMagnitude]
    have hmod : (a * b).natAbs % c.natAbs < c.natAbs := Nat.mod_lt _ hcpos
    simp only [Rounding.away, decide_eq_true_eq]
    by_cases haway : c.natAbs - (a * b).natAbs % c.natAbs ≤ (a * b).natAbs % c.natAbs
    · rw [if_pos haway, if_pos ⟨by omega, haway⟩]
      rfl
    · rw [if_neg haway, if_neg fun hboth => haway hboth.2]
  rw [muldivRnd_of_small _ hc h, signed_quotient, hmag]
  split
  · rw [nearestAway_neg]
  · rfl

/-! ## Rescaling -/

theorem finiteBase_of_usable {tb : TimeBase} (h : TimeBase.Usable tb) :
    ∃ num den : Int, finiteBase tb = some (num, den) ∧ num ≠ 0 ∧ 0 < den ∧
      |num| ≤ 2147483648 ∧ den ≤ 2147483648 ∧ (num : ℚ) / den = tb.value := by
  have := tb.num.le_val
  have := tb.num.val_le
  have := tb.den.le_val
  have := tb.den.val_le
  rcases h with ⟨hden, hnum⟩
  by_cases hneg : tb.den.val < 0
  · refine ⟨-tb.num.val, -tb.den.val, ?_, by omega, by omega, abs_le.mpr (by omega), by omega, ?_⟩
    · simp [finiteBase, hden, hnum, hneg]
    · rw [Rational.value]
      push_cast
      rw [neg_div_neg_eq]
  · refine ⟨tb.num.val, tb.den.val, ?_, hnum, by omega, abs_le.mpr (by omega), by omega, rfl⟩
    simp [finiteBase, hden, hnum, hneg]

theorem finiteBase_of_not_usable {tb : TimeBase} (h : ¬ TimeBase.Usable tb) :
    finiteBase tb = none := by
  rw [finiteBase, if_pos]
  by_contra hboth
  rw [not_or] at hboth
  exact h hboth

theorem TimeBase.Positive.usable {tb : TimeBase} (h : TimeBase.Positive tb) :
    TimeBase.Usable tb :=
  ⟨h.2.ne', h.1.ne'⟩

theorem TimeBase.Positive.value_pos {tb : TimeBase} (h : TimeBase.Positive tb) :
    (0 : ℚ) < tb.value :=
  div_pos (by exact_mod_cast h.1) (by exact_mod_cast h.2)

/-- Between usable bases the factor is the ratio of the bases, and a product stays inside 128 bits.
-/
theorem rescaleFactors_of_usable {src dst : TimeBase} (hsrc : TimeBase.Usable src)
    (hdst : TimeBase.Usable dst) :
    ∃ b c : Int, rescaleFactors src dst = some (b, c) ∧ c ≠ 0 ∧
      (∀ t : I64, (t.val * b).natAbs < 85070591730234615865843651857942052864) ∧
      ∀ t : Int, ((t * b : Int) : ℚ) / c = t * src.value / dst.value := by
  obtain ⟨fnum, fden, hf, hfnum, hfden, hfnumle, hfdenle, hfval⟩ := finiteBase_of_usable hsrc
  obtain ⟨tnum, tden, ht, htnum, htden, htnumle, htdenle, htval⟩ := finiteBase_of_usable hdst
  refine ⟨fnum * tden, fden * tnum, ?_, mul_ne_zero hfden.ne' htnum, ?_, ?_⟩
  · simp [rescaleFactors, hf, ht]
  · intro t
    have htick : |t.val| ≤ 9223372036854775808 := by
      have := t.le_val
      have := t.val_le
      rw [abs_le]
      omega
    have hb : |fnum * tden| ≤ 2147483648 * 2147483648 := by
      rw [abs_mul, abs_of_pos htden]
      exact mul_le_mul hfnumle htdenle htden.le (by decide)
    have hprod : |t.val * (fnum * tden)| ≤ 9223372036854775808 * (2147483648 * 2147483648) := by
      rw [abs_mul]
      exact mul_le_mul htick hb (abs_nonneg _) (by decide)
    rw [Int.abs_eq_natAbs] at hprod
    omega
  · intro t
    have hfdenq : (fden : ℚ) ≠ 0 := by exact_mod_cast hfden.ne'
    have htdenq : (tden : ℚ) ≠ 0 := by exact_mod_cast htden.ne'
    have htnumq : (tnum : ℚ) ≠ 0 := by exact_mod_cast htnum
    rw [← hfval, ← htval]
    push_cast
    field_simp

namespace Timestamp

@[simp]
theorem rescale_none (src dst : TimeBase) (rounding : Rounding) :
    rescale none src dst rounding = none :=
  rfl

/-- Rescaling to nearest is the clamp of the exact time rounded with ties away
from zero. -/
theorem rescale_nearest {src dst : TimeBase} (hsrc : TimeBase.Usable src)
    (hdst : TimeBase.Usable dst) (t : I64) :
    rescale (some t) src dst Rounding.default =
      some (clampI64 (nearestAway ((t.val : ℚ) * src.value / dst.value))) := by
  obtain ⟨b, c, hbc, hc, hsmall, hval⟩ := rescaleFactors_of_usable hsrc hdst
  rw [← hval]
  simp [rescale, hbc, Rounding.default, muldivRnd_nearest hc (hsmall t)]

theorem rescale_isSome {src dst : TimeBase} (hsrc : TimeBase.Usable src)
    (hdst : TimeBase.Usable dst) (t : I64) (rounding : Rounding) :
    (rescale (some t) src dst rounding).isSome := by
  obtain ⟨b, c, hbc, hc, hsmall, -⟩ := rescaleFactors_of_usable hsrc hdst
  simp [rescale, hbc, muldivRnd_of_small rounding hc (hsmall t)]

theorem usable_of_rescale {t : Timestamp} {src dst : TimeBase} {rounding : Rounding}
    (h : (rescale t src dst rounding).isSome) :
    t.isSome ∧ TimeBase.Usable src ∧ TimeBase.Usable dst := by
  refine ⟨?_, ?_, ?_⟩
  · cases t with
    | none => simp at h
    | some ticks => rfl
  · by_contra hsrc
    cases t <;> simp [rescale, rescaleFactors, finiteBase_of_not_usable hsrc] at h
  · by_contra hdst
    cases t <;> cases hsrc : finiteBase src <;>
      simp [rescale, rescaleFactors, hsrc, finiteBase_of_not_usable hdst] at h

/-- A timestamp survives a stay in a base that is at least as fine, unless it has no room there. -/
theorem rescale_there_and_back {src dst : TimeBase} (hsrc : TimeBase.Positive src)
    (hdst : TimeBase.Positive dst) (hfine : dst.value ≤ src.value) (t : I64)
    (hroom : |(t.val : ℚ) * src.value / dst.value| ≤ 9223372036854775807) :
    rescale (rescale (some t) src dst Rounding.default) dst src Rounding.default = some t := by
  have hs := hsrc.value_pos
  have hd := hdst.value_pos
  rw [rescale_nearest hsrc.usable hdst.usable, rescale_nearest hdst.usable hsrc.usable]
  generalize hx : (t.val : ℚ) * src.value / dst.value = x at hroom
  have hback : x * dst.value / src.value = t.val := by
    rw [← hx]
    field_simp
  -- The rounded time has room, so the clamp leaves it alone.
  have hclamp : (clampI64 (nearestAway x)).val = nearestAway x := by
    have hupper := nearestAway_mono (abs_le.mp hroom).2
    have hlower := nearestAway_mono (abs_le.mp hroom).1
    have hmax := nearestAway_intCast (K := ℚ) 9223372036854775807
    have hmin := nearestAway_intCast (K := ℚ) (-9223372036854775807)
    push_cast at hmax hmin
    rw [val_clampI64]
    omega
  have hnear : |(nearestAway x : ℚ) * dst.value / src.value - t.val| < 1 / 2 := by
    rcases hfine.eq_or_lt with heq | hlt
    · have hsame : x = t.val := by
        rw [← hback, heq, mul_div_cancel_right₀ _ hs.ne']
      rw [hsame, nearestAway_intCast, heq, mul_div_cancel_right₀ _ hs.ne']
      norm_num
    · have hsmall : dst.value / src.value < 1 := (div_lt_one hs).mpr hlt
      have hratio : 0 < dst.value / src.value := div_pos hd hs
      calc
        _ = |x - nearestAway x| * |dst.value / src.value| := by
          rw [← hback, abs_sub_comm, ← abs_mul]
          congr 1
          ring
        _ = |x - nearestAway x| * (dst.value / src.value) := by rw [abs_of_pos hratio]
        _ ≤ 1 / 2 * (dst.value / src.value) :=
          mul_le_mul_of_nonneg_right (abs_sub_nearestAway_le x) hratio.le
        _ < 1 / 2 := by linarith
  rw [hclamp, nearestAway_eq_of_lt hnear, clampI64_val]

theorem rescale_there_and_back_frame :
    rescale (rescale (some (clampI64 7)) ⟨castI32 1, castI32 25⟩ Rational.MICROSECONDS
      Rounding.default) Rational.MICROSECONDS ⟨castI32 1, castI32 25⟩ Rounding.default =
      some (clampI64 7) :=
  rescale_there_and_back (by decide) (by decide) (by decide +kernel) _ (by decide +kernel)

/-- Comparison across usable bases compares the exact times. -/
theorem compare_eq {src dst : TimeBase} (hsrc : TimeBase.Usable src)
    (hdst : TimeBase.Usable dst) (s t : I64) :
    compare (some s) src (some t) dst =
      some (Ord.compare ((s.val : ℚ) * src.value) (t.val * dst.value)) := by
  obtain ⟨an, ad, ha, -, had, -, -, haval⟩ := finiteBase_of_usable hsrc
  obtain ⟨bn, bd, hb, -, hbd, -, -, hbval⟩ := finiteBase_of_usable hdst
  have hadq : (0 : ℚ) < ad := by exact_mod_cast had
  have hbdq : (0 : ℚ) < bd := by exact_mod_cast hbd
  have hleft : (s.val : ℚ) * src.value = ((s.val * an * bd : Int) : ℚ) / (ad * bd) := by
    rw [← haval]
    push_cast
    field_simp
  have hright : (t.val : ℚ) * dst.value = ((t.val * bn * ad : Int) : ℚ) / (ad * bd) := by
    rw [← hbval]
    push_cast
    field_simp
  have hpos : (0 : ℚ) < ad * bd := mul_pos hadq hbdq
  have hcmp : Ord.compare (s.val * an * bd) (t.val * bn * ad) =
      Ord.compare ((s.val : ℚ) * src.value) (t.val * dst.value) := by
    rw [hleft, hright]
    rcases lt_trichotomy (s.val * an * bd) (t.val * bn * ad) with hlt | heq | hgt
    · rw [compare_lt_iff_lt.mpr hlt, eq_comm, compare_lt_iff_lt]
      exact div_lt_div_of_pos_right (by exact_mod_cast hlt) hpos
    · rw [heq]
      simp
    · rw [compare_gt_iff_gt.mpr hgt, eq_comm, compare_gt_iff_gt]
      exact div_lt_div_of_pos_right (by exact_mod_cast hgt) hpos
  simp [compare, ha, hb, hcmp]

end Timestamp

end Core
end Vaco
