import Vaco.Core.Time

/-!
# Quotients of 256-bit products

Where a product does not fit in 128 bits it is divided bit by bit: the bits of one factor
are taken from the highest down, and the part of the product that they make up is kept as a
quotient and a remainder below the divisor.

Main results:

- `muldivBits_eq`: the loop divides the product exactly.
- `muldivInWords`: nothing in the loop leaves 128 bits.
- `unsignedMuldiv_eq`: the quotient is there exactly when it fits.
- `muldivRnd_exact`: the result is the exact quotient rounded as requested.
- `Timestamp.muldivRnd_rescale`: between usable bases the quotient of a rescaling is the exact time
  rounded as requested.
-/

namespace Vaco
namespace Core

open Library

/-! ## Rounding -/

/-- What a rounding mode does to an exact value. -/
def Rounding.round (rounding : Rounding) (x : ℚ) : Int :=
  match rounding with
  | .zero => if x < 0 then ⌈x⌉ else ⌊x⌋
  | .infinity => if x < 0 then ⌊x⌋ else ⌈x⌉
  | .down => ⌊x⌋
  | .up => ⌈x⌉
  | .nearestAwayFromZero => nearestAway x

/-- The rounded magnitude of a quotient, its sign put back, is the quotient rounded. -/
theorem Rounding.round_signed (rounding : Rounding) (negative : Bool) (m : Nat) {c : Nat}
    (hc : 0 < c) :
    rounding.round (if negative then -((m : ℚ) / c) else (m : ℚ) / c) =
      if negative then -(roundedMagnitude rounding negative m c : Int)
      else roundedMagnitude rounding negative m c := by
  have hfloor : ⌊(m : ℚ) / c⌋ = ((m / c : Nat) : Int) := by
    rw [Rat.floor_natCast_div_natCast, Int.natCast_div]
  have hceil := ceil_div_eq (K := ℚ) (m := m) hc
  have hround := round_div_eq (K := ℚ) (m := m) hc
  have hmod : m % c < c := Nat.mod_lt m hc
  have hnonneg : ¬(m : ℚ) / c < 0 := not_lt.mpr (by positivity)
  -- A quotient that is not zero keeps its sign; zero rounds to zero either way.
  have hzero : ¬-((m : ℚ) / c) < 0 → m = 0 := by
    intro hle
    by_contra hne
    have hpos : (0 : ℚ) < (m : ℚ) / c := by
      have : 0 < m := Nat.pos_of_ne_zero hne
      positivity
    exact hle (neg_neg_of_pos hpos)
  cases rounding with
  | zero =>
      simp only [Rounding.round, roundedMagnitude, Rounding.away]
      cases negative with
      | true =>
          simp only [if_true]
          split
          · rw [Int.ceil_neg, hfloor]
            simp
          · rename_i hle
            rw [hzero hle]
            simp
      | false =>
          simp only [Bool.false_eq_true, if_false]
          rw [if_neg hnonneg, hfloor]
          simp
  | infinity =>
      simp only [Rounding.round, roundedMagnitude, Rounding.away]
      cases negative with
      | true =>
          simp only [if_true]
          split
          · rw [Int.floor_neg, hceil]
            simp
          · rename_i hle
            rw [hzero hle]
            simp
      | false =>
          simp only [Bool.false_eq_true, if_false]
          rw [if_neg hnonneg, hceil]
          simp
  | down =>
      simp only [Rounding.round, roundedMagnitude, Rounding.away]
      cases negative with
      | true =>
          simp only [if_true]
          rw [Int.floor_neg, hceil]
          simp
      | false =>
          simp only [Bool.false_eq_true, if_false]
          rw [hfloor]
          simp
  | up =>
      simp only [Rounding.round, roundedMagnitude, Rounding.away]
      cases negative with
      | true =>
          simp only [if_true]
          rw [Int.ceil_neg, hfloor]
          simp
      | false =>
          simp only [Bool.false_eq_true, if_false]
          rw [hceil]
          simp
  | nearestAwayFromZero =>
      have hmagnitude : nearestAway ((m : ℚ) / c) =
          roundedMagnitude .nearestAwayFromZero negative m c := by
        rw [nearestAway, if_neg hnonneg, hround, roundedMagnitude]
        simp only [Rounding.away, decide_eq_true_eq]
        by_cases haway : c - m % c ≤ m % c
        · rw [if_pos haway, if_pos ⟨by omega, haway⟩]
          rfl
        · rw [if_neg haway, if_neg fun hboth => haway hboth.2]
      cases negative with
      | true =>
          simp only [Rounding.round, if_true]
          rw [nearestAway_neg, hmagnitude]
      | false =>
          simp only [Rounding.round, Bool.false_eq_true, if_false]
          exact hmagnitude

/-! ## One bit of the quotient -/

theorem toU128?_of_lt {v : Nat} (h : v < u128Card) : toU128? v = some v :=
  if_pos h

theorem toU128?_of_le {v : Nat} (h : u128Card ≤ v) : toU128? v = none :=
  if_neg (not_lt.mpr h)

/-- A remainder doubled modulo the divisor. -/
def doubledRemainder (denominator remainder : Nat) : Nat :=
  if denominator - remainder ≤ remainder then remainder - (denominator - remainder)
  else remainder + remainder

def addedRemainder (addend denominator remainder : Nat) : Nat :=
  if denominator - addend ≤ remainder then remainder - (denominator - addend)
  else remainder + addend

/-- The remainder behind one bit. -/
def nextRemainder (b addend denominator bit remainder : Nat) : Nat :=
  if b.testBit bit then addedRemainder addend denominator (doubledRemainder denominator remainder)
  else doubledRemainder denominator remainder

/-- The unchecked operations of the loop stay within 128 bits and above zero. -/
def MuldivInWords (b addend denominator : Nat) : Nat → Nat → Prop
  | 0, _ => True
  | bit + 1, remainder =>
      remainder ≤ denominator ∧ addend ≤ denominator ∧
        doubledRemainder denominator remainder < u128Card ∧
        nextRemainder b addend denominator bit remainder < u128Card ∧
        MuldivInWords b addend denominator bit (nextRemainder b addend denominator bit remainder)

section Bits

variable {b addend denominator quotient remainder : Nat}

/-- Doubling doubles what quotient and remainder stand for. -/
theorem muldivDouble_eq (hremainder : remainder < denominator)
    (hfits : 2 * (quotient * denominator + remainder) < u128Card * denominator) :
    ∃ q, muldivDouble denominator quotient remainder =
        some (q, doubledRemainder denominator remainder) ∧
      q * denominator + doubledRemainder denominator remainder =
        2 * (quotient * denominator + remainder) ∧
      doubledRemainder denominator remainder < denominator := by
  have hbound : ∀ q r, q * denominator + r < u128Card * denominator → q < u128Card := by
    intro q r hlt
    by_contra hge
    have hmul := Nat.mul_le_mul_right denominator (not_lt.mp hge)
    omega
  have htwice : quotient * 2 * denominator = 2 * (quotient * denominator) := by ring
  rw [muldivDouble, doubledRemainder]
  by_cases hwraps : denominator - remainder ≤ remainder
  · have hnext : (quotient * 2 + 1) * denominator =
        2 * (quotient * denominator) + denominator := by ring
    have hfirst : quotient * 2 + 1 < u128Card :=
      hbound _ (remainder - (denominator - remainder)) (by omega)
    refine ⟨quotient * 2 + 1, ?_, ?_, ?_⟩
    · rw [if_pos hwraps, toU128?_of_lt (by omega)]
      simp only [Option.bind_eq_bind, Option.bind_some]
      rw [if_pos hwraps, toU128?_of_lt hfirst]
      rfl
    · rw [if_pos hwraps, hnext]
      omega
    · rw [if_pos hwraps]
      omega
  · have hfirst : quotient * 2 < u128Card := hbound _ (remainder + remainder) (by omega)
    refine ⟨quotient * 2, ?_, ?_, ?_⟩
    · rw [if_neg hwraps, toU128?_of_lt hfirst]
      simp only [Option.bind_eq_bind, Option.bind_some]
      rw [if_neg hwraps]
      rfl
    · rw [if_neg hwraps, htwice]
      omega
    · rw [if_neg hwraps]
      omega

/-- Adding the multiplicand adds it to what quotient and remainder stand for. -/
theorem muldivAdd_eq (hremainder : remainder < denominator) (haddend : addend < denominator)
    (hfits : quotient * denominator + remainder + addend < u128Card * denominator) :
    ∃ q, muldivAdd addend denominator quotient remainder =
        some (q, addedRemainder addend denominator remainder) ∧
      q * denominator + addedRemainder addend denominator remainder =
        quotient * denominator + remainder + addend ∧
      addedRemainder addend denominator remainder < denominator := by
  rw [muldivAdd, addedRemainder]
  by_cases hwraps : denominator - addend ≤ remainder
  · have hnext : (quotient + 1) * denominator = quotient * denominator + denominator := by ring
    have hfirst : quotient + 1 < u128Card := by
      by_contra hge
      have hmul := Nat.mul_le_mul_right denominator (not_lt.mp hge)
      omega
    refine ⟨quotient + 1, ?_, ?_, ?_⟩
    · rw [if_pos hwraps, if_pos hwraps, toU128?_of_lt hfirst]
      rfl
    · rw [if_pos hwraps, hnext]
      omega
    · rw [if_pos hwraps]
      omega
  · refine ⟨quotient, ?_, ?_, ?_⟩
    · rw [if_neg hwraps, if_neg hwraps]
    · rw [if_neg hwraps, Nat.add_assoc]
    · rw [if_neg hwraps]
      omega

theorem mod_two_pow_succ_eq (b bit : Nat) :
    b % 2 ^ (bit + 1) = (if b.testBit bit then 2 ^ bit else 0) + b % 2 ^ bit := by
  have hbit : (b.testBit bit).toNat = b / 2 ^ bit % 2 := Nat.toNat_testBit b bit
  rw [Nat.mod_pow_succ, ← hbit, Nat.add_comm]
  cases b.testBit bit with
  | true => rw [if_pos rfl, Bool.toNat_true, Nat.mul_one]
  | false => rw [if_neg Bool.false_ne_true, Bool.toNat_false, Nat.mul_zero]

/-- What the loop returns stands for the part of the product begun with and that of the bits it
takes. -/
theorem muldivBits_eq {bit : Nat} (hremainder : remainder < denominator)
    (haddend : addend < denominator)
    (hfits : (quotient * denominator + remainder) * 2 ^ bit + addend * (b % 2 ^ bit) <
      u128Card * denominator) :
    ∃ q r, muldivBits b addend denominator bit quotient remainder = some (q, r) ∧
      q * denominator + r =
        (quotient * denominator + remainder) * 2 ^ bit + addend * (b % 2 ^ bit) ∧
      r < denominator := by
  induction bit generalizing quotient remainder with
  | zero =>
      refine ⟨quotient, remainder, rfl, ?_, hremainder⟩
      rw [Nat.pow_zero, Nat.mod_one, Nat.mul_one, Nat.mul_zero, Nat.add_zero]
  | succ bit ih =>
      have hpow : 0 < 2 ^ bit := Nat.two_pow_pos bit
      rw [mod_two_pow_succ_eq, Nat.pow_succ] at hfits ⊢
      have hsplit : (quotient * denominator + remainder) * (2 ^ bit * 2) =
          2 * (quotient * denominator + remainder) * 2 ^ bit := by ring
      rw [hsplit] at hfits ⊢
      have hdouble : 2 * (quotient * denominator + remainder) < u128Card * denominator := by
        have hle := Nat.le_mul_of_pos_right (2 * (quotient * denominator + remainder)) hpow
        omega
      rcases muldivDouble_eq hremainder hdouble with ⟨q₁, hq₁, hvalue₁, hlt₁⟩
      rw [muldivBits, hq₁]
      simp only [Option.bind_eq_bind, Option.bind_some]
      generalize doubledRemainder denominator remainder = r₁ at hvalue₁ hlt₁ ⊢
      rw [← hvalue₁] at hfits ⊢
      cases hbit : b.testBit bit with
      | false =>
          rw [hbit] at hfits
          simp only [Bool.false_eq_true, if_false, Nat.zero_add] at hfits ⊢
          exact ih hlt₁ hfits
      | true =>
          rw [hbit] at hfits
          simp only [if_true] at hfits ⊢
          have hadded : (q₁ * denominator + r₁) * 2 ^ bit +
              addend * (2 ^ bit + b % 2 ^ bit) =
              (q₁ * denominator + r₁ + addend) * 2 ^ bit + addend * (b % 2 ^ bit) := by ring
          rw [hadded] at hfits ⊢
          have hadd : q₁ * denominator + r₁ + addend < u128Card * denominator := by
            have hle := Nat.le_mul_of_pos_right (q₁ * denominator + r₁ + addend) hpow
            omega
          rcases muldivAdd_eq hlt₁ haddend hadd with ⟨q₂, hq₂, hvalue₂, hlt₂⟩
          rw [hq₂]
          simp only [Option.bind_some]
          generalize addedRemainder addend denominator r₁ = r₂ at hvalue₂ hlt₂ ⊢
          rw [← hvalue₂] at hfits ⊢
          exact ih hlt₂ hfits

theorem nextRemainder_lt (bit : Nat) (hremainder : remainder < denominator)
    (haddend : addend < denominator) :
    doubledRemainder denominator remainder < denominator ∧
      nextRemainder b addend denominator bit remainder < denominator := by
  have hdouble : doubledRemainder denominator remainder < denominator := by
    rw [doubledRemainder]
    split <;> omega
  refine ⟨hdouble, ?_⟩
  rw [nextRemainder]
  split
  · rw [addedRemainder]
    split <;> omega
  · exact hdouble

/-- Nothing in the loop leaves 128 bits. -/
theorem muldivInWords (hremainder : remainder < denominator) (haddend : addend < denominator)
    (hdenominator : denominator ≤ u128Card) (bit : Nat) :
    MuldivInWords b addend denominator bit remainder := by
  induction bit generalizing remainder with
  | zero => trivial
  | succ bit ih =>
      rcases nextRemainder_lt (b := b) bit hremainder haddend with ⟨hdouble, hnext⟩
      exact ⟨hremainder.le, haddend.le, by omega, by omega, ih hnext⟩

end Bits

/-! ## The quotient -/

/-- The product of 128-bit magnitudes is divided exactly; the quotient is there exactly when it
fits. -/
theorem unsignedMuldiv_eq {a b denominator : Nat} (hb : b < u128Card) (hpos : 0 < denominator) :
    unsignedMuldiv a b denominator =
      (toU128? (a * b / denominator)).map fun q => (q, a * b % denominator) := by
  by_cases hsmall : a * b < u128Card
  · have hle := Nat.div_le_self (a * b) denominator
    rw [unsignedMuldiv_of_lt hsmall, toU128?, if_pos (by omega)]
    rfl
  · have haddend : a % denominator < denominator := Nat.mod_lt a hpos
    have hcard : b % 2 ^ 128 = b := Nat.mod_eq_of_lt hb
    have hfits : (0 * denominator + 0) * 2 ^ 128 + a % denominator * (b % 2 ^ 128) <
        u128Card * denominator := by
      have hlt : a % denominator * b < denominator * u128Card :=
        Nat.mul_lt_mul'' haddend hb
      rw [hcard, Nat.zero_mul, Nat.zero_add, Nat.zero_mul, Nat.zero_add, Nat.mul_comm u128Card]
      exact hlt
    rcases muldivBits_eq hpos haddend hfits with ⟨q, r, hloop, hvalue, hlt⟩
    rw [hcard, Nat.zero_mul, Nat.zero_add, Nat.zero_mul, Nat.zero_add] at hvalue
    have hproduct : a * b = denominator * (a / denominator * b + q) + r := by
      conv_lhs => rw [← Nat.div_add_mod a denominator, Nat.add_mul, ← hvalue]
      ring
    have hquotient : a * b / denominator = a / denominator * b + q := by
      rw [hproduct, Nat.mul_add_div hpos, Nat.div_eq_of_lt hlt, Nat.add_zero]
    have hrest : a * b % denominator = r := by
      rw [hproduct, Nat.mul_add_mod, Nat.mod_eq_of_lt hlt]
    rw [unsignedMuldiv, toU128?, if_neg hsmall, hquotient, hrest]
    dsimp only
    rw [hloop]
    by_cases hwhole : a / denominator * b < u128Card
    · rw [toU128?, if_pos hwhole]
      simp only [Option.bind_eq_bind, Option.bind_some]
      cases toU128? (a / denominator * b + q) <;> rfl
    · rw [toU128?, if_neg hwhole, toU128?, if_neg (by omega)]
      rfl

/-- A magnitude with its sign, if it fits: the least value has a magnitude of its own. -/
theorem signed_toI128 (negative : Bool) (m : Nat) :
    (if negative = true ∧ m = 170141183460469231731687303715884105728 then
        some (-170141183460469231731687303715884105728)
      else (toI128? (m : Int)).bind fun result =>
        some (if negative = true then -result.val else result.val)) =
      (toI128? (if negative = true then -(m : Int) else m)).map (·.val) := by
  cases negative with
  | true =>
      simp only [true_and, if_true]
      by_cases hleast : m = 170141183460469231731687303715884105728
      · subst hleast
        rw [if_pos rfl, toI128?, Ranged.ofInt?_of_mem (by omega) (by omega)]
        rfl
      · rw [if_neg hleast]
        by_cases hfits : m < 170141183460469231731687303715884105728
        · rw [toI128?, toI128?, Ranged.ofInt?_of_mem (by omega) (by omega),
            Ranged.ofInt?_of_mem (by omega) (by omega)]
          rfl
        · rw [toI128?, toI128?, Ranged.ofInt?_eq_none_iff.mpr (Or.inr (by omega)),
            Ranged.ofInt?_eq_none_iff.mpr (Or.inl (by omega))]
          rfl
  | false =>
      simp only [Bool.false_eq_true, false_and, if_false]
      cases toI128? (m : Int) <;> rfl

/-- The quotient of 128-bit values is the exact quotient rounded as requested where that fits,
and absent elsewhere. -/
theorem muldivRnd_eq {a b c : Int} (hb : b.natAbs < u128Card) (hc : c ≠ 0)
    (rounding : Rounding) :
    muldivRnd a b c rounding =
      (toI128? (rounding.round (((a * b : Int) : ℚ) / c))).map (·.val) := by
  have hpos : 0 < c.natAbs := Int.natAbs_pos.mpr hc
  have hcard : u128Card = 340282366920938463463374607431768211456 := rfl
  rw [signed_quotient, rounding.round_signed _ _ hpos, ← signed_toI128, Int.natAbs_mul,
    muldivRnd, if_neg hc]
  dsimp only
  generalize ((decide (a < 0) ^^ decide (b < 0)) ^^ decide (c < 0)) = negative
  rw [unsignedMuldiv_eq hb hpos, roundedMagnitude]
  by_cases hfits : a.natAbs * b.natAbs / c.natAbs < u128Card
  · rw [toU128?_of_lt hfits]
    simp only [Option.bind_eq_bind, Option.map_some, Option.bind_some]
    split
    · by_cases hnext : a.natAbs * b.natAbs / c.natAbs + 1 < u128Card
      · rw [toU128?_of_lt hnext]
        rfl
      · -- A rounded magnitude of 128 bits has no signed value.
        rw [toU128?_of_le (not_lt.mp hnext), if_neg (by omega), toI128?,
          Ranged.ofInt?_eq_none_iff.mpr (Or.inr (by omega))]
        rfl
    · rfl
  · rw [toU128?_of_le (not_lt.mp hfits)]
    have hlarge : ∀ m, a.natAbs * b.natAbs / c.natAbs ≤ m →
        (if negative = true ∧ m = 170141183460469231731687303715884105728 then
          some (-170141183460469231731687303715884105728)
        else (toI128? (m : Int)).bind fun result =>
          some (if negative = true then -result.val else result.val)) = none := by
      intro m hm
      rw [if_neg (by omega), toI128?, Ranged.ofInt?_eq_none_iff.mpr (Or.inr (by omega))]
      rfl
    rw [hlarge _ (by split <;> omega)]
    rfl

theorem natAbs_lt_u128Card (v : I128) : v.val.natAbs < u128Card := by
  have hle := v.le_val
  have hge := v.val_le
  have hcard : u128Card = 340282366920938463463374607431768211456 := rfl
  omega

/-! ## Rescaling -/

namespace Timestamp

/-- Convert between time bases, refusing a result that does not fit. -/
def checkedRescale (t : Timestamp) (src dst : TimeBase) (rounding : Rounding) :
    Option Timestamp := do
  let ticks ← t
  let (b, c) ← rescaleFactors src dst
  let v ← muldivRnd ticks.val b c rounding
  let ticks ← toI64? v
  return some ticks

/-- A tick count between usable bases is rescaled to its exact time, rounded as requested. -/
theorem muldivRnd_rescale {src dst : TimeBase} (hsrc : TimeBase.Usable src)
    (hdst : TimeBase.Usable dst) (t : I64) (rounding : Rounding) :
    ∃ b c, rescaleFactors src dst = some (b, c) ∧
      muldivRnd t.val b c rounding =
        some (rounding.round ((t.val : ℚ) * src.value / dst.value)) := by
  rcases rescaleFactors_of_usable hsrc hdst with ⟨b, c, hbc, hc, hsmall, hval⟩
  have hpos : 0 < c.natAbs := Int.natAbs_pos.mpr hc
  refine ⟨b, c, hbc, ?_⟩
  rw [← hval, signed_quotient, rounding.round_signed _ _ hpos,
    muldivRnd_of_small rounding hc (hsmall t)]

end Timestamp

/-! ## Main result -/

/-- The quotient is the exact one, rounded, wherever that fits in 128 bits, and absent elsewhere; a
time is refused exactly where its tick count does not fit in 64 bits, and the saturating conversion
gives the nearest one that does. -/
theorem muldivRnd_exact :
    (∀ (a b c : I128) (rounding : Rounding), c.val ≠ 0 →
      MuldivInWords b.val.natAbs (a.val.natAbs % c.val.natAbs) c.val.natAbs 128 0 ∧
        muldivRnd a.val b.val c.val rounding =
          (toI128? (rounding.round (((a.val * b.val : Int) : ℚ) / c.val))).map (·.val)) ∧
    (∀ (t : I64) (src dst : TimeBase) (rounding : Rounding), TimeBase.Usable src →
      TimeBase.Usable dst →
      let ticks := rounding.round ((t.val : ℚ) * src.value / dst.value)
      (Timestamp.checkedRescale (some t) src dst rounding = none ↔
          ticks < -9223372036854775808 ∨ 9223372036854775807 < ticks) ∧
        Timestamp.checkedRescale (some t) src dst rounding = (toI64? ticks).map some ∧
        Timestamp.rescale (some t) src dst rounding = some (clampI64 ticks)) := by
  constructor
  · intro a b c rounding hc
    have hpos : 0 < c.val.natAbs := Int.natAbs_pos.mpr hc
    exact ⟨muldivInWords hpos (Nat.mod_lt _ hpos) (natAbs_lt_u128Card c).le 128,
      muldivRnd_eq (natAbs_lt_u128Card b) hc rounding⟩
  · intro t src dst rounding hsrc hdst ticks
    rcases Timestamp.muldivRnd_rescale hsrc hdst t rounding with ⟨b, c, hbc, hquotient⟩
    have hchecked : Timestamp.checkedRescale (some t) src dst rounding =
        (toI64? ticks).map some := by
      rw [Timestamp.checkedRescale, hbc]
      simp only [Option.bind_eq_bind, Option.bind_some]
      rw [hquotient, Option.bind_some]
      cases toI64? ticks <;> rfl
    refine ⟨?_, hchecked, ?_⟩
    · rw [hchecked, Option.map_eq_none_iff]
      exact Ranged.ofInt?_eq_none_iff
    · rw [Timestamp.rescale, hbc]
      simp only [Option.bind_eq_bind, Option.bind_some]
      rw [hquotient]
      rfl

theorem muldivRnd_exact_least :
    muldivRnd (-170141183460469231731687303715884105728) 170141183460469231731687303715884105727
        170141183460469231731687303715884105727 .down =
          some (-170141183460469231731687303715884105728) ∧
      Timestamp.checkedRescale (some ⟨9223372036854775807, by decide, by decide⟩)
        Rational.MICROSECONDS Rational.MICROSECONDS .zero ≠ none := by
  constructor
  · have hexact := (muldivRnd_exact.1
      ⟨-170141183460469231731687303715884105728, by decide, by decide⟩
      ⟨170141183460469231731687303715884105727, by decide, by decide⟩
      ⟨170141183460469231731687303715884105727, by decide, by decide⟩ .down (by decide)).2
    have hvalue : (((-170141183460469231731687303715884105728 *
        170141183460469231731687303715884105727 : Int) : ℚ) /
          (170141183460469231731687303715884105727 : Int)) =
        ((-170141183460469231731687303715884105728 : Int) : ℚ) := by
      norm_num
    dsimp only at hexact
    rw [hexact, hvalue, Rounding.round, Int.floor_intCast]
    rfl
  · intro hnone
    have hexact := (muldivRnd_exact.2 ⟨9223372036854775807, by decide, by decide⟩
      Rational.MICROSECONDS Rational.MICROSECONDS .zero (by decide) (by decide)).1.mp hnone
    have hvalue : ((9223372036854775807 : Int) : ℚ) * Rational.MICROSECONDS.value /
        Rational.MICROSECONDS.value = ((9223372036854775807 : Int) : ℚ) :=
      mul_div_cancel_right₀ _ (TimeBase.Positive.value_pos (by decide)).ne'
    rw [hvalue, Rounding.round, if_neg (by norm_num), Int.floor_intCast] at hexact
    rcases hexact with hlow | hhigh
    · exact absurd hlow (by decide)
    · exact absurd hhigh (by decide)

end Core
end Vaco
