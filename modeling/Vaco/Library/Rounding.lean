import Mathlib.Tactic
import Mathlib.Algebra.Order.Round

/-!
# Rounding a quotient to the nearest integer

Rounding to nearest with ties away from zero is a monotone map from an ordered
field to the integers.  On a quotient of naturals it is read off the integer
quotient and remainder, which is how integer code computes it.

Main results:

- `nearestAway_mono`: the rounding preserves order.
- `nearestAway_sub_eq_neg_iff`: when a part added to an integer is rounded off again.
- `round_div_eq`: the rounding of a natural quotient compares the remainder with its complement.
- `ceil_div_eq`: the upper rounding of a natural quotient asks whether anything remains.
-/

namespace Vaco
namespace Library

section Field

variable {K : Type*} [Field K] [LinearOrder K] [IsStrictOrderedRing K] [FloorRing K]

def nearestAway (x : K) : Int :=
  if x < 0 then -round (-x) else round x

theorem round_mono {x y : K} (h : x ≤ y) : round x ≤ round y := by
  rw [round_eq, round_eq]
  exact Int.floor_mono (by linarith)

theorem round_nonneg {x : K} (h : 0 ≤ x) : 0 ≤ round x := by
  calc
    (0 : Int) = round (0 : K) := round_zero.symm
    _ ≤ round x := round_mono h

/-- Rounding away from zero preserves order. -/
theorem nearestAway_mono {x y : K} (h : x ≤ y) : nearestAway x ≤ nearestAway y := by
  unfold nearestAway
  by_cases hx : x < 0
  · rw [if_pos hx]
    by_cases hy : y < 0
    · rw [if_pos hy]
      exact neg_le_neg (round_mono (neg_le_neg h))
    · rw [if_neg hy]
      have hleft : 0 ≤ round (-x) := round_nonneg (by linarith)
      have hright : 0 ≤ round y := round_nonneg (not_lt.mp hy)
      omega
  · have hy : ¬ y < 0 := by
      intro hy
      exact hx (h.trans_lt hy)
    rw [if_neg hx, if_neg hy]
    exact round_mono h

@[simp]
theorem nearestAway_intCast (n : Int) : nearestAway (n : K) = n := by
  unfold nearestAway
  split
  · rw [← Int.cast_neg, round_intCast, neg_neg]
  · exact round_intCast n

theorem nearestAway_neg (x : K) : nearestAway (-x) = -nearestAway x := by
  unfold nearestAway
  rcases lt_trichotomy x 0 with hx | hx | hx
  · rw [if_pos hx, if_neg (by linarith), neg_neg]
  · simp [hx]
  · rw [if_neg (by linarith : ¬ x < 0), if_pos (by linarith), neg_neg]

theorem abs_sub_nearestAway_le (x : K) : |x - nearestAway x| ≤ 1 / 2 := by
  unfold nearestAway
  split
  · have hneg := abs_sub_round (-x)
    rw [← abs_neg] at hneg
    push_cast
    convert hneg using 2
    ring
  · exact abs_sub_round x

/-- A value rounds to the integer that it is less than a half away from. -/
theorem nearestAway_eq_of_lt {x : K} {n : Int} (h : |x - n| < 1 / 2) : nearestAway x = n := by
  have hclose := abs_sub_nearestAway_le x
  have hapart : |((nearestAway x - n : Int) : K)| < 1 := by
    rw [abs_lt] at h ⊢
    rw [abs_le] at hclose
    push_cast
    constructor <;> linarith
  have hzero : |nearestAway x - n| < 1 := by exact_mod_cast hapart
  rw [Int.abs_lt_one_iff] at hzero
  omega

/-- A part of less than a half, or a half towards zero, does not change what a negated integer
rounds to. -/
theorem nearestAway_sub_eq_neg_iff {x : K} (hx : 0 ≤ x) (n : Int) :
    nearestAway (x - n) = -n ↔ 2 * x < 1 ∨ 2 * x = 1 ∧ 0 < n := by
  unfold nearestAway
  by_cases hneg : x - n < 0
  · have hpos : 0 < n := by
      have : (0 : K) < n := by linarith
      exact_mod_cast this
    rw [if_pos hneg, neg_inj, round_eq, Int.floor_eq_iff]
    simp only [hpos, and_true]
    rw [← le_iff_lt_or_eq]
    constructor
    · intro h
      linarith
    · intro h
      constructor <;> linarith
  · rw [if_neg hneg, round_eq, Int.floor_eq_iff]
    push_cast
    constructor
    · intro h
      left
      linarith
    · rintro (h | ⟨h, hpos⟩)
      · constructor <;> linarith
      · have hone : (1 : K) ≤ n := by exact_mod_cast hpos
        linarith

/-- The rounding of a natural quotient is the integer quotient, plus one when the
remainder is at least its complement to the divisor. -/
theorem round_div_eq {m c : Nat} (hc : 0 < c) :
    round ((m : K) / c) =
      if c - m % c ≤ m % c then ((m / c : Nat) : Int) + 1 else (m / c : Nat) := by
  have hcK : (0 : K) < c := by exact_mod_cast hc
  have hsplit : (m : K) = c * (m / c : Nat) + (m % c : Nat) := by
    exact_mod_cast (Nat.div_add_mod m c).symm
  have hfrac : (m : K) / c = (m / c : Nat) + ((m % c : Nat) : K) / c := by
    conv_lhs => rw [hsplit]
    field_simp
  have hmod : m % c < c := Nat.mod_lt m hc
  have hmodK : ((m % c : Nat) : K) < c := by exact_mod_cast hmod
  have hmod0 : (0 : K) ≤ (m % c : Nat) := Nat.cast_nonneg _
  rw [round_eq, Int.floor_eq_iff, hfrac]
  split
  · rename_i hle
    have hdouble : (c : K) ≤ 2 * (m % c : Nat) := by
      have : c ≤ 2 * (m % c) := by omega
      exact_mod_cast this
    have hhalf : (1 : K) / 2 ≤ ((m % c : Nat) : K) / c := by
      rw [div_le_div_iff₀ two_pos hcK]
      linarith
    have hone : ((m % c : Nat) : K) / c < 1 := (div_lt_one hcK).mpr hmodK
    rw [Int.cast_add, Int.cast_natCast, Int.cast_one]
    constructor <;> linarith
  · rename_i hlt
    have hdouble : 2 * ((m % c : Nat) : K) < c := by
      have : 2 * (m % c) < c := by omega
      exact_mod_cast this
    have hhalf : ((m % c : Nat) : K) / c < 1 / 2 := by
      rw [div_lt_div_iff₀ hcK two_pos]
      linarith
    have hzero : (0 : K) ≤ ((m % c : Nat) : K) / c := div_nonneg hmod0 hcK.le
    rw [Int.cast_natCast]
    constructor <;> linarith

/-- The upper rounding of a natural quotient is one more where something is left. -/
theorem ceil_div_eq {m c : Nat} (hc : 0 < c) :
    ⌈(m : K) / c⌉ = if m % c ≠ 0 then ((m / c : Nat) : Int) + 1 else (m / c : Nat) := by
  have hcK : (0 : K) < c := by exact_mod_cast hc
  have hsplit : c * (m / c) + m % c = m := Nat.div_add_mod m c
  have hmod : m % c < c := Nat.mod_lt m hc
  rw [Int.ceil_eq_iff]
  split
  · rename_i hrest
    have hlow : m / c * c < m := by
      rw [Nat.mul_comm]
      omega
    have hhigh : m ≤ (m / c + 1) * c := by
      rw [Nat.succ_mul, Nat.mul_comm]
      omega
    rw [Int.cast_add, Int.cast_natCast, Int.cast_one, add_sub_cancel_right]
    constructor
    · rw [lt_div_iff₀ hcK]
      exact_mod_cast hlow
    · rw [div_le_iff₀ hcK]
      exact_mod_cast hhigh
  · rename_i hnone
    have hexact : m / c * c = m := by
      rw [Nat.mul_comm]
      omega
    have hvalue : (m : K) / c = (m / c : Nat) := by
      rw [div_eq_iff hcK.ne']
      exact_mod_cast hexact.symm
    rw [Int.cast_natCast, hvalue]
    constructor
    · linarith
    · exact le_rfl

end Field

end Library
end Vaco
