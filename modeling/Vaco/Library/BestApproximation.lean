import Mathlib.Tactic
import Mathlib.Data.Rat.Defs
import Mathlib.Algebra.Order.Field.Rat
import Mathlib.Algebra.Order.Field.Basic

/-!
# Best rational approximation inside a unimodular bracket

Two fractions `a/b` and `c/d` with `a * d - c * b = ±1` bracket a
target that is a nonnegative combination of them.  Every fraction is an integer
combination of the two, and only a combination with both coefficients positive
can lie strictly between them.  A family of fractions that contains no such
combination therefore has a best member among the two endpoints.  The
continued-fraction algorithm keeps exactly such a bracket.

Main results:

- `Bracket.combination`: every fraction is an integer combination of the endpoints.
- `Bracket.left_not_farther`, `Bracket.right_not_farther`: which fractions are no closer.
-/

namespace Vaco
namespace Library

def crossError (n d p q : Int) : Int :=
  |n * q - p * d|

theorem crossError_nonneg (n d p q : Int) : 0 ≤ crossError n d p q :=
  abs_nonneg _

theorem abs_sub_div_eq {n d p q : Int} (hd : 0 < d) (hq : 0 < q) :
    |(n : ℚ) / d - p / q| = crossError n d p q / (d * q) := by
  have hd' : (0 : ℚ) < d := by exact_mod_cast hd
  have hq' : (0 : ℚ) < q := by exact_mod_cast hq
  have hcross : (n : ℚ) / d - p / q = ((n * q - p * d : Int) : ℚ) / (d * q) := by
    push_cast
    field_simp
  rw [hcross, abs_div, abs_of_pos (mul_pos hd' hq'), crossError]
  push_cast
  rfl

/-- One fraction is strictly closer to the target than another exactly when its
cross-multiplied error is smaller at a common denominator. -/
theorem abs_sub_div_lt_iff {n d p q r s : Int} (hd : 0 < d) (hq : 0 < q) (hs : 0 < s) :
    |(n : ℚ) / d - p / q| < |(n : ℚ) / d - r / s| ↔
      crossError n d p q * s < crossError n d r s * q := by
  have hd' : (0 : ℚ) < d := by exact_mod_cast hd
  have hq' : (0 : ℚ) < q := by exact_mod_cast hq
  have hs' : (0 : ℚ) < s := by exact_mod_cast hs
  rw [abs_sub_div_eq hd hq, abs_sub_div_eq hd hs, div_lt_div_iff₀ (by positivity) (by positivity)]
  have hleft : (crossError n d p q : ℚ) * (d * s) = d * (crossError n d p q * s) := by ring
  have hright : (crossError n d r s : ℚ) * (d * q) = d * (crossError n d r s * q) := by ring
  rw [hleft, hright, mul_lt_mul_iff_right₀ hd']
  exact_mod_cast Iff.rfl

/-- A target `n/d` is the combination of `a/b` and `c/e`, of unit determinant, with weights `x`,
`y`. -/
structure Bracket (n d a b c e : Int) where
  det : Int
  x : Int
  y : Int
  det_eq : a * e - c * b = det
  det_sq : det * det = 1
  num_eq : n = a * x + c * y
  den_eq : d = b * x + e * y
  x_nonneg : 0 ≤ x
  y_nonneg : 0 ≤ y

namespace Bracket

variable {n d a b c e : Int}

def leftCoeff (B : Bracket n d a b c e) (p q : Int) : Int :=
  B.det * (p * e - q * c)

def rightCoeff (B : Bracket n d a b c e) (p q : Int) : Int :=
  B.det * (q * a - p * b)

/-- Every fraction is an integer combination of the two endpoints. -/
theorem combination (B : Bracket n d a b c e) (p q : Int) :
    p = B.leftCoeff p q * a + B.rightCoeff p q * c ∧
      q = B.leftCoeff p q * b + B.rightCoeff p q * e := by
  have hunit : B.det * (a * e - c * b) = 1 := by rw [B.det_eq, B.det_sq]
  constructor
  · calc
      p = p * (B.det * (a * e - c * b)) := by rw [hunit, mul_one]
      _ = B.leftCoeff p q * a + B.rightCoeff p q * c := by
        simp only [leftCoeff, rightCoeff]; ring
  · calc
      q = q * (B.det * (a * e - c * b)) := by rw [hunit, mul_one]
      _ = B.leftCoeff p q * b + B.rightCoeff p q * e := by
        simp only [leftCoeff, rightCoeff]; ring

theorem crossError_eq (B : Bracket n d a b c e) (p q : Int) :
    crossError n d p q = |B.x * B.rightCoeff p q - B.y * B.leftCoeff p q| := by
  obtain ⟨hp, hq⟩ := B.combination p q
  have hexpand : n * q - p * d =
      B.det * (B.x * B.rightCoeff p q - B.y * B.leftCoeff p q) := by
    calc
      n * q - p * d
          = (a * B.x + c * B.y) * (B.leftCoeff p q * b + B.rightCoeff p q * e) -
              (B.leftCoeff p q * a + B.rightCoeff p q * c) * (b * B.x + e * B.y) := by
            rw [← B.num_eq, ← B.den_eq, ← hp, ← hq]
      _ = (a * e - c * b) * (B.x * B.rightCoeff p q - B.y * B.leftCoeff p q) := by ring
      _ = B.det * (B.x * B.rightCoeff p q - B.y * B.leftCoeff p q) := by rw [B.det_eq]
  have hdet : |B.det| = 1 := by
    rcases mul_self_eq_one_iff.mp B.det_sq with h | h <;> simp [h]
  rw [crossError, hexpand, abs_mul, hdet, one_mul]

theorem crossError_right (B : Bracket n d a b c e) : crossError n d c e = B.x := by
  have hleft : B.leftCoeff c e = 0 := by
    rw [leftCoeff, mul_comm e c, sub_self, mul_zero]
  have hright : B.rightCoeff c e = 1 := by
    rw [rightCoeff, mul_comm e a, B.det_eq, B.det_sq]
  rw [B.crossError_eq, hleft, hright, mul_zero, mul_one, sub_zero,
    abs_of_nonneg B.x_nonneg]

/-- A fraction whose left coefficient is not positive is no closer than the right endpoint. -/
theorem right_not_farther (B : Bracket n d a b c e) (hb : 0 ≤ b) (he : 0 ≤ e)
    {p q : Int} (hq : 0 < q) (hcoeff : B.leftCoeff p q ≤ 0) :
    0 < e ∧ crossError n d c e * q ≤ crossError n d p q * e := by
  obtain ⟨-, hden⟩ := B.combination p q
  set u := B.leftCoeff p q
  set v := B.rightCoeff p q
  have hub : u * b ≤ 0 := mul_nonpos_of_nonpos_of_nonneg hcoeff hb
  have hve : 0 < v * e := by omega
  have hepos : 0 < e := by
    rcases he.eq_or_lt with h | h
    · rw [← h, mul_zero] at hve
      omega
    · exact h
  have hv : 0 < v := pos_of_mul_pos_left hve he
  have herr : B.x * v ≤ crossError n d p q := by
    rw [B.crossError_eq]
    show B.x * v ≤ |B.x * v - B.y * u|
    have hyu : B.y * u ≤ 0 := mul_nonpos_of_nonneg_of_nonpos B.y_nonneg hcoeff
    have := le_abs_self (B.x * v - B.y * u)
    omega
  refine ⟨hepos, ?_⟩
  calc
    crossError n d c e * q = B.x * (u * b + v * e) := by rw [B.crossError_right, ← hden]
    _ ≤ B.x * (v * e) := mul_le_mul_of_nonneg_left (by omega) B.x_nonneg
    _ = B.x * v * e := by ring
    _ ≤ crossError n d p q * e := mul_le_mul_of_nonneg_right herr he

/-- The bracket with its endpoints exchanged. -/
def swap (B : Bracket n d a b c e) : Bracket n d c e a b where
  det := -B.det
  x := B.y
  y := B.x
  det_eq := by rw [← B.det_eq]; ring
  det_sq := by rw [neg_mul_neg, B.det_sq]
  num_eq := B.num_eq.trans (add_comm _ _)
  den_eq := B.den_eq.trans (add_comm _ _)
  x_nonneg := B.y_nonneg
  y_nonneg := B.x_nonneg

theorem swap_leftCoeff (B : Bracket n d a b c e) (p q : Int) :
    B.swap.leftCoeff p q = B.rightCoeff p q := by
  simp only [leftCoeff, rightCoeff, swap]
  ring

theorem crossError_left (B : Bracket n d a b c e) : crossError n d a b = B.y :=
  B.swap.crossError_right

/-- A fraction whose right coefficient is not positive is no closer to the
target than the left endpoint. -/
theorem left_not_farther (B : Bracket n d a b c e) (hb : 0 ≤ b) (he : 0 ≤ e)
    {p q : Int} (hq : 0 < q) (hcoeff : B.rightCoeff p q ≤ 0) :
    crossError n d a b * q ≤ crossError n d p q * b :=
  (B.swap.right_not_farther he hb hq (by rwa [swap_leftCoeff])).2

theorem mediant_le (B : Bracket n d a b c e) (ha : 0 ≤ a) (hb : 0 ≤ b) (hc : 0 ≤ c)
    (he : 0 ≤ e) {p q : Int} (hleft : 0 < B.leftCoeff p q) (hright : 0 < B.rightCoeff p q) :
    a + c ≤ p ∧ b + e ≤ q := by
  obtain ⟨hp, hq⟩ := B.combination p q
  constructor
  · have hua : a ≤ B.leftCoeff p q * a := le_mul_of_one_le_left ha hleft
    have hvc : c ≤ B.rightCoeff p q * c := le_mul_of_one_le_left hc hright
    omega
  · have hub : b ≤ B.leftCoeff p q * b := le_mul_of_one_le_left hb hleft
    have hve : e ≤ B.rightCoeff p q * e := le_mul_of_one_le_left he hright
    omega

end Bracket

theorem crossError_trans {n d p q r s t w : Int} (hs : 0 < s) (hq : 0 < q) (hw : 0 < w)
    (h₁ : crossError n d t w * s ≤ crossError n d r s * w)
    (h₂ : crossError n d r s * q ≤ crossError n d p q * s) :
    crossError n d t w * q ≤ crossError n d p q * w := by
  refine le_of_mul_le_mul_left ?_ hs
  calc
    s * (crossError n d t w * q) = crossError n d t w * s * q := by ring
    _ ≤ crossError n d r s * w * q := mul_le_mul_of_nonneg_right h₁ hq.le
    _ = crossError n d r s * q * w := by ring
    _ ≤ crossError n d p q * s * w := mul_le_mul_of_nonneg_right h₂ hw.le
    _ = s * (crossError n d p q * w) := by ring

end Library
end Vaco
