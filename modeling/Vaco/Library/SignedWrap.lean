import Mathlib.Tactic

/-!
# Sign extension from a narrower width

A word is wrapped to a narrower width by keeping its low bits and extending the sign of the
highest of them.  Wrapped words are those whose signed value fits the width, and sums may be
wrapped before or after they are taken.

Main results:

- `shift_eq_wrap`: shifting up to the sign and back wraps.
- `wrap_wrap_add`: a summand may be wrapped first.
-/

namespace Vaco
namespace Library

variable {w n : Nat}

/-- Keep the low bits of a word and extend the sign of the highest of them. -/
def wrap (n : Nat) (v : BitVec w) : BitVec w :=
  (v.setWidth n).signExtend w

/-- The signed value of a word fits a width. -/
def Fits (n : Nat) (v : BitVec w) : Prop :=
  -2 ^ (n - 1) ≤ v.toInt ∧ v.toInt < 2 ^ (n - 1)

instance (n : Nat) (v : BitVec w) : Decidable (Fits n v) :=
  inferInstanceAs (Decidable (_ ∧ _))

/-- Shifting the low bits up to the sign and back wraps. -/
theorem shift_eq_wrap (hn : 0 < n) (hnw : n ≤ w) (v : BitVec w) :
    (v <<< (w - n)).sshiftRight (w - n) = wrap n v := by
  apply BitVec.eq_of_getLsbD_eq
  intro i hi
  have htop : (v <<< (w - n)).msb = (v.setWidth n).msb := by
    have hplace : w - 1 - (w - n) = n - 1 := by omega
    rw [BitVec.msb_eq_getLsbD_last, BitVec.msb_eq_getLsbD_last, BitVec.getLsbD_shiftLeft,
      BitVec.getLsbD_setWidth, hplace]
    simp [show w - 1 < w by omega, show ¬ w - 1 < w - n by omega, show n - 1 < n by omega]
  rw [wrap, BitVec.getLsbD_sshiftRight, BitVec.getLsbD_signExtend, htop]
  by_cases hlow : i < n
  · have hsum : w - n + i < w := by omega
    have hplace : w - n + i - (w - n) = i := by omega
    rw [if_pos hsum, if_pos hlow, BitVec.getLsbD_shiftLeft, BitVec.getLsbD_setWidth, hplace]
    simp [hi, hlow, hsum]
  · rw [if_neg (by omega), if_neg hlow]
    simp [hi]

/-- A wrapped word fits. -/
theorem fits_wrap (hnw : n ≤ w) (v : BitVec w) : Fits n (wrap n v) := by
  rw [Fits, wrap, BitVec.toInt_signExtend_of_le hnw]
  exact ⟨BitVec.le_toInt _, BitVec.toInt_lt⟩

/-- A word that fits is wrapped to itself. -/
theorem wrap_of_fits (hn : 0 < n) (hnw : n ≤ w) {v : BitVec w} (h : Fits n v) :
    wrap n v = v := by
  apply BitVec.eq_of_toInt_eq
  have hpow : (2 : Int) ^ n = 2 * 2 ^ (n - 1) := by
    rw [← pow_succ', Nat.sub_add_cancel hn]
  have hcast : ((2 ^ n : Nat) : Int) = 2 * 2 ^ (n - 1) := by
    rw [← hpow]
    norm_num
  have hdvd : 2 ^ n ∣ 2 ^ w := Nat.pow_dvd_pow 2 hnw
  rcases h with ⟨hlow, hhigh⟩
  rw [wrap, BitVec.toInt_signExtend_of_le hnw, BitVec.toInt_setWidth,
    ← Int.bmod_bmod_of_dvd hdvd, ← BitVec.toInt_eq_toNat_bmod]
  exact Int.bmod_eq_of_le (by omega) (by omega)

theorem setWidth_wrap (hnw : n ≤ w) (v : BitVec w) :
    (wrap n v).setWidth n = v.setWidth n := by
  apply BitVec.eq_of_getLsbD_eq
  intro i hi
  rw [BitVec.getLsbD_setWidth, wrap, BitVec.getLsbD_signExtend]
  simp [hi, show i < w by omega]

/-- A summand may be wrapped first. -/
theorem wrap_wrap_add (hnw : n ≤ w) (a b : BitVec w) : wrap n (wrap n a + b) = wrap n (a + b) := by
  rw [wrap, BitVec.setWidth_add _ _ hnw, setWidth_wrap hnw, ← BitVec.setWidth_add _ _ hnw, ← wrap]

end Library
end Vaco
