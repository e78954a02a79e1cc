import Mathlib.Tactic

/-!
# Fixed-width signed integers as ranged values

A machine integer is an integer carrying the proof that it lies in the range of
its width.  Saturating arithmetic clamps the exact result to that range and
checked arithmetic keeps it only when it fits, so every fact below is a fact
about one clamp and one test.

Main results:

- `Ranged.clamp_mono` and `Ranged.clamp_of_mem`: clamping preserves order and returns an exact
  result that fits.
-/

namespace Vaco
namespace Library

@[ext]
structure Ranged (lo hi : Int) where
  val : Int
  le_val : lo ≤ val
  val_le : val ≤ hi
deriving DecidableEq

/-- Signed 32-bit values. -/
abbrev I32 := Ranged (-2147483648) 2147483647

/-- Signed 64-bit values. -/
abbrev I64 := Ranged (-9223372036854775808) 9223372036854775807

/-- Signed 128-bit values. -/
abbrev I128 := Ranged (-170141183460469231731687303715884105728)
  170141183460469231731687303715884105727

/-- The largest unsigned 64-bit value. -/
abbrev u64Max : Nat := 18446744073709551615

/-- The number of unsigned 128-bit values. -/
abbrev u128Card : Nat := 340282366920938463463374607431768211456

namespace Ranged

variable {lo hi : Int}

/-- Ranged values are ordered as the integers they hold. -/
instance : LinearOrder (Ranged lo hi) where
  le a b := a.val ≤ b.val
  le_refl a := Int.le_refl a.val
  le_trans _ _ _ := Int.le_trans
  le_antisymm _ _ hab hba := Ranged.ext (Int.le_antisymm hab hba)
  le_total a b := Int.le_total a.val b.val
  toDecidableLE a b := inferInstanceAs (Decidable (a.val ≤ b.val))
  toDecidableEq := inferInstance

/-- A number in the range, as computing tells. -/
abbrev lit (v : Int) (h : (decide (lo ≤ v) && decide (v ≤ hi)) = true := by exact Eq.refl true) :
    Ranged lo hi where
  val := v
  le_val := of_decide_eq_true (Bool.and_elim_left h)
  val_le := of_decide_eq_true (Bool.and_elim_right h)

theorem le_iff {a b : Ranged lo hi} : a ≤ b ↔ a.val ≤ b.val :=
  Iff.rfl

theorem lt_iff {a b : Ranged lo hi} : a < b ↔ a.val < b.val := by
  rw [← not_le, le_iff, not_le]

/-- Saturating narrowing of an exact integer to a nonempty range. -/
def clamp (h : lo ≤ hi) (v : Int) : Ranged lo hi where
  val := max lo (min hi v)
  le_val := le_max_left _ _
  val_le := max_le h (min_le_left _ _)

/-- Checked narrowing of an exact integer. -/
def ofInt? (lo hi v : Int) : Option (Ranged lo hi) :=
  if h : lo ≤ v ∧ v ≤ hi then some ⟨v, h.1, h.2⟩ else none

theorem lo_le_hi (a : Ranged lo hi) : lo ≤ hi :=
  a.le_val.trans a.val_le

/-- Saturating addition. -/
def saturatingAdd (a b : Ranged lo hi) : Ranged lo hi :=
  clamp a.lo_le_hi (a.val + b.val)

/-- Saturating subtraction. -/
def saturatingSub (a b : Ranged lo hi) : Ranged lo hi :=
  clamp a.lo_le_hi (a.val - b.val)

/-- Saturating multiplication. -/
def saturatingMul (a b : Ranged lo hi) : Ranged lo hi :=
  clamp a.lo_le_hi (a.val * b.val)

/-- Saturating negation. -/
def saturatingNeg (a : Ranged lo hi) : Ranged lo hi :=
  clamp a.lo_le_hi (-a.val)

/-! ## Saturating narrowing -/

theorem val_clamp (h : lo ≤ hi) (v : Int) : (clamp h v).val = max lo (min hi v) :=
  rfl

/-- Narrowing preserves order. -/
theorem clamp_mono (h : lo ≤ hi) {v w : Int} (hvw : v ≤ w) :
    (clamp h v).val ≤ (clamp h w).val := by
  rw [val_clamp, val_clamp]
  exact max_le_max le_rfl (min_le_min le_rfl hvw)

/-- A value of the range narrows to itself. -/
theorem clamp_of_mem (h : lo ≤ hi) {v : Int} (hlo : lo ≤ v) (hhi : v ≤ hi) :
    (clamp h v).val = v := by
  rw [val_clamp, min_eq_right hhi, max_eq_right hlo]

@[simp]
theorem clamp_val (h : lo ≤ hi) (a : Ranged lo hi) : clamp h a.val = a :=
  Ranged.ext (clamp_of_mem h a.le_val a.val_le)

/-! ## Checked narrowing -/

/-- The checked narrowing succeeds exactly on the values of the range. -/
theorem ofInt?_eq_some_iff {v : Int} {a : Ranged lo hi} :
    ofInt? lo hi v = some a ↔ v = a.val := by
  unfold ofInt?
  split
  · simp [Ranged.ext_iff]
  · rename_i h
    constructor
    · intro hnone
      cases hnone
    · intro hv
      exact absurd ⟨hv ▸ a.le_val, hv ▸ a.val_le⟩ h

theorem ofInt?_of_mem {v : Int} (hlo : lo ≤ v) (hhi : v ≤ hi) :
    ofInt? lo hi v = some ⟨v, hlo, hhi⟩ :=
  ofInt?_eq_some_iff.mpr rfl

theorem ofInt?_eq_none_iff {v : Int} : ofInt? lo hi v = none ↔ v < lo ∨ hi < v := by
  unfold ofInt?
  split <;> simp <;> omega

/-! ## Saturating arithmetic -/

theorem saturatingAdd_mono {a b : Ranged lo hi} (c : Ranged lo hi) (h : a.val ≤ b.val) :
    (a.saturatingAdd c).val ≤ (b.saturatingAdd c).val :=
  clamp_mono a.lo_le_hi (by omega)

end Ranged

/-- Saturating narrowing to 64 bits. -/
def clampI64 (v : Int) : I64 :=
  Ranged.clamp (by decide) v

/-- Saturating narrowing to 128 bits. -/
def clampI128 (v : Int) : I128 :=
  Ranged.clamp (by decide) v

/-- Checked narrowing to 32 bits. -/
abbrev toI32? (v : Int) : Option I32 :=
  Ranged.ofInt? _ _ v

/-- Checked narrowing to 64 bits. -/
abbrev toI64? (v : Int) : Option I64 :=
  Ranged.ofInt? _ _ v

/-- Checked narrowing to 128 bits. -/
abbrev toI128? (v : Int) : Option I128 :=
  Ranged.ofInt? _ _ v

/-- Checked narrowing to an unsigned 128-bit value. -/
def toU128? (v : Nat) : Option Nat :=
  if v < u128Card then some v else none

/-- Saturating addition of unsigned 64-bit values. -/
def satAddU64 (a b : Nat) : Nat :=
  min (a + b) u64Max

theorem satAddU64_of_le {a b : Nat} (h : a + b ≤ u64Max) : satAddU64 a b = a + b :=
  Nat.min_eq_left h

@[simp]
theorem clampI64_val (a : I64) : clampI64 a.val = a :=
  Ranged.clamp_val _ a

theorem val_clampI64 (v : Int) :
    (clampI64 v).val = max (-9223372036854775808) (min 9223372036854775807 v) :=
  rfl

end Library
end Vaco
