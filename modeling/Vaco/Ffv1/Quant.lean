import Vaco.Ffv1.RangeCoder

/-!
# Quantisation tables, contexts and the predictor of FFV1

The differences between neighbours of a sample are looked up in five tables; the sum of what is
found is the context of the sample, and a negative sum flips the sign of the coded difference.
The prediction is the median of the left sample, the upper sample and their gradient.

Main results:

- `computeContext_eq`: the context of bounded neighbours, without an overflow.

Current gaps:

- Reading and writing of table sets is left out; a table set is any five tables of 16-bit
  numbers.
-/

namespace Vaco
namespace Ffv1

/-! ## Checked arithmetic -/

/-- A result of 32-bit arithmetic, if it fits. -/
def i32Checked (v : Int) : Except Fault Int :=
  if -2147483648 ≤ v ∧ v ≤ 2147483647 then .ok v else .error .overflow

theorem i32Checked_of_fits {v : Int} (hle : -2147483648 ≤ v) (hge : v ≤ 2147483647) :
    i32Checked v = .ok v :=
  if_pos ⟨hle, hge⟩

theorem ok_bind {α β : Type} (a : α) (f : α → Except Fault β) :
    ((Except.ok a : Except Fault α) >>= f) = f a :=
  rfl

theorem error_bind {α β : Type} (fault : Fault) (f : α → Except Fault β) :
    ((Except.error fault : Except Fault α) >>= f) = .error fault :=
  rfl

/-! ## Table sets -/

/-- One of the five tables. -/
structure QuantTable where
  values : List (BitVec 16)
deriving DecidableEq

/-- Look up a difference by its low byte. -/
def QuantTable.get (q : QuantTable) (diff : Int) : Int :=
  ((q.values[(diff % 256).toNat]?).getD 0).toInt

/-- A quantisation table set. -/
structure QuantTableSet where
  tables : List QuantTable
  contextCount : Nat
deriving DecidableEq

/-- The samples around a sample. -/
structure Neighbours where
  l : Int
  t : Int
  tl : Int
  tr : Int
  ll : Int
  tt : Int
deriving DecidableEq

namespace QuantTableSet

/-- What a difference adds to the context; a table that is not there adds nothing. -/
def input (qts : QuantTableSet) (j : Nat) (a b : Int) : Except Fault Int :=
  match qts.tables[j]? with
  | none => .ok 0
  | some q => do
      let diff ← i32Checked (a - b)
      .ok (q.get diff)

/-- The context of a sample, and whether the coded difference is flipped. -/
def computeContext (qts : QuantTableSet) (n : Neighbours) : Except Fault (Nat × Bool) := do
  let q0 ← qts.input 0 n.l n.tl
  let q1 ← qts.input 1 n.tl n.t
  let raw ← i32Checked (q0 + q1)
  let q2 ← qts.input 2 n.t n.tr
  let raw ← i32Checked (raw + q2)
  let q3 ← qts.input 3 n.ll n.l
  let raw ← i32Checked (raw + q3)
  let q4 ← qts.input 4 n.tt n.t
  let raw ← i32Checked (raw + q4)
  if 0 ≤ raw then
    .ok (raw.toNat, false)
  else do
    let context ← i32Checked (-raw)
    .ok (context.toNat, true)

/-- What a difference adds, in numbers without bounds. -/
def level (qts : QuantTableSet) (j : Nat) (diff : Int) : Int :=
  match qts.tables[j]? with
  | none => 0
  | some q => q.get diff

/-- The sum of the levels of a sample. -/
def rawContext (qts : QuantTableSet) (n : Neighbours) : Int :=
  qts.level 0 (n.l - n.tl) + qts.level 1 (n.tl - n.t) + qts.level 2 (n.t - n.tr) +
    qts.level 3 (n.ll - n.l) + qts.level 4 (n.tt - n.t)

end QuantTableSet

structure Neighbours.Bounded (n : Neighbours) (bits : Nat) : Prop where
  l : 0 ≤ n.l ∧ n.l < 2 ^ bits
  t : 0 ≤ n.t ∧ n.t < 2 ^ bits
  tl : 0 ≤ n.tl ∧ n.tl < 2 ^ bits
  tr : 0 ≤ n.tr ∧ n.tr < 2 ^ bits
  ll : 0 ≤ n.ll ∧ n.ll < 2 ^ bits
  tt : 0 ≤ n.tt ∧ n.tt < 2 ^ bits

theorem two_pow_le_of_le {bits : Nat} (hbits : bits ≤ 16) : (2 : Int) ^ bits ≤ 65536 := by
  have hpow : 2 ^ bits ≤ 2 ^ 16 := Nat.pow_le_pow_right (by decide) hbits
  exact_mod_cast hpow

theorem QuantTableSet.level_bounds (qts : QuantTableSet) (j : Nat) (diff : Int) :
    -32768 ≤ qts.level j diff ∧ qts.level j diff ≤ 32767 := by
  rw [QuantTableSet.level]
  cases qts.tables[j]? with
  | none =>
      show (-32768 : Int) ≤ 0 ∧ (0 : Int) ≤ 32767
      decide
  | some q =>
      have hle := BitVec.le_toInt ((q.values[(diff % 256).toNat]?).getD 0)
      have hlt := BitVec.toInt_lt (x := (q.values[(diff % 256).toNat]?).getD 0)
      rw [show (2 : Int) ^ (16 - 1) = 32768 from rfl] at hle hlt
      dsimp only
      rw [QuantTable.get]
      omega

theorem QuantTableSet.input_eq (qts : QuantTableSet) (j : Nat) {a b : Int}
    (hle : -2147483648 ≤ a - b) (hge : a - b ≤ 2147483647) :
    qts.input j a b = .ok (qts.level j (a - b)) := by
  rw [QuantTableSet.input, QuantTableSet.level]
  cases qts.tables[j]? with
  | none => rfl
  | some q =>
      dsimp only
      rw [i32Checked_of_fits hle hge]
      rfl

/-- The context of bounded neighbours, without an overflow. -/
theorem computeContext_eq (qts : QuantTableSet) {n : Neighbours} {bits : Nat}
    (hbits : bits ≤ 16) (h : n.Bounded bits) :
    qts.computeContext n =
      .ok ((qts.rawContext n).natAbs, decide (qts.rawContext n < 0)) := by
  have hpow := two_pow_le_of_le hbits
  rcases h with ⟨hl, ht, htl, htr, hll, htt⟩
  have h0 := qts.level_bounds 0 (n.l - n.tl)
  have h1 := qts.level_bounds 1 (n.tl - n.t)
  have h2 := qts.level_bounds 2 (n.t - n.tr)
  have h3 := qts.level_bounds 3 (n.ll - n.l)
  have h4 := qts.level_bounds 4 (n.tt - n.t)
  rw [QuantTableSet.computeContext, qts.input_eq 0 (by omega) (by omega), ok_bind,
    qts.input_eq 1 (by omega) (by omega), ok_bind, i32Checked_of_fits (by omega) (by omega),
    ok_bind, qts.input_eq 2 (by omega) (by omega), ok_bind,
    i32Checked_of_fits (by omega) (by omega), ok_bind, qts.input_eq 3 (by omega) (by omega),
    ok_bind, i32Checked_of_fits (by omega) (by omega), ok_bind,
    qts.input_eq 4 (by omega) (by omega), ok_bind, i32Checked_of_fits (by omega) (by omega),
    ok_bind, ← QuantTableSet.rawContext]
  have hraw : -163840 ≤ qts.rawContext n ∧ qts.rawContext n ≤ 163835 := by
    rw [QuantTableSet.rawContext]
    omega
  by_cases hneg : qts.rawContext n < 0
  · rw [if_neg (by omega), i32Checked_of_fits (by omega) (by omega), ok_bind,
      decide_eq_true hneg]
    congr 2
    omega
  · rw [if_pos (by omega), decide_eq_false hneg]
    congr 2
    omega

/-! ## The predictor -/

/-- The number that is in the middle of the left sample, the upper sample and their gradient. -/
def medianOf (l t grad : Int) : Int :=
  let lo := if l < t then l else t
  let hi := if l < t then t else l
  if grad < lo then lo else if hi < grad then hi else grad

/-- The median predictor. -/
def medianPredictor (l t tl : Int) : Except Fault Int := do
  let sum ← i32Checked (l + t)
  let grad ← i32Checked (sum - tl)
  .ok (medianOf l t grad)

/-- The prediction from bounded neighbours, without an overflow. -/
theorem medianPredictor_eq {n : Neighbours} {bits : Nat} (hbits : bits ≤ 16)
    (h : n.Bounded bits) :
    medianPredictor n.l n.t n.tl = .ok (medianOf n.l n.t (n.l + n.t - n.tl)) := by
  have hpow := two_pow_le_of_le hbits
  rcases h with ⟨hl, ht, htl, -, -, -⟩
  rw [medianPredictor, i32Checked_of_fits (by omega) (by omega), ok_bind,
    i32Checked_of_fits (by omega) (by omega), ok_bind]

theorem medianOf_bounds (l t grad : Int) :
    min l t ≤ medianOf l t grad ∧ medianOf l t grad ≤ max l t := by
  rw [medianOf]
  split_ifs <;> omega

end Ffv1
end Vaco
