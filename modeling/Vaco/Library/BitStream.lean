import Mathlib.Data.Nat.Size
import Mathlib.Tactic

/-!
# Bit streams and the numbers in them

A bit stream gives a bit at every position, most significant bit of a field first.
The number of a field is read off bit by bit; bytes make a stream that goes on with
zeros after their end.

Main results:

- `number_add`: a field splits at every position.
- `number_getMsbD`: the leading bits of a bit vector read as the shifted vector.
-/

namespace Vaco
namespace Library
namespace BitStream

/-- A list of bytes. -/
abbrev Bytes := List (BitVec 8)

/-- The number in the `n` bits from a position on. -/
def number (bits : Nat → Bool) (pos : Nat) : Nat → Nat
  | 0 => 0
  | n + 1 => 2 * number bits pos n + (bits (pos + n)).toNat

/-- The two's-complement number in the `n` bits from a position on. -/
def signedNumber (bits : Nat → Bool) (pos n : Nat) : Int :=
  if 0 < n ∧ bits pos then number bits pos n - 2 ^ n else number bits pos n

/-- The bits of a list of bytes, followed by zeros. -/
def ofBytes (data : Bytes) (i : Nat) : Bool :=
  ((data[i / 8]?).getD 0).getMsbD (i % 8)

variable {bits bits' : Nat → Bool}

@[simp]
theorem number_zero (bits : Nat → Bool) (pos : Nat) : number bits pos 0 = 0 :=
  rfl

@[simp]
theorem number_one (bits : Nat → Bool) (pos : Nat) :
    number bits pos 1 = (bits pos).toNat := by
  simp [number]

theorem number_lt (bits : Nat → Bool) (pos n : Nat) : number bits pos n < 2 ^ n := by
  induction n with
  | zero => simp
  | succ n ih =>
      have hbit := Bool.toNat_lt (bits (pos + n))
      rw [number, Nat.pow_succ]
      omega

/-- A field splits at every position. -/
theorem number_add (bits : Nat → Bool) (pos m n : Nat) :
    number bits pos (m + n) = number bits pos m * 2 ^ n + number bits (pos + m) n := by
  induction n with
  | zero => simp
  | succ n ih =>
      rw [← Nat.add_assoc, number, number, ih, Nat.pow_succ, Nat.add_assoc]
      ring

theorem testBit_number (bits : Nat → Bool) (pos : Nat) {n k : Nat} (hk : k < n) :
    (number bits pos n).testBit (n - 1 - k) = bits (pos + k) := by
  have hlt := number_lt bits (pos + (k + 1)) (n - 1 - k)
  have hdiv : number bits pos n / 2 ^ (n - 1 - k) = number bits pos (k + 1) := by
    conv_lhs => rw [show n = k + 1 + (n - 1 - k) by omega, number_add,
      show k + 1 + (n - 1 - k) - 1 - k = n - 1 - k by omega]
    rw [Nat.mul_comm, Nat.mul_add_div (Nat.two_pow_pos _), Nat.div_eq_of_lt hlt, Nat.add_zero]
  rw [Nat.testBit_eq_decide_div_mod_eq, hdiv, number, Nat.mul_add_mod]
  cases bits (pos + k) <;> rfl

theorem forall_of_number_eq_ones {pos n : Nat} (h : number bits pos n = 2 ^ n - 1) :
    ∀ i < n, bits (pos + i) = true := by
  induction n with
  | zero => intro i hi; omega
  | succ n ih =>
      have hlt := number_lt bits pos n
      have hbit := Bool.toNat_lt (bits (pos + n))
      rw [number, Nat.pow_succ] at h
      intro i hi
      by_cases hlast : i = n
      · subst hlast
        cases hvalue : bits (pos + i) with
        | true => rfl
        | false =>
            rw [hvalue] at h
            simp only [Bool.toNat_false] at h
            omega
      · exact ih (by omega) i (by omega)

theorem number_congr {pos pos' n : Nat} (h : ∀ i < n, bits (pos + i) = bits' (pos' + i)) :
    number bits pos n = number bits' pos' n := by
  induction n with
  | zero => rfl
  | succ n ih =>
      rw [number, number, ih fun i hi => h i (by omega), h n (by omega)]

theorem number_eq_zero_iff {pos n : Nat} :
    number bits pos n = 0 ↔ ∀ i < n, bits (pos + i) = false := by
  induction n with
  | zero => simp
  | succ n ih =>
      rw [number, Nat.add_eq_zero_iff, Nat.mul_eq_zero, ih]
      constructor
      · rintro ⟨hhigh, hlow⟩ i hi
        rcases Nat.lt_succ_iff_lt_or_eq.mp hi with hi | rfl
        · exact (hhigh.resolve_left (by decide)) i hi
        · simpa using hlow
      · intro h
        exact ⟨Or.inr fun i hi => h i (by omega), by rw [h n (by omega)]; rfl⟩

theorem two_pow_le_number_iff (bits : Nat → Bool) (pos n : Nat) :
    2 ^ n ≤ number bits pos (n + 1) ↔ bits pos = true := by
  have hrest := number_lt bits (pos + 1) n
  rw [Nat.add_comm n 1, number_add, number_one]
  cases bits pos with
  | false => simpa using hrest
  | true => simp

/-- A field that holds the low bits of a number reads as the number modulo a power of
two. -/
theorem number_eq_mod {pos n x : Nat} (h : ∀ i < n, bits (pos + i) = x.testBit (n - 1 - i)) :
    number bits pos n = x % 2 ^ n := by
  induction n generalizing x with
  | zero => simp [Nat.mod_one]
  | succ n ih =>
      have hhigh : ∀ i < n, bits (pos + i) = (x / 2).testBit (n - 1 - i) := by
        intro i hi
        rw [h i (by omega), ← Nat.testBit_succ]
        congr 1
        omega
      have hlow : bits (pos + n) = x.testBit 0 := by
        rw [h n (by omega)]
        congr 1
        omega
      have hsplit : x % 2 ^ (n + 1) = 2 * (x / 2 % 2 ^ n) + x % 2 := by
        rw [Nat.pow_succ, Nat.mul_comm (2 ^ n) 2, Nat.mod_mul]
        omega
      rw [number, ih hhigh, hlow, hsplit, Nat.testBit_zero]
      rcases Nat.mod_two_eq_zero_or_one x with h2 | h2 <;> simp [h2]

/-- The leading bits of a bit vector read as the shifted vector. -/
theorem number_getMsbD {w : Nat} (x : BitVec w) {n : Nat} (hn : n ≤ w) :
    number x.getMsbD 0 n = (x >>> (w - n)).toNat := by
  have hbits : ∀ i < n, x.getMsbD (0 + i) = (x >>> (w - n)).toNat.testBit (n - 1 - i) := by
    intro i hi
    have hlt : i < w := by omega
    have hplace : w - n + (n - 1 - i) = w - 1 - i := by omega
    rw [Nat.zero_add, BitVec.getMsbD_eq_getLsbD, BitVec.testBit_toNat,
      BitVec.getLsbD_ushiftRight, hplace]
    simp [hlt]
  have hlt : (x >>> (w - n)).toNat < 2 ^ n := by
    rw [BitVec.toNat_ushiftRight, Nat.shiftRight_eq_div_pow, Nat.div_lt_iff_lt_mul (by positivity),
      ← Nat.pow_add, Nat.add_sub_cancel' hn]
    exact x.isLt
  rw [number_eq_mod hbits, Nat.mod_eq_of_lt hlt]

theorem size_number {pos k n : Nat} (hzeros : number bits pos k = 0) (hone : bits (pos + k) = true)
    (hk : k < n) : (number bits pos n).size = n - k := by
  have hsplit := number_add bits pos k (1 + (n - k - 1))
  have hrest := number_add bits (pos + k) 1 (n - k - 1)
  have hlt := number_lt bits (pos + k + 1) (n - k - 1)
  have hsum : k + (1 + (n - k - 1)) = n := by omega
  rw [hsum, hzeros, hrest, number_one, hone] at hsplit
  have hvalue : number bits pos n = 2 ^ (n - k - 1) + number bits (pos + k + 1) (n - k - 1) := by
    simpa using hsplit
  have hpow : 2 ^ (n - k) = 2 ^ (n - k - 1) * 2 := by
    rw [← Nat.pow_succ]
    congr 1
    omega
  apply le_antisymm
  · rw [Nat.size_le]
    omega
  · have hlarge : n - k - 1 < (number bits pos n).size := by
      rw [Nat.lt_size]
      omega
    omega

theorem leading_split {pos lz n x : Nat} (hge : 2 ^ n ≤ x) (hlt : x < 2 ^ (n + 1))
    (h : number bits pos (lz + (n + 1)) = x) :
    number bits pos lz = 0 ∧ bits (pos + lz) = true ∧
      number bits (pos + (lz + 1)) n = x - 2 ^ n := by
  have hsplit := number_add bits pos lz (n + 1)
  rw [h] at hsplit
  have hzeros : number bits pos lz = 0 := by
    by_contra hne
    have hle := Nat.mul_le_mul_right (2 ^ (n + 1)) (Nat.one_le_iff_ne_zero.mpr hne)
    omega
  rw [hzeros, Nat.zero_mul, Nat.zero_add] at hsplit
  have hone : bits (pos + lz) = true := by
    rw [← two_pow_le_number_iff bits _ n, ← hsplit]
    exact hge
  have hrest := number_add bits (pos + lz) 1 n
  rw [number_one, hone, Nat.add_comm 1, ← hsplit, Bool.toNat_true, Nat.one_mul] at hrest
  refine ⟨hzeros, hone, ?_⟩
  rw [hrest, Nat.add_sub_cancel_left, Nat.add_assoc]

theorem toNat_lowMask {w n : Nat} (hn : n < w) : ((1#w <<< n) - 1#w).toNat = 2 ^ n - 1 := by
  have hpow : 2 ^ n < 2 ^ w := Nat.pow_lt_pow_right (by decide) hn
  have hpos : 0 < 2 ^ n := by positivity
  have hcard : 1 < 2 ^ w := by omega
  rw [BitVec.toNat_sub, BitVec.toNat_shiftLeft, Nat.shiftLeft_eq]
  simp only [BitVec.toNat_ofNat, Nat.mod_eq_of_lt hcard, Nat.one_mul, Nat.mod_eq_of_lt hpow]
  rw [show 2 ^ w - 1 + 2 ^ n = 2 ^ n - 1 + 2 ^ w by omega, Nat.add_mod_right,
    Nat.mod_eq_of_lt (by omega)]

/-! ## Bytes -/

theorem ofBytes_of_le {data : Bytes} {i : Nat} (h : 8 * data.length ≤ i) :
    ofBytes data i = false := by
  have hnone : data[i / 8]? = none := List.getElem?_eq_none (by omega)
  simp [ofBytes, hnone]

theorem ofBytes_append (first second : Bytes) (i : Nat) :
    ofBytes (first ++ second) i =
      if i < 8 * first.length then ofBytes first i
      else ofBytes second (i - 8 * first.length) := by
  unfold ofBytes
  split
  · rw [List.getElem?_append_left (by omega)]
  · have hindex : (i - 8 * first.length) / 8 = i / 8 - first.length := by omega
    have hplace : (i - 8 * first.length) % 8 = i % 8 := by omega
    rw [List.getElem?_append_right (by omega), hindex, hplace]

/-- The number of all bits of a list of bytes. -/
def numberOf (data : Bytes) : Nat :=
  number (ofBytes data) 0 (8 * data.length)

theorem numberOf_concat (data : Bytes) (byte : BitVec 8) :
    numberOf (data ++ [byte]) = numberOf data * 256 + byte.toNat := by
  have hfirst : number (ofBytes (data ++ [byte])) 0 (8 * data.length) = numberOf data := by
    apply number_congr
    intro i hi
    rw [ofBytes_append, if_pos (by omega)]
  have hlast : number (ofBytes (data ++ [byte])) (8 * data.length) 8 = byte.toNat := by
    have hbyte : number byte.getMsbD 0 8 = byte.toNat := by
      rw [number_getMsbD byte (le_refl 8)]
      simp
    rw [← hbyte]
    apply number_congr
    intro i hi
    rw [ofBytes_append, if_neg (by omega), Nat.add_sub_cancel_left, ofBytes, Nat.zero_add,
      show i / 8 = 0 by omega, show i % 8 = i by omega]
    rfl
  rw [numberOf, List.length_append, List.length_singleton, Nat.mul_add, number_add, hfirst,
    Nat.zero_add, Nat.mul_one, hlast]
  rfl

theorem ofBytes_append_zeros (data : Bytes) (n : Nat) :
    ofBytes (data ++ List.replicate n 0) = ofBytes data := by
  ext i
  rw [ofBytes_append]
  split
  · rfl
  · rename_i hi
    rw [ofBytes_of_le (not_lt.mp hi)]
    unfold ofBytes
    rw [List.getElem?_replicate]
    split <;> simp

end BitStream
end Library
end Vaco
