import Vaco.Bitstream.BitReader

/-!
# The bit writer

The writer keeps at most seven pending bits in a cache, most significant bit first, and
flushes whole bytes.  What it has written so far is a stream of bits of known length,
and every write appends one field to it.

Main results:

- `Wf.put`: a write appends the low bits of its value and keeps all bits before.
-/

namespace Vaco
namespace Bitstream

open Library BitStream

/-- A writer: the finished bytes and up to seven pending bits. -/
structure BitWriter where
  out : Bytes
  cache : BitVec 64
  cacheBits : Nat
deriving DecidableEq

namespace BitWriter

/-- An empty writer. -/
def new : BitWriter where
  out := []
  cache := 0
  cacheBits := 0

/-- Move the top byte of the cache to the output. -/
def flushByte (w : BitWriter) : BitWriter where
  out := w.out ++ [(w.cache >>> 56).setWidth 8]
  cache := w.cache <<< 8
  cacheBits := w.cacheBits - 8

/-- Move a number of bytes to the output. -/
def flushTimes : Nat → BitWriter → BitWriter
  | 0, w => w
  | times + 1, w => flushTimes times w.flushByte

/-- Move bytes to the output while the cache holds one. -/
def flushBytes (w : BitWriter) : BitWriter :=
  flushTimes (w.cacheBits / 8) w

/-- The low bits of a value. -/
def masked (n : Nat) (value : BitVec 32) : BitVec 32 :=
  if n = 32 then value else value &&& ((1#32 <<< n) - 1#32)

/-- Put the low bits of a value behind the pending ones. -/
def load (w : BitWriter) (n : Nat) (value : BitVec 32) : BitWriter :=
  { w with
    cache := w.cache ||| ((masked n value).setWidth 64 <<< (64 - w.cacheBits - n))
    cacheBits := w.cacheBits + n }

/-- Write the low bits of a value, at most 32. -/
def put (w : BitWriter) (n : Nat) (value : BitVec 32) : BitWriter :=
  let n := min n 32
  if n = 0 then w else (w.load n value).flushBytes

/-- Write the low bits of a value, at most 64. -/
def putLong (w : BitWriter) (n : Nat) (value : BitVec 64) : BitWriter :=
  let n := min n 64
  if n ≤ 32 then
    w.put n (value.setWidth 32)
  else
    (w.put (n - 32) ((value >>> 32).setWidth 32)).put 32 (value.setWidth 32)

/-- Write a value as a two's-complement field of at most 32 bits. -/
def putSigned (w : BitWriter) (n : Nat) (value : BitVec 32) : BitWriter :=
  w.put n value

/-- Write zeros, 32 at a time while more are left. -/
def putZerosLoop : Nat → BitWriter → Nat → BitWriter
  | 0, w, left => w.put left 0
  | fuel + 1, w, left =>
      if 32 < left then putZerosLoop fuel (w.put 32 0) (left - 32) else w.put left 0

/-- Write a number of zero bits. -/
def putZeros (w : BitWriter) (n : Nat) : BitWriter :=
  putZerosLoop n w n

/-- The code number of an unsigned Exp-Golomb value, which saturates below the greatest
32-bit value. -/
def ueCode (v : BitVec 32) : Nat :=
  min v.toNat 4294967294 + 1

/-- Write an unsigned Exp-Golomb value. -/
def ue (w : BitWriter) (v : BitVec 32) : BitWriter :=
  (w.putZeros ((ueCode v).size - 1)).putLong (ueCode v).size (BitVec.ofNat 64 (ueCode v))

/-- The unsigned value that stands for a signed Exp-Golomb value, which saturates above
the least 32-bit value. -/
def seCode (v : BitVec 32) : BitVec 32 :=
  let v := max v.toInt (-2147483647)
  if 0 < v then BitVec.ofNat 32 (v.toNat * 2 - 1) else BitVec.ofNat 32 (v.natAbs * 2)

/-- Write a signed Exp-Golomb value. -/
def se (w : BitWriter) (v : BitVec 32) : BitWriter :=
  w.ue (seCode v)

/-- Bits missing to the next byte boundary. -/
def padding (w : BitWriter) : Nat :=
  (8 - w.cacheBits % 8) % 8

/-- Pad to the next byte boundary with zeros. -/
def alignZero (w : BitWriter) : BitWriter :=
  w.put w.padding 0

/-- Bits written so far, including the pending ones. -/
def bitLen (w : BitWriter) : Nat :=
  min (min (w.out.length * 8) u64Max + w.cacheBits) u64Max

/-- Pad to a byte boundary and take the output. -/
def finish (w : BitWriter) : Bytes :=
  w.alignZero.out

/-! ## The written bits -/

/-- The number of written bits. -/
def length (w : BitWriter) : Nat :=
  8 * w.out.length + w.cacheBits

/-- The written bits, followed by zeros. -/
def bit (w : BitWriter) (i : Nat) : Bool :=
  if i < 8 * w.out.length then ofBytes w.out i else w.cache.getMsbD (i - 8 * w.out.length)

/-- A writer between two calls: less than a byte is pending, and nothing lies behind. -/
structure Wf (w : BitWriter) : Prop where
  cacheBits_lt : w.cacheBits < 8
  zeros : ∀ i, w.length ≤ i → w.bit i = false

/-- A writer that has appended a field of `n` bits holding a number, and kept all bits
before. -/
structure Appends (w w' : BitWriter) (n value : Nat) : Prop where
  wf : w'.Wf
  length : w'.length = w.length + n
  keeps : ∀ i < w.length, w'.bit i = w.bit i
  field : number w'.bit w.length n = value

variable {w w' w'' : BitWriter}

theorem Appends.trans {m n a b : Nat} (h : w.Appends w' m a) (h' : w'.Appends w'' n b) :
    w.Appends w'' (m + n) (a * 2 ^ n + b) where
  wf := h'.wf
  length := by rw [h'.length, h.length, Nat.add_assoc]
  keeps := by
    intro i hi
    rw [h'.keeps i (by rw [h.length]; omega), h.keeps i hi]
  field := by
    have hfirst : number w''.bit w.length m = a := by
      rw [← h.field]
      apply number_congr
      intro i hi
      exact h'.keeps _ (by rw [h.length]; omega)
    rw [number_add, hfirst, ← h.length, h'.field]

theorem Wf.stay (h : w.Wf) : w.Appends w 0 0 :=
  ⟨h, rfl, fun _ _ => rfl, rfl⟩

theorem wf_new : new.Wf where
  cacheBits_lt := by decide
  zeros := by
    intro i _
    simp [bit, new]

/-! ## Flushing -/

/-- Moving a byte to the output changes neither the bits nor their number. -/
theorem flushByte_bits (hw : 8 ≤ w.cacheBits) :
    w.flushByte.bit = w.bit ∧ w.flushByte.length = w.length := by
  constructor
  · ext i
    have hbyte : ∀ j < 8, ((w.cache >>> 56).setWidth 8).getMsbD j = w.cache.getMsbD j := by
      intro j hj
      have hflip : 56 + (8 - 1 - j) = 64 - 1 - j := by omega
      have hlt : 8 - 1 - j < 8 := by omega
      rw [BitVec.getMsbD_eq_getLsbD, BitVec.getMsbD_eq_getLsbD, BitVec.getLsbD_setWidth,
        BitVec.getLsbD_ushiftRight, hflip]
      simp [hj, hlt, show j < 64 by omega]
    simp only [bit, flushByte, List.length_append, List.length_singleton, ofBytes_append]
    by_cases hout : i < 8 * w.out.length
    · simp [hout, show i < 8 * (w.out.length + 1) by omega]
    · by_cases hnew : i < 8 * (w.out.length + 1)
      · have hdiv : (i - 8 * w.out.length) / 8 = 0 := by omega
        have hmod : (i - 8 * w.out.length) % 8 = i - 8 * w.out.length := by omega
        have htop := hbyte (i - 8 * w.out.length) (by omega)
        simp [hout, hnew, ofBytes, hdiv, hmod, htop]
      · have hplace : i - 8 * (w.out.length + 1) + 8 = i - 8 * w.out.length := by omega
        rw [if_neg hnew, if_neg hout, BitVec.getMsbD_shiftLeft, hplace]
  · simp only [length, flushByte, List.length_append, List.length_singleton]
    omega

theorem flushTimes_bits {times : Nat} (hw : 8 * times ≤ w.cacheBits) :
    (flushTimes times w).bit = w.bit ∧ (flushTimes times w).length = w.length ∧
      (flushTimes times w).cacheBits = w.cacheBits - 8 * times := by
  induction times generalizing w with
  | zero => exact ⟨rfl, rfl, rfl⟩
  | succ times ih =>
      have hone := flushByte_bits (w := w) (by omega)
      have hrest : 8 * times ≤ w.flushByte.cacheBits := by
        simp only [flushByte]
        omega
      rcases ih hrest with ⟨hbit, hlength, hcache⟩
      refine ⟨hbit.trans hone.1, hlength.trans hone.2, ?_⟩
      rw [flushTimes, hcache]
      simp only [flushByte]
      omega

/-! ## Writing -/

theorem toNat_masked {n : Nat} (hn : n ≤ 32) (value : BitVec 32) :
    (masked n value).toNat = value.toNat % 2 ^ n := by
  unfold masked
  split
  · rename_i hfull
    rw [hfull, Nat.mod_eq_of_lt value.isLt]
  · rw [BitVec.toNat_and, toNat_lowMask (by omega), Nat.and_two_pow_sub_one_eq_mod]

/-- The loaded bits lie behind the pending ones. -/
theorem Wf.bit_load (h : w.Wf) {n : Nat} (hn : n ≤ 32) (value : BitVec 32) (i : Nat) :
    (w.load n value).bit i =
      (w.bit i || (decide (w.length ≤ i) && decide (i < w.length + n) &&
        (value.toNat % 2 ^ n).testBit (n - 1 - (i - w.length)))) := by
  have hcache := h.cacheBits_lt
  have hload : (w.load n value).out = w.out := rfl
  have hmerged : (w.load n value).cache =
      w.cache ||| ((masked n value).setWidth 64 <<< (64 - w.cacheBits - n)) := rfl
  simp only [bit, length, hload]
  by_cases hout : i < 8 * w.out.length
  · simp [hout, show ¬ 8 * w.out.length + w.cacheBits ≤ i by omega]
  · rw [if_neg hout, if_neg hout, hmerged, BitVec.getMsbD_or, BitVec.getMsbD_shiftLeft,
      BitVec.getMsbD_eq_getLsbD (BitVec.setWidth 64 _), BitVec.getLsbD_setWidth,
      ← BitVec.testBit_toNat, toNat_masked hn]
    by_cases hlow : 8 * w.out.length + w.cacheBits ≤ i
    · by_cases hhigh : i < 8 * w.out.length + w.cacheBits + n
      · have hplace : 64 - 1 - (i - 8 * w.out.length + (64 - w.cacheBits - n)) =
            n - 1 - (i - (8 * w.out.length + w.cacheBits)) := by omega
        rw [hplace]
        simp [hlow, hhigh, show i - 8 * w.out.length + (64 - w.cacheBits - n) < 64 by omega,
          show n - 1 - (i - (8 * w.out.length + w.cacheBits)) < 64 by omega]
      · simp [hhigh, show ¬ i - 8 * w.out.length + (64 - w.cacheBits - n) < 64 by omega]
    · have hbeyond : n ≤ 64 - 1 - (i - 8 * w.out.length + (64 - w.cacheBits - n)) := by omega
      simp [hlow, Nat.testBit_mod_two_pow, hbeyond]

/-- A write appends the low bits of its value. -/
theorem Wf.put (h : w.Wf) {n : Nat} (hn : n ≤ 32) (value : BitVec 32) :
    w.Appends (w.put n value) n (value.toNat % 2 ^ n) := by
  rw [BitWriter.put, min_eq_left hn]
  by_cases hzero : n = 0
  · subst hzero
    simpa [Nat.mod_one] using h.stay
  · rw [if_neg hzero]
    have hflush : 8 * ((w.load n value).cacheBits / 8) ≤ (w.load n value).cacheBits := by omega
    rcases flushTimes_bits hflush with ⟨hbit, hlength, hcache⟩
    have hload : (w.load n value).length = w.length + n := by
      simp only [length, load]
      omega
    rw [← flushBytes] at hbit hlength hcache
    refine ⟨⟨?_, ?_⟩, hlength.trans hload, ?_, ?_⟩
    · omega
    · intro i hi
      rw [hlength, hload] at hi
      rw [hbit, h.bit_load hn, h.zeros i (by omega)]
      simp [show ¬ i < w.length + n by omega]
    · intro i hi
      rw [hbit, h.bit_load hn]
      simp [show ¬ w.length ≤ i by omega]
    · have hfield : ∀ i < n, (w.load n value).flushBytes.bit (w.length + i) =
          (value.toNat % 2 ^ n).testBit (n - 1 - i) := by
        intro i hi
        rw [hbit, h.bit_load hn, h.zeros _ (by omega)]
        simp [hi]
      rw [number_eq_mod hfield, Nat.mod_mod]

/-- A long write appends the low bits of its value. -/
theorem Wf.putLong (h : w.Wf) {n : Nat} (hn : n ≤ 64) (value : BitVec 64) :
    w.Appends (w.putLong n value) n (value.toNat % 2 ^ n) := by
  have hlow : ∀ m ≤ 32, (value.setWidth 32).toNat % 2 ^ m = value.toNat % 2 ^ m := by
    intro m hm
    rw [BitVec.toNat_setWidth]
    exact Nat.mod_mod_of_dvd _ (Nat.pow_dvd_pow 2 hm)
  rw [BitWriter.putLong, min_eq_left hn]
  by_cases hshort : n ≤ 32
  · rw [if_pos hshort]
    have hput := h.put hshort (value.setWidth 32)
    rwa [hlow n hshort] at hput
  · rw [if_neg hshort]
    have hfirst := h.put (show n - 32 ≤ 32 by omega) ((value >>> 32).setWidth 32)
    have hboth := hfirst.trans (hfirst.wf.put le_rfl (value.setWidth 32))
    have hsum : n - 32 + 32 = n := by omega
    have hhigh : ((value >>> 32).setWidth 32).toNat = value.toNat / 2 ^ 32 := by
      rw [BitVec.toNat_setWidth, BitVec.toNat_ushiftRight, Nat.shiftRight_eq_div_pow,
        Nat.mod_eq_of_lt (by omega)]
    have hvalue : value.toNat / 2 ^ 32 % 2 ^ (n - 32) * 2 ^ 32 + value.toNat % 2 ^ 32 =
        value.toNat % 2 ^ n := by
      rw [← hsum, Nat.pow_add, Nat.mul_comm (2 ^ (n - 32)), Nat.mod_mul, hsum]
      ring
    rwa [hsum, hhigh, hlow 32 le_rfl, hvalue] at hboth

/-- Writing zeros appends a field of zeros. -/
theorem Wf.putZeros (h : w.Wf) (n : Nat) : w.Appends (w.putZeros n) n 0 := by
  have hloop : ∀ fuel left, left ≤ 32 * (fuel + 1) → ∀ {w : BitWriter}, w.Wf →
      w.Appends (putZerosLoop fuel w left) left 0 := by
    intro fuel
    induction fuel with
    | zero =>
        intro left hleft w hw
        simpa [putZerosLoop] using hw.put (show left ≤ 32 by omega) 0
    | succ fuel ih =>
        intro left hleft w hw
        rw [putZerosLoop]
        split
        · have hfirst := hw.put (le_refl 32) 0
          have hrest := ih (left - 32) (by omega) hfirst.wf
          have hsum : 32 + (left - 32) = left := by omega
          simpa [hsum] using hfirst.trans hrest
        · simpa using hw.put (show left ≤ 32 by omega) 0
  exact hloop n n (by omega) h

/-- An unsigned Exp-Golomb write appends the code number behind one zero less than it has
bits. -/
theorem Wf.ue (h : w.Wf) (v : BitVec 32) :
    w.Appends (w.ue v) (2 * (ueCode v).size - 1) (ueCode v) := by
  have hpos : 0 < (ueCode v).size := Nat.size_pos.mpr (Nat.succ_pos _)
  have hsize : (ueCode v).size ≤ 32 := by
    rw [Nat.size_le]
    unfold ueCode
    omega
  have hcode : ueCode v < 2 ^ (ueCode v).size := Nat.lt_size_self _
  have hfit : (BitVec.ofNat 64 (ueCode v)).toNat = ueCode v := by
    rw [BitVec.toNat_ofNat, Nat.mod_eq_of_lt]
    unfold ueCode
    omega
  have hzeros := h.putZeros ((ueCode v).size - 1)
  have hboth := hzeros.trans (hzeros.wf.putLong (show (ueCode v).size ≤ 64 by omega)
    (BitVec.ofNat 64 (ueCode v)))
  have hsum : (ueCode v).size - 1 + (ueCode v).size = 2 * (ueCode v).size - 1 := by omega
  rwa [hfit, Nat.mod_eq_of_lt hcode, Nat.zero_mul, Nat.zero_add, hsum] at hboth

/-! ## Finishing -/

/-- Aligning appends zeros up to the next byte boundary. -/
theorem Wf.alignZero (h : w.Wf) : w.Appends w.alignZero (BitReader.toBoundary w.length) 0 := by
  have hpad : w.padding = BitReader.toBoundary w.length := by
    unfold padding BitReader.toBoundary length
    omega
  have hput := h.put (show w.padding ≤ 32 by unfold padding; omega) 0
  rw [hpad] at hput
  simpa [BitWriter.alignZero, hpad] using hput

/-- The finished bytes hold the written bits, followed by zeros. -/
theorem Wf.finish (h : w.Wf) :
    ofBytes w.finish = w.bit ∧ w.length ≤ 8 * w.finish.length ∧
      8 * w.finish.length < w.length + 8 := by
  have halign := h.alignZero
  have hcache := halign.wf.cacheBits_lt
  have hlength := halign.length
  have haligned : w.alignZero.cacheBits = 0 := by
    unfold length BitReader.toBoundary at hlength
    omega
  have hout : w.alignZero.length = 8 * w.finish.length := by
    rw [length, haligned]
    rfl
  refine ⟨?_, by omega, ?_⟩
  · ext i
    have hbit : ofBytes w.finish i = w.alignZero.bit i := by
      by_cases hi : i < 8 * w.finish.length
      · rw [bit, if_pos (show i < 8 * w.alignZero.out.length from hi)]
        rfl
      · rw [ofBytes_of_le (not_lt.mp hi), halign.wf.zeros i (by omega)]
    rw [hbit]
    by_cases hi : i < w.length
    · exact halign.keeps i hi
    · rw [h.zeros i (not_lt.mp hi)]
      by_cases hi' : i < w.alignZero.length
      · have hzero := number_eq_zero_iff.mp halign.field (i - w.length) (by omega)
        rwa [Nat.add_sub_cancel' (not_lt.mp hi)] at hzero
      · exact halign.wf.zeros i (not_lt.mp hi')
  · have hpad : BitReader.toBoundary w.length < 8 := by
      unfold BitReader.toBoundary
      omega
    omega

end BitWriter

end Bitstream
end Vaco
