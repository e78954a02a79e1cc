import Vaco.Codec.ExpGolomb

/-!
# One peek and two steps

The one-peek read takes a short code out of the peeked word and skips it whole; the read of the
bit reader skips the zeros and the one bit and then gets the suffix.  After a peek of 32 bits the
cache holds every short code, so neither refills, and the two leave the very same reader.

Main results:

- `BitReader.get_skip`: two steps within the cache are one.
- `BitReader.one_peek_agrees`: the one-peek reads are the two-step ones.
-/

namespace Vaco
namespace Bitstream
namespace BitReader

open Library BitStream

theorem consume_consume (r : BitReader) (m n : Nat) :
    (r.consume m).consume n = r.consume (m + n) := by
  simp only [consume, BitVec.shiftLeft_add, Nat.sub_sub]

theorem skip_of_lt {r : BitReader} {n : Nat} (hn : n < r.cacheBits) : r.skip n = r.consume n := by
  by_cases hzero : n = 0
  · subst hzero
    simp [skip, consume]
  · rw [skip, if_neg hzero, if_pos hn]

theorem get_of_le {r : BitReader} {n : Nat} (hn : n ≤ 32) (hcache : n ≤ r.cacheBits) :
    r.get n = (r.consume n, r.top n) := by
  by_cases hzero : n = 0
  · subst hzero
    have htop : r.top 0 = 0 := by
      apply BitVec.eq_of_toNat_eq
      rw [top, BitVec.toNat_setWidth, BitVec.toNat_ushiftRight, Nat.shiftRight_eq_div_pow,
        Nat.div_eq_of_lt r.cache.isLt]
      rfl
    rw [htop]
    simp [get, consume]
  · rw [get]
    dsimp only
    rw [min_eq_left hn, if_neg hzero, ensure, if_neg (not_lt.mpr hcache)]

theorem toNat_top (r : BitReader) {n : Nat} (hn : n ≤ 32) :
    (r.top n).toNat = r.cache.toNat / 2 ^ (64 - n) := by
  have hlt : r.cache.toNat / 2 ^ (64 - n) < 2 ^ 32 := by
    have hpow : 2 ^ 64 ≤ 2 ^ 32 * 2 ^ (64 - n) := by
      rw [← Nat.pow_add]
      exact Nat.pow_le_pow_right (by decide) (by omega)
    exact Nat.div_lt_of_lt_mul (by rw [Nat.mul_comm]; exact r.cache.isLt.trans_le hpow)
  rw [top, BitVec.toNat_setWidth, BitVec.toNat_ushiftRight, Nat.shiftRight_eq_div_pow,
    Nat.mod_eq_of_lt hlt]

theorem toNat_top_consume (r : BitReader) {m n : Nat} (hn : n ≤ 32) (hsum : m + n ≤ 64) :
    ((r.consume m).top n).toNat = r.cache.toNat / 2 ^ (64 - (m + n)) % 2 ^ n := by
  rw [toNat_top _ hn, consume, BitVec.toNat_shiftLeft, Nat.shiftLeft_eq]
  have hword : 2 ^ 64 = 2 ^ (64 - m) * 2 ^ m := by
    rw [← Nat.pow_add]
    congr 1
    omega
  have hfield : 2 ^ (64 - n) = 2 ^ (64 - (m + n)) * 2 ^ m := by
    rw [← Nat.pow_add]
    congr 1
    omega
  have hrest : 2 ^ (64 - m) = 2 ^ (64 - (m + n)) * 2 ^ n := by
    rw [← Nat.pow_add]
    congr 1
    omega
  rw [hword, Nat.mul_mod_mul_right, hfield, Nat.mul_div_mul_right _ _ (by positivity), hrest,
    Nat.mod_mul_right_div_self]

/-- A skip and a read within the cache drop the bits of both. -/
theorem get_skip {r : BitReader} {m n : Nat} (hn : n ≤ 32) (hcache : m + n < r.cacheBits) :
    (r.skip m).get n = (r.skip (m + n), (r.consume m).top n) := by
  have hleft : n ≤ (r.consume m).cacheBits := by
    simp only [consume]
    omega
  rw [skip_of_lt (by omega), skip_of_lt hcache, get_of_le hn hleft, consume_consume]

/-- The top bits of a word with a number of zeros in front are the leading one and the suffix
behind it. -/
theorem top_short {r : BitReader} {lz : Nat} (hlz : lz ≤ 15)
    (hcount : leadingZeros (r.top 32) = lz) :
    (r.top 32) >>> (31 - 2 * lz) - 1#32 =
      (1#32 <<< lz) - 1#32 + (r.consume (lz + 1)).top lz := by
  have hword := toNat_top r (le_refl 32)
  have hsuffix := toNat_top_consume r (show lz ≤ 32 by omega) (show lz + 1 + lz ≤ 64 by omega)
  have hlow : ((1#32 <<< lz) - 1#32).toNat = 2 ^ lz - 1 := toNat_lowMask (by omega)
  have hsize : (r.top 32).toNat.size = 32 - lz := by
    have hle : (r.top 32).toNat.size ≤ 32 := Nat.size_le.mpr (r.top 32).isLt
    unfold leadingZeros at hcount
    omega
  have hge : 2 ^ (31 - lz) ≤ (r.top 32).toNat := Nat.lt_size.mp (by omega)
  have hlt : (r.top 32).toNat < 2 ^ (32 - lz) := hsize ▸ Nat.lt_size_self _
  -- The top bits of the word, as a number and as the top bits of the cache.
  have htop : ((r.top 32) >>> (31 - 2 * lz)).toNat = (r.top 32).toNat / 2 ^ (31 - 2 * lz) := by
    rw [BitVec.toNat_ushiftRight, Nat.shiftRight_eq_div_pow]
  have hcode : (r.top 32).toNat / 2 ^ (31 - 2 * lz) =
      r.cache.toNat / 2 ^ (64 - (lz + 1 + lz)) := by
    rw [hword, Nat.div_div_eq_div_mul, ← Nat.pow_add]
    congr 2
    omega
  have hlow_le : 2 ^ lz ≤ (r.top 32).toNat / 2 ^ (31 - 2 * lz) := by
    rw [Nat.le_div_iff_mul_le (by positivity), ← Nat.pow_add]
    exact (Nat.pow_le_pow_right (by decide) (by omega)).trans hge
  have hlt_high : (r.top 32).toNat / 2 ^ (31 - 2 * lz) < 2 * 2 ^ lz := by
    rw [Nat.div_lt_iff_lt_mul (by positivity), ← Nat.pow_succ', ← Nat.pow_add]
    exact hlt.trans_le (Nat.pow_le_pow_right (by decide) (by omega))
  rw [← hcode, Nat.mod_eq_sub_mod hlow_le, Nat.mod_eq_of_lt (by omega)] at hsuffix
  have hpow : 2 ^ lz ≤ 2 ^ 15 := Nat.pow_le_pow_right (by decide) hlz
  have hpos : 0 < 2 ^ lz := by positivity
  apply BitVec.eq_of_toNat_eq
  rw [BitVec.toNat_add, hlow, hsuffix, BitVec.toNat_sub_of_le, htop]
  · rw [Nat.mod_eq_of_lt (by omega)]
    show (r.top 32).toNat / 2 ^ (31 - 2 * lz) - 1 = _
    omega
  · rw [BitVec.le_def, htop]
    exact hpos.trans_le hlow_le

theorem ueV_eq_ue (r : BitReader) : r.ueV = r.ue := by
  have hpeek : r.peek 32 = (r.ensure 32, (r.ensure 32).top 32) := rfl
  have hcache := le_cacheBits_ensure r (show 32 ≤ 57 by decide)
  rw [ueV, ue, hpeek]
  dsimp only
  generalize hcount : leadingZeros ((r.ensure 32).top 32) = lz
  by_cases hshort : lz ≤ 15
  · have hlength : 2 * lz + 1 = lz + 1 + lz := by omega
    rw [if_pos hshort, if_neg (by omega), get_skip (by omega) (by omega), hlength,
      top_short hshort hcount]
  · rw [if_neg hshort]
    by_cases hlong : lz ≤ 31
    · rw [if_pos hlong, if_neg (by omega)]
    · rw [if_neg hlong, if_pos (by omega)]

theorem get_lt (r : BitReader) {n : Nat} (hn : n ≤ 32) : (r.get n).2.toNat < 2 ^ n := by
  by_cases hzero : n = 0
  · subst hzero
    exact Nat.one_pos
  · rw [get]
    dsimp only
    rw [min_eq_left hn, if_neg hzero]
    dsimp only
    rw [toNat_top _ hn]
    have hpow : 2 ^ n * 2 ^ (64 - n) = 2 ^ 64 := by
      rw [← Nat.pow_add]
      congr 1
      omega
    exact Nat.div_lt_of_lt_mul (by rw [Nat.mul_comm, hpow]; exact (r.ensure n).cache.isLt)

theorem ue_le (r : BitReader) : r.ue.2.toNat ≤ 4294967294 := by
  rw [ue]
  dsimp only
  generalize leadingZeros (r.peek 32).2 = lz
  split
  · exact Nat.zero_le _
  · have hlow : ((1#32 <<< lz) - 1#32).toNat = 2 ^ lz - 1 := toNat_lowMask (by omega)
    have hsuffix := get_lt ((r.peek 32).1.skip (lz + 1)) (show lz ≤ 32 by omega)
    have hpow : 2 ^ lz ≤ 2 ^ 31 := Nat.pow_le_pow_right (by decide) (by omega)
    dsimp only
    rw [BitVec.toNat_add, hlow, Nat.mod_eq_of_lt (by omega)]
    omega

/-- From every state of the reader, at any position, past the end or in error, the one-peek reads
return the same values and leave the same reader as the two-step ones. -/
theorem one_peek_agrees (r : BitReader) : r.ueV = r.ue ∧ r.seV = r.se := by
  have hue := ueV_eq_ue r
  refine ⟨hue, ?_⟩
  rw [seV, se, hue]
  dsimp only
  rw [Codec.seValue_eq (ue_le r)]

end BitReader
end Bitstream
end Vaco
