import Vaco.Bitstream.BitReader

/-!
# Exp-Golomb reads

An unsigned code is a run of zeros, a one bit, and as many bits again; a signed one
stands for an unsigned code number.  The reader peeks 32 bits, counts the zeros and
reads the rest at once; a run of more than 31 zeros marks it malformed.

Main results:

- `At.ue`: an unsigned read of a run of at most 31 zeros returns the number that the standard
  defines.
-/

namespace Vaco
namespace Bitstream

open Library BitStream

/-- The zero bits in front of a value. -/
def leadingZeros {w : Nat} (v : BitVec w) : Nat :=
  w - v.toNat.size

namespace BitReader

/-- Read an unsigned Exp-Golomb value. -/
def ue (r : BitReader) : BitReader × BitVec 32 :=
  let (r, window) := r.peek 32
  let lz := leadingZeros window
  if 31 < lz then
    (r.flagMalformed, 0)
  else
    let (r, suffix) := (r.skip (lz + 1)).get lz
    (r, (1#32 <<< lz) - 1#32 + suffix)

/-- The signed value that stands for a code number. -/
def seValue (k : BitVec 32) : BitVec 32 :=
  let half := k >>> 1
  if k &&& 1#32 = 1#32 then half + 1#32 else -half

/-- Read a signed Exp-Golomb value. -/
def se (r : BitReader) : BitReader × BitVec 32 :=
  let (r, k) := r.ue
  (r, seValue k)

theorem toNat_seValue (k : BitVec 32) :
    (seValue k).toNat =
      if k.toNat % 2 = 1 then k.toNat / 2 + 1 else (4294967296 - k.toNat / 2) % 4294967296 := by
  have hodd : k &&& 1#32 = 1#32 ↔ k.toNat % 2 = 1 := by
    rw [BitVec.toNat_eq, BitVec.toNat_and, BitVec.toNat_ofNat]
    simp [Nat.and_one_is_mod]
  have hhalf : (k >>> 1).toNat = k.toNat / 2 := by
    rw [BitVec.toNat_ushiftRight, Nat.shiftRight_eq_div_pow, Nat.pow_one]
  have hlt := k.isLt
  rw [seValue]
  simp only [hodd]
  split
  · rw [BitVec.toNat_add, hhalf, BitVec.toNat_ofNat]
    omega
  · rw [BitVec.toNat_neg, hhalf]

variable {r : BitReader} {p : Nat}

theorem At.leadingZeros_peek (h : r.At p) {lz : Nat} (hlz : lz ≤ 31)
    (hzeros : number (ofBytes r.data.bytes) p lz = 0)
    (hone : ofBytes r.data.bytes (p + lz) = true) : leadingZeros (r.peek 32).2 = lz := by
  rw [leadingZeros, (h.peek (le_refl 32)).2, size_number hzeros hone (by omega)]
  omega

theorem At.leadingZeros_peek_zeros (h : r.At p)
    (hzeros : number (ofBytes r.data.bytes) p 32 = 0) : leadingZeros (r.peek 32).2 = 32 := by
  rw [leadingZeros, (h.peek (le_refl 32)).2, hzeros, Nat.size_zero]

/-- A run of at most 31 zeros and a one bit announce as many bits; the value is theirs
above the codes of shorter runs. -/
theorem At.ue (h : r.At p) {lz : Nat} (hlz : lz ≤ 31)
    (hzeros : number (ofBytes r.data.bytes) p lz = 0)
    (hone : ofBytes r.data.bytes (p + lz) = true) :
    r.MovesTo r.ue.1 (p + (lz + 1) + lz) ∧
      r.ue.2.toNat = 2 ^ lz - 1 + number (ofBytes r.data.bytes) (p + (lz + 1)) lz := by
  have hpeek := (h.peek (le_refl 32)).1
  have hcount := h.leadingZeros_peek hlz hzeros hone
  have hskip := hpeek.trans (hpeek.at_pos.skip (lz + 1))
  rcases hskip.at_pos.get (show lz ≤ 32 by omega) with ⟨hget, hsuffix⟩
  rw [hskip.data] at hsuffix
  have hlow : ((1#32 <<< lz) - 1#32).toNat = 2 ^ lz - 1 := toNat_lowMask (by omega)
  have hlt := number_lt (ofBytes r.data.bytes) (p + (lz + 1)) lz
  have hpow : 2 ^ lz ≤ 2 ^ 31 := Nat.pow_le_pow_right (by decide) hlz
  rw [BitReader.ue]
  simp only [hcount, if_neg (not_lt.mpr hlz)]
  refine ⟨hskip.trans hget, ?_⟩
  rw [BitVec.toNat_add, hlow, hsuffix, Nat.mod_eq_of_lt (by omega)]

/-- A run of more than 31 zeros marks the reader malformed and consumes nothing. -/
theorem At.ue_malformed (h : r.At p) (hzeros : number (ofBytes r.data.bytes) p 32 = 0) :
    r.ue.1.At p ∧ r.ue.1.flagged = true ∧ r.ue.2 = 0 := by
  have hpeek := (h.peek (le_refl 32)).1
  rw [BitReader.ue]
  simp only [h.leadingZeros_peek_zeros hzeros, if_pos (show 31 < 32 by decide)]
  exact ⟨hpeek.at_pos, rfl, trivial⟩

/-- A code number of at most 32 bits behind one zero less than it has bits reads as one
less than the code number. -/
theorem At.ue_field (h : r.At p) {code : Nat} (hpos : 0 < code) (hsize : code.size ≤ 32)
    (hfield : number (ofBytes r.data.bytes) p (2 * code.size - 1) = code) :
    r.MovesTo r.ue.1 (p + (2 * code.size - 1)) ∧ r.ue.2.toNat = code - 1 := by
  have hsize' : 0 < code.size := Nat.size_pos.mpr hpos
  have hlt : code < 2 ^ (code.size - 1 + 1) := by
    rw [Nat.sub_add_cancel hsize']
    exact Nat.lt_size_self code
  have hge : 2 ^ (code.size - 1) ≤ code := Nat.lt_size.mp (by omega)
  have hlength : code.size - 1 + (code.size - 1 + 1) = 2 * code.size - 1 := by omega
  rcases leading_split hge hlt (hlength ▸ hfield) with ⟨hzeros, hone, hrest⟩
  rcases h.ue (show code.size - 1 ≤ 31 by omega) hzeros hone with ⟨hmove, hvalue⟩
  have hend : p + (code.size - 1 + 1) + (code.size - 1) = p + (2 * code.size - 1) := by omega
  refine ⟨hend ▸ hmove, ?_⟩
  have hpow : 0 < 2 ^ (code.size - 1) := by positivity
  omega

end BitReader

end Bitstream
end Vaco
