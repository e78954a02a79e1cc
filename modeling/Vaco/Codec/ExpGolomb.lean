import Vaco.Bitstream.BitProgram
import Vaco.Bitstream.FieldProgram

/-!
# The Exp-Golomb family

Seven kinds of codes share one shape: zeros, a one bit, and a suffix whose length the
zeros announce.  They differ in the mapping of values to code numbers, in the order that
lengthens the suffix, and in the way their reads take the bits from the reader.

Main results:

- `golomb_appends`: how many bits a write appends.
- `golomb_round_trips`: every program of encodable codes comes back.
-/

namespace Vaco
namespace Codec

open Library BitStream
open Vaco.Bitstream

/-! ## Mappings -/

/-- The signed mapping; the code number past the greatest saturates. -/
def seValue (codeNum : BitVec 32) : BitVec 32 :=
  let half := codeNum >>> 1
  if codeNum &&& 1#32 = 1#32 then BitVec.ofInt 32 (min (half.toInt + 1) 2147483647) else -half

/-- The code number of a signed value; the one of the least value saturates. -/
def seCodeNum (value : BitVec 32) : BitVec 32 :=
  if 0 < value.toInt then value * 2#32 - 1#32
  else BitVec.ofNat 32 (min (value.toInt.natAbs * 2) 4294967295)

/-- The position of the leading one of a word. -/
def ilog2 (x : BitVec 64) : Nat :=
  63 - leadingZeros x

/-- Length of the code of an unsigned value. -/
def ueBitLen (value : BitVec 32) : Nat :=
  127 - 2 * leadingZeros (value.setWidth 64 + 1#64)

/-- Length of the code of a signed value. -/
def seBitLen (value : BitVec 32) : Nat :=
  ueBitLen (seCodeNum value)

/-- Length of the code of an unsigned value at an order, or zero above order 31. -/
def ueKBitLen (value : BitVec 32) (k : Nat) : Nat :=
  if 31 < k then
    0
  else
    let t := value.setWidth 64 + (1#64 <<< k)
    let lz := ilog2 t - k
    2 * lz + k + 1

/-- Length of the code of a signed value at an order. -/
def seKBitLen (value : BitVec 32) (k : Nat) : Nat :=
  ueKBitLen (seCodeNum value) k

/-- Length of the code of a 64-bit value. -/
def ueV64BitLen (value : BitVec 64) : Nat :=
  if value = BitVec.allOnes 64 then 129 else 127 - 2 * leadingZeros (value + 1#64)

/-! ## Coded block patterns -/

/-- Which half of the table of coded block patterns applies. -/
inductive ChromaArrayType where
  | monochrome
  | withChroma
  | yuv444
deriving DecidableEq

/-- Whether the columns of 48 entries apply. -/
def ChromaArrayType.is48 : ChromaArrayType → Bool
  | .withChroma => true
  | _ => false

/-- Which column of the table of coded block patterns applies. -/
inductive MbPartPredMode where
  | intra
  | inter
deriving DecidableEq

/-- Coded block patterns with chroma, intra and inter, by code number. -/
def cbp48 : List (Nat × Nat) :=
  [(47, 0), (31, 16), (15, 1), (0, 2), (23, 4), (27, 8), (29, 32), (30, 3),
    (7, 5), (11, 10), (13, 12), (14, 15), (39, 47), (43, 7), (45, 11), (46, 13),
    (16, 14), (3, 6), (5, 9), (10, 31), (12, 35), (19, 37), (21, 42), (26, 44),
    (28, 33), (35, 34), (37, 36), (42, 40), (44, 39), (1, 43), (2, 45), (4, 46),
    (8, 17), (17, 18), (18, 20), (20, 24), (24, 19), (6, 21), (9, 26), (22, 28),
    (25, 23), (32, 27), (33, 29), (34, 30), (36, 22), (40, 25), (38, 38), (41, 41)]

/-- Coded block patterns without chroma, intra and inter, by code number. -/
def cbp16 : List (Nat × Nat) :=
  [(15, 0), (0, 1), (7, 2), (11, 4), (13, 8), (14, 3), (3, 5), (5, 10),
    (10, 12), (12, 15), (1, 7), (2, 11), (4, 13), (8, 14), (6, 6), (9, 9)]

/-- The column of the table that applies. -/
def cbpColumn (chroma : ChromaArrayType) (pred : MbPartPredMode) : List Nat :=
  let table := if chroma.is48 then cbp48 else cbp16
  match pred with
  | .intra => table.map Prod.fst
  | .inter => table.map Prod.snd

/-- The coded block pattern of a code number. -/
def cbpFromCodeNum (codeNum : BitVec 32) (chroma : ChromaArrayType) (pred : MbPartPredMode) :
    Option (BitVec 32) :=
  (cbpColumn chroma pred)[codeNum.toNat]?.map (BitVec.ofNat 32)

/-- The code number of a coded block pattern. -/
def codeNumFromCbp (cbp : BitVec 32) (chroma : ChromaArrayType) (pred : MbPartPredMode) :
    Option (BitVec 32) :=
  ((cbpColumn chroma pred).findIdx? (· == cbp.toNat)).map (BitVec.ofNat 32)

theorem cbpFromCodeNum_codeNumFromCbp {cbp codeNum : BitVec 32} {chroma : ChromaArrayType}
    {pred : MbPartPredMode} (h : codeNumFromCbp cbp chroma pred = some codeNum) :
    codeNum.toNat ≤ 4294967294 ∧ cbpFromCodeNum codeNum chroma pred = some cbp := by
  have hcolumn : (cbpColumn chroma pred).length ≤ 48 := by
    cases chroma <;> cases pred <;> decide
  rw [codeNumFromCbp, Option.map_eq_some_iff] at h
  rcases h with ⟨row, hfound, rfl⟩
  rw [List.findIdx?_eq_some_iff_getElem] at hfound
  rcases hfound with ⟨hrow, hcbp, -⟩
  rw [beq_iff_eq] at hcbp
  have hfit : (BitVec.ofNat 32 row).toNat = row := by
    rw [BitVec.toNat_ofNat, Nat.mod_eq_of_lt (by omega)]
  refine ⟨by omega, ?_⟩
  rw [cbpFromCodeNum, hfit, List.getElem?_eq_getElem hrow, hcbp, Option.map_some,
    BitVec.ofNat_toNat, BitVec.setWidth_eq]

end Codec

/-! ## Reads -/

namespace Bitstream.BitReader

open Library BitStream
open Codec

/-- Read an unsigned value: a code of at most 31 bits is taken from one peek. -/
def ueV (r : BitReader) : BitReader × BitVec 32 :=
  let (r, word) := r.peek 32
  let lz := leadingZeros word
  if lz ≤ 15 then
    (r.skip (2 * lz + 1), (word >>> (31 - 2 * lz)) - 1#32)
  else if lz ≤ 31 then
    let (r, suffix) := (r.skip (lz + 1)).get lz
    (r, (1#32 <<< lz) - 1#32 + suffix)
  else
    (r.flagMalformed, 0)

/-- Read a signed value. -/
def seV (r : BitReader) : BitReader × BitVec 32 :=
  let (r, codeNum) := r.ueV
  (r, Codec.seValue codeNum)

/-- Read a truncated value: up to a ceiling of one it is the inverse of one bit. -/
def teV (r : BitReader) (cMax : BitVec 32) : BitReader × BitVec 32 :=
  if 1 < cMax.toNat then
    r.ueV
  else
    let (r, bit) := r.getBit
    (r, 1#32 - bit)

/-- Read a mapped value. -/
def meV (r : BitReader) (chroma : ChromaArrayType) (pred : MbPartPredMode) :
    BitReader × BitVec 32 :=
  let (r, codeNum) := r.ueV
  match cbpFromCodeNum codeNum chroma pred with
  | some v => (r, v)
  | none => (r.flagMalformed, 0)

/-- Read an unsigned value of an order. -/
def ueK (r : BitReader) (k : Nat) : BitReader × BitVec 32 :=
  if k = 0 then
    r.ueV
  else
    let (r, word) := r.peek 32
    let lz := leadingZeros word
    if 31 < lz ∨ 32 < lz + k then
      (r.flagMalformed, 0)
    else
      let (r, suffix) := (r.skip (lz + 1)).get (lz + k)
      let value := ((1#64 <<< lz) - 1#64) <<< k + suffix.setWidth 64
      if value.toNat ≤ 4294967295 then (r, value.setWidth 32) else (r.flagMalformed, 0)

/-- Read a signed value of an order. -/
def seK (r : BitReader) (k : Nat) : BitReader × BitVec 32 :=
  let (r, codeNum) := r.ueK k
  (r, Codec.seValue codeNum)

/-- Read the zeros and the one of a 64-bit code, 32 bits at a time; at most 63 zeros are accepted.
-/
def prefix64 (r : BitReader) (lz : Nat) : BitReader × Option Nat :=
  let (r, word) := r.peek 32
  let z := leadingZeros word
  if z < 32 then
    if 63 < lz + z then (r.flagMalformed, none) else (r.skip (z + 1), some (lz + z))
  else if 63 < lz + 32 then
    (r.flagMalformed, none)
  else
    prefix64 (r.skip 32) (lz + 32)
termination_by 64 - lz

/-- Read an unsigned 64-bit value. -/
def ueV64 (r : BitReader) : BitReader × BitVec 64 :=
  match r.prefix64 0 with
  | (r, none) => (r, 0)
  | (r, some lz) =>
      let (r, suffix) := r.getLong lz
      (r, (1#64 <<< lz) - 1#64 + suffix)

end Bitstream.BitReader

/-! ## Writes -/

namespace Bitstream.BitWriter

open Library BitStream
open Codec

/-- Write an unsigned value. -/
def putUeV (w : BitWriter) (value : BitVec 32) : BitWriter :=
  w.ue value

/-- Write a signed value. -/
def putSeV (w : BitWriter) (value : BitVec 32) : BitWriter :=
  w.se value

/-- Write a truncated value: up to a ceiling of one it is the inverse of one bit. -/
def putTeV (w : BitWriter) (cMax value : BitVec 32) : BitWriter :=
  if 1 < cMax.toNat then w.ue (if value ≤ cMax then value else cMax)
  else w.put 1 (1#32 - if value ≤ 1#32 then value else 1#32)

/-- Write a coded block pattern, and answer whether it has a code number. -/
def putMeV (w : BitWriter) (chroma : ChromaArrayType) (pred : MbPartPredMode) (cbp : BitVec 32) :
    BitWriter × Bool :=
  match codeNumFromCbp cbp chroma pred with
  | some codeNum => (w.ue codeNum, true)
  | none => (w, false)

/-- Write an unsigned value of an order; a value that is not decodable is not written. -/
def putUeK (w : BitWriter) (k : Nat) (value : BitVec 32) : BitWriter :=
  if k = 0 then
    w.ue value
  else if 31 < k then
    w
  else
    let shifted := value.setWidth 64 + (1#64 <<< k)
    let lz := ilog2 shifted - k
    if 31 < lz ∨ 32 < lz + k then w else (w.putZeros lz).putLong (lz + k + 1) shifted

/-- Write a signed value of an order. -/
def putSeK (w : BitWriter) (k : Nat) (value : BitVec 32) : BitWriter :=
  w.putUeK k (seCodeNum value)

/-- Write an unsigned 64-bit value, which saturates below the greatest. -/
def putUeV64 (w : BitWriter) (value : BitVec 64) : BitWriter :=
  let code := BitVec.ofNat 64 (min value.toNat 18446744073709551614) + 1#64
  let bits := 64 - leadingZeros code
  (w.putZeros (bits - 1)).putLong bits code

end Bitstream.BitWriter

/-! ## Reading fields back -/

namespace Bitstream.BitReader

open Library BitStream
open Codec

variable {r : BitReader} {p : Nat}

/-- The one-peek read of a code number behind one zero less than it has bits returns one
less than the code number. -/
theorem At.ueV (h : r.At p) {n code : Nat} (hn : n ≤ 31) (hge : 2 ^ n ≤ code)
    (hlt : code < 2 ^ (n + 1))
    (hfield : number (ofBytes r.data.bytes) p (n + (n + 1)) = code) :
    r.MovesTo r.ueV.1 (p + (n + (n + 1))) ∧ r.ueV.2.toNat = code - 1 := by
  rcases leading_split hge hlt hfield with ⟨hzeros, hone, hrest⟩
  have hcount := h.leadingZeros_peek hn hzeros hone
  rcases h.peek (le_refl 32) with ⟨hpeek, hword⟩
  have hpow : 0 < 2 ^ n := by positivity
  rw [BitReader.ueV]
  simp only [hcount]
  by_cases hshort : n ≤ 15
  · -- The whole code is inside the peeked word.
    have hlength : 2 * n + 1 = n + (n + 1) := by omega
    have hsplit := number_add (ofBytes r.data.bytes) p (n + (n + 1)) (31 - 2 * n)
    have hrest := number_lt (ofBytes r.data.bytes) (p + (n + (n + 1))) (31 - 2 * n)
    rw [show n + (n + 1) + (31 - 2 * n) = 32 by omega, hfield] at hsplit
    have hcode : ((r.peek 32).2 >>> (31 - 2 * n)).toNat = code := by
      rw [BitVec.toNat_ushiftRight, Nat.shiftRight_eq_div_pow, hword, hsplit, Nat.mul_comm,
        Nat.mul_add_div (by positivity), Nat.div_eq_of_lt hrest, Nat.add_zero]
    rw [if_pos hshort, hlength]
    refine ⟨hpeek.trans (hpeek.at_pos.skip (n + (n + 1))), ?_⟩
    rw [BitVec.toNat_sub_of_le, hcode]
    · rfl
    · rw [BitVec.le_def, hcode]
      exact le_trans hpow hge
  · have hskip := hpeek.trans (hpeek.at_pos.skip (n + 1))
    rcases hskip.at_pos.get (show n ≤ 32 by omega) with ⟨hget, hsuffix⟩
    have hlow : ((1#32 <<< n) - 1#32).toNat = 2 ^ n - 1 := toNat_lowMask (by omega)
    have hcard : 2 ^ (n + 1) ≤ 2 ^ 32 := Nat.pow_le_pow_right (by decide) (by omega)
    rw [hskip.data, hrest] at hsuffix
    rw [if_neg hshort, if_pos hn]
    refine ⟨?_, ?_⟩
    · rw [show p + (n + (n + 1)) = p + (n + 1) + n by omega]
      exact hskip.trans hget
    · rw [BitVec.toNat_add, hlow, hsuffix, Nat.mod_eq_of_lt (by omega)]
      omega

/-- The read of an order returns the number behind the zeros, less the power of the
order. -/
theorem At.ueK (h : r.At p) {k lz t : Nat} (hk : 1 ≤ k) (hlz : lz + k ≤ 32)
    (hge : 2 ^ (lz + k) ≤ t) (hlt : t < 2 ^ (lz + k + 1)) (hfit : t < 4294967296 + 2 ^ k)
    (hfield : number (ofBytes r.data.bytes) p (lz + (lz + k + 1)) = t) :
    r.MovesTo (r.ueK k).1 (p + (lz + (lz + k + 1))) ∧ (r.ueK k).2.toNat = t - 2 ^ k := by
  rcases leading_split hge hlt hfield with ⟨hzeros, hone, hrest⟩
  have hcount := h.leadingZeros_peek (by omega) hzeros hone
  have hpeek := (h.peek (le_refl 32)).1
  have hskip := hpeek.trans (hpeek.at_pos.skip (lz + 1))
  rcases hskip.at_pos.get hlz with ⟨hget, hsuffix⟩
  rw [hskip.data, hrest] at hsuffix
  have hend : p + (lz + (lz + k + 1)) = p + (lz + 1) + (lz + k) := by omega
  have hlow : ((1#64 <<< lz) - 1#64).toNat = 2 ^ lz - 1 := toNat_lowMask (by omega)
  have hpow : 2 ^ (lz + k) = 2 ^ lz * 2 ^ k := Nat.pow_add 2 lz k
  have hcard : 2 ^ (lz + k) ≤ 2 ^ 32 := Nat.pow_le_pow_right (by decide) hlz
  have hone_le : 1 ≤ 2 ^ lz := Nat.one_le_two_pow
  have hrunsum : (2 ^ lz - 1) * 2 ^ k + 2 ^ k = 2 ^ (lz + k) := by
    rw [hpow, Nat.sub_mul, Nat.one_mul, Nat.sub_add_cancel (Nat.le_mul_of_pos_left _ hone_le)]
  have hvalue : (((1#64 <<< lz) - 1#64) <<< k +
      (((((r.peek 32).1.skip (lz + 1)).get (lz + k)).2).setWidth 64)).toNat = t - 2 ^ k := by
    rw [BitVec.toNat_add, BitVec.toNat_shiftLeft, BitVec.toNat_setWidth, Nat.shiftLeft_eq, hlow,
      hsuffix, Nat.mod_eq_of_lt (by omega : (2 ^ lz - 1) * 2 ^ k < 2 ^ 64),
      Nat.mod_eq_of_lt (by omega : t - 2 ^ (lz + k) < 2 ^ 64), Nat.mod_eq_of_lt (by omega)]
    omega
  rw [BitReader.ueK, if_neg (by omega)]
  simp only [hcount, hvalue]
  rw [if_neg (by omega), if_pos (by omega), hend]
  refine ⟨hskip.trans hget, ?_⟩
  rw [BitVec.toNat_setWidth, hvalue, Nat.mod_eq_of_lt (by omega)]

/-- The zeros in front of a one bit are counted over both peeks. -/
theorem At.prefix64 (h : r.At p) {lz : Nat} (hlz : lz ≤ 63)
    (hzeros : number (ofBytes r.data.bytes) p lz = 0)
    (hone : ofBytes r.data.bytes (p + lz) = true) :
    r.MovesTo (r.prefix64 0).1 (p + (lz + 1)) ∧ (r.prefix64 0).2 = some lz := by
  have hpeek := (h.peek (le_refl 32)).1
  rw [BitReader.prefix64]
  by_cases hshort : lz ≤ 31
  · simp only [h.leadingZeros_peek hshort hzeros hone]
    rw [if_pos (by omega), if_neg (by omega), Nat.zero_add]
    exact ⟨hpeek.trans (hpeek.at_pos.skip (lz + 1)), rfl⟩
  · have hsplit := number_add (ofBytes r.data.bytes) p 32 (lz - 32)
    rw [Nat.add_sub_cancel' (by omega), hzeros, eq_comm, Nat.add_eq_zero_iff,
      Nat.mul_eq_zero] at hsplit
    have hfirst := hsplit.1.resolve_right (by positivity)
    have hskip := hpeek.trans (hpeek.at_pos.skip 32)
    have hlast := hskip.trans (hskip.at_pos.peek (le_refl 32)).1
    have hplace : p + 32 + (lz - 32) = p + lz := by omega
    have hcount := hskip.at_pos.leadingZeros_peek (show lz - 32 ≤ 31 by omega)
      (by rw [hskip.data]; exact hsplit.2) (by rw [hskip.data, hplace]; exact hone)
    simp only [h.leadingZeros_peek_zeros hfirst]
    rw [if_neg (by decide), if_neg (by decide), BitReader.prefix64]
    simp only [hcount]
    rw [if_pos (by omega), if_neg (by omega), show p + (lz + 1) = p + 32 + (lz - 32 + 1) by omega,
      show 0 + 32 + (lz - 32) = lz by omega]
    exact ⟨hlast.trans (hlast.at_pos.skip (lz - 32 + 1)), rfl⟩

/-- The 64-bit read returns one less than the code number behind the zeros. -/
theorem At.ueV64 (h : r.At p) {n code : Nat} (hn : n ≤ 63) (hge : 2 ^ n ≤ code)
    (hlt : code < 2 ^ (n + 1))
    (hfield : number (ofBytes r.data.bytes) p (n + (n + 1)) = code) :
    r.MovesTo r.ueV64.1 (p + (n + (n + 1))) ∧ r.ueV64.2.toNat = code - 1 := by
  rcases leading_split hge hlt hfield with ⟨hzeros, hone, hrest⟩
  rcases h.prefix64 hn hzeros hone with ⟨hzero, hcount⟩
  rcases hzero.at_pos.getLong (show n ≤ 64 by omega) with ⟨hget, hsuffix⟩
  have hlow : ((1#64 <<< n) - 1#64).toNat = 2 ^ n - 1 := toNat_lowMask (by omega)
  have hcard : 2 ^ (n + 1) ≤ 2 ^ 64 := Nat.pow_le_pow_right (by decide) (by omega)
  have hpow : 0 < 2 ^ n := by positivity
  have hread : r.ueV64 = (((r.prefix64 0).1.getLong n).1,
      (1#64 <<< n) - 1#64 + ((r.prefix64 0).1.getLong n).2) := by
    rw [BitReader.ueV64, ← Prod.eta (r.prefix64 0), hcount]
  rw [hzero.data, hrest] at hsuffix
  rw [hread, show p + (n + (n + 1)) = p + (n + 1) + n by omega]
  refine ⟨hzero.trans hget, ?_⟩
  rw [BitVec.toNat_add, hlow, hsuffix, Nat.mod_eq_of_lt (by omega)]
  omega

end Bitstream.BitReader

/-! ## Lengths and written fields -/

namespace Codec

open Library BitStream
open Vaco.Bitstream

theorem leadingZeros_eq {x : BitVec 64} {n : Nat} (hn : n ≤ 63) (hge : 2 ^ n ≤ x.toNat)
    (hlt : x.toNat < 2 ^ (n + 1)) : leadingZeros x = 63 - n := by
  have hsize : x.toNat.size = n + 1 := by
    apply le_antisymm
    · exact Nat.size_le.mpr hlt
    · exact Nat.lt_size.mpr hge
  rw [leadingZeros, hsize]
  omega

theorem exists_leading (x : Nat) (hx : 0 < x) : ∃ n, 2 ^ n ≤ x ∧ x < 2 ^ (n + 1) := by
  refine ⟨x.size - 1, ?_, ?_⟩
  · exact Nat.lt_size.mp (Nat.sub_lt (Nat.size_pos.mpr hx) Nat.one_pos)
  · rw [Nat.sub_add_cancel (Nat.size_pos.mpr hx)]
    exact Nat.lt_size_self x

theorem leading_lt {x n m : Nat} (hge : 2 ^ n ≤ x) (hx : x < 2 ^ m) : n < m :=
  (Nat.pow_lt_pow_iff_right (by decide)).mp (hge.trans_lt hx)

theorem ueBitLen_eq {value : BitVec 32} {n : Nat} (hge : 2 ^ n ≤ value.toNat + 1)
    (hlt : value.toNat + 1 < 2 ^ (n + 1)) : ueBitLen value = n + (n + 1) := by
  have hvalue := value.isLt
  have hn := leading_lt hge (m := 33) (by omega)
  have hcode : (value.setWidth 64 + 1#64).toNat = value.toNat + 1 := by
    rw [BitVec.toNat_add, BitVec.toNat_setWidth, BitVec.toNat_ofNat]
    omega
  rw [ueBitLen, leadingZeros_eq (n := n) (by omega) (hcode ▸ hge) (hcode ▸ hlt)]
  omega

/-- The leading one of a value above the power of an order, and the length of its code. -/
theorem ueKBitLen_eq (value : BitVec 32) {k : Nat} (hk : 1 ≤ k) (hk' : k ≤ 31) :
    ∃ lz, lz + k ≤ 32 ∧ 2 ^ (lz + k) ≤ value.toNat + 2 ^ k ∧
      value.toNat + 2 ^ k < 2 ^ (lz + k + 1) ∧
      (value.setWidth 64 + (1#64 <<< k)).toNat = value.toNat + 2 ^ k ∧
      ilog2 (value.setWidth 64 + (1#64 <<< k)) - k = lz ∧
      ueKBitLen value k = lz + (lz + k + 1) := by
  have hvalue := value.isLt
  have hpow : 2 ^ k ≤ 2 ^ 31 := Nat.pow_le_pow_right (by decide) hk'
  have hpos : 0 < 2 ^ k := by positivity
  have hshifted : (value.setWidth 64 + (1#64 <<< k)).toNat = value.toNat + 2 ^ k := by
    rw [BitVec.toNat_add, BitVec.toNat_setWidth, BitVec.toNat_shiftLeft, BitVec.toNat_ofNat,
      Nat.shiftLeft_eq, Nat.mod_eq_of_lt (by omega : 1 < 2 ^ 64), Nat.one_mul,
      Nat.mod_eq_of_lt (by omega : 2 ^ k < 2 ^ 64)]
    omega
  rcases exists_leading (value.toNat + 2 ^ k) (by omega) with ⟨n, hge, hlt⟩
  have hn := leading_lt hge (m := 33) (by omega)
  have hkn : k ≤ n := by
    by_contra hless
    have : 2 ^ (n + 1) ≤ 2 ^ k := Nat.pow_le_pow_right (by decide) (by omega)
    omega
  have hlog : ilog2 (value.setWidth 64 + (1#64 <<< k)) = n := by
    rw [ilog2, leadingZeros_eq (n := n) (by omega) (hshifted ▸ hge) (hshifted ▸ hlt)]
    omega
  refine ⟨n - k, by omega, by rwa [Nat.sub_add_cancel hkn], by rwa [Nat.sub_add_cancel hkn],
    hshifted, by rw [hlog], ?_⟩
  rw [ueKBitLen, if_neg (by omega)]
  simp only [hlog]
  omega

theorem ueV64BitLen_eq {value : BitVec 64} (hvalue : value.toNat ≤ 18446744073709551614) {n : Nat}
    (hge : 2 ^ n ≤ value.toNat + 1) (hlt : value.toNat + 1 < 2 ^ (n + 1)) :
    ueV64BitLen value = n + (n + 1) := by
  have hn := leading_lt hge (m := 64) (by omega)
  have hcode : (value + 1#64).toNat = value.toNat + 1 := by
    rw [BitVec.toNat_add, BitVec.toNat_ofNat]
    omega
  have hnot : value ≠ BitVec.allOnes 64 := by
    rintro rfl
    simp at hvalue
  rw [ueV64BitLen, if_neg hnot, leadingZeros_eq (n := n) (by omega) (hcode ▸ hge) (hcode ▸ hlt)]
  omega

theorem seValue_eq {codeNum : BitVec 32} (h : codeNum.toNat ≤ 4294967294) :
    seValue codeNum = BitReader.seValue codeNum := by
  have hhalf : (codeNum >>> 1).toNat = codeNum.toNat / 2 := by
    rw [BitVec.toNat_ushiftRight, Nat.shiftRight_eq_div_pow, Nat.pow_one]
  have hint : (codeNum >>> 1).toInt = codeNum.toNat / 2 := by
    rw [BitVec.toInt_eq_toNat_of_lt (by omega), hhalf]
    rfl
  rw [seValue, BitReader.seValue]
  simp only [hint]
  split
  · rename_i hodd
    have hparity : codeNum.toNat % 2 = 1 := by
      rw [BitVec.toNat_eq, BitVec.toNat_and, BitVec.toNat_ofNat] at hodd
      simpa [Nat.and_one_is_mod] using hodd
    apply BitVec.eq_of_toNat_eq
    rw [min_eq_left (by omega), BitVec.toNat_add, hhalf, BitVec.toNat_ofInt, BitVec.toNat_ofNat]
    omega
  · rfl

theorem seCodeNum_eq {value : BitVec 32} (h : -2147483648 < value.toInt) :
    seCodeNum value = BitWriter.seCode value := by
  have hlt := value.isLt
  have hint := value.toInt_eq_toNat_cond
  rw [seCodeNum, BitWriter.seCode]
  simp only [max_eq_left (show -2147483647 ≤ value.toInt by omega)]
  split
  · apply BitVec.eq_of_toNat_eq
    rw [BitVec.toNat_sub, BitVec.toNat_mul, BitVec.toNat_ofNat, BitVec.toNat_ofNat,
      BitVec.toNat_ofNat]
    split at hint <;> omega
  · rw [min_eq_left (by split at hint <;> omega)]

theorem seValue_seCodeNum {value : BitVec 32} (h : -2147483648 < value.toInt) :
    (seCodeNum value).toNat ≤ 4294967294 ∧ seValue (seCodeNum value) = value := by
  rcases seValue_seCode h with ⟨hcode, hvalue⟩
  rw [← seCodeNum_eq h] at hcode hvalue
  exact ⟨hcode, (seValue_eq hcode).trans hvalue⟩

theorem toNat_one_sub {v : BitVec 32} (h : v.toNat ≤ 1) : (1#32 - v).toNat = 1 - v.toNat := by
  rw [BitVec.toNat_sub_of_le]
  · rfl
  · exact h

/-! ## Programs of codes -/

/-- One code of the family, with the value to write. -/
inductive GolombOp where
  | ueV (v : BitVec 32)
  | seV (v : BitVec 32)
  | teV (cMax v : BitVec 32)
  | meV (chroma : ChromaArrayType) (pred : MbPartPredMode) (cbp : BitVec 32)
  | ueK (k : Nat) (v : BitVec 32)
  | seK (k : Nat) (v : BitVec 32)
  | ueV64 (v : BitVec 64)
deriving DecidableEq

/-- Write one code. -/
def writeGolomb (w : BitWriter) : GolombOp → BitWriter
  | .ueV v => w.putUeV v
  | .seV v => w.putSeV v
  | .teV cMax v => w.putTeV cMax v
  | .meV chroma pred cbp => (w.putMeV chroma pred cbp).1
  | .ueK k v => w.putUeK k v
  | .seK k v => w.putSeK k v
  | .ueV64 v => w.putUeV64 v

/-- The mirrored read of a code. -/
def readGolomb (r : BitReader) : GolombOp → BitReader × ReadResult
  | .ueV _ => (r.ueV.1, .unsigned r.ueV.2.toNat)
  | .seV _ => (r.seV.1, .signed r.seV.2.toInt)
  | .teV cMax _ => ((r.teV cMax).1, .unsigned (r.teV cMax).2.toNat)
  | .meV chroma pred _ => ((r.meV chroma pred).1, .unsigned (r.meV chroma pred).2.toNat)
  | .ueK k _ => ((r.ueK k).1, .unsigned (r.ueK k).2.toNat)
  | .seK k _ => ((r.seK k).1, .signed (r.seK k).2.toInt)
  | .ueV64 _ => (r.ueV64.1, .unsigned r.ueV64.2.toNat)

namespace GolombOp

/-- The value of a code. -/
def value : GolombOp → ReadResult
  | .ueV v => .unsigned v.toNat
  | .seV v => .signed v.toInt
  | .teV _ v => .unsigned v.toNat
  | .meV _ _ cbp => .unsigned cbp.toNat
  | .ueK _ v => .unsigned v.toNat
  | .seK _ v => .signed v.toInt
  | .ueV64 v => .unsigned v.toNat

/-- The length of a code by the length function of its kind. -/
def bitLen : GolombOp → Nat
  | .ueV v => ueBitLen v
  | .seV v => seBitLen v
  | .teV cMax v => if 1 < cMax.toNat then ueBitLen v else 1
  | .meV chroma pred cbp => ueBitLen ((codeNumFromCbp cbp chroma pred).getD 0)
  | .ueK k v => ueKBitLen v k
  | .seK k v => seKBitLen v k
  | .ueV64 v => ueV64BitLen v

/-- The number in the field of a code. -/
def field : GolombOp → Nat
  | .ueV v => v.toNat + 1
  | .seV v => (seCodeNum v).toNat + 1
  | .teV cMax v => if 1 < cMax.toNat then v.toNat + 1 else 1 - v.toNat
  | .meV chroma pred cbp => ((codeNumFromCbp cbp chroma pred).getD 0).toNat + 1
  | .ueK k v => v.toNat + 2 ^ k
  | .seK k v => (seCodeNum v).toNat + 2 ^ k
  | .ueV64 v => v.toNat + 1

/-- A value within the stated range of its kind: a truncated value is at most its ceiling. -/
def InRange : GolombOp → Prop
  | .ueV v => v.toNat ≤ 4294967294
  | .seV v => -2147483648 < v.toInt
  | .teV cMax v => v.toNat ≤ cMax.toNat
  | .meV chroma pred cbp => (codeNumFromCbp cbp chroma pred).isSome = true
  | .ueK k _ => 1 ≤ k ∧ k ≤ 31
  | .seK k v => (1 ≤ k ∧ k ≤ 31) ∧ -2147483648 < v.toInt
  | .ueV64 v => v.toNat ≤ 18446744073709551614

instance : DecidablePred InRange
  | .ueV v => inferInstanceAs (Decidable (v.toNat ≤ 4294967294))
  | .seV v => inferInstanceAs (Decidable (-2147483648 < v.toInt))
  | .teV cMax v => inferInstanceAs (Decidable (v.toNat ≤ cMax.toNat))
  | .meV chroma pred cbp =>
      inferInstanceAs (Decidable ((codeNumFromCbp cbp chroma pred).isSome = true))
  | .ueK k _ => inferInstanceAs (Decidable (1 ≤ k ∧ k ≤ 31))
  | .seK k v => inferInstanceAs (Decidable ((1 ≤ k ∧ k ≤ 31) ∧ -2147483648 < v.toInt))
  | .ueV64 v => inferInstanceAs (Decidable (v.toNat ≤ 18446744073709551614))

/-- A value that its kind encodes: within range, and truncated values below the greatest
32-bit value. -/
def Encodable (op : GolombOp) : Prop :=
  op.InRange ∧ ∀ cMax v, op = .teV cMax v → v.toNat ≤ 4294967294

end GolombOp

theorem appends_ue {w : BitWriter} (h : w.Wf) {v : BitVec 32} (hv : v.toNat ≤ 4294967294) :
    w.Appends (w.ue v) (ueBitLen v) (v.toNat + 1) := by
  rcases exists_leading (v.toNat + 1) (Nat.succ_pos _) with ⟨n, hge, hlt⟩
  have hcode := ueCode_eq hv
  have hsize : (BitWriter.ueCode v).size = n + 1 := by
    rw [hcode]
    exact le_antisymm (Nat.size_le.mpr hlt) (Nat.lt_size.mpr hge)
  have hue := h.ue v
  rw [hsize, hcode, show 2 * (n + 1) - 1 = n + (n + 1) by omega] at hue
  rwa [ueBitLen_eq hge hlt]

theorem reads_ueV {r : BitReader} {p : Nat} (h : r.At p) {v : BitVec 32}
    (hv : v.toNat ≤ 4294967294)
    (hfield : number (ofBytes r.data.bytes) p (ueBitLen v) = v.toNat + 1) :
    r.MovesTo r.ueV.1 (p + ueBitLen v) ∧ r.ueV.2 = v := by
  rcases exists_leading (v.toNat + 1) (Nat.succ_pos _) with ⟨n, hge, hlt⟩
  have hn := leading_lt hge (m := 32) (by omega)
  rw [ueBitLen_eq hge hlt] at hfield ⊢
  rcases h.ueV (by omega) hge hlt hfield with ⟨hmove, hvalue⟩
  exact ⟨hmove, BitVec.eq_of_toNat_eq hvalue⟩

theorem appends_ueK {w : BitWriter} (h : w.Wf) {k : Nat} (hk : 1 ≤ k ∧ k ≤ 31) (v : BitVec 32) :
    w.Appends (w.putUeK k v) (ueKBitLen v k) (v.toNat + 2 ^ k) := by
  rcases ueKBitLen_eq v hk.1 hk.2 with ⟨lz, hlz, -, hlt, hshifted, hlog, hlength⟩
  have hzeros := h.putZeros lz
  have hboth := hzeros.trans (hzeros.wf.putLong (show lz + k + 1 ≤ 64 by omega)
    (v.setWidth 64 + (1#64 <<< k)))
  rw [hshifted, Nat.mod_eq_of_lt hlt, Nat.zero_mul, Nat.zero_add] at hboth
  rw [BitWriter.putUeK, if_neg (by omega), if_neg (by omega), hlength]
  simp only [hlog]
  rwa [if_neg (by omega)]

theorem reads_ueK {r : BitReader} {p : Nat} (h : r.At p) {k : Nat} (hk : 1 ≤ k ∧ k ≤ 31)
    {v : BitVec 32}
    (hfield : number (ofBytes r.data.bytes) p (ueKBitLen v k) = v.toNat + 2 ^ k) :
    r.MovesTo (r.ueK k).1 (p + ueKBitLen v k) ∧ (r.ueK k).2 = v := by
  have hv := v.isLt
  rcases ueKBitLen_eq v hk.1 hk.2 with ⟨lz, hlz, hge, hlt, -, -, hlength⟩
  rw [hlength] at hfield ⊢
  rcases h.ueK hk.1 hlz hge hlt (by omega) hfield with ⟨hmove, hvalue⟩
  refine ⟨hmove, BitVec.eq_of_toNat_eq ?_⟩
  rw [hvalue, Nat.add_sub_cancel]

theorem appends_ueV64 {w : BitWriter} (h : w.Wf) {v : BitVec 64}
    (hv : v.toNat ≤ 18446744073709551614) :
    w.Appends (w.putUeV64 v) (ueV64BitLen v) (v.toNat + 1) := by
  rcases exists_leading (v.toNat + 1) (Nat.succ_pos _) with ⟨n, hge, hlt⟩
  have hn := leading_lt hge (m := 64) (by omega)
  have hcode : (BitVec.ofNat 64 (min v.toNat 18446744073709551614) + 1#64).toNat = v.toNat + 1 := by
    rw [min_eq_left hv, BitVec.toNat_add, BitVec.toNat_ofNat, BitVec.toNat_ofNat]
    omega
  have hzeros := h.putZeros n
  have hboth := hzeros.trans (hzeros.wf.putLong (show n + 1 ≤ 64 by omega)
    (BitVec.ofNat 64 (min v.toNat 18446744073709551614) + 1#64))
  rw [hcode, Nat.mod_eq_of_lt hlt, Nat.zero_mul, Nat.zero_add] at hboth
  rw [BitWriter.putUeV64, ueV64BitLen_eq hv hge hlt]
  simp only [leadingZeros_eq (show n ≤ 63 by omega) (hcode ▸ hge) (hcode ▸ hlt),
    show 64 - (63 - n) = n + 1 by omega, Nat.add_sub_cancel]
  exact hboth

theorem reads_ueV64 {r : BitReader} {p : Nat} (h : r.At p) {v : BitVec 64}
    (hv : v.toNat ≤ 18446744073709551614)
    (hfield : number (ofBytes r.data.bytes) p (ueV64BitLen v) = v.toNat + 1) :
    r.MovesTo r.ueV64.1 (p + ueV64BitLen v) ∧ r.ueV64.2 = v := by
  rcases exists_leading (v.toNat + 1) (Nat.succ_pos _) with ⟨n, hge, hlt⟩
  have hn := leading_lt hge (m := 64) (by omega)
  rw [ueV64BitLen_eq hv hge hlt] at hfield ⊢
  rcases h.ueV64 (by omega) hge hlt hfield with ⟨hmove, hvalue⟩
  exact ⟨hmove, BitVec.eq_of_toNat_eq hvalue⟩

/-- The write of an encodable code appends as many bits as the length function of its kind
gives. -/
theorem golomb_appends {w : BitWriter} {op : GolombOp} (h : w.Wf) (hop : op.Encodable) :
    w.Appends (writeGolomb w op) op.bitLen op.field := by
  cases op with
  | ueV v => exact appends_ue h hop.1
  | seV v =>
      have hcode := (seValue_seCodeNum hop.1).1
      have hse := appends_ue h hcode
      rw [seCodeNum_eq hop.1] at hse
      rw [GolombOp.bitLen, GolombOp.field, seBitLen, seCodeNum_eq hop.1]
      exact hse
  | teV cMax v =>
      rw [writeGolomb, BitWriter.putTeV, GolombOp.bitLen, GolombOp.field,
        if_pos (show v ≤ cMax from hop.1)]
      by_cases hceiling : 1 < cMax.toNat
      · rw [if_pos hceiling, if_pos hceiling, if_pos hceiling]
        exact appends_ue h (hop.2 cMax v rfl)
      · have hbit : v.toNat ≤ 1 := le_trans hop.1 (not_lt.mp hceiling)
        have hput := h.put (show 1 ≤ 32 by decide) (1#32 - v)
        rw [toNat_one_sub hbit, Nat.mod_eq_of_lt (by omega)] at hput
        rw [if_neg hceiling, if_neg hceiling, if_neg hceiling,
          if_pos (show v ≤ 1#32 from hbit)]
        exact hput
  | meV chroma pred cbp =>
      rcases Option.isSome_iff_exists.mp hop.1 with ⟨codeNum, hcode⟩
      rw [writeGolomb, BitWriter.putMeV, GolombOp.bitLen, GolombOp.field, hcode]
      exact appends_ue h (cbpFromCodeNum_codeNumFromCbp hcode).1
  | ueK k v => exact appends_ueK h hop.1 v
  | seK k v => exact appends_ueK h hop.1.1 (seCodeNum v)
  | ueV64 v => exact appends_ueV64 h hop.1

/-- The mirrored read of the field of an encodable code returns its value and stops behind
the field. -/
theorem golomb_reads {r : BitReader} {p : Nat} {op : GolombOp} (h : r.At p) (hop : op.Encodable)
    (hfield : number (ofBytes r.data.bytes) p op.bitLen = op.field) :
    r.MovesTo (readGolomb r op).1 (p + op.bitLen) ∧ (readGolomb r op).2 = op.value := by
  cases op with
  | ueV v =>
      rcases reads_ueV h hop.1 hfield with ⟨hmove, hvalue⟩
      exact ⟨hmove, congrArg (fun x : BitVec 32 => ReadResult.unsigned x.toNat) hvalue⟩
  | seV v =>
      rcases seValue_seCodeNum hop.1 with ⟨hcode, hstands⟩
      rcases reads_ueV h hcode hfield with ⟨hmove, hvalue⟩
      refine ⟨hmove, ?_⟩
      have hread : r.seV.2 = v := (congrArg seValue hvalue).trans hstands
      exact congrArg (fun x : BitVec 32 => ReadResult.signed x.toInt) hread
  | teV cMax v =>
      rw [GolombOp.bitLen, GolombOp.field] at hfield
      rw [readGolomb, BitReader.teV, GolombOp.bitLen, GolombOp.value]
      by_cases hceiling : 1 < cMax.toNat
      · rw [if_pos hceiling, if_pos hceiling] at hfield
        rcases reads_ueV h (hop.2 cMax v rfl) hfield with ⟨hmove, hvalue⟩
        rw [if_pos hceiling, if_pos hceiling, hvalue]
        exact ⟨hmove, rfl⟩
      · rw [if_neg hceiling, if_neg hceiling] at hfield
        have hbit : v.toNat ≤ 1 := le_trans hop.1 (not_lt.mp hceiling)
        rcases h.get (show 1 ≤ 32 by decide) with ⟨hmove, hread⟩
        rw [if_neg hceiling, if_neg hceiling]
        refine ⟨hmove, ?_⟩
        have hinverse := toNat_one_sub (v := r.getBit.2)
          (by rw [BitReader.getBit, hread, hfield]; omega)
        rw [hinverse, BitReader.getBit, hread, hfield, Nat.sub_sub_self hbit]
  | meV chroma pred cbp =>
      rcases Option.isSome_iff_exists.mp hop.1 with ⟨codeNum, hcode⟩
      rcases cbpFromCodeNum_codeNumFromCbp hcode with ⟨hfit, hstands⟩
      rw [GolombOp.bitLen, GolombOp.field, hcode] at hfield
      rcases reads_ueV h hfit hfield with ⟨hmove, hvalue⟩
      have hread : r.meV chroma pred = (r.ueV.1, cbp) := by
        rw [BitReader.meV]
        simp only [hvalue, hstands]
      rw [readGolomb, hread, GolombOp.bitLen, hcode]
      exact ⟨hmove, rfl⟩
  | ueK k v =>
      rcases reads_ueK h hop.1 hfield with ⟨hmove, hvalue⟩
      exact ⟨hmove, congrArg (fun x : BitVec 32 => ReadResult.unsigned x.toNat) hvalue⟩
  | seK k v =>
      rcases reads_ueK h hop.1.1 hfield with ⟨hmove, hvalue⟩
      refine ⟨hmove, ?_⟩
      have hread : (r.seK k).2 = v := (congrArg seValue hvalue).trans (seValue_seCodeNum hop.1.2).2
      exact congrArg (fun x : BitVec 32 => ReadResult.signed x.toInt) hread
  | ueV64 v =>
      rcases reads_ueV64 h hop.1 hfield with ⟨hmove, hvalue⟩
      exact ⟨hmove, congrArg (fun x : BitVec 64 => ReadResult.unsigned x.toNat) hvalue⟩

/-- The family as a kind of code. -/
def golombCode : FieldCode GolombOp ReadResult where
  write := writeGolomb
  read := readGolomb
  legal := GolombOp.Encodable
  width _ := GolombOp.bitLen
  field := GolombOp.field
  value := GolombOp.value
  appends hop h := golomb_appends h hop
  reads hop h hfield := golomb_reads h hop hfield

/-- Write a program of codes. -/
def writeGolombs (ops : List GolombOp) : BitWriter :=
  ops.foldl writeGolomb BitWriter.new

/-- The mirrored reads return the values, unflagged, and every code is as long as its kind says. -/
def RoundTrips (ops : List GolombOp) : Prop :=
  (∀ hfit : (writeGolombs ops).finish.length < 9223372036854775808,
      let r := BitReader.new ⟨(writeGolombs ops).finish, hfit⟩
      Transducer.outputs readGolomb r ops = ops.map GolombOp.value ∧
        ∀ done todo, ops = done ++ todo →
          (Transducer.stateAfter readGolomb r done).overrun = false) ∧
    ∀ done op todo, ops = done ++ op :: todo →
      (writeGolombs (done ++ [op])).length = (writeGolombs done).length + op.bitLen

/-- Every program of encodable codes comes back. -/
theorem golomb_round_trips (ops : List GolombOp) (hops : ∀ op ∈ ops, op.Encodable) :
    RoundTrips ops := by
  constructor
  · intro hfit r
    rcases golombCode.inverse hops hfit with ⟨hvalues, hsteps⟩
    exact ⟨hvalues, fun done todo hsplit => (hsteps done todo hsplit).2⟩
  · rintro done op todo rfl
    have hop := hops op (List.mem_append_right _ List.mem_cons_self)
    have hlegal : ∀ o ∈ done, golombCode.legal o :=
      fun o ho => hops o (List.mem_append_left _ ho)
    have hdone := (golombCode.writeAll_keeps BitWriter.wf_new hlegal).1
    rw [writeGolombs, List.foldl_append]
    exact (golomb_appends hdone hop).length

/-- A program with every kind of code, at the ends of the ranges. -/
def boundaryCodes : List GolombOp :=
  [.ueV 4294967294#32, .seV (-2147483647), .teV 1#32 1#32, .teV 9#32 3#32,
    .meV .withChroma .intra 47#32, .ueK 31 4294967295#32, .seK 1 (-2147483647),
    .ueV64 18446744073709551614#64]

theorem golomb_round_trips_boundaryCodes : RoundTrips boundaryCodes :=
  golomb_round_trips boundaryCodes (by
    have hrange : ∀ op ∈ boundaryCodes, op.InRange := by decide
    intro op hop
    refine ⟨hrange op hop, ?_⟩
    rintro cMax v rfl
    simp only [boundaryCodes, List.mem_cons, GolombOp.teV.injEq, reduceCtorEq, false_or,
      List.not_mem_nil, or_false] at hop
    rcases hop with ⟨-, rfl⟩ | ⟨-, rfl⟩ <;> decide)

/-- The greatest 32-bit value is within a ceiling of its own, and comes back as the value
below it. -/
theorem not_round_trips_greatest :
    ¬ ∀ ops : List GolombOp, (∀ op ∈ ops, op.InRange) → RoundTrips ops := by
  intro h
  have hprogram := h [.teV 4294967295#32 4294967295#32] (by decide)
  have hread := (hprogram.1 (by decide +kernel)).1
  exact absurd hread (by decide +kernel)

end Codec

end Vaco
