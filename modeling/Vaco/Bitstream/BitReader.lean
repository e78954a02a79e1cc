import Vaco.Library.BitStream
import Vaco.Library.FixedWidth

/-!
# The bit reader

The reader keeps up to 64 bits of the data in a cache, most significant bit first.  A
refill loads eight bytes behind the valid bits but counts only the whole bytes that
fit, so the bits below are stale: not valid, and yet the right ones.  Reads past the
end of the data return zeros, and whether that happened is derived from the position.

Main results:

- `At.refill`: a refill keeps the position and leaves at least 57 valid bits.
- `At.get`, `At.peek`, `At.getLong` and `At.getSigned`: every read returns the bits of the data at
  its position.
- `At.skip`, `At.skipLong` and `At.align`: every skip moves the position by its width.
- `At.bitPos_eq`: the reported position is the abstract one until its 64-bit count saturates.
-/

namespace Vaco
namespace Bitstream

open Library BitStream

/-- A byte slice; no allocation is longer than a signed 64-bit count. -/
structure Slice where
  bytes : Bytes
  length_lt : bytes.length < 9223372036854775808

/-- A slice that carries 64 zero bytes past its logical end. -/
structure Padded where
  data : Slice
  logicalLen : Nat
  padding : (data.bytes.drop logicalLen).take 64 = List.replicate 64 0

namespace Padded

/-- The logical bytes. -/
def logicalBytes (p : Padded) : Bytes :=
  p.data.bytes.take p.logicalLen

end Padded

/-- A saved reader position. -/
structure Mark where
  pos : Nat
  cache : BitVec 64
  cacheBits : Nat
  flagged : Bool

/-- A reader: `pos` is the byte offset of the next refill, and the top
`cacheBits` bits of the cache are valid. -/
structure BitReader where
  data : Slice
  logicalBits : Nat
  pos : Nat
  cache : BitVec 64
  cacheBits : Nat
  flagged : Bool

/-- Bytes as a word, first byte most significant. -/
def fromBeBytes (bytes : Bytes) : BitVec 64 :=
  bytes.foldl (fun w b => (w <<< 8) ||| b.setWidth 64) 0

namespace BitReader

def start (data : Slice) (logicalLen : Nat) : BitReader where
  data := data
  logicalBits := min (logicalLen * 8) u64Max
  pos := 0
  cache := 0
  cacheBits := 0
  flagged := false

/-- Read a slice, with no padding guarantee. -/
def new (data : Slice) : BitReader :=
  start data data.bytes.length

/-- Read a padded slice. -/
def newPadded (p : Padded) : BitReader :=
  start p.data p.logicalLen

/-- Eight bytes assembled individually, zero past the end. -/
def tailWord (r : BitReader) : BitVec 64 :=
  fromBeBytes ((List.range 8).map fun i => (r.data.bytes[min (r.pos + i) u64Max]?).getD 0)

/-- The eight bytes behind the cache: one load in the body, byte by byte in the tail. -/
def chunk (r : BitReader) : BitVec 64 :=
  if r.pos + 8 ≤ r.data.bytes.length then fromBeBytes ((r.data.bytes.drop r.pos).take 8)
  else r.tailWord

/-- Top the cache up to at least 57 valid bits. -/
def refill (r : BitReader) : BitReader :=
  if 56 < r.cacheBits then
    r
  else
    { r with
      cache := r.cache ||| (r.chunk >>> r.cacheBits)
      pos := min (r.pos + (64 - r.cacheBits) / 8) u64Max
      cacheBits := r.cacheBits + (64 - r.cacheBits) / 8 * 8 }

/-- Refill unless enough bits are valid. -/
def ensure (r : BitReader) (n : Nat) : BitReader :=
  if r.cacheBits < n then r.refill else r

/-- Drop bits from the top of the cache. -/
def consume (r : BitReader) (n : Nat) : BitReader :=
  { r with cache := r.cache <<< n, cacheBits := r.cacheBits - n }

/-- The top bits of the cache. -/
def top (r : BitReader) (n : Nat) : BitVec 32 :=
  (r.cache >>> (64 - n)).setWidth 32

/-- Read a number of bits, at most 32. -/
def get (r : BitReader) (n : Nat) : BitReader × BitVec 32 :=
  let n := min n 32
  if n = 0 then
    (r, 0)
  else
    let r := r.ensure n
    (r.consume n, r.top n)

/-- Read one bit. -/
def getBit (r : BitReader) : BitReader × BitVec 32 :=
  r.get 1

/-- Read a number of bits, at most 32, without consuming them. -/
def peek (r : BitReader) (n : Nat) : BitReader × BitVec 32 :=
  let n := min n 32
  if n = 0 then
    (r, 0)
  else
    let r := r.ensure n
    (r, r.top n)

/-- Empty the cache and advance by bits that it does not hold. -/
def jump (r : BitReader) (rest : Nat) : BitReader :=
  let r := { r with cache := 0, cacheBits := 0, pos := min (r.pos + rest / 8) u64Max }
  if rest % 8 ≠ 0 then r.refill.consume (rest % 8) else r

/-- Advance by a number of bits. -/
def skip (r : BitReader) (n : Nat) : BitReader :=
  if n = 0 then r
  else if n < r.cacheBits then r.consume n
  else r.jump (n - r.cacheBits)

/-- Advance by a number of bits that may exceed 32 bits. -/
def skipLong (r : BitReader) (n : Nat) : BitReader :=
  if n ≤ r.cacheBits then r.skip n else r.jump (n - r.cacheBits)

/-- Advance by whole bytes from the current position. -/
def skipBytes (r : BitReader) (n : Nat) : BitReader :=
  r.skipLong (min (n * 8) u64Max)

/-- Read a number of bits, at most 64. -/
def getLong (r : BitReader) (n : Nat) : BitReader × BitVec 64 :=
  let n := min n 64
  if n ≤ 32 then
    ((r.get n).1, (r.get n).2.setWidth 64)
  else
    let (r, hi) := r.get (n - 32)
    let (r, lo) := r.get 32
    (r, (hi.setWidth 64 <<< 32) ||| lo.setWidth 64)

/-- Read a two's-complement value of a number of bits, at most 32. -/
def getSigned (r : BitReader) (n : Nat) : BitReader × BitVec 32 :=
  let n := min n 32
  if n = 0 then
    (r, 0)
  else
    let (r, v) := r.get n
    (r, (v <<< (32 - n)).sshiftRight (32 - n))

/-- Advance to the next byte boundary. -/
def align (r : BitReader) : BitReader :=
  r.skip (r.cacheBits % 8)

/-- Bits consumed so far. -/
def bitPos (r : BitReader) : Nat :=
  min (r.pos * 8) u64Max - r.cacheBits

/-- Readable bits remaining. -/
def bitsLeft (r : BitReader) : Nat :=
  if r.flagged then 0 else r.logicalBits - r.bitPos

/-- Whether anything has gone wrong. -/
def overrun (r : BitReader) : Bool :=
  r.flagged || r.logicalBits < r.bitPos

/-- Mark the reader malformed. -/
def flagMalformed (r : BitReader) : BitReader :=
  { r with flagged := true }

/-- Save the position. -/
def mark (r : BitReader) : Mark where
  pos := r.pos
  cache := r.cache
  cacheBits := r.cacheBits
  flagged := r.flagged

/-- Restore a saved position. -/
def restore (r : BitReader) (m : Mark) : BitReader :=
  { r with pos := m.pos, cache := m.cache, cacheBits := m.cacheBits, flagged := m.flagged }

/-! ## The invariant -/

/-- The valid bits of a cache are those at a position, and its stale bits are set only where the
data is. -/
structure Cached (bits : Nat → Bool) (p : Nat) (pos : Nat) (cache : BitVec 64)
    (cacheBits : Nat) : Prop where
  cacheBits_le : cacheBits ≤ 64
  byte : (p + cacheBits) % 8 = 0
  pos_eq : pos = min ((p + cacheBits) / 8) u64Max
  valid : ∀ j < cacheBits, cache.getMsbD j = bits (p + j)
  stale : ∀ j, cache.getMsbD j = true → bits (p + j) = true

/-- A reader at an abstract position of its data. -/
def At (r : BitReader) (p : Nat) : Prop :=
  Cached (ofBytes r.data.bytes) p r.pos r.cache r.cacheBits

/-- A reader that has moved on to an abstract position, and has changed nothing else. -/
structure MovesTo (r r' : BitReader) (p : Nat) : Prop where
  at_pos : r'.At p
  data : r'.data = r.data
  logicalBits : r'.logicalBits = r.logicalBits
  flagged : r'.flagged = r.flagged

theorem MovesTo.trans {r r' r'' : BitReader} {p q : Nat} (h : r.MovesTo r' p)
    (h' : r'.MovesTo r'' q) : r.MovesTo r'' q where
  at_pos := h'.at_pos
  data := h'.data.trans h.data
  logicalBits := h'.logicalBits.trans h.logicalBits
  flagged := h'.flagged.trans h.flagged

theorem At.stay {r : BitReader} {p : Nat} (h : r.At p) : r.MovesTo r p :=
  ⟨h, rfl, rfl, rfl⟩

variable {r : BitReader} {p : Nat}

/-! ## Refilling -/

/-- A word holds its bytes in order. -/
theorem getLsbD_fromBeBytes (bytes : Bytes) {j : Nat} (hj : j < 8 * bytes.length) (hj' : j < 64) :
    (fromBeBytes bytes).getLsbD j = ofBytes bytes (8 * bytes.length - 1 - j) := by
  induction bytes using List.reverseRecOn generalizing j with
  | nil => simp at hj
  | append_singleton bytes b ih =>
      have hfold : fromBeBytes (bytes ++ [b]) = (fromBeBytes bytes <<< 8) ||| b.setWidth 64 := by
        simp [fromBeBytes]
      rw [List.length_append, List.length_singleton] at hj ⊢
      rw [hfold, BitVec.getLsbD_or, BitVec.getLsbD_shiftLeft, BitVec.getLsbD_setWidth,
        ofBytes_append]
      by_cases hlow : j < 8
      · have hplace : 8 * (bytes.length + 1) - 1 - j - 8 * bytes.length = 7 - j := by omega
        have hbit : ofBytes [b] (7 - j) = b.getLsbD j := by
          have hdiv : (7 - j) / 8 = 0 := by omega
          have hmod : (7 - j) % 8 = 7 - j := by omega
          have hflip : 8 - 1 - (7 - j) = j := by omega
          have hlt : 7 - j < 8 := by omega
          simp only [ofBytes, hdiv, hmod, List.getElem?_cons_zero, Option.getD_some,
            BitVec.getMsbD_eq_getLsbD, hflip, hlt, decide_true, Bool.true_and]
        rw [if_neg (by omega), hplace, hbit]
        simp [hlow, hj']
      · have hzero : b.getLsbD j = false := BitVec.getLsbD_of_ge b j (by omega)
        have hplace : 8 * bytes.length - 1 - (j - 8) = 8 * (bytes.length + 1) - 1 - j := by omega
        rw [if_pos (by omega), ih (by omega) (by omega), hplace]
        simp [hlow, hj', hzero]

theorem getMsbD_fromBeBytes {bytes : Bytes} (h : bytes.length = 8) {j : Nat} (hj : j < 64) :
    (fromBeBytes bytes).getMsbD j = ofBytes bytes j := by
  have hflip : 8 * bytes.length - 1 - (64 - 1 - j) = j := by omega
  rw [BitVec.getMsbD_eq_getLsbD, getLsbD_fromBeBytes bytes (by omega) (by omega), hflip]
  simp [hj]

theorem ofBytes_window (data : Bytes) (pos : Nat) {j : Nat} (hj : j < 64) :
    ofBytes ((List.range 8).map fun i => (data[pos + i]?).getD 0) j = ofBytes data (8 * pos + j) := by
  have hdiv : (8 * pos + j) / 8 = pos + j / 8 := by omega
  have hmod : (8 * pos + j) % 8 = j % 8 := by omega
  have hlt : j / 8 < 8 := by omega
  simp [ofBytes, hdiv, hmod, hlt]

/-- The bytes behind the cache are those of the data from the refill offset on, zero past the end. -/
theorem getMsbD_chunk {k : Nat} (hpos : r.pos = min k u64Max) {j : Nat} (hj : j < 64) :
    r.chunk.getMsbD j = ofBytes r.data.bytes (8 * k + j) := by
  have hmax : u64Max = 18446744073709551615 := rfl
  have hdata := r.data.length_lt
  have hbytes : r.chunk =
      fromBeBytes ((List.range 8).map fun i => (r.data.bytes[r.pos + i]?).getD 0) := by
    unfold chunk tailWord
    split
    · rename_i hbody
      congr 1
      apply List.ext_getElem
      · simp
        omega
      · intro i hi _
        simp only [List.length_take, List.length_drop] at hi
        have hlt : r.pos + i < r.data.bytes.length := by omega
        simp [hlt]
    · congr 1
      apply List.map_congr_left
      intro i _
      by_cases hsat : r.pos + i ≤ u64Max
      · rw [min_eq_left hsat]
      · rw [List.getElem?_eq_none (by omega), List.getElem?_eq_none (by omega)]
  rw [hbytes, getMsbD_fromBeBytes (by simp) hj, ofBytes_window _ _ hj]
  by_cases hsat : k ≤ u64Max
  · rw [hpos, min_eq_left hsat]
  · rw [ofBytes_of_le (by omega), ofBytes_of_le (by omega)]

theorem lt_cacheBits_refill (r : BitReader) : 56 < r.refill.cacheBits := by
  unfold refill
  split
  · assumption
  · dsimp only
    omega

/-- A refill keeps the position. -/
theorem At.refill (h : r.At p) : r.MovesTo r.refill p := by
  unfold BitReader.refill
  split
  · exact h.stay
  · rename_i hfew
    refine ⟨?_, rfl, rfl, rfl⟩
    have hbyte := h.byte
    have hcache := h.cacheBits_le
    have hmax : u64Max = 18446744073709551615 := rfl
    -- The valid bits end at a byte boundary of the data, where the chunk starts.
    have hend : 8 * ((p + r.cacheBits) / 8) = p + r.cacheBits := by omega
    have hbits : ∀ j < 64, (r.cache ||| (r.chunk >>> r.cacheBits)).getMsbD j =
        ofBytes r.data.bytes (p + j) := by
      intro j hj
      rw [BitVec.getMsbD_or, BitVec.getMsbD_ushiftRight]
      by_cases hvalid : j < r.cacheBits
      · simp [hvalid, h.valid j hvalid]
      · have hplace : p + r.cacheBits + (j - r.cacheBits) = p + j := by omega
        have hchunk := getMsbD_chunk h.pos_eq (show j - r.cacheBits < 64 by omega)
        rw [hend, hplace] at hchunk
        rw [hchunk]
        cases hstale : r.cache.getMsbD j with
        | false => simp [hj, hvalid]
        | true => simp [h.stale j hstale]
    have hpos := h.pos_eq
    constructor
    · dsimp only
      omega
    · dsimp only
      omega
    · dsimp only
      omega
    · intro j hj
      exact hbits j (by dsimp only at hj; omega)
    · intro j hj
      by_cases hlt : j < 64
      · rw [← hbits j hlt]
        exact hj
      · rw [BitVec.getMsbD_of_ge _ _ (by omega)] at hj
        cases hj

/-! ## Reading -/

theorem At.ensure (h : r.At p) (n : Nat) : r.MovesTo (r.ensure n) p := by
  unfold BitReader.ensure
  split
  · exact h.refill
  · exact h.stay

theorem le_cacheBits_ensure (r : BitReader) {n : Nat} (hn : n ≤ 57) :
    n ≤ (r.ensure n).cacheBits := by
  have := lt_cacheBits_refill r
  unfold ensure
  split <;> omega

/-- Dropping valid bits moves the position. -/
theorem At.consume (h : r.At p) {n : Nat} (hn : n ≤ r.cacheBits) :
    r.MovesTo (r.consume n) (p + n) := by
  refine ⟨?_, rfl, rfl, rfl⟩
  have hbyte := h.byte
  have hcache := h.cacheBits_le
  have hsum : p + n + (r.cacheBits - n) = p + r.cacheBits := by omega
  constructor
  · simp only [BitReader.consume]
    omega
  · simp only [BitReader.consume]
    omega
  · simp only [BitReader.consume, hsum]
    exact h.pos_eq
  · intro j hj
    simp only [BitReader.consume] at hj ⊢
    have hlt : n + j < 64 := by omega
    rw [BitVec.getMsbD_shiftLeft, Nat.add_assoc, ← h.valid (n + j) (by omega), Nat.add_comm n j]
  · intro j hj
    simp only [BitReader.consume] at hj
    rw [BitVec.getMsbD_shiftLeft, Nat.add_comm j n] at hj
    rw [Nat.add_assoc]
    exact h.stale (n + j) hj

theorem At.top (h : r.At p) {n : Nat} (hn : n ≤ r.cacheBits) (hn' : n ≤ 32) :
    (r.top n).toNat = number (ofBytes r.data.bytes) p n := by
  have hcache := h.cacheBits_le
  have hbits : number r.cache.getMsbD 0 n = number (ofBytes r.data.bytes) p n := by
    apply number_congr
    intro i hi
    rw [Nat.zero_add]
    exact h.valid i (by omega)
  have hlt : (r.cache >>> (64 - n)).toNat < 2 ^ 32 := by
    rw [← number_getMsbD r.cache (by omega : n ≤ 64)]
    exact (number_lt _ _ n).trans_le (Nat.pow_le_pow_right (by decide) hn')
  rw [BitReader.top, BitVec.toNat_setWidth, Nat.mod_eq_of_lt hlt,
    ← number_getMsbD r.cache (by omega : n ≤ 64), hbits]

/-- Reading returns the bits at the position and moves past them. -/
theorem At.get (h : r.At p) {n : Nat} (hn : n ≤ 32) :
    r.MovesTo (r.get n).1 (p + n) ∧
      (r.get n).2.toNat = number (ofBytes r.data.bytes) p n := by
  rw [BitReader.get, min_eq_left hn]
  by_cases hzero : n = 0
  · subst hzero
    exact ⟨h.stay, rfl⟩
  · rw [if_neg hzero]
    have hfill := h.ensure n
    have henough := le_cacheBits_ensure r (show n ≤ 57 by omega)
    refine ⟨hfill.trans (hfill.at_pos.consume henough), ?_⟩
    rw [hfill.at_pos.top henough hn, hfill.data]

/-- Peeking returns the bits at the position and stays there. -/
theorem At.peek (h : r.At p) {n : Nat} (hn : n ≤ 32) :
    r.MovesTo (r.peek n).1 p ∧ (r.peek n).2.toNat = number (ofBytes r.data.bytes) p n := by
  rw [BitReader.peek, min_eq_left hn]
  by_cases hzero : n = 0
  · subst hzero
    exact ⟨h.stay, rfl⟩
  · rw [if_neg hzero]
    have hfill := h.ensure n
    have henough := le_cacheBits_ensure r (show n ≤ 57 by omega)
    refine ⟨hfill, ?_⟩
    rw [hfill.at_pos.top henough hn, hfill.data]

/-- A long read returns the bits at the position and moves past them. -/
theorem At.getLong (h : r.At p) {n : Nat} (hn : n ≤ 64) :
    r.MovesTo (r.getLong n).1 (p + n) ∧
      (r.getLong n).2.toNat = number (ofBytes r.data.bytes) p n := by
  rw [BitReader.getLong, min_eq_left hn]
  by_cases hshort : n ≤ 32
  · rw [if_pos hshort]
    rcases h.get hshort with ⟨hmove, hvalue⟩
    refine ⟨hmove, ?_⟩
    rw [BitVec.toNat_setWidth, Nat.mod_eq_of_lt (by omega), hvalue]
  · rw [if_neg hshort]
    rcases h.get (show n - 32 ≤ 32 by omega) with ⟨hmove, hhigh⟩
    rcases hmove.at_pos.get le_rfl with ⟨hmove', hlow⟩
    rw [hmove.data] at hlow
    have hsum : p + (n - 32) + 32 = p + n := by omega
    have hsplit := number_add (ofBytes r.data.bytes) p (n - 32) 32
    rw [show n - 32 + 32 = n by omega] at hsplit
    have hhigh_lt := (r.get (n - 32)).2.isLt
    have hlow_lt := ((r.get (n - 32)).1.get 32).2.isLt
    have hshift : (r.get (n - 32)).2.toNat * 2 ^ 32 < 2 ^ 64 := by omega
    refine ⟨hsum ▸ hmove.trans hmove', ?_⟩
    dsimp only
    rw [BitVec.toNat_or, BitVec.toNat_shiftLeft, BitVec.toNat_setWidth, BitVec.toNat_setWidth,
      Nat.mod_eq_of_lt (by omega : (r.get (n - 32)).2.toNat < 2 ^ 64), Nat.shiftLeft_eq,
      Nat.mod_eq_of_lt hshift, ← Nat.shiftLeft_eq, Nat.mod_eq_of_lt (by omega),
      ← Nat.shiftLeft_add_eq_or_of_lt hlow_lt, Nat.shiftLeft_eq, hhigh, hlow, hsplit]

/-- Shifting a number of `n` bits up to the sign and back extends its sign. -/
theorem toInt_signExtend {v : BitVec 32} {n : Nat} (hn : 0 < n) (hn' : n ≤ 32)
    (hv : v.toNat < 2 ^ n) :
    ((v <<< (32 - n)).sshiftRight (32 - n)).toInt =
      if 2 ^ (n - 1) ≤ v.toNat then (v.toNat : Int) - 2 ^ n else v.toNat := by
  have hcard : 2 ^ n * 2 ^ (32 - n) = 2 ^ 32 := by
    rw [← Nat.pow_add, Nat.add_sub_cancel' hn']
  have hhalf : 2 ^ (n - 1) * 2 ^ (32 - n) * 2 = 2 ^ 32 := by
    rw [← hcard, ← Nat.sub_add_cancel hn, Nat.pow_succ]
    simp only [Nat.add_sub_cancel]
    ring
  have hpos : 0 < 2 ^ (32 - n) := by positivity
  have hfit : v.toNat * 2 ^ (32 - n) < 2 ^ 32 := by
    rw [← hcard]
    exact Nat.mul_lt_mul_of_pos_right hv hpos
  have hcardInt : (4294967296 : Int) = 2 ^ n * 2 ^ (32 - n) := by exact_mod_cast hcard.symm
  rw [BitVec.toInt_sshiftRight, Int.shiftRight_eq_div_pow, BitVec.toInt_eq_toNat_cond,
    BitVec.toNat_shiftLeft, Nat.shiftLeft_eq, Nat.mod_eq_of_lt hfit]
  by_cases hsign : 2 ^ (n - 1) ≤ v.toNat
  · have hbig : ¬ 2 * (v.toNat * 2 ^ (32 - n)) < 2 ^ 32 := by
      have := Nat.mul_le_mul_right (2 ^ (32 - n)) hsign
      omega
    rw [if_pos hsign, if_neg hbig]
    push_cast
    rw [hcardInt, ← sub_mul, Int.mul_ediv_cancel _ (by positivity)]
  · have hsmall : 2 * (v.toNat * 2 ^ (32 - n)) < 2 ^ 32 := by
      have := Nat.mul_lt_mul_of_pos_right (not_le.mp hsign) hpos
      omega
    rw [if_neg hsign, if_pos hsmall]
    push_cast
    rw [Int.mul_ediv_cancel _ (by positivity)]

/-- A signed read returns the two's-complement number at the position and moves past
it. -/
theorem At.getSigned (h : r.At p) {n : Nat} (hn : n ≤ 32) :
    r.MovesTo (r.getSigned n).1 (p + n) ∧
      (r.getSigned n).2.toInt = signedNumber (ofBytes r.data.bytes) p n := by
  rw [BitReader.getSigned, min_eq_left hn]
  by_cases hzero : n = 0
  · subst hzero
    exact ⟨h.stay, rfl⟩
  · rw [if_neg hzero]
    rcases h.get hn with ⟨hmove, hvalue⟩
    have hpos : 0 < n := Nat.pos_of_ne_zero hzero
    have hlt : (r.get n).2.toNat < 2 ^ n := by
      rw [hvalue]
      exact number_lt _ p n
    have hsign := two_pow_le_number_iff (ofBytes r.data.bytes) p (n - 1)
    rw [Nat.sub_add_cancel hpos] at hsign
    refine ⟨hmove, ?_⟩
    dsimp only
    rw [toInt_signExtend hpos hn hlt, hvalue, signedNumber]
    simp only [hsign, hpos, true_and]

/-! ## Skipping -/

/-- Advancing past the cached bits moves the position. -/
theorem At.jump (h : r.At p) (rest : Nat) :
    r.MovesTo (r.jump rest) (p + r.cacheBits + rest) := by
  have hbyte := h.byte
  have hmax : u64Max = 18446744073709551615 := rfl
  have hempty : ({ r with cache := 0, cacheBits := 0, pos := min (r.pos + rest / 8) u64Max } :
      BitReader).At (p + r.cacheBits + 8 * (rest / 8)) := by
    have hpos := h.pos_eq
    constructor
    · exact Nat.zero_le _
    · dsimp only
      omega
    · dsimp only
      omega
    · intro j hj
      cases hj
    · intro j hj
      simp at hj
  unfold BitReader.jump
  by_cases hbits : rest % 8 = 0
  · have hwhole : 8 * (rest / 8) = rest := by omega
    rw [hwhole] at hempty
    simp only [hbits, ne_eq, not_true_eq_false, if_false]
    exact ⟨hempty, rfl, rfl, rfl⟩
  · have hsum : p + r.cacheBits + 8 * (rest / 8) + rest % 8 = p + r.cacheBits + rest := by omega
    have hfill := hempty.refill
    have henough := lt_cacheBits_refill
      { r with cache := 0, cacheBits := 0, pos := min (r.pos + rest / 8) u64Max }
    have hdrop := hfill.at_pos.consume (show rest % 8 ≤ _ by omega)
    rw [hsum] at hdrop
    simp only [ne_eq, hbits, not_false_eq_true, if_true]
    exact ⟨hdrop.at_pos, hdrop.data.trans hfill.data, hdrop.logicalBits.trans hfill.logicalBits,
      hdrop.flagged.trans hfill.flagged⟩

/-- A skip moves the position by its width. -/
theorem At.skip (h : r.At p) (n : Nat) : r.MovesTo (r.skip n) (p + n) := by
  unfold BitReader.skip
  split
  · rename_i hzero
    subst hzero
    exact h.stay
  · split
    · rename_i hlt
      exact h.consume hlt.le
    · rename_i hge
      have hsum : p + r.cacheBits + (n - r.cacheBits) = p + n := by omega
      exact hsum ▸ h.jump (n - r.cacheBits)

/-- A long skip moves the position by its width. -/
theorem At.skipLong (h : r.At p) (n : Nat) : r.MovesTo (r.skipLong n) (p + n) := by
  unfold BitReader.skipLong
  split
  · exact h.skip n
  · rename_i hgt
    have hsum : p + r.cacheBits + (n - r.cacheBits) = p + n := by omega
    exact hsum ▸ h.jump (n - r.cacheBits)

/-- Bits up to the next byte boundary. -/
def toBoundary (p : Nat) : Nat :=
  (8 - p % 8) % 8

/-- Aligning moves the position to the next byte boundary. -/
theorem At.align (h : r.At p) : r.MovesTo r.align (p + toBoundary p) := by
  have hbyte := h.byte
  have hwidth : r.cacheBits % 8 = toBoundary p := by
    unfold toBoundary
    omega
  rw [BitReader.align, hwidth]
  exact h.skip _

/-! ## Positions -/

/-- The reported position is the abstract one until the 64-bit count saturates. -/
theorem At.bitPos_eq (h : r.At p) (hp : p + 64 ≤ u64Max) : r.bitPos = p := by
  have hbyte := h.byte
  have hcache := h.cacheBits_le
  have hpos := h.pos_eq
  have hmax : u64Max = 18446744073709551615 := rfl
  unfold bitPos
  omega

theorem At.bitPos_le (h : r.At p) : r.bitPos ≤ p ∧ r.bitPos ≤ u64Max := by
  have hbyte := h.byte
  have hpos := h.pos_eq
  unfold bitPos
  omega

theorem at_start (data : Slice) (logicalLen : Nat) : (start data logicalLen).At 0 := by
  constructor
  · exact Nat.zero_le _
  · rfl
  · simp [start]
  · intro j hj
    cases hj
  · intro j hj
    simp [start] at hj

end BitReader

end Bitstream
end Vaco
