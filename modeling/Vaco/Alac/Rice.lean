import Vaco.Bitstream.Coded
import Vaco.Bitstream.Golomb

/-!
# The adaptive Golomb-Rice code

Every difference is folded to a number without a sign and written as a quotient in ones, a zero
and a remainder; the divisor follows a running mean.  A remainder of zero is written one bit
shorter, and the reader gives that bit back.  Where the code would be too long, the number
follows nine ones as it is.  Where the mean is small, a number of zeros is counted instead.

Main results:

- `dynGet32bit_dynCode32bit`: a number comes back from its code.
- `dynGet16bit_dynCode16bit`: so does the length of a run of zeros.

Current gaps:

- Where the checked build of the source stops on an overflow, the model wraps.
-/

namespace Vaco
namespace Alac

open Library BitStream Bitstream

/-! ## Parameters -/

/-- The shift of the running mean. -/
def qbShift : Nat := 9

/-- One in the units of the running mean. -/
def qb : Nat := 1 <<< qbShift

/-- The shift of the mean before it is compared with one. -/
def mmulShift : Nat := 2

/-- The shift of the mean in the parameter of a run. -/
def mdenShift : Nat := qbShift - mmulShift - 1

/-- What rounds the mean in the parameter of a run. -/
def moff : Nat := 1 <<< (mdenShift - 2)

/-- What the leading zeros of the mean are counted from. -/
def bitoff : Nat := 24

/-- The ones in front of an escaped run. -/
def maxPrefix16 : Nat := 9

/-- The ones in front of an escaped number. -/
def maxPrefix32 : Nat := 9

/-- The bits of an escaped run. -/
def maxDatatypeBits16 : Nat := 16

/-- The number from which on the mean is not tracked. -/
def nMaxMeanClamp : Nat := 0xffff

/-- The mean behind such a number. -/
def nMeanClampVal : Nat := 0xffff

/-- What a run of zeros is cut at. -/
def maxRun : Nat := 65535

/-- The parameters of a channel. -/
structure AgParams where
  mb0 : BitVec 32
  pb : BitVec 32
  kb : Nat
  wb : BitVec 32
deriving DecidableEq

/-- The parameters that a stream gives. -/
def AgParams.new (mb pb : BitVec 32) (kb : Nat) : AgParams where
  mb0 := mb
  pb := pb
  kb := kb
  wb := (1#32 <<< kb) - 1#32

/-- The logarithm of a value plus three. -/
def lg3a (x : BitVec 32) : Nat :=
  31 - leadingZeros (x + 3)

namespace AgParams

/-- The bits of a remainder at a mean. -/
def width (params : AgParams) (mb : BitVec 32) : Nat :=
  max (min (lg3a (mb >>> qbShift)) params.kb) 1

/-- The bits of the remainder of a run at a mean. -/
def runWidth (mb : BitVec 32) : Nat :=
  (BitVec.ofNat 32 (leadingZeros mb) - BitVec.ofNat 32 bitoff +
    ((mb + BitVec.ofNat 32 moff) >>> mdenShift)).toNat % 32

/-- The divisor of a run at a mean. -/
def runDivisor (params : AgParams) (mb : BitVec 32) : Nat :=
  (2 ^ runWidth mb - 1) &&& params.wb.toNat

/-- The mean behind a number, whether or not the number stands behind a run. -/
def adaptMean (params : AgParams) (mb n : BitVec 32) (zmode : Bool) : BitVec 32 :=
  let mb := params.pb * (n + if zmode then 1 else 0) + mb - ((params.pb * mb) >>> qbShift)
  if nMaxMeanClamp < n.toNat then BitVec.ofNat 32 nMeanClampVal else mb

end AgParams

/-! ## Reading codes -/

/-- Count ones up to a limit.  The zero behind fewer of them is read too. -/
def getOnes : Nat → BitReader → BitReader × Nat
  | 0, r => (r, 0)
  | limit + 1, r =>
      let bit := r.getBit
      if bit.2 = 0 then (bit.1, 0)
      else
        let rest := getOnes limit bit.1
        (rest.1, rest.2 + 1)

/-- Read a remainder behind its quotient.  One that is zero leaves its last bit for the next
code. -/
def getRemainder (r : BitReader) (pre m k : Nat) : BitReader × BitVec 32 :=
  let v := r.peek k
  if v.2.toNat < 2 then (v.1.skip (k - 1), BitVec.ofNat 32 (pre * m))
  else (v.1.skip k, BitVec.ofNat 32 (pre * m + (v.2.toNat - 1)))

/-- Read a number. -/
def dynGet32bit (m k maxbits : Nat) (r : BitReader) : BitReader × BitVec 32 :=
  let ones := getOnes maxPrefix32 r
  if maxPrefix32 ≤ ones.2 then
    let v := ones.1.getLong (min maxbits 32)
    (v.1, v.2.setWidth 32)
  else if k = 1 then (ones.1, BitVec.ofNat 32 (ones.2 * m))
  else getRemainder ones.1 ones.2 m k

/-- Read the length of a run. -/
def dynGet16bit (m k : Nat) (r : BitReader) : BitReader × BitVec 32 :=
  let ones := getOnes maxPrefix16 r
  if maxPrefix16 ≤ ones.2 then
    let v := ones.1.getLong maxDatatypeBits16
    (v.1, v.2.setWidth 32)
  else if k = 0 then (ones.1, BitVec.ofNat 32 (ones.2 * m))
  else getRemainder ones.1 ones.2 m k

/-! ## Writing codes -/

/-- Write ones, 32 at a time while more are left. -/
def putOnesLoop : Nat → BitWriter → Nat → BitWriter
  | 0, w, left => if 0 < left then w.put left (BitVec.allOnes 32) else w
  | fuel + 1, w, left =>
      if 32 < left then putOnesLoop fuel (w.put 32 (BitVec.allOnes 32)) (left - 32)
      else if 0 < left then w.put left (BitVec.allOnes 32)
      else w

/-- Write a number of ones. -/
def putOnes (w : BitWriter) (n : Nat) : BitWriter :=
  putOnesLoop n w n

/-- Write ones, one after the other. -/
def putSingles : Nat → BitWriter → BitWriter
  | 0, w => w
  | n + 1, w => putSingles n (w.put 1 1)

/-- Write a quotient and its remainder, where that takes few bits. -/
def putShort (w : BitWriter) (m k n ones widest : Nat) : Option BitWriter :=
  let div := n / m
  let modulo := n - m * div
  let de := if modulo = 0 then 1 else 0
  let numBits := div + k + 1 - de
  if div < ones ∧ numBits ≤ widest then
    let w := (putOnes w div).put 1 0
    let valueBits := numBits - div - 1
    some (if 0 < valueBits then w.put valueBits (BitVec.ofNat 32 (modulo + 1 - de)) else w)
  else
    none

/-- Write a number. -/
def dynCode32bit (w : BitWriter) (m k : Nat) (n : BitVec 32) (maxbits : Nat) : BitWriter :=
  if m = 0 then (putOnes w maxPrefix32).putLong (if min maxbits 32 ≠ 0 then 1 else 0) 0
  else
    match putShort w m k n.toNat maxPrefix32 25 with
    | some w => w
    | none => (putSingles maxPrefix32 w).putLong (min maxbits 32) (n.setWidth 64)

/-- Write the length of a run. -/
def dynCode16bit (w : BitWriter) (m k : Nat) (n : BitVec 32) : BitWriter :=
  if m = 0 then (putSingles maxPrefix16 w).put maxDatatypeBits16 n
  else
    match putShort w m k n.toNat maxPrefix16 (maxPrefix16 + maxDatatypeBits16) with
    | some w => w
    | none => (putSingles maxPrefix16 w).put maxDatatypeBits16 n

variable {w w' w'' : BitWriter} {r r' : BitReader} {p : Nat}

/-! ## Ones -/

theorem putSingles_appends (hw : w.Wf) (n : Nat) : w.Appends (putSingles n w) n (2 ^ n - 1) := by
  induction n generalizing w with
  | zero => exact hw.stay
  | succ n ih =>
      have hone := hw.put (show 1 ≤ 32 by omega) 1
      have hboth := hone.trans (ih hone.wf)
      have hwidth : 1 + n = n + 1 := Nat.add_comm 1 n
      have hvalue : (1#32).toNat % 2 ^ 1 * 2 ^ n + (2 ^ n - 1) = 2 ^ (n + 1) - 1 := by
        have hpos := Nat.two_pow_pos n
        rw [Nat.pow_succ]
        simp
        omega
      rw [hwidth] at hboth
      exact hvalue ▸ hboth

theorem putOnes_appends (hw : w.Wf) {n : Nat} (hn : n ≤ 32) :
    w.Appends (putOnes w n) n (2 ^ n - 1) := by
  have hvalue : (BitVec.allOnes 32).toNat % 2 ^ n = 2 ^ n - 1 := by
    rw [BitVec.toNat_allOnes, ← Nat.and_two_pow_sub_one_eq_mod, Nat.and_comm,
      Nat.and_two_pow_sub_one_eq_mod, Nat.mod_eq_of_lt]
    have := Nat.two_pow_pos n
    have := Nat.pow_le_pow_right (show 0 < 2 by omega) hn
    omega
  unfold putOnes
  cases n with
  | zero => exact hw.stay
  | succ n =>
      rw [putOnesLoop, if_neg (by omega), if_pos (Nat.succ_pos n), ← hvalue]
      exact hw.put hn _

theorem getBit_eq (hr : r.At p) :
    r.MovesTo r.getBit.1 (p + 1) ∧ (r.getBit.2 = 0 ↔ ofBytes r.data.bytes p = false) := by
  rcases hr.get (show 1 ≤ 32 by omega) with ⟨hmove, hvalue⟩
  rw [number_one] at hvalue
  refine ⟨hmove, ?_⟩
  rw [← BitVec.toNat_inj, BitReader.getBit, hvalue]
  cases ofBytes r.data.bytes p <;> simp

/-- Fewer ones than the limit are counted, and the zero behind them is read. -/
theorem getOnes_of_zero {limit n : Nat} (hr : r.At p) (hn : n < limit)
    (hones : ∀ i < n, ofBytes r.data.bytes (p + i) = true)
    (hzero : ofBytes r.data.bytes (p + n) = false) :
    r.MovesTo (getOnes limit r).1 (p + n + 1) ∧ (getOnes limit r).2 = n := by
  obtain ⟨limit, rfl⟩ := Nat.exists_eq_add_one_of_ne_zero (show limit ≠ 0 by omega)
  rcases getBit_eq hr with ⟨hmove, hbit⟩
  induction n generalizing limit r p with
  | zero =>
      have hstop : r.getBit.2 = 0 := hbit.mpr hzero
      simp only [getOnes, if_pos hstop]
      exact ⟨hmove, trivial⟩
  | succ n ih =>
      have hgo : r.getBit.2 ≠ 0 := by
        rw [ne_eq, hbit, ← Nat.add_zero p, hones 0 (Nat.succ_pos n)]
        decide
      obtain ⟨limit, rfl⟩ := Nat.exists_eq_add_one_of_ne_zero (show limit ≠ 0 by omega)
      have hshift : ∀ i, p + 1 + i = p + (i + 1) := by omega
      rw [← hshift n] at hzero
      rcases getBit_eq hmove.at_pos with ⟨hmove', hbit'⟩
      have hrest := ih hmove.at_pos (fun i hi => by
          rw [hmove.data, hshift]
          exact hones (i + 1) (by omega)) (by rw [hmove.data]; exact hzero) limit (by omega)
        hmove' hbit'
      rw [getOnes]
      simp only [if_neg hgo]
      rw [hshift n] at hrest
      exact ⟨hmove.trans hrest.1, by rw [hrest.2]⟩

theorem getOnes_of_ones {limit : Nat} (hr : r.At p)
    (hones : ∀ i < limit, ofBytes r.data.bytes (p + i) = true) :
    r.MovesTo (getOnes limit r).1 (p + limit) ∧ (getOnes limit r).2 = limit := by
  induction limit generalizing r p with
  | zero => exact ⟨hr.stay, rfl⟩
  | succ limit ih =>
      rcases getBit_eq hr with ⟨hmove, hbit⟩
      have hgo : r.getBit.2 ≠ 0 := by
        rw [ne_eq, hbit, ← Nat.add_zero p, hones 0 (Nat.succ_pos limit)]
        decide
      have hshift : ∀ i, p + 1 + i = p + (i + 1) := by omega
      have hrest := ih hmove.at_pos (fun i hi => by
        rw [hmove.data, hshift]
        exact hones (i + 1) (by omega))
      rw [getOnes]
      simp only [if_neg hgo]
      rw [hshift limit] at hrest
      exact ⟨hmove.trans hrest.1, by rw [hrest.2]⟩

/-! ## Quotients with their remainders -/

/-- A code in parts: ones for the quotient, a zero, and the remainder, which is one bit shorter
when it is zero. -/
structure ShortCode (w w' : BitWriter) (m k n : Nat) where
  prefixed : BitWriter
  stopped : BitWriter
  quotient : w.Appends prefixed (n / m) (2 ^ (n / m) - 1)
  stop : prefixed.Appends stopped 1 0
  zero : n % m = 0 → stopped.Appends w' (k - 1) 0
  nonzero : n % m ≠ 0 → stopped.Appends w' k (n % m + 1)

/-- Where the code takes few bits it is written in parts. -/
theorem shortCode_of_putShort (hw : w.Wf) {m k n ones widest : Nat} (hm : 0 < m)
    (hmk : m < 2 ^ k) (hwidest : widest ≤ 32) (h : putShort w m k n ones widest = some w') :
    n / m < ones ∧ w'.length ≤ w.length + widest ∧ Nonempty (ShortCode w w' m k n) := by
  have hmod : n - m * (n / m) = n % m := (Nat.mod_eq_sub n m).symm
  have hrem : n % m < m := Nat.mod_lt n hm
  have hdivNonneg : 0 ≤ n / m := Nat.zero_le _
  have hk : k ≠ 0 := by
    intro hzero
    rw [hzero, pow_zero] at hmk
    omega
  simp only [putShort, hmod] at h
  by_cases hfits : n / m < ones ∧ n / m + k + 1 - (if n % m = 0 then 1 else 0) ≤ widest
  case neg =>
    rw [if_neg hfits] at h
    cases h
  case pos =>
    rw [if_pos hfits] at h
    rcases hfits with ⟨hones, hfew⟩
    have hdiv : n / m ≤ 32 := by split at hfew <;> omega
    have hquotient := putOnes_appends hw hdiv
    have hstop := hquotient.wf.put (show 1 ≤ 32 by omega) 0
    have hbits : n / m + k + 1 - (if n % m = 0 then 1 else 0) - n / m - 1 =
        k - (if n % m = 0 then 1 else 0) := by
      split <;> omega
    rw [hbits, Option.some.injEq] at h
    have hlength : ((putOnes w (n / m)).put 1 0).length = w.length + n / m + 1 := by
      rw [hstop.length, hquotient.length]
    have hlast : (n % m = 0 → ((putOnes w (n / m)).put 1 0).Appends w' (k - 1) 0) ∧
        (n % m ≠ 0 → ((putOnes w (n / m)).put 1 0).Appends w' k (n % m + 1)) := by
      constructor
      · intro hzero
        simp only [hzero, if_true] at h
        by_cases hone : 0 < k - 1
        · rw [if_pos hone] at h
          have hput := hstop.wf.put (show k - 1 ≤ 32 by simp only [hzero, if_true] at hfew; omega)
            (BitVec.ofNat 32 (0 + 1 - 1))
          rw [h] at hput
          simpa using hput
        · rw [if_neg hone] at h
          have hnone : k - 1 = 0 := by omega
          rw [hnone, ← h]
          exact hstop.wf.stay
      · intro hzero
        simp only [hzero, if_false, Nat.sub_zero] at h hfew
        rw [if_pos (by omega)] at h
        have hput := hstop.wf.put (show k ≤ 32 by omega) (BitVec.ofNat 32 (n % m + 1))
        have hfit : n % m + 1 < 2 ^ k := by omega
        have hle : 2 ^ k ≤ 2 ^ 32 := Nat.pow_le_pow_right (by omega) (by omega)
        rw [h, BitVec.toNat_ofNat, Nat.mod_eq_of_lt (by omega : n % m + 1 < 2 ^ 32),
          Nat.mod_eq_of_lt hfit] at hput
        exact hput
    refine ⟨hones, ?_, ⟨⟨_, _, hquotient, hstop, hlast.1, hlast.2⟩⟩⟩
    by_cases hzero : n % m = 0
    · rw [(hlast.1 hzero).length, hlength]
      simp only [hzero, if_true] at hfew
      omega
    · rw [(hlast.2 hzero).length, hlength]
      simp only [hzero, if_false] at hfew
      omega

theorem getRemainder_zero (hr : r.At p) (pre m : Nat) {k : Nat} (hk : k ≤ 32)
    (hfield : number (ofBytes r.data.bytes) p (k - 1) = 0) :
    r.MovesTo (getRemainder r pre m k).1 (p + (k - 1)) ∧
      (getRemainder r pre m k).2 = BitVec.ofNat 32 (pre * m) := by
  rcases hr.peek hk with ⟨hmove, hvalue⟩
  have hsmall : (r.peek k).2.toNat < 2 := by
    rw [hvalue]
    cases k with
    | zero => exact Nat.two_pos
    | succ k =>
        have hbit := Bool.toNat_lt (ofBytes r.data.bytes (p + k))
        rw [Nat.add_sub_cancel] at hfield
        rw [number, hfield]
        omega
  simp only [getRemainder, if_pos hsmall]
  exact ⟨hmove.trans (hmove.at_pos.skip _), trivial⟩

theorem getRemainder_pos (hr : r.At p) (pre m : Nat) {k rem : Nat} (hk : k ≤ 32) (hrem : 0 < rem)
    (hfield : number (ofBytes r.data.bytes) p k = rem + 1) :
    r.MovesTo (getRemainder r pre m k).1 (p + k) ∧
      (getRemainder r pre m k).2 = BitVec.ofNat 32 (pre * m + rem) := by
  rcases hr.peek hk with ⟨hmove, hvalue⟩
  rw [hfield] at hvalue
  have hlarge : ¬ rem + 1 < 2 := by omega
  simp only [getRemainder, hvalue, if_neg hlarge, Nat.add_sub_cancel]
  exact ⟨hmove.trans (hmove.at_pos.skip _), trivial⟩

/-- A code in parts is read back. -/
theorem ShortCode.reads {m k n ones : Nat} (h : ShortCode w w' m k n) (hones : n / m < ones)
    (hk : k ≤ 32) (hr : r.At w.length) (hfollows : Follows r w') :
    let quotient := getOnes ones r
    let read := getRemainder quotient.1 (n / m) m k
    quotient.2 = n / m ∧ r.MovesTo quotient.1 (w.length + n / m + 1) ∧
      r.MovesTo read.1 w'.length ∧ read.2 = BitVec.ofNat 32 n := by
  intro quotient read
  have hstopped : h.stopped.length = w.length + n / m + 1 := by
    rw [h.stop.length, h.quotient.length]
  have hsum : n / m * m + n % m = n := by
    rw [Nat.mul_comm]
    exact Nat.div_add_mod n m
  have hlast : h.stopped.length ≤ w'.length ∧
      ∀ i < h.stopped.length, w'.bit i = h.stopped.bit i := by
    by_cases hzero : n % m = 0
    · exact ⟨by rw [(h.zero hzero).length]; omega, (h.zero hzero).keeps⟩
    · exact ⟨by rw [(h.nonzero hzero).length]; omega, (h.nonzero hzero).keeps⟩
  have hfollowsStop : Follows r h.stopped := hfollows.mono hlast.1 hlast.2
  have hfollowsQuotient : Follows r h.prefixed :=
    hfollowsStop.mono (by rw [h.stop.length]; omega) h.stop.keeps
  have hones' := forall_of_number_eq_ones (hfollowsQuotient.field h.quotient)
  have hzero' : ofBytes r.data.bytes (w.length + n / m) = false := by
    have hfield := hfollowsStop.field h.stop
    rw [number_one, h.quotient.length] at hfield
    cases hbit : ofBytes r.data.bytes (w.length + n / m) with
    | false => rfl
    | true =>
        rw [hbit] at hfield
        cases hfield
  rcases getOnes_of_zero hr hones hones' hzero' with ⟨hmove, hcount⟩
  refine ⟨hcount, hmove, ?_⟩
  have hat : quotient.1.At h.stopped.length := hstopped ▸ hmove.at_pos
  have hfollows' := hfollows.moves hmove
  by_cases hzero : n % m = 0
  · have hread := getRemainder_zero hat (n / m) m hk
      (hfollows'.field (h.zero hzero))
    rw [hzero, Nat.add_zero] at hsum
    rw [← (h.zero hzero).length, hsum] at hread
    exact ⟨hmove.trans hread.1, hread.2⟩
  · have hread := getRemainder_pos hat (n / m) m hk (Nat.pos_of_ne_zero hzero)
      (hfollows'.field (h.nonzero hzero))
    rw [← (h.nonzero hzero).length, hsum] at hread
    exact ⟨hmove.trans hread.1, hread.2⟩

theorem ShortCode.keeps {m k n : Nat} (h : ShortCode w w' m k n) :
    w'.Wf ∧ w.length ≤ w'.length ∧ ∀ i < w.length, w'.bit i = w.bit i := by
  have hstart := h.quotient.trans h.stop
  have hlast : ∃ width field, h.stopped.Appends w' width field := by
    by_cases hzero : n % m = 0
    · exact ⟨_, _, h.zero hzero⟩
    · exact ⟨_, _, h.nonzero hzero⟩
  rcases hlast with ⟨width, field, hlast⟩
  have hall := hstart.trans hlast
  exact ⟨hall.wf, hall.length ▸ Nat.le_add_right _ _, hall.keeps⟩

/-! ## Escapes -/

theorem getLong_of_escaped {limit bits value : Nat}
    (hones : w.Appends w' limit (2 ^ limit - 1)) (hraw : w'.Appends w'' bits value)
    (hbits : bits ≤ 64) (hr : r.At w.length) (hfollows : Follows r w'') :
    let ones := getOnes limit r
    ones.2 = limit ∧ r.MovesTo (ones.1.getLong bits).1 w''.length ∧
      (ones.1.getLong bits).2.toNat = value := by
  intro ones
  have hfollows' : Follows r w' := hfollows.mono (by rw [hraw.length]; omega) hraw.keeps
  rcases getOnes_of_ones hr (forall_of_number_eq_ones (hfollows'.field hones)) with
    ⟨hmove, hcount⟩
  rw [← hones.length] at hmove
  rcases hmove.at_pos.getLong hbits with ⟨hlong, hvalue⟩
  refine ⟨hcount, ?_, ?_⟩
  · rw [hraw.length]
    exact hmove.trans hlong
  · rw [hvalue]
    exact (hfollows.moves hmove).field hraw

/-! ## Codes -/

/-- A number that fits the width of the channel comes back from its code. -/
theorem dynGet32bit_dynCode32bit (hw : w.Wf) {k maxbits : Nat} (hk : 0 < k) (hk' : k ≤ 32)
    (hmaxbits : maxbits ≤ 32) {n : BitVec 32} (hn : n.toNat < 2 ^ maxbits) :
    ∃ width ≤ 41, Coded w (dynCode32bit w (2 ^ k - 1) k n maxbits)
      (dynGet32bit (2 ^ k - 1) k maxbits) n width := by
  have htwo : 2 ≤ 2 ^ k := Nat.le_self_pow hk.ne' 2
  have hm : 2 ^ k - 1 ≠ 0 := by omega
  cases hshort : putShort w (2 ^ k - 1) k n.toNat maxPrefix32 25 with
  | some w' =>
      have hwrite : dynCode32bit w (2 ^ k - 1) k n maxbits = w' := by
        simp only [dynCode32bit, if_neg hm, hshort]
      rcases shortCode_of_putShort hw (by omega) (by omega) (by omega) hshort with
        ⟨hones, hwidth, ⟨hcode⟩⟩
      rcases hcode.keeps with ⟨hwf, hle, hkeeps⟩
      rw [hwrite]
      refine ⟨w'.length - w.length, by omega, hwf, by omega, hkeeps, ?_⟩
      intro r hr hfollows
      rcases hcode.reads hones hk' hr hfollows with ⟨hcount, hquotient, hread⟩
      have hfew : ¬ maxPrefix32 ≤ n.toNat / (2 ^ k - 1) := by omega
      simp only [dynGet32bit, hcount, if_neg hfew]
      by_cases hone : k = 1
      · -- The divisor is one, so the code ends behind its zero.
        subst hone
        have hlast := (hcode.zero (Nat.mod_one _)).length
        rw [hcode.stop.length, hcode.quotient.length] at hlast
        rw [if_pos rfl]
        refine ⟨hlast ▸ hquotient, ?_⟩
        simp
      · rw [if_neg hone]
        exact ⟨hread.1, by rw [hread.2, BitVec.ofNat_toNat, BitVec.setWidth_eq]⟩
  | none =>
      have hwrite : dynCode32bit w (2 ^ k - 1) k n maxbits =
          (putSingles maxPrefix32 w).putLong maxbits (n.setWidth 64) := by
        simp only [dynCode32bit, if_neg hm, hshort, min_eq_left hmaxbits]
      have hones := putSingles_appends hw maxPrefix32
      have hraw := hones.wf.putLong (show maxbits ≤ 64 by omega) (n.setWidth 64)
      have hboth := hones.trans hraw
      rw [hwrite]
      refine ⟨maxPrefix32 + maxbits, by unfold maxPrefix32; omega, hboth.wf, hboth.length,
        hboth.keeps, ?_⟩
      intro r hr hfollows
      rcases getLong_of_escaped hones hraw (by omega) hr hfollows with ⟨hcount, hmove, hvalue⟩
      rw [BitVec.toNat_setWidth, Nat.mod_eq_of_lt (by omega : n.toNat < 2 ^ 64),
        Nat.mod_eq_of_lt hn] at hvalue
      simp only [dynGet32bit, hcount, le_refl, if_true, min_eq_left hmaxbits]
      refine ⟨hmove, ?_⟩
      apply BitVec.eq_of_toNat_eq
      rw [BitVec.toNat_setWidth, hvalue, Nat.mod_eq_of_lt n.isLt]

/-- The length of a run comes back from its code. -/
theorem dynGet16bit_dynCode16bit (hw : w.Wf) {m k : Nat} (hmk : m < 2 ^ k) (hk' : k ≤ 32)
    {n : BitVec 32} (hn : n.toNat < 2 ^ maxDatatypeBits16) :
    ∃ width ≤ 25, Coded w (dynCode16bit w m k n) (dynGet16bit m k) n width := by
  have hescape : dynCode16bit w m k n = (putSingles maxPrefix16 w).put maxDatatypeBits16 n →
      ∃ width ≤ 25, Coded w (dynCode16bit w m k n) (dynGet16bit m k) n width := by
    intro hwrite
    have hones := putSingles_appends hw maxPrefix16
    have hraw := hones.wf.put (show maxDatatypeBits16 ≤ 32 by decide) n
    have hboth := hones.trans hraw
    rw [hwrite]
    refine ⟨maxPrefix16 + maxDatatypeBits16, by decide, hboth.wf, hboth.length, hboth.keeps, ?_⟩
    intro r hr hfollows
    rcases getLong_of_escaped hones hraw (by decide) hr hfollows with ⟨hcount, hmove, hvalue⟩
    rw [Nat.mod_eq_of_lt hn] at hvalue
    simp only [dynGet16bit, hcount, le_refl, if_true]
    refine ⟨hmove, ?_⟩
    apply BitVec.eq_of_toNat_eq
    rw [BitVec.toNat_setWidth, hvalue, Nat.mod_eq_of_lt n.isLt]
  by_cases hm : m = 0
  · exact hescape (by simp only [dynCode16bit, if_pos hm])
  cases hshort : putShort w m k n.toNat maxPrefix16 (maxPrefix16 + maxDatatypeBits16) with
  | some w' =>
      have hwrite : dynCode16bit w m k n = w' := by
        simp only [dynCode16bit, if_neg hm, hshort]
      rcases shortCode_of_putShort hw (Nat.pos_of_ne_zero hm) hmk (by decide) hshort with
        ⟨hones, hwidth, ⟨hcode⟩⟩
      rcases hcode.keeps with ⟨hwf, hle, hkeeps⟩
      have hk : k ≠ 0 := by
        intro hzero
        rw [hzero, pow_zero] at hmk
        omega
      have hwidest : maxPrefix16 + maxDatatypeBits16 = 25 := rfl
      rw [hwrite]
      refine ⟨w'.length - w.length, by omega, hwf, by omega, hkeeps, ?_⟩
      intro r hr hfollows
      rcases hcode.reads hones hk' hr hfollows with ⟨hcount, -, hread⟩
      have hfew : ¬ maxPrefix16 ≤ n.toNat / m := by omega
      simp only [dynGet16bit, hcount, if_neg hfew, if_neg hk]
      exact ⟨hread.1, by rw [hread.2, BitVec.ofNat_toNat, BitVec.setWidth_eq]⟩
  | none => exact hescape (by simp only [dynCode16bit, if_neg hm, hshort])

end Alac
end Vaco
