import Vaco.Bitstream.Golomb

/-!
# Checked and higher-order Exp-Golomb reads

A checked read puts a ceiling on the value and says why it refused: whether the data
ended, the prefix was impossible, or the value was too large.  A code of order `k`
carries `k` more bits behind its prefix than a plain one.

Both are compared with what the bits at the position say: how many zeros there are, where
the code ends and which number it stands for.

Main results:

- `zerosAt_zeros` and `zerosAt_one`: the counted zeros are zeros, and fewer than 32 of them end at a
  one bit.
- `BitReader.At.ue_codeValue`: an unsigned read returns the number of the code at the position and
  moves behind it.
- `BitReader.At.golombK`: a read of order `k` returns its number modulo the range of the result.
- `golombK_exact`: it returns the number itself, or marks the reader, exactly when the number fits
  and no checked shift is too wide.
- `checked_reads_exact`: a checked read gives the verdict of the data exactly when no impossible
  prefix lies inside the data and no reader already in error passes the end.

Current gaps:

- The read that widens to 64 bits is not modelled.
-/

namespace Vaco
namespace Bitstream

open Library BitStream

/-- What went wrong while reading a bitstream. -/
inductive BitstreamError where
  | overrun
  | malformed
  | valueTooLarge (value max : Nat)
deriving DecidableEq

/-- Shift left: a shift by 32 or more panics where overflow is checked, or shifts by the low five
bits. -/
def shlU32 (checks : Bool) (v : BitVec 32) (n : Nat) : Option (BitVec 32) :=
  if n < 32 then some (v <<< n)
  else if checks then none
  else some (v <<< (n % 32))

namespace BitReader

/-- Read an unsigned Exp-Golomb value with an inclusive ceiling. -/
def ueMax (r : BitReader) (max : BitVec 32) :
    BitReader × Except BitstreamError (BitVec 32) :=
  let before := r.overrun
  let (r, v) := r.ue
  if !before && r.overrun then
    (r, .error (if r.bitsLeft = 0 then .overrun else .malformed))
  else if max < v then
    (r, .error (.valueTooLarge v.toNat max.toNat))
  else
    (r, .ok v)

/-- Read a signed Exp-Golomb value with an inclusive range. -/
def seRange (r : BitReader) (min max : BitVec 32) :
    BitReader × Except BitstreamError (BitVec 32) :=
  let before := r.overrun
  let (r, v) := r.se
  if !before && r.overrun then
    (r, .error .overrun)
  else if v.toInt < min.toInt ∨ max.toInt < v.toInt then
    (r, .error (.valueTooLarge v.toInt.natAbs max.toInt.natAbs))
  else
    (r, .ok v)

def ueGolombK (checks : Bool) (r : BitReader) (k : Nat) : Option (BitReader × BitVec 32) :=
  if k = 0 then
    some r.ue
  else
    let (r, window) := r.peek 32
    let lz := leadingZeros window
    if 31 < lz ∨ 32 < lz + k then
      some (r.flagMalformed, 0)
    else
      let (r, suffix) := (r.skip (lz + 1)).get (lz + k)
      (shlU32 checks ((1#32 <<< lz) - 1#32) k).map fun base => (r, base + suffix)

end BitReader

/-! ## The code at a position -/

variable {bits : Nat → Bool} {p : Nat}

/-- The zeros at a position, counted up to 32. -/
def zerosAt (bits : Nat → Bool) (p : Nat) : Nat :=
  32 - (number bits p 32).size

/-- The bits behind the one bit that ends the zeros at a position. -/
def suffixAt (bits : Nat → Bool) (p n : Nat) : Nat :=
  number bits (p + (zerosAt bits p + 1)) n

/-- The number that the code at a position stands for. -/
def codeValue (bits : Nat → Bool) (p : Nat) : Nat :=
  2 ^ zerosAt bits p - 1 + suffixAt bits p (zerosAt bits p)

/-- The number that the code of order `k` at a position stands for. -/
def codeValueK (bits : Nat → Bool) (p k : Nat) : Nat :=
  (2 ^ zerosAt bits p - 1) * 2 ^ k + suffixAt bits p (zerosAt bits p + k)

theorem zerosAt_le : zerosAt bits p ≤ 32 :=
  Nat.sub_le _ _

theorem zerosAt_split {n : Nat} (hn : n ≤ 31) (hsize : (number bits p 32).size = n + 1) :
    number bits p (31 - n) = 0 ∧ bits (p + (31 - n)) = true := by
  have hge : 2 ^ n ≤ number bits p 32 := Nat.lt_size.mp (by omega)
  have hlt : number bits p 32 < 2 ^ (n + 1) := hsize ▸ Nat.lt_size_self _
  have hlength : 31 - n + (n + 1) = 32 := by omega
  rcases leading_split hge hlt (by rw [hlength]) with ⟨hzeros, hone, -⟩
  exact ⟨hzeros, hone⟩

/-- The counted zeros are zeros. -/
theorem zerosAt_zeros (bits : Nat → Bool) (p : Nat) : number bits p (zerosAt bits p) = 0 := by
  have hle : (number bits p 32).size ≤ 32 := Nat.size_le.mpr (number_lt bits p 32)
  cases hsize : (number bits p 32).size with
  | zero =>
      rw [zerosAt, hsize]
      exact Nat.size_eq_zero.mp hsize
  | succ n =>
      have hcount : zerosAt bits p = 31 - n := by
        rw [zerosAt, hsize]
        omega
      rw [hcount]
      exact (zerosAt_split (by omega) hsize).1

/-- Fewer than 32 zeros end at a one bit. -/
theorem zerosAt_one (h : zerosAt bits p < 32) : bits (p + zerosAt bits p) = true := by
  have hle : (number bits p 32).size ≤ 32 := Nat.size_le.mpr (number_lt bits p 32)
  cases hsize : (number bits p 32).size with
  | zero =>
      rw [zerosAt, hsize] at h
      omega
  | succ n =>
      have hcount : zerosAt bits p = 31 - n := by
        rw [zerosAt, hsize]
        omega
      rw [hcount]
      exact (zerosAt_split (by omega) hsize).2

namespace BitReader

variable {r : BitReader}

theorem At.leadingZeros_eq (h : r.At p) :
    leadingZeros (r.peek 32).2 = zerosAt (ofBytes r.data.bytes) p := by
  rw [leadingZeros, (h.peek (le_refl 32)).2, zerosAt]

/-- An unsigned read returns the number of the code at the position and moves behind
it. -/
theorem At.ue_codeValue (h : r.At p) (hz : zerosAt (ofBytes r.data.bytes) p < 32) :
    r.MovesTo r.ue.1 (p + (2 * zerosAt (ofBytes r.data.bytes) p + 1)) ∧
      r.ue.2.toNat = codeValue (ofBytes r.data.bytes) p := by
  have hread := h.ue (Nat.lt_succ_iff.mp hz) (zerosAt_zeros _ p) (zerosAt_one hz)
  have hend : p + (zerosAt (ofBytes r.data.bytes) p + 1) + zerosAt (ofBytes r.data.bytes) p =
      p + (2 * zerosAt (ofBytes r.data.bytes) p + 1) := by omega
  exact ⟨hend ▸ hread.1, hread.2⟩

theorem At.ue_zeros (h : r.At p) (hz : zerosAt (ofBytes r.data.bytes) p = 32) :
    r.ue.1.flagged = true := by
  have hzeros := zerosAt_zeros (ofBytes r.data.bytes) p
  rw [hz] at hzeros
  exact (h.ue_malformed hzeros).2.1

/-! ## Codes of a higher order -/

/-- A code that announces at most 32 bits is read modulo the range of the result. -/
theorem At.golombK (h : r.At p) {k : Nat} (hk : 0 < k)
    (hz : zerosAt (ofBytes r.data.bytes) p ≤ 31)
    (hsum : zerosAt (ofBytes r.data.bytes) p + k ≤ 32) (hshift : k < 32) (checks : Bool) :
    ∃ r' v, r.ueGolombK checks k = some (r', v) ∧ r'.flagged = r.flagged ∧
      v.toNat = codeValueK (ofBytes r.data.bytes) p k % 2 ^ 32 := by
  have hpeek := (h.peek (le_refl 32)).1
  have hskip := hpeek.trans (hpeek.at_pos.skip (zerosAt (ofBytes r.data.bytes) p + 1))
  rcases hskip.at_pos.get hsum with ⟨hget, hsuffix⟩
  rw [hskip.data] at hsuffix
  have hlow := toNat_lowMask (show zerosAt (ofBytes r.data.bytes) p < 32 by omega)
  have hguard : ¬(31 < zerosAt (ofBytes r.data.bytes) p ∨
      32 < zerosAt (ofBytes r.data.bytes) p + k) := by omega
  rw [ueGolombK, if_neg hk.ne']
  dsimp only
  rw [h.leadingZeros_eq, if_neg hguard, shlU32, if_pos hshift]
  refine ⟨_, _, rfl, (hskip.trans hget).flagged, ?_⟩
  rw [BitVec.toNat_add, BitVec.toNat_shiftLeft, hlow, hsuffix, Nat.shiftLeft_eq, Nat.mod_add_mod]
  rfl

theorem At.golombK_refused (h : r.At p) {k : Nat} (hk : 0 < k)
    (hsum : 31 < zerosAt (ofBytes r.data.bytes) p ∨
      32 < zerosAt (ofBytes r.data.bytes) p + k) (checks : Bool) :
    ∃ r', r.ueGolombK checks k = some (r', 0) ∧ r'.flagged = true := by
  rw [ueGolombK, if_neg hk.ne']
  dsimp only
  rw [h.leadingZeros_eq, if_pos hsum]
  exact ⟨_, rfl, rfl⟩

theorem At.golombK_widest_checked (h : r.At p) (hz : zerosAt (ofBytes r.data.bytes) p = 0) :
    r.ueGolombK true 32 = none := by
  unfold ueGolombK
  rw [if_neg (by decide)]
  dsimp only
  rw [h.leadingZeros_eq, hz, if_neg (by decide)]
  rfl

theorem At.golombK_widest_unchecked (h : r.At p) (hz : zerosAt (ofBytes r.data.bytes) p = 0) :
    ∃ r' v, r.ueGolombK false 32 = some (r', v) ∧
      v.toNat = codeValueK (ofBytes r.data.bytes) p 32 := by
  have hpeek := (h.peek (le_refl 32)).1
  have hskip := hpeek.trans (hpeek.at_pos.skip 1)
  have hsuffix := (hskip.at_pos.get (le_refl 32)).2
  rw [hskip.data] at hsuffix
  unfold ueGolombK
  rw [if_neg (by decide)]
  dsimp only
  rw [h.leadingZeros_eq, hz, if_neg (by decide), shlU32, if_neg (lt_irrefl 32),
    if_neg Bool.false_ne_true]
  refine ⟨_, _, rfl, ?_⟩
  rw [codeValueK, suffixAt, hz]
  simpa using hsuffix

/-! ## Checked reads -/

theorem bitsLeft_eq_zero (h : r.overrun = true) : r.bitsLeft = 0 := by
  rw [overrun, Bool.or_eq_true, decide_eq_true_iff] at h
  unfold bitsLeft
  split
  · rfl
  · rename_i hflagged
    have := h.resolve_left hflagged
    omega

theorem ueMax_eq (r : BitReader) (max : BitVec 32) :
    (r.ueMax max).2 =
      if !r.overrun && r.ue.1.overrun then .error .overrun
      else if max < r.ue.2 then .error (.valueTooLarge r.ue.2.toNat max.toNat)
      else .ok r.ue.2 := by
  unfold ueMax
  dsimp only
  split
  · rename_i hended
    rw [bitsLeft_eq_zero (Bool.and_eq_true_iff.mp hended).2]
    rfl
  · split <;> rfl

theorem seRange_eq (r : BitReader) (min max : BitVec 32) :
    (r.seRange min max).2 =
      if !r.overrun && r.ue.1.overrun then .error .overrun
      else if (seValue r.ue.2).toInt < min.toInt ∨ max.toInt < (seValue r.ue.2).toInt then
        .error (.valueTooLarge (seValue r.ue.2).toInt.natAbs max.toInt.natAbs)
      else .ok (seValue r.ue.2) := by
  unfold seRange se
  dsimp only
  split
  · rfl
  · split <;> rfl

/-- The signed number of a code number. -/
def signedOf (code : Nat) : Int :=
  if code % 2 = 1 then (code + 1) / 2 else -(code / 2)

theorem toInt_seValue {k : BitVec 32} (h : k.toNat ≤ 4294967294) :
    (seValue k).toInt = signedOf k.toNat := by
  rw [BitVec.toInt_eq_toNat_cond, toNat_seValue, signedOf]
  split
  · rw [if_pos (by omega)]
    omega
  · split <;> omega

theorem codeValue_le {bits : Nat → Bool} (hz : zerosAt bits p < 32) :
    codeValue bits p ≤ 4294967294 := by
  have hsuffix := number_lt bits (p + (zerosAt bits p + 1)) (zerosAt bits p)
  have hpow : 2 ^ zerosAt bits p ≤ 2 ^ 31 := Nat.pow_le_pow_right (by decide) (by omega)
  rw [codeValue, suffixAt]
  omega

/-- Whether the prefix of the code at the position is impossible, inside the data. -/
def ZerosInside (r : BitReader) (p : Nat) : Prop :=
  zerosAt (ofBytes r.data.bytes) p = 32 ∧ r.bitPos + 32 ≤ r.logicalBits

/-- Whether the code at the position, or a prefix without end, passes the end of the data. -/
def PassesEnd (r : BitReader) (p : Nat) : Prop :=
  if zerosAt (ofBytes r.data.bytes) p = 32 then r.logicalBits < r.bitPos + 32
  else r.logicalBits < r.ue.1.bitPos

instance (r : BitReader) (p : Nat) : Decidable (ZerosInside r p) :=
  inferInstanceAs (Decidable (_ ∧ _))

instance (r : BitReader) (p : Nat) : Decidable (PassesEnd r p) :=
  inferInstanceAs (Decidable (ite _ _ _))

theorem At.ended_iff (h : r.At p) :
    (!r.overrun && r.ue.1.overrun) = true ↔
      r.overrun = false ∧ (PassesEnd r p ∨ ZerosInside r p) := by
  rw [Bool.and_eq_true, Bool.not_eq_true']
  refine and_congr_right fun hsound => ?_
  rw [overrun, Bool.or_eq_false_iff] at hsound
  rw [overrun, Bool.or_eq_true, decide_eq_true_iff, PassesEnd, ZerosInside]
  by_cases hz : zerosAt (ofBytes r.data.bytes) p = 32
  · simp only [h.ue_zeros hz, hz, true_or, if_true, true_and, true_iff]
    exact Nat.lt_or_ge _ _
  · have hmove := (h.ue_codeValue (lt_of_le_of_ne zerosAt_le hz)).1
    simp only [hmove.flagged, hmove.logicalBits, hsound.1, hz, Bool.false_eq_true, false_or,
      if_false, false_and, or_false]

/-- Below the largest position, that is where the code, or its 32 zeros, ends behind the data. -/
theorem At.passesEnd_iff (h : r.At p) (hp : p + 128 ≤ u64Max) :
    PassesEnd r p ↔ r.logicalBits < p + (if zerosAt (ofBytes r.data.bytes) p = 32 then 32
      else 2 * zerosAt (ofBytes r.data.bytes) p + 1) := by
  rw [PassesEnd]
  split
  · rw [h.bitPos_eq (by omega)]
  · rename_i hz
    have hle := @zerosAt_le (ofBytes r.data.bytes) p
    have hmove := (h.ue_codeValue (lt_of_le_of_ne hle hz)).1
    rw [hmove.at_pos.bitPos_eq (by omega)]

/-- The verdict of the data on a checked read: an impossible prefix inside the data, a code
that passes the end, or what the value deserves. -/
def verdict {α : Type} (r : BitReader) (p : Nat) (deserved : Except BitstreamError α) :
    Except BitstreamError α :=
  if ZerosInside r p then .error .malformed
  else if PassesEnd r p then .error .overrun
  else deserved

def ueVerdict (r : BitReader) (p max : Nat) : Except BitstreamError Nat :=
  let value := codeValue (ofBytes r.data.bytes) p
  verdict r p (if max < value then .error (.valueTooLarge value max) else .ok value)

def seVerdict (r : BitReader) (p : Nat) (min max : Int) : Except BitstreamError Int :=
  let value := signedOf (codeValue (ofBytes r.data.bytes) p)
  verdict r p (if value < min ∨ max < value then
    .error (.valueTooLarge value.natAbs max.natAbs) else .ok value)

/-- A read that judges its value gives the verdict of the data exactly when no impossible prefix
lies inside the data and no reader already in error passes the end. -/
theorem At.verdict_iff {α : Type} (h : r.At p) {judged deserved : Except BitstreamError α}
    (hjudged : zerosAt (ofBytes r.data.bytes) p < 32 → judged = deserved)
    (hmalformed : judged ≠ .error .malformed) (hoverrun : judged ≠ .error .overrun) :
    (if !r.overrun && r.ue.1.overrun then .error .overrun else judged) = verdict r p deserved ↔
      ¬ ZerosInside r p ∧ (r.overrun = true → ¬ PassesEnd r p) := by
  rw [verdict]
  by_cases hinside : ZerosInside r p
  · simp only [hinside, if_true, not_true_eq_false, false_and, iff_false]
    split
    · simp
    · exact hmalformed
  · have hended := h.ended_iff
    simp only [hinside, or_false] at hended
    simp only [hended, hinside, if_false, not_false_eq_true, true_and]
    by_cases hpasses : PassesEnd r p
    · cases hbefore : r.overrun with
      | true => simpa [hpasses] using hoverrun
      | false => simp [hpasses]
    · have hz : zerosAt (ofBytes r.data.bytes) p < 32 := by
        refine lt_of_le_of_ne zerosAt_le fun hz => ?_
        rw [ZerosInside] at hinside
        rw [PassesEnd, if_pos hz] at hpasses
        omega
      simp [hpasses, hjudged hz]

theorem At.ueMax_iff (h : r.At p) (max : BitVec 32) :
    (r.ueMax max).2.map BitVec.toNat = ueVerdict r p max.toNat ↔
      ¬ ZerosInside r p ∧ (r.overrun = true → ¬ PassesEnd r p) := by
  have hread : (r.ueMax max).2.map BitVec.toNat =
      if !r.overrun && r.ue.1.overrun then .error .overrun
      else if max.toNat < r.ue.2.toNat then .error (.valueTooLarge r.ue.2.toNat max.toNat)
      else .ok r.ue.2.toNat := by
    rw [ueMax_eq]
    split
    · rfl
    · simp only [BitVec.lt_def]
      split <;> rfl
  rw [hread, ueVerdict]
  refine h.verdict_iff (fun hz => ?_) ?_ ?_
  · rw [(h.ue_codeValue hz).2]
  · split <;> simp
  · split <;> simp

theorem At.seRange_iff (h : r.At p) (min max : BitVec 32) :
    (r.seRange min max).2.map BitVec.toInt = seVerdict r p min.toInt max.toInt ↔
      ¬ ZerosInside r p ∧ (r.overrun = true → ¬ PassesEnd r p) := by
  have hread : (r.seRange min max).2.map BitVec.toInt =
      if !r.overrun && r.ue.1.overrun then .error .overrun
      else if (seValue r.ue.2).toInt < min.toInt ∨ max.toInt < (seValue r.ue.2).toInt then
        .error (.valueTooLarge (seValue r.ue.2).toInt.natAbs max.toInt.natAbs)
      else .ok (seValue r.ue.2).toInt := by
    rw [seRange_eq]
    split
    · rfl
    · split <;> rfl
  rw [hread, seVerdict]
  refine h.verdict_iff (fun hz => ?_) ?_ ?_
  · have hvalue := (h.ue_codeValue hz).2
    rw [toInt_seValue (hvalue ▸ codeValue_le hz), hvalue]
  · split <;> simp
  · split <;> simp

end BitReader

/-- The number of a code of order `k` is too large for 32 bits although the code announces no more.
-/
def WrapsAt (bits : Nat → Bool) (p k : Nat) : Prop :=
  0 < k ∧ zerosAt bits p ≤ 31 ∧ zerosAt bits p + k = 32 ∧ 2 ^ k ≤ suffixAt bits p 32

instance (bits : Nat → Bool) (p k : Nat) : Decidable (WrapsAt bits p k) :=
  inferInstanceAs (Decidable (_ ∧ _))

theorem codeValueK_lt {k : Nat} (hsum : zerosAt bits p + k ≤ 31) :
    codeValueK bits p k < 2 ^ 32 := by
  have hsuffix := number_lt bits (p + (zerosAt bits p + 1)) (zerosAt bits p + k)
  have hprefix : (2 ^ zerosAt bits p - 1) * 2 ^ k ≤ 2 ^ (zerosAt bits p + k) := by
    rw [Nat.pow_add]
    exact Nat.mul_le_mul_right _ (Nat.sub_le _ _)
  have hpow : 2 ^ (zerosAt bits p + k) ≤ 2 ^ 31 := Nat.pow_le_pow_right (by decide) hsum
  rw [codeValueK, suffixAt]
  omega

theorem codeValueK_lt_iff {k : Nat} (hsum : zerosAt bits p + k = 32) :
    codeValueK bits p k < 2 ^ 32 ↔ suffixAt bits p 32 < 2 ^ k := by
  have hcard : 2 ^ zerosAt bits p * 2 ^ k = 2 ^ 32 := by rw [← Nat.pow_add, hsum]
  have hle : 2 ^ k ≤ 2 ^ 32 := Nat.pow_le_pow_right (by decide) (by omega)
  rw [codeValueK, hsum, Nat.sub_mul, hcard, Nat.one_mul]
  omega

/-- A read of order `k` returns the number of the code at its position, or leaves the
reader marked. -/
def ReadsCodeK (r : BitReader) (p k : Nat) (out : Option (BitReader × BitVec 32)) : Prop :=
  ∃ r' v, out = some (r', v) ∧
    (v.toNat = codeValueK (ofBytes r.data.bytes) p k ∨ r'.flagged = true)

theorem codeValueK_zero (bits : Nat → Bool) (p : Nat) : codeValueK bits p 0 = codeValue bits p := by
  rw [codeValueK, codeValue, Nat.pow_zero, Nat.mul_one, Nat.add_zero]

theorem readsCodeK_zero {r : BitReader} (h : r.At p) (checks : Bool) :
    ReadsCodeK r p 0 (r.ueGolombK checks 0) := by
  refine ⟨r.ue.1, r.ue.2, rfl, ?_⟩
  rcases Nat.lt_or_ge (zerosAt (ofBytes r.data.bytes) p) 32 with hz | hz
  · left
    rw [codeValueK_zero]
    exact (h.ue_codeValue hz).2
  · right
    exact h.ue_zeros (le_antisymm zerosAt_le hz)

/-- A read of order `k` is exact or marks the reader exactly when that was marked or the number
fits. -/
theorem readsCodeK_iff {r : BitReader} (h : r.At p) {k : Nat} (hk : 0 < k) (hk' : k < 32)
    (checks : Bool) :
    ReadsCodeK r p k (r.ueGolombK checks k) ↔
      (r.flagged = true ∨ ¬ WrapsAt (ofBytes r.data.bytes) p k) := by
  by_cases hrefused : 31 < zerosAt (ofBytes r.data.bytes) p ∨
      32 < zerosAt (ofBytes r.data.bytes) p + k
  · rcases h.golombK_refused hk hrefused checks with ⟨r', hread, hflagged⟩
    have hfits : ¬ WrapsAt (ofBytes r.data.bytes) p k := by
      rintro ⟨-, hz, hsum, -⟩
      omega
    exact ⟨fun _ => Or.inr hfits, fun _ => ⟨r', 0, hread, Or.inr hflagged⟩⟩
  · have hz : zerosAt (ofBytes r.data.bytes) p ≤ 31 := by omega
    rcases h.golombK hk hz (by omega) hk' checks with ⟨r', v, hread, hflagged, hvalue⟩
    have hfits : v.toNat = codeValueK (ofBytes r.data.bytes) p k ↔
        ¬ WrapsAt (ofBytes r.data.bytes) p k := by
      rcases Nat.lt_or_ge (zerosAt (ofBytes r.data.bytes) p + k) 32 with hshort | hfull
      · have hlt : codeValueK (ofBytes r.data.bytes) p k < 2 ^ 32 := codeValueK_lt (by omega)
        rw [hvalue, Nat.mod_eq_of_lt hlt]
        refine ⟨?_, fun _ => rfl⟩
        rintro - ⟨-, -, hsum, -⟩
        omega
      · have hsum : zerosAt (ofBytes r.data.bytes) p + k = 32 := by omega
        rw [hvalue, WrapsAt, Nat.mod_eq_iff_lt (by decide), codeValueK_lt_iff hsum]
        simp only [hk, hz, hsum, true_and, not_le]
    rw [ReadsCodeK, ← hfits, ← hflagged, hread]
    constructor
    · rintro ⟨r'', v', hout, hlaw⟩
      cases hout
      exact hlaw.symm
    · exact fun hlaw => ⟨r', v, rfl, hlaw.symm⟩

theorem readsCodeK_widest_iff {r : BitReader} (h : r.At p) (checks : Bool) :
    ReadsCodeK r p 32 (r.ueGolombK checks 32) ↔
      ¬(checks = true ∧ zerosAt (ofBytes r.data.bytes) p = 0) := by
  by_cases hz : zerosAt (ofBytes r.data.bytes) p = 0
  · cases checks with
    | true => simp [ReadsCodeK, h.golombK_widest_checked hz, hz]
    | false =>
        rcases h.golombK_widest_unchecked hz with ⟨r', v, hread, hvalue⟩
        exact ⟨fun _ => by simp, fun _ => ⟨r', v, hread, Or.inl hvalue⟩⟩
  · rcases h.golombK_refused (show 0 < 32 by decide) (Or.inr (by omega)) checks with
      ⟨r', hread, hflagged⟩
    exact ⟨fun _ => fun hwide => hz hwide.2, fun _ => ⟨r', 0, hread, Or.inr hflagged⟩⟩

theorem not_wrapsAt_widest : ¬ WrapsAt bits p 32 := by
  rintro ⟨-, -, -, hsuffix⟩
  have hlt := number_lt bits (p + (zerosAt bits p + 1)) 32
  rw [suffixAt] at hsuffix
  omega

/-- A read of order `k` is exact or marks the reader exactly when a checked build does not shift by
the whole width and, on a reader not marked before, the number fits. -/
theorem golombK_exact (checks : Bool) (r : BitReader) (p k : Nat) (h : r.At p) (hk : k ≤ 32) :
    ReadsCodeK r p k (r.ueGolombK checks k) ↔
      ¬(checks = true ∧ k = 32 ∧ zerosAt (ofBytes r.data.bytes) p = 0) ∧
        (r.flagged = true ∨ ¬ WrapsAt (ofBytes r.data.bytes) p k) := by
  rcases Nat.eq_zero_or_pos k with rfl | hpos
  · have hfits : ¬ WrapsAt (ofBytes r.data.bytes) p 0 := fun hwraps => absurd hwraps.1 (by decide)
    exact ⟨fun _ => ⟨by simp, Or.inr hfits⟩, fun _ => readsCodeK_zero h checks⟩
  · rcases Nat.lt_or_ge k 32 with hlt | hge
    · rw [readsCodeK_iff h hpos hlt checks]
      exact ⟨fun hlaw => ⟨fun hwide => absurd hwide.2.1 hlt.ne, hlaw⟩, fun hlaw => hlaw.2⟩
    · obtain rfl : k = 32 := le_antisymm hk hge
      rw [readsCodeK_widest_iff h checks]
      exact ⟨fun hlaw => ⟨fun hwide => hlaw ⟨hwide.1, hwide.2.2⟩, Or.inr not_wrapsAt_widest⟩,
        fun hlaw hwide => hlaw.1 ⟨hwide.1, rfl, hwide.2⟩⟩

/-- A one bit and a one and a zero behind it. -/
def shortCode : Slice where
  bytes := [0xC0]
  length_lt := Nat.le_of_ble_eq_true rfl

/-- Behind one bit, an order of two reads two bits as they are. -/
theorem golombK_exact_two :
    ReadsCodeK (BitReader.new shortCode) 0 2 ((BitReader.new shortCode).ueGolombK true 2) :=
  (golombK_exact true (BitReader.new shortCode) 0 2 (BitReader.at_start _ _)
    (Nat.le_of_ble_eq_true rfl)).mpr ⟨by decide, Or.inr (by decide +kernel)⟩

/-- 31 zeros and 33 ones. -/
def longCode : Slice where
  bytes := [0, 0, 0, 1, 255, 255, 255, 255]
  length_lt := Nat.le_of_ble_eq_true rfl

/-- Behind 31 zeros, a code of order one with its bits set wraps. -/
theorem golombK_wraps :
    ¬∀ (checks : Bool) (r : BitReader) (p k : Nat), r.At p → k ≤ 32 →
      ReadsCodeK r p k (r.ueGolombK checks k) := by
  intro h
  have hat : (BitReader.new longCode).At 0 := BitReader.at_start _ _
  have hread := h false _ 0 1 hat (by decide)
  rw [readsCodeK_iff hat (by decide) (by decide)] at hread
  exact absurd hread (by decide +kernel)

open BitReader

/-- Checked reads give the verdict of the data exactly when no impossible prefix lies inside it and
the code passes the end only of a reader that was not in error. -/
theorem checked_reads_exact (r : BitReader) (p : Nat) (h : r.At p) :
    (∀ max : BitVec 32, (r.ueMax max).2.map BitVec.toNat = ueVerdict r p max.toNat ↔
      ¬ ZerosInside r p ∧ (r.overrun = true → ¬ PassesEnd r p)) ∧
    (∀ min max : BitVec 32,
      (r.seRange min max).2.map BitVec.toInt = seVerdict r p min.toInt max.toInt ↔
        ¬ ZerosInside r p ∧ (r.overrun = true → ¬ PassesEnd r p)) :=
  ⟨h.ueMax_iff, h.seRange_iff⟩

/-- Both reads of a short code give the verdict of the data. -/
theorem checked_reads_exact_short :
    ((BitReader.new shortCode).ueMax 3).2.map BitVec.toNat =
        ueVerdict (BitReader.new shortCode) 0 3 ∧
      ((BitReader.new shortCode).seRange (-1) 3).2.map BitVec.toInt =
        seVerdict (BitReader.new shortCode) 0 (-1) 3 :=
  have hreads := checked_reads_exact (BitReader.new shortCode) 0 (BitReader.at_start _ _)
  ⟨(hreads.1 3).mpr (by decide +kernel), (hreads.2 (-1) 3).mpr (by decide +kernel)⟩

/-- 32 zeros and a one bit. -/
def impossibleCode : Slice where
  bytes := [0, 0, 0, 0, 128]
  length_lt := Nat.le_of_ble_eq_true rfl

/-- An impossible prefix inside the data is answered as an end of the data. -/
theorem checked_reads_blame_end :
    ¬∀ (r : BitReader) (p : Nat), r.At p →
      (∀ max : BitVec 32, (r.ueMax max).2.map BitVec.toNat = ueVerdict r p max.toNat) ∧
      (∀ min max : BitVec 32,
        (r.seRange min max).2.map BitVec.toInt = seVerdict r p min.toInt max.toInt) := by
  intro h
  have hat : (BitReader.new impossibleCode).At 0 := BitReader.at_start _ _
  have hread := (h _ 0 hat).1 7
  rw [hat.ueMax_iff] at hread
  exact hread.1 (by decide +kernel)

end Bitstream
end Vaco
