import Mathlib.Tactic
import Vaco.Library.BitStream

/-!
# Running checksums over consumed bytes

A checksum in progress is a 32-bit register.  Three kinds share it: two cyclic redundancy checks,
one of each bit order, and Adler-32, whose register packs two sums.

Main results:

- `Checksum.update_append`: bytes may be fed in pieces of any size.
-/

namespace Vaco
namespace Io

open Library.BitStream

/-! ## The three registers -/

/-- Shift the reflected register by one bit. -/
def reflectedBit (crc : BitVec 32) : BitVec 32 :=
  (crc >>> 1) ^^^ (0xEDB88320#32 &&& -(crc &&& 1#32))

/-- Feed bytes to the reflected register, eight shifts each. -/
def crc32Reflected (crc : BitVec 32) (data : Bytes) : BitVec 32 :=
  data.foldl (fun crc b => reflectedBit^[8] (crc ^^^ b.setWidth 32)) crc

/-- Shift the forward register by one bit. -/
def forwardBit (crc : BitVec 32) : BitVec 32 :=
  (crc <<< 1) ^^^ (0x04C11DB7#32 &&& -(crc >>> 31))

/-- Feed bytes to the forward register, eight shifts each. -/
def crc32Forward (crc : BitVec 32) (data : Bytes) : BitVec 32 :=
  data.foldl (fun crc b => forwardBit^[8] (crc ^^^ ((b.setWidth 32 : BitVec 32) <<< 24))) crc

/-- The largest prime below 2^16. -/
def adlerBase : BitVec 32 :=
  65521#32

/-- The two sums of an Adler-32 register. -/
def adlerSums (state : BitVec 32) : BitVec 32 × BitVec 32 :=
  (state &&& 0xFFFF#32, (state >>> 16) &&& 0xFFFF#32)

/-- Add a byte to both sums. -/
def adlerByte (sums : BitVec 32 × BitVec 32) (byte : BitVec 8) : BitVec 32 × BitVec 32 :=
  let a := (sums.1 + byte.setWidth 32) % adlerBase
  (a, (sums.2 + a) % adlerBase)

/-- The register that packs two sums. -/
def adlerPack (sums : BitVec 32 × BitVec 32) : BitVec 32 :=
  (sums.2 <<< 16) ||| sums.1

/-- Feed bytes to an Adler-32 register. -/
def adler32 (state : BitVec 32) (data : Bytes) : BitVec 32 :=
  adlerPack (data.foldl adlerByte (adlerSums state))

/-- Both sums fit their half of the register. -/
def AdlerFits (sums : BitVec 32 × BitVec 32) : Prop :=
  sums.1.toNat < 65536 ∧ sums.2.toNat < 65536

theorem toNat_adlerSums (state : BitVec 32) :
    (adlerSums state).1.toNat = state.toNat % 65536 ∧
      (adlerSums state).2.toNat = state.toNat / 65536 % 65536 := by
  have hmask : ∀ n : Nat, n &&& 65535 = n % 65536 := fun n =>
    Nat.and_two_pow_sub_one_eq_mod n 16
  refine ⟨?_, ?_⟩
  · rw [adlerSums, BitVec.toNat_and]
    exact hmask _
  · rw [adlerSums, BitVec.toNat_and, BitVec.toNat_ushiftRight, Nat.shiftRight_eq_div_pow]
    exact hmask _

theorem adlerFits_sums (state : BitVec 32) : AdlerFits (adlerSums state) := by
  rcases toNat_adlerSums state with ⟨ha, hb⟩
  rw [AdlerFits, ha, hb]
  omega

theorem adlerFits_byte (sums : BitVec 32 × BitVec 32) (byte : BitVec 8) :
    AdlerFits (adlerByte sums byte) := by
  have hbase : ∀ n, n % 65521 < 65536 := fun n => by omega
  constructor
  · simp only [adlerByte, adlerBase, BitVec.toNat_umod, BitVec.toNat_ofNat]
    exact hbase _
  · simp only [adlerByte, adlerBase, BitVec.toNat_umod, BitVec.toNat_ofNat]
    exact hbase _

theorem adlerFits_foldl {sums : BitVec 32 × BitVec 32} (h : AdlerFits sums) (data : Bytes) :
    AdlerFits (data.foldl adlerByte sums) := by
  induction data generalizing sums with
  | nil => exact h
  | cons byte data ih => exact ih (adlerFits_byte sums byte)

theorem toNat_adlerPack {sums : BitVec 32 × BitVec 32} (h : AdlerFits sums) :
    (adlerPack sums).toNat = sums.2.toNat * 65536 + sums.1.toNat := by
  rcases h with ⟨ha, hb⟩
  have hshift : sums.2.toNat <<< 16 < 2 ^ 32 := by
    rw [Nat.shiftLeft_eq]
    omega
  rw [adlerPack, BitVec.toNat_or, BitVec.toNat_shiftLeft, Nat.mod_eq_of_lt hshift,
    ← Nat.shiftLeft_add_eq_or_of_lt ha, Nat.shiftLeft_eq]

theorem adlerSums_adlerPack {sums : BitVec 32 × BitVec 32} (h : AdlerFits sums) :
    adlerSums (adlerPack sums) = sums := by
  rcases toNat_adlerSums (adlerPack sums) with ⟨ha, hb⟩
  rw [toNat_adlerPack h] at ha hb
  rcases h with ⟨hfirst, hsecond⟩
  exact Prod.ext (BitVec.eq_of_toNat_eq (by omega)) (BitVec.eq_of_toNat_eq (by omega))

theorem adlerPack_adlerSums (state : BitVec 32) : adlerPack (adlerSums state) = state := by
  rcases toNat_adlerSums state with ⟨ha, hb⟩
  have hlt := state.isLt
  apply BitVec.eq_of_toNat_eq
  rw [toNat_adlerPack (adlerFits_sums state), ha, hb]
  omega

/-! ## A checksum in progress -/

/-- Which checksum a region accumulates. -/
inductive ChecksumKind where
  | crc32Ieee
  | crc32Mpeg2
  | adler32
deriving DecidableEq, Repr

/-- A checksum in progress, with the position its region started at. -/
structure Checksum where
  kind : ChecksumKind
  state : BitVec 32
  start : Nat
deriving DecidableEq, Repr

namespace Checksum

/-- Open a region. -/
def new (kind : ChecksumKind) (start : Nat) : Checksum :=
  { kind := kind
    state :=
      match kind with
      | .crc32Ieee => 0xFFFFFFFF#32
      | .crc32Mpeg2 => 0xFFFFFFFF#32
      | .adler32 => 1#32
    start := start }

/-- Feed consumed bytes. -/
def update (c : Checksum) (data : Bytes) : Checksum :=
  { c with
    state :=
      match c.kind with
      | .crc32Ieee => crc32Reflected c.state data
      | .crc32Mpeg2 => crc32Forward c.state data
      | .adler32 => Io.adler32 c.state data }

/-- The value so far, with the final transform of the kind. -/
def value (c : Checksum) : BitVec 64 :=
  match c.kind with
  | .crc32Ieee => (~~~c.state).setWidth 64
  | .crc32Mpeg2 => c.state.setWidth 64
  | .adler32 => c.state.setWidth 64

@[simp]
theorem update_nil (c : Checksum) : c.update [] = c := by
  rcases c with ⟨kind, state, start⟩
  rw [update, mk.injEq]
  refine ⟨rfl, ?_, rfl⟩
  cases kind with
  | crc32Ieee => rfl
  | crc32Mpeg2 => rfl
  | adler32 => exact adlerPack_adlerSums state

/-- Bytes fed in two pieces count as one. -/
theorem update_append (c : Checksum) (first second : Bytes) :
    c.update (first ++ second) = (c.update first).update second := by
  rcases c with ⟨kind, state, start⟩
  cases kind with
  | crc32Ieee => simp only [update, crc32Reflected, List.foldl_append]
  | crc32Mpeg2 => simp only [update, crc32Forward, List.foldl_append]
  | adler32 =>
      have hfits := adlerFits_foldl (adlerFits_sums state) first
      simp only [update, Io.adler32, List.foldl_append, adlerSums_adlerPack hfits]

end Checksum

end Io
end Vaco
