import Vaco.Bitstream.AnnexB
import Vaco.Library.ByteWords

/-!
# The two framings of NAL units

Units stand behind start codes, or each behind its length in one, two or four bytes.  One iterator
goes over both.

Main results:

- `lengthUnits_prefixed`: units that fit their length fields are found again.
-/

namespace Vaco
namespace Nalu

open Library BitStream ByteWords Bitstream

/-- How many bytes a length field takes. -/
structure LengthSize where
  bytes : Nat
  legal : bytes = 1 ∨ bytes = 2 ∨ bytes = 4

theorem four_legal : 4 = 1 ∨ 4 = 2 ∨ 4 = 4 :=
  Or.inr (Or.inr rfl)

/-- Four bytes. -/
def LengthSize.FOUR : LengthSize where
  bytes := 4
  legal := four_legal

/-- The largest length of a unit. -/
def LengthSize.maxUnitLen (size : LengthSize) : Nat :=
  256 ^ size.bytes - 1

/-- How units are delimited. -/
inductive Framing where
  | annexB
  | lengthPrefixed (size : LengthSize)

def lengthUnits (size : LengthSize) (buf : Bytes) : List Bytes :=
  if buf.length < size.bytes then
    []
  else
    let len := beNat (buf.take size.bytes)
    let rest := buf.drop size.bytes
    if len = 0 ∨ rest.length < len then
      []
    else
      rest.take len :: lengthUnits size (rest.drop len)
termination_by buf.length
decreasing_by
  rename_i hlong hlen
  have hrest : rest.length = buf.length - size.bytes := List.length_drop
  rw [List.length_drop, List.length_drop]
  omega

/-- The units of a buffer. -/
def units (buf : Bytes) : Framing → List Bytes
  | .annexB => (nalUnits buf).collect
  | .lengthPrefixed size => lengthUnits size buf

/-! ## Units behind their lengths -/

variable {size : LengthSize} {unit rest buf : Bytes}

theorem LengthSize.bytes_pos (size : LengthSize) : 0 < size.bytes := by
  rcases size.legal with h | h | h <;> omega

/-- Units behind their lengths, one after another. -/
def prefixed (size : LengthSize) (list : List Bytes) : Bytes :=
  list.flatMap fun unit => beBytes size.bytes unit.length ++ unit

theorem prefixed_cons (size : LengthSize) (unit : Bytes) (list : List Bytes) :
    prefixed size (unit :: list) = beBytes size.bytes unit.length ++ (unit ++ prefixed size list) := by
  rw [prefixed, List.flatMap_cons, List.append_assoc]
  rfl

theorem lengthUnits_cons (hpos : unit ≠ []) (hfits : unit.length ≤ size.maxUnitLen) :
    lengthUnits size (beBytes size.bytes unit.length ++ (unit ++ rest)) =
      unit :: lengthUnits size rest := by
  have hlen := length_beBytes size.bytes unit.length
  have hpow := Nat.pow_pos (n := size.bytes) (show 0 < 256 by decide)
  have hvalue : beNat (beBytes size.bytes unit.length) = unit.length := by
    rw [LengthSize.maxUnitLen] at hfits
    exact beNat_beBytes (by omega)
  have hunit := List.length_pos_of_ne_nil hpos
  rw [lengthUnits, if_neg (by rw [List.length_append]; omega), List.take_left' hlen,
    List.drop_left' hlen]
  dsimp only
  rw [hvalue, if_neg (by rw [List.length_append]; omega), List.take_left, List.drop_left]

/-- Units that fit their length fields are found again. -/
theorem lengthUnits_prefixed {list : List Bytes}
    (h : ∀ unit ∈ list, unit ≠ [] ∧ unit.length ≤ size.maxUnitLen) :
    lengthUnits size (prefixed size list) = list := by
  induction list with
  | nil =>
      rw [prefixed, List.flatMap_nil, lengthUnits]
      exact if_pos size.bytes_pos
  | cons unit list ih =>
      rcases List.forall_mem_cons.mp h with ⟨hunit, hlist⟩
      rw [prefixed_cons, lengthUnits_cons hunit.1 hunit.2, ih hlist]

/-- What is found is there and fits its length field. -/
theorem lengthUnits_mem (h : unit ∈ lengthUnits size buf) :
    unit ≠ [] ∧ unit.length ≤ size.maxUnitLen := by
  fun_induction lengthUnits size buf with
  | case1 => cases h
  | case2 => cases h
  | case3 buf hlong len rest hlen ih =>
      rcases List.mem_cons.mp h with rfl | hlater
      · have hlt := beNat_lt (buf.take size.bytes)
        have htake : (rest.take len).length = len := by
          rw [List.length_take]
          omega
        rw [List.length_take, Nat.min_eq_left (by omega)] at hlt
        refine ⟨List.ne_nil_of_length_pos (by omega), ?_⟩
        rw [htake, LengthSize.maxUnitLen]
        exact Nat.le_sub_one_of_lt hlt
      · exact ih hlater

/-! ## Unit headers -/

/-- Which header a unit has. -/
inductive HeaderKind where
  | h264
  | h265
  | h266
deriving DecidableEq

/-- The header of a unit. -/
structure NalHeader where
  kind : HeaderKind
  forbiddenZeroBit : Bool
  nalUnitType : BitVec 8
  nalRefIdc : BitVec 8
  nuhLayerId : BitVec 8
  temporalId : Nat
  temporalIdPlus1 : BitVec 8

/-- Read the header at the front of a unit. -/
def NalHeader.parse (kind : HeaderKind) (nal : Bytes) : Option NalHeader :=
  match kind, nal with
  | .h264, b :: _ => some {
      kind := kind
      forbiddenZeroBit := b &&& 0x80 != 0
      nalUnitType := b &&& 0x1F
      nalRefIdc := (b >>> 5) &&& 0x03
      nuhLayerId := 0
      temporalId := 0
      temporalIdPlus1 := 1 }
  | .h265, a :: b :: _ => some {
      kind := kind
      forbiddenZeroBit := a &&& 0x80 != 0
      nalUnitType := (a >>> 1) &&& 0x3F
      nalRefIdc := 0
      nuhLayerId := ((a &&& 0x01) <<< 5) ||| (b >>> 3)
      temporalId := (b &&& 0x07).toNat - 1
      temporalIdPlus1 := b &&& 0x07 }
  | .h266, a :: b :: _ => some {
      kind := kind
      forbiddenZeroBit := a &&& 0x80 != 0
      nalUnitType := (b >>> 3) &&& 0x1F
      nalRefIdc := 0
      nuhLayerId := a &&& 0x3F
      temporalId := (b &&& 0x07).toNat - 1
      temporalIdPlus1 := b &&& 0x07 }
  | _, _ => none

end Nalu
end Vaco
