import Vaco.Isom.SampleTable

/-!
# Boxes in bytes

A box is a 32-bit size, a type and a payload; a full box has a version and flags before its
payload.

Main results:

- `length_bx` and `length_fullbx`: the bytes that a box adds to its payload.
- `beNat_lenField`: a length that fits its field is read back.
-/

namespace Vaco
namespace Isom

open Library BitStream ByteWords
open Vaco.Core (Error)

/-! ## Writing -/

/-- An unsigned word of four bytes. -/
abbrev be32 (v : Nat) : Bytes :=
  beBytes 4 v

/-- An unsigned word of eight bytes. -/
abbrev be64 (v : Nat) : Bytes :=
  beBytes 8 v

/-- A signed word of four bytes. -/
def beI32 (v : Int) : Bytes :=
  be32 (BitVec.ofInt 32 v).toNat

/-- A signed word of two bytes. -/
def beI16 (v : Int) : Bytes :=
  beBytes 2 (BitVec.ofInt 16 v).toNat

/-- A length as a `u32` field, saturating. -/
def lenField (n : Nat) : Bytes :=
  be32 (min n u32Max)

/-- A box: four-byte size, type, payload. -/
def bx (kind : FourCc) (payload : Bytes) : Bytes :=
  lenField (payload.length + 8) ++ kind ++ payload

/-- The payload of a full box: version and 24-bit flags before its body. -/
def fullPayload (version flags : Nat) (body : Bytes) : Bytes :=
  beBytes 1 version ++ beBytes 3 flags ++ body

/-- A full box: version and 24-bit flags before the payload. -/
def fullbx (kind : FourCc) (version flags : Nat) (payload : Bytes) : Bytes :=
  bx kind (fullPayload version flags payload)

@[simp]
theorem length_lenField (n : Nat) : (lenField n).length = 4 :=
  length_beBytes 4 _

theorem length_bx {kind : FourCc} (hkind : kind.length = 4) (payload : Bytes) :
    (bx kind payload).length = payload.length + 8 := by
  rw [bx, List.length_append, List.length_append, length_lenField, hkind]
  omega

theorem length_fullbx {kind : FourCc} (hkind : kind.length = 4) (version flags : Nat)
    (payload : Bytes) : (fullbx kind version flags payload).length = payload.length + 12 := by
  rw [fullbx, length_bx hkind, fullPayload, List.length_append, List.length_append,
    length_beBytes, length_beBytes]
  omega

/-! ## Reading what was written -/

theorem beNat_lenField {n : Nat} (h : n ≤ u32Max) : beNat (lenField n) = n := by
  rw [lenField, Nat.min_eq_left h]
  exact beNat_beBytes (Nat.lt_succ_of_le h)

theorem take_lenField (n : Nat) (rest : Bytes) : (lenField n ++ rest).take 4 = lenField n :=
  List.take_left' (length_lenField n)

theorem drop_lenField (n : Nat) (rest : Bytes) : (lenField n ++ rest).drop 4 = rest :=
  List.drop_left' (length_lenField n)

end Isom
end Vaco
