import Vaco.Library.BitStream

/-!
# Words of whole bytes

An unsigned word is written as a fixed number of bytes, most significant byte first or least
significant byte first.  Reading the bytes back gives the word modulo the width.

Main results:

- `beNat_beBytes`: a word that fits its width is read back.
- `leNat_leBytes`: the same for the other byte order.
-/

namespace Vaco
namespace Library
namespace ByteWords

open BitStream

/-- The word in a list of bytes, most significant byte first. -/
def beNat (bytes : Bytes) : Nat :=
  bytes.foldl (fun word byte => word * 256 + byte.toNat) 0

/-- A word as bytes, most significant byte first. -/
def beBytes : Nat → Nat → Bytes
  | 0, _ => []
  | width + 1, word => beBytes width (word / 256) ++ [BitVec.ofNat 8 word]

/-- The word in a list of bytes, least significant byte first. -/
def leNat (bytes : Bytes) : Nat :=
  beNat bytes.reverse

/-- A word as bytes, least significant byte first. -/
def leBytes (width word : Nat) : Bytes :=
  (beBytes width word).reverse

@[simp]
theorem beNat_nil : beNat [] = 0 :=
  rfl

@[simp]
theorem beNat_concat (bytes : Bytes) (byte : BitVec 8) :
    beNat (bytes ++ [byte]) = beNat bytes * 256 + byte.toNat := by
  rw [beNat, List.foldl_append]
  rfl

@[simp]
theorem length_beBytes (width word : Nat) : (beBytes width word).length = width := by
  induction width generalizing word with
  | zero => rfl
  | succ width ih => rw [beBytes, List.length_append, ih, List.length_singleton]

@[simp]
theorem length_leBytes (width word : Nat) : (leBytes width word).length = width := by
  rw [leBytes, List.length_reverse, length_beBytes]

theorem beBytes_succ (width word : Nat) :
    beBytes (width + 1) word = BitVec.ofNat 8 (word / 256 ^ width) :: beBytes width word := by
  induction width generalizing word with
  | zero =>
      rw [pow_zero, Nat.div_one]
      rfl
  | succ width ih =>
      rw [beBytes, ih, List.cons_append, Nat.div_div_eq_div_mul, ← Nat.pow_succ']
      rfl

theorem beBytes_add_mul (width word k : Nat) :
    beBytes width (word + 256 ^ width * k) = beBytes width word := by
  induction width generalizing word with
  | zero => rfl
  | succ width ih =>
      have hsplit : word + 256 ^ (width + 1) * k = word + 256 * (256 ^ width * k) := by
        rw [pow_succ', Nat.mul_assoc]
      have hbyte : BitVec.ofNat 8 (word + 256 * (256 ^ width * k)) = BitVec.ofNat 8 word := by
        rw [← BitVec.toNat_inj, BitVec.toNat_ofNat, BitVec.toNat_ofNat]
        exact Nat.add_mul_mod_self_left _ _ _
      rw [beBytes, beBytes, hsplit, Nat.add_mul_div_left _ _ (by decide), ih, hbyte]

theorem beNat_lt (bytes : Bytes) : beNat bytes < 256 ^ bytes.length := by
  induction bytes using List.reverseRecOn with
  | nil => simp
  | append_singleton bytes byte ih =>
      have hbyte := byte.isLt
      rw [beNat_concat, List.length_append, List.length_singleton, Nat.pow_succ]
      omega

theorem beBytes_beNat (bytes : Bytes) : beBytes bytes.length (beNat bytes) = bytes := by
  induction bytes using List.reverseRecOn with
  | nil => rfl
  | append_singleton bytes byte ih =>
      have hbyte := byte.isLt
      have hlow : BitVec.ofNat 8 (beNat bytes * 256 + byte.toNat) = byte := by
        rw [← BitVec.toNat_inj, BitVec.toNat_ofNat]
        omega
      rw [beNat_concat, List.length_append, List.length_singleton, beBytes, hlow,
        show (beNat bytes * 256 + byte.toNat) / 256 = beNat bytes by omega, ih]

/-- A word that fits its width is read back. -/
theorem beNat_beBytes {width word : Nat} (h : word < 256 ^ width) :
    beNat (beBytes width word) = word := by
  induction width generalizing word with
  | zero =>
      rw [Nat.pow_zero, Nat.lt_one_iff] at h
      rw [h]
      rfl
  | succ width ih =>
      have hhigh : word / 256 < 256 ^ width := by
        rw [Nat.div_lt_iff_lt_mul (by decide), ← Nat.pow_succ]
        exact h
      rw [beBytes, beNat_concat, ih hhigh, BitVec.toNat_ofNat]
      omega

/-- A word that fits its width is read back, least significant byte first. -/
theorem leNat_leBytes {width word : Nat} (h : word < 256 ^ width) :
    leNat (leBytes width word) = word := by
  rw [leNat, leBytes, List.reverse_reverse, beNat_beBytes h]

theorem ofNat_beNat {w width : Nat} (hw : 2 ^ w = 256 ^ width) (word : BitVec w) :
    BitVec.ofNat w (beNat (beBytes width word.toNat)) = word := by
  rw [beNat_beBytes (hw ▸ word.isLt), BitVec.ofNat_toNat, BitVec.setWidth_eq]

/-! ## Fields -/

theorem field_eq {data before field after : Bytes} {pos len : Nat}
    (hdata : data = before ++ (field ++ after)) (hpos : before.length = pos)
    (hlen : field.length = len) : (data.drop pos).take len = field := by
  rw [hdata, List.drop_left' hpos, List.take_left' hlen]

theorem getD_eq {data before after : Bytes} {byte : BitVec 8} {pos : Nat}
    (hdata : data = before ++ ([byte] ++ after)) (hpos : before.length = pos) :
    data.getD pos 0#8 = byte := by
  rw [hdata, ← hpos, List.getD_eq_getElem?_getD, List.getElem?_append_right (Nat.le_refl _),
    Nat.sub_self]
  rfl

end ByteWords
end Library
end Vaco
