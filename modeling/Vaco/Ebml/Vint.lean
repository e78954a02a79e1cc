import Vaco.Core.Packet
import Vaco.Library.ByteWords
import Vaco.Library.FixedWidth

/-!
# EBML variable-length integers

Element identifiers, data sizes and signed size deltas.  The leading octet tells the length by its
zeros; an identifier keeps the marker bit, a size drops it, and a size of ones is unknown.

Main results:

- `readId_vint`, `readSize_vint`: what is read back of a number written in some width.
-/

namespace Vaco
namespace Ebml

open Library BitStream ByteWords Vaco.Core

/-- The longest data size in octets. -/
def MAX_SIZE_LEN : Nat := 8

/-- The length that a leading octet tells. -/
def vintLen (first : BitVec 8) : Option Nat :=
  if first = 0 then none else some (8 - Nat.log2 first.toNat)

/-- The marker bit of a length. -/
def marker (len : Nat) : BitVec 8 :=
  0x80#8 >>> (len - 1)

/-- The size of an element's data. -/
inductive Size where
  | known (size : Nat)
  | unknown
deriving DecidableEq

/-- The pattern of an unknown size. -/
def allOnes (len : Nat) : Nat :=
  if 64 ≤ 7 * len then u64Max else 2 ^ (7 * len) - 1

/-- Decode an identifier, with the octets consumed. -/
def readId (buf : Bytes) (maxIdLen : Nat) : Except Error (Nat × Nat) :=
  match buf with
  | [] => .error .unexpectedEof
  | first :: _ =>
      match vintLen first with
      | none => .error (.invalidData "element id longer than 8 octets")
      | some len =>
          if maxIdLen < len then .error (.invalidData "element id longer than EBMLMaxIDLength")
          else if buf.length < len then .error .unexpectedEof
          else .ok (beNat (buf.take len) % 2 ^ 32, len)

def sizeOf (first : BitVec 8) (rest : Bytes) (len : Nat) : Size :=
  let value := beNat ((first &&& ~~~ marker len) :: rest)
  if value = allOnes len then .unknown else .known value

/-- Decode a data size, with the octets consumed. -/
def readSize (buf : Bytes) (maxSizeLen : Nat) : Except Error (Size × Nat) :=
  match buf with
  | [] => .error .unexpectedEof
  | first :: rest =>
      match vintLen first with
      | none => .error (.invalidData "element size longer than 8 octets")
      | some len =>
          if maxSizeLen < len then
            .error (.invalidData "element size longer than EBMLMaxSizeLength")
          else if buf.length < len then .error .unexpectedEof
          else .ok (sizeOf first (rest.take (len - 1)) len, len)

/-- Decode a signed delta, with the octets consumed. -/
def readSignedVint (buf : Bytes) : Except Error (Int × Nat) :=
  match readSize buf MAX_SIZE_LEN with
  | .error e => .error e
  | .ok (.unknown, _) => .error (.invalidData "lace size delta is the unknown marker")
  | .ok (.known raw, used) => .ok (raw - (2 ^ (7 * used - 1) - 1), used)

/-- Encode a value in a number of octets. -/
def vint (value len : Nat) : Bytes :=
  let len := max 1 (min len 8)
  match beBytes len value with
  | [] => []
  | first :: rest => (first ||| marker len) :: rest

/-- The shortest encoding of a value that is not the unknown one. -/
def vintMin (value : Nat) : Bytes :=
  match (List.range' 1 8).find? fun len => decide (value < allOnes len) with
  | some len => vint value len
  | none => vint value 8

/-- An identifier, with its marker as a part of the value. -/
def idBytes (id : Nat) : Bytes :=
  let len :=
    if 0x80 ≤ id ∧ id ≤ 0xFF then 1
    else if 0x4000 ≤ id ∧ id ≤ 0xFFFF then 2
    else if 0x200000 ≤ id ∧ id ≤ 0xFFFFFF then 3
    else 4
  (beBytes 4 id).drop (4 - len)

/-- What a signed delta is written as in a number of octets, if it fits. -/
def biased (value : Int) (len : Nat) : Option Nat :=
  let raw := value + (2 ^ (7 * len - 1) - 1)
  if raw ≤ 2 ^ 63 - 1 ∧ 0 ≤ raw ∧ raw < 2 ^ (7 * len) - 1 then some raw.toNat else none

/-- The shortest encoding of a signed delta. -/
def signedVint (value : Int) : Bytes :=
  match (List.range' 1 8).find? fun len => (biased value len).isSome with
  | some len => vint ((biased value len).getD 0) len
  | none => vint 0 8

theorem readId_append {buf : Bytes} {maxIdLen id used : Nat}
    (h : readId buf maxIdLen = .ok (id, used)) (more : Bytes) :
    used ≤ buf.length ∧ readId (buf ++ more) maxIdLen = .ok (id, used) := by
  cases buf with
  | nil => cases h
  | cons first rest =>
      rw [List.cons_append]
      unfold readId at h ⊢
      dsimp only at h ⊢
      split at h
      · cases h
      split at h
      · cases h
      split at h
      · cases h
      · rename_i len _ hmax hlen
        cases h
        rw [if_neg hmax, ← List.cons_append, if_neg (by rw [List.length_append]; omega),
          List.take_append_of_le_length (by omega)]
        exact ⟨by omega, rfl⟩

theorem readSize_append {buf : Bytes} {maxSizeLen : Nat} {found : Size × Nat}
    (h : readSize buf maxSizeLen = .ok found) (more : Bytes) :
    readSize (buf ++ more) maxSizeLen = .ok found := by
  cases buf with
  | nil => cases h
  | cons first rest =>
      rw [List.cons_append]
      unfold readSize at h ⊢
      dsimp only at h ⊢
      split at h
      · cases h
      split at h
      · cases h
      split at h
      · cases h
      · rename_i len _ hmax hlen
        rw [List.length_cons] at hlen
        rw [if_neg hmax, if_neg (by rw [List.length_cons, List.length_append]; omega),
          List.take_append_of_le_length (by omega)]
        exact h

/-! ## Numbers of some width -/

variable {len n x y : Nat} {rest : Bytes}

theorem or_marker (hn : n < 8) (hy : y < 2 ^ (7 - n)) :
    BitVec.ofNat 8 y ||| marker (n + 1) = BitVec.ofNat 8 (2 ^ (7 - n) + y) := by
  have hall : ∀ n < 8, ∀ y < 2 ^ (7 - n),
      BitVec.ofNat 8 y ||| marker (n + 1) = BitVec.ofNat 8 (2 ^ (7 - n) + y) := by decide +kernel
  exact hall n hn y hy

theorem and_not_marker (hn : n < 8) (hy : y < 2 ^ (7 - n)) :
    BitVec.ofNat 8 (2 ^ (7 - n) + y) &&& ~~~ marker (n + 1) = BitVec.ofNat 8 y := by
  have hall : ∀ n < 8, ∀ y < 2 ^ (7 - n),
      BitVec.ofNat 8 (2 ^ (7 - n) + y) &&& ~~~ marker (n + 1) = BitVec.ofNat 8 y := by
    decide +kernel
  exact hall n hn y hy

theorem vintLen_marked (hn : n < 8) (hy : y < 2 ^ (7 - n)) :
    vintLen (BitVec.ofNat 8 (2 ^ (7 - n) + y)) = some (n + 1) := by
  have hall : ∀ n < 8, ∀ y < 2 ^ (7 - n),
      vintLen (BitVec.ofNat 8 (2 ^ (7 - n) + y)) = some (n + 1) := by decide +kernel
  exact hall n hn y hy

theorem div_lt (hn : n < 8) (hx : x < 2 ^ (7 * (n + 1))) : x / 256 ^ n < 2 ^ (7 - n) := by
  rw [Nat.div_lt_iff_lt_mul (by positivity), show 256 = 2 ^ 8 from rfl, ← pow_mul, ← pow_add]
  rwa [show 7 - n + 8 * n = 7 * (n + 1) by omega]

theorem vint_eq (hn : n < 8) (hx : x < 2 ^ (7 * (n + 1))) :
    vint x (n + 1) = BitVec.ofNat 8 (2 ^ (7 - n) + x / 256 ^ n) :: beBytes n x := by
  rw [vint, show max 1 (min (n + 1) 8) = n + 1 by omega, beBytes_succ]
  dsimp only
  rw [or_marker hn (div_lt hn hx)]

theorem length_vint (hn : n < 8) (hx : x < 2 ^ (7 * (n + 1))) : (vint x (n + 1)).length = n + 1 := by
  rw [vint_eq hn hx, List.length_cons, length_beBytes]

theorem fits (hn : n < 8) (hx : x < 2 ^ (7 * (n + 1))) :
    2 ^ (7 * (n + 1)) + x < 256 ^ (n + 1) := by
  have hpow : 2 ^ (7 * (n + 1) + 1) ≤ 2 ^ (8 * (n + 1)) :=
    Nat.pow_le_pow_right two_pos (by omega)
  rw [show 256 = 2 ^ 8 from rfl, ← pow_mul]
  rw [pow_succ] at hpow
  omega

theorem beNat_marked (hn : n < 8) (hx : x < 2 ^ (7 * (n + 1))) :
    beNat (vint x (n + 1)) = 2 ^ (7 * (n + 1)) + x := by
  have hpow : 256 ^ n * 2 ^ (7 - n) = 2 ^ (7 * (n + 1)) := by
    rw [show 256 = 2 ^ 8 from rfl, ← pow_mul, ← pow_add]
    congr 1
    omega
  have hdiv : (2 ^ (7 * (n + 1)) + x) / 256 ^ n = 2 ^ (7 - n) + x / 256 ^ n := by
    rw [← hpow, Nat.mul_add_div (by positivity)]
  have hrest : beBytes n (2 ^ (7 * (n + 1)) + x) = beBytes n x := by
    rw [← hpow, Nat.add_comm, beBytes_add_mul]
  rw [vint_eq hn hx, ← hdiv, ← hrest, ← beBytes_succ, beNat_beBytes (fits hn hx)]

/-- What is read back as an identifier of a number written in some width. -/
theorem readId_vint {maxIdLen : Nat} (hn : n < 8) (hx : x < 2 ^ (7 * (n + 1)))
    (hmax : n + 1 ≤ maxIdLen) :
    readId (vint x (n + 1) ++ rest) maxIdLen =
      .ok ((2 ^ (7 * (n + 1)) + x) % 2 ^ 32, n + 1) := by
  have htake : (vint x (n + 1) ++ rest).take (n + 1) = vint x (n + 1) :=
    List.take_left' (length_vint hn hx)
  have hlen : ¬ (vint x (n + 1) ++ rest).length < n + 1 := by
    rw [List.length_append, length_vint hn hx]
    omega
  have hmarked := beNat_marked hn hx
  rw [← htake] at hmarked
  rw [vint_eq hn hx, List.cons_append] at hlen hmarked ⊢
  rw [readId, vintLen_marked hn (div_lt hn hx)]
  dsimp only
  rw [if_neg (not_lt.mpr hmax), if_neg hlen, hmarked]

/-- What is read back as a size of a number written in some width. -/
theorem readSize_vint {maxSizeLen : Nat} (hn : n < 8) (hx : x < 2 ^ (7 * (n + 1)))
    (hmax : n + 1 ≤ maxSizeLen) :
    readSize (vint x (n + 1) ++ rest) maxSizeLen =
      .ok (if x = allOnes (n + 1) then .unknown else .known x, n + 1) := by
  have hlen : ¬ (vint x (n + 1) ++ rest).length < n + 1 := by
    rw [List.length_append, length_vint hn hx]
    omega
  have htake : (beBytes n x ++ rest).take n = beBytes n x :=
    List.take_left' (length_beBytes n x)
  have hvalue : beNat (BitVec.ofNat 8 (x / 256 ^ n) :: beBytes n x) = x := by
    rw [← beBytes_succ, beNat_beBytes ((Nat.le_add_left _ _).trans_lt (fits hn hx))]
  rw [vint_eq hn hx, List.cons_append] at hlen ⊢
  rw [readSize, vintLen_marked hn (div_lt hn hx)]
  dsimp only
  rw [if_neg (not_lt.mpr hmax), if_neg hlen, Nat.add_sub_cancel, htake, sizeOf,
    and_not_marker hn (div_lt hn hx), hvalue]

/-! ## Shortest encodings -/

theorem find_width {p : Nat → Bool} (h : p 8 = true) :
    ∃ n < 8, (List.range' 1 8).find? p = some (n + 1) ∧ p (n + 1) = true := by
  cases hfind : (List.range' 1 8).find? p with
  | none => exact absurd h (List.find?_eq_none.mp hfind 8 (by decide))
  | some len =>
      have hmem := List.mem_range'_1.mp (List.mem_of_find?_eq_some hfind)
      have hp := List.find?_some hfind
      refine ⟨len - 1, by omega, ?_⟩
      rw [Nat.sub_add_cancel hmem.1]
      exact ⟨rfl, hp⟩

theorem allOnes_eq (hn : n < 8) : allOnes (n + 1) = 2 ^ (7 * (n + 1)) - 1 :=
  if_neg (by omega)

theorem exists_vintMin (hx : x < 2 ^ 56 - 1) :
    ∃ n < 8, vintMin x = vint x (n + 1) ∧ x < allOnes (n + 1) := by
  rcases find_width (p := fun len => decide (x < allOnes len)) (decide_eq_true hx) with
    ⟨n, hn, hfind, hlt⟩
  exact ⟨n, hn, by rw [vintMin, hfind], of_decide_eq_true hlt⟩

theorem le_maxSizeLen : 8 ≤ MAX_SIZE_LEN := le_refl 8

/-- The shortest encoding is read back, with its length. -/
theorem readSize_vintMin (hx : x < 2 ^ 56 - 1) {maxSizeLen : Nat} (hmax : 8 ≤ maxSizeLen) :
    readSize (vintMin x ++ rest) maxSizeLen = .ok (.known x, (vintMin x).length) := by
  rcases exists_vintMin hx with ⟨n, hn, heq, hlt⟩
  have hx' : x < 2 ^ (7 * (n + 1)) := by
    rw [allOnes_eq hn] at hlt
    omega
  rw [heq, length_vint hn hx', readSize_vint hn hx' (by omega), if_neg hlt.ne]

theorem length_vintMin_pos (hx : x < 2 ^ 56 - 1) : 0 < (vintMin x).length := by
  rcases exists_vintMin hx with ⟨n, hn, heq, hlt⟩
  rw [allOnes_eq hn] at hlt
  rw [heq, length_vint hn (by omega)]
  exact Nat.succ_pos n

/-- The shortest encoding of a signed delta is read back, with its length. -/
theorem readSignedVint_signedVint {value : Int} (hlo : -(2 ^ 55 - 1) ≤ value)
    (hhi : value ≤ 2 ^ 55 - 1) :
    readSignedVint (signedVint value ++ rest) = .ok (value, (signedVint value).length) := by
  have hwide : (biased value 8).isSome = true := by
    rw [biased, if_pos ⟨by omega, by omega, by omega⟩]
    rfl
  rcases find_width (p := fun len => (biased value len).isSome) hwide with ⟨n, hn, hfind, hfits⟩
  rcases Option.isSome_iff_exists.mp hfits with ⟨raw, hraw⟩
  have hdef := hraw
  rw [biased] at hdef
  split at hdef
  · rename_i hrange
    have hval := Option.some.inj hdef
    have hlt : raw < 2 ^ (7 * (n + 1)) - 1 := by
      have hcast : ((2 ^ (7 * (n + 1)) - 1 : Nat) : Int) = 2 ^ (7 * (n + 1)) - 1 := by
        rw [Nat.cast_sub Nat.one_le_two_pow]
        push_cast
        rfl
      omega
    rw [signedVint, hfind]
    dsimp only
    rw [hraw, Option.getD_some, length_vint hn (by omega), readSignedVint,
      readSize_vint hn (by omega) (by rw [MAX_SIZE_LEN]; omega), allOnes_eq hn, if_neg hlt.ne]
    dsimp only
    congr 2
    omega
  · cases hdef

end Ebml
end Vaco
