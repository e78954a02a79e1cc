import Mathlib.Order.Bounds.Basic
import Vaco.Bitstream.BitReader

/-!
# Start codes

A start code is the three bytes `00 00 01`.  The scanner skips seven bytes of a word
without a zero byte, three bytes where no start code can end, and one byte otherwise;
the plain scan looks at every position.

Main results:

- `hasZeroByte_of_mem`: a word with a zero byte is never taken for one without.
- `findStartCode_eq_scan`: the strided scanner finds what the plain scan finds.
- `find_start_code_least`: what is found is the least position at which a start code stands.
- `scan_append`: a run of bytes in which no start code begins is passed over.
-/

namespace Vaco
namespace Bitstream

open Library BitStream

/-- Whether any byte of a word is flagged as zero. -/
def hasZeroByte (w : BitVec 64) : Bool :=
  ((w - 0x0101010101010101#64) &&& ~~~w &&& 0x8080808080808080#64) != 0

/-- Bytes as a word in the order of the machine, first byte least significant. -/
def fromNeBytes (bytes : Bytes) : BitVec 64 :=
  fromBeBytes bytes.reverse

def findStartCode (buf : Bytes) (i : Nat) : Option Nat :=
  if i + 8 ≤ buf.length ∧ hasZeroByte (fromNeBytes ((buf.drop i).take 8)) = false then
    findStartCode buf (i + 7)
  else if h : i + 3 ≤ buf.length then
    if buf[i + 2] = 0 then findStartCode buf (i + 1)
    else if buf[i + 2] = 1 ∧ buf[i] = 0 ∧ buf[i + 1] = 0 then some i
    else findStartCode buf (i + 3)
  else
    none
termination_by buf.length - i

/-! ## The plain scan -/

/-- Whether a start code begins a list of bytes. -/
def startsCode : Bytes → Bool
  | a :: b :: c :: _ => a = 0 && b = 0 && c = 1
  | _ => false

/-- The first position at which a start code begins. -/
def scan : Bytes → Option Nat
  | [] => none
  | a :: rest => if startsCode (a :: rest) then some 0 else (scan rest).map (· + 1)

theorem startsCode_drop (buf : Bytes) (k : Nat) :
    startsCode (buf.drop k) = true ↔
      buf[k]? = some 0 ∧ buf[k + 1]? = some 0 ∧ buf[k + 2]? = some 1 := by
  have hget : ∀ n, buf[k + n]? = (buf.drop k)[n]? := fun n => List.getElem?_drop.symm
  rw [hget 1, hget 2, ← Nat.add_zero k, hget 0, Nat.add_zero]
  rcases buf.drop k with _ | ⟨a, _ | ⟨b, _ | ⟨c, rest⟩⟩⟩ <;> simp [startsCode, and_assoc]

theorem scan_skip {buf : Bytes} {n : Nat} (h : ∀ k < n, startsCode (buf.drop k) = false) :
    scan buf = (scan (buf.drop n)).map (· + n) := by
  induction n generalizing buf with
  | zero => simp
  | succ n ih =>
      cases buf with
      | nil => simp [scan]
      | cons a rest =>
          have hhead := h 0 (Nat.succ_pos n)
          have hrest := ih (show ∀ k < n, startsCode (rest.drop k) = false from fun k hk =>
            h (k + 1) (Nat.succ_lt_succ hk))
          rw [List.drop_zero] at hhead
          rw [scan, hhead, hrest, List.drop_succ_cons]
          cases scan (rest.drop n) <;> simp [Nat.add_assoc]

theorem scan_of_startsCode {buf : Bytes} (h : startsCode buf = true) : scan buf = some 0 := by
  cases buf with
  | nil => cases h
  | cons a rest => rw [scan, h, if_pos rfl]

theorem scan_eq_none_iff {buf : Bytes} :
    scan buf = none ↔ ∀ k, startsCode (buf.drop k) = false := by
  constructor
  · intro hnone
    induction buf with
    | nil => simp [startsCode]
    | cons a rest ih =>
        rw [scan] at hnone
        split at hnone
        · cases hnone
        · rename_i hhead
          intro k
          cases k with
          | zero => exact Bool.not_eq_true _ ▸ hhead
          | succ k => exact ih (Option.map_eq_none_iff.mp hnone) k
  · intro hnone
    rw [scan_skip (n := buf.length) fun k _ => hnone k, List.drop_length]
    rfl

/-- What the scan finds is the first position at which a start code begins. -/
theorem scan_eq_some_iff {buf : Bytes} {n : Nat} :
    scan buf = some n ↔
      startsCode (buf.drop n) = true ∧ ∀ k < n, startsCode (buf.drop k) = false := by
  constructor
  · intro hfound
    induction buf generalizing n with
    | nil => cases hfound
    | cons a rest ih =>
        rw [scan] at hfound
        split at hfound
        · rename_i hhead
          cases hfound
          exact ⟨hhead, fun k hk => absurd hk (Nat.not_lt_zero k)⟩
        · rename_i hhead
          rcases Option.map_eq_some_iff.mp hfound with ⟨m, hm, rfl⟩
          rcases ih hm with ⟨hstarts, hnone⟩
          refine ⟨hstarts, ?_⟩
          intro k hk
          cases k with
          | zero => exact Bool.not_eq_true _ ▸ hhead
          | succ k => exact hnone k (Nat.lt_of_succ_lt_succ hk)
  · rintro ⟨hstarts, hnone⟩
    rw [scan_skip hnone, scan_of_startsCode hstarts]
    simp

/-- The scan passes over bytes that hold no start code and do not end in a zero. -/
theorem scan_append {unit : Bytes} (hscan : scan unit = none)
    (hlast : unit.getLast? ≠ some 0) (tail : Bytes) :
    scan (unit ++ tail) = (scan tail).map (· + unit.length) := by
  rw [scan_eq_none_iff] at hscan
  have hskip : ∀ k < unit.length, startsCode ((unit ++ tail).drop k) = false := by
    intro k hk
    by_contra hcode
    rw [Bool.not_eq_false, startsCode_drop] at hcode
    rcases hcode with ⟨hfirst, hsecond, hthird⟩
    rw [List.getElem?_append_left hk] at hfirst
    rw [List.getLast?_eq_getElem?] at hlast
    by_cases hlong : k + 2 < unit.length
    · rw [List.getElem?_append_left (by omega)] at hsecond hthird
      have hinside := (startsCode_drop unit k).mpr ⟨hfirst, hsecond, hthird⟩
      rw [hscan k] at hinside
      cases hinside
    · by_cases hshort : k + 1 < unit.length
      · rw [List.getElem?_append_left hshort] at hsecond
        exact hlast (by rwa [show unit.length - 1 = k + 1 by omega])
      · exact hlast (by rwa [show unit.length - 1 = k by omega])
  rw [scan_skip hskip, List.drop_left]

/-! ## Words without a zero byte -/

/-- A word of at most eight bytes is their number in base 256. -/
theorem toNat_fromBeBytes {bytes : Bytes} (h : bytes.length ≤ 8) :
    (fromBeBytes bytes).toNat = bytes.foldl (fun n b => 256 * n + b.toNat) 0 ∧
      (fromBeBytes bytes).toNat < 256 ^ bytes.length := by
  induction bytes using List.reverseRecOn with
  | nil => simp [fromBeBytes]
  | append_singleton bytes b ih =>
      rw [List.length_append, List.length_singleton] at h ⊢
      rcases ih (by omega) with ⟨hvalue, hlt⟩
      have hfold : fromBeBytes (bytes ++ [b]) = (fromBeBytes bytes <<< 8) ||| b.setWidth 64 := by
        simp [fromBeBytes]
      have hpow : 256 ^ bytes.length ≤ 256 ^ 7 := Nat.pow_le_pow_right (by norm_num) (by omega)
      norm_num at hpow
      rw [Nat.pow_succ]
      have hb := b.isLt
      have hshift : (fromBeBytes bytes).toNat * 2 ^ 8 < 2 ^ 64 := by omega
      have hor : (fromBeBytes (bytes ++ [b])).toNat =
          (fromBeBytes bytes).toNat * 2 ^ 8 + b.toNat := by
        rw [hfold, BitVec.toNat_or, BitVec.toNat_shiftLeft, BitVec.toNat_setWidth,
          Nat.mod_eq_of_lt (by omega : b.toNat < 2 ^ 64), Nat.shiftLeft_eq,
          Nat.mod_eq_of_lt hshift, ← Nat.shiftLeft_eq, ← Nat.shiftLeft_add_eq_or_of_lt hb,
          Nat.shiftLeft_eq]
      rw [hor, List.foldl_append, List.foldl_cons, List.foldl_nil, ← hvalue, Nat.mul_comm]
      refine ⟨rfl, ?_⟩
      clear hfold hor
      omega

theorem hasZeroByte_of_flag {w : BitVec 64} {i : Nat}
    (hmask : (0x8080808080808080#64).getLsbD i = true) (hw : w.getLsbD i = false)
    (hsub : (w - 0x0101010101010101#64).getLsbD i = true) : hasZeroByte w = true := by
  have hi : i < 64 := by
    by_contra hge
    rw [BitVec.getLsbD_of_ge _ _ (by omega)] at hmask
    cases hmask
  rw [hasZeroByte, bne_iff_ne]
  intro hzero
  have hbit := congrArg (BitVec.getLsbD · i) hzero
  simp only [BitVec.getLsbD_and, BitVec.getLsbD_not, hsub, hw, hmask] at hbit
  simp [hi] at hbit

/-- A word with a zero byte is flagged, whatever the order of its bytes. -/
theorem hasZeroByte_of_mem {bytes : Bytes} (h : bytes.length = 8) (hmem : 0 ∈ bytes) :
    hasZeroByte (fromBeBytes bytes) = true := by
  match bytes, h with
  | [b7, b6, b5, b4, b3, b2, b1, b0], _ =>
      have hvalue := (toNat_fromBeBytes (show [b7, b6, b5, b4, b3, b2, b1, b0].length ≤ 8 by simp)).1
      simp only [List.foldl_cons, List.foldl_nil] at hvalue
      have hflag : ∀ i, (0x8080808080808080#64).getLsbD i = true →
          (fromBeBytes [b7, b6, b5, b4, b3, b2, b1, b0]).toNat / 2 ^ i % 2 = 0 →
          (18446744073709551616 - 72340172838076673 +
            (fromBeBytes [b7, b6, b5, b4, b3, b2, b1, b0]).toNat) % 18446744073709551616 /
              2 ^ i % 2 = 1 →
          hasZeroByte (fromBeBytes [b7, b6, b5, b4, b3, b2, b1, b0]) = true := by
        intro i hmask hclear hborrow
        refine hasZeroByte_of_flag hmask ?_ ?_
        · rw [← BitVec.testBit_toNat, Nat.testBit_eq_decide_div_mod_eq, hclear]
          rfl
        · rw [← BitVec.testBit_toNat, Nat.testBit_eq_decide_div_mod_eq, BitVec.toNat_sub]
          simpa using hborrow
      have h0 := b0.isLt
      have h1 := b1.isLt
      have h2 := b2.isLt
      have h3 := b3.isLt
      have h4 := b4.isLt
      have h5 := b5.isLt
      have h6 := b6.isLt
      have h7 := b7.isLt
      have hzero : b0.toNat = 0 ∨ b1.toNat = 0 ∨ b2.toNat = 0 ∨ b3.toNat = 0 ∨ b4.toNat = 0 ∨
          b5.toNat = 0 ∨ b6.toNat = 0 ∨ b7.toNat = 0 := by
        have hnat : (0 : BitVec 8).toNat = 0 := rfl
        simp only [List.mem_cons, List.not_mem_nil, or_false, BitVec.toNat_eq] at hmem
        omega
      generalize (fromBeBytes [b7, b6, b5, b4, b3, b2, b1, b0]).toNat = w at *
      -- The lowest zero byte is the one into which the subtraction borrows first.
      by_cases z0 : b0.toNat = 0
      · exact hflag 7 (by decide) (by omega) (by omega)
      by_cases z1 : b1.toNat = 0
      · exact hflag 15 (by decide) (by omega) (by omega)
      by_cases z2 : b2.toNat = 0
      · exact hflag 23 (by decide) (by omega) (by omega)
      by_cases z3 : b3.toNat = 0
      · exact hflag 31 (by decide) (by omega) (by omega)
      by_cases z4 : b4.toNat = 0
      · exact hflag 39 (by decide) (by omega) (by omega)
      by_cases z5 : b5.toNat = 0
      · exact hflag 47 (by decide) (by omega) (by omega)
      by_cases z6 : b6.toNat = 0
      · exact hflag 55 (by decide) (by omega) (by omega)
      · exact hflag 63 (by decide) (by omega) (by omega)

/-! ## The strided scanner -/

theorem ne_zero_of_hasZeroByte {bytes : Bytes} (h : bytes.length = 8)
    (hword : hasZeroByte (fromNeBytes bytes) = false) {k : Nat} :
    bytes[k]? ≠ some 0 := by
  intro hzero
  have hmem : 0 ∈ bytes.reverse := List.mem_reverse.mpr (List.mem_of_getElem? hzero)
  rw [fromNeBytes, hasZeroByte_of_mem (by rwa [List.length_reverse]) hmem] at hword
  cases hword

/-- The strided scanner finds what the plain scan finds. -/
theorem findStartCode_eq_scan (buf : Bytes) (i : Nat) :
    findStartCode buf i = (scan (buf.drop i)).map (· + i) := by
  have hskip : ∀ i n, (∀ k < n, startsCode (buf.drop (i + k)) = false) →
      (scan (buf.drop i)).map (· + i) = (scan (buf.drop (i + n))).map (· + (i + n)) := by
    intro i n hnone
    have hpassed : scan (buf.drop i) = (scan ((buf.drop i).drop n)).map (· + n) := by
      apply scan_skip
      intro k hk
      rw [List.drop_drop]
      exact hnone k hk
    rw [hpassed, List.drop_drop]
    cases scan (buf.drop (i + n)) with
    | none => rfl
    | some found => simp [Nat.add_assoc, Nat.add_comm n i]
  fun_induction findStartCode buf i with
  | case1 i hword ih =>
      -- Every start code in the first seven positions begins with a zero byte of the word.
      rw [ih, hskip i 7]
      intro k hk
      by_contra hcode
      rw [Bool.not_eq_false, startsCode_drop] at hcode
      have hlength : ((buf.drop i).take 8).length = 8 := by
        rw [List.length_take, List.length_drop]
        omega
      apply ne_zero_of_hasZeroByte hlength hword.2 (k := k)
      rw [List.getElem?_take_of_lt (by omega), List.getElem?_drop]
      exact hcode.1
  | case2 i hword hlength hzero ih =>
      rw [ih, hskip i 1]
      intro k hk
      by_contra hcode
      rw [Bool.not_eq_false, startsCode_drop] at hcode
      have hthird := hcode.2.2
      rw [show i + k + 2 = i + 2 by omega, List.getElem?_eq_getElem (by omega), hzero] at hthird
      cases hthird
  | case3 i hword hlength hthird hcode =>
      have hstarts : startsCode (buf.drop i) = true := by
        rw [startsCode_drop, List.getElem?_eq_getElem (by omega),
          List.getElem?_eq_getElem (by omega), List.getElem?_eq_getElem (by omega)]
        exact ⟨congrArg some hcode.2.1, congrArg some hcode.2.2, congrArg some hcode.1⟩
      rw [scan_of_startsCode hstarts]
      simp
  | case4 i hword hlength hthird hcode ih =>
      rw [ih, hskip i 3]
      intro k hk
      by_contra hstarts
      rw [Bool.not_eq_false, startsCode_drop] at hstarts
      have hne : buf[i + 2]? ≠ some 0 := by
        rw [List.getElem?_eq_getElem (by omega)]
        exact fun hzero => hthird (Option.some.inj hzero)
      rcases (by omega : k = 0 ∨ k = 1 ∨ k = 2) with rfl | rfl | rfl
      · rcases hstarts with ⟨ha, hb, hc⟩
        rw [Nat.add_zero, List.getElem?_eq_getElem (by omega)] at ha hb hc
        exact hcode ⟨Option.some.inj hc, Option.some.inj ha, Option.some.inj hb⟩
      · exact hne hstarts.2.1
      · exact hne hstarts.1
  | case5 i hword hlength =>
      have hnone : scan (buf.drop i) = none := by
        rw [scan_eq_none_iff]
        intro k
        by_contra hcode
        rw [Bool.not_eq_false, List.drop_drop, startsCode_drop] at hcode
        have hthird := hcode.2.2
        rw [List.getElem?_eq_none (by omega)] at hthird
        cases hthird
      rw [hnone]
      rfl

theorem findStartCode_bounds {buf : Bytes} {i found : Nat}
    (h : findStartCode buf i = some found) : i ≤ found ∧ found + 3 ≤ buf.length := by
  rw [findStartCode_eq_scan] at h
  rcases Option.map_eq_some_iff.mp h with ⟨n, hn, rfl⟩
  have hstarts := (scan_eq_some_iff.mp hn).1
  rw [List.drop_drop, startsCode_drop] at hstarts
  rcases List.getElem?_eq_some_iff.mp hstarts.2.2 with ⟨hlt, _⟩
  omega

variable {buf : Bytes} {floor i : Nat}

theorem findStartCode_eq_some_iff :
    findStartCode buf floor = some i ↔
      floor ≤ i ∧ startsCode (buf.drop i) = true ∧
        ∀ j, floor ≤ j → j < i → startsCode (buf.drop j) = false := by
  rw [findStartCode_eq_scan, Option.map_eq_some_iff]
  constructor
  · rintro ⟨n, hn, rfl⟩
    rcases scan_eq_some_iff.mp hn with ⟨hstarts, hnone⟩
    rw [List.drop_drop] at hstarts
    refine ⟨by omega, by rwa [Nat.add_comm n floor], ?_⟩
    intro j hj hlt
    have hbefore := hnone (j - floor) (by omega)
    rwa [List.drop_drop, Nat.add_sub_cancel' hj] at hbefore
  · rintro ⟨hle, hstarts, hnone⟩
    refine ⟨i - floor, scan_eq_some_iff.mpr ⟨?_, ?_⟩, by omega⟩
    · rwa [List.drop_drop, Nat.add_sub_cancel' hle]
    · intro k hk
      rw [List.drop_drop]
      exact hnone (floor + k) (by omega) (by omega)

theorem findStartCode_eq_none_iff :
    findStartCode buf floor = none ↔ ∀ j, floor ≤ j → startsCode (buf.drop j) = false := by
  rw [findStartCode_eq_scan, Option.map_eq_none_iff, scan_eq_none_iff]
  constructor
  · intro hnone j hj
    have hat := hnone (j - floor)
    rwa [List.drop_drop, Nat.add_sub_cancel' hj] at hat
  · intro hnone k
    rw [List.drop_drop]
    exact hnone (floor + k) (by omega)

theorem take_drop_eq_iff (buf : Bytes) (i : Nat) :
    (buf.drop i).take 3 = [0, 0, 1] ↔ startsCode (buf.drop i) = true := by
  rcases buf.drop i with _ | ⟨a, _ | ⟨b, _ | ⟨c, rest⟩⟩⟩ <;> simp [startsCode, and_assoc]

/-- The strided scanner finds the least position at which a start code stands. -/
theorem find_start_code_least (buf : Bytes) (start : Nat) :
    (∀ i, findStartCode buf start = some i ↔
      IsLeast {i | start ≤ i ∧ (buf.drop i).take 3 = [0, 0, 1]} i) ∧
      (findStartCode buf start = none ↔
        ∀ i, start ≤ i → (buf.drop i).take 3 ≠ [0, 0, 1]) := by
  constructor
  · intro i
    rw [findStartCode_eq_some_iff]
    constructor
    · rintro ⟨hle, hstarts, hnone⟩
      refine ⟨⟨hle, (take_drop_eq_iff buf i).mpr hstarts⟩, fun j hj => ?_⟩
      by_contra hlt
      have hno := hnone j hj.1 (not_le.mp hlt)
      rw [(take_drop_eq_iff buf j).mp hj.2] at hno
      cases hno
    · rintro ⟨⟨hle, hcode⟩, hleast⟩
      refine ⟨hle, (take_drop_eq_iff buf i).mp hcode, fun j hj hlt => ?_⟩
      by_contra hstarts
      rw [Bool.not_eq_false] at hstarts
      exact absurd (hleast ⟨hj, (take_drop_eq_iff buf j).mpr hstarts⟩) (not_le.mpr hlt)
  · rw [findStartCode_eq_none_iff]
    refine forall₂_congr fun i _ => ?_
    rw [Ne, take_drop_eq_iff, Bool.not_eq_true]

end Bitstream
end Vaco
