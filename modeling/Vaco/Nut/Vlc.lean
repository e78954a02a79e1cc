import Vaco.Library.BitStream
import Vaco.Sched.Wire

/-!
# The variable-length integers of NUT

Numbers go in groups of seven bits, the most significant group first.  The writer counts its
groups by shifting the value out, so the shift amount of the last test can pass the width of the
value; that test has no outcome and the writer returns nothing.

Main results:

- `writeV_eq_none_iff`: the values that cannot be written.
- `values_round_trip_iff`: the lists of values that come back.
-/

namespace Vaco
namespace Nut

open Library BitStream Vaco.Core Sched

/-- The longest code a reader follows. -/
def MAX_VLC_BYTES : Nat := 18

/-! ## Writing -/

def groupCount (value nbits : Nat) : Option Nat :=
  -- a shift by the whole width or more overflows
  if 64 ≤ 7 * (nbits + 1) then none
  else if value >>> (7 * (nbits + 1)) ≠ 0 then groupCount value (nbits + 1)
  else some nbits
termination_by 64 - nbits

def groupsOf (value : Nat) : Nat → Bytes
  | 0 => [BitVec.ofNat 8 (value &&& 0x7F)]
  | nbits + 1 =>
      (0x80#8 ||| BitVec.ofNat 8 ((value >>> (7 * (nbits + 1))) &&& 0x7F)) :: groupsOf value nbits

/-- Encode an unsigned value. -/
def writeV (value : Nat) : Option Bytes :=
  (groupCount value 0).map (groupsOf value)

/-- The unsigned code of a signed value. -/
def rawOf (value : I64) : Nat :=
  if 0 < value.val then min u64Max (value.val.natAbs * 2) - 1
  else min u64Max (value.val.natAbs * 2)

/-- Encode a signed value. -/
def writeS (value : I64) : Option Bytes :=
  writeV (rawOf value)

/-- Encode some bytes with their length. -/
def writeVb (data : Bytes) : Option Bytes :=
  (writeV data.length).map (· ++ data)

/-! ## Reading -/

/-- A source of single bytes. -/
structure ByteFeed (σ : Type) where
  nextByte : σ → Except Error (BitVec 8 × σ)

variable {σ : Type}

/-- Add groups to a value until one without the continuation bit. -/
def readGroups (feed : ByteFeed σ) : Nat → Nat → σ → Except Error (Nat × σ)
  | 0, _, _ => .error (.invalidData "nut: v-coded value ran on too long")
  | left + 1, value, s =>
      match feed.nextByte s with
      | .error e => .error e
      | .ok (byte, s) =>
          let value := value * 128 + (byte &&& 0x7F#8).toNat
          if u64Max < value then .error (.invalidData "nut: v-coded value overflowed u64")
          else if byte &&& 0x80#8 = 0 then .ok (value, s)
          else readGroups feed left value s

/-- Decode an unsigned value. -/
def readV (feed : ByteFeed σ) (s : σ) : Except Error (Nat × σ) :=
  readGroups feed MAX_VLC_BYTES 0 s

/-- Decode a signed value. -/
def readS (feed : ByteFeed σ) (s : σ) : Except Error (Int × σ) :=
  match readV feed s with
  | .error e => .error e
  | .ok (raw, s) =>
      if u64Max < raw + 1 then .error (.invalidData "nut: s-coded value overflowed")
      else if 2 ^ 63 ≤ (raw + 1) / 2 then .error (.invalidData "nut: s-coded value out of range")
      else if (raw + 1) % 2 = 1 then .ok (-((raw + 1) / 2 : Nat), s)
      else .ok (((raw + 1) / 2 : Nat), s)

/-- Read a number of bytes. -/
def readBytes (feed : ByteFeed σ) : Nat → σ → Except Error (Bytes × σ)
  | 0, s => .ok ([], s)
  | n + 1, s =>
      match feed.nextByte s with
      | .error e => .error e
      | .ok (b, s) =>
          match readBytes feed n s with
          | .error e => .error e
          | .ok (bs, s) => .ok (b :: bs, s)

/-- Decode bytes with their length, paid for by a budget. -/
def readVb (feed : ByteFeed σ) (budget : Budget) (s : σ) :
    Except Error (Bytes × Budget × σ) :=
  match readV feed s with
  | .error e => .error e
  | .ok (len, s) =>
      match budget.charge len with
      | .error e => .error e.toError
      | .ok budget =>
          match readBytes feed len s with
          | .error e => .error e
          | .ok (bs, s) => .ok (bs, budget, s)

/-! ## Lists of values -/

/-- Bytes that can be in memory. -/
abbrev Blob := {data : Bytes // data.length < 2 ^ 63}

/-- A value to write, with the width of its type. -/
inductive Value where
  | v (value : BitVec 64)
  | s (value : I64)
  | vb (data : Blob)

/-- A value that was read. -/
inductive Datum where
  | v (value : Nat)
  | s (value : Int)
  | vb (data : Bytes)

/-- The three encodings. -/
inductive Coding where
  | v
  | s
  | vb

namespace Value

/-- The encoding of a value. -/
def coding : Value → Coding
  | .v _ => .v
  | .s _ => .s
  | .vb _ => .vb

/-- What a reader returns for a value. -/
def datum : Value → Datum
  | .v value => .v value.toNat
  | .s value => .s value.val
  | .vb data => .vb data.val

def code : Value → Nat
  | .v value => value.toNat
  | .s value => rawOf value
  | .vb data => data.val.length

/-- The values that are not near the ends of their type. -/
def Fits : Value → Prop
  | .v value => value.toNat < 2 ^ 63
  | .s value => -2 ^ 62 < value.val ∧ value.val ≤ 2 ^ 62
  | .vb _ => True

/-- The bytes of a value after its code. -/
def payload : Value → Bytes
  | .vb data => data.val
  | _ => []

def write : Value → Option Bytes
  | .v value => writeV value.toNat
  | .s value => writeS value
  | .vb data => writeVb data.val

/-- What a value takes from the budget of its reader. -/
def pay (budget : Budget) : Value → Except LimitError Budget
  | .vb data => budget.charge data.val.length
  | _ => .ok budget

end Value

/-- Encode values one after another. -/
def writeAll : List Value → Option Bytes
  | [] => some []
  | item :: items =>
      match item.write, writeAll items with
      | some bytes, some more => some (bytes ++ more)
      | _, _ => none

/-- What the values take from the budget of their reader. -/
def payAll (budget : Budget) : List Value → Except LimitError Budget
  | [] => .ok budget
  | item :: items =>
      match item.pay budget with
      | .error e => .error e
      | .ok budget => payAll budget items

/-- Decode a value with the reader of its encoding. -/
def readOne (feed : ByteFeed σ) (budget : Budget) (s : σ) :
    Coding → Except Error (Datum × Budget × σ)
  | .v => (readV feed s).map fun r => (.v r.1, budget, r.2)
  | .s => (readS feed s).map fun r => (.s r.1, budget, r.2)
  | .vb => (readVb feed budget s).map fun r => (.vb r.1, r.2.1, r.2.2)

/-- Decode values one after another. -/
def readAll (feed : ByteFeed σ) (budget : Budget) (s : σ) :
    List Coding → Except Error (List Datum × Budget × σ)
  | [] => .ok ([], budget, s)
  | coding :: codings =>
      match readOne feed budget s coding with
      | .error e => .error e
      | .ok (datum, budget, s) =>
          match readAll feed budget s codings with
          | .error e => .error e
          | .ok (data, budget, s) => .ok (datum :: data, budget, s)

/-- A source yields some bytes on the way from one state to another. -/
def Delivers (feed : ByteFeed σ) (s' : σ) : Bytes → σ → Prop
  | [], s => s = s'
  | b :: bytes, s => ∃ next, feed.nextByte s = .ok (b, next) ∧ Delivers feed s' bytes next

/-- The writers end, and every source of the bytes is read back to the values and left right behind
the bytes. -/
def RoundTrips (items : List Value) : Prop :=
  ∃ bytes, writeAll items = some bytes ∧
    ∀ (σ : Type) (feed : ByteFeed σ) (s s' : σ) (budget budget' : Budget),
      Delivers feed s' bytes s → payAll budget items = .ok budget' →
        readAll feed budget s (items.map Value.coding) =
          .ok (items.map Value.datum, budget', s')

/-! ## Sources -/

variable {feed : ByteFeed σ} {s s' : σ} {bytes more : Bytes}

theorem delivers_append :
    Delivers feed s' (bytes ++ more) s ↔
      ∃ mid, Delivers feed mid bytes s ∧ Delivers feed s' more mid := by
  induction bytes generalizing s with
  | nil => simp [Delivers]
  | cons b bytes ih =>
      simp only [List.cons_append, Delivers, ih]
      constructor
      · rintro ⟨next, hnext, mid, hbytes, hmore⟩
        exact ⟨mid, ⟨next, hnext, hbytes⟩, hmore⟩
      · rintro ⟨mid, ⟨next, hnext, hbytes⟩, hmore⟩
        exact ⟨next, hnext, mid, hbytes, hmore⟩

theorem readBytes_of_delivers (h : Delivers feed s' bytes s) :
    readBytes feed bytes.length s = .ok (bytes, s') := by
  induction bytes generalizing s with
  | nil => rw [show s = s' from h]; rfl
  | cons b bytes ih =>
      rcases h with ⟨next, hnext, hbytes⟩
      simp [readBytes, hnext, ih hbytes]

/-! ## Groups -/

variable {value n nbits : Nat}

theorem shiftRight_eq_zero_iff : value >>> n = 0 ↔ value < 2 ^ n := by
  rw [Nat.shiftRight_eq_div_pow, Nat.div_eq_zero_iff_lt (Nat.two_pow_pos n)]

theorem groupCount_eq_some (h : groupCount value nbits = some n) :
    value < 2 ^ (7 * (n + 1)) ∧ 7 * (n + 1) < 64 := by
  fun_induction groupCount value nbits with
  | case1 => cases h
  | case2 nbits hshift hvalue ih => exact ih h
  | case3 nbits hshift hvalue =>
      cases h
      exact ⟨shiftRight_eq_zero_iff.1 (not_not.1 hvalue), by omega⟩

theorem groupCount_eq_none_iff (hn : nbits ≤ 8) :
    groupCount value nbits = none ↔ 2 ^ 63 ≤ value := by
  fun_induction groupCount value nbits with
  | case1 nbits hshift => omega
  | case2 nbits hshift hvalue ih =>
      by_cases hlast : nbits = 8
      · subst hlast
        have hlarge := mt shiftRight_eq_zero_iff.2 hvalue
        rw [groupCount, if_pos (by norm_num)]
        exact ⟨fun _ => by simpa using hlarge, fun _ => rfl⟩
      · exact ih (by omega)
  | case3 nbits hshift hvalue =>
      have hsmall := shiftRight_eq_zero_iff.1 (not_not.1 hvalue)
      have hpow : 2 ^ (7 * (nbits + 1)) ≤ 2 ^ 63 :=
        Nat.pow_le_pow_right (by norm_num) (by omega)
      simp only [reduceCtorEq, false_iff]
      omega

/-- The groups cannot be counted exactly from `2 ^ 63` on. -/
theorem writeV_eq_none_iff : writeV value = none ↔ 2 ^ 63 ≤ value := by
  rw [writeV, Option.map_eq_none_iff]
  exact groupCount_eq_none_iff (Nat.zero_le 8)

theorem group_bits {g : Nat} (hg : g < 128) :
    ((0x80#8 ||| BitVec.ofNat 8 g) &&& 0x7F#8).toNat = g ∧
      (0x80#8 ||| BitVec.ofNat 8 g) &&& 0x80#8 ≠ 0 ∧
      (BitVec.ofNat 8 g &&& 0x7F#8).toNat = g ∧ BitVec.ofNat 8 g &&& 0x80#8 = 0 := by
  have hall : ∀ g < 128, ((0x80#8 ||| BitVec.ofNat 8 g) &&& 0x7F#8).toNat = g ∧
      (0x80#8 ||| BitVec.ofNat 8 g) &&& 0x80#8 ≠ 0 ∧
      (BitVec.ofNat 8 g &&& 0x7F#8).toNat = g ∧ BitVec.ofNat 8 g &&& 0x80#8 = 0 := by
    decide +kernel
  exact hall g hg

theorem shiftRight_and (value n : Nat) : (value >>> n) &&& 0x7F = value / 2 ^ n % 128 := by
  rw [Nat.shiftRight_eq_div_pow]
  exact Nat.and_two_pow_sub_one_eq_mod _ 7

theorem div_mul_add (value n : Nat) :
    value / 2 ^ (7 * (n + 1)) * 128 + value / 2 ^ (7 * n) % 128 = value / 2 ^ (7 * n) := by
  have hpow : 2 ^ (7 * (n + 1)) = 2 ^ (7 * n) * 128 := by rw [Nat.mul_add, Nat.pow_add]
  rw [hpow, ← Nat.div_div_eq_div_mul, Nat.mul_comm]
  exact Nat.div_add_mod _ 128

/-- After the groups above, the reader ends with the value. -/
theorem readGroups_groupsOf {left : Nat} (hvalue : value ≤ u64Max) (hleft : n < left)
    (h : Delivers feed s' (groupsOf value n) s) :
    readGroups feed left (value / 2 ^ (7 * (n + 1))) s = .ok (value, s') := by
  induction n generalizing left s with
  | zero =>
      rcases left with - | left
      · omega
      rcases h with ⟨next, hnext, rfl⟩
      have hmod : value &&& 0x7F = value % 128 := Nat.and_two_pow_sub_one_eq_mod value 7
      have hbits := group_bits (Nat.mod_lt value (by norm_num : 0 < 128))
      have hsum : value / 2 ^ (7 * (0 + 1)) * 128 + value % 128 = value := by
        simpa using div_mul_add value 0
      rw [hmod] at hnext
      simp only [readGroups, hnext, hbits.2.2.1, hbits.2.2.2, hsum, if_neg (not_lt.2 hvalue),
        if_true]
  | succ n ih =>
      rcases left with - | left
      · omega
      rcases h with ⟨next, hnext, hrest⟩
      have hbits := group_bits (Nat.mod_lt (value / 2 ^ (7 * (n + 1))) (by norm_num : 0 < 128))
      have hsum := div_mul_add value (n + 1)
      have hle : value / 2 ^ (7 * (n + 1)) ≤ u64Max := (Nat.div_le_self _ _).trans hvalue
      rw [shiftRight_and] at hnext
      simp only [readGroups, hnext, hbits.1, if_neg hbits.2.1, hsum, if_neg (not_lt.2 hle)]
      exact ih (by omega) hrest

theorem readV_of_writeV (hvalue : value ≤ u64Max) (hwrite : writeV value = some bytes)
    (h : Delivers feed s' bytes s) : readV feed s = .ok (value, s') := by
  rcases Option.map_eq_some_iff.1 hwrite with ⟨n, hcount, rfl⟩
  have hn := groupCount_eq_some hcount
  have hread := readGroups_groupsOf hvalue (by unfold MAX_VLC_BYTES; omega : n < MAX_VLC_BYTES) h
  rwa [Nat.div_eq_of_lt hn.1] at hread

/-! ## The round trip -/

theorem u64Max_eq : u64Max = 18446744073709551615 :=
  rfl

theorem rawOf_lt_iff {value : I64} :
    rawOf value < 2 ^ 63 ↔ -2 ^ 62 < value.val ∧ value.val ≤ 2 ^ 62 := by
  have hle := value.le_val
  have hge := value.val_le
  unfold rawOf
  rw [u64Max_eq]
  split <;> omega

theorem readS_of_writeS {value : I64} (hfits : rawOf value < 2 ^ 63)
    (hwrite : writeS value = some bytes) (h : Delivers feed s' bytes s) :
    readS feed s = .ok (value.val, s') := by
  have hle := value.le_val
  have hge := value.val_le
  have hmax := u64Max_eq
  have hread := readV_of_writeV (by omega) hwrite h
  have hrange := rawOf_lt_iff.1 hfits
  simp only [readS, hread]
  rw [if_neg (by omega), if_neg (by omega)]
  by_cases hpos : 0 < value.val
  · have hraw : rawOf value = value.val.natAbs * 2 - 1 := by
      rw [rawOf, if_pos hpos, min_eq_right (by omega)]
    rw [if_neg (by omega)]
    congr 2
    omega
  · have hraw : rawOf value = value.val.natAbs * 2 := by
      rw [rawOf, if_neg hpos, min_eq_right (by omega)]
    rw [if_pos (by omega)]
    congr 2
    omega

theorem Value.fits_iff (item : Value) : item.Fits ↔ item.code < 2 ^ 63 := by
  cases item with
  | v value => exact Iff.rfl
  | s value => exact rawOf_lt_iff.symm
  | vb data => exact ⟨fun _ => data.property, fun _ => trivial⟩

theorem Value.write_eq (item : Value) :
    item.write = (writeV item.code).map (· ++ item.payload) := by
  cases item with
  | v value => simp [write, code, payload]
  | s value => simp [write, code, payload, writeS]
  | vb data => rfl

theorem Value.write_eq_none_iff (item : Value) : item.write = none ↔ ¬ item.Fits := by
  rw [item.write_eq, Option.map_eq_none_iff, writeV_eq_none_iff, item.fits_iff, not_lt]

theorem readOne_of_write {item : Value} {budget budget' : Budget} (hfits : item.Fits)
    (hwrite : item.write = some bytes) (hpay : item.pay budget = .ok budget')
    (h : Delivers feed s' bytes s) :
    readOne feed budget s item.coding = .ok (item.datum, budget', s') := by
  have hcode := item.fits_iff.1 hfits
  cases item with
  | v value =>
      cases hpay
      have hread := readV_of_writeV (Nat.le_of_lt_succ value.isLt) hwrite h
      simp [Value.coding, readOne, hread, Except.map, Value.datum]
  | s value =>
      cases hpay
      have hread := readS_of_writeS hcode hwrite h
      simp [Value.coding, readOne, hread, Except.map, Value.datum]
  | vb data =>
      rcases Option.map_eq_some_iff.1 hwrite with ⟨head, hhead, rfl⟩
      rcases delivers_append.1 h with ⟨mid, hmid, hdata⟩
      have hlength := data.property
      have hmax := u64Max_eq
      have hread := readV_of_writeV (by omega) hhead hmid
      have hpaid : budget.charge data.val.length = .ok budget' := hpay
      simp [Value.coding, readOne, readVb, hread, hpaid, readBytes_of_delivers hdata, Except.map,
        Value.datum]

theorem writeAll_eq_none {items : List Value} (h : ∃ item ∈ items, ¬ item.Fits) :
    writeAll items = none := by
  induction items with
  | nil => simp at h
  | cons item items ih =>
      rcases h with ⟨bad, hbad, hfits⟩
      rcases List.mem_cons.1 hbad with rfl | hmem
      · simp [writeAll, bad.write_eq_none_iff.2 hfits]
      · simp [writeAll, ih ⟨bad, hmem, hfits⟩]

theorem roundTrips_of_fits {items : List Value} (h : ∀ item ∈ items, item.Fits) :
    RoundTrips items := by
  induction items with
  | nil =>
      refine ⟨[], rfl, ?_⟩
      intro σ feed s s' budget budget' hdelivers hpay
      cases hpay
      rw [show s = s' from hdelivers]
      rfl
  | cons item items ih =>
      rcases ih (fun other hmem => h other (List.mem_cons_of_mem item hmem)) with
        ⟨more, hmore, hread⟩
      have hfits := h item List.mem_cons_self
      have hsome : ∃ bytes, item.write = some bytes :=
        Option.ne_none_iff_exists'.1 (mt item.write_eq_none_iff.1 (not_not.2 hfits))
      rcases hsome with ⟨bytes, hbytes⟩
      refine ⟨bytes ++ more, by simp [writeAll, hbytes, hmore], ?_⟩
      intro σ feed s s' budget budget' hdelivers hpay
      rcases delivers_append.1 hdelivers with ⟨mid, hhead, htail⟩
      unfold payAll at hpay
      cases hfirst : item.pay budget with
      | error e => simp [hfirst] at hpay
      | ok paid =>
          have hone := readOne_of_write hfits hbytes hfirst hhead
          have hall := hread σ feed mid s' paid budget' htail (by simpa [hfirst] using hpay)
          simp [readAll, hone, hall]

/-- Values are written and read back exactly when none of them is near the ends of its type. -/
theorem values_round_trip_iff (items : List Value) :
    RoundTrips items ↔ ∀ item ∈ items, item.Fits := by
  refine ⟨?_, roundTrips_of_fits⟩
  rintro ⟨bytes, hbytes, -⟩ item hmem
  by_contra hfits
  rw [writeAll_eq_none ⟨item, hmem, hfits⟩] at hbytes
  cases hbytes

/-- The value `2 ^ 63` cannot be written. -/
theorem not_roundTrips_two_pow : ¬ RoundTrips [.v 0x8000000000000000#64] := by
  rintro ⟨bytes, hbytes, -⟩
  rw [writeAll_eq_none ⟨_, List.mem_singleton_self _, by simp [Value.Fits]⟩] at hbytes
  cases hbytes

end Nut
end Vaco
