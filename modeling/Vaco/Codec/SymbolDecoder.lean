import Vaco.Bitstream.BitReader
import Vaco.Library.IntervalCoder

/-!
# The symbol decoder

A symbol of an alphabet is found by comparing the value with the cuts that the thresholds of
its array make into the range, from the first symbol on; every symbol keeps a least part of
the range.  The range is doubled back to 16 bits, with as many bits read behind the value,
and the thresholds move towards the symbol.

Sums and products of 32-bit words wrap; only arrays of more than a thousand million
thresholds come so far.

Main results:

- `Cdf.updateCdf_valid`: an adapted array is a distribution.
- `symbol_invariant`: no sequence of calls underflows.

Current gaps:

- The count of bits that are left is a number without bounds; the theorem says how far it
  can get below zero.
-/

namespace Vaco
namespace Codec

open Library BitStream Checked IntervalCoder
open Vaco.Bitstream

/-! ## Arrays of thresholds -/

/-- The thresholds of an alphabet, the last of them 32768, and a counter behind them. -/
abbrev Cdf := List Nat

namespace Cdf

/-- The size of the alphabet. -/
def arity (cdf : Cdf) : Nat :=
  cdf.length - 1

/-- An entry, 32768 past the end. -/
def threshold (cdf : Cdf) (i : Nat) : Nat :=
  (cdf[i]?).getD 32768

/-- The thresholds of at least two symbols do not decrease up to the last one, and the
counter is at most 32. -/
structure Valid (cdf : Cdf) : Prop where
  two_le : 2 ≤ cdf.arity
  sorted : ∀ i, i + 1 < cdf.arity → cdf.threshold i ≤ cdf.threshold (i + 1)
  last : cdf.threshold (cdf.arity - 1) = 32768
  counter : cdf.threshold cdf.arity ≤ 32

/-- Move a threshold towards a target by a part of the distance. -/
def adapt (rate target slot : Nat) : Nat :=
  if target < slot then slot - (slot - target) / 2 ^ rate else slot + (target - slot) / 2 ^ rate

/-- Move thresholds towards zero below the symbol and towards 32768 from it on. -/
def adaptLoop (symbol rate : Nat) : Nat → Nat → Cdf → Cdf
  | _, _, [] => []
  | i, tmp, slot :: rest =>
      let tmp := if i = symbol then 32768 else tmp
      adapt rate tmp slot :: adaptLoop symbol rate (i + 1) tmp rest

/-- The rate at which an array adapts. -/
def rate (count n : Nat) : Nat :=
  3 + (if 15 < count then 1 else 0) + (if 31 < count then 1 else 0) + min (Nat.log2 n) 2

/-- Adapt an array to a symbol and count it. -/
def update (cdf : Cdf) (symbol n : Nat) : Cdf :=
  let r := rate ((cdf[n]?).getD 0) n
  let adapted := adaptLoop symbol r 0 0 (cdf.take (n - 1)) ++ cdf.drop (n - 1)
  match adapted[n]? with
  | none => adapted
  | some count => if count < 32 then adapted.set n (count + 1) else adapted

end Cdf

/-! ## The decoder -/

/-- A word if the number fits into 32 bits, else a default. -/
def toU32 (n fallback : Nat) : Nat :=
  if n < 4294967296 then n else fallback

/-- The state of the symbol decoder. -/
structure SymbolDecoder where
  reader : BitReader
  value : Nat
  range : Nat
  maxBits : Int
  disableCdfUpdate : Bool

namespace SymbolDecoder

/-- Start on the bytes of a tile. -/
def new (data : Slice) (disableCdfUpdate : Bool) : SymbolDecoder :=
  let bits := min (data.bytes.length * 8) u64Max
  let numBits := min bits 15
  let read := (BitReader.new data).get (toU32 numBits 0)
  { reader := read.1
    value := (2 ^ 15 - 1) ^^^ (read.2.toNat * 2 ^ (15 - numBits))
    range := 2 ^ 15
    maxBits := (min bits 9223372036854775807 : Nat) - 15
    disableCdfUpdate := disableCdfUpdate }

/-- The cut below a symbol that its threshold and the least parts of the symbols behind it
make into the range. -/
def cut (range n symbol threshold : Nat) : Nat :=
  let f := 32768 - threshold
  let scaled := range / 2 ^ 8 * (f / 2 ^ 6) / 2 ^ (7 - 6)
  let remaining := toU32 n 0 - (toU32 symbol 0 + 1) % 4294967296
  (scaled + 4 * remaining % 4294967296) % 4294967296

/-- Find the first symbol whose cut the value reaches; the cut above it is handed on. -/
def symbolLoop (d : SymbolDecoder) (cdf : Cdf) (n : Nat) :
    Nat → Nat → Nat → Option (Nat × Nat × Nat)
  | 0, _, _ => none
  | fuel + 1, symbol, prev => do
      let _ ← sub 32768 (cdf.threshold symbol)
      let cur := cut d.range n symbol (cdf.threshold symbol)
      if cur ≤ d.value then some (symbol, prev, cur) else symbolLoop d cdf n fuel (symbol + 1) cur

/-- Double the range to 16 bits and read as many bits behind the value, with zeros past the
end of the data. -/
def renorm (d : SymbolDecoder) : Option SymbolDecoder := do
  let bits := 15 - Nat.log2 d.range
  let numBits := min bits (toU32 d.maxBits.toNat 4294967295)
  let read := d.reader.get numBits
  let padding ← sub bits numBits
  let padded := read.2.toNat * 2 ^ padding
  let filled := ((d.value + 1) * 2 ^ bits % 4294967296 + 4294967295) % 4294967296
  some { d with
    reader := read.1
    range := d.range * 2 ^ bits % 4294967296
    value := padded ^^^ filled
    maxBits := d.maxBits - bits }

/-- Read one symbol and adapt the array; the search ends behind the last entry at the
latest. -/
def readSymbol (d : SymbolDecoder) (cdf : Cdf) : Option (SymbolDecoder × Cdf × Nat) := do
  let n := cdf.length - 1
  let (symbol, prev, cur) ← d.symbolLoop cdf n (cdf.length + 1) 0 d.range
  let range ← sub prev cur
  let value ← sub d.value cur
  let d ← renorm { d with range := range, value := value }
  let symbol := toU32 symbol 0
  some (d, if d.disableCdfUpdate then cdf else cdf.update symbol n, symbol)

/-- Read a bit of equal probabilities. -/
def readBool (d : SymbolDecoder) : Option (SymbolDecoder × Nat) := do
  let (d, _, symbol) ← d.readSymbol [2 ^ 14, 2 ^ 15, 0]
  some (d, symbol)

/-- Read bits behind a number. -/
def literalLoop : Nat → SymbolDecoder → Nat → Option (SymbolDecoder × Nat)
  | 0, d, x => some (d, x)
  | n + 1, d, x => do
      let (d, bit) ← d.readBool
      literalLoop n d (2 * x % 4294967296 ||| bit)

/-- Read a literal, most significant bit first. -/
def readLiteral (d : SymbolDecoder) (n : Nat) : Option (SymbolDecoder × Nat) :=
  literalLoop n d 0

/-- Move the reader past the bits that are left. -/
def exitSymbol (d : SymbolDecoder) : SymbolDecoder :=
  if 0 < d.maxBits then { d with reader := d.reader.skipLong d.maxBits.toNat } else d

end SymbolDecoder

/-! ## Adapting -/

namespace Cdf

theorem sub_div_mono {x y k : Nat} (hk : 0 < k) (h : x ≤ y) : x - x / k ≤ y - y / k := by
  have hstep : y / k ≤ x / k + (y - x) := by
    calc y / k ≤ (x + k * (y - x)) / k :=
          Nat.div_le_div_right (by have := Nat.le_mul_of_pos_left (y - x) hk; omega)
      _ = x / k + (y - x) := Nat.add_mul_div_left x (y - x) hk
  have hx := Nat.div_le_self x k
  omega

/-- The target of a threshold behind a number of others. -/
def target (symbol i : Nat) : Nat :=
  if symbol ≤ i then 32768 else 0

theorem adapt_zero (rate slot : Nat) : adapt rate 0 slot = slot - slot / 2 ^ rate := by
  rw [adapt]
  split
  · rw [Nat.sub_zero]
  · have hzero : slot = 0 := by omega
    rw [hzero, Nat.zero_sub, Nat.zero_div]

theorem adapt_top {rate slot : Nat} (h : slot ≤ 32768) :
    adapt rate 32768 slot = slot + (32768 - slot) / 2 ^ rate := by
  rw [adapt, if_neg (by omega)]

theorem adapt_le {rate slot : Nat} (symbol i : Nat) (h : slot ≤ 32768) :
    adapt rate (target symbol i) slot ≤ 32768 := by
  have hpart := Nat.div_le_self (32768 - slot) (2 ^ rate)
  rw [target]
  split
  · rw [adapt_top h]
    omega
  · rw [adapt_zero]
    exact (Nat.sub_le _ _).trans h

theorem adapt_mono {rate a b : Nat} (symbol i : Nat) (h : a ≤ b) (hb : b ≤ 32768) :
    adapt rate (target symbol i) a ≤ adapt rate (target symbol (i + 1)) b := by
  have hpow : 0 < 2 ^ rate := by positivity
  rw [target, target]
  by_cases hsymbol : symbol ≤ i
  · have hrest := sub_div_mono hpow (show 32768 - b ≤ 32768 - a by omega)
    have hpart := Nat.div_le_self (32768 - a) (2 ^ rate)
    have hpart' := Nat.div_le_self (32768 - b) (2 ^ rate)
    rw [if_pos hsymbol, if_pos (by omega), adapt_top (h.trans hb), adapt_top hb]
    omega
  · rw [if_neg hsymbol, adapt_zero]
    by_cases hnext : symbol ≤ i + 1
    · rw [if_pos hnext, adapt_top hb]
      exact (Nat.sub_le _ _).trans (h.trans (Nat.le_add_right _ _))
    · rw [if_neg hnext, adapt_zero]
      exact sub_div_mono hpow h

theorem getElem?_adaptLoop (symbol r i : Nat) (slots : Cdf) (j : Nat) :
    (adaptLoop symbol r i (if symbol < i then 32768 else 0) slots)[j]? =
      (slots[j]?).map (adapt r (target symbol (i + j))) := by
  induction slots generalizing i j with
  | nil => rfl
  | cons slot slots ih =>
      have htmp : (if i = symbol then 32768 else if symbol < i then 32768 else 0) =
          if symbol < i + 1 then 32768 else 0 := by
        by_cases heq : i = symbol
        · rw [if_pos heq, if_pos (by omega)]
        · rw [if_neg heq]
          exact if_congr (by omega) rfl rfl
      rw [adaptLoop, htmp]
      cases j with
      | zero =>
          rw [List.getElem?_cons_zero, List.getElem?_cons_zero, Option.map_some, target]
          simp only [Nat.lt_succ_iff, Nat.add_zero]
      | succ j =>
          rw [List.getElem?_cons_succ, List.getElem?_cons_succ, ih, Nat.add_right_comm,
            Nat.add_assoc]

theorem length_adaptLoop (symbol r i tmp : Nat) (slots : Cdf) :
    (adaptLoop symbol r i tmp slots).length = slots.length := by
  induction slots generalizing i tmp with
  | nil => rfl
  | cons slot slots ih => rw [adaptLoop, List.length_cons, ih, List.length_cons]

/-- The adapted entries before the counter is raised. -/
theorem getElem?_adapted (symbol r m : Nat) (cdf : Cdf) (j : Nat) :
    (adaptLoop symbol r 0 0 (cdf.take m) ++ cdf.drop m)[j]? =
      if j < m then (cdf[j]?).map (adapt r (target symbol j)) else cdf[j]? := by
  have hloop := getElem?_adaptLoop symbol r 0 (cdf.take m) j
  rw [if_neg (Nat.not_lt_zero symbol), Nat.zero_add] at hloop
  have hlength := length_adaptLoop symbol r 0 0 (cdf.take m)
  rw [List.length_take] at hlength
  by_cases hj : j < m
  · rw [if_pos hj]
    by_cases hin : j < cdf.length
    · rw [List.getElem?_append_left (by omega), hloop, List.getElem?_take_of_lt hj]
    · rw [List.getElem?_eq_none (not_lt.mp hin)]
      apply List.getElem?_eq_none
      rw [List.length_append, hlength, List.length_drop]
      omega
  · rw [if_neg hj]
    by_cases hin : m ≤ cdf.length
    · rw [List.getElem?_append_right (by omega), hlength, min_eq_left hin, List.getElem?_drop,
        Nat.add_sub_cancel' (not_lt.mp hj)]
    · rw [List.getElem?_eq_none (show cdf.length ≤ j by omega)]
      apply List.getElem?_eq_none
      rw [List.length_append, hlength, List.length_drop]
      omega

theorem getElem?_of_lt {cdf : Cdf} {i : Nat} (h : i < cdf.length) :
    cdf[i]? = some (cdf.threshold i) := by
  rw [threshold, List.getElem?_eq_getElem h, Option.getD_some]

variable {cdf : Cdf}

theorem Valid.length (h : cdf.Valid) : cdf.length = cdf.arity + 1 := by
  have htwo := h.two_le
  unfold arity at htwo ⊢
  omega

theorem Valid.threshold_le (h : cdf.Valid) {i : Nat} (hi : i < cdf.arity) :
    cdf.threshold i ≤ 32768 := by
  induction hcount : cdf.arity - 1 - i generalizing i with
  | zero =>
      have hlast : i = cdf.arity - 1 := by omega
      rw [hlast, h.last]
  | succ k ih => exact (h.sorted i (by omega)).trans (ih (by omega) (by omega))

/-- Every entry of an adapted array. -/
theorem Valid.getElem?_update (h : cdf.Valid) (symbol j : Nat) :
    (cdf.update symbol cdf.arity)[j]? =
      if j = cdf.arity then some (min (cdf.threshold cdf.arity + 1) 32)
      else if j < cdf.arity - 1 then
        (cdf[j]?).map (adapt (rate (cdf.threshold cdf.arity) cdf.arity) (target symbol j))
      else cdf[j]? := by
  have hlength := h.length
  have htwo := h.two_le
  have hcounter := h.counter
  have hcount := getElem?_of_lt (show cdf.arity < cdf.length by omega)
  have hadapted := getElem?_adapted symbol (rate (cdf.threshold cdf.arity) cdf.arity)
    (cdf.arity - 1) cdf
  have hbehind := hadapted cdf.arity
  rw [if_neg (by omega), hcount] at hbehind
  rw [update, hcount, Option.getD_some, hbehind]
  dsimp only
  by_cases hroom : cdf.threshold cdf.arity < 32
  · rw [if_pos hroom, List.getElem?_set]
    by_cases hj : j = cdf.arity
    · have hin : cdf.arity < (adaptLoop symbol (rate (cdf.threshold cdf.arity) cdf.arity) 0 0
          (cdf.take (cdf.arity - 1)) ++ cdf.drop (cdf.arity - 1)).length := by
        rw [List.length_append, length_adaptLoop, List.length_take, List.length_drop]
        omega
      rw [if_pos hj.symm, if_pos hj, if_pos hin, min_eq_left hroom]
    · rw [if_neg (Ne.symm hj), if_neg hj, hadapted]
  · rw [if_neg hroom]
    by_cases hj : j = cdf.arity
    · rw [if_pos hj, hj, hbehind, min_eq_right (by omega)]
      congr 1
      omega
    · rw [if_neg hj, hadapted]

theorem Valid.arity_update (h : cdf.Valid) (symbol : Nat) :
    (cdf.update symbol cdf.arity).arity = cdf.arity := by
  have hlength := h.length
  have hsame : (cdf.update symbol cdf.arity).length = cdf.length := by
    rw [update]
    split
    · rw [List.length_append, length_adaptLoop, List.length_take, List.length_drop]
      omega
    · split
      · rw [List.length_set, List.length_append, length_adaptLoop, List.length_take,
          List.length_drop]
        omega
      · rw [List.length_append, length_adaptLoop, List.length_take, List.length_drop]
        omega
  simp only [arity] at hsame ⊢
  rw [hsame]

/-- Adapting an array keeps it a distribution of the same length. -/
theorem updateCdf_valid (h : cdf.Valid) (symbol : Nat) :
    (cdf.update symbol cdf.arity).Valid := by
  have hlength := h.length
  have htwo := h.two_le
  have hentry : ∀ j < cdf.arity - 1, (cdf.update symbol cdf.arity).threshold j =
      adapt (rate (cdf.threshold cdf.arity) cdf.arity) (target symbol j) (cdf.threshold j) := by
    intro j hj
    rw [threshold, h.getElem?_update, if_neg (by omega), if_pos hj, getElem?_of_lt (by omega),
      Option.map_some, Option.getD_some]
  have hlast : (cdf.update symbol cdf.arity).threshold (cdf.arity - 1) = 32768 := by
    rw [threshold, h.getElem?_update, if_neg (by omega), if_neg (by omega),
      getElem?_of_lt (by omega), Option.getD_some, h.last]
  refine ⟨?_, ?_, ?_, ?_⟩
  · rw [h.arity_update]
    exact htwo
  · intro i hi
    rw [h.arity_update] at hi
    rw [hentry i (by omega)]
    by_cases hnext : i + 1 < cdf.arity - 1
    · rw [hentry (i + 1) hnext]
      exact adapt_mono symbol i (h.sorted i (by omega)) (h.threshold_le (by omega))
    · rw [show i + 1 = cdf.arity - 1 by omega, hlast]
      exact adapt_le symbol i (h.threshold_le (by omega))
  · rw [h.arity_update]
    exact hlast
  · rw [h.arity_update, threshold, h.getElem?_update, if_pos rfl, Option.getD_some]
    exact min_le_right _ _

end Cdf

/-! ## The search -/

namespace SymbolDecoder

variable {d : SymbolDecoder} {cdf : Cdf}

theorem cut_sub_le {range n symbol a b : Nat} (hrange : range < 65536) (hsymbol : symbol + 1 < n)
    (hab : a ≤ b)
    (hcut : cut range n (symbol + 1) b < cut range n symbol a) :
    cut range n symbol a - cut range n (symbol + 1) b ≤ 65284 := by
  have hhigh : range / 2 ^ 8 * ((32768 - a) / 2 ^ 6) / 2 ^ (7 - 6) ≤ 65280 := by
    have hproduct : range / 2 ^ 8 * ((32768 - a) / 2 ^ 6) ≤ 255 * 512 :=
      Nat.mul_le_mul (by omega) (by omega)
    omega
  have hlow : range / 2 ^ 8 * ((32768 - b) / 2 ^ 6) / 2 ^ (7 - 6) ≤
      range / 2 ^ 8 * ((32768 - a) / 2 ^ 6) / 2 ^ (7 - 6) :=
    Nat.div_le_div_right (Nat.mul_le_mul_left _ (by omega))
  rw [cut, cut] at hcut ⊢
  generalize range / 2 ^ 8 * ((32768 - a) / 2 ^ 6) / 2 ^ (7 - 6) = high at *
  generalize range / 2 ^ 8 * ((32768 - b) / 2 ^ 6) / 2 ^ (7 - 6) = low at *
  by_cases hfit : n < 4294967296
  · rw [toU32, toU32, toU32, if_pos hfit, if_pos (by omega), if_pos (by omega)] at hcut ⊢
    omega
  · rw [toU32, if_neg hfit, Nat.zero_sub, Nat.zero_sub] at hcut ⊢
    omega

theorem cut_last {range n : Nat} (hn : 0 < n) : cut range n (n - 1) 32768 = 0 := by
  rw [cut]
  by_cases hfit : n < 4294967296
  · rw [toU32, toU32, if_pos hfit, if_pos (by omega),
      show n - (n - 1 + 1) % 4294967296 = 0 by omega]
    simp
  · rw [toU32, if_neg hfit, Nat.zero_sub]
    simp

/-- The search ends at a symbol of the alphabet, whose part of the range the value is in. -/
theorem symbolLoop_eq (h : cdf.Valid) (hrange : d.range < 65536) {fuel symbol prev : Nat}
    (hsymbol : symbol < cdf.arity) (hfuel : cdf.arity - symbol ≤ fuel) (hvalue : d.value < prev)
    (hprev : (symbol = 0 ∧ prev = d.range) ∨ ∃ s, symbol = s + 1 ∧
      prev = cut d.range cdf.arity s (cdf.threshold s)) :
    ∃ s prev' cur, d.symbolLoop cdf cdf.arity fuel symbol prev = some (s, prev', cur) ∧
      s < cdf.arity ∧ cur ≤ d.value ∧ d.value < prev' ∧ prev' - cur < 65536 := by
  induction fuel generalizing symbol prev with
  | zero => omega
  | succ fuel ih =>
      have hthreshold := h.threshold_le hsymbol
      rw [symbolLoop, sub_of_le hthreshold, some_bind]
      dsimp only
      by_cases hcur : cut d.range cdf.arity symbol (cdf.threshold symbol) ≤ d.value
      · rw [if_pos hcur]
        refine ⟨_, _, _, rfl, hsymbol, hcur, hvalue, ?_⟩
        rcases hprev with ⟨-, hwhole⟩ | ⟨s, hs, hcut⟩
        · omega
        · subst hs
          have hle := cut_sub_le hrange hsymbol (h.sorted s hsymbol)
            (by rw [← hcut]; omega)
          rw [← hcut] at hle
          omega
      · rw [if_neg hcur]
        have hmore : symbol + 1 < cdf.arity := by
          by_contra hend
          have hlast : symbol = cdf.arity - 1 := by omega
          rw [hlast, h.last, cut_last (by omega)] at hcur
          omega
        exact ih hmore (by omega) (not_le.mp hcur) (Or.inr ⟨symbol, rfl, rfl⟩)

/-! ## Renormalisation -/

theorem sub_log2_eq {range : Nat} (hpos : 0 < range) :
    15 - Nat.log2 range = doublingsTo 16 range := by
  have hsize : range.size = Nat.log2 range + 1 := by
    apply le_antisymm
    · exact Nat.size_le.mpr Nat.lt_log2_self
    · exact Nat.lt_size.mpr (Nat.log2_self_le hpos.ne')
  rw [doublingsTo, hsize]
  omega

theorem xor_filled_lt (value : Nat) {padded bits : Nat} (h : padded < 2 ^ bits) :
    padded ^^^ ((value + 1) * 2 ^ bits - 1) < (value + 1) * 2 ^ bits := by
  have hpos : 0 < 2 ^ bits := by positivity
  have hfilled : ((value + 1) * 2 ^ bits - 1) / 2 ^ bits = value := by
    rw [Nat.add_mul, Nat.one_mul, Nat.add_sub_assoc hpos, Nat.mul_comm, Nat.mul_add_div hpos,
      Nat.div_eq_of_lt (by omega), Nat.add_zero]
  rw [← Nat.div_lt_iff_lt_mul hpos, Nat.xor_div_two_pow, hfilled, Nat.div_eq_of_lt h,
    Nat.zero_xor]
  exact Nat.lt_succ_self value

/-- What was read and what is left make up all bits, at most 15 are counted below zero for the start
and for every symbol, and the value is below the range. -/
structure Sound (data : Slice) (total k : Nat) (d : SymbolDecoder) : Prop where
  reader : ∃ p : Nat, (BitReader.new data).MovesTo d.reader p ∧ p + max 0 d.maxBits = total
  floor : -15 - 15 * (k : Int) ≤ d.maxBits
  le_range : 32768 ≤ d.range
  range_lt : d.range < 65536
  value_lt : d.value < d.range

variable {data : Slice} {total k : Nat}

theorem min_toU32 {bits : Nat} (hbits : bits ≤ 15) (n : Nat) :
    min bits (toU32 n 4294967295) = min bits n := by
  rw [toU32]
  split
  · rfl
  · omega

/-- Renormalising a part of the range keeps a decoder sound. -/
theorem Sound.renorm (h : d.Sound data total k) {range value : Nat} (hrange : range < 65536)
    (hvalue : value < range) :
    ∃ d', renorm { d with range := range, value := value } = some d' ∧
      d'.Sound data total (k + 1) ∧ d'.disableCdfUpdate = d.disableCdfUpdate := by
  have hpos : 0 < range := by omega
  have hbounds : 2 ^ (16 - 1) ≤ range * 2 ^ doublingsTo 16 range ∧
      range * 2 ^ doublingsTo 16 range < 2 ^ 16 := doublingsTo_bounds hpos hrange
  have hcount : doublingsTo 16 range < 16 := doublingsTo_lt (by decide) hpos
  have hfloor := h.floor
  rcases h.reader with ⟨p, hmove, htotal⟩
  rw [SymbolDecoder.renorm]
  dsimp only
  rw [sub_log2_eq hpos]
  generalize hbits : doublingsTo 16 range = bits at hbounds hcount ⊢
  rw [min_toU32 (by omega)]
  generalize hnum : min bits d.maxBits.toNat = numBits
  have hread : numBits ≤ bits := by omega
  rcases hmove.at_pos.get (show numBits ≤ 32 by omega) with ⟨hget, hnumber⟩
  have hnew := number_lt (ofBytes d.reader.data.bytes) p numBits
  rw [← hnumber] at hnew
  have hpadded : (d.reader.get numBits).2.toNat * 2 ^ (bits - numBits) < 2 ^ bits := by
    calc (d.reader.get numBits).2.toNat * 2 ^ (bits - numBits)
        < 2 ^ numBits * 2 ^ (bits - numBits) :=
          Nat.mul_lt_mul_of_pos_right hnew (by positivity)
      _ = 2 ^ bits := by rw [← Nat.pow_add, Nat.add_sub_cancel' hread]
  have hscaled : (value + 1) * 2 ^ bits ≤ range * 2 ^ bits := Nat.mul_le_mul_right _ hvalue
  have hone : 1 ≤ (value + 1) * 2 ^ bits := Nat.mul_pos (Nat.succ_pos value) (by positivity)
  have hfilled : ((value + 1) * 2 ^ bits % 4294967296 + 4294967295) % 4294967296 =
      (value + 1) * 2 ^ bits - 1 := by
    omega
  have hlt := xor_filled_lt value hpadded
  rw [sub_of_le hread, some_bind, hfilled, Nat.mod_eq_of_lt (show range * 2 ^ bits < 4294967296 by
    omega)]
  refine ⟨_, rfl, ⟨⟨p + numBits, hmove.trans hget, ?_⟩, ?_, hbounds.1, hbounds.2, ?_⟩, rfl⟩
  · dsimp only
    push_cast
    omega
  · dsimp only
    push_cast
    omega
  · exact hlt.trans_le hscaled

/-! ## Calls -/

/-- A symbol is below the size of its alphabet, and the array stays a distribution. -/
theorem Sound.readSymbol (h : d.Sound data total k) (hcdf : cdf.Valid) :
    ∃ d' cdf' symbol, d.readSymbol cdf = some (d', cdf', symbol) ∧
      d'.Sound data total (k + 1) ∧ cdf'.Valid ∧ cdf'.arity = cdf.arity ∧ symbol < cdf.arity := by
  have hrange := h.range_lt
  have htwo := hcdf.two_le
  have hlength := hcdf.length
  rcases symbolLoop_eq hcdf hrange (show 0 < cdf.arity by omega)
    (show cdf.arity - 0 ≤ cdf.length + 1 by omega) h.value_lt (Or.inl ⟨rfl, rfl⟩) with
    ⟨s, prev, cur, hloop, hs, hcur, hprev, hpart⟩
  rcases h.renorm hpart (show d.value - cur < prev - cur by omega) with
    ⟨d', hrenorm, hsound, hdisable⟩
  have hword : toU32 s 0 ≤ s := by
    rw [toU32]
    split <;> omega
  refine ⟨d', if d'.disableCdfUpdate then cdf else cdf.update (toU32 s 0) cdf.arity, toU32 s 0,
    ?_, hsound, ?_, ?_, by omega⟩
  · rw [SymbolDecoder.readSymbol, show cdf.length - 1 = cdf.arity from rfl, hloop, some_bind]
    dsimp only
    rw [sub_of_le (by omega), some_bind, sub_of_le hcur, some_bind, hrenorm]
    rfl
  · split
    · exact hcdf
    · exact Cdf.updateCdf_valid hcdf _
  · split
    · rfl
    · exact hcdf.arity_update _

theorem boolCdf_valid : Cdf.Valid [2 ^ 14, 2 ^ 15, 0] where
  two_le := by decide
  sorted := by
    intro i hi
    have hzero : i = 0 := by
      change i + 1 < 2 at hi
      omega
    subst hzero
    decide
  last := rfl
  counter := by decide

theorem Sound.readBool (h : d.Sound data total k) :
    ∃ d' bit, d.readBool = some (d', bit) ∧ d'.Sound data total (k + 1) ∧ bit < 2 := by
  rcases h.readSymbol boolCdf_valid with ⟨d', cdf', bit, hread, hsound, -, -, hbit⟩
  refine ⟨d', bit, ?_, hsound, hbit⟩
  rw [SymbolDecoder.readBool, hread]
  rfl

/-- Bits behind a number give one with as many bits more, as far as a word goes. -/
theorem Sound.literalLoop (h : d.Sound data total k) {n m x : Nat} (hx : x < 2 ^ min m 32) :
    ∃ d' x', literalLoop n d x = some (d', x') ∧ d'.Sound data total (k + n) ∧
      x' < 2 ^ min (m + n) 32 := by
  induction n generalizing d k m x with
  | zero => exact ⟨d, x, rfl, h, hx⟩
  | succ n ih =>
      rcases h.readBool with ⟨d₁, bit, hread, hsound, hbit⟩
      have hnext : 2 * x % 4294967296 ||| bit < 2 ^ min (m + 1) 32 := by
        rw [show 2 * x % 4294967296 = 2 * (x % 2147483648) by omega, two_mul_or hbit]
        by_cases hm : m < 32
        · rw [min_eq_left hm.le] at hx
          rw [min_eq_left (show m + 1 ≤ 32 by omega), Nat.pow_succ]
          omega
        · rw [min_eq_right (show 32 ≤ m + 1 by omega)]
          omega
      rcases ih hsound hnext with ⟨d', x', hloop, hsound', hx'⟩
      refine ⟨d', x', ?_, ?_, ?_⟩
      · rw [SymbolDecoder.literalLoop, hread]
        exact hloop
      · rwa [Nat.add_assoc, Nat.add_comm 1] at hsound'
      · rwa [Nat.add_assoc, Nat.add_comm 1] at hx'

theorem Sound.readLiteral (h : d.Sound data total k) (n : Nat) :
    ∃ d' x, d.readLiteral n = some (d', x) ∧ d'.Sound data total (k + n) ∧ x < 2 ^ min n 32 := by
  rcases h.literalLoop (n := n) (m := 0) (x := 0) (by decide) with ⟨d', x, hloop, hsound, hx⟩
  rw [Nat.zero_add] at hx
  exact ⟨d', x, hloop, hsound, hx⟩

/-- The bits of a tile that are counted. -/
def counted (data : Slice) : Nat :=
  min (data.bytes.length * 8) 9223372036854775807

/-- A new decoder is sound. -/
theorem sound_new (data : Slice) (disable : Bool) :
    (new data disable).Sound data (counted data) 0 := by
  have hstart : (BitReader.new data).At 0 := BitReader.at_start _ _
  have hu64 : u64Max = 18446744073709551615 := rfl
  generalize hnum : min (min (data.bytes.length * 8) u64Max) 15 = numBits
  have hword : toU32 numBits 0 = numBits := by
    rw [toU32, if_pos (by omega)]
  rcases hstart.get (show numBits ≤ 32 by omega) with ⟨hget, hnumber⟩
  have hnew := number_lt (ofBytes (BitReader.new data).data.bytes) 0 numBits
  rw [← hnumber] at hnew
  have hpadded : ((BitReader.new data).get numBits).2.toNat * 2 ^ (15 - numBits) < 2 ^ 15 := by
    calc ((BitReader.new data).get numBits).2.toNat * 2 ^ (15 - numBits)
        < 2 ^ numBits * 2 ^ (15 - numBits) :=
          Nat.mul_lt_mul_of_pos_right hnew (by positivity)
      _ = 2 ^ 15 := by rw [← Nat.pow_add, Nat.add_sub_cancel' (by omega)]
  rw [new, hnum, hword]
  refine ⟨⟨0 + numBits, hget, ?_⟩, ?_, le_refl (2 ^ 15), show 2 ^ 15 < 65536 by decide, ?_⟩
  · rw [counted]
    dsimp only
    omega
  · dsimp only
    omega
  · exact Nat.xor_lt_two_pow (by decide) hpadded

theorem Sound.exitSymbol (h : d.Sound data (counted data) k)
    (hfit : data.bytes.length * 8 ≤ 9223372036854775807) :
    (BitReader.new data).MovesTo d.exitSymbol.reader (8 * data.bytes.length) := by
  rcases h.reader with ⟨p, hmove, htotal⟩
  rw [counted, min_eq_left hfit] at htotal
  rw [SymbolDecoder.exitSymbol]
  by_cases hleft : 0 < d.maxBits
  · rw [if_pos hleft]
    have hend : 8 * data.bytes.length = p + d.maxBits.toNat := by omega
    rw [hend]
    exact hmove.trans (hmove.at_pos.skipLong _)
  · have hend : 8 * data.bytes.length = p := by omega
    rw [if_neg hleft, hend]
    exact hmove

end SymbolDecoder

/-! ## Sequences of calls -/

section Calls

variable {ι : Type} [DecidableEq ι]

/-- A call of the decoder; a symbol is read with an array of a family. -/
inductive SymbolCall (ι : Type) where
  | symbol (i : ι)
  | bool
  | literal (n : Nat)

namespace SymbolCall

/-- The symbols that a call decodes. -/
def cost : SymbolCall ι → Nat
  | .symbol _ => 1
  | .bool => 1
  | .literal n => n

/-- What the answer of a call is below. -/
def bound (cdfs : ι → Cdf) : SymbolCall ι → Nat
  | .symbol i => (cdfs i).arity
  | .bool => 2
  | .literal n => 2 ^ min n 32

end SymbolCall

/-- A decoder with a family of arrays. -/
structure SymbolState (ι : Type) where
  decoder : SymbolDecoder
  cdfs : ι → Cdf

/-- Perform a call. -/
def symbolStep (s : SymbolState ι) : SymbolCall ι → Option (SymbolState ι × Nat)
  | .symbol i => do
      let (d, cdf, symbol) ← s.decoder.readSymbol (s.cdfs i)
      some (⟨d, Function.update s.cdfs i cdf⟩, symbol)
  | .bool => do
      let (d, bit) ← s.decoder.readBool
      some (⟨d, s.cdfs⟩, bit)
  | .literal n => do
      let (d, x) ← s.decoder.readLiteral n
      some (⟨d, s.cdfs⟩, x)

/-- A sound decoder with distributions of the same sizes as those of a family. -/
structure SymbolState.Sound (data : Slice) (cdfs : ι → Cdf) (k : Nat) (s : SymbolState ι) :
    Prop where
  decoder : s.decoder.Sound data (SymbolDecoder.counted data) k
  valid : ∀ i, (s.cdfs i).Valid
  arity : ∀ i, (s.cdfs i).arity = (cdfs i).arity

/-- Every call succeeds, answers below its bound and keeps the state sound. -/
theorem symbolStep_keeps (data : Slice) (cdfs : ι → Cdf) (k : Nat) (s : SymbolState ι)
    (call : SymbolCall ι) (h : s.Sound data cdfs k) :
    ∃ s' answer, symbolStep s call = some (s', answer) ∧ s'.Sound data cdfs (k + call.cost) ∧
      answer < call.bound cdfs := by
  cases call with
  | symbol i =>
      rcases h.decoder.readSymbol (h.valid i) with
        ⟨d, cdf, symbol, hread, hsound, hvalid, harity, hlt⟩
      rw [h.arity i] at harity hlt
      refine ⟨⟨d, Function.update s.cdfs i cdf⟩, symbol, ?_, ⟨hsound, ?_, ?_⟩, hlt⟩
      · rw [symbolStep, hread]
        rfl
      · intro j
        dsimp only
        rw [Function.update_apply]
        split
        · exact hvalid
        · exact h.valid j
      · intro j
        dsimp only
        rw [Function.update_apply]
        split
        · rename_i hj
          rw [harity, hj]
        · exact h.arity j
  | bool =>
      rcases h.decoder.readBool with ⟨d, bit, hread, hsound, hlt⟩
      refine ⟨⟨d, s.cdfs⟩, bit, ?_, ⟨hsound, h.valid, h.arity⟩, hlt⟩
      rw [symbolStep, hread]
      rfl
  | literal n =>
      rcases h.decoder.readLiteral n with ⟨d, x, hread, hsound, hlt⟩
      refine ⟨⟨d, s.cdfs⟩, x, ?_, ⟨hsound, h.valid, h.arity⟩, hlt⟩
      rw [symbolStep, hread]
      rfl

/-- No sequence of calls underflows: answers are below their bounds, the value is below the range of
16 bits, the arrays are distributions, and leaving moves the reader to the end of the tile. -/
theorem symbol_invariant (data : Slice) (disable : Bool) (cdfs : ι → Cdf)
    (h : ∀ i, (cdfs i).Valid) (calls : List (SymbolCall ι)) :
    ∃ s answers, run symbolStep ⟨SymbolDecoder.new data disable, cdfs⟩ calls = some (s, answers) ∧
      List.Forall₂ (fun call answer => answer < call.bound cdfs) calls answers ∧
      2 ^ 15 ≤ s.decoder.range ∧ s.decoder.range < 2 ^ 16 ∧ s.decoder.value < s.decoder.range ∧
      (∀ i, (s.cdfs i).Valid ∧ (s.cdfs i).arity = (cdfs i).arity) ∧
      (data.bytes.length * 8 ≤ 9223372036854775807 →
        s.decoder.exitSymbol.reader.bitPos = 8 * data.bytes.length) ∧
      -15 - 15 * ((calls.map SymbolCall.cost).sum : Int) ≤ s.decoder.maxBits := by
  have hstart : SymbolState.Sound data cdfs 0 ⟨SymbolDecoder.new data disable, cdfs⟩ :=
    ⟨SymbolDecoder.sound_new data disable, h, fun _ => rfl⟩
  rcases run_counted SymbolCall.cost (symbolStep_keeps data cdfs) hstart calls with
    ⟨s, answers, hrun, hsound, hanswers⟩
  have hdecoder := hsound.decoder
  rw [Nat.zero_add] at hdecoder
  refine ⟨s, answers, hrun, hanswers, hdecoder.le_range, hdecoder.range_lt, hdecoder.value_lt,
    fun i => ⟨hsound.valid i, hsound.arity i⟩, ?_, hdecoder.floor⟩
  intro hfit
  have hu64 : u64Max = 18446744073709551615 := rfl
  exact (hdecoder.exitSymbol hfit).at_pos.bitPos_eq (by omega)

/-- An array of four equal symbols. -/
def quarters : Cdf :=
  [8192, 16384, 24576, 32768, 0]

theorem quarters_valid : quarters.Valid where
  two_le := by decide
  sorted := by
    intro i hi
    have hlt : i < 3 := by
      change i + 1 < 4 at hi
      omega
    interval_cases i <;> decide
  last := rfl
  counter := by decide

/-- Every kind of call, on a tile of one byte. -/
def mixedCalls : List (SymbolCall Unit) :=
  [.symbol (), .bool, .literal 40, .symbol ()]

theorem symbol_invariant_mixedCalls :
    ∃ s answers, run symbolStep ⟨SymbolDecoder.new ⟨[0xA5], by decide⟩ false, fun _ => quarters⟩
        mixedCalls = some (s, answers) ∧
      List.Forall₂ (fun call answer => answer < call.bound fun _ => quarters) mixedCalls
        answers ∧
      2 ^ 15 ≤ s.decoder.range ∧ s.decoder.range < 2 ^ 16 ∧ s.decoder.value < s.decoder.range ∧
      (∀ i, (s.cdfs i).Valid ∧ (s.cdfs i).arity = 4) ∧
      (1 * 8 ≤ 9223372036854775807 → s.decoder.exitSymbol.reader.bitPos = 8) ∧
      -15 - 15 * (43 : Int) ≤ s.decoder.maxBits :=
  symbol_invariant ⟨[0xA5], by decide⟩ false _ (fun _ => quarters_valid) mixedCalls

end Calls

end Codec
end Vaco
