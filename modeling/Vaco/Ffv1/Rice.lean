import Vaco.Bitstream.BitReader
import Vaco.Ffv1.Quant

/-!
# The Golomb-Rice mode of FFV1

A number is a prefix of zeros, a one and a suffix whose length adapts to the sum of the
magnitudes that were coded in the context; runs of zeros in the context 0 have a length of
their own.

Main results:

- `getVlcSymbol_fits`, `getVlcSymbol_overflow`: when a symbol is decoded.
-/

namespace Vaco
namespace Ffv1

open Library
open Vaco.Bitstream (BitReader)

/-! ## Codes -/

/-- Read bits; where too few remain nothing is read and the value is zero. -/
def tryGetOrZero (r : BitReader) (n : Nat) : BitReader × Nat :=
  if r.flagged ∨ r.bitsLeft < n then (r, 0) else ((r.get n).1, (r.get n).2.toNat)

/-- The loop of `getUrGolomb`: bits up to the first one, of which there are at most twelve. -/
def getUrGolombLoop (k escBits : Nat) : Nat → Nat → BitReader → Except Fault (BitReader × Nat)
  | 0, _, r =>
      let (r, v) := tryGetOrZero r escBits
      .ok (r, (v + 11) % 4294967296)
  | n + 1, zeros, r =>
      let (r, bit) := tryGetOrZero r 1
      if bit = 1 then
        let (r, suffix) := tryGetOrZero r k
        if 32 ≤ k then
          .error .overflow
        else
          .ok (r, (suffix + zeros * 2 ^ k % 4294967296) % 4294967296)
      else
        getUrGolombLoop k escBits n (zeros + 1) r

/-- An unsigned Golomb-Rice code. -/
def getUrGolomb (r : BitReader) (k escBits : Nat) : Except Fault (BitReader × Nat) :=
  getUrGolombLoop k escBits 12 0 r

/-- A signed Golomb-Rice code. -/
def getSrGolomb (r : BitReader) (k escBits : Nat) : Except Fault (BitReader × Int) := do
  let (r, v) ← getUrGolomb r k escBits
  if v % 2 = 1 then do
    let negative ← i32Checked (-(v / 2 : Nat))
    let value ← i32Checked (negative - 1)
    .ok (r, value)
  else
    .ok (r, (v / 2 : Nat))

/-- The number in the low bits of a number. -/
def signExtend (input : Int) (bits : Nat) : Int :=
  if bits = 0 ∨ 32 ≤ bits then
    input
  else
    let negativeBias : Int := 2 ^ (bits - 1)
    let out := input % negativeBias
    if input / negativeBias % 2 ≠ 0 then out - negativeBias else out

/-! ## Adaptive states -/

/-- The adaptive state of a context. -/
structure RiceState where
  drift : Int
  errorSum : Int
  bias : Int
  count : Int
deriving DecidableEq

namespace RiceState

/-- A fresh state. -/
def fresh : RiceState where
  drift := 0
  errorSum := 4
  bias := 0
  count := 1

/-- The loop that doubles a number up to the sum of the magnitudes. -/
def searchK (errorSum : Int) : Nat → Int → Nat → Except Fault Nat
  | 0, _, _ => .error .outOfFuel
  | fuel + 1, i, k =>
      if i < errorSum then do
        let i ← i32Checked (i + i)
        searchK errorSum fuel i (k + 1)
      else
        .ok k

def halve (s : RiceState) : RiceState :=
  if s.count = 128 then
    { s with
      count := s.count / 2
      drift := s.drift / 2
      errorSum := s.errorSum / 2 }
  else
    s

/-- Correct the bias by the drift. -/
def correct (s : RiceState) : Except Fault RiceState := do
  let negCount ← i32Checked (-s.count)
  if s.drift ≤ negCount then do
    let bias ← i32Checked (s.bias - 1)
    let drift ← i32Checked (s.drift + s.count)
    let least ← i32Checked (negCount + 1)
    .ok { s with
      bias := max bias (-128)
      drift := max drift least }
  else if 0 < s.drift then do
    let bias ← i32Checked (s.bias + 1)
    let drift ← i32Checked (s.drift - s.count)
    .ok { s with
      bias := min bias 127
      drift := min drift 0 }
  else
    .ok s

/-- Add a coded number to the state. -/
def update (s : RiceState) (v : Int) : Except Fault RiceState := do
  let magnitude ← i32Checked |v|
  let errorSum ← i32Checked (s.errorSum + magnitude)
  let drift ← i32Checked (s.drift + v)
  let s := halve { s with errorSum := errorSum, drift := drift }
  let count ← i32Checked (s.count + 1)
  correct { s with count := count }

/-- Decode a symbol in a state. -/
def getVlcSymbol (s : RiceState) (r : BitReader) (bits : Nat) :
    Except Fault (BitReader × RiceState × Int) := do
  let k ← searchK s.errorSum 33 s.count 0
  let (r, v) ← getSrGolomb r k bits
  let twice ← i32Checked (2 * s.drift)
  let negCount ← i32Checked (-s.count)
  let v ← if twice < negCount then i32Checked (-1 - v) else .ok v
  let ret := signExtend (Int.bmod (v + s.bias) 4294967296) bits
  let s ← s.update v
  .ok (r, s, ret)

end RiceState

def decodeLevel (s : RiceState) (r : BitReader) (bits : Nat) :
    Except Fault (BitReader × RiceState × Int) := do
  let (r, s, diff) ← s.getVlcSymbol r bits
  if 0 ≤ diff then do
    let diff ← i32Checked (diff + 1)
    .ok (r, s, diff)
  else
    .ok (r, s, diff)

/-! ## Runs -/

/-- The lengths of runs, as powers of two. -/
def log2RunTable : List Nat :=
  [0, 0, 0, 0, 1, 1, 1, 1, 2, 2, 2, 2, 3, 3, 3, 3, 4, 4, 5, 5, 6, 6, 7, 7, 8, 9, 10, 11, 12, 13,
    14, 15, 16, 17, 18, 19, 20, 21, 22, 23, 24]

/-- The length of a run, as a power of two. -/
def log2Run (index : Nat) : Nat :=
  (log2RunTable[index]?).getD 24

/-- Where a plane is in a run: in none, in one whose next length is due, or in the last counted
stretch of one. -/
inductive RunMode where
  | off
  | due
  | counted
deriving DecidableEq

/-- The run of a plane. -/
structure RunState where
  runIndex : Nat
  mode : RunMode
  count : Int
deriving DecidableEq

namespace RunState

/-- No run. -/
def new : RunState where
  runIndex := 0
  mode := .off
  count := 0

/-- Leave the run at the start of a line. -/
def beginLine (s : RunState) : RunState :=
  { s with mode := .off, count := 0 }

/-- Whether a run is going on. -/
def inRun (s : RunState) : Bool :=
  s.mode ≠ .off

/-- Enter a run in the context 0. -/
def enterIfZeroContext (s : RunState) (ctx : Nat) : RunState :=
  if ctx = 0 ∧ s.mode = .off then { s with mode := .due } else s

def readRunPrefix (s : RunState) (r : BitReader) (x w : Nat) : BitReader × RunState :=
  let idx := min s.runIndex (log2RunTable.length - 1)
  let (r, bit) := tryGetOrZero r 1
  if bit = 1 then
    let count := 2 ^ log2Run idx
    (r, { s with
      count := (count : Nat)
      runIndex := if x + count ≤ w then min (s.runIndex + 1) 4294967295 else s.runIndex })
  else
    let shift := log2Run idx
    let (r, count) := if shift = 0 then (r, 0) else tryGetOrZero r shift
    (r, { s with
      count := Int.bmod count 4294967296
      runIndex := if 0 < s.runIndex then s.runIndex - 1 else s.runIndex
      mode := .counted })

/-- Advance one sample in a run: whether the run covers it. -/
def nextSample (s : RunState) (r : BitReader) (x w : Nat) :
    Except Fault (BitReader × RunState × Bool) := do
  let (r, s) := if s.count = 0 ∧ s.mode = .due then s.readRunPrefix r x w else (r, s)
  let count ← i32Checked (s.count - 1)
  if count < 0 then
    .ok (r, { s with mode := .off, count := 0 }, false)
  else
    .ok (r, { s with count := count }, true)

end RunState

/-! ## Bounds of codes -/

theorem tryGetOrZero_lt (r : BitReader) {n : Nat} (hn : n ≤ 32) : (tryGetOrZero r n).2 < 2 ^ n := by
  have hpos : 0 < 2 ^ n := by positivity
  rw [tryGetOrZero]
  split
  · exact hpos
  · rw [BitReader.get, Nat.min_eq_left hn]
    dsimp only
    split
    · exact hpos
    · rw [BitReader.top, BitVec.toNat_setWidth, BitVec.toNat_ushiftRight,
        Nat.shiftRight_eq_div_pow]
      have hlt := ((r.ensure n).cache).isLt
      have hdiv : (r.ensure n).cache.toNat / 2 ^ (64 - n) < 2 ^ n := by
        rw [Nat.div_lt_iff_lt_mul (by positivity), ← Nat.pow_add,
          show n + (64 - n) = 64 by omega]
        exact hlt
      exact (Nat.mod_le _ _).trans_lt hdiv

theorem getUrGolomb_ok (r : BitReader) {k : Nat} (hk : k < 32) (escBits : Nat) :
    ∃ r' v, getUrGolomb r k escBits = .ok (r', v) ∧ v < 4294967296 := by
  have hloop : ∀ n zeros r, ∃ r' v, getUrGolombLoop k escBits n zeros r = .ok (r', v) ∧
      v < 4294967296 := by
    intro n
    induction n with
    | zero =>
        intro zeros r
        exact ⟨_, _, rfl, Nat.mod_lt _ (by decide)⟩
    | succ n ih =>
        intro zeros r
        rw [getUrGolombLoop]
        dsimp only
        split
        · rw [if_neg (by omega)]
          exact ⟨_, _, rfl, Nat.mod_lt _ (by decide)⟩
        · exact ih (zeros + 1) _
  exact hloop 12 0 r

theorem getSrGolomb_ok (r : BitReader) {k : Nat} (hk : k < 32) (escBits : Nat) :
    ∃ r' v, getSrGolomb r k escBits = .ok (r', v) ∧ -2147483648 ≤ v ∧ v ≤ 2147483647 := by
  rcases getUrGolomb_ok r hk escBits with ⟨r', v, hread, hlt⟩
  rw [getSrGolomb, hread, ok_bind]
  dsimp only
  split
  · rw [i32Checked_of_fits (by omega) (by omega), ok_bind,
      i32Checked_of_fits (by omega) (by omega), ok_bind]
    exact ⟨_, _, rfl, by omega, by omega⟩
  · exact ⟨_, _, rfl, by omega, by omega⟩

theorem signExtend_bounds (input : Int) {bits : Nat} (hpos : 1 ≤ bits) (hlt : bits < 32) :
    -2 ^ (bits - 1) ≤ signExtend input bits ∧ signExtend input bits < 2 ^ (bits - 1) := by
  have hbias : (0 : Int) < 2 ^ (bits - 1) := by positivity
  have hlow := Int.emod_nonneg input hbias.ne'
  have hhigh := Int.emod_lt_of_pos input hbias
  rw [signExtend, if_neg (by omega)]
  dsimp only
  split
  · omega
  · omega

/-! ## Valid states -/

namespace RiceState

variable {s : RiceState}

/-- A state as the updates leave it: the drift is within one step of the bias. -/
structure Valid (s : RiceState) : Prop where
  count_pos : 1 ≤ s.count
  count_le : s.count ≤ 128
  drift_gt : -s.count < s.drift
  drift_le : s.drift ≤ 0
  bias_ge : -128 ≤ s.bias
  bias_le : s.bias ≤ 127
  sum_nonneg : 0 ≤ s.errorSum
  sum_le : s.errorSum ≤ 2147483647

theorem valid_fresh : fresh.Valid := by
  constructor <;> decide

/-- The search for the length of the suffix stays in 32 bits. -/
def SearchFits (s : RiceState) : Prop :=
  ∀ j : Nat, s.count * 2 ^ j < s.errorSum → s.count * 2 ^ (j + 1) ≤ 2147483647

/-- The length of the suffix: the least doubling of the count that reaches the sum. -/
structure IsParameter (s : RiceState) (k : Nat) : Prop where
  below : ∀ j < k, s.count * 2 ^ j < s.errorSum
  reached : s.errorSum ≤ s.count * 2 ^ k

theorem IsParameter.unique {k k' : Nat} (h : s.IsParameter k) (h' : s.IsParameter k') : k = k' := by
  rcases Nat.lt_trichotomy k k' with hlt | heq | hgt
  · have hbelow := h'.below k hlt
    have hreached := h.reached
    omega
  · exact heq
  · have hbelow := h.below k' hgt
    have hreached := h'.reached
    omega

/-- The number that is coded next: the code, turned around where the drift is low. -/
def Codes (s : RiceState) (r : BitReader) (bits : Nat) (v : Int) : Prop :=
  ∃ k r' u, s.IsParameter k ∧ getSrGolomb r k bits = .ok (r', u) ∧
    v = if 2 * s.drift < -s.count then -1 - u else u

/-- A symbol is decoded in 32 bits: the search is, and so are the sums with the number that is
coded next. -/
def VlcFits (s : RiceState) (r : BitReader) (bits : Nat) : Prop :=
  s.SearchFits ∧ ∀ v, s.Codes r bits v →
    s.errorSum + |v| ≤ 2147483647 ∧ -2147483648 ≤ s.drift + v

theorem doublings_le (hcount : 1 ≤ s.count) {k : Nat} (h : s.count * 2 ^ k ≤ 2147483647) :
    k ≤ 30 := by
  by_contra hmore
  have hpow : (2 : Int) ^ 31 ≤ 2 ^ k := by
    exact_mod_cast Nat.pow_le_pow_right (by decide : 0 < 2) (by omega : 31 ≤ k)
  have hmul : (1 : Int) * 2 ^ 31 ≤ s.count * 2 ^ k :=
    Int.mul_le_mul hcount hpow (by decide) (by omega)
  omega

/-- A search that fits finds the length of the suffix. -/
theorem searchK_fits (hcount : 1 ≤ s.count) (hfits : s.SearchFits) {fuel k : Nat}
    (hfuel : 31 < fuel + k) (hsmall : s.count * 2 ^ k ≤ 2147483647)
    (hbelow : ∀ j < k, s.count * 2 ^ j < s.errorSum) :
    ∃ k', searchK s.errorSum fuel (s.count * 2 ^ k) k = .ok k' ∧ s.IsParameter k' ∧ k' ≤ 30 := by
  induction fuel generalizing k with
  | zero =>
      have hle := doublings_le hcount hsmall
      omega
  | succ fuel ih =>
      have hpos : 0 < s.count * 2 ^ k := Int.mul_pos (by omega) (by positivity)
      have hdouble : s.count * 2 ^ k + s.count * 2 ^ k = s.count * 2 ^ (k + 1) := by
        rw [pow_succ]
        ring
      rw [searchK]
      by_cases hless : s.count * 2 ^ k < s.errorSum
      · have hnext := hfits k hless
        rw [if_pos hless, hdouble, i32Checked_of_fits (by omega) hnext, ok_bind]
        refine ih (by omega) hnext ?_
        intro j hj
        rcases Nat.lt_succ_iff_lt_or_eq.mp hj with hj | rfl
        · exact hbelow j hj
        · exact hless
      · rw [if_neg hless]
        exact ⟨k, rfl, ⟨hbelow, not_lt.mp hless⟩, doublings_le hcount hsmall⟩

/-- A search that does not fit overflows. -/
theorem searchK_overflow (hcount : 1 ≤ s.count) {fuel j k : Nat} (hfuel : j < fuel + k)
    (hjk : k ≤ j) (hless : s.count * 2 ^ j < s.errorSum)
    (hlarge : 2147483647 < s.count * 2 ^ (j + 1)) :
    searchK s.errorSum fuel (s.count * 2 ^ k) k = .error .overflow := by
  induction fuel generalizing k with
  | zero => omega
  | succ fuel ih =>
      have hle : s.count * 2 ^ k ≤ s.count * 2 ^ j := by
        refine Int.mul_le_mul_of_nonneg_left ?_ (by omega)
        exact_mod_cast Nat.pow_le_pow_right (by decide : 0 < 2) hjk
      have hpos : 0 < s.count * 2 ^ k := Int.mul_pos (by omega) (by positivity)
      have hdouble : s.count * 2 ^ k + s.count * 2 ^ k = s.count * 2 ^ (k + 1) := by
        rw [pow_succ]
        ring
      rw [searchK, if_pos (by omega), hdouble, i32Checked]
      split
      · rename_i hfit
        have hne : k ≠ j := by
          rintro rfl
          omega
        exact ih (by omega) (by omega)
      · rfl

theorem correct_valid (hcount : 2 ≤ s.count) (hcount' : s.count ≤ 128)
    (hbias : -128 ≤ s.bias) (hbias' : s.bias ≤ 127) (hsum : 0 ≤ s.errorSum)
    (hsum' : s.errorSum ≤ 2147483647) (hdrift : -2147483648 ≤ s.drift)
    (hdrift' : s.drift ≤ 2147483647) : ∃ s', s.correct = .ok s' ∧ s'.Valid := by
  rw [correct, i32Checked_of_fits (by omega) (by omega), ok_bind]
  by_cases hlow : s.drift ≤ -s.count
  · rw [if_pos hlow, i32Checked_of_fits (by omega) (by omega), ok_bind,
      i32Checked_of_fits (by omega) (by omega), ok_bind,
      i32Checked_of_fits (by omega) (by omega), ok_bind]
    refine ⟨_, rfl, ?_⟩
    constructor <;> dsimp only <;> omega
  · rw [if_neg hlow]
    by_cases hhigh : 0 < s.drift
    · rw [if_pos hhigh, i32Checked_of_fits (by omega) (by omega), ok_bind,
        i32Checked_of_fits (by omega) (by omega), ok_bind]
      refine ⟨_, rfl, ?_⟩
      constructor <;> dsimp only <;> omega
    · rw [if_neg hhigh]
      refine ⟨s, rfl, ?_⟩
      constructor <;> omega

theorem update_valid (h : s.Valid) {v : Int} (hsum : s.errorSum + |v| ≤ 2147483647)
    (hdrift : -2147483648 ≤ s.drift + v) : ∃ s', s.update v = .ok s' ∧ s'.Valid := by
  rcases h with ⟨hcount, hcount', hgt, hle, hbias, hbias', hnonneg, -⟩
  have habs := abs_nonneg v
  have hle_abs := le_abs_self v
  rw [update, i32Checked_of_fits (by omega) (by omega), ok_bind,
    i32Checked_of_fits (by omega) hsum, ok_bind, i32Checked_of_fits hdrift (by omega), ok_bind,
    halve]
  dsimp only
  split
  · dsimp only
    rw [i32Checked_of_fits (by omega) (by omega), ok_bind]
    exact correct_valid (by dsimp only; omega) (by dsimp only; omega) hbias hbias'
      (by dsimp only; omega) (by dsimp only; omega) (by dsimp only; omega) (by dsimp only; omega)
  · dsimp only
    rw [i32Checked_of_fits (by omega) (by omega), ok_bind]
    exact correct_valid (by dsimp only; omega) (by dsimp only; omega) hbias hbias'
      (by dsimp only; omega) (by dsimp only; omega) (by dsimp only; omega) (by dsimp only; omega)

theorem update_overflow {v : Int} (h : s.Valid)
    (hmore : ¬(s.errorSum + |v| ≤ 2147483647 ∧ -2147483648 ≤ s.drift + v)) :
    s.update v = .error .overflow := by
  have hnonneg := h.sum_nonneg
  have hle := h.drift_le
  have habs := abs_nonneg v
  have hle_abs := le_abs_self v
  rw [update]
  by_cases hfit : |v| ≤ 2147483647
  · rw [i32Checked_of_fits (by omega) hfit, ok_bind]
    by_cases hsum : s.errorSum + |v| ≤ 2147483647
    · rw [i32Checked_of_fits (by omega) hsum, ok_bind, i32Checked, if_neg (by omega), error_bind]
    · rw [i32Checked, if_neg (by omega), error_bind]
  · rw [i32Checked, if_neg (by omega), error_bind]

/-- What is left of decoding a symbol when its code has been read. -/
theorem getVlcSymbol_eq (h : s.Valid) {r r' : BitReader} {bits k : Nat} {u : Int}
    (hsearch : searchK s.errorSum 33 s.count 0 = .ok k)
    (hread : getSrGolomb r k bits = .ok (r', u)) (hge : -2147483648 ≤ u) (hle : u ≤ 2147483647) :
    s.getVlcSymbol r bits =
      (s.update (if 2 * s.drift < -s.count then -1 - u else u)).map fun s' =>
        (r', s', signExtend (Int.bmod
          ((if 2 * s.drift < -s.count then -1 - u else u) + s.bias) 4294967296) bits) := by
  rcases h with ⟨hcount, hcount', hgt, hle', -, -, -, -⟩
  rw [getVlcSymbol, hsearch, ok_bind, hread, ok_bind]
  dsimp only
  rw [i32Checked_of_fits (by omega) (by omega), ok_bind,
    i32Checked_of_fits (by omega) (by omega), ok_bind]
  by_cases hturn : 2 * s.drift < -s.count
  · rw [if_pos hturn, if_pos hturn, i32Checked_of_fits (by omega) (by omega), ok_bind]
    cases s.update (-1 - u) with
    | error fault => rfl
    | ok s' => rfl
  · rw [if_neg hturn, if_neg hturn, ok_bind]
    cases s.update u with
    | error fault => rfl
    | ok s' => rfl

theorem searchK_start (h : s.Valid) (hfits : s.SearchFits) :
    ∃ k, searchK s.errorSum 33 s.count 0 = .ok k ∧ s.IsParameter k ∧ k ≤ 30 := by
  have hcount := h.count_le
  have hsearch := searchK_fits h.count_pos hfits (show 31 < 33 + 0 by decide)
    (by rw [pow_zero]; omega) (fun j hj => absurd hj (Nat.not_lt_zero j))
  rwa [pow_zero, mul_one] at hsearch

/-- A symbol is decoded in 32 bits, and the state stays valid. -/
theorem getVlcSymbol_fits (h : s.Valid) {r : BitReader} {bits : Nat} (hpos : 1 ≤ bits)
    (hlt : bits < 32) (hfits : s.VlcFits r bits) :
    ∃ r' s' v, s.getVlcSymbol r bits = .ok (r', s', v) ∧ s'.Valid ∧
      -2 ^ (bits - 1) ≤ v ∧ v < 2 ^ (bits - 1) := by
  rcases searchK_start h hfits.1 with ⟨k, hsearch, hparameter, hk⟩
  rcases getSrGolomb_ok r (by omega : k < 32) bits with ⟨r', u, hread, hge, hle⟩
  rcases hfits.2 _ ⟨k, r', u, hparameter, hread, rfl⟩ with ⟨hsum, hdrift⟩
  rcases update_valid h hsum hdrift with ⟨s', hupdate, hvalid⟩
  have hbounds := signExtend_bounds (Int.bmod
    ((if 2 * s.drift < -s.count then -1 - u else u) + s.bias) 4294967296) hpos hlt
  rw [getVlcSymbol_eq h hsearch hread hge hle, hupdate]
  exact ⟨r', s', _, rfl, hvalid, hbounds⟩

/-- A symbol that is not decoded in 32 bits overflows. -/
theorem getVlcSymbol_overflow (h : s.Valid) {r : BitReader} {bits : Nat}
    (hfits : ¬s.VlcFits r bits) : s.getVlcSymbol r bits = .error .overflow := by
  by_cases hsearchFits : s.SearchFits
  · have hmore : ¬∀ v, s.Codes r bits v →
        s.errorSum + |v| ≤ 2147483647 ∧ -2147483648 ≤ s.drift + v :=
      fun hall => hfits ⟨hsearchFits, hall⟩
    push Not at hmore
    rcases hmore with ⟨v, ⟨k, r', u, hparameter, hread, rfl⟩, hsums⟩
    rcases searchK_start h hsearchFits with ⟨k', hsearch, hparameter', hk⟩
    rw [hparameter'.unique hparameter] at hsearch hk
    rcases getSrGolomb_ok r (by omega : k < 32) bits with ⟨r₁, u₁, hread₁, hge, hle⟩
    rw [hread, Except.ok.injEq, Prod.mk.injEq] at hread₁
    rcases hread₁ with ⟨rfl, rfl⟩
    have hover : ¬(s.errorSum + |if 2 * s.drift < -s.count then -1 - u else u| ≤ 2147483647 ∧
        -2147483648 ≤ s.drift + if 2 * s.drift < -s.count then -1 - u else u) :=
      fun hboth => absurd (hsums hboth.1) (by omega)
    rw [getVlcSymbol_eq h hsearch hread hge hle, update_overflow h hover]
    rfl
  · rw [SearchFits] at hsearchFits
    push Not at hsearchFits
    rcases hsearchFits with ⟨j, hless, hlarge⟩
    have hsum := h.sum_le
    have hj : j < 33 := by
      have hle := doublings_le h.count_pos (by omega : s.count * 2 ^ j ≤ 2147483647)
      omega
    have hsearch := searchK_overflow h.count_pos (show j < 33 + 0 by omega) (Nat.zero_le j)
      hless hlarge
    rw [pow_zero, mul_one] at hsearch
    rw [getVlcSymbol, hsearch, error_bind]

end RiceState

theorem decodeLevel_eq {s : RiceState} {r : BitReader} {bits : Nat} (hpos : 1 ≤ bits)
    (hlt : bits < 32) :
    (s.getVlcSymbol r bits = .error .overflow → decodeLevel s r bits = .error .overflow) ∧
      ∀ r' s' v, s.getVlcSymbol r bits = .ok (r', s', v) →
        -2 ^ (bits - 1) ≤ v → v < 2 ^ (bits - 1) →
        ∃ v', decodeLevel s r bits = .ok (r', s', v') ∧
          -2 ^ (bits - 1) ≤ v' ∧ v' ≤ 2 ^ (bits - 1) := by
  constructor
  · intro h
    rw [decodeLevel, h, error_bind]
  · intro r' s' v h hge hle
    have hpow : (2 : Int) ^ (bits - 1) ≤ 2 ^ 30 := by
      exact_mod_cast Nat.pow_le_pow_right (by decide : 0 < 2) (by omega : bits - 1 ≤ 30)
    rw [decodeLevel, h, ok_bind]
    dsimp only
    split
    · rw [i32Checked_of_fits (by omega) (by omega), ok_bind]
      exact ⟨v + 1, rfl, by omega, by omega⟩
    · exact ⟨v, rfl, hge, hle.le⟩

/-! ## Runs stay in bounds -/

namespace RunState

/-- A run that is counted down to zero at most. -/
def Valid (s : RunState) : Prop :=
  0 ≤ s.count ∧ s.count ≤ 2147483647

theorem valid_of_count_zero {s : RunState} (h : s.count = 0) : s.Valid := by
  rw [Valid, h]
  decide

theorem valid_new : new.Valid :=
  valid_of_count_zero rfl

theorem log2Run_le (index : Nat) : log2Run index ≤ 24 := by
  have hall : ∀ v ∈ log2RunTable, v ≤ 24 := by decide
  rw [log2Run]
  cases hindex : log2RunTable[index]? with
  | none => exact le_refl 24
  | some v => exact hall v (List.mem_of_getElem? hindex)

/-- Reading the length of a run leaves it in bounds. -/
theorem readRunPrefix_valid (s : RunState) (r : BitReader) (x w : Nat) :
    (s.readRunPrefix r x w).2.Valid := by
  have hlog := log2Run_le (min s.runIndex (log2RunTable.length - 1))
  have hpow : 2 ^ log2Run (min s.runIndex (log2RunTable.length - 1)) ≤ 2 ^ 24 :=
    Nat.pow_le_pow_right (by decide) hlog
  rw [readRunPrefix]
  dsimp only
  split
  · generalize 2 ^ log2Run (min s.runIndex (log2RunTable.length - 1)) = count at hpow ⊢
    constructor
    · dsimp only
      omega
    · dsimp only
      omega
  · by_cases hshift : log2Run (min s.runIndex (log2RunTable.length - 1)) = 0
    · rw [if_pos hshift]
      refine valid_of_count_zero ?_
      dsimp only
      rw [Nat.cast_zero, Int.zero_bmod]
    · rw [if_neg hshift]
      have hlt := tryGetOrZero_lt (tryGetOrZero r 1).1 (by omega :
        log2Run (min s.runIndex (log2RunTable.length - 1)) ≤ 32)
      have hsame : Int.bmod (tryGetOrZero (tryGetOrZero r 1).1
          (log2Run (min s.runIndex (log2RunTable.length - 1)))).2 4294967296 =
            (tryGetOrZero (tryGetOrZero r 1).1
              (log2Run (min s.runIndex (log2RunTable.length - 1)))).2 :=
        Int.bmod_eq_of_le (by omega) (by omega)
      constructor
      · dsimp only
        rw [hsame]
        omega
      · dsimp only
        rw [hsame]
        omega

/-- A run advances without an overflow and stays in bounds. -/
theorem nextSample_eq {s : RunState} (h : s.Valid) (r : BitReader) (x w : Nat) :
    ∃ r' s' covers, s.nextSample r x w = .ok (r', s', covers) ∧ s'.Valid := by
  have hstart : ∃ r₁ s₁, (if s.count = 0 ∧ s.mode = .due then s.readRunPrefix r x w else (r, s)) =
      (r₁, s₁) ∧ s₁.Valid := by
    split
    · exact ⟨_, _, rfl, readRunPrefix_valid s r x w⟩
    · exact ⟨r, s, rfl, h⟩
  rcases hstart with ⟨r₁, s₁, hstart, hle, hge⟩
  rw [nextSample, hstart]
  dsimp only
  rw [i32Checked_of_fits (by omega) (by omega), ok_bind]
  split
  · exact ⟨_, _, _, rfl, valid_of_count_zero rfl⟩
  · refine ⟨_, _, _, rfl, ?_, ?_⟩
    · dsimp only
      omega
    · dsimp only
      omega

theorem beginLine_valid (s : RunState) : s.beginLine.Valid :=
  valid_of_count_zero rfl

theorem enterIfZeroContext_valid {s : RunState} (h : s.Valid) (ctx : Nat) :
    (s.enterIfZeroContext ctx).Valid := by
  rw [enterIfZeroContext]
  split
  · exact h
  · exact h

end RunState

end Ffv1
end Vaco
