import Vaco.Bitstream.Golomb
import Vaco.Library.IntervalCoder

/-!
# The arithmetic decoding engine

A context-coded bin splits the current range in two by the state of its context; the offset
says which part the bin is in.  The range is doubled until it is at least 256, and every
doubling shifts one bit of the data into the offset.  Bypass bins double the offset instead,
and a terminating bin splits off the last two numbers of the range.

Main results:

- `CabacDecoder.renorm_eq`: renormalising doubles as often as the range asks for and shifts in as
  many bits.
- `decodeDecision_mps`, `decodeDecision_lps`, `decodeBypass_eq`, `decodeTerminate_zero` and
  `decodeTerminate_one`: what each operation does to a sound engine.
- `cabac_invariant`: no operation panics, and every sequence of operations on any data leaves the
  offset below the range, the range between 256 and 510, and every context within its states.
-/

namespace Vaco
namespace Codec

open Library BitStream Checked IntervalCoder
open Vaco.Bitstream

/-! ## Tables -/

/-- Widths of the less probable part, by state and quantised range. -/
def rangeTabLps : List (List Nat) :=
  [[128, 176, 208, 240], [128, 167, 197, 227], [128, 158, 187, 216], [123, 150, 178, 205],
    [116, 142, 169, 195], [111, 135, 160, 185], [105, 128, 152, 175], [100, 122, 144, 166],
    [95, 116, 137, 158], [90, 110, 130, 150], [85, 104, 123, 142], [81, 99, 117, 135],
    [77, 94, 111, 128], [73, 89, 105, 122], [69, 85, 100, 116], [66, 80, 95, 110],
    [62, 76, 90, 104], [59, 72, 86, 99], [56, 69, 81, 94], [53, 65, 77, 89],
    [51, 62, 73, 85], [48, 59, 69, 80], [46, 56, 66, 76], [43, 53, 63, 72],
    [41, 50, 59, 69], [39, 48, 56, 65], [37, 45, 54, 62], [35, 43, 51, 59],
    [33, 41, 48, 56], [32, 39, 46, 53], [30, 37, 43, 50], [29, 35, 41, 48],
    [27, 33, 39, 45], [26, 31, 37, 43], [24, 30, 35, 41], [23, 28, 33, 39],
    [22, 27, 32, 37], [21, 26, 30, 35], [20, 24, 29, 33], [19, 23, 27, 31],
    [18, 22, 26, 30], [17, 21, 25, 28], [16, 20, 23, 27], [15, 19, 22, 25],
    [14, 18, 21, 24], [14, 17, 20, 23], [13, 16, 19, 22], [12, 15, 18, 21],
    [12, 14, 17, 20], [11, 14, 16, 19], [11, 13, 15, 18], [10, 12, 15, 17],
    [10, 12, 14, 16], [9, 11, 13, 15], [9, 11, 12, 14], [8, 10, 12, 14],
    [8, 9, 11, 13], [7, 9, 11, 12], [7, 9, 10, 12], [7, 8, 10, 11],
    [6, 8, 9, 11], [6, 7, 9, 10], [6, 7, 8, 9], [2, 2, 2, 2]]

/-- State behind a less probable bin. -/
def transIdxLps : List Nat :=
  [0, 0, 1, 2, 2, 4, 4, 5, 6, 7, 8, 9, 9, 11, 11, 12,
    13, 13, 15, 15, 16, 16, 18, 18, 19, 19, 21, 21, 22, 22, 23, 24,
    24, 25, 26, 26, 27, 27, 28, 29, 29, 30, 30, 30, 31, 32, 32, 33,
    33, 33, 34, 34, 35, 35, 35, 36, 36, 36, 37, 37, 37, 38, 38, 63]

/-- State behind a more probable bin. -/
def transIdxMps : List Nat :=
  [1, 2, 3, 4, 5, 6, 7, 8, 9, 10, 11, 12, 13, 14, 15, 16,
    17, 18, 19, 20, 21, 22, 23, 24, 25, 26, 27, 28, 29, 30, 31, 32,
    33, 34, 35, 36, 37, 38, 39, 40, 41, 42, 43, 44, 45, 46, 47, 48,
    49, 50, 51, 52, 53, 54, 55, 56, 57, 58, 59, 60, 61, 62, 62, 63]

/-- Number of packed states. -/
def stateCount : Nat := 128

/-- The packed state behind a more probable bin, and from entry 256 on behind a less probable one.
-/
def trans : List Nat :=
  (List.range 512).map fun i =>
    let s := i % 256 % stateCount
    let p := s / 2
    let mps := s % 2
    if i < 256 then transIdxMps[p]?.getD 0 * 2 + mps
    else transIdxLps[p]?.getD 0 * 2 + if p = 0 then 1 - mps else mps

/-- The widths of the less probable part as one row of entries. -/
def lpsRange : List Nat :=
  (List.range 512).map fun i => (rangeTabLps[i / 4 % 64]?.getD [])[i % 4]?.getD 0

/-- A context: the index of its state and its more probable bin, packed into one byte. -/
structure ContextModel where
  packed : Nat
deriving DecidableEq

/-- A context within its states. -/
def ContextModel.Valid (ctx : ContextModel) : Prop :=
  ctx.packed ≤ 127

instance : DecidablePred ContextModel.Valid :=
  fun ctx => inferInstanceAs (Decidable (ctx.packed ≤ 127))

namespace ContextModel

/-- The width of the less probable part of a range. -/
def lps (ctx : ContextModel) (range : Nat) : Nat :=
  lpsRange[(ctx.packed >>> 1) * 4 + ((range >>> 6) &&& 3)]?.getD 0

/-- The more probable bin. -/
def mps (ctx : ContextModel) : Nat :=
  ctx.packed &&& 1

/-- The context behind a bin, which is the less probable one or not. -/
def next (ctx : ContextModel) (isLps : Nat) : ContextModel :=
  ⟨trans[isLps <<< 8 ||| ctx.packed]?.getD 0⟩

end ContextModel

/-! ## The engine -/

/-- The engine. -/
structure CabacDecoder where
  range : Nat
  offset : Nat
  reader : BitReader
  flagged : Bool
  terminated : Bool

namespace CabacDecoder

/-- Initialise at the first byte, with an offset that is clamped. -/
def fromReader (reader : BitReader) : CabacDecoder :=
  let reader := reader.align
  let (reader, offset) := reader.get 9
  let malformed := decide (510 ≤ offset.toNat)
  { range := 510
    offset := if malformed then 509 else offset.toNat
    reader := reader
    flagged := malformed
    terminated := false }

/-- Initialise from a slice. -/
def new (data : Slice) : CabacDecoder :=
  fromReader (BitReader.new data)

/-- Whether the stream broke a constraint, or the reader ran past the end. -/
def malformed (d : CabacDecoder) : Bool :=
  d.flagged || d.reader.overrun

/-- Shift the next bit into the offset. -/
def shiftIn (d : CabacDecoder) : Option CabacDecoder := do
  let offset ← shl32 d.offset 1
  let (reader, bit) := d.reader.getBit
  some { d with offset := offset ||| bit.toNat, reader := reader }

/-- Double the range and the offset until the range is at least 256.  A range of zero would
be doubled forever. -/
def renormLoop : Nat → CabacDecoder → Option CabacDecoder
  | 0, _ => none
  | fuel + 1, d =>
      if d.range < 256 then do
        let range ← shl32 d.range 1
        let d ← { d with range := range }.shiftIn
        renormLoop fuel d
      else
        some d

/-- Renormalise; a positive range is doubled at most eight times. -/
def renorm (d : CabacDecoder) : Option CabacDecoder :=
  renormLoop 9 d

/-- Decode one bin with a context. -/
def decodeDecision (d : CabacDecoder) (ctx : ContextModel) :
    Option (CabacDecoder × ContextModel × Nat) := do
  let lps := ctx.lps d.range
  let range ← sub d.range lps
  if range ≤ d.offset then
    let offset ← sub d.offset range
    let bin ← sub 1 ctx.mps
    let d ← { d with range := lps, offset := offset }.renorm
    some (d, ctx.next 1, bin)
  else
    let d ← { d with range := range }.renorm
    some (d, ctx.next 0, ctx.mps)

/-- Decode one bin without a context. -/
def decodeBypass (d : CabacDecoder) : Option (CabacDecoder × Nat) := do
  let d ← d.shiftIn
  let bin := if d.range ≤ d.offset then 1 else 0
  let offset ← sub d.offset (if bin = 1 then d.range else 0)
  some ({ d with offset := offset }, bin)

/-- Decode a number of bypass bins behind a value. -/
def bypassBitsLoop : Nat → CabacDecoder → Nat → Option (CabacDecoder × Nat)
  | 0, d, value => some (d, value)
  | n + 1, d, value => do
      let shifted ← shl32 value 1
      let (d, bin) ← d.decodeBypass
      bypassBitsLoop n d (shifted ||| bin)

def decodeBypassBits (d : CabacDecoder) (n : Nat) : Option (CabacDecoder × Nat) :=
  bypassBitsLoop (min n 32) d 0

/-- Decode a terminating bin; the range is not reduced where the stream terminates. -/
def decodeTerminate (d : CabacDecoder) : Option (CabacDecoder × Nat) := do
  let reduced ← sub d.range 2
  if reduced ≤ d.offset then
    some ({ d with terminated := true }, 1)
  else
    let d ← { d with range := reduced }.renorm
    some (d, 0)

def tuLoop : Nat → CabacDecoder → ContextModel → Nat → Option (CabacDecoder × ContextModel × Nat)
  | 0, d, ctx, n => some (d, ctx, n)
  | left + 1, d, ctx, n => do
      let (d, ctx, bin) ← d.decodeDecision ctx
      if bin = 0 then
        some (d, ctx, n)
      else
        let n ← add32 n 1
        tuLoop left d ctx n

/-- Decode a truncated unary value. -/
def decodeTu (d : CabacDecoder) (ctx : ContextModel) (cMax : BitVec 32) :
    Option (CabacDecoder × ContextModel × Nat) :=
  tuLoop cMax.toNat d ctx 0

/-- A power of two as a 32-bit word, or zero where it does not fit. -/
def powerOr0 (k : Nat) : Nat :=
  if k < 32 then 2 ^ k else 0

/-- Saturating addition of 32-bit words. -/
def saturating (a b : Nat) : Nat :=
  min (a + b) 4294967295

/-- Decode the ones in front of a bypass suffix, at most 31, and the suffix behind their zero. -/
def egkLoop : Nat → CabacDecoder → Nat → Nat → Nat → Option (CabacDecoder × Nat)
  | 0, _, _, _, _ => none
  | fuel + 1, d, k, value, run => do
      let (d, bin) ← d.decodeBypass
      if bin = 1 then
        let value := saturating value (powerOr0 k)
        let k ← add32 k 1
        let run ← add32 run 1
        if 32 ≤ run ∨ 31 < k then
          some ({ d with flagged := true }, value)
        else
          egkLoop fuel d k value run
      else
        let (d, suffix) ← d.decodeBypassBits k
        some (d, saturating value suffix)

/-- Decode a bypass suffix of an order. -/
def decodeBypassEgk (d : CabacDecoder) (k : Nat) : Option (CabacDecoder × Nat) :=
  egkLoop 32 d (min k 31) 0 0

def uegkSuffix (d : CabacDecoder) (uCoff : BitVec 32) (k prefixLen : Nat) :
    Option (CabacDecoder × Nat) :=
  if uCoff.toNat ≤ prefixLen then do
    let (d, suffix) ← d.decodeBypassEgk k
    some (d, saturating prefixLen suffix)
  else
    some (d, prefixLen)

/-- Decode a truncated unary prefix, the bypass suffix behind a full one, and the sign of a
value that is not zero. -/
def decodeUegk (d : CabacDecoder) (ctx : ContextModel) (uCoff : BitVec 32) (k : Nat)
    (signedValFlag : Bool) : Option (CabacDecoder × ContextModel × Int) := do
  let (d, ctx, prefixLen) ← d.decodeTu ctx uCoff
  let (d, value) ← d.uegkSuffix uCoff k prefixLen
  let magnitude := min value 2147483647
  if signedValFlag = true ∧ magnitude ≠ 0 then
    let (d, sign) ← d.decodeBypass
    if sign = 1 then some (d, ctx, -magnitude) else some (d, ctx, magnitude)
  else
    some (d, ctx, magnitude)

end CabacDecoder

/-! ## Calls -/

/-- One call of a decoder with a number of contexts. -/
inductive CabacCall (n : Nat) where
  | decision (ctx : Fin n)
  | bypass
  | bypassBits (count : BitVec 32)
  | terminate
  | tu (ctx : Fin n) (cMax : BitVec 32)
  | bypassEgk (k : BitVec 32)
  | uegk (ctx : Fin n) (uCoff k : BitVec 32) (signedValFlag : Bool)
deriving DecidableEq

/-- An engine with its contexts. -/
structure CabacState (n : Nat) where
  decoder : CabacDecoder
  contexts : Fin n → ContextModel

/-- Run one call; the answer is the decoded value. -/
def cabacStep {n : Nat} (s : CabacState n) : CabacCall n → Option (CabacState n × Int)
  | .decision i => do
      let (d, ctx, bin) ← s.decoder.decodeDecision (s.contexts i)
      some (⟨d, Function.update s.contexts i ctx⟩, bin)
  | .bypass => do
      let (d, bin) ← s.decoder.decodeBypass
      some (⟨d, s.contexts⟩, bin)
  | .bypassBits count => do
      let (d, value) ← s.decoder.decodeBypassBits count.toNat
      some (⟨d, s.contexts⟩, value)
  | .terminate => do
      let (d, bin) ← s.decoder.decodeTerminate
      some (⟨d, s.contexts⟩, bin)
  | .tu i cMax => do
      let (d, ctx, value) ← s.decoder.decodeTu (s.contexts i) cMax
      some (⟨d, Function.update s.contexts i ctx⟩, value)
  | .bypassEgk k => do
      let (d, value) ← s.decoder.decodeBypassEgk k.toNat
      some (⟨d, s.contexts⟩, value)
  | .uegk i uCoff k signedValFlag => do
      let (d, ctx, value) ← s.decoder.decodeUegk (s.contexts i) uCoff k.toNat signedValFlag
      some (⟨d, Function.update s.contexts i ctx⟩, value)

/-! ## Tables of valid contexts -/

theorem getElem?_lpsRange {i : Nat} (hi : i < 512) :
    lpsRange[i]? = some ((rangeTabLps[i / 4 % 64]?.getD [])[i % 4]?.getD 0) := by
  rw [lpsRange, List.getElem?_map, List.getElem?_range hi, Option.map_some]

theorem rangeTabLps_bounds : ∀ p < 64, ∀ q < 4,
    2 ≤ (rangeTabLps[p]?.getD [])[q]?.getD 0 ∧ (rangeTabLps[p]?.getD [])[q]?.getD 0 ≤ 240 := by
  decide

theorem transIdx_bounds : ∀ p < 64, transIdxMps[p]?.getD 0 ≤ 63 ∧ transIdxLps[p]?.getD 0 ≤ 63 := by
  decide

namespace ContextModel

variable {ctx : ContextModel}

theorem mps_lt (ctx : ContextModel) : ctx.mps < 2 := by
  rw [mps, Nat.and_one_is_mod]
  omega

theorem lps_bounds (h : ctx.Valid) (range : Nat) : 2 ≤ ctx.lps range ∧ ctx.lps range ≤ 240 := by
  have hq : (range >>> 6) &&& 3 < 4 := Nat.and_lt_two_pow (n := 2) _ (by decide)
  have hp : ctx.packed >>> 1 < 64 := by
    unfold Valid at h
    rw [Nat.shiftRight_eq_div_pow]
    omega
  have hentry := getElem?_lpsRange (i := ctx.packed >>> 1 * 4 + ((range >>> 6) &&& 3)) (by omega)
  rw [lps, hentry, Option.getD_some]
  apply rangeTabLps_bounds
  · omega
  · omega

theorem next_valid (h : ctx.Valid) {isLps : Nat} (hlps : isLps < 2) : (ctx.next isLps).Valid := by
  unfold Valid at h
  have hindex : isLps <<< 8 ||| ctx.packed = 256 * isLps + ctx.packed := by
    rw [← Nat.shiftLeft_add_eq_or_of_lt (by omega), Nat.shiftLeft_eq, Nat.mul_comm]
  have hstate : 256 * isLps + ctx.packed < 512 := by omega
  have hp : (256 * isLps + ctx.packed) % 256 % stateCount / 2 < 64 := by
    unfold stateCount
    omega
  have hbounds := transIdx_bounds _ hp
  rw [next, Valid, hindex, trans, List.getElem?_map, List.getElem?_range hstate, Option.map_some,
    Option.getD_some]
  dsimp only
  split
  · omega
  · split <;> omega

end ContextModel

/-! ## Renormalisation -/

/-- How often a range below 512 is doubled until it is at least 256. -/
def doublings (range : Nat) : Nat :=
  9 - range.size

theorem doublings_of_le {range : Nat} (h : 256 ≤ range) : doublings range = 0 :=
  show doublingsTo 9 range = 0 from doublingsTo_of_le h

theorem doublings_of_lt {range : Nat} (hpos : 0 < range) (h : range < 256) :
    doublings range = doublings (2 * range) + 1 :=
  show doublingsTo 9 range = doublingsTo 9 (2 * range) + 1 from doublingsTo_of_lt hpos h

theorem doublings_bounds {range : Nat} (hpos : 0 < range) (h : range < 512) :
    256 ≤ range * 2 ^ doublings range ∧ range * 2 ^ doublings range < 512 :=
  show 2 ^ (9 - 1) ≤ range * 2 ^ doublingsTo 9 range ∧ range * 2 ^ doublingsTo 9 range < 2 ^ 9
    from doublingsTo_bounds hpos h

namespace CabacDecoder

variable {d : CabacDecoder} {p : Nat}

/-- A sound engine over a reader at a position: the offset is below the range. -/
structure Sound (d : CabacDecoder) (p : Nat) : Prop where
  reader : d.reader.At p
  le_range : 256 ≤ d.range
  range_le : d.range ≤ 510
  offset_lt : d.offset < d.range

/-- An engine that has shifted in a number of bits and changed nothing but the range beside
it. -/
structure Shifted (d d' : CabacDecoder) (p j : Nat) : Prop where
  offset : d'.offset = d.offset * 2 ^ j + number (ofBytes d.reader.data.bytes) p j
  reader : d.reader.MovesTo d'.reader (p + j)
  flagged : d'.flagged = d.flagged
  terminated : d'.terminated = d.terminated

theorem shiftIn_eq (h : d.reader.At p) (hoffset : d.offset < 2147483648) :
    ∃ d', d.shiftIn = some d' ∧ d.Shifted d' p 1 ∧ d'.range = d.range := by
  rcases h.get (show 1 ≤ 32 by decide) with ⟨hmove, hbit⟩
  have hlt := number_lt (ofBytes d.reader.data.bytes) p 1
  have hor : 2 * d.offset ||| d.reader.getBit.2.toNat =
      d.offset * 2 ^ 1 + number (ofBytes d.reader.data.bytes) p 1 := by
    rw [two_mul_or (by rw [BitReader.getBit, hbit]; exact hlt), BitReader.getBit, hbit]
    omega
  refine ⟨{ d with
    offset := 2 * d.offset ||| d.reader.getBit.2.toNat
    reader := d.reader.getBit.1 }, ?_, ⟨hor, hmove, rfl, rfl⟩, rfl⟩
  rw [shiftIn, shl32_one (by omega)]
  rfl

/-- Renormalising doubles the range as often as it asks for, and shifts in as many bits. -/
theorem renormLoop_eq {fuel : Nat} (h : d.reader.At p) (hpos : 0 < d.range) (hlt : d.range < 512)
    (hoffset : d.offset < d.range) (hfuel : doublings d.range < fuel) :
    ∃ d', renormLoop fuel d = some d' ∧ d.Shifted d' p (doublings d.range) ∧
      d'.range = d.range * 2 ^ doublings d.range := by
  induction fuel generalizing d p with
  | zero => cases hfuel
  | succ fuel ih =>
      rw [renormLoop]
      by_cases hsmall : d.range < 256
      · rw [if_pos hsmall, shl32_one (by omega)]
        have hcount := doublings_of_lt hpos hsmall
        rcases shiftIn_eq (d := { d with range := 2 * d.range }) h (by dsimp only; omega) with
          ⟨d₁, hshift, hone, hrange⟩
        have hoffset₁ := hone.offset
        have hbit := number_lt (ofBytes d.reader.data.bytes) p 1
        dsimp only at hoffset₁ hrange
        rcases ih hone.reader.at_pos (by omega) (by omega) (by rw [hoffset₁]; omega)
          (by rw [hrange]; omega) with ⟨d₂, hloop, hrest, hrange₂⟩
        rw [hrange] at hrest hrange₂
        refine ⟨d₂, ?_, ⟨?_, ?_, hrest.flagged.trans hone.flagged,
          hrest.terminated.trans hone.terminated⟩, ?_⟩
        · exact (congrArg (fun x => x >>= renormLoop fuel) hshift).trans hloop
        · have hdata : d₁.reader.data = d.reader.data := hone.reader.data
          rw [hrest.offset, hoffset₁, hdata, hcount, Nat.add_comm (doublings (2 * d.range)),
            number_add, Nat.pow_add]
          ring
        · rw [hcount, show p + (doublings (2 * d.range) + 1) = p + 1 + doublings (2 * d.range) by
            omega]
          exact hone.reader.trans hrest.reader
        · rw [hrange₂, hcount, Nat.pow_succ]
          ring
      · rw [if_neg hsmall, doublings_of_le (not_lt.mp hsmall)]
        refine ⟨d, rfl, ⟨by simp, h.stay, rfl, rfl⟩, by simp⟩

/-- Renormalising a range that is not empty leaves a sound engine. -/
theorem renorm_eq (h : d.reader.At p) (hpos : 0 < d.range) (hle : d.range ≤ 510)
    (hoffset : d.offset < d.range) :
    ∃ d', d.renorm = some d' ∧ d.Shifted d' p (doublings d.range) ∧
      d'.range = d.range * 2 ^ doublings d.range ∧ d'.Sound (p + doublings d.range) := by
  have hfuel : doublings d.range < 9 := by
    have := Nat.size_pos.mpr hpos
    unfold doublings
    omega
  rcases renormLoop_eq h hpos (by omega) hoffset hfuel with ⟨d', hloop, hshifted, hrange⟩
  have hbounds := doublings_bounds hpos (by omega)
  refine ⟨d', hloop, hshifted, hrange, ⟨hshifted.reader.at_pos, by omega, ?_, ?_⟩⟩
  · rw [hrange]
    cases hcount : doublings d.range with
    | zero => omega
    | succ n =>
        rw [hcount, Nat.pow_succ, ← Nat.mul_assoc] at hbounds
        rw [Nat.pow_succ, ← Nat.mul_assoc]
        omega
  · have hbits := number_lt (ofBytes d.reader.data.bytes) p (doublings d.range)
    have hscale := Nat.mul_le_mul_right (2 ^ doublings d.range) hoffset
    rw [Nat.succ_mul] at hscale
    rw [hshifted.offset, hrange]
    omega

/-! ## Operations on a sound engine -/

/-- An engine narrowed to a part of its range and renormalised. -/
structure Narrowed (d d' : CabacDecoder) (p base width : Nat) : Prop where
  sound : d'.Sound (p + doublings width)
  range : d'.range = width * 2 ^ doublings width
  offset : d'.offset = (d.offset - base) * 2 ^ doublings width +
    number (ofBytes d.reader.data.bytes) p (doublings width)
  reader : d.reader.MovesTo d'.reader (p + doublings width)
  flagged : d'.flagged = d.flagged
  terminated : d'.terminated = d.terminated

theorem renorm_narrowed (h : d.Sound p) (base width : Nat) (hpos : 0 < width)
    (hle : width ≤ 510) (hbase : base ≤ d.offset) (hoffset : d.offset < base + width) :
    ∃ d', { d with range := width, offset := d.offset - base }.renorm = some d' ∧
      d.Narrowed d' p base width := by
  rcases renorm_eq (d := { d with range := width, offset := d.offset - base }) h.reader hpos hle
    (by dsimp only; omega) with ⟨d', hrenorm, hshifted, hrange, hsound⟩
  exact ⟨d', hrenorm, hsound, hrange, hshifted.offset, hshifted.reader, hshifted.flagged,
    hshifted.terminated⟩

/-- An offset below the less probable part decodes to the more probable bin. -/
theorem decodeDecision_mps (h : d.Sound p) {ctx : ContextModel} (hctx : ctx.Valid)
    (hlt : d.offset < d.range - ctx.lps d.range) :
    ∃ d', d.decodeDecision ctx = some (d', ctx.next 0, ctx.mps) ∧
      d.Narrowed d' p 0 (d.range - ctx.lps d.range) := by
  have hlps := ContextModel.lps_bounds hctx d.range
  have hge := h.le_range
  have hle := h.range_le
  rcases renorm_narrowed h 0 (d.range - ctx.lps d.range) (by omega) (by omega) (by omega)
    (by omega) with ⟨d', hrenorm, hnarrowed⟩
  refine ⟨d', ?_, hnarrowed⟩
  rw [decodeDecision, sub_of_le (by omega), some_bind,
    if_neg (not_le.mpr hlt)]
  rw [Nat.sub_zero] at hrenorm
  exact congrArg (fun x => x >>= fun d => some (d, ctx.next 0, ctx.mps)) hrenorm

/-- An offset in the less probable part decodes to the other bin. -/
theorem decodeDecision_lps (h : d.Sound p) {ctx : ContextModel} (hctx : ctx.Valid)
    (hge : d.range - ctx.lps d.range ≤ d.offset) :
    ∃ d', d.decodeDecision ctx = some (d', ctx.next 1, 1 - ctx.mps) ∧
      d.Narrowed d' p (d.range - ctx.lps d.range) (ctx.lps d.range) := by
  have hlps := ContextModel.lps_bounds hctx d.range
  have hmps := ctx.mps_lt
  have hrange := h.le_range
  have hoffset := h.offset_lt
  rcases renorm_narrowed h (d.range - ctx.lps d.range) (ctx.lps d.range) (by omega) (by omega) hge
    (by omega) with ⟨d', hrenorm, hnarrowed⟩
  refine ⟨d', ?_, hnarrowed⟩
  rw [decodeDecision, sub_of_le (by omega), some_bind, if_pos hge,
    sub_of_le hge, some_bind, sub_of_le (by omega),
    some_bind]
  exact congrArg (fun x => x >>= fun d => some (d, ctx.next 1, 1 - ctx.mps)) hrenorm

/-- A bypass bin compares the range with the offset behind the next bit. -/
theorem decodeBypass_eq (h : d.Sound p) :
    ∃ d' bin, d.decodeBypass = some (d', bin) ∧ d'.Sound (p + 1) ∧ d'.range = d.range ∧
      d'.offset + bin * d.range =
        d.offset * 2 + number (ofBytes d.reader.data.bytes) p 1 ∧
      bin < 2 ∧ d.reader.MovesTo d'.reader (p + 1) ∧ d'.flagged = d.flagged ∧
      d'.terminated = d.terminated := by
  have hge := h.le_range
  have hle := h.range_le
  have hoffset := h.offset_lt
  have hbit := number_lt (ofBytes d.reader.data.bytes) p 1
  rcases shiftIn_eq h.reader (by omega) with ⟨d₁, hshift, hone, hrange⟩
  have hoffset₁ := hone.offset
  rw [decodeBypass, hshift, some_bind]
  dsimp only
  by_cases hbin : d₁.range ≤ d₁.offset
  · rw [if_pos hbin, if_pos rfl, sub_of_le hbin]
    refine ⟨_, 1, rfl, ⟨hone.reader.at_pos, ?_, ?_, ?_⟩, hrange, ?_, by decide, hone.reader,
      hone.flagged, hone.terminated⟩
    all_goals dsimp only
    all_goals omega
  · rw [if_neg hbin, if_neg (by decide), sub_of_le (Nat.zero_le _)]
    refine ⟨_, 0, rfl, ⟨hone.reader.at_pos, ?_, ?_, ?_⟩, hrange, ?_, by decide, hone.reader,
      hone.flagged, hone.terminated⟩
    all_goals dsimp only
    all_goals omega

/-- A terminating bin is zero where the offset is below the last two numbers of the range. -/
theorem decodeTerminate_zero (h : d.Sound p) (hlt : d.offset < d.range - 2) :
    ∃ d', d.decodeTerminate = some (d', 0) ∧ d.Narrowed d' p 0 (d.range - 2) := by
  have hge := h.le_range
  have hle := h.range_le
  rcases renorm_narrowed h 0 (d.range - 2) (by omega) (by omega) (by omega) (by omega)
    with ⟨d', hrenorm, hnarrowed⟩
  refine ⟨d', ?_, hnarrowed⟩
  rw [decodeTerminate, sub_of_le (by omega), some_bind,
    if_neg (not_le.mpr hlt)]
  rw [Nat.sub_zero] at hrenorm
  exact congrArg (fun x => x >>= fun d => some (d, 0)) hrenorm

/-- A terminating bin is one elsewhere, and leaves the range as it is. -/
theorem decodeTerminate_one (h : d.Sound p) (hge : d.range - 2 ≤ d.offset) :
    d.decodeTerminate = some ({ d with terminated := true }, 1) := by
  have hrange := h.le_range
  rw [decodeTerminate, sub_of_le (by omega), some_bind, if_pos hge]

/-! ## Every operation keeps a sound engine -/

/-- A sound engine over a reader at some position. -/
def Kept (d : CabacDecoder) : Prop :=
  ∃ p, d.Sound p

theorem Sound.congr {d' : CabacDecoder} (h : d.Sound p) (hrange : d'.range = d.range)
    (hoffset : d'.offset = d.offset) (hreader : d'.reader = d.reader) : d'.Sound p where
  reader := hreader ▸ h.reader
  le_range := hrange ▸ h.le_range
  range_le := hrange ▸ h.range_le
  offset_lt := by rw [hrange, hoffset]; exact h.offset_lt

theorem kept_fromReader {r : BitReader} (h : r.At p) : (fromReader r).Kept := by
  have halign := h.align
  rcases halign.at_pos.get (show 9 ≤ 32 by decide) with ⟨hmove, -⟩
  refine ⟨_, hmove.at_pos, ?_, ?_, ?_⟩
  · show 256 ≤ 510
    decide
  · show 510 ≤ 510
    decide
  · rw [fromReader]
    dsimp only
    split
    · decide
    · rename_i hsmall
      rw [decide_eq_true_eq, not_le] at hsmall
      exact hsmall

theorem Kept.decodeDecision (h : d.Kept) {ctx : ContextModel} (hctx : ctx.Valid) :
    ∃ d' ctx' bin, d.decodeDecision ctx = some (d', ctx', bin) ∧ d'.Kept ∧ ctx'.Valid := by
  rcases h with ⟨p, h⟩
  by_cases hlt : d.offset < d.range - ctx.lps d.range
  · rcases decodeDecision_mps h hctx hlt with ⟨d', heq, hnarrowed⟩
    exact ⟨d', _, _, heq, ⟨_, hnarrowed.sound⟩, ContextModel.next_valid hctx (by decide)⟩
  · rcases decodeDecision_lps h hctx (not_lt.mp hlt) with ⟨d', heq, hnarrowed⟩
    exact ⟨d', _, _, heq, ⟨_, hnarrowed.sound⟩, ContextModel.next_valid hctx (by decide)⟩

theorem Kept.decodeBypass (h : d.Kept) :
    ∃ d' bin, d.decodeBypass = some (d', bin) ∧ d'.Kept ∧ bin < 2 := by
  rcases h with ⟨p, h⟩
  rcases decodeBypass_eq h with ⟨d', bin, heq, hsound, -, -, hbin, -⟩
  exact ⟨d', bin, heq, ⟨_, hsound⟩, hbin⟩

theorem Kept.decodeTerminate (h : d.Kept) :
    ∃ d' bin, d.decodeTerminate = some (d', bin) ∧ d'.Kept := by
  rcases h with ⟨p, h⟩
  by_cases hlt : d.offset < d.range - 2
  · rcases decodeTerminate_zero h hlt with ⟨d', heq, hnarrowed⟩
    exact ⟨d', 0, heq, _, hnarrowed.sound⟩
  · exact ⟨_, 1, decodeTerminate_one h (not_lt.mp hlt), p, h.congr rfl rfl rfl⟩

theorem Kept.bypassBitsLoop (h : d.Kept) {n value : Nat} (hvalue : value < 2 ^ (32 - n))
    (hn : n ≤ 32) : ∃ d' value', bypassBitsLoop n d value = some (d', value') ∧ d'.Kept := by
  induction n generalizing d value with
  | zero => exact ⟨d, value, rfl, h⟩
  | succ n ih =>
      have hpow : 2 ^ (32 - n) = 2 * 2 ^ (32 - (n + 1)) := by
        rw [← Nat.pow_succ']
        congr 1
        omega
      have hcard : 2 ^ (32 - n) ≤ 2 ^ 32 := Nat.pow_le_pow_right (by decide) (by omega)
      rcases h.decodeBypass with ⟨d₁, bin, hbypass, hkept, hbin⟩
      have hroom : 2 * value ||| bin < 2 ^ (32 - n) := by
        rw [two_mul_or hbin]
        omega
      rcases ih hkept hroom (by omega) with ⟨d', value', hloop, hkept'⟩
      refine ⟨d', value', ?_, hkept'⟩
      rw [CabacDecoder.bypassBitsLoop, shl32_one (by omega), some_bind,
        hbypass, some_bind]
      exact hloop

theorem Kept.decodeBypassBits (h : d.Kept) (n : Nat) :
    ∃ d' value, d.decodeBypassBits n = some (d', value) ∧ d'.Kept :=
  h.bypassBitsLoop (by positivity) (min_le_right n 32)

theorem Kept.tuLoop (h : d.Kept) {ctx : ContextModel} (hctx : ctx.Valid) {left n : Nat}
    (hfit : left + n < 4294967296) :
    ∃ d' ctx' n', tuLoop left d ctx n = some (d', ctx', n') ∧ d'.Kept ∧ ctx'.Valid := by
  induction left generalizing d ctx n with
  | zero => exact ⟨d, ctx, n, rfl, h, hctx⟩
  | succ left ih =>
      rcases h.decodeDecision hctx with ⟨d₁, ctx₁, bin, hdecision, hkept, hvalid⟩
      rw [CabacDecoder.tuLoop, hdecision, some_bind]
      dsimp only
      by_cases hbin : bin = 0
      · rw [if_pos hbin]
        exact ⟨d₁, ctx₁, n, rfl, hkept, hvalid⟩
      · rw [if_neg hbin, add32_of_lt (by omega), some_bind]
        exact ih hkept hvalid (by omega)

theorem Kept.decodeTu (h : d.Kept) {ctx : ContextModel} (hctx : ctx.Valid) (cMax : BitVec 32) :
    ∃ d' ctx' n, d.decodeTu ctx cMax = some (d', ctx', n) ∧ d'.Kept ∧ ctx'.Valid :=
  h.tuLoop hctx (by have := cMax.isLt; omega)

/-- The run of ones and the suffix behind it succeed and keep the engine: the run ends before
the fuel does. -/
theorem Kept.egkLoop (h : d.Kept) {fuel k value ones : Nat} (hfuel : fuel + ones = 32)
    (hones : ones < 32) (hk : k ≤ 31) :
    ∃ d' value', egkLoop fuel d k value ones = some (d', value') ∧ d'.Kept := by
  induction fuel generalizing d k value ones with
  | zero => omega
  | succ fuel ih =>
      rcases h.decodeBypass with ⟨d₁, bin, hbypass, hkept, -⟩
      rw [CabacDecoder.egkLoop, hbypass, some_bind]
      dsimp only
      by_cases hbin : bin = 1
      · rw [if_pos hbin, add32_of_lt (by omega), some_bind, add32_of_lt (by omega),
          some_bind]
        by_cases hstop : 32 ≤ ones + 1 ∨ 31 < k + 1
        · rcases hkept with ⟨p, hsound⟩
          rw [if_pos hstop]
          exact ⟨_, _, rfl, p, hsound.congr rfl rfl rfl⟩
        · rw [if_neg hstop]
          exact ih hkept (by omega) (by omega) (by omega)
      · rcases hkept.decodeBypassBits k with ⟨d₂, suffix, hsuffix, hkept'⟩
        rw [if_neg hbin, hsuffix, some_bind]
        exact ⟨d₂, _, rfl, hkept'⟩

theorem Kept.decodeBypassEgk (h : d.Kept) (k : Nat) :
    ∃ d' value, d.decodeBypassEgk k = some (d', value) ∧ d'.Kept :=
  h.egkLoop rfl (by decide) (min_le_right k 31)

/-- A prefix with its suffix and sign succeeds, and keeps the engine and the context. -/
theorem Kept.decodeUegk (h : d.Kept) {ctx : ContextModel} (hctx : ctx.Valid) (uCoff : BitVec 32)
    (k : Nat) (signedValFlag : Bool) :
    ∃ d' ctx' value, d.decodeUegk ctx uCoff k signedValFlag = some (d', ctx', value) ∧ d'.Kept ∧
      ctx'.Valid := by
  rcases h.decodeTu hctx uCoff with ⟨d₁, ctx₁, n, htu, hkept, hvalid⟩
  have hsuffix : ∃ d₂ value, d₁.uegkSuffix uCoff k n = some (d₂, value) ∧ d₂.Kept := by
    rw [uegkSuffix]
    split
    · rcases hkept.decodeBypassEgk k with ⟨d₂, suffix, hegk, hkept'⟩
      rw [hegk]
      exact ⟨d₂, _, rfl, hkept'⟩
    · exact ⟨d₁, n, rfl, hkept⟩
  rcases hsuffix with ⟨d₂, value, hvalue, hkept₂⟩
  rw [CabacDecoder.decodeUegk, htu, some_bind]
  dsimp only
  rw [hvalue, some_bind]
  dsimp only
  split
  · rcases hkept₂.decodeBypass with ⟨d₃, sign, hsign, hkept₃, -⟩
    rw [hsign, some_bind]
    dsimp only
    split
    · exact ⟨d₃, ctx₁, _, rfl, hkept₃, hvalid⟩
    · exact ⟨d₃, ctx₁, _, rfl, hkept₃, hvalid⟩
  · exact ⟨d₂, ctx₁, _, rfl, hkept₂, hvalid⟩

end CabacDecoder

/-- The offset is below the range, which is between 256 and 510, and the contexts are in their
states. -/
structure CabacState.Sound {n : Nat} (s : CabacState n) : Prop where
  decoder : s.decoder.Kept
  contexts : ∀ i, (s.contexts i).Valid

theorem valid_update {n : Nat} {contexts : Fin n → ContextModel} (h : ∀ i, (contexts i).Valid)
    {ctx : ContextModel} (hctx : ctx.Valid) (i j : Fin n) :
    (Function.update contexts i ctx j).Valid := by
  by_cases hj : j = i
  · rw [hj, Function.update_self]
    exact hctx
  · rw [Function.update_of_ne hj]
    exact h j

/-- Every call succeeds and keeps the invariant. -/
theorem cabacStep_keeps {n : Nat} {s : CabacState n} (h : s.Sound) (call : CabacCall n) :
    ∃ s' value, cabacStep s call = some (s', value) ∧ s'.Sound := by
  cases call with
  | decision i =>
      rcases h.decoder.decodeDecision (h.contexts i) with ⟨d, ctx, bin, heq, hkept, hvalid⟩
      rw [cabacStep, heq]
      exact ⟨_, _, rfl, hkept, valid_update h.contexts hvalid i⟩
  | bypass =>
      rcases h.decoder.decodeBypass with ⟨d, bin, heq, hkept, -⟩
      rw [cabacStep, heq]
      exact ⟨_, _, rfl, hkept, h.contexts⟩
  | bypassBits count =>
      rcases h.decoder.decodeBypassBits count.toNat with ⟨d, value, heq, hkept⟩
      rw [cabacStep, heq]
      exact ⟨_, _, rfl, hkept, h.contexts⟩
  | terminate =>
      rcases h.decoder.decodeTerminate with ⟨d, bin, heq, hkept⟩
      rw [cabacStep, heq]
      exact ⟨_, _, rfl, hkept, h.contexts⟩
  | tu i cMax =>
      rcases h.decoder.decodeTu (h.contexts i) cMax with ⟨d, ctx, value, heq, hkept, hvalid⟩
      rw [cabacStep, heq]
      exact ⟨_, _, rfl, hkept, valid_update h.contexts hvalid i⟩
  | bypassEgk k =>
      rcases h.decoder.decodeBypassEgk k.toNat with ⟨d, value, heq, hkept⟩
      rw [cabacStep, heq]
      exact ⟨_, _, rfl, hkept, h.contexts⟩
  | uegk i uCoff k signedValFlag =>
      rcases h.decoder.decodeUegk (h.contexts i) uCoff k.toNat signedValFlag with
        ⟨d, ctx, value, heq, hkept, hvalid⟩
      rw [cabacStep, heq]
      exact ⟨_, _, rfl, hkept, valid_update h.contexts hvalid i⟩

/-- No sequence of calls panics, and every one keeps the offset below the range, the range between
256 and 510 and the contexts in their states. -/
theorem cabac_invariant {n : Nat} (reader : BitReader) (p : Nat) (h : reader.At p)
    (contexts : Fin n → ContextModel) (hcontexts : ∀ i, (contexts i).packed ≤ 127)
    (calls : List (CabacCall n)) :
    ∃ s values, run cabacStep ⟨CabacDecoder.fromReader reader, contexts⟩ calls = some (s, values) ∧
      s.decoder.offset < s.decoder.range ∧ 256 ≤ s.decoder.range ∧ s.decoder.range ≤ 510 ∧
      ∀ i, (s.contexts i).packed ≤ 127 := by
  have hstart : CabacState.Sound ⟨CabacDecoder.fromReader reader, contexts⟩ :=
    ⟨CabacDecoder.kept_fromReader h, hcontexts⟩
  rcases run_invariant hstart (fun s call hs => cabacStep_keeps hs call) calls with
    ⟨s, values, hrun, ⟨q, hsound⟩, hvalid⟩
  exact ⟨s, values, hrun, hsound.offset_lt, hsound.le_range, hsound.range_le, hvalid⟩

/-- Bytes of ones, which begin with an offset that is not conforming. -/
theorem cabac_invariant_ones :
    ∃ s values, run cabacStep
        ⟨CabacDecoder.new ⟨[0xFF, 0xFF], by decide⟩, fun _ : Fin 1 => ⟨127⟩⟩
        [.decision 0, .bypass, .terminate] = some (s, values) ∧
      s.decoder.offset < s.decoder.range ∧ 256 ≤ s.decoder.range ∧ s.decoder.range ≤ 510 ∧
      ∀ i, (s.contexts i).packed ≤ 127 :=
  cabac_invariant _ 0 (BitReader.at_start _ _) _ (fun _ => le_refl 127) _

end Codec
end Vaco
