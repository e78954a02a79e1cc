import Vaco.Codec.BoolRoundTrip

/-!
# Two boolean decoders

The decoder of VP8 keeps sixteen bits of the data and folds in a byte after every eight doublings;
the one of VP9 keeps eight bits and shifts in one bit for every doubling.  In lockstep the first
is the second with the rest of the byte it has folded in behind it.

The sixteen bits live in a word of 32.  A stream of an encoder keeps the value below the range,
but the first byte of other data may be 255, which puts the value at the range; the value may then
outgrow the word of the first decoder before that of the second.

Main results:

- `Lockstep.readBool`: decoders in lockstep read the same bool.
- `bool_decoders_agree`: where the two decoders agree.
-/

namespace Vaco
namespace Codec

open Library BitStream Checked IntervalCoder
open Vaco.Bitstream

/-! ## The decoder that buffers bytes -/

namespace Vp8

/-- The boolean decoder of VP8. -/
structure BoolDecoder where
  input : Bytes
  pos : Nat
  range : Nat
  value : Nat
  bitCount : Nat
  overrun : Bool
deriving DecidableEq

namespace BoolDecoder

/-- Take the next byte; past the end the bytes are zero. -/
def nextByte (d : BoolDecoder) : BoolDecoder × Nat :=
  match d.input[d.pos]? with
  | some b => ({ d with pos := d.pos + 1 }, b.toNat)
  | none => ({ d with overrun := true }, 0)

/-- A decoder before its first bytes. -/
def start (input : Bytes) : BoolDecoder where
  input := input
  pos := 0
  range := 255
  value := 0
  bitCount := 0
  overrun := false

/-- Start on the bytes of a partition: two bytes fill the value. -/
def new (input : Bytes) : BoolDecoder :=
  let (d, first) := (start input).nextByte
  let (d, second) := d.nextByte
  { d with value := first * 2 ^ 8 ||| second }

def fold (d : BoolDecoder) : BoolDecoder :=
  if d.bitCount = 8 then
    let (d, byte) := nextByte { d with bitCount := 0 }
    { d with value := d.value ||| byte }
  else
    d

/-- Double the range and the value; bits that leave the word of the value are lost. -/
def shift (d : BoolDecoder) : Option BoolDecoder := do
  let range ← shl32 d.range 1
  some (fold { d with
    value := 2 * d.value % 4294967296
    range := range
    bitCount := d.bitCount + 1 })

/-- Double until the range is at least 128. -/
def renormLoop : Nat → BoolDecoder → Option BoolDecoder
  | 0, _ => none
  | fuel + 1, d =>
      if d.range < 128 then do
        let d ← d.shift
        renormLoop fuel d
      else
        some d

/-- Renormalise; a positive range is doubled at most seven times. -/
def renorm (d : BoolDecoder) : Option BoolDecoder :=
  renormLoop 8 d

def readBool (d : BoolDecoder) (prob : BitVec 8) : Option (BoolDecoder × Bool) := do
  let split ← boolSplit d.range prob
  let bigSplit ← shl32 split 8
  if bigSplit ≤ d.value then
    let range ← sub d.range split
    let value ← sub d.value bigSplit
    let d ← renorm { d with range := range, value := value }
    some (d, true)
  else
    let d ← renorm { d with range := split }
    some (d, false)

end BoolDecoder

end Vp8

/-! ## Reading a sequence -/

/-- The bools of a sequence of probabilities that the decoder of VP9 reads behind its marker. -/
def vp9Bools (data : Bytes) (probs : List (BitVec 8)) : Option (List Bool) := do
  let d ← BoolDecoder.new data
  let (_, bools) ← run BoolDecoder.readBool d probs
  some bools

/-- The bools of a sequence of probabilities that the decoder of VP8 reads behind one bool of an
even probability. -/
def vp8Bools (data : Bytes) (probs : List (BitVec 8)) : Option (List Bool) := do
  let (d, _) ← (Vp8.BoolDecoder.new data).readBool 128
  let (_, bools) ← run Vp8.BoolDecoder.readBool d probs
  some bools

/-! ## The value of the first decoder -/

namespace BoolDecoder

variable {d : BoolDecoder}

theorem readBit_kept (d : BoolDecoder) :
    d.readBit.2 < 2 ∧ d.readBit.1.range = d.range ∧ d.readBit.1.value = d.value := by
  rw [readBit]
  split
  · exact ⟨Nat.two_pos, rfl, rfl⟩
  · exact ⟨Nat.mod_lt _ (by decide), rfl, rfl⟩

theorem room_of_lt {range value : Nat} (hpos : 0 < range) (hvalue : value < 16777216) :
    (value + 1) * 2 ^ doublingsTo 8 range ≤ 4294967296 := by
  have hcount := doublingsTo_lt (show 0 < 8 by decide) hpos
  have hpow : 2 ^ doublingsTo 8 range ≤ 2 ^ 8 := Nat.pow_le_pow_right (by decide) (by omega)
  calc (value + 1) * 2 ^ doublingsTo 8 range
      ≤ 16777216 * 2 ^ 8 := Nat.mul_le_mul (by omega) hpow
    _ = 4294967296 := by decide

/-- One doubling of a small range, where the value has room for all of them. -/
theorem renormLoop_doubles {fuel : Nat} (hpos : 0 < d.range) (hsmall : d.range < 128)
    (hfuel : doublingsTo 8 d.range < fuel + 1)
    (hroom : (d.value + 1) * 2 ^ doublingsTo 8 d.range ≤ 4294967296) :
    renormLoop (fuel + 1) d = renormLoop fuel { d.readBit.1 with
        range := 2 * d.range
        value := 2 * d.value + d.readBit.2 } ∧
      doublingsTo 8 (2 * d.range) < fuel ∧
      (2 * d.value + d.readBit.2 + 1) * 2 ^ doublingsTo 8 (2 * d.range) ≤ 4294967296 := by
  have hcount : doublingsTo 8 d.range = doublingsTo 8 (2 * d.range) + 1 :=
    doublingsTo_of_lt hpos hsmall
  rcases readBit_kept d with ⟨hlt, hrange, hvalue⟩
  have hnext : (2 * d.value + d.readBit.2 + 1) * 2 ^ doublingsTo 8 (2 * d.range) ≤
      4294967296 := by
    rw [hcount, Nat.pow_succ] at hroom
    calc (2 * d.value + d.readBit.2 + 1) * 2 ^ doublingsTo 8 (2 * d.range)
        ≤ (2 * d.value + 2) * 2 ^ doublingsTo 8 (2 * d.range) :=
          Nat.mul_le_mul_right _ (by omega)
      _ = (d.value + 1) * (2 ^ doublingsTo 8 (2 * d.range) * 2) := by ring
      _ ≤ 4294967296 := hroom
  have hfit : 2 * d.value + d.readBit.2 + 1 ≤ 4294967296 :=
    (Nat.le_mul_of_pos_right _ (by positivity)).trans hnext
  refine ⟨?_, by omega, hnext⟩
  rw [renormLoop, if_pos hsmall]
  dsimp only
  rw [hrange, shl32_one (by omega), some_bind, hvalue, shl32_one (by omega), some_bind,
    add32_of_lt (by omega), some_bind]

theorem renormLoop_grows {fuel : Nat} (hpos : 0 < d.range) (hle : d.range ≤ 255)
    (hfuel : doublingsTo 8 d.range < fuel)
    (hroom : (d.value + 1) * 2 ^ doublingsTo 8 d.range ≤ 4294967296) :
    ∃ e, renormLoop fuel d = some e ∧ 128 ≤ e.range ∧ e.range ≤ 255 ∧ d.value ≤ e.value ∧
      (d.value < d.range → e.value < e.range) := by
  induction fuel generalizing d with
  | zero => cases hfuel
  | succ fuel ih =>
      by_cases hsmall : d.range < 128
      · rcases renormLoop_doubles hpos hsmall hfuel hroom with ⟨hstep, hfuel', hroom'⟩
        have hlt := (readBit_kept d).1
        rcases ih (d := { d.readBit.1 with
          range := 2 * d.range
          value := 2 * d.value + d.readBit.2 }) (by dsimp only; omega) (by dsimp only; omega)
          hfuel' hroom' with ⟨e, hloop, hge, hle', hgrows, hbelow⟩
        dsimp only at hgrows hbelow
        exact ⟨e, hstep.trans hloop, hge, hle', by omega, fun hin => hbelow (by omega)⟩
      · rw [renormLoop, if_neg hsmall]
        exact ⟨d, rfl, not_lt.mp hsmall, hle, le_rfl, id⟩

/-- A bool is read where the value is below 24 bits; the value stays below the range if it
was. -/
theorem readBool_grows (hge : 128 ≤ d.range) (hle : d.range ≤ 255) (hvalue : d.value < 16777216)
    (prob : BitVec 8) :
    ∃ e bit, d.readBool prob = some (e, bit) ∧ 128 ≤ e.range ∧ e.range ≤ 255 ∧
      (d.value < d.range → e.value < e.range) := by
  rcases boolSplit_eq hge hle prob with ⟨hsplit, hpos, hlt⟩
  rw [readBool, hsplit, some_bind]
  by_cases hzero : d.value < splitOf d.range prob
  · rcases renormLoop_grows (d := { d with range := splitOf d.range prob }) hpos
      (by dsimp only; omega) (doublingsTo_lt (by decide) hpos) (room_of_lt hpos hvalue) with
      ⟨e, hloop, hge', hle', -, hbelow⟩
    rw [if_pos hzero, renorm, hloop]
    exact ⟨e, false, rfl, hge', hle', fun _ => hbelow hzero⟩
  · have hwidth : 0 < d.range - splitOf d.range prob := by omega
    rcases renormLoop_grows
      (d := { d with
        range := d.range - splitOf d.range prob
        value := d.value - splitOf d.range prob })
      hwidth (by dsimp only; omega) (doublingsTo_lt (by decide) hwidth)
      (room_of_lt hwidth (by dsimp only; omega)) with ⟨e, hloop, hge', hle', -, hbelow⟩
    rw [if_neg hzero, sub_of_le (by omega), some_bind, sub_of_le (by omega), some_bind, renorm,
      hloop]
    exact ⟨e, true, rfl, hge', hle', fun hin => hbelow (by dsimp only; omega)⟩

end BoolDecoder

/-! ## Lockstep -/

theorem number_byte (data : Bytes) (i : Nat) :
    number (ofBytes data) (8 * i) 8 = ((data[i]?).getD 0).toNat := by
  have hbits : ∀ j < 8, ofBytes data (8 * i + j) = ((data[i]?).getD 0).getMsbD (0 + j) := by
    intro j hj
    have hdiv : (8 * i + j) / 8 = i := by omega
    have hmod : (8 * i + j) % 8 = j := by omega
    rw [ofBytes, hdiv, hmod, Nat.zero_add]
  rw [number_congr hbits, number_getMsbD _ (le_refl 8)]
  simp

namespace Vp8.BoolDecoder

theorem nextByte_eq (d : BoolDecoder) {i : Nat} (hpos : d.pos = min i d.input.length) :
    d.nextByte.2 = ((d.input[i]?).getD 0).toNat ∧
      d.nextByte.1.pos = min (i + 1) d.input.length ∧ d.nextByte.1.input = d.input ∧
      d.nextByte.1.range = d.range ∧ d.nextByte.1.value = d.value ∧
      d.nextByte.1.bitCount = d.bitCount := by
  by_cases hin : i < d.input.length
  · have hplace : d.pos = i := by omega
    rw [nextByte, hplace, List.getElem?_eq_getElem hin]
    exact ⟨rfl, by dsimp only; omega, rfl, rfl, rfl, rfl⟩
  · have hplace : d.pos = d.input.length := by omega
    rw [nextByte, hplace, List.getElem?_eq_none (le_refl _), List.getElem?_eq_none (by omega)]
    exact ⟨rfl, by dsimp only; omega, rfl, rfl, rfl, rfl⟩

end Vp8.BoolDecoder

/-- The second decoder has folded in whole bytes, and holds what it is ahead behind the value of the
first. -/
structure Lockstep (d : BoolDecoder) (d' : Vp8.BoolDecoder) (p : Nat) : Prop where
  at_pos : d.At p
  input : d'.input = d.data
  pos : d'.pos = min (p / 8 + 1) d.data.length
  range : d'.range = d.range
  bitCount : d'.bitCount = p % 8
  value : d'.value =
    d.value * 256 + number (ofBytes d.data) p (8 - p % 8) * 2 ^ (p % 8)

namespace Lockstep

open BoolDecoder (room_of_lt)

variable {d : BoolDecoder} {d' : Vp8.BoolDecoder} {p : Nat}

theorem ahead_lt (bits : Nat → Bool) (p : Nat) :
    number bits p (8 - p % 8) * 2 ^ (p % 8) < 256 := by
  have hlt := Nat.mul_lt_mul_of_pos_right (number_lt bits p (8 - p % 8))
    (show 0 < 2 ^ (p % 8) by positivity)
  rwa [← Nat.pow_add, Nat.sub_add_cancel (by omega)] at hlt

theorem part (h : Lockstep d d' p) {base : Nat} (width : Nat) (hbase : base ≤ d.value) :
    Lockstep { d with range := width, value := d.value - base }
      { d' with range := width, value := d'.value - base * 256 } p := by
  have hvalue := h.value
  refine ⟨⟨h.at_pos.maxBits, h.at_pos.bitPos, h.at_pos.overrun⟩, h.input, h.pos, rfl,
    h.bitCount, ?_⟩
  dsimp only
  omega

/-- One doubling keeps the decoders in lockstep, while the value stays below 24 bits. -/
theorem shift (h : Lockstep d d' p) (hrange : d.range < 128)
    (hroom : 2 * d.value + d.readBit.2 < 16777216) :
    ∃ e', d'.shift = some e' ∧
      Lockstep { d.readBit.1 with range := 2 * d.range, value := 2 * d.value + d.readBit.2 } e'
        (p + 1) := by
  rcases h.at_pos.readBit with ⟨hat, hbit, hdata, -, -⟩
  have hrange' := h.range
  have hcount := h.bitCount
  have hpos := h.pos
  rw [hbit] at hroom
  -- The bits ahead begin with the bit that is shifted into the first value.
  have hsplit := number_add (ofBytes d.data) p 1 (7 - p % 8)
  rw [number_one, show 1 + (7 - p % 8) = 8 - p % 8 by omega] at hsplit
  have hdouble : 2 * d'.value = (2 * d.value + (ofBytes d.data p).toNat) * 256 +
      number (ofBytes d.data) (p + 1) (7 - p % 8) * 2 ^ (p % 8 + 1) := by
    have hbyte : 2 ^ (7 - p % 8) * 2 ^ (p % 8 + 1) = 256 := by
      rw [← Nat.pow_add, show 7 - p % 8 + (p % 8 + 1) = 8 by omega]
    calc 2 * d'.value
        = d.value * 512 + (ofBytes d.data p).toNat * (2 ^ (7 - p % 8) * 2 ^ (p % 8 + 1)) +
            number (ofBytes d.data) (p + 1) (7 - p % 8) * 2 ^ (p % 8 + 1) := by
          rw [h.value, hsplit, Nat.pow_succ]
          ring
      _ = _ := by
          rw [hbyte]
          ring
  have hahead : number (ofBytes d.data) (p + 1) (7 - p % 8) * 2 ^ (p % 8 + 1) < 256 := by
    have hlt := Nat.mul_lt_mul_of_pos_right (number_lt (ofBytes d.data) (p + 1) (7 - p % 8))
      (show 0 < 2 ^ (p % 8 + 1) by positivity)
    rwa [← Nat.pow_add, show 7 - p % 8 + (p % 8 + 1) = 8 by omega] at hlt
  have hword : 2 * d'.value % 4294967296 = 2 * d'.value := Nat.mod_eq_of_lt (by omega)
  rw [Vp8.BoolDecoder.shift, shl32_one (by omega), some_bind, hword, Vp8.BoolDecoder.fold]
  dsimp only
  by_cases hfull : p % 8 = 7
  · -- Eight bits are shifted out, and the next byte follows.
    have hnext : p + 1 = 8 * ((p + 1) / 8) := by omega
    rw [if_pos (by omega)]
    rcases Vp8.BoolDecoder.nextByte_eq
      { d' with value := 2 * d'.value, range := 2 * d'.range, bitCount := 0 }
      (i := (p + 1) / 8) (by dsimp only; rw [hpos, h.input]; congr 1; omega) with
      ⟨hbyte, hpos', hinput', hrange'', hvalue'', hcount''⟩
    refine ⟨_, rfl, ⟨hat.maxBits, hat.bitPos, hat.overrun⟩, ?_, ?_, ?_, ?_, ?_⟩
    · dsimp only
      rw [hinput', h.input, hdata]
    · dsimp only
      rw [hpos', h.input, hdata]
    · dsimp only
      rw [hrange'', hrange']
    · dsimp only
      rw [hcount'']
      dsimp only
      omega
    · dsimp only
      rw [hvalue'', hbyte, hdata, hbit, h.input]
      have hzero : (p + 1) % 8 = 0 := by omega
      rw [hzero, Nat.sub_zero, Nat.pow_zero, Nat.mul_one, hdouble, hfull, Nat.sub_self,
        number_zero, Nat.zero_mul, Nat.add_zero, hnext, number_byte, ← hnext]
      have hlt := ((d.data[(p + 1) / 8]?).getD 0).isLt
      rw [show (256 : Nat) = 2 ^ 8 by decide, ← Nat.shiftLeft_eq, Nat.shiftLeft_add_eq_or_of_lt hlt]
  · rw [if_neg (by omega)]
    refine ⟨_, rfl, ⟨hat.maxBits, hat.bitPos, hat.overrun⟩, ?_, ?_, ?_, ?_, ?_⟩
    · dsimp only
      rw [h.input, hdata]
    · dsimp only
      rw [hpos, hdata]
      congr 1
      omega
    · dsimp only
      rw [hrange']
    · dsimp only
      omega
    · dsimp only
      rw [hdata, hbit, hdouble, show (p + 1) % 8 = p % 8 + 1 by omega,
        show 8 - (p % 8 + 1) = 7 - p % 8 by omega]

/-- Renormalising keeps the decoders in lockstep, if the value ends below 24 bits. -/
theorem renormLoop {fuel : Nat} {e : BoolDecoder} (h : Lockstep d d' p) (hpos : 0 < d.range)
    (hle : d.range ≤ 255) (hfuel : doublingsTo 8 d.range < fuel)
    (hroom : (d.value + 1) * 2 ^ doublingsTo 8 d.range ≤ 4294967296)
    (hloop : BoolDecoder.renormLoop fuel d = some e) (hend : e.value < 16777216) :
    ∃ e' q, Vp8.BoolDecoder.renormLoop fuel d' = some e' ∧ Lockstep e e' q := by
  induction fuel generalizing d d' p with
  | zero => cases hfuel
  | succ fuel ih =>
      rw [Vp8.BoolDecoder.renormLoop, h.range]
      by_cases hsmall : d.range < 128
      · rcases BoolDecoder.renormLoop_doubles hpos hsmall hfuel hroom with
          ⟨hstep, hfuel', hroom'⟩
        rw [hstep] at hloop
        -- The value never shrinks, so it is below 24 bits on the way as well.
        rcases BoolDecoder.renormLoop_grows (d := { d.readBit.1 with
          range := 2 * d.range
          value := 2 * d.value + d.readBit.2 }) (by dsimp only; omega) (by dsimp only; omega)
          hfuel' hroom' with ⟨e₁, hloop₁, -, -, hgrows, -⟩
        rw [hloop, Option.some.injEq] at hloop₁
        subst hloop₁
        dsimp only at hgrows
        rcases h.shift hsmall (by omega) with ⟨d₁', hshift, hlock⟩
        rcases ih hlock (by dsimp only; omega) (by dsimp only; omega) hfuel' hroom' hloop with
          ⟨e', q, hloop', hlock'⟩
        refine ⟨e', q, ?_, hlock'⟩
        rw [if_pos hsmall, hshift]
        exact hloop'
      · rw [BoolDecoder.renormLoop, if_neg hsmall, Option.some.injEq] at hloop
        subst hloop
        rw [if_neg hsmall]
        exact ⟨d', p, rfl, h⟩

/-- Decoders in lockstep read the same bool, and stay in lockstep if the value ends below 24
bits. -/
theorem readBool {e : BoolDecoder} {bit : Bool} (h : Lockstep d d' p) (hge : 128 ≤ d.range)
    (hle : d.range ≤ 255) (hvalue : d.value < 16777216) {prob : BitVec 8}
    (hread : d.readBool prob = some (e, bit)) (hend : e.value < 16777216) :
    ∃ e' q, d'.readBool prob = some (e', bit) ∧ Lockstep e e' q := by
  rcases boolSplit_eq hge hle prob with ⟨hsplit, hpos, hlt⟩
  have hahead := ahead_lt (ofBytes d.data) p
  have hvalue' := h.value
  have hshl : shl32 (splitOf d.range prob) 8 = some (splitOf d.range prob * 256) :=
    shl32_of_lt (by omega)
  rw [BoolDecoder.readBool, hsplit, some_bind] at hread
  rw [Vp8.BoolDecoder.readBool, h.range, hsplit, some_bind, hshl, some_bind]
  by_cases hzero : d.value < splitOf d.range prob
  · have hlock := h.part (splitOf d.range prob) (Nat.zero_le _)
    rw [if_pos hzero] at hread
    rw [if_neg (by omega)]
    rcases Option.bind_eq_some_iff.mp hread with ⟨e₁, hrenorm, hpair⟩
    rw [Option.some.injEq, Prod.mk.injEq] at hpair
    rcases hpair with ⟨rfl, rfl⟩
    rcases hlock.renormLoop hpos (by dsimp only; omega) (doublingsTo_lt (by decide) hpos)
      (room_of_lt hpos (by dsimp only; omega)) hrenorm hend with ⟨e', q, hloop', hlock'⟩
    refine ⟨e', q, ?_, hlock'⟩
    rw [Nat.zero_mul, Nat.sub_zero] at hloop'
    rw [Vp8.BoolDecoder.renorm, hloop']
    rfl
  · have hwidth : 0 < d.range - splitOf d.range prob := by omega
    have hlock := h.part (d.range - splitOf d.range prob) (not_lt.mp hzero)
    rw [if_neg hzero, sub_of_le (by omega), some_bind, sub_of_le (by omega), some_bind] at hread
    rw [if_pos (by omega), sub_of_le (by omega), some_bind, sub_of_le (by omega), some_bind]
    rcases Option.bind_eq_some_iff.mp hread with ⟨e₁, hrenorm, hpair⟩
    rw [Option.some.injEq, Prod.mk.injEq] at hpair
    rcases hpair with ⟨rfl, rfl⟩
    rcases hlock.renormLoop hwidth (by dsimp only; omega) (doublingsTo_lt (by decide) hwidth)
      (room_of_lt hwidth (by dsimp only; omega)) hrenorm hend with ⟨e', q, hloop', hlock'⟩
    refine ⟨e', q, ?_, hlock'⟩
    rw [Vp8.BoolDecoder.renorm, hloop']
    rfl

end Lockstep

/-! ## Whole sequences -/

/-- The value stays below a bound over the reads of a sequence. -/
def BoolDecoder.StaysBelow (bound : Nat) : BoolDecoder → List (BitVec 8) → Prop
  | d, [] => d.value < bound
  | d, prob :: probs => d.value < bound ∧
      ∀ e bit, d.readBool prob = some (e, bit) → StaysBelow bound e probs

theorem BoolDecoder.StaysBelow.value_lt {bound : Nat} {d : BoolDecoder} {probs : List (BitVec 8)}
    (h : d.StaysBelow bound probs) : d.value < bound := by
  cases probs with
  | nil => exact h
  | cons prob probs => exact h.1

theorem BoolDecoder.staysBelow_of_lt {d : BoolDecoder} (hge : 128 ≤ d.range) (hle : d.range ≤ 255)
    (hvalue : d.value < d.range) (probs : List (BitVec 8)) : d.StaysBelow 16777216 probs := by
  induction probs generalizing d with
  | nil =>
      show d.value < 16777216
      omega
  | cons prob probs ih =>
      refine ⟨by omega, fun e bit hread => ?_⟩
      rcases readBool_grows hge hle (by omega) prob with ⟨e', bit', hread', hge', hle', hbelow⟩
      rw [hread, Option.some.injEq, Prod.mk.injEq] at hread'
      rcases hread' with ⟨rfl, rfl⟩
      exact ih hge' hle' (hbelow hvalue)

theorem Lockstep.run {d : BoolDecoder} {d' : Vp8.BoolDecoder} {p : Nat} (h : Lockstep d d' p)
    (hge : 128 ≤ d.range) (hle : d.range ≤ 255) {probs : List (BitVec 8)}
    (hbelow : d.StaysBelow 16777216 probs) :
    ∃ e e' bools, Checked.run BoolDecoder.readBool d probs = some (e, bools) ∧
      Checked.run Vp8.BoolDecoder.readBool d' probs = some (e', bools) := by
  induction probs generalizing d d' p with
  | nil => exact ⟨d, d', [], rfl, rfl⟩
  | cons prob probs ih =>
      rcases BoolDecoder.readBool_grows hge hle hbelow.1 prob with
        ⟨e₁, bit, hread, hge', hle', -⟩
      have hrest := hbelow.2 e₁ bit hread
      rcases h.readBool hge hle hbelow.1 hread hrest.value_lt with ⟨e₁', q, hread', hlock⟩
      rcases ih hlock hge' hle' hrest with ⟨e, e', bools, hrun, hrun'⟩
      refine ⟨e, e', bit :: bools, ?_, ?_⟩
      · rw [run_cons hread, hrun]
        rfl
      · rw [run_cons hread', hrun']
        rfl

/-- The decoders start in lockstep, with the number of the first byte as the value. -/
theorem lockstep_start {data : Bytes} (hfit : data.length < 2305843009213693952) :
    ∃ d, (BoolDecoder.start data).readRawBits 8 = some d ∧ d.1.range = 255 ∧
      d.2 = ((data[0]?).getD 0).toNat ∧
      Lockstep { d.1 with value := d.2 } (Vp8.BoolDecoder.new data) 8 := by
  rcases BoolDecoder.tracks_start hfit with ⟨d, value, hread, htracks⟩
  have hdata : d.data = data := htracks.data_eq
  have hrange : d.range = 255 := htracks.range
  have hvalue : value = ((data[0]?).getD 0).toNat := by
    have hnumber : value + 0 = number (ofBytes data) 0 8 := htracks.value
    rw [← number_byte]
    exact hnumber
  rcases Vp8.BoolDecoder.nextByte_eq (Vp8.BoolDecoder.start data) (i := 0)
    (Nat.zero_min _).symm with ⟨hbyte, hpos, hinput, hrange', -, hcount⟩
  rcases Vp8.BoolDecoder.nextByte_eq (Vp8.BoolDecoder.start data).nextByte.1 (i := 1)
    (by rw [hpos, hinput]) with ⟨hbyte', hpos', hinput', hrange'', -, hcount'⟩
  refine ⟨(d, value), hread, hrange, hvalue, ⟨htracks.at_pos, ?_, ?_, ?_, ?_, ?_⟩⟩
  · show (Vp8.BoolDecoder.start data).nextByte.1.nextByte.1.input = d.data
    rw [hinput', hinput, hdata]
    rfl
  · show (Vp8.BoolDecoder.start data).nextByte.1.nextByte.1.pos = min 2 d.data.length
    rw [hpos', hinput, hdata]
    rfl
  · show (Vp8.BoolDecoder.start data).nextByte.1.nextByte.1.range = d.range
    rw [hrange'', hrange', hrange]
    rfl
  · show (Vp8.BoolDecoder.start data).nextByte.1.nextByte.1.bitCount = 0
    rw [hcount', hcount]
    rfl
  · show (Vp8.BoolDecoder.start data).nextByte.2 * 2 ^ 8 |||
        (Vp8.BoolDecoder.start data).nextByte.1.nextByte.2 =
      value * 256 + number (ofBytes d.data) (8 * 1) 8 * 1
    have hsecond : (Vp8.BoolDecoder.start data).nextByte.1.nextByte.2 =
        ((data[1]?).getD 0).toNat := by
      rw [hbyte', hinput]
      rfl
    have hlt := ((data[1]?).getD 0).isLt
    rw [hsecond, hbyte, number_byte, hdata, hvalue, Nat.mul_one, ← Nat.shiftLeft_eq,
      ← Nat.shiftLeft_add_eq_or_of_lt hlt, Nat.shiftLeft_eq]
    rfl

/-- Both decoders read the same bools, however far past the end, where the first byte is not 255;
else as long as the value of the decoder of VP9 stays below 24 bits. -/
theorem bool_decoders_agree (data : Bytes) (hfit : data.length < 2305843009213693952)
    (probs : List (BitVec 8))
    (hvalue : data.head? ≠ some 255 ∨
      ∀ d, BoolDecoder.new data = some d → d.StaysBelow 16777216 probs) :
    ∃ bools, vp9Bools data probs = some bools ∧ vp8Bools data probs = some bools := by
  rcases lockstep_start hfit with ⟨⟨d, value⟩, hread, hrange, hfirst, hlock⟩
  have hbyte := ((data[0]?).getD 0).isLt
  dsimp only at hrange hfirst hlock
  rcases BoolDecoder.readBool_grows (d := { d with value := value }) (by dsimp only; omega)
    (by dsimp only; omega) (by dsimp only; omega) 128 with ⟨e, bit, hmarker, hge, hle, hin⟩
  have hnew : BoolDecoder.new data = some e := by
    rw [BoolDecoder.new, hread, some_bind]
    exact congrArg (fun x => x >>= fun r => some r.1) hmarker
  have hbelow : e.StaysBelow 16777216 probs := by
    rcases hvalue with hnot | hstays
    · refine BoolDecoder.staysBelow_of_lt hge hle (hin ?_) probs
      have hne : ((data[0]?).getD 0).toNat ≠ 255 := by
        intro heq
        cases data with
        | nil => simp at heq
        | cons byte rest => exact hnot (congrArg some (BitVec.eq_of_toNat_eq heq))
      dsimp only
      omega
    · exact hstays e hnew
  rcases hlock.readBool (by dsimp only; omega) (by dsimp only; omega) (by dsimp only; omega)
    hmarker hbelow.value_lt with ⟨e', q, hmarker', hlock'⟩
  rcases hlock'.run hge hle hbelow with ⟨_, _, bools, hrun, hrun'⟩
  refine ⟨bools, ?_, ?_⟩
  · rw [vp9Bools, hnew, some_bind, hrun, some_bind]
  · rw [vp8Bools, hmarker', some_bind]
    dsimp only
    rw [hrun', some_bind]

/-- The bytes of a short text, read far past their end. -/
theorem bool_decoders_agree_past_end :
    ∃ bools, vp9Bools [0x56, 0x38] (List.replicate 40 77) = some bools ∧
      vp8Bools [0x56, 0x38] (List.replicate 40 77) = some bools :=
  bool_decoders_agree [0x56, 0x38] (by decide) _ (Or.inl (by decide))

/-- Behind a first byte of 255 and enough ones the word of the first decoder overflows, and the
fifth bool differs. -/
theorem bool_decoders_differ :
    vp9Bools [255, 255, 255, 249] [255, 254, 255, 192, 250] =
        some [true, true, true, true, true] ∧
      vp8Bools [255, 255, 255, 249] [255, 254, 255, 192, 250] =
        some [true, true, true, true, false] := by
  decide +kernel

end Codec
end Vaco
