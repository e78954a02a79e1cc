import Vaco.Bitstream.BitReader
import Vaco.Codec.TreeCode
import Vaco.Library.IntervalCoder

/-!
# The boolean entropy coder

The encoder splits its range by a probability, keeps one part and adds the start of the part
to a register.  The register holds the last 24 bits before the output and, above the bits
that are still to come, a carry that goes into the output when its place is reached.  The
decoder shifts in one bit for every doubling of its range.

An encoder models the cell of an interval coder: the number of the output with the register
behind it is the start of the cell.

Main results:

- `BoolEncoder.shiftOut_models`: doubling the range refines the cell; a carry finds a byte to go to.
-/

namespace Vaco
namespace Codec

open Library BitStream Checked IntervalCoder
open Vaco.Bitstream

/-- The part of the range that a probability gives to a zero. -/
def boolSplit (range : Nat) (prob : BitVec 8) : Option Nat := do
  let rest ← sub range 1
  let product ← mul32 rest prob.toNat
  add32 1 (product / 256)

/-! ## The decoder -/

/-- The boolean decoder. -/
structure BoolDecoder where
  data : Bytes
  bitPos : Nat
  maxBits : Nat
  range : Nat
  value : Nat
  overrun : Bool
deriving DecidableEq

namespace BoolDecoder

/-- Read one bit; past the end the bits are zero. -/
def readBit (d : BoolDecoder) : BoolDecoder × Nat :=
  if d.maxBits ≤ d.bitPos then
    ({ d with overrun := true }, 0)
  else
    let byte := (d.data[d.bitPos / 8]?).getD 0
    ({ d with bitPos := d.bitPos + 1 }, (byte.toNat >>> (7 - d.bitPos % 8)) % 2)

/-- Read bits behind a number. -/
def readRawLoop : Nat → BoolDecoder → Nat → Option (BoolDecoder × Nat)
  | 0, d, x => some (d, x)
  | n + 1, d, x => do
      let double ← mul32 2 x
      let x ← add32 double d.readBit.2
      readRawLoop n d.readBit.1 x

/-- Read a number of raw bits. -/
def readRawBits (d : BoolDecoder) (n : Nat) : Option (BoolDecoder × Nat) :=
  readRawLoop n d 0

def renormLoop : Nat → BoolDecoder → Option BoolDecoder
  | 0, _ => none
  | fuel + 1, d =>
      if d.range < 128 then do
        let newBit := d.readBit.2
        let d := d.readBit.1
        let range ← shl32 d.range 1
        let double ← shl32 d.value 1
        let value ← add32 double newBit
        renormLoop fuel { d with range := range, value := value }
      else
        some d

/-- Renormalise; a positive range is doubled at most seven times. -/
def renorm (d : BoolDecoder) : Option BoolDecoder :=
  renormLoop 8 d

def readBool (d : BoolDecoder) (prob : BitVec 8) : Option (BoolDecoder × Bool) := do
  let split ← boolSplit d.range prob
  if d.value < split then
    let d ← renorm { d with range := split }
    some (d, false)
  else
    let range ← sub d.range split
    let value ← sub d.value split
    let d ← renorm { d with range := range, value := value }
    some (d, true)

/-- A decoder before its first bits. -/
def start (data : Bytes) : BoolDecoder where
  data := data
  bitPos := 0
  maxBits := min (data.length * 8) u64Max
  range := 255
  value := 0
  overrun := data.isEmpty

/-- Start on the bytes of a partition: one byte fills the value, and the marker bool is
dropped. -/
def new (data : Bytes) : Option BoolDecoder := do
  let (d, value) ← (start data).readRawBits 8
  let (d, _) ← readBool { d with value := value } 128
  some d

/-- Read bools behind a literal. -/
def readLiteralLoop : Nat → BoolDecoder → Nat → Option (BoolDecoder × Nat)
  | 0, d, x => some (d, x)
  | n + 1, d, x => do
      let (d, bit) ← d.readBool 128
      readLiteralLoop n d (2 * x % 4294967296 ||| bit.toNat)

/-- Read a literal, most significant bit first. -/
def readLiteral (d : BoolDecoder) (numBits : Nat) : Option (BoolDecoder × Nat) :=
  readLiteralLoop numBits d 0

/-- Walk a tree with a probability for every node. -/
def readTree (d : BoolDecoder) (tree : Tree) (probs : List (BitVec 8)) :
    Option (BoolDecoder × Int) :=
  tree.readTree (fun d node => d.readBool ((probs[node]?).getD 128)) d

end BoolDecoder

/-! ## The encoder -/

/-- The boolean encoder.  `carryLost` records for the proofs whether a carry has run off
the front of the output; nothing reads it. -/
structure BoolEncoder where
  output : Bytes
  range : Nat
  bottom : Nat
  bitCount : Nat
  carryLost : Bool
deriving DecidableEq

namespace BoolEncoder

/-- A new encoder. -/
def new : BoolEncoder where
  output := []
  range := 255
  bottom := 0
  bitCount := 24
  carryLost := false

/-- Add one to bytes with the last one first: bytes of 255 turn to zero up to the first
other. -/
def addOne : Bytes → Bytes
  | [] => []
  | byte :: rest => if byte = 255 then 0 :: addOne rest else (byte + 1) :: rest

/-- Let a carry into the output. -/
def addOneToOutput (e : BoolEncoder) : BoolEncoder :=
  { e with
    output := (addOne e.output.reverse).reverse
    carryLost := e.carryLost || e.output.all (· = 255) }

def carry (e : BoolEncoder) (place : Nat) : BoolEncoder :=
  if e.bottom.testBit place then e.addOneToOutput else e

/-- Put the byte at the top of the register behind the output when no bit is left to come. -/
def emit (e : BoolEncoder) : BoolEncoder :=
  if e.bitCount = 0 then
    { e with
      output := e.output ++ [BitVec.ofNat 8 (e.bottom / 2 ^ 24)]
      bottom := e.bottom % 2 ^ 24
      bitCount := 8 }
  else
    e

/-- Double the range and shift the register. -/
def shiftOut (e : BoolEncoder) : Option BoolEncoder := do
  let range ← shl32 e.range 1
  let e := carry { e with range := range } 31
  let bitCount ← sub e.bitCount 1
  some (emit { e with bottom := 2 * e.bottom % 2 ^ 32, bitCount := bitCount })

/-- Double the range until it is at least 128. -/
def renormLoop : Nat → BoolEncoder → Option BoolEncoder
  | 0, _ => none
  | fuel + 1, e =>
      if e.range < 128 then do
        let e ← e.shiftOut
        renormLoop fuel e
      else
        some e

/-- Renormalise; a positive range is doubled at most seven times. -/
def renorm (e : BoolEncoder) : Option BoolEncoder :=
  renormLoop 8 e

def writeBool (e : BoolEncoder) (prob : BitVec 8) (bit : Bool) : Option BoolEncoder := do
  let split ← boolSplit e.range prob
  if bit then
    let bottom ← add32 e.bottom split
    let range ← sub e.range split
    renorm { e with bottom := bottom, range := range }
  else
    renorm { e with range := split }

/-- Write the low bits of a word, most significant bit first; a place past the word is a
panic. -/
def writeLiteral (e : BoolEncoder) (value : BitVec 32) : Nat → Option BoolEncoder
  | 0 => some e
  | i + 1 => do
      let e ← if i < 32 then e.writeBool 128 (value.getLsbD i) else none
      writeLiteral e value i

def writeTree (e : BoolEncoder) (tree : Tree) (probs : List (BitVec 8)) (value : Int) :
    Option BoolEncoder :=
  tree.writeTree value (fun e node bit => e.writeBool ((probs[node]?).getD 128) bit) e

/-- Shift a word to the left by a number of bytes. -/
def shiftBytes : Nat → Nat → Nat
  | 0, v => v
  | n + 1, v => shiftBytes n (v * 2 ^ 8 % 2 ^ 32)

/-- Push bytes from the top of a word. -/
def pushBytes : Nat → Bytes → Nat → Bytes
  | 0, output, _ => output
  | n + 1, output, v => pushBytes n (output ++ [BitVec.ofNat 8 (v / 2 ^ 24)]) (v * 2 ^ 8 % 2 ^ 32)

/-- The encoder at its end: the carry is in the output, and the register behind it. -/
def flush (e : BoolEncoder) : Option BoolEncoder := do
  let place ← sub 32 e.bitCount
  let _ ← shl32 1 place
  let done := e.carry place
  let v := shiftBytes (e.bitCount / 8) (e.bottom * 2 ^ (e.bitCount % 8) % 2 ^ 32)
  some { done with output := pushBytes 4 done.output v }

/-- Take the bytes. -/
def finish (e : BoolEncoder) : Option Bytes :=
  e.flush.map BoolEncoder.output

/-! ## Carries -/

theorem length_addOne (bytes : Bytes) : (addOne bytes).length = bytes.length := by
  induction bytes with
  | nil => rfl
  | cons byte rest ih =>
      rw [addOne]
      split
      · rw [List.length_cons, ih, List.length_cons]
      · rfl

theorem numberOf_of_all {bytes : Bytes} (h : bytes.all (· = 255) = true) :
    numberOf bytes.reverse + 1 = 2 ^ (8 * bytes.length) := by
  induction bytes with
  | nil => rfl
  | cons byte rest ih =>
      rw [List.all_cons, Bool.and_eq_true, decide_eq_true_iff] at h
      have hrest := ih h.2
      rw [List.reverse_cons, numberOf_concat, h.1, List.length_cons,
        show 8 * (rest.length + 1) = 8 * rest.length + 8 by omega, Nat.pow_add, ← hrest,
        show (255 : BitVec 8).toNat = 255 from rfl]
      omega

theorem numberOf_addOne {bytes : Bytes} (h : bytes.all (· = 255) = false) :
    numberOf (addOne bytes).reverse = numberOf bytes.reverse + 1 := by
  induction bytes with
  | nil => cases h
  | cons byte rest ih =>
      rw [addOne]
      by_cases hbyte : byte = 255
      · rw [List.all_cons, decide_eq_true hbyte, Bool.true_and] at h
        rw [if_pos hbyte, List.reverse_cons, numberOf_concat, ih h, List.reverse_cons,
          numberOf_concat, hbyte, show (255 : BitVec 8).toNat = 255 from rfl,
          show (0 : BitVec 8).toNat = 0 from rfl]
        omega
      · have hlt := byte.isLt
        have hne : byte.toNat ≠ 255 := fun heq => hbyte (BitVec.eq_of_toNat_eq heq)
        rw [if_neg hbyte, List.reverse_cons, numberOf_concat, List.reverse_cons, numberOf_concat,
          BitVec.toNat_add, show (1 : BitVec 8).toNat = 1 from rfl, Nat.mod_eq_of_lt (by omega)]
        omega

variable {e e' : BoolEncoder} {c c' : Cell}

theorem addOneToOutput_eq (h : numberOf e.output + 1 < 2 ^ (8 * e.output.length)) :
    numberOf e.addOneToOutput.output = numberOf e.output + 1 ∧
      e.addOneToOutput.output.length = e.output.length ∧
      e.addOneToOutput.carryLost = e.carryLost := by
  have hroom : e.output.reverse.all (· = 255) = false := by
    by_contra hall
    have hnumber := numberOf_of_all (Bool.not_eq_false _ ▸ hall)
    rw [List.reverse_reverse, List.length_reverse] at hnumber
    omega
  have hadd := numberOf_addOne hroom
  rw [List.reverse_reverse] at hadd
  rw [List.all_reverse] at hroom
  refine ⟨hadd, ?_, ?_⟩
  · show (addOne e.output.reverse).reverse.length = e.output.length
    rw [List.length_reverse, length_addOne, List.length_reverse]
  · show (e.carryLost || e.output.all (· = 255)) = e.carryLost
    rw [hroom, Bool.or_false]

/-! ## The cell of an encoder -/

/-- Output and register are the start of the cell, with a place for every bit to come and for a
carry. -/
structure Models (e : BoolEncoder) (c : Cell) : Prop where
  range : c.range = e.range
  pos : 0 < e.range
  range_le : e.range ≤ 255
  count_pos : 0 < e.bitCount
  count_le : e.bitCount ≤ 24
  later : e.output ≠ [] → e.bitCount ≤ 8
  depth : c.depth + e.bitCount = 8 * e.output.length + 24
  low : c.low = numberOf e.output * 2 ^ (32 - e.bitCount) + e.bottom
  room : e.output ≠ [] → e.bottom + e.range ≤ 16777471 * 2 ^ (8 - e.bitCount)
  inside : c.low + c.range ≤ 255 * 2 ^ c.depth
  kept : e.carryLost = false

theorem Models.bottom_lt (h : e.Models c) : e.bottom + e.range < 2 * 2 ^ (32 - e.bitCount) := by
  have hpos := h.count_pos
  have hle := h.count_le
  by_cases hempty : e.output = []
  · have hinside := h.inside
    have hdepth := h.depth
    rw [h.low, h.range, hempty, show numberOf [] = 0 from rfl] at hinside
    rw [hempty, List.length_nil] at hdepth
    have hpow : 2 ^ (32 - e.bitCount) = 2 ^ c.depth * 256 := by
      rw [show 32 - e.bitCount = c.depth + 8 by omega, Nat.pow_add]
    have hpositive : 0 < 2 ^ c.depth := by positivity
    omega
  · have hroom := h.room hempty
    have hlater := h.later hempty
    have hpow : 2 ^ (32 - e.bitCount) = 2 ^ (8 - e.bitCount) * 16777216 := by
      rw [show 32 - e.bitCount = 8 - e.bitCount + 24 by omega, Nat.pow_add]
    have hpositive : 0 < 2 ^ (8 - e.bitCount) := by positivity
    omega

/-- A carry at its place goes into the output, and the register keeps the bits below. -/
theorem Models.carry (h : e.Models c) :
    numberOf (e.carry (32 - e.bitCount)).output * 2 ^ (32 - e.bitCount) +
        e.bottom % 2 ^ (32 - e.bitCount) = c.low ∧
      (e.carry (32 - e.bitCount)).output.length = e.output.length ∧
      (e.carry (32 - e.bitCount)).carryLost = false := by
  have hbottom := h.bottom_lt
  have hlow := h.low
  have hcount := h.count_le
  have hdepth := h.depth
  have hinside := h.inside
  have hpos := h.pos
  have hcell := h.range
  generalize hplace : 2 ^ (32 - e.bitCount) = place at hbottom hlow ⊢
  have hpositive : 0 < place := by
    rw [← hplace]
    positivity
  rw [BoolEncoder.carry, Nat.testBit_eq_decide_div_mod_eq, hplace]
  by_cases hset : place ≤ e.bottom
  · have hdiv : e.bottom / place = 1 := Nat.div_eq_of_lt_le (by omega) (by omega)
    have hmod : e.bottom % place = e.bottom - place := by
      rw [Nat.mod_eq_sub_mod hset, Nat.mod_eq_of_lt (by omega)]
    have hpow : 2 ^ c.depth * 256 = 2 ^ (8 * e.output.length) * place := by
      rw [← hplace, ← Nat.pow_add, show 8 * e.output.length + (32 - e.bitCount) = c.depth + 8 by
        omega, Nat.pow_add]
    have hfit : numberOf e.output + 1 < 2 ^ (8 * e.output.length) := by
      by_contra hfull
      have hscale := Nat.mul_le_mul_right place (not_lt.mp hfull)
      rw [Nat.add_mul] at hscale
      omega
    rcases addOneToOutput_eq hfit with ⟨hnumber, hlength, hkept⟩
    rw [if_pos (by rw [hdiv]; rfl), hnumber, hlength, hkept, hmod, Nat.add_mul]
    exact ⟨by omega, rfl, h.kept⟩
  · have hdiv : e.bottom / place = 0 := Nat.div_eq_of_lt (not_le.mp hset)
    rw [if_neg (by rw [hdiv]; decide), Nat.mod_eq_of_lt (not_le.mp hset)]
    exact ⟨hlow.symm, rfl, h.kept⟩

/-! ## Operations -/

theorem carry_keeps (e : BoolEncoder) (place : Nat) :
    (e.carry place).range = e.range ∧ (e.carry place).bottom = e.bottom ∧
      (e.carry place).bitCount = e.bitCount := by
  rw [BoolEncoder.carry]
  split
  · exact ⟨rfl, rfl, rfl⟩
  · exact ⟨rfl, rfl, rfl⟩

theorem carry_with_range (e : BoolEncoder) (range place : Nat) :
    BoolEncoder.carry { e with range := range } place =
      { e.carry place with range := range } := by
  rw [BoolEncoder.carry, BoolEncoder.carry]
  dsimp only
  split
  · rfl
  · rfl

/-- The last bit that was to come leaves the register with the byte at its top. -/
theorem Models.emitted (h : e.Models c) (hsmall : e.range < 128) (hlast : e.bitCount = 1) :
    Models (emit { e.carry 31 with
      range := 2 * e.range
      bottom := 2 * e.bottom % 2 ^ 32
      bitCount := e.bitCount - 1 }) (c.scale 1) := by
  have hpos := h.pos
  have hdepth := h.depth
  have hinside := (c.within_scale 1).inside h.inside
  have hcarry := h.carry
  rw [hlast, show 32 - 1 = 31 from rfl] at hcarry
  rcases hcarry with ⟨hnumber, hlength, hkept⟩
  rw [hlast] at hdepth
  rw [emit, if_pos (by rw [hlast])]
  dsimp only at hnumber hlength hkept ⊢
  have hbyte : 2 * e.bottom % 2 ^ 32 / 2 ^ 24 < 2 ^ 8 := by omega
  have hscaled : (c.scale 1).low = 2 * c.low := by
    rw [Cell.scale, Nat.pow_one, Nat.mul_comm]
  have hrange : (c.scale 1).range = 2 * e.range := by
    rw [← h.range, Nat.mul_comm]
    rfl
  refine ⟨hrange, by dsimp only; omega, by dsimp only; omega, Nat.succ_pos 7,
    show 8 ≤ 24 by decide, fun _ => le_refl 8, ?_, ?_, ?_, hinside, hkept⟩
  · show c.depth + 1 + 8 = _
    rw [List.length_append, hlength, List.length_singleton]
    omega
  · rw [hscaled, numberOf_concat, BitVec.toNat_ofNat, Nat.mod_eq_of_lt hbyte, ← hnumber]
    dsimp only
    omega
  · intro _
    dsimp only
    omega

/-- Another bit leaves the register in place. -/
theorem Models.shifted (h : e.Models c) (hsmall : e.range < 128) (hmore : 1 < e.bitCount) :
    Models (emit { e.carry 31 with
      range := 2 * e.range
      bottom := 2 * e.bottom % 2 ^ 32
      bitCount := e.bitCount - 1 }) (c.scale 1) := by
  have hpos := h.pos
  have hdepth := h.depth
  have hcount := h.count_le
  have hbottom := h.bottom_lt
  have hinside := (c.within_scale 1).inside h.inside
  have hplace : 2 ^ (32 - e.bitCount) ≤ 2 ^ 30 := Nat.pow_le_pow_right (by decide) (by omega)
  have hnone : e.carry 31 = e := by
    rw [BoolEncoder.carry, Nat.testBit_lt_two_pow (by omega), if_neg (by decide)]
  rw [hnone, emit, if_neg (by dsimp only; omega), Nat.mod_eq_of_lt (by omega)]
  have hscaled : (c.scale 1).low = 2 * c.low := by
    rw [Cell.scale, Nat.pow_one, Nat.mul_comm]
  have hrange : (c.scale 1).range = 2 * e.range := by
    rw [← h.range, Nat.mul_comm]
    rfl
  refine ⟨hrange, by dsimp only; omega, by dsimp only; omega, by dsimp only; omega,
    by dsimp only; omega, ?_, ?_, ?_, ?_, hinside, h.kept⟩
  · intro hsome
    have hlater := h.later hsome
    dsimp only
    omega
  · show c.depth + 1 + (e.bitCount - 1) = 8 * e.output.length + 24
    omega
  · rw [hscaled, h.low]
    dsimp only
    rw [show 32 - (e.bitCount - 1) = 32 - e.bitCount + 1 by omega, Nat.pow_succ]
    ring
  · intro hsome
    have hroom := h.room hsome
    have hlater := h.later hsome
    dsimp only
    rw [show 8 - (e.bitCount - 1) = 8 - e.bitCount + 1 by omega, Nat.pow_succ]
    omega

/-- Doubling the range refines the cell; a carry finds a byte to go to. -/
theorem shiftOut_models (h : e.Models c) (hsmall : e.range < 128) :
    ∃ e', e.shiftOut = some e' ∧ e'.range = 2 * e.range ∧ e'.Models (c.scale 1) := by
  have hpos := h.count_pos
  have hkeeps := carry_keeps e 31
  refine ⟨emit { e.carry 31 with
      range := 2 * e.range
      bottom := 2 * e.bottom % 2 ^ 32
      bitCount := e.bitCount - 1 }, ?_, ?_, ?_⟩
  · rw [shiftOut, shl32_one (by omega), some_bind, carry_with_range]
    dsimp only
    rw [hkeeps.2.1, hkeeps.2.2, sub_of_le (by omega), some_bind]
  · rw [emit]
    split
    · rfl
    · rfl
  · rcases (by omega : e.bitCount = 1 ∨ 1 < e.bitCount) with hlast | hmore
    · exact h.emitted hsmall hlast
    · exact h.shifted hsmall hmore

theorem renormLoop_models {fuel : Nat} (h : e.Models c) (hfuel : doublingsTo 8 e.range < fuel) :
    ∃ e', renormLoop fuel e = some e' ∧ e'.Models (c.scale (doublingsTo 8 e.range)) ∧
      128 ≤ e'.range := by
  induction fuel generalizing e c with
  | zero => cases hfuel
  | succ fuel ih =>
      rw [renormLoop]
      by_cases hsmall : e.range < 128
      · have hcount : doublingsTo 8 e.range = doublingsTo 8 (2 * e.range) + 1 :=
          doublingsTo_of_lt h.pos hsmall
        rcases shiftOut_models h hsmall with ⟨e₁, hshift, hrange₁, hmodels⟩
        rcases ih hmodels (by rw [hrange₁]; omega) with ⟨e', hloop, hmodels', hrange'⟩
        rw [hrange₁, Cell.scale_scale, Nat.add_comm 1, ← hcount] at hmodels'
        rw [if_pos hsmall, hshift, some_bind]
        exact ⟨e', hloop, hmodels', hrange'⟩
      · have hnone : doublingsTo 8 e.range = 0 := doublingsTo_of_le (not_lt.mp hsmall)
        rw [if_neg hsmall, hnone]
        refine ⟨e, rfl, ?_, not_lt.mp hsmall⟩
        simpa [Cell.scale] using h

theorem Models.narrow (h : e.Models c) (base width : Nat) (hpos : 0 < width)
    (hle : base + width ≤ e.range) :
    Models { e with bottom := e.bottom + base, range := width } (c.narrow base width) := by
  have hrange := h.range
  have hrange_le := h.range_le
  have hwithin := Cell.within_narrow (show base + width ≤ c.range by omega)
  refine ⟨rfl, hpos, by dsimp only; omega, h.count_pos, h.count_le, h.later, h.depth, ?_, ?_,
    hwithin.inside h.inside, h.kept⟩
  · show c.low + base = _
    rw [h.low, Nat.add_assoc]
  · intro hsome
    have hroom := h.room hsome
    dsimp only
    omega

theorem renorm_narrow (h : e.Models c) (base width : Nat) (hpos : 0 < width)
    (hle : base + width ≤ e.range) :
    ∃ e', renorm { e with bottom := e.bottom + base, range := width } = some e' ∧
      e'.Models (Cell.part 8 c base width) ∧ 128 ≤ e'.range :=
  renormLoop_models (h.narrow base width hpos hle) (doublingsTo_lt (by decide) hpos)

/-! ## The end of the stream -/

theorem shiftBytes_eq (n v : Nat) : shiftBytes n (v % 2 ^ 32) = v * 2 ^ (8 * n) % 2 ^ 32 := by
  induction n generalizing v with
  | zero => rw [shiftBytes, Nat.mul_zero, Nat.pow_zero, Nat.mul_one]
  | succ n ih =>
      rw [shiftBytes, Nat.mod_mul_mod, ih, Nat.mul_assoc, ← Nat.pow_add,
        show 8 + 8 * n = 8 * (n + 1) by omega]

theorem numberOf_pushBytes (output : Bytes) {v : Nat} (h : v < 2 ^ 32) :
    numberOf (pushBytes 4 output v) = numberOf output * 2 ^ 32 + v := by
  simp only [pushBytes, numberOf_concat, BitVec.toNat_ofNat]
  omega

theorem length_pushBytes (n : Nat) (output : Bytes) (v : Nat) :
    (pushBytes n output v).length = output.length + n := by
  induction n generalizing output v with
  | zero => rfl
  | succ n ih =>
      rw [pushBytes, ih, List.length_append, List.length_singleton]
      omega

/-- The finished bytes begin with the start of the cell, and no carry is lost. -/
theorem flush_models (h : e.Models c) :
    ∃ last, e.flush = some last ∧ last.carryLost = false ∧
      number (ofBytes last.output) 0 (8 + c.depth) = c.low ∧
      8 + c.depth < 8 * last.output.length := by
  have hpos := h.count_pos
  have hcount := h.count_le
  have hdepth := h.depth
  rcases h.carry with ⟨hnumber, hlength, hkept⟩
  have hone : shl32 1 (32 - e.bitCount) = some (1 * 2 ^ (32 - e.bitCount)) := by
    have hpow : 2 ^ (32 - e.bitCount) ≤ 2 ^ 31 := Nat.pow_le_pow_right (by decide) (by omega)
    exact shl32_of_lt (by omega)
  have hshift : shiftBytes (e.bitCount / 8) (e.bottom * 2 ^ (e.bitCount % 8) % 2 ^ 32) =
      e.bottom % 2 ^ (32 - e.bitCount) * 2 ^ e.bitCount := by
    rw [shiftBytes_eq, Nat.mul_assoc, ← Nat.pow_add, Nat.mod_add_div, ← Nat.mul_mod_mul_right,
      ← Nat.pow_add, Nat.sub_add_cancel (by omega)]
  have hcard : 2 ^ (32 - e.bitCount) * 2 ^ e.bitCount = 2 ^ 32 := by
    rw [← Nat.pow_add, Nat.sub_add_cancel (by omega)]
  have hpower : 0 < 2 ^ e.bitCount := by positivity
  have hfit : e.bottom % 2 ^ (32 - e.bitCount) * 2 ^ e.bitCount < 2 ^ 32 := by
    rw [← hcard]
    exact Nat.mul_lt_mul_of_pos_right (Nat.mod_lt _ (by positivity)) hpower
  -- All bits of the output are those of the start of the cell and zeros behind them.
  have hvalue : numberOf (e.carry (32 - e.bitCount)).output * 2 ^ 32 +
      e.bottom % 2 ^ (32 - e.bitCount) * 2 ^ e.bitCount = c.low * 2 ^ e.bitCount := by
    rw [← hcard, ← Nat.mul_assoc, ← Nat.add_mul, hnumber]
  generalize e.bottom % 2 ^ (32 - e.bitCount) * 2 ^ e.bitCount = word at hshift hfit hvalue
  have hbytes := length_pushBytes 4 (e.carry (32 - e.bitCount)).output word
  rw [hlength] at hbytes
  have hwhole := numberOf_pushBytes (e.carry (32 - e.bitCount)).output hfit
  rw [hvalue, numberOf, hbytes,
    show 8 * (e.output.length + 4) = 8 + c.depth + e.bitCount by omega, number_add] at hwhole
  refine ⟨{ e.carry (32 - e.bitCount) with
    output := pushBytes 4 (e.carry (32 - e.bitCount)).output word }, ?_, hkept, ?_, ?_⟩
  · rw [flush, sub_of_le (by omega), some_bind, hone, some_bind]
    dsimp only
    rw [hshift]
  · have hrest := number_lt (ofBytes (pushBytes 4 (e.carry (32 - e.bitCount)).output word))
      (0 + (8 + c.depth)) e.bitCount
    have hdiv := congrArg (· / 2 ^ e.bitCount) hwhole
    beta_reduce at hdiv
    rwa [Nat.mul_comm, Nat.mul_add_div hpower, Nat.div_eq_of_lt hrest, Nat.add_zero,
      Nat.mul_div_cancel _ hpower] at hdiv
  · dsimp only
    rw [hbytes]
    omega

end BoolEncoder

/-! ## The part of a bool -/

/-- The part of a range that a probability gives to a zero. -/
def splitOf (range : Nat) (prob : BitVec 8) : Nat :=
  1 + (range - 1) * prob.toNat / 256

theorem boolSplit_eq {range : Nat} (h : 128 ≤ range) (hle : range ≤ 255) (prob : BitVec 8) :
    boolSplit range prob = some (splitOf range prob) ∧ 0 < splitOf range prob ∧
      splitOf range prob < range := by
  have hprob := prob.isLt
  have hproduct : (range - 1) * prob.toNat ≤ (range - 1) * 255 :=
    Nat.mul_le_mul_left _ (by omega)
  have hsplit : splitOf range prob = 1 + (range - 1) * prob.toNat / 256 := rfl
  refine ⟨?_, by omega, by omega⟩
  rw [boolSplit, sub_of_le (by omega), some_bind, mul32_of_lt (by omega), some_bind,
    add32_of_lt (by omega)]
  rfl

/-- The cell of a bool. -/
def boolCell (c : Cell) (prob : BitVec 8) (bit : Bool) : Cell :=
  if bit then Cell.part 8 c (splitOf c.range prob) (c.range - splitOf c.range prob)
  else Cell.part 8 c 0 (splitOf c.range prob)

theorem boolCell_true (c : Cell) (prob : BitVec 8) :
    boolCell c prob true =
      Cell.part 8 c (splitOf c.range prob) (c.range - splitOf c.range prob) :=
  if_pos rfl

theorem boolCell_false (c : Cell) (prob : BitVec 8) :
    boolCell c prob false = Cell.part 8 c 0 (splitOf c.range prob) :=
  if_neg Bool.false_ne_true

/-- Writing a bool moves to a part of the cell. -/
theorem BoolEncoder.writeBool_models {e : BoolEncoder} {c : Cell} (h : e.Models c)
    (hrange : 128 ≤ e.range) (prob : BitVec 8) (bit : Bool) :
    ∃ e', e.writeBool prob bit = some e' ∧ e'.Models (boolCell c prob bit) ∧ 128 ≤ e'.range := by
  rcases boolSplit_eq hrange h.range_le prob with ⟨hsplit, hpos, hlt⟩
  have hbottom := h.bottom_lt
  have hplace : 2 ^ (32 - e.bitCount) ≤ 2 ^ 31 :=
    Nat.pow_le_pow_right (by decide) (by have := h.count_pos; omega)
  rw [writeBool, hsplit, some_bind]
  cases bit with
  | true =>
      rw [boolCell_true, h.range, if_pos rfl, add32_of_lt (by omega), some_bind,
        sub_of_le (by omega), some_bind]
      exact renorm_narrow h _ _ (by omega) (by omega)
  | false =>
      rw [boolCell_false, h.range, if_neg Bool.false_ne_true]
      exact renorm_narrow h 0 _ hpos (by omega)

end Codec
end Vaco
