import Vaco.Core.Packet
import Vaco.Library.IntervalCoder

/-!
# The range coder of FFV1

The decoder keeps the distance of what it has read from the start of its interval in sixteen
bits and takes a byte when the range falls below 256.  The encoder keeps the start of the
interval; the bytes that a carry can still reach wait in a cached byte and a count of bytes of
255 behind it.  A number is a sequence of binary decisions in the 32 adaptive states of one
context: a flag for zero, the exponent in unary, the bits of the mantissa and a sign.  Numbers
are written to any coder of bits, so that the exact interval of what is written can be spoken of
beside the encoder.

Main results:

- `RangeEncoder.shiftLow_ready`: a byte leaves the start of the interval, and a carry finds a byte
  to go to.

Current gaps:

- The count of the waiting bytes and the start of the interval are numbers, not machine words.
-/

namespace Vaco
namespace Ffv1

open Library BitStream
open Vaco.Core (Error)

/-- Machine arithmetic overflows, a loop has run out of fuel, or an error is reported. -/
inductive Fault where
  | overflow
  | outOfFuel
  | error (e : Error)
deriving DecidableEq

/-! ## Adaptive states -/

/-- The default table of `one_state`. -/
def defaultStateTransition : List (BitVec 8) :=
  [0, 0, 0, 0, 0, 0, 0, 0, 20, 21, 22, 23, 24, 25, 26, 27,
   28, 29, 30, 31, 32, 33, 34, 35, 36, 37, 37, 38, 39, 40, 41, 42,
   43, 44, 45, 46, 47, 48, 49, 50, 51, 52, 53, 54, 55, 56, 56, 57,
   58, 59, 60, 61, 62, 63, 64, 65, 66, 67, 68, 69, 70, 71, 72, 73,
   74, 75, 75, 76, 77, 78, 79, 80, 81, 82, 83, 84, 85, 86, 87, 88,
   89, 90, 91, 92, 93, 94, 94, 95, 96, 97, 98, 99, 100, 101, 102, 103,
   104, 105, 106, 107, 108, 109, 110, 111, 112, 113, 114, 114, 115, 116, 117, 118,
   119, 120, 121, 122, 123, 124, 125, 126, 127, 128, 129, 130, 131, 132, 133, 133,
   134, 135, 136, 137, 138, 139, 140, 141, 142, 143, 144, 145, 146, 147, 148, 149,
   150, 151, 152, 152, 153, 154, 155, 156, 157, 158, 159, 160, 161, 162, 163, 164,
   165, 166, 167, 168, 169, 170, 171, 171, 172, 173, 174, 175, 176, 177, 178, 179,
   180, 181, 182, 183, 184, 185, 186, 187, 188, 189, 190, 190, 191, 192, 194, 194,
   195, 196, 197, 198, 199, 200, 201, 202, 202, 204, 205, 206, 207, 208, 209, 209,
   210, 211, 212, 213, 215, 215, 216, 217, 218, 219, 220, 220, 222, 223, 224, 225,
   226, 227, 227, 229, 229, 230, 231, 232, 234, 234, 235, 236, 237, 238, 239, 240,
   241, 242, 243, 244, 245, 246, 247, 248, 248, 0, 0, 0, 0, 0, 0, 0]

/-- A state transition table: the state behind a one for every state. -/
structure StateTransition where
  oneStates : List (BitVec 8)
deriving DecidableEq

namespace StateTransition

/-- The default table, no delta applied. -/
def defaultTable : StateTransition where
  oneStates := defaultStateTransition

/-- The state behind a one. -/
def oneState (table : StateTransition) (s : BitVec 8) : BitVec 8 :=
  (table.oneStates[s.toNat]?).getD 0

/-- The state behind a zero: the table, read and taken from the other side. -/
def zeroState (table : StateTransition) (s : BitVec 8) : BitVec 8 :=
  let one := table.oneState (BitVec.ofNat 8 (256 - s.toNat))
  BitVec.ofNat 8 (256 - one.toNat)

/-- The state behind a bit. -/
def next (table : StateTransition) (s : BitVec 8) (bit : Bool) : BitVec 8 :=
  if bit then table.oneState s else table.zeroState s

end StateTransition

/-- The adaptive states of one context. -/
abbrev SymbolStates := List (BitVec 8)

/-- Fresh states: every one is 128. -/
def freshStates : SymbolStates :=
  List.replicate 32 128

/-- The state at a place of a context. -/
def statesGet (states : SymbolStates) (i : Nat) : BitVec 8 :=
  (states[i]?).getD 128

/-- Set the state at a place of a context. -/
def statesSet (states : SymbolStates) (i : Nat) (v : BitVec 8) : SymbolStates :=
  states.set i v

/-- The context of the terminator symbol. -/
def terminatorState : BitVec 8 :=
  129

/-! ## The decoder -/

/-- The range decoder. -/
structure RangeDecoder where
  data : Bytes
  pos : Nat
  low : Nat
  range : Nat
deriving DecidableEq

namespace RangeDecoder

/-- Start on the first two bytes. -/
def new (data : Bytes) : RangeDecoder where
  data := data
  pos := 2
  low := ((data[0]?).getD 0).toNat * 256 + ((data[1]?).getD 0).toNat
  range := 65280

/-- The next byte; past the end it is zero. -/
def nextByte (d : RangeDecoder) : BitVec 8 :=
  (d.data[d.pos]?).getD 0

/-- Take a byte when the range is small. -/
def refill (d : RangeDecoder) : RangeDecoder :=
  if d.range < 256 then
    { d with
      pos := d.pos + 1
      low := d.low * 256 % 4294967296 + d.nextByte.toNat
      range := d.range * 256 }
  else
    d

/-- Decode one bit in a state. -/
def getRac (d : RangeDecoder) (state : BitVec 8) (table : StateTransition) :
    RangeDecoder × BitVec 8 × Bool :=
  let rangeOff := d.range * state.toNat / 256
  let sub := d.range - rangeOff
  if d.low < sub then
    (refill { d with range := sub }, table.zeroState state, false)
  else
    (refill { d with low := d.low - sub, range := rangeOff }, table.oneState state, true)

/-- Read the terminator symbol; the offset behind the range-coded bytes. -/
def readTerminator (d : RangeDecoder) (table : StateTransition) : RangeDecoder × Nat :=
  let (d, _, _) := d.getRac terminatorState table
  (d, d.pos - 1)

def getAt (d : RangeDecoder) (states : SymbolStates) (table : StateTransition) (i : Nat) :
    RangeDecoder × SymbolStates × Bool :=
  let (d, s, bit) := d.getRac (statesGet states i) table
  (d, statesSet states i s, bit)

/-- Count the ones of the exponent; the count is capped. -/
def getExponent (table : StateTransition) :
    Nat → RangeDecoder → SymbolStates → Nat → RangeDecoder × SymbolStates × Nat
  | 0, d, states, e => (d, states, e)
  | fuel + 1, d, states, e =>
      let (d, states, bit) := d.getAt states table (1 + min e 9)
      if bit then getExponent table fuel d states (e + 1) else (d, states, e)

def getMantissa (table : StateTransition) :
    Nat → RangeDecoder → SymbolStates → Nat → Except Fault (RangeDecoder × SymbolStates × Nat)
  | 0, d, states, a => .ok (d, states, a)
  | i + 1, d, states, a =>
      let (d, states, bit) := d.getAt states table (22 + min i 9)
      if a * 2 + bit.toNat < 9223372036854775808 then
        getMantissa table i d states (a * 2 + bit.toNat)
      else
        .error .overflow

/-- The nearest 32-bit number. -/
def clampI32 (v : Int) : Int :=
  max (-2147483648) (min v 2147483647)

def getSign (d : RangeDecoder) (states : SymbolStates) (table : StateTransition) (signed : Bool)
    (e a : Nat) : RangeDecoder × SymbolStates × Int :=
  if signed then
    let (d, states, negative) := d.getAt states table (11 + min e 10)
    (d, states, clampI32 (if negative then -(a : Int) else a))
  else
    (d, states, clampI32 a)

/-- Decode a number. -/
def getSymbol (d : RangeDecoder) (states : SymbolStates) (table : StateTransition)
    (signed : Bool) : Except Fault (RangeDecoder × SymbolStates × Int) :=
  let (d, states, zero) := d.getAt states table 0
  if zero then
    .ok (d, states, 0)
  else
    let (d, states, e) := getExponent table 65 d states 0
    (getMantissa table e d states 1).map fun (d, states, a) => d.getSign states table signed e a

end RangeDecoder

/-! ## The encoder -/

/-- The range encoder.  `carryLost` records for the proofs whether a carry has come with
no byte to take it; nothing reads it. -/
structure RangeEncoder where
  low : Nat
  range : Nat
  cache : BitVec 8
  cacheSize : Nat
  out : Bytes
  carryLost : Bool
deriving DecidableEq

namespace RangeEncoder

/-- A new encoder. -/
def new : RangeEncoder where
  low := 0
  range := 65280
  cache := 0
  cacheSize := 0
  out := []
  carryLost := false

/-- The waiting bytes with a carry. -/
def drained (e : RangeEncoder) (carry : BitVec 8) : Bytes :=
  if 0 < e.cacheSize then
    (e.cache + carry) :: List.replicate (e.cacheSize - 1) (255 + carry)
  else
    []

/-- Move the upper byte of the start to the waiting bytes, which leave when no carry can reach them.
-/
def shiftLow (e : RangeEncoder) : RangeEncoder :=
  let carry := BitVec.ofNat 8 (e.low / 65536)
  if e.low < 65280 ∨ carry ≠ 0 then
    { e with
      out := e.out ++ e.drained carry
      cache := BitVec.ofNat 8 (e.low / 256)
      cacheSize := 1
      low := e.low * 256 % 65536
      carryLost := e.carryLost ||
        decide (carry ≠ 0 ∧ (e.cacheSize = 0 ∨ e.cache = 255 ∨ carry ≠ 1)) }
  else
    { e with
      cacheSize := e.cacheSize + 1
      low := e.low * 256 % 65536 }

/-- Shift bytes out until the range is large enough; the source stops after nine. -/
def renormLoop : Nat → RangeEncoder → RangeEncoder
  | 0, e => e
  | fuel + 1, e =>
      if e.range < 256 then renormLoop fuel { e.shiftLow with range := e.range * 256 } else e

/-- Renormalise. -/
def renormalize (e : RangeEncoder) : RangeEncoder :=
  renormLoop 9 e

/-- Encode one bit in a state. -/
def putRac (e : RangeEncoder) (state : BitVec 8) (table : StateTransition) (bit : Bool) :
    RangeEncoder × BitVec 8 :=
  let rangeOff := e.range * state.toNat / 256
  let sub := e.range - rangeOff
  if bit then
    (renormalize { e with low := e.low + sub, range := rangeOff }, table.oneState state)
  else
    (renormalize { e with range := sub }, table.zeroState state)

/-- Write the terminator symbol. -/
def writeTerminator (e : RangeEncoder) (table : StateTransition) : RangeEncoder :=
  (e.putRac terminatorState table false).1

/-- Round the start of the interval up to a whole byte, move three bytes out and drop the
last. -/
def finish (e : RangeEncoder) : RangeEncoder :=
  let e := { e with low := (e.low + 255) / 256 * 256 }
  let e := e.shiftLow.shiftLow.shiftLow
  { e with out := e.out.dropLast }

end RangeEncoder

/-! ## Numbers -/

/-- What bits can be written to: the encoder, or an exact interval. -/
class BitCoder (α : Type) where
  putRac : α → BitVec 8 → StateTransition → Bool → α × BitVec 8

instance : BitCoder RangeEncoder where
  putRac := RangeEncoder.putRac

section Numbers

variable {α : Type} [BitCoder α]

/-- Encode one bit in the state at a place of a context. -/
def putAt (e : α) (states : SymbolStates) (table : StateTransition) (i : Nat) (bit : Bool) :
    α × SymbolStates :=
  let (e, s) := BitCoder.putRac e (statesGet states i) table bit
  (e, statesSet states i s)

def putOnes (table : StateTransition) : Nat → Nat → α → SymbolStates → α × SymbolStates
  | 0, _, e, states => (e, states)
  | n + 1, i, e, states =>
      let (e, states) := putAt e states table (1 + min i 9) true
      putOnes table n (i + 1) e states

def putMantissa (table : StateTransition) (a : Nat) :
    Nat → α → SymbolStates → α × SymbolStates
  | 0, e, states => (e, states)
  | i + 1, e, states =>
      let (e, states) := putAt e states table (22 + min i 9) (a.testBit i)
      putMantissa table a i e states

/-- Encode a number. -/
def putSymbol (e : α) (states : SymbolStates) (table : StateTransition) (value : Int)
    (signed : Bool) : α × SymbolStates :=
  if value = 0 then
    putAt e states table 0 true
  else
    let (e, states) := putAt e states table 0 false
    let a := value.natAbs
    let exponent := Nat.log2 a
    let (e, states) := putOnes table exponent 0 e states
    let (e, states) := putAt e states table (1 + min exponent 9) false
    let (e, states) := putMantissa table a exponent e states
    if signed then
      putAt e states table (11 + min exponent 10) (decide (value < 0))
    else
      (e, states)

end Numbers

/-! ## Adapted states -/

/-- A state that is reached from 128 under the default table: neither bit has a probability of
zero there. -/
def Adapted (s : BitVec 8) : Prop :=
  8 ≤ s.toNat ∧ s.toNat ≤ 248

instance (s : BitVec 8) : Decidable (Adapted s) :=
  inferInstanceAs (Decidable (_ ∧ _))

/-- The default table leads from adapted states to adapted ones. -/
theorem StateTransition.adapted_default {s : BitVec 8} (h : Adapted s) (bit : Bool) :
    Adapted (defaultTable.next s bit) := by
  have hall : ∀ s : BitVec 8, ∀ bit, Adapted s → Adapted (defaultTable.next s bit) := by
    decide +kernel
  exact hall s bit h

/-- A context whose states are adapted. -/
def AdaptedStates (states : SymbolStates) : Prop :=
  ∀ s ∈ states, Adapted s

theorem adapted_freshStates : AdaptedStates freshStates := by
  intro s hs
  rw [List.eq_of_mem_replicate hs]
  decide

theorem AdaptedStates.get {states : SymbolStates} (h : AdaptedStates states) (i : Nat) :
    Adapted (statesGet states i) := by
  rw [statesGet]
  cases hstate : states[i]? with
  | none => decide
  | some s => exact h s (List.mem_of_getElem? hstate)

theorem AdaptedStates.set {states : SymbolStates} (h : AdaptedStates states) (i : Nat)
    {v : BitVec 8} (hv : Adapted v) : AdaptedStates (statesSet states i v) := by
  intro s hs
  rcases List.mem_or_eq_of_mem_set hs with hs | rfl
  · exact h s hs
  · exact hv

/-! ## Carries -/

/-- The waiting bytes. -/
def RangeEncoder.pending (e : RangeEncoder) : Bytes :=
  if 0 < e.cacheSize then e.cache :: List.replicate (e.cacheSize - 1) 255 else []

/-- The bytes that have left the start of the interval. -/
def RangeEncoder.written (e : RangeEncoder) : Bytes :=
  e.out ++ e.pending

namespace RangeEncoder

variable {e e' : RangeEncoder}

/-- A carry comes alone, and where one can still come there is a waiting byte to take it. -/
structure Ready (e : RangeEncoder) : Prop where
  low_lt : e.low < 130816
  cache_le : e.cache.toNat ≤ 254
  waiting : e.cacheSize = 0 → e.out = [] ∧ e.low < 65280
  kept : e.carryLost = false

theorem numberOf_carried (bytes : Bytes) {byte : BitVec 8} (hbyte : byte.toNat ≤ 254) (n : Nat) :
    numberOf (bytes ++ (byte + 1) :: List.replicate n 0) =
      numberOf (bytes ++ byte :: List.replicate n 255) + 1 := by
  induction n with
  | zero =>
      rw [List.replicate_zero, List.replicate_zero, numberOf_concat, numberOf_concat,
        BitVec.toNat_add, show (1 : BitVec 8).toNat = 1 from rfl, Nat.mod_eq_of_lt (by omega)]
      omega
  | succ n ih =>
      rw [List.replicate_succ', List.replicate_succ', ← List.cons_append, ← List.cons_append,
        ← List.append_assoc, ← List.append_assoc, numberOf_concat, numberOf_concat, ih,
        show (0 : BitVec 8).toNat = 0 from rfl, show (255 : BitVec 8).toNat = 255 from rfl]
      omega

theorem drained_zero (e : RangeEncoder) : e.drained 0 = e.pending := by
  have hzero : ∀ b : BitVec 8, b + 0 = b := BitVec.add_zero
  rw [drained, pending, hzero, hzero]

theorem numberOf_drained_one (h : e.Ready) (hcarry : 65536 ≤ e.low) :
    numberOf (e.out ++ e.drained 1) = numberOf e.written + 1 ∧
      (e.out ++ e.drained 1).length = e.written.length := by
  have hpos : 0 < e.cacheSize := by
    by_contra hzero
    have hlow := (h.waiting (by omega)).2
    omega
  rw [drained, written, pending, if_pos hpos, if_pos hpos,
    show (255 : BitVec 8) + 1 = 0 from rfl, numberOf_carried e.out h.cache_le]
  refine ⟨rfl, ?_⟩
  simp only [List.length_append, List.length_cons, List.length_replicate]

/-- Bytes and start hold the same number with a byte of zeros behind it, and no carry is lost. -/
structure Shifted (e e' : RangeEncoder) : Prop where
  length : e'.written.length = e.written.length + 1
  number : numberOf e'.written * 65536 + e'.low = (numberOf e.written * 65536 + e.low) * 256
  low : e'.low = e.low * 256 % 65536
  range : e'.range = e.range
  size_pos : 0 < e'.cacheSize
  cache_le : e'.cache.toNat ≤ 254
  kept : e'.carryLost = false

theorem Shifted.ready (h : e.Shifted e') : e'.Ready where
  low_lt := by
    have hlow := h.low
    omega
  cache_le := h.cache_le
  waiting := fun hzero => absurd hzero (by have := h.size_pos; omega)
  kept := h.kept

/-- A byte leaves the start of the interval, and a carry finds a byte to go to. -/
theorem shiftLow_ready (h : e.Ready) : e.Shifted e.shiftLow := by
  have hlow := h.low_lt
  have hcarry : BitVec.ofNat 8 (e.low / 65536) = if 65536 ≤ e.low then 1 else 0 := by
    split
    · rw [show e.low / 65536 = 1 by omega]
      rfl
    · rw [show e.low / 65536 = 0 by omega]
      rfl
  have hbyte : (BitVec.ofNat 8 (e.low / 256)).toNat = e.low / 256 % 256 := BitVec.toNat_ofNat _ _
  rw [shiftLow, hcarry]
  by_cases hlarge : 65536 ≤ e.low
  · rcases numberOf_drained_one h hlarge with ⟨hnumber, hlength⟩
    have hsize : e.cacheSize ≠ 0 := by
      intro hzero
      have := (h.waiting hzero).2
      omega
    have hcache : e.cache ≠ 255 := by
      intro hfull
      have hle := h.cache_le
      rw [hfull, show (255 : BitVec 8).toNat = 255 from rfl] at hle
      omega
    rw [if_pos hlarge, if_pos (Or.inr (by decide))]
    refine ⟨?_, ?_, rfl, rfl, Nat.one_pos, ?_, ?_⟩
    · show (e.out ++ e.drained 1 ++ [BitVec.ofNat 8 (e.low / 256)]).length = _
      rw [List.length_append, hlength, List.length_singleton]
    · show numberOf (e.out ++ e.drained 1 ++ [BitVec.ofNat 8 (e.low / 256)]) * 65536 +
        e.low * 256 % 65536 = _
      rw [numberOf_concat, hnumber, hbyte]
      omega
    · rw [hbyte]
      omega
    · dsimp only
      rw [h.kept, Bool.false_or, decide_eq_false]
      rintro ⟨-, hnone | hfull | hmore⟩
      · exact hsize hnone
      · exact hcache hfull
      · exact hmore rfl
  · rw [if_neg hlarge]
    by_cases hsmall : e.low < 65280
    · rw [if_pos (Or.inl hsmall), drained_zero]
      refine ⟨?_, ?_, rfl, rfl, Nat.one_pos, ?_, ?_⟩
      · show (e.written ++ [BitVec.ofNat 8 (e.low / 256)]).length = _
        rw [List.length_append, List.length_singleton]
      · show numberOf (e.written ++ [BitVec.ofNat 8 (e.low / 256)]) * 65536 +
          e.low * 256 % 65536 = _
        rw [numberOf_concat, hbyte]
        omega
      · rw [hbyte]
        omega
      · dsimp only
        rw [h.kept, Bool.false_or, decide_eq_false]
        rintro ⟨hne, -⟩
        exact hne rfl
    · have hpos : 0 < e.cacheSize := by
        by_contra hzero
        exact hsmall (h.waiting (by omega)).2
      have hwritten : ({ e with
          cacheSize := e.cacheSize + 1
          low := e.low * 256 % 65536 } : RangeEncoder).written = e.written ++ [255] := by
        rw [written, written, pending, pending]
        dsimp only
        rw [if_pos (Nat.succ_pos _), if_pos hpos, List.append_assoc, List.cons_append,
          ← List.replicate_succ', Nat.sub_add_cancel hpos, Nat.add_sub_cancel]
      rw [if_neg (by
        rintro (hless | hne)
        · exact hsmall hless
        · exact hne rfl)]
      refine ⟨?_, ?_, rfl, rfl, Nat.succ_pos _, h.cache_le, h.kept⟩
      · rw [hwritten, List.length_append, List.length_singleton]
      · rw [hwritten, numberOf_concat, show (255 : BitVec 8).toNat = 255 from rfl]
        dsimp only
        omega

end RangeEncoder
end Ffv1
end Vaco
