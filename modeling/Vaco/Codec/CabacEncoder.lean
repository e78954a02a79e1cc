import Vaco.Codec.Cabac
import Vaco.Library.IntervalCoder

/-!
# The arithmetic encoding engine

The encoder narrows the range as the decoder does and keeps the start of the range in a
register of ten bits.  A bit leaves the register once no later carry can change it; while one
may, bits are counted as outstanding and written when the carry is decided.  The written
bits, the outstanding ones and the register together are the exact start of the cell.

Main results:

- `putBit_settles`: a written bit doubles the settled part, and outstanding bits come out as the
  carry decides.
-/

namespace Vaco
namespace Codec

open Library BitStream Checked IntervalCoder
open Vaco.Bitstream

/-- The encoder. -/
structure CabacEncoder where
  low : Nat
  range : Nat
  outstanding : Nat
  firstBit : Bool
  out : Bytes
  partialByte : BitVec 8
  bitCount : Nat
  maxBytes : Nat
  overflowed : Bool

namespace CabacEncoder

/-- A new encoder with a ceiling on its output. -/
def withLimit (maxBytes : Nat) : CabacEncoder where
  low := 0
  range := 510
  outstanding := 0
  firstBit := true
  out := []
  partialByte := 0
  bitCount := 0
  maxBytes := maxBytes
  overflowed := false

/-- A new encoder with the default ceiling. -/
def new : CabacEncoder :=
  withLimit 16777216

def writeBit (e : CabacEncoder) (b : Nat) : CabacEncoder :=
  if e.maxBytes ≤ e.out.length then
    { e with overflowed := true }
  else
    let byte := (e.partialByte <<< 1) ||| BitVec.ofNat 8 (b % 2)
    if e.bitCount + 1 = 8 then
      { e with out := e.out ++ [byte], partialByte := 0, bitCount := 0 }
    else
      { e with partialByte := byte, bitCount := e.bitCount + 1 }

/-- Write outstanding bits opposite to a bit, until none is left or the ceiling is reached. -/
def writeOutstanding (b : Nat) : Nat → CabacEncoder → CabacEncoder
  | 0, e => { e with outstanding := 0 }
  | left + 1, e =>
      let e := e.writeBit (1 - b % 2)
      if e.overflowed then { e with outstanding := 0 } else writeOutstanding b left e

/-- Put a bit and the outstanding ones behind it; the first bit is not written. -/
def putBit (e : CabacEncoder) (b : Nat) : CabacEncoder :=
  let e := if e.firstBit then { e with firstBit := false } else e.writeBit b
  writeOutstanding b e.outstanding e

/-- Count one more outstanding bit. -/
def hold (e : CabacEncoder) : CabacEncoder :=
  { e with outstanding := min (e.outstanding + 1) u64Max }

/-- Put the bit that leaves the register, or hold it while a carry may change it. -/
def leave (e : CabacEncoder) : Option CabacEncoder :=
  if e.low < 256 then
    some (e.putBit 0)
  else if 512 ≤ e.low then
    (sub e.low 512).map fun low => putBit { e with low := low } 1
  else
    (sub e.low 256).map fun low => hold { e with low := low }

/-- Double the range and the register until the range is at least 256. -/
def renormLoop : Nat → CabacEncoder → Option CabacEncoder
  | 0, _ => none
  | fuel + 1, e =>
      if e.range < 256 then do
        let e ← e.leave
        let range ← shl32 e.range 1
        let low ← shl32 e.low 1
        renormLoop fuel { e with range := range, low := low }
      else
        some e

/-- Renormalise; a positive range is doubled at most eight times. -/
def renorm (e : CabacEncoder) : Option CabacEncoder :=
  renormLoop 9 e

/-- Encode one bin with a context. -/
def encodeDecision (e : CabacEncoder) (ctx : ContextModel) (bin : Nat) :
    Option (CabacEncoder × ContextModel) := do
  let lps := ctx.lps e.range
  let range ← sub e.range lps
  let isLps := if bin % 2 = ctx.mps then 0 else 1
  if isLps = 1 then
    let low ← add32 e.low range
    let e ← renorm { e with low := low, range := lps }
    some (e, ctx.next isLps)
  else
    let e ← renorm { e with range := range }
    some (e, ctx.next isLps)

/-- The doubled register, with the range added for a one. -/
def bypassLow (e : CabacEncoder) (bin : Nat) : Option Nat :=
  (shl32 e.low 1).bind fun low => if bin % 2 ≠ 0 then add32 low e.range else some low

/-- Encode one bin without a context. -/
def encodeBypass (e : CabacEncoder) (bin : Nat) : Option CabacEncoder := do
  let low ← e.bypassLow bin
  if 1024 ≤ low then
    let e := putBit { e with low := low } 1
    let low ← sub low 1024
    some { e with low := low }
  else if low < 512 then
    some (putBit { e with low := low } 0)
  else
    let low ← sub low 512
    some (hold { e with low := low })

/-- Resolve the interval: two numbers are left of the range, and the second last bit is
followed by a one. -/
def flush (e : CabacEncoder) : Option CabacEncoder := do
  let e ← renorm { e with range := 2 }
  let e := e.putBit (e.low / 512 % 2)
  let two := e.low / 128 % 4 ||| 1
  some ((e.writeBit (two / 2)).writeBit (two % 2))

/-- Encode a terminating bin. -/
def encodeTerminate (e : CabacEncoder) (bin : Nat) : Option CabacEncoder := do
  let range ← sub e.range 2
  if bin % 2 ≠ 0 then
    let low ← add32 e.low range
    flush { e with range := range, low := low }
  else
    renorm { e with range := range }

/-- Take the bytes; the last one is padded with zeros. -/
def finish (e : CabacEncoder) : Bytes :=
  if 0 < e.bitCount then e.out ++ [e.partialByte <<< (8 - e.bitCount)] else e.out

/-! ## The settled part -/

/-- The written bits. -/
def length (e : CabacEncoder) : Nat :=
  8 * e.out.length + e.bitCount

/-- The number of the written bits. -/
def written (e : CabacEncoder) : Nat :=
  numberOf e.out * 2 ^ e.bitCount + e.partialByte.toNat

/-- The digits that have left the register. -/
def depth (e : CabacEncoder) : Nat :=
  e.length + e.outstanding + if e.firstBit then 0 else 1

/-- The part of the start of the cell that has left the register, outstanding bits as a zero and
ones. -/
def settled (e : CabacEncoder) : Nat :=
  e.written * 2 ^ e.outstanding * 1024 + (2 ^ e.outstanding - 1) * 512

/-- Output whose bits are all there: neither the ceiling nor the count of outstanding bits is
reached. -/
def Fits (e : CabacEncoder) : Prop :=
  e.overflowed = false ∧ e.depth < u64Max

/-- A pending byte has its low bits only; nothing is written before the first bit, nor past the
ceiling. -/
structure Wf (e : CabacEncoder) : Prop where
  bitCount_lt : e.bitCount < 8
  partialByte_lt : e.partialByte.toNat < 2 ^ e.bitCount
  first : e.firstBit = true → e.length = 0
  length_le : e.length ≤ 8 * e.maxBytes

variable {e e' : CabacEncoder}

/-- A written bit goes behind the others, unless the ceiling is reached. -/
theorem writeBit_eq (h : e.Wf) (hfirst : e.firstBit = false) {b : Nat} (hb : b < 2) :
    (e.writeBit b).Wf ∧ ((e.writeBit b).overflowed = false →
      (e.writeBit b).written = 2 * e.written + b ∧ (e.writeBit b).length = e.length + 1) := by
  have hcount := h.bitCount_lt
  have hbyte := h.partialByte_lt
  rw [writeBit]
  by_cases hceiling : e.maxBytes ≤ e.out.length
  · rw [if_pos hceiling]
    exact ⟨⟨hcount, hbyte, h.first, h.length_le⟩, fun hfits => by cases hfits⟩
  · rw [if_neg hceiling]
    have hpow : 2 ^ e.bitCount ≤ 2 ^ 7 := Nat.pow_le_pow_right (by decide) (by omega)
    have hvalue : ((e.partialByte <<< 1) ||| BitVec.ofNat 8 (b % 2)).toNat =
        2 * e.partialByte.toNat + b := by
      rw [BitVec.toNat_or, BitVec.toNat_shiftLeft, BitVec.toNat_ofNat, Nat.shiftLeft_eq,
        Nat.mod_eq_of_lt (by omega : b % 2 < 2 ^ 8), Nat.mod_eq_of_lt hb,
        Nat.mod_eq_of_lt (by omega), Nat.pow_one, Nat.mul_comm, two_mul_or hb]
    dsimp only
    by_cases hfull : e.bitCount + 1 = 8
    · rw [if_pos hfull]
      have hcount7 : e.bitCount = 7 := by omega
      refine ⟨⟨Nat.zero_lt_succ 7, Nat.one_pos, ?_, ?_⟩, fun _ => ⟨?_, ?_⟩⟩
      · intro hone
        rw [hfirst] at hone
        cases hone
      · simp only [length, List.length_append, List.length_singleton]
        omega
      · simp only [written, numberOf_concat, hvalue, hcount7]
        simp
        ring
      · simp only [length, List.length_append, List.length_singleton]
        omega
    · rw [if_neg hfull]
      refine ⟨⟨by dsimp only; omega, ?_, ?_, ?_⟩, fun _ => ⟨?_, ?_⟩⟩
      · dsimp only
        rw [hvalue, Nat.pow_succ]
        omega
      · intro hone
        rw [hfirst] at hone
        cases hone
      · simp only [length]
        omega
      · simp only [written, hvalue, Nat.pow_succ]
        ring
      · simp only [length]
        omega

theorem Wf.with_low (h : e.Wf) (low : Nat) : Wf { e with low := low } where
  bitCount_lt := h.bitCount_lt
  partialByte_lt := h.partialByte_lt
  first := h.first
  length_le := h.length_le

/-- What writing leaves as it is. -/
structure Keeps (e e' : CabacEncoder) : Prop where
  low : e'.low = e.low
  range : e'.range = e.range
  maxBytes : e'.maxBytes = e.maxBytes
  overflowed : e'.overflowed = false → e.overflowed = false

theorem Keeps.trans {e'' : CabacEncoder} (h : e.Keeps e') (h' : e'.Keeps e'') : e.Keeps e'' where
  low := h'.low.trans h.low
  range := h'.range.trans h.range
  maxBytes := h'.maxBytes.trans h.maxBytes
  overflowed hfits := h.overflowed (h'.overflowed hfits)

theorem writeBit_keeps (e : CabacEncoder) (b : Nat) :
    e.Keeps (e.writeBit b) ∧ (e.writeBit b).outstanding = e.outstanding ∧
      (e.writeBit b).firstBit = e.firstBit := by
  rw [writeBit]
  by_cases hceiling : e.maxBytes ≤ e.out.length
  · rw [if_pos hceiling]
    exact ⟨⟨rfl, rfl, rfl, fun hfits => by cases hfits⟩, rfl, rfl⟩
  · rw [if_neg hceiling]
    dsimp only
    split
    · exact ⟨⟨rfl, rfl, rfl, id⟩, rfl, rfl⟩
    · exact ⟨⟨rfl, rfl, rfl, id⟩, rfl, rfl⟩

theorem writeOutstanding_keeps (b left : Nat) (e : CabacEncoder) :
    e.Keeps (writeOutstanding b left e) ∧ (writeOutstanding b left e).outstanding = 0 ∧
      (writeOutstanding b left e).firstBit = e.firstBit := by
  induction left generalizing e with
  | zero => exact ⟨⟨rfl, rfl, rfl, id⟩, rfl, rfl⟩
  | succ left ih =>
      rcases writeBit_keeps e (1 - b % 2) with ⟨hkeeps, -, hfirst⟩
      rw [writeOutstanding]
      by_cases hover : (e.writeBit (1 - b % 2)).overflowed = true
      · rw [if_pos hover]
        refine ⟨⟨hkeeps.low, hkeeps.range, hkeeps.maxBytes, ?_⟩, rfl, hfirst⟩
        intro hfits
        exact hkeeps.overflowed hfits
      · rw [if_neg hover]
        rcases ih (e.writeBit (1 - b % 2)) with ⟨hkeeps', hzero, hfirst'⟩
        exact ⟨hkeeps.trans hkeeps', hzero, hfirst'.trans hfirst⟩

/-- Outstanding bits are written one behind the other, unless the ceiling is reached. -/
theorem writeOutstanding_eq (h : e.Wf) (hfirst : e.firstBit = false) (left : Nat) {b : Nat}
    (hb : b < 2) :
    (writeOutstanding b left e).Wf ∧ ((writeOutstanding b left e).overflowed = false →
      (writeOutstanding b left e).written = (e.written + (1 - b)) * 2 ^ left - (1 - b) ∧
        (writeOutstanding b left e).length = e.length + left) := by
  induction left generalizing e with
  | zero =>
      refine ⟨⟨h.bitCount_lt, h.partialByte_lt, h.first, h.length_le⟩, fun _ => ⟨?_, rfl⟩⟩
      rw [Nat.pow_zero, Nat.mul_one, Nat.add_sub_cancel]
      rfl
  | succ left ih =>
      have hbit : 1 - b % 2 < 2 := by omega
      rcases writeBit_eq h hfirst hbit with ⟨hwf, hone⟩
      rw [writeOutstanding]
      by_cases hover : (e.writeBit (1 - b % 2)).overflowed = true
      · rw [if_pos hover]
        refine ⟨⟨hwf.bitCount_lt, hwf.partialByte_lt, hwf.first, hwf.length_le⟩, ?_⟩
        intro hfits
        dsimp only at hfits
        rw [hfits] at hover
        cases hover
      · rw [if_neg hover]
        rcases hone (Bool.not_eq_true _ ▸ hover) with ⟨hwritten, hlength⟩
        have hfirst' := (writeBit_keeps e (1 - b % 2)).2.2.trans hfirst
        rcases ih hwf hfirst' with ⟨hwf', hrest⟩
        refine ⟨hwf', fun hfits => ?_⟩
        rcases hrest hfits with ⟨hwritten', hlength'⟩
        refine ⟨?_, by omega⟩
        rw [hwritten', hwritten, Nat.mod_eq_of_lt hb, Nat.pow_succ,
          show 2 * e.written + (1 - b) + (1 - b) = (e.written + (1 - b)) * 2 by ring,
          Nat.mul_comm (2 ^ left) 2, Nat.mul_assoc]

theorem Wf.written_of_first (h : e.Wf) (hfirst : e.firstBit = true) : e.written = 0 := by
  have hempty := h.first hfirst
  have hcount : e.bitCount = 0 := by
    unfold length at hempty
    omega
  have hout : e.out = [] := by
    unfold length at hempty
    exact List.eq_nil_of_length_eq_zero (by omega)
  have hbyte := h.partialByte_lt
  rw [hcount] at hbyte
  rw [written, hout, hcount, numberOf]
  simp only [List.length_nil, Nat.mul_zero, number_zero, Nat.zero_mul, Nat.zero_add]
  omega

/-- Putting a bit doubles the settled part and adds the bit; the first bit has to be zero. -/
theorem putBit_settles (h : e.Wf) {b : Nat} (hb : b < 2) :
    e.Keeps (e.putBit b) ∧ (e.putBit b).Wf ∧ (e.putBit b).outstanding = 0 ∧
      (e.putBit b).firstBit = false ∧
      ((e.putBit b).Fits → e.Fits ∧ (e.putBit b).depth = e.depth + 1 ∧
        ((e.firstBit = true → b = 0) → (e.putBit b).settled = 2 * e.settled + 1024 * b)) := by
  rw [putBit]
  have hpos : 0 < 2 ^ e.outstanding := by positivity
  cases hfirst : e.firstBit with
  | true =>
      simp only [if_true]
      have hnone := h.written_of_first hfirst
      have hwf : Wf { e with firstBit := false } := { h with first := fun hone => by cases hone }
      rcases writeOutstanding_keeps b e.outstanding { e with firstBit := false } with
        ⟨hkeeps, hzero, hlater⟩
      rcases writeOutstanding_eq hwf rfl e.outstanding hb with ⟨hwf', hall⟩
      refine ⟨⟨hkeeps.low, hkeeps.range, hkeeps.maxBytes, hkeeps.overflowed⟩, hwf', hzero, hlater,
        ?_⟩
      intro hfits
      rcases hall hfits.1 with ⟨hwritten, hlength⟩
      have hdepth : (writeOutstanding b e.outstanding { e with firstBit := false }).depth =
          e.depth + 1 := by
        rw [depth, depth, hzero, hlater, hlength, hfirst]
        simp only [length, Nat.add_zero, Bool.false_eq_true, if_false, if_true]
      have hfitsDepth := hfits.2
      refine ⟨⟨hkeeps.overflowed hfits.1, by omega⟩, hdepth, ?_⟩
      intro hbit
      rw [settled, settled, hzero, hwritten, hbit trivial,
        show written { e with firstBit := false } = e.written from rfl, hnone]
      simp only [Nat.sub_zero, Nat.zero_add, Nat.one_mul, Nat.pow_zero, Nat.mul_one, Nat.sub_self,
        Nat.zero_mul, Nat.add_zero, Nat.mul_zero]
      ring
  | false =>
      simp only [Bool.false_eq_true, if_false]
      rcases writeBit_keeps e b with ⟨hkeeps, hsame, hfirst'⟩
      rcases writeBit_eq h hfirst hb with ⟨hwf₁, hone⟩
      rcases writeOutstanding_keeps b (e.writeBit b).outstanding (e.writeBit b) with
        ⟨hkeeps', hzero, hlater⟩
      rcases writeOutstanding_eq hwf₁ (hfirst'.trans hfirst)
        (e.writeBit b).outstanding hb with ⟨hwf₂, hall⟩
      refine ⟨hkeeps.trans hkeeps', hwf₂, hzero, hlater.trans (hfirst'.trans hfirst), ?_⟩
      intro hfits
      rcases hone (hkeeps'.overflowed hfits.1) with ⟨hwritten₁, hlength₁⟩
      rcases hall hfits.1 with ⟨hwritten₂, hlength₂⟩
      have hdepth : (writeOutstanding b (e.writeBit b).outstanding (e.writeBit b)).depth =
          e.depth + 1 := by
        rw [depth, depth, hzero, hlater, hfirst', hlength₂, hlength₁, hsame, hfirst]
        simp only [Nat.add_zero, Bool.false_eq_true, if_false]
        omega
      have hfitsDepth := hfits.2
      refine ⟨⟨(hkeeps.trans hkeeps').overflowed hfits.1, by omega⟩, hdepth, fun _ => ?_⟩
      rw [settled, settled, hzero, hwritten₂, hwritten₁, hsame]
      have hless : 1 * 512 ≤ 2 ^ e.outstanding * 512 := Nat.mul_le_mul_right 512 hpos
      -- The bit decides between the two values of the outstanding ones.
      rcases (by omega : b = 0 ∨ b = 1) with rfl | rfl
      · simp only [Nat.sub_zero, Nat.add_zero, Nat.pow_zero, Nat.mul_one, Nat.sub_self,
          Nat.zero_mul, Nat.mul_zero]
        rw [Nat.sub_mul, Nat.sub_mul, Nat.add_mul, Nat.add_mul]
        ring_nf
        omega
      · simp only [Nat.sub_self, Nat.add_zero, Nat.sub_zero, Nat.pow_zero, Nat.mul_one,
          Nat.zero_mul]
        rw [Nat.sub_mul, Nat.add_mul, Nat.add_mul]
        ring_nf
        omega

/-- One more outstanding bit doubles the settled part and adds half a bit to it. -/
theorem hold_settles (h : e.Wf) :
    e.Keeps e.hold ∧ e.hold.Wf ∧
      (e.hold.Fits → e.Fits ∧ e.hold.depth = e.depth + 1 ∧
        e.hold.settled = 2 * e.settled + 512) := by
  refine ⟨⟨rfl, rfl, rfl, id⟩, ⟨h.bitCount_lt, h.partialByte_lt, h.first, h.length_le⟩, ?_⟩
  intro hfits
  have hroom : e.outstanding + 1 ≤ u64Max := by
    have hdepth := hfits.2
    simp only [depth, hold, length] at hdepth
    omega
  have hcount : e.hold.outstanding = e.outstanding + 1 := min_eq_left hroom
  have hdepth : e.hold.depth = e.depth + 1 := by
    rw [depth, depth, hcount, show e.hold.length = e.length from rfl,
      show e.hold.firstBit = e.firstBit from rfl]
    omega
  have hfitsDepth := hfits.2
  refine ⟨⟨hfits.1, by omega⟩, hdepth, ?_⟩
  have hpos : 0 < 2 ^ e.outstanding := by positivity
  have hless : 1 * 512 ≤ 2 ^ e.outstanding * 512 := Nat.mul_le_mul_right 512 hpos
  rw [settled, settled, hcount, show e.hold.written = e.written from rfl, Nat.pow_succ,
    Nat.sub_mul, Nat.sub_mul]
  ring_nf
  omega

/-! ## The ceiling -/

/-- An encoder under a ceiling: something was left out only if the ceiling was reached. -/
structure Under (limit : Nat) (e : CabacEncoder) : Prop where
  maxBytes : e.maxBytes = limit
  reached : e.overflowed = true → limit ≤ e.out.length

variable {limit : Nat}

theorem Under.writeBit (h : e.Under limit) (b : Nat) : (e.writeBit b).Under limit := by
  rw [CabacEncoder.writeBit]
  by_cases hceiling : e.maxBytes ≤ e.out.length
  · rw [if_pos hceiling]
    exact ⟨h.maxBytes, fun _ => h.maxBytes ▸ hceiling⟩
  · rw [if_neg hceiling]
    dsimp only
    split
    · refine ⟨h.maxBytes, fun hover => ?_⟩
      rw [List.length_append]
      exact Nat.le_add_right_of_le (h.reached hover)
    · exact ⟨h.maxBytes, h.reached⟩

theorem Under.writeOutstanding (h : e.Under limit) (b left : Nat) :
    (writeOutstanding b left e).Under limit := by
  induction left generalizing e with
  | zero => exact ⟨h.maxBytes, h.reached⟩
  | succ left ih =>
      have hbit := h.writeBit (1 - b % 2)
      rw [CabacEncoder.writeOutstanding]
      split
      · exact ⟨hbit.maxBytes, hbit.reached⟩
      · exact ih hbit

theorem Under.putBit (h : e.Under limit) (b : Nat) : (e.putBit b).Under limit := by
  unfold CabacEncoder.putBit
  dsimp only
  split
  · exact Under.writeOutstanding (e := { e with firstBit := false }) ⟨h.maxBytes, h.reached⟩ b _
  · exact (h.writeBit b).writeOutstanding b _

theorem Under.leave (h : e.Under limit) (hleave : e.leave = some e') : e'.Under limit := by
  unfold CabacEncoder.leave at hleave
  split at hleave
  · cases hleave
    exact h.putBit 0
  · split at hleave
    · rcases Option.map_eq_some_iff.1 hleave with ⟨low, -, rfl⟩
      exact Under.putBit (e := { e with low := low }) ⟨h.maxBytes, h.reached⟩ 1
    · rcases Option.map_eq_some_iff.1 hleave with ⟨low, -, rfl⟩
      exact ⟨h.maxBytes, h.reached⟩

theorem Under.renormLoop {fuel : Nat} (h : e.Under limit) (hloop : renormLoop fuel e = some e') :
    e'.Under limit := by
  induction fuel generalizing e with
  | zero => cases hloop
  | succ fuel ih =>
      rw [CabacEncoder.renormLoop] at hloop
      split at hloop
      · rcases Option.bind_eq_some_iff.1 hloop with ⟨e₁, hleave, hloop⟩
        rcases Option.bind_eq_some_iff.1 hloop with ⟨range, -, hloop⟩
        rcases Option.bind_eq_some_iff.1 hloop with ⟨low, -, hloop⟩
        have h₁ := h.leave hleave
        exact ih (e := { e₁ with low := low, range := range }) ⟨h₁.maxBytes, h₁.reached⟩ hloop
      · cases hloop
        exact h

theorem Under.renorm {low range : Nat} (h : e.Under limit)
    (hrenorm : CabacEncoder.renorm { e with low := low, range := range } = some e') :
    e'.Under limit :=
  Under.renormLoop (e := { e with low := low, range := range }) ⟨h.maxBytes, h.reached⟩ hrenorm

theorem Under.encodeDecision {ctx ctx' : ContextModel} {bin : Nat} (h : e.Under limit)
    (hencode : e.encodeDecision ctx bin = some (e', ctx')) : e'.Under limit := by
  unfold CabacEncoder.encodeDecision at hencode
  rcases Option.bind_eq_some_iff.1 hencode with ⟨range, -, hencode⟩
  dsimp only at hencode
  generalize (if bin % 2 = ctx.mps then 0 else 1) = isLps at hencode
  split at hencode
  · rcases Option.bind_eq_some_iff.1 hencode with ⟨low, -, hencode⟩
    rcases Option.bind_eq_some_iff.1 hencode with ⟨e₁, hrenorm, hencode⟩
    cases hencode
    exact h.renorm hrenorm
  · rcases Option.bind_eq_some_iff.1 hencode with ⟨e₁, hrenorm, hencode⟩
    cases hencode
    exact h.renorm hrenorm

theorem Under.encodeBypass {bin : Nat} (h : e.Under limit)
    (hencode : e.encodeBypass bin = some e') : e'.Under limit := by
  unfold CabacEncoder.encodeBypass at hencode
  rcases Option.bind_eq_some_iff.1 hencode with ⟨x, -, hencode⟩
  have hx : Under limit { e with low := x } := ⟨h.maxBytes, h.reached⟩
  dsimp only at hencode
  split at hencode
  · rcases Option.bind_eq_some_iff.1 hencode with ⟨low, -, hencode⟩
    cases hencode
    have hput := hx.putBit 1
    exact ⟨hput.maxBytes, hput.reached⟩
  · split at hencode
    · cases hencode
      exact hx.putBit 0
    · rcases Option.bind_eq_some_iff.1 hencode with ⟨low, -, hencode⟩
      cases hencode
      exact ⟨h.maxBytes, h.reached⟩

theorem Under.encodeTerminate {bin : Nat} (h : e.Under limit)
    (hencode : e.encodeTerminate bin = some e') : e'.Under limit := by
  unfold CabacEncoder.encodeTerminate at hencode
  rcases Option.bind_eq_some_iff.1 hencode with ⟨range, -, hencode⟩
  split at hencode
  · rcases Option.bind_eq_some_iff.1 hencode with ⟨low, -, hencode⟩
    rcases Option.bind_eq_some_iff.1 hencode with ⟨e₁, hrenorm, hencode⟩
    cases hencode
    exact (((h.renorm hrenorm).putBit _).writeBit _).writeBit _
  · exact h.renorm hencode

/-- Output below the ceiling is all there. -/
theorem Under.not_overflowed (h : e.Under limit) (hlt : e.finish.length < limit) :
    e.overflowed = false := by
  have hout : e.out.length ≤ e.finish.length := by
    unfold finish
    split
    · rw [List.length_append]
      exact Nat.le_add_right _ _
    · exact le_refl _
  rcases hover : e.overflowed
  · rfl
  · have hreached := h.reached hover
    omega

/-! ## The cell of an encoder -/

/-- While the output fits, its settled part and the register are the start of the cell. -/
structure Models (e : CabacEncoder) (c : Cell) : Prop where
  wf : e.Wf
  ceiling : e.maxBytes < 2305843009213693952
  range : c.range = e.range
  pos : 0 < e.range
  range_le : e.range ≤ 510
  low_le : e.low + e.range ≤ 1024
  inside : c.low + c.range ≤ 510 * 2 ^ c.depth
  exact : e.Fits → c.low = e.settled + e.low ∧ c.depth = e.depth

variable {c c' : Cell}

theorem Wf.fits (h : e.Wf) (hceiling : e.maxBytes < 2305843009213693952)
    (hover : e.overflowed = false) (hnone : e.outstanding = 0) : e.Fits := by
  have hlength := h.length_le
  refine ⟨hover, ?_⟩
  show e.depth < 18446744073709551615
  rw [depth, hnone]
  split <;> omega

theorem Models.low_lt_of_first (h : e.Models c) (hfits : e.Fits) (hfirst : e.firstBit = true) :
    e.low + e.range < 512 := by
  have hinside := h.inside
  rcases h.exact hfits with ⟨hexact, hcount⟩
  have hstart : e.settled = (2 ^ e.outstanding - 1) * 512 := by
    rw [settled, h.wf.written_of_first hfirst, Nat.zero_mul, Nat.zero_mul, Nat.zero_add]
  have hlength : e.depth = e.outstanding := by
    rw [depth, h.wf.first hfirst, hfirst, if_pos rfl, Nat.zero_add, Nat.add_zero]
  have hpow : 0 < 2 ^ e.outstanding := by positivity
  rw [hcount, hlength, hexact, hstart, h.range, Nat.sub_mul] at hinside
  omega

/-- Putting a bit models a refined cell: the bit and the register make up the doubled
register. -/
theorem Models.put (h : e.Models c) (l low r : Nat) {b : Nat} (hb : b < 2) (hwithin : c'.Within c)
    (hdepth : c'.depth = c.depth + 1) (hrange : c'.range = r)
    (hlow : c'.low + 2 * e.low = 2 * c.low + (low + 1024 * b)) (hpos : 0 < r) (hr : r ≤ 510)
    (hfit : low + r ≤ 1024) :
    Models { putBit { e with low := l } b with low := low, range := r } c' := by
  have hwf := h.wf.with_low l
  rcases putBit_settles hwf hb with ⟨hkeeps, hwf', -, -, hsettles⟩
  refine ⟨{ hwf' with }, ?_, hrange, hpos, hr, hfit, hwithin.inside h.inside, ?_⟩
  · show (putBit { e with low := l } b).maxBytes < 2305843009213693952
    rw [hkeeps.maxBytes]
    exact h.ceiling
  · intro hfits
    rcases hsettles hfits with ⟨hfits₀, hdepth', hsettled⟩
    rcases h.exact hfits₀ with ⟨hexact, hcount⟩
    have hbit : e.firstBit = true → b = 0 := by
      intro hfirst
      have hsmall := h.low_lt_of_first hfits₀ hfirst
      have hhigh := hwithin.le_high
      rw [hdepth, Nat.add_sub_cancel_left, Nat.pow_one, hrange, h.range] at hhigh
      omega
    refine ⟨?_, by rw [hdepth, hcount]; exact hdepth'.symm⟩
    have hsum := hsettled hbit
    have hsame : settled { e with low := l } = e.settled := rfl
    show c'.low = (putBit { e with low := l } b).settled + low
    omega

theorem Models.held (h : e.Models c) (l low r : Nat) (hwithin : c'.Within c)
    (hdepth : c'.depth = c.depth + 1) (hrange : c'.range = r)
    (hlow : c'.low + 2 * e.low = 2 * c.low + (low + 512)) (hpos : 0 < r) (hr : r ≤ 510)
    (hfit : low + r ≤ 1024) :
    Models { hold { e with low := l } with low := low, range := r } c' := by
  have hwf := h.wf.with_low l
  rcases hold_settles hwf with ⟨-, hwf', hsettles⟩
  refine ⟨{ hwf' with }, h.ceiling, hrange, hpos, hr, hfit,
    hwithin.inside h.inside, ?_⟩
  · intro hfits
    rcases hsettles hfits with ⟨hfits₀, hdepth', hsettled⟩
    rcases h.exact hfits₀ with ⟨hexact, hcount⟩
    refine ⟨?_, by rw [hdepth, hcount]; exact hdepth'.symm⟩
    have hsame : settled { e with low := l } = e.settled := rfl
    show c'.low = (hold { e with low := l }).settled + low
    omega

/-- The bit that leaves the register refines the cell. -/
theorem leave_models (h : e.Models c) (hsmall : e.range < 256) :
    ∃ e', e.leave = some e' ∧ e'.range = e.range ∧ e'.low ≤ 512 ∧
      Models { e' with low := 2 * e'.low, range := 2 * e.range } (c.scale 1) := by
  have hlow := h.low_le
  have hpos := h.pos
  have hscale : (c.scale 1).low = 2 * c.low := by
    rw [Cell.scale, Nat.pow_one, Nat.mul_comm]
  have hrange : (c.scale 1).range = 2 * e.range := by
    rw [← h.range, Nat.mul_comm]
    rfl
  have hwithin := c.within_scale 1
  rw [leave]
  by_cases hlower : e.low < 256
  · have hkeeps := (putBit_settles h.wf (b := 0) (by decide)).1
    rw [if_pos hlower]
    refine ⟨_, rfl, hkeeps.range, by rw [hkeeps.low]; omega, ?_⟩
    rw [hkeeps.low]
    exact h.put e.low (2 * e.low) (2 * e.range) (b := 0) (by decide) hwithin rfl hrange (by omega)
      (by omega) (by omega) (by omega)
  · rw [if_neg hlower]
    by_cases hupper : 512 ≤ e.low
    · rw [if_pos hupper, sub_of_le hupper]
      generalize hl : e.low - 512 = l
      have hkeeps := (putBit_settles (h.wf.with_low l) (b := 1) (by decide)).1
      refine ⟨_, rfl, hkeeps.range, by rw [hkeeps.low]; dsimp only; omega, ?_⟩
      rw [hkeeps.low]
      exact h.put l (2 * l) (2 * e.range) (b := 1) (by decide) hwithin rfl hrange (by omega)
        (by omega) (by omega) (by omega)
    · rw [if_neg hupper, sub_of_le (by omega)]
      generalize hl : e.low - 256 = l
      refine ⟨_, rfl, rfl, by show l ≤ 512; omega, ?_⟩
      exact h.held l (2 * l) (2 * e.range) hwithin rfl hrange (by omega) (by omega) (by omega)
        (by omega)

theorem renormLoop_models {fuel : Nat} (h : e.Models c) (hfuel : doublings e.range < fuel) :
    ∃ e', renormLoop fuel e = some e' ∧ e'.Models (c.scale (doublings e.range)) ∧
      e'.range = e.range * 2 ^ doublings e.range := by
  induction fuel generalizing e c with
  | zero => cases hfuel
  | succ fuel ih =>
      rw [renormLoop]
      by_cases hsmall : e.range < 256
      · have hcount := doublings_of_lt h.pos hsmall
        rcases leave_models h hsmall with ⟨e₁, hleave, hrange₁, hlow₁, hmodels⟩
        rcases ih hmodels (by dsimp only; omega) with ⟨e', hloop, hmodels', hrange'⟩
        rw [Cell.scale_scale, Nat.add_comm 1, ← hcount] at hmodels'
        rw [if_pos hsmall, hleave, some_bind, hrange₁, shl32_one (by omega), some_bind,
          shl32_one (by omega), some_bind]
        refine ⟨e', hloop, hmodels', ?_⟩
        rw [hrange', hcount, Nat.pow_succ]
        ring
      · rw [if_neg hsmall, doublings_of_le (not_lt.mp hsmall)]
        refine ⟨e, rfl, ?_, by simp⟩
        simpa [Cell.scale] using h

/-- Renormalising refines the cell until the range is at least 256. -/
theorem renorm_models (h : e.Models c) :
    ∃ e', e.renorm = some e' ∧ e'.Models (c.scale (doublings e.range)) ∧
      e'.range = e.range * 2 ^ doublings e.range ∧ 256 ≤ e'.range := by
  have hpos := h.pos
  have hle := h.range_le
  have hfuel : doublings e.range < 9 := by
    have := Nat.size_pos.mpr hpos
    unfold doublings
    omega
  rcases renormLoop_models h hfuel with ⟨e', hloop, hmodels, hrange⟩
  have hbounds := doublings_bounds hpos (by omega)
  exact ⟨e', hloop, hmodels, hrange, by omega⟩

theorem Models.narrow (h : e.Models c) (base width : Nat) (hpos : 0 < width)
    (hle : base + width ≤ e.range) :
    Models { e with low := e.low + base, range := width } (c.narrow base width) := by
  have hrange := h.range
  have hrange_le := h.range_le
  have hlow := h.low_le
  refine ⟨{ h.wf with }, h.ceiling, rfl, hpos, by dsimp only; omega, by dsimp only; omega,
    (Cell.within_narrow (by omega)).inside h.inside, ?_⟩
  intro hfits
  rcases h.exact hfits with ⟨hexact, hdepth⟩
  refine ⟨?_, hdepth⟩
  show c.low + base = e.settled + (e.low + base)
  omega

/-! ## Operations -/

/-- The cell of a part of the range, renormalised. -/
def refine (c : Cell) (base width : Nat) : Cell :=
  (c.narrow base width).scale (doublings width)

theorem refine_within {base width : Nat} (h : base + width ≤ c.range) :
    (refine c base width).Within c :=
  (Cell.within_scale _ _).trans (Cell.within_narrow h)

theorem renorm_narrow (h : e.Models c) (base width : Nat) (hpos : 0 < width)
    (hle : base + width ≤ e.range) :
    ∃ e', renorm { e with low := e.low + base, range := width } = some e' ∧
      e'.Models (refine c base width) ∧ 256 ≤ e'.range := by
  rcases renorm_models (h.narrow base width hpos hle) with ⟨e', hrenorm, hmodels, -, hrange⟩
  exact ⟨e', hrenorm, hmodels, hrange⟩

theorem encodeDecision_mps (h : e.Models c) (hrange : 256 ≤ e.range) {ctx : ContextModel}
    (hctx : ctx.Valid) {bin : Nat} (hbin : bin % 2 = ctx.mps) :
    ∃ e', e.encodeDecision ctx bin = some (e', ctx.next 0) ∧
      e'.Models (refine c 0 (e.range - ctx.lps e.range)) ∧ 256 ≤ e'.range := by
  have hlps := ContextModel.lps_bounds hctx e.range
  rcases renorm_narrow h 0 (e.range - ctx.lps e.range) (by omega) (by omega)
    with ⟨e', hrenorm, hmodels, hrange'⟩
  refine ⟨e', ?_, hmodels, hrange'⟩
  rw [encodeDecision, sub_of_le (by omega), some_bind]
  dsimp only
  rw [if_pos hbin, if_neg (by decide)]
  exact congrArg (fun x => x >>= fun e => some (e, ctx.next 0)) hrenorm

theorem encodeDecision_lps (h : e.Models c) (hrange : 256 ≤ e.range) {ctx : ContextModel}
    (hctx : ctx.Valid) {bin : Nat} (hbin : bin % 2 ≠ ctx.mps) :
    ∃ e', e.encodeDecision ctx bin = some (e', ctx.next 1) ∧
      e'.Models (refine c (e.range - ctx.lps e.range) (ctx.lps e.range)) ∧ 256 ≤ e'.range := by
  have hlps := ContextModel.lps_bounds hctx e.range
  have hlow := h.low_le
  rcases renorm_narrow h (e.range - ctx.lps e.range) (ctx.lps e.range) (by omega)
    (by omega) with ⟨e', hrenorm, hmodels, hrange'⟩
  refine ⟨e', ?_, hmodels, hrange'⟩
  rw [encodeDecision, sub_of_le (by omega), some_bind]
  dsimp only
  rw [if_neg hbin, if_pos rfl, add32_of_lt (by omega), some_bind]
  exact congrArg (fun x => x >>= fun e => some (e, ctx.next 1)) hrenorm

theorem with_range {low range : Nat} (h : e.range = range) :
    { e with low := low, range := range } = { e with low := low } := by
  subst h
  rfl

theorem with_low {low : Nat} (h : e.low = low) : { e with low := low } = e := by
  subst h
  rfl

/-- The cell of a bypass bin. -/
def refineBypass (c : Cell) (bin : Nat) : Cell :=
  (c.scale 1).narrow (bin * c.range) c.range

theorem refineBypass_within {bin : Nat} (hbin : bin < 2) : (refineBypass c bin).Within c := by
  have hdouble : (c.scale 1).range = c.range * 2 := by
    rw [Cell.scale, Nat.pow_one]
  refine Cell.Within.trans (Cell.within_narrow ?_) (c.within_scale 1)
  rw [hdouble]
  rcases (by omega : bin = 0 ∨ bin = 1) with rfl | rfl <;> omega

/-- A bypass bin keeps one half of the refined cell. -/
theorem encodeBypass_models (h : e.Models c) (hrange : 256 ≤ e.range) {bin : Nat}
    (hbin : bin < 2) :
    ∃ e', e.encodeBypass bin = some e' ∧ e'.Models (refineBypass c bin) ∧ 256 ≤ e'.range := by
  have hlow := h.low_le
  have hpos := h.pos
  have hle := h.range_le
  have hcell := h.range
  have hwithin := refineBypass_within (c := c) hbin
  have hcellRange : (refineBypass c bin).range = e.range := hcell
  have hcellLow : (refineBypass c bin).low = c.low * 2 ^ 1 + bin * c.range := rfl
  rw [Nat.pow_one, hcell] at hcellLow
  have hbound : bin * e.range ≤ e.range := by
    rcases (by omega : bin = 0 ∨ bin = 1) with rfl | rfl <;> omega
  have hshifted : e.bypassLow bin = some (2 * e.low + bin * e.range) := by
    rw [bypassLow, shl32_one (by omega), Option.bind_some]
    rcases (by omega : bin = 0 ∨ bin = 1) with rfl | rfl
    · rw [if_neg (by decide), Nat.zero_mul, Nat.add_zero]
    · rw [if_pos (by decide), add32_of_lt (by omega), Nat.one_mul]
  rw [encodeBypass, hshifted, some_bind]
  generalize hx : 2 * e.low + bin * e.range = x
  have hwf := h.wf.with_low x
  by_cases hupper : 1024 ≤ x
  · have hkeeps := (putBit_settles hwf (b := 1) (by decide)).1
    rw [if_pos hupper, sub_of_le hupper, some_bind]
    generalize hl : x - 1024 = l
    refine ⟨{ putBit { e with low := x } 1 with low := l }, rfl, ?_, ?_⟩
    · have hmodels := h.put x l e.range (b := 1) (by decide) hwithin rfl
        hcellRange (by omega) hpos hle (by omega)
      rwa [with_range hkeeps.range] at hmodels
    · show 256 ≤ (putBit { e with low := x } 1).range
      rw [hkeeps.range]
      exact hrange
  · rw [if_neg hupper]
    by_cases hlower : x < 512
    · have hkeeps := (putBit_settles hwf (b := 0) (by decide)).1
      rw [if_pos hlower]
      refine ⟨_, rfl, ?_, by rw [hkeeps.range]; exact hrange⟩
      have hmodels := h.put x x e.range (b := 0) (by decide) hwithin rfl
        hcellRange (by omega) hpos hle (by omega)
      rwa [with_range hkeeps.range, with_low hkeeps.low] at hmodels
    · rw [if_neg hlower, sub_of_le (not_lt.mp hlower), some_bind]
      generalize hl : x - 512 = l
      refine ⟨_, rfl, ?_, hrange⟩
      exact h.held l l e.range hwithin rfl hcellRange (by omega) hpos hle
        (by omega)

theorem encodeTerminate_zero (h : e.Models c) (hrange : 256 ≤ e.range) :
    ∃ e', e.encodeTerminate 0 = some e' ∧ e'.Models (refine c 0 (e.range - 2)) ∧
      256 ≤ e'.range := by
  rcases renorm_narrow h 0 (e.range - 2) (by omega) (by omega) with
    ⟨e', hrenorm, hmodels, hrange'⟩
  refine ⟨e', ?_, hmodels, hrange'⟩
  rw [encodeTerminate, sub_of_le (by omega), some_bind, if_neg (by decide)]
  exact hrenorm

/-- The flush writes one of the last two numbers of the range, with nine digits more than
have left the register. -/
theorem encodeTerminate_one (h : e.Models c) (hrange : 256 ≤ e.range) :
    ∃ e', e.encodeTerminate 1 = some e' ∧ e'.Wf ∧ e'.maxBytes < 2305843009213693952 ∧
      (e'.overflowed = false →
        c.low + (c.range - 2) ≤ e'.written ∧ e'.written < c.low + c.range ∧
          e'.length = 9 + c.depth) := by
  have hlow := h.low_le
  have hcell := h.range
  rcases renorm_models (h.narrow (e.range - 2) 2 (by decide) (by omega)) with
    ⟨e₁, hrenorm, hmodels, hrange₁, -⟩
  have hseven : doublings 2 = 7 := by decide
  dsimp only at hmodels hrange₁
  rw [hseven] at hmodels hrange₁
  have hlow₁ := hmodels.low_le
  generalize hb : e₁.low / 512 % 2 = b
  generalize hq : e₁.low / 128 % 4 ||| 1 = two
  have htwo : two = e₁.low / 128 % 4 / 2 * 2 + 1 := by
    have hfour : e₁.low / 128 % 4 < 4 := by omega
    generalize e₁.low / 128 % 4 = q at hq hfour ⊢
    rw [← hq]
    interval_cases q <;> rfl
  rcases putBit_settles hmodels.wf (b := b) (by omega) with
    ⟨hkeeps, hwf₂, hnone, hfirst, hsettles⟩
  rcases writeBit_keeps (e₁.putBit b) (two / 2) with ⟨hkeeps₃, -, hfirst₃⟩
  rcases writeBit_eq hwf₂ hfirst (b := two / 2) (by omega) with ⟨hwf₃, hthird⟩
  rcases writeBit_keeps ((e₁.putBit b).writeBit (two / 2)) (two % 2) with ⟨hkeeps₄, -, -⟩
  rcases writeBit_eq hwf₃ (hfirst₃.trans hfirst) (b := two % 2) (by omega) with ⟨hwf₄, hfourth⟩
  have hceiling : (e₁.putBit b).maxBytes < 2305843009213693952 := by
    rw [hkeeps.maxBytes]
    exact hmodels.ceiling
  refine ⟨((e₁.putBit b).writeBit (two / 2)).writeBit (two % 2), ?_, hwf₄, ?_, ?_⟩
  · have hflush : flush { e with range := e.range - 2, low := e.low + (e.range - 2) } =
        some (((e₁.putBit b).writeBit (two / 2)).writeBit (two % 2)) := by
      rw [flush, hrenorm, some_bind, hb]
      dsimp only
      rw [hkeeps.low, hq]
    rw [encodeTerminate, sub_of_le (by omega), some_bind, if_pos (by decide),
      add32_of_lt (by omega), some_bind]
    exact hflush
  · rw [hkeeps₄.maxBytes, hkeeps₃.maxBytes]
    exact hceiling
  · intro hover
    have hover₃ := hkeeps₄.overflowed hover
    have hover₂ := hkeeps₃.overflowed hover₃
    rcases hfourth hover with ⟨hwritten₄, hlength₄⟩
    rcases hthird hover₃ with ⟨hwritten₃, hlength₃⟩
    rcases hsettles (hwf₂.fits hceiling hover₂ hnone) with ⟨hfits, hdepth, hsettled⟩
    rcases hmodels.exact hfits with ⟨hexact, hcount⟩
    have hsum := hsettled fun hone => by
      have := hmodels.low_lt_of_first hfits hone
      omega
    rw [settled, hnone, Nat.pow_zero, Nat.sub_self, Nat.zero_mul, Nat.add_zero, Nat.mul_one] at hsum
    rw [depth, hnone, hfirst, if_neg (by decide), ← hcount] at hdepth
    have hstart : ((c.narrow (e.range - 2) 2).scale 7).low = (c.low + (e.range - 2)) * 128 := rfl
    have hdigits : ((c.narrow (e.range - 2) 2).scale 7).depth = c.depth + 7 := rfl
    rw [hstart] at hexact
    rw [hcell]
    omega

/-- The finished bytes begin with the written bits. -/
theorem Wf.number_finish (h : e.Wf) :
    number (ofBytes e.finish) 0 e.length = e.written ∧ e.length ≤ 8 * e.finish.length ∧
      8 * e.finish.length < e.length + 8 := by
  have hcount := h.bitCount_lt
  have hbyte := h.partialByte_lt
  rw [finish, length]
  by_cases hpending : 0 < e.bitCount
  · rw [if_pos hpending, List.length_append, List.length_singleton]
    refine ⟨?_, by omega, by omega⟩
    have hwhole := numberOf_concat e.out (e.partialByte <<< (8 - e.bitCount))
    have hsplit := number_add (ofBytes (e.out ++ [e.partialByte <<< (8 - e.bitCount)])) 0
      (8 * e.out.length + e.bitCount) (8 - e.bitCount)
    have hrest := number_lt (ofBytes (e.out ++ [e.partialByte <<< (8 - e.bitCount)]))
      (0 + (8 * e.out.length + e.bitCount)) (8 - e.bitCount)
    have hcard : 2 ^ e.bitCount * 2 ^ (8 - e.bitCount) = 256 := by
      rw [← Nat.pow_add, Nat.add_sub_cancel' (by omega)]
    have hfit : e.partialByte.toNat * 2 ^ (8 - e.bitCount) < 256 := by
      rw [← hcard]
      exact Nat.mul_lt_mul_of_pos_right hbyte (by positivity)
    have hvalue : (e.partialByte <<< (8 - e.bitCount)).toNat =
        e.partialByte.toNat * 2 ^ (8 - e.bitCount) := by
      rw [BitVec.toNat_shiftLeft, Nat.shiftLeft_eq, Nat.mod_eq_of_lt (by omega)]
    rw [numberOf, List.length_append, List.length_singleton,
      show 8 * (e.out.length + 1) = 8 * e.out.length + e.bitCount + (8 - e.bitCount) by omega,
      hsplit, hvalue, ← hcard, ← Nat.mul_assoc, ← Nat.add_mul] at hwhole
    have hpos : 0 < 2 ^ (8 - e.bitCount) := by positivity
    have hdiv := congrArg (· / 2 ^ (8 - e.bitCount)) hwhole
    beta_reduce at hdiv
    rw [Nat.mul_comm, Nat.mul_add_div hpos, Nat.div_eq_of_lt hrest, Nat.add_zero,
      Nat.mul_div_cancel _ hpos] at hdiv
    rw [hdiv, written]
  · have hzero : e.bitCount = 0 := by omega
    rw [if_neg hpending, written, hzero]
    rw [hzero] at hbyte
    refine ⟨?_, by omega, by omega⟩
    rw [Nat.add_zero, Nat.pow_zero, Nat.mul_one, numberOf]
    omega

end CabacEncoder

end Codec
end Vaco
