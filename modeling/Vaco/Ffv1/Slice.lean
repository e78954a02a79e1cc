import Vaco.Ffv1.Rice

/-!
# Sample buffers and lines of FFV1

A slice has a buffer of samples for each plane.  A line is coded sample by sample: the neighbours
give a context and a prediction, and the difference to the prediction is coded, reduced to the
bits of a sample.

Main results:

- `neighbours_bounded`: the neighbours of bounded samples are bounded.
-/

namespace Vaco
namespace Ffv1

open Vaco.Bitstream (BitReader)
open Vaco.Core (Error)

/-! ## Buffers -/

/-- The samples of one plane of a slice, row by row. -/
structure SliceBuf where
  w : Nat
  h : Nat
  data : List Int
deriving DecidableEq

namespace SliceBuf

/-- The sample at a place. -/
def get (b : SliceBuf) (x y : Nat) : Int :=
  (b.data[y * b.w + x]?).getD 0

/-- Set the sample at a place. -/
def set (b : SliceBuf) (x y : Nat) (v : Int) : SliceBuf :=
  { b with data := b.data.set (y * b.w + x) v }

/-- The sample at a place that may lie on the border. -/
def border (b : SliceBuf) (x y : Int) : Int :=
  if y < 0 then
    0
  else if x ≤ -2 then
    0
  else if x = -1 then
    if y = 0 then 0 else b.get 0 (y.toNat - 1)
  else if x.toNat < b.w then
    b.get x.toNat y.toNat
  else
    b.get (b.w - 1) y.toNat

/-- The neighbours of a sample. -/
def neighbours (b : SliceBuf) (x y : Nat) : Neighbours where
  l := b.border ((x : Int) - 1) y
  t := b.border x ((y : Int) - 1)
  tl := b.border ((x : Int) - 1) ((y : Int) - 1)
  tr := b.border ((x : Int) + 1) ((y : Int) - 1)
  ll := b.border ((x : Int) - 2) y
  tt := b.border x ((y : Int) - 2)

/-- The samples of a buffer have a number of bits. -/
def Bounded (b : SliceBuf) (bits : Nat) : Prop :=
  ∀ v ∈ b.data, 0 ≤ v ∧ v < 2 ^ bits

variable {b : SliceBuf} {bits : Nat}

theorem Bounded.get (h : b.Bounded bits) (x y : Nat) : 0 ≤ b.get x y ∧ b.get x y < 2 ^ bits := by
  rw [SliceBuf.get]
  cases hsample : b.data[y * b.w + x]? with
  | none => exact ⟨le_refl 0, by positivity⟩
  | some v => exact h v (List.mem_of_getElem? hsample)

theorem Bounded.set (h : b.Bounded bits) (x y : Nat) {v : Int} (hv : 0 ≤ v ∧ v < 2 ^ bits) :
    (b.set x y v).Bounded bits := by
  intro u hu
  rcases List.mem_or_eq_of_mem_set hu with hu | rfl
  · exact h u hu
  · exact hv

theorem Bounded.border (h : b.Bounded bits) (x y : Int) :
    0 ≤ b.border x y ∧ b.border x y < 2 ^ bits := by
  have hzero : (0 : Int) ≤ 0 ∧ (0 : Int) < 2 ^ bits := ⟨le_refl 0, by positivity⟩
  rw [SliceBuf.border]
  split_ifs
  · exact hzero
  · exact hzero
  · exact hzero
  · exact h.get _ _
  · exact h.get _ _
  · exact h.get _ _

/-- The neighbours of bounded samples are bounded. -/
theorem neighbours_bounded (h : b.Bounded bits) (x y : Nat) : (b.neighbours x y).Bounded bits where
  l := h.border ((x : Int) - 1) y
  t := h.border x ((y : Int) - 1)
  tl := h.border ((x : Int) - 1) ((y : Int) - 1)
  tr := h.border ((x : Int) + 1) ((y : Int) - 1)
  ll := h.border ((x : Int) - 2) y
  tt := h.border x ((y : Int) - 2)

end SliceBuf

/-! ## Differences -/

/-- Reduce a sample to a number of bits. -/
def wrapSample (v : Int) (bits : Nat) : Int :=
  if bits = 0 ∨ 32 ≤ bits then v else v % 2 ^ bits

theorem wrapSample_bounds (v : Int) {bits : Nat} (hpos : 1 ≤ bits) (hlt : bits < 32) :
    0 ≤ wrapSample v bits ∧ wrapSample v bits < 2 ^ bits := by
  have hpow : (0 : Int) < 2 ^ bits := by positivity
  rw [wrapSample, if_neg (by omega)]
  exact ⟨Int.emod_nonneg v hpow.ne', Int.emod_lt_of_pos v hpow⟩

/-! ## Lines -/

/-- The error of a context that the table set does not have. -/
def contextOutOfRange : Fault :=
  .error (.invalidData "ffv1: context out of range")

/-- The context of a sample, whether its difference is flipped, and its prediction. -/
def predict (qts : QuantTableSet) (n : Neighbours) : Except Fault (Nat × Bool × Int) := do
  let (ctx, flip) ← qts.computeContext n
  let pred ← medianPredictor n.l n.t n.tl
  .ok (ctx, flip, pred)

/-- The difference with its sign flipped back or forth. -/
def flipped (flip : Bool) (diff : Int) : Except Fault Int :=
  if flip then i32Checked (-diff) else .ok diff

/-- A line on its way through the range decoder. -/
structure RangeLine where
  dec : RangeDecoder
  states : List SymbolStates
  buf : SliceBuf
deriving DecidableEq

namespace RangeLine

/-- Decode one sample with the range coder. -/
def sample (table : StateTransition) (qts : QuantTableSet) (bits y : Nat) (s : RangeLine)
    (x : Nat) : Except Fault RangeLine := do
  let n := s.buf.neighbours x y
  let (ctx, flip) ← qts.computeContext n
  match s.states[ctx]? with
  | none => .error contextOutOfRange
  | some st => do
      let (dec, st, diff) ← s.dec.getSymbol st table true
      let diff ← flipped flip diff
      let pred ← medianPredictor n.l n.t n.tl
      let sum ← i32Checked (pred + diff)
      .ok ⟨dec, s.states.set ctx st, s.buf.set x y (wrapSample sum bits)⟩

end RangeLine

/-- The states of the contexts, as many as the table set has. -/
def grown {α : Type} (states : List α) (count : Nat) (fresh : α) : List α :=
  states ++ List.replicate (count - states.length) fresh

/-- Decode one line with the range coder. -/
def decodeLineRange (table : StateTransition) (qts : QuantTableSet) (bits : Nat) (s : RangeLine)
    (y : Nat) : Except Fault RangeLine :=
  (List.range s.buf.w).foldlM (RangeLine.sample table qts bits y)
    { s with states := grown s.states qts.contextCount freshStates }

structure GolombLine where
  reader : BitReader
  states : List RiceState
  run : RunState
  buf : SliceBuf

namespace GolombLine

/-- Decode a symbol, or the level behind a run. -/
def symbolOrLevel (rs : RiceState) (reader : BitReader) (bits : Nat) (inRun : Bool) :
    Except Fault (BitReader × RiceState × Int) :=
  if inRun then decodeLevel rs reader bits else rs.getVlcSymbol reader bits

/-- Decode the difference of a sample; it is zero where a run covers the sample. -/
def difference (bits : Nat) (s : GolombLine) (ctx : Nat) (inRun covers : Bool) :
    Except Fault (GolombLine × Int) :=
  if covers then
    .ok (s, 0)
  else
    match s.states[ctx]? with
    | none => .error contextOutOfRange
    | some rs => do
        let (reader, rs, diff) ← symbolOrLevel rs s.reader bits inRun
        .ok ({ s with reader := reader, states := s.states.set ctx rs }, diff)

/-- Advance the run to a sample: whether a run is going on, and whether it covers the sample. -/
def advance (s : GolombLine) (ctx x : Nat) : Except Fault (GolombLine × Bool × Bool) :=
  let run := s.run.enterIfZeroContext ctx
  if run.inRun then do
    let (reader, run, covers) ← run.nextSample s.reader x s.buf.w
    .ok ({ s with reader := reader, run := run }, true, covers)
  else
    .ok ({ s with run := run }, false, false)

/-- Decode one sample in the Golomb-Rice mode. -/
def sample (qts : QuantTableSet) (bits y : Nat) (s : GolombLine) (x : Nat) :
    Except Fault GolombLine := do
  let (ctx, flip, pred) ← predict qts (s.buf.neighbours x y)
  let (s, inRun, covers) ← s.advance ctx x
  let (s, diff) ← s.difference bits ctx inRun covers
  let diff ← flipped flip diff
  let sum ← i32Checked (pred + diff)
  .ok { s with buf := s.buf.set x y (wrapSample sum bits) }

end GolombLine

/-- Decode one line in the Golomb-Rice mode. -/
def decodeLineGolomb (qts : QuantTableSet) (bits : Nat) (s : GolombLine) (y : Nat) :
    Except Fault GolombLine :=
  (List.range s.buf.w).foldlM (GolombLine.sample qts bits y)
    { s with
      states := grown s.states qts.contextCount RiceState.fresh
      run := s.run.beginLine }

/-! ## Predictions -/

/-- The prediction of a sample. -/
def Neighbours.prediction (n : Neighbours) : Int :=
  medianOf n.l n.t (n.l + n.t - n.tl)

theorem predict_eq (qts : QuantTableSet) {n : Neighbours} {bits : Nat} (hbits : bits ≤ 16)
    (h : n.Bounded bits) :
    predict qts n =
      .ok ((qts.rawContext n).natAbs, decide (qts.rawContext n < 0), n.prediction) := by
  rw [predict, computeContext_eq qts hbits h, ok_bind]
  dsimp only
  rw [medianPredictor_eq hbits h, ok_bind]
  rfl

theorem prediction_bounds {n : Neighbours} {bits : Nat} (h : n.Bounded bits) :
    0 ≤ n.prediction ∧ n.prediction < 2 ^ bits := by
  have hmedian := medianOf_bounds n.l n.t (n.l + n.t - n.tl)
  have hl := h.l
  have ht := h.t
  rw [Neighbours.prediction]
  omega

end Ffv1
end Vaco
