import Vaco.Ffv1.EntropySamples

/-!
# Runs of the entropy decoders of FFV1

A run begins with fresh contexts and goes from slice to slice: a slice brings its bytes, its
planes are allocated, and then symbols and lines are decoded in either mode, in any order.  The
contexts stay from slice to slice.

Main results:

- `entropyStep_exact`: one call.
- `decoding_exact`: every run ends, and when it stays in machine words.
-/

namespace Vaco
namespace Ffv1

open Library.BitStream (Bytes)
open Vaco.Bitstream (BitReader Slice)

/-- What a stream fixes: the state transition table and the bits of a sample. -/
structure EntropySetup where
  table : StateTransition
  bits : Nat
  bits_pos : 1 ≤ bits
  bits_le : bits ≤ 16

structure EntropyState (κ : Type) where
  dec : RangeDecoder
  reader : BitReader
  symbols : κ → SymbolStates
  rices : κ → RiceState
  rangeStates : κ → List SymbolStates
  riceStates : κ → List RiceState
  runs : κ → RunState
  planes : κ → SliceBuf

/-- One call. -/
inductive EntropyCall (κ : Type) where
  | openSlice (data : Bytes) (golomb : Slice)
  | allocPlane (plane : κ) (w h : Nat)
  | newRun (run : κ)
  | resetContexts
  | getSymbol (ctx : κ) (signed : Bool)
  | getVlcSymbol (ctx : κ)
  | lineRange (qts : QuantTableSet) (slot plane : κ) (y : Nat)
  | lineGolomb (qts : QuantTableSet) (slot run plane : κ) (y : Nat)

namespace EntropyState

variable {κ : Type}

/-- Forget what the contexts have learned. -/
def resetContexts (s : EntropyState κ) : EntropyState κ :=
  { s with
    symbols := fun _ => freshStates
    rices := fun _ => .fresh
    rangeStates := fun _ => []
    riceStates := fun _ => [] }

def start (κ : Type) (data : Bytes) (golomb : Slice) : EntropyState κ where
  dec := .new data
  reader := .new golomb
  symbols := fun _ => freshStates
  rices := fun _ => .fresh
  rangeStates := fun _ => []
  riceStates := fun _ => []
  runs := fun _ => .new
  planes := fun _ => ⟨0, 0, []⟩

/-- A line for the range coder. -/
def rangeLine (s : EntropyState κ) (slot plane : κ) : RangeLine :=
  ⟨s.dec, s.rangeStates slot, s.planes plane⟩

/-- A line for the Golomb-Rice mode. -/
def golombLine (s : EntropyState κ) (slot run plane : κ) : GolombLine :=
  ⟨s.reader, s.riceStates slot, s.runs run, s.planes plane⟩

variable [DecidableEq κ]

/-- Put a line of the range coder back. -/
def withRangeLine (s : EntropyState κ) (slot plane : κ) (line : RangeLine) : EntropyState κ :=
  { s with
    dec := line.dec
    rangeStates := Function.update s.rangeStates slot line.states
    planes := Function.update s.planes plane line.buf }

/-- Put a line of the Golomb-Rice mode back. -/
def withGolombLine (s : EntropyState κ) (slot run plane : κ) (line : GolombLine) :
    EntropyState κ :=
  { s with
    reader := line.reader
    riceStates := Function.update s.riceStates slot line.states
    runs := Function.update s.runs run line.run
    planes := Function.update s.planes plane line.buf }

end EntropyState

section Runs

variable {κ : Type} [DecidableEq κ]

/-- Perform one call. -/
def entropyStep (setup : EntropySetup) (s : EntropyState κ) :
    EntropyCall κ → Except Fault (EntropyState κ)
  | .openSlice data golomb => .ok { s with dec := .new data, reader := .new golomb }
  | .allocPlane plane w h =>
      .ok { s with
        planes := Function.update s.planes plane ⟨w, h, List.replicate (w * h) 0⟩ }
  | .newRun run => .ok { s with runs := Function.update s.runs run .new }
  | .resetContexts => .ok s.resetContexts
  | .getSymbol ctx signed =>
      s.dec.getSymbol (s.symbols ctx) setup.table signed >>= fun read =>
        .ok { s with dec := read.1, symbols := Function.update s.symbols ctx read.2.1 }
  | .getVlcSymbol ctx =>
      (s.rices ctx).getVlcSymbol s.reader setup.bits >>= fun read =>
        .ok { s with reader := read.1, rices := Function.update s.rices ctx read.2.1 }
  | .lineRange qts slot plane y =>
      decodeLineRange setup.table qts setup.bits (s.rangeLine slot plane) y >>= fun line =>
        .ok (s.withRangeLine slot plane line)
  | .lineGolomb qts slot run plane y =>
      decodeLineGolomb qts setup.bits (s.golombLine slot run plane) y >>= fun line =>
        .ok (s.withGolombLine slot run plane line)

/-- The symbol of a call fits, or every sample of its line that is reached does. -/
def CallFits (setup : EntropySetup) (s : EntropyState κ) : EntropyCall κ → Prop
  | .getSymbol ctx _ => s.dec.SymbolFits (s.symbols ctx) setup.table
  | .getVlcSymbol ctx => (s.rices ctx).VlcFits s.reader setup.bits
  | .lineRange qts slot plane y =>
      (s.rangeLine slot plane).LineFits setup.table qts setup.bits y
  | .lineGolomb qts slot run plane y => (s.golombLine slot run plane).LineFits qts setup.bits y
  | _ => True

/-- What holds between two calls. -/
structure EntropySound (setup : EntropySetup) (s : EntropyState κ) : Prop where
  range_le : s.dec.range ≤ 65280
  rices : ∀ ctx, (s.rices ctx).Valid
  riceStates : ∀ slot, ∀ rs ∈ s.riceStates slot, rs.Valid
  runs : ∀ run, (s.runs run).Valid
  planes : ∀ plane, (s.planes plane).Bounded setup.bits

theorem forall_update {α : Type} {P : α → Prop} {f : κ → α} (h : ∀ k, P (f k)) (k : κ) {a : α}
    (ha : P a) (k' : κ) : P (Function.update f k a k') := by
  rw [Function.update_apply]
  split
  · exact ha
  · exact h k'

omit [DecidableEq κ] in
theorem entropySound_start (setup : EntropySetup) (data : Bytes) (golomb : Slice) :
    EntropySound setup (EntropyState.start κ data golomb) where
  range_le := le_refl 65280
  rices := fun _ => RiceState.valid_fresh
  riceStates := fun _ rs hrs => by cases hrs
  runs := fun _ => RunState.valid_new
  planes := fun _ v hv => by cases hv

/-- Every call settles, or overflows where it does not meet its condition. -/
theorem entropyStep_exact (setup : EntropySetup) (s : EntropyState κ) (call : EntropyCall κ)
    (h : EntropySound setup s) :
    Exact (EntropySound setup) (CallFits setup s call) (entropyStep setup s call) := by
  have hpos := setup.bits_pos
  have hbits := setup.bits_le
  cases call with
  | openSlice data golomb =>
      exact exact_ok ⟨le_refl 65280, h.rices, h.riceStates, h.runs, h.planes⟩
  | allocPlane plane w height =>
      have hzeros : SliceBuf.Bounded ⟨w, height, List.replicate (w * height) 0⟩ setup.bits := by
        intro v hv
        rw [List.eq_of_mem_replicate hv]
        exact ⟨le_refl 0, by positivity⟩
      exact exact_ok ⟨h.range_le, h.rices, h.riceStates, h.runs,
        forall_update (P := fun b => SliceBuf.Bounded b setup.bits) h.planes plane hzeros⟩
  | newRun run =>
      exact exact_ok ⟨h.range_le, h.rices, h.riceStates,
        forall_update h.runs run RunState.valid_new, h.planes⟩
  | resetContexts =>
      refine exact_ok ⟨h.range_le, fun _ => RiceState.valid_fresh, ?_, h.runs, h.planes⟩
      intro slot rs hrs
      cases hrs
  | getSymbol ctx signed =>
      refine ((RangeDecoder.getSymbol_exact s.dec (s.symbols ctx) setup.table signed).bind
        (fun read _ hread => exact_ok ?_)).congr ?_
      · exact ⟨RangeDecoder.getSymbol_range_le h.range_le hread, h.rices, h.riceStates, h.runs,
          h.planes⟩
      · exact ⟨fun hboth => hboth.1, fun hfits => ⟨hfits, fun _ _ => trivial⟩⟩
  | getVlcSymbol ctx =>
      refine (vlc_exact (h.rices ctx) s.reader hpos hbits false).map _ ?_
      rintro ⟨reader, rs, v⟩ ⟨hvalid, -, -⟩
      exact ⟨h.range_le, forall_update h.rices ctx hvalid, h.riceStates, h.runs, h.planes⟩
  | lineRange qts slot plane y =>
      have hline : (s.rangeLine slot plane).Sound setup.bits := ⟨h.range_le, h.planes plane⟩
      refine (decodeLineRange_exact setup.table qts hpos hbits y hline).map _ ?_
      intro line hsound
      exact ⟨hsound.range_le, h.rices, h.riceStates, h.runs,
        forall_update (P := fun b => SliceBuf.Bounded b setup.bits) h.planes plane
          hsound.bounded⟩
  | lineGolomb qts slot run plane y =>
      have hline : (s.golombLine slot run plane).Sound setup.bits :=
        ⟨h.planes plane, h.riceStates slot, h.runs run⟩
      refine (decodeLineGolomb_exact qts hpos hbits y hline).map _ ?_
      intro line hsound
      exact ⟨h.range_le, h.rices,
        forall_update (P := fun states : List RiceState => ∀ rs ∈ states, rs.Valid) h.riceStates slot
          hsound.states,
        forall_update h.runs run hsound.run,
        forall_update (P := fun b => SliceBuf.Bounded b setup.bits) h.planes plane
          hsound.bounded⟩

/-- A run of calls, from fresh contexts. -/
def entropyRun (setup : EntropySetup) (data : Bytes) (golomb : Slice)
    (calls : List (EntropyCall κ)) : Except Fault (EntropyState κ) :=
  calls.foldlM (entropyStep setup) (EntropyState.start κ data golomb)

theorem entropyRun_exact (setup : EntropySetup) (data : Bytes) (golomb : Slice)
    (calls : List (EntropyCall κ)) :
    Exact (EntropySound setup)
      (Fitting (entropyStep setup) (CallFits setup) (EntropyState.start κ data golomb) calls)
      (entropyRun setup data golomb calls) :=
  fitting_exact (entropyStep_exact setup) (entropySound_start setup data golomb) calls

/-- Every run ends, and stays in machine words exactly when every call that it reaches meets its
condition. -/
theorem decoding_exact (setup : EntropySetup) (data : Bytes) (golomb : Slice)
    (calls : List (EntropyCall κ)) :
    entropyRun setup data golomb calls ≠ .error .outOfFuel ∧
      (InWords (entropyRun setup data golomb calls) ↔
        Fitting (entropyStep setup) (CallFits setup) (EntropyState.start κ data golomb) calls) :=
  (entropyRun_exact setup data golomb calls).inWords

end Runs

/-! ## Bytes that overflow -/

/-- The table of a stream without a delta, and samples of eight bits. -/
def defaultSetup : EntropySetup where
  table := .defaultTable
  bits := 8
  bits_pos := Nat.le_of_ble_eq_true rfl
  bits_le := Nat.le_of_ble_eq_true rfl

/-- Bytes whose first number has an exponent of nothing but ones. -/
def onesData : Bytes :=
  [127, 127] ++ List.replicate 62 255

/-- No bytes for the Golomb-Rice mode. -/
def noBytes : Slice where
  bytes := []
  length_lt := Nat.le_of_ble_eq_true rfl

/-- The first number of the bytes, a field of a slice header, overflows. -/
theorem exponent_overflows :
    ¬InWords (entropyRun defaultSetup onesData noBytes [EntropyCall.getSymbol () false]) := by
  have hsymbol : (RangeDecoder.new onesData).getSymbol freshStates .defaultTable false =
      .error .overflow := by
    decide +kernel
  have hrun : entropyRun defaultSetup onesData noBytes [EntropyCall.getSymbol () false] =
      .error .overflow := by
    rw [entropyRun, List.foldlM_cons, entropyStep]
    have hstart : (EntropyState.start Unit onesData noBytes).dec.getSymbol
        ((EntropyState.start Unit onesData noBytes).symbols ()) defaultSetup.table false =
          .error .overflow := hsymbol
    rw [hstart]
    rfl
  rw [hrun]
  exact fun hwords => hwords.1 rfl

end Ffv1
end Vaco
