import Vaco.Ffv1.RangeRoundTrip

/-!
# Sequences of the range coder of FFV1

Bits and numbers are written in the contexts of a bank, the terminator is written and the bytes
are taken.  A decoder on the bytes makes the mirrored calls.

Main results:

- `rangeOp_follows`: every write comes back.
- `range_round_trips`: so does every sequence of writes.
-/

namespace Vaco
namespace Ffv1

open Library BitStream Checked IntervalCoder
open Vaco.Ffv1.StateTransition (defaultTable)

/-- One write: a bit in a state of a context, or a number in a context. -/
inductive RangeOp (κ : Type) where
  | rac (ctx : κ) (place : Fin 32) (bit : Bool)
  | symbol (ctx : κ) (v : CodedValue)

/-- What a read returns. -/
inductive RangeAnswer where
  | bit (bit : Bool)
  | value (value : Int)
deriving DecidableEq

/-- The answer that brings a write back. -/
def RangeOp.answer {κ : Type} : RangeOp κ → RangeAnswer
  | .rac _ _ bit => .bit bit
  | .symbol _ v => .value v.value

/-- A coder with a bank of contexts. -/
structure Banked (α κ : Type) where
  coder : α
  contexts : κ → SymbolStates

/-- A coder with fresh contexts. -/
def Banked.fresh {α : Type} (κ : Type) (coder : α) : Banked α κ where
  coder := coder
  contexts := fun _ => freshStates

section Sequences

variable {κ : Type} [DecidableEq κ]

/-- Perform one write. -/
def encodeRangeOp (s : Banked RangeEncoder κ) : RangeOp κ → Banked RangeEncoder κ
  | .rac ctx place bit =>
      let (e, states) := putAt s.coder (s.contexts ctx) defaultTable place bit
      ⟨e, Function.update s.contexts ctx states⟩
  | .symbol ctx v =>
      let (e, states) := putSymbol s.coder (s.contexts ctx) defaultTable v.value v.signed
      ⟨e, Function.update s.contexts ctx states⟩

/-- Perform the mirrored read. -/
def decodeRangeOp (s : Banked RangeDecoder κ) :
    RangeOp κ → Option (Banked RangeDecoder κ × RangeAnswer)
  | .rac ctx place _ =>
      let (d, states, bit) := s.coder.getAt (s.contexts ctx) defaultTable place
      some (⟨d, Function.update s.contexts ctx states⟩, .bit bit)
  | .symbol ctx v =>
      match s.coder.getSymbol (s.contexts ctx) defaultTable v.signed with
      | .error _ => none
      | .ok (d, states, value) =>
          some (⟨d, Function.update s.contexts ctx states⟩, .value value)

structure BankAt (s : Banked RangeEncoder κ) (c : Cell) : Prop where
  at_cell : s.coder.At c
  adapted : ∀ ctx, AdaptedStates (s.contexts ctx)

structure BankTracks (bits : Nat → Bool) (d : Banked RangeDecoder κ) (s : Banked RangeEncoder κ)
    (c : Cell) : Prop where
  tracks : d.coder.Tracks bits c
  contexts : d.contexts = s.contexts

theorem adapted_update {contexts : κ → SymbolStates} (h : ∀ ctx, AdaptedStates (contexts ctx))
    (ctx : κ) {states : SymbolStates} (hstates : AdaptedStates states) (ctx' : κ) :
    AdaptedStates (Function.update contexts ctx states ctx') := by
  rw [Function.update_apply]
  split
  · exact hstates
  · exact h ctx'

/-- Every write comes back, and the banks agree. -/
theorem rangeOp_follows :
    Follows (fun (s : Banked RangeEncoder κ) op => some (encodeRangeOp s op)) decodeRangeOp
      RangeOp.answer BankAt BankTracks 16 := by
  intro s c op h
  cases op with
  | rac ctx place bit =>
      have hsame : Same (s.coder, s.contexts ctx) (c, s.contexts ctx) :=
        ⟨h.at_cell, rfl, h.adapted ctx⟩
      have hnext := hsame.putAt place bit
      have hback := putAt_back defaultTable c (s.contexts ctx) place bit
      have hstates := hnext.states
      refine ⟨encodeRangeOp s (.rac ctx place bit), _, rfl,
        ⟨hnext.at_cell, adapted_update h.adapted ctx hnext.adapted_encoder⟩, hback.within, ?_⟩
      intro bits d htracks hholds
      rcases hback.reads bits d.coder htracks.tracks hholds with ⟨d', hread, htracks'⟩
      refine ⟨⟨d', (encodeRangeOp s (.rac ctx place bit)).contexts⟩, ?_, htracks', rfl⟩
      rw [decodeRangeOp, htracks.contexts, hread, ← hstates]
      rfl
  | symbol ctx v =>
      have hsame : Same (s.coder, s.contexts ctx) (c, s.contexts ctx) :=
        ⟨h.at_cell, rfl, h.adapted ctx⟩
      have hnext := hsame.putSymbol v.value v.signed
      have hback := putSymbol_back defaultTable v c (s.contexts ctx)
      have hstates := hnext.states
      refine ⟨encodeRangeOp s (.symbol ctx v), _, rfl,
        ⟨hnext.at_cell, adapted_update h.adapted ctx hnext.adapted_encoder⟩, hback.within, ?_⟩
      intro bits d htracks hholds
      rcases hback.reads bits d.coder htracks.tracks hholds with ⟨d', hread, htracks'⟩
      refine ⟨⟨d', (encodeRangeOp s (.symbol ctx v)).contexts⟩, ?_, htracks', rfl⟩
      rw [decodeRangeOp, htracks.contexts, hread, ← hstates]
      rfl

/-- A sequence of writes. -/
def encodeRangeOps (ops : List (RangeOp κ)) : Banked RangeEncoder κ :=
  ops.foldl encodeRangeOp (Banked.fresh κ RangeEncoder.new)

/-- The encoder behind a sequence of writes and the terminator, flushed. -/
def finishRangeOps (ops : List (RangeOp κ)) : RangeEncoder :=
  ((encodeRangeOps ops).coder.writeTerminator defaultTable).finish

/-- The bounds of a decoder between two reads. -/
def RangeDecoder.Bounded (d : RangeDecoder) : Prop :=
  256 ≤ d.range ∧ d.range ≤ 65280 ∧ d.low < d.range

/-- No carry is lost, the mirrored reads return what was written at every part of the sequence, and
behind it the terminator ends at the length of the bytes. -/
def RangeRoundTrips (ops : List (RangeOp κ)) : Prop :=
  (finishRangeOps ops).carryLost = false ∧
    (∀ done todo, ops = done ++ todo →
      ∃ d, run decodeRangeOp (Banked.fresh κ (RangeDecoder.new (finishRangeOps ops).out)) done =
          some (d, done.map RangeOp.answer) ∧
        d.contexts = (encodeRangeOps done).contexts ∧ d.coder.Bounded ∧
        (todo = [] → (d.coder.readTerminator defaultTable).1.Bounded ∧
          (d.coder.readTerminator defaultTable).2 = (finishRangeOps ops).out.length))

theorem bounded_of_tracks {bits : Nat → Bool} {d : RangeDecoder} {e : RangeEncoder} {c : Cell}
    (hat : e.At c) (htracks : d.Tracks bits c) (hholds : c.Holds bits 16) : d.Bounded := by
  have hrange := htracks.range
  have hcell := hat.models.range
  refine ⟨?_, ?_, htracks.low_lt hholds⟩
  · have hge := hat.le_range
    omega
  · have hle := hat.models.range_le
    omega

theorem terminator_back {e : RangeEncoder} {c : Cell} (hat : e.At c) :
    (e.writeTerminator defaultTable).finish.carryLost = false ∧
      c.Holds (ofBytes (e.writeTerminator defaultTable).finish.out) 16 ∧
      ∀ d : RangeDecoder, d.Tracks (ofBytes (e.writeTerminator defaultTable).finish.out) c →
        (d.readTerminator defaultTable).1.Bounded ∧
          (d.readTerminator defaultTable).2 =
            (e.writeTerminator defaultTable).finish.out.length := by
  have hat' : (e.writeTerminator defaultTable).At (racCell c terminatorState false) :=
    (RangeEncoder.putRac_at hat (by decide) defaultTable false).1
  rcases RangeEncoder.finish_at hat' with ⟨hlength, hkept, hholds⟩
  refine ⟨hkept, hholds.of_within (racCell_within c _ false), ?_⟩
  intro d htracks
  rcases RangeDecoder.getRac_tracks htracks defaultTable hholds with ⟨d', hread, htracks'⟩
  have hpos := htracks'.pos
  rw [RangeDecoder.readTerminator, hread]
  refine ⟨bounded_of_tracks hat' htracks' hholds, ?_⟩
  dsimp only
  omega

/-- Every sequence of bits and numbers comes back from the finished bytes. -/
theorem range_round_trips (ops : List (RangeOp κ)) : RangeRoundTrips ops := by
  have hstart : BankAt (Banked.fresh κ RangeEncoder.new) RangeEncoder.firstCell :=
    ⟨RangeEncoder.at_new, fun _ => adapted_freshStates⟩
  rcases round_trip_parts rangeOp_follows hstart ops with ⟨s, c, hencode, hat, -, hparts⟩
  have hencoded : ∀ ops : List (RangeOp κ),
      ops.foldlM (fun (s : Banked RangeEncoder κ) op => some (encodeRangeOp s op))
        (Banked.fresh κ RangeEncoder.new) = some (encodeRangeOps ops) :=
    fun ops => List.foldlM_pure
  rw [hencoded, Option.some.injEq] at hencode
  subst hencode
  rcases terminator_back hat.at_cell with ⟨hkept, hholds, -⟩
  refine ⟨hkept, ?_⟩
  intro done todo hsplit
  have htracks := RangeDecoder.tracks_new (finishRangeOps ops).out
  rcases hparts _ (Banked.fresh κ _) ⟨htracks, rfl⟩ hholds done todo hsplit with
    ⟨d, s, c₁, hrun, hdone, hat₁, htracks₁, hholds₁, -⟩
  rw [hencoded, Option.some.injEq] at hdone
  subst hdone
  refine ⟨d, hrun, htracks₁.contexts, bounded_of_tracks hat₁.at_cell htracks₁.tracks hholds₁, ?_⟩
  rintro rfl
  rw [List.append_nil] at hsplit
  subst hsplit
  rcases terminator_back hat₁.at_cell with ⟨-, -, hend⟩
  exact hend d.coder htracks₁.tracks

end Sequences

/-- A number below zero, one above, and two bits, in two contexts. -/
theorem range_round_trips_twoContexts :
    let ops : List (RangeOp Bool) := [.symbol true ⟨-300, true, by decide, by decide⟩,
      .rac false 5 true, .symbol false ⟨70000, false, by decide, by decide⟩, .rac true 0 false]
    ∃ d, run decodeRangeOp (Banked.fresh Bool (RangeDecoder.new (finishRangeOps ops).out)) ops =
      some (d, [.value (-300), .bit true, .value 70000, .bit false]) := by
  intro ops
  rcases (range_round_trips ops).2 ops [] (List.append_nil ops).symm with ⟨d, hread, -⟩
  exact ⟨d, hread⟩
end Ffv1
end Vaco
