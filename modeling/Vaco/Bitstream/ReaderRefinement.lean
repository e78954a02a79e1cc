import Vaco.Bitstream.BitReader
import Vaco.Library.Transducer

/-!
# Programs over the bit reader

A parser reads, peeks, skips, aligns, and saves and restores positions in any order.
The reader refines the plain picture of such a program: a cursor over an endless list
of bits, the data followed by zeros.

Main results:

- `tracks_readStep`: one operation follows the cursor.
- `reader_refines`: so does every program.
-/

namespace Vaco
namespace Bitstream

open Library BitStream

/-- One operation of a parser, with a legal width. -/
inductive ReadOp where
  | get (n : Fin 33)
  | peek (n : Fin 33)
  | skip (n : BitVec 32)
  | skipLong (n : BitVec 64)
  | skipBytes (n : BitVec 64)
  | getLong (n : Fin 65)
  | getSigned (n : Fin 33)
  | align
  | mark
  | restore (slot : Nat)
deriving DecidableEq

/-- What an operation returns. -/
inductive ReadResult where
  | done
  | unsigned (v : Nat)
  | signed (v : Int)
deriving DecidableEq

/-- Whether an operation is a peek. -/
def ReadOp.isPeek : ReadOp → Bool
  | .peek _ => true
  | _ => false

/-! ## The program on the reader -/

structure ReadSession where
  reader : BitReader
  marks : List Mark

/-- Run one operation; a slot that holds no mark restores nothing. -/
def readStep (s : ReadSession) : ReadOp → ReadSession × ReadResult
  | .get n => ({ s with reader := (s.reader.get n).1 }, .unsigned (s.reader.get n).2.toNat)
  | .peek n => ({ s with reader := (s.reader.peek n).1 }, .unsigned (s.reader.peek n).2.toNat)
  | .skip n => ({ s with reader := s.reader.skip n.toNat }, .done)
  | .skipLong n => ({ s with reader := s.reader.skipLong n.toNat }, .done)
  | .skipBytes n => ({ s with reader := s.reader.skipBytes n.toNat }, .done)
  | .getLong n =>
      ({ s with reader := (s.reader.getLong n).1 }, .unsigned (s.reader.getLong n).2.toNat)
  | .getSigned n =>
      ({ s with reader := (s.reader.getSigned n).1 }, .signed (s.reader.getSigned n).2.toInt)
  | .align => ({ s with reader := s.reader.align }, .done)
  | .mark => ({ s with marks := s.marks ++ [s.reader.mark] }, .done)
  | .restore slot =>
      match s.marks[slot]? with
      | none => (s, .done)
      | some m => ({ s with reader := s.reader.restore m }, .done)

/-! ## The program on a list of bits -/

/-- A position in a list of bits, with the positions that a program has saved. -/
structure Cursor where
  pos : Nat
  marks : List Nat

/-- The cursor at the start. -/
def Cursor.start : Cursor where
  pos := 0
  marks := []

/-- Move the cursor on. -/
def Cursor.advance (c : Cursor) (n : Nat) : Cursor :=
  { c with pos := c.pos + n }

/-- Read off the bits at the cursor and move it by the width of the operation. -/
def cursorStep (bits : Nat → Bool) (c : Cursor) : ReadOp → Cursor × ReadResult
  | .get n => (c.advance n, .unsigned (number bits c.pos n))
  | .peek n => (c, .unsigned (number bits c.pos n))
  | .skip n => (c.advance n.toNat, .done)
  | .skipLong n => (c.advance n.toNat, .done)
  | .skipBytes n => (c.advance (min (n.toNat * 8) u64Max), .done)
  | .getLong n => (c.advance n, .unsigned (number bits c.pos n))
  | .getSigned n => (c.advance n, .signed (signedNumber bits c.pos n))
  | .align => (c.advance (BitReader.toBoundary c.pos), .done)
  | .mark => ({ c with marks := c.marks ++ [c.pos] }, .done)
  | .restore slot =>
      match c.marks[slot]? with
      | none => (c, .done)
      | some p => ({ c with pos := p }, .done)

/-! ## Refinement -/

/-- A mark of a saved position of the data, taken from a reader that was not malformed. -/
structure Marks (data : Slice) (m : Mark) (p : Nat) : Prop where
  cached : BitReader.Cached (ofBytes data.bytes) p m.pos m.cache m.cacheBits
  unflagged : m.flagged = false

structure Tracks (data : Slice) (logicalBits : Nat) (s : ReadSession) (c : Cursor) : Prop where
  at_pos : s.reader.At c.pos
  data_eq : s.reader.data = data
  logical : s.reader.logicalBits = logicalBits
  unflagged : s.reader.flagged = false
  marks : List.Forall₂ (Marks data) s.marks c.marks

namespace Tracks

variable {data : Slice} {logicalBits : Nat} {s : ReadSession} {c : Cursor}

theorem move (h : Tracks data logicalBits s c) {r : BitReader} {n : Nat}
    (hmove : s.reader.MovesTo r (c.pos + n)) :
    Tracks data logicalBits { s with reader := r } (c.advance n) where
  at_pos := hmove.at_pos
  data_eq := hmove.data.trans h.data_eq
  logical := hmove.logicalBits.trans h.logical
  unflagged := hmove.flagged.trans h.unflagged
  marks := h.marks

theorem slot (h : Tracks data logicalBits s c) (i : Nat) :
    (s.marks[i]? = none ∧ c.marks[i]? = none) ∨
      ∃ m p, s.marks[i]? = some m ∧ c.marks[i]? = some p ∧ Marks data m p := by
  have hlength := h.marks.length_eq
  by_cases hi : i < s.marks.length
  · have hi' : i < c.marks.length := hlength ▸ hi
    exact Or.inr ⟨_, _, List.getElem?_eq_getElem hi, List.getElem?_eq_getElem hi',
      h.marks.get hi hi'⟩
  · have hi' : ¬ i < c.marks.length := hlength ▸ hi
    exact Or.inl ⟨by simpa using hi, by simpa using hi'⟩

end Tracks

/-- Every operation keeps the reader at the cursor and returns what the cursor reads. -/
theorem tracks_readStep {data : Slice} {logicalBits : Nat} {s : ReadSession} {c : Cursor}
    (h : Tracks data logicalBits s c) (op : ReadOp) :
    Tracks data logicalBits (readStep s op).1 (cursorStep (ofBytes data.bytes) c op).1 ∧
      (readStep s op).2 = (cursorStep (ofBytes data.bytes) c op).2 := by
  have hdata := h.data_eq
  cases op with
  | get n =>
      rcases h.at_pos.get (Nat.lt_succ_iff.mp n.isLt) with ⟨hmove, hvalue⟩
      rw [hdata] at hvalue
      exact ⟨h.move hmove, congrArg ReadResult.unsigned hvalue⟩
  | peek n =>
      rcases h.at_pos.peek (Nat.lt_succ_iff.mp n.isLt) with ⟨hmove, hvalue⟩
      rw [hdata] at hvalue
      exact ⟨h.move (n := 0) hmove, congrArg ReadResult.unsigned hvalue⟩
  | skip n => exact ⟨h.move (h.at_pos.skip _), rfl⟩
  | skipLong n => exact ⟨h.move (h.at_pos.skipLong _), rfl⟩
  | skipBytes n => exact ⟨h.move (h.at_pos.skipLong _), rfl⟩
  | getLong n =>
      rcases h.at_pos.getLong (Nat.lt_succ_iff.mp n.isLt) with ⟨hmove, hvalue⟩
      rw [hdata] at hvalue
      exact ⟨h.move hmove, congrArg ReadResult.unsigned hvalue⟩
  | getSigned n =>
      rcases h.at_pos.getSigned (Nat.lt_succ_iff.mp n.isLt) with ⟨hmove, hvalue⟩
      rw [hdata] at hvalue
      exact ⟨h.move hmove, congrArg ReadResult.signed hvalue⟩
  | align => exact ⟨h.move h.at_pos.align, rfl⟩
  | mark =>
      have hmark : Marks data s.reader.mark c.pos := ⟨hdata ▸ h.at_pos, h.unflagged⟩
      refine ⟨⟨h.at_pos, hdata, h.logical, h.unflagged, ?_⟩, rfl⟩
      exact List.rel_append h.marks (List.Forall₂.cons hmark List.Forall₂.nil)
  | restore i =>
      rcases h.slot i with ⟨hs, hc⟩ | ⟨m, p, hs, hc, hmark⟩
      · simp only [readStep, cursorStep, hs, hc]
        exact ⟨h, trivial⟩
      · simp only [readStep, cursorStep, hs, hc]
        refine ⟨⟨?_, hdata, h.logical, hmark.unflagged, h.marks⟩, trivial⟩
        rw [BitReader.At]
        simp only [BitReader.restore, hdata]
        exact hmark.cached

/-! ## Whole programs -/

/-- What a reader is built from. -/
inductive ReadSource where
  | slice (data : Slice)
  | padded (p : Padded)

namespace ReadSource

/-- The whole slice, padding included. -/
def data : ReadSource → Slice
  | .slice data => data
  | .padded p => p.data

/-- The length without the padding. -/
def logicalLen : ReadSource → Nat
  | .slice data => data.bytes.length
  | .padded p => p.logicalLen

/-- A session on a new reader. -/
def session (source : ReadSource) : ReadSession where
  reader := match source with
    | .slice data => BitReader.new data
    | .padded p => BitReader.newPadded p
  marks := []

/-- The bits of the slice, followed by zeros. -/
def bits (source : ReadSource) : Nat → Bool :=
  ofBytes source.data.bytes

theorem bits_padded {p : Padded} (h : p.data.bytes.length = p.logicalLen + 64) :
    (ReadSource.padded p).bits = ofBytes p.logicalBytes := by
  have hdrop : p.data.bytes.drop p.logicalLen = List.replicate 64 0 := by
    rw [← p.padding, List.take_of_length_le]
    rw [List.length_drop, h]
    omega
  have hsplit : p.data.bytes = p.logicalBytes ++ List.replicate 64 0 := by
    rw [← hdrop]
    exact (List.take_append_drop _ _).symm
  rw [bits, data, hsplit, ofBytes_append_zeros]

theorem tracks (source : ReadSource) :
    Tracks source.data (min (source.logicalLen * 8) u64Max) source.session Cursor.start := by
  cases source with
  | slice data => exact ⟨BitReader.at_start _ _, rfl, rfl, rfl, List.Forall₂.nil⟩
  | padded p => exact ⟨BitReader.at_start _ _, rfl, rfl, rfl, List.Forall₂.nil⟩

end ReadSource

theorem cursorStep_of_isPeek (bits : Nat → Bool) (c : Cursor) {op : ReadOp}
    (h : op.isPeek = true) : (cursorStep bits c op).1 = c := by
  cases op <;> first | rfl | cases h

theorem trace_cursorStep_filter (bits : Nat → Bool) (c : Cursor) (ops : List ReadOp) :
    (Transducer.trace (cursorStep bits) c ops).filter (fun x => !x.1.isPeek) =
      Transducer.trace (cursorStep bits) c (ops.filter fun op => !op.isPeek) := by
  induction ops generalizing c with
  | nil => rfl
  | cons op ops ih =>
      cases hpeek : op.isPeek with
      | true => simp [hpeek, ih, cursorStep_of_isPeek bits c hpeek]
      | false => simp [hpeek, ih]

theorem readStep_simulates (source : ReadSource) (ops : List ReadOp) :
    Tracks source.data (min (source.logicalLen * 8) u64Max)
        (Transducer.stateAfter readStep source.session ops)
        (Transducer.stateAfter (cursorStep source.bits) Cursor.start ops) ∧
      Transducer.outputs readStep source.session ops =
        Transducer.outputs (cursorStep source.bits) Cursor.start ops :=
  Transducer.simulation (P := fun _ _ => True) source.tracks
    (fun _ _ op h _ => tracks_readStep h op) (Transducer.admissible_true _ ops)

/-- Over every program of legal widths the results are those read off the slice and zeros behind it,
the position is the cursor's below `2 ^ 63`, overrun is being past the logical end, and leaving out
the peeks changes nothing. -/
theorem reader_refines (source : ReadSource) (ops : List ReadOp) :
    let final := (Transducer.stateAfter readStep source.session ops).reader
    let cursor := Transducer.stateAfter (cursorStep source.bits) Cursor.start ops
    Transducer.outputs readStep source.session ops =
        Transducer.outputs (cursorStep source.bits) Cursor.start ops ∧
      (∀ p, source = .padded p → p.data.bytes.length = p.logicalLen + 64 →
        source.bits = ofBytes p.logicalBytes) ∧
      (cursor.pos < 2 ^ 63 → final.bitPos = cursor.pos) ∧
      (final.overrun = true ↔ 8 * source.logicalLen < final.bitPos) ∧
      (Transducer.trace readStep source.session ops).filter (fun x => !x.1.isPeek) =
        Transducer.trace readStep source.session (ops.filter fun op => !op.isPeek) := by
  intro final cursor
  have htrace : ∀ ops, Transducer.trace readStep source.session ops =
      Transducer.trace (cursorStep source.bits) Cursor.start ops := by
    intro ops
    exact Transducer.trace_eq_of_outputs_eq (readStep_simulates source ops).2
  rcases readStep_simulates source ops with ⟨htracks, houtputs⟩
  refine ⟨houtputs, ?_, ?_, ?_, ?_⟩
  · rintro p rfl hlength
    exact ReadSource.bits_padded hlength
  · intro hpos
    have hmax : u64Max = 18446744073709551615 := rfl
    exact htracks.at_pos.bitPos_eq (show cursor.pos + 64 ≤ u64Max by omega)
  · have hbound : final.bitPos ≤ u64Max := htracks.at_pos.bitPos_le.2
    rw [BitReader.overrun, htracks.unflagged, htracks.logical]
    simp only [Bool.false_or, decide_eq_true_eq]
    omega
  · rw [htrace, htrace, trace_cursorStep_filter]

end Bitstream
end Vaco
