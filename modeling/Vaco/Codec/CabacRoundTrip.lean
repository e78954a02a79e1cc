import Vaco.Codec.CabacEncoder

/-!
# The arithmetic coding engines are inverse

The decoder tracks the encoder: it has the same range and contexts, has read nine bits more
than have left the register of the encoder, and its offset is the distance of what it has
read from the start of the cell.  As long as the code lies in the cell of the next operation,
the decoder takes the branch that the encoder took.

Main results:

- `cabac_follows`: every operation comes back.
- `cabac_round_trips`: every sequence comes back, and the final bin is one.
-/

namespace Vaco
namespace Codec

open Library BitStream Checked IntervalCoder
open Vaco.Bitstream

/-- One operation of the encoder before the stream terminates. -/
inductive CabacOp (n : Nat) where
  | decision (ctx : Fin n) (bin : Bool)
  | bypass (bin : Bool)
  | terminate
deriving DecidableEq

/-- The bin of an operation. -/
def CabacOp.bin {n : Nat} : CabacOp n → Bool
  | .decision _ bin => bin
  | .bypass bin => bin
  | .terminate => false

/-- An encoder with its contexts. -/
structure CabacSource (n : Nat) where
  encoder : CabacEncoder
  contexts : Fin n → ContextModel

/-- Encode one operation. -/
def encodeOp {n : Nat} (s : CabacSource n) : CabacOp n → Option (CabacSource n)
  | .decision i bin => do
      let (e, ctx) ← s.encoder.encodeDecision (s.contexts i) bin.toNat
      some ⟨e, Function.update s.contexts i ctx⟩
  | .bypass bin => do
      let e ← s.encoder.encodeBypass bin.toNat
      some ⟨e, s.contexts⟩
  | .terminate => do
      let e ← s.encoder.encodeTerminate 0
      some ⟨e, s.contexts⟩

/-- The mirrored call of the decoder. -/
def CabacOp.call {n : Nat} : CabacOp n → CabacCall n
  | .decision i _ => .decision i
  | .bypass _ => .bypass
  | .terminate => .terminate

/-- Decode the mirrored operation. -/
def decodeOp {n : Nat} (s : CabacState n) (op : CabacOp n) : Option (CabacState n × Int) :=
  cabacStep s op.call

/-- The answer that brings an operation back. -/
def CabacOp.value {n : Nat} (op : CabacOp n) : Int :=
  op.bin.toNat

/-! ## Tracking -/

namespace CabacDecoder

/-- The decoder has read nine bits more than the cell is deep, and holds them less the cell's start.
-/
structure Tracks (bits : Nat → Bool) (total : Nat) (d : CabacDecoder) (c : Cell) : Prop where
  sound : d.Sound (9 + c.depth)
  range : d.range = c.range
  offset : d.offset + c.low = number bits 0 (9 + c.depth)
  bits_eq : ofBytes d.reader.data.bytes = bits
  flagged : d.flagged = false
  reader : d.reader.flagged = false ∧ d.reader.logicalBits = total

variable {bits : Nat → Bool} {total : Nat} {d d' : CabacDecoder} {c : Cell}

theorem Tracks.offset_mem (h : d.Tracks bits total c) {base width : Nat}
    (hholds : (CabacEncoder.refine c base width).Holds bits 9) :
    base ≤ d.offset ∧ d.offset < base + width := by
  rcases hholds.of_within (Cell.within_scale _ _) with ⟨hlow, hhigh⟩
  have hoffset := h.offset
  simp only [Cell.narrow] at hlow hhigh
  omega

theorem Tracks.narrowed (h : d.Tracks bits total c) {base width : Nat} (hbase : base ≤ d.offset)
    (hnarrowed : d.Narrowed d' (9 + c.depth) base width) :
    d'.Tracks bits total (CabacEncoder.refine c base width) := by
  have hdepth : (CabacEncoder.refine c base width).depth = c.depth + doublings width := rfl
  have hlow : (CabacEncoder.refine c base width).low = (c.low + base) * 2 ^ doublings width := rfl
  refine ⟨?_, hnarrowed.range, ?_, ?_, hnarrowed.flagged.trans h.flagged, ?_⟩
  · rw [hdepth, ← Nat.add_assoc]
    exact hnarrowed.sound
  · have hread := number_add bits 0 (9 + c.depth) (doublings width)
    rw [Nat.zero_add, ← h.offset] at hread
    rw [hdepth, ← Nat.add_assoc, hread, hnarrowed.offset, hlow, h.bits_eq]
    have hsum : d.offset - base + (c.low + base) = d.offset + c.low := by omega
    rw [← hsum, Nat.add_mul]
    ring
  · rw [hnarrowed.reader.data]
    exact h.bits_eq
  · exact ⟨hnarrowed.reader.flagged.trans h.reader.1,
      hnarrowed.reader.logicalBits.trans h.reader.2⟩

theorem Tracks.decision (h : d.Tracks bits total c) {ctx : ContextModel} (hctx : ctx.Valid)
    {isLps : Nat} (hlps : isLps < 2)
    (hholds : (CabacEncoder.refine c (if isLps = 0 then 0 else c.range - ctx.lps c.range)
      (if isLps = 0 then c.range - ctx.lps c.range else ctx.lps c.range)).Holds bits 9) :
    ∃ d', d.decodeDecision ctx =
        some (d', ctx.next isLps, if isLps = 0 then ctx.mps else 1 - ctx.mps) ∧
      d'.Tracks bits total (CabacEncoder.refine c
        (if isLps = 0 then 0 else c.range - ctx.lps c.range)
        (if isLps = 0 then c.range - ctx.lps c.range else ctx.lps c.range)) := by
  rcases h.offset_mem hholds with ⟨hbase, hlt⟩
  rw [← h.range] at hbase hlt ⊢
  rcases (by omega : isLps = 0 ∨ isLps = 1) with rfl | rfl
  · simp only [if_true] at hbase hlt ⊢
    rcases decodeDecision_mps h.sound hctx (by omega) with ⟨d', heq, hnarrowed⟩
    exact ⟨d', heq, h.narrowed hbase hnarrowed⟩
  · simp only [Nat.one_ne_zero, if_false] at hbase hlt ⊢
    rcases decodeDecision_lps h.sound hctx hbase with ⟨d', heq, hnarrowed⟩
    exact ⟨d', heq, h.narrowed hbase hnarrowed⟩

/-- A bypass bin comes back. -/
theorem Tracks.bypass (h : d.Tracks bits total c) {bin : Nat} (hbin : bin < 2)
    (hholds : (CabacEncoder.refineBypass c bin).Holds bits 9) :
    ∃ d', d.decodeBypass = some (d', bin) ∧
      d'.Tracks bits total (CabacEncoder.refineBypass c bin) := by
  rcases decodeBypass_eq h.sound with
    ⟨d', bin', heq, hsound, hrange, hoffset, hbin', hmove, hflagged, -⟩
  rcases hholds with ⟨hlow, hhigh⟩
  have hcellLow : (CabacEncoder.refineBypass c bin).low = c.low * 2 + bin * c.range := rfl
  have hcellRange : (CabacEncoder.refineBypass c bin).range = c.range := rfl
  have hdepth : (CabacEncoder.refineBypass c bin).depth = c.depth + 1 := rfl
  have hread := number_add bits 0 (9 + c.depth) 1
  rw [Nat.zero_add, ← h.offset, Nat.pow_one, Nat.add_assoc] at hread
  rw [h.bits_eq, h.range] at hoffset
  rw [hcellLow, hdepth, hread] at hlow hhigh
  rw [hcellRange] at hhigh
  have hlt := hsound.offset_lt
  rw [hrange, h.range] at hlt
  -- The offset below the range leaves one bin only.
  have hsame : bin' = bin := by
    rcases (by omega : bin = 0 ∨ bin = 1) with rfl | rfl <;>
      rcases (by omega : bin' = 0 ∨ bin' = 1) with rfl | rfl <;> omega
  subst hsame
  refine ⟨d', heq, ?_, ?_, ?_, ?_, hflagged.trans h.flagged, ?_⟩
  · rw [hdepth, ← Nat.add_assoc]
    exact hsound
  · rw [hrange, h.range, hcellRange]
  · rw [hdepth, hread, hcellLow]
    omega
  · rw [hmove.data]
    exact h.bits_eq
  · exact ⟨hmove.flagged.trans h.reader.1, hmove.logicalBits.trans h.reader.2⟩

theorem Tracks.terminate (h : d.Tracks bits total c)
    (hholds : (CabacEncoder.refine c 0 (c.range - 2)).Holds bits 9) :
    ∃ d', d.decodeTerminate = some (d', 0) ∧
      d'.Tracks bits total (CabacEncoder.refine c 0 (c.range - 2)) := by
  rcases h.offset_mem hholds with ⟨hbase, hlt⟩
  rw [← h.range] at hlt ⊢
  rcases decodeTerminate_zero h.sound (by omega) with ⟨d', heq, hnarrowed⟩
  exact ⟨d', heq, h.narrowed hbase hnarrowed⟩

theorem Tracks.not_malformed {data : Bytes}
    (h : d.Tracks bits (min (data.length * 8) u64Max) c) (hfit : 9 + c.depth ≤ 8 * data.length) :
    d.malformed = false := by
  have hposition := h.sound.reader.bitPos_le
  rw [malformed, h.flagged, Bool.false_or, BitReader.overrun, h.reader.1, h.reader.2,
    Bool.false_or, decide_eq_false_iff_not]
  omega

end CabacDecoder

/-! ## Every operation comes back -/

variable {n : Nat}

/-- An encoder at a cell, with a renormalised range and contexts within their states. -/
structure CabacSource.At (s : CabacSource n) (c : Cell) : Prop where
  models : s.encoder.Models c
  le_range : 256 ≤ s.encoder.range
  contexts : ∀ i, (s.contexts i).Valid

structure CabacTracks (total : Nat) (bits : Nat → Bool) (d : CabacState n) (s : CabacSource n)
    (c : Cell) : Prop where
  decoder : d.decoder.Tracks bits total c
  contexts : d.contexts = s.contexts

theorem encodeDecision_models {e : CabacEncoder} {c : Cell} (h : e.Models c)
    (hrange : 256 ≤ e.range) {ctx : ContextModel} (hctx : ctx.Valid) {bin : Nat} (hbin : bin < 2) :
    ∃ e' isLps, isLps < 2 ∧ e.encodeDecision ctx bin = some (e', ctx.next isLps) ∧
      (if isLps = 0 then ctx.mps else 1 - ctx.mps) = bin ∧
      e'.Models (CabacEncoder.refine c (if isLps = 0 then 0 else c.range - ctx.lps c.range)
        (if isLps = 0 then c.range - ctx.lps c.range else ctx.lps c.range)) ∧ 256 ≤ e'.range := by
  have hmps := ctx.mps_lt
  rw [h.range]
  by_cases hmost : bin % 2 = ctx.mps
  · rcases CabacEncoder.encodeDecision_mps h hrange hctx hmost with ⟨e', heq, hmodels, hrange'⟩
    refine ⟨e', 0, by decide, heq, ?_, hmodels, hrange'⟩
    rw [if_pos rfl]
    omega
  · rcases CabacEncoder.encodeDecision_lps h hrange hctx hmost with ⟨e', heq, hmodels, hrange'⟩
    refine ⟨e', 1, by decide, heq, ?_, hmodels, hrange'⟩
    rw [if_neg (by decide)]
    omega

/-- Every operation comes back. -/
theorem cabac_follows (total : Nat) :
    Follows (encodeOp (n := n)) decodeOp CabacOp.value CabacSource.At (CabacTracks total) 9 := by
  intro s c op h
  have hcell := h.models.range
  have hrange := h.le_range
  cases op with
  | decision i bin =>
      have hctx := h.contexts i
      have hlps := ContextModel.lps_bounds hctx c.range
      rcases encodeDecision_models h.models hrange hctx (Bool.toNat_lt bin) with
        ⟨e', isLps, hpart, heq, hbin, hmodels, hrange'⟩
      refine ⟨⟨e', Function.update s.contexts i ((s.contexts i).next isLps)⟩, _, ?_,
        ⟨hmodels, hrange', ?_⟩, CabacEncoder.refine_within ?_, ?_⟩
      · rw [encodeOp, heq]
        rfl
      · exact fun j => valid_update h.contexts (ContextModel.next_valid hctx hpart) i j
      · split <;> omega
      · intro bits d htracks hholds
        have hsame := congrFun htracks.contexts i
        rcases htracks.decoder.decision hctx hpart hholds with ⟨d', hdecode, htracks'⟩
        rw [← hsame] at hdecode
        refine ⟨⟨d', Function.update d.contexts i ((d.contexts i).next isLps)⟩, ?_, htracks', ?_⟩
        · rw [decodeOp, CabacOp.call, cabacStep, hdecode, some_bind, hsame, hbin]
          rfl
        · rw [htracks.contexts]
  | bypass bin =>
      rcases CabacEncoder.encodeBypass_models h.models hrange (Bool.toNat_lt bin) with
        ⟨e', heq, hmodels, hrange'⟩
      refine ⟨⟨e', s.contexts⟩, _, ?_, ⟨hmodels, hrange', h.contexts⟩,
        CabacEncoder.refineBypass_within (Bool.toNat_lt bin), ?_⟩
      · rw [encodeOp, heq]
        rfl
      · intro bits d htracks hholds
        rcases htracks.decoder.bypass (Bool.toNat_lt bin) hholds with ⟨d', hdecode, htracks'⟩
        refine ⟨⟨d', d.contexts⟩, ?_, htracks', htracks.contexts⟩
        rw [decodeOp, CabacOp.call, cabacStep, hdecode]
        rfl
  | terminate =>
      rcases CabacEncoder.encodeTerminate_zero h.models hrange with ⟨e', heq, hmodels, hrange'⟩
      rw [← hcell] at hmodels
      refine ⟨⟨e', s.contexts⟩, _, ?_, ⟨hmodels, hrange', h.contexts⟩,
        CabacEncoder.refine_within (by omega), ?_⟩
      · rw [encodeOp, heq]
        rfl
      · intro bits d htracks hholds
        rcases htracks.decoder.terminate hholds with ⟨d', hdecode, htracks'⟩
        refine ⟨⟨d', d.contexts⟩, ?_, htracks', htracks.contexts⟩
        rw [decodeOp, CabacOp.call, cabacStep, hdecode]
        rfl

/-! ## Whole streams -/

/-- The first cell. -/
def firstCell : Cell where
  low := 0
  range := 510
  depth := 0

/-- A new encoder is at the first cell. -/
theorem at_withLimit {limit : Nat} (hlimit : limit < 2305843009213693952)
    {contexts : Fin n → ContextModel} (hvalid : ∀ i, (contexts i).Valid) :
    CabacSource.At ⟨CabacEncoder.withLimit limit, contexts⟩ firstCell := by
  have hwf : (CabacEncoder.withLimit limit).Wf :=
    ⟨show 0 < 8 by decide, show 0 < 1 by decide, fun _ => rfl, Nat.zero_le _⟩
  have hsettled : (CabacEncoder.withLimit limit).settled = 0 := by
    rw [CabacEncoder.settled, hwf.written_of_first rfl, Nat.zero_mul, Nat.zero_mul,
      show (CabacEncoder.withLimit limit).outstanding = 0 from rfl, Nat.pow_zero, Nat.sub_self]
  have hmodels : (CabacEncoder.withLimit limit).Models firstCell := by
    refine ⟨hwf, hlimit, rfl, ?_, ?_, ?_, ?_, ?_⟩
    · show 0 < 510
      decide
    · show 510 ≤ 510
      decide
    · show 0 + 510 ≤ 1024
      decide
    · show 0 + 510 ≤ 510 * 2 ^ 0
      decide
    · intro _
      rw [hsettled]
      exact ⟨rfl, rfl⟩
  refine ⟨hmodels, ?_, hvalid⟩
  show 256 ≤ 510
  decide

/-- A decoder over data in the first cell tracks it. -/
theorem tracks_new (data : Slice) (h : firstCell.Holds (ofBytes data.bytes) 9) :
    (CabacDecoder.new data).Tracks (ofBytes data.bytes) (min (data.bytes.length * 8) u64Max)
      firstCell := by
  have hstart : (BitReader.new data).At 0 := BitReader.at_start _ _
  have halign : (BitReader.new data).MovesTo (BitReader.new data).align 0 := hstart.align
  rcases halign.at_pos.get (show 9 ≤ 32 by decide) with ⟨hget, hoffset⟩
  have hmove := halign.trans hget
  have hdata : (BitReader.new data).data = data := rfl
  rw [halign.data, hdata] at hoffset
  have hlt : number (ofBytes data.bytes) 0 9 < 510 := h.2
  have hsmall : decide (510 ≤ ((BitReader.new data).align.get 9).2.toNat) = false := by
    rw [decide_eq_false_iff_not, hoffset]
    omega
  have hnew : CabacDecoder.new data =
      { range := 510
        offset := ((BitReader.new data).align.get 9).2.toNat
        reader := ((BitReader.new data).align.get 9).1
        flagged := false
        terminated := false } := by
    rw [CabacDecoder.new, CabacDecoder.fromReader]
    simp only [hsmall, Bool.false_eq_true, if_false]
  rw [hnew]
  refine ⟨⟨hmove.at_pos, ?_, le_refl 510, ?_⟩, rfl, ?_, ?_, rfl, hmove.flagged,
    hmove.logicalBits⟩
  · show 256 ≤ 510
    decide
  · show ((BitReader.new data).align.get 9).2.toNat < 510
    rw [hoffset]
    exact hlt
  · show ((BitReader.new data).align.get 9).2.toNat + 0 = number (ofBytes data.bytes) 0 9
    rw [hoffset, Nat.add_zero]
  · show ofBytes ((BitReader.new data).align.get 9).1.data.bytes = ofBytes data.bytes
    rw [hmove.data, hdata]

theorem terminated_code {e last : CabacEncoder} {c : Cell} (h : e.Models c)
    (hrange : 256 ≤ e.range) (hlast : e.encodeTerminate 1 = some last)
    (hover : last.overflowed = false) :
    c.low + (c.range - 2) ≤ number (ofBytes last.finish) 0 (9 + c.depth) ∧
      c.Holds (ofBytes last.finish) 9 ∧ 9 + c.depth ≤ 8 * last.finish.length ∧
      last.finish.length < 9223372036854775808 := by
  rcases CabacEncoder.encodeTerminate_one h hrange with ⟨last', heq, hwf, hceiling, hcode⟩
  rw [hlast, Option.some.injEq] at heq
  subst heq
  rcases hcode hover with ⟨hlow, hhigh, hlength⟩
  rcases hwf.number_finish with ⟨hnumber, hcovers, hfit⟩
  have hbound := hwf.length_le
  rw [hlength] at hnumber
  rw [Cell.Holds, hnumber]
  omega

/-- Operations keep an encoder under its ceiling. -/
theorem under_encodeOp {limit : Nat} {s s' : CabacSource n} {op : CabacOp n}
    (h : s.encoder.Under limit) (hencode : encodeOp s op = some s') : s'.encoder.Under limit := by
  unfold encodeOp at hencode
  cases op with
  | decision i bin =>
      rcases Option.bind_eq_some_iff.1 hencode with ⟨⟨e, ctx⟩, hdecision, hencode⟩
      cases hencode
      exact h.encodeDecision hdecision
  | bypass bin =>
      rcases Option.bind_eq_some_iff.1 hencode with ⟨e, hbypass, hencode⟩
      cases hencode
      exact h.encodeBypass hbypass
  | terminate =>
      rcases Option.bind_eq_some_iff.1 hencode with ⟨e, hterminate, hencode⟩
      cases hencode
      exact h.encodeTerminate hterminate

theorem under_foldlM {limit : Nat} {ops : List (CabacOp n)} {s s' : CabacSource n}
    (h : s.encoder.Under limit) (hencode : ops.foldlM encodeOp s = some s') :
    s'.encoder.Under limit := by
  induction ops generalizing s with
  | nil =>
      cases hencode
      exact h
  | cons op ops ih =>
      rw [List.foldlM_cons] at hencode
      rcases Option.bind_eq_some_iff.1 hencode with ⟨s₁, hop, hrest⟩
      exact ih (under_encodeOp h hop) hrest

/-- Over terminated bytes under the ceiling every part of a sequence comes back, and behind the
whole of it the terminating bin is one. -/
theorem terminated_parts (limit : Nat) (hlimit : limit < 2305843009213693952)
    (contexts : Fin n → ContextModel) (hvalid : ∀ i, (contexts i).packed ≤ 127)
    (ops : List (CabacOp n)) :
    ∃ s last, ops.foldlM encodeOp ⟨CabacEncoder.withLimit limit, contexts⟩ = some s ∧
      s.encoder.encodeTerminate 1 = some last ∧
      (last.finish.length < limit →
        ∃ hfit : last.finish.length < 9223372036854775808,
          ∀ done todo, ops = done ++ todo → ∃ d s',
            run decodeOp ⟨CabacDecoder.new ⟨last.finish, hfit⟩, contexts⟩ done =
              some (d, done.map CabacOp.value) ∧
            done.foldlM encodeOp ⟨CabacEncoder.withLimit limit, contexts⟩ = some s' ∧
            d.contexts = s'.contexts ∧ d.decoder.flagged = false ∧ d.decoder.malformed = false ∧
            (todo = [] → ∃ final, d.decoder.decodeTerminate = some (final, 1) ∧
              final.malformed = false)) := by
  have hstart := at_withLimit hlimit hvalid
  rcases round_trip (cabac_follows 0) hstart ops with ⟨s, c, hencode, hat, -, -⟩
  rcases CabacEncoder.encodeTerminate_one hat.models hat.le_range with ⟨last, hlast, -⟩
  refine ⟨s, last, hencode, hlast, ?_⟩
  intro hbelow
  have hnew : (CabacEncoder.withLimit limit).Under limit := ⟨rfl, fun hover => by cases hover⟩
  have hover := ((under_foldlM hnew hencode).encodeTerminate hlast).not_overflowed hbelow
  rcases terminated_code hat.models hat.le_range hlast hover with ⟨-, -, -, hfit⟩
  refine ⟨hfit, ?_⟩
  intro done todo hsplit
  rcases round_trip_parts (cabac_follows (min (last.finish.length * 8) u64Max)) hstart ops with
    ⟨s', c', hencode', hat', hwithin, hparts⟩
  have hsame : s' = s := by
    rw [hencode, Option.some.injEq] at hencode'
    exact hencode'.symm
  subst hsame
  rcases terminated_code hat'.models hat'.le_range hlast hover with ⟨-, hholds, hlong, -⟩
  have htracks₀ := tracks_new ⟨last.finish, hfit⟩ (hholds.of_within hwithin)
  rcases hparts (ofBytes last.finish) ⟨CabacDecoder.new ⟨last.finish, hfit⟩, contexts⟩
    ⟨htracks₀, rfl⟩ hholds done todo hsplit with
    ⟨d, s₁, c₁, hrun, hencode₁, hat₁, htracks, -, hdeep⟩
  have hsound := htracks.decoder.not_malformed (by omega)
  refine ⟨d, s₁, hrun, hencode₁, htracks.contexts, htracks.decoder.flagged, hsound, ?_⟩
  rintro rfl
  -- Behind the whole sequence the decoder tracks the last cell, and the code is at its end.
  rw [List.append_nil] at hsplit
  subst hsplit
  rw [hencode, Option.some.injEq] at hencode₁
  subst hencode₁
  have hoffset := htracks.decoder.offset
  rcases terminated_code hat₁.models hat₁.le_range hlast hover with ⟨hhigh, -⟩
  exact ⟨_, CabacDecoder.decodeTerminate_one htracks.decoder.sound
    (by rw [htracks.decoder.range]; omega), hsound⟩

/-- Over terminated bytes under the ceiling the mirrored calls return the bins, end with the
encoder's contexts and a final bin of one, and are malformed at no step. -/
theorem cabac_round_trips (limit : Nat) (hlimit : limit < 2305843009213693952)
    (contexts : Fin n → ContextModel) (hvalid : ∀ i, (contexts i).packed ≤ 127)
    (ops : List (CabacOp n)) :
    ∃ s last, ops.foldlM encodeOp ⟨CabacEncoder.withLimit limit, contexts⟩ = some s ∧
      s.encoder.encodeTerminate 1 = some last ∧
      (last.finish.length < limit →
        ∃ hfit : last.finish.length < 9223372036854775808,
          let start : CabacState n := ⟨CabacDecoder.new ⟨last.finish, hfit⟩, contexts⟩
          (∃ d final, run decodeOp start ops = some (d, ops.map CabacOp.value) ∧
            d.contexts = s.contexts ∧ d.decoder.decodeTerminate = some (final, 1) ∧
            final.malformed = false) ∧
          ∀ done todo, ops = done ++ todo →
            ∃ d, run decodeOp start done = some (d, done.map CabacOp.value) ∧
              d.decoder.malformed = false) := by
  rcases terminated_parts limit hlimit contexts hvalid ops with ⟨s, last, hencode, hlast, hparts⟩
  refine ⟨s, last, hencode, hlast, ?_⟩
  intro hbelow
  rcases hparts hbelow with ⟨hfit, hparts⟩
  refine ⟨hfit, ?_, ?_⟩
  · rcases hparts ops [] (List.append_nil ops).symm with
      ⟨d, s', hrun, hencode', hcontexts, -, -, hend⟩
    rw [hencode, Option.some.injEq] at hencode'
    subst hencode'
    rcases hend rfl with ⟨final, hone, hsound⟩
    exact ⟨d, final, hrun, hcontexts, hone, hsound⟩
  · intro done todo hsplit
    rcases hparts done todo hsplit with ⟨d, -, hrun, -, -, -, hsound, -⟩
    exact ⟨d, hrun, hsound⟩

/-- A stream with every kind of operation. -/
def mixedBins : List (CabacOp 2) :=
  [.decision 0 true, .bypass true, .decision 1 false, .terminate, .decision 0 false, .bypass false]

/-- It takes two bytes, far below the default ceiling. -/
theorem cabac_round_trips_mixedBins :
    ∃ s last, mixedBins.foldlM encodeOp ⟨CabacEncoder.new, fun i => ⟨40 * i⟩⟩ = some s ∧
      s.encoder.encodeTerminate 1 = some last ∧ last.finish.length = 2 ∧
      ∃ hfit : last.finish.length < 9223372036854775808,
        let start : CabacState 2 := ⟨CabacDecoder.new ⟨last.finish, hfit⟩, fun i => ⟨40 * i⟩⟩
        (∃ d final, run decodeOp start mixedBins = some (d, mixedBins.map CabacOp.value) ∧
          d.contexts = s.contexts ∧ d.decoder.decodeTerminate = some (final, 1) ∧
          final.malformed = false) ∧
        ∀ done todo, mixedBins = done ++ todo →
          ∃ d, run decodeOp start done = some (d, done.map CabacOp.value) ∧
            d.decoder.malformed = false := by
  have hlength : ((mixedBins.foldlM encodeOp ⟨CabacEncoder.new, fun i => ⟨40 * i⟩⟩).bind fun s =>
      (s.encoder.encodeTerminate 1).map fun last => last.finish.length) = some 2 := by
    decide +kernel
  rcases cabac_round_trips 16777216 (by decide) (fun i => ⟨40 * i⟩) (by decide) mixedBins with
    ⟨s, last, hencode, hlast, hback⟩
  rw [CabacEncoder.new, hencode, Option.bind_some, hlast, Option.map_some, Option.some.injEq]
    at hlength
  exact ⟨s, last, hencode, hlast, hlength, hback (by omega)⟩

end Codec
end Vaco
