import Vaco.Codec.BoolCoder

/-!
# The boolean entropy coder is inverse

The decoder tracks the encoder: it has the same range, has read eight bits more than the
range was doubled, and its value is the distance of what it has read from the start of the
cell.  As long as the code lies in the cell of the next bool, the decoder takes the branch
that the encoder took.  Literals and tree symbols are sequences of bools.

Main results:

- `op_follows`: every operation comes back.
- `vp9_round_trips`: every sequence comes back, carries and padding included.

Current gaps:

- A partition of so many bytes that their bits cannot be counted in a machine word is left
  out.
-/

namespace Vaco
namespace Codec

open Library BitStream Checked IntervalCoder
open Vaco.Bitstream

/-! ## The decoder at a position -/

namespace BoolDecoder

/-- A decoder that has taken a number of bits of its data, or all of them and zeros. -/
structure At (d : BoolDecoder) (p : Nat) : Prop where
  maxBits : d.maxBits = 8 * d.data.length
  bitPos : d.bitPos = min p d.maxBits
  overrun : d.overrun = (d.data.isEmpty || decide (d.maxBits < p))

/-- A decoder that has shifted in a number of bits and changed nothing but the range and the
value beside it. -/
structure Shifted (d d' : BoolDecoder) (p j : Nat) : Prop where
  at_pos : d'.At (p + j)
  data : d'.data = d.data
  value : d'.value = d.value * 2 ^ j + number (ofBytes d.data) p j

variable {d d' : BoolDecoder} {p : Nat} {c : Cell}

theorem getMsbD_eq_shift (byte : BitVec 8) {i : Nat} (hi : i < 8) :
    (byte.getMsbD i).toNat = (byte.toNat >>> (7 - i)) % 2 := by
  rw [BitVec.getMsbD_eq_getLsbD, decide_eq_true hi, Bool.true_and, ← BitVec.testBit_toNat,
    Nat.testBit_eq_decide_div_mod_eq, Nat.shiftRight_eq_div_pow, show 8 - 1 - i = 7 - i by omega]
  rcases Nat.mod_two_eq_zero_or_one (byte.toNat / 2 ^ (7 - i)) with h | h
  · rw [h]
    rfl
  · rw [h]
    rfl

theorem At.readBit (h : d.At p) :
    d.readBit.1.At (p + 1) ∧ d.readBit.2 = (ofBytes d.data p).toNat ∧
      d.readBit.1.data = d.data ∧ d.readBit.1.range = d.range ∧ d.readBit.1.value = d.value := by
  have hmax := h.maxBits
  have hpos := h.bitPos
  have hover := h.overrun
  rw [BoolDecoder.readBit]
  by_cases hend : d.maxBits ≤ d.bitPos
  · rw [if_pos hend, ofBytes_of_le (by omega)]
    refine ⟨⟨hmax, by dsimp only; omega, ?_⟩, rfl, rfl, rfl, rfl⟩
    show true = (d.data.isEmpty || decide (d.maxBits < p + 1))
    rw [decide_eq_true (by omega), Bool.or_true]
  · have hplace : d.bitPos = p := by omega
    rw [if_neg hend, hplace]
    refine ⟨⟨hmax, by dsimp only; omega, ?_⟩, ?_, rfl, rfl, rfl⟩
    · show d.overrun = (d.data.isEmpty || decide (d.maxBits < p + 1))
      rw [hover, decide_eq_false (by omega), decide_eq_false (by omega)]
    · rw [ofBytes, getMsbD_eq_shift _ (by omega)]

/-- Raw bits are read behind a number. -/
theorem At.readRawLoop (h : d.At p) {n x : Nat} (hx : (x + 1) * 2 ^ n ≤ 4294967296) :
    ∃ d', readRawLoop n d x = some (d', x * 2 ^ n + number (ofBytes d.data) p n) ∧
      d'.At (p + n) ∧ d'.data = d.data ∧ d'.range = d.range ∧ d'.value = d.value := by
  induction n generalizing d p x with
  | zero => exact ⟨d, by rw [BoolDecoder.readRawLoop, Nat.pow_zero, Nat.mul_one]; rfl, h, rfl, rfl,
      rfl⟩
  | succ n ih =>
      rcases h.readBit with ⟨hat, hbit, hdata, hrange, hvalue⟩
      have hlt := Bool.toNat_lt (ofBytes d.data p)
      have hpow : 0 < 2 ^ n := by positivity
      have hdouble : (2 * x + 1 + 1) * 2 ^ n ≤ 4294967296 := by
        rw [Nat.pow_succ] at hx
        calc (2 * x + 1 + 1) * 2 ^ n = (x + 1) * (2 ^ n * 2) := by ring
          _ ≤ 4294967296 := hx
      have hsmall : (2 * x + 1 + 1) * 1 ≤ 4294967296 :=
        (Nat.mul_le_mul_left _ hpow).trans hdouble
      have hnext : (2 * x + d.readBit.2 + 1) * 2 ^ n ≤ 4294967296 :=
        (Nat.mul_le_mul_right _ (by omega)).trans hdouble
      rcases ih hat hnext with ⟨d', hloop, hat', hdata', hrange', hvalue'⟩
      refine ⟨d', ?_, ?_, hdata'.trans hdata, hrange'.trans hrange, hvalue'.trans hvalue⟩
      · have hsplit := number_add (ofBytes d.data) p 1 n
        rw [number_one, Nat.add_comm 1] at hsplit
        rw [BoolDecoder.readRawLoop, mul32_of_lt (by omega), some_bind, add32_of_lt (by omega),
          some_bind, hloop, hdata, hbit, hsplit, Nat.pow_succ]
        congr 2
        ring
      · rwa [Nat.add_assoc, Nat.add_comm 1] at hat'

/-- Renormalising shifts in as many bits as the range asks for. -/
theorem renormLoop_eq {fuel : Nat} (h : d.At p) (hpos : 0 < d.range) (hle : d.range ≤ 255)
    (hvalue : d.value < d.range) (hfuel : doublingsTo 8 d.range < fuel) :
    ∃ d', renormLoop fuel d = some d' ∧ d.Shifted d' p (doublingsTo 8 d.range) ∧
      d'.range = d.range * 2 ^ doublingsTo 8 d.range := by
  induction fuel generalizing d p with
  | zero => cases hfuel
  | succ fuel ih =>
      rw [renormLoop]
      by_cases hsmall : d.range < 128
      · have hcount : doublingsTo 8 d.range = doublingsTo 8 (2 * d.range) + 1 :=
          doublingsTo_of_lt hpos hsmall
        have hlt := Bool.toNat_lt (ofBytes d.data p)
        rcases h.readBit with ⟨hat, hbit, hdata, hrange, hvalue₁⟩
        have hat₁ : At { d.readBit.1 with
            range := 2 * d.range
            value := 2 * d.value + (ofBytes d.data p).toNat } (p + 1) :=
          ⟨hat.maxBits, hat.bitPos, hat.overrun⟩
        rcases ih hat₁ (by dsimp only; omega) (by dsimp only; omega) (by dsimp only; omega)
          (by dsimp only; omega) with ⟨d', hloop, hshifted, hrange'⟩
        dsimp only at hloop hshifted hrange'
        rw [if_pos hsmall]
        dsimp only
        rw [hrange, shl32_one (by omega), some_bind, hvalue₁, shl32_one (by omega), some_bind, hbit,
          add32_of_lt (by omega), some_bind]
        refine ⟨d', hloop, ⟨?_, hshifted.data.trans hdata, ?_⟩, ?_⟩
        · rw [hcount, Nat.add_comm _ 1, ← Nat.add_assoc]
          exact hshifted.at_pos
        · have hsplit := number_add (ofBytes d.data) p 1 (doublingsTo 8 (2 * d.range))
          rw [number_one, Nat.add_comm 1, ← hcount] at hsplit
          rw [hshifted.value, hsplit, hcount, Nat.pow_succ]
          dsimp only
          rw [hdata]
          ring
        · rw [hrange', hcount, Nat.pow_succ]
          ring
      · have hnone : doublingsTo 8 d.range = 0 := doublingsTo_of_le (not_lt.mp hsmall)
        rw [if_neg hsmall, hnone]
        refine ⟨d, rfl, ⟨h, rfl, ?_⟩, ?_⟩
        · rw [Nat.pow_zero, Nat.mul_one]
          rfl
        · rw [Nat.pow_zero, Nat.mul_one]

/-! ## Tracking -/

/-- The decoder has read eight bits more than the cell is deep, and holds them less the cell's
start. -/
structure Tracks (data : Bytes) (d : BoolDecoder) (c : Cell) : Prop where
  at_pos : d.At (8 + c.depth)
  data_eq : d.data = data
  range : d.range = c.range
  value : d.value + c.low = number (ofBytes data) 0 (8 + c.depth)

variable {data : Bytes}

theorem Tracks.value_mem (h : d.Tracks data c) {base width : Nat}
    (hholds : (Cell.part 8 c base width).Holds (ofBytes data) 8) :
    base ≤ d.value ∧ d.value < base + width := by
  rcases hholds.of_within (Cell.within_scale _ _) with ⟨hlow, hhigh⟩
  have hvalue := h.value
  simp only [Cell.narrow] at hlow hhigh
  omega

/-- Renormalising a part of the range that holds the value tracks the part of the cell. -/
theorem Tracks.renorm (h : d.Tracks data c) {base width : Nat} (hpos : 0 < width)
    (hle : width ≤ 255) (hbase : base ≤ d.value) (hlt : d.value < base + width) :
    ∃ d', renorm { d with range := width, value := d.value - base } = some d' ∧
      d'.Tracks data (Cell.part 8 c base width) := by
  have hat : At { d with range := width, value := d.value - base } (8 + c.depth) :=
    ⟨h.at_pos.maxBits, h.at_pos.bitPos, h.at_pos.overrun⟩
  rcases renormLoop_eq hat hpos hle (by dsimp only; omega) (doublingsTo_lt (by decide) hpos) with
    ⟨d', hloop, hshifted, hrange⟩
  dsimp only at hshifted hrange
  have hdepth : (Cell.part 8 c base width).depth = c.depth + doublingsTo 8 width := rfl
  have hlow : (Cell.part 8 c base width).low = (c.low + base) * 2 ^ doublingsTo 8 width := rfl
  refine ⟨d', hloop, ?_, ?_, hrange, ?_⟩
  · rw [hdepth, ← Nat.add_assoc]
    exact hshifted.at_pos
  · rw [hshifted.data]
    exact h.data_eq
  · have hread := number_add (ofBytes data) 0 (8 + c.depth) (doublingsTo 8 width)
    have hsum : d.value - base + (c.low + base) = d.value + c.low := by omega
    rw [Nat.zero_add, ← h.value, ← hsum] at hread
    rw [hdepth, ← Nat.add_assoc, hread, hshifted.value, hlow]
    dsimp only
    rw [h.data_eq]
    ring

theorem Tracks.readBool (h : d.Tracks data c) (hrange : 128 ≤ c.range) (hle : c.range ≤ 255)
    {prob : BitVec 8} {bit : Bool} (hholds : (boolCell c prob bit).Holds (ofBytes data) 8) :
    ∃ d', d.readBool prob = some (d', bit) ∧ d'.Tracks data (boolCell c prob bit) := by
  rcases boolSplit_eq hrange hle prob with ⟨hsplit, hpos, hlt⟩
  rw [BoolDecoder.readBool, h.range, hsplit, some_bind]
  cases bit with
  | true =>
      rw [boolCell_true] at hholds ⊢
      rcases h.value_mem hholds with ⟨hbase, hhigh⟩
      rcases h.renorm (by omega) (by omega) hbase hhigh with ⟨d', hrenorm, htracks⟩
      rw [if_neg (by omega), sub_of_le (by omega), some_bind, sub_of_le hbase, some_bind, hrenorm]
      exact ⟨d', rfl, htracks⟩
  | false =>
      rw [boolCell_false] at hholds ⊢
      rcases h.value_mem hholds with ⟨hbase, hhigh⟩
      rcases h.renorm hpos (by omega) hbase hhigh with ⟨d', hrenorm, htracks⟩
      rw [Nat.sub_zero] at hrenorm
      rw [if_pos (by omega), hrenorm]
      exact ⟨d', rfl, htracks⟩

end BoolDecoder

/-! ## Every bool comes back -/

/-- An encoder at a cell, with a renormalised range. -/
structure BoolEncoder.At (e : BoolEncoder) (c : Cell) : Prop where
  models : e.Models c
  le_range : 128 ≤ e.range

/-- A decoder tracks an encoder at a cell. -/
def BoolTracks (data : Bytes) (bits : Nat → Bool) (d : BoolDecoder) (_ : BoolEncoder)
    (c : Cell) : Prop :=
  d.Tracks data c ∧ ofBytes data = bits

/-- Write a bool with its probability. -/
def writePair (e : BoolEncoder) (b : BitVec 8 × Bool) : Option BoolEncoder :=
  e.writeBool b.1 b.2

/-- Read a bool with its probability. -/
def readPair (d : BoolDecoder) (b : BitVec 8 × Bool) : Option (BoolDecoder × Bool) :=
  d.readBool b.1

theorem boolCell_within {c : Cell} (hrange : 128 ≤ c.range) (hle : c.range ≤ 255)
    (prob : BitVec 8) (bit : Bool) : (boolCell c prob bit).Within c := by
  rcases boolSplit_eq hrange hle prob with ⟨-, hpos, hlt⟩
  rw [boolCell]
  split
  · exact Cell.part_within (by omega)
  · exact Cell.part_within (by omega)

/-- Every bool comes back. -/
theorem bool_follows (data : Bytes) :
    Follows writePair readPair Prod.snd BoolEncoder.At (BoolTracks data) 8 := by
  rintro e c ⟨prob, bit⟩ h
  have hrange := h.models.range
  have hge := h.le_range
  have hle := h.models.range_le
  rcases BoolEncoder.writeBool_models h.models h.le_range prob bit with
    ⟨e', hwrite, hmodels, hrange'⟩
  refine ⟨e', boolCell c prob bit, hwrite, ⟨hmodels, hrange'⟩,
    boolCell_within (by omega) (by omega) prob bit, ?_⟩
  rintro bits d ⟨htracks, rfl⟩ hholds
  rcases htracks.readBool (by omega) (by omega) hholds with ⟨d', hread, htracks'⟩
  exact ⟨d', hread, htracks', rfl⟩

/-! ## Literals and tree symbols -/

/-- A leaf of a well-formed tree, with the probabilities of the nodes. -/
structure TreeLeaf where
  tree : Tree
  probs : List (BitVec 8)
  value : Int
  wellFormed : tree.WellFormed
  present : tree.HasLeaf value 0

/-- One write of the encoder. -/
inductive BoolOp where
  | bool (prob : BitVec 8) (bit : Bool)
  | literal (numBits : Fin 33) (value : BitVec 32)
  | tree (leaf : TreeLeaf)

/-- What a read returns. -/
inductive BoolAnswer where
  | bit (bit : Bool)
  | literal (value : Nat)
  | leaf (value : Int)
deriving DecidableEq

/-- The answer that brings a write back: a literal consists of the low bits of its value. -/
def BoolOp.answer : BoolOp → BoolAnswer
  | .bool _ bit => .bit bit
  | .literal numBits value => .literal (value.toNat % 2 ^ numBits.val)
  | .tree leaf => .leaf leaf.value

/-- Perform one write. -/
def encodeBoolOp (e : BoolEncoder) : BoolOp → Option BoolEncoder
  | .bool prob bit => e.writeBool prob bit
  | .literal numBits value => e.writeLiteral value numBits
  | .tree leaf => e.writeTree leaf.tree leaf.probs leaf.value

/-- Perform the mirrored read. -/
def decodeBoolOp (d : BoolDecoder) : BoolOp → Option (BoolDecoder × BoolAnswer)
  | .bool prob _ => (d.readBool prob).map fun r => (r.1, .bit r.2)
  | .literal numBits _ => (d.readLiteral numBits).map fun r => (r.1, .literal r.2)
  | .tree leaf => (d.readTree leaf.tree leaf.probs).map fun r => (r.1, .leaf r.2)

/-- The bools of a literal. -/
def literalBools (value : BitVec 32) : Nat → List (BitVec 8 × Bool)
  | 0 => []
  | i + 1 => (128, value.getLsbD i) :: literalBools value i

theorem writeLiteral_eq (value : BitVec 32) {n : Nat} (hn : n ≤ 32) (e : BoolEncoder) :
    e.writeLiteral value n = (literalBools value n).foldlM writePair e := by
  induction n generalizing e with
  | zero => rfl
  | succ n ih =>
      rw [BoolEncoder.writeLiteral, literalBools, List.foldlM_cons, if_pos (by omega), writePair]
      congr 1
      funext e'
      exact ih (by omega) e'

/-- Reading the bools of a literal returns its low bits behind a number. -/
theorem readLiteralLoop_eq (value : BitVec 32) {n x : Nat} {d d' : BoolDecoder}
    (hx : (x + 1) * 2 ^ n ≤ 4294967296)
    (h : run readPair d (literalBools value n) = some (d', (literalBools value n).map Prod.snd)) :
    BoolDecoder.readLiteralLoop n d x = some (d', x * 2 ^ n + value.toNat % 2 ^ n) := by
  induction n generalizing d x with
  | zero =>
      rw [literalBools, run_nil, Option.some.injEq, Prod.mk.injEq] at h
      rw [BoolDecoder.readLiteralLoop, h.1, Nat.pow_zero, Nat.mod_one, Nat.mul_one, Nat.add_zero]
  | succ n ih =>
      rcases run_cons_inv h with ⟨t, b, rest, hone, hrest, hsame⟩
      rw [literalBools, List.map_cons, List.cons.injEq] at hsame
      rcases hsame with ⟨rfl, rfl⟩
      have hbit := Bool.toNat_lt (value.getLsbD n)
      have hpow : 0 < 2 ^ n := by positivity
      have hdouble : (2 * x + 1 + 1) * 2 ^ n ≤ 4294967296 := by
        rw [Nat.pow_succ] at hx
        calc (2 * x + 1 + 1) * 2 ^ n = (x + 1) * (2 ^ n * 2) := by ring
          _ ≤ 4294967296 := hx
      have hsmall : (2 * x + 1 + 1) * 1 ≤ 4294967296 :=
        (Nat.mul_le_mul_left _ hpow).trans hdouble
      have hnext : (2 * x + (value.getLsbD n).toNat + 1) * 2 ^ n ≤ 4294967296 :=
        (Nat.mul_le_mul_right _ (by omega)).trans hdouble
      rw [readPair] at hone
      rw [BoolDecoder.readLiteralLoop, hone, some_bind]
      dsimp only
      rw [Nat.mod_eq_of_lt (by omega), two_mul_or hbit, ih hnext hrest, Nat.mod_pow_succ,
        show (value.getLsbD n).toNat = value.toNat / 2 ^ n % 2 from Nat.toNat_testBit _ _,
        Nat.pow_succ]
      congr 2
      ring

/-- Every write is a sequence of bools, and the mirrored read reads them. -/
theorem exists_bools (op : BoolOp) :
    ∃ bools : List (BitVec 8 × Bool),
      (∀ e, encodeBoolOp e op = bools.foldlM writePair e) ∧
      ∀ d d', run readPair d bools = some (d', bools.map Prod.snd) →
        decodeBoolOp d op = some (d', op.answer) := by
  cases op with
  | bool prob bit =>
      refine ⟨[(prob, bit)], ?_, ?_⟩
      · intro e
        rw [List.foldlM_cons]
        exact (Option.bind_fun_some (e.writeBool prob bit)).symm
      · intro d d' h
        rcases run_cons_inv h with ⟨t, b, rest, hone, hrest, hsame⟩
        rw [List.map_cons, List.cons.injEq] at hsame
        rcases hsame with ⟨rfl, rfl⟩
        rw [List.map_nil, run_nil, Option.some.injEq, Prod.mk.injEq] at hrest
        rw [readPair] at hone
        rw [decodeBoolOp, hone, hrest.1]
        rfl
  | literal numBits value =>
      have hn := numBits.isLt
      have hpow : 2 ^ numBits.val ≤ 2 ^ 32 := Nat.pow_le_pow_right (by decide) (by omega)
      refine ⟨literalBools value numBits, fun e => writeLiteral_eq value (by omega) e, ?_⟩
      intro d d' h
      rw [decodeBoolOp, BoolDecoder.readLiteral,
        readLiteralLoop_eq value (by omega) h, Nat.zero_mul, Nat.zero_add]
      rfl
  | tree leaf =>
      rcases Tree.agree_of_hasLeaf leaf.wellFormed leaf.present with ⟨path, hwrite, hread⟩
      refine ⟨path.map fun step => ((leaf.probs[step.1]?).getD 128, step.2), ?_, ?_⟩
      · intro e
        rw [List.foldlM_map]
        exact hwrite BoolEncoder
          (fun e node bit => e.writeBool ((leaf.probs[node]?).getD 128) bit) e
      · intro d d' h
        rw [run_map, List.map_map] at h
        have hnodes : run (fun d node => BoolDecoder.readBool d ((leaf.probs[node]?).getD 128)) d
            (path.map Prod.fst) = some (d', path.map Prod.snd) := by
          rw [run_map]
          exact h
        have hwhole := hread BoolDecoder _ d d' hnodes
        rw [decodeBoolOp, BoolDecoder.readTree]
        exact congrArg (Option.map fun r => (r.1, BoolAnswer.leaf r.2)) hwhole

/-- Every bool, literal and tree symbol comes back. -/
theorem op_follows (data : Bytes) :
    Follows encodeBoolOp decodeBoolOp BoolOp.answer BoolEncoder.At (BoolTracks data) 8 := by
  intro e c op h
  rcases exists_bools op with ⟨bools, hencode, hdecode⟩
  rcases round_trip (bool_follows data) h bools with ⟨e', c', hwrites, hat, hwithin, hreads⟩
  refine ⟨e', c', (hencode e).trans hwrites, hat, hwithin, ?_⟩
  intro bits d htracks hholds
  rcases hreads bits d htracks hholds with ⟨d', hrun, htracks'⟩
  exact ⟨d', hdecode d d' hrun, htracks'⟩

/-! ## Whole streams -/

/-- The first cell. -/
def firstBoolCell : Cell where
  low := 0
  range := 255
  depth := 0

theorem BoolEncoder.at_new : BoolEncoder.new.At firstBoolCell where
  models :=
    { range := rfl
      pos := by decide
      range_le := by decide
      count_pos := by decide
      count_le := by decide
      later := fun h => absurd rfl h
      depth := rfl
      low := rfl
      room := fun h => absurd rfl h
      inside := by decide
      kept := rfl }
  le_range := by decide

theorem BoolDecoder.tracks_start {data : Bytes} (hfit : data.length < 2305843009213693952) :
    ∃ d value, (BoolDecoder.start data).readRawBits 8 = some (d, value) ∧
      BoolDecoder.Tracks data { d with value := value } firstBoolCell := by
  have hmax : min (data.length * 8) u64Max = 8 * data.length := by
    have hu64 : u64Max = 18446744073709551615 := rfl
    omega
  have hat : (BoolDecoder.start data).At 0 :=
    ⟨hmax, (Nat.zero_min _).symm, by simp [BoolDecoder.start]⟩
  rcases hat.readRawLoop (n := 8) (x := 0) (by decide) with
    ⟨d, hloop, hat', hdata, hrange, -⟩
  refine ⟨d, _, hloop, ⟨⟨hat'.maxBits, hat'.bitPos, hat'.overrun⟩, ?_, hrange, ?_⟩⟩
  · dsimp only
    rw [hdata]
    rfl
  · show 0 * 2 ^ 8 + number (ofBytes (BoolDecoder.start data).data) 0 8 + 0 =
      number (ofBytes data) 0 8
    rw [Nat.zero_mul, Nat.zero_add, Nat.add_zero]
    rfl

theorem BoolDecoder.Tracks.not_overrun {data : Bytes} {d : BoolDecoder} {c : Cell}
    (h : d.Tracks data c) (hlong : 8 + c.depth < 8 * data.length) : d.overrun = false := by
  have hmax := h.at_pos.maxBits
  have hsome : data.isEmpty = false := by
    cases data with
    | nil => cases hlong
    | cons byte rest => rfl
  rw [h.at_pos.overrun, hmax, h.data_eq, hsome, decide_eq_false (by omega), Bool.or_false]

/-- The marker bool that the decoder drops. -/
def markerOp : BoolOp :=
  .bool 128 false

/-- No carry is lost, and the mirrored reads return what was written at every part of the sequence.
-/
def BoolRoundTrips (ops : List BoolOp) : Prop :=
  ∃ e last, (markerOp :: ops).foldlM encodeBoolOp BoolEncoder.new = some e ∧
    e.flush = some last ∧ e.finish = some last.output ∧ last.carryLost = false ∧
    (last.output.length < 2305843009213693952 →
      ∃ d, BoolDecoder.new last.output = some d ∧
        ∀ done todo, ops = done ++ todo →
          ∃ d', run decodeBoolOp d done = some (d', done.map BoolOp.answer) ∧
            d'.overrun = false)

/-- Every sequence of writes behind the marker comes back, and writer and reader of a
well-formed tree agree on every leaf in it. -/
theorem vp9_round_trips :
    (∀ ops, BoolRoundTrips ops) ∧
      ∀ (tree : Tree) (value : Int), tree.WellFormed → tree.HasLeaf value 0 →
        tree.Agree value := by
  refine ⟨?_, fun tree value h hleaf => Tree.agree_of_hasLeaf h hleaf⟩
  intro ops
  rcases round_trip (op_follows []) BoolEncoder.at_new (markerOp :: ops) with
    ⟨e, c, hencode, hat, -, -⟩
  rcases BoolEncoder.flush_models hat.models with ⟨last, hflush, hkept, -, -⟩
  refine ⟨e, last, hencode, hflush, by rw [BoolEncoder.finish, hflush]; rfl, hkept, ?_⟩
  intro hfit
  rcases round_trip_parts (op_follows last.output) BoolEncoder.at_new (markerOp :: ops) with
    ⟨e', c', hencode', hat', -, hparts⟩
  rw [hencode, Option.some.injEq] at hencode'
  subst hencode'
  rcases BoolEncoder.flush_models hat'.models with ⟨last', hflush', -, hnumber, hlong⟩
  rw [hflush, Option.some.injEq] at hflush'
  subst hflush'
  have hholds : c'.Holds (ofBytes last.output) 8 := by
    have hpos := hat'.models.pos
    rw [Cell.Holds, hnumber, hat'.models.range]
    omega
  rcases BoolDecoder.tracks_start hfit with ⟨d₀, value, hraw, htracks₀⟩
  have hbehind := hparts _ _ ⟨htracks₀, rfl⟩ hholds
  rcases hbehind [markerOp] ops rfl with ⟨d₁, -, -, hmarker, -⟩
  rcases run_cons_inv hmarker with ⟨d, b, rest, hfirst, -, -⟩
  have hread := hfirst
  rw [markerOp, decodeBoolOp, Option.map_eq_some_iff] at hread
  rcases hread with ⟨⟨d', bit⟩, hbool, hpair⟩
  rw [Prod.mk.injEq] at hpair
  rcases hpair with ⟨rfl, -⟩
  refine ⟨d', ?_, ?_⟩
  · rw [BoolDecoder.new, hraw, some_bind]
    dsimp only
    rw [hbool]
    rfl
  · intro done todo hsplit
    rcases hbehind (markerOp :: done) todo (by rw [hsplit]; rfl) with
      ⟨d₂, e₂, c₂, hrun, -, -, htracks, -, hdepth⟩
    rcases run_cons_inv hrun with ⟨t, b', rest', hfirst', hrest, hanswers⟩
    rw [hfirst, Option.some.injEq, Prod.mk.injEq] at hfirst'
    rcases hfirst' with ⟨rfl, -⟩
    rw [List.map_cons, List.cons.injEq] at hanswers
    rcases hanswers with ⟨-, rfl⟩
    exact ⟨d₂, hrest, htracks.1.not_overrun (by omega)⟩

/-- The tree of the chroma prediction modes. -/
def uvModeTree : Tree :=
  [0, 2, -1, 4, -2, -3]

theorem uvModeTree_wellFormed : uvModeTree.WellFormed :=
  Tree.wellFormed_of_deeper (by decide) (by decide)

theorem uvModeTree_hasLeaf : uvModeTree.HasLeaf 3 0 :=
  .deeper ⟨by decide, true, rfl⟩ (.deeper ⟨by decide, true, rfl⟩ (.leaf true (by decide) rfl))

theorem five_lt : 5 < 33 := by decide

/-- A bool of the least probability, a literal that has more bits than are written, and a
mode. -/
def mixedWrites : List BoolOp :=
  [.bool 0 true, .literal ⟨5, five_lt⟩ 1000, .tree ⟨uvModeTree, [7, 255], 3, uvModeTree_wellFormed,
    uvModeTree_hasLeaf⟩]

theorem vp9_round_trips_mixedWrites : BoolRoundTrips mixedWrites ∧ uvModeTree.Agree 3 :=
  ⟨vp9_round_trips.1 mixedWrites,
    vp9_round_trips.2 uvModeTree 3 uvModeTree_wellFormed uvModeTree_hasLeaf⟩

end Codec
end Vaco
