import Vaco.Ffv1.RangeCoder

/-!
# The range coder of FFV1 is inverse

The encoder is at a cell: the bytes that have left the start of the interval and the start
behind them are the start of the cell.  The decoder tracks the cell: it has taken two bytes
more than have left, and its register is the distance of what it has read from the start of the
cell.  Every renormalisation of the encoder is one refill of the decoder.

Main results:

- `RangeEncoder.putRac_at`: a bit moves the encoder to its part of the cell.
- `RangeEncoder.finish_at`: the finished bytes lie in the cell.
- `RangeDecoder.getRac_tracks`: a bit comes back.
- `putSymbol_back`: a number comes back from the cell that it narrows to.
- `Same.putSymbol`: a number narrows the cell of the encoder.
-/

namespace Vaco
namespace Ffv1

open Library BitStream IntervalCoder

/-! ## Cells -/

/-- The cell of a range that is large enough again. -/
def regain (c : Cell) : Cell :=
  if c.range < 256 then c.scale 8 else c

/-- The part of a cell that belongs to a bit, its range large enough again. -/
def racCell (c : Cell) (state : BitVec 8) (bit : Bool) : Cell :=
  let rangeOff := c.range * state.toNat / 256
  regain (if bit then c.narrow (c.range - rangeOff) rangeOff else c.narrow 0 (c.range - rangeOff))

theorem rangeOff_bounds {range : Nat} {state : BitVec 8} (h : Adapted state)
    (hrange : 256 ≤ range) :
    0 < range * state.toNat / 256 ∧ range * state.toNat / 256 < range := by
  rcases h with ⟨hlow, hhigh⟩
  have hle := Nat.mul_le_mul_left range hlow
  have hge := Nat.mul_le_mul_left range hhigh
  omega

/-- An exact interval as a coder of bits. -/
instance : BitCoder Cell where
  putRac c state table bit := (racCell c state bit, table.next state bit)

theorem regain_within (c : Cell) : (regain c).Within c := by
  rw [regain]
  split
  · exact c.within_scale 8
  · exact Cell.Within.refl c

theorem racCell_within (c : Cell) (state : BitVec 8) (bit : Bool) :
    (racCell c state bit).Within c := by
  have hle : c.range * state.toNat / 256 ≤ c.range := by
    have hlt := state.isLt
    have hmul := Nat.mul_le_mul_left c.range hlt.le
    omega
  rw [racCell]
  cases bit with
  | true => exact (regain_within _).trans (Cell.within_narrow (by omega))
  | false => exact (regain_within _).trans (Cell.within_narrow (by omega))

namespace RangeEncoder

variable {e e' : RangeEncoder} {c : Cell}

/-- An encoder models a cell. -/
structure Models (e : RangeEncoder) (c : Cell) : Prop where
  range : c.range = e.range
  pos : 0 < e.range
  range_le : e.range ≤ 65280
  high_le : e.low + e.range ≤ 130560
  cache_le : e.cache.toNat ≤ 254
  waiting : e.cacheSize = 0 → e.out = [] ∧ e.low + e.range ≤ 65280
  kept : e.carryLost = false
  depth : c.depth = 8 * e.written.length
  low : c.low = numberOf e.written * 65536 + e.low

/-- An encoder at a cell, its range large enough. -/
structure At (e : RangeEncoder) (c : Cell) : Prop where
  models : e.Models c
  le_range : 256 ≤ e.range

/-- The first cell. -/
def firstCell : Cell where
  low := 0
  range := 65280
  depth := 0

theorem at_new : new.At firstCell where
  models :=
    { range := rfl
      pos := by decide
      range_le := by decide
      high_le := by decide
      cache_le := by decide
      waiting := fun _ => ⟨rfl, by decide⟩
      kept := rfl
      depth := rfl
      low := rfl }
  le_range := by decide

theorem Models.ready (h : e.Models c) {low : Nat} (hlow : low < e.low + e.range) :
    Ready { e with low := low } where
  low_lt := by
    have hhigh := h.high_le
    dsimp only
    omega
  cache_le := h.cache_le
  waiting := by
    intro hzero
    rcases h.waiting hzero with ⟨hout, hhigh⟩
    refine ⟨hout, ?_⟩
    dsimp only
    omega
  kept := h.kept

theorem Models.narrow (h : e.Models c) {base width : Nat} (hpos : 0 < width)
    (hle : base + width ≤ e.range) :
    Models { e with low := e.low + base, range := width } (c.narrow base width) := by
  have hrange := h.range_le
  have hhigh := h.high_le
  refine ⟨rfl, hpos, by dsimp only; omega, by dsimp only; omega, h.cache_le, ?_, h.kept,
    h.depth, ?_⟩
  · intro hzero
    rcases h.waiting hzero with ⟨hout, hfirst⟩
    refine ⟨hout, ?_⟩
    dsimp only
    omega
  · show c.low + base = numberOf e.written * 65536 + (e.low + base)
    rw [h.low, Nat.add_assoc]

/-- Moving a byte out refines the cell by eight bits. -/
theorem Models.shifted (h : e.Models c) (hsmall : e.range < 256) :
    Models { e.shiftLow with range := e.range * 256 } (c.scale 8) := by
  have hpos := h.pos
  have hshift : e.Shifted e.shiftLow := shiftLow_ready (h.ready (Nat.lt_add_of_pos_right hpos))
  have hlow := hshift.low
  have hlength : c.depth + 8 = 8 * e.shiftLow.written.length := by
    rw [hshift.length, h.depth]
    omega
  have hnumber : c.low * 2 ^ 8 = numberOf e.shiftLow.written * 65536 + e.shiftLow.low := by
    rw [hshift.number, h.low, show 2 ^ 8 = 256 from rfl]
  refine ⟨?_, ?_, ?_, ?_, hshift.cache_le, ?_, hshift.kept, hlength, hnumber⟩
  · show c.range * 2 ^ 8 = e.range * 256
    rw [h.range, show 2 ^ 8 = 256 from rfl]
  · dsimp only
    omega
  · dsimp only
    omega
  · dsimp only
    omega
  · intro hzero
    exact absurd hzero (Nat.pos_iff_ne_zero.mp hshift.size_pos)

theorem Models.renormalize (h : e.Models c) : e.renormalize.At (regain c) := by
  have hpos := h.pos
  rw [RangeEncoder.renormalize, regain, h.range]
  by_cases hsmall : e.range < 256
  · have hone : renormLoop 9 e = { e.shiftLow with range := e.range * 256 } := by
      rw [renormLoop, if_pos hsmall, renormLoop, if_neg (by dsimp only; omega)]
    rw [hone, if_pos hsmall]
    exact ⟨h.shifted hsmall, by dsimp only; omega⟩
  · have hnone : renormLoop 9 e = e := by
      rw [renormLoop, if_neg hsmall]
    rw [hnone, if_neg hsmall]
    exact ⟨h, not_lt.mp hsmall⟩

/-- A bit moves to its part of the cell. -/
theorem putRac_at (h : e.At c) {state : BitVec 8} (hstate : Adapted state)
    (table : StateTransition) (bit : Bool) :
    (e.putRac state table bit).1.At (racCell c state bit) ∧
      (e.putRac state table bit).2 = table.next state bit := by
  rcases rangeOff_bounds hstate h.le_range with ⟨hpos, hlt⟩
  rw [putRac, racCell, h.models.range]
  cases bit with
  | true =>
      refine ⟨?_, rfl⟩
      exact Models.renormalize (h.models.narrow hpos (by omega))
  | false =>
      refine ⟨?_, rfl⟩
      have hpart : Models
          { e with low := e.low + 0, range := e.range - e.range * state.toNat / 256 }
          (c.narrow 0 (e.range - e.range * state.toNat / 256)) :=
        h.models.narrow (by omega) (by omega)
      exact Models.renormalize hpart

/-- The finished bytes, with a byte of zeros behind them, lie in the cell; no carry is lost. -/
theorem finish_at (h : e.At c) :
    8 * e.finish.out.length = 8 + c.depth ∧ e.finish.carryLost = false ∧
      c.Holds (ofBytes e.finish.out) 16 := by
  have hrange := h.le_range
  rw [finish]
  generalize hlow : (e.low + 255) / 256 * 256 = low
  have hle : e.low ≤ low := by omega
  have hlt : low < e.low + e.range := by omega
  have hwhole : low % 256 = 0 := by omega
  have hfirst : Shifted { e with low := low } (shiftLow { e with low := low }) :=
    shiftLow_ready (h.models.ready hlt)
  have hwritten : written { e with low := low } = e.written := rfl
  have hmoved := hfirst.number
  have hlength := hfirst.length
  have hbelow := hfirst.low
  dsimp only at hmoved hbelow
  rw [hwritten] at hmoved hlength
  generalize shiftLow { e with low := low } = first at hfirst hmoved hlength hbelow
  have hsecond := shiftLow_ready hfirst.ready
  have hthird := shiftLow_ready hsecond.ready
  -- The second and the third byte that move out are zero.
  have hzero : first.low = 0 := by omega
  have hzero' : first.shiftLow.low = 0 := by
    rw [hsecond.low, hzero]
  have hdrain : ∀ {e : RangeEncoder}, e.low = 0 →
      e.shiftLow.out = e.written ∧ e.shiftLow.pending = [0] := by
    intro e hnone
    rw [shiftLow, hnone]
    exact ⟨by rw [written, ← drained_zero]; rfl, rfl⟩
  have hout : first.shiftLow.shiftLow.out.dropLast = first.written := by
    rw [(hdrain hzero').1, written, (hdrain hzero).2, List.dropLast_concat, (hdrain hzero).1]
  have hbits : number (ofBytes first.written) 0 (16 + c.depth) = numberOf first.written * 256 := by
    have hbehind : numberOf (first.written ++ [0]) = numberOf first.written * 256 + 0 :=
      numberOf_concat first.written 0
    have hdepth := h.models.depth
    rw [numberOf, List.length_append, List.length_singleton,
      show 8 * (first.written.length + 1) = 16 + c.depth by omega] at hbehind
    rw [← ofBytes_append_zeros first.written 1, List.replicate_one, hbehind, Nat.add_zero]
  dsimp only
  rw [hout]
  refine ⟨?_, hthird.kept, ?_⟩
  · rw [hlength, h.models.depth]
    omega
  · rw [Cell.Holds, hbits, h.models.low, h.models.range]
    omega

end RangeEncoder

/-! ## The decoder at a cell -/

namespace RangeDecoder

variable {d : RangeDecoder} {bits : Nat → Bool} {c : Cell}

/-- The decoder has taken two bytes more than the cell is deep, and holds them less the cell's
start. -/
structure Tracks (bits : Nat → Bool) (d : RangeDecoder) (c : Cell) : Prop where
  bits_eq : ofBytes d.data = bits
  pos : 8 * d.pos = 16 + c.depth
  range : d.range = c.range
  low : d.low + c.low = number bits 0 (16 + c.depth)

theorem number_byte (data : Bytes) (pos : Nat) :
    number (ofBytes data) (8 * pos) 8 = ((data[pos]?).getD 0).toNat := by
  have hbyte : number ((data[pos]?).getD 0).getMsbD 0 8 = ((data[pos]?).getD 0).toNat := by
    rw [number_getMsbD _ (le_refl 8)]
    simp
  rw [← hbyte]
  apply number_congr
  intro i hi
  rw [ofBytes, Nat.zero_add, show (8 * pos + i) / 8 = pos by omega,
    show (8 * pos + i) % 8 = i by omega]

theorem tracks_new (data : Bytes) : Tracks (ofBytes data) (new data) RangeEncoder.firstCell where
  bits_eq := rfl
  pos := rfl
  range := rfl
  low := by
    have hsplit := number_add (ofBytes data) 0 8 8
    have hfirst := number_byte data 0
    have hsecond := number_byte data 1
    rw [Nat.mul_zero] at hfirst
    rw [Nat.mul_one] at hsecond
    have hstart : (new data).low = ((data[0]?).getD 0).toNat * 2 ^ 8 + ((data[1]?).getD 0).toNat :=
      rfl
    rw [Nat.zero_add, hfirst, hsecond] at hsplit
    rw [hstart, ← hsplit]
    rfl

theorem Tracks.low_lt (h : d.Tracks bits c) (hholds : c.Holds bits 16) : d.low < d.range := by
  have hlow := h.low
  have hrange := h.range
  rcases hholds with ⟨-, hhigh⟩
  omega

theorem Tracks.refill (h : d.Tracks bits c) (hlow : d.low < d.range) :
    d.refill.Tracks bits (regain c) := by
  rw [RangeDecoder.refill, regain, h.range]
  by_cases hsmall : c.range < 256
  · rw [if_pos hsmall, if_pos hsmall]
    have hrange := h.range
    have hpos := h.pos
    refine ⟨h.bits_eq, ?_, rfl, ?_⟩
    · show 8 * (d.pos + 1) = 16 + (c.depth + 8)
      omega
    · have hread := number_add bits 0 (16 + c.depth) 8
      have hbyte := number_byte d.data d.pos
      rw [h.bits_eq, hpos] at hbyte
      rw [Nat.zero_add, hbyte, ← h.low] at hread
      show d.low * 256 % 4294967296 + d.nextByte.toNat + c.low * 2 ^ 8 =
        number bits 0 (16 + (c.depth + 8))
      rw [← Nat.add_assoc 16, hread, Nat.mod_eq_of_lt (by omega), nextByte]
      ring
  · rw [if_neg hsmall, if_neg hsmall]
    exact h

/-- A bit comes back. -/
theorem getRac_tracks (h : d.Tracks bits c) {state : BitVec 8} (table : StateTransition)
    {bit : Bool} (hholds : (racCell c state bit).Holds bits 16) :
    ∃ d', d.getRac state table = (d', table.next state bit, bit) ∧
      d'.Tracks bits (racCell c state bit) := by
  have hoff : c.range * state.toNat / 256 ≤ c.range := by
    have hlt := state.isLt
    have hmul := Nat.mul_le_mul_left c.range hlt.le
    omega
  have hlow := h.low
  rw [racCell] at hholds ⊢
  rw [getRac, h.range]
  cases bit with
  | true =>
      have hpart := hholds.of_within (regain_within _)
      rcases hpart with ⟨hbase, hhigh⟩
      simp only [if_true, Cell.narrow] at hbase hhigh
      rw [if_neg (by omega)]
      refine ⟨_, rfl, ?_⟩
      have htracks : Tracks bits
          { d with
            low := d.low - (c.range - c.range * state.toNat / 256)
            range := c.range * state.toNat / 256 }
          (c.narrow (c.range - c.range * state.toNat / 256) (c.range * state.toNat / 256)) := by
        refine ⟨h.bits_eq, h.pos, rfl, ?_⟩
        show d.low - _ + (c.low + _) = number bits 0 (16 + c.depth)
        omega
      exact htracks.refill (by dsimp only; omega)
  | false =>
      have hpart := hholds.of_within (regain_within _)
      rcases hpart with ⟨hbase, hhigh⟩
      simp only [Bool.false_eq_true, if_false, Cell.narrow] at hbase hhigh
      rw [if_pos (by omega)]
      refine ⟨_, rfl, ?_⟩
      have htracks : Tracks bits { d with range := c.range - c.range * state.toNat / 256 }
          (c.narrow 0 (c.range - c.range * state.toNat / 256)) :=
        ⟨h.bits_eq, h.pos, rfl, hlow⟩
      exact htracks.refill (by dsimp only; omega)

end RangeDecoder

/-! ## Numbers come back -/

/-- What narrows one exact interval to another is read back. -/
abbrev Back (c c' : Cell) (Reads : RangeDecoder → RangeDecoder → Prop) : Prop :=
  ReadsBack RangeDecoder.Tracks 16 c c' Reads

section Reading

variable (table : StateTransition)

theorem putAt_back (c : Cell) (states : SymbolStates) (i : Nat) (bit : Bool) :
    Back c (putAt c states table i bit).1 fun d d' =>
      d.getAt states table i = (d', (putAt c states table i bit).2, bit) where
  within := racCell_within c _ bit
  reads := by
    intro bits d htracks hholds
    rcases RangeDecoder.getRac_tracks htracks table hholds with ⟨d', hread, htracks'⟩
    refine ⟨d', ?_, htracks'⟩
    rw [RangeDecoder.getAt, hread]
    rfl

/-- The ones of an exponent come back, and the zero behind them. -/
theorem putOnes_back {fuel n : Nat} (hfuel : n < fuel) (c : Cell) (states : SymbolStates)
    (i : Nat) {ones : Cell × SymbolStates} (hones : putOnes table n i c states = ones) :
    Back c (putAt ones.1 ones.2 table (1 + min (i + n) 9) false).1 fun d d' =>
      RangeDecoder.getExponent table fuel d states i =
        (d', (putAt ones.1 ones.2 table (1 + min (i + n) 9) false).2, i + n) := by
  induction n generalizing fuel states c i with
  | zero =>
      rcases Nat.exists_eq_succ_of_ne_zero (by omega : fuel ≠ 0) with ⟨fuel, rfl⟩
      rw [putOnes] at hones
      subst hones
      refine (putAt_back table c states (1 + min i 9) false).mono ?_
      intro d d' hread
      rw [RangeDecoder.getExponent, hread]
      rfl
  | succ n ih =>
      rcases Nat.exists_eq_succ_of_ne_zero (by omega : fuel ≠ 0) with ⟨fuel, rfl⟩
      have hone := putAt_back table c states (1 + min i 9) true
      have hrest := ih (by omega : n < fuel) _ _ (i + 1) hones
      rw [show i + 1 + n = i + (n + 1) by omega] at hrest
      refine (hone.trans hrest).mono ?_
      rintro d d' ⟨d₁, hread, hread'⟩
      rw [RangeDecoder.getExponent, hread]
      exact hread'

/-- The bits of a mantissa come back behind the upper bits of a number. -/
theorem putMantissa_back {a : Nat} (ha : a < 9223372036854775808) (c : Cell)
    (states : SymbolStates) (i : Nat) :
    Back c (putMantissa table a i c states).1 fun d d' =>
      RangeDecoder.getMantissa table i d states (a / 2 ^ i) =
        .ok (d', (putMantissa table a i c states).2, a) := by
  induction i generalizing states c with
  | zero =>
      refine (ReadsBack.refl c).mono ?_
      rintro d d' rfl
      rw [RangeDecoder.getMantissa, Nat.pow_zero, Nat.div_one]
      rfl
  | succ i ih =>
      have hbit := putAt_back table c states (22 + min i 9) (a.testBit i)
      have hrest := ih (putAt c states table (22 + min i 9) (a.testBit i)).1
        (putAt c states table (22 + min i 9) (a.testBit i)).2
      refine (hbit.trans hrest).mono ?_
      rintro d d' ⟨d₁, hread, hread'⟩
      have hsplit : a / 2 ^ (i + 1) * 2 + (a.testBit i).toNat = a / 2 ^ i := by
        have hdiv : a / 2 ^ (i + 1) = a / 2 ^ i / 2 := by
          rw [Nat.pow_succ, Nat.div_div_eq_div_mul]
        have hplace : (a.testBit i).toNat = a / 2 ^ i % 2 := Nat.toNat_testBit a i
        omega
      have hle : a / 2 ^ i ≤ a := Nat.div_le_self a _
      rw [RangeDecoder.getMantissa, hread]
      dsimp only
      rw [hsplit, if_pos (by omega)]
      exact hread'

/-- A number that a signed or an unsigned symbol can hold. -/
structure CodedValue where
  value : Int
  signed : Bool
  le_value : (if signed then -2147483648 else 0) ≤ value
  value_lt : value < 2147483648

theorem CodedValue.natAbs_lt (v : CodedValue) : v.value.natAbs < 4294967296 := by
  have hle := v.le_value
  have hlt := v.value_lt
  split at hle
  · omega
  · omega

/-- The sign behind a mantissa. -/
def putSign {α : Type} [BitCoder α] (v : CodedValue) (e : α) (states : SymbolStates)
    (exponent : Nat) : α × SymbolStates :=
  if v.signed then
    putAt e states table (11 + min exponent 10) (decide (v.value < 0))
  else
    (e, states)

/-- The sign comes back behind a mantissa. -/
theorem putSign_back (v : CodedValue) (c : Cell) (states : SymbolStates) (exponent : Nat) :
    Back c (putSign table v c states exponent).1 fun d d' =>
      d.getSign states table v.signed exponent v.value.natAbs =
        (d', (putSign table v c states exponent).2, v.value) := by
  have hle := v.le_value
  have hlt := v.value_lt
  rw [putSign]
  cases hsigned : v.signed with
  | true =>
      rw [hsigned, if_pos rfl] at hle
      refine (putAt_back table c states (11 + min exponent 10) (decide (v.value < 0))).mono ?_
      intro d d' hread
      have hvalue : RangeDecoder.clampI32 (if decide (v.value < 0) = true then
          -(v.value.natAbs : Int) else (v.value.natAbs : Int)) = v.value := by
        rw [RangeDecoder.clampI32]
        by_cases hneg : v.value < 0
        · rw [if_pos (decide_eq_true hneg)]
          omega
        · rw [if_neg (by rw [decide_eq_false hneg]; decide)]
          omega
      rw [RangeDecoder.getSign, if_pos rfl, hread]
      dsimp only
      rw [hvalue]
      rfl
  | false =>
      rw [hsigned, if_neg Bool.false_ne_true] at hle
      refine (ReadsBack.refl c).mono ?_
      rintro d d' rfl
      have hvalue : RangeDecoder.clampI32 (v.value.natAbs : Int) = v.value := by
        rw [RangeDecoder.clampI32]
        omega
      rw [RangeDecoder.getSign, if_neg Bool.false_ne_true, hvalue]
      rfl

/-- A number comes back, and the states agree. -/
theorem putSymbol_back (v : CodedValue) (c : Cell) (states : SymbolStates) :
    Back c (putSymbol c states table v.value v.signed).1 fun d d' =>
      d.getSymbol states table v.signed =
        .ok (d', (putSymbol c states table v.value v.signed).2, v.value) := by
  rw [putSymbol]
  by_cases hzero : v.value = 0
  · rw [if_pos hzero]
    refine (putAt_back table c states 0 true).mono ?_
    intro d d' hread
    rw [RangeDecoder.getSymbol, hread, hzero]
    rfl
  · rw [if_neg hzero]
    have hpos : v.value.natAbs ≠ 0 := by omega
    have hbound := v.natAbs_lt
    have hlog : Nat.log2 v.value.natAbs < 32 := (Nat.log2_lt hpos).mpr hbound
    have htop : v.value.natAbs / 2 ^ Nat.log2 v.value.natAbs = 1 := by
      have hle := Nat.log2_self_le hpos
      have hlt : v.value.natAbs < 2 ^ (Nat.log2 v.value.natAbs + 1) := Nat.lt_log2_self
      exact Nat.div_eq_of_lt_le (by omega) (by rw [Nat.pow_succ] at hlt; omega)
    have hflag := putAt_back table c states 0 false
    generalize putAt c states table 0 false = flag at hflag ⊢
    have hones := putOnes_back table (by omega : Nat.log2 v.value.natAbs < 65) flag.1 flag.2 0 rfl
    rw [Nat.zero_add] at hones
    dsimp only
    generalize putAt (putOnes table _ 0 flag.1 flag.2).1 _ table _ false = ones at hones ⊢
    have hbits := putMantissa_back table (a := v.value.natAbs) (by omega) ones.1 ones.2
      (Nat.log2 v.value.natAbs)
    rw [htop] at hbits
    generalize putMantissa table _ _ ones.1 ones.2 = mantissa at hbits ⊢
    have hsign := putSign_back table v mantissa.1 mantissa.2 (Nat.log2 v.value.natAbs)
    refine (((hflag.trans hones).trans hbits).trans hsign).mono ?_
    rintro d d' ⟨d₃, ⟨d₂, ⟨d₁, hread₁, hread₂⟩, hread₃⟩, hread₄⟩
    rw [RangeDecoder.getSymbol, hread₁]
    dsimp only
    rw [if_neg Bool.false_ne_true, hread₂]
    dsimp only
    rw [hread₃]
    exact congrArg Except.ok hread₄

end Reading

/-! ## The encoder narrows the exact interval -/

/-- The encoder is at the exact interval, and the states of both are the same adapted ones. -/
structure Same (e : RangeEncoder × SymbolStates) (c : Cell × SymbolStates) : Prop where
  at_cell : e.1.At c.1
  states : e.2 = c.2
  adapted : AdaptedStates c.2

section Narrowing

open Vaco.Ffv1.StateTransition (defaultTable)

variable {e : RangeEncoder × SymbolStates} {c : Cell × SymbolStates}

theorem Same.adapted_encoder (h : Same e c) : AdaptedStates e.2 := by
  rw [h.states]
  exact h.adapted

theorem Same.putAt (h : Same e c) (i : Nat) (bit : Bool) :
    Same (putAt e.1 e.2 defaultTable i bit) (putAt c.1 c.2 defaultTable i bit) := by
  rcases RangeEncoder.putRac_at h.at_cell (h.adapted.get i) defaultTable bit with ⟨hat, hnext⟩
  rw [h.states]
  refine ⟨hat, ?_, ?_⟩
  · show statesSet c.2 i (e.1.putRac (statesGet c.2 i) defaultTable bit).2 = _
    rw [hnext]
    rfl
  · exact h.adapted.set i (StateTransition.adapted_default (h.adapted.get i) bit)

theorem Same.putOnes (h : Same e c) (n i : Nat) :
    Same (putOnes defaultTable n i e.1 e.2) (putOnes defaultTable n i c.1 c.2) := by
  induction n generalizing e c i with
  | zero => exact h
  | succ n ih => exact ih (h.putAt _ true) (i + 1)

theorem Same.putMantissa (h : Same e c) (a i : Nat) :
    Same (putMantissa defaultTable a i e.1 e.2) (putMantissa defaultTable a i c.1 c.2) := by
  induction i generalizing e c with
  | zero => exact h
  | succ i ih => exact ih (h.putAt _ _)

/-- A number narrows the interval. -/
theorem Same.putSymbol (h : Same e c) (value : Int) (signed : Bool) :
    Same (putSymbol e.1 e.2 defaultTable value signed)
      (putSymbol c.1 c.2 defaultTable value signed) := by
  rw [Ffv1.putSymbol, Ffv1.putSymbol]
  split
  · exact h.putAt 0 true
  · have hflag := h.putAt 0 false
    have hones := (hflag.putOnes (Nat.log2 value.natAbs) 0).putAt
      (1 + min (Nat.log2 value.natAbs) 9) false
    have hbits := hones.putMantissa value.natAbs (Nat.log2 value.natAbs)
    cases signed with
    | true => exact hbits.putAt _ _
    | false => exact hbits

end Narrowing

end Ffv1
end Vaco
