import Vaco.Ffv1.Slice

/-!
# When a sample of FFV1 is decoded in machine words

A step of the decoders meets its condition when the number it decodes, and the sums with it, fit
into machine words.  A step that does not meet it overflows, and no other step does; so a line
is free of overflows exactly when every sample that it reaches meets its condition.

Main results:

- `fitting_exact`: what is exact of every step is exact of every run.
- `getSymbol_exact`: a number overflows exactly when its exponent has 63 ones.
- `rangeSample_exact`: a sample of the range coder overflows exactly when its number or the sum with
  the prediction does.
- `golombSample_exact`: a sample of the Golomb-Rice mode overflows exactly when the sums of its
  state do.
- `decodeLineRange_exact` and `decodeLineGolomb_exact`: a line overflows exactly when a sample that
  it reaches does.
-/

namespace Vaco
namespace Ffv1

open Vaco.Bitstream (BitReader)

/-! ## Steps that are exact about overflows -/

section Exact

variable {σ α : Type} {Sound : σ → Prop}

/-- A result that is sound or an error that is reported. -/
def Settled (Sound : σ → Prop) : Except Fault σ → Prop
  | .ok s => Sound s
  | .error (.error _) => True
  | .error _ => False

/-- A result that is settled where a condition is met and an overflow elsewhere. -/
def Exact (Sound : σ → Prop) (fits : Prop) (r : Except Fault σ) : Prop :=
  (fits → Settled Sound r) ∧ (¬fits → r = .error .overflow)

theorem exact_error (e : Vaco.Core.Error) : Exact Sound True (.error (.error e) : Except Fault σ) :=
  ⟨fun _ => trivial, fun hnot => absurd trivial hnot⟩

theorem exact_ok {s : σ} (h : Sound s) : Exact Sound True (.ok s) :=
  ⟨fun _ => h, fun hnot => absurd trivial hnot⟩

theorem Exact.congr {fits fits' : Prop} {r : Except Fault σ} (h : Exact Sound fits r)
    (hiff : fits ↔ fits') : Exact Sound fits' r :=
  ⟨fun hfits => h.1 (hiff.mpr hfits), fun hnot => h.2 (fun hfits => hnot (hiff.mp hfits))⟩

/-- A step that is exact with one behind it that is exact. -/
theorem Exact.bind {τ : Type} {Sound' : τ → Prop} {fits : Prop} {fits' : σ → Prop}
    {r : Except Fault σ} {f : σ → Except Fault τ} (h : Exact Sound fits r)
    (hf : ∀ s, Sound s → r = .ok s → Exact Sound' (fits' s) (f s)) :
    Exact Sound' (fits ∧ ∀ s, r = .ok s → fits' s) (r >>= f) := by
  cases hr : r with
  | error fault =>
      rw [hr] at h
      constructor
      · rintro ⟨hfits, -⟩
        have hone := h.1 hfits
        cases fault with
        | overflow => exact hone
        | outOfFuel => exact hone
        | error e => exact hone
      · intro hnot
        have hover : ¬fits := fun hfits => hnot ⟨hfits, fun s hs => by cases hs⟩
        rw [error_bind]
        exact congrArg Except.error (Except.error.inj (h.2 hover))
  | ok s =>
      rw [hr] at h
      have hfits : fits := by
        by_contra hnot
        cases h.2 hnot
      have hnext := hf s (h.1 hfits) hr
      refine hnext.congr ⟨fun hs => ⟨hfits, ?_⟩, fun hboth => hboth.2 s rfl⟩
      intro s' heq
      rw [← Except.ok.inj heq]
      exact hs

/-- Every step that a run reaches meets its condition. -/
def Fitting (step : σ → α → Except Fault σ) (fits : σ → α → Prop) : σ → List α → Prop
  | _, [] => True
  | s, a :: rest => fits s a ∧ ∀ s', step s a = .ok s' → Fitting step fits s' rest

/-- What is exact of every step is exact of every run. -/
theorem fitting_exact {step : σ → α → Except Fault σ} {fits : σ → α → Prop}
    (h : ∀ s a, Sound s → Exact Sound (fits s a) (step s a)) {s : σ} (hs : Sound s)
    (inputs : List α) : Exact Sound (Fitting step fits s inputs) (inputs.foldlM step s) := by
  induction inputs generalizing s with
  | nil => exact exact_ok hs
  | cons a rest ih =>
      rw [List.foldlM_cons]
      exact (h s a hs).bind fun s' hs' _ => ih hs'

theorem Exact.map {τ : Type} {Sound' : τ → Prop} {fits : Prop} {r : Except Fault σ} (f : σ → τ)
    (h : Exact Sound fits r) (hf : ∀ s, Sound s → Sound' (f s)) :
    Exact Sound' fits (r >>= fun s => .ok (f s)) :=
  (h.bind fun s hs _ => exact_ok (hf s hs)).congr
    ⟨fun hboth => hboth.1, fun hfits => ⟨hfits, fun _ _ => trivial⟩⟩

/-- A result that is there or an error that is reported, and neither an overflow nor a loop that
goes on. -/
def InWords (r : Except Fault σ) : Prop :=
  r ≠ .error .overflow ∧ r ≠ .error .outOfFuel

theorem Exact.inWords {fits : Prop} {r : Except Fault σ} (h : Exact Sound fits r) :
    r ≠ .error .outOfFuel ∧ (InWords r ↔ fits) := by
  by_cases hfits : fits
  · have hone := h.1 hfits
    have hover : r ≠ .error .overflow := by
      rintro rfl
      exact hone.elim
    have hfuel : r ≠ .error .outOfFuel := by
      rintro rfl
      exact hone.elim
    exact ⟨hfuel, fun _ => hfits, fun _ => ⟨hover, hfuel⟩⟩
  · rw [h.2 hfits]
    refine ⟨by simp, fun hwords => absurd rfl hwords.1, fun hyes => absurd hyes hfits⟩

end Exact

/-! ## Numbers of the range coder -/

namespace RangeDecoder

def exponentOnes (table : StateTransition) : Nat → RangeDecoder → SymbolStates → Nat → Bool
  | 0, _, _, _ => true
  | n + 1, d, states, e =>
      let (d, states, bit) := d.getAt states table (1 + min e 9)
      bit && exponentOnes table n d states (e + 1)

/-- A number fits: it is zero, or the first 63 decisions of its exponent are not all ones. -/
def SymbolFits (d : RangeDecoder) (states : SymbolStates) (table : StateTransition) : Prop :=
  let (d, states, zero) := d.getAt states table 0
  zero = true ∨ exponentOnes table 63 d states 0 = false

/-- An exponent reaches a count exactly when so many decisions are ones. -/
theorem getExponent_ge (table : StateTransition) {n fuel : Nat} (hn : n ≤ fuel) (d : RangeDecoder)
    (states : SymbolStates) (e : Nat) :
    e + n ≤ (getExponent table fuel d states e).2.2 ↔ exponentOnes table n d states e = true := by
  induction n generalizing fuel d states e with
  | zero =>
      have hgrows : ∀ fuel d states e, e ≤ (getExponent table fuel d states e).2.2 := by
        intro fuel
        induction fuel with
        | zero => exact fun d states e => le_refl e
        | succ fuel ih =>
            intro d states e
            rw [getExponent]
            dsimp only
            split
            · exact (Nat.le_succ e).trans (ih _ _ _)
            · exact le_refl e
      exact ⟨fun _ => rfl, fun _ => hgrows fuel d states e⟩
  | succ n ih =>
      rcases Nat.exists_eq_succ_of_ne_zero (by omega : fuel ≠ 0) with ⟨fuel, rfl⟩
      rw [getExponent, exponentOnes]
      dsimp only
      cases (d.getAt states table (1 + min e 9)).2.2 with
      | true =>
          have hnext := ih (by omega : n ≤ fuel) (d.getAt states table (1 + min e 9)).1
            (d.getAt states table (1 + min e 9)).2.1 (e + 1)
          rw [if_pos rfl, Bool.true_and, ← hnext, Nat.add_right_comm, Nat.add_assoc]
      | false =>
          rw [if_neg Bool.false_ne_true, Bool.false_and]
          constructor
          · intro hle
            dsimp only at hle
            omega
          · intro hfalse
            exact absurd hfalse Bool.false_ne_true

theorem getMantissa_ok (table : StateTransition) {i m a : Nat} (hplaces : m + i ≤ 63)
    (ha : a < 2 ^ m) (d : RangeDecoder) (states : SymbolStates) :
    ∃ d' states' a', getMantissa table i d states a = .ok (d', states', a') := by
  induction i generalizing m a d states with
  | zero => exact ⟨d, states, a, rfl⟩
  | succ i ih =>
      rw [getMantissa]
      generalize d.getAt states table (22 + min i 9) = read
      rcases read with ⟨d, states, bit⟩
      dsimp only
      have hbit := Bool.toNat_lt bit
      have hdouble : a * 2 + bit.toNat < 2 ^ (m + 1) := by
        rw [Nat.pow_succ]
        omega
      have hpow : 2 ^ (m + 1) ≤ 2 ^ 63 := Nat.pow_le_pow_right (by decide) (by omega)
      rw [if_pos (by omega)]
      exact ih (by omega) hdouble _ _

theorem getMantissa_overflow (table : StateTransition) {i m a : Nat} (hplaces : 63 ≤ m + i)
    (ha : 2 ^ m ≤ a) (hlt : a < 2 ^ 63) (d : RangeDecoder) (states : SymbolStates) :
    getMantissa table i d states a = .error .overflow := by
  induction i generalizing m a d states with
  | zero =>
      have hpow : 2 ^ 63 ≤ 2 ^ m := Nat.pow_le_pow_right (by decide) (by omega)
      omega
  | succ i ih =>
      rw [getMantissa]
      generalize d.getAt states table (22 + min i 9) = read
      rcases read with ⟨d, states, bit⟩
      dsimp only
      split
      · rename_i hfit
        have hdouble : 2 ^ (m + 1) ≤ a * 2 + bit.toNat := by
          rw [Nat.pow_succ]
          omega
        exact ih (by omega) hdouble (by omega) _ _
      · rfl

theorem clampI32_bounds (v : Int) : -2147483648 ≤ clampI32 v ∧ clampI32 v ≤ 2147483647 := by
  rw [clampI32]
  omega

theorem getSign_bounds (d : RangeDecoder) (states : SymbolStates) (table : StateTransition)
    (signed : Bool) (e a : Nat) :
    -2147483648 ≤ (d.getSign states table signed e a).2.2 ∧
      (d.getSign states table signed e a).2.2 ≤ 2147483647 := by
  rw [getSign]
  split
  · exact clampI32_bounds _
  · exact clampI32_bounds _

/-- A number is decoded to 32 bits, and overflows exactly when its exponent has 63 ones. -/
theorem getSymbol_exact (d : RangeDecoder) (states : SymbolStates) (table : StateTransition)
    (signed : Bool) :
    Exact (fun r => -2147483648 ≤ r.2.2 ∧ r.2.2 ≤ 2147483647) (d.SymbolFits states table)
      (d.getSymbol states table signed) := by
  rw [getSymbol, SymbolFits]
  generalize d.getAt states table 0 = flag
  rcases flag with ⟨d, states, zero⟩
  dsimp only
  cases zero with
  | true =>
      refine ⟨fun _ => ?_, fun hnot => absurd (Or.inl rfl) hnot⟩
      show (-2147483648 : Int) ≤ 0 ∧ (0 : Int) ≤ 2147483647
      decide
  | false =>
      rw [if_neg Bool.false_ne_true]
      have hones := getExponent_ge table (by decide : 63 ≤ 65) d states 0
      generalize getExponent table 65 d states 0 = exponent at hones ⊢
      rcases exponent with ⟨d', states', e⟩
      dsimp only at hones ⊢
      rw [Nat.zero_add] at hones
      constructor
      · rintro (hzero | hfew)
        · exact absurd hzero Bool.false_ne_true
        · have hlt : e < 63 := by
            by_contra hmany
            rw [hones.mp (not_lt.mp hmany)] at hfew
            cases hfew
          rcases getMantissa_ok table (i := e) (m := 1) (a := 1) (by omega) (by decide) d' states'
            with ⟨d₁, states₁, a, hmantissa⟩
          rw [hmantissa]
          exact getSign_bounds d₁ states₁ table signed e a
      · intro hnot
        have hmany : 63 ≤ e := by
          rw [hones]
          by_contra hfew
          exact hnot (Or.inr (Bool.eq_false_of_not_eq_true hfew))
        rw [getMantissa_overflow table (m := 0) (a := 1) (by omega) (by decide) (by decide)]
        rfl

theorem getRac_range_le {d : RangeDecoder} (h : d.range ≤ 65280) (state : BitVec 8)
    (table : StateTransition) : (d.getRac state table).1.range ≤ 65280 := by
  have hrefill : ∀ d : RangeDecoder, d.range ≤ 65280 → d.refill.range ≤ 65280 := by
    intro d hd
    rw [refill]
    split
    · dsimp only
      omega
    · exact hd
  have hoff : d.range * state.toNat / 256 ≤ d.range := by
    have hlt := state.isLt
    have hmul := Nat.mul_le_mul_left d.range hlt.le
    omega
  rw [getRac]
  split
  · exact hrefill _ (by dsimp only; omega)
  · exact hrefill _ (by dsimp only; omega)

theorem getAt_range_le {d : RangeDecoder} (h : d.range ≤ 65280) (states : SymbolStates)
    (table : StateTransition) (i : Nat) : (d.getAt states table i).1.range ≤ 65280 :=
  getRac_range_le h _ table

theorem getExponent_range_le (table : StateTransition) {d : RangeDecoder} (h : d.range ≤ 65280)
    (fuel : Nat) (states : SymbolStates) (e : Nat) :
    (getExponent table fuel d states e).1.range ≤ 65280 := by
  induction fuel generalizing d states e with
  | zero => exact h
  | succ fuel ih =>
      have hnext := getAt_range_le h states table (1 + min e 9)
      rw [getExponent]
      dsimp only
      split
      · exact ih hnext _ _
      · exact hnext

theorem getMantissa_range_le (table : StateTransition) {d d' : RangeDecoder}
    (h : d.range ≤ 65280) {i a a' : Nat} {states states' : SymbolStates}
    (hread : getMantissa table i d states a = .ok (d', states', a')) : d'.range ≤ 65280 := by
  induction i generalizing d states a with
  | zero =>
      rw [getMantissa, Except.ok.injEq, Prod.mk.injEq] at hread
      rw [← hread.1]
      exact h
  | succ i ih =>
      rw [getMantissa] at hread
      dsimp only at hread
      split at hread
      · exact ih (getAt_range_le h _ table _) hread
      · cases hread

theorem getSign_range_le {d : RangeDecoder} (h : d.range ≤ 65280) (states : SymbolStates)
    (table : StateTransition) (signed : Bool) (e a : Nat) :
    (d.getSign states table signed e a).1.range ≤ 65280 := by
  rw [getSign]
  split
  · exact getAt_range_le h _ table _
  · exact h

/-- Decoding a number keeps the range in sixteen bits. -/
theorem getSymbol_range_le {d d' : RangeDecoder} (h : d.range ≤ 65280)
    {states states' : SymbolStates} {table : StateTransition} {signed : Bool} {v : Int}
    (hread : d.getSymbol states table signed = .ok (d', states', v)) : d'.range ≤ 65280 := by
  have hflag := getAt_range_le h states table 0
  rw [getSymbol] at hread
  dsimp only at hread
  split at hread
  · rw [Except.ok.injEq, Prod.mk.injEq] at hread
    rw [← hread.1]
    exact hflag
  · have hexponent := getExponent_range_le table hflag 65 (d.getAt states table 0).2.1 0
    generalize getExponent table 65 (d.getAt states table 0).1 (d.getAt states table 0).2.1 0 =
      exponent at hread hexponent
    rcases exponent with ⟨d₁, states₁, e⟩
    dsimp only at hread hexponent
    cases hmantissa : getMantissa table e d₁ states₁ 1 with
    | error fault =>
        rw [hmantissa] at hread
        cases hread
    | ok read =>
        rcases read with ⟨d₂, states₂, a⟩
        rw [hmantissa] at hread
        have hwhole : d₂.getSign states₂ table signed e a = (d', states', v) :=
          Except.ok.inj hread
        have hsign := getSign_range_le (getMantissa_range_le table hexponent hmantissa) states₂
          table signed e a
        rw [hwhole] at hsign
        exact hsign

end RangeDecoder

/-! ## Samples of the range coder -/

/-- The difference of a sample as it is added to the prediction. -/
def signedDiff (qts : QuantTableSet) (n : Neighbours) (diff : Int) : Int :=
  if qts.rawContext n < 0 then -diff else diff

/-- The sum of a difference with the prediction overflows exactly when it is too large. -/
theorem addDiff_exact (qts : QuantTableSet) {n : Neighbours} {bits : Nat} (hbits : bits ≤ 16)
    (h : n.Bounded bits) {diff : Int} (hge : -2147483648 ≤ diff) (hle : diff ≤ 2147483647) :
    Exact (fun _ => True) (n.prediction + signedDiff qts n diff ≤ 2147483647)
      (flipped (decide (qts.rawContext n < 0)) diff >>= fun diff =>
        i32Checked (n.prediction + diff)) := by
  have hpow := two_pow_le_of_le hbits
  have hpred := prediction_bounds h
  rw [signedDiff]
  by_cases hneg : qts.rawContext n < 0
  · rw [if_pos hneg, flipped, if_pos (decide_eq_true hneg)]
    constructor
    · intro hfit
      rw [i32Checked_of_fits (by omega) (by omega), ok_bind, i32Checked_of_fits (by omega) hfit]
      trivial
    · intro hmore
      by_cases hflip : -diff ≤ 2147483647
      · rw [i32Checked_of_fits (by omega) hflip, ok_bind, i32Checked, if_neg (by omega)]
      · rw [i32Checked, if_neg (by omega), error_bind]
  · rw [if_neg hneg, flipped, if_neg (by rw [decide_eq_false hneg]; decide), ok_bind]
    constructor
    · intro hfit
      rw [i32Checked_of_fits (by omega) hfit]
      trivial
    · intro hmore
      rw [i32Checked, if_neg (by omega)]

theorem setSample_exact {σ : Type} {Sound : σ → Prop} (qts : QuantTableSet) {n : Neighbours}
    {bits : Nat} (hpos : 1 ≤ bits) (hbits : bits ≤ 16) (h : n.Bounded bits) {diff : Int}
    (hge : -2147483648 ≤ diff) (hle : diff ≤ 2147483647) (f : Int → σ)
    (hf : ∀ v, 0 ≤ v ∧ v < 2 ^ bits → Sound (f v)) :
    Exact Sound (n.prediction + signedDiff qts n diff ≤ 2147483647)
      (flipped (decide (qts.rawContext n < 0)) diff >>= fun diff =>
        i32Checked (n.prediction + diff) >>= fun sum => .ok (f (wrapSample sum bits))) := by
  have hsum := (addDiff_exact qts hbits h hge hle).map (fun sum => f (wrapSample sum bits))
    fun sum _ => hf _ (wrapSample_bounds sum hpos (by omega))
  rwa [bind_assoc] at hsum

namespace RangeLine

/-- A line whose samples have a number of bits. -/
structure Sound (bits : Nat) (s : RangeLine) : Prop where
  range_le : s.dec.range ≤ 65280
  bounded : s.buf.Bounded bits

/-- A sample fits: its number does, and its sum with the prediction has 32 bits. -/
def SampleFits (table : StateTransition) (qts : QuantTableSet) (y : Nat) (s : RangeLine)
    (x : Nat) : Prop :=
  let n := s.buf.neighbours x y
  ∀ st, s.states[(qts.rawContext n).natAbs]? = some st →
    s.dec.SymbolFits st table ∧
      ∀ read, s.dec.getSymbol st table true = .ok read →
        n.prediction + signedDiff qts n read.2.2 ≤ 2147483647

/-- A sample overflows exactly when it does not fit. -/
theorem rangeSample_exact (table : StateTransition) (qts : QuantTableSet) {bits : Nat}
    (hpos : 1 ≤ bits) (hbits : bits ≤ 16) (y : Nat) (s : RangeLine) (x : Nat) (h : s.Sound bits) :
    Exact (Sound bits) (s.SampleFits table qts y x) (s.sample table qts bits y x) := by
  have hn := SliceBuf.neighbours_bounded h.bounded x y
  rw [sample, SampleFits, computeContext_eq qts hbits hn]
  generalize s.buf.neighbours x y = n at hn ⊢
  rw [ok_bind]
  dsimp only
  cases hstate : s.states[(qts.rawContext n).natAbs]? with
  | none =>
      refine (exact_error _).congr ⟨fun _ st hst => ?_, fun _ => trivial⟩
      cases hst
  | some st =>
      have hsymbol := RangeDecoder.getSymbol_exact s.dec st table true
      have hsample : Exact (Sound bits)
          (s.dec.SymbolFits st table ∧ ∀ read, s.dec.getSymbol st table true = .ok read →
            n.prediction + signedDiff qts n read.2.2 ≤ 2147483647)
          (s.dec.getSymbol st table true >>= fun read => do
            let diff ← flipped (decide (qts.rawContext n < 0)) read.2.2
            let pred ← medianPredictor n.l n.t n.tl
            let sum ← i32Checked (pred + diff)
            .ok ⟨read.1, s.states.set (qts.rawContext n).natAbs read.2.1,
              s.buf.set x y (wrapSample sum bits)⟩) := by
        refine hsymbol.bind ?_
        rintro ⟨dec, st', diff⟩ ⟨hge, hle⟩ hread
        have hline : ∀ v, 0 ≤ v ∧ v < 2 ^ bits → Sound bits
            ⟨dec, s.states.set (qts.rawContext n).natAbs st', s.buf.set x y v⟩ := fun v hv =>
          ⟨RangeDecoder.getSymbol_range_le h.range_le hread, h.bounded.set x y hv⟩
        rw [medianPredictor_eq hbits hn, ← Neighbours.prediction]
        exact setSample_exact qts hpos hbits hn hge hle _ hline
      refine hsample.congr ⟨fun hboth st' hst => ?_, fun hall => hall st rfl⟩
      rw [← Option.some.inj hst]
      exact hboth

/-- Every sample that a line reaches fits. -/
def LineFits (table : StateTransition) (qts : QuantTableSet) (bits : Nat) (s : RangeLine)
    (y : Nat) : Prop :=
  Fitting (sample table qts bits y) (SampleFits table qts y)
    { s with states := grown s.states qts.contextCount freshStates } (List.range s.buf.w)

end RangeLine

/-- A line of the range coder overflows exactly when a sample that it reaches does not fit. -/
theorem decodeLineRange_exact (table : StateTransition) (qts : QuantTableSet) {bits : Nat}
    (hpos : 1 ≤ bits) (hbits : bits ≤ 16) {s : RangeLine} (y : Nat) (h : s.Sound bits) :
    Exact (RangeLine.Sound bits) (s.LineFits table qts bits y)
      (decodeLineRange table qts bits s y) := by
  have hgrown : RangeLine.Sound bits
      { s with states := grown s.states qts.contextCount freshStates } :=
    ⟨h.range_le, h.bounded⟩
  exact fitting_exact (RangeLine.rangeSample_exact table qts hpos hbits y) hgrown _

/-! ## Samples of the Golomb-Rice mode -/

/-- A symbol or a level overflows exactly when the sums of its state do. -/
theorem vlc_exact {rs : RiceState} (h : rs.Valid) (r : BitReader) {bits : Nat} (hpos : 1 ≤ bits)
    (hbits : bits ≤ 16) (inRun : Bool) :
    Exact (fun read => read.2.1.Valid ∧ -2 ^ (bits - 1) ≤ read.2.2 ∧ read.2.2 ≤ 2 ^ (bits - 1))
      (rs.VlcFits r bits) (GolombLine.symbolOrLevel rs r bits inRun) := by
  rw [GolombLine.symbolOrLevel]
  rcases decodeLevel_eq (s := rs) (r := r) hpos (by omega : bits < 32) with ⟨hover, hlevel⟩
  constructor
  · intro hfits
    rcases RiceState.getVlcSymbol_fits h hpos (by omega) hfits with ⟨r', s', v, hread, hvalid, hge,
      hlt⟩
    cases inRun with
    | true =>
        rcases hlevel r' s' v hread hge hlt with ⟨v', hread', hge', hle'⟩
        rw [if_pos rfl, hread']
        exact ⟨hvalid, hge', hle'⟩
    | false =>
        rw [if_neg Bool.false_ne_true, hread]
        exact ⟨hvalid, hge, hlt.le⟩
  · intro hnot
    have hsymbol := RiceState.getVlcSymbol_overflow h hnot
    cases inRun with
    | true => rw [if_pos rfl, hover hsymbol]
    | false => rw [if_neg Bool.false_ne_true, hsymbol]

namespace GolombLine

/-- A line whose samples have a number of bits and whose states are valid. -/
structure Sound (bits : Nat) (s : GolombLine) : Prop where
  bounded : s.buf.Bounded bits
  states : ∀ rs ∈ s.states, rs.Valid
  run : s.run.Valid

variable {bits : Nat} {s : GolombLine}

theorem advance_eq (h : s.Sound bits) (ctx x : Nat) :
    ∃ s' inRun covers, s.advance ctx x = .ok (s', inRun, covers) ∧ s'.Sound bits := by
  have hrun := RunState.enterIfZeroContext_valid h.run ctx
  rw [advance]
  dsimp only
  split
  · rcases RunState.nextSample_eq hrun s.reader x s.buf.w with ⟨r', run', covers, hnext, hvalid⟩
    rw [hnext, ok_bind]
    exact ⟨_, true, covers, rfl, h.bounded, h.states, hvalid⟩
  · exact ⟨_, false, false, rfl, h.bounded, h.states, hrun⟩

/-- The difference of a sample fits: a run covers the sample, or the sums of the state do. -/
def DifferenceFits (bits : Nat) (s : GolombLine) (ctx : Nat) (covers : Bool) : Prop :=
  covers = false → ∀ rs, s.states[ctx]? = some rs → rs.VlcFits s.reader bits

/-- The difference of a sample overflows exactly when it does not fit. -/
theorem difference_exact (h : s.Sound bits) (hpos : 1 ≤ bits) (hbits : bits ≤ 16) (ctx : Nat)
    (inRun covers : Bool) :
    Exact (fun read => Sound bits read.1 ∧ -2 ^ (bits - 1) ≤ read.2 ∧ read.2 ≤ 2 ^ (bits - 1))
      (s.DifferenceFits bits ctx covers) (s.difference bits ctx inRun covers) := by
  rw [difference]
  cases covers with
  | true =>
      have hpow : (0 : Int) ≤ 2 ^ (bits - 1) := by positivity
      refine (exact_ok ⟨h, by omega, hpow⟩).congr ?_
      exact ⟨fun _ hfalse => absurd hfalse.symm Bool.false_ne_true, fun _ => trivial⟩
  | false =>
      rw [if_neg Bool.false_ne_true]
      cases hstate : s.states[ctx]? with
      | none =>
          refine (exact_error _).congr ⟨fun _ _ rs hrs => ?_, fun _ => trivial⟩
          rw [hstate] at hrs
          cases hrs
      | some rs =>
          have hone : s.DifferenceFits bits ctx false ↔ rs.VlcFits s.reader bits := by
            constructor
            · exact fun hall => hall rfl rs hstate
            · intro hfits _ rs' hrs
              rw [hstate] at hrs
              rw [← Option.some.inj hrs]
              exact hfits
          have hvlc := vlc_exact (h.states rs (List.mem_of_getElem? hstate)) s.reader hpos hbits
            inRun
          rw [hone]
          refine hvlc.map (fun read =>
            ({ s with reader := read.1, states := s.states.set ctx read.2.1 }, read.2.2)) ?_
          rintro ⟨reader, rs', v⟩ ⟨hvalid, hge, hle⟩
          refine ⟨⟨h.bounded, ?_, h.run⟩, hge, hle⟩
          intro u hu
          rcases List.mem_or_eq_of_mem_set hu with hu | rfl
          · exact h.states u hu
          · exact hvalid

/-- A sample fits: the difference behind the run does. -/
def SampleFits (qts : QuantTableSet) (bits y : Nat) (s : GolombLine) (x : Nat) : Prop :=
  let ctx := (qts.rawContext (s.buf.neighbours x y)).natAbs
  ∀ next, s.advance ctx x = .ok next → next.1.DifferenceFits bits ctx next.2.2

/-- A sample overflows exactly when it does not fit. -/
theorem golombSample_exact (qts : QuantTableSet) (hpos : 1 ≤ bits) (hbits : bits ≤ 16) (y : Nat)
    (s : GolombLine) (x : Nat) (h : s.Sound bits) :
    Exact (Sound bits) (s.SampleFits qts bits y x) (s.sample qts bits y x) := by
  have hn := SliceBuf.neighbours_bounded h.bounded x y
  have hpow := two_pow_le_of_le hbits
  have hhalf : (2 : Int) ^ bits = 2 * 2 ^ (bits - 1) := by
    rw [← pow_succ', Nat.sub_add_cancel hpos]
  rw [sample, SampleFits, predict_eq qts hbits hn, ok_bind]
  generalize s.buf.neighbours x y = n at hn ⊢
  have hpred := prediction_bounds hn
  dsimp only
  rcases advance_eq h (qts.rawContext n).natAbs x with ⟨s', inRun, covers, hadvance, hsound⟩
  have hread := difference_exact hsound hpos hbits (qts.rawContext n).natAbs inRun covers
  rw [hadvance, ok_bind]
  dsimp only
  -- A difference of so few bits never overflows when it is added to the prediction.
  have hadded : ∀ read : GolombLine × Int, -2 ^ (bits - 1) ≤ read.2 → read.2 ≤ 2 ^ (bits - 1) →
      n.prediction + signedDiff qts n read.2 ≤ 2147483647 := by
    intro read hge hle
    rw [signedDiff]
    split
    · omega
    · omega
  have hsum : Exact (Sound bits)
      (s'.DifferenceFits bits (qts.rawContext n).natAbs covers ∧
        ∀ read, s'.difference bits (qts.rawContext n).natAbs inRun covers = .ok read →
          n.prediction + signedDiff qts n read.2 ≤ 2147483647)
      (s'.difference bits (qts.rawContext n).natAbs inRun covers >>= fun read => do
        let diff ← flipped (decide (qts.rawContext n < 0)) read.2
        let sum ← i32Checked (n.prediction + diff)
        .ok { read.1 with buf := read.1.buf.set x y (wrapSample sum bits) }) := by
    refine hread.bind ?_
    rintro ⟨line, diff⟩ ⟨hline, hge, hle⟩ -
    have hset : ∀ v, 0 ≤ v ∧ v < 2 ^ bits →
        Sound bits { line with buf := line.buf.set x y v } := fun v hv =>
      ⟨hline.bounded.set x y hv, hline.states, hline.run⟩
    dsimp only at hge hle
    exact setSample_exact qts hpos hbits hn (by omega) (by omega) _ hset
  refine hsum.congr ?_
  constructor
  · intro hboth next hnext
    rw [← Except.ok.inj hnext]
    exact hboth.1
  · intro hall
    have hfits := hall _ rfl
    refine ⟨hfits, ?_⟩
    intro read heq
    have hsettled := hread.1 hfits
    rw [heq] at hsettled
    exact hadded read hsettled.2.1 hsettled.2.2

/-- Every sample that a line reaches fits. -/
def LineFits (qts : QuantTableSet) (bits : Nat) (s : GolombLine) (y : Nat) : Prop :=
  Fitting (sample qts bits y) (SampleFits qts bits y)
    { s with
      states := grown s.states qts.contextCount RiceState.fresh
      run := s.run.beginLine } (List.range s.buf.w)

end GolombLine

/-- A line of the Golomb-Rice mode overflows exactly when a sample that it reaches does not
fit. -/
theorem decodeLineGolomb_exact (qts : QuantTableSet) {bits : Nat} (hpos : 1 ≤ bits)
    (hbits : bits ≤ 16) {s : GolombLine} (y : Nat) (h : s.Sound bits) :
    Exact (GolombLine.Sound bits) (s.LineFits qts bits y) (decodeLineGolomb qts bits s y) := by
  have hgrown : GolombLine.Sound bits
      { s with
        states := grown s.states qts.contextCount RiceState.fresh
        run := s.run.beginLine } := by
    refine ⟨h.bounded, ?_, RunState.beginLine_valid s.run⟩
    intro rs hrs
    rcases List.mem_append.mp hrs with hrs | hrs
    · exact h.states rs hrs
    · rw [List.eq_of_mem_replicate hrs]
      exact RiceState.valid_fresh
  exact fitting_exact (GolombLine.golombSample_exact qts hpos hbits y) hgrown _

end Ffv1
end Vaco
