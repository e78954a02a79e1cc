import Vaco.Core.WideQuotient

/-!
# Arithmetic and order of exact durations

A duration is a reduced fraction of seconds.  Sums split the common divisor of the denominators
off before they multiply, so that a result that fits is not refused for a large product; the
comparison expands both fractions into continued fractions and never multiplies.

Main results:

- `checkedCombine_value`: a sum that is returned is exact.
- `duration_exact`: so is every duration that is made, and the order of two.
-/

namespace Vaco
namespace Core

open Library

namespace Duration

/-! ## Constructors -/

/-- The exact number of seconds. -/
def value (d : Duration) : ℚ :=
  (d.numerator.val : ℚ) / d.denominator.val

theorem fits_val (v : I128) : FitsI128 v.val :=
  ⟨v.le_val, v.val_le⟩

/-- Build an exact fraction of seconds when the denominator is positive. -/
def fromFraction (numerator denominator : I128) : Option Duration :=
  if hpos : 0 < denominator.val then
    some (fromRatio numerator.val denominator.val (fits_val numerator) (fits_val denominator) hpos)
  else
    none

/-- The number that some digits write; no digits write zero. -/
def digitsValue (digits : List Char) : Nat :=
  digits.foldl (fun n c => n * 10 + (c.toNat - '0'.toNat)) 0

/-- The number that some digits write, if it fits. -/
def parseDigits (digits : List Char) : Option I128 :=
  if digits.isEmpty then some (.lit 0)
  else toI128? (digitsValue digits)

/-- A positive value of 128 bits. -/
abbrev Scale :=
  {scale : I128 // 0 < scale.val}

/-- Ten times a scale, if it fits. -/
def Scale.tenfold (scale : Scale) : Option Scale :=
  if hfits : scale.val.val * 10 ≤ 170141183460469231731687303715884105727 then
    some ⟨⟨scale.val.val * 10, by have := scale.property; omega, hfits⟩,
      by have := scale.property; dsimp only; omega⟩
  else
    none

/-- The power of ten for a number of digits, if it fits. -/
def decimalScale : Nat → Option Scale
  | 0 => some ⟨.lit 1, by decide⟩
  | digits + 1 => (decimalScale digits).bind Scale.tenfold

/-- The text before the first point, and the text behind it. -/
def splitOnce (text : List Char) : List Char × List Char :=
  ((text.span (· != '.')).1, (text.span (· != '.')).2.drop 1)

/-- The duration of the digits in front of the point and of those behind it. -/
def fromDigits (negative : Bool) (whole fraction : List Char) : Option Duration :=
  if whole.isEmpty && fraction.isEmpty || !whole.all Char.isDigit || !fraction.all Char.isDigit then
    none
  else do
    let wholeValue ← parseDigits whole
    let fractionValue ← parseDigits fraction
    let scale ← decimalScale fraction.length
    let scaled ← toI128? (wholeValue.val * scale.val.val)
    let sum ← toI128? (scaled.val + fractionValue.val)
    let numerator ← (if negative then toI128? (-sum.val) else some sum)
    some (fromRatio numerator.val scale.val.val (fits_val numerator) (fits_val scale.val)
      scale.property)

/-- Read decimal seconds without passing through binary floating point. -/
def fromDecimalSeconds (text : List Char) : Option Duration :=
  let (negative, text) : Bool × List Char := match text with
    | '-' :: rest => (true, rest)
    | text => (false, text)
  fromDigits negative (splitOnce text).1 (splitOnce text).2

/-! ## Sums -/

theorem gcdI128_denominators (d e : Duration) :
    0 < gcdI128 d.denominator.val e.denominator.val ∧
      gcdI128 d.denominator.val e.denominator.val =
        Int.gcd d.denominator.val e.denominator.val := by
  have hpos : 0 < Int.gcd d.denominator.val e.denominator.val :=
    Int.gcd_pos_of_ne_zero_left _ d.den_pos.ne'
  rw [gcdI128]
  split <;> omega

theorem gcdI128_reduction (numerator : Int) {gcd : Int} (hgcd : 0 < gcd) :
    0 < gcdI128 |numerator.tmod gcd| gcd ∧
      gcdI128 |numerator.tmod gcd| gcd = Int.gcd numerator gcd := by
  have hpos : 0 < Int.gcd numerator gcd := Int.gcd_pos_of_ne_zero_right numerator hgcd.ne'
  have heq := gcdI128_tmod (n := numerator) hgcd
  exact ⟨by omega, heq⟩

theorem tdiv_pos {n g : Int} (hn : 0 < n) (hg : 0 < g) (hdvd : g ∣ n) : 0 < n.tdiv g := by
  rw [Int.tdiv_eq_ediv_of_dvd hdvd]
  exact Int.ediv_pos_of_pos_of_dvd hn hg.le hdvd

theorem combined_pos (d e : Duration) {gcd : Int}
    (hgcd : gcd = gcdI128 d.denominator.val e.denominator.val) (numerator : Int) :
    0 < d.denominator.val.tdiv gcd * e.denominator.val.tdiv (gcdI128 |numerator.tmod gcd| gcd) := by
  rcases gcdI128_denominators d e with ⟨hpos, heq⟩
  rw [← hgcd] at hpos heq
  rcases gcdI128_reduction numerator hpos with ⟨hred, hredEq⟩
  have hleft : gcd ∣ d.denominator.val := by
    rw [heq]
    exact Int.gcd_dvd_left _ _
  have hright : gcd ∣ e.denominator.val := by
    rw [heq]
    exact Int.gcd_dvd_right _ _
  have hdivides : gcdI128 |numerator.tmod gcd| gcd ∣ gcd := by
    rw [hredEq]
    exact Int.gcd_dvd_right _ _
  exact mul_pos (tdiv_pos d.den_pos hpos hleft)
    (tdiv_pos e.den_pos hred (hdivides.trans hright))

theorem fits_of_pos {v : Int} (hpos : 0 < v)
    (hle : v ≤ 170141183460469231731687303715884105727) : FitsI128 v :=
  ⟨by omega, hle⟩

/-- Combine two durations, refusing an intermediate or a result outside of 128 bits. -/
def checkedCombine (d e : Duration) (subtract : Bool) : Option Duration :=
  let gcd := gcdI128 d.denominator.val e.denominator.val
  (toI128? (d.numerator.val * e.denominator.val.tdiv gcd)).bind fun lhs =>
  (toI128? (e.numerator.val * d.denominator.val.tdiv gcd)).bind fun rhs =>
  (toI128? (if subtract then lhs.val - rhs.val else lhs.val + rhs.val)).bind fun numerator =>
  if numerator.val = 0 then
    some ZERO
  else
    let reduction := gcdI128 |numerator.val.tmod gcd| gcd
    if hfits : d.denominator.val.tdiv gcd * e.denominator.val.tdiv reduction ≤
        170141183460469231731687303715884105727 then
      some (fromRatio (numerator.val.tdiv reduction)
        (d.denominator.val.tdiv gcd * e.denominator.val.tdiv reduction)
        ((fits_val numerator).tdiv (gcdI128_reduction numerator.val (gcdI128_denominators d e).1).1)
        (fits_of_pos (combined_pos d e rfl numerator.val) hfits)
        (combined_pos d e rfl numerator.val))
    else
      none

/-- Add exact seconds. -/
def checkedAdd (d e : Duration) : Option Duration :=
  d.checkedCombine e false

/-- Subtract exact seconds. -/
def checkedSub (d e : Duration) : Option Duration :=
  d.checkedCombine e true

/-! ## Order -/

/-- A fraction that is not negative. -/
structure Ratio where
  num : Nat
  den : Nat
  den_pos : 0 < den

/-- The magnitude of a duration. -/
def magnitude (d : Duration) : Ratio where
  num := d.numerator.val.natAbs
  den := d.denominator.val.natAbs
  den_pos := Int.natAbs_pos.mpr d.den_pos.ne'

/-- Compare fractions by their continued fractions. -/
def cmpNonnegativeRatios (x y : Ratio) (reverse : Bool) : Ordering :=
  if x.num / x.den ≠ y.num / y.den then
    if reverse then compare (y.num / y.den) (x.num / x.den)
    else compare (x.num / x.den) (y.num / y.den)
  else if hleft : x.num % x.den = 0 then
    if y.num % y.den = 0 then .eq else if reverse then .gt else .lt
  else if hright : y.num % y.den = 0 then
    if reverse then .lt else .gt
  else
    cmpNonnegativeRatios ⟨x.den, x.num % x.den, Nat.pos_of_ne_zero hleft⟩
      ⟨y.den, y.num % y.den, Nat.pos_of_ne_zero hright⟩ (!reverse)
termination_by x.den
decreasing_by exact Nat.mod_lt x.num x.den_pos

/-- The comparison of durations. -/
def cmp (d e : Duration) : Ordering :=
  if d.numerator.val.sign ≠ e.numerator.val.sign then
    compare d.numerator.val.sign e.numerator.val.sign
  else if d.numerator.val.sign = 0 then
    .eq
  else if d.numerator.val.sign = 1 then
    cmpNonnegativeRatios d.magnitude e.magnitude false
  else
    cmpNonnegativeRatios e.magnitude d.magnitude false

/-! ## Exact values -/

theorem fromRatio_value {n d : Int} (hn : FitsI128 n) (hd : FitsI128 d) (hpos : 0 < d) :
    (fromRatio n d hn hd hpos).value = (n : ℚ) / d := by
  rw [fromRatio]
  split
  · rename_i hzero
    rw [hzero, value, ZERO]
    norm_num
  · have hg := gcdI128_tmod (n := n) hpos
    have hgpos : 0 < Int.gcd n d := Int.gcd_pos_of_ne_zero_right n hpos.ne'
    have hn : (Int.gcd n d : Int) ∣ n := Int.gcd_dvd_left n d
    have hd : (Int.gcd n d : Int) ∣ d := Int.gcd_dvd_right n d
    have hgq : ((Int.gcd n d : Int) : ℚ) ≠ 0 := by exact_mod_cast hgpos.ne'
    rw [value]
    dsimp only
    rw [hg, Int.tdiv_eq_ediv_of_dvd hn, Int.tdiv_eq_ediv_of_dvd hd, Int.cast_div hn hgq,
      Int.cast_div hd hgq, div_div_div_cancel_right₀ hgq]

theorem fromMicros_value (micros : I64) :
    (fromMicros micros).value = (micros.val : ℚ) / 1000000 := by
  rw [fromMicros, fromRatio_value]
  norm_num

theorem fromMicros_denominator_le (micros : I64) :
    (fromMicros micros).denominator.val ≤ 1000000 := by
  rw [fromMicros, fromRatio]
  split
  · exact (by decide : (1 : Int) ≤ 1000000)
  · have hg := gcdI128_tmod (n := micros.val) (d := 1000000) (by decide)
    dsimp only
    rw [hg]
    exact Int.tdiv_le_self _ (by decide)

/-- A duration is converted to its exact ticks, rounded, exactly where they fit in 64 bits. -/
theorem toTicksRounding_eq (d : Duration) {base : TimeBase} (hbase : TimeBase.Usable base)
    (hden : d.denominator.val ≤ 18446744073709551616) (rounding : Rounding) :
    d.toTicksRounding base rounding = toI64? (rounding.round (d.value / base.value)) := by
  rcases finiteBase_of_usable hbase with ⟨num, den, hfinite, hnum, hdenpos, hnumle, hdenle, hvalue⟩
  have hpos := d.den_pos
  have hproduct : |d.denominator.val * num| ≤ 18446744073709551616 * 2147483648 := by
    rw [abs_mul, abs_of_pos hpos]
    exact mul_le_mul hden hnumle (abs_nonneg _) (by decide)
  have hfits := abs_le.mp hproduct
  have hdivisor : toI128? (d.denominator.val * num) =
      some ⟨d.denominator.val * num, by omega, by omega⟩ := Ranged.ofInt?_of_mem _ _
  have hexact : (((d.numerator.val * den : Int) : ℚ) / (d.denominator.val * num : Int)) =
      d.value / base.value := by
    rw [value, ← hvalue, div_div_div_eq]
    push_cast
    rfl
  have hcard : u128Card = 340282366920938463463374607431768211456 := rfl
  rw [toTicksRounding]
  simp only [hfinite, hdivisor, Option.bind_eq_bind, Option.bind_some]
  rw [muldivRnd_eq (by omega) (mul_ne_zero hpos.ne' hnum), hexact]
  generalize rounding.round (d.value / base.value) = ticks
  cases hticks : toI128? ticks with
  | none =>
      have := Ranged.ofInt?_eq_none_iff.mp hticks
      exact (Ranged.ofInt?_eq_none_iff.mpr (by omega)).symm
  | some v =>
      rw [Ranged.ofInt?_eq_some_iff.mp hticks]
      rfl

theorem fromFraction_value {numerator denominator : I128} {d : Duration}
    (h : fromFraction numerator denominator = some d) :
    d.value = (numerator.val : ℚ) / denominator.val := by
  rw [fromFraction] at h
  split at h
  · cases h
    exact fromRatio_value _ _ _
  · cases h

theorem fromTicks_value {ticks : I64} {base : TimeBase} {d : Duration}
    (h : fromTicks ticks base = some d) : d.value = ticks.val * base.value := by
  unfold fromTicks at h
  split at h
  · cases h
  rename_i num den hfinite
  cases h
  have hbase : (num : ℚ) / den = base.value := by
    by_cases husable : TimeBase.Usable base
    · rcases finiteBase_of_usable husable with ⟨num', den', hsame, -, -, -, -, hvalue⟩
      rw [hfinite] at hsame
      cases hsame
      exact hvalue
    · rw [finiteBase_of_not_usable husable] at hfinite
      cases hfinite
  rw [fromRatio_value, ← hbase]
  push_cast
  ring

theorem decimalScale_val {digits : Nat} {scale : Scale} (h : decimalScale digits = some scale) :
    scale.val.val = 10 ^ digits := by
  induction digits generalizing scale with
  | zero =>
      cases h
      rfl
  | succ digits ih =>
      rcases Option.bind_eq_some_iff.mp h with ⟨smaller, hsmaller, htenfold⟩
      rw [Scale.tenfold] at htenfold
      split at htenfold
      · cases htenfold
        dsimp only
        rw [ih hsmaller, pow_succ]
      · cases htenfold

/-! ## Decimal texts -/

/-- The number that a decimal text writes, with one digit at least. -/
def Spells (text : List Char) (v : ℚ) : Prop :=
  ∃ (negative : Bool) (whole fraction : List Char),
    (text = (if negative then ['-'] else []) ++ (whole ++ '.' :: fraction) ∨
      fraction = [] ∧ text = (if negative then ['-'] else []) ++ whole) ∧
    (∀ c ∈ whole, c.isDigit = true) ∧ (∀ c ∈ fraction, c.isDigit = true) ∧
    (whole ≠ [] ∨ fraction ≠ []) ∧
    v = (if negative then -1 else 1) *
      ((digitsValue whole : ℚ) + digitsValue fraction / 10 ^ fraction.length)

theorem toI128?_val {n : Int} {v : I128} (h : toI128? n = some v) : v.val = n :=
  (Ranged.ofInt?_eq_some_iff.mp h).symm

theorem parseDigits_val {digits : List Char} {v : I128} (h : parseDigits digits = some v) :
    v.val = digitsValue digits := by
  unfold parseDigits at h
  split at h
  · rename_i hempty
    rw [List.isEmpty_iff.mp hempty]
    cases h
    rfl
  · exact toI128?_val h

/-- What is made of digits is their exact value. -/
theorem fromDigits_value {negative : Bool} {whole fraction : List Char} {d : Duration}
    (h : fromDigits negative whole fraction = some d) :
    (∀ c ∈ whole, c.isDigit = true) ∧ (∀ c ∈ fraction, c.isDigit = true) ∧
      (whole ≠ [] ∨ fraction ≠ []) ∧ d.value = (if negative then -1 else 1) *
        ((digitsValue whole : ℚ) + digitsValue fraction / 10 ^ fraction.length) := by
  unfold fromDigits at h
  split at h
  · cases h
  rename_i hdigits
  simp only [Bool.or_eq_true, Bool.and_eq_true, List.isEmpty_iff, Bool.not_eq_true',
    not_or, not_and, Bool.not_eq_false, List.all_eq_true] at hdigits
  rcases hdigits with ⟨⟨hsome, hwhole⟩, hfraction⟩
  rcases Option.bind_eq_some_iff.1 h with ⟨wholeValue, hw, h⟩
  rcases Option.bind_eq_some_iff.1 h with ⟨fractionValue, hf, h⟩
  rcases Option.bind_eq_some_iff.1 h with ⟨scale, hscale, h⟩
  rcases Option.bind_eq_some_iff.1 h with ⟨scaled, hscaled, h⟩
  rcases Option.bind_eq_some_iff.1 h with ⟨sum, hsum, h⟩
  rcases Option.bind_eq_some_iff.1 h with ⟨numerator, hnumerator, h⟩
  cases h
  have hsumVal : sum.val = digitsValue whole * 10 ^ fraction.length + digitsValue fraction := by
    rw [toI128?_val hsum, toI128?_val hscaled, parseDigits_val hw, parseDigits_val hf,
      decimalScale_val hscale]
  have hsign : (numerator.val : ℚ) = (if negative then -1 else 1) * sum.val := by
    cases negative with
    | true =>
        have hneg : numerator.val = -sum.val := toI128?_val hnumerator
        rw [hneg, if_pos rfl]
        push_cast
        ring
    | false =>
        cases hnumerator
        simp
  refine ⟨hwhole, hfraction, ?_, ?_⟩
  · by_cases hnone : whole = []
    · exact Or.inr (hsome hnone)
    · exact Or.inl hnone
  · rw [fromRatio_value, hsign, hsumVal, decimalScale_val hscale]
    push_cast
    field_simp

theorem splitOnce_cases (text : List Char) :
    text = (splitOnce text).1 ++ '.' :: (splitOnce text).2 ∨
      (splitOnce text).2 = [] ∧ text = (splitOnce text).1 := by
  unfold splitOnce
  rw [List.span_eq_takeWhile_dropWhile]
  dsimp only
  have hwhole := List.takeWhile_append_dropWhile (p := (· != '.')) (l := text)
  cases hrest : text.dropWhile (· != '.') with
  | nil =>
      rw [hrest, List.append_nil] at hwhole
      exact Or.inr ⟨rfl, hwhole.symm⟩
  | cons c rest =>
      have hpoint : c = '.' := by
        have hne : text.dropWhile (· != '.') ≠ [] := by rw [hrest]; exact List.cons_ne_nil _ _
        have hhead := List.head_dropWhile_not (· != '.') hne
        simp only [hrest, List.head_cons] at hhead
        simpa using hhead
      rw [hrest, hpoint] at hwhole
      exact Or.inl hwhole.symm

theorem span_digits {whole rest : List Char} (hwhole : ∀ c ∈ whole, c.isDigit = true) :
    (whole ++ rest).span (· != '.') =
      (whole ++ (rest.span (· != '.')).1, (rest.span (· != '.')).2) := by
  have hspan : ∀ c ∈ whole, (c != '.') = true := by
    intro c hc
    rw [bne_iff_ne]
    rintro rfl
    exact absurd (hwhole _ hc) (by decide)
  rw [List.span_eq_takeWhile_dropWhile, List.takeWhile_append_of_pos hspan,
    List.dropWhile_append_of_pos hspan, List.span_eq_takeWhile_dropWhile]

theorem splitOnce_digits {whole fraction : List Char} (hwhole : ∀ c ∈ whole, c.isDigit = true) :
    splitOnce (whole ++ '.' :: fraction) = (whole, fraction) := by
  rw [splitOnce, span_digits hwhole, List.span_eq_takeWhile_dropWhile]
  simp

theorem splitOnce_whole {whole : List Char} (hwhole : ∀ c ∈ whole, c.isDigit = true) :
    splitOnce whole = (whole, []) := by
  have hspan := @span_digits whole [] hwhole
  rw [List.append_nil] at hspan
  rw [splitOnce, hspan]
  simp [List.span_eq_takeWhile_dropWhile]

/-- A text that is read writes the exact duration. -/
theorem fromDecimalSeconds_spells {text : List Char} {d : Duration}
    (h : fromDecimalSeconds text = some d) : Spells text d.value := by
  have hparts : ∀ negative rest, fromDigits negative (splitOnce rest).1 (splitOnce rest).2 = some d →
      Spells ((if negative then ['-'] else []) ++ rest) d.value := by
    intro negative rest hdigits
    rcases fromDigits_value hdigits with ⟨hwhole, hfraction, hsome, hvalue⟩
    refine ⟨negative, _, _, ?_, hwhole, hfraction, hsome, hvalue⟩
    rcases splitOnce_cases rest with hpoint | ⟨hnone, hrest⟩
    · exact Or.inl (congrArg _ hpoint)
    · exact Or.inr ⟨hnone, congrArg _ hrest⟩
  unfold fromDecimalSeconds at h
  split at h
  rename_i hsplit
  split at hsplit
  · cases hsplit
    exact hparts true _ h
  · cases hsplit
    exact hparts false _ h

/-- A text that writes a number is read as nothing else. -/
theorem fromDecimalSeconds_value {text : List Char} {d : Duration} {v : ℚ} (hv : Spells text v)
    (h : fromDecimalSeconds text = some d) : d.value = v := by
  rcases hv with ⟨negative, whole, fraction, htext, hwhole, hfraction, hsome, rfl⟩
  have hrest : ∃ rest, splitOnce rest = (whole, fraction) ∧ rest.head? ≠ some '-' ∧
      text = (if negative then ['-'] else []) ++ rest := by
    have hhead : whole.head? ≠ some '-' := by
      intro hminus
      exact absurd (hwhole '-' (List.mem_of_head? hminus)) (by decide)
    rcases htext with htext | ⟨rfl, htext⟩
    · refine ⟨_, splitOnce_digits hwhole, ?_, htext⟩
      cases whole with
      | nil => exact (by decide : some '.' ≠ some '-')
      | cons c whole => exact hhead
    · exact ⟨whole, splitOnce_whole hwhole, hhead, htext⟩
  rcases hrest with ⟨rest, hsplit, hhead, rfl⟩
  have hdigits : fromDigits negative whole fraction = some d := by
    cases negative with
    | true =>
        have h : fromDigits true (splitOnce rest).1 (splitOnce rest).2 = some d := h
        rwa [hsplit] at h
    | false =>
        unfold fromDecimalSeconds at h
        split at h
        rename_i hminus
        split at hminus
        · rename_i tail hcons
          have hcons : rest = '-' :: tail := hcons
          rw [hcons] at hhead
          exact absurd rfl hhead
        · cases hminus
          have h : fromDigits false (splitOnce rest).1 (splitOnce rest).2 = some d := h
          rwa [hsplit] at h
  exact (fromDigits_value hdigits).2.2.2

/-! ## Sums are exact -/

theorem cast_tdiv {n g : Int} (hg : g ≠ 0) (hdvd : g ∣ n) : ((n.tdiv g : Int) : ℚ) = n / g := by
  have hgq : (g : ℚ) ≠ 0 := by exact_mod_cast hg
  rw [Int.tdiv_eq_ediv_of_dvd hdvd, Int.cast_div hdvd hgq]

/-- The numerator over the split denominators is the exact sum. -/
theorem combined_value (d e : Duration) (subtract : Bool) {gcd numerator : Int} (hpos : 0 < gcd)
    (hleft : gcd ∣ d.denominator.val) (hright : gcd ∣ e.denominator.val)
    (hnumerator : numerator =
      if subtract then
        d.numerator.val * e.denominator.val.tdiv gcd - e.numerator.val * d.denominator.val.tdiv gcd
      else
        d.numerator.val * e.denominator.val.tdiv gcd +
          e.numerator.val * d.denominator.val.tdiv gcd) :
    (numerator : ℚ) * gcd / (d.denominator.val * e.denominator.val) =
      if subtract then d.value - e.value else d.value + e.value := by
  have hgq : (gcd : ℚ) ≠ 0 := by exact_mod_cast hpos.ne'
  have hdq : (d.denominator.val : ℚ) ≠ 0 := by exact_mod_cast d.den_pos.ne'
  have heq : (e.denominator.val : ℚ) ≠ 0 := by exact_mod_cast e.den_pos.ne'
  rw [hnumerator, value, value]
  cases subtract with
  | true =>
      rw [if_pos rfl, if_pos rfl, Int.cast_sub, Int.cast_mul, Int.cast_mul,
        cast_tdiv hpos.ne' hleft, cast_tdiv hpos.ne' hright]
      field_simp
  | false =>
      rw [if_neg Bool.false_ne_true, if_neg Bool.false_ne_true, Int.cast_add, Int.cast_mul,
        Int.cast_mul, cast_tdiv hpos.ne' hleft, cast_tdiv hpos.ne' hright]
      field_simp

/-- A sum or difference that is returned is exact. -/
theorem checkedCombine_value {d e s : Duration} {subtract : Bool}
    (h : d.checkedCombine e subtract = some s) :
    s.value = if subtract then d.value - e.value else d.value + e.value := by
  rcases gcdI128_denominators d e with ⟨hpos, heq⟩
  have hleft : gcdI128 d.denominator.val e.denominator.val ∣ d.denominator.val := by
    rw [heq]
    exact Int.gcd_dvd_left _ _
  have hright : gcdI128 d.denominator.val e.denominator.val ∣ e.denominator.val := by
    rw [heq]
    exact Int.gcd_dvd_right _ _
  rw [checkedCombine] at h
  rcases Option.bind_eq_some_iff.mp h with ⟨lhs, hlhs, h⟩
  rcases Option.bind_eq_some_iff.mp h with ⟨rhs, hrhs, h⟩
  rcases Option.bind_eq_some_iff.mp h with ⟨numerator, hnumerator, h⟩
  rw [toI128?, Ranged.ofInt?_eq_some_iff] at hlhs hrhs hnumerator
  rw [← hlhs, ← hrhs] at hnumerator
  rw [← combined_value d e subtract hpos hleft hright hnumerator.symm]
  split at h
  · rename_i hzero
    cases h
    rw [hzero, value, ZERO]
    norm_num
  · dsimp only at h
    split at h
    · cases h
      rcases gcdI128_reduction numerator.val hpos with ⟨hred, hredEq⟩
      have hdivides : (gcdI128 |numerator.val.tmod (gcdI128 d.denominator.val e.denominator.val)|
          (gcdI128 d.denominator.val e.denominator.val)) ∣
            gcdI128 d.denominator.val e.denominator.val := by
        rw [hredEq]
        exact Int.gcd_dvd_right _ _
      have hnumeratorDvd :
          (gcdI128 |numerator.val.tmod (gcdI128 d.denominator.val e.denominator.val)|
            (gcdI128 d.denominator.val e.denominator.val)) ∣ numerator.val := by
        rw [hredEq]
        exact Int.gcd_dvd_left _ _
      rw [fromRatio_value]
      generalize gcdI128 |numerator.val.tmod (gcdI128 d.denominator.val e.denominator.val)|
        (gcdI128 d.denominator.val e.denominator.val) = reduction at hred hdivides hnumeratorDvd ⊢
      generalize gcdI128 d.denominator.val e.denominator.val = gcd at hpos hleft hright hdivides ⊢
      have hgq : (gcd : ℚ) ≠ 0 := by exact_mod_cast hpos.ne'
      have hrq : (reduction : ℚ) ≠ 0 := by exact_mod_cast hred.ne'
      have hdq : (d.denominator.val : ℚ) ≠ 0 := by exact_mod_cast d.den_pos.ne'
      have heq : (e.denominator.val : ℚ) ≠ 0 := by exact_mod_cast e.den_pos.ne'
      rw [Int.cast_mul, cast_tdiv hred.ne' hnumeratorDvd, cast_tdiv hpos.ne' hleft,
        cast_tdiv hred.ne' (hdivides.trans hright)]
      field_simp
    · cases h

/-! ## The order of the exact values -/

theorem mul_lt_of_div_lt (x y : Ratio) (h : x.num / x.den < y.num / y.den) :
    x.num * y.den < y.num * x.den := by
  have hx : x.num < (x.num / x.den + 1) * x.den :=
    Nat.lt_mul_of_div_lt (Nat.lt_succ_self _) x.den_pos
  have hy : y.num / y.den * y.den ≤ y.num := Nat.div_mul_le_self _ _
  calc
    x.num * y.den < (x.num / x.den + 1) * x.den * y.den := Nat.mul_lt_mul_of_pos_right hx y.den_pos
    _ ≤ y.num / y.den * x.den * y.den :=
      Nat.mul_le_mul_right _ (Nat.mul_le_mul_right _ h)
    _ = y.num / y.den * y.den * x.den := by ring
    _ ≤ y.num * x.den := Nat.mul_le_mul_right _ hy

theorem compare_remainders (x y : Ratio) (h : x.num / x.den = y.num / y.den) :
    compare (x.num * y.den) (y.num * x.den) =
      compare (x.num % x.den * y.den) (y.num % y.den * x.den) := by
  have hx : x.num * y.den =
      x.num / x.den * (x.den * y.den) + x.num % x.den * y.den := by
    conv_lhs => rw [← Nat.div_add_mod x.num x.den]
    ring
  have hy : y.num * x.den =
      x.num / x.den * (x.den * y.den) + y.num % y.den * x.den := by
    conv_lhs => rw [← Nat.div_add_mod y.num y.den, ← h]
    ring
  rw [hx, hy, Nat.compare_eq_ite_lt, Nat.compare_eq_ite_lt]
  simp only [Nat.add_lt_add_iff_left]

/-- The expansion compares the fractions. -/
theorem cmpNonnegativeRatios_eq (x y : Ratio) (reverse : Bool) :
    cmpNonnegativeRatios x y reverse =
      if reverse then compare (y.num * x.den) (x.num * y.den)
      else compare (x.num * y.den) (y.num * x.den) := by
  induction hden : x.den using Nat.strong_induction_on generalizing x y reverse with
  | _ n ih =>
      subst hden
      have hx := x.den_pos
      rw [cmpNonnegativeRatios]
      by_cases hparts : x.num / x.den = y.num / y.den
      · rw [if_neg (not_not.mpr hparts), compare_remainders x y hparts,
          compare_remainders y x hparts.symm]
        by_cases hleft : x.num % x.den = 0
        · rw [dif_pos hleft, hleft, Nat.zero_mul]
          by_cases hright : y.num % y.den = 0
          · rw [if_pos hright, hright, Nat.zero_mul]
            cases reverse <;> rfl
          · have hpos : 0 < y.num % y.den * x.den := Nat.mul_pos (Nat.pos_of_ne_zero hright) hx
            rw [if_neg hright, Nat.compare_eq_lt.mpr hpos, Nat.compare_eq_gt.mpr hpos]
        · rw [dif_neg hleft]
          by_cases hright : y.num % y.den = 0
          · have hpos : 0 < x.num % x.den * y.den :=
              Nat.mul_pos (Nat.pos_of_ne_zero hleft) y.den_pos
            rw [dif_pos hright, hright, Nat.zero_mul, Nat.compare_eq_lt.mpr hpos,
              Nat.compare_eq_gt.mpr hpos]
          · rw [dif_neg hright]
            -- What remains is compared upside down, and the direction turns with it.
            have hnext := ih (x.num % x.den) (Nat.mod_lt _ hx)
              ⟨x.den, x.num % x.den, Nat.pos_of_ne_zero hleft⟩
              ⟨y.den, y.num % y.den, Nat.pos_of_ne_zero hright⟩ (!reverse) rfl
            rw [hnext]
            dsimp only
            rw [Nat.mul_comm y.den, Nat.mul_comm x.den]
            cases reverse <;> rfl
      · rw [if_pos hparts]
        rcases Nat.lt_or_gt_of_ne hparts with hlt | hgt
        · have hmul := mul_lt_of_div_lt x y hlt
          rw [Nat.compare_eq_lt.mpr hlt, Nat.compare_eq_gt.mpr hlt, Nat.compare_eq_lt.mpr hmul,
            Nat.compare_eq_gt.mpr hmul]
        · have hmul := mul_lt_of_div_lt y x hgt
          rw [Nat.compare_eq_lt.mpr hgt, Nat.compare_eq_gt.mpr hgt, Nat.compare_eq_lt.mpr hmul,
            Nat.compare_eq_gt.mpr hmul]

theorem compare_congr {α β : Type*} [LinearOrder α] [LinearOrder β] {a b : α} {c d : β}
    (hlt : a < b ↔ c < d) (hgt : b < a ↔ d < c) : compare a b = compare c d := by
  rcases lt_trichotomy a b with h | h | h
  · rw [compare_lt_iff_lt.mpr h, compare_lt_iff_lt.mpr (hlt.mp h)]
  · have heq : c = d := by
      refine le_antisymm (not_lt.mp fun hdc => ?_) (not_lt.mp fun hcd => ?_)
      · exact absurd (hgt.mpr hdc) (by rw [h]; exact lt_irrefl b)
      · exact absurd (hlt.mpr hcd) (by rw [h]; exact lt_irrefl b)
    rw [compare_eq_iff_eq.mpr h, compare_eq_iff_eq.mpr heq]
  · rw [compare_gt_iff_gt.mpr h, compare_gt_iff_gt.mpr (hgt.mp h)]

theorem compare_value (d e : Duration) :
    compare d.value e.value =
      compare (d.numerator.val * e.denominator.val) (e.numerator.val * d.denominator.val) := by
  have hd : (0 : ℚ) < d.denominator.val := by exact_mod_cast d.den_pos
  have he : (0 : ℚ) < e.denominator.val := by exact_mod_cast e.den_pos
  refine compare_congr ?_ ?_
  · rw [value, value, div_lt_div_iff₀ hd he]
    exact_mod_cast Iff.rfl
  · rw [value, value, div_lt_div_iff₀ he hd]
    exact_mod_cast Iff.rfl

theorem compare_magnitudes (d e : Duration) :
    cmpNonnegativeRatios d.magnitude e.magnitude false =
      compare ((d.numerator.val.natAbs : Int) * e.denominator.val)
        (e.numerator.val.natAbs * d.denominator.val) := by
  have hd : (d.denominator.val.natAbs : Int) = d.denominator.val :=
    Int.natAbs_of_nonneg d.den_pos.le
  have he : (e.denominator.val.natAbs : Int) = e.denominator.val :=
    Int.natAbs_of_nonneg e.den_pos.le
  rw [cmpNonnegativeRatios_eq, if_neg Bool.false_ne_true, magnitude, magnitude]
  dsimp only
  rw [← hd, ← he]
  refine compare_congr ?_ ?_
  · exact_mod_cast Iff.rfl
  · exact_mod_cast Iff.rfl

/-- The comparison is the order of the exact values. -/
theorem cmp_eq (d e : Duration) : d.cmp e = compare d.value e.value := by
  have hd := d.den_pos
  have he := e.den_pos
  rw [compare_value, cmp]
  rcases lt_trichotomy d.numerator.val 0 with hneg | hzero | hpos
  · rw [Int.sign_eq_neg_one_of_neg hneg]
    rcases lt_trichotomy e.numerator.val 0 with hneg' | hzero' | hpos'
    · rw [Int.sign_eq_neg_one_of_neg hneg', if_neg (by decide), if_neg (by decide),
        if_neg (by decide), compare_magnitudes, Int.ofNat_natAbs_of_nonpos hneg.le,
        Int.ofNat_natAbs_of_nonpos hneg'.le, Int.neg_mul, Int.neg_mul]
      exact compare_congr neg_lt_neg_iff neg_lt_neg_iff
    · rw [hzero', Int.sign_zero, if_pos (by decide), Int.zero_mul]
      exact (compare_lt_iff_lt.mpr (mul_neg_of_neg_of_pos hneg he)).symm
    · rw [Int.sign_eq_one_of_pos hpos', if_pos (by decide)]
      exact (compare_lt_iff_lt.mpr
        ((mul_neg_of_neg_of_pos hneg he).trans (mul_pos hpos' hd))).symm
  · rw [hzero, Int.sign_zero, Int.zero_mul]
    rcases lt_trichotomy e.numerator.val 0 with hneg' | hzero' | hpos'
    · rw [Int.sign_eq_neg_one_of_neg hneg', if_pos (by decide)]
      exact (compare_gt_iff_gt.mpr (mul_neg_of_neg_of_pos hneg' hd)).symm
    · rw [hzero', Int.sign_zero, if_neg (by decide), if_pos rfl, Int.zero_mul]
      rfl
    · rw [Int.sign_eq_one_of_pos hpos', if_pos (by decide)]
      exact (compare_lt_iff_lt.mpr (mul_pos hpos' hd)).symm
  · rw [Int.sign_eq_one_of_pos hpos]
    rcases lt_trichotomy e.numerator.val 0 with hneg' | hzero' | hpos'
    · rw [Int.sign_eq_neg_one_of_neg hneg', if_pos (by decide)]
      exact (compare_gt_iff_gt.mpr
        ((mul_neg_of_neg_of_pos hneg' hd).trans (mul_pos hpos he))).symm
    · rw [hzero', Int.sign_zero, if_pos (by decide), Int.zero_mul]
      exact (compare_gt_iff_gt.mpr (mul_pos hpos he)).symm
    · rw [Int.sign_eq_one_of_pos hpos', if_neg (by decide), if_neg (by decide), if_pos rfl,
        compare_magnitudes, Int.natAbs_of_nonneg hpos.le, Int.natAbs_of_nonneg hpos'.le]

theorem eq_of_value_eq {d e : Duration} (h : d.value = e.value) : d = e := by
  have hparts := Rat.div_int_inj d.den_pos e.den_pos d.reduced e.reduced h
  exact Duration.ext (Ranged.ext hparts.1) (Ranged.ext hparts.2)

end Duration

/-! ## Main result -/

/-- What the constructors, sums and differences make, with the number of seconds it should be. -/
inductive Made : Duration → ℚ → Prop
  | micros (micros : I64) : Made (.fromMicros micros) (micros.val / 1000000)
  | decimal {text : List Char} {d : Duration} {v : ℚ} (hv : Duration.Spells text v)
      (h : Duration.fromDecimalSeconds text = some d) : Made d v
  | ticks {ticks : I64} {base : TimeBase} {d : Duration}
      (h : Duration.fromTicks ticks base = some d) : Made d (ticks.val * base.value)
  | fraction {numerator denominator : I128} {d : Duration}
      (h : Duration.fromFraction numerator denominator = some d) :
      Made d (numerator.val / denominator.val)
  | add {d e s : Duration} {v w : ℚ} (hd : Made d v) (he : Made e w) (h : d.checkedAdd e = some s) :
      Made s (v + w)
  | sub {d e s : Duration} {v w : ℚ} (hd : Made d v) (he : Made e w) (h : d.checkedSub e = some s) :
      Made s (v - w)

/-- Whatever is made has the number of seconds that it should have. -/
theorem Made.value_eq {d : Duration} {v : ℚ} (h : Made d v) : d.value = v := by
  induction h with
  | micros micros => exact Duration.fromMicros_value micros
  | decimal hv h => exact Duration.fromDecimalSeconds_value hv h
  | ticks h => exact Duration.fromTicks_value h
  | fraction h => exact Duration.fromFraction_value h
  | add _ _ h hd he => rw [← hd, ← he]; exact Duration.checkedCombine_value h
  | sub _ _ h hd he => rw [← hd, ← he]; exact Duration.checkedCombine_value h

/-- What the constructors and sums make is reduced and of exactly the seconds it should be, sums and
differences that are returned are exact, and the comparison is the order of the exact values. -/
theorem duration_exact {d e : Duration} {v w : ℚ} (hd : Made d v) (he : Made e w) :
    (d.value = v ∧ 0 < d.denominator.val ∧ IsCoprime d.numerator.val d.denominator.val) ∧
      (∀ s, d.checkedAdd e = some s → s.value = v + w) ∧
      (∀ s, d.checkedSub e = some s → s.value = v - w) ∧
      d.cmp e = compare v w ∧ (d.cmp e = .eq ↔ d = e) ∧
      ∀ text f, Duration.fromDecimalSeconds text = some f → Made f f.value := by
  rw [← hd.value_eq, ← he.value_eq]
  refine ⟨⟨rfl, d.den_pos, Int.isCoprime_iff_gcd_eq_one.mpr d.reduced⟩,
    fun s hs => Duration.checkedCombine_value hs, fun s hs => Duration.checkedCombine_value hs,
    Duration.cmp_eq d e, ?_, fun text f hf => .decimal (Duration.fromDecimalSeconds_spells hf) hf⟩
  rw [Duration.cmp_eq, compare_eq_iff_eq]
  constructor
  · exact Duration.eq_of_value_eq
  · rintro rfl
    rfl

/-- Minus three quarters read as a text, and three halves in ticks of a thirtieth. -/
theorem duration_exact_text :
    (Duration.fromMicros ⟨750000, by decide, by decide⟩).value = -(3 / 4) + 3 / 2 ∧
      (Duration.fromMicros ⟨-750000, by decide, by decide⟩).cmp
        (.fromMicros ⟨1500000, by decide, by decide⟩) = compare (-(3 / 4) : ℚ) (3 / 2) := by
  have hread : Duration.fromDecimalSeconds "-0.75".toList =
      some (.fromMicros ⟨-750000, by decide, by decide⟩) := by decide +kernel
  have hspells : Duration.Spells "-0.75".toList (-(3 / 4)) := by
    refine ⟨true, ['0'], ['7', '5'], Or.inl rfl, List.all_eq_true.mp rfl, List.all_eq_true.mp rfl,
      Or.inl (by decide), ?_⟩
    rw [show Duration.digitsValue ['0'] = 0 from rfl,
      show Duration.digitsValue ['7', '5'] = 75 from rfl]
    norm_num
  have hticks : Duration.fromTicks ⟨45, by decide, by decide⟩
      ⟨⟨1, by decide, by decide⟩, ⟨30, by decide, by decide⟩⟩ =
        some (.fromMicros ⟨1500000, by decide, by decide⟩) := by decide +kernel
  have hseconds : ((45 : Int) : ℚ) * Rational.value ⟨⟨1, by decide, by decide⟩,
      ⟨30, by decide, by decide⟩⟩ = 3 / 2 := by norm_num [Rational.value]
  have hmade := Made.ticks hticks
  rw [hseconds] at hmade
  rcases duration_exact (.decimal hspells hread) hmade with ⟨-, hadd, -, hcmp, -⟩
  exact ⟨hadd _ (by decide +kernel), hcmp⟩

end Core
end Vaco
