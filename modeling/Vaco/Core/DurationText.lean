import Mathlib.Data.List.DropRight
import Vaco.Core.Duration

/-!
# The text of a duration

A duration is written in seconds with six decimals, behind a rounding to whole microseconds of 64
bits.  A text is read exactly: columns of hours, minutes and seconds, or a number with a unit.
What is read back is the rounded duration.

Main results:

- `duration_formatDuration`: a text is read as its microseconds.
- `duration_round_trip_iff`: which durations come back.
-/

namespace Vaco
namespace Core

open Library

def Duration.asMicros (d : Duration) : I64 :=
  match muldivRnd d.numerator.val 1000000 d.denominator.val Rounding.default with
  | some micros => clampI64 micros
  | none =>
      if d.numerator.val < 0 then clampI64 (-9223372036854775808) else clampI64 9223372036854775807

namespace Parse

/-! ## Reading -/

/-- White space, as texts are trimmed of it. -/
def isWhitespace (c : Char) : Bool :=
  let n := c.toNat
  (9 ≤ n && n ≤ 13) || n == 32 || n == 0x85 || n == 0xA0 || n == 0x1680 ||
    (0x2000 ≤ n && n ≤ 0x200A) || n == 0x2028 || n == 0x2029 || n == 0x202F || n == 0x205F ||
    n == 0x3000

/-- A text without the white space around it. -/
def trim (s : List Char) : List Char :=
  (s.dropWhile isWhitespace).rdropWhile isWhitespace

/-- A text without a suffix that it has. -/
def stripSuffix (s suffix : List Char) : Option (List Char) :=
  if suffix.isSuffixOf s then some (s.take (s.length - suffix.length)) else none

/-- The value of some digits that fits; anything else is refused. -/
def parseUnsigned (s : List Char) : Option I128 :=
  if s.all Char.isDigit then Duration.parseDigits s else none

/-- Read a whole number of 64 bits, with a sign or without. -/
def parseI64 (s : List Char) : Option I64 :=
  let (negative, digits) := match s with
    | '-' :: rest => (true, rest)
    | '+' :: rest => (false, rest)
    | s => (false, s)
  if digits.isEmpty || !digits.all Char.isDigit then none
  else
    let magnitude : Int := Duration.digitsValue digits
    toI64? (if negative then -magnitude else magnitude)

/-- Read a decimal number, as a numerator and a power of ten. -/
def decimal (s : List Char) : Option (I128 × Duration.Scale) :=
  if s.isEmpty || !s.all (fun c => c.isDigit || c == '.') then none
  else
    let parts := Duration.splitOnce s
    if parts.1.isEmpty && parts.2.isEmpty then none
    else do
      let whole ← parseUnsigned parts.1
      let fraction ← parseUnsigned parts.2
      let denominator ← Duration.decimalScale parts.2.length
      let scaled ← toI128? (whole.val * denominator.val.val)
      let numerator ← toI128? (scaled.val + fraction.val)
      some (numerator, denominator)

/-- Add up the columns in front of the seconds. -/
def columns (whole : I128) : List (List Char) → Option I128
  | [] => some whole
  | p :: parts => do
      let v ← parseI64 p
      if v.val < 0 then none
      else do
        let scaled ← toI128? (whole.val * 60)
        let whole ← toI128? (scaled.val + v.val)
        columns whole parts

/-- Read columns of hours, minutes and seconds. -/
def sexagesimal (rest : List Char) : Option Duration :=
  let parts := rest.splitOn ':'
  if 3 < parts.length || parts.any List.isEmpty then none
  else do
    let whole ← columns (clampI128 0) parts.dropLast
    let (seconds, scale) ← decimal (parts.getLastD [])
    let whole ← toI128? (whole.val * 60)
    let scaled ← toI128? (whole.val * scale.val.val)
    let numerator ← toI128? (scaled.val + seconds.val)
    Duration.fromFraction numerator scale.val

/-- Read a number with a unit; without one it is in seconds. -/
def withUnit (rest : List Char) : Option Duration := do
  let (body, unitDenominator) : List Char × Int :=
    match stripSuffix rest ['m', 's'] with
    | some b => (b, 1000)
    | none =>
        match stripSuffix rest ['u', 's'] with
        | some b => (b, 1000000)
        | none =>
            match stripSuffix rest ['s'] with
            | some b => (b, 1)
            | none => (rest, 1)
  let (numerator, denominator) ← decimal body
  let denominator ← toI128? (denominator.val.val * unitDenominator)
  Duration.fromFraction numerator denominator

/-- Read a duration. -/
def duration (s : List Char) : Option Duration :=
  let s := trim s
  if s.isEmpty then none
  else
    let (neg, rest) := match s with
      | '-' :: rest => (true, rest)
      | '+' :: rest => (false, rest)
      | s => (false, s)
    if rest.isEmpty then none
    else do
      let value ← if rest.contains ':' then sexagesimal rest else withUnit rest
      if neg then do
        let numerator ← toI128? (-value.numerator.val)
        Duration.fromFraction numerator value.denominator
      else some value

/-! ## Writing -/

/-- A number with at least as many digits as asked for. -/
def padded (width n : Nat) : List Char :=
  List.replicate (width - (Nat.toDigits 10 n).length) '0' ++ Nat.toDigits 10 n

/-- Write a duration in seconds with six decimals. -/
def formatDuration (d : Duration) : List Char :=
  let n := d.asMicros.val
  let a := n.natAbs
  (if n < 0 then ['-'] else []) ++ Nat.toDigits 10 (a / 1000000) ++ '.' :: padded 6 (a % 1000000)

/-! ## Digits -/

theorem digitsValue_eq (digits : List Char) :
    Duration.digitsValue digits = Nat.ofDigitChars 10 digits 0 := by
  rw [Duration.digitsValue, Nat.ofDigitChars_eq_foldl]
  congr 1
  funext n c
  rw [Nat.mul_comm]

theorem digitsValue_toDigits (n : Nat) : Duration.digitsValue (Nat.toDigits 10 n) = n := by
  rw [digitsValue_eq, Nat.ofDigitChars_ten_toDigits]

theorem digitsValue_padded (width n : Nat) : Duration.digitsValue (padded width n) = n := by
  rw [digitsValue_eq, padded, Nat.ofDigitChars_append, Nat.ofDigitChars_replicate_zero, mul_zero,
    Nat.ofDigitChars_ten_toDigits]

theorem isDigit_of_mem_toDigits {c : Char} {n : Nat} (h : c ∈ Nat.toDigits 10 n) :
    c.isDigit = true :=
  Nat.isDigit_of_mem_toDigits (by decide) (by decide) h

theorem isDigit_of_mem_padded {c : Char} {width n : Nat} (h : c ∈ padded width n) :
    c.isDigit = true := by
  rcases List.mem_append.mp h with hzero | hdigit
  · rw [List.eq_of_mem_replicate hzero]
    rfl
  · exact isDigit_of_mem_toDigits hdigit

theorem length_padded {width n : Nat} (hwidth : 0 < width) (h : n < 10 ^ width) :
    (padded width n).length = width := by
  have hle := (Nat.length_toDigits_le_iff (by decide : 1 < 10) hwidth).mpr h
  rw [padded, List.length_append, List.length_replicate]
  omega

theorem padded_ne_nil (width n : Nat) : padded width n ≠ [] :=
  List.append_ne_nil_of_right_ne_nil _ Nat.toDigits_ne_nil

theorem digit_ne {c : Char} (h : c.isDigit = true) :
    isWhitespace c = false ∧ c ≠ '-' ∧ c ≠ '+' ∧ c ≠ ':' ∧ c ≠ '.' ∧ c ≠ 's' := by
  have hrange : 48 ≤ c.toNat ∧ c.toNat ≤ 57 := by
    simpa [Char.isDigit, UInt32.le_iff_toNat_le] using h
  refine ⟨?_, ?_, ?_, ?_, ?_, ?_⟩
  · simp only [isWhitespace]
    simp
    omega
  all_goals
    rintro rfl
    revert hrange
    decide

/-! ## Reading what was written -/

theorem exists_toI128? {v : Int} (h : FitsI128 v) : ∃ x, toI128? v = some x ∧ x.val = v :=
  ⟨⟨v, h.1, h.2⟩, Ranged.ofInt?_of_mem h.1 h.2, rfl⟩

theorem parseUnsigned_digits {s : List Char} (hempty : s ≠ [])
    (hdigits : ∀ c ∈ s, c.isDigit = true)
    (hfits : Duration.digitsValue s ≤ 9223372036854775808) :
    ∃ v, parseUnsigned s = some v ∧ v.val = Duration.digitsValue s := by
  have hall : s.all Char.isDigit = true := List.all_eq_true.mpr hdigits
  have hsome : ¬ s.isEmpty = true := fun h => hempty (List.isEmpty_iff.mp h)
  rw [parseUnsigned, if_pos hall, Duration.parseDigits, if_neg hsome]
  exact exists_toI128? ⟨by omega, by omega⟩

/-- Some digits, a point and six more are read as a number of millionths. -/
theorem decimal_millionths {a : Nat} (ha : a ≤ 9223372036854775808) :
    ∃ numerator scale, decimal (Nat.toDigits 10 (a / 1000000) ++ '.' :: padded 6 (a % 1000000)) =
      some (numerator, scale) ∧ numerator.val = a ∧ scale.val.val = 1000000 := by
  have hwhole : ∀ c ∈ Nat.toDigits 10 (a / 1000000), c.isDigit = true :=
    fun c hc => isDigit_of_mem_toDigits hc
  have hfraction : ∀ c ∈ padded 6 (a % 1000000), c.isDigit = true :=
    fun c hc => isDigit_of_mem_padded hc
  have hlength : (padded 6 (a % 1000000)).length = 6 :=
    length_padded (by decide) (Nat.mod_lt a (by decide))
  have hne := padded_ne_nil 6 (a % 1000000)
  rcases parseUnsigned_digits Nat.toDigits_ne_nil hwhole
    (by rw [digitsValue_toDigits]; omega) with ⟨whole, hparseWhole, hwholeVal⟩
  rcases parseUnsigned_digits hne hfraction
    (by rw [digitsValue_padded]; omega) with ⟨fraction, hparseFraction, hfractionVal⟩
  rw [digitsValue_toDigits] at hwholeVal
  rw [digitsValue_padded] at hfractionVal
  have hscaled : FitsI128 (whole.val * 1000000) := by
    rw [hwholeVal]
    exact ⟨by omega, by omega⟩
  rcases exists_toI128? hscaled with ⟨scaled, hcheckScaled, hscaledVal⟩
  have hsum : FitsI128 (scaled.val + fraction.val) := by
    rw [hscaledVal, hwholeVal, hfractionVal]
    exact ⟨by omega, by omega⟩
  rcases exists_toI128? hsum with ⟨numerator, hcheckSum, hnumeratorVal⟩
  have hscale : ∃ scale, Duration.decimalScale 6 = some scale ∧ scale.val.val = 1000000 := by
    cases hdecimal : Duration.decimalScale 6 with
    | none =>
        have hsome : (Duration.decimalScale 6).isSome = true := by decide
        rw [hdecimal] at hsome
        cases hsome
    | some scale => exact ⟨scale, rfl, Duration.decimalScale_val hdecimal⟩
  rcases hscale with ⟨scale, hdecimal, hscaleVal⟩
  refine ⟨numerator, scale, ?_, ?_, hscaleVal⟩
  · have hall : (Nat.toDigits 10 (a / 1000000) ++ '.' :: padded 6 (a % 1000000)).all
        (fun c => c.isDigit || c == '.') = true := by
      rw [List.all_eq_true]
      intro c hc
      rcases List.mem_append.mp hc with hdigit | hrest
      · rw [hwhole c hdigit]
        rfl
      · rcases List.mem_cons.mp hrest with rfl | hdigit
        · rfl
        · rw [hfraction c hdigit]
          rfl
    unfold decimal
    rw [if_neg (by simp [hall]), Duration.splitOnce_digits hwhole]
    dsimp only
    rw [if_neg (by simp), hparseWhole, hparseFraction, hlength, hdecimal]
    simp only [Option.bind_eq_bind, Option.bind_some, hscaleVal, hcheckScaled, hcheckSum]
  · rw [hnumeratorVal, hscaledVal, hwholeVal, hfractionVal]
    omega

theorem trim_eq {s : List Char} (hhead : ∀ c ∈ s.head?, isWhitespace c = false)
    (hlast : ∀ c ∈ s.getLast?, isWhitespace c = false) : trim s = s := by
  have hfront : s.dropWhile isWhitespace = s := by
    cases s with
    | nil => rfl
    | cons c rest => simp [hhead c rfl]
  rw [trim, hfront, List.rdropWhile_eq_self_iff]
  intro hne
  rw [hlast _ (List.getLast?_eq_some_getLast hne)]
  exact Bool.false_ne_true

theorem stripSuffix_digit {s suffix : List Char} (hsuffix : suffix.getLast? = some 's')
    (hlast : ∀ c ∈ s.getLast?, c.isDigit = true) : stripSuffix s suffix = none := by
  rw [stripSuffix, if_neg]
  intro h
  rcases List.isSuffixOf_iff_suffix.mp h with ⟨front, rfl⟩
  have hend : (front ++ suffix).getLast? = some 's' := by
    rw [List.getLast?_append, hsuffix]
    rfl
  exact absurd (hlast 's' hend) (by decide)

/-- The text of a number of microseconds without its sign. -/
def body (a : Nat) : List Char :=
  Nat.toDigits 10 (a / 1000000) ++ '.' :: padded 6 (a % 1000000)

theorem mem_body {a : Nat} {c : Char} (h : c ∈ body a) : c.isDigit = true ∨ c = '.' := by
  rcases List.mem_append.mp h with hdigit | hrest
  · exact .inl (isDigit_of_mem_toDigits hdigit)
  · rcases List.mem_cons.mp hrest with hpoint | hdigit
    · exact .inr hpoint
    · exact .inl (isDigit_of_mem_padded hdigit)

theorem getLast?_body {a : Nat} {c : Char} (h : c ∈ (body a).getLast?) : c.isDigit = true := by
  have hne := padded_ne_nil 6 (a % 1000000)
  have hsplit : body a = (Nat.toDigits 10 (a / 1000000) ++ '.' ::
      (padded 6 (a % 1000000)).dropLast) ++ [(padded 6 (a % 1000000)).getLast hne] := by
    rw [List.append_assoc, List.cons_append, List.dropLast_append_getLast]
    rfl
  rw [hsplit, List.getLast?_concat, Option.mem_some_iff] at h
  rw [← h]
  exact isDigit_of_mem_padded (List.getLast_mem hne)

theorem body_eq_cons (a : Nat) : ∃ c rest, body a = c :: rest ∧ c.isDigit = true := by
  unfold body
  cases hdigits : Nat.toDigits 10 (a / 1000000) with
  | nil => exact absurd hdigits Nat.toDigits_ne_nil
  | cons c rest =>
      have hmem : c ∈ Nat.toDigits 10 (a / 1000000) := by
        rw [hdigits]
        exact List.mem_cons_self
      exact ⟨c, _, rfl, isDigit_of_mem_toDigits hmem⟩

theorem withUnit_body {a : Nat} (ha : a ≤ 9223372036854775808) :
    ∃ d, withUnit (body a) = some d ∧ d.value = (a : ℚ) / 1000000 := by
  rcases decimal_millionths ha with ⟨numerator, scale, hdecimal, hnumerator, hscale⟩
  have hdecimal' : decimal (body a) = some (numerator, scale) := hdecimal
  have hlast : ∀ c ∈ (body a).getLast?, c.isDigit = true := fun c hc => getLast?_body hc
  rcases exists_toI128? (v := scale.val.val * 1) (by rw [hscale]; exact ⟨by omega, by omega⟩)
    with ⟨denominator, hcheck, hdenominator⟩
  have hpos : 0 < denominator.val := by
    rw [hdenominator, hscale]
    decide
  have hfraction : ∃ d, Duration.fromFraction numerator denominator = some d := by
    rw [Duration.fromFraction, dif_pos hpos]
    exact ⟨_, rfl⟩
  rcases hfraction with ⟨d, hd⟩
  refine ⟨d, ?_, ?_⟩
  · unfold withUnit
    rw [stripSuffix_digit rfl hlast, stripSuffix_digit rfl hlast, stripSuffix_digit rfl hlast]
    simp only [hdecimal', hcheck, hd, Option.bind_eq_bind, Option.bind_some]
  · rw [Duration.fromFraction_value hd, hdenominator, hscale, hnumerator]
    norm_num

theorem numerator_nonneg {d : Duration} (h : 0 ≤ d.value) : 0 ≤ d.numerator.val := by
  by_contra hneg
  have hpos : (0 : ℚ) < d.denominator.val := by exact_mod_cast d.den_pos
  have hnum : (d.numerator.val : ℚ) < 0 := by exact_mod_cast not_le.mp hneg
  exact absurd h (not_le.mpr (div_neg_of_neg_of_pos hnum hpos))

/-- The text of a duration is read as its microseconds. -/
theorem duration_formatDuration (d : Duration) :
    duration (formatDuration d) = some (Duration.fromMicros d.asMicros) := by
  have hlow := d.asMicros.le_val
  have hhigh := d.asMicros.val_le
  generalize hn : d.asMicros.val = n at hlow hhigh
  have hformat : formatDuration d = (if n < 0 then ['-'] else []) ++ body n.natAbs := by
    unfold formatDuration body
    rw [hn, List.append_assoc]
  rcases withUnit_body (a := n.natAbs) (by omega) with ⟨e, he, hvalue⟩
  rcases body_eq_cons n.natAbs with ⟨c, rest, hbody, hdigit⟩
  rcases digit_ne hdigit with ⟨hspace, hminus, hplus, _⟩
  have hcolumns : ¬ (body n.natAbs).contains ':' = true := by
    rw [List.contains_iff_mem]
    intro hmem
    rcases mem_body hmem with hcolon | hcolon
    · exact absurd hcolon (by decide)
    · exact absurd hcolon (by decide)
  have hend : ∀ c ∈ (body n.natAbs).getLast?, isWhitespace c = false :=
    fun c hc => (digit_ne (getLast?_body hc)).1
  rw [hformat]
  by_cases hneg : n < 0
  · have htrim : trim ('-' :: body n.natAbs) = '-' :: body n.natAbs := by
      refine trim_eq ?_ ?_
      · intro c hc
        cases hc
        decide
      · intro c hc
        refine hend c ?_
        rwa [hbody, List.getLast?_cons_cons, ← hbody] at hc
    have hnonneg : 0 ≤ e.numerator.val := numerator_nonneg (hvalue ▸ by positivity)
    rcases exists_toI128? (v := -e.numerator.val)
      ⟨by have := e.numerator.val_le; omega, by omega⟩ with ⟨numerator, hcheck, hnumerator⟩
    have hfraction : ∃ f, Duration.fromFraction numerator e.denominator = some f := by
      rw [Duration.fromFraction, dif_pos e.den_pos]
      exact ⟨_, rfl⟩
    rcases hfraction with ⟨f, hf⟩
    have hsame : f = Duration.fromMicros d.asMicros := by
      refine Duration.eq_of_value_eq ?_
      have habs : (n.natAbs : ℚ) = -n := by
        rw [Nat.cast_natAbs, abs_of_neg hneg, Int.cast_neg]
      have hnegated : f.value = -e.value := by
        rw [Duration.fromFraction_value hf, hnumerator, Duration.value, Int.cast_neg, neg_div]
      rw [hnegated, hvalue, Duration.fromMicros_value, hn, habs, neg_div, neg_neg]
    have hnotnil : ¬ (body n.natAbs).isEmpty = true := by
      rw [hbody]
      exact Bool.false_ne_true
    rw [if_pos hneg, List.singleton_append]
    unfold duration
    rw [htrim]
    simp only [List.isEmpty_cons, Bool.false_eq_true, if_false, if_neg hnotnil, if_neg hcolumns,
      he, Option.bind_eq_bind, Option.bind_some, if_true, hcheck, hf, hsame]
  · have htrim : trim (body n.natAbs) = body n.natAbs := by
      refine trim_eq ?_ hend
      intro c' hc
      rw [hbody] at hc
      cases hc
      exact hspace
    have hsame : e = Duration.fromMicros d.asMicros := by
      refine Duration.eq_of_value_eq ?_
      rw [hvalue, Duration.fromMicros_value, hn, Nat.cast_natAbs, abs_of_nonneg (not_lt.mp hneg)]
    have hsign : (match body n.natAbs with
        | '-' :: rest => (true, rest)
        | '+' :: rest => (false, rest)
        | s => (false, s)) = (false, body n.natAbs) := by
      rw [hbody]
      split
      · rename_i hcons
        cases hcons
        exact absurd rfl hminus
      · rename_i hcons
        cases hcons
        exact absurd rfl hplus
      · rfl
    have hnotnil : ¬ (body n.natAbs).isEmpty = true := by
      rw [hbody]
      exact Bool.false_ne_true
    rw [if_neg hneg, List.nil_append]
    unfold duration
    rw [htrim]
    simp only [if_neg hnotnil, hsign, if_neg hcolumns, he, Option.bind_eq_bind, Option.bind_some,
      Bool.false_eq_true, if_false, hsame]

/-! ## The round trip -/

theorem asMicros_of_whole {d : Duration} {micros : Int} (hvalue : d.value * 1000000 = micros)
    (hlow : -9223372036854775808 ≤ micros) (hhigh : micros ≤ 9223372036854775807) :
    d.asMicros.val = micros := by
  have hexact : (((d.numerator.val * 1000000 : Int) : ℚ) / d.denominator.val) = micros := by
    rw [← hvalue, Duration.value, Int.cast_mul]
    ring
  have hround : Rounding.default.round (micros : ℚ) = micros := nearestAway_intCast micros
  rcases exists_toI128? (v := micros) ⟨by omega, by omega⟩ with ⟨v, hv, hval⟩
  have hquotient : muldivRnd d.numerator.val 1000000 d.denominator.val Rounding.default =
      some micros := by
    rw [muldivRnd_eq (by decide) d.den_pos.ne', hexact, hround, hv, Option.map_some, hval]
  rw [Duration.asMicros, hquotient]
  exact Ranged.clamp_of_mem _ hlow hhigh

/-- A duration is read back from its text exactly when it is a whole number of microseconds that
64 bits hold. -/
theorem duration_round_trip_iff (d : Duration) :
    duration (formatDuration d) = some d ↔
      ∃ micros : Int, d.value * 1000000 = micros ∧
        -9223372036854775808 ≤ micros ∧ micros ≤ 9223372036854775807 := by
  rw [duration_formatDuration, Option.some.injEq]
  constructor
  · intro hback
    refine ⟨d.asMicros.val, ?_, d.asMicros.le_val, d.asMicros.val_le⟩
    rw [← hback, Duration.fromMicros_value, hback, div_mul_cancel₀ _ (by norm_num)]
  · rintro ⟨micros, hvalue, hlow, hhigh⟩
    refine Duration.eq_of_value_eq ?_
    rw [Duration.fromMicros_value, asMicros_of_whole hvalue hlow hhigh, ← hvalue,
      mul_div_cancel_right₀ _ (by norm_num)]

/-- A tenth of a microsecond is not read back. -/
theorem tenth_of_microsecond_lost :
    ∃ d, Duration.fromFraction (clampI128 1) (clampI128 10000000) = some d ∧
      duration (formatDuration d) ≠ some d := by
  have hpos : 0 < (clampI128 10000000).val := by decide
  have hfraction : ∃ d, Duration.fromFraction (clampI128 1) (clampI128 10000000) = some d := by
    rw [Duration.fromFraction, dif_pos hpos]
    exact ⟨_, rfl⟩
  rcases hfraction with ⟨d, hd⟩
  refine ⟨d, hd, ?_⟩
  have hvalue : d.value = 1 / 10000000 := by
    have hone : (clampI128 1).val = 1 := by decide
    have hden : (clampI128 10000000).val = 10000000 := by decide
    rw [Duration.fromFraction_value hd, hone, hden]
    norm_num
  intro hback
  rcases (duration_round_trip_iff d).mp hback with ⟨micros, hmicros, _⟩
  rw [hvalue] at hmicros
  have hten : (1 : ℚ) = 10 * micros := by
    rw [← hmicros]
    norm_num
  have hinteger : (1 : Int) = 10 * micros := by exact_mod_cast hten
  omega

end Parse

end Core
end Vaco
