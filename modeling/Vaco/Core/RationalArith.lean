import Mathlib.Data.Rat.Lemmas
import Vaco.Core.Rational

/-!
# Arithmetic on exact rationals

Equality compares the number and not the field pair.  Sums and products go through the
canonical form of their operands; negation and the reciprocal edit the raw fields.

Main results:

- `eq_iff_canonical_eq`: equality is that of canonical forms.
- `respects_iff_spelled`: when the operators respect it.
-/

namespace Vaco
namespace Core

open Library

/-- The least 32-bit value. -/
abbrev i32Min : Int := -2147483648

namespace Rational

/-- Zero. -/
def ZERO : Rational where
  num := .lit 0
  den := .lit 1

/-- Undefined: an unknown frame rate or aspect ratio. -/
def UNDEFINED : Rational where
  num := .lit 0
  den := .lit 0

/-- Whether this is undefined, in any spelling. -/
def isUndefined (r : Rational) : Bool :=
  r.den.val = 0 ∧ r.num.val = 0

/-- The sign; undefined has sign zero. -/
def signum (r : Rational) : Int :=
  if r.den.val = 0 then r.num.val.sign else r.num.val.sign * r.den.val.sign

/-- The reciprocal, as a raw field swap. -/
def inverse (r : Rational) : Rational where
  num := r.den
  den := r.num

/-- Negation that cannot overflow: where the numerator cannot be negated the sign moves to
the denominator. -/
def negValue (r : Rational) : Rational :=
  if r.num.val ≠ i32Min then
    ⟨castI32 (-r.num.val), r.den⟩
  else if r.den.val ≠ i32Min then
    ⟨r.num, castI32 (-r.den.val)⟩
  else
    ⟨.lit (-1), .lit 1⟩

/-- The canonical pair. -/
def canonical (r : Rational) : Int × Int :=
  canonicalise r.num.val r.den.val

end Rational

/-- The order key of a canonical pair: undefined below the negative infinity. -/
def orderClass (num den : Int) : Int :=
  if den ≠ 0 then 0 else if num = 0 then -2 else if 0 < num then 1 else -1

/-- Divide both by their greatest common divisor. -/
def crossReduce (a b : Int) : Int × Int :=
  if a = 0 ∨ b = 0 then
    (a, b)
  else
    let g : Int := Nat.gcd a.natAbs b.natAbs
    (a / g, b / g)

/-- The canonical product, or nothing where it is undefined. -/
def mulCanonical (a b : Rational) : Option (Int × Int) :=
  let (an, ad) := a.canonical
  let (bn, bd) := b.canonical
  if (an = 0 ∧ ad = 0) ∨ (bn = 0 ∧ bd = 0) then
    none
  else if ad = 0 ∨ bd = 0 then
    if an = 0 ∨ bn = 0 then none else some (an.sign * bn.sign, 0)
  else
    let (an, bd) := crossReduce an bd
    let (bn, ad) := crossReduce bn ad
    some (canonicalise (an * bn) (ad * bd))

/-- The canonical sum, or nothing where it is undefined. -/
def addCanonical (a b : Rational) : Option (Int × Int) :=
  let (an, ad) := a.canonical
  let (bn, bd) := b.canonical
  if (an = 0 ∧ ad = 0) ∨ (bn = 0 ∧ bd = 0) then
    none
  else if ad = 0 ∧ bd = 0 then
    if an = bn then some (an, 0) else none
  else if ad = 0 then
    some (an, 0)
  else if bd = 0 then
    some (bn, 0)
  else
    some (canonicalise (an * bd + bn * ad) (ad * bd))

namespace Rational

/-- Exact total order, undefined first. -/
def cmpExact (a b : Rational) : Ordering :=
  let (an, ad) := a.canonical
  let (bn, bd) := b.canonical
  match compare (orderClass an ad) (orderClass bn bd) with
  | .eq => if ad = 0 then .eq else compare (an * bd) (bn * ad)
  | other => other

/-- Value equality. -/
def eq (a b : Rational) : Bool :=
  cmpExact a b = .eq

/-- Exact addition, or nothing when the result is not representable. -/
def checkedAdd (a b : Rational) : Option Rational := do
  let (n, d) ← addCanonical a b
  exactFromCanonical n d

/-- Exact subtraction, or nothing when the result is not representable. -/
def checkedSub (a b : Rational) : Option Rational :=
  checkedAdd a b.negValue

/-- Exact multiplication, or nothing when the result is not representable. -/
def checkedMul (a b : Rational) : Option Rational := do
  let (n, d) ← mulCanonical a b
  exactFromCanonical n d

/-- Exact division, or nothing when the result is not representable. -/
def checkedDiv (a b : Rational) : Option Rational := do
  let (n, d) ← mulCanonical a b.inverse
  exactFromCanonical n d

/-- Addition, to the closest representable rational. -/
def add (a b : Rational) : Rational :=
  match addCanonical a b with
  | some (n, d) => fromCanonical n d
  | none => UNDEFINED

/-- Subtraction, as addition of the negation. -/
def sub (a b : Rational) : Rational :=
  add a b.negValue

/-- Multiplication, to the closest representable rational. -/
def mul (a b : Rational) : Rational :=
  match mulCanonical a b with
  | some (n, d) => fromCanonical n d
  | none => UNDEFINED

/-- Division, as multiplication by the reciprocal. -/
def div (a b : Rational) : Rational :=
  mul a b.inverse

end Rational

/-! ## Canonical forms of finite pairs -/

theorem coprime_pair_eq_iff {a b c d : Int} (hb : 0 < b) (hd : 0 < d)
    (hab : IsCoprime a b) (hcd : IsCoprime c d) : a * d = c * b ↔ (a, b) = (c, d) := by
  constructor
  · intro hcross
    have hvalue : (a : ℚ) / b = c / d := by
      rw [div_eq_div_iff (by exact_mod_cast hb.ne') (by exact_mod_cast hd.ne')]
      exact_mod_cast hcross
    rcases Rat.div_int_inj hb hd (Int.isCoprime_iff_gcd_eq_one.mp hab)
      (Int.isCoprime_iff_gcd_eq_one.mp hcd) hvalue with ⟨rfl, rfl⟩
    rfl
  · intro hpair
    cases hpair
    rfl

theorem canonicalise_eq_iff {n d n' d' : Int} (hd : d ≠ 0) (hd' : d' ≠ 0) :
    canonicalise n d = canonicalise n' d' ↔ n * d' = n' * d := by
  rcases @canonicalise_spec n d hd with ⟨hpos, hcop, hvalue⟩
  rcases @canonicalise_spec n' d' hd' with ⟨hpos', hcop', hvalue'⟩
  have hpair := coprime_pair_eq_iff hpos hpos' hcop hcop'
  rw [Prod.mk.eta, Prod.mk.eta] at hpair
  rw [← hpair]
  have hq : (d : ℚ) ≠ 0 := by exact_mod_cast hd
  have hq' : (d' : ℚ) ≠ 0 := by exact_mod_cast hd'
  have hc : ((canonicalise n d).2 : ℚ) ≠ 0 := by exact_mod_cast hpos.ne'
  have hc' : ((canonicalise n' d').2 : ℚ) ≠ 0 := by exact_mod_cast hpos'.ne'
  have hleft := div_eq_div_iff (a := ((canonicalise n d).1 : ℚ)) hc hc'
    (c := ((canonicalise n' d').1 : ℚ))
  rw [hvalue, hvalue', div_eq_div_iff hq hq'] at hleft
  exact_mod_cast hleft.symm

@[simp]
theorem canonicalise_zero_right (n : Int) : canonicalise n 0 = (n.sign, 0) :=
  if_pos rfl

theorem canonicalise_neg_left (n d : Int) :
    canonicalise (-n) d = (-(canonicalise n d).1, (canonicalise n d).2) := by
  by_cases hd : d = 0
  · subst hd
    simp [Int.sign_neg]
  · rcases @canonicalise_spec n d hd with ⟨hpos, hcop, hvalue⟩
    rcases @canonicalise_spec (-n) d hd with ⟨hpos', hcop', hvalue'⟩
    have hneg : ((canonicalise (-n) d).1 : ℚ) / (canonicalise (-n) d).2 =
        ((-(canonicalise n d).1 : Int) : ℚ) / (canonicalise n d).2 := by
      rw [hvalue', Int.cast_neg, Int.cast_neg, neg_div, neg_div, hvalue]
    rcases Rat.div_int_inj hpos' hpos (Int.isCoprime_iff_gcd_eq_one.mp hcop')
      (Int.isCoprime_iff_gcd_eq_one.mp hcop.neg_left) hneg with ⟨hnum, hden⟩
    exact Prod.ext hnum hden

theorem canonicalise_neg_right {d : Int} (hd : d ≠ 0) (n : Int) :
    canonicalise n (-d) = (-(canonicalise n d).1, (canonicalise n d).2) := by
  rw [← canonicalise_neg_left, canonicalise_eq_iff (neg_ne_zero.mpr hd) hd]
  ring

theorem canonicalise_fst_eq_zero_iff {n d : Int} : (canonicalise n d).1 = 0 ↔ n = 0 := by
  by_cases hd : d = 0
  · subst hd
    simp [Int.sign_eq_zero_iff_zero]
  · constructor
    · intro hzero
      by_contra hn
      rcases canonicalise_of_ne_zero hn hd with ⟨g, -, hnum, -⟩
      rw [hzero, mul_zero] at hnum
      exact hn hnum
    · rintro rfl
      simp [canonicalise, hd]

theorem canonicalise_snd_eq_zero_iff {n d : Int} : (canonicalise n d).2 = 0 ↔ d = 0 := by
  constructor
  · intro hzero
    by_contra hd
    exact (canonicalise_spec hd).1.ne' hzero
  · rintro rfl
    simp

namespace Rational

variable {a a' b b' : Rational}

/-! ## Equality -/

theorem orderClass_zero_inj {n m : Int} :
    orderClass n.sign 0 = orderClass m.sign 0 ↔ n.sign = m.sign := by
  rcases Int.sign_trichotomy n with hn | hn | hn <;>
    rcases Int.sign_trichotomy m with hm | hm | hm <;> simp [orderClass, hn, hm]

/-- Equality is equality of canonical forms, so that equal rationals hash alike. -/
theorem eq_iff_canonical_eq : a.eq b = true ↔ a.canonical = b.canonical := by
  have hfinite : ∀ {r : Rational}, r.den.val ≠ 0 →
      orderClass r.canonical.1 r.canonical.2 = 0 := by
    intro r hr
    have hden : r.canonical.2 ≠ 0 := canonicalise_snd_eq_zero_iff.not.mpr hr
    rw [orderClass, if_pos hden]
  have hinfinite : ∀ {r : Rational}, r.den.val = 0 →
      r.canonical = (r.num.val.sign, 0) ∧ orderClass r.num.val.sign 0 ≠ 0 := by
    intro r hr
    rw [canonical, hr, canonicalise_zero_right]
    rcases Int.sign_trichotomy r.num.val with hn | hn | hn <;> simp [orderClass, hn]
  rw [eq, decide_eq_true_eq, cmpExact]
  by_cases ha : a.den.val = 0
  · rcases hinfinite ha with ⟨hcanonical, hclass⟩
    by_cases hb : b.den.val = 0
    · rw [hcanonical, (hinfinite hb).1, Prod.mk.injEq, ← orderClass_zero_inj]
      simp only [if_true]
      split <;> rename_i hcompare
      · simp [compare_eq_iff_eq.mp hcompare]
      · simp
    · have hne : a.canonical ≠ b.canonical := by
        intro heq
        rw [heq] at hcanonical
        exact canonicalise_snd_eq_zero_iff.not.mpr hb (congrArg Prod.snd hcanonical)
      rw [hcanonical] at hne ⊢
      simp only [hfinite hb, hne, iff_false]
      split <;> rename_i hcompare
      · exact absurd (compare_eq_iff_eq.mp hcompare) hclass
      · exact hcompare
  · have hda : a.canonical.2 ≠ 0 := canonicalise_snd_eq_zero_iff.not.mpr ha
    by_cases hb : b.den.val = 0
    · rcases hinfinite hb with ⟨hcanonical, hclass⟩
      have hne : a.canonical ≠ b.canonical := by
        intro heq
        rw [hcanonical] at heq
        exact hda (congrArg Prod.snd heq)
      rw [hcanonical] at hne ⊢
      simp only [hfinite ha, hne, iff_false]
      split <;> rename_i hcompare
      · exact absurd (compare_eq_iff_eq.mp hcompare).symm hclass
      · exact hcompare
    · rcases @canonicalise_spec a.num.val a.den.val ha with ⟨hpos, hcop, -⟩
      rcases @canonicalise_spec b.num.val b.den.val hb with ⟨hpos', hcop', -⟩
      have hcross := coprime_pair_eq_iff hpos hpos' hcop hcop'
      simp only [hfinite ha, hfinite hb, compare_eq_iff_eq.mpr]
      rw [if_neg hda, compare_eq_iff_eq]
      exact hcross

theorem eq_refl (a : Rational) : a.eq a = true :=
  eq_iff_canonical_eq.mpr rfl

/-! ## Sums and products of equal operands -/

theorem addCanonical_congr (ha : a.canonical = a'.canonical) (hb : b.canonical = b'.canonical) :
    addCanonical a b = addCanonical a' b' := by
  rw [addCanonical, addCanonical, ha, hb]

theorem mulCanonical_congr (ha : a.canonical = a'.canonical) (hb : b.canonical = b'.canonical) :
    mulCanonical a b = mulCanonical a' b' := by
  rw [mulCanonical, mulCanonical, ha, hb]

theorem canonical_fromCanonical_zero (n : Int) :
    (fromCanonical n 0).canonical = (n.sign, 0) := by
  have hraw : (fromCanonical n 0).canonical = ((castI32 n.sign).val.sign, 0) :=
    canonicalise_zero_right _
  rw [hraw]
  rcases Int.sign_trichotomy n with hn | hn | hn <;> rw [hn] <;> rfl

theorem canonical_add_ne_of_infinities {p q : Rational} (ha : a.isUndefined = false)
    (hcongr : a.canonical = a'.canonical) (hp : p.canonical = (1, 0))
    (hq : q.canonical = (-1, 0)) : (a.add p).canonical ≠ (a'.add q).canonical := by
  have hundefined : UNDEFINED.canonical = (0, 0) := rfl
  rw [add, add, addCanonical_congr hcongr rfl, addCanonical, addCanonical, hp, hq]
  by_cases hden : a.den.val = 0
  · have hsign : a'.canonical = (a.num.val.sign, 0) := by
      rw [← hcongr, canonical, hden, canonicalise_zero_right]
    rw [hsign]
    rcases Int.sign_trichotomy a.num.val with hn | hn | hn
    · simp [hn, canonical_fromCanonical_zero, hundefined]
    · have hnum : a.num.val = 0 := Int.sign_eq_zero_iff_zero.mp hn
      simp [isUndefined, hden, hnum] at ha
    · simp [hn, canonical_fromCanonical_zero, hundefined]
  · have hfinite : a'.canonical.2 ≠ 0 := by
      rw [← hcongr]
      exact canonicalise_snd_eq_zero_iff.not.mpr hden
    simp [hfinite, canonical_fromCanonical_zero]

theorem canonical_mul_ne_of_infinities {p q : Rational} (ha : a.num.val ≠ 0)
    (hcongr : a.canonical = a'.canonical) (hp : p.canonical = (1, 0))
    (hq : q.canonical = (-1, 0)) : (a.mul p).canonical ≠ (a'.mul q).canonical := by
  have hnum : a'.canonical.1 ≠ 0 := by
    rw [← hcongr, canonical]
    exact canonicalise_fst_eq_zero_iff.not.mpr ha
  rw [mul, mul, mulCanonical_congr hcongr rfl, mulCanonical, mulCanonical, hp, hq]
  have hsign : a'.canonical.1.sign ≠ 0 := Int.sign_eq_zero_iff_zero.not.mpr hnum
  have hne : a'.canonical.1.sign ≠ -a'.canonical.1.sign := by omega
  simpa [hnum, canonical_fromCanonical_zero] using hne

/-! ## Negation and the sign -/

theorem signum_eq (a : Rational) : a.signum = a.canonical.1.sign := by
  by_cases hden : a.den.val = 0
  · rw [signum, if_pos hden, canonical, hden, canonicalise_zero_right, Int.sign_sign]
  · rw [signum, if_neg hden, canonical]
    by_cases hnum : a.num.val = 0
    · simp [hnum, canonicalise, hden]
    · rcases canonicalise_of_ne_zero hnum hden with ⟨g, hg, hn, hd, hpos, -⟩
      have hfactor : a.num.val.sign * a.den.val.sign =
          (g * (canonicalise a.num.val a.den.val).1).sign *
            (g * (canonicalise a.num.val a.den.val).2).sign := by
        rw [← hn, ← hd]
      rw [hfactor, Int.sign_mul, Int.sign_mul, Int.sign_eq_one_of_pos hpos, mul_one,
        mul_right_comm, ← Int.sign_mul, Int.sign_eq_one_of_pos (mul_self_pos.mpr hg), one_mul]

theorem val_castI32 {v : Int} (hlo : -2147483648 ≤ v) (hhi : v ≤ 2147483647) :
    (castI32 v).val = v := by
  show v.bmod 4294967296 = v
  exact Int.bmod_eq_of_le (by omega) (by omega)

/-- The infinity whose numerator cannot be negated. -/
def IsLeastInfinity (r : Rational) : Prop :=
  r.num.val = i32Min ∧ r.den.val = 0

theorem negValue_of_isLeastInfinity (h : a.IsLeastInfinity) :
    a.negValue.canonical = (-1, 0) := by
  rcases h with ⟨hnum, hden⟩
  have hne : a.den.val ≠ i32Min := by
    rw [hden]
    decide
  have hraw : a.negValue = ⟨a.num, castI32 (-a.den.val)⟩ := by
    rw [negValue, if_neg (not_not.mpr hnum), if_pos hne]
  rw [hraw, hden]
  show canonicalise a.num.val 0 = (-1, 0)
  rw [hnum]
  rfl

/-- Every other negation negates the canonical form. -/
theorem canonical_negValue (h : ¬ a.IsLeastInfinity) :
    a.negValue.canonical = (-a.canonical.1, a.canonical.2) := by
  have hmin : i32Min = -2147483648 := rfl
  have hnumLo := a.num.le_val
  have hnumHi := a.num.val_le
  have hdenLo := a.den.le_val
  have hdenHi := a.den.val_le
  by_cases hnum : a.num.val = i32Min
  · have hden : a.den.val ≠ 0 := fun hzero => h ⟨hnum, hzero⟩
    by_cases hleast : a.den.val = i32Min
    · have hraw : a.negValue = ⟨.lit (-1), .lit 1⟩ := by
        rw [negValue, if_neg (not_not.mpr hnum), if_neg (not_not.mpr hleast)]
      rw [hraw, canonical, canonical, hnum, hleast]
      decide
    · have hraw : a.negValue = ⟨a.num, castI32 (-a.den.val)⟩ := by
        rw [negValue, if_neg (not_not.mpr hnum), if_pos hleast]
      have hcast : (castI32 (-a.den.val)).val = -a.den.val :=
        val_castI32 (by omega) (by omega)
      rw [hraw, canonical, hcast, canonicalise_neg_right hden]
      rfl
  · have hraw : a.negValue = ⟨castI32 (-a.num.val), a.den⟩ := by
      rw [negValue, if_pos hnum]
    have hcast : (castI32 (-a.num.val)).val = -a.num.val := val_castI32 (by omega) (by omega)
    rw [hraw, canonical, hcast, canonicalise_neg_left]
    rfl

theorem signum_negValue_iff : a.negValue.signum = -a.signum ↔ ¬ a.IsLeastInfinity := by
  rw [signum_eq, signum_eq]
  constructor
  · intro hsign hleast
    have hcanonical : a.canonical = (-1, 0) := by
      rw [canonical, hleast.1, hleast.2]
      rfl
    rw [negValue_of_isLeastInfinity hleast, hcanonical] at hsign
    cases hsign
  · intro hleast
    rw [canonical_negValue hleast, Int.sign_neg]

theorem sub_self_eq_zero (h : a.isDefined = true) : (a.sub a).eq ZERO = true := by
  have hden : a.den.val ≠ 0 := by simpa [isDefined] using h
  have hpos : 0 < a.canonical.2 := (canonicalise_spec hden).1
  have hleast : ¬ a.IsLeastInfinity := fun hleast => hden hleast.2
  have hsum : canonicalise 0 (a.canonical.2 * a.canonical.2) = (0, 1) := by
    rw [canonicalise, if_neg (mul_pos hpos hpos).ne', if_pos rfl]
  have hadd : addCanonical a a.negValue = some (0, 1) := by
    rw [addCanonical, canonical_negValue hleast]
    simp [hpos.ne', hsum]
  rw [eq_iff_canonical_eq, sub, add, hadd]
  rfl

/-! ## Reciprocals -/

/-- Equal operands with a numerator have equal reciprocals. -/
theorem canonical_inverse_congr (hnum : a.num.val ≠ 0) (h : a.canonical = a'.canonical) :
    a.inverse.canonical = a'.inverse.canonical := by
  have hnum' : a'.num.val ≠ 0 := by
    have hfst : a'.canonical.1 ≠ 0 := by
      rw [← h]
      exact canonicalise_fst_eq_zero_iff.not.mpr hnum
    exact canonicalise_fst_eq_zero_iff.not.mp hfst
  show canonicalise a.den.val a.num.val = canonicalise a'.den.val a'.num.val
  rw [canonicalise_eq_iff hnum hnum']
  by_cases hden : a.den.val = 0
  · have hsnd : a'.canonical.2 = 0 := by
      rw [← h]
      exact canonicalise_snd_eq_zero_iff.mpr hden
    rw [hden, canonicalise_snd_eq_zero_iff.mp hsnd, zero_mul, zero_mul]
  · have hden' : a'.den.val ≠ 0 := by
      have hsnd : a'.canonical.2 ≠ 0 := by
        rw [← h]
        exact canonicalise_snd_eq_zero_iff.not.mpr hden
      exact canonicalise_snd_eq_zero_iff.not.mp hsnd
    have hcross := (canonicalise_eq_iff hden hden').mp h
    rw [mul_comm, ← hcross, mul_comm]

theorem canonical_inverse_of_num_eq_zero (hnum : a.num.val = 0) :
    a.inverse.canonical = (a.den.val.sign, 0) := by
  show canonicalise a.den.val a.num.val = _
  rw [hnum, canonicalise_zero_right]

/-! ## Operators on equal operands -/

theorem isUndefined_iff : a.isUndefined = true ↔ a.canonical = (0, 0) := by
  rw [canonical, Prod.ext_iff, canonicalise_fst_eq_zero_iff, canonicalise_snd_eq_zero_iff,
    isUndefined, decide_eq_true_eq, and_comm]

theorem canonical_of_isLeastInfinity (h : a.IsLeastInfinity) : a.canonical = (-1, 0) := by
  rw [canonical, h.1, h.2]
  rfl

theorem canonical_negValue_congr (h : a.canonical = a'.canonical)
    (hleast : a.IsLeastInfinity ↔ a'.IsLeastInfinity) :
    a.negValue.canonical = a'.negValue.canonical := by
  by_cases ha : a.IsLeastInfinity
  · rw [negValue_of_isLeastInfinity ha, negValue_of_isLeastInfinity (hleast.mp ha)]
  · rw [canonical_negValue ha, canonical_negValue (hleast.not.mp ha), h]

theorem canonical_negValue_of_not_iff (h : a.canonical = a'.canonical)
    (hleast : ¬ (a.IsLeastInfinity ↔ a'.IsLeastInfinity)) :
    (a.negValue.canonical = (1, 0) ∧ a'.negValue.canonical = (-1, 0)) ∨
      (a.negValue.canonical = (-1, 0) ∧ a'.negValue.canonical = (1, 0)) := by
  by_cases ha : a.IsLeastInfinity
  · have ha' : ¬ a'.IsLeastInfinity := fun ha' => hleast ⟨fun _ => ha', fun _ => ha⟩
    have hone : a'.negValue.canonical = (1, 0) := by
      rw [canonical_negValue ha', ← h, canonical_of_isLeastInfinity ha]
      rfl
    exact Or.inr ⟨negValue_of_isLeastInfinity ha, hone⟩
  · have ha' : a'.IsLeastInfinity := by
      by_contra ha'
      exact hleast ⟨fun h => absurd h ha, fun h => absurd h ha'⟩
    have hone : a.negValue.canonical = (1, 0) := by
      rw [canonical_negValue ha, h, canonical_of_isLeastInfinity ha']
      rfl
    exact Or.inl ⟨hone, negValue_of_isLeastInfinity ha'⟩

theorem addCanonical_of_isUndefined (ha : a.isUndefined = true) (b : Rational) :
    addCanonical a b = none := by
  rw [addCanonical, isUndefined_iff.mp ha]
  simp

theorem mulCanonical_of_zeros (ha : a.num.val = 0) (hb : b.den.val = 0) :
    mulCanonical a b = none := by
  have hfst : a.canonical.1 = 0 := canonicalise_fst_eq_zero_iff.mpr ha
  have hsnd : b.canonical.2 = 0 := canonicalise_snd_eq_zero_iff.mpr hb
  simp [mulCanonical, hfst, hsnd]

theorem isUndefined_congr (h : a.canonical = a'.canonical) :
    a.isUndefined = a'.isUndefined := by
  rw [Bool.eq_iff_iff, isUndefined_iff, isUndefined_iff, h]

theorem num_eq_zero_congr (h : a.canonical = a'.canonical) :
    a.num.val = 0 ↔ a'.num.val = 0 := by
  rw [← @canonicalise_fst_eq_zero_iff a.num.val a.den.val,
    ← @canonicalise_fst_eq_zero_iff a'.num.val a'.den.val]
  exact Eq.congr_left (congrArg Prod.fst h)

theorem den_eq_zero_congr (h : a.canonical = a'.canonical) :
    a.den.val = 0 ↔ a'.den.val = 0 := by
  rw [← @canonicalise_snd_eq_zero_iff a.num.val a.den.val,
    ← @canonicalise_snd_eq_zero_iff a'.num.val a'.den.val]
  exact Eq.congr_left (congrArg Prod.snd h)

/-- When the spelling of a subtrahend is immaterial. -/
def SubtrahendSpelled (a b b' : Rational) : Prop :=
  a.isUndefined = true ∨ (b.IsLeastInfinity ↔ b'.IsLeastInfinity)

/-- When the spelling of a divisor is immaterial. -/
def DivisorSpelled (a b b' : Rational) : Prop :=
  a.num.val = 0 ∨ b.isZero = false ∨ b.den.val.sign = b'.den.val.sign

theorem addCanonical_negValue_congr (ha : a.canonical = a'.canonical)
    (hb : b.canonical = b'.canonical) (h : SubtrahendSpelled a b b') :
    addCanonical a b.negValue = addCanonical a' b'.negValue := by
  rcases h with hundefined | hleast
  · rw [addCanonical_of_isUndefined hundefined,
      addCanonical_of_isUndefined (isUndefined_congr ha ▸ hundefined)]
  · exact addCanonical_congr ha (canonical_negValue_congr hb hleast)

theorem subtrahendSpelled_of_sub (ha : a.canonical = a'.canonical)
    (hb : b.canonical = b'.canonical) (hsub : (a.sub b).canonical = (a'.sub b').canonical) :
    SubtrahendSpelled a b b' := by
  by_contra hnot
  rw [SubtrahendSpelled, not_or, Bool.not_eq_true] at hnot
  rcases canonical_negValue_of_not_iff hb hnot.2 with ⟨hp, hq⟩ | ⟨hp, hq⟩
  · exact canonical_add_ne_of_infinities hnot.1 ha hp hq hsub
  · exact canonical_add_ne_of_infinities (isUndefined_congr ha ▸ hnot.1) ha.symm hq hp hsub.symm

theorem mulCanonical_inverse_congr (ha : a.canonical = a'.canonical)
    (hb : b.canonical = b'.canonical) (h : DivisorSpelled a b b') :
    mulCanonical a b.inverse = mulCanonical a' b'.inverse := by
  by_cases hnum : b.num.val = 0
  · have hnum' := (num_eq_zero_congr hb).mp hnum
    by_cases hzero : a.num.val = 0
    · have hzero' := (num_eq_zero_congr ha).mp hzero
      rw [mulCanonical_of_zeros hzero hnum, mulCanonical_of_zeros hzero' hnum']
    · have hsign : b.den.val.sign = b'.den.val.sign := by
        rcases h with hnone | hfinite | hsign
        · exact absurd hnone hzero
        · have hden : b.den.val = 0 := by simpa [isZero, hnum] using hfinite
          rw [hden, (den_eq_zero_congr hb).mp hden]
        · exact hsign
      apply mulCanonical_congr ha
      rw [canonical_inverse_of_num_eq_zero hnum, canonical_inverse_of_num_eq_zero hnum', hsign]
  · exact mulCanonical_congr ha (canonical_inverse_congr hnum hb)

/-- Elsewhere the quotients are not equal. -/
theorem divisorSpelled_of_div (ha : a.canonical = a'.canonical)
    (hb : b.canonical = b'.canonical) (hdiv : (a.div b).canonical = (a'.div b').canonical) :
    DivisorSpelled a b b' := by
  by_contra hnot
  rw [DivisorSpelled, not_or, not_or, Bool.not_eq_false] at hnot
  rcases hnot with ⟨hzero, hb0, hsign⟩
  have hparts : b.num.val = 0 ∧ b.den.val ≠ 0 := by simpa [isZero] using hb0
  have hden' := (den_eq_zero_congr hb).not.mp hparts.2
  have hp := canonical_inverse_of_num_eq_zero hparts.1
  have hq := canonical_inverse_of_num_eq_zero ((num_eq_zero_congr hb).mp hparts.1)
  have hzero' := (num_eq_zero_congr ha).not.mp hzero
  rcases lt_or_gt_of_ne hparts.2 with hneg | hpos
  · rcases lt_or_gt_of_ne hden' with hneg' | hpos'
    · exact hsign (by rw [Int.sign_eq_neg_one_of_neg hneg, Int.sign_eq_neg_one_of_neg hneg'])
    · rw [Int.sign_eq_neg_one_of_neg hneg] at hp
      rw [Int.sign_eq_one_of_pos hpos'] at hq
      exact canonical_mul_ne_of_infinities hzero' ha.symm hq hp hdiv.symm
  · rcases lt_or_gt_of_ne hden' with hneg' | hpos'
    · rw [Int.sign_eq_one_of_pos hpos] at hp
      rw [Int.sign_eq_neg_one_of_neg hneg'] at hq
      exact canonical_mul_ne_of_infinities hzero ha hp hq hdiv
    · exact hsign (by rw [Int.sign_eq_one_of_pos hpos, Int.sign_eq_one_of_pos hpos'])

/-- The operators agree on two pairs of operands, negation flips the sign, and `x - x` is zero. -/
structure Respects (a a' b b' : Rational) : Prop where
  add : (a.add b).eq (a'.add b') = true
  sub : (a.sub b).eq (a'.sub b') = true
  mul : (a.mul b).eq (a'.mul b') = true
  div : (a.div b).eq (a'.div b') = true
  neg : a.negValue.eq a'.negValue = true
  checkedAdd : Option.Rel (fun x y => x.eq y = true) (a.checkedAdd b) (a'.checkedAdd b')
  checkedSub : Option.Rel (fun x y => x.eq y = true) (a.checkedSub b) (a'.checkedSub b')
  checkedMul : Option.Rel (fun x y => x.eq y = true) (a.checkedMul b) (a'.checkedMul b')
  checkedDiv : Option.Rel (fun x y => x.eq y = true) (a.checkedDiv b) (a'.checkedDiv b')
  signum : a.negValue.signum = -a.signum
  subSelf : a.isDefined = true → (a.sub a).eq ZERO = true

/-- Neither first operand is the least infinity, a subtrahend is that on both sides or on neither,
and a zero divisor has denominators of one sign. -/
structure Spelled (a a' b b' : Rational) : Prop where
  left : ¬ a.IsLeastInfinity
  right : ¬ a'.IsLeastInfinity
  subtrahend : SubtrahendSpelled a b b'
  divisor : DivisorSpelled a b b'

theorem rel_of_eq {x y : Option Rational} (h : x = y) :
    Option.Rel (fun x y => x.eq y = true) x y := by
  subst h
  cases x with
  | none => exact Option.Rel.none
  | some r => exact Option.Rel.some (eq_refl r)

/-- The operators agree on equal operands exactly when these are spelled alike where the
spelling matters. -/
theorem respects_iff_spelled (ha : a.eq a' = true) (hb : b.eq b' = true) :
    Respects a a' b b' ↔ Spelled a a' b b' := by
  rw [eq_iff_canonical_eq] at ha hb
  constructor
  · intro h
    have hleft : ¬ a.IsLeastInfinity := signum_negValue_iff.mp h.signum
    have hright : ¬ a'.IsLeastInfinity := by
      intro hleast
      have hneg := eq_iff_canonical_eq.mp h.neg
      rw [canonical_negValue hleft, ha, negValue_of_isLeastInfinity hleast,
        canonical_of_isLeastInfinity hleast] at hneg
      exact absurd hneg (by decide)
    exact ⟨hleft, hright, subtrahendSpelled_of_sub ha hb (eq_iff_canonical_eq.mp h.sub),
      divisorSpelled_of_div ha hb (eq_iff_canonical_eq.mp h.div)⟩
  · intro h
    have hadd := addCanonical_congr ha hb
    have hmul := mulCanonical_congr ha hb
    have hsub := addCanonical_negValue_congr ha hb h.subtrahend
    have hdiv := mulCanonical_inverse_congr ha hb h.divisor
    exact {
      add := by rw [Rational.add, Rational.add, hadd]; exact eq_refl _
      sub := by rw [Rational.sub, Rational.sub, Rational.add, Rational.add, hsub]; exact eq_refl _
      mul := by rw [Rational.mul, Rational.mul, hmul]; exact eq_refl _
      div := by rw [Rational.div, Rational.div, Rational.mul, Rational.mul, hdiv]; exact eq_refl _
      neg := by
        rw [eq_iff_canonical_eq, canonical_negValue h.left, canonical_negValue h.right, ha]
      checkedAdd := rel_of_eq (by rw [Rational.checkedAdd, Rational.checkedAdd, hadd])
      checkedSub := rel_of_eq (by
        rw [Rational.checkedSub, Rational.checkedSub, Rational.checkedAdd,
          Rational.checkedAdd, hsub])
      checkedMul := rel_of_eq (by rw [Rational.checkedMul, Rational.checkedMul, hmul])
      checkedDiv := rel_of_eq (by rw [Rational.checkedDiv, Rational.checkedDiv, hdiv])
      signum := signum_negValue_iff.mpr h.left
      subSelf := sub_self_eq_zero }

/-- A half and a third in two spellings each. -/
theorem respects_iff_spelled_halves :
    ∃ half half' third third' : Rational, half ≠ half' ∧ third ≠ third' ∧
      (half.eq half' = true ∧ third.eq third' = true) ∧
      (Respects half half' third third' ↔ Spelled half half' third third') := by
  refine ⟨⟨castI32 1, castI32 2⟩, ⟨castI32 (-2), castI32 (-4)⟩, ⟨castI32 1, castI32 3⟩,
    ⟨castI32 2, castI32 6⟩, by decide, by decide, ?_, ?_⟩
  · decide +kernel
  · exact respects_iff_spelled (by decide +kernel) (by decide +kernel)

/-- Two spellings of the negative infinity are equal and their negations are not. -/
theorem not_respects :
    ¬ ∀ a a' b b' : Rational, a.eq a' = true → b.eq b' = true → Respects a a' b b' := by
  intro hall
  have hneg := (hall ⟨castI32 i32Min, castI32 0⟩ ⟨castI32 (-1), castI32 0⟩ ZERO ZERO
    (by decide +kernel) (by decide +kernel)).neg
  exact absurd hneg (by decide +kernel)

end Rational

end Core
end Vaco
