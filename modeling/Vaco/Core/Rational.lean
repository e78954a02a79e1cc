import Mathlib.Tactic
import Vaco.Library.FixedWidth

/-!
# Exact rationals and their bounded reduction

A rational is a raw pair of 32-bit fields, not kept in lowest terms.  This
module follows the source's canonical form and the continued-fraction reduction
of a 64-bit pair.  Intermediates are plain integers: the source computes them in
128 bits, where none of them overflows, and the one multiplication it checks is
checked here as well.

Main results:

- `Rational.reduce`: the bounded reduction with its exactness flag.
- `canonicalise_spec`: a canonical form is coprime and has the value of the pair.
-/

namespace Vaco
namespace Core

open Library

/-- A raw pair; a zero denominator is permitted and meaningful. -/
structure Rational where
  num : I32
  den : I32
deriving DecidableEq

/-- The unit one timestamp tick represents, in seconds. -/
abbrev TimeBase := Rational

namespace Rational

/-- The microsecond time base `1/1000000`. -/
def MICROSECONDS : Rational where
  num := .lit 1
  den := .lit 1000000

/-- Whether this is a finite number. -/
def isDefined (r : Rational) : Bool :=
  r.den.val ≠ 0

/-- Whether this is an infinity. -/
def isInfinite (r : Rational) : Bool :=
  r.den.val = 0 ∧ r.num.val ≠ 0

/-- Whether this is exactly zero. -/
def isZero (r : Rational) : Bool :=
  r.num.val = 0 ∧ r.den.val ≠ 0

/-- The rational number a finite pair denotes. -/
def value (r : Rational) : ℚ :=
  r.num.val / r.den.val

end Rational

/-- Canonical form: positive denominator and coprime terms, or a zero
denominator with numerator in `{-1, 0, 1}`. -/
def canonicalise (n d : Int) : Int × Int :=
  if d = 0 then
    (n.sign, 0)
  else if n = 0 then
    (0, 1)
  else
    -- The divisor divides both operands, so the rounding of `/` is immaterial.
    let g : Int := Nat.gcd n.natAbs d.natAbs
    let n := n / g
    let d := d / g
    if d < 0 then (-n, -d) else (n, d)

/-- Reinterpretation of the low 32 bits as a signed value. -/
def castI32 (v : Int) : I32 where
  val := v.bmod 4294967296
  le_val := by have := Int.le_bmod (x := v) (m := 4294967296) (by decide); omega
  val_le := by have := Int.bmod_lt (x := v) (m := 4294967296) (by decide); omega

def exactFromCanonical (n d : Int) : Option Rational :=
  if d = 0 then
    some ⟨castI32 n.sign, .lit 0⟩
  else do
    let num ← toI32? n
    let den ← toI32? d
    return ⟨num, den⟩

def closer (n d p q r s : Int) : Bool :=
  let ea := |n * q - p * d|
  let eb := |n * s - r * d|
  match toI128? (ea * s), toI128? (eb * q) with
  | some la, some lb => la.val < lb.val
  | _, _ => false

/-- The remaining pair, the last two convergents, and whether one was accepted. -/
structure Convergents where
  x : Int
  y : Int
  h0 : Int
  h1 : Int
  k0 : Int
  k1 : Int
  accepted : Bool
deriving DecidableEq, Repr

/-- The largest number of times the last convergent can be added before a budget
runs out. -/
def semiconvergentSteps (maxNum maxDen a : Int) (s : Convergents) : Int :=
  let tDen := if s.k1 = 0 then a else min ((maxDen - s.k0) / s.k1) a
  let tNum := if s.h1 = 0 then tDen else min ((maxNum - s.h0) / s.h1) tDen
  max tNum 0

/-- Where the full convergent is out of budget, the semiconvergent replaces the last one if closer.
-/
def semiconvergent (n d maxNum maxDen a : Int) (s : Convergents) : Convergents :=
  if s.accepted then
    let t := semiconvergentSteps maxNum maxDen a s
    if t > 0 then
      let hs := s.h0 + t * s.h1
      let ks := s.k0 + t * s.k1
      if closer |n| d hs ks s.h1 s.k1 then { s with h1 := hs, k1 := ks } else s
    else s
  else s

def Convergents.accept (a : Int) (s : Convergents) : Convergents where
  x := s.y
  y := s.x - a * s.y
  h0 := s.h1
  h1 := a * s.h1 + s.h0
  k0 := s.k1
  k1 := a * s.k1 + s.k0
  accepted := true

/-- The continued-fraction loop. -/
def convergentLoop (n d maxNum maxDen : Int) (s : Convergents) : Convergents :=
  if s.y = 0 then
    s
  else
    let a := s.x / s.y
    if a * s.h1 + s.h0 > maxNum ∨ a * s.k1 + s.k0 > maxDen then
      semiconvergent n d maxNum maxDen a s
    else
      convergentLoop n d maxNum maxDen (s.accept a)
termination_by s.y.natAbs
decreasing_by
  have hrem : s.x - s.x / s.y * s.y = s.x % s.y := by
    rw [Int.emod_def, mul_comm]
  show (s.x - s.x / s.y * s.y).natAbs < s.y.natAbs
  rw [hrem]
  have hnonneg := Int.emod_nonneg s.x ‹¬s.y = 0›
  have hlt := Int.emod_lt_abs s.x ‹¬s.y = 0›
  rw [Int.abs_eq_natAbs] at hlt
  omega

/-- The state the expansion of `|n|/d` starts from. -/
def Convergents.initial (n d : Int) : Convergents where
  x := |n|
  y := d
  h0 := 0
  h1 := 1
  k0 := 1
  k1 := 0
  accepted := false

/-- The greatest 32-bit numerator. -/
abbrev i32Max : Int := 2147483647

/-- Best approximation of `n/d` with bounded terms, by continued fractions
with semiconvergent refinement. -/
def approxCanonical (n d maxDen : Int) : Int × Int :=
  let s := convergentLoop n d i32Max maxDen (Convergents.initial n d)
  if s.accepted = false ∨ s.k1 = 0 then
    -- The integer part alone exceeds the numerator budget.
    (if n < 0 then -i32Max else i32Max, 1)
  else
    (if n < 0 then -s.h1 else s.h1, s.k1)

/-- Canonical pair back to a rational, approximating when it does not fit. -/
def fromCanonical (n d : Int) : Rational :=
  match exactFromCanonical n d with
  | some exact => exact
  | none =>
      let (an, ad) := approxCanonical n d i32Max
      ⟨castI32 an, castI32 ad⟩

/-- Reduce to 32 bits and a denominator of at most `max`, and say whether the result is exact. -/
def Rational.reduce (num den max : I64) : Rational × Bool :=
  let bound := Max.max 1 (Min.min max.val i32Max)
  let (n, d) := canonicalise num.val den.val
  let inexact : Rational × Bool :=
    if d = 0 then
      (fromCanonical n d, true)
    else
      let (an, ad) := approxCanonical n d bound
      (fromCanonical an ad, an = n ∧ ad = d)
  if d ≠ 0 ∧ d ≤ bound then
    match exactFromCanonical n d with
    | some exact => (exact, true)
    | none => inexact
  else inexact

/-! ## Canonical form -/

/-- The canonical form divides out the greatest common divisor and moves the sign to the numerator.
-/
theorem canonicalise_of_ne_zero {n d : Int} (hn : n ≠ 0) (hd : d ≠ 0) :
    ∃ g : Int, g ≠ 0 ∧ n = g * (canonicalise n d).1 ∧ d = g * (canonicalise n d).2 ∧
      0 < (canonicalise n d).2 ∧ IsCoprime (canonicalise n d).1 (canonicalise n d).2 := by
  have hgcd : 0 < Int.gcd n d := Int.gcd_pos_of_ne_zero_left d hn
  have hgpos : (0 : Int) < (Nat.gcd n.natAbs d.natAbs : Nat) := by exact_mod_cast hgcd
  have hgn : ((Nat.gcd n.natAbs d.natAbs : Nat) : Int) ∣ n := Int.gcd_dvd_left n d
  have hgd : ((Nat.gcd n.natAbs d.natAbs : Nat) : Int) ∣ d := Int.gcd_dvd_right n d
  have hcop : IsCoprime (n / (Nat.gcd n.natAbs d.natAbs : Nat))
      (d / (Nat.gcd n.natAbs d.natAbs : Nat)) :=
    Int.isCoprime_iff_gcd_eq_one.mpr (Int.gcd_ediv_gcd_ediv_gcd hgcd)
  unfold canonicalise
  rw [if_neg hd, if_neg hn]
  dsimp only
  set g : Int := ((Nat.gcd n.natAbs d.natAbs : Nat) : Int)
  have hnq : n = g * (n / g) := (Int.mul_ediv_cancel' hgn).symm
  have hdq : d = g * (d / g) := (Int.mul_ediv_cancel' hgd).symm
  have hdz : d / g ≠ 0 := by
    intro hzero
    rw [hzero, mul_zero] at hdq
    exact hd hdq
  split_ifs with hneg
  · refine ⟨-g, by omega, ?_, ?_, by simpa using hneg, ?_⟩
    · rw [neg_mul_neg]; exact hnq
    · rw [neg_mul_neg]; exact hdq
    · exact IsCoprime.neg_neg hcop
  · exact ⟨g, by omega, hnq, hdq, by omega, hcop⟩

/-- The canonical form of a finite pair is coprime, has a positive denominator
and keeps the value. -/
theorem canonicalise_spec {n d : Int} (hd : d ≠ 0) :
    0 < (canonicalise n d).2 ∧
      IsCoprime (canonicalise n d).1 (canonicalise n d).2 ∧
      ((canonicalise n d).1 : ℚ) / (canonicalise n d).2 = n / d := by
  by_cases hn : n = 0
  · subst hn
    simp [canonicalise, hd, isCoprime_one_right]
  · obtain ⟨g, hg, hnum, hden, hpos, hcop⟩ := canonicalise_of_ne_zero hn hd
    refine ⟨hpos, hcop, ?_⟩
    have hgq : (g : ℚ) ≠ 0 := by exact_mod_cast hg
    calc
      ((canonicalise n d).1 : ℚ) / (canonicalise n d).2
          = (g * (canonicalise n d).1) / (g * (canonicalise n d).2) :=
            (mul_div_mul_left _ _ hgq).symm
      _ = n / d := by
            rw [← Int.cast_mul, ← Int.cast_mul, ← hnum, ← hden]

theorem canonicalise_abs_le {n d : Int} (hd : d ≠ 0) :
    |(canonicalise n d).1| ≤ |n| ∧ (canonicalise n d).2 ≤ |d| := by
  by_cases hn : n = 0
  · subst hn
    have := Int.one_le_abs hd
    simp [canonicalise, hd]
    omega
  · obtain ⟨g, hg, hnum, hden, hpos, -⟩ := canonicalise_of_ne_zero hn hd
    have hgabs : 1 ≤ |g| := Int.one_le_abs hg
    constructor
    · conv_rhs => rw [hnum, abs_mul]
      exact le_mul_of_one_le_left (abs_nonneg _) hgabs
    · conv_rhs => rw [hden, abs_mul, abs_of_pos hpos]
      exact le_mul_of_one_le_left hpos.le hgabs

/-! ## Conversion back to 32 bits -/

theorem exactFromCanonical_of_mem {n d : Int} (hd : d ≠ 0)
    (hn : -2147483648 ≤ n ∧ n ≤ 2147483647) (hdr : -2147483648 ≤ d ∧ d ≤ 2147483647) :
    exactFromCanonical n d = some ⟨⟨n, hn.1, hn.2⟩, ⟨d, hdr.1, hdr.2⟩⟩ := by
  have hnum : toI32? n = some ⟨n, hn.1, hn.2⟩ := Ranged.ofInt?_of_mem hn.1 hn.2
  have hden : toI32? d = some ⟨d, hdr.1, hdr.2⟩ := Ranged.ofInt?_of_mem hdr.1 hdr.2
  rw [exactFromCanonical, if_neg hd, hnum, hden]
  rfl

theorem exactFromCanonical_eq_some {n d : Int} (hd : d ≠ 0) {r : Rational}
    (h : exactFromCanonical n d = some r) : r.num.val = n ∧ r.den.val = d := by
  rw [exactFromCanonical, if_neg hd] at h
  cases hnum : toI32? n with
  | none => simp [hnum] at h
  | some num =>
      cases hden : toI32? d with
      | none => simp [hnum, hden] at h
      | some den =>
          simp only [hnum, hden, Option.bind_eq_bind, Option.bind_some, Option.pure_def,
            Option.some.injEq] at h
          subst h
          exact ⟨(Ranged.ofInt?_eq_some_iff.mp hnum).symm,
            (Ranged.ofInt?_eq_some_iff.mp hden).symm⟩

/-- A canonical pair whose terms fit survives the conversion. -/
theorem fromCanonical_of_mem {n d : Int} (hd : d ≠ 0)
    (hn : -2147483648 ≤ n ∧ n ≤ 2147483647) (hdr : -2147483648 ≤ d ∧ d ≤ 2147483647) :
    (fromCanonical n d).num.val = n ∧ (fromCanonical n d).den.val = d := by
  rw [fromCanonical, exactFromCanonical_of_mem hd hn hdr]
  exact ⟨rfl, rfl⟩

end Core
end Vaco
