import Vaco.Core.Rational
import Vaco.Library.BestApproximation

/-!
# Bounded reduction is a best approximation

The continued-fraction loop keeps two neighbouring convergents that bracket the
target.  When the next convergent runs out of a budget, the semiconvergent taken
the largest possible number of times closes the bracket: no fraction within the
budgets lies strictly between its endpoints, so the closer endpoint is a best
approximation.

Main results:

- `LoopInv.accept`: one accepted partial quotient keeps the bracket and the budgets.
- `LoopInv.semiconvergent_best`: the step that leaves the loop selects a best approximation.
- `approxCanonical_best`: the whole approximation, for either sign.
- `Rational.reduce_best`: the bounded reduction of a 64-bit pair is a best approximation, and its
  flag says whether it is exact.
-/

namespace Vaco
namespace Core

open Library

/-! ## What a best approximation is -/

/-- A fraction within the budgets such that no fraction within the budgets is
strictly closer to `n/d`. -/
structure BestWithin (n d maxDen a k : Int) : Prop where
  den_pos : 1 ≤ k
  den_le : k ≤ maxDen
  num_le : |a| ≤ i32Max
  not_farther : ∀ p q : Int, |p| ≤ i32Max → 1 ≤ q → q ≤ maxDen →
    crossError n d a k * q ≤ crossError n d p q * k

theorem crossError_neg (n d p q : Int) : crossError (-n) d (-p) q = crossError n d p q := by
  have hneg : -n * q - -p * d = -(n * q - p * d) := by ring
  rw [crossError, crossError, hneg, abs_neg]

theorem BestWithin.neg {n d maxDen a k : Int} (h : BestWithin n d maxDen a k) :
    BestWithin (-n) d maxDen (-a) k where
  den_pos := h.den_pos
  den_le := h.den_le
  num_le := by rw [abs_neg]; exact h.num_le
  not_farther := by
    intro p q hp hq hqmax
    have hbest := h.not_farther (-p) q (by rwa [abs_neg]) hq hqmax
    rw [crossError_neg]
    rwa [← crossError_neg n d (-p) q, neg_neg] at hbest

theorem BestWithin.not_lt {n d maxDen a k : Int} (h : BestWithin n d maxDen a k) (hd : 0 < d)
    {p q : Int} (hp : |p| ≤ i32Max) (hq : 1 ≤ q) (hqmax : q ≤ maxDen) :
    ¬ |(n : ℚ) / d - p / q| < |(n : ℚ) / d - a / k| := by
  have hk := h.den_pos
  rw [abs_sub_div_lt_iff hd (by omega) (by omega)]
  exact (h.not_farther p q hp hq hqmax).not_gt

/-! ## The comparison never overflows -/

/-- On operands of the sizes the loop produces, the checked products fit and the
comparison is exact. -/
theorem closer_iff {n d p q r s : Int} (hn : 0 ≤ n) (hnmax : n ≤ 9223372036854775808)
    (hd : 0 ≤ d) (hdmax : d ≤ 9223372036854775808)
    (hp : 0 ≤ p) (hpmax : p ≤ i32Max) (hq : 0 ≤ q) (hqmax : q ≤ i32Max)
    (hr : 0 ≤ r) (hrmax : r ≤ i32Max) (hs : 0 ≤ s) (hsmax : s ≤ i32Max) :
    closer n d p q r s = true ↔ crossError n d p q * s < crossError n d r s * q := by
  have herr : ∀ {a b : Int}, 0 ≤ a → a ≤ i32Max → 0 ≤ b → b ≤ i32Max →
      crossError n d a b ≤ 9223372036854775808 * i32Max := by
    intro a b ha hamax hb hbmax
    have hnb : n * b ≤ 9223372036854775808 * i32Max := mul_le_mul hnmax hbmax hb (by decide)
    have had : a * d ≤ i32Max * 9223372036854775808 := mul_le_mul hamax hdmax hd (by decide)
    have hnb0 : 0 ≤ n * b := mul_nonneg hn hb
    have had0 : 0 ≤ a * d := mul_nonneg ha hd
    rw [crossError, abs_le]
    omega
  have hfits : ∀ {a b c : Int}, 0 ≤ a → a ≤ i32Max → 0 ≤ b → b ≤ i32Max → 0 ≤ c →
      c ≤ i32Max → ∃ v, toI128? (crossError n d a b * c) = some v ∧
        v.val = crossError n d a b * c := by
    intro a b c ha hamax hb hbmax hc hcmax
    have hle : crossError n d a b * c ≤ 9223372036854775808 * i32Max * i32Max :=
      mul_le_mul (herr ha hamax hb hbmax) hcmax hc (by decide)
    have hnonneg : 0 ≤ crossError n d a b * c := mul_nonneg (crossError_nonneg _ _ _ _) hc
    have hcap : 9223372036854775808 * i32Max * i32Max ≤
        170141183460469231731687303715884105727 := by decide
    exact ⟨_, Ranged.ofInt?_of_mem (by omega) (hle.trans hcap), rfl⟩
  obtain ⟨la, hla, hlav⟩ := hfits hp hpmax hq hqmax hs hsmax
  obtain ⟨lb, hlb, hlbv⟩ := hfits hr hrmax hs hsmax hq hqmax
  simp only [crossError] at hla hlb
  simp only [closer, hla, hlb, decide_eq_true_eq, hlav, hlbv]

/-! ## The loop invariant -/

/-- The last two convergents form a unimodular bracket of the target within the budgets, and behind
the first one remainder and denominators are ordered. -/
structure LoopInv (n d maxDen : Int) (s : Convergents) : Prop where
  num_eq : n = s.h1 * s.x + s.h0 * s.y
  den_eq : d = s.k1 * s.x + s.k0 * s.y
  det_sq : (s.h1 * s.k0 - s.h0 * s.k1) * (s.h1 * s.k0 - s.h0 * s.k1) = 1
  x_nonneg : 0 ≤ s.x
  y_nonneg : 0 ≤ s.y
  h0_nonneg : 0 ≤ s.h0
  h1_nonneg : 0 ≤ s.h1
  k0_nonneg : 0 ≤ s.k0
  k1_nonneg : 0 ≤ s.k1
  h0_le : s.h0 ≤ i32Max
  h1_le : s.h1 ≤ i32Max
  k0_le : s.k0 ≤ maxDen
  k1_le : s.k1 ≤ maxDen
  ordered : s.accepted = true → s.y < s.x ∧ s.k0 ≤ s.k1 ∧ 0 < s.k1
  start : s.accepted = false → s = Convergents.initial n d

theorem LoopInv.initial {n d maxDen : Int} (hn : 0 ≤ n) (hd : 0 < d) (hmax : 1 ≤ maxDen) :
    LoopInv n d maxDen (Convergents.initial n d) := by
  constructor <;> simp [Convergents.initial, abs_of_nonneg hn] <;> omega

/-- Accepting a partial quotient whose convergent is within the budgets keeps the
invariant. -/
theorem LoopInv.accept {n d maxDen : Int} {s : Convergents} (h : LoopInv n d maxDen s)
    (hy : s.y ≠ 0) (hnum : s.x / s.y * s.h1 + s.h0 ≤ i32Max)
    (hden : s.x / s.y * s.k1 + s.k0 ≤ maxDen) :
    LoopInv n d maxDen (s.accept (s.x / s.y)) := by
  have hypos : 0 < s.y := lt_of_le_of_ne h.y_nonneg (Ne.symm hy)
  have ha : 0 ≤ s.x / s.y := Int.ediv_nonneg h.x_nonneg h.y_nonneg
  have hrem : s.x - s.x / s.y * s.y = s.x % s.y := by rw [Int.emod_def, mul_comm]
  have hrem0 : 0 ≤ s.x - s.x / s.y * s.y := hrem ▸ Int.emod_nonneg _ hy
  have hremlt : s.x - s.x / s.y * s.y < s.y := hrem ▸ Int.emod_lt_of_pos _ hypos
  have hah1 : 0 ≤ s.x / s.y * s.h1 := mul_nonneg ha h.h1_nonneg
  have hak1 : 0 ≤ s.x / s.y * s.k1 := mul_nonneg ha h.k1_nonneg
  have hh0 := h.h0_nonneg
  have hk0 := h.k0_nonneg
  have hstep : s.k1 ≤ s.x / s.y * s.k1 + s.k0 ∧ 0 < s.x / s.y * s.k1 + s.k0 := by
    cases hacc : s.accepted with
    | false =>
        have hstart := h.start hacc
        have hk1 : s.k1 = 0 := by rw [hstart]; rfl
        have hk0' : s.k0 = 1 := by rw [hstart]; rfl
        rw [hk1, hk0']
        omega
    | true =>
        obtain ⟨hyx, -, hk1⟩ := h.ordered hacc
        have hquot : 1 ≤ s.x / s.y := Int.le_ediv_of_mul_le hypos (by omega)
        have : s.k1 ≤ s.x / s.y * s.k1 := le_mul_of_one_le_left h.k1_nonneg hquot
        omega
  constructor
  · simp only [Convergents.accept]; rw [h.num_eq]; ring
  · simp only [Convergents.accept]; rw [h.den_eq]; ring
  · rw [← h.det_sq]; simp only [Convergents.accept]; ring
  · exact h.y_nonneg
  · exact hrem0
  · exact h.h1_nonneg
  · simp only [Convergents.accept]; omega
  · exact h.k1_nonneg
  · simp only [Convergents.accept]; omega
  · exact h.h1_le
  · exact hnum
  · exact h.k1_le
  · exact hden
  · intro _
    exact ⟨hremlt, hstep⟩
  · intro hfalse
    cases hfalse

/-! ## The semiconvergent that leaves the loop -/

theorem cappedSteps_spec {a b c m : Int} (ha : 0 ≤ a) (hc : 0 < c) (hb : b ≤ m) :
    0 ≤ min ((m - b) / c) a ∧ min ((m - b) / c) a ≤ a ∧ b + min ((m - b) / c) a * c ≤ m ∧
      (min ((m - b) / c) a < a → m < b + min ((m - b) / c) a * c + c) := by
  have hquot : 0 ≤ (m - b) / c := Int.ediv_nonneg (by omega) hc.le
  have hmul : (m - b) / c * c ≤ m - b := Int.ediv_mul_le _ hc.ne'
  have hlt : m - b < ((m - b) / c + 1) * c := Int.lt_ediv_add_one_mul_self _ hc
  refine ⟨le_min hquot ha, min_le_right _ _, ?_, ?_⟩
  · have : min ((m - b) / c) a * c ≤ (m - b) / c * c :=
      mul_le_mul_of_nonneg_right (min_le_left _ _) hc.le
    omega
  · intro hcap
    have hmin : min ((m - b) / c) a = (m - b) / c := by omega
    rw [hmin]
    rw [add_mul, one_mul] at hlt
    omega

/-- The chosen steps stay within both budgets and below the quotient, and one step more leaves a
budget. -/
theorem semiconvergentSteps_spec {n d maxDen : Int} {s : Convergents}
    (h : LoopInv n d maxDen s) (hacc : s.accepted = true) {a : Int} (ha : 0 ≤ a)
    (hout : a * s.h1 + s.h0 > i32Max ∨ a * s.k1 + s.k0 > maxDen) :
    let t := semiconvergentSteps i32Max maxDen a s
    0 ≤ t ∧ t < a ∧ s.h0 + t * s.h1 ≤ i32Max ∧ s.k0 + t * s.k1 ≤ maxDen ∧
      (i32Max < s.h0 + t * s.h1 + s.h1 ∨ maxDen < s.k0 + t * s.k1 + s.k1) := by
  obtain ⟨-, -, hk1⟩ := h.ordered hacc
  obtain ⟨hden0, hdena, hdenle, hdenlt⟩ := cappedSteps_spec ha hk1 h.k0_le
  rcases h.h1_nonneg.eq_or_lt with hzero | hpos
  · -- With a zero numerator only the denominator budget can run out.
    have ht : semiconvergentSteps i32Max maxDen a s = min ((maxDen - s.k0) / s.k1) a := by
      rw [semiconvergentSteps, if_neg hk1.ne', if_pos hzero.symm, max_eq_left hden0]
    have hh0 := h.h0_le
    have hlt : min ((maxDen - s.k0) / s.k1) a < a := by
      refine lt_of_le_of_ne hdena fun heq => ?_
      rw [heq] at hdenle
      rw [← hzero, mul_zero] at hout
      omega
    rw [ht, ← hzero]
    exact ⟨hden0, hlt, by omega, hdenle, Or.inr (hdenlt hlt)⟩
  · obtain ⟨hnum0, hnuma, hnumle, hnumlt⟩ := cappedSteps_spec hden0 hpos h.h0_le
    have ht : semiconvergentSteps i32Max maxDen a s =
        min ((i32Max - s.h0) / s.h1) (min ((maxDen - s.k0) / s.k1) a) := by
      rw [semiconvergentSteps, if_neg hk1.ne', if_neg hpos.ne', max_eq_left hnum0]
    have hdenmono : min ((i32Max - s.h0) / s.h1) (min ((maxDen - s.k0) / s.k1) a) * s.k1 ≤
        min ((maxDen - s.k0) / s.k1) a * s.k1 := mul_le_mul_of_nonneg_right hnuma hk1.le
    have hlast : i32Max < s.h0 + min ((i32Max - s.h0) / s.h1)
          (min ((maxDen - s.k0) / s.k1) a) * s.h1 + s.h1 ∨
        maxDen < s.k0 + min ((i32Max - s.h0) / s.h1)
          (min ((maxDen - s.k0) / s.k1) a) * s.k1 + s.k1 := by
      rcases hnuma.lt_or_eq with hlt | heq
      · exact Or.inl (hnumlt hlt)
      · right
        rw [heq]
        refine hdenlt (lt_of_le_of_ne hdena fun hda => ?_)
        rw [heq, hda] at hnumle
        rw [hda] at hdenle
        omega
    have hlt : min ((i32Max - s.h0) / s.h1) (min ((maxDen - s.k0) / s.k1) a) < a := by
      refine lt_of_le_of_ne (hnuma.trans hdena) fun heq => ?_
      have hda : min ((maxDen - s.k0) / s.k1) a = a := le_antisymm hdena (heq.symm.le.trans hnuma)
      rw [heq] at hnumle
      rw [hda] at hdenle
      omega
    rw [ht]
    exact ⟨hnum0, hlt, hnumle, by omega, hlast⟩

/-- The bracket formed by the last convergent and the semiconvergent of
`t` steps. -/
def LoopInv.bracket {n d maxDen : Int} {s : Convergents} (h : LoopInv n d maxDen s) (t : Int)
    (ht : 0 ≤ s.x - t * s.y) :
    Bracket n d s.h1 s.k1 (s.h0 + t * s.h1) (s.k0 + t * s.k1) where
  det := s.h1 * s.k0 - s.h0 * s.k1
  x := s.x - t * s.y
  y := s.y
  det_eq := by ring
  det_sq := h.det_sq
  num_eq := by rw [h.num_eq]; ring
  den_eq := by rw [h.den_eq]; ring
  x_nonneg := ht
  y_nonneg := h.y_nonneg

/-- The state that leaves the loop through the semiconvergent carries a best
approximation. -/
theorem LoopInv.semiconvergent_best {n d maxDen : Int} {s : Convergents}
    (h : LoopInv |n| d maxDen s) (hn : |n| ≤ 9223372036854775808) (hd : 0 < d)
    (hdmax : d ≤ 9223372036854775808) (hmax : maxDen ≤ i32Max) (hy : s.y ≠ 0)
    (hacc : s.accepted = true)
    (hout : s.x / s.y * s.h1 + s.h0 > i32Max ∨ s.x / s.y * s.k1 + s.k0 > maxDen) :
    let r := semiconvergent n d i32Max maxDen (s.x / s.y) s
    r.accepted = true ∧ 0 ≤ r.h1 ∧ BestWithin |n| d maxDen r.h1 r.k1 := by
  have hypos : 0 < s.y := lt_of_le_of_ne h.y_nonneg (Ne.symm hy)
  have ha : 0 ≤ s.x / s.y := Int.ediv_nonneg h.x_nonneg h.y_nonneg
  obtain ⟨hyx, hk01, hk1⟩ := h.ordered hacc
  obtain ⟨ht0, hta, hnumle, hdenle, hlast⟩ := semiconvergentSteps_spec h hacc ha hout
  set t := semiconvergentSteps i32Max maxDen (s.x / s.y) s with ht
  have hh0 := h.h0_nonneg
  have hk0 := h.k0_nonneg
  have hth : 0 ≤ t * s.h1 := mul_nonneg ht0 h.h1_nonneg
  have htk : 0 ≤ t * s.k1 := mul_nonneg ht0 h.k1_nonneg
  -- The weight of the last convergent stays positive below the partial quotient.
  have hweight : s.y ≤ s.x - t * s.y := by
    have hmul : (t + 1) * s.y ≤ s.x / s.y * s.y := mul_le_mul_of_nonneg_right hta hypos.le
    have hquot : s.x / s.y * s.y ≤ s.x := Int.ediv_mul_le _ hy
    rw [add_mul, one_mul] at hmul
    omega
  let B := h.bracket t (by omega)
  -- Nothing within the budgets lies strictly inside the bracket.
  have hoffside : ∀ p q : Int, |p| ≤ i32Max → 1 ≤ q → q ≤ maxDen →
      B.rightCoeff p q ≤ 0 ∨ B.leftCoeff p q ≤ 0 := by
    intro p q hp hq hqmax
    by_contra hboth
    rw [not_or, not_le, not_le] at hboth
    have hmed := B.mediant_le h.h1_nonneg h.k1_nonneg (by omega) (by omega) hboth.2 hboth.1
    have := (abs_le.mp hp).2
    omega
  have hleftBest : (∀ q' : Int, crossError |n| d s.h1 s.k1 * (s.k0 + t * s.k1) ≤
      crossError |n| d (s.h0 + t * s.h1) (s.k0 + t * s.k1) * s.k1) →
      BestWithin |n| d maxDen s.h1 s.k1 := by
    intro hcloser
    refine ⟨hk1, h.k1_le, by rw [abs_of_nonneg h.h1_nonneg]; exact h.h1_le, ?_⟩
    intro p q hp hq hqmax
    rcases hoffside p q hp hq hqmax with hright | hleft
    · exact B.left_not_farther h.k1_nonneg (by omega) hq hright
    · obtain ⟨hks, hbest⟩ := B.right_not_farther h.k1_nonneg (by omega) hq hleft
      exact crossError_trans hks hq hk1 (hcloser 0) hbest
  rcases ht0.eq_or_lt with hzero | hpos
  · -- No step fits: the previous convergent is farther than the last one.
    have hres : semiconvergent n d i32Max maxDen (s.x / s.y) s = s := by
      rw [semiconvergent, if_pos hacc]
      simp only [← ht, ← hzero, lt_irrefl, if_false]
    rw [hres]
    refine ⟨hacc, h.h1_nonneg, hleftBest fun _ => ?_⟩
    have hx := B.crossError_right
    have hyerr := B.crossError_left
    rw [hx, hyerr]
    have hBx : B.x = s.x - t * s.y := rfl
    have hBy : B.y = s.y := rfl
    rw [hBx, hBy]
    refine mul_le_mul hweight ?_ (by omega) (by omega)
    rw [← hzero]
    omega
  · have hks : 0 < s.k0 + t * s.k1 := by
      have : 0 < t * s.k1 := mul_pos hpos hk1
      omega
    have hcmp := closer_iff (abs_nonneg n) hn hd.le hdmax
      (show 0 ≤ s.h0 + t * s.h1 by omega) hnumle
      (show 0 ≤ s.k0 + t * s.k1 by omega) (hdenle.trans hmax)
      h.h1_nonneg h.h1_le h.k1_nonneg (h.k1_le.trans hmax)
    by_cases hcl : closer |n| d (s.h0 + t * s.h1) (s.k0 + t * s.k1) s.h1 s.k1 = true
    · have hres : semiconvergent n d i32Max maxDen (s.x / s.y) s =
          { s with h1 := s.h0 + t * s.h1, k1 := s.k0 + t * s.k1 } := by
        rw [semiconvergent, if_pos hacc]
        simp only [← ht, gt_iff_lt, hpos, if_true, hcl]
      have hlt := hcmp.mp hcl
      rw [hres]
      refine ⟨hacc, add_nonneg hh0 hth, hks, hdenle, ?_, ?_⟩
      · rw [abs_of_nonneg (show 0 ≤ s.h0 + t * s.h1 by omega)]
        exact hnumle
      · intro p q hp hq hqmax
        rcases hoffside p q hp hq hqmax with hright | hleft
        · exact crossError_trans hk1 hq hks hlt.le
            (B.left_not_farther h.k1_nonneg (by omega) hq hright)
        · exact (B.right_not_farther h.k1_nonneg (by omega) hq hleft).2
    · have hres : semiconvergent n d i32Max maxDen (s.x / s.y) s = s := by
        rw [semiconvergent, if_pos hacc]
        simp only [← ht, gt_iff_lt, hpos, if_true, hcl]
        rfl
      rw [hres]
      refine ⟨hacc, h.h1_nonneg, hleftBest fun _ => ?_⟩
      exact not_lt.mp fun hlt => hcl (hcmp.mpr hlt)

/-! ## The whole loop -/

/-- The loop ends with a best approximation, or without one when the integer part is too large. -/
theorem convergentLoop_best {n d maxDen : Int} (hn : |n| ≤ 9223372036854775808) (hd : 0 < d)
    (hdmax : d ≤ 9223372036854775808) (hmax : maxDen ≤ i32Max) (s : Convergents)
    (h : LoopInv |n| d maxDen s) :
    let r := convergentLoop n d i32Max maxDen s
    (r.accepted = false ∧ (i32Max + 1) * d ≤ |n|) ∨
      (r.accepted = true ∧ 0 ≤ r.h1 ∧ BestWithin |n| d maxDen r.h1 r.k1) := by
  induction s using convergentLoop.induct i32Max maxDen with
  | case1 s hy =>
      -- The expansion is finished, so the last convergent is the target itself.
      rw [convergentLoop, if_pos hy]
      right
      cases hacc : s.accepted with
      | false =>
          have hstart := congrArg Convergents.y (h.start hacc)
          simp only [Convergents.initial] at hstart
          omega
      | true =>
          refine ⟨rfl, h.h1_nonneg, (h.ordered hacc).2.2, h.k1_le, ?_, ?_⟩
          · rw [abs_of_nonneg h.h1_nonneg]
            exact h.h1_le
          · intro p q _ hq _
            have hnum := h.num_eq
            have hden := h.den_eq
            rw [hy, mul_zero, add_zero] at hnum hden
            have hexact : crossError |n| d s.h1 s.k1 = 0 := by
              rw [crossError, hnum, hden, abs_eq_zero]
              ring
            rw [hexact, zero_mul]
            exact mul_nonneg (crossError_nonneg _ _ _ _) h.k1_nonneg
  | case2 s hy a hout =>
      rw [convergentLoop, if_neg hy, if_pos hout]
      cases hacc : s.accepted with
      | true =>
          right
          exact h.semiconvergent_best hn hd hdmax hmax hy hacc hout
      | false =>
          left
          have hres : semiconvergent n d i32Max maxDen (s.x / s.y) s = s := by
            rw [semiconvergent, hacc]
            rfl
          rw [hres]
          refine ⟨hacc, ?_⟩
          have hstart := h.start hacc
          have hquot : i32Max + 1 ≤ |n| / d := by
            have hk0 := h.k0_le
            have hbudget : s.x / s.y * s.h1 + s.h0 > i32Max ∨
                s.x / s.y * s.k1 + s.k0 > maxDen := hout
            rw [hstart] at hbudget hk0
            simp only [Convergents.initial, abs_abs, mul_one, mul_zero, add_zero,
              zero_add] at hbudget hk0
            omega
          exact (Int.le_ediv_iff_mul_le hd).mp hquot
  | case3 s hy a hin ih =>
      rw [convergentLoop, if_neg hy, if_neg hin]
      rw [not_or, not_lt, not_lt] at hin
      exact ih (h.accept hy hin.1 hin.2)

theorem bestWithin_saturated {n d maxDen : Int} (hd : 0 < d) (hmax : 1 ≤ maxDen)
    (hbig : (i32Max + 1) * d ≤ n) : BestWithin n d maxDen i32Max 1 := by
  refine ⟨le_rfl, hmax, by decide, ?_⟩
  intro p q hp hq _
  have hpd : p * d ≤ i32Max * d := mul_le_mul_of_nonneg_right (abs_le.mp hp).2 hd.le
  have hdq : i32Max * d ≤ i32Max * d * q := le_mul_of_one_le_right (by positivity) hq
  have hself : crossError n d i32Max 1 = n - i32Max * d := by
    rw [crossError, mul_one, abs_of_nonneg]
    rw [add_mul] at hbig
    omega
  calc
    crossError n d i32Max 1 * q = n * q - i32Max * d * q := by rw [hself, sub_mul]
    _ ≤ n * q - p * d := by omega
    _ ≤ crossError n d p q := le_abs_self _
    _ = crossError n d p q * 1 := (mul_one _).symm

/-- The approximation of a canonical pair is a best approximation, whatever the
sign of the target. -/
theorem approxCanonical_best {n d maxDen : Int} (hn : |n| ≤ 9223372036854775808) (hd : 0 < d)
    (hdmax : d ≤ 9223372036854775808) (hmax1 : 1 ≤ maxDen) (hmax : maxDen ≤ i32Max) :
    BestWithin n d maxDen (approxCanonical n d maxDen).1 (approxCanonical n d maxDen).2 := by
  have hloop := convergentLoop_best hn hd hdmax hmax _
    (LoopInv.initial (abs_nonneg n) hd hmax1)
  have hstart : Convergents.initial |n| d = Convergents.initial n d := by
    simp only [Convergents.initial, abs_abs]
  rw [hstart] at hloop
  set r := convergentLoop n d i32Max maxDen (Convergents.initial n d) with hr
  have hsign : ∀ {a k : Int}, BestWithin |n| d maxDen a k →
      BestWithin n d maxDen (if n < 0 then -a else a) k := by
    intro a k hbest
    split_ifs with hneg
    · have hflip := hbest.neg
      rwa [abs_of_neg hneg, neg_neg] at hflip
    · rwa [abs_of_nonneg (not_lt.mp hneg)] at hbest
  rcases hloop with ⟨hacc, hbig⟩ | ⟨hacc, -, hbest⟩
  · have hval : approxCanonical n d maxDen = (if n < 0 then -i32Max else i32Max, 1) := by
      simp only [approxCanonical, ← hr, hacc, true_or, if_true]
    rw [hval]
    exact hsign (bestWithin_saturated hd hmax1 hbig)
  · have hk := hbest.den_pos
    have hval : approxCanonical n d maxDen = (if n < 0 then -r.h1 else r.h1, r.k1) := by
      have hk0 : r.k1 ≠ 0 := by omega
      simp [approxCanonical, ← hr, hacc, hk0]
    rw [hval]
    exact hsign hbest

/-! ## The bounded reduction -/

theorem le_of_div_eq {n d a k : Int} (hd : 0 < d) (hk : 0 < k) (hcop : IsCoprime n d)
    (h : (a : ℚ) / k = n / d) : |n| ≤ |a| ∧ d ≤ k := by
  have hdq : (d : ℚ) ≠ 0 := by exact_mod_cast hd.ne'
  have hkq : (k : ℚ) ≠ 0 := by exact_mod_cast hk.ne'
  have hcross : a * d = n * k := by
    rw [div_eq_div_iff hkq hdq] at h
    exact_mod_cast h
  have hdvd : d ∣ k := hcop.symm.dvd_of_dvd_mul_left ⟨a, by rw [← hcross, mul_comm]⟩
  obtain ⟨m, hm⟩ := hdvd
  have hm1 : 1 ≤ m := pos_of_mul_pos_right (hm ▸ hk) hd.le
  have ha : a = n * m := by
    refine mul_right_cancel₀ hd.ne' ?_
    rw [hcross, hm]
    ring
  constructor
  · rw [ha, abs_mul]
    exact le_mul_of_one_le_right (abs_nonneg n) (hm1.trans (le_abs_self m))
  · rw [hm]
    exact le_mul_of_one_le_right hd.le hm1

/-- The denominator budget of a reduction: the requested bound, clamped. -/
def denBudget (max : I64) : Int :=
  Max.max 1 (Min.min max.val i32Max)

theorem Rational.reduce_of_fits {num den max : I64} {r : Rational}
    (hd : (canonicalise num.val den.val).2 ≠ 0)
    (hle : (canonicalise num.val den.val).2 ≤ denBudget max)
    (hconv : exactFromCanonical (canonicalise num.val den.val).1
      (canonicalise num.val den.val).2 = some r) :
    Rational.reduce num den max = (r, true) := by
  simp only [Rational.reduce]
  rw [if_pos ⟨hd, hle⟩, hconv]

theorem Rational.reduce_of_not_fits {num den max : I64}
    (hd : (canonicalise num.val den.val).2 ≠ 0)
    (hfit : (canonicalise num.val den.val).2 ≤ denBudget max →
      exactFromCanonical (canonicalise num.val den.val).1
        (canonicalise num.val den.val).2 = none) :
    let c := canonicalise num.val den.val
    let a := approxCanonical c.1 c.2 (denBudget max)
    Rational.reduce num den max =
      (fromCanonical a.1 a.2, decide (a.1 = c.1 ∧ a.2 = c.2)) := by
  simp only [Rational.reduce]
  by_cases hle : (canonicalise num.val den.val).2 ≤ denBudget max
  · rw [if_pos ⟨hd, hle⟩, hfit hle]
    simp only [if_neg hd]
    rfl
  · rw [if_neg fun h => hle h.2, if_neg hd]
    rfl

/-- The reduction is a best approximation within the budgets, flagged exactly when it has the value
of the pair. -/
theorem Rational.reduce_best (num den max : I64) (hden : den.val ≠ 0) (hmax : 1 ≤ max.val) :
    let r := Rational.reduce num den max
    1 ≤ r.1.den.val ∧ r.1.den.val ≤ min max.val i32Max ∧
      (∀ p q : Int, |p| ≤ i32Max → 1 ≤ q → q ≤ min max.val i32Max →
        ¬ |(num.val : ℚ) / den.val - p / q| < |(num.val : ℚ) / den.val - r.1.value|) ∧
      (r.2 = true ↔ r.1.value = (num.val : ℚ) / den.val) := by
  obtain ⟨hdpos, hcop, hvalue⟩ := canonicalise_spec (n := num.val) hden
  obtain ⟨hnle, hdle⟩ := canonicalise_abs_le (n := num.val) hden
  have hi32 : i32Max = 2147483647 := rfl
  have hbound : denBudget max = min max.val i32Max := by
    rw [denBudget]
    omega
  have hnmax : |(canonicalise num.val den.val).1| ≤ 9223372036854775808 := by
    refine hnle.trans (abs_le.mpr ?_)
    have := num.le_val
    have := num.val_le
    omega
  have hdmax : (canonicalise num.val den.val).2 ≤ 9223372036854775808 := by
    refine hdle.trans (abs_le.mpr ?_)
    have := den.le_val
    have := den.val_le
    omega
  rw [← hvalue, ← hbound]
  by_cases hfit : (canonicalise num.val den.val).2 ≤ denBudget max ∧
      (-2147483648 ≤ (canonicalise num.val den.val).1 ∧
        (canonicalise num.val den.val).1 ≤ 2147483647)
  · -- The canonical pair itself is within the budgets.
    obtain ⟨hle, hnfit⟩ := hfit
    have hconv := exactFromCanonical_of_mem hdpos.ne' hnfit (by omega)
    rw [Rational.reduce_of_fits hdpos.ne' hle hconv]
    refine ⟨hdpos, hle, ?_, ?_⟩
    · intro p q _ _ _
      simp [Rational.value]
    · simp [Rational.value]
  · -- The pair does not fit, so the approximation is taken.
    have hnone : (canonicalise num.val den.val).2 ≤ denBudget max →
        exactFromCanonical (canonicalise num.val den.val).1
          (canonicalise num.val den.val).2 = none := by
      intro hle
      cases hconv : exactFromCanonical (canonicalise num.val den.val).1
          (canonicalise num.val den.val).2 with
      | none => rfl
      | some r =>
          obtain ⟨hnum, -⟩ := exactFromCanonical_eq_some hdpos.ne' hconv
          have := r.num.le_val
          have := r.num.val_le
          exact absurd ⟨hle, by omega, by omega⟩ hfit
    have hbest := approxCanonical_best hnmax hdpos hdmax
      (show 1 ≤ denBudget max by omega) (show denBudget max ≤ i32Max by omega)
    rw [Rational.reduce_of_not_fits hdpos.ne' hnone]
    dsimp only
    set n := (canonicalise num.val den.val).1
    set d := (canonicalise num.val den.val).2
    set a := approxCanonical n d (denBudget max)
    have hk1 := hbest.den_pos
    have hkmax := hbest.den_le
    have hamax := abs_le.mp hbest.num_le
    obtain ⟨hanum, haden⟩ := fromCanonical_of_mem (n := a.1) (d := a.2) (by omega)
      (by omega) (by omega)
    have haval : (fromCanonical a.1 a.2).value = (a.1 : ℚ) / a.2 := by
      rw [Rational.value, hanum, haden]
    refine ⟨by omega, by omega, ?_, ?_⟩
    · intro p q hp hq hqmax
      rw [haval]
      exact hbest.not_lt hdpos hp hq hqmax
    · rw [haval, decide_eq_true_iff]
      constructor
      · rintro ⟨hna, hda⟩
        rw [hna, hda]
      · intro heq
        obtain ⟨hnge, hdge⟩ := le_of_div_eq hdpos (by omega) hcop heq
        have hnum := abs_le.mp (hnge.trans hbest.num_le)
        exact absurd ⟨hdge.trans hkmax, by omega, by omega⟩ hfit

/-- With denominators up to two, one third reduces to one half, and zero is not
closer. -/
theorem Rational.reduce_best_third :
    Rational.reduce (clampI64 1) (clampI64 3) (clampI64 2) =
        (⟨⟨1, by decide, by decide⟩, ⟨2, by decide, by decide⟩⟩, false) ∧
      ¬ |((clampI64 1).val : ℚ) / (clampI64 3).val - (0 : Int) / (1 : Int)| <
        |((clampI64 1).val : ℚ) / (clampI64 3).val -
          (Rational.reduce (clampI64 1) (clampI64 3) (clampI64 2)).1.value| := by
  have hbest := Rational.reduce_best (clampI64 1) (clampI64 3) (clampI64 2)
    (by decide) (by decide)
  exact ⟨by decide +kernel, hbest.2.2.1 0 1 (by decide) (by decide) (by decide)⟩

end Core
end Vaco
