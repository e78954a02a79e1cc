import Vaco.Bitstream.StartCode

/-!
# Emulation prevention

A payload is escaped so that it holds no start code: a byte of at most three that follows
two zeros gets a three in front.  Escaping and unescaping each count the zeros in a row
that they have passed.

Main results:

- `toRbsp_toEbsp`: unescaping takes an escaped payload back to itself.
- `scan_toEbsp`: an escaped payload holds no start code.

Current gaps:

- The counts wrap as 32-bit numbers do; an overflow check would stop the unescaper there.
-/

namespace Vaco
namespace Bitstream

open Library BitStream

/-- Zeros in a row after one more byte. -/
def nextZeros (zeros : Nat) (b : BitVec 8) : Nat :=
  if b = 0 then (zeros + 1) % 2 ^ 32 else 0

/-- Remove escapes behind a number of zeros. -/
def toRbspLoop (zeros : Nat) : Bytes → Bytes
  | [] => []
  | b :: rest =>
      if 2 ≤ zeros ∧ b = 3 then toRbspLoop 0 rest
      else b :: toRbspLoop (nextZeros zeros b) rest

/-- Remove emulation-prevention bytes. -/
def toRbsp (ebsp : Bytes) : Bytes :=
  toRbspLoop 0 ebsp

/-- Insert escapes behind a number of zeros. -/
def toEbspLoop (zeros : Nat) : Bytes → Bytes
  | [] => []
  | b :: rest =>
      if 2 ≤ zeros ∧ b ≤ 3 then 3 :: b :: toEbspLoop (nextZeros 0 b) rest
      else b :: toEbspLoop (nextZeros zeros b) rest

/-- Insert emulation-prevention bytes and append the result to an output. -/
def toEbsp (rbsp out : Bytes) : Bytes :=
  out ++ toEbspLoop 0 rbsp

/-- Whether a buffer holds two zeros followed by a byte of at most two. -/
def violatesEbspConstraint : Bytes → Bool
  | a :: b :: c :: rest =>
      (a = 0 && b = 0 && c ≤ 2) || violatesEbspConstraint (b :: c :: rest)
  | _ => false

/-! ## The count of zeros -/

@[simp]
theorem nextZeros_of_ne {b : BitVec 8} (hb : b ≠ 0) (zeros : Nat) : nextZeros zeros b = 0 :=
  if_neg hb

theorem nextZeros_zero {zeros : Nat} (hzeros : zeros ≤ 2) : nextZeros zeros 0 = zeros + 1 := by
  rw [nextZeros, if_pos rfl]
  omega

theorem nextZeros_le {zeros : Nat} {b : BitVec 8} (hzeros : zeros ≤ 2)
    (hplain : ¬ (2 ≤ zeros ∧ b ≤ 3)) : nextZeros zeros b ≤ 2 := by
  by_cases hb : b = 0
  · subst hb
    rw [nextZeros_zero hzeros]
    by_contra hthree
    exact hplain ⟨by omega, by decide⟩
  · rw [nextZeros_of_ne hb]
    exact Nat.zero_le 2

/-! ## Unescaping an escaped payload -/

theorem toRbspLoop_toEbspLoop {zeros : Nat} (hzeros : zeros ≤ 2) (rbsp : Bytes) :
    toRbspLoop zeros (toEbspLoop zeros rbsp) = rbsp := by
  induction rbsp generalizing zeros with
  | nil => rfl
  | cons b rest ih =>
      rw [toEbspLoop]
      split
      · rename_i hescape
        have hnext : nextZeros 0 b ≤ 2 := nextZeros_le (Nat.zero_le 2) (by simp)
        rw [toRbspLoop, if_pos ⟨hescape.1, rfl⟩, toRbspLoop, if_neg (by simp), ih hnext]
      · rename_i hplain
        have hkept : ¬ (2 ≤ zeros ∧ b = 3) := by
          rintro ⟨htwo, rfl⟩
          exact hplain ⟨htwo, by decide⟩
        rw [toRbspLoop, if_neg hkept, ih (nextZeros_le hzeros hplain)]

/-- Unescaping takes an escaped payload back to itself. -/
theorem toRbsp_toEbsp (rbsp : Bytes) : toRbsp (toEbsp rbsp []) = rbsp :=
  toRbspLoop_toEbspLoop (Nat.zero_le 2) rbsp

theorem getLast?_toEbspLoop (zeros : Nat) (rbsp : Bytes) :
    (toEbspLoop zeros rbsp).getLast? = rbsp.getLast? := by
  induction rbsp generalizing zeros with
  | nil => rfl
  | cons b rest ih =>
      rw [toEbspLoop]
      split <;> simp [List.getLast?_cons, ih]

/-! ## Forbidden sequences -/

/-- The check finds what it looks for: two zeros and a byte of at most two, anywhere. -/
theorem violatesEbspConstraint_iff {buf : Bytes} :
    violatesEbspConstraint buf = true ↔ ∃ last, last ≤ 2 ∧ [0, 0, last] <:+: buf := by
  induction buf using violatesEbspConstraint.induct with
  | case1 a b c rest ih =>
      simp only [violatesEbspConstraint, Bool.or_eq_true, Bool.and_eq_true, decide_eq_true_eq, ih]
      constructor
      · rintro (⟨⟨rfl, rfl⟩, hc⟩ | ⟨last, hlast, hinfix⟩)
        · exact ⟨c, hc, [], rest, rfl⟩
        · exact ⟨last, hlast, List.infix_cons_iff.mpr (Or.inr hinfix)⟩
      · rintro ⟨last, hlast, hinfix⟩
        rcases List.infix_cons_iff.mp hinfix with hhere | hlater
        · simp only [List.cons_prefix_cons] at hhere
          rcases hhere with ⟨rfl, rfl, rfl, _⟩
          exact Or.inl ⟨⟨rfl, rfl⟩, hlast⟩
        · exact Or.inr ⟨last, hlast, hlater⟩
  | case2 buf hshort =>
      constructor
      · rw [violatesEbspConstraint.eq_2 buf hshort]
        simp
      · rintro ⟨last, _, hinfix⟩
        rcases buf with _ | ⟨a, _ | ⟨b, _ | ⟨c, rest⟩⟩⟩
        · simpa using hinfix.length_le
        · simpa using hinfix.length_le
        · simpa using hinfix.length_le
        · exact absurd rfl (hshort a b c rest)

theorem violatesEbspConstraint_cons_of_ne {b : BitVec 8} (hb : b ≠ 0) (rest : Bytes) :
    violatesEbspConstraint (b :: rest) = violatesEbspConstraint rest := by
  rcases rest with _ | ⟨c, _ | ⟨d, rest⟩⟩
  · rfl
  · rfl
  · rw [violatesEbspConstraint, decide_eq_false hb, Bool.false_and, Bool.false_and,
      Bool.false_or]

theorem violatesEbspConstraint_zero_cons_of_ne {b : BitVec 8} (hb : b ≠ 0) (rest : Bytes) :
    violatesEbspConstraint (0 :: b :: rest) = violatesEbspConstraint rest := by
  rw [← violatesEbspConstraint_cons_of_ne hb rest]
  cases rest with
  | nil => rfl
  | cons c rest =>
      rw [violatesEbspConstraint, decide_eq_false hb, Bool.and_false, Bool.false_and,
        Bool.false_or]

theorem violatesEbspConstraint_replicate {zeros : Nat} {b : BitVec 8} (hzeros : zeros ≤ 2)
    (hb : b ≠ 0) (hlarge : zeros = 2 → ¬ b ≤ 2) (rest : Bytes) :
    violatesEbspConstraint (List.replicate zeros 0 ++ b :: rest) =
      violatesEbspConstraint rest := by
  rcases (by omega : zeros = 0 ∨ zeros = 1 ∨ zeros = 2) with rfl | rfl | rfl
  · exact violatesEbspConstraint_cons_of_ne hb rest
  · exact violatesEbspConstraint_zero_cons_of_ne hb rest
  · have hfirst : decide (b ≤ 2) = false := decide_eq_false (hlarge rfl)
    rw [← violatesEbspConstraint_zero_cons_of_ne hb rest]
    show violatesEbspConstraint (0 :: 0 :: b :: rest) = _
    rw [violatesEbspConstraint, hfirst, Bool.and_false, Bool.false_or]

/-- Escaping behind counted zeros leaves no forbidden sequence, with these zeros in
front. -/
theorem violatesEbspConstraint_toEbspLoop {zeros : Nat} (hzeros : zeros ≤ 2) (rbsp : Bytes) :
    violatesEbspConstraint (List.replicate zeros 0 ++ toEbspLoop zeros rbsp) = false := by
  induction rbsp generalizing zeros with
  | nil =>
      rcases (by omega : zeros = 0 ∨ zeros = 1 ∨ zeros = 2) with rfl | rfl | rfl <;> rfl
  | cons b rest ih =>
      -- One byte of either kind, with the zeros counted so far in front of it.
      have hbyte : ∀ zeros ≤ 2, ¬ (2 ≤ zeros ∧ b ≤ 3) →
          violatesEbspConstraint (List.replicate zeros 0 ++
            b :: toEbspLoop (nextZeros zeros b) rest) = false := by
        intro zeros hzeros hplain
        have hnext := nextZeros_le hzeros hplain
        by_cases hb : b = 0
        · subst hb
          rw [nextZeros_zero hzeros] at hnext ⊢
          rw [← ih hnext, List.replicate_succ', List.append_assoc]
          rfl
        · have hlarge : zeros = 2 → ¬ b ≤ 2 := by
            intro htwo hle
            have hthree : (2 : BitVec 8) ≤ 3 := by decide
            exact hplain ⟨by omega, BitVec.le_trans hle hthree⟩
          rw [violatesEbspConstraint_replicate hzeros hb hlarge, nextZeros_of_ne hb,
            ← ih (Nat.zero_le 2)]
          rfl
      rw [toEbspLoop]
      split
      · rw [violatesEbspConstraint_replicate hzeros (by decide) fun _ => by decide]
        exact hbyte 0 (Nat.zero_le 2) (by simp)
      · rename_i hplain
        exact hbyte zeros hzeros hplain

/-- An escaped payload holds none of the forbidden sequences. -/
theorem violatesEbspConstraint_toEbsp (rbsp : Bytes) :
    violatesEbspConstraint (toEbsp rbsp []) = false :=
  violatesEbspConstraint_toEbspLoop (Nat.zero_le 2) rbsp

theorem scan_of_not_violatesEbspConstraint {buf : Bytes}
    (h : violatesEbspConstraint buf = false) : scan buf = none := by
  induction buf with
  | nil => rfl
  | cons a rest ih =>
      have hfree : startsCode (a :: rest) = false ∧ violatesEbspConstraint rest = false := by
        rcases rest with _ | ⟨b, _ | ⟨c, rest⟩⟩
        · simp [startsCode, violatesEbspConstraint]
        · simp [startsCode, violatesEbspConstraint]
        · rw [violatesEbspConstraint, Bool.or_eq_false_iff] at h
          refine ⟨?_, h.2⟩
          by_contra hcode
          have hbytes : a = 0 ∧ b = 0 ∧ c = 1 := by simpa [startsCode, and_assoc] using hcode
          rcases hbytes with ⟨rfl, rfl, rfl⟩
          exact absurd h.1 (by decide)
      rw [scan, hfree.1, ih hfree.2]
      rfl

/-- An escaped payload holds no start code. -/
theorem scan_toEbsp (rbsp : Bytes) : scan (toEbsp rbsp []) = none :=
  scan_of_not_violatesEbspConstraint (violatesEbspConstraint_toEbsp rbsp)

end Bitstream
end Vaco
