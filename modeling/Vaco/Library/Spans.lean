import Mathlib.Tactic

/-!
# Spans one behind another

A span is a start and a length.  Spans abut when each starts where the one before it ends.  A
length is shared out over weights by rounding every share down, so that the shares together
never exceed it.

Main results:

- `Abut.append`: abutting spans behind abutting spans abut.
- `Abut.next`: each span starts where the one before it ends.
-/

namespace Vaco
namespace Library
namespace Spans

/-- Spans of some length, one behind another from `a` to `b`. -/
def Abut : Int → List (Int × Int) → Int → Prop
  | a, [], b => a = b
  | a, span :: rest, b => span.1 = a ∧ 0 ≤ span.2 ∧ Abut (a + span.2) rest b

variable {a b c : Int} {spans later : List (Int × Int)}

theorem Abut.append (h : Abut a spans b) (hlater : Abut b later c) : Abut a (spans ++ later) c := by
  induction spans generalizing a with
  | nil =>
      cases h
      exact hlater
  | cons span spans ih => exact ⟨h.1, h.2.1, ih h.2.2⟩

theorem Abut.concat (h : Abut a spans b) {length : Int} (hlength : 0 ≤ length) :
    Abut a (spans ++ [(b, length)]) (b + length) :=
  h.append ⟨rfl, hlength, rfl⟩

/-- A span has no negative length, and the next one starts where it ends. -/
theorem Abut.next (h : Abut a spans b) {i : Nat} {span : Int × Int} (hspan : spans[i]? = some span) :
    0 ≤ span.2 ∧ ∀ other, spans[i + 1]? = some other → other.1 = span.1 + span.2 := by
  induction spans generalizing a i with
  | nil => cases hspan
  | cons first spans ih =>
      rcases h with ⟨hstart, hlength, hrest⟩
      cases i with
      | zero =>
          rw [List.getElem?_cons_zero] at hspan
          obtain rfl := Option.some.inj hspan
          refine ⟨hlength, fun other hother => ?_⟩
          rw [List.getElem?_cons_succ] at hother
          cases spans with
          | nil => cases hother
          | cons second spans =>
              rw [List.getElem?_cons_zero] at hother
              rw [← Option.some.inj hother, hrest.1, hstart]
      | succ i =>
          rw [List.getElem?_cons_succ] at hspan ⊢
          exact ih hrest hspan

theorem mul_sum_shares_le (amount : Int) {total : Int} (htotal : 0 < total) (weights : List Int) :
    (weights.map fun w => amount * w / total).sum * total ≤ amount * weights.sum := by
  induction weights with
  | nil => simp
  | cons w weights ih =>
      have hshare := Int.ediv_mul_le (amount * w) (Int.ne_of_gt htotal)
      rw [List.map_cons, List.sum_cons, List.sum_cons, Int.add_mul, Int.mul_add]
      exact Int.add_le_add hshare ih

/-- Shares rounded down do not exceed what is shared out. -/
theorem sum_shares_le {amount total : Int} (hamount : 0 ≤ amount) (htotal : 0 < total)
    (weights : List Int) (hweights : weights.sum ≤ total) :
    (weights.map fun w => amount * w / total).sum ≤ amount := by
  have hsum := mul_sum_shares_le amount htotal weights
  have hbound := Int.mul_le_mul_of_nonneg_left hweights hamount
  exact Int.le_of_mul_le_mul_right (hsum.trans hbound) htotal

end Spans
end Library
end Vaco
