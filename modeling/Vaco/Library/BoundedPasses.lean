import Mathlib.Order.Iterate
import Mathlib.Tactic

/-!
# Fixed points in a bounded number of passes

A computation that depends on its own result is tried with the result of the pass before it,
and ends early at a trial that is its own result.  Whether the last pass is consistent depends
on the iterates alone.

Main results:

- `lastTrial_fixed_iff`: the last trial is its own result if and only if the last two iterates
  agree.
-/

namespace Vaco
namespace Library
namespace BoundedPasses

section Trials

variable {α : Type*} [DecidableEq α] {f : α → α}

def lastTrial (f : α → α) : Nat → α → α
  | 0, t => t
  | left + 1, t => if f t = t then t else lastTrial f left (f t)

theorem lastTrial_eq_iterate (f : α → α) (left : Nat) (t : α) :
    ∃ j ≤ left, lastTrial f left t = f^[j] t := by
  induction left generalizing t with
  | zero => exact ⟨0, le_refl _, rfl⟩
  | succ left ih =>
      rw [lastTrial]
      split
      · exact ⟨0, Nat.zero_le _, rfl⟩
      · rcases ih (f t) with ⟨j, hj, heq⟩
        exact ⟨j + 1, Nat.succ_le_succ hj, heq⟩

/-- The last trial is its own result if and only if the last two iterates agree. -/
theorem lastTrial_fixed_iff (left : Nat) (t : α) :
    f (lastTrial f left t) = lastTrial f left t ↔ f^[left + 1] t = f^[left] t := by
  induction left generalizing t with
  | zero => exact Iff.rfl
  | succ left ih =>
      rw [lastTrial]
      split
      · rename_i hfix
        have hiter : ∀ n, f^[n] t = t := fun n => Function.iterate_fixed hfix n
        rw [hiter, hiter]
        exact ⟨fun _ => rfl, fun _ => hfix⟩
      · exact ih (f t)

theorem lastTrial_of_agree {left : Nat} {t : α} (h : f^[left + 1] t = f^[left] t) :
    lastTrial f left t = f^[left] t := by
  induction left generalizing t with
  | zero => rfl
  | succ left ih =>
      rw [lastTrial]
      split
      · rename_i hfix
        exact (Function.iterate_fixed hfix _).symm
      · exact ih h

end Trials

end BoundedPasses
end Library
end Vaco
