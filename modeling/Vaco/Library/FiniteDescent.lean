import Mathlib.Data.Finset.Card
import Mathlib.Logic.Relation
import Mathlib.Tactic

/-!
# Recursion over a finite acyclic graph

A recursion that follows the edges of a graph from a node comes to its end when no path is
infinite.  On a finite graph no path visits a node twice, so as many steps as there are nodes
are enough.

Main results:

- `fuel_induction`: as much fuel as there are nodes is enough.
-/

namespace Vaco
namespace Library
namespace FiniteDescent

variable {α : Type*} {next : α → α → Prop}

/-- From an accessible node no path comes back. -/
theorem not_transGen_self {a : α} (h : Acc next a) : ¬ Relation.TransGen next a a := by
  have hacc := h.transGen
  clear h
  induction hacc with
  | intro a _ ih =>
      intro hcycle
      exact ih a hcycle hcycle

/-- As many units of fuel as there are nodes to reach are enough. -/
theorem fuel_induction [DecidableEq α] {motive : Nat → α → Prop}
    (step : ∀ fuel a, (∀ b, next b a → motive fuel b) → motive (fuel + 1) a) {a : α}
    (h : Acc next a) {nodes : Finset α}
    (hnodes : ∀ b, Relation.ReflTransGen next b a → b ∈ nodes) : motive nodes.card a := by
  induction h generalizing nodes with
  | intro a hacc ih =>
      have hself : a ∈ nodes := hnodes a Relation.ReflTransGen.refl
      rw [← Finset.card_erase_add_one hself]
      apply step
      intro b hb
      apply ih b hb
      intro c hc
      refine Finset.mem_erase.mpr ⟨?_, hnodes c (hc.tail hb)⟩
      rintro rfl
      exact not_transGen_self (Acc.intro c hacc) (Relation.TransGen.tail' hc hb)

end FiniteDescent
end Library
end Vaco
