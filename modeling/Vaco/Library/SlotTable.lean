import Mathlib.Data.List.Basic
import Mathlib.Tactic

/-!
# Tables whose slots go to the first claim

A table is filled by a list of claims.  Each claim names a range of slots and a value for
them; a slot that an earlier claim has taken is left alone.  Looking a slot up afterwards
is searching the claims for the first one that covers it.

Main results:

- `getElem?_claimAll`: a slot holds the value of the first claim that covers it.
-/

namespace Vaco
namespace Library
namespace SlotTable

variable {σ : Type*}

/-- A range of slots and the value it asks for. -/
structure Claim (σ : Type*) where
  base : Nat
  span : Nat
  value : σ

/-- Whether a claim covers a slot. -/
def Claim.covers (claim : Claim σ) (i : Nat) : Bool :=
  decide (claim.base ≤ i) && decide (i < claim.base + claim.span)

/-- Give the free slots of a range a value. -/
def fillFree (free : σ → Bool) (claim : Claim σ) (slots : List σ) : List σ :=
  slots.mapIdx fun i slot => if claim.covers i && free slot then claim.value else slot

/-- Fill a table by claims, earlier ones first. -/
def claimAll (free : σ → Bool) (claims : List (Claim σ)) (slots : List σ) : List σ :=
  claims.foldl (fun slots claim => fillFree free claim slots) slots

variable {free : σ → Bool} {claim : Claim σ} {claims : List (Claim σ)} {slots : List σ}

theorem getElem?_fillFree (free : σ → Bool) (claim : Claim σ) (slots : List σ) (i : Nat) :
    (fillFree free claim slots)[i]? =
      slots[i]?.map fun slot => if claim.covers i && free slot then claim.value else slot := by
  rw [fillFree, List.getElem?_mapIdx]

theorem getElem?_claimAll_of_taken {i : Nat} {slot : σ} (hslot : slots[i]? = some slot)
    (htaken : free slot = false) : (claimAll free claims slots)[i]? = some slot := by
  induction claims generalizing slots with
  | nil => exact hslot
  | cons claim claims ih =>
      rw [claimAll, List.foldl_cons]
      apply ih
      rw [getElem?_fillFree, hslot]
      simp [htaken]

/-- A free slot ends with the value of the first claim that covers it. -/
theorem getElem?_claimAll {i : Nat} {slot : σ} (hslot : slots[i]? = some slot)
    (hfree : free slot = true) (hvalues : ∀ claim ∈ claims, free claim.value = false) :
    (claimAll free claims slots)[i]? =
      some (((claims.find? fun claim => claim.covers i).map Claim.value).getD slot) := by
  induction claims generalizing slots with
  | nil => exact hslot
  | cons claim claims ih =>
      rw [claimAll, List.foldl_cons]
      have hone := getElem?_fillFree free claim slots i
      rw [hslot, Option.map_some, hfree, Bool.and_true] at hone
      cases hcovers : claim.covers i with
      | true =>
          rw [hcovers, if_pos rfl] at hone
          rw [List.find?_cons, hcovers, Option.map_some, Option.getD_some]
          exact getElem?_claimAll_of_taken hone (hvalues claim List.mem_cons_self)
      | false =>
          rw [hcovers, if_neg Bool.false_ne_true] at hone
          rw [List.find?_cons, hcovers]
          exact ih hone fun claim hmem => hvalues claim (List.mem_cons_of_mem _ hmem)

end SlotTable
end Library
end Vaco
