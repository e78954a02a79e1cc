import Mathlib.Data.List.Sort
import Vaco.Sched.Wire

/-!
# The decoded picture buffer

A picture stays in the buffer while it is needed for output or marked as a reference.  A reference
picture set marks the pictures; a bump takes the picture of the least order count that is still
needed and clears its need; removal is a step of its own, so that what was bumped can be read first.

Main results:

- `bumps_bumpWhile`: a bump is a chain of single outputs, each where its condition held.

Current gaps:

- What a picture is apart from its size, its metadata and its motion field are not looked into.
-/

namespace Vaco
namespace Hevc

open Library Vaco.Core Sched

/-- How a picture in the buffer is marked. -/
inductive Marking where
  | unused
  | shortTerm
deriving DecidableEq

/-- The order counts that a picture keeps as references. -/
structure ReferencePicSets where
  stCurrBefore : List Int
  stCurrAfter : List Int
  stFoll : List Int

/-- Whether an order count is in one of the sets. -/
def ReferencePicSets.kept (sets : ReferencePicSets) (poc : Int) : Bool :=
  sets.stCurrBefore.contains poc || sets.stCurrAfter.contains poc || sets.stFoll.contains poc

/-- A decoded picture with all that is stored beside it, and the bytes it was charged. -/
structure Picture (α : Type) where
  content : α
  budgetBytes : Nat

/-- One picture held in the buffer. -/
structure DpbEntry (α : Type) where
  picture : Picture α
  poc : Int
  neededForOutput : Bool
  marking : Marking
  latencyCount : Nat

/-- Whether an entry has to stay. -/
def DpbEntry.stays {α : Type} (e : DpbEntry α) : Bool :=
  e.neededForOutput || e.marking != .unused

/-- What an entry is apart from its need and its delay. -/
def DpbEntry.core {α : Type} (e : DpbEntry α) : Int × Picture α × Marking :=
  (e.poc, e.picture, e.marking)

/-- The decoded picture buffer. -/
structure Dpb (α : Type) where
  entries : List (DpbEntry α)
  maxDecPicBuffering : Nat
  maxNumReorderPics : Nat
  spsMaxLatencyPictures : Option Nat

/-- The largest unsigned 32-bit value. -/
def u32Max : Nat :=
  4294967295

namespace Dpb

variable {α : Type}

/-- An empty buffer with the bounds of a sequence. -/
def new (maxDecPicBuffering maxNumReorderPics maxLatencyIncreasePlus1 : Nat) : Dpb α where
  entries := []
  maxDecPicBuffering := maxDecPicBuffering
  maxNumReorderPics := maxNumReorderPics
  spsMaxLatencyPictures :=
    if maxLatencyIncreasePlus1 ≠ 0 then
      some (min u32Max (min u32Max maxNumReorderPics + maxLatencyIncreasePlus1) - 1)
    else
      none

/-- Give back the bytes of some entries, one after another. -/
def releaseAll (budget : Budget) (entries : List (DpbEntry α)) : Budget :=
  entries.foldl (fun b e => b.release e.picture.budgetBytes) budget

/-- Drop every entry that is neither needed for output nor a reference. -/
def removeUnused (dpb : Dpb α) (budget : Budget) : Dpb α × Budget :=
  ({ dpb with entries := dpb.entries.filter DpbEntry.stays },
    releaseAll budget (dpb.entries.filter fun e => !e.stays))

def applyReferencePictureSet (dpb : Dpb α) (sets : ReferencePicSets) (budget : Budget) :
    Dpb α × Budget :=
  removeUnused
    { dpb with
      entries := dpb.entries.map fun e =>
        { e with marking := if sets.kept e.poc then .shortTerm else .unused } }
    budget

/-- Empty the buffer. -/
def clearAll (dpb : Dpb α) (budget : Budget) : Dpb α × Budget :=
  ({ dpb with entries := [] }, releaseAll budget dpb.entries)

/-- The order counts of what is still needed for output. -/
def pending (dpb : Dpb α) : List Int :=
  (dpb.entries.filter DpbEntry.neededForOutput).map DpbEntry.poc

/-- More pictures wait for output than are ever reordered. -/
def overReorder (dpb : Dpb α) : Bool :=
  decide (dpb.maxNumReorderPics < (dpb.entries.filter DpbEntry.neededForOutput).length)

/-- A picture has waited for as long as the sequence allows. -/
def overLatency (dpb : Dpb α) : Bool :=
  dpb.spsMaxLatencyPictures.any fun bound =>
    dpb.entries.any fun e => e.neededForOutput && decide (bound ≤ e.latencyCount)

/-- The buffer is full. -/
def overCapacity (dpb : Dpb α) : Bool :=
  decide (dpb.maxDecPicBuffering ≤ (dpb.entries.filter DpbEntry.stays).length)

/-- Take the picture of the least order count that is needed for output. -/
def bumpOnce (dpb : Dpb α) : Option (Int × Dpb α) :=
  match dpb.pending.min? with
  | none => none
  | some poc =>
      let idx := dpb.entries.findIdx fun e => e.neededForOutput && e.poc == poc
      some (poc, { dpb with
        entries := dpb.entries.modify idx fun e => { e with neededForOutput := false } })

def bumpLoop (shouldBump : Dpb α → Bool) : Nat → Dpb α → List Int × Dpb α
  | 0, dpb => ([], dpb)
  | left + 1, dpb =>
      if shouldBump dpb then
        match dpb.bumpOnce with
        | none => ([], dpb)
        | some (poc, next) =>
            let rest := bumpLoop shouldBump left next
            (poc :: rest.1, rest.2)
      else
        ([], dpb)

/-- Bump while a condition holds; there are no more outputs than pictures waiting for one. -/
def bumpWhile (shouldBump : Dpb α → Bool) (dpb : Dpb α) : List Int × Dpb α :=
  bumpLoop shouldBump dpb.pending.length dpb

/-- The condition before a picture is decoded. -/
def shouldBumpPre (dpb : Dpb α) : Bool :=
  dpb.overReorder || dpb.overLatency || dpb.overCapacity

/-- The condition behind a decoded picture. -/
def shouldBumpPost (dpb : Dpb α) : Bool :=
  dpb.overReorder || dpb.overLatency

/-- Bump before a picture is decoded. -/
def bumpPreDecode (dpb : Dpb α) : List Int × Dpb α :=
  bumpWhile shouldBumpPre dpb

/-- Count the pictures waiting behind a new one as delayed. -/
def countLatency (dpb : Dpb α) (currentPoc : Int) : Dpb α :=
  { dpb with
    entries := dpb.entries.map fun e =>
      if e.neededForOutput && decide (currentPoc < e.poc) then
        { e with latencyCount := min u32Max (e.latencyCount + 1) }
      else e }

/-- Bump behind a decoded picture. -/
def bumpPostDecode (dpb : Dpb α) (currentPoc : Int) : List Int × Dpb α :=
  bumpWhile shouldBumpPost (dpb.countLatency currentPoc)

/-- A picture of the buffer, whatever its marking. -/
def pictureForOutput (dpb : Dpb α) (poc : Int) : Option (Picture α) :=
  (dpb.entries.find? fun e => e.poc == poc).map DpbEntry.picture

/-- A reference picture of the buffer. -/
def referencePicture (dpb : Dpb α) (poc : Int) : Option (Picture α) :=
  (dpb.entries.find? fun e => e.poc == poc && e.marking == .shortTerm).map DpbEntry.picture

/-- Drop what was read and is no reference. -/
def reapUnused (dpb : Dpb α) (budget : Budget) : Dpb α × Budget :=
  removeUnused dpb budget

/-- Store a decoded picture. -/
def store (dpb : Dpb α) (picture : Picture α) (poc : Int) (neededForOutput isReference : Bool) :
    Dpb α :=
  { dpb with
    entries := dpb.entries ++ [{
      picture := picture
      poc := poc
      neededForOutput := neededForOutput
      marking := if isReference then .shortTerm else .unused
      latencyCount := 0 }] }

/-- Everything that is still needed for output, in order. -/
def flush (dpb : Dpb α) : List Int :=
  dpb.pending.mergeSort

/-! ## Single outputs -/

variable {shouldBump : Dpb α → Bool} {dpb next dpb' : Dpb α} {poc : Int} {outs : List Int}

/-- A chain of single outputs, each where the condition holds. -/
inductive Bumps (shouldBump : Dpb α → Bool) : Dpb α → List Int → Dpb α → Prop where
  | stop (dpb : Dpb α) : Bumps shouldBump dpb [] dpb
  | output {dpb next dpb' : Dpb α} {poc outs} : shouldBump dpb = true →
      dpb.bumpOnce = some (poc, next) →
      Bumps shouldBump next outs dpb' → Bumps shouldBump dpb (poc :: outs) dpb'

/-- A bump is a chain of single outputs. -/
theorem bumps_bumpWhile (shouldBump : Dpb α → Bool) (dpb : Dpb α) :
    Bumps shouldBump dpb (bumpWhile shouldBump dpb).1 (bumpWhile shouldBump dpb).2 := by
  have hloop : ∀ left (d : Dpb α), Bumps shouldBump d (bumpLoop shouldBump left d).1
      (bumpLoop shouldBump left d).2 := by
    intro left
    induction left with
    | zero => exact fun d => .stop d
    | succ left ih =>
        intro d
        unfold bumpLoop
        split
        · rename_i hshould
          cases honce : d.bumpOnce with
          | none => exact .stop d
          | some step => exact .output hshould honce (ih step.2)
        · exact .stop d
  exact hloop _ dpb

/-- The entries apart from their needs and delays. -/
def cores (dpb : Dpb α) : List (Int × Picture α × Marking) :=
  dpb.entries.map DpbEntry.core

theorem clear_first {entries : List (DpbEntry α)}
    (hmem : poc ∈ (entries.filter DpbEntry.neededForOutput).map DpbEntry.poc) :
    let cleared := entries.modify (entries.findIdx fun e => e.neededForOutput && e.poc == poc)
      fun e => { e with neededForOutput := false }
    cleared.map DpbEntry.core = entries.map DpbEntry.core ∧
      (poc :: (cleared.filter DpbEntry.neededForOutput).map DpbEntry.poc).Perm
        ((entries.filter DpbEntry.neededForOutput).map DpbEntry.poc) := by
  induction entries with
  | nil => simp at hmem
  | cons e entries ih =>
      by_cases hfirst : (e.neededForOutput && e.poc == poc) = true
      · have hneeded := (Bool.and_eq_true_iff.1 hfirst).1
        have hpoc : e.poc = poc := by simpa using (Bool.and_eq_true_iff.1 hfirst).2
        simp [List.findIdx_cons, hneeded, hpoc, DpbEntry.core]
      · have hlater : poc ∈ (entries.filter DpbEntry.neededForOutput).map DpbEntry.poc := by
          by_cases hneeded : e.neededForOutput = true
          · have hne : poc ≠ e.poc := by
              rintro rfl
              simp [hneeded] at hfirst
            simpa [hneeded, hne] using hmem
          · simpa [hneeded] using hmem
        have hrest := ih hlater
        rw [Bool.not_eq_true] at hfirst
        simp only [List.findIdx_cons, hfirst, cond_false, List.modify_succ_cons, List.map_cons]
        refine ⟨by rw [hrest.1], ?_⟩
        by_cases hneeded : e.neededForOutput = true
        · simp only [List.filter_cons, hneeded, if_true, List.map_cons]
          exact (List.Perm.swap _ _ _).trans (hrest.2.cons _)
        · simpa [hneeded] using hrest.2

theorem bumpOnce_spec (h : dpb.bumpOnce = some (poc, next)) :
    (∀ q ∈ dpb.pending, poc ≤ q) ∧ poc ∈ dpb.pending ∧ (poc :: next.pending).Perm dpb.pending ∧
      next.cores = dpb.cores ∧ next.maxNumReorderPics = dpb.maxNumReorderPics := by
  unfold bumpOnce at h
  split at h
  · cases h
  · rename_i least hleast
    cases h
    have hmin := List.min?_eq_some_iff.1 hleast
    have hclear := clear_first hmin.1
    exact ⟨hmin.2, hmin.1, hclear.2, hclear.1, rfl⟩

theorem bumpOnce_eq_none (h : dpb.bumpOnce = none) : dpb.pending = [] := by
  unfold bumpOnce at h
  split at h
  · rename_i hnone
    exact List.min?_eq_none_iff.1 hnone
  · cases h

/-- The loop of a bump ends where its condition fails or nothing waits for output. -/
theorem bumpWhile_done (shouldBump : Dpb α → Bool) (dpb : Dpb α) :
    shouldBump (bumpWhile shouldBump dpb).2 = false ∨ (bumpWhile shouldBump dpb).2.pending = [] := by
  have hloop : ∀ left (d : Dpb α), d.pending.length ≤ left →
      shouldBump (bumpLoop shouldBump left d).2 = false ∨
        (bumpLoop shouldBump left d).2.pending = [] := by
    intro left
    induction left with
    | zero => exact fun d hd => Or.inr (List.length_eq_zero_iff.1 (Nat.le_zero.1 hd))
    | succ left ih =>
        intro d hd
        unfold bumpLoop
        split
        · cases honce : d.bumpOnce with
          | none => exact Or.inr (bumpOnce_eq_none honce)
          | some step =>
              have hperm := (bumpOnce_spec honce).2.2.1
              have hlength := hperm.length_eq
              rw [List.length_cons] at hlength
              exact ih step.2 (by omega)
        · rename_i hshould
          exact Or.inl (by simpa using hshould)
  exact hloop _ dpb (le_refl _)

theorem Bumps.spec (h : Bumps shouldBump dpb outs dpb') :
    (outs ++ dpb'.pending).Perm dpb.pending ∧ dpb'.cores = dpb.cores ∧
      dpb'.maxNumReorderPics = dpb.maxNumReorderPics := by
  induction h with
  | stop dpb => exact ⟨List.Perm.refl _, rfl, rfl⟩
  | output _ honce _ ih =>
      have hstep := bumpOnce_spec honce
      exact ⟨(ih.1.cons _).trans hstep.2.2.1, ih.2.1.trans hstep.2.2.2.1,
        ih.2.2.trans hstep.2.2.2.2⟩

end Dpb
end Hevc
end Vaco
