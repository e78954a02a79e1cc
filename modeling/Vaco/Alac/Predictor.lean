import Vaco.Library.SignedWrap
import Vaco.Library.Transducer
import Vaco.Sched.Wire

/-!
# The adaptive predictor

A sample is predicted from those before it by a filter whose coefficients are nudged after
every sample, by the sign of what was left over.  The coder sends what is left over, wrapped to
the width of the channel; the decoder adds the prediction back and wraps the sum.  Both predict
from the same samples and adapt to the same differences, so the one undoes the other and both
end with the same coefficients.

Main results:

- `unpcStep_pcStep`: one step of the decoder undoes one step of the coder.
- `fits_of_mem_pcBlock`: everything that is sent fits the width.
-/

namespace Vaco
namespace Alac

open Library Transducer Vaco.Core Vaco.Sched

/-! ## Steps -/

/-- The most taps that a filter uses. -/
def maxOrder : Nat := 32

/-- Shift the low bits of a value up to the sign and back. -/
def wrapToChanbits (v : BitVec 32) (chanbits : Nat) : BitVec 32 :=
  let chanshift := 32 - chanbits
  if chanshift = 0 ∨ 32 ≤ chanshift then v else (v <<< chanshift).sshiftRight chanshift

/-- The sign of a value. -/
def signum (v : BitVec 32) : BitVec 32 :=
  if 0 < v.toInt then 1 else if v.toInt < 0 then -1 else 0

/-- Send the difference to the sample before. -/
def differenceStep (chanbits : Nat) (prev sample : BitVec 32) : BitVec 32 × BitVec 32 :=
  (sample, wrapToChanbits (sample - prev) chanbits)

/-- Add a difference to the sample before. -/
def integrateStep (chanbits : Nat) (prev del : BitVec 32) : BitVec 32 × BitVec 32 :=
  let sample := wrapToChanbits (del + prev) chanbits
  (sample, sample)

/-- The samples of a block so far, and the coefficients as they are adapted to them. -/
structure History where
  seen : List (BitVec 32)
  coefs : List (BitVec 32)
deriving DecidableEq

namespace History

/-- The sample that lies a number of samples behind the last one. -/
def hist (h : History) (k : Nat) : BitVec 32 :=
  h.seen.getD (h.seen.length - 1 - k) 0

/-- The sample before the ones that the filter weighs. -/
def top (h : History) (order : Nat) : BitVec 32 :=
  h.seen.getD (h.seen.length - (order + 1)) 0

/-- Half of the denominator. -/
def denhalf (denshift : Nat) : BitVec 64 :=
  if denshift = 0 then 0 else 1#64 <<< (denshift - 1)

/-- The weighed sum over the samples that the filter sees. -/
def sum (h : History) (order : Nat) : BitVec 64 :=
  (List.range order).foldl (fun sum k =>
    sum + (h.coefs.getD k 0).signExtend 64 * (h.hist k - h.top order).signExtend 64) 0

/-- What the filter adds to the sample before the ones that it weighs. -/
def predicted (h : History) (order denshift : Nat) : BitVec 32 :=
  ((h.sum order + denhalf denshift).sshiftRight denshift).setWidth 32

/-- Nudge the first `k` coefficients, the last one first, until the difference changes its sign. -/
def nudge (h : History) (order denshift : Nat) (up : Bool) :
    Nat → List (BitVec 32) → BitVec 32 → List (BitVec 32)
  | 0, coefs, _ => coefs
  | k + 1, coefs, del0 =>
      let dd := h.top order - h.hist k
      let sgn := signum dd
      let coefs := coefs.modify k fun c => if up then c - sgn else c + sgn
      let toward := if up then sgn else -sgn
      let weighed := toward.signExtend 64 * dd.signExtend 64
      let contribution := (weighed.sshiftRight denshift).setWidth 32
      let del0 := del0 - BitVec.ofNat 32 (order - k) * contribution
      if (if up then del0.toInt ≤ 0 else 0 ≤ del0.toInt) then coefs
      else nudge h order denshift up k coefs del0

/-- Adapt the coefficients to the difference of a sample, as both directions spell out. -/
def adapt (h : History) (order denshift : Nat) (del : BitVec 32) : List (BitVec 32) :=
  if 0 < (signum del).toInt then h.nudge order denshift true order h.coefs del
  else if (signum del).toInt < 0 then h.nudge order denshift false order h.coefs del
  else h.coefs

/-- The history behind a sample with its difference. -/
def advance (h : History) (order denshift : Nat) (del sample : BitVec 32) : History where
  seen := h.seen ++ [sample]
  coefs := h.adapt order denshift del

end History

/-- Send what the prediction leaves over of a sample. -/
def pcStep (order chanbits denshift : Nat) (h : History) (sample : BitVec 32) :
    History × BitVec 32 :=
  let del := wrapToChanbits (sample - h.top order - h.predicted order denshift) chanbits
  (h.advance order denshift del sample, del)

/-- Add the prediction of a sample to what was left over of it. -/
def unpcStep (order chanbits denshift : Nat) (h : History) (del : BitVec 32) :
    History × BitVec 32 :=
  let sample := wrapToChanbits (del + h.top order + h.predicted order denshift) chanbits
  (h.advance order denshift del sample, sample)

/-! ## Blocks -/

/-- The order that a block of some samples has room for. -/
def clampOrder (order num : Nat) : Nat :=
  min (min order maxOrder) (max (num - 1) 1)

/-- Code a block with the filter: differences until it sees enough samples, then what it leaves
over. -/
def pcFiltered (order chanbits denshift : Nat) (first : BitVec 32)
    (rest coefs : List (BitVec 32)) : List (BitVec 32) × List (BitVec 32) :=
  let warmupEnd := min order rest.length
  let warmup := outputs (differenceStep chanbits) first (rest.take warmupEnd)
  let h : History := ⟨first :: rest.take warmupEnd, coefs⟩
  let step := pcStep order chanbits denshift
  (first :: (warmup ++ outputs step h (rest.drop warmupEnd)),
    (stateAfter step h (rest.drop warmupEnd)).coefs)

/-- Decode a block with the filter, in the same two parts. -/
def unpcFiltered (order chanbits denshift : Nat) (first : BitVec 32)
    (rest coefs : List (BitVec 32)) : List (BitVec 32) × List (BitVec 32) :=
  let warmupEnd := min order rest.length
  let warmup := outputs (integrateStep chanbits) first (rest.take warmupEnd)
  let h : History := ⟨first :: warmup, coefs⟩
  let step := unpcStep order chanbits denshift
  (first :: (warmup ++ outputs step h (rest.drop warmupEnd)),
    (stateAfter step h (rest.drop warmupEnd)).coefs)

def pcBlock (samp coefs : List (BitVec 32)) (order chanbits denshift : Nat) :
    List (BitVec 32) × List (BitVec 32) :=
  match samp with
  | [] => ([], coefs)
  | first :: rest =>
      if order = 0 then (first :: rest, coefs)
      else if order = 31 then (first :: outputs (differenceStep chanbits) first rest, coefs)
      else pcFiltered (clampOrder order (rest.length + 1)) chanbits denshift first rest coefs

/-- Decode a block into room for its samples, and adapt the coefficients to it. -/
def unpcSamples (pc1 coefs : List (BitVec 32)) (order chanbits denshift : Nat) :
    List (BitVec 32) × List (BitVec 32) :=
  match pc1 with
  | [] => ([], coefs)
  | first :: rest =>
      if order = 0 then (first :: rest, coefs)
      else if order = 31 then (first :: outputs (integrateStep chanbits) first rest, coefs)
      else unpcFiltered (clampOrder order (rest.length + 1)) chanbits denshift first rest coefs

def allocSamples (budget : Budget) (num : Nat) : Except LimitError Budget :=
  if u64Max < num * 4 then .error .overflow else budget.charge (num * 4)

/-- Decode a block: its samples, the adapted coefficients and what is left of the budget. -/
def unpcBlock (pc1 coefs : List (BitVec 32)) (order chanbits denshift : Nat) (budget : Budget) :
    Except LimitError ((List (BitVec 32) × List (BitVec 32)) × Budget) :=
  match allocSamples budget pc1.length with
  | .error e => .error e
  | .ok budget => .ok (unpcSamples pc1 coefs order chanbits denshift, budget)

/-! ## Wrapping -/

variable {chanbits : Nat}

theorem wrapToChanbits_eq (hpos : 0 < chanbits) (hle : chanbits ≤ 32) (v : BitVec 32) :
    wrapToChanbits v chanbits = wrap chanbits v := by
  have hshift := shift_eq_wrap hpos hle v
  unfold wrapToChanbits
  dsimp only
  split
  · rename_i hfull
    have hzero : 32 - chanbits = 0 := by omega
    rw [hzero] at hshift
    simpa using hshift
  · exact hshift

theorem wrap_sub_add (hpos : 0 < chanbits) (hle : chanbits ≤ 32) {s : BitVec 32}
    (hs : Fits chanbits s) (p : BitVec 32) :
    wrapToChanbits (wrapToChanbits (s - p) chanbits + p) chanbits = s := by
  rw [wrapToChanbits_eq hpos hle, wrapToChanbits_eq hpos hle, wrap_wrap_add hle,
    BitVec.sub_add_cancel, wrap_of_fits hpos hle hs]

theorem fits_wrapToChanbits (hpos : 0 < chanbits) (hle : chanbits ≤ 32) (v : BitVec 32) :
    Fits chanbits (wrapToChanbits v chanbits) := by
  rw [wrapToChanbits_eq hpos hle]
  exact fits_wrap hle v

/-! ## Undoing a step -/

theorem integrateStep_differenceStep (hpos : 0 < chanbits) (hle : chanbits ≤ 32) {s : BitVec 32}
    (hs : Fits chanbits s) (prev : BitVec 32) :
    integrateStep chanbits prev (differenceStep chanbits prev s).2 =
      ((differenceStep chanbits prev s).1, s) := by
  simp only [integrateStep, differenceStep, wrap_sub_add hpos hle hs]

/-- A prediction is undone, and leaves the same history. -/
theorem unpcStep_pcStep (hpos : 0 < chanbits) (hle : chanbits ≤ 32) {s : BitVec 32}
    (hs : Fits chanbits s) (order denshift : Nat) (h : History) :
    unpcStep order chanbits denshift h (pcStep order chanbits denshift h s).2 =
      ((pcStep order chanbits denshift h s).1, s) := by
  have hback := wrap_sub_add hpos hle hs (h.top order + h.predicted order denshift)
  rw [← BitVec.sub_sub, ← BitVec.add_assoc] at hback
  simp only [unpcStep, pcStep, hback]

/-! ## Undoing a block -/

theorem outputs_integrateStep (hpos : 0 < chanbits) (hle : chanbits ≤ 32)
    (samp : List (BitVec 32)) (hsamp : ∀ s ∈ samp, Fits chanbits s) (first : BitVec 32) :
    outputs (integrateStep chanbits) first (outputs (differenceStep chanbits) first samp) = samp :=
  (undone (fun s hs prev => integrateStep_differenceStep hpos hle (hsamp s hs) prev) first).1

theorem length_pcFiltered (order chanbits denshift : Nat) (first : BitVec 32)
    (rest coefs : List (BitVec 32)) :
    (pcFiltered order chanbits denshift first rest coefs).1.length = rest.length + 1 := by
  simp only [pcFiltered, List.length_append, List.length_cons, length_outputs, List.length_take,
    List.length_drop]
  omega

/-- The filter is undone, and leaves the same coefficients. -/
theorem unpcFiltered_pcFiltered (hpos : 0 < chanbits) (hle : chanbits ≤ 32)
    {rest : List (BitVec 32)} (hrest : ∀ s ∈ rest, Fits chanbits s) (order denshift : Nat)
    (first : BitVec 32) (coefs : List (BitVec 32)) :
    let sent := pcFiltered order chanbits denshift first rest coefs
    unpcFiltered order chanbits denshift first sent.1.tail coefs = (first :: rest, sent.2) := by
  intro sent
  set warmupEnd := min order rest.length with hend
  set warmup := outputs (differenceStep chanbits) first (rest.take warmupEnd) with hwarmup
  set h : History := ⟨first :: rest.take warmupEnd, coefs⟩ with hh
  set tail := outputs (pcStep order chanbits denshift) h (rest.drop warmupEnd) with htail
  have hsent : sent.1.tail = warmup ++ tail := rfl
  have hwarmupLen : warmup.length = warmupEnd := by
    rw [hwarmup, length_outputs, List.length_take]
    omega
  have hlen : (warmup ++ tail).length = rest.length := by
    rw [List.length_append, hwarmupLen, htail, length_outputs, List.length_drop]
    omega
  have hdifferences := outputs_integrateStep hpos hle (rest.take warmupEnd)
    (fun s hs => hrest s (List.mem_of_mem_take hs)) first
  rcases undone (fun s hs h => unpcStep_pcStep hpos hle
    (hrest s (List.mem_of_mem_drop hs)) order denshift h) h with ⟨hback, hstate⟩
  simp only [unpcFiltered, hsent, hlen, ← hend]
  rw [List.take_left' hwarmupLen, List.drop_left' hwarmupLen, hwarmup, hdifferences, ← hh, htail,
    hback, hstate, List.take_append_drop]
  rfl

@[simp]
theorem length_pcBlock (samp coefs : List (BitVec 32)) (order chanbits denshift : Nat) :
    (pcBlock samp coefs order chanbits denshift).1.length = samp.length := by
  cases samp with
  | nil => rfl
  | cons first rest =>
      simp only [pcBlock]
      split
      · rfl
      split
      · simp
      · exact length_pcFiltered _ _ _ _ _ _

/-- A block of samples that fit their width comes back, and both sides end with the same
coefficients. -/
theorem unpcSamples_pcBlock (hpos : 0 < chanbits) (hle : chanbits ≤ 32)
    {samp : List (BitVec 32)} (hsamp : ∀ s ∈ samp, Fits chanbits s) (coefs : List (BitVec 32))
    (order denshift : Nat) :
    unpcSamples (pcBlock samp coefs order chanbits denshift).1 coefs order chanbits denshift =
      (samp, (pcBlock samp coefs order chanbits denshift).2) := by
  cases samp with
  | nil => rfl
  | cons first rest =>
      have hrest : ∀ s ∈ rest, Fits chanbits s := fun s hs => hsamp s (List.mem_cons_of_mem _ hs)
      by_cases hzero : order = 0
      · simp only [pcBlock, unpcSamples, if_pos hzero]
      by_cases hfirst : order = 31
      · simp only [pcBlock, unpcSamples, if_neg hzero, if_pos hfirst,
          outputs_integrateStep hpos hle _ hrest]
      · have hblock : pcBlock (first :: rest) coefs order chanbits denshift =
            pcFiltered (clampOrder order (rest.length + 1)) chanbits denshift first rest coefs := by
          simp only [pcBlock, if_neg hzero, if_neg hfirst]
        have hlen := length_pcFiltered (clampOrder order (rest.length + 1)) chanbits denshift first
          rest coefs
        rw [hblock, ← unpcFiltered_pcFiltered hpos hle hrest]
        simp only [pcFiltered, List.length_cons, Nat.add_right_cancel_iff] at hlen
        simp only [unpcSamples, pcFiltered, if_neg hzero, if_neg hfirst, List.tail_cons, hlen]

/-- Everything that is sent fits the width of the channel. -/
theorem fits_of_mem_pcBlock (hpos : 0 < chanbits) (hle : chanbits ≤ 32)
    {samp : List (BitVec 32)} (hsamp : ∀ s ∈ samp, Fits chanbits s) (coefs : List (BitVec 32))
    (order denshift : Nat) :
    ∀ del ∈ (pcBlock samp coefs order chanbits denshift).1, Fits chanbits del := by
  cases samp with
  | nil => simp [pcBlock]
  | cons first rest =>
      have hfirst : Fits chanbits first := hsamp first List.mem_cons_self
      have hdifferences : ∀ part : List (BitVec 32),
          ∀ del ∈ outputs (differenceStep chanbits) first part, Fits chanbits del :=
        forall_mem_outputs (fun _ _ => fits_wrapToChanbits hpos hle _) first
      simp only [pcBlock]
      split
      · exact hsamp
      split
      · exact List.forall_mem_cons.mpr ⟨hfirst, hdifferences rest⟩
      · refine List.forall_mem_cons.mpr ⟨hfirst, fun del hdel => ?_⟩
        rcases List.mem_append.mp hdel with hdel | hdel
        · exact hdifferences _ del hdel
        · exact forall_mem_outputs (fun _ _ => fits_wrapToChanbits hpos hle _) _ _ del hdel

end Alac
end Vaco
