import Vaco.Sched.Moves

/-!
# What a codec holds while it runs

Taking what a component hands over changes nothing that a codec holds.  Feeding it keeps the stage
of the protocol and the announced end, and an item that was fed made progress.

Main results:

- `CodecWork.offer_hold`: offering one item.
- `CodecWork.feed_ok`: what feeding leaves behind when it does not fail.
-/

namespace Vaco
namespace Sched

open Library Vaco.Core

namespace CodecWork

variable {σ : Type} [Side σ] {c c' : CodecWork σ}

/-- Two codecs that differ in the component and the last timestamp at most. -/
structure SameHold (c c' : CodecWork σ) : Prop where
  stage : c'.stage = c.stage
  stashed : c'.stashed = c.stashed
  pendingEof : c'.pendingEof = c.pendingEof
  endPts : c'.endPts = c.endPts

theorem drain_hold (n : Nat) (c : CodecWork σ) (out : Items) :
    c.SameHold (drain n c out).1 := by
  induction n generalizing c out with
  | zero => exact ⟨rfl, rfl, rfl, rfl⟩
  | succ n ih =>
      unfold drain
      split
      · rename_i item side _
        have hrest := ih { c with
          side := side
          lastPts := if item.pts.isSome then item.pts else c.lastPts } (out ++ [(0, item)])
        exact ⟨hrest.stage, hrest.stashed, hrest.pendingEof, hrest.endPts⟩
      · exact ⟨rfl, rfl, rfl, rfl⟩
      · split <;> exact ⟨rfl, rfl, rfl, rfl⟩
      · exact ⟨rfl, rfl, rfl, rfl⟩

/-- Offering an item changes nothing that is held, and a codec that does not take it made
progress. -/
theorem offer_hold (item : Payload) (n : Nat) (c : CodecWork σ) (out : Items)
    (progressed : Bool) :
    c.SameHold (offer item n c out progressed).1 ∧
      ((offer item n c out progressed).2.2.2 = .ok false →
        n = 0 ∧ (offer item n c out progressed).2.2.1 = progressed ∨
          (offer item n c out progressed).2.2.1 = true) := by
  induction n generalizing c out progressed with
  | zero => exact ⟨⟨rfl, rfl, rfl, rfl⟩, fun _ => .inl ⟨rfl, rfl⟩⟩
  | succ n ih =>
      unfold offer
      split
      · exact ⟨⟨rfl, rfl, rfl, rfl⟩, fun h => by simp at h⟩
      · rename_i side _
        have hdrain := drain_hold maxPump { c with side := side } out
        split
        · rename_i hres
          rw [hres] at hdrain
          exact ⟨⟨hdrain.stage, hdrain.stashed, hdrain.pendingEof, hdrain.endPts⟩,
            fun h => by simp at h⟩
        · rename_i c₁ out' _ hres
          rw [hres] at hdrain
          split
          · exact ⟨⟨hdrain.stage, hdrain.stashed, hdrain.pendingEof, hdrain.endPts⟩,
              fun h => by simp at h⟩
          · have hrest := ih c₁ out' true
            refine ⟨⟨hrest.1.stage.trans hdrain.stage, hrest.1.stashed.trans hdrain.stashed,
              hrest.1.pendingEof.trans hdrain.pendingEof,
              hrest.1.endPts.trans hdrain.endPts⟩, fun h => .inr ?_⟩
            rcases hrest.2 h with ⟨_, hp⟩ | hp
            · exact hp
            · exact hp
      · exact ⟨⟨rfl, rfl, rfl, rfl⟩, fun h => by simp at h⟩

/-- Stage and announced end are kept, what is not accepted is held back, and any item made progress.
-/
theorem feed_ok {queued : List Payload} {c c' : CodecWork σ} {out out' : Items}
    {progressed progressed' all : Bool}
    (h : feed queued c out progressed = (c', out', progressed', .ok all)) :
    c'.stage = c.stage ∧ c'.pendingEof = c.pendingEof ∧
      (all = true → c'.stashed = c.stashed) ∧
      (progressed = true ∨ queued ≠ [] → progressed' = true) := by
  induction queued generalizing c out progressed with
  | nil =>
      simp only [feed, Prod.mk.injEq, Except.ok.injEq] at h
      rcases h with ⟨rfl, -, rfl, -⟩
      exact ⟨rfl, rfl, fun _ => rfl, fun h => h.resolve_right fun h => h rfl⟩
  | cons item rest ih =>
      have hoffer := offer_hold item maxPump c out progressed
      unfold feed at h
      split at h
      · simp at h
      · rename_i c₁ out₁ progressed₁ hres
        rw [hres] at hoffer
        simp only [Prod.mk.injEq, Except.ok.injEq] at h
        rcases h with ⟨rfl, -, rfl, rfl⟩
        refine ⟨hoffer.1.stage, hoffer.1.pendingEof, fun h => by simp at h, fun _ => ?_⟩
        rcases hoffer.2 rfl with ⟨hzero, _⟩ | hp
        · simp [maxPump] at hzero
        · exact hp
      · rename_i c₁ out₁ progressed₁ hres
        rw [hres] at hoffer
        have hdrain := drain_hold maxPump c₁ out₁
        split at h
        · simp at h
        · rename_i c₂ out₂ _ hres'
          rw [hres'] at hdrain
          rcases ih h with ⟨hstage, hpending, hstashed, hprogress⟩
          exact ⟨hstage.trans (hdrain.stage.trans hoffer.1.stage),
            hpending.trans (hdrain.pendingEof.trans hoffer.1.pendingEof),
            fun hall => (hstashed hall).trans (hdrain.stashed.trans hoffer.1.stashed),
            fun _ => hprogress (.inl rfl)⟩

omit [Side σ] in
theorem noteEnded_hold (c : CodecWork σ) (ended : Ends) :
    (c.noteEnded ended).side = c.side ∧ (c.noteEnded ended).stage = c.stage ∧
      (c.noteEnded ended).stashed = c.stashed ∧
      ((c.noteEnded ended).pendingEof.isSome = true ↔
        c.pendingEof.isSome = true ∨ ended ≠ []) := by
  unfold noteEnded
  induction ended generalizing c with
  | nil => simp
  | cons e rest ih =>
      rw [List.foldl_cons]
      refine ⟨(ih _).1, (ih _).2.1, (ih _).2.2.1, (ih _).2.2.2.trans ?_⟩
      dsimp only
      split <;> simp [*]

end CodecWork

end Sched
end Vaco
