import Vaco.Sched.Accounting

/-!
# Failed calls and cancellation

A call that fails should leave the pipeline cancelled, so that a caller who goes on
regardless stops.  It does when the failure is the failure of a component.  It does not
when a push is refused in the middle of a commit or when the no-progress guard trips:
then the next call carries on, without the items that the failed one had taken.

Main results:

- `Pipeline.halted_iff`: a pipeline is halted when it is cancelled.
- `Pipeline.halted_iff_of_failed`: when a failed call halts it.
-/

namespace Vaco
namespace Sched

open Library Vaco.Core

variable {K : Components}

namespace Pipeline

variable {p p' : Pipeline K}

/-! ## Halting -/

/-- Whatever is called from here on, no component runs, no wire moves, and the run is
classified as cancelled. -/
def Halted (p : Pipeline K) : Prop :=
  ∀ q, Reachable p q →
    q.classify = .cancelled ∧ q.work = p.work ∧ q.wires = p.wires ∧
      (∀ width, q.drive width = (q, .ok .idle)) ∧ ∀ d : Driver, d.turn q = (q, .ok .idle)

theorem drive_of_cancel (h : p.cancel = true) (width : Nat) :
    p.drive width = (p, .ok .idle) := by
  unfold drive
  rw [if_pos h]

theorem turn_of_cancel (h : p.cancel = true) (d : Driver) : d.turn p = (p, .ok .idle) := by
  rw [d.turn_eq_drive, drive_of_cancel h]

theorem Call.of_cancel (hcall : Call p p') (h : p.cancel = true) :
    p'.cancel = true ∧ p'.work = p.work ∧ p'.wires = p.wires := by
  cases hcall with
  | drive width =>
      rw [drive_of_cancel h]
      exact ⟨h, rfl, rfl⟩
  | turn d =>
      rw [turn_of_cancel h]
      exact ⟨h, rfl, rfl⟩
  | lost d hcancel =>
      rw [h] at hcancel
      cases hcancel
  | cancel => exact ⟨rfl, rfl, rfl⟩
  | stopReading => exact ⟨h, rfl, rfl⟩

/-- A pipeline is halted exactly when it is cancelled. -/
theorem halted_iff : p.Halted ↔ p.cancel = true := by
  constructor
  · intro h
    have hclass := (h p .refl).1
    unfold classify at hclass
    split at hclass
    · rename_i hc
      exact hc
    · split at hclass <;> cases hclass
  · intro h q hq
    have hkept : q.cancel = true ∧ q.work = p.work ∧ q.wires = p.wires := by
      induction hq with
      | refl => exact ⟨h, rfl, rfl⟩
      | tail _ hcall ih =>
          rcases hcall.of_cancel ih.1 with ⟨hc, hwork, hwires⟩
          exact ⟨hc, hwork.trans ih.2.1, hwires.trans ih.2.2⟩
    refine ⟨?_, hkept.2.1, hkept.2.2, drive_of_cancel hkept.1, turn_of_cancel hkept.1⟩
    unfold classify
    rw [if_pos hkept.1]

/-! ## Failures -/

/-- A job of the step fails in its component, and nothing that is emitted before that is
refused. -/
def FailsInComponent (p : Pipeline K) (width : Nat) : Prop :=
  p.EmissionsFit width ∧ ∃ job ∈ (p.plan width).2, job.run.error.isSome = true

/-- A commit of a job that has not failed leaves the cancellation alone, and it fails only
when a push is refused. -/
theorem checkIn_of_ok {done : Done K} (h : done.error = none) (hledger : Ledger p.pool) :
    (p.checkIn done).1.cancel = p.cancel ∧
      ((p.checkIn done).2 = .ok () ↔ p.Admitted done) := by
  have hpool : Ledger ((p.setWork done.node (some done.work)).stamp done.node).pool := hledger
  have hemit := @emitAll_ok_iff K _ done.node done.out hpool
  rw [pushes_stamp] at hemit
  constructor
  · rcases checkIn_eq p done with ⟨t, ht, _⟩
    rw [ht]
    simp [withDone, withPool, h]
  · have hadmitted : p.Admitted done ↔ Admits p.pool (p.pushes done.node done.out) :=
      ⟨fun hgood => hgood h, fun hgood _ => hgood⟩
    rw [hadmitted]
    change (emitAll done.node done.out ((p.setWork done.node (some done.work)).stamp
      done.node)).2 = .ok () ↔ Admits p.pool (p.pushes done.node done.out) at hemit
    rw [← hemit]
    unfold checkIn
    simp only [h]
    rcases emitAll done.node done.out ((p.setWork done.node (some done.work)).stamp done.node)
      with ⟨p₁, e | _⟩
    · simp
    · simp only
      split <;> simp

/-- Commits that fail leave the pipeline cancelled exactly when a component failed. -/
theorem cancel_of_runJobs_error {jobs : List (Job K)} {progressed : Bool} {e : Error}
    (hledger : Ledger p.pool) (hcancel : p.cancel = false)
    (h : runJobs jobs p progressed = (p', .error e)) :
    p'.cancel = true ↔ Commits Admitted jobs p ∧ ∃ job ∈ jobs, job.run.error.isSome = true := by
  induction jobs generalizing p progressed with
  | nil => cases h
  | cons job rest ih =>
      simp only [runJobs] at h
      rcases herror : job.run.error with _ | e'
      · have hcommit := checkIn_of_ok herror hledger
        rcases checkIn_eq p job.run with ⟨t, ht, hwires⟩
        rcases hcheck : p.checkIn job.run with ⟨p₁, e₁ | _⟩
        · -- a push was refused
          rw [hcheck] at h hcommit
          simp only [Prod.mk.injEq] at h
          rcases h with ⟨rfl, _⟩
          constructor
          · intro hc
            have hkept := hcommit.1
            simp only at hkept
            rw [hc, hcancel] at hkept
            cases hkept
          · rintro ⟨hcommits, _⟩
            cases hcommits with
            | cons hgood _ =>
                have hok := hcommit.2.2 hgood
                cases hok
        · rw [hcheck] at h hcommit ht
          simp only at h hcommit ht
          have hledger' : Ledger p₁.pool := by
            rw [ht]
            exact WireMoves.ledger hwires hledger
          rw [ih hledger' (hcommit.1.trans hcancel) h]
          constructor
          · rintro ⟨hcommits, failing, hmem, hfails⟩
            refine ⟨.cons (hcommit.2.1 trivial) fun p₂ hp₂ => ?_, failing,
              List.mem_cons_of_mem _ hmem, hfails⟩
            rw [hcheck] at hp₂
            cases hp₂
            exact hcommits
          · rintro ⟨hcommits, failing, hmem, hfails⟩
            cases hcommits with
            | cons hgood hrest =>
                refine ⟨hrest p₁ hcheck, failing, ?_, hfails⟩
                rcases List.mem_cons.1 hmem with rfl | hmem
                · rw [herror] at hfails
                  cases hfails
                · exact hmem
      · -- the component failed
        have hcheck : p.checkIn job.run = ({ p.withDone job.run with cancel := true }, .error e') := by
          unfold checkIn withDone
          simp [herror]
        rw [hcheck] at h
        simp only [Prod.mk.injEq] at h
        rcases h with ⟨rfl, _⟩
        simp only [true_iff]
        refine ⟨.cons (fun hnone => ?_) fun p₂ hp₂ => ?_, job, List.mem_cons_self .., by simp [herror]⟩
        · rw [herror] at hnone
          cases hnone
        · rw [hcheck] at hp₂
          cases hp₂

/-- Commits that succeed are commits of jobs that have not failed. -/
theorem errors_of_runJobs_ok {jobs : List (Job K)} {progressed progressed' : Bool}
    (h : runJobs jobs p progressed = (p', .ok progressed')) :
    p'.cancel = p.cancel ∧ ∀ job ∈ jobs, job.run.error = none := by
  induction jobs generalizing p progressed with
  | nil =>
      cases h
      exact ⟨rfl, fun job hjob => nomatch hjob⟩
  | cons job rest ih =>
      simp only [runJobs] at h
      rcases herror : job.run.error with _ | e'
      · rcases checkIn_eq p job.run with ⟨t, ht, _⟩
        rcases hcheck : p.checkIn job.run with ⟨p₁, e₁ | _⟩
        · rw [hcheck] at h
          cases h
        · rw [hcheck] at h ht
          simp only at h ht
          rcases ih h with ⟨hcancel, hrest⟩
          refine ⟨?_, fun job' hjob' => ?_⟩
          · rw [hcancel, ht]
            simp [withDone, withPool, herror]
          · rcases List.mem_cons.1 hjob' with rfl | hjob'
            · exact herror
            · exact hrest job' hjob'
      · unfold checkIn at h
        simp [herror] at h

/-- A failed step halts the pipeline exactly when a component failed. -/
theorem halted_iff_of_drive_error {width : Nat} {e : Error} (hledger : Ledger p.pool)
    (h : p.drive width = (p', .error e)) : p'.Halted ↔ p.FailsInComponent width := by
  have hcancel : p.cancel = false := by
    by_contra hc
    rw [drive_of_cancel (by simpa using hc)] at h
    cases h
  rw [halted_iff]
  have hplanned := Relation.ReflTransGen.trans (moves_beginStep Admitted p [])
    (moves_checkOut Admitted p.beginStep.1 (max width 1))
  have hledger' : Ledger (p.plan width).1.pool := WireMoves.ledger (Moves.wireMoves hplanned) hledger
  have hcancel' : (p.plan width).1.cancel = false :=
    (congrArg Prod.fst (control_plan p width)).trans hcancel
  have hfit : p.EmissionsFit width ↔ Commits Admitted (p.plan width).2 (p.plan width).1 :=
    ⟨fun hfit => hfit hcancel, fun hfit _ => hfit⟩
  unfold FailsInComponent
  rw [hfit]
  unfold drive at h
  simp only [hcancel, Bool.false_eq_true, if_false] at h
  split at h
  · cases h
  · split at h
    · rename_i p₁ e₁ hrun
      simp only [Prod.mk.injEq] at h
      rcases h with ⟨rfl, _⟩
      exact cancel_of_runJobs_error hledger' hcancel' hrun
    · rename_i p₁ progressed hrun
      have hnone := errors_of_runJobs_ok hrun
      split at h
      · rename_i p₂ e₂ hend
        simp only [Prod.mk.injEq] at h
        rcases h with ⟨rfl, _⟩
        -- the guard tripped, and no component failed
        have hkept : p₂.cancel = false := by
          have hp₂ : p₂ = (p₁.endStep progressed).1 := by rw [hend]
          rw [hp₂]
          exact hnone.1.trans hcancel'
        simp only [hkept, Bool.false_eq_true, false_iff, not_and, not_exists]
        intro _ job hjob hfails
        rw [hnone.2 job hjob] at hfails
        cases hfails
      · cases h

theorem exists_failed_turn {d : Driver} {r : Pipeline K × Except Error Finish} {e : Error}
    (h : d.Runs p r) (herror : r.2 = .error e) :
    ∃ q, Reachable p q ∧
      (d.turn q = (r.1, .error e) ∨ 1 < d.threads ∧ r.1 = Driver.lose q d.threads) := by
  induction h with
  | idle => cases herror
  | @failed p p' e' hturn =>
      cases herror
      exact ⟨p, .refl, .inl hturn⟩
  | @lost p hthreads => exact ⟨p, .refl, .inr ⟨hthreads, rfl⟩⟩
  | @stepped p p' r hturn _ ih =>
      rcases ih herror with ⟨q, hq, hfailed⟩
      have hcall := Call.turn p d
      rw [hturn] at hcall
      exact ⟨q, .head hcall hq, hfailed⟩

/-- A failed call halts the pipeline exactly when a component failed, panicking included,
and nothing that was emitted before it was refused. -/
theorem halted_iff_of_failed {spec : PipelineSpec K} {p₀ p : Pipeline K} (hspec : spec.Declared)
    (hbuild : spec.build = .ok p₀) (hp : Reachable p₀ p) :
    (∀ (width : Nat) (p' : Pipeline K) (e : Error), p.drive width = (p', .error e) →
      (p'.Halted ↔ p.FailsInComponent width)) ∧
      ∀ (d : Driver) (p' : Pipeline K) (e : Error), d.Runs p (p', .error e) →
        ∃ q, Reachable p q ∧
          (d.turn q = (p', .error e) ∧ (p'.Halted ↔ q.FailsInComponent d.threads) ∨
            p' = Driver.lose q d.threads ∧ p'.Halted) := by
  rcases PipelineSpec.wired_build hspec.wellFormed hbuild with ⟨_, hfresh⟩
  refine ⟨fun width p' e h => halted_iff_of_drive_error (ledger_of_reachable hfresh hp) h,
    fun d p' e h => ?_⟩
  rcases exists_failed_turn h rfl with ⟨q, hq, hturn | ⟨-, hlost⟩⟩
  · refine ⟨q, hq, .inl ⟨hturn, ?_⟩⟩
    rw [d.turn_eq_drive] at hturn
    have hledger := ledger_of_reachable hfresh (Relation.ReflTransGen.trans hp hq)
    have hiff := halted_iff_of_drive_error hledger hturn
    unfold FailsInComponent EmissionsFit at hiff ⊢
    rwa [plan_max] at hiff
  · have hp' : p' = Driver.lose q d.threads := hlost
    exact ⟨q, hq, .inr ⟨hp', halted_iff.2 (by rw [hp']; rfl)⟩⟩

/-- A run that fails on a refused push is not cancelled: run again, it completes. -/
theorem not_halted_after_refused_push :
    ∃ (spec : PipelineSpec passThrough) (p₀ p p' : Pipeline passThrough) (d : Driver) (e : Error),
      spec.Declared ∧ spec.build = .ok p₀ ∧ d.Runs p₀ (p, .error e) ∧ ¬ p.Halted ∧
        d.Runs p (p', .ok .complete) := by
  have hcontinues : ((Driver.withThreads 1).runTwice 50 fannedOut).any (fun r =>
      !r.1.1.cancel && !r.1.2.isOk && endsComplete r.2.2) = true := by decide +kernel
  rcases Driver.exists_of_runTwice hcontinues with
    ⟨spec, p₀, ⟨p, first⟩, ⟨p', second⟩, hspec, hbuild, hfirst, _, hsecond, htest⟩
  simp only [Bool.and_eq_true, Bool.not_eq_true'] at htest
  rcases htest with ⟨⟨hcancel, hfails⟩, hcomplete⟩
  rw [eq_complete hcomplete] at hsecond
  cases first with
  | ok _ => cases hfails
  | error e =>
      refine ⟨spec, p₀, p, p', .withThreads 1, e, declared_fannedOutTo hspec, hbuild, hfirst, ?_,
        hsecond⟩
      rw [halted_iff, hcancel]
      exact Bool.false_ne_true

/-- The second source is not one of the graph, so a component fails, and the pipeline is halted. -/
theorem halted_iff_of_failed_noSource :
    ∃ (spec : PipelineSpec passThrough) (p₀ p p' : Pipeline passThrough) (e : Error),
      fannedOutTo 2 twoCopies = .ok spec ∧ spec.build = .ok p₀ ∧ Reachable p₀ p ∧
        p.drive 1 = (p', .error e) ∧ p.FailsInComponent 1 ∧ p'.Halted := by
  have hfails : ((Driver.withThreads 1).runTwice 50 (fannedOutTo 2 twoCopies)).any (fun r =>
      r.1.1.cancel && !r.1.2.isOk) = true := by decide +kernel
  rcases Driver.exists_of_runTwice hfails with
    ⟨spec, p₀, ⟨p', first⟩, _, hspec, hbuild, hfirst, -, -, htest⟩
  simp only [Bool.and_eq_true, Bool.not_eq_true'] at htest
  cases first with
  | ok _ => cases htest.2
  | error e =>
      rcases exists_failed_turn hfirst rfl with ⟨p, hreach, hturn | ⟨hthreads, -⟩⟩
      · rw [Driver.turn_eq_drive] at hturn
        have hhalted := halted_iff.2 htest.1
        have hiff := (halted_iff_of_failed (declared_fannedOutTo hspec) hbuild hreach).1 1 p' e hturn
        exact ⟨spec, p₀, p, p', e, hspec, hbuild, hreach, hturn, hiff.1 hhalted, hhalted⟩
      · exact absurd hthreads (by decide)

end Pipeline

end Sched
end Vaco
