import Mathlib.Logic.Relation
import Vaco.Sched.Pipeline

/-!
# Driving a pipeline

A driver calls the step function until nothing is runnable.  With one thread it steps;
with more it takes the jobs of a wave, runs them apart and commits the results in node
order.  Both are sequences of the same small moves on the pipeline and the jobs in
flight, and invariants are proved against these moves.

Main results:

- `Driver.wave_eq_drive`: a wave is a step of the width of the driver.
- `Pipeline.Reachable.moves`: so is any sequence of calls.
-/

namespace Vaco
namespace Sched

open Library Vaco.Core

variable {K : Components}

/-! ## Drivers -/

/-- How a pipeline is driven to completion. -/
structure Driver where
  threads : Nat
deriving DecidableEq

namespace Driver

/-- Up to `n` jobs in flight at once. -/
def withThreads (n : Nat) : Driver where
  threads := if n = 0 then 1 else n

/-- Commit finished jobs in turn. -/
def commitAll : List (Done K) → Pipeline K → Bool → Pipeline K × Except Error Bool
  | [], p, progressed => (p, .ok progressed)
  | done :: rest, p, progressed =>
      match p.checkIn done with
      | (p, .error e) => (p, .error e)
      | (p, .ok ()) => commitAll rest p (progressed || done.progressed)

/-- One turn of the wave loop in which every worker answers. -/
def wave (p : Pipeline K) (width : Nat) : Pipeline K × Except Error Advance :=
  if p.cancel then
    (p, .ok .idle)
  else
    let (p, progressed) := p.beginStep
    let (p, jobs) := p.checkOut width
    if jobs.isEmpty then
      if !progressed then
        (p, .ok .idle)
      else
        match p.endStep progressed with
        | (p, .error e) => (p, .error e)
        | (p, .ok ()) => (p, .ok .stepped)
    else
      -- completion order is not commit order
      let wave := (jobs.map Job.run).insertionSort fun a b => a.node ≤ b.node
      match commitAll wave p progressed with
      | (p, .error e) => (p, .error e)
      | (p, .ok progressed) =>
          match p.endStep progressed with
          | (p, .error e) => (p, .error e)
          | (p, .ok ()) => (p, .ok .stepped)

/-- One turn of the wave loop in which a component panics: its wave is not committed. -/
def lose (p : Pipeline K) (width : Nat) : Pipeline K :=
  (p.beginStep.1.checkOut width).1.cancelled

/-- What one turn of the driver does when no component panics. -/
def turn (d : Driver) (p : Pipeline K) : Pipeline K × Except Error Advance :=
  if 1 < d.threads then wave p d.threads else p.step

/-- Drive until nothing is runnable, and report why it stopped. -/
inductive Runs (d : Driver) : Pipeline K → Pipeline K × Except Error Finish → Prop where
  | idle {p p' : Pipeline K} (h : d.turn p = (p', .ok .idle)) : Runs d p (p', .ok p'.classify)
  | failed {p p' : Pipeline K} {e : Error} (h : d.turn p = (p', .error e)) :
      Runs d p (p', .error e)
  | lost {p : Pipeline K} (hthreads : 1 < d.threads) (hcancel : p.cancel = false)
      (hjobs : (p.beginStep.1.checkOut d.threads).2 ≠ []) :
      Runs d p (lose p d.threads,
        .error (.invalidData "a pipeline job panicked; the node's component is lost"))
  | stepped {p p' : Pipeline K} {r : Pipeline K × Except Error Finish}
      (h : d.turn p = (p', .ok .stepped)) (hrest : Runs d p' r) : Runs d p r

end Driver

/-! ## Small moves -/

namespace Pipeline

def MovesWires (p p' : Pipeline K) : Prop :=
  ∃ s, p' = p.withPool s ∧ WireMoves p.pool s

/-- A pipeline with the jobs that are in flight. -/
abbrev Flight (K : Components) := Pipeline K × List (Job K)

/-- The small moves.  A job may be committed only as `good` allows. -/
inductive Move (good : Pipeline K → Done K → Prop) : Flight K → Flight K → Prop where
  | wires {p p' : Pipeline K} {jobs : List (Job K)} (h : MovesWires p p') :
      Move good (p, jobs) (p', jobs)
  | retire {p : Pipeline K} {jobs : List (Job K)} {work : Work K} {m : NodeMeta} (i : Nat)
      (hwork : p.workAt i = some work) (hm : p.nodes[i]? = some m)
      (hdone : work.isDone = false) (hwires : ∀ id ∈ m.outputs.flatten,
        ∃ w, p.wires[id]? = some w ∧ w.abandoned = true) :
      Move good (p, jobs) ((p.setWork i (some .abandoned)).abandonInputs i, jobs)
  | stop {p : Pipeline K} {jobs : List (Job K)} {d : DemuxWork K} (i : Nat)
      (hwork : p.workAt i = some (.demux d)) :
      Move good (p, jobs) ((p.setWork i (some (.demux d.stop.1))).closePorts i d.stop.2, jobs)
  | detach {p p' : Pipeline K} {jobs : List (Job K)} {job : Job K} (i : Nat)
      (h : p.detach i = (p', some job)) : Move good (p, jobs) (p', jobs ++ [job])
  | miss {p p' : Pipeline K} {jobs : List (Job K)} (i : Nat)
      (h : p.detach i = (p', none)) : Move good (p, jobs) (p', jobs)
  | commit {p : Pipeline K} {job : Job K} {jobs : List (Job K)} (hgood : good p job.run) :
      Move good (p, job :: jobs) ((p.checkIn job.run).1, jobs)
  | account {p : Pipeline K} {jobs : List (Job K)} (progressed : Bool) :
      Move good (p, jobs) ((p.endStep progressed).1, jobs)
  | drop {p : Pipeline K} {jobs : List (Job K)} : Move good (p, jobs) (p, [])
  | cancel {p : Pipeline K} {jobs : List (Job K)} : Move good (p, jobs) (p.cancelled, jobs)
  | stopReading {p : Pipeline K} {jobs : List (Job K)} :
      Move good (p, jobs) (p.stoppingReading, jobs)

/-- Any number of small moves. -/
abbrev Moves (good : Pipeline K → Done K → Prop) : Flight K → Flight K → Prop :=
  Relation.ReflTransGen (Move good)

/-! ### Moves of the wires -/

section Wires

variable {p p' p'' : Pipeline K} {s : Pool}

theorem MovesWires.refl (p : Pipeline K) : p.MovesWires p :=
  ⟨p.pool, rfl, .refl⟩

theorem MovesWires.trans (h : p.MovesWires p') (h' : p'.MovesWires p'') : p.MovesWires p'' := by
  rcases h with ⟨s, rfl, hs⟩
  rcases h' with ⟨s', rfl, hs'⟩
  exact ⟨s', rfl, Relation.ReflTransGen.trans hs hs'⟩

theorem pushAll_moves (item : Payload) (ids : List Nat) (s : Pool) :
    WireMoves s (pushAll item ids s).1 := by
  induction ids generalizing s with
  | nil => exact .refl
  | cons id ids ih =>
      rcases s with ⟨ws, b⟩
      simp only [pushAll]
      split
      · exact ih (ws, b)
      · rename_i w hw
        split
        · exact .refl
        · rename_i w' b' hpush
          exact .head (.push id item hw hpush) (ih _)

theorem emit_moves (p : Pipeline K) (node port : Nat) (item : Payload) :
    p.MovesWires (p.emit node port item).1 := by
  unfold emit
  split
  · exact MovesWires.refl p
  · exact ⟨_, rfl, pushAll_moves item _ p.pool⟩

theorem emitAll_moves (node : Nat) (out : Items) (p : Pipeline K) :
    p.MovesWires (emitAll node out p).1 := by
  induction out generalizing p with
  | nil => exact MovesWires.refl p
  | cons head rest ih =>
      have hone := p.emit_moves node head.1 head.2
      simp only [emitAll]
      split
      · rename_i h
        rwa [h] at hone
      · rename_i h
        rw [h] at hone
        exact hone.trans (ih _)

theorem closeWires_moves (ts : Timestamp) (ids : List Nat) (ws : List Wire) (b : Budget) :
    WireMoves (ws, b) (ids.foldl (closeWire ts) ws, b) := by
  induction ids generalizing ws with
  | nil => exact .refl
  | cons id ids ih =>
      have hone : WireMoves (ws, b) (closeWire ts ws id, b) := by
        unfold closeWire
        split
        · exact .refl
        · rename_i w hw
          exact .single (.close id ts hw)
      exact Relation.ReflTransGen.trans hone (ih _)

theorem closePorts_moves (p : Pipeline K) (node : Nat) (close : Ends) :
    p.MovesWires (p.closePorts node close) := by
  unfold closePorts
  induction close generalizing p with
  | nil => exact MovesWires.refl p
  | cons head rest ih =>
      simp only [List.foldl_cons]
      refine MovesWires.trans ?_ (ih _)
      split
      · exact MovesWires.refl p
      · exact ⟨(_, p.budget), rfl, closeWires_moves _ _ _ _⟩

theorem abandonWires_moves (inputs : List InPort) (s : Pool) :
    WireMoves s (inputs.foldl abandonWire s) := by
  induction inputs generalizing s with
  | nil => exact .refl
  | cons input rest ih =>
      rcases s with ⟨ws, b⟩
      have hone : WireMoves (ws, b) (abandonWire (ws, b) input) := by
        unfold abandonWire
        split
        · exact .refl
        · rename_i w hw
          exact .single (.abandon input.wire hw)
      exact Relation.ReflTransGen.trans hone (ih _)

theorem abandonInputs_moves (p : Pipeline K) (node : Nat) :
    p.MovesWires (p.abandonInputs node) := by
  unfold abandonInputs
  split
  · exact MovesWires.refl p
  · exact ⟨_, rfl, abandonWires_moves _ _⟩

theorem noteWires_moves (ids : List Nat) (ws : List Wire) (b : Budget) :
    WireMoves (ws, b) (ids.foldl noteWire ws, b) := by
  induction ids generalizing ws with
  | nil => exact .refl
  | cons id ids ih =>
      have hone : WireMoves (ws, b) (noteWire ws id, b) := by
        unfold noteWire
        split
        · exact .refl
        · rename_i w hw
          exact .single (.noteStall id hw)
      exact Relation.ReflTransGen.trans hone (ih _)

theorem noteNode_moves (p : Pipeline K) (i : Nat) : p.MovesWires (p.noteNode i) := by
  unfold noteNode
  split
  · split
    · exact MovesWires.refl p
    · exact ⟨(_, p.budget), rfl, noteWires_moves _ _ _⟩
  · exact MovesWires.refl p

theorem noteNodes_moves (is : List Nat) (p : Pipeline K) :
    p.MovesWires (is.foldl noteNode p) := by
  induction is generalizing p with
  | nil => exact MovesWires.refl p
  | cons i rest ih => exact (p.noteNode_moves i).trans (ih _)

theorem set_of_getElem? {ws : List Wire} {w : Wire} {i : Nat} (hw : ws[i]? = some w) :
    ws.set i w = ws := by
  rcases List.getElem?_eq_some_iff.1 hw with ⟨hlt, rfl⟩
  exact List.set_getElem_self hlt

theorem takeItems_moves {ws : List Wire} {w : Wire} {i : Nat} (work : Work K) (port : Nat)
    (src dst : TimeBase) (n : Nat) (b : Budget) (hw : ws[i]? = some w) :
    WireMoves (ws, b)
      (ws.set i (takeItems work port src dst n w b).1,
        (takeItems work port src dst n w b).2.1) := by
  induction n generalizing ws w b with
  | zero =>
      rw [takeItems, set_of_getElem? hw]
  | succ n ih =>
      unfold takeItems
      split
      · rw [set_of_getElem? hw]
      · split
        · rw [set_of_getElem? hw]
        · rename_i item w' b' hpop
          rcases List.getElem?_eq_some_iff.1 hw with ⟨hlt, _⟩
          have hrest := @ih (ws.set i w') w' b' (by simp [hlt])
          rw [List.set_set] at hrest
          exact .head (.pop i hw hpop) hrest

theorem takeInputs_moves (work : Work K) (port : Nat) (slots : List InPort) (s : Pool) :
    WireMoves s (takeInputs work port slots s).pool := by
  induction slots generalizing port s with
  | nil => exact .refl
  | cons slot rest ih =>
      rcases s with ⟨ws, b⟩
      unfold takeInputs
      split
      · exact ih _ _
      · rename_i wire hw
        have hone := takeItems_moves work port wire.timeBase slot.timeBase work.batch b hw
        simp only
        split <;> exact Relation.ReflTransGen.trans hone (ih _ _)

end Wires

/-! ### Moves of a step -/

section Steps

variable {good : Pipeline K → Done K → Prop} {p p' : Pipeline K} {jobs : List (Job K)}

theorem moves_retireNode (good : Pipeline K → Done K → Prop) (p : Pipeline K)
    (jobs : List (Job K)) (i : Nat) : Moves good (p, jobs) ((p.retireNode i).1, jobs) := by
  unfold retireNode
  split
  · rename_i work m hwork hm
    split
    · exact .refl
    · rename_i hdone
      split
      · exact .refl
      · rename_i houts
        refine .single (.retire i hwork hm (by simpa using hdone) ?_)
        intro id hid
        simp only [Bool.or_eq_true, Bool.not_eq_true', not_or, Bool.not_eq_true,
          Bool.not_eq_false, List.all_eq_true] at houts
        have habandoned := houts.2 id hid
        rcases hw : p.wires[id]? with _ | w
        · simp [hw] at habandoned
        · exact ⟨w, rfl, by simpa [hw] using habandoned⟩
  · exact .refl

theorem moves_retireAll (good : Pipeline K → Done K → Prop) (is : List Nat) (p : Pipeline K)
    (jobs : List (Job K)) (retired : Bool) :
    Moves good (p, jobs) ((retireAll is p retired).1, jobs) := by
  induction is generalizing p retired with
  | nil => exact .refl
  | cons i rest ih =>
      exact Relation.ReflTransGen.trans (moves_retireNode good p jobs i) (ih _ _)

theorem moves_retireUnneeded (good : Pipeline K → Done K → Prop) (p : Pipeline K)
    (jobs : List (Job K)) : Moves good (p, jobs) (p.retireUnneeded.1, jobs) := by
  induction p using retireUnneeded.induct with
  | case1 p p' h ih =>
      have hone := moves_retireAll good (List.range p.nodes.length).reverse p jobs false
      rw [retireUnneeded, h]
      rw [h] at hone
      exact Relation.ReflTransGen.trans hone ih
  | case2 p p' h =>
      have hone := moves_retireAll good (List.range p.nodes.length).reverse p jobs false
      rw [retireUnneeded, h]
      rwa [h] at hone

theorem moves_stopAll (good : Pipeline K → Done K → Prop) (is : List Nat) (p : Pipeline K)
    (jobs : List (Job K)) (any : Bool) : Moves good (p, jobs) ((stopAll is p any).1, jobs) := by
  induction is generalizing p any with
  | nil => exact .refl
  | cons i rest ih =>
      have hone : Moves good (p, jobs) ((p.stopNode i).1, jobs) := by
        unfold stopNode
        split
        · rename_i d hd
          split
          · exact .refl
          · exact .single (.stop i hd)
        · exact .refl
      exact Relation.ReflTransGen.trans hone (ih _ _)

theorem moves_beginStep (good : Pipeline K → Done K → Prop) (p : Pipeline K)
    (jobs : List (Job K)) : Moves good (p, jobs) (p.beginStep.1, jobs) := by
  have hretire := moves_retireUnneeded good p jobs
  unfold beginStep
  simp only
  split
  · exact Relation.ReflTransGen.trans hretire (moves_stopAll good _ _ jobs _)
  · exact hretire

theorem moves_detachAll (good : Pipeline K → Done K → Prop) (is : List Nat) (p : Pipeline K)
    (jobs : List (Job K)) :
    Moves good (p, jobs) ((detachAll is p).1, jobs ++ (detachAll is p).2) := by
  induction is generalizing p jobs with
  | nil => simpa [detachAll] using Relation.ReflTransGen.refl
  | cons i rest ih =>
      simp only [detachAll]
      split
      · rename_i h
        exact .head (.miss i h) (ih _ _)
      · rename_i p' job h
        have hrest := ih p' (jobs ++ [job])
        rw [List.append_assoc, List.singleton_append] at hrest
        exact .head (.detach i h) hrest

theorem moves_checkOut (good : Pipeline K → Done K → Prop) (p : Pipeline K) (width : Nat) :
    Moves good (p, []) (p.checkOut width) :=
  .head (.wires (p.noteNodes_moves _)) (moves_detachAll good _ _ [])

/-- The jobs of a step are committed as long as each commit is good. -/
inductive Commits (good : Pipeline K → Done K → Prop) : List (Job K) → Pipeline K → Prop where
  | nil {p : Pipeline K} : Commits good [] p
  | cons {p : Pipeline K} {job : Job K} {jobs : List (Job K)} (hgood : good p job.run)
      (hrest : ∀ p', p.checkIn job.run = (p', .ok ()) → Commits good jobs p') :
      Commits good (job :: jobs) p

theorem commits_true (jobs : List (Job K)) (p : Pipeline K) :
    Commits (fun _ _ => True) jobs p := by
  induction jobs generalizing p with
  | nil => exact .nil
  | cons job rest ih => exact .cons trivial fun p' _ => ih p'

theorem moves_runJobs (hcommits : Commits good jobs p) (progressed : Bool) :
    Moves good (p, jobs) ((runJobs jobs p progressed).1, []) := by
  induction hcommits generalizing progressed with
  | nil => exact .refl
  | @cons p job jobs hgood hrest ih =>
      have hone : Move good (p, job :: jobs) ((p.checkIn job.run).1, jobs) := .commit hgood
      simp only [runJobs]
      split
      · rename_i p' e h
        rw [h] at hone
        exact .head hone (.single .drop)
      · rename_i p' h
        rw [h] at hone
        exact .head hone (ih p' h _)

/-- The jobs that a step of some width runs, with the pipeline they are taken from. -/
def plan (p : Pipeline K) (width : Nat) : Pipeline K × List (Job K) :=
  p.beginStep.1.checkOut (max width 1)

/-- A step, whatever it returns, is a sequence of moves. -/
theorem moves_drive (p : Pipeline K) (width : Nat)
    (hgood : p.cancel = false → Commits good (p.plan width).2 (p.plan width).1) :
    Moves good (p, []) ((p.drive width).1, []) := by
  unfold drive
  split
  · exact .refl
  · rename_i hcancel
    have hbegin := moves_beginStep good p []
    have hout := moves_checkOut good p.beginStep.1 (max width 1)
    have hplan := Relation.ReflTransGen.trans hbegin hout
    simp only
    split
    · rename_i hjobs
      simp only [Bool.and_eq_true, List.isEmpty_iff] at hjobs
      have hempty : p.beginStep.1.checkOut (max width 1) =
          ((p.beginStep.1.checkOut (max width 1)).1, []) := Prod.ext rfl hjobs.1
      rw [hempty] at hplan
      exact hplan
    · have hrun := moves_runJobs (hgood (by simpa using hcancel)) p.beginStep.2
      have hall := Relation.ReflTransGen.trans hplan hrun
      split
      · rename_i h
        unfold plan at hall
        rwa [h] at hall
      · rename_i p₁ progressed h
        unfold plan at hall
        rw [h] at hall
        have hend : Move good (p₁, []) ((p₁.endStep progressed).1, []) := .account progressed
        split
        · rename_i h'
          rw [h'] at hend
          exact .tail hall hend
        · rename_i h'
          rw [h'] at hend
          exact .tail hall hend

theorem moves_lose (good : Pipeline K → Done K → Prop) (p : Pipeline K) (width : Nat) :
    Moves good (p, []) (Driver.lose p width, []) := by
  have hbegin := moves_beginStep good p []
  have hout := moves_checkOut good p.beginStep.1 width
  exact .tail (.tail (Relation.ReflTransGen.trans hbegin hout) .drop) .cancel

end Steps

/-! ### Calls -/

theorem detachAll_nodes (is : List Nat) (p : Pipeline K) :
    ((detachAll is p).2.map Job.node).Sublist is := by
  induction is generalizing p with
  | nil => exact .slnil
  | cons i rest ih =>
      simp only [detachAll]
      split
      · exact .cons _ (ih _)
      · rename_i job h
        have hnode : job.node = i := by
          unfold detach at h
          split at h
          · cases h
          · simp only at h
            split at h
            · cases h
            · cases h
              rfl
        rw [List.map_cons, hnode]
        exact .cons_cons _ (ih _)

end Pipeline

namespace Driver

theorem insertionSort_run (p : Pipeline K) (width : Nat) :
    ((p.checkOut width).2.map Job.run).insertionSort (fun a b => a.node ≤ b.node) =
      (p.checkOut width).2.map Job.run := by
  apply List.Pairwise.insertionSort_eq
  have hsorted : (p.chosen width).Pairwise (· ≤ ·) := List.pairwise_insertionSort _ _
  have hnodes := hsorted.sublist
    (Pipeline.detachAll_nodes (p.chosen width) ((List.range p.nodes.length).foldl Pipeline.noteNode p))
  rw [List.pairwise_map] at hnodes ⊢
  exact hnodes.imp fun h => by simpa using h

theorem commitAll_run (jobs : List (Job K)) (p : Pipeline K) (progressed : Bool) :
    commitAll (jobs.map Job.run) p progressed = Pipeline.runJobs jobs p progressed := by
  induction jobs generalizing p progressed with
  | nil => rfl
  | cons job rest ih =>
      simp only [List.map_cons, commitAll, Pipeline.runJobs]
      rcases p.checkIn job.run with ⟨p', e | _⟩
      · rfl
      · exact ih p' _

/-- A wave is a step of the width of the driver. -/
theorem wave_eq_drive (p : Pipeline K) {width : Nat} (h : 0 < width) :
    wave p width = p.drive width := by
  have hwidth : max width 1 = width := by omega
  unfold wave Pipeline.drive
  rw [hwidth]
  split
  · rfl
  · simp only [insertionSort_run, commitAll_run]
    rcases p.beginStep.1.checkOut width with ⟨p', jobs⟩
    rcases p.beginStep.2 with _ | _
    · cases jobs <;> rfl
    · cases jobs <;> rfl

theorem turn_eq_drive (d : Driver) (p : Pipeline K) :
    d.turn p = p.drive (max d.threads 1) := by
  unfold turn
  split
  · rename_i h
    have hwidth : max d.threads 1 = d.threads := by omega
    rw [hwidth, wave_eq_drive p (by omega)]
  · rename_i h
    have hwidth : max d.threads 1 = 1 := by omega
    rw [hwidth]
    rfl

end Driver

namespace Pipeline

/-- One call on a pipeline, one turn of a driver included. -/
inductive Call : Pipeline K → Pipeline K → Prop where
  | drive (p : Pipeline K) (width : Nat) : Call p (p.drive width).1
  | turn (p : Pipeline K) (d : Driver) : Call p (d.turn p).1
  | lost (p : Pipeline K) (d : Driver) (hcancel : p.cancel = false) :
      Call p (Driver.lose p d.threads)
  | cancel (p : Pipeline K) : Call p p.cancelled
  | stopReading (p : Pipeline K) : Call p p.stoppingReading

/-- The pipelines that calls can lead to. -/
abbrev Reachable : Pipeline K → Pipeline K → Prop :=
  Relation.ReflTransGen Call

theorem Call.moves {p p' : Pipeline K} (h : Call p p') :
    Moves (fun _ _ => True) (p, []) (p', []) := by
  cases h with
  | drive width => exact moves_drive p width fun _ => commits_true _ _
  | turn d =>
      rw [d.turn_eq_drive]
      exact moves_drive p _ fun _ => commits_true _ _
  | lost d _ => exact moves_lose _ p d.threads
  | cancel => exact .single .cancel
  | stopReading => exact .single .stopReading

/-- Any sequence of calls is a sequence of moves. -/
theorem Reachable.moves {p p' : Pipeline K} (h : Reachable p p') :
    Moves (fun _ _ => True) (p, []) (p', []) := by
  induction h with
  | refl => exact .refl
  | tail _ hcall ih => exact Relation.ReflTransGen.trans ih hcall.moves

end Pipeline

end Sched
end Vaco
