import Vaco.Library.FixedWidth
import Vaco.Library.ReplyWindow

/-!
# The frame runner

A runner takes the tasks of a decoder and hands their results back in dispatch order.  With one
thread a task runs when it is dispatched.  With more, tasks go through one queue to a pool of
workers, whose replies arrive in any order in a window of slots; the caller waits for the
oldest.

The caller, who may be waiting inside a collect, and the workers move in any order.  What the
one-thread runner hands back depends on the dispatches, cancellations and resets alone.

The workers give their tasks cancellation flags of their own, which nobody sets, in place of
the flag of the runner.  A task that is dispatched after a cancellation sees it on one thread
only.

Main results:

- `RunnerState.Follows.act`: every move follows the one-thread runner.
- `independent_iff`: when the results do not depend on the threads.

Current gaps:

- Tasks that panic, or set the flag of their context, are left out, and so are the end of a
  pool and targets without threads.
-/

namespace Vaco
namespace Codec

open Library ReplyWindow

/-- What a task may look at: its index and the cancellation flag. -/
structure TaskCtx where
  decodeIndex : Nat
  cancelled : Bool
deriving DecidableEq

/-- A task, by its result in a context. -/
abbrev FrameTask (ρ : Type) : Type :=
  TaskCtx → ρ

variable {ρ : Type}

/-! ## The pool -/

/-- A worker with its own cancellation flag and the task that it is running. -/
structure Worker (ρ : Type) where
  cancelled : Bool
  job : Option (Nat × FrameTask ρ)

/-- The workers, the queue in front of them and the replies behind them. -/
structure Pool (ρ : Type) where
  queue : List (Nat × FrameTask ρ)
  workers : List (Worker ρ)
  done : List (Nat × ρ)

namespace Pool

/-- Some idle workers, each with a new flag. -/
def spawn (threads : Nat) : Pool ρ where
  queue := []
  workers := List.replicate threads ⟨false, none⟩
  done := []

/-- Queue a task. -/
def submit (p : Pool ρ) (index : Nat) (task : FrameTask ρ) : Pool ρ :=
  { p with queue := p.queue ++ [(index, task)] }

/-- An idle worker takes the next task. -/
def take (p : Pool ρ) (worker : Nat) : Option (Pool ρ) :=
  match p.queue, p.workers[worker]? with
  | job :: queue, some ⟨cancelled, none⟩ =>
      some { p with
        queue := queue
        workers := p.workers.set worker ⟨cancelled, some job⟩ }
  | _, _ => none

/-- A busy worker finishes its task and replies. -/
def finish (p : Pool ρ) (worker : Nat) : Option (Pool ρ) :=
  match p.workers[worker]? with
  | some ⟨cancelled, some (index, task)⟩ =>
      some { p with
        workers := p.workers.set worker ⟨cancelled, none⟩
        done := p.done ++ [(index, task ⟨index, cancelled⟩)] }
  | _ => none

end Pool

/-! ## The runner -/

/-- A runner: one slot for each task that was dispatched and not collected. -/
structure FrameRunner (ρ : Type) where
  threads : Nat
  cancelled : Bool
  nextDispatch : Nat
  nextCollect : Nat
  slots : List (Option ρ)
  pool : Option (Pool ρ)

namespace FrameRunner

/-- A runner with some workers; they are not spawned yet. -/
def new (threads : Nat) : FrameRunner ρ where
  threads := max threads 1
  cancelled := false
  nextDispatch := 0
  nextCollect := 0
  slots := []
  pool := none

/-- The pool, spawned at its first use. -/
def poolMut (r : FrameRunner ρ) : Pool ρ :=
  r.pool.getD (Pool.spawn r.threads)

/-- Queue a task, or run it at once on one thread. -/
def dispatch (r : FrameRunner ρ) (task : FrameTask ρ) : FrameRunner ρ :=
  if 1 < r.threads then
    { r with
      nextDispatch := satAddU64 r.nextDispatch 1
      slots := r.slots ++ [none]
      pool := some (r.poolMut.submit r.nextDispatch task) }
  else
    { r with
      nextDispatch := satAddU64 r.nextDispatch 1
      slots := r.slots ++ [some (task ⟨r.nextDispatch, r.cancelled⟩)] }

/-- Take the oldest result, if it is there. -/
def popFront (r : FrameRunner ρ) : Option (FrameRunner ρ × ρ) :=
  match r.slots with
  | some result :: slots =>
      some ({ r with slots := slots, nextCollect := satAddU64 r.nextCollect 1 }, result)
  | _ => none

/-- Receive one reply and store it; without a reply this waits. -/
def recv (r : FrameRunner ρ) : Option (FrameRunner ρ) :=
  match r.poolMut.done with
  | [] => none
  | reply :: done =>
      some { r with
        slots := store r.nextCollect r.slots reply
        pool := some { r.poolMut with done := done } }

/-- Receive all replies that have arrived. -/
def recvAll (r : FrameRunner ρ) : FrameRunner ρ :=
  if 1 < r.threads then
    { r with
      slots := r.poolMut.done.foldl (store r.nextCollect) r.slots
      pool := some { r.poolMut with done := [] } }
  else
    r

/-- Take the oldest result if it is already available. -/
def tryCollect (r : FrameRunner ρ) : FrameRunner ρ × Option ρ :=
  match r.recvAll.popFront with
  | some (r, result) => (r, some result)
  | none => (r.recvAll, none)

/-- One round of the loop of a collect: the oldest result, or one more reply. -/
def round (r : FrameRunner ρ) : Option (FrameRunner ρ × Option ρ) :=
  match r.popFront with
  | some (r, result) => some (r, some result)
  | none => r.recv.map fun r => (r, none)

/-- Start counting over, behind a drain. -/
def restart (r : FrameRunner ρ) : FrameRunner ρ :=
  { r with nextDispatch := 0, nextCollect := 0 }

end FrameRunner

/-! ## The caller and the workers -/

/-- What the caller is doing. -/
inductive Phase where
  | idle
  | collecting
  | resetting
deriving DecidableEq

/-- A runner with its caller.  `collected` lists the results that were taken off the front. -/
structure RunnerState (ρ : Type) where
  runner : FrameRunner ρ
  phase : Phase
  collected : List ρ

/-- A call, a round of a collect, a cancellation by any holder of the flag, or a move of a worker. -/
inductive RunnerMove (ρ : Type) where
  | dispatch (task : FrameTask ρ)
  | collect
  | tryCollect
  | reset
  | round
  | cancel
  | take (worker : Nat)
  | finish (worker : Nat)

namespace RunnerState

/-- Before the first call. -/
def start (threads : Nat) : RunnerState ρ where
  runner := .new threads
  phase := .idle
  collected := []

/-- One round of the loop of the caller. -/
def round (s : RunnerState ρ) : Option (RunnerState ρ) :=
  match s.phase with
  | .idle => none
  | .collecting =>
      s.runner.round.map fun next =>
        { s with
          runner := next.1
          phase := if next.2.isSome then .idle else .collecting
          collected := s.collected ++ next.2.toList }
  | .resetting =>
      if s.runner.slots = [] then
        some { s with runner := s.runner.restart, phase := .idle }
      else
        s.runner.round.map fun next =>
          { s with
            runner := next.1
            collected := s.collected ++ next.2.toList }

/-- A worker moves. -/
def work (s : RunnerState ρ) (step : Pool ρ → Option (Pool ρ)) : Option (RunnerState ρ) :=
  (s.runner.pool.bind step).map fun pool => { s with runner := { s.runner with pool := some pool } }

/-- Perform a move.  A caller who is inside a call makes no other. -/
def act (s : RunnerState ρ) : RunnerMove ρ → Option (RunnerState ρ)
  | .dispatch task =>
      if s.phase = .idle then some { s with runner := s.runner.dispatch task } else none
  | .collect =>
      if s.phase = .idle then
        some { s with phase := if s.runner.slots = [] then .idle else .collecting }
      else none
  | .tryCollect =>
      if s.phase = .idle then
        some { s with
          runner := s.runner.tryCollect.1
          collected := s.collected ++ s.runner.tryCollect.2.toList }
      else none
  | .reset => if s.phase = .idle then some { s with phase := .resetting } else none
  | .round => s.round
  | .cancel => some { s with runner := { s.runner with cancelled := true } }
  | .take worker => s.work fun pool => pool.take worker
  | .finish worker => s.work fun pool => pool.finish worker

/-- Perform some moves. -/
def run (s : RunnerState ρ) (moves : List (RunnerMove ρ)) : Option (RunnerState ρ) :=
  moves.foldlM act s

end RunnerState

/-! ## The results on one thread -/

/-- What the results depend on. -/
inductive RunnerEvent (ρ : Type) where
  | dispatch (task : FrameTask ρ)
  | cancel
  | reset

/-- What a move contributes to the results. -/
def RunnerMove.event : RunnerMove ρ → Option (RunnerEvent ρ)
  | .dispatch task => some (.dispatch task)
  | .cancel => some .cancel
  | .reset => some .reset
  | _ => none

/-- The one-thread runner: the index of the next task, the flag, and the results in dispatch
order. -/
structure Serial (ρ : Type) where
  index : Nat
  cancelled : Bool
  results : List ρ

/-- Run a task at once, or note a cancellation or a reset. -/
def Serial.step (σ : Serial ρ) : RunnerEvent ρ → Serial ρ
  | .dispatch task =>
      { σ with
        index := satAddU64 σ.index 1
        results := σ.results ++ [task ⟨σ.index, σ.cancelled⟩] }
  | .cancel => { σ with cancelled := true }
  | .reset => { σ with index := 0 }

/-- The results on one thread. -/
def serialResults (events : List (RunnerEvent ρ)) : List ρ :=
  (events.foldl Serial.step ⟨0, false, []⟩).results

/-- Whatever is done in between, the results are those on one thread, in dispatch order. -/
def Independent (threads : Nat) (events : List (RunnerEvent ρ)) : Prop :=
  ∀ moves s, (RunnerState.start threads).run moves = some s →
    moves.filterMap RunnerMove.event = events → s.collected <+: serialResults events

/-- No task that is dispatched after a cancellation looks at the flag. -/
def Unaffected : Nat → Bool → List (RunnerEvent ρ) → Prop
  | _, _, [] => True
  | index, cancelled, .dispatch task :: events =>
      (cancelled = true → task ⟨index, true⟩ = task ⟨index, false⟩) ∧
        Unaffected (satAddU64 index 1) cancelled events
  | index, _, .cancel :: events => Unaffected index true events
  | _, cancelled, .reset :: events => Unaffected 0 cancelled events

/-- The tasks between two resets can be counted. -/
def Countable : Nat → List (RunnerEvent ρ) → Prop
  | _, [] => True
  | index, .dispatch _ :: events => index + 1 ≤ u64Max ∧ Countable (index + 1) events
  | index, .cancel :: events => Countable index events
  | _, .reset :: events => Countable 0 events

/-! ## What the pool has pending -/

/-- The reply that a job will give under a flag that is not set. -/
def unaware (job : Nat × FrameTask ρ) : Nat × ρ :=
  (job.1, job.2 ⟨job.1, false⟩)

/-- The reply that a worker will give. -/
def Worker.pending (w : Worker ρ) : Option (Nat × ρ) :=
  w.job.map unaware

namespace Pool

/-- The replies that a pool has to give. -/
def pending (p : Pool ρ) : List (Nat × ρ) :=
  p.queue.map unaware ++ p.workers.filterMap Worker.pending ++ p.done

/-- No worker has its flag set. -/
def Unset (p : Pool ρ) : Prop :=
  ∀ w ∈ p.workers, w.cancelled = false

theorem pending_spawn (threads : Nat) : (spawn threads : Pool ρ).pending = [] := by
  have hidle : (List.replicate threads (⟨false, none⟩ : Worker ρ)).filterMap Worker.pending = [] := by
    rw [List.filterMap_eq_nil_iff]
    intro w hw
    rw [List.eq_of_mem_replicate hw]
    rfl
  rw [pending, spawn, hidle]
  rfl

theorem unset_spawn (threads : Nat) : (spawn threads : Pool ρ).Unset := by
  intro w hw
  rw [List.eq_of_mem_replicate hw]

/-- What a worker has to give changes with the worker. -/
theorem pending_set {workers : List (Worker ρ)} {worker : Nat} {w : Worker ρ}
    (h : workers[worker]? = some w) (w' : Worker ρ) :
    (w'.pending.toList ++ workers.filterMap Worker.pending).Perm
      (w.pending.toList ++ (workers.set worker w').filterMap Worker.pending) := by
  have hcons : ∀ (v : Worker ρ) (workers : List (Worker ρ)),
      (v :: workers).filterMap Worker.pending =
        v.pending.toList ++ workers.filterMap Worker.pending := by
    intro v workers
    rw [List.filterMap_cons]
    cases v.pending with
    | none => rfl
    | some reply => rfl
  induction workers generalizing worker with
  | nil => cases h
  | cons v workers ih =>
      cases worker with
      | zero =>
          rw [List.getElem?_cons_zero, Option.some.injEq] at h
          rw [h, List.set_cons_zero, hcons, hcons, ← List.append_assoc, ← List.append_assoc]
          exact List.perm_append_comm.append_right _
      | succ worker =>
          rw [List.set_cons_succ, hcons, hcons]
          refine (List.perm_append_comm_assoc _ _ _).trans ?_
          exact ((ih h).append_left _).trans (List.perm_append_comm_assoc _ _ _)

theorem Unset.set {p : Pool ρ} (h : p.Unset) {queue : List (Nat × FrameTask ρ)}
    {done : List (Nat × ρ)} {worker : Nat} {w : Worker ρ} (hw : w.cancelled = false) :
    Unset ⟨queue, p.workers.set worker w, done⟩ := by
  intro v hv
  rcases List.mem_or_eq_of_mem_set hv with hv | rfl
  · exact h v hv
  · exact hw

theorem take_pending {p p' : Pool ρ} {worker : Nat} (h : p.Unset)
    (htake : p.take worker = some p') : p'.pending.Perm p.pending ∧ p'.Unset := by
  unfold take at htake
  split at htake
  · rename_i job queue cancelled hqueue hworker
    have hunset := h _ (List.mem_of_getElem? hworker)
    rw [Option.some.injEq] at htake
    rw [← htake]
    refine ⟨?_, h.set hunset⟩
    have hset := pending_set hworker ⟨cancelled, some job⟩
    rw [pending, pending, hqueue, List.map_cons]
    refine List.Perm.append_right p.done ?_
    refine (hset.symm.append_left (queue.map unaware)).trans ?_
    exact List.perm_append_comm_assoc (queue.map unaware) [unaware job] _
  · cases htake

theorem finish_pending {p p' : Pool ρ} {worker : Nat} (h : p.Unset)
    (hfinish : p.finish worker = some p') : p'.pending.Perm p.pending ∧ p'.Unset := by
  unfold finish at hfinish
  split at hfinish
  · rename_i cancelled index task hworker
    have hunset := h _ (List.mem_of_getElem? hworker)
    dsimp only at hunset
    rw [Option.some.injEq] at hfinish
    rw [← hfinish]
    refine ⟨?_, h.set hunset⟩
    have hset := pending_set hworker ⟨cancelled, none⟩
    rw [pending, pending, hunset]
    rw [hunset] at hset
    rw [List.append_assoc, List.append_assoc]
    refine List.Perm.append_left _ ?_
    refine (List.Perm.append_left _ List.perm_append_comm).trans ?_
    rw [← List.append_assoc]
    refine List.Perm.append_right p.done ?_
    exact List.perm_append_comm.trans hset.symm
  · cases hfinish

end Pool

/-! ## What every move keeps -/

namespace FrameRunner

/-- The replies that the workers of a runner have to give. -/
def pending (r : FrameRunner ρ) : List (Nat × ρ) :=
  (r.pool.map Pool.pending).getD []

/-- The stored results are those due, the replies to come are the missing ones, no worker has its
flag set, and the slots are those of the tasks from the oldest to the next. -/
structure Serves (r : FrameRunner ρ) (due : List ρ) : Prop where
  filled : Filled r.slots due
  pending : r.pending.Perm (missing r.nextCollect r.slots due)
  unset : ∀ pool ∈ r.pool, pool.Unset
  counters : 1 < r.threads →
    r.nextDispatch = r.nextCollect + r.slots.length ∧ r.nextDispatch ≤ u64Max
  inline : ¬ 1 < r.threads → r.pool = none

variable {r r' : FrameRunner ρ} {due : List ρ}

theorem poolMut_pending (r : FrameRunner ρ) : r.poolMut.pending = r.pending := by
  rw [poolMut, pending]
  cases r.pool with
  | none => exact Pool.pending_spawn r.threads
  | some pool => rfl

theorem Serves.poolMut_unset (h : r.Serves due) : r.poolMut.Unset := by
  rw [poolMut]
  cases hpool : r.pool with
  | none => exact Pool.unset_spawn r.threads
  | some pool => exact h.unset pool hpool

/-- Collecting leaves the threads, the flag and the next index alone. -/
structure Keeps (r r' : FrameRunner ρ) : Prop where
  threads : r'.threads = r.threads
  cancelled : r'.cancelled = r.cancelled
  nextDispatch : r'.nextDispatch = r.nextDispatch

theorem popFront_keeps {result : ρ} (h : r.popFront = some (r', result)) : r.Keeps r' := by
  unfold popFront at h
  split at h
  · cases h
    exact ⟨rfl, rfl, rfl⟩
  · cases h

theorem recv_keeps (h : r.recv = some r') : r.Keeps r' := by
  unfold recv at h
  split at h
  · cases h
  · cases h
    exact ⟨rfl, rfl, rfl⟩

theorem recvAll_keeps (r : FrameRunner ρ) : r.Keeps r.recvAll := by
  unfold recvAll
  split
  · exact ⟨rfl, rfl, rfl⟩
  · exact ⟨rfl, rfl, rfl⟩

theorem tryCollect_keeps (r : FrameRunner ρ) : r.Keeps r.tryCollect.1 := by
  have hrecv := recvAll_keeps r
  unfold tryCollect
  cases hpop : r.recvAll.popFront with
  | none => exact hrecv
  | some next =>
      have hfront := popFront_keeps hpop
      exact ⟨hfront.threads.trans hrecv.threads, hfront.cancelled.trans hrecv.cancelled,
        hfront.nextDispatch.trans hrecv.nextDispatch⟩

theorem round_keeps {next : Option ρ} (h : r.round = some (r', next)) : r.Keeps r' := by
  unfold round at h
  cases hpop : r.popFront with
  | none =>
      rw [hpop, Option.map_eq_some_iff] at h
      rcases h with ⟨t, hrecv, hpair⟩
      rw [Prod.mk.injEq] at hpair
      rcases hpair with ⟨rfl, rfl⟩
      exact recv_keeps hrecv
  | some taken =>
      rw [hpop] at h
      cases h
      exact popFront_keeps hpop

theorem serves_new (threads : Nat) : (new threads : FrameRunner ρ).Serves [] where
  filled := List.Forall₂.nil
  pending := List.Perm.refl _
  unset := fun pool hpool => by cases hpool
  counters := fun _ => ⟨rfl, Nat.zero_le _⟩
  inline := fun _ => rfl

/-- A dispatch makes the result of the task due: with a pool, its result under a flag that is
not set. -/
theorem Serves.dispatch (h : r.Serves due) (task : FrameTask ρ)
    (hcount : 1 < r.threads → r.nextDispatch + 1 ≤ u64Max) :
    (r.dispatch task).Serves
      (due ++ [task ⟨r.nextDispatch, if 1 < r.threads then false else r.cancelled⟩]) := by
  unfold FrameRunner.dispatch
  by_cases hpool : 1 < r.threads
  · rcases h.counters hpool with ⟨hnext, -⟩
    have hcount := hcount hpool
    rw [if_pos hpool, if_pos hpool]
    refine ⟨h.filled.concat (fun x hx => by cases hx), ?_, ?_, fun _ => ?_,
      fun habsurd => absurd hpool habsurd⟩
    · rw [missing_concat h.filled, ← hnext]
      have hpending : (r.poolMut.submit r.nextDispatch task).pending.Perm
          (r.pending ++ [unaware (r.nextDispatch, task)]) := by
        rw [← poolMut_pending, Pool.pending, Pool.submit, Pool.pending, List.map_append,
          List.append_assoc, List.append_assoc, List.append_assoc, List.append_assoc]
        refine List.Perm.append_left _ ?_
        refine List.perm_append_comm.trans ?_
        rw [List.append_assoc]
        exact List.Perm.refl _
      exact hpending.trans (h.pending.append_right _)
    · intro pool hpool
      rw [← Option.some.inj hpool]
      exact h.poolMut_unset
    · dsimp only
      rw [satAddU64_of_le hcount, List.length_append, List.length_singleton]
      omega
  · rw [if_neg hpool, if_neg hpool]
    refine ⟨h.filled.concat fun x hx => (Option.some.inj hx).symm, ?_, h.unset,
      (fun habsurd => absurd habsurd hpool), h.inline⟩
    rw [missing_concat_some h.filled]
    exact h.pending

/-- The oldest result is the next one due. -/
theorem Serves.popFront {result : ρ} (h : r.Serves due) (hpop : r.popFront = some (r', result)) :
    ∃ rest, due = result :: rest ∧ r'.Serves rest := by
  unfold FrameRunner.popFront at hpop
  split at hpop
  · rename_i front slots hslots
    rw [Option.some.injEq, Prod.mk.injEq] at hpop
    rcases hpop with ⟨rfl, rfl⟩
    have hfilled := h.filled
    have hpending := h.pending
    have hcounters := h.counters
    rw [hslots] at hfilled hpending hcounters
    rcases front_leaves hfilled r.nextCollect with ⟨rest, rfl, hrest, hmissing⟩
    rw [hmissing] at hpending
    refine ⟨rest, rfl, hrest, ?_, h.unset, fun hpool => ?_, h.inline⟩
    · by_cases hpool : 1 < r.threads
      · have hbound := hcounters hpool
        rw [List.length_cons] at hbound
        dsimp only
        rw [satAddU64_of_le (by omega)]
        exact hpending
      · have hnone : r.pending = [] := by
          rw [FrameRunner.pending, h.inline hpool]
          rfl
        rw [hnone, List.nil_perm] at hpending
        dsimp only
        rw [missing_eq_nil hpending]
        exact List.Perm.of_eq hnone
    · have hbound := hcounters hpool
      rw [List.length_cons] at hbound
      dsimp only
      rw [satAddU64_of_le (by omega)]
      omega
  · cases hpop

/-- A reply that is received is stored in its slot. -/
theorem Serves.recv (h : r.Serves due) (hrecv : r.recv = some r') : r'.Serves due := by
  unfold FrameRunner.recv at hrecv
  split at hrecv
  · cases hrecv
  · rename_i reply done hdone
    rw [Option.some.injEq] at hrecv
    rw [← hrecv]
    have hpool : 1 < r.threads := by
      by_contra hinline
      rw [poolMut, h.inline hinline] at hdone
      cases hdone
    have hpending : (reply :: ({ r.poolMut with done := done } : Pool ρ).pending).Perm
        (missing r.nextCollect r.slots due) := by
      refine List.Perm.trans ?_ h.pending
      rw [← poolMut_pending, Pool.pending, Pool.pending, hdone]
      exact List.perm_middle.symm
    rcases store_next h.filled hpending with ⟨hfilled, hrest⟩
    refine ⟨hfilled, hrest, ?_, ?_, fun habsurd => absurd hpool habsurd⟩
    · intro pool hsome
      rw [← Option.some.inj hsome]
      exact h.poolMut_unset
    · intro _
      have hcounters := h.counters hpool
      dsimp only
      rw [hfilled.length_eq, ← h.filled.length_eq]
      exact hcounters

/-- All replies that are received are stored in their slots. -/
theorem Serves.recvAll (h : r.Serves due) : r.recvAll.Serves due := by
  unfold FrameRunner.recvAll
  by_cases hpool : 1 < r.threads
  · rw [if_pos hpool]
    have hpending : (r.poolMut.done ++ ({ r.poolMut with done := [] } : Pool ρ).pending).Perm
        (missing r.nextCollect r.slots due) := by
      refine List.Perm.trans ?_ h.pending
      rw [← poolMut_pending, Pool.pending, Pool.pending, List.append_nil]
      exact List.perm_append_comm
    rcases store_all h.filled hpending with ⟨hfilled, hrest⟩
    refine ⟨hfilled, hrest, ?_, ?_, fun habsurd => absurd hpool habsurd⟩
    · intro pool hsome
      rw [← Option.some.inj hsome]
      exact h.poolMut_unset
    · intro _
      have hcounters := h.counters hpool
      dsimp only
      rw [hfilled.length_eq, ← h.filled.length_eq]
      exact hcounters
  · rw [if_neg hpool]
    exact h

theorem Serves.tryCollect (h : r.Serves due) :
    ∃ rest, due = r.tryCollect.2.toList ++ rest ∧ r.tryCollect.1.Serves rest := by
  unfold FrameRunner.tryCollect
  cases hpop : r.recvAll.popFront with
  | none => exact ⟨due, rfl, h.recvAll⟩
  | some next => exact h.recvAll.popFront hpop

theorem Serves.round {next : Option ρ} (h : r.Serves due) (hround : r.round = some (r', next)) :
    ∃ rest, due = next.toList ++ rest ∧ r'.Serves rest := by
  unfold FrameRunner.round at hround
  cases hpop : r.popFront with
  | none =>
      rw [hpop, Option.map_eq_some_iff] at hround
      rcases hround with ⟨t, hrecv, hpair⟩
      rw [Prod.mk.injEq] at hpair
      rcases hpair with ⟨rfl, rfl⟩
      exact ⟨due, rfl, h.recv hrecv⟩
  | some taken =>
      rw [hpop, Option.some.injEq, Prod.mk.injEq] at hround
      rcases hround with ⟨rfl, rfl⟩
      exact h.popFront hpop

theorem Serves.restart (h : r.Serves due) (hslots : r.slots = []) :
    due = [] ∧ r.restart.Serves [] := by
  have hfilled := h.filled
  have hpending := h.pending
  rw [hslots] at hfilled hpending
  rw [missing_nil] at hpending
  have hdue : due = [] := List.eq_nil_of_length_eq_zero hfilled.length_eq.symm
  refine ⟨hdue, ?_, ?_, h.unset, fun _ => ⟨?_, Nat.zero_le _⟩, h.inline⟩
  · show Filled r.slots []
    rw [hslots]
    exact List.Forall₂.nil
  · show r.pending.Perm (missing 0 r.slots [])
    rw [hslots, missing_nil]
    exact hpending
  · show 0 = 0 + r.slots.length
    rw [hslots]
    rfl

theorem Serves.work {pool pool' : Pool ρ} (h : r.Serves due) (hpool : r.pool = some pool)
    (hmove : pool'.pending.Perm pool.pending ∧ pool'.Unset) :
    Serves { r with pool := some pool' } due := by
  refine ⟨h.filled, ?_, ?_, h.counters, fun hinline => ?_⟩
  · have hpending := h.pending
    rw [FrameRunner.pending, hpool] at hpending
    exact hmove.1.trans hpending
  · intro p hsome
    rw [← Option.some.inj hsome]
    exact hmove.2
  · rw [h.inline hinline] at hpool
    cases hpool

end FrameRunner

namespace RunnerState

variable {threads : Nat} {s s' : RunnerState ρ} {σ : Serial ρ} {due : List ρ}

/-- A runner serves what the one-thread runner, started over at every reset, has made due and was
not collected. -/
structure Follows (threads : Nat) (s : RunnerState ρ) (σ : Serial ρ) (due : List ρ) :
    Prop where
  serves : s.runner.Serves due
  collected : s.collected ++ due = σ.results
  cancelled : s.runner.cancelled = σ.cancelled
  index : σ.index = if s.phase = .resetting then 0 else s.runner.nextDispatch
  threads : s.runner.threads = max threads 1

/-- The condition under which some events follow the one-thread runner. -/
def Heeds (threads : Nat) (σ : Serial ρ) (events : List (RunnerEvent ρ)) : Prop :=
  threads ≤ 1 ∨ Unaffected σ.index σ.cancelled events ∧ Countable σ.index events

theorem follows_start (threads : Nat) :
    Follows threads (start threads : RunnerState ρ) ⟨0, false, []⟩ [] where
  serves := FrameRunner.serves_new threads
  collected := rfl
  cancelled := rfl
  index := rfl
  threads := rfl

theorem Follows.collect {r' : FrameRunner ρ} {next : Option ρ} {rest : List ρ} {phase : Phase}
    (h : Follows threads s σ due) (hdue : due = next.toList ++ rest) (hserves : r'.Serves rest)
    (hkeeps : s.runner.Keeps r') (hphase : phase = .resetting ↔ s.phase = .resetting) :
    Follows threads ⟨r', phase, s.collected ++ next.toList⟩ σ rest where
  serves := hserves
  collected := by rw [List.append_assoc, ← hdue, h.collected]
  cancelled := hkeeps.cancelled.trans h.cancelled
  index := by
    rw [h.index]
    dsimp only
    rw [hkeeps.nextDispatch]
    exact if_congr hphase.symm rfl rfl
  threads := hkeeps.threads.trans h.threads

/-- A dispatch follows the one-thread runner where its task does not look at the flag. -/
theorem Follows.dispatch {task : FrameTask ρ} (h : Follows threads s σ due) (hidle : s.phase = .idle)
    (hheeds : Heeds threads σ [.dispatch task]) :
    ∃ due', Follows threads { s with runner := s.runner.dispatch task } (σ.step (.dispatch task))
      due' := by
  have hthreads := h.threads
  have hindex := h.index
  rw [hidle, if_neg (by simp)] at hindex
  have hresult : task ⟨s.runner.nextDispatch, if 1 < s.runner.threads then false
      else s.runner.cancelled⟩ = task ⟨σ.index, σ.cancelled⟩ := by
    rw [h.cancelled, ← hindex]
    by_cases hpool : 1 < s.runner.threads
    · rw [if_pos hpool]
      rcases hheeds with hone | ⟨⟨hunaffected, -⟩, -⟩
      · omega
      · cases hcancelled : σ.cancelled with
        | false => rfl
        | true => exact (hunaffected hcancelled).symm
    · rw [if_neg hpool]
  have hserves := h.serves.dispatch task fun hpool => by
    rcases hheeds with hone | ⟨-, hcount, -⟩
    · omega
    · rw [← hindex]
      exact hcount
  refine ⟨_, hserves, ?_, ?_, ?_, ?_⟩
  · rw [← List.append_assoc, h.collected, hresult]
    rfl
  · unfold FrameRunner.dispatch
    split
    · exact h.cancelled
    · exact h.cancelled
  · show satAddU64 σ.index 1 = _
    rw [hidle, if_neg (by simp), hindex]
    unfold FrameRunner.dispatch
    split
    · rfl
    · rfl
  · unfold FrameRunner.dispatch
    split
    · exact hthreads
    · exact hthreads

/-- Every move of the caller and the workers follows the one-thread runner. -/
theorem Follows.act {move : RunnerMove ρ} (h : Follows threads s σ due)
    (hheeds : Heeds threads σ move.event.toList) (hact : s.act move = some s') :
    ∃ due', Follows threads s' (move.event.toList.foldl Serial.step σ) due' := by
  cases move with
  | dispatch task =>
      rw [RunnerState.act, Option.ite_none_right_eq_some, Option.some.injEq] at hact
      rcases hact with ⟨hidle, rfl⟩
      exact h.dispatch hidle hheeds
  | collect =>
      rw [RunnerState.act, Option.ite_none_right_eq_some, Option.some.injEq] at hact
      rcases hact with ⟨hidle, rfl⟩
      refine ⟨due, h.serves, h.collected, h.cancelled, h.index.trans (if_congr ?_ rfl rfl),
        h.threads⟩
      rw [hidle]
      dsimp only
      split
      · exact Iff.rfl
      · exact ⟨(fun habsurd => by cases habsurd), fun habsurd => by cases habsurd⟩
  | tryCollect =>
      rw [RunnerState.act, Option.ite_none_right_eq_some, Option.some.injEq] at hact
      rcases hact with ⟨hidle, rfl⟩
      rcases h.serves.tryCollect with ⟨rest, hdue, hserves⟩
      exact ⟨rest, h.collect hdue hserves (FrameRunner.tryCollect_keeps _) Iff.rfl⟩
  | reset =>
      rw [RunnerState.act, Option.ite_none_right_eq_some, Option.some.injEq] at hact
      rcases hact with ⟨hidle, rfl⟩
      exact ⟨due, h.serves, h.collected, h.cancelled, rfl, h.threads⟩
  | round =>
      rw [RunnerState.act, RunnerState.round] at hact
      cases hphase : s.phase with
      | idle =>
          rw [hphase] at hact
          cases hact
      | collecting =>
          rw [hphase, Option.map_eq_some_iff] at hact
          rcases hact with ⟨⟨r', next⟩, hround, rfl⟩
          rcases h.serves.round hround with ⟨rest, hdue, hserves⟩
          refine ⟨rest, h.collect hdue hserves (FrameRunner.round_keeps hround) ?_⟩
          rw [hphase]
          cases next with
          | none => exact Iff.rfl
          | some result => exact ⟨(fun habsurd => by cases habsurd), fun habsurd => by cases habsurd⟩
      | resetting =>
          rw [hphase] at hact
          dsimp only at hact
          by_cases hslots : s.runner.slots = []
          · rw [if_pos hslots, Option.some.injEq] at hact
            rw [← hact]
            rcases h.serves.restart hslots with ⟨rfl, hserves⟩
            refine ⟨[], hserves, h.collected, h.cancelled, ?_, h.threads⟩
            have hindex := h.index
            rw [hphase, if_pos rfl] at hindex
            exact hindex
          · rw [if_neg hslots, Option.map_eq_some_iff] at hact
            rcases hact with ⟨⟨r', next⟩, hround, rfl⟩
            rcases h.serves.round hround with ⟨rest, hdue, hserves⟩
            refine ⟨rest, h.collect hdue hserves (FrameRunner.round_keeps hround) ?_⟩
            rw [hphase]
  | cancel =>
      rw [RunnerState.act, Option.some.injEq] at hact
      rw [← hact]
      exact ⟨due, ⟨h.serves.filled, h.serves.pending, h.serves.unset, h.serves.counters,
        h.serves.inline⟩, h.collected, rfl, h.index, h.threads⟩
  | take worker =>
      rw [RunnerState.act, work, Option.map_eq_some_iff] at hact
      rcases hact with ⟨pool', hmove, rfl⟩
      rw [Option.bind_eq_some_iff] at hmove
      rcases hmove with ⟨pool, hpool, htake⟩
      exact ⟨due, h.serves.work hpool (Pool.take_pending (h.serves.unset pool hpool) htake),
        h.collected, h.cancelled, h.index, h.threads⟩
  | finish worker =>
      rw [RunnerState.act, work, Option.map_eq_some_iff] at hact
      rcases hact with ⟨pool', hmove, rfl⟩
      rw [Option.bind_eq_some_iff] at hmove
      rcases hmove with ⟨pool, hpool, hfinish⟩
      exact ⟨due, h.serves.work hpool (Pool.finish_pending (h.serves.unset pool hpool) hfinish),
        h.collected, h.cancelled, h.index, h.threads⟩

theorem Heeds.cons {event : RunnerEvent ρ} {events : List (RunnerEvent ρ)}
    (h : Heeds threads σ (event :: events)) :
    Heeds threads σ [event] ∧ Heeds threads (σ.step event) events := by
  rcases h with hone | ⟨hunaffected, hcount⟩
  · exact ⟨Or.inl hone, Or.inl hone⟩
  · cases event with
    | dispatch task =>
        refine ⟨Or.inr ⟨⟨hunaffected.1, trivial⟩, hcount.1, trivial⟩,
          Or.inr ⟨hunaffected.2, ?_⟩⟩
        rw [Serial.step, satAddU64_of_le hcount.1]
        exact hcount.2
    | cancel => exact ⟨Or.inr ⟨trivial, trivial⟩, Or.inr ⟨hunaffected, hcount⟩⟩
    | reset => exact ⟨Or.inr ⟨trivial, trivial⟩, Or.inr ⟨hunaffected, hcount⟩⟩

/-- A run follows the one-thread runner. -/
theorem Follows.run {moves : List (RunnerMove ρ)} (h : Follows threads s σ due)
    (hheeds : Heeds threads σ (moves.filterMap RunnerMove.event))
    (hrun : s.run moves = some s') :
    ∃ due', Follows threads s' ((moves.filterMap RunnerMove.event).foldl Serial.step σ) due' := by
  induction moves generalizing s σ due with
  | nil =>
      rw [RunnerState.run, List.foldlM_nil, Option.pure_def, Option.some.injEq] at hrun
      rw [← hrun]
      exact ⟨due, h⟩
  | cons move moves ih =>
      rw [RunnerState.run, List.foldlM_cons, Option.bind_eq_bind, Option.bind_eq_some_iff] at hrun
      rcases hrun with ⟨t, hact, hrest⟩
      cases hevent : move.event with
      | none =>
          rw [List.filterMap_cons_none hevent] at hheeds ⊢
          have hfirst : Heeds threads σ move.event.toList := by
            rw [hevent]
            exact hheeds.imp_right fun _ => ⟨trivial, trivial⟩
          rcases h.act hfirst hact with ⟨due', ht⟩
          rw [hevent] at ht
          exact ih ht hheeds hrest
      | some event =>
          rw [List.filterMap_cons_some hevent] at hheeds ⊢
          rcases hheeds.cons with ⟨hfirst, hothers⟩
          rw [show [event] = move.event.toList by rw [hevent]; rfl] at hfirst
          rcases h.act hfirst hact with ⟨due', ht⟩
          rw [hevent] at ht
          exact ih ht hothers hrest

/-! ## One task after the other -/

/-- The moves that perform an event, one worker running each task to its collection. -/
def lockstep : RunnerEvent ρ → List (RunnerMove ρ)
  | .dispatch task => [.dispatch task, .take 0, .finish 0, .collect, .round, .round]
  | .cancel => [.cancel]
  | .reset => [.reset, .round]

/-- Between two events nothing is in flight. -/
structure AtRest (s : RunnerState ρ) (workers index : Nat) (collected : List ρ) : Prop where
  threads : s.runner.threads = workers + 2
  dispatched : s.runner.nextDispatch = index
  taken : s.runner.nextCollect = index
  slots : s.runner.slots = []
  pool : s.runner.poolMut = Pool.spawn (workers + 2)
  phase : s.phase = .idle
  collected : s.collected = collected

/-- The results of workers whose flags are not set. -/
def unawareResults : Nat → List (RunnerEvent ρ) → List ρ
  | _, [] => []
  | index, .dispatch task :: events =>
      task ⟨index, false⟩ :: unawareResults (satAddU64 index 1) events
  | index, .cancel :: events => unawareResults index events
  | _, .reset :: events => unawareResults 0 events

theorem run_cons {t : RunnerState ρ} {move : RunnerMove ρ} (h : s.act move = some t)
    (moves : List (RunnerMove ρ)) : s.run (move :: moves) = t.run moves := by
  rw [run, List.foldlM_cons, h]
  rfl

/-- A task that is run to its collection on its own. -/
theorem AtRest.dispatch {workers index : Nat} {collected : List ρ}
    (h : AtRest s workers index collected) (task : FrameTask ρ) :
    ∃ s', s.run (lockstep (.dispatch task)) = some s' ∧
      AtRest s' workers (satAddU64 index 1) (collected ++ [task ⟨index, false⟩]) := by
  rcases s with ⟨⟨threads, cancelled, nextDispatch, n, slots, pool⟩, phase, taken⟩
  rcases h with ⟨hthreads, hdispatched, htaken, hslots, hpool, hphase, hcollected⟩
  dsimp only at hthreads hdispatched htaken hslots hphase hcollected
  subst hthreads hdispatched htaken hslots hphase hcollected
  have hdispatch : act ⟨⟨workers + 2, cancelled, n, n, [], pool⟩, .idle, taken⟩
      (.dispatch task) =
      some ⟨⟨workers + 2, cancelled, satAddU64 n 1, n, [none],
        some ⟨[(n, task)], ⟨false, none⟩ :: List.replicate (workers + 1) ⟨false, none⟩, []⟩⟩,
        .idle, taken⟩ := by
    rw [act, if_pos rfl, FrameRunner.dispatch, if_pos (by dsimp only; omega), hpool]
    rfl
  have hstore : store n [none] (n, task ⟨n, false⟩) =
      [some (task ⟨n, false⟩)] := by
    rw [store, if_pos le_rfl, Nat.sub_self]
    rfl
  have hrecv : act ⟨⟨workers + 2, cancelled, satAddU64 n 1, n, [none],
        some ⟨[], ⟨false, none⟩ :: List.replicate (workers + 1) ⟨false, none⟩,
          [(n, task ⟨n, false⟩)]⟩⟩, .collecting, taken⟩ .round =
      some ⟨⟨workers + 2, cancelled, satAddU64 n 1, n, [some (task ⟨n, false⟩)],
        some ⟨[], ⟨false, none⟩ :: List.replicate (workers + 1) ⟨false, none⟩, []⟩⟩, .collecting,
        taken ++ []⟩ := by
    rw [← hstore]
    rfl
  refine ⟨⟨⟨workers + 2, cancelled, satAddU64 n 1, satAddU64 n 1, [],
    some ⟨[], ⟨false, none⟩ :: List.replicate (workers + 1) ⟨false, none⟩, []⟩⟩, .idle,
    taken ++ [] ++ [task ⟨n, false⟩]⟩, ?_,
    ⟨rfl, rfl, rfl, rfl, rfl, rfl, by rw [List.append_nil]⟩⟩
  rw [lockstep, run_cons hdispatch, run_cons rfl, run_cons rfl, run_cons rfl]
  refine (run_cons hrecv _).trans ?_
  rfl

theorem AtRest.cancel {workers index : Nat} {collected : List ρ}
    (h : AtRest s workers index collected) :
    ∃ s', s.run (lockstep .cancel) = some s' ∧ AtRest s' workers index collected :=
  ⟨_, rfl, h.threads, h.dispatched, h.taken, h.slots, h.pool, h.phase, h.collected⟩

theorem AtRest.reset {workers index : Nat} {collected : List ρ}
    (h : AtRest s workers index collected) :
    ∃ s', s.run (lockstep .reset) = some s' ∧ AtRest s' workers 0 collected := by
  have hreset : s.act .reset = some { s with phase := .resetting } := by
    rw [act, if_pos h.phase]
  have hround : act { s with phase := .resetting } .round =
      some { s with runner := s.runner.restart, phase := .idle } := by
    show (if s.runner.slots = [] then _ else _) = _
    rw [if_pos h.slots]
  refine ⟨{ s with runner := s.runner.restart, phase := .idle }, ?_, h.threads, rfl, rfl,
    h.slots, h.pool, rfl, h.collected⟩
  rw [lockstep, run_cons hreset, run_cons hround]
  rfl

theorem run_append {t : RunnerState ρ} {first : List (RunnerMove ρ)} (h : s.run first = some t)
    (second : List (RunnerMove ρ)) : s.run (first ++ second) = t.run second := by
  rw [run, List.foldlM_append]
  rw [run] at h
  rw [h]
  rfl

/-- Every event can be performed on its own. -/
theorem AtRest.run {workers index : Nat} {collected : List ρ}
    (h : AtRest s workers index collected) (events : List (RunnerEvent ρ)) :
    ∃ s', s.run (events.flatMap lockstep) = some s' ∧
      s'.collected = collected ++ unawareResults index events := by
  induction events generalizing s index collected with
  | nil => exact ⟨s, rfl, h.collected.trans (List.append_nil collected).symm⟩
  | cons event events ih =>
      rw [List.flatMap_cons]
      cases event with
      | dispatch task =>
          rcases h.dispatch task with ⟨t, hrun, ht⟩
          rcases ih ht with ⟨s', hrest, hcollected⟩
          refine ⟨s', (run_append hrun _).trans hrest, ?_⟩
          rw [hcollected, List.append_assoc, List.singleton_append, unawareResults]
      | cancel =>
          rcases h.cancel with ⟨t, hrun, ht⟩
          rcases ih ht with ⟨s', hrest, hcollected⟩
          exact ⟨s', (run_append hrun _).trans hrest, hcollected⟩
      | reset =>
          rcases h.reset with ⟨t, hrun, ht⟩
          rcases ih ht with ⟨s', hrest, hcollected⟩
          exact ⟨s', (run_append hrun _).trans hrest, hcollected⟩

theorem events_lockstep (events : List (RunnerEvent ρ)) :
    (events.flatMap lockstep).filterMap RunnerMove.event = events := by
  induction events with
  | nil => rfl
  | cons event events ih =>
      rw [List.flatMap_cons, List.filterMap_append, ih]
      cases event with
      | dispatch task => rfl
      | cancel => rfl
      | reset => rfl

/-- The one-thread runner adds the results of the events to those it has. -/
theorem results_foldl (events : List (RunnerEvent ρ)) (σ : Serial ρ) :
    ∃ results, (events.foldl Serial.step σ).results = σ.results ++ results ∧
      results.length = (unawareResults σ.index events).length ∧
      (results = unawareResults σ.index events → Unaffected σ.index σ.cancelled events) := by
  induction events generalizing σ with
  | nil => exact ⟨[], (List.append_nil _).symm, rfl, fun _ => trivial⟩
  | cons event events ih =>
      rcases ih (σ.step event) with ⟨results, hresults, hlength, himplies⟩
      cases event with
      | dispatch task =>
          refine ⟨task ⟨σ.index, σ.cancelled⟩ :: results, ?_, ?_, ?_⟩
          · rw [List.foldl_cons, hresults, Serial.step, List.append_assoc, List.singleton_append]
          · rw [unawareResults, List.length_cons, List.length_cons, hlength]
            rfl
          · intro hsame
            rw [unawareResults, List.cons.injEq] at hsame
            refine ⟨fun hcancelled => ?_, himplies hsame.2⟩
            rw [hcancelled] at hsame
            exact hsame.1
      | cancel => exact ⟨results, hresults, hlength, himplies⟩
      | reset => exact ⟨results, hresults, hlength, himplies⟩

end RunnerState

/-- The results are those on one thread where one thread runs the tasks, or where no task that is
dispatched after a cancellation looks at the flag; of tasks that can be counted, only then. -/
theorem independent_iff (threads : Nat) (events : List (RunnerEvent ρ)) :
    (threads ≤ 1 ∨ Unaffected 0 false events ∧ Countable 0 events →
      Independent threads events) ∧
    (Independent threads events → threads ≤ 1 ∨ Unaffected 0 false events) := by
  refine ⟨fun hheeds moves s hrun hevents => ?_, fun hindependent => ?_⟩
  · rw [← hevents] at hheeds ⊢
    rcases (RunnerState.follows_start threads).run hheeds hrun with ⟨due, hfollows⟩
    exact ⟨due, hfollows.collected⟩
  · rcases Nat.lt_or_ge 1 threads with hpool | hone
    · refine Or.inr ?_
      have hmax : max threads 1 = threads - 2 + 2 := by omega
      have hrest : RunnerState.AtRest (RunnerState.start threads : RunnerState ρ) (threads - 2) 0
          [] :=
        ⟨hmax, rfl, rfl, rfl, congrArg Pool.spawn hmax, rfl, rfl⟩
      rcases hrest.run events with ⟨s, hrun, hcollected⟩
      have hsubset := hindependent _ s hrun (RunnerState.events_lockstep events)
      rcases RunnerState.results_foldl events ⟨0, false, []⟩ with
        ⟨results, hresults, hlength, himplies⟩
      rw [serialResults, hresults, hcollected] at hsubset
      exact himplies (hsubset.eq_of_length hlength.symm).symm
    · exact Or.inl hone

/-- A task that gives up when it is cancelled. -/
def checkingTask : FrameTask Bool :=
  fun ctx => ctx.cancelled

/-- After a cancellation, two threads run a task that one thread does not. -/
theorem not_independent_cancelled :
    ¬ Independent 2 [.cancel, .dispatch checkingTask] := by
  intro h
  have hsubset := h [.cancel, .dispatch checkingTask, .take 0, .finish 0, .collect, .round, .round]
    _ rfl rfl
  revert hsubset
  decide

end Codec
end Vaco
