import Vaco.Sched.Driver
import Vaco.Sched.Spec

/-!
# What every move keeps

Each small move on a pipeline changes the wires by moves of the wires, keeps the shape
of the nodes and keeps each component fitted to the ports of its node.  The books of the
budget therefore balance in every state that calls can lead to.

Main results:

- `Pipeline.ledger_of_reachable`: the books balance after any calls.
- `Pipeline.Moves.wired`: a pipeline stays wired as it was built.
-/

namespace Vaco
namespace Sched

open Library Vaco.Core

variable {K : Components}

namespace Pipeline

variable {good : Pipeline K → Done K → Prop} {p p' : Pipeline K} {s s' : Flight K}

/-! ## Moves and the wires -/

/-- The pipeline with the component of a finished job back in its place. -/
def withDone (p : Pipeline K) (done : Done K) : Pipeline K :=
  { (p.setWork done.node (some done.work)).stamp done.node with
    cancel := p.cancel || done.error.isSome }

theorem checkIn_eq (p : Pipeline K) (done : Done K) :
    (p.withDone done).MovesWires (p.checkIn done).1 := by
  unfold checkIn withDone
  rcases done.error with _ | e
  · simp only [Option.isSome_none, Bool.or_false]
    have hemit := emitAll_moves done.node done.out
      ((p.setWork done.node (some done.work)).stamp done.node)
    split
    · rename_i h
      rwa [h] at hemit
    · rename_i p₁ h
      rw [h] at hemit
      have hclosed := hemit.trans (p₁.closePorts_moves done.node done.close)
      split
      · exact hclosed.trans (abandonInputs_moves _ done.node)
      · exact hclosed
  · simpa using MovesWires.refl _

/-- Every move changes the wires by moves of the wires. -/
theorem Move.wireMoves (h : Move good s s') : WireMoves s.1.pool s'.1.pool := by
  cases h with
  | wires h =>
      rcases h with ⟨t, rfl, ht⟩
      exact ht
  | @retire p jobs work m i hwork hm hdone hwires =>
      rcases abandonInputs_moves (p.setWork i (some .abandoned)) i with ⟨t, ht, hmoves⟩
      rw [ht]
      exact hmoves
  | @stop p jobs d i hwork =>
      rcases closePorts_moves (p.setWork i (some (.demux d.stop.1))) i d.stop.2 with ⟨t, ht, hmoves⟩
      rw [ht]
      exact hmoves
  | @detach p p' jobs job i h =>
      unfold Pipeline.detach at h
      split at h
      · cases h
      · simp only at h
        split at h
        · cases h
        · cases h
          exact takeInputs_moves _ 0 _ _
  | @miss p p' jobs i h =>
      unfold Pipeline.detach at h
      split at h
      · cases h
        exact .refl
      · simp only at h
        split at h
        · cases h
          exact .refl
        · cases h
  | @commit p job jobs _ =>
      rcases checkIn_eq p job.run with ⟨t, ht, hmoves⟩
      rw [ht]
      exact hmoves
  | account => exact .refl
  | drop => exact .refl
  | cancel => exact .refl
  | stopReading => exact .refl

theorem Moves.wireMoves (h : Moves good s s') : WireMoves s.1.pool s'.1.pool := by
  induction h with
  | refl => exact .refl
  | tail _ hmove ih => exact Relation.ReflTransGen.trans ih hmove.wireMoves

theorem Fresh.ledger (h : p.Fresh) : Ledger p.pool := by
  rcases h.budget_new with ⟨limits, hb⟩
  have hzero : ∀ ws : List Wire, (∀ w ∈ ws, ∃ flow cap timeBase, w = Wire.new flow cap timeBase) →
      (ws.map Wire.bytes).sum = 0 := by
    intro ws hws
    refine List.sum_eq_zero fun n hn => ?_
    rcases List.mem_map.1 hn with ⟨w, hw, rfl⟩
    rcases hws w hw with ⟨_, _, _, rfl⟩
    rfl
  refine ⟨fun w hw => ?_, ?_, ?_, ?_⟩
  · rcases h.wires_new w hw with ⟨flow, cap, timeBase, rfl⟩
    exact Wire.valid_new flow cap timeBase
  · simp only [pool, hb, hzero _ h.wires_new]
    rfl
  · simp only [pool, hb]
    rfl
  · simp only [pool, hb]
    exact Nat.zero_le _

/-- The books balance after any calls. -/
theorem ledger_of_reachable (hfresh : p.Fresh) (h : Reachable p p') : Ledger p'.pool :=
  WireMoves.ledger (Moves.wireMoves h.moves) hfresh.ledger

/-! ## Moves and the shape of the pipeline -/

/-- What no move changes about a node. -/
structure Shape where
  priority : Nat
  inputs : List Nat
  outputs : List (List Nat)
deriving DecidableEq

/-- The shape of a node. -/
def shape (m : NodeMeta) : Shape where
  priority := m.priority
  inputs := m.inputs.map InPort.wire
  outputs := m.outputs

theorem takeInputs_wires (work : Work K) (port : Nat) (slots : List InPort) (t : Pool) :
    (takeInputs work port slots t).slots.map InPort.wire = slots.map InPort.wire := by
  induction slots generalizing port t with
  | nil => rfl
  | cons slot rest ih =>
      rcases t with ⟨ws, b⟩
      unfold takeInputs
      split
      · simp [ih]
      · simp only
        split <;> simp [ih]

theorem map_shape_set {ns : List NodeMeta} {m m' : NodeMeta} {i : Nat} (hm : ns[i]? = some m)
    (hshape : shape m' = shape m) : (ns.set i m').map shape = ns.map shape := by
  rcases List.getElem?_eq_some_iff.1 hm with ⟨hlt, rfl⟩
  apply List.ext_getElem?
  intro j
  by_cases hij : i = j
  · subst hij
    simp [hlt, hshape]
  · simp [hij]

theorem detach_eq_some {i : Nat} {job : Job K} (h : p.detach i = (p', some job)) :
    ∃ m, p.nodes[i]? = some m ∧ p.workAt i = some job.work ∧
      p' = { (p.setWork i none).withPool (takeInputs job.work 0 m.inputs p.pool).pool with
        nodes := p.nodes.set i
          { m with inputs := (takeInputs job.work 0 m.inputs p.pool).slots } } ∧
      job.node = i ∧ job.inputs = (takeInputs job.work 0 m.inputs p.pool).inputs ∧
      job.ended = (takeInputs job.work 0 m.inputs p.pool).ended ∧
      job.allEnded = (!(takeInputs job.work 0 m.inputs p.pool).slots.isEmpty &&
        (takeInputs job.work 0 m.inputs p.pool).slots.all (·.eofDelivered)) := by
  unfold detach at h
  split at h
  · cases h
  · rename_i work hwork
    simp only at h
    split at h
    · cases h
    · rename_i m hm
      cases h
      exact ⟨m, hm, hwork, rfl, rfl, rfl, rfl, rfl⟩

theorem detach_eq_none {i : Nat} (h : p.detach i = (p', none)) :
    p' = p ∨ p' = p.setWork i none := by
  unfold detach at h
  split at h
  · cases h
    exact .inl rfl
  · simp only at h
    split at h
    · cases h
      exact .inr rfl
    · cases h

@[simp]
theorem length_setWork (p : Pipeline K) (i : Nat) (w : Option (Work K)) :
    (p.setWork i w).work.length = p.work.length := by
  simp [setWork]

theorem workAt_setWork (p : Pipeline K) (i j : Nat) (w : Option (Work K)) :
    (p.setWork i w).workAt j = if i = j ∧ i < p.work.length then w else p.workAt j := by
  simp only [setWork, workAt, List.getElem?_set]
  by_cases hij : i = j
  · subst hij
    by_cases hlt : i < p.work.length
    · simp [hlt]
    · simp [hlt]
  · simp [hij]

theorem workAt_setWork_cases {i j : Nat} {w : Option (Work K)} {work : Work K}
    (h : (p.setWork i w).workAt j = some work) :
    (i = j ∧ w = some work) ∨ p.workAt j = some work := by
  rw [workAt_setWork] at h
  split at h
  · rename_i hij
    exact .inl ⟨hij.1, h⟩
  · exact .inr h

theorem shape_stamp (p : Pipeline K) (node : Nat) :
    (p.stamp node).nodes.map shape = p.nodes.map shape := by
  apply PipelineSpec.map_modify_same
  exact fun _ => rfl

/-! ## Components keep fitting -/

/-- Every node has a component that fits its ports, those in flight included. -/
structure FlightWired (s : Flight K) : Prop where
  wired : s.1.Wired
  jobs : ∀ job ∈ s.2, ∀ m, s.1.nodes[job.node]? = some m →
    job.work.Fits m.inputs.length m.outputs.length

theorem length_of_shape {m m' : NodeMeta} (h : shape m' = shape m) :
    m'.inputs.length = m.inputs.length ∧ m'.outputs.length = m.outputs.length := by
  have hin := congrArg (fun x => x.inputs.length) h
  have hout := congrArg (fun x => x.outputs.length) h
  simp only [shape, List.length_map] at hin hout
  exact ⟨hin, hout⟩

theorem exists_of_shape {ns ns' : List NodeMeta} {i : Nat} {m' : NodeMeta}
    (h : ns'.map shape = ns.map shape) (hm' : ns'[i]? = some m') :
    ∃ m, ns[i]? = some m ∧ shape m' = shape m := by
  have hget : (ns'.map shape)[i]? = some (shape m') := by simp [hm']
  rw [h, List.getElem?_map] at hget
  rcases hm : ns[i]? with _ | m
  · simp [hm] at hget
  · simp only [hm, Option.map_some, Option.some.injEq] at hget
    exact ⟨m, rfl, hget.symm⟩

/-- A pipeline stays wired when the shapes stay and every new component fits. -/
theorem FlightWired.mono (h : FlightWired s) (hshape : s'.1.nodes.map shape = s.1.nodes.map shape)
    (hwires : s'.1.wires.length = s.1.wires.length)
    (hlength : s'.1.work.length = s.1.work.length)
    (hwork : ∀ (i : Nat) (work : Work K), s'.1.workAt i = some work → s.1.workAt i = some work ∨
      ∀ m, s.1.nodes[i]? = some m → work.Fits m.inputs.length m.outputs.length)
    (hjobs : ∀ job ∈ s'.2, job ∈ s.2 ∨
      ∀ m, s.1.nodes[job.node]? = some m → job.work.Fits m.inputs.length m.outputs.length) :
    FlightWired s' := by
  have hnodes : s'.1.nodes.length = s.1.nodes.length := by
    simpa using congrArg List.length hshape
  refine ⟨⟨?_, ?_, ?_⟩, ?_⟩
  · rw [hlength, hnodes, h.wired.length_eq]
  · have hinputs : (s'.1.nodes.map NodeMeta.inputs).map (·.map InPort.wire) =
        (s.1.nodes.map NodeMeta.inputs).map (·.map InPort.wire) := by
      have := congrArg (List.map Shape.inputs) hshape
      simpa [List.map_map, Function.comp_def, shape] using this
    rw [List.map_flatten, hinputs, ← List.map_flatten, h.wired.inputs_eq, hwires]
  · intro i m' work hm' hi
    rcases exists_of_shape hshape hm' with ⟨m, hm, heq⟩
    rcases length_of_shape heq with ⟨hin, hout⟩
    rw [hin, hout]
    rcases hwork i work hi with hold | hnew
    · exact h.wired.fits i m work hm hold
    · exact hnew m hm
  · intro job hjob m' hm'
    rcases exists_of_shape hshape hm' with ⟨m, hm, heq⟩
    rcases length_of_shape heq with ⟨hin, hout⟩
    rw [hin, hout]
    rcases hjobs job hjob with hold | hnew
    · exact h.jobs job hold m hm
    · exact hnew m hm

end Pipeline

theorem Work.Fits.advance {work : Work K} {a b : Nat} (h : work.Fits a b) (inputs : Items)
    (ended : Ends) (allEnded : Bool) : (work.advance inputs ended allEnded).1.Fits a b := by
  cases work with
  | abandoned | limit | demux | decode | encode | convert | convertAudio => exact h
  | filter f =>
      have hports := f.advance_ports inputs ended
      have hsinks := congrArg List.length hports.sinks.symm
      exact ⟨h.1.trans (congrArg List.length hports.sources.symm), h.2.1.trans hsinks,
        hports.closed.trans (h.2.2.trans hsinks)⟩
  | mux m =>
      have hstreams := m.advance_streamIndex inputs ended allEnded
      exact Eq.trans h (congrArg List.length hstreams.symm)

theorem Job.run_fits {job : Job K} {a b : Nat} (h : job.work.Fits a b) :
    job.run.work.Fits a b := by
  have hadvance := h.advance job.inputs job.ended job.allEnded
  unfold Job.run
  split
  · rename_i heq
    rwa [heq] at hadvance
  · rename_i heq
    rwa [heq] at hadvance

namespace Pipeline

variable {good : Pipeline K → Done K → Prop} {p p' : Pipeline K} {s s' : Flight K}

theorem length_of_wireMoves {t t' : Pool} (h : WireMoves t t') : t'.1.length = t.1.length :=
  (List.Forall₂.length_eq (WireMoves.evolves h)).symm

/-- Every move keeps the pipeline wired. -/
theorem Move.wired (hmove : Move good s s') (h : FlightWired s) : FlightWired s' := by
  have hwires := length_of_wireMoves hmove.wireMoves
  cases hmove with
  | wires hmoves =>
      rcases hmoves with ⟨t, rfl, _⟩
      exact h.mono rfl hwires rfl (fun _ _ hi => .inl hi) fun _ hjob => .inl hjob
  | @retire p jobs work m i hwork hm hdone hids =>
      rcases abandonInputs_moves (p.setWork i (some .abandoned)) i with ⟨t, ht, _⟩
      rw [ht] at hwires ⊢
      refine h.mono rfl hwires (p.length_setWork i _) (fun j w hj => ?_) fun _ hjob => .inl hjob
      rcases workAt_setWork_cases hj with ⟨_, hw⟩ | hold
      · cases hw
        exact .inr fun _ _ => trivial
      · exact .inl hold
  | @stop p jobs d i hwork =>
      rcases closePorts_moves (p.setWork i (some (.demux d.stop.1))) i d.stop.2 with ⟨t, ht, _⟩
      rw [ht] at hwires ⊢
      refine h.mono rfl hwires (p.length_setWork i _) (fun j w hj => ?_) fun _ hjob => .inl hjob
      rcases workAt_setWork_cases hj with ⟨rfl, hw⟩ | hold
      · cases hw
        exact .inr fun m hm => h.wired.fits i m (.demux d) hm hwork
      · exact .inl hold
  | @detach p p' jobs job i hdetach =>
      rcases detach_eq_some hdetach with ⟨m, hm, hwork, rfl, rfl, _⟩
      refine h.mono ?_ hwires (p.length_setWork _ _) (fun j w hj => ?_) fun job' hjob => ?_
      · apply map_shape_set hm
        simp [shape, takeInputs_wires]
      · rcases workAt_setWork_cases hj with ⟨_, hw⟩ | hold
        · cases hw
        · exact .inl hold
      · rcases List.mem_append.1 hjob with hold | hnew
        · exact .inl hold
        · rw [List.mem_singleton.1 hnew]
          exact .inr fun m hm => h.wired.fits _ m _ hm hwork
  | @miss p p' jobs i hdetach =>
      rcases detach_eq_none hdetach with rfl | rfl
      · exact h
      · refine h.mono rfl hwires (p.length_setWork i _) (fun j w hj => ?_) fun _ hjob => .inl hjob
        rcases workAt_setWork_cases hj with ⟨_, hw⟩ | hold
        · cases hw
        · exact .inl hold
  | @commit p job jobs _ =>
      rcases checkIn_eq p job.run with ⟨t, ht, _⟩
      rw [ht] at hwires ⊢
      refine h.mono (shape_stamp _ _) hwires (p.length_setWork _ _) (fun j w hj => ?_)
        fun job' hjob => .inl (List.mem_cons_of_mem _ hjob)
      rcases workAt_setWork_cases hj with ⟨rfl, hw⟩ | hold
      · cases hw
        rw [Job.run_node]
        exact .inr fun m hm => Job.run_fits (h.jobs job (List.mem_cons_self ..) m hm)
      · exact .inl hold
  | account | cancel | stopReading =>
      exact h.mono rfl hwires rfl (fun _ _ hi => .inl hi) fun _ hjob => .inl hjob
  | drop => exact h.mono rfl hwires rfl (fun _ _ hi => .inl hi) fun _ hjob => nomatch hjob

/-! ## What a plan leaves alone -/

/-- What only a driver and the end of a step change. -/
def control (p : Pipeline K) : Bool × Bool × ProgressGuard × Nat :=
  (p.cancel, p.stopReading, p.guard, p.steps)

theorem MovesWires.control (h : p.MovesWires p') : p'.control = p.control := by
  rcases h with ⟨t, rfl, _⟩
  rfl

theorem control_retireAll (is : List Nat) (p : Pipeline K) (retired : Bool) :
    (retireAll is p retired).1.control = p.control := by
  induction is generalizing p retired with
  | nil => rfl
  | cons i rest ih =>
      have hone : (p.retireNode i).1.control = p.control := by
        unfold retireNode
        split
        · split
          · rfl
          · split
            · rfl
            · exact (abandonInputs_moves _ i).control
        · rfl
      exact (ih _ _).trans hone

theorem control_retireUnneeded (p : Pipeline K) : p.retireUnneeded.1.control = p.control := by
  induction p using retireUnneeded.induct with
  | case1 p p' h ih =>
      have hone := control_retireAll (List.range p.nodes.length).reverse p false
      rw [retireUnneeded, h]
      rw [h] at hone
      exact ih.trans hone
  | case2 p p' h =>
      have hone := control_retireAll (List.range p.nodes.length).reverse p false
      rw [retireUnneeded, h]
      rwa [h] at hone

theorem control_stopAll (is : List Nat) (p : Pipeline K) (any : Bool) :
    (stopAll is p any).1.control = p.control := by
  induction is generalizing p any with
  | nil => rfl
  | cons i rest ih =>
      have hone : (p.stopNode i).1.control = p.control := by
        unfold stopNode
        split
        · split
          · rfl
          · exact (closePorts_moves _ i _).control
        · rfl
      exact (ih _ _).trans hone

theorem control_beginStep (p : Pipeline K) : p.beginStep.1.control = p.control := by
  unfold beginStep
  simp only
  split
  · exact (control_stopAll _ _ _).trans (control_retireUnneeded p)
  · exact control_retireUnneeded p

theorem control_detachAll (is : List Nat) (p : Pipeline K) :
    (detachAll is p).1.control = p.control := by
  induction is generalizing p with
  | nil => rfl
  | cons i rest ih =>
      simp only [detachAll]
      split
      · rename_i p' h
        rcases detach_eq_none h with rfl | rfl
        · exact ih _
        · exact ih _
      · rename_i p' job h
        rcases detach_eq_some h with ⟨m, _, _, rfl, _⟩
        exact ih _

theorem control_checkOut (p : Pipeline K) (width : Nat) :
    (p.checkOut width).1.control = p.control := by
  unfold checkOut
  exact (control_detachAll _ _).trans (noteNodes_moves _ p).control

theorem control_plan (p : Pipeline K) (width : Nat) : (p.plan width).1.control = p.control :=
  (control_checkOut _ _).trans (control_beginStep p)

end Pipeline

end Sched
end Vaco
