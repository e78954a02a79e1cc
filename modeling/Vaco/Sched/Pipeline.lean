import Mathlib.Data.List.Sort
import Vaco.Sched.Node

/-!
# The pipeline

A pipeline owns the components of its nodes, the wires between them and the budget the
wires charge.  A step plans which nodes may run, runs them on what was taken from their
input wires and commits what they produced.

Main results:

- `Pipeline.retireAll_live`: a pass that retires a node leaves fewer live ones.

Current gaps:

- The counters that `stats` gathers on demand are left out.
-/

namespace Vaco
namespace Sched

open Library Vaco.Core

variable {K : Components}

/-! ## The no-progress guard -/

/-- Counts consecutive steps without progress. -/
structure ProgressGuard where
  stalls : Nat
  maxStalls : Nat
deriving DecidableEq

namespace ProgressGuard

/-- A guard with the default tolerance. -/
def new : ProgressGuard where
  stalls := 0
  maxStalls := 64

/-- Record one step. -/
def tick (g : ProgressGuard) (progressed : Bool) : ProgressGuard × Except LimitError Unit :=
  if progressed then
    ({ g with stalls := 0 }, .ok ())
  else
    let g := { g with stalls := min (g.stalls + 1) 4294967295 }
    if g.maxStalls < g.stalls then (g, .error (.noProgress g.stalls)) else (g, .ok ())

/-- Forget the steps without progress. -/
def reset (g : ProgressGuard) : ProgressGuard :=
  { g with stalls := 0 }

end ProgressGuard

/-! ## The state of a pipeline -/

/-- What one step did. -/
inductive Advance where
  | stepped
  | idle
deriving DecidableEq

/-- One node that could not make progress, and what it was waiting for. -/
structure StallReport where
  node : Nat
  label : String
  reason : String
  inputDepth : List Nat
  outputRoom : List Bool
deriving DecidableEq

/-- Why the pipeline stopped. -/
inductive Finish where
  | complete
  | cancelled
  | stalled (reports : List StallReport)
deriving DecidableEq

/-- Whether a run ended with every node finished. -/
def endsComplete : Except Error Finish → Bool
  | .ok .complete => true
  | _ => false

theorem eq_complete {r : Except Error Finish} (h : endsComplete r = true) :
    r = .ok .complete := by
  unfold endsComplete at h
  split at h
  · rfl
  · cases h

/-- An input port of a node. -/
structure InPort where
  wire : Nat
  timeBase : TimeBase
  eofDelivered : Bool
deriving DecidableEq

/-- What the pipeline keeps about a node beside its component. -/
structure NodeMeta where
  label : String
  priority : Nat
  inputs : List InPort
  outputs : List (List Nat)
  lastRun : Nat
deriving DecidableEq

/-- A built pipeline.  A component is missing while its node is checked out. -/
structure Pipeline (K : Components) where
  nodes : List NodeMeta
  work : List (Option (Work K))
  wires : List Wire
  budget : Budget
  cancel : Bool
  stopReading : Bool
  guard : ProgressGuard
  steps : Nat
  peakBytes : Nat

namespace Pipeline

/-- The component of a node that is not checked out. -/
def workAt (p : Pipeline K) (node : Nat) : Option (Work K) :=
  p.work[node]?.join

/-- The wires with their budget. -/
def pool (p : Pipeline K) : Pool :=
  (p.wires, p.budget)

/-- The pipeline over other wires. -/
def withPool (p : Pipeline K) (s : Pool) : Pipeline K :=
  { p with wires := s.1, budget := s.2 }

/-- Put a component in its place. -/
def setWork (p : Pipeline K) (node : Nat) (w : Option (Work K)) : Pipeline K :=
  { p with work := p.work.set node w }

/-- Whether every node has finished. -/
def isComplete (p : Pipeline K) : Bool :=
  p.work.all fun w => match w with
    | some work => work.isDone
    | none => false

/-! ## Wires of one node -/

/-- Push one item onto every wire of a port. -/
def pushAll (item : Payload) : List Nat → Pool → Pool × Except Error Unit
  | [], s => (s, .ok ())
  | id :: ids, (ws, b) =>
      match ws[id]? with
      | none => pushAll item ids (ws, b)
      | some w =>
          match w.push item b with
          | .error e => ((ws, b), .error e)
          | .ok (w', b') => pushAll item ids (ws.set id w', b')

/-- Push one item onto every wire fanning out of a port. -/
def emit (p : Pipeline K) (node port : Nat) (item : Payload) :
    Pipeline K × Except Error Unit :=
  match p.nodes[node]?.bind fun m => m.outputs[port]? with
  | none => (p, .ok ())
  | some ids =>
      let (s, r) := pushAll item ids p.pool
      (p.withPool s, r)

/-- Push the outputs of a job in turn. -/
def emitAll (node : Nat) : Items → Pipeline K → Pipeline K × Except Error Unit
  | [], p => (p, .ok ())
  | (port, item) :: rest, p =>
      match p.emit node port item with
      | (p, .error e) => (p, .error e)
      | (p, .ok ()) => emitAll node rest p

/-- Close one wire. -/
def closeWire (ts : Timestamp) (ws : List Wire) (id : Nat) : List Wire :=
  match ws[id]? with
  | none => ws
  | some w => ws.set id (w.close ts)

def closePorts (p : Pipeline K) (node : Nat) (close : Ends) : Pipeline K :=
  close.foldl (fun p (port, ts) =>
    match p.nodes[node]?.bind fun m => m.outputs[port]? with
    | none => p
    | some ids => { p with wires := ids.foldl (closeWire ts) p.wires }) p

/-- Abandon the wire of one input port. -/
def abandonWire (s : Pool) (input : InPort) : Pool :=
  match s.1[input.wire]? with
  | none => s
  | some w =>
      let (w', b') := w.abandon s.2
      (s.1.set input.wire w', b')

/-- Abandon every input wire of a node. -/
def abandonInputs (p : Pipeline K) (node : Nat) : Pipeline K :=
  match p.nodes[node]? with
  | none => p
  | some m => p.withPool (m.inputs.foldl abandonWire p.pool)

/-! ## Opening a step -/

def retireNode (p : Pipeline K) (i : Nat) : Pipeline K × Bool :=
  match p.workAt i, p.nodes[i]? with
  | some work, some m =>
      if work.isDone then
        (p, false)
      else if m.outputs.isEmpty ||
          !(m.outputs.flatten.all fun id => (p.wires[id]?.map Wire.abandoned).getD false) then
        (p, false)
      else
        ((p.setWork i (some .abandoned)).abandonInputs i, true)
  | _, _ => (p, false)

/-- Retire each of the listed nodes that nothing reads any more. -/
def retireAll : List Nat → Pipeline K → Bool → Pipeline K × Bool
  | [], p, retired => (p, retired)
  | i :: rest, p, retired =>
      let (p, did) := p.retireNode i
      retireAll rest p (retired || did)

/-- Whether a component is present and not finished. -/
def isLive : Option (Work K) → Bool
  | some work => !work.isDone
  | none => false

/-- Nodes that are present and not finished. -/
def live (p : Pipeline K) : Nat :=
  p.work.countP isLive

@[simp]
theorem abandonInputs_work (p : Pipeline K) (node : Nat) :
    (p.abandonInputs node).work = p.work := by
  unfold abandonInputs
  split <;> rfl

/-- Retiring a node takes it from the live ones. -/
theorem retireNode_live (p : Pipeline K) (i : Nat) :
    ((p.retireNode i).2 = true → (p.retireNode i).1.live < p.live) ∧
      ((p.retireNode i).2 = false → (p.retireNode i).1 = p) := by
  unfold retireNode
  split
  · rename_i work m hwork hm
    split
    · simp
    · rename_i hdone
      split
      · simp
      · refine ⟨fun _ => ?_, by simp⟩
        have hget : p.work[i]? = some (some work) := by
          simpa [workAt, Option.join_eq_some_iff] using hwork
        rcases List.getElem?_eq_some_iff.1 hget with ⟨hlt, hget⟩
        simp only [live, abandonInputs_work, setWork]
        rw [List.countP_set hlt]
        have hwas : isLive (some work) = true := by simpa [isLive] using hdone
        have hnow : isLive (some (Work.abandoned : Work K)) = false := rfl
        have hpos : 0 < p.work.countP isLive :=
          List.countP_pos_iff.2 ⟨some work, List.mem_of_getElem hget, hwas⟩
        rw [hget, hwas, hnow]
        simp only [if_true, Bool.false_eq_true, if_false]
        omega
  · simp

/-- A pass that retires something leaves fewer live nodes. -/
theorem retireAll_live (is : List Nat) (p : Pipeline K) (retired : Bool) :
    (retireAll is p retired).1.live ≤ p.live ∧
      ((retireAll is p retired).2 = true → retired = false →
        (retireAll is p retired).1.live < p.live) := by
  induction is generalizing p retired with
  | nil => simp [retireAll]
  | cons i rest ih =>
      simp only [retireAll]
      rcases hnode : p.retireNode i with ⟨p', did⟩
      have hlive := p.retireNode_live i
      rw [hnode] at hlive
      have hrest := ih p' (retired || did)
      cases did with
      | false =>
          have heq : p' = p := hlive.2 rfl
          subst heq
          simpa using hrest
      | true =>
          have hlt : p'.live < p.live := hlive.1 rfl
          simp only [Bool.or_true] at hrest ⊢
          exact ⟨by omega, fun _ _ => by omega⟩

theorem retireAll_decreases {is : List Nat} {p p' : Pipeline K}
    (h : retireAll is p false = (p', true)) : p'.live < p.live := by
  have hlive := (retireAll_live is p false).2
  rw [h] at hlive
  exact hlive rfl rfl

/-- Retire nodes until nothing more is retired.  Returns whether any node was. -/
def retireUnneeded (p : Pipeline K) : Pipeline K × Bool :=
  match _ : retireAll (List.range p.nodes.length).reverse p false with
  | (p', true) => (p'.retireUnneeded.1, true)
  | (p', false) => (p', false)
termination_by p.live
decreasing_by exact retireAll_decreases (by assumption)

/-- Stop one demuxer that has not finished. -/
def stopNode (p : Pipeline K) (i : Nat) : Pipeline K × Bool :=
  match p.workAt i with
  | some (.demux d) =>
      if d.finished then
        (p, false)
      else
        let (d, close) := d.stop
        ((p.setWork i (some (.demux d))).closePorts i close, true)
  | _ => (p, false)

/-- Stop each of the listed demuxers. -/
def stopAll : List Nat → Pipeline K → Bool → Pipeline K × Bool
  | [], p, any => (p, any)
  | i :: rest, p, any =>
      let (p, did) := p.stopNode i
      stopAll rest p (any || did)

/-- Open a step: retire what nothing reads and apply a graceful stop.  Returns whether
that itself was progress. -/
def beginStep (p : Pipeline K) : Pipeline K × Bool :=
  let (p, retired) := p.retireUnneeded
  if p.stopReading then
    stopAll (List.range p.nodes.length) p retired
  else
    (p, retired)

/-! ## Planning a step -/

/-- What an input port looks like right now. -/
def portIn (p : Pipeline K) (input : InPort) : PortIn where
  hasItem := (p.wires[input.wire]?.map fun w => !w.isEmpty).getD false
  atEof := (p.wires[input.wire]?.map Wire.atEof).getD false
  eofDelivered := input.eofDelivered

/-- Whether every wire out of a port has room. -/
def portRoom (p : Pipeline K) (ids : List Nat) : Bool :=
  ids.all fun id => (p.wires[id]?.map Wire.hasRoom).getD false

/-- What the ports of a node look like right now. -/
def portState (p : Pipeline K) (node : Nat) : List PortIn × List Bool :=
  match p.nodes[node]? with
  | none => ([], [])
  | some m => (m.inputs.map p.portIn, m.outputs.map p.portRoom)

def ports (p : Pipeline K) (node : Nat) : Ports where
  inputs := (p.portState node).1
  outRoom := (p.portState node).2
  stopReading := p.stopReading

/-- Whether a node may run. -/
def isReady (p : Pipeline K) (node : Nat) : Bool :=
  match p.workAt node with
  | none => false
  | some work => work.ready (p.ports node)

/-- A runnable node with what ranks it. -/
structure Choice where
  priority : Nat
  lastRun : Nat
  node : Nat
deriving DecidableEq

/-- The more downstream node comes first, then the least recently run one. -/
def Choice.precedes (a b : Choice) : Prop :=
  b.priority < a.priority ∨
    a.priority = b.priority ∧
      (a.lastRun < b.lastRun ∨ a.lastRun = b.lastRun ∧ a.node ≤ b.node)

instance : DecidableRel Choice.precedes := fun a b =>
  inferInstanceAs (Decidable (b.priority < a.priority ∨ a.priority = b.priority ∧
    (a.lastRun < b.lastRun ∨ a.lastRun = b.lastRun ∧ a.node ≤ b.node)))

/-- The runnable nodes. -/
def runnable (p : Pipeline K) : List Choice :=
  (List.range p.nodes.length).filterMap fun i =>
    if p.isReady i then
      p.nodes[i]?.map fun m => { priority := m.priority, lastRun := m.lastRun, node := i }
    else
      none

/-- The nodes that a step of some width runs, in the order they are committed in. -/
def chosen (p : Pipeline K) (max : Nat) : List Nat :=
  (((p.runnable.insertionSort Choice.precedes).take max).map Choice.node).insertionSort (· ≤ ·)

/-- Count a stall on one wire. -/
def noteWire (ws : List Wire) (id : Nat) : List Wire :=
  match ws[id]? with
  | none => ws
  | some w => ws.set id w.noteStall

/-- Count a stall on every wire of a node's full ports, unless the node may run or has
finished. -/
def noteNode (p : Pipeline K) (i : Nat) : Pipeline K :=
  match p.workAt i, p.nodes[i]? with
  | some work, some m =>
      if work.ready (p.ports i) || work.isDone then
        p
      else
        let full := m.outputs.filter fun ids => !p.portRoom ids
        { p with wires := full.flatten.foldl noteWire p.wires }
  | _, _ => p

/-- Items taken from a wire with the wire and the budget they leave. -/
structure Taken where
  slots : List InPort
  pool : Pool
  inputs : Items
  ended : Ends

def takeItems (work : Work K) (port : Nat) (src dst : TimeBase) :
    Nat → Wire → Budget → Wire × Budget × Items
  | 0, w, b => (w, b, [])
  | n + 1, w, b =>
      if !work.acceptsInput then
        (w, b, [])
      else
        match w.pop b with
        | none => (w, b, [])
        | some (item, w, b) =>
            let (w, b, items) := takeItems work port src dst n w b
            (w, b, (port, rescale item src dst) :: items)

/-- Take the inputs of a node, port by port, and note the ports that have just ended. -/
def takeInputs (work : Work K) : Nat → List InPort → Pool → Taken
  | _, [], s => { slots := [], pool := s, inputs := [], ended := [] }
  | port, slot :: rest, (ws, b) =>
      match ws[slot.wire]? with
      | none =>
          let t := takeInputs work (port + 1) rest (ws, b)
          { t with slots := slot :: t.slots }
      | some wire =>
          let (w, b, items) := takeItems work port wire.timeBase slot.timeBase work.batch wire b
          let t := takeInputs work (port + 1) rest (ws.set slot.wire w, b)
          if w.atEof && !slot.eofDelivered then
            { t with
              slots := { slot with eofDelivered := true } :: t.slots
              inputs := items ++ t.inputs
              ended := (port, rescaleTs w.endPts wire.timeBase slot.timeBase) :: t.ended }
          else
            { t with slots := slot :: t.slots, inputs := items ++ t.inputs }

/-- Detach a node with its inputs. -/
def detach (p : Pipeline K) (node : Nat) : Pipeline K × Option (Job K) :=
  match p.workAt node with
  | none => (p, none)
  | some work =>
      let p := p.setWork node none
      match p.nodes[node]? with
      | none => (p, none)
      | some m =>
          let t := takeInputs work 0 m.inputs p.pool
          let p := { p.withPool t.pool with
            nodes := p.nodes.set node { m with inputs := t.slots } }
          (p, some {
            node := node
            work := work
            inputs := t.inputs
            ended := t.ended
            allEnded := !t.slots.isEmpty && t.slots.all (·.eofDelivered) })

/-- Detach the listed nodes. -/
def detachAll : List Nat → Pipeline K → Pipeline K × List (Job K)
  | [], p => (p, [])
  | i :: rest, p =>
      match p.detach i with
      | (p, none) => detachAll rest p
      | (p, some job) =>
          let (p, jobs) := detachAll rest p
          (p, job :: jobs)

def checkOut (p : Pipeline K) (max : Nat) : Pipeline K × List (Job K) :=
  let nodes := p.chosen max
  let p := (List.range p.nodes.length).foldl noteNode p
  detachAll nodes p

/-! ## Committing a step -/

/-- Record the step in which a node ran. -/
def stamp (p : Pipeline K) (node : Nat) : Pipeline K :=
  { p with nodes := p.nodes.modify node fun m => { m with lastRun := satAddU64 p.steps 1 } }

/-- Put a finished job back and apply what it produced. -/
def checkIn (p : Pipeline K) (done : Done K) : Pipeline K × Except Error Unit :=
  let p := (p.setWork done.node (some done.work)).stamp done.node
  match done.error with
  | some e => ({ p with cancel := true }, .error e)
  | none =>
      match emitAll done.node done.out p with
      | (p, .error e) => (p, .error e)
      | (p, .ok ()) =>
          let p := p.closePorts done.node done.close
          if done.work.isDone then (p.abandonInputs done.node, .ok ()) else (p, .ok ())

/-- Close a step: account for it and check the no-progress guard. -/
def endStep (p : Pipeline K) (progressed : Bool) : Pipeline K × Except Error Unit :=
  let (guard, r) := p.guard.tick progressed
  ({ p with
    steps := satAddU64 p.steps 1
    peakBytes := max p.peakBytes p.budget.committed
    guard := guard },
   match r with
   | .error e => .error e.toError
   | .ok () => .ok ())

def runJobs : List (Job K) → Pipeline K → Bool → Pipeline K × Except Error Bool
  | [], p, progressed => (p, .ok progressed)
  | job :: rest, p, progressed =>
      match p.checkIn job.run with
      | (p, .error e) => (p, .error e)
      | (p, .ok ()) => runJobs rest p (progressed || job.run.progressed)

/-- Advance by up to `width` units of work. -/
def drive (p : Pipeline K) (width : Nat) : Pipeline K × Except Error Advance :=
  if p.cancel then
    (p, .ok .idle)
  else
    let (p, progressed) := p.beginStep
    let (p, jobs) := p.checkOut (max width 1)
    if jobs.isEmpty && !progressed then
      (p, .ok .idle)
    else
      match runJobs jobs p progressed with
      | (p, .error e) => (p, .error e)
      | (p, .ok progressed) =>
          match p.endStep progressed with
          | (p, .error e) => (p, .error e)
          | (p, .ok ()) => (p, .ok .stepped)

/-- Advance by one unit of work. -/
def step (p : Pipeline K) : Pipeline K × Except Error Advance :=
  p.drive 1

/-! ## Stopping -/

/-- A diagnosis for every node that has not finished. -/
def blocked (p : Pipeline K) : List StallReport :=
  (List.range p.nodes.length).filterMap fun i =>
    match p.workAt i, p.nodes[i]? with
    | some work, some m =>
        if work.isDone then
          none
        else
          let (inputs, room) := p.portState i
          some {
            node := i
            label := m.label
            reason :=
              if !room.all id then
                "every wire out of some output port is full"
              else if inputs.any (fun q => !q.atEof) then
                "waiting for input that has not arrived"
              else
                "the component reported nothing to do with all inputs at end of stream"
            inputDepth := m.inputs.map fun q => (p.wires[q.wire]?.map Wire.depth).getD 0
            outputRoom := room }
    | _, _ => none

/-- Why the pipeline is not running. -/
def classify (p : Pipeline K) : Finish :=
  if p.cancel then
    .cancelled
  else if p.isComplete then
    .complete
  else
    .stalled p.blocked

/-- Abort. -/
def cancelled (p : Pipeline K) : Pipeline K :=
  { p with cancel := true }

/-- Stop reading input, but finish cleanly. -/
def stoppingReading (p : Pipeline K) : Pipeline K :=
  { p with stopReading := true }

end Pipeline

end Sched
end Vaco
