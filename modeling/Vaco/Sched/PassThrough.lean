import Vaco.Sched.Driver
import Vaco.Sched.Spec

/-!
# Pass-through components

Concrete components on which a pipeline can be evaluated.  A demuxer reads a fixed list
of packets, the codecs hand each item on, a graph passes frames to its one sink once
enough of them arrived at its sources, and a writer keeps what it was given.

Main results:

- `Driver.runs_of_runFor`: a bounded evaluation of a run is a run.
-/

namespace Vaco
namespace Sched

open Library Vaco.Core

/-! ## Codecs -/

/-- A codec that hands each item on before it takes the next one. -/
structure Relay (α : Type) where
  held : Option α
  ended : Bool

namespace Relay

variable {α β : Type}

/-- A codec that was given nothing. -/
def new : Relay α where
  held := none
  ended := false

/-- Take an item unless one is held. -/
def send (f : β → α) (r : Relay α) : Option β → Except Error Unit × Relay α
  | some x =>
      if r.held.isSome then
        (.error .outputPending, r)
      else
        (.ok (), { r with held := some (f x) })
  | none => if r.held.isSome then (.error .outputPending, r) else (.ok (), { r with ended := true })

/-- Hand the held item over. -/
def recv (r : Relay α) : Except Error α × Relay α :=
  match r.held with
  | some x => (.ok x, { r with held := none })
  | none => if r.ended then (.error .eof, r) else (.error .needMoreInput, r)

end Relay

/-- Frame that carries the bytes of a packet. -/
def frameOfPacket (p : Packet) : Frame where
  pts := p.pts
  timeBase := Rational.MICROSECONDS
  data := .video [p.data]

/-- Packet that carries the bytes of a frame. -/
def packetOfFrame (f : Frame) : Packet :=
  { Packet.empty with pts := f.pts, dts := f.pts, len := (Payload.frame f).bytes }

/-! ## Graphs -/

/-- A graph that ends once each source in `waits` holds so many frames. -/
structure Gather where
  queues : List (List Frame)
  capacity : Nat
  waits : List (Nat × Nat)
  out : List Frame
  finished : Bool

namespace Gather

/-- A graph with bounded, empty source queues. -/
def new (sources capacity : Nat) (waits : List (Nat × Nat)) : Gather where
  queues := List.replicate sources []
  capacity := capacity
  waits := waits
  out := []
  finished := false

/-- Queue a frame at a source that has room. -/
def send (g : Gather) (node : Nat) (frame : Frame) : Except (Error × Frame) Unit × Gather :=
  match g.queues[node]? with
  | none => (.error (.invalidData "node is not a buffer source", frame), g)
  | some queue =>
      if g.capacity ≤ queue.length then
        (.error (.outputPending, frame), g)
      else
        (.ok (), { g with queues := g.queues.set node (queue ++ [frame]) })

/-- A source that closes early ends the graph. -/
def closeSource (g : Gather) (_node : Nat) (_pts : Timestamp) : Except Error Unit × Gather :=
  (.ok (), { g with finished := true })

/-- Pass the frames on once all that the graph waits for has arrived. -/
def run (g : Gather) : Except Error GraphStatus × Gather :=
  let g :=
    if !g.finished && g.waits.all (fun w => w.2 ≤ (g.queues[w.1]?.getD []).length) then
      { g with
        out := g.out ++ g.waits.flatMap (fun w => (g.queues[w.1]?.getD []).take w.2)
        finished := true }
    else
      g
  if !g.out.isEmpty then
    (.ok (.hasOutput [0]), g)
  else if g.finished then
    (.ok .eof, g)
  else
    (.ok (.needInput []), g)

/-- Hand a frame over. -/
def recv (g : Gather) (_node : Nat) : Except Error Frame × Gather :=
  match g.out with
  | frame :: rest => (.ok frame, { g with out := rest })
  | [] => if g.finished then (.error .eof, g) else (.error .needMoreInput, g)

end Gather

/-! ## The components -/

/-- A demuxer over a fixed list of packets. -/
structure Reader where
  streams : List (Nat × TimeBase)
  packets : List Packet

/-- Hand over the next packet. -/
def Reader.read (d : Reader) : Except Error Packet × Reader :=
  match d.packets with
  | [] => (.error .eof, d)
  | p :: rest => (.ok p, { d with packets := rest })

/-- The pass-through components. -/
def passThrough : Components where
  Demuxer := Reader
  streams := Reader.streams
  readPacket := Reader.read
  Decoder := Relay Frame
  sendPacket := Relay.send frameOfPacket
  receiveFrame := Relay.recv
  Encoder := Relay Packet
  sendFrame := Relay.send packetOfFrame
  receivePacket := Relay.recv
  Scaler := Unit
  scaleFrame := fun s f => (.ok f, s)
  Resampler := Unit
  convertSamples := fun s f => (.ok f, s)
  Graph := Gather
  sinkTimeBase := fun _ _ => .ok Rational.MICROSECONDS
  graphSend := Gather.send
  closeSource := Gather.closeSource
  graphRun := Gather.run
  graphRecv := Gather.recv
  Params := Unit
  Builder := Nat
  addStream := fun n _ _ => (.ok n, n + 1)
  Writer := List Packet
  openWriter := fun _ => .ok []
  writePacket := fun w p => (.ok (), w ++ [p])
  endStream := fun w _ => (.ok (), w)
  finish := fun _ => .ok ()

/-- A packet of some length on some stream. -/
def packetOf (streamIndex len : Nat) : Packet :=
  { Packet.empty with
    data := List.replicate len 0, len := len, streamIndex := streamIndex }

theorem bind_eq_ok {ε α β : Type} {x : Except ε α} {f : α → Except ε β} {b : β}
    (h : (x >>= f) = .ok b) : ∃ a, x = .ok a ∧ f a = .ok b := by
  cases x with
  | error e => cases h
  | ok a => exact ⟨a, rfl, h⟩

/-! ## Evaluating a run -/

variable {K : Components}

/-- Turn a driver at most so many times; nothing if it has not stopped by then. -/
def Driver.runFor (d : Driver) : Nat → Pipeline K → Option (Pipeline K × Except Error Finish)
  | 0, _ => none
  | n + 1, p =>
      match d.turn p with
      | (p, .error e) => some (p, .error e)
      | (p, .ok .idle) => some (p, .ok p.classify)
      | (p, .ok .stepped) => d.runFor n p

/-- A bounded evaluation of a run is a run. -/
theorem Driver.runs_of_runFor {d : Driver} {n : Nat} {p : Pipeline K}
    {r : Pipeline K × Except Error Finish} (h : d.runFor n p = some r) : d.Runs p r := by
  induction n generalizing p with
  | zero => cases h
  | succ n ih =>
      unfold Driver.runFor at h
      split at h
      · rename_i hturn
        cases h
        exact .failed hturn
      · rename_i hturn
        cases h
        exact .idle hturn
      · rename_i hturn
        exact .stepped hturn (ih h)

/-- A bounded evaluation leads along calls of the driver. -/
theorem Driver.reachable_of_runFor {d : Driver} {n : Nat} {p : Pipeline K}
    {r : Pipeline K × Except Error Finish} (h : d.runFor n p = some r) :
    p.Reachable r.1 := by
  induction n generalizing p with
  | zero => cases h
  | succ n ih =>
      unfold Driver.runFor at h
      split at h
      · rename_i p' e hturn
        cases h
        have hcall := Pipeline.Call.turn p d
        rw [hturn] at hcall
        exact .single hcall
      · rename_i p' hturn
        cases h
        have hcall := Pipeline.Call.turn p d
        rw [hturn] at hcall
        exact .single hcall
      · rename_i p' hturn
        have hcall := Pipeline.Call.turn p d
        rw [hturn] at hcall
        exact .head hcall (ih h)

/-- Build a pipeline and run it twice, each time for a bounded number of turns. -/
def Driver.runTwice (d : Driver) (n : Nat) (spec : Except Error (PipelineSpec K)) :
    Option ((Pipeline K × Except Error Finish) × (Pipeline K × Except Error Finish)) :=
  match spec with
  | .error _ => none
  | .ok spec =>
      match spec.build with
      | .error _ => none
      | .ok p =>
          match d.runFor n p with
          | none => none
          | some r =>
              match d.runFor n r.1 with
              | none => none
              | some r' => some (r, r')

theorem Driver.exists_of_runTwice {d : Driver} {n : Nat} {spec : Except Error (PipelineSpec K)}
    {test : (Pipeline K × Except Error Finish) × (Pipeline K × Except Error Finish) → Bool}
    (h : (d.runTwice n spec).any test = true) :
    ∃ s p r r', spec = .ok s ∧ s.build = .ok p ∧ d.Runs p r ∧ p.Reachable r.1 ∧
      d.Runs r.1 r' ∧ test (r, r') = true := by
  unfold Driver.runTwice at h
  split at h
  · cases h
  split at h
  · cases h
  rename_i s _ p hbuild
  split at h
  · cases h
  rename_i r hfirst
  split at h
  · cases h
  rename_i r' hsecond
  exact ⟨s, p, r, r', rfl, hbuild, d.runs_of_runFor hfirst, d.reachable_of_runFor hfirst,
    d.runs_of_runFor hsecond, h⟩

end Sched
end Vaco
