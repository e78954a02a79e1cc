import Vaco.Sched.Wire

/-!
# Nodes

A node owns a component and is advanced in three phases: its inputs are moved out of
the wires, the component runs on what it owns, and its outputs are put on the wires.
This file has the middle phase and the test that decides whether a node may run.

The demuxers, codecs, converters, filter graphs and muxer writers are deterministic
state machines, the fields of `Components`.  A muxer node keeps the calls it made
to its writer as proof data.

Main results:

- `FilterWork.advance_ports`: running a filter node keeps its ports.

Current gaps:

- The pixel and sample conversions are opaque state machines here.
-/

namespace Vaco
namespace Sched

open Library Vaco.Core

/-! ## Components -/

/-- Why a filter graph stopped. -/
inductive GraphStatus where
  | eof
  | needInput (nodes : List Nat)
  | hasOutput (nodes : List Nat)
  | deadlock
  | budgetExhausted
deriving DecidableEq

/-- Whether the graph said that a sink holds frames. -/
def GraphStatus.isHasOutput : GraphStatus → Bool
  | .hasOutput _ => true
  | _ => false

/-- The state machines that the nodes of a pipeline run.  A refused frame comes back
with the error. -/
structure Components where
  Demuxer : Type
  streams : Demuxer → List (Nat × TimeBase)
  readPacket : Demuxer → Except Error Packet × Demuxer
  Decoder : Type
  sendPacket : Decoder → Option Packet → Except Error Unit × Decoder
  receiveFrame : Decoder → Except Error Frame × Decoder
  Encoder : Type
  sendFrame : Encoder → Option Frame → Except Error Unit × Encoder
  receivePacket : Encoder → Except Error Packet × Encoder
  Scaler : Type
  scaleFrame : Scaler → Frame → Except Error Frame × Scaler
  Resampler : Type
  convertSamples : Resampler → Frame → Except Error Frame × Resampler
  Graph : Type
  sinkTimeBase : Graph → Nat → Except Error TimeBase
  graphSend : Graph → Nat → Frame → Except (Error × Frame) Unit × Graph
  closeSource : Graph → Nat → Timestamp → Except Error Unit × Graph
  graphRun : Graph → Except Error GraphStatus × Graph
  graphRecv : Graph → Nat → Except Error Frame × Graph
  Params : Type
  Builder : Type
  addStream : Builder → Params → TimeBase → Except Error Nat × Builder
  Writer : Type
  openWriter : Builder → Except Error Writer
  writePacket : Writer → Packet → Except Error Unit × Writer
  endStream : Writer → Nat → Except Error Unit × Writer
  finish : Writer → Except Error Unit

variable {K : Components}

/-- Iterations that a drain may take before the component is declared broken. -/
def maxPump : Nat :=
  4096

/-- Items with the output port they leave on, or the input port they arrived at. -/
abbrev Items := List (Nat × Payload)

/-- Ports that ended, with the timestamp each ended at. -/
abbrev Ends := List (Nat × Timestamp)

/-! ## What readiness reads -/

/-- One input port, as the readiness test sees it. -/
structure PortIn where
  hasItem : Bool
  atEof : Bool
  eofDelivered : Bool
deriving DecidableEq

/-- Everything the readiness test reads. -/
structure Ports where
  inputs : List PortIn
  outRoom : List Bool
  stopReading : Bool
deriving DecidableEq

namespace Ports

/-- Every output port has room. -/
def allOutRoom (ports : Ports) : Bool :=
  ports.outRoom.all id

/-- Some input port has an item. -/
def anyInput (ports : Ports) : Bool :=
  ports.inputs.any (·.hasItem)

/-- Some input port has ended and the node was not told. -/
def anyNewEof (ports : Ports) : Bool :=
  ports.inputs.any fun p => p.atEof && !p.eofDelivered

/-- Every input port has ended. -/
def allEof (ports : Ports) : Bool :=
  ports.inputs.all (·.atEof)

end Ports

/-! ## Limits -/

/-- A node that passes a number of items on and then ends its stream. -/
structure LimitWork where
  remaining : Nat
  finished : Bool
  lastPts : Timestamp
deriving DecidableEq

namespace LimitWork

/-- Pass items on while the count lasts. -/
def passOn : Items → LimitWork → Items → LimitWork × Items
  | [], l, out => (l, out)
  | (_, item) :: rest, l, out =>
      if l.remaining = 0 then
        (l, out)
      else
        passOn rest { l with remaining := l.remaining - 1, lastPts := item.pts } (out ++ [(0, item)])

/-- Run the limit once. -/
def advance (l : LimitWork) (inputs : Items) (allEnded : Bool) :
    LimitWork × Items × Ends × Bool :=
  let (l, out) := passOn inputs l []
  if l.remaining = 0 || allEnded then
    ({ l with finished := true }, out, [(0, l.lastPts)], true)
  else
    (l, out, [], !out.isEmpty || l.finished)

end LimitWork

/-! ## Demuxers -/

/-- Reads one packet a step and routes it to the port its stream is mapped to. -/
structure DemuxWork (K : Components) where
  demuxer : K.Demuxer
  portForStream : List (Option Nat)
  lastPts : List Timestamp
  finished : Bool
  maxErrors : Nat
  errors : Nat

namespace DemuxWork

/-- Close every port where it stands. -/
def finish (d : DemuxWork K) : DemuxWork K × Ends :=
  ({ d with finished := true }, d.lastPts.zipIdx.map fun (pts, port) => (port, pts))

/-- Run the demuxer once. -/
def advance (d : DemuxWork K) : DemuxWork K × Items × Ends × Except Error Bool :=
  if d.finished then
    (d, [], [], .ok false)
  else
    match K.readPacket d.demuxer with
    | (.ok packet, demuxer) =>
        let d := { d with demuxer := demuxer }
        match d.portForStream[packet.streamIndex]? with
        | some (some port) =>
            let ts := if packet.pts.isSome then packet.pts else packet.dts
            ({ d with lastPts := if ts.isSome then d.lastPts.set port ts else d.lastPts },
              [(port, .packet packet)], [], .ok true)
        | _ => (d, [], [], .ok true)
    | (.error .eof, demuxer) =>
        let (d, close) := finish { d with demuxer := demuxer }
        (d, [], close, .ok true)
    | (.error e, demuxer) =>
        let d := { d with demuxer := demuxer }
        if e.isRecoverable then
          let d := { d with errors := min (d.errors + 1) 4294967295 }
          if d.maxErrors < d.errors then (d, [], [], .error e) else (d, [], [], .ok true)
        else
          (d, [], [], .error e)

/-- Stop reading but end cleanly. -/
def stop (d : DemuxWork K) : DemuxWork K × Ends :=
  if d.finished then (d, []) else d.finish

end DemuxWork

/-! ## Codecs -/

/-- A send and receive component over items in transit. -/
class Side (σ : Type) where
  send : σ → Option Payload → Except Error Unit × σ
  recv : σ → Except Error Payload × σ

/-- Packets in, frames out. -/
structure DecoderSide (K : Components) where
  decoder : K.Decoder

instance : Side (DecoderSide K) where
  send s item :=
    match item with
    | some (.packet p) =>
        let (r, decoder) := K.sendPacket s.decoder (some p)
        (r, { s with decoder := decoder })
    | some (.frame _) => (.error (.invalidData "a frame reached a decoder"), s)
    | none =>
        let (r, decoder) := K.sendPacket s.decoder none
        (r, { s with decoder := decoder })
  recv s :=
    match K.receiveFrame s.decoder with
    | (.ok f, decoder) => (.ok (.frame f), { s with decoder := decoder })
    | (.error e, decoder) => (.error e, { s with decoder := decoder })

/-- Frames in, packets out. -/
structure EncoderSide (K : Components) where
  encoder : K.Encoder

instance : Side (EncoderSide K) where
  send s item :=
    match item with
    | some (.frame f) =>
        let (r, encoder) := K.sendFrame s.encoder (some f)
        (r, { s with encoder := encoder })
    | some (.packet _) => (.error (.invalidData "a packet reached an encoder"), s)
    | none =>
        let (r, encoder) := K.sendFrame s.encoder none
        (r, { s with encoder := encoder })
  recv s :=
    match K.receivePacket s.encoder with
    | (.ok p, encoder) => (.ok (.packet p), { s with encoder := encoder })
    | (.error e, encoder) => (.error e, { s with encoder := encoder })

structure FrameConverter (τ : Type) where
  inner : τ
  pending : Option Frame
  eof : Bool

namespace FrameConverter

variable {τ : Type}

/-- Convert one frame and hold it, or note the end. -/
def send (convert : τ → Frame → Except Error Frame × τ) (wrongKind : String)
    (s : FrameConverter τ) : Option Payload → Except Error Unit × FrameConverter τ
  | some (.frame f) =>
      match convert s.inner f with
      | (.ok g, inner) => (.ok (), { s with inner := inner, pending := some g })
      | (.error e, inner) => (.error e, { s with inner := inner })
  | some (.packet _) => (.error (.invalidData wrongKind), s)
  | none => (.ok (), { s with eof := true })

/-- Hand over the held frame. -/
def recv (s : FrameConverter τ) : Except Error Payload × FrameConverter τ :=
  match s.pending with
  | some f => (.ok (.frame f), { s with pending := none })
  | none => if s.eof then (.error .eof, s) else (.error .needMoreInput, s)

end FrameConverter

/-- The pixel-format bridge. -/
structure ConverterSide (K : Components) where
  conv : FrameConverter K.Scaler

instance : Side (ConverterSide K) where
  send s item :=
    let (r, conv) :=
      FrameConverter.send K.scaleFrame "a packet reached a format converter" s.conv item
    (r, { s with conv := conv })
  recv s :=
    let (r, conv) := s.conv.recv
    (r, { s with conv := conv })

/-- The sample-format bridge. -/
structure AudioConverterSide (K : Components) where
  conv : FrameConverter K.Resampler

instance : Side (AudioConverterSide K) where
  send s item :=
    let (r, conv) :=
      FrameConverter.send K.convertSamples "a packet reached a sample-format converter" s.conv item
    (r, { s with conv := conv })
  recv s :=
    let (r, conv) := s.conv.recv
    (r, { s with conv := conv })

/-- Where a component is in the send and receive protocol. -/
inductive Stage where
  | feeding
  | draining
  | drained
deriving DecidableEq

/-- One send and receive component with the stages of the protocol made explicit. -/
structure CodecWork (σ : Type) where
  side : σ
  stage : Stage
  lastPts : Timestamp
  stashed : Option Payload
  pendingEof : Option Timestamp
  endPts : Timestamp

namespace CodecWork

variable {σ : Type} [Side σ]

/-- A component that has been given nothing yet. -/
def new (side : σ) : CodecWork σ where
  side := side
  stage := .feeding
  lastPts := none
  stashed := none
  pendingEof := none
  endPts := none

/-- Whether the codec can make progress. -/
def ready (c : CodecWork σ) (ports : Ports) : Bool :=
  if !ports.allOutRoom then
    false
  else if c.stashed.isSome then
    true
  else if c.pendingEof.isSome then
    true
  else
    match c.stage with
    | .feeding => ports.anyInput || ports.allEof
    | .draining => true
    | .drained => false

/-- Take everything the component hands over.  The result says whether it has ended. -/
def drain : Nat → CodecWork σ → Items → CodecWork σ × Items × Except Error Bool
  | 0, c, out =>
      (c, out, .error (.invalidData
        "a codec produced output without end, which is a protocol violation"))
  | n + 1, c, out =>
      match Side.recv c.side with
      | (.ok item, side) =>
          let lastPts := if item.pts.isSome then item.pts else c.lastPts
          drain n { c with side := side, lastPts := lastPts } (out ++ [(0, item)])
      | (.error .needMoreInput, side) => ({ c with side := side }, out, .ok false)
      | (.error .eof, side) =>
          if c.stage = .draining then
            ({ c with side := side }, out, .ok true)
          else
            ({ c with side := side }, out,
              .error (.invalidData "a codec reported EOF before accepting drain"))
      | (.error e, side) => ({ c with side := side }, out, .error e)

def offer (item : Payload) :
    Nat → CodecWork σ → Items → Bool → CodecWork σ × Items × Bool × Except Error Bool
  | 0, c, out, progressed => (c, out, progressed, .ok false)
  | n + 1, c, out, progressed =>
      match Side.send c.side (some item) with
      | (.ok (), side) => ({ c with side := side }, out, progressed, .ok true)
      | (.error .outputPending, side) =>
          match drain maxPump { c with side := side } out with
          | (c, out', .error e) => (c, out', progressed, .error e)
          | (c, out', .ok _) =>
              if out'.length = out.length then
                (c, out', progressed, .error (.invalidData
                  "a codec refused input without making output available"))
              else
                offer item n c out' true
      | (.error e, side) => ({ c with side := side }, out, progressed, .error e)

/-- Offer the queued items in turn.  The result says whether all were accepted; an item
that was not is held back. -/
def feed : List Payload → CodecWork σ → Items → Bool →
    CodecWork σ × Items × Bool × Except Error Bool
  | [], c, out, progressed => (c, out, progressed, .ok true)
  | item :: rest, c, out, progressed =>
      match offer item maxPump c out progressed with
      | (c, out, progressed, .error e) => (c, out, progressed, .error e)
      | (c, out, progressed, .ok false) =>
          ({ c with stashed := some item }, out, progressed, .ok false)
      | (c, out, _, .ok true) =>
          match drain maxPump c out with
          | (c, out, .error e) => (c, out, true, .error e)
          | (c, out, .ok _) => feed rest c out true

/-- Remember the ends that were announced. -/
def noteEnded (c : CodecWork σ) (ended : Ends) : CodecWork σ :=
  ended.foldl (fun c e =>
    { c with pendingEof :=
        match c.pendingEof with
        | some (some ts) => some (some ts)
        | _ => some e.2 }) c

/-- Tell the component that the stream is over.  The result says whether to go on. -/
def sendEof (c : CodecWork σ) (endPts : Timestamp) (out : Items) :
    CodecWork σ × Items × Except Error Bool :=
  let c := { c with endPts := if c.endPts.isNone then endPts else c.endPts }
  match Side.send c.side none with
  | (.ok (), side) =>
      ({ c with side := side, pendingEof := none, stage := .draining }, out, .ok true)
  | (.error .outputPending, side) =>
      match drain maxPump { c with side := side } out with
      | (c, out', .error e) => (c, out', .error e)
      | (c, out', .ok _) =>
          if out'.length = out.length then
            (c, out', .error (.invalidData
              "a codec refused drain without making output available"))
          else
            (c, out', .ok false)
  | (.error e, side) => ({ c with side := side }, out, .error e)

/-- Offer everything held and arrived, then the end; the result says whether to go on to draining. -/
def feedStage (c : CodecWork σ) (inputs : Items) :
    CodecWork σ × Items × Bool × Except Error Bool :=
  if c.stage = .feeding then
    let queued := c.stashed.toList ++ inputs.map Prod.snd
    match feed queued { c with stashed := none } [] false with
    | (c, out, progressed, .error e) => (c, out, progressed, .error e)
    | (c, out, progressed, .ok false) => (c, out, progressed, .ok false)
    | (c, out, progressed, .ok true) =>
        match c.pendingEof with
        | none => (c, out, progressed, .ok true)
        | some endPts =>
            match c.sendEof endPts out with
            | (c, out, .error e) => (c, out, progressed, .error e)
            | (c, out, .ok more) => (c, out, true, .ok more)
  else
    (c, [], false, .ok true)

/-- The draining stage: the buffered tail, then the close. -/
def drainStage (c : CodecWork σ) (out : Items) (progressed : Bool) :
    CodecWork σ × Items × Ends × Except Error Bool :=
  if c.stage = .draining then
    match drain maxPump c out with
    | (c, out', .error e) => (c, out', [], .error e)
    | (c, out', .ok finished) =>
        let progressed := progressed || out.length < out'.length || finished
        if finished then
          let endPts := if c.lastPts.isSome then c.lastPts else c.endPts
          ({ c with stage := .drained }, out', [(0, endPts)], .ok progressed)
        else
          (c, out', [], .ok progressed)
  else
    (c, out, [], .ok progressed)

/-- Run the codec once. -/
def advance (c : CodecWork σ) (inputs : Items) (ended : Ends) :
    CodecWork σ × Items × Ends × Except Error Bool :=
  match (c.noteEnded ended).feedStage inputs with
  | (c, out, _, .error e) => (c, out, [], .error e)
  | (c, out, progressed, .ok false) => (c, out, [], .ok progressed)
  | (c, out, progressed, .ok true) => c.drainStage out progressed

end CodecWork

/-! ## Filter graphs -/

structure FilterWork (K : Components) where
  graph : K.Graph
  sources : List Nat
  sinks : List Nat
  sinkClosed : List Bool
  lastPts : List Timestamp
  stashed : List (Nat × Frame)
  pendingEof : Ends
  pendingOutput : Bool

namespace FilterWork

/-- Whether the graph can make progress. -/
def ready (f : FilterWork K) (ports : Ports) : Bool :=
  if !ports.allOutRoom then
    false
  else
    f.pendingOutput || !f.stashed.isEmpty || !f.pendingEof.isEmpty || ports.anyNewEof ||
      ports.anyInput

/-- The arrived items as frames. -/
def intoFrames : Items → Except Error (List (Nat × Frame))
  | [] => .ok []
  | (port, item) :: rest =>
      match item.intoFrame with
      | none => .error (.invalidData "a packet reached a filter graph")
      | some frame =>
          match intoFrames rest with
          | .error e => .error e
          | .ok frames => .ok ((port, frame) :: frames)

/-- Send the queued frames.  Once one is refused, every later one waits behind it. -/
def sendQueued : List (Nat × Frame) → FilterWork K → List (Nat × Frame) → Bool →
    FilterWork K × List (Nat × Frame) × Bool × Except Error Unit
  | [], f, held, progressed => (f, held, progressed, .ok ())
  | (port, frame) :: rest, f, held, progressed =>
      match f.sources[port]? with
      | none =>
          (f, held, progressed,
            .error (.invalidData "a filter input port has no buffer source"))
      | some node =>
          if !held.isEmpty then
            sendQueued rest f (held ++ [(port, frame)]) progressed
          else
            match K.graphSend f.graph node frame with
            | (.ok (), graph) => sendQueued rest { f with graph := graph } held true
            | (.error (.outputPending, frame), graph) =>
                sendQueued rest { f with graph := graph } (held ++ [(port, frame)]) progressed
            | (.error (e, _), graph) => ({ f with graph := graph }, held, progressed, .error e)

/-- Close the sources whose end was announced. -/
def closeEnded : Ends → FilterWork K → Bool → FilterWork K × Bool × Except Error Unit
  | [], f, progressed => (f, progressed, .ok ())
  | (port, pts) :: rest, f, progressed =>
      match f.sources[port]? with
      | none => closeEnded rest f progressed
      | some node =>
          match K.closeSource f.graph node pts with
          | (.ok (), graph) => closeEnded rest { f with graph := graph } true
          | (.error e, graph) => ({ f with graph := graph }, progressed, .error e)

/-- Take what one sink holds. -/
def recvSink (port sink : Nat) : Nat → FilterWork K → Items → Ends → Bool →
    FilterWork K × Items × Ends × Bool × Except Error Unit
  | 0, f, out, close, progressed => (f, out, close, progressed, .ok ())
  | n + 1, f, out, close, progressed =>
      match K.graphRecv f.graph sink with
      | (.ok frame, graph) =>
          let f := { f with
            graph := graph
            lastPts := if frame.pts.isSome then f.lastPts.set port frame.pts else f.lastPts }
          recvSink port sink n f (out ++ [(port, .frame frame)]) close true
      | (.error .needMoreInput, graph) => ({ f with graph := graph }, out, close, progressed, .ok ())
      | (.error .eof, graph) =>
          let f := { f with graph := graph, sinkClosed := f.sinkClosed.set port true }
          (f, out, close ++ [(port, f.lastPts[port]?.getD none)], true, .ok ())
      | (.error e, graph) => ({ f with graph := graph }, out, close, progressed, .error e)

/-- Take what the open sinks hold, in port order. -/
def recvSinks : Nat → List Nat → FilterWork K → Items → Ends → Bool →
    FilterWork K × Items × Ends × Bool × Except Error Unit
  | _, [], f, out, close, progressed => (f, out, close, progressed, .ok ())
  | port, sink :: rest, f, out, close, progressed =>
      if f.sinkClosed[port]?.getD true then
        recvSinks (port + 1) rest f out close progressed
      else
        match recvSink port sink maxPump f out close progressed with
        | (f, out, close, progressed, .error e) => (f, out, close, progressed, .error e)
        | (f, out, close, progressed, .ok ()) =>
            recvSinks (port + 1) rest f out close progressed

/-- Run the graph and take what its sinks hold. -/
def runGraph (f : FilterWork K) (progressed : Bool) :
    FilterWork K × Items × Ends × Except Error Bool :=
  match K.graphRun f.graph with
  | (.error e, graph) => ({ f with graph := graph }, [], [], .error e)
  | (.ok status, graph) =>
      match recvSinks 0 f.sinks { f with graph := graph } [] [] progressed with
      | (f, out, close, _, .error e) => (f, out, close, .error e)
      | (f, out, close, progressed, .ok ()) =>
          let f := { f with pendingOutput := status.isHasOutput || !f.stashed.isEmpty }
          if status = .deadlock then
            (f, out, close, .error (.invalidData
              "a filter graph stopped with work outstanding; see Graph::classify"))
          else
            (f, out, close, .ok progressed)

/-- Send what is queued and close what ended, unless a frame is held back.  The result
says whether anything moved. -/
def feed (f : FilterWork K) (queued : List (Nat × Frame)) :
    FilterWork K × Except Error Bool :=
  match sendQueued queued f [] false with
  | (f, _, _, .error e) => (f, .error e)
  | (f, held, progressed, .ok ()) =>
      let f := { f with stashed := held }
      if held.isEmpty then
        match closeEnded f.pendingEof { f with pendingEof := [] } progressed with
        | (f, _, .error e) => (f, .error e)
        | (f, progressed, .ok ()) => (f, .ok progressed)
      else
        (f, .ok progressed)

/-- Run the filter node once. -/
def advance (f : FilterWork K) (inputs : Items) (ended : Ends) :
    FilterWork K × Items × Ends × Except Error Bool :=
  let stashed := f.stashed
  let f := { f with pendingEof := f.pendingEof ++ ended, stashed := [] }
  match intoFrames inputs with
  | .error e => (f, [], [], .error e)
  | .ok frames =>
      match f.feed (stashed ++ frames) with
      | (f, .error e) => (f, [], [], .error e)
      | (f, .ok progressed) => f.runGraph progressed

end FilterWork

/-! ### What running a filter keeps -/

structure FilterWork.SamePorts (f f' : FilterWork K) : Prop where
  sources : f'.sources = f.sources
  sinks : f'.sinks = f.sinks
  closed : f'.sinkClosed.length = f.sinkClosed.length

namespace FilterWork

variable {f f' f'' : FilterWork K}

theorem SamePorts.refl (f : FilterWork K) : f.SamePorts f :=
  ⟨rfl, rfl, rfl⟩

theorem SamePorts.trans (h : f.SamePorts f') (h' : f'.SamePorts f'') : f.SamePorts f'' :=
  ⟨h'.sources.trans h.sources, h'.sinks.trans h.sinks, h'.closed.trans h.closed⟩

theorem SamePorts.since (h : f'.SamePorts f'') (hsources : f'.sources = f.sources)
    (hsinks : f'.sinks = f.sinks) (hclosed : f'.sinkClosed.length = f.sinkClosed.length) :
    f.SamePorts f'' :=
  SamePorts.trans ⟨hsources, hsinks, hclosed⟩ h

theorem sendQueued_ports (queued : List (Nat × Frame)) (f : FilterWork K)
    (held : List (Nat × Frame)) (progressed : Bool) :
    f.SamePorts (sendQueued queued f held progressed).1 := by
  induction queued generalizing f held progressed with
  | nil => exact .refl f
  | cons head rest ih =>
      simp only [sendQueued]
      split
      · exact .refl f
      · split
        · exact ih _ _ _
        · split
          · exact (ih _ _ _).since rfl rfl rfl
          · exact (ih _ _ _).since rfl rfl rfl
          · exact ⟨rfl, rfl, rfl⟩

theorem closeEnded_ports (ended : Ends) (f : FilterWork K) (progressed : Bool) :
    f.SamePorts (closeEnded ended f progressed).1 := by
  induction ended generalizing f progressed with
  | nil => exact .refl f
  | cons head rest ih =>
      simp only [closeEnded]
      split
      · exact ih _ _
      · split
        · exact (ih _ _).since rfl rfl rfl
        · exact ⟨rfl, rfl, rfl⟩

theorem feed_ports (f : FilterWork K) (queued : List (Nat × Frame)) :
    f.SamePorts (f.feed queued).1 := by
  have hsend := sendQueued_ports queued f [] false
  unfold feed
  split
  · rename_i h
    rwa [h] at hsend
  · rename_i f₁ held progressed h
    rw [h] at hsend
    simp only
    split
    · have hclose := closeEnded_ports f₁.pendingEof { f₁ with stashed := held, pendingEof := [] }
        progressed
      have hall := hsend.trans (hclose.since rfl rfl rfl)
      split
      · rename_i h'
        rwa [h'] at hall
      · rename_i h'
        rwa [h'] at hall
    · exact hsend.trans ⟨rfl, rfl, rfl⟩

theorem recvSink_ports (port sink n : Nat) (f : FilterWork K) (out : Items) (close : Ends)
    (progressed : Bool) : f.SamePorts (recvSink port sink n f out close progressed).1 := by
  induction n generalizing f out close progressed with
  | zero => exact .refl f
  | succ n ih =>
      simp only [recvSink]
      split
      · exact (ih _ _ _ _).since rfl rfl rfl
      · exact ⟨rfl, rfl, rfl⟩
      · exact ⟨rfl, rfl, by simp⟩
      · exact ⟨rfl, rfl, rfl⟩

theorem recvSinks_ports (port : Nat) (sinks : List Nat) (f : FilterWork K) (out : Items)
    (close : Ends) (progressed : Bool) :
    f.SamePorts (recvSinks port sinks f out close progressed).1 := by
  induction sinks generalizing port f out close progressed with
  | nil => exact .refl f
  | cons sink rest ih =>
      simp only [recvSinks]
      split
      · exact ih _ _ _ _ _
      · have hone := recvSink_ports port sink maxPump f out close progressed
        split
        · rename_i h
          rwa [h] at hone
        · rename_i h
          rw [h] at hone
          exact hone.trans (ih _ _ _ _ _)

theorem runGraph_ports (f : FilterWork K) (progressed : Bool) :
    f.SamePorts (f.runGraph progressed).1 := by
  unfold runGraph
  split
  · exact ⟨rfl, rfl, rfl⟩
  · rename_i status graph _
    have hsinks := recvSinks_ports 0 f.sinks { f with graph := graph } [] [] progressed
    have hall := hsinks.since (f := f) rfl rfl rfl
    split
    · rename_i h
      rwa [h] at hall
    · rename_i h
      rw [h] at hall
      simp only
      split <;> exact hall.trans ⟨rfl, rfl, rfl⟩

/-- Running a filter node keeps its ports. -/
theorem advance_ports (f : FilterWork K) (inputs : Items) (ended : Ends) :
    f.SamePorts (f.advance inputs ended).1 := by
  unfold advance
  simp only
  split
  · exact ⟨rfl, rfl, rfl⟩
  · rename_i frames _
    have hfeed := feed_ports { f with pendingEof := f.pendingEof ++ ended, stashed := [] }
      (f.stashed ++ frames)
    have hall := hfeed.since (f := f) rfl rfl rfl
    split
    · rename_i h
      rwa [h] at hall
    · rename_i h
      rw [h] at hall
      exact hall.trans (runGraph_ports _ _)

end FilterWork

/-! ## Muxers -/

/-- A call to the writer of a muxer. -/
inductive MuxCall where
  | writePacket (packet : Packet)
  | endStream (streamIndex : Nat)
  | finish
deriving DecidableEq

/-- A muxer past its header.  The field `calls` is the history of its writer. -/
structure MuxWork (K : Components) where
  writer : Option K.Writer
  streamIndex : List Nat
  calls : List MuxCall

namespace MuxWork

/-- Whether the muxer can make progress. -/
def ready (m : MuxWork K) (ports : Ports) : Bool :=
  if m.writer.isNone then
    false
  else
    ports.anyInput || ports.anyNewEof || ports.allEof

/-- Write the arrived packets. -/
def writeAll : Items → K.Writer → List MuxCall → List Nat → Bool →
    K.Writer × List MuxCall × Bool × Except Error Unit
  | [], w, calls, _, progressed => (w, calls, progressed, .ok ())
  | (port, item) :: rest, w, calls, streamIndex, progressed =>
      match item.intoPacket with
      | none => (w, calls, progressed, .error (.invalidData "a frame reached a muxer"))
      | some packet =>
          match streamIndex[port]? with
          | none =>
              (w, calls, progressed,
                .error (.invalidData "a muxer input port has no output stream"))
          | some index =>
              let packet := { packet with streamIndex := index }
              let calls := calls ++ [.writePacket packet]
              match K.writePacket w packet with
              | (.ok (), w) => writeAll rest w calls streamIndex true
              | (.error e, w) => (w, calls, progressed, .error e)

/-- Tell the writer which streams ended. -/
def endAll : Ends → K.Writer → List MuxCall → List Nat → Bool →
    K.Writer × List MuxCall × Bool × Except Error Unit
  | [], w, calls, _, progressed => (w, calls, progressed, .ok ())
  | (port, _) :: rest, w, calls, streamIndex, progressed =>
      match streamIndex[port]? with
      | none => endAll rest w calls streamIndex progressed
      | some index =>
          let calls := calls ++ [.endStream index]
          match K.endStream w index with
          | (.ok (), w) => endAll rest w calls streamIndex true
          | (.error e, w) => (w, calls, progressed, .error e)

/-- Run the muxer once. -/
def advance (m : MuxWork K) (inputs : Items) (ended : Ends) (allEnded : Bool) :
    MuxWork K × Except Error Bool :=
  match m.writer with
  | none => (m, .ok false)
  | some w =>
      match writeAll inputs w m.calls m.streamIndex false with
      | (w, calls, _, .error e) => ({ m with writer := some w, calls := calls }, .error e)
      | (w, calls, progressed, .ok ()) =>
          match endAll ended w calls m.streamIndex progressed with
          | (w, calls, _, .error e) => ({ m with writer := some w, calls := calls }, .error e)
          | (w, calls, progressed, .ok ()) =>
              if allEnded then
                let m := { m with writer := none, calls := calls ++ [.finish] }
                match K.finish w with
                | .error e => (m, .error e)
                | .ok () => (m, .ok true)
              else
                ({ m with writer := some w, calls := calls }, .ok progressed)

theorem advance_streamIndex (m : MuxWork K) (inputs : Items) (ended : Ends) (allEnded : Bool) :
    (m.advance inputs ended allEnded).1.streamIndex = m.streamIndex := by
  unfold advance
  split
  · rfl
  · split
    · rfl
    · split
      · rfl
      · split
        · simp only
          split <;> rfl
        · rfl

end MuxWork

/-! ## The component of a node -/

/-- The component that a node owns. -/
inductive Work (K : Components) where
  | abandoned
  | limit (l : LimitWork)
  | demux (d : DemuxWork K)
  | decode (c : CodecWork (DecoderSide K))
  | encode (c : CodecWork (EncoderSide K))
  | convert (c : CodecWork (ConverterSide K))
  | convertAudio (c : CodecWork (AudioConverterSide K))
  | filter (f : FilterWork K)
  | mux (m : MuxWork K)

namespace Work

/-- Whether the node has finished for good. -/
def isDone : Work K → Bool
  | .abandoned => true
  | .limit l => l.finished
  | .demux d => d.finished
  | .decode c => c.stage = .drained
  | .encode c => c.stage = .drained
  | .convert c => c.stage = .drained
  | .convertAudio c => c.stage = .drained
  | .filter f => f.sinkClosed.all id
  | .mux m => m.writer.isNone

/-- Whether the node can make progress right now. -/
def ready (work : Work K) (ports : Ports) : Bool :=
  match work with
  | .abandoned => false
  | .limit l =>
      !l.finished && ports.allOutRoom && (l.remaining = 0 || ports.anyInput || ports.allEof)
  | .demux d => !ports.stopReading && !d.finished && ports.allOutRoom
  | .decode c => c.ready ports
  | .encode c => c.ready ports
  | .convert c => c.ready ports
  | .convertAudio c => c.ready ports
  | .filter f => f.ready ports
  | .mux m => m.ready ports

/-- Whether the node can accept another item at all this step. -/
def acceptsInput : Work K → Bool
  | .limit l => l.remaining ≠ 0
  | .decode c => c.stashed.isNone && c.stage = .feeding
  | .encode c => c.stashed.isNone && c.stage = .feeding
  | .convert c => c.stashed.isNone && c.stage = .feeding
  | .convertAudio c => c.stashed.isNone && c.stage = .feeding
  | .filter f => f.stashed.isEmpty
  | _ => true

/-- How many items the node is given from each port in one step. -/
def batch : Work K → Nat
  | .abandoned => 0
  | .limit _ => 1
  | .demux _ => 0
  | .mux _ => 16
  | _ => 1

/-- Run the component on what it was given. -/
def advance (work : Work K) (inputs : Items) (ended : Ends) (allEnded : Bool) :
    Work K × Items × Ends × Except Error Bool :=
  match work with
  | .abandoned => (.abandoned, [], [], .ok false)
  | .limit l =>
      let (l, out, close, did) := l.advance inputs allEnded
      (.limit l, out, close, .ok did)
  | .demux d =>
      let (d, out, close, r) := d.advance
      (.demux d, out, close, r)
  | .decode c =>
      let (c, out, close, r) := c.advance inputs ended
      (.decode c, out, close, r)
  | .encode c =>
      let (c, out, close, r) := c.advance inputs ended
      (.encode c, out, close, r)
  | .convert c =>
      let (c, out, close, r) := c.advance inputs ended
      (.convert c, out, close, r)
  | .convertAudio c =>
      let (c, out, close, r) := c.advance inputs ended
      (.convertAudio c, out, close, r)
  | .filter f =>
      let (f, out, close, r) := f.advance inputs ended
      (.filter f, out, close, r)
  | .mux m =>
      let (m, r) := m.advance inputs ended allEnded
      (.mux m, [], [], r)

end Work

/-! ## Jobs -/

/-- A detached component with everything it is allowed to see. -/
structure Job (K : Components) where
  node : Nat
  work : Work K
  inputs : Items
  ended : Ends
  allEnded : Bool

/-- A finished job: the component and what it produced. -/
structure Done (K : Components) where
  node : Nat
  work : Work K
  out : Items
  close : Ends
  progressed : Bool
  error : Option Error

/-- Run the node.  It never touches a wire. -/
def Job.run (job : Job K) : Done K :=
  match job.work.advance job.inputs job.ended job.allEnded with
  | (work, out, close, .ok did) =>
      { node := job.node, work := work, out := out, close := close
        progressed := !job.inputs.isEmpty || did || !out.isEmpty || !close.isEmpty
        error := none }
  | (work, out, close, .error e) =>
      { node := job.node, work := work, out := out, close := close
        progressed := !job.inputs.isEmpty || !out.isEmpty || !close.isEmpty
        error := some e }

@[simp]
theorem Job.run_node (job : Job K) : job.run.node = job.node := by
  unfold Job.run
  split <;> rfl

end Sched
end Vaco
