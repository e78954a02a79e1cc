import Vaco.Sched.Pipeline

/-!
# Declaring and building a pipeline

A specification is a list of nodes in which every input names the output port it comes
from.  Nodes are added through a small interface, and building turns the specification
into a pipeline with one wire for each input.

Main results:

- `PipelineSpec.wired_build`: in a built pipeline every component fits its ports.

Current gaps:

- Output metadata, bitstream filters and display matrices change the muxer builder only
  and are left out.
-/

namespace Vaco
namespace Sched

open Library Vaco.Core

variable {K : Components}

/-! ## Specifications -/

/-- An output port of a node. -/
structure Tap where
  node : Nat
  port : Nat
deriving DecidableEq

/-- A port that produces packets. -/
structure PacketTap where
  tap : Tap
deriving DecidableEq

/-- A port that produces frames. -/
structure FrameTap where
  tap : Tap
deriving DecidableEq

/-- Which component a node is to own. -/
inductive KindSpec (K : Components) where
  | demux (demuxer : K.Demuxer) (streamOfPort : List Nat)
  | decode (decoder : K.Decoder)
  | encode (encoder : K.Encoder)
  | limit (remaining : Nat)
  | convert (scaler : K.Scaler)
  | convertAudio (resampler : K.Resampler)
  | filter (graph : K.Graph) (sources sinks : List Nat)
  | mux (builder : Option K.Builder) (streamOfPort : List Nat)

/-- One node of a specification. -/
structure NodeSpec (K : Components) where
  label : String
  kind : KindSpec K
  inputs : List (Tap × TimeBase)
  outputs : List (Flow × TimeBase)

/-- A declared pipeline. -/
structure PipelineSpec (K : Components) where
  nodes : List (NodeSpec K)
  capacity : Capacity
  limits : Limits
  maxInputErrors : Nat

structure SourceBind where
  tap : FrameTap
  node : Nat
  timeBase : TimeBase
deriving DecidableEq

namespace PipelineSpec

/-- An empty specification. -/
def new (capacity : Capacity) (limits : Limits) (maxInputErrors : Nat) : PipelineSpec K where
  nodes := []
  capacity := capacity
  limits := limits
  maxInputErrors := maxInputErrors

/-- Add a node; it is named by its place. -/
def push (spec : PipelineSpec K) (node : NodeSpec K) : PipelineSpec K × Nat :=
  ({ spec with nodes := spec.nodes ++ [node] }, spec.nodes.length)

/-- What a tap carries, and the base it counts in. -/
def outOf (spec : PipelineSpec K) (tap : Tap) : Except Error (Flow × TimeBase) :=
  match spec.nodes[tap.node]?.bind fun n => n.outputs[tap.port]? with
  | none => .error (.invalidData "a tap names a port that does not exist")
  | some out => .ok out

/-- Name of a tap in a label. -/
def tapName (tap : Tap) : String :=
  toString tap.node ++ ":" ++ toString tap.port

/-- Add an input file.  Every stream of the demuxer becomes a port. -/
def addInput (spec : PipelineSpec K) (demuxer : K.Demuxer) : PipelineSpec K × Nat :=
  spec.push {
    label := "input " ++ toString spec.nodes.length
    kind := .demux demuxer ((K.streams demuxer).map Prod.fst)
    inputs := []
    outputs := (K.streams demuxer).map fun s => (.packets, s.2) }

/-- The tap for one stream of an input. -/
def inputStream (spec : PipelineSpec K) (input streamIndex : Nat) : Except Error PacketTap :=
  match spec.nodes[input]? with
  | none => .error (.invalidData "no such input")
  | some node =>
      match node.kind with
      | .demux _ streamOfPort =>
          match streamOfPort.findIdx? (· = streamIndex) with
          | none => .error (.invalidData "the input has no such stream")
          | some port => .ok ⟨⟨input, port⟩⟩
      | _ => .error (.invalidData "that handle is not an input")

/-- Add an output file. -/
def addOutput (spec : PipelineSpec K) (builder : K.Builder) : PipelineSpec K × Nat :=
  spec.push {
    label := "output " ++ toString spec.nodes.length
    kind := .mux (some builder) []
    inputs := []
    outputs := [] }

/-- Attach a decoder to a packet producer. -/
def addDecoder (spec : PipelineSpec K) (src : PacketTap) (decoder : K.Decoder) :
    Except Error (PipelineSpec K × FrameTap) :=
  match spec.outOf src.tap with
  | .error e => .error e
  | .ok (_, tb) =>
      let (spec, id) := spec.push {
        label := "decode " ++ tapName src.tap
        kind := .decode decoder
        inputs := [(src.tap, tb)]
        outputs := [(.frames, tb)] }
      .ok (spec, ⟨⟨id, 0⟩⟩)

/-- Attach an encoder to a frame producer. -/
def addEncoder (spec : PipelineSpec K) (src : FrameTap) (encoder : K.Encoder)
    (timeBase : TimeBase) : Except Error (PipelineSpec K × PacketTap) :=
  match spec.outOf src.tap with
  | .error e => .error e
  | .ok _ =>
      let (spec, id) := spec.push {
        label := "encode " ++ tapName src.tap
        kind := .encode encoder
        inputs := [(src.tap, timeBase)]
        outputs := [(.packets, timeBase)] }
      .ok (spec, ⟨⟨id, 0⟩⟩)

/-- End a stream after at most `count` items. -/
def limit (spec : PipelineSpec K) (src : Tap) (count : Nat) :
    Except Error (PipelineSpec K × Nat) :=
  match spec.outOf src with
  | .error e => .error e
  | .ok (flow, tb) =>
      .ok (spec.push {
        label := "limit " ++ tapName src ++ " to " ++ toString count
        kind := .limit count
        inputs := [(src, tb)]
        outputs := [(flow, tb)] })

/-- End one encoded stream after at most `count` frames. -/
def limitFrames (spec : PipelineSpec K) (src : FrameTap) (count : Nat) :
    Except Error (PipelineSpec K × FrameTap) :=
  (spec.limit src.tap count).map fun (spec, id) => (spec, ⟨⟨id, 0⟩⟩)

/-- End one copied stream after at most `count` packets. -/
def limitPackets (spec : PipelineSpec K) (src : PacketTap) (count : Nat) :
    Except Error (PipelineSpec K × PacketTap) :=
  (spec.limit src.tap count).map fun (spec, id) => (spec, ⟨⟨id, 0⟩⟩)

/-- Insert a frame bridge of some kind. -/
def addBridge (spec : PipelineSpec K) (kind : KindSpec K) (src : FrameTap)
    (timeBase : TimeBase) (format : String) : Except Error (PipelineSpec K × FrameTap) :=
  match spec.outOf src.tap with
  | .error e => .error e
  | .ok _ =>
      let (spec, id) := spec.push {
        label := "convert " ++ tapName src.tap ++ " -> " ++ format
        kind := kind
        inputs := [(src.tap, timeBase)]
        outputs := [(.frames, timeBase)] }
      .ok (spec, ⟨⟨id, 0⟩⟩)

/-- Insert a pixel-format converter. -/
def addConverter (spec : PipelineSpec K) (src : FrameTap) (scaler : K.Scaler)
    (timeBase : TimeBase) (format : String) : Except Error (PipelineSpec K × FrameTap) :=
  spec.addBridge (.convert scaler) src timeBase format

/-- Insert a sample-format converter. -/
def addSampleConverter (spec : PipelineSpec K) (src : FrameTap) (resampler : K.Resampler)
    (timeBase : TimeBase) (format : String) : Except Error (PipelineSpec K × FrameTap) :=
  spec.addBridge (.convertAudio resampler) src timeBase format

/-- The bound inputs of a graph. -/
def bindSources (spec : PipelineSpec K) : List SourceBind → Except Error (List (Tap × TimeBase))
  | [] => .ok []
  | bind :: rest =>
      match spec.outOf bind.tap.tap with
      | .error e => .error e
      | .ok _ =>
          match spec.bindSources rest with
          | .error e => .error e
          | .ok inputs => .ok ((bind.tap.tap, bind.timeBase) :: inputs)

/-- What the sinks of a graph carry. -/
def bindSinks (graph : K.Graph) : List Nat → Except Error (List (Flow × TimeBase))
  | [] => .ok []
  | sink :: rest =>
      match K.sinkTimeBase graph sink with
      | .error e => .error e
      | .ok tb =>
          match bindSinks graph rest with
          | .error e => .error e
          | .ok outputs => .ok ((.frames, tb) :: outputs)

/-- Attach a configured filter graph. -/
def addFilter (spec : PipelineSpec K) (graph : K.Graph) (sources : List SourceBind)
    (sinks : List Nat) : Except Error (PipelineSpec K × List FrameTap) :=
  match spec.bindSources sources with
  | .error e => .error e
  | .ok inputs =>
      match bindSinks graph sinks with
      | .error e => .error e
      | .ok outputs =>
          let (spec, id) := spec.push {
            label := "filter " ++ toString spec.nodes.length
            kind := .filter graph (sources.map SourceBind.node) sinks
            inputs := inputs
            outputs := outputs }
          .ok (spec, (List.range sinks.length).map fun port => ⟨⟨id, port⟩⟩)

/-- Route a packet producer into an output file. -/
def map (spec : PipelineSpec K) (src : PacketTap) (dst : Nat) (params : K.Params) :
    Except Error (PipelineSpec K × Nat) :=
  match spec.outOf src.tap with
  | .error e => .error e
  | .ok (flow, tb) =>
      if flow ≠ .packets then
        .error (.invalidData "only packets can be muxed")
      else
        match spec.nodes[dst]? with
        | none => .error (.invalidData "no such output")
        | some node =>
            match node.kind with
            | .mux none _ =>
                .error (.invalidData "the output's muxer has already been opened")
            | .mux (some builder) streamOfPort =>
                match K.addStream builder params tb with
                | (.error e, _) => .error e
                | (.ok index, builder) =>
                    let node := { node with
                      kind := .mux (some builder) (streamOfPort ++ [index])
                      inputs := node.inputs ++ [(src.tap, tb)] }
                    .ok ({ spec with nodes := spec.nodes.set dst node }, index)
            | _ => .error (.invalidData "that handle is not an output")

inductive Declared : PipelineSpec K → Prop where
  | new (capacity : Capacity) (limits : Limits) (maxInputErrors : Nat) :
      Declared (PipelineSpec.new capacity limits maxInputErrors)
  | configure {spec : PipelineSpec K} (h : Declared spec) (capacity : Capacity)
      (limits : Limits) (maxInputErrors : Nat) :
      Declared { spec with
        capacity := capacity, limits := limits, maxInputErrors := maxInputErrors }
  | addInput {spec : PipelineSpec K} (h : Declared spec) (demuxer : K.Demuxer) :
      Declared (spec.addInput demuxer).1
  | addOutput {spec : PipelineSpec K} (h : Declared spec) (builder : K.Builder) :
      Declared (spec.addOutput builder).1
  | addDecoder {spec : PipelineSpec K} {r : PipelineSpec K × FrameTap} (h : Declared spec)
      (src : PacketTap) (decoder : K.Decoder) (hr : spec.addDecoder src decoder = .ok r) :
      Declared r.1
  | addEncoder {spec : PipelineSpec K} {r : PipelineSpec K × PacketTap} (h : Declared spec)
      (src : FrameTap) (encoder : K.Encoder) (timeBase : TimeBase)
      (hr : spec.addEncoder src encoder timeBase = .ok r) : Declared r.1
  | limitFrames {spec : PipelineSpec K} {r : PipelineSpec K × FrameTap} (h : Declared spec)
      (src : FrameTap) (count : Nat) (hr : spec.limitFrames src count = .ok r) : Declared r.1
  | limitPackets {spec : PipelineSpec K} {r : PipelineSpec K × PacketTap} (h : Declared spec)
      (src : PacketTap) (count : Nat) (hr : spec.limitPackets src count = .ok r) :
      Declared r.1
  | addConverter {spec : PipelineSpec K} {r : PipelineSpec K × FrameTap} (h : Declared spec)
      (src : FrameTap) (scaler : K.Scaler) (timeBase : TimeBase) (format : String)
      (hr : spec.addConverter src scaler timeBase format = .ok r) : Declared r.1
  | addSampleConverter {spec : PipelineSpec K} {r : PipelineSpec K × FrameTap}
      (h : Declared spec) (src : FrameTap) (resampler : K.Resampler) (timeBase : TimeBase)
      (format : String) (hr : spec.addSampleConverter src resampler timeBase format = .ok r) :
      Declared r.1
  | addFilter {spec : PipelineSpec K} {r : PipelineSpec K × List FrameTap} (h : Declared spec)
      (graph : K.Graph) (sources : List SourceBind) (sinks : List Nat)
      (hr : spec.addFilter graph sources sinks = .ok r) : Declared r.1
  | map {spec : PipelineSpec K} {r : PipelineSpec K × Nat} (h : Declared spec)
      (src : PacketTap) (dst : Nat) (params : K.Params)
      (hr : spec.map src dst params = .ok r) : Declared r.1

end PipelineSpec

/-! ## Building -/

namespace KindSpec

/-- Rank of a node: the more downstream, the higher. -/
def priority : KindSpec K → Nat
  | .mux .. => 4
  | .encode _ => 3
  | .limit _ => 3
  | .filter .. => 2
  | .convert _ => 2
  | .convertAudio _ => 2
  | .decode _ => 1
  | .demux .. => 0

/-- The port that each stream of a demuxer leaves on, if something is wired to it. -/
def portForStream (streamOfPort : List Nat) (outputs : List (List Nat)) : List (Option Nat) :=
  streamOfPort.zipIdx.foldl (fun slots (stream, port) =>
    if (outputs[port]?.map fun ids => !ids.isEmpty).getD false then
      slots.set stream (some port)
    else
      slots) (List.replicate (streamOfPort.max?.getD 0 + 1) none)

/-- The component of a new node. -/
def buildWork (kind : KindSpec K) (outputs : List (List Nat)) (maxInputErrors : Nat) :
    Except Error (Work K) :=
  match kind with
  | .demux demuxer streamOfPort =>
      .ok (.demux {
        demuxer := demuxer
        portForStream := portForStream streamOfPort outputs
        lastPts := List.replicate streamOfPort.length none
        finished := false
        maxErrors := maxInputErrors
        errors := 0 })
  | .decode decoder => .ok (.decode (.new ⟨decoder⟩))
  | .encode encoder => .ok (.encode (.new ⟨encoder⟩))
  | .limit remaining => .ok (.limit { remaining := remaining, finished := false, lastPts := none })
  | .convert scaler =>
      .ok (.convert (.new ⟨{ inner := scaler, pending := none, eof := false }⟩))
  | .convertAudio resampler =>
      .ok (.convertAudio (.new ⟨{ inner := resampler, pending := none, eof := false }⟩))
  | .filter graph sources sinks =>
      .ok (.filter {
        graph := graph
        sources := sources
        sinks := sinks
        sinkClosed := List.replicate sinks.length false
        lastPts := List.replicate sinks.length none
        stashed := []
        pendingEof := []
        pendingOutput := false })
  | .mux none _ =>
      .error (.invalidData "an output's muxer builder was already consumed")
  | .mux (some builder) streamOfPort =>
      match K.openWriter builder with
      | .error e => .error e
      | .ok writer => .ok (.mux { writer := some writer, streamIndex := streamOfPort, calls := [] })

end KindSpec

namespace PipelineSpec

/-- A node before it is wired. -/
def initialMeta (s : NodeSpec K) : NodeMeta where
  label := s.label
  priority := s.kind.priority
  inputs := []
  outputs := List.replicate s.outputs.length []
  lastRun := 0

/-- Make the wire of one input. -/
def wireInput (spec : PipelineSpec K) (i : Nat) (s : List NodeMeta × List Wire)
    (input : Tap × TimeBase) : Except Error (List NodeMeta × List Wire) :=
  match spec.nodes[input.1.node]?.bind fun n => n.outputs[input.1.port]? with
  | none => .error (.invalidData "a tap names a port that does not exist")
  | some (flow, producerTb) =>
      match s.1[input.1.node]?.bind fun m => m.outputs[input.1.port]? with
      | none => .error (.invalidData "a tap names a port that does not exist")
      | some _ =>
          let id := s.2.length
          let metas := s.1.modify input.1.node fun m =>
            { m with outputs := m.outputs.modify input.1.port (· ++ [id]) }
          if i < metas.length then
            .ok (metas.modify i fun m =>
                { m with inputs := m.inputs ++
                  [{ wire := id, timeBase := input.2, eofDelivered := false }] },
              s.2 ++ [Wire.new flow spec.capacity producerTb])
          else
            .error (.invalidData "node index out of range")

/-- Make the wires of one node. -/
def wireInputs (spec : PipelineSpec K) (i : Nat) :
    List (Tap × TimeBase) → List NodeMeta × List Wire → Except Error (List NodeMeta × List Wire)
  | [], s => .ok s
  | input :: rest, s =>
      match spec.wireInput i s input with
      | .error e => .error e
      | .ok s => spec.wireInputs i rest s

/-- Make the wires of all nodes from some place on. -/
def wireNodes (spec : PipelineSpec K) :
    Nat → List (NodeSpec K) → List NodeMeta × List Wire → Except Error (List NodeMeta × List Wire)
  | _, [], s => .ok s
  | i, node :: rest, s =>
      match spec.wireInputs i node.inputs s with
      | .error e => .error e
      | .ok s => spec.wireNodes (i + 1) rest s

/-- Make the components of all nodes. -/
def buildAll (maxInputErrors : Nat) :
    List (NodeSpec K) → List NodeMeta → Except Error (List (Option (Work K)))
  | [], _ => .ok []
  | node :: rest, metas =>
      match node.kind.buildWork ((metas.head?.map NodeMeta.outputs).getD []) maxInputErrors with
      | .error e => .error e
      | .ok work =>
          match buildAll maxInputErrors rest metas.tail with
          | .error e => .error e
          | .ok works => .ok (some work :: works)

/-- Turn the declaration into a pipeline. -/
def build (spec : PipelineSpec K) : Except Error (Pipeline K) :=
  match spec.wireNodes 0 spec.nodes (spec.nodes.map initialMeta, []) with
  | .error e => .error e
  | .ok (metas, wires) =>
      match buildAll spec.maxInputErrors spec.nodes metas with
      | .error e => .error e
      | .ok work =>
          .ok {
            nodes := metas
            work := work
            wires := wires
            budget := Budget.new spec.limits
            cancel := false
            stopReading := false
            guard := ProgressGuard.new
            steps := 0
            peakBytes := 0 }

end PipelineSpec

/-! ## What every declared specification has -/

/-- The number of ports that a kind of node needs. -/
def KindSpec.Fits (kind : KindSpec K) (inputs outputs : Nat) : Prop :=
  match kind with
  | .demux .. => inputs = 0
  | .filter _ sources sinks => inputs = sources.length ∧ outputs = sinks.length
  | .mux _ streamOfPort => inputs = streamOfPort.length
  | _ => inputs = 1

/-- Every node has the ports its kind needs. -/
def PipelineSpec.WellFormed (spec : PipelineSpec K) : Prop :=
  ∀ n ∈ spec.nodes, n.kind.Fits n.inputs.length n.outputs.length

namespace PipelineSpec

variable {spec : PipelineSpec K}

theorem WellFormed.push (h : spec.WellFormed) {node : NodeSpec K}
    (hnode : node.kind.Fits node.inputs.length node.outputs.length) :
    (spec.push node).1.WellFormed := by
  intro n hn
  rcases List.mem_append.1 hn with hn | hn
  · exact h n hn
  · rw [List.mem_singleton.1 hn]
    exact hnode

theorem bindSources_length {sources : List SourceBind} {inputs : List (Tap × TimeBase)}
    (h : spec.bindSources sources = .ok inputs) : inputs.length = sources.length := by
  induction sources generalizing inputs with
  | nil =>
      cases h
      rfl
  | cons bind rest ih =>
      simp only [bindSources] at h
      split at h
      · cases h
      · split at h
        · cases h
        · rename_i hrest
          cases h
          simp [ih hrest]

theorem bindSinks_length {graph : K.Graph} {sinks : List Nat} {outputs : List (Flow × TimeBase)}
    (h : bindSinks graph sinks = .ok outputs) : outputs.length = sinks.length := by
  induction sinks generalizing outputs with
  | nil =>
      cases h
      rfl
  | cons sink rest ih =>
      simp only [bindSinks] at h
      split at h
      · cases h
      · split at h
        · cases h
        · rename_i hrest
          cases h
          simp [ih hrest]

theorem WellFormed.limit (h : spec.WellFormed) {src : Tap} {count : Nat}
    {r : PipelineSpec K × Nat} (hr : spec.limit src count = .ok r) : r.1.WellFormed := by
  unfold PipelineSpec.limit at hr
  split at hr
  · cases hr
  · cases hr
    exact h.push rfl

theorem WellFormed.addBridge (h : spec.WellFormed) {kind : KindSpec K} {src : FrameTap}
    {timeBase : TimeBase} {format : String} {r : PipelineSpec K × FrameTap}
    (hkind : kind.Fits 1 1) (hr : spec.addBridge kind src timeBase format = .ok r) :
    r.1.WellFormed := by
  unfold PipelineSpec.addBridge at hr
  split at hr
  · cases hr
  · cases hr
    exact h.push hkind

theorem WellFormed.addFilter (h : spec.WellFormed) {graph : K.Graph}
    {sources : List SourceBind} {sinks : List Nat} {r : PipelineSpec K × List FrameTap}
    (hr : spec.addFilter graph sources sinks = .ok r) : r.1.WellFormed := by
  unfold PipelineSpec.addFilter at hr
  split at hr
  · cases hr
  · rename_i hinputs
    split at hr
    · cases hr
    · rename_i houtputs
      cases hr
      exact h.push ⟨by rw [List.length_map, bindSources_length hinputs],
        bindSinks_length houtputs⟩

/-- Mapping a stream gives the muxer one input and one stream. -/
theorem WellFormed.map (h : spec.WellFormed) {src : PacketTap} {dst : Nat} {params : K.Params}
    {r : PipelineSpec K × Nat} (hr : spec.map src dst params = .ok r) : r.1.WellFormed := by
  unfold PipelineSpec.map at hr
  split at hr
  · cases hr
  split at hr
  · cases hr
  split at hr
  · cases hr
  rename_i node hnode
  split at hr
  · cases hr
  · rename_i builder streamOfPort hkind
    split at hr
    · cases hr
    · cases hr
      intro n hn
      rcases List.mem_or_eq_of_mem_set hn with hn | rfl
      · exact h n hn
      · have hfits := h node (List.mem_of_getElem? hnode)
        rw [hkind] at hfits
        simpa [KindSpec.Fits] using hfits
  · cases hr

/-- Every declared specification is well formed. -/
theorem Declared.wellFormed (h : spec.Declared) : spec.WellFormed := by
  induction h with
  | new => exact fun n hn => nomatch hn
  | configure _ _ _ _ ih => exact ih
  | addInput _ _ ih => exact ih.push rfl
  | addOutput _ _ ih => exact ih.push rfl
  | addDecoder _ _ _ hr ih =>
      unfold PipelineSpec.addDecoder at hr
      split at hr
      · cases hr
      · cases hr
        exact ih.push rfl
  | addEncoder _ _ _ _ hr ih =>
      unfold PipelineSpec.addEncoder at hr
      split at hr
      · cases hr
      · cases hr
        exact ih.push rfl
  | @limitFrames spec r _ src count hr ih =>
      unfold PipelineSpec.limitFrames at hr
      rcases hlimit : spec.limit src.tap count with e | r'
      · simp [hlimit, Except.map] at hr
      · simp only [hlimit, Except.map, Except.ok.injEq] at hr
        subst hr
        exact ih.limit hlimit
  | @limitPackets spec r _ src count hr ih =>
      unfold PipelineSpec.limitPackets at hr
      rcases hlimit : spec.limit src.tap count with e | r'
      · simp [hlimit, Except.map] at hr
      · simp only [hlimit, Except.map, Except.ok.injEq] at hr
        subst hr
        exact ih.limit hlimit
  | addConverter _ _ scaler _ _ hr ih =>
      have hkind : (KindSpec.convert scaler).Fits 1 1 := rfl
      exact ih.addBridge hkind hr
  | addSampleConverter _ _ resampler _ _ hr ih =>
      have hkind : (KindSpec.convertAudio resampler).Fits 1 1 := rfl
      exact ih.addBridge hkind hr
  | addFilter _ _ _ _ hr ih => exact ih.addFilter hr
  | map _ _ _ _ hr ih => exact ih.map hr

end PipelineSpec

/-! ## What every built pipeline has -/

/-- The number of ports that a component needs. -/
def Work.Fits (work : Work K) (inputs outputs : Nat) : Prop :=
  match work with
  | .abandoned => True
  | .demux _ => inputs = 0
  | .filter f =>
      inputs = f.sources.length ∧ outputs = f.sinks.length ∧ f.sinkClosed.length = f.sinks.length
  | .mux m => inputs = m.streamIndex.length
  | _ => inputs = 1

/-- A component that has not run. -/
def Work.IsNew : Work K → Prop
  | .abandoned => False
  | .limit l => l.finished = false
  | .demux d => d.finished = false
  | .decode c => c = .new c.side
  | .encode c => c = .new c.side
  | .convert c => c = .new c.side
  | .convertAudio c => c = .new c.side
  | .filter f =>
      f.stashed = [] ∧ f.pendingEof = [] ∧ f.pendingOutput = false ∧
        f.sinkClosed = List.replicate f.sinks.length false
  | .mux m => m.writer.isSome

namespace Pipeline

/-- Each wire is the input of exactly one port, and each component fits its node. -/
structure Wired (p : Pipeline K) : Prop where
  length_eq : p.work.length = p.nodes.length
  inputs_eq : (p.nodes.map NodeMeta.inputs).flatten.map InPort.wire = List.range p.wires.length
  fits : ∀ (i : Nat) (m : NodeMeta) (work : Work K), p.nodes[i]? = some m →
    p.workAt i = some work → work.Fits m.inputs.length m.outputs.length

/-- A pipeline that has not been stepped. -/
structure Fresh (p : Pipeline K) : Prop where
  wires_new : ∀ w ∈ p.wires, ∃ flow cap timeBase, w = Wire.new flow cap timeBase
  ports_new : ∀ m ∈ p.nodes, ∀ q ∈ m.inputs, q.eofDelivered = false
  work_new : ∀ (i : Nat) (work : Work K), p.workAt i = some work → work.IsNew
  budget_new : ∃ limits, p.budget = Budget.new limits
  running : p.cancel = false ∧ p.stopReading = false ∧ p.guard = ProgressGuard.new

end Pipeline

namespace PipelineSpec

variable {spec : PipelineSpec K}

/-- A function of the entries that an update of one entry acts on through `k`. -/
theorem map_modify_of {α β : Type} {f : α → β} {g : α → α} {k : β → β}
    (h : ∀ a, f (g a) = k (f a)) (l : List α) (i : Nat) :
    (l.modify i g).map f = (l.map f).modify i k := by
  apply List.ext_getElem?
  intro j
  simp only [List.getElem?_map, List.getElem?_modify]
  rcases l[j]? with _ | a
  · rfl
  · simp only [Option.map_some]
    split <;> simp [h]

theorem map_modify_same {α β : Type} {f : α → β} {g : α → α} (h : ∀ a, f (g a) = f a)
    (l : List α) (i : Nat) : (l.modify i g).map f = l.map f :=
  (map_modify_of (k := id) h l i).trans (List.modify_id _ _)

/-- What making one wire changes. -/
theorem wireInput_eq_ok {i : Nat} {s s' : List NodeMeta × List Wire} {input : Tap × TimeBase}
    (h : spec.wireInput i s input = .ok s') :
    s'.1.map (fun m => m.outputs.length) = s.1.map (fun m => m.outputs.length) ∧
      s'.1.map NodeMeta.inputs = (s.1.map NodeMeta.inputs).modify i
        (· ++ [{ wire := s.2.length, timeBase := input.2, eofDelivered := false }]) ∧
      ∃ flow timeBase, s'.2 = s.2 ++ [Wire.new flow spec.capacity timeBase] := by
  unfold wireInput at h
  split at h
  · cases h
  · rename_i flow producerTb _
    split at h
    · cases h
    · simp only at h
      split at h
      · cases h
        refine ⟨?_, ?_, flow, producerTb, rfl⟩
        · rw [map_modify_same, map_modify_same]
          · exact fun m => List.length_modify ..
          · exact fun _ => rfl
        · rw [← map_modify_same (f := NodeMeta.inputs) _ s.1 input.1.node, map_modify_of]
          · exact fun _ => rfl
          · exact fun _ => rfl
      · cases h

/-- What making the wires of one node changes. -/
theorem wireInputs_eq_ok {i : Nat} {inputs : List (Tap × TimeBase)}
    {s s' : List NodeMeta × List Wire} (h : spec.wireInputs i inputs s = .ok s') :
    s'.1.map (fun m => m.outputs.length) = s.1.map (fun m => m.outputs.length) ∧
      ∃ (ports : List InPort) (wires : List Wire),
        s'.1.map NodeMeta.inputs = (s.1.map NodeMeta.inputs).modify i (· ++ ports) ∧
          s'.2 = s.2 ++ wires ∧ ports.length = inputs.length ∧
          ports.map InPort.wire = List.range' s.2.length wires.length ∧
          (∀ q ∈ ports, q.eofDelivered = false) ∧
          ∀ w ∈ wires, ∃ flow cap timeBase, w = Wire.new flow cap timeBase := by
  induction inputs generalizing s with
  | nil =>
      cases h
      refine ⟨rfl, [], [], ?_, by simp, rfl, rfl, by simp, by simp⟩
      apply List.ext_getElem?
      intro j
      simp [List.getElem?_modify]
  | cons input rest ih =>
      simp only [wireInputs] at h
      split at h
      · cases h
      · rename_i s₁ hone
        rcases wireInput_eq_ok hone with ⟨hout, hin, flow, tb, hwires⟩
        rcases ih h with ⟨hout', ports, wires, hin', hwires', hlen, hids, hnew, hwnew⟩
        refine ⟨hout'.trans hout,
          { wire := s.2.length, timeBase := input.2, eofDelivered := false } :: ports,
          Wire.new flow spec.capacity tb :: wires, ?_, ?_, ?_, ?_, ?_, ?_⟩
        · rw [hin', hin]
          apply List.ext_getElem?
          intro j
          simp only [List.getElem?_modify]
          rcases (s.1.map NodeMeta.inputs)[j]? with _ | l
          · rfl
          · split <;> simp
        · rw [hwires', hwires, List.append_assoc, List.singleton_append]
        · simp [hlen]
        · simp only [List.map_cons, List.length_cons, List.range'_succ, hids, hwires,
            List.length_append, List.length_nil, Nat.zero_add]
        · intro q hq
          rcases List.mem_cons.1 hq with rfl | hq
          · rfl
          · exact hnew q hq
        · intro w hw
          rcases List.mem_cons.1 hw with rfl | hw
          · exact ⟨flow, spec.capacity, tb, rfl⟩
          · exact hwnew w hw

theorem modify_append_replicate (done : List (List InPort)) (ports : List InPort) (n : Nat) :
    (done ++ List.replicate (n + 1) []).modify done.length (· ++ ports) =
      (done ++ [ports]) ++ List.replicate n [] := by
  induction done with
  | nil => simp [List.replicate_succ, List.modify_cons]
  | cons l rest ih => simpa [List.modify_succ_cons] using ih

/-- What making all wires from some node on gives. -/
theorem wireNodes_eq_ok {rest : List (NodeSpec K)} {s s' : List NodeMeta × List Wire}
    {done : List (List InPort)} (h : spec.wireNodes done.length rest s = .ok s')
    (hin : s.1.map NodeMeta.inputs = done ++ List.replicate rest.length [])
    (hids : done.flatten.map InPort.wire = List.range s.2.length) :
    s'.1.map (fun m => m.outputs.length) = s.1.map (fun m => m.outputs.length) ∧
      ∃ (ports : List (List InPort)) (wires : List Wire),
        s'.1.map NodeMeta.inputs = done ++ ports ∧ s'.2 = s.2 ++ wires ∧
          ports.map List.length = rest.map (fun n => n.inputs.length) ∧
          (done ++ ports).flatten.map InPort.wire = List.range s'.2.length ∧
          (∀ l ∈ ports, ∀ q ∈ l, q.eofDelivered = false) ∧
          ∀ w ∈ wires, ∃ flow cap timeBase, w = Wire.new flow cap timeBase := by
  induction rest generalizing s done with
  | nil =>
      cases h
      exact ⟨rfl, [], [], by simpa using hin, by simp, rfl, by simpa using hids, by simp, by simp⟩
  | cons node rest ih =>
      simp only [wireNodes] at h
      split at h
      · cases h
      · rename_i s₁ hnode
        rcases wireInputs_eq_ok hnode with ⟨hout, ports, wires, hin₁, hwires, hlen, hid, hnew, hwnew⟩
        rw [hin, List.length_cons, modify_append_replicate] at hin₁
        have hlength : (done ++ [ports]).length = done.length + 1 := by simp
        have hport : ports.length = wires.length := by
          have := congrArg List.length hid
          simpa using this
        have hids₁ : (done ++ [ports]).flatten.map InPort.wire = List.range s₁.2.length := by
          rw [List.flatten_append, List.map_append, hids, hwires, List.length_append,
            List.range_add]
          simp [hid, List.range'_eq_map_range]
        rw [← hlength] at h
        rcases ih h hin₁ hids₁ with ⟨hout', ports', wires', hin', hwires', hlen', hid', hnew', hwnew'⟩
        refine ⟨hout'.trans hout, ports :: ports', wires ++ wires', ?_, ?_, ?_, ?_, ?_, ?_⟩
        · rw [hin', List.append_assoc, List.singleton_append]
        · rw [hwires', hwires, List.append_assoc]
        · simp [hlen, hlen']
        · rw [List.append_assoc, List.singleton_append] at hid'
          exact hid'
        · intro l hl
          rcases List.mem_cons.1 hl with rfl | hl
          · exact hnew
          · exact hnew' l hl
        · intro w hw
          rcases List.mem_append.1 hw with hw | hw
          · exact hwnew w hw
          · exact hwnew' w hw

theorem buildWork_eq_ok {kind : KindSpec K} {outputs : List (List Nat)} {maxErrors : Nat}
    {work : Work K} {n m : Nat} (h : kind.buildWork outputs maxErrors = .ok work)
    (hfits : kind.Fits n m) : work.IsNew ∧ work.Fits n m := by
  cases kind with
  | demux | decode | encode | limit | convert | convertAudio =>
      cases h
      exact ⟨rfl, hfits⟩
  | filter graph sources sinks =>
      cases h
      exact ⟨⟨rfl, rfl, rfl, rfl⟩, hfits.1, hfits.2, by simp⟩
  | mux builder streamOfPort =>
      cases builder with
      | none => cases h
      | some builder =>
          simp only [KindSpec.buildWork] at h
          split at h
          · cases h
          · cases h
            exact ⟨rfl, hfits⟩

/-- What making all components gives. -/
theorem buildAll_eq_ok {maxErrors : Nat} {nodes : List (NodeSpec K)} {metas : List NodeMeta}
    {works : List (Option (Work K))} (h : buildAll maxErrors nodes metas = .ok works)
    (hfits : ∀ n ∈ nodes, n.kind.Fits n.inputs.length n.outputs.length) :
    works.length = nodes.length ∧
      ∀ (i : Nat) (work : Work K), works[i]?.join = some work →
        ∃ n, nodes[i]? = some n ∧ work.IsNew ∧ work.Fits n.inputs.length n.outputs.length := by
  induction nodes generalizing metas works with
  | nil =>
      cases h
      exact ⟨rfl, by simp⟩
  | cons node rest ih =>
      simp only [buildAll] at h
      split at h
      · cases h
      · rename_i work hwork
        split at h
        · cases h
        · rename_i works hrest
          cases h
          rcases ih hrest (fun n hn => hfits n (List.mem_cons_of_mem _ hn)) with ⟨hlen, hget⟩
          refine ⟨by simp [hlen], fun i work' hi => ?_⟩
          cases i with
          | zero =>
              simp only [List.getElem?_cons_zero, Option.join_some, Option.some.injEq] at hi
              subst hi
              exact ⟨node, rfl, buildWork_eq_ok hwork (hfits node (List.mem_cons_self ..))⟩
          | succ i => exact hget i work' (by simpa using hi)

/-- A pipeline built from a well-formed specification is wired and fresh. -/
theorem wired_build {p : Pipeline K} (hspec : spec.WellFormed) (h : spec.build = .ok p) :
    p.Wired ∧ p.Fresh := by
  unfold build at h
  split at h
  · cases h
  rename_i metas wires hwires
  split at h
  · cases h
  rename_i work hwork
  cases h
  have hinitial : (spec.nodes.map initialMeta).map NodeMeta.inputs =
      [] ++ List.replicate spec.nodes.length [] := by
    simp [List.map_map, Function.comp_def, initialMeta, List.map_const']
  rcases @wireNodes_eq_ok K spec spec.nodes (spec.nodes.map initialMeta, []) (metas, wires) []
    hwires hinitial rfl with ⟨hout, ports, made, hin, hmade, hlen, hids, hnew, hwnew⟩
  rcases buildAll_eq_ok hwork hspec with ⟨hworks, hget⟩
  simp only [List.nil_append] at hin hids hmade
  have hmetas : metas.length = spec.nodes.length := by
    have h₁ := congrArg List.length hout
    simpa using h₁
  refine ⟨⟨hworks.trans hmetas.symm, by rw [hin]; exact hids, ?_⟩, ⟨?_, ?_, ?_, ⟨_, rfl⟩, ?_⟩⟩
  · intro i m work' hm hi
    rcases hget i work' hi with ⟨n, hn, _, hfits⟩
    have hinputs : m.inputs.length = n.inputs.length := by
      have h₁ : (ports.map List.length)[i]? = some m.inputs.length := by
        rw [← hin]
        simp [hm]
      rw [hlen] at h₁
      simpa [hn] using h₁.symm
    have houtputs : m.outputs.length = n.outputs.length := by
      have h₁ : (metas.map fun m => m.outputs.length)[i]? = some m.outputs.length := by simp [hm]
      rw [hout] at h₁
      simpa [hn, initialMeta] using h₁.symm
    rw [hinputs, houtputs]
    exact hfits
  · intro w hw
    exact hwnew w (by simpa [hmade] using hw)
  · intro m hm q hq
    refine hnew m.inputs ?_ q hq
    rw [← hin]
    exact List.mem_map_of_mem hm
  · intro i work' hi
    rcases hget i work' hi with ⟨n, _, hn, _⟩
    exact hn
  · exact ⟨rfl, rfl, rfl⟩

end PipelineSpec

end Sched
end Vaco
