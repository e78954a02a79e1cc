import Vaco.Sched.Moves
import Vaco.Sched.PassThrough

/-!
# Accounting for wires and budget

The books of a pipeline balance in every state that calls can lead to: the budget has
committed exactly the bytes queued on the wires, each wire queues what it accepted and
has not handed over, and a port is told of the end of its stream only when the wire
under it is closed and drained.

A run that completes leaves nothing committed, unless an earlier call was cut short by
a push that was refused.  A refused push leaves a finished node behind whose inputs were
not abandoned, and whatever its producers still send stays queued.

Main results:

- `Pipeline.eofHonest_of_reachable`: the end of a stream is told when its wire is closed and
  drained.
- `Pipeline.emitAll_ok_iff`: when all the outputs of a job are accepted.
- `Pipeline.committed_of_complete`: nothing stays committed after a run that completes, provided
  every finished node abandoned its inputs.
- `Pipeline.queued_within_limit`: what is queued fits the declared limit.
-/

namespace Vaco
namespace Sched

open Library Vaco.Core

variable {K : Components}

namespace Pipeline

variable {good : Pipeline K → Done K → Prop} {p p' : Pipeline K} {s s' : Flight K}

/-! ## Ends of streams -/

/-- The wire is closed and drained. -/
def EndedAt (ws : List Wire) (id : Nat) : Prop :=
  ∃ w, ws[id]? = some w ∧ w.atEof = true

/-- Ports that were told of their end have wires that are closed and drained. -/
def HonestPorts (ws : List Wire) (ports : List InPort) : Prop :=
  ∀ q ∈ ports, q.eofDelivered = true → EndedAt ws q.wire

/-- Every port of a pipeline is honest. -/
def EofHonest (p : Pipeline K) : Prop :=
  ∀ ports ∈ p.nodes.map NodeMeta.inputs, HonestPorts p.wires ports

theorem EndedAt.mono {ws ws' : List Wire} {id : Nat} (h : EndedAt ws id)
    (hevolve : WiresEvolve ws ws') : EndedAt ws' id := by
  rcases h with ⟨w, hw, heof⟩
  rcases hevolve.get hw with ⟨w', hw', hww'⟩
  exact ⟨w', hw', hww'.atEof heof⟩

theorem HonestPorts.mono {ws ws' : List Wire} {ports : List InPort} (h : HonestPorts ws ports)
    (hevolve : WiresEvolve ws ws') : HonestPorts ws' ports :=
  fun q hq heof => (h q hq heof).mono hevolve

/-- Taking inputs tells a port of its end only when its wire has ended. -/
theorem takeInputs_honest (work : Work K) (port : Nat) {slots : List InPort} {t : Pool}
    (h : HonestPorts t.1 slots) :
    HonestPorts (takeInputs work port slots t).pool.1 (takeInputs work port slots t).slots := by
  induction slots generalizing port t with
  | nil => exact fun q hq => nomatch hq
  | cons slot rest ih =>
      rcases t with ⟨ws, b⟩
      have hslot := h slot (List.mem_cons_self ..)
      have hrest : HonestPorts ws rest := fun q hq => h q (List.mem_cons_of_mem _ hq)
      unfold takeInputs
      split
      · rename_i hw
        intro q hq heof
        rcases List.mem_cons.1 hq with rfl | hq
        · rcases hslot heof with ⟨w, hw', _⟩
          rw [hw] at hw'
          cases hw'
        · exact ih (port + 1) hrest q hq heof
      · rename_i wire hw
        have hone := (WireMoves.evolves (takeItems_moves work port wire.timeBase slot.timeBase
          work.batch b hw))
        simp only at hone
        have hset : (ws.set slot.wire
            (takeItems work port wire.timeBase slot.timeBase work.batch wire b).1)[slot.wire]? =
              some (takeItems work port wire.timeBase slot.timeBase work.batch wire b).1 := by
          rcases List.getElem?_eq_some_iff.1 hw with ⟨hlt, _⟩
          simp [hlt]
        rcases htake : takeItems work port wire.timeBase slot.timeBase work.batch wire b with
          ⟨w, b', items⟩
        rw [htake] at hone hset
        simp only at hone hset ⊢
        have htail :=
          WireMoves.evolves (takeInputs_moves work (port + 1) rest (ws.set slot.wire w, b'))
        have hafter := @ih (port + 1) (ws.set slot.wire w, b') (hrest.mono hone)
        split
        · rename_i hend
          simp only [Bool.and_eq_true] at hend
          intro q hq heof
          rcases List.mem_cons.1 hq with rfl | hq
          · exact EndedAt.mono ⟨w, hset, hend.1⟩ htail
          · exact hafter q hq heof
        · intro q hq heof
          rcases List.mem_cons.1 hq with rfl | hq
          · exact ((hslot heof).mono hone).mono htail
          · exact hafter q hq heof

theorem inputs_stamp (p : Pipeline K) (node : Nat) :
    (p.stamp node).nodes.map NodeMeta.inputs = p.nodes.map NodeMeta.inputs := by
  apply PipelineSpec.map_modify_same
  exact fun _ => rfl

/-- Every move but detaching a node keeps the ports. -/
theorem Move.inputs_eq (hmove : Move good s s') :
    s'.1.nodes.map NodeMeta.inputs = s.1.nodes.map NodeMeta.inputs ∨
      ∃ i job, s.1.detach i = (s'.1, some job) := by
  cases hmove with
  | wires hmoves =>
      rcases hmoves with ⟨t, rfl, _⟩
      exact .inl rfl
  | @retire p jobs work m i hwork hm hdone hids =>
      rcases abandonInputs_moves (p.setWork i (some .abandoned)) i with ⟨t, ht, _⟩
      rw [ht]
      exact .inl rfl
  | @stop p jobs d i hwork =>
      rcases closePorts_moves (p.setWork i (some (.demux d.stop.1))) i d.stop.2 with ⟨t, ht, _⟩
      rw [ht]
      exact .inl rfl
  | detach i h => exact .inr ⟨i, _, h⟩
  | miss i h =>
      rcases detach_eq_none h with rfl | rfl
      · exact .inl rfl
      · exact .inl rfl
  | @commit p job jobs _ =>
      rcases checkIn_eq p job.run with ⟨t, ht, _⟩
      rw [ht]
      exact .inl (inputs_stamp _ _)
  | account | drop | cancel | stopReading => exact .inl rfl

theorem Move.eofHonest (hmove : Move good s s') (h : s.1.EofHonest) : s'.1.EofHonest := by
  have hevolve : WiresEvolve s.1.wires s'.1.wires := WireMoves.evolves hmove.wireMoves
  rcases hmove.inputs_eq with hinputs | ⟨i, job, hdetach⟩
  · intro ports hports
    rw [hinputs] at hports
    exact (h ports hports).mono hevolve
  · rcases detach_eq_some hdetach with ⟨m, hm, _, hp', _⟩
    intro ports hports
    rcases List.mem_map.1 hports with ⟨m', hm', rfl⟩
    rw [hp'] at hm'
    rcases List.mem_or_eq_of_mem_set hm' with hold | rfl
    · exact (h m'.inputs (List.mem_map_of_mem hold)).mono hevolve
    · rw [hp']
      exact takeInputs_honest job.work 0
        (h m.inputs (List.mem_map_of_mem (List.mem_of_getElem? hm)))

theorem Moves.eofHonest (hmoves : Moves good s s') (h : s.1.EofHonest) : s'.1.EofHonest := by
  induction hmoves with
  | refl => exact h
  | tail _ hmove ih => exact hmove.eofHonest ih

theorem Fresh.eofHonest (hfresh : p.Fresh) : p.EofHonest := by
  intro ports hports q hq heof
  rcases List.mem_map.1 hports with ⟨m, hm, rfl⟩
  rw [hfresh.ports_new m hm q hq] at heof
  cases heof

/-- The ports stay honest whatever is called. -/
theorem eofHonest_of_reachable (hfresh : p.Fresh) (h : Reachable p p') : p'.EofHonest :=
  Moves.eofHonest h.moves hfresh.eofHonest

/-! ## Pushes that are accepted -/

/-- Push each item onto the wire it is for. -/
def pushSeq : List (Nat × Payload) → Pool → Pool × Except Error Unit
  | [], t => (t, .ok ())
  | x :: rest, (ws, b) =>
      match ws[x.1]? with
      | none => pushSeq rest (ws, b)
      | some w =>
          match w.push x.2 b with
          | .error e => ((ws, b), .error e)
          | .ok (w', b') => pushSeq rest (ws.set x.1 w', b')

def pushes (p : Pipeline K) (node : Nat) (out : Items) : List (Nat × Payload) :=
  out.flatMap fun x =>
    ((p.nodes[node]?.bind fun m => m.outputs[x.1]?).getD []).map fun id => (id, x.2)

/-- Bytes that a push charges. -/
def chargeOf (ws : List Wire) (x : Nat × Payload) : Nat :=
  match ws[x.1]? with
  | none => 0
  | some w => if w.abandoned then 0 else x.2.bytes

/-- Whether a wire that is not abandoned takes the item, as far as the wire goes. -/
def Takes (ws : List Wire) (limits : Limits) (x : Nat × Payload) : Prop :=
  ∀ w, ws[x.1]? = some w → w.abandoned = false →
    w.closed = false ∧ x.2.flow = w.flow ∧ x.2.bytes ≤ limits.maxAllocSingle

/-- Every push is taken by its wire and all of them together fit under the budget. -/
structure Admits (t : Pool) (xs : List (Nat × Payload)) : Prop where
  takes : ∀ x ∈ xs, Takes t.1 t.2.limits x
  total : t.2.committed + (xs.map (chargeOf t.1)).sum ≤ t.2.limits.maxAllocTotal

/-- What decides whether a wire takes an item. -/
def gate (w : Wire) : Bool × Bool × Flow :=
  (w.abandoned, w.closed, w.flow)

theorem gate_set {ws : List Wire} {w w' : Wire} {id : Nat} (hw : ws[id]? = some w)
    (hgate : gate w' = gate w) (j : Nat) : ((ws.set id w')[j]?).map gate = (ws[j]?).map gate := by
  rcases List.getElem?_eq_some_iff.1 hw with ⟨hlt, _⟩
  by_cases hj : id = j
  · subst hj
    rw [hw]
    simp [hlt, hgate]
  · simp [hj]

theorem takes_of_gate {ws ws' : List Wire} {limits : Limits} {x : Nat × Payload}
    (hgate : (ws'[x.1]?).map gate = (ws[x.1]?).map gate) :
    chargeOf ws' x = chargeOf ws x ∧ (Takes ws' limits x ↔ Takes ws limits x) := by
  unfold chargeOf Takes
  rcases hw : ws[x.1]? with _ | w
  · rw [hw] at hgate
    rcases hw' : ws'[x.1]? with _ | w'
    · simp
    · simp [hw'] at hgate
  · rw [hw] at hgate
    rcases hw' : ws'[x.1]? with _ | w'
    · simp [hw'] at hgate
    · simp only [hw', Option.map_some, Option.some.injEq, gate, Prod.mk.injEq] at hgate
      rcases hgate with ⟨ha, hc, hf⟩
      simp [ha, hc, hf]

theorem push_ok_iff {w : Wire} {item : Payload} {b : Budget} (hpending : b.pending = 0)
    (ha : w.abandoned = false) :
    (∃ r, w.push item b = .ok r) ↔
      w.closed = false ∧ item.flow = w.flow ∧ item.bytes ≤ b.limits.maxAllocSingle ∧
        b.committed + item.bytes ≤ b.limits.maxAllocTotal := by
  have hcheck := @Budget.check_eq_ok_iff b item.bytes
  rw [hpending, Nat.add_zero] at hcheck
  unfold Wire.push Budget.charge
  rw [ha]
  by_cases hf : item.flow = w.flow
  · rcases hc : w.closed with _ | _
    · rcases hb : b.check item.bytes with e | u
      · rw [hb] at hcheck
        simpa [hf, not_and] using hcheck
      · rw [hb] at hcheck
        have hfits := hcheck.1 rfl
        simpa [hf] using hfits
    · simp [hf]
  · simp [hf]

/-- When all of a sequence of pushes are accepted. -/
theorem pushSeq_ok_iff {xs : List (Nat × Payload)} {t : Pool} (hpending : t.2.pending = 0)
    (hle : t.2.committed ≤ t.2.limits.maxAllocTotal) :
    (pushSeq xs t).2 = .ok () ↔ Admits t xs := by
  induction xs generalizing t with
  | nil =>
      have hnil : Admits t [] := ⟨by simp, by simpa using hle⟩
      exact ⟨fun _ => hnil, fun _ => rfl⟩
  | cons x rest ih =>
      rcases t with ⟨ws, b⟩
      simp only at hpending hle
      simp only [pushSeq]
      rcases hw : ws[x.1]? with _ | w
      · simp only
        rw [@ih (ws, b) hpending hle]
        have hzero : chargeOf ws x = 0 := by simp [chargeOf, hw]
        constructor
        · rintro ⟨htakes, htotal⟩
          refine ⟨fun y hy => ?_, by simpa [hzero] using htotal⟩
          rcases List.mem_cons.1 hy with rfl | hy
          · intro w' hw'
            rw [hw] at hw'
            cases hw'
          · exact htakes y hy
        · rintro ⟨htakes, htotal⟩
          exact ⟨fun y hy => htakes y (List.mem_cons_of_mem _ hy), by simpa [hzero] using htotal⟩
      · simp only
        rcases ha : w.abandoned with _ | _
        · -- a live wire: the item is charged
          have hpush := @push_ok_iff w x.2 b hpending ha
          have hcharge : chargeOf ws x = x.2.bytes := by simp [chargeOf, hw, ha]
          rcases hres : w.push x.2 b with e | ⟨w', b'⟩
          · simp only [reduceCtorEq, false_iff]
            rintro ⟨htakes, htotal⟩
            have htake := htakes x (List.mem_cons_self ..) w hw ha
            simp only [List.map_cons, List.sum_cons, hcharge] at htotal
            rcases hpush.2 ⟨htake.1, htake.2.1, htake.2.2, by omega⟩ with ⟨r, hr⟩
            rw [hres] at hr
            cases hr
          · rcases hpush.1 ⟨_, hres⟩ with ⟨hc, hf, hsingle, hfits⟩
            rcases Wire.push_eq_ok hres with ⟨habs, _⟩ |
              ⟨_, _, _, hch, _, _, _, _, hc', ha', hf', _⟩
            · rw [ha] at habs
              cases habs
            rcases Budget.charge_eq_ok hch with ⟨rfl, _⟩
            have hgate : gate w' = gate w := by simp [gate, ha, ha', hc, hc', hf']
            have hsame := gate_set hw hgate
            simp only
            rw [ih hpending hfits]
            have hsum : (rest.map (chargeOf (ws.set x.1 w'))).sum = (rest.map (chargeOf ws)).sum := by
              congr 1
              exact List.map_congr_left fun y _ =>
                (@takes_of_gate _ _ b.limits y (hsame y.1)).1
            constructor
            · rintro ⟨htakes, htotal⟩
              simp only [hsum] at htotal
              refine ⟨fun y hy => ?_, by simp only [List.map_cons, List.sum_cons, hcharge]; omega⟩
              rcases List.mem_cons.1 hy with rfl | hy
              · intro v hv _
                rw [hw] at hv
                cases hv
                exact ⟨hc, hf, hsingle⟩
              · exact (takes_of_gate (hsame y.1)).2.1 (htakes y hy)
            · rintro ⟨htakes, htotal⟩
              simp only [List.map_cons, List.sum_cons, hcharge] at htotal
              refine ⟨fun y hy => ?_, by simp only [hsum]; omega⟩
              exact (takes_of_gate (hsame y.1)).2.2 (htakes y (List.mem_cons_of_mem _ hy))
        · -- an abandoned wire swallows the item
          have hres : w.push x.2 b = .ok (w, b) := by simp [Wire.push, ha]
          have hzero : chargeOf ws x = 0 := by simp [chargeOf, hw, ha]
          rw [hres]
          simp only
          rw [set_of_getElem? hw, @ih (ws, b) hpending hle]
          constructor
          · rintro ⟨htakes, htotal⟩
            refine ⟨fun y hy => ?_, by simpa [hzero] using htotal⟩
            rcases List.mem_cons.1 hy with rfl | hy
            · intro w' hw' ha'
              rw [hw] at hw'
              cases hw'
              rw [ha] at ha'
              cases ha'
            · exact htakes y hy
          · rintro ⟨htakes, htotal⟩
            exact ⟨fun y hy => htakes y (List.mem_cons_of_mem _ hy), by simpa [hzero] using htotal⟩

theorem pushAll_eq (item : Payload) (ids : List Nat) (t : Pool) :
    pushAll item ids t = pushSeq (ids.map fun id => (id, item)) t := by
  induction ids generalizing t with
  | nil => rfl
  | cons id rest ih =>
      rcases t with ⟨ws, b⟩
      simp only [pushAll, List.map_cons, pushSeq]
      rcases ws[id]? with _ | w
      · exact ih _
      · simp only
        rcases w.push item b with e | ⟨w', b'⟩
        · rfl
        · exact ih _

theorem pushSeq_append (xs ys : List (Nat × Payload)) (t : Pool) :
    pushSeq (xs ++ ys) t =
      match pushSeq xs t with
      | (t, .error e) => (t, .error e)
      | (t, .ok ()) => pushSeq ys t := by
  induction xs generalizing t with
  | nil => rfl
  | cons x rest ih =>
      rcases t with ⟨ws, b⟩
      simp only [List.cons_append, pushSeq]
      rcases ws[x.1]? with _ | w
      · exact ih _
      · simp only
        rcases w.push x.2 b with e | ⟨w', b'⟩
        · rfl
        · exact ih _

/-- Emitting the outputs of a node is pushing each onto the wires of its port. -/
theorem emitAll_eq (node : Nat) (out : Items) (p : Pipeline K) :
    emitAll node out p =
      (p.withPool (pushSeq (p.pushes node out) p.pool).1,
        (pushSeq (p.pushes node out) p.pool).2) := by
  induction out generalizing p with
  | nil => rfl
  | cons x rest ih =>
      have hcons : p.pushes node (x :: rest) =
          ((p.nodes[node]?.bind fun m => m.outputs[x.1]?).getD []).map (fun id => (id, x.2)) ++
            p.pushes node rest := rfl
      rw [hcons, pushSeq_append]
      simp only [emitAll, emit]
      rcases (p.nodes[node]?.bind fun m => m.outputs[x.1]?) with _ | ids
      · simp only [Option.getD_none, List.map_nil, pushSeq]
        exact ih p
      · simp only [Option.getD_some]
        rw [pushAll_eq]
        rcases pushSeq (ids.map fun id => (id, x.2)) p.pool with ⟨t, e | _⟩
        · rfl
        · simp only
          rw [ih (p.withPool t)]
          rfl

/-- When all the outputs of a job are accepted. -/
theorem emitAll_ok_iff {node : Nat} {out : Items} (h : Ledger p.pool) :
    (emitAll node out p).2 = .ok () ↔ Admits p.pool (p.pushes node out) := by
  rw [emitAll_eq]
  exact pushSeq_ok_iff h.pending_eq h.committed_le

/-! ## Finished nodes and their inputs -/

/-- What a job that has not failed emits is accepted. -/
def Admitted (p : Pipeline K) (done : Done K) : Prop :=
  done.error = none → Admits p.pool (p.pushes done.node done.out)

/-- Nothing that the step of some width emits is refused. -/
def EmissionsFit (p : Pipeline K) (width : Nat) : Prop :=
  p.cancel = false → Commits Admitted (p.plan width).2 (p.plan width).1

/-- The wire is abandoned. -/
def AbandonedAt (ws : List Wire) (id : Nat) : Prop :=
  ∃ w, ws[id]? = some w ∧ w.abandoned = true

/-- The inputs of a finished node are abandoned, unless it is a filter without sinks. -/
def DoneSettled (p : Pipeline K) : Prop :=
  p.cancel = false → ∀ (i : Nat) (m : NodeMeta) (work : Work K), p.nodes[i]? = some m →
    p.workAt i = some work → work.isDone = true →
      (∀ id ∈ m.inputs.map InPort.wire, AbandonedAt p.wires id) ∨
        ∃ f, work = .filter f ∧ f.sinkClosed = []

theorem AbandonedAt.mono {ws ws' : List Wire} {id : Nat} (h : AbandonedAt ws id)
    (hevolve : WiresEvolve ws ws') : AbandonedAt ws' id := by
  rcases h with ⟨w, hw, ha⟩
  rcases hevolve.get hw with ⟨w', hw', hww'⟩
  exact ⟨w', hw', hww'.abandoned ha⟩

/-- Abandoning input wires abandons each of them. -/
theorem abandonWires_abandoned {inputs : List InPort} {t : Pool}
    (h : ∀ id ∈ inputs.map InPort.wire, id < t.1.length) :
    ∀ id ∈ inputs.map InPort.wire, AbandonedAt (inputs.foldl abandonWire t).1 id := by
  induction inputs generalizing t with
  | nil => exact fun id hid => nomatch hid
  | cons input rest ih =>
      rcases t with ⟨ws, b⟩
      intro id hid
      simp only [List.foldl_cons]
      have hmoves := abandonWires_moves rest (abandonWire (ws, b) input)
      have hone := abandonWires_moves [input] (ws, b)
      simp only [List.foldl_cons, List.foldl_nil] at hone
      have hlength := length_of_wireMoves hone
      rcases List.mem_cons.1 hid with rfl | hid
      · refine AbandonedAt.mono ?_ (WireMoves.evolves hmoves)
        have hlt : input.wire < ws.length := h _ (List.mem_cons_self ..)
        refine ⟨(ws[input.wire].abandon b).1, ?_, rfl⟩
        simp [abandonWire, hlt]
      · refine ih (fun id hid => ?_) id hid
        rw [hlength]
        exact h id (List.mem_cons_of_mem _ hid)

theorem Wired.wire_lt (h : p.Wired) {i : Nat} {m : NodeMeta} (hm : p.nodes[i]? = some m) :
    ∀ id ∈ m.inputs.map InPort.wire, id < p.wires.length := by
  intro id hid
  have hmem : id ∈ (p.nodes.map NodeMeta.inputs).flatten.map InPort.wire := by
    rw [List.map_flatten, List.map_map]
    exact List.mem_flatten.2
      ⟨_, List.mem_map.2 ⟨m, List.mem_of_getElem? hm, rfl⟩, hid⟩
  rw [h.inputs_eq] at hmem
  exact List.mem_range.1 hmem

theorem Wired.exists_reader (h : p.Wired) {id : Nat} (hid : id < p.wires.length) :
    ∃ (i : Nat) (m : NodeMeta), p.nodes[i]? = some m ∧ id ∈ m.inputs.map InPort.wire := by
  have hmem : id ∈ (p.nodes.map NodeMeta.inputs).flatten.map InPort.wire := by
    rw [h.inputs_eq]
    exact List.mem_range.2 hid
  rw [List.map_flatten, List.map_map] at hmem
  rcases List.mem_flatten.1 hmem with ⟨l, hl, hid'⟩
  rcases List.mem_map.1 hl with ⟨m, hm, rfl⟩
  rcases List.getElem?_of_mem hm with ⟨i, hi⟩
  exact ⟨i, m, hi, hid'⟩

theorem abandonInputs_abandoned {i : Nat} {m : NodeMeta} (hm : p.nodes[i]? = some m)
    (h : ∀ id ∈ m.inputs.map InPort.wire, id < p.wires.length) :
    ∀ id ∈ m.inputs.map InPort.wire, AbandonedAt (p.abandonInputs i).wires id := by
  intro id hid
  unfold abandonInputs
  rw [hm]
  exact abandonWires_abandoned (t := p.pool) h id hid

theorem DoneSettled.mono (h : p.DoneSettled) (hevolve : WiresEvolve p.wires p'.wires)
    (hcancel : p'.cancel = false → p.cancel = false)
    (hshape : p'.nodes.map shape = p.nodes.map shape)
    (hwork : ∀ (i : Nat) (m : NodeMeta) (work : Work K), p.nodes[i]? = some m →
      p'.workAt i = some work → work.isDone = true → p'.cancel = false →
        p.workAt i = some work ∨ (∀ id ∈ m.inputs.map InPort.wire, AbandonedAt p'.wires id) ∨
          ∃ f, work = .filter f ∧ f.sinkClosed = []) : p'.DoneSettled := by
  intro hc i m' work hm' hi hdone
  rcases exists_of_shape hshape hm' with ⟨m, hm, heq⟩
  have hinputs : m'.inputs.map InPort.wire = m.inputs.map InPort.wire :=
    congrArg Shape.inputs heq
  rw [hinputs]
  rcases hwork i m work hm hi hdone hc with hold | hnew
  · rcases h (hcancel hc) i m work hm hold hdone with habandoned | hfilter
    · exact .inl fun id hid => (habandoned id hid).mono hevolve
    · exact .inr hfilter
  · exact hnew

theorem pushes_stamp (p : Pipeline K) (node : Nat) (w : Option (Work K)) (out : Items) :
    ((p.setWork node w).stamp node).pushes node out = p.pushes node out := by
  unfold pushes
  congr 1
  funext x
  simp only [stamp, setWork, List.getElem?_modify_eq]
  rcases p.nodes[node]? with _ | m <;> rfl

/-- Committing a job whose outputs are accepted settles its node. -/
theorem checkIn_settled {done : Done K} {m : NodeMeta} (hwired : p.Wired) (hledger : Ledger p.pool)
    (hgood : p.Admitted done) (hm : p.nodes[done.node]? = some m) (hdone : done.work.isDone = true)
    (herror : done.error = none) :
    ∀ id ∈ m.inputs.map InPort.wire, AbandonedAt (p.checkIn done).1.wires id := by
  intro id hid
  have hstamped := pushes_stamp p done.node (some done.work) done.out
  have hpool : Ledger ((p.setWork done.node (some done.work)).stamp done.node).pool := hledger
  have hemit := (emitAll_ok_iff hpool).2 (by rw [hstamped]; exact hgood herror)
  have hmoves := emitAll_moves done.node done.out
    ((p.setWork done.node (some done.work)).stamp done.node)
  unfold checkIn
  simp only [herror]
  split
  · rename_i h
    rw [h] at hemit
    cases hemit
  · rename_i p₁ h
    rw [h] at hmoves
    rw [if_pos hdone]
    rcases hmoves with ⟨t, rfl, hwires⟩
    rcases closePorts_moves
      (((p.setWork done.node (some done.work)).stamp done.node).withPool t) done.node done.close with
      ⟨t', ht', hwires'⟩
    rw [ht']
    have hm' : ((p.setWork done.node (some done.work)).stamp done.node).nodes[done.node]? =
        some { m with lastRun := satAddU64 p.steps 1 } := by
      simp [stamp, setWork, hm]
    have hlength : t'.1.length = p.wires.length :=
      (length_of_wireMoves hwires').trans (length_of_wireMoves hwires)
    refine abandonInputs_abandoned (p := (((p.setWork done.node (some done.work)).stamp
      done.node).withPool t).withPool t') hm' (fun id hid => ?_) id hid
    have hlt := hwired.wire_lt hm id hid
    exact lt_of_lt_of_eq hlt hlength.symm

/-- What holds of a pipeline as long as no push is refused. -/
structure Settled (s : Flight K) : Prop where
  wired : FlightWired s
  ledger : Ledger s.1.pool
  done : s.1.DoneSettled

/-- Every move without a refused push keeps finished nodes settled. -/
theorem Move.settled (hmove : Move Admitted s s') (h : Settled s) : Settled s' := by
  have hevolve : WiresEvolve s.1.wires s'.1.wires := WireMoves.evolves hmove.wireMoves
  refine ⟨hmove.wired h.wired, WireMoves.ledger hmove.wireMoves h.ledger, ?_⟩
  have hwired := h.wired.wired
  cases hmove with
  | wires hmoves =>
      rcases hmoves with ⟨t, rfl, _⟩
      exact h.done.mono hevolve id rfl fun _ _ _ _ hi _ _ => .inl hi
  | @retire p jobs work m i hwork hm hdone hids =>
      rcases abandonInputs_moves (p.setWork i (some .abandoned)) i with ⟨t, ht, _⟩
      have habandoned := abandonInputs_abandoned (p := p.setWork i (some .abandoned)) hm
        (hwired.wire_lt hm)
      rw [ht] at hevolve habandoned ⊢
      refine h.done.mono hevolve id rfl fun j m' w hm' hj _ _ => ?_
      rcases workAt_setWork_cases hj with ⟨rfl, _⟩ | hold
      · have heq : m' = m := Option.some.inj (hm'.symm.trans hm)
        rw [heq]
        exact .inr (.inl habandoned)
      · exact .inl hold
  | @stop p jobs d i hwork =>
      rcases closePorts_moves (p.setWork i (some (.demux d.stop.1))) i d.stop.2 with ⟨t, ht, _⟩
      rw [ht] at hevolve ⊢
      refine h.done.mono hevolve id rfl fun j m' w hm' hj _ _ => ?_
      rcases workAt_setWork_cases hj with ⟨rfl, _⟩ | hold
      · -- a demuxer has no inputs
        have hfits : m'.inputs.length = 0 := hwired.fits _ m' _ hm' hwork
        rw [List.length_eq_zero_iff.1 hfits]
        exact .inr (.inl fun id hid => nomatch hid)
      · exact .inl hold
  | @detach p p' jobs job i hdetach =>
      rcases detach_eq_some hdetach with ⟨m, hm, hwork, rfl, rfl, _⟩
      refine h.done.mono hevolve id ?_ fun j m' w hm' hj _ _ => ?_
      · apply map_shape_set hm
        simp [shape, takeInputs_wires]
      · rcases workAt_setWork_cases hj with ⟨_, hw⟩ | hold
        · cases hw
        · exact .inl hold
  | @miss p p' jobs i hdetach =>
      rcases detach_eq_none hdetach with rfl | rfl
      · exact h.done
      · refine h.done.mono hevolve id rfl fun j m' w hm' hj _ _ => ?_
        rcases workAt_setWork_cases hj with ⟨_, hw⟩ | hold
        · cases hw
        · exact .inl hold
  | @commit p job jobs hgood =>
      have hcommitted := @checkIn_settled K p job.run
      rcases checkIn_eq p job.run with ⟨t, ht, _⟩
      rw [ht] at hevolve hcommitted ⊢
      refine h.done.mono hevolve (fun hc => ?_) (shape_stamp _ _) fun j m' w hm' hj hdone hc => ?_
      · have hor : (p.cancel || job.run.error.isSome) = false := hc
        exact (Bool.or_eq_false_iff.1 hor).1
      · rcases workAt_setWork_cases hj with ⟨rfl, hw⟩ | hold
        · cases hw
          have hor : (p.cancel || job.run.error.isSome) = false := hc
          have herror : job.run.error = none := by
            simpa using (Bool.or_eq_false_iff.1 hor).2
          exact .inr (.inl (hcommitted hwired h.ledger hgood hm' hdone herror))
        · exact .inl hold
  | account => exact h.done.mono hevolve id rfl fun _ _ _ _ hi _ _ => .inl hi
  | drop => exact h.done
  | cancel =>
      intro hc
      cases hc
  | stopReading => exact h.done.mono hevolve id rfl fun _ _ _ _ hi _ _ => .inl hi

theorem Moves.settled (hmoves : Moves Admitted s s') (h : Settled s) : Settled s' := by
  induction hmoves with
  | refl => exact h
  | tail _ hmove ih => exact hmove.settled ih

/-- Nothing has finished in a fresh pipeline, but for filters without sinks. -/
theorem Fresh.settled (hfresh : p.Fresh) (hwired : p.Wired) : Settled ((p, []) : Flight K) where
  wired := ⟨hwired, fun _ hjob => nomatch hjob⟩
  ledger := hfresh.ledger
  done := by
    intro _ i m work hm hi hdone
    right
    have hnew := hfresh.work_new i work hi
    cases work with
    | abandoned => exact hnew.elim
    | limit l =>
        have hfinished : l.finished = false := hnew
        simp [Work.isDone, hfinished] at hdone
    | demux d =>
        have hfinished : d.finished = false := hnew
        simp [Work.isDone, hfinished] at hdone
    | decode c | encode c | convert c | convertAudio c =>
        have hstage : c = .new c.side := hnew
        rw [hstage] at hdone
        simp [Work.isDone, CodecWork.new] at hdone
    | filter f =>
        refine ⟨f, rfl, ?_⟩
        have hclosed := hnew.2.2.2
        rcases hsinks : f.sinks.length with _ | n
        · simpa [hsinks] using hclosed
        · simp [Work.isDone, hclosed, hsinks] at hdone
    | mux x =>
        have hwriter : x.writer.isSome := hnew
        simp only [Work.isDone, Option.isNone_iff_eq_none] at hdone
        rw [hdone] at hwriter
        cases hwriter

/-! ## Runs that complete -/

/-- A call in which nothing that is emitted is refused. -/
inductive FittingCall : Pipeline K → Pipeline K → Prop where
  | drive {p : Pipeline K} {width : Nat} (h : p.EmissionsFit width) :
      FittingCall p (p.drive width).1
  | turn {p : Pipeline K} {d : Driver} (h : p.EmissionsFit d.threads) : FittingCall p (d.turn p).1
  | lost (p : Pipeline K) (d : Driver) (hcancel : p.cancel = false) :
      FittingCall p (Driver.lose p d.threads)
  | cancel (p : Pipeline K) : FittingCall p p.cancelled
  | stopReading (p : Pipeline K) : FittingCall p p.stoppingReading

theorem plan_max (p : Pipeline K) (width : Nat) : p.plan (max width 1) = p.plan width := by
  unfold plan
  congr 1
  omega

theorem FittingCall.moves (h : FittingCall p p') : Moves Admitted (p, []) (p', []) := by
  cases h with
  | drive hfit => exact moves_drive p _ hfit
  | @turn d hfit =>
      rw [d.turn_eq_drive]
      refine moves_drive p _ fun hc => ?_
      rw [plan_max]
      exact hfit hc
  | lost d _ => exact moves_lose _ p d.threads
  | cancel => exact .single .cancel
  | stopReading => exact .single .stopReading

theorem settled_of_fitting (hfresh : p.Fresh) (hwired : p.Wired)
    (h : Relation.ReflTransGen FittingCall p p') : Settled ((p', []) : Flight K) := by
  induction h with
  | refl => exact hfresh.settled hwired
  | tail _ hcall ih => exact hcall.moves.settled ih

theorem noteNodes_budget (is : List Nat) (p : Pipeline K) :
    (is.foldl noteNode p).budget = p.budget := by
  induction is generalizing p with
  | nil => rfl
  | cons i rest ih =>
      rw [List.foldl_cons, ih]
      unfold noteNode
      split
      · split <;> rfl
      · rfl

theorem mem_runnable {i : Nat} (hready : p.isReady i = true) (hi : i < p.nodes.length) :
    ∃ c ∈ p.runnable, c.node = i := by
  refine ⟨{ priority := p.nodes[i].priority, lastRun := p.nodes[i].lastRun, node := i }, ?_, rfl⟩
  refine List.mem_filterMap.2 ⟨i, List.mem_range.2 hi, ?_⟩
  simp [hready, hi]

theorem of_mem_chosen {i width : Nat} (h : i ∈ p.chosen width) :
    p.isReady i = true ∧ i < p.nodes.length := by
  unfold chosen at h
  rw [List.mem_insertionSort] at h
  rcases List.mem_map.1 h with ⟨c, hc, rfl⟩
  have hrunnable := (List.mem_insertionSort _).1 (List.mem_of_mem_take hc)
  rcases List.mem_filterMap.1 hrunnable with ⟨j, hj, hsome⟩
  split at hsome
  · rename_i hready
    rcases hm : p.nodes[j]? with _ | m
    · simp [hm] at hsome
    · simp only [hm, Option.map_some, Option.some.injEq] at hsome
      subst hsome
      exact ⟨hready, List.mem_range.1 hj⟩
  · cases hsome

theorem chosen_ne_nil {i width : Nat} (hready : p.isReady i = true) (hi : i < p.nodes.length)
    (hwidth : 0 < width) : p.chosen width ≠ [] := by
  intro hnil
  rcases mem_runnable hready hi with ⟨c, hc, _⟩
  have hlength := congrArg List.length hnil
  simp only [chosen, List.length_insertionSort, List.length_map, List.length_take,
    List.length_nil] at hlength
  have hpos := List.length_pos_of_mem hc
  omega

theorem detach_some {i : Nat} {work : Work K} (hwork : p.workAt i = some work)
    (hi : i < p.nodes.length) : ∃ p' job, p.detach i = (p', some job) := by
  unfold detach
  simp [hwork, setWork, hi]

theorem checkOut_ne_nil {i width : Nat} (hready : p.isReady i = true) (hi : i < p.nodes.length)
    (hwidth : 0 < width) : (p.checkOut width).2 ≠ [] := by
  rcases hchosen : p.chosen width with _ | ⟨j, rest⟩
  · exact absurd hchosen (chosen_ne_nil hready hi hwidth)
  · have hj := @of_mem_chosen K p j width (by rw [hchosen]; exact List.mem_cons_self ..)
    rcases noteNodes_moves (List.range p.nodes.length) p with ⟨t, ht, _⟩
    rcases hwork : p.workAt j with _ | work
    · have hready' := hj.1
      simp [isReady, hwork] at hready'
    · rcases detach_some (p := p.withPool t) hwork hj.2 with ⟨p', job, hdetach⟩
      unfold checkOut
      rw [ht, hchosen]
      simp only [detachAll, hdetach, ne_eq, reduceCtorEq, not_false_eq_true]

theorem isComplete_iff :
    p.isComplete = true ↔
      ∀ i < p.work.length, ∃ work, p.workAt i = some work ∧ work.isDone = true := by
  unfold isComplete workAt
  rw [List.all_eq_true]
  constructor
  · intro h i hi
    have hget := h p.work[i] (List.getElem_mem hi)
    rcases hw : p.work[i] with _ | work
    · rw [hw] at hget
      cases hget
    · rw [hw] at hget
      exact ⟨work, by simp [hi, hw], hget⟩
  · intro h w hw
    rcases List.getElem_of_mem hw with ⟨i, hi, rfl⟩
    rcases h i hi with ⟨work, hwork, hdone⟩
    rw [List.getElem?_eq_getElem hi, Option.join_some] at hwork
    rw [hwork]
    exact hdone

/-- A finished node that may not run has nothing queued before it. -/
theorem queue_eq_nil_of_done {id : Nat} {w : Wire} (hs : Settled ((p, []) : Flight K))
    (hcancel : p.cancel = false) (hcomplete : p.isComplete = true)
    (hidle : ∀ i < p.nodes.length, p.isReady i = false) (hw : p.wires[id]? = some w) :
    w.queue = [] := by
  have hwired := hs.wired.wired
  rcases List.getElem?_eq_some_iff.1 hw with ⟨hid, _⟩
  rcases hwired.exists_reader hid with ⟨i, m, hm, hmem⟩
  rcases List.getElem?_eq_some_iff.1 hm with ⟨hi, _⟩
  rcases isComplete_iff.1 hcomplete i (by rw [hwired.length_eq]; exact hi) with
    ⟨work, hwork, hdone⟩
  rcases hs.done hcancel i m work hm hwork hdone with habandoned | ⟨f, rfl, hclosed⟩
  · rcases habandoned id hmem with ⟨w', hw', ha⟩
    have heq : w' = w := Option.some.inj (hw'.symm.trans hw)
    rw [heq] at ha
    exact ((hs.ledger.valid w (List.mem_of_getElem? hw)).drained_of_abandoned ha).2
  · -- a filter without sinks may always run on an item
    have hfits := hwired.fits i m _ hm hwork
    have houtputs : m.outputs = [] := by
      have hzero : m.outputs.length = 0 := by
        rw [hfits.2.1, ← hfits.2.2, hclosed]
        rfl
      exact List.length_eq_zero_iff.1 hzero
    have hnot := hidle i hi
    by_contra hqueue
    rcases List.mem_map.1 hmem with ⟨q, hq, rfl⟩
    have hitem : (p.portIn q).hasItem = true := by
      simpa [portIn, hw, Wire.isEmpty] using hqueue
    have hany : (p.ports i).anyInput = true := by
      simp only [Ports.anyInput, ports, portState, hm, List.any_map, List.any_eq_true]
      exact ⟨q, hq, hitem⟩
    have hroom : (p.ports i).allOutRoom = true := by
      simp [Ports.allOutRoom, ports, portState, hm, houtputs]
    have hready : p.isReady i = true := by
      simp [isReady, hwork, Work.ready, FilterWork.ready, hany, hroom]
    rw [hnot] at hready
    cases hready

/-- What an idle step says: nothing may run. -/
theorem drive_eq_idle {width : Nat} (h : p.drive width = (p', .ok .idle))
    (hcancel : p.cancel = false) :
    p' = (List.range p.beginStep.1.nodes.length).foldl noteNode p.beginStep.1 ∧
      ∀ i < p.beginStep.1.nodes.length, p.beginStep.1.isReady i = false := by
  unfold drive at h
  simp only [hcancel, Bool.false_eq_true, if_false] at h
  split at h
  · rename_i hidle
    simp only [Bool.and_eq_true, List.isEmpty_iff] at hidle
    have hnone : ∀ i < p.beginStep.1.nodes.length, p.beginStep.1.isReady i = false := by
      intro i hi
      by_contra hready
      exact checkOut_ne_nil (by simpa using hready) hi (by omega) hidle.1
    refine ⟨?_, hnone⟩
    have hchosen : p.beginStep.1.chosen (max width 1) = [] := by
      rw [List.eq_nil_iff_forall_not_mem]
      intro i hi
      have hready := of_mem_chosen hi
      rw [hnone i hready.2] at hready
      cases hready.1
    cases h
    unfold checkOut
    rw [hchosen]
    rfl
  · split at h
    · cases h
    · split at h <;> cases h

/-- Nothing stays committed when a step finds everything finished. -/
theorem committed_of_complete {width : Nat} (hs : Settled ((p, []) : Flight K))
    (h : p.drive width = (p', .ok .idle)) (hcomplete : p'.classify = .complete) :
    p'.budget.committed = 0 := by
  have hrunning : p'.cancel = false ∧ p'.isComplete = true := by
    unfold classify at hcomplete
    split at hcomplete
    · cases hcomplete
    · rename_i hc
      split at hcomplete
      · rename_i hall
        exact ⟨by simpa using hc, hall⟩
      · cases hcomplete
  by_cases hcancel : p.cancel = true
  · unfold drive at h
    rw [if_pos hcancel] at h
    cases h
    rw [hrunning.1] at hcancel
    cases hcancel
  · have hcancel' : p.cancel = false := by simpa using hcancel
    rcases drive_eq_idle h hcancel' with ⟨rfl, hidle⟩
    have hbegin := Moves.settled (moves_beginStep Admitted p []) hs
    rcases noteNodes_moves (List.range p.beginStep.1.nodes.length) p.beginStep.1 with ⟨t, ht, _⟩
    have hbudget := noteNodes_budget (List.range p.beginStep.1.nodes.length) p.beginStep.1
    rw [hbudget]
    rw [ht] at hrunning
    have hempty : ∀ w ∈ p.beginStep.1.wires, w.bytes = 0 := by
      intro w hw
      rcases List.getElem?_of_mem hw with ⟨id, hid⟩
      have hqueue := queue_eq_nil_of_done hbegin hrunning.1 hrunning.2 hidle hid
      rw [(hbegin.ledger.valid w hw).bytes_eq, hqueue]
      rfl
    have hcommitted : p.beginStep.1.budget.committed = (p.beginStep.1.wires.map Wire.bytes).sum :=
      hbegin.ledger.committed_eq
    rw [hcommitted]
    refine List.sum_eq_zero fun n hn => ?_
    rcases List.mem_map.1 hn with ⟨w, hw, rfl⟩
    exact hempty w hw

/-- Jobs that were all committed emitted nothing that was refused. -/
theorem commits_of_runJobs {jobs : List (Job K)} {progressed progressed' : Bool}
    (hledger : Ledger p.pool) (h : runJobs jobs p progressed = (p', .ok progressed')) :
    Commits Admitted jobs p := by
  induction jobs generalizing p progressed with
  | nil => exact .nil
  | cons job rest ih =>
      have hmoves := (checkIn_eq p job.run)
      simp only [runJobs] at h
      split at h
      · cases h
      · rename_i p₁ hcheck
        refine .cons (fun herror => ?_) fun p₂ hcheck' => ?_
        · have hpool : Ledger ((p.setWork job.run.node (some job.run.work)).stamp
              job.run.node).pool := hledger
          have hpushes := pushes_stamp p job.run.node (some job.run.work) job.run.out
          have hemit := @emitAll_ok_iff K _ job.run.node job.run.out hpool
          rw [hpushes] at hemit
          refine hemit.1 ?_
          unfold checkIn at hcheck
          simp only [herror] at hcheck
          split at hcheck
          · cases hcheck
          · rename_i hok
            rw [hok]
        · rw [hcheck] at hcheck'
          cases hcheck'
          rcases hmoves with ⟨t, ht, hwires⟩
          rw [hcheck] at ht
          simp only at ht
          refine ih ?_ h
          rw [ht]
          exact WireMoves.ledger hwires hledger

/-- In a step that does not fail nothing is refused. -/
theorem emissionsFit_of_ok {width : Nat} {a : Advance} (hledger : Ledger p.pool)
    (h : p.drive width = (p', .ok a)) : p.EmissionsFit width := by
  intro hcancel
  have hplanned := Relation.ReflTransGen.trans (moves_beginStep Admitted p [])
    (moves_checkOut Admitted p.beginStep.1 (max width 1))
  have hledger' : Ledger (p.plan width).1.pool := WireMoves.ledger (Moves.wireMoves hplanned) hledger
  unfold drive at h
  simp only [hcancel, Bool.false_eq_true, if_false] at h
  split at h
  · rename_i hidle
    have hnone : (p.plan width).2 = [] := List.isEmpty_iff.mp (Bool.and_eq_true_iff.mp hidle).1
    rw [hnone]
    exact .nil
  · split at h
    · cases h
    · rename_i hrun
      exact commits_of_runJobs hledger' hrun

theorem committed_of_runs {d : Driver} {r : Pipeline K × Except Error Finish}
    (hs : Settled ((p, []) : Flight K)) (h : d.Runs p r) (hcomplete : r.2 = .ok .complete) :
    r.1.budget.committed = 0 := by
  induction h with
  | @idle p p' hturn =>
      rw [d.turn_eq_drive] at hturn
      exact committed_of_complete hs hturn (by simpa using hcomplete)
  | failed => cases hcomplete
  | lost => cases hcomplete
  | @stepped p p' r hturn _ ih =>
      rw [d.turn_eq_drive] at hturn
      have hmoves := moves_drive p _ (emissionsFit_of_ok hs.ledger hturn)
      rw [hturn] at hmoves
      exact ih (Moves.settled hmoves hs) hcomplete

theorem fittingCall_of_turn {d : Driver} {a : Advance} (hledger : Ledger p.pool)
    (h : d.turn p = (p', .ok a)) : FittingCall p p' := by
  have hcall : p.EmissionsFit d.threads → FittingCall p (d.turn p).1 := .turn
  rw [h] at hcall
  rw [d.turn_eq_drive] at h
  have hfit := emissionsFit_of_ok hledger h
  unfold EmissionsFit at hfit hcall
  rw [plan_max] at hfit
  exact hcall hfit

/-- The turns of a run that does not fail refuse nothing. -/
theorem fittingCalls_of_runs {d : Driver} {r : Pipeline K × Except Error Finish}
    (hs : Settled ((p, []) : Flight K)) (h : d.Runs p r) (hok : r.2.isOk = true) :
    Relation.ReflTransGen FittingCall p r.1 := by
  induction h with
  | idle hturn => exact .single (fittingCall_of_turn hs.ledger hturn)
  | failed => cases hok
  | lost => cases hok
  | stepped hturn _ ih =>
      have hcall := fittingCall_of_turn hs.ledger hturn
      exact .head hcall (ih (hcall.moves.settled hs) hok)

/-! ## The account of a pipeline -/

/-- The wires of a pipeline and its budget agree with what passed over the wires. -/
structure Accounted (p : Pipeline K) : Prop where
  committed_eq : p.budget.committed = (p.wires.map Wire.bytes).sum
  bytes_eq : ∀ w ∈ p.wires, w.bytes = (w.queue.map Payload.bytes).sum
  taken_le : ∀ w ∈ p.wires, w.abandoned = false → w.taken <+: w.accepted
  eof : ∀ m ∈ p.nodes, ∀ q ∈ m.inputs, q.eofDelivered = true →
    ∃ w, p.wires[q.wire]? = some w ∧ w.closed = true ∧ w.queue = []

/-- The accounts always agree and a closed wire accepts nothing; after calls in which no push was
refused, a run that completes leaves nothing committed. -/
theorem accounted_of_reachable {spec : PipelineSpec K} {p₀ : Pipeline K} (hspec : spec.Declared)
    (hbuild : spec.build = .ok p₀) :
    (∀ p, Reachable p₀ p → p.Accounted ∧
      ∀ p', Reachable p p' → ∀ (id : Nat) (w : Wire), p.wires[id]? = some w →
        ∃ w', p'.wires[id]? = some w' ∧ w.taken <+: w'.taken ∧
          (w.closed = true → w'.closed = true ∧ w'.accepted = w.accepted)) ∧
      ∀ p, Relation.ReflTransGen FittingCall p₀ p →
        ∀ (d : Driver) (p' : Pipeline K), d.Runs p (p', .ok .complete) →
          p'.budget.committed = 0 := by
  rcases PipelineSpec.wired_build hspec.wellFormed hbuild with ⟨hwired, hfresh⟩
  refine ⟨fun p hp => ⟨?_, fun p' hp' id w hw => ?_⟩, fun p hp d p' hrun => ?_⟩
  · have hledger := ledger_of_reachable hfresh hp
    have heof := eofHonest_of_reachable hfresh hp
    refine ⟨hledger.committed_eq, fun w hw => (hledger.valid w hw).bytes_eq,
      fun w hw _ => (hledger.valid w hw).taken_le, fun m hm q hq hdelivered => ?_⟩
    rcases heof m.inputs (List.mem_map_of_mem hm) q hq hdelivered with ⟨w, hw, hend⟩
    simp only [Wire.atEof, Bool.and_eq_true, List.isEmpty_iff] at hend
    exact ⟨w, hw, hend⟩
  · have hevolve : WiresEvolve p.wires p'.wires := WireMoves.evolves (Moves.wireMoves hp'.moves)
    rcases hevolve.get hw with ⟨w', hw', hww'⟩
    exact ⟨w', hw', hww'.taken_le, hww'.closed⟩
  · exact committed_of_runs (settled_of_fitting hfresh hwired hp) hrun rfl

/-- A stream limited to one frame and fanned out to two sources of a graph, under a limit. -/
def fannedOutTo (second : Nat) (limits : Limits) : Except Error (PipelineSpec passThrough) := do
  let spec : PipelineSpec passThrough := PipelineSpec.new .default limits 64
  let (spec, input) := spec.addInput
    { streams := [(0, Rational.MICROSECONDS)], packets := [packetOf 0 10, packetOf 0 10] }
  let packets ← spec.inputStream input 0
  let (spec, frames) ← spec.addDecoder packets (Relay.new : Relay Frame)
  let (spec, one) ← spec.limitFrames frames 1
  let (spec, sinks) ← spec.addFilter (Gather.new 2 1 [(0, 1)])
    [⟨one, 0, Rational.MICROSECONDS⟩, ⟨one, second, Rational.MICROSECONDS⟩] [0]
  let sink ← sinks.head?.elim (.error .eof) .ok
  let (spec, coded) ← spec.addEncoder sink (Relay.new : Relay Packet) Rational.MICROSECONDS
  let (spec, output) := spec.addOutput (0 : Nat)
  let (spec, _) ← spec.map coded output ()
  return spec

/-- Both sources are there, with a budget for one of the two copies. -/
def fannedOut : Except Error (PipelineSpec passThrough) :=
  fannedOutTo 1 ⟨15, 15, by decide⟩

/-- A budget for both copies. -/
def twoCopies : Limits :=
  ⟨100, 100, by decide⟩

theorem declared_fannedOutTo {second : Nat} {limits : Limits} {spec : PipelineSpec passThrough}
    (h : fannedOutTo second limits = .ok spec) : spec.Declared := by
  unfold fannedOutTo at h
  rcases bind_eq_ok h with ⟨packets, _, h⟩
  rcases bind_eq_ok h with ⟨⟨spec₁, frames⟩, h₁, h⟩
  rcases bind_eq_ok h with ⟨⟨spec₂, one⟩, h₂, h⟩
  rcases bind_eq_ok h with ⟨⟨spec₃, sinks⟩, h₃, h⟩
  rcases bind_eq_ok h with ⟨sink, _, h⟩
  rcases bind_eq_ok h with ⟨⟨spec₄, coded⟩, h₄, h⟩
  rcases bind_eq_ok h with ⟨⟨spec₅, index⟩, h₅, h⟩
  cases h
  have d₁ := (PipelineSpec.Declared.addInput (.new _ _ _) _).addDecoder _ _ h₁
  have d₂ := d₁.limitFrames _ _ h₂
  have d₃ := d₂.addFilter _ _ _ h₃
  have d₄ := d₃.addEncoder _ _ _ h₄
  exact (d₄.addOutput _).map _ _ _ h₅

theorem built_fannedOut :
    ∃ spec p₀, fannedOut = .ok spec ∧ spec.build = .ok p₀ := by
  have hok : (fannedOut.bind PipelineSpec.build).isOk = true := by decide +kernel
  rcases hspec : fannedOut with e | spec
  · rw [hspec] at hok
    cases hok
  · rcases hbuild : spec.build with e | p₀
    · simp [hspec, hbuild, Except.bind, Except.isOk, Except.toBool] at hok
    · exact ⟨spec, p₀, rfl, hbuild⟩

/-- Calling a pipeline again after a refused push can complete with bytes committed. -/
theorem committed_ne_zero_after_refused_push :
    ∃ (spec : PipelineSpec passThrough) (p₀ p p' : Pipeline passThrough) (d : Driver),
      spec.Declared ∧ spec.build = .ok p₀ ∧ Reachable p₀ p ∧ d.Runs p (p', .ok .complete) ∧
        p'.budget.committed ≠ 0 := by
  have hleaks : ((Driver.withThreads 1).runTwice 50 fannedOut).any (fun r =>
      endsComplete r.2.2 && r.2.1.budget.committed ≠ 0) = true := by decide +kernel
  rcases Driver.exists_of_runTwice hleaks with
    ⟨spec, p₀, ⟨p, first⟩, ⟨p', second⟩, hspec, hbuild, _, hreach, hsecond, htest⟩
  simp only [Bool.and_eq_true, decide_eq_true_eq] at htest
  rw [eq_complete htest.1] at hsecond
  exact ⟨spec, p₀, p, p', .withThreads 1, declared_fannedOutTo hspec, hbuild, hreach, hsecond,
    htest.2⟩

/-- With a budget for both copies two runs complete and leave nothing committed. -/
theorem accounted_of_reachable_twoCopies :
    ∃ (spec : PipelineSpec passThrough) (p₀ p p' : Pipeline passThrough) (d : Driver),
      fannedOutTo 1 twoCopies = .ok spec ∧ spec.build = .ok p₀ ∧
        Relation.ReflTransGen FittingCall p₀ p ∧ d.Runs p₀ (p, .ok .complete) ∧
          d.Runs p (p', .ok .complete) ∧ p.Accounted ∧ p.budget.committed = 0 ∧
            p'.budget.committed = 0 := by
  have hruns : ((Driver.withThreads 1).runTwice 50 (fannedOutTo 1 twoCopies)).any (fun r =>
      endsComplete r.1.2 && endsComplete r.2.2) = true := by decide +kernel
  rcases Driver.exists_of_runTwice hruns with
    ⟨spec, p₀, ⟨p, first⟩, ⟨p', second⟩, hspec, hbuild, hfirst, hreach, hsecond, htest⟩
  simp only [Bool.and_eq_true] at htest
  rw [eq_complete htest.1] at hfirst
  rw [eq_complete htest.2] at hsecond
  have hdeclared := declared_fannedOutTo hspec
  have hbuilt := PipelineSpec.wired_build hdeclared.wellFormed hbuild
  have hfits := fittingCalls_of_runs (hbuilt.2.settled hbuilt.1) hfirst rfl
  have haccount := accounted_of_reachable hdeclared hbuild
  exact ⟨spec, p₀, p, p', .withThreads 1, hspec, hbuild, hfits, hfirst, hsecond,
    (haccount.1 p hreach).1, haccount.2 p₀ .refl _ p hfirst, haccount.2 p hfits _ p' hsecond⟩

theorem limits_of_wireMoves {s s' : Pool} (h : WireMoves s s') : s'.2.limits = s.2.limits := by
  induction h with
  | refl => rfl
  | tail _ hmove ih =>
      rw [← ih]
      cases hmove with
      | push i item hw hpush =>
          rcases Wire.push_eq_ok hpush with ⟨_, _, rfl⟩ | ⟨_, _, _, hcharge, _⟩
          · rfl
          · rw [(Budget.charge_eq_ok hcharge).1]
      | pop i hw hpop =>
          rw [(Wire.pop_eq_some hpop).2.2.2.1]
          rfl
      | close => rfl
      | abandon => rfl
      | noteStall => rfl

/-- All that is queued fits the declared limit, and a wire that is not abandoned queues what it
accepted and did not give out. -/
theorem queued_within_limit {spec : PipelineSpec K} {p₀ p : Pipeline K} (hspec : spec.Declared)
    (hbuild : spec.build = .ok p₀) (h : Reachable p₀ p) :
    ((p.wires.flatMap Wire.queue).map Payload.bytes).sum ≤ spec.limits.maxAllocTotal ∧
      ∀ w ∈ p.wires, w.abandoned = false → w.accepted = w.taken ++ w.queue := by
  have hledger := ledger_of_reachable (PipelineSpec.wired_build hspec.wellFormed hbuild).2 h
  have hlimits : p.budget.limits = spec.limits := by
    rw [show p.budget.limits = p₀.budget.limits from limits_of_wireMoves (Moves.wireMoves h.moves)]
    unfold PipelineSpec.build at hbuild
    split at hbuild
    · cases hbuild
    · split at hbuild
      · cases hbuild
      · cases hbuild
        rfl
  refine ⟨?_, fun w hw => (hledger.valid w hw).fifo⟩
  have hsum : ((p.wires.flatMap Wire.queue).map Payload.bytes).sum = (p.wires.map Wire.bytes).sum := by
    rw [List.map_flatMap, List.flatMap_def, List.sum_flatten, List.map_map]
    exact congrArg List.sum (List.map_congr_left fun w hw => (hledger.valid w hw).bytes_eq.symm)
  rw [hsum, ← hlimits]
  exact hledger.committed_eq ▸ hledger.committed_le

theorem queued_within_limit_fannedOut :
    ∃ spec p₀, fannedOut = .ok spec ∧ spec.build = .ok p₀ ∧ ∀ p, Reachable p₀ p →
      ((p.wires.flatMap Wire.queue).map Payload.bytes).sum ≤ spec.limits.maxAllocTotal := by
  rcases built_fannedOut with ⟨spec, p₀, hspec, hbuild⟩
  exact ⟨spec, p₀, hspec, hbuild,
    fun _ hp => (queued_within_limit (declared_fannedOutTo hspec) hbuild hp).1⟩

end Pipeline

end Sched
end Vaco
