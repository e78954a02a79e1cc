import Vaco.Codec.Machine

/-!
# The protocol validator

The validator forwards every call to a component and checks the answer against its own view
of the protocol: the stage, the inputs and outputs since the last flush, whether the component
has said that it has nothing left, and whether backpressure has promised an output.

The view agrees with the machine of the component.  Only a drain that has failed before its
end makes them differ: the machine drains, and the validator goes on feeding.

Main results:

- `Quiet.send`, `Quiet.receive`, `Quiet.flush`: no call is a violation.
- `validated_never_trips`: no sequence of calls is.
-/

namespace Vaco
namespace Codec

open Library Checked

/-- A way in which a component breaks the protocol. -/
inductive Violation where
  | sendAfterEof
  | needMoreInputFromSend
  | outputPendingFromReceive
  | backpressureWithoutOutput
  | needMoreInputWhileDraining
  | eofBeforeDrain
  | outputAfterEof
  | outputWithoutInput
  | delayedOutputWithoutCap
  | subframesWithoutCap
  | flushDidNotReset
deriving DecidableEq, Repr

/-- What the validator does with a violation. -/
inductive OnViolation where
  | panic
  | record
deriving DecidableEq, Repr

variable {I O ε : Type}

/-- A component under validation. -/
structure Validated (c : Component I O ε) where
  inner : Running c
  mode : OnViolation
  flushProbe : Bool
  violations : List Violation
  stage : Stage
  inputs : Nat
  outputs : Nat
  starved : Bool
  expectOutput : Bool

namespace Validated

variable {c : Component I O ε}

/-- Wrap a new component. -/
def withMode (c : Component I O ε) (mode : OnViolation) (flushProbe : Bool) : Validated c where
  inner := c.start
  mode := mode
  flushProbe := flushProbe
  violations := []
  stage := .feeding
  inputs := 0
  outputs := 0
  starved := false
  expectOutput := false

/-- Report a violation. -/
def report (v : Validated c) (violation : Violation) : Option (Validated c) :=
  match v.mode with
  | .panic => none
  | .record => some { v with violations := v.violations ++ [violation] }

/-- Report a violation if there is one. -/
def check (v : Validated c) (broken : Bool) (violation : Violation) : Option (Validated c) :=
  if broken then v.report violation else some v

/-- Whether a result is the end of the stream. -/
def isEof {α : Type} : Except (CodecError ε) α → Bool
  | .error .eof => true
  | _ => false

/-- Whether a result asks for more input. -/
def isNeedMoreInput {α : Type} : Except (CodecError ε) α → Bool
  | .error .needMoreInput => true
  | _ => false

def countInput (v : Validated c) : Validated c :=
  { v with inputs := satAddU64 v.inputs 1, starved := false, expectOutput := false }

def judgeSend (v : Validated c) (eof : Bool) (result : Except (CodecError ε) Unit) :
    Option (Validated c) :=
  match result with
  | .ok () =>
      if eof then some { v with stage := .draining, expectOutput := false } else some v.countInput
  | .error .outputPending => some { v with expectOutput := true }
  | .error .needMoreInput => v.report .needMoreInputFromSend
  | .error .eof => some v.countInput
  | .error (.failed _) => some v.countInput

/-- Forward a send and judge its result. -/
def send (v : Validated c) (input : Option I) :
    Option (Validated c × Except (CodecError ε) Unit) := do
  let (inner, result) ← c.send v.inner input
  let v := { v with inner := inner }
  let v ← if v.stage.acceptsInput then v.judgeSend input.isNone result
    else v.check (!isEof result) .sendAfterEof
  some (v, result)

/-- Judge an output. -/
def judgeOutput (v : Validated c) : Option (Validated c) := do
  let v ← v.check (v.stage = .drained) .outputAfterEof
  let v ← v.check (v.inputs = 0) .outputWithoutInput
  let v ← v.check (v.stage = .draining && v.starved && !c.caps.delay) .delayedOutputWithoutCap
  let v := { v with outputs := satAddU64 v.outputs 1 }
  let v ← v.check (v.inputs < v.outputs && !c.caps.subframes) .subframesWithoutCap
  some { v with starved := false, expectOutput := false }

/-- Judge the demand for more input. -/
def judgeHunger (v : Validated c) : Option (Validated c) := do
  let v ← v.check v.expectOutput .backpressureWithoutOutput
  let v := { v with expectOutput := false }
  if v.stage = .feeding then some { v with starved := true }
  else v.report .needMoreInputWhileDraining

/-- Judge the result of a receive. -/
def judgeReceive (v : Validated c) (result : Except (CodecError ε) O) : Option (Validated c) :=
  match result with
  | .ok _ => v.judgeOutput
  | .error .needMoreInput => v.judgeHunger
  | .error .eof =>
      if v.stage = .feeding then v.report .eofBeforeDrain else some { v with stage := .drained }
  | .error .outputPending => v.report .outputPendingFromReceive
  | .error (.failed _) => some v

/-- Forward a receive and judge its result. -/
def receive (v : Validated c) : Option (Validated c × Except (CodecError ε) O) := do
  let taken := c.receive v.inner
  let v ← judgeReceive { v with inner := taken.1 } taken.2
  some (v, taken.2)

/-- Flush the component and probe that it has nothing left. -/
def flush (v : Validated c) : Option (Validated c) :=
  let v := { v with
    inner := c.flush v.inner
    stage := .feeding
    inputs := 0
    outputs := 0
    starved := false
    expectOutput := false }
  if v.flushProbe then
    let taken := c.receive v.inner
    check { v with inner := taken.1 } (!isNeedMoreInput taken.2) .flushDidNotReset
  else
    some v

/-- Perform a call under validation. -/
def step (v : Validated c) : ProtocolCall I → Option (Validated c × Reply O ε)
  | .send input => (v.send input).map fun r => (r.1, .sent r.2)
  | .receive => v.receive.map fun r => (r.1, .received r.2)
  | .flush => v.flush.map fun v => (v, .flushed)

/-! ## The view of the validator -/

/-- A failed drain leaves the validator feeding, inputs and outputs are counted, a component without
delay that has nothing left has nothing queued, and backpressure has an output behind it. -/
structure Quiet (v : Validated c) : Prop where
  reachable : c.Reachable v.inner
  none : v.violations = []
  stage : (v.stage = v.inner.machine.stage ∧
      (v.stage = .draining → v.inner.machine.sourceDone = true)) ∨
    (v.stage = .feeding ∧ v.inner.machine.stage = .draining ∧
      v.inner.machine.sourceDone = false)
  inputs : min v.inner.taken u64Max ≤ v.inputs
  outputs : v.outputs = min (v.inner.emitted - v.inner.machine.queue.length) u64Max
  fed : 0 < v.inner.emitted → 0 < v.inputs
  starved : v.starved = true → c.caps.delay = false → v.inner.machine.queue = []
  promised : v.expectOutput = true → v.inner.machine.queue ≠ []

variable {v : Validated c}

theorem check_false (v : Validated c) (violation : Violation) :
    v.check false violation = some v :=
  rfl

theorem Quiet.agree (h : v.Quiet) (hstage : v.stage ≠ .feeding) :
    v.stage = v.inner.machine.stage ∧
      (v.stage = .draining → v.inner.machine.sourceDone = true) :=
  h.stage.resolve_right fun hfailed => hstage hfailed.1

theorem Quiet.feeding (h : v.Quiet) (hstage : v.inner.machine.stage = .feeding) :
    v.stage = .feeding := by
  rcases h.stage with ⟨hsame, -⟩ | ⟨hfeeding, -⟩
  · exact hsame.trans hstage
  · exact hfeeding

theorem quiet_withMode (c : Component I O ε) (mode : OnViolation) (flushProbe : Bool) :
    (withMode c mode flushProbe).Quiet where
  reachable := .start
  none := rfl
  stage := Or.inl ⟨rfl, fun hdraining => by cases hdraining⟩
  inputs := Nat.zero_le _
  outputs := rfl
  fed := fun hpos => absurd hpos (lt_irrefl 0)
  starved := fun _ _ => rfl
  promised := fun hpromise => by cases hpromise

theorem reachable_send {s s' : Running c} (hs : c.Reachable s) {input : Option I}
    {result : Except (CodecError ε) Unit} (hsend : c.send s input = some (s', result)) :
    c.Reachable s' := by
  have hstep : c.step s (.send input) = some (s', .sent result) := by
    rw [Component.step, hsend]
    rfl
  exact .step hs hstep

theorem reachable_receive {s : Running c} (hs : c.Reachable s) :
    c.Reachable (c.receive s).1 :=
  .step hs (show c.step s .receive = some ((c.receive s).1, .received (c.receive s).2) from rfl)

theorem reachable_flush {s : Running c} (hs : c.Reachable s) : c.Reachable (c.flush s) :=
  .step hs (show c.step s .flush = some (c.flush s, .flushed) from rfl)

theorem handedOver {m m' : Machine O} {outputs : List O} (h : m.Queued m' outputs)
    {emitted : Nat} (hqueued : m.queue.length ≤ emitted) :
    min (emitted + outputs.length - m'.queue.length) u64Max =
      min (emitted - m.queue.length) u64Max := by
  rw [h.queue, List.length_append]
  congr 1
  omega

theorem min_succ_le_satAddU64 {taken inputs : Nat} (h : min taken u64Max ≤ inputs) :
    min (taken + 1) u64Max ≤ satAddU64 inputs 1 := by
  rw [satAddU64]
  omega

theorem satAddU64_one_pos (inputs : Nat) : 0 < satAddU64 inputs 1 := by
  have hmax : 0 < u64Max := by decide
  rw [satAddU64]
  omega

theorem judgeSend_input (v : Validated c) {error : Option (CodecError ε)}
    (hpending : error ≠ some .outputPending) (hhungry : error ≠ some .needMoreInput) :
    v.judgeSend false (resultOf error) = some v.countInput := by
  cases error with
  | none => rfl
  | some e =>
      cases e with
      | outputPending => exact absurd rfl hpending
      | needMoreInput => exact absurd rfl hhungry
      | eof => rfl
      | failed e => rfl

theorem judgeSend_failedDrain (v : Validated c) {e : CodecError ε}
    (hpending : e ≠ .outputPending) (hhungry : e ≠ .needMoreInput) :
    v.judgeSend true (.error e) = some v.countInput := by
  cases e with
  | outputPending => exact absurd rfl hpending
  | needMoreInput => exact absurd rfl hhungry
  | eof => rfl
  | failed e => rfl

/-- A drain without the capability hands nothing over. -/
theorem Quiet.drain_eq_nil (hc : c.ObeysRules) (h : v.Quiet)
    (hstage : v.inner.machine.stage = .feeding) (hdelay : c.caps.delay = false) :
    (c.drain v.inner.state).2.1 = [] := by
  by_contra hsome
  rw [hc.delayed v.inner h.reachable hstage hsome] at hdelay
  cases hdelay

/-- A drain hands something over only behind an input. -/
theorem Quiet.fed_drain (hc : c.ObeysRules) (h : v.Quiet)
    (hstage : v.inner.machine.stage = .feeding)
    (hpos : 0 < v.inner.emitted + (c.drain v.inner.state).2.1.length) : 0 < v.inputs := by
  cases houtputs : (c.drain v.inner.state).2.1 with
  | nil =>
      rw [houtputs] at hpos
      exact h.fed hpos
  | cons o rest =>
      have htaken := hc.fed v.inner h.reachable hstage
        (by rw [houtputs]; exact List.cons_ne_nil o rest)
      have hinputs := h.inputs
      have hmax : 0 < u64Max := by decide
      omega

/-- A drain that fails has not finished. -/
theorem Quiet.undone (hc : c.ObeysRules) (h : v.Quiet)
    (hstage : v.inner.machine.stage = .feeding) {e : CodecError ε}
    (herror : (c.drain v.inner.state).2.2.2 = some e) :
    (c.drain v.inner.state).2.2.1 = false := by
  cases hdone : (c.drain v.inner.state).2.2.1 with
  | false => rfl
  | true =>
      have hnone := hc.unfailed v.inner h.reachable hstage hdone
      rw [herror] at hnone
      cases hnone

/-- A send is no violation. -/
theorem Quiet.send (hc : c.ObeysRules) (h : v.Quiet) (input : Option I) :
    ∃ v' result, v.send input = some (v', result) ∧ v'.Quiet := by
  have hcounts := h.reachable.counts hc.toObeys
  rcases Component.send_cases hc.toObeys h.reachable hcounts input with
    ⟨s', result, hsend, houtcome⟩
  have hreach := reachable_send h.reachable hsend
  have hacceptsInput : v.stage = .feeding → v.stage.acceptsInput = true := by
    intro hfeeding
    rw [hfeeding]
    rfl
  rw [Validated.send, hsend, some_bind]
  dsimp only
  cases houtcome with
  | ended hstage =>
      by_cases hfeeding : v.stage = .feeding
      · -- Behind a drain that has failed the refusal is counted as an input.
        rw [hacceptsInput hfeeding, if_pos rfl]
        refine ⟨_, _, rfl, hreach, h.none, h.stage, ?_, h.outputs, ?_, ?_, ?_⟩
        · have hmore := min_succ_le_satAddU64 h.inputs
          change min v.inner.taken u64Max ≤ satAddU64 v.inputs 1
          omega
        · exact fun _ => satAddU64_one_pos v.inputs
        · exact fun hstarved => by cases hstarved
        · exact fun hpromise => by cases hpromise
      · have hclosed : v.stage.acceptsInput = false := decide_eq_false hfeeding
        rw [hclosed, if_neg Bool.false_ne_true]
        exact ⟨_, _, rfl, h⟩
  | full hstage hfull =>
      rw [hacceptsInput (h.feeding hstage), if_pos rfl]
      refine ⟨_, _, rfl, hreach, h.none, h.stage, h.inputs, h.outputs, h.fed, h.starved,
        fun _ hempty => ?_⟩
      have hcapacity := hcounts.capacity_pos
      change v.inner.machine.queue = [] at hempty
      rw [hempty, List.length_nil] at hfull
      omega
  | @took i m hstage hroom hm =>
      have herrors := hc.inputErrors v.inner i h.reachable hstage hroom
      have hfeeding := h.feeding hstage
      rw [hacceptsInput hfeeding, if_pos rfl, Option.isNone_some,
        judgeSend_input _ herrors.1 herrors.2]
      refine ⟨_, _, rfl, hreach, h.none, Or.inl ⟨?_, ?_⟩, min_succ_le_satAddU64 h.inputs, ?_,
        ?_, ?_, ?_⟩
      · exact hfeeding.trans (hm.stage.trans hstage).symm
      · intro hdraining
        change v.stage = .draining at hdraining
        rw [hfeeding] at hdraining
        cases hdraining
      · exact h.outputs.trans (handedOver hm hcounts.queued).symm
      · exact fun _ => satAddU64_one_pos v.inputs
      · exact fun hstarved => by cases hstarved
      · exact fun hpromise => by cases hpromise
  | @drained m hstage hm =>
      have herrors := hc.drainErrors v.inner h.reachable hstage
      have hopen := hcounts.open_ hstage
      have hfeeding := h.feeding hstage
      rw [hacceptsInput hfeeding, if_pos rfl, Option.isNone_none]
      cases herror : (c.drain v.inner.state).2.2.2 with
      | none =>
          have hdone : (c.drain v.inner.state).2.2.1 = true :=
            (hc.complete v.inner h.reachable hstage).resolve_right fun hne => hne herror
          refine ⟨_, _, rfl, hreach, h.none, Or.inl ⟨hm.stage.symm, fun _ => ?_⟩, h.inputs,
            h.outputs.trans (handedOver hm hcounts.queued).symm, h.fed_drain hc hstage, ?_,
            fun hpromise => by cases hpromise⟩
          · rw [hm.sourceDone]
            dsimp only
            rw [hdone, Bool.or_true]
          · intro hstarved hdelay
            show m.queue = []
            rw [hm.queue, h.drain_eq_nil hc hstage hdelay, List.append_nil]
            exact h.starved hstarved hdelay
      | some e =>
          have hundone := h.undone hc hstage herror
          rw [herror] at herrors
          rw [resultOf, judgeSend_failedDrain _ (fun he => herrors.1 (congrArg some he))
            (fun he => herrors.2 (congrArg some he))]
          refine ⟨_, _, rfl, hreach, h.none, Or.inr ⟨hfeeding, hm.stage, ?_⟩, ?_,
            h.outputs.trans (handedOver hm hcounts.queued).symm,
            fun _ => satAddU64_one_pos v.inputs, (fun hstarved => by cases hstarved),
            fun hpromise => by cases hpromise⟩
          · refine hm.sourceDone.trans ?_
            dsimp only
            rw [hopen, hundone]
            rfl
          · have hmore := min_succ_le_satAddU64 h.inputs
            change min v.inner.taken u64Max ≤ satAddU64 v.inputs 1
            omega

theorem satAddU64_handedOver {emitted outputs : Nat} {o : O} {rest : List O}
    (hqueued : (o :: rest).length ≤ emitted)
    (houtputs : outputs = min (emitted - (o :: rest).length) u64Max) :
    satAddU64 outputs 1 = min (emitted - rest.length) u64Max := by
  rw [List.length_cons] at hqueued houtputs
  rw [satAddU64, houtputs]
  omega

/-- An output is no violation. -/
theorem Quiet.judgeOutput (hcounts : Component.Counts v.inner) (h : v.Quiet) {o : O}
    {rest : List O} (hqueue : v.inner.machine.queue = o :: rest) {s : Running c}
    (hstage : v.stage ≠ .drained) :
    Validated.judgeOutput { v with inner := s } = some { v with
      inner := s
      outputs := satAddU64 v.outputs 1
      starved := false
      expectOutput := false } := by
  have hqueued := hcounts.queued
  rw [hqueue] at hqueued
  have hfed : v.inputs ≠ 0 := by
    have hpos := h.fed (by rw [List.length_cons] at hqueued; omega)
    omega
  have hundelayed : (v.stage = .draining && v.starved && !c.caps.delay) = false := by
    cases hstarved : v.starved with
    | false => rw [Bool.and_false, Bool.false_and]
    | true =>
        cases hdelay : c.caps.delay with
        | true => rw [Bool.not_true, Bool.and_false]
        | false =>
            have hempty := h.starved hstarved hdelay
            rw [hqueue] at hempty
            cases hempty
  have hcovered : (v.inputs < satAddU64 v.outputs 1 && !c.caps.subframes) = false := by
    cases hsub : c.caps.subframes with
    | true => rw [Bool.not_true, Bool.and_false]
    | false =>
        have htaken := hcounts.covered hsub
        have hinputs := h.inputs
        have houtputs := h.outputs
        rw [hqueue] at houtputs
        rw [satAddU64_handedOver hqueued houtputs, Bool.not_false, Bool.and_true,
          decide_eq_false]
        omega
  rw [Validated.judgeOutput]
  dsimp only
  rw [decide_eq_false hstage, check_false, some_bind, decide_eq_false hfed, check_false,
    some_bind]
  dsimp only
  rw [hundelayed, check_false, some_bind]
  dsimp only
  rw [hcovered, check_false, some_bind]

/-- A receive is no violation. -/
theorem Quiet.receive (hc : c.ObeysRules) (h : v.Quiet) :
    ∃ v' result, v.receive = some (v', result) ∧ v'.Quiet := by
  have hcounts := h.reachable.counts hc.toObeys
  have hreach := reachable_receive h.reachable
  have hcases := Component.receive_cases v.inner
  rw [Validated.receive]
  generalize (c.receive v.inner).1 = s', (c.receive v.inner).2 = result at hreach hcases ⊢
  cases hcases with
  | @output o rest hqueue =>
      have hdrained : v.stage ≠ .drained := by
        intro hstage
        have hagree := (h.agree (by rw [hstage]; simp)).1
        rw [(hcounts.empty (hagree.symm.trans hstage)).1] at hqueue
        cases hqueue
      have hqueued := hcounts.queued
      have houtputs := h.outputs
      rw [hqueue] at hqueued houtputs
      rw [judgeReceive, h.judgeOutput hcounts hqueue hdrained, some_bind]
      exact ⟨_, _, rfl, hreach, h.none, h.stage, h.inputs,
        satAddU64_handedOver hqueued houtputs, h.fed, (fun hstarved => by cases hstarved),
        fun hpromise => by cases hpromise⟩
  | hungry hqueue hwaits =>
      have hunpromised : v.expectOutput = false := by
        by_contra hpromise
        exact h.promised (Bool.eq_true_of_not_eq_false hpromise) hqueue
      have hfeeding : v.stage = .feeding := by
        by_contra hstage
        rcases h.agree hstage with ⟨hsame, hdone⟩
        rcases hwaits with hwaits | ⟨hdraining, hopen⟩
        · exact hstage (hsame.trans hwaits)
        · rw [hdone (hsame.trans hdraining)] at hopen
          cases hopen
      rw [judgeReceive, judgeHunger]
      dsimp only
      rw [hunpromised, check_false, some_bind]
      dsimp only
      rw [if_pos hfeeding, some_bind]
      exact ⟨_, _, rfl, hreach, h.none, h.stage, h.inputs, h.outputs, h.fed,
        (fun _ _ => hqueue), fun hpromise => by cases hpromise⟩
  | ended hqueue hstage hdone =>
      have hfed : v.stage ≠ .feeding := by
        intro hfeeding
        rcases h.stage with ⟨hsame, -⟩ | ⟨-, hdraining, hopen⟩
        · exact hstage (hsame.symm.trans hfeeding)
        · rw [hdone hdraining] at hopen
          cases hopen
      rw [judgeReceive, if_neg hfed, some_bind]
      exact ⟨_, _, rfl, hreach, h.none, Or.inl ⟨rfl, (fun hdraining => by cases hdraining)⟩,
        h.inputs, h.outputs, h.fed, h.starved, h.promised⟩

/-- A flush is no violation, with the probe and without. -/
theorem Quiet.flush (h : v.Quiet) : ∃ v', v.flush = some v' ∧ v'.Quiet := by
  have hreach := reachable_flush h.reachable
  have hhungry : c.receive (c.flush v.inner) = (c.flush v.inner, .error .needMoreInput) := by
    rw [Component.receive, Machine.receive_hungry rfl (Or.inl rfl)]
  have hquiet : ∀ probe, Quiet { v with
      inner := c.flush v.inner
      flushProbe := probe
      stage := .feeding
      inputs := 0
      outputs := 0
      starved := false
      expectOutput := false } := fun _ =>
    ⟨hreach, h.none, Or.inl ⟨rfl, (fun hdraining => by cases hdraining)⟩, Nat.zero_le _, rfl,
      (fun hpos => absurd hpos (lt_irrefl 0)), (fun _ _ => rfl),
      fun hpromise => by cases hpromise⟩
  rw [Validated.flush]
  dsimp only
  rw [hhungry]
  cases v.flushProbe with
  | true => exact ⟨_, rfl, hquiet true⟩
  | false => exact ⟨_, rfl, hquiet false⟩

theorem Quiet.step (hc : c.ObeysRules) (h : v.Quiet) (call : ProtocolCall I) :
    ∃ v' reply, v.step call = some (v', reply) ∧ v'.Quiet := by
  cases call with
  | send input =>
      rcases h.send hc input with ⟨v', result, hsend, hquiet⟩
      exact ⟨v', .sent result, by rw [Validated.step, hsend]; rfl, hquiet⟩
  | receive =>
      rcases h.receive hc with ⟨v', result, hreceive, hquiet⟩
      exact ⟨v', .received result, by rw [Validated.step, hreceive]; rfl, hquiet⟩
  | flush =>
      rcases h.flush with ⟨v', hflush, hquiet⟩
      exact ⟨v', .flushed, by rw [Validated.step, hflush]; rfl, hquiet⟩

end Validated

/-- No sequence of calls to a component that obeys the rules is a violation, with any queue
capacity. -/
theorem validated_never_trips (c : Component I O ε) (hc : c.ObeysRules) (mode : OnViolation)
    (flushProbe : Bool) (calls : List (ProtocolCall I)) :
    ∃ v replies, run Validated.step (Validated.withMode c mode flushProbe) calls =
        some (v, replies) ∧
      v.violations = [] := by
  rcases run_invariant (Validated.quiet_withMode c mode flushProbe)
    (fun v call h => h.step hc call) calls with ⟨v, replies, hrun, hquiet⟩
  exact ⟨v, replies, hrun, hquiet.none⟩

/-- A component that is one input behind. -/
def oneBehind : Component Nat Nat Empty where
  State := Option Nat
  init := none
  caps := ⟨true, false⟩
  capacity := 2
  input := fun held i => (some i, held.toList, none)
  drain := fun held => (none, held.toList, true, none)
  reset := fun _ => none

theorem oneBehind_covered {s : Running oneBehind} (hs : oneBehind.Reachable s) :
    s.emitted + (Option.toList s.state).length ≤ s.taken := by
  refine hs.holds (P := fun held k n => n + (Option.toList held).length ≤ k) (le_refl 0) ?_ ?_ ?_
  · intro held k n i h
    exact Nat.succ_le_succ h
  · intro held k n h
    exact h
  · intro held k n _
    exact le_refl 0

theorem oneBehind_obeys : oneBehind.ObeysRules where
  single := fun s _ _ _ _ _ => by
    show (Option.toList s.state).length ≤ 1
    cases s.state <;> simp
  delayed := fun _ _ _ _ => rfl
  covered := fun _ hs _ _ => oneBehind_covered hs
  complete := fun _ _ _ => Or.inl rfl
  fed := fun s hs _ hsome => by
    have hcovered := oneBehind_covered hs
    have hlength := List.length_pos_of_ne_nil hsome
    change 0 < (Option.toList s.state).length at hlength
    omega
  inputErrors := fun _ _ _ _ _ => ⟨by simp [oneBehind], by simp [oneBehind]⟩
  drainErrors := fun _ _ _ => ⟨by simp [oneBehind], by simp [oneBehind]⟩
  unfailed := fun _ _ _ _ => rfl

/-- Inputs, a drain behind the last, and calls behind the end. -/
theorem validated_never_trips_oneBehind :
    ∃ v replies, run Validated.step (Validated.withMode oneBehind .panic true)
        [.send (some 1), .receive, .send (some 2), .receive, .send none, .receive, .receive,
          .send (some 3), .flush, .send (some 4)] = some (v, replies) ∧
      v.violations = [] :=
  validated_never_trips oneBehind oneBehind_obeys .panic true _

/-- A component that gives an output at the end of the stream, whatever came before. -/
def eagerDrain : Component Unit Unit Empty where
  State := Unit
  init := ()
  caps := ⟨true, true⟩
  capacity := 1
  input := fun _ _ => ((), [], none)
  drain := fun _ => ((), [()], true, none)
  reset := fun _ => ()

/-- The contract alone is not enough: a drain may give an output without any input. -/
theorem not_never_trips_eagerDrain :
    eagerDrain.Obeys ∧
    (run Validated.step (Validated.withMode eagerDrain .record true)
      [.send none, .receive]).map (fun ended => ended.1.violations) =
        some [.outputWithoutInput] := by
  refine ⟨⟨?_, ?_, ?_, ?_⟩, rfl⟩
  · intro s _ _ _ _ hsub
    cases hsub
  · exact fun _ _ _ _ => rfl
  · intro s _ _ hsub
    cases hsub
  · exact fun _ _ _ => Or.inl rfl

end Codec
end Vaco
