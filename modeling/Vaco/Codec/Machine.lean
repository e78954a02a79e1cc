import Vaco.Library.Checked
import Vaco.Library.FixedWidth

/-!
# The send and receive machine

Every component that turns inputs into outputs embeds one machine: it accepts input until the
end of the stream is signalled, queues outputs up to a capacity, and reports the end when the
component has declared that nothing more will come.

A component is what its handlers do with an accepted input, with the end of the stream and
with a flush.  The contract of a component speaks about the states that it can reach; for it
the inputs and outputs since the last flush are counted beside the machine.

Main results:

- `Machine.emitAll_eq`: outputs that keep to the capabilities are queued in order.
- `Component.send_cases`: what a send does to a component that obeys its contract.
- `Component.Reachable.holds`: what the handlers keep holds of every reachable state.
- `Component.Reachable.counts`: every queued output is covered by an input.
-/

namespace Vaco
namespace Codec

open Library Checked

/-- Where a component is in the protocol. -/
inductive Stage where
  | feeding
  | draining
  | drained
deriving DecidableEq, Repr

/-- Whether new input is considered at all. -/
def Stage.acceptsInput (stage : Stage) : Bool :=
  stage = .feeding

/-- What an accepted send asks for. -/
inductive Accept where
  | input
  | drain
deriving DecidableEq, Repr

/-- The answers of the protocol, and the failures of a component. -/
inductive CodecError (ε : Type) where
  | outputPending
  | needMoreInput
  | eof
  | failed (error : ε)
deriving DecidableEq, Repr

/-- The capabilities that bear on the protocol. -/
structure ProtocolCaps where
  delay : Bool
  subframes : Bool
deriving DecidableEq, Repr

/-- The send and receive machine. -/
structure Machine (O : Type) where
  stage : Stage
  queue : List O
  capacity : Nat
  caps : ProtocolCaps
  sourceDone : Bool
  accepted : Nat
  produced : Nat
  delivered : Nat
  producedThisInput : Nat

namespace Machine

variable {O ε : Type}

def withCapacity (caps : ProtocolCaps) (capacity : Nat) : Machine O where
  stage := .feeding
  queue := []
  capacity := max capacity 1
  caps := caps
  sourceDone := false
  accepted := 0
  produced := 0
  delivered := 0
  producedThisInput := 0

/-- Validate a send before any work is done. -/
def accept (m : Machine O) (eof : Bool) : Machine O × Except (CodecError ε) Accept :=
  match m.stage with
  | .draining | .drained => (m, .error .eof)
  | .feeding =>
      if eof then
        ({ m with stage := .draining, producedThisInput := 0 }, .ok .drain)
      else if m.capacity ≤ m.queue.length then
        (m, .error .outputPending)
      else
        ({ m with accepted := satAddU64 m.accepted 1, producedThisInput := 0 }, .ok .input)

/-- Queue one output; an output against the capabilities is a panic of debug builds. -/
def emit (m : Machine O) (output : O) : Option (Machine O) :=
  if m.stage ≠ .drained ∧ (m.stage ≠ .draining ∨ m.caps.delay = true) ∧
      (m.producedThisInput = 0 ∨ m.caps.subframes = true ∨ m.stage = .draining) then
    some { m with
      producedThisInput := min (m.producedThisInput + 1) 4294967295
      produced := satAddU64 m.produced 1
      queue := m.queue ++ [output] }
  else
    none

/-- Queue several outputs, in order. -/
def emitAll (m : Machine O) (outputs : List O) : Option (Machine O) :=
  outputs.foldlM emit m

/-- Declare that no further output will come; before the end of the stream a panic of debug
builds. -/
def finish (m : Machine O) : Option (Machine O) :=
  if m.stage ≠ .feeding then some { m with sourceDone := true } else none

def finishIf (m : Machine O) (complete : Bool) : Option (Machine O) :=
  if complete then m.finish else some m

/-- Take the next output. -/
def receive (m : Machine O) : Machine O × Except (CodecError ε) O :=
  match m.queue with
  | output :: rest => ({ m with queue := rest, delivered := satAddU64 m.delivered 1 }, .ok output)
  | [] =>
      match m.stage with
      | .feeding => (m, .error .needMoreInput)
      | .draining =>
          if m.sourceDone then ({ m with stage := .drained }, .error .eof)
          else (m, .error .needMoreInput)
      | .drained => (m, .error .eof)

/-- Discard the outputs and start over. -/
def flush (m : Machine O) : Machine O :=
  { m with queue := [], stage := .feeding, sourceDone := false, producedThisInput := 0 }

variable {m m' : Machine O}

theorem accept_ended (h : m.stage ≠ .feeding) (eof : Bool) :
    m.accept eof = (m, (.error .eof : Except (CodecError ε) Accept)) := by
  unfold accept
  cases hstage : m.stage with
  | feeding => exact absurd hstage h
  | draining => rfl
  | drained => rfl

theorem accept_eof (h : m.stage = .feeding) :
    m.accept true = ({ m with stage := .draining, producedThisInput := 0 },
      (.ok .drain : Except (CodecError ε) Accept)) := by
  unfold accept
  rw [h]
  rfl

theorem accept_full (h : m.stage = .feeding) (hfull : m.capacity ≤ m.queue.length) :
    m.accept false = (m, (.error .outputPending : Except (CodecError ε) Accept)) := by
  unfold accept
  rw [h]
  dsimp only
  rw [if_neg Bool.false_ne_true, if_pos hfull]

theorem accept_input (h : m.stage = .feeding) (hroom : m.queue.length < m.capacity) :
    m.accept false = ({ m with accepted := satAddU64 m.accepted 1, producedThisInput := 0 },
      (.ok .input : Except (CodecError ε) Accept)) := by
  unfold accept
  rw [h]
  dsimp only
  rw [if_neg Bool.false_ne_true, if_neg (not_le.mpr hroom)]

theorem receive_output {o : O} {rest : List O} (h : m.queue = o :: rest) :
    m.receive = ({ m with queue := rest, delivered := satAddU64 m.delivered 1 },
      (.ok o : Except (CodecError ε) O)) := by
  unfold receive
  rw [h]

theorem receive_hungry (hqueue : m.queue = [])
    (h : m.stage = .feeding ∨ m.stage = .draining ∧ m.sourceDone = false) :
    m.receive = (m, (.error .needMoreInput : Except (CodecError ε) O)) := by
  unfold receive
  rw [hqueue]
  rcases h with hfeeding | ⟨hdraining, hopen⟩
  · rw [hfeeding]
  · rw [hdraining]
    dsimp only
    rw [hopen, if_neg Bool.false_ne_true]

theorem receive_ended (hqueue : m.queue = []) (hstage : m.stage ≠ .feeding)
    (hdone : m.stage = .draining → m.sourceDone = true) :
    m.receive = ({ m with stage := .drained }, (.error .eof : Except (CodecError ε) O)) := by
  rcases m with ⟨stage, queue, capacity, caps, sourceDone, accepted, produced, delivered, first⟩
  dsimp only at hqueue hstage hdone
  subst hqueue
  cases stage with
  | feeding => exact absurd rfl hstage
  | draining =>
      rw [hdone rfl]
      rfl
  | drained => rfl

/-- What queueing outputs does not touch. -/
structure Queued (m m' : Machine O) (outputs : List O) : Prop where
  queue : m'.queue = m.queue ++ outputs
  stage : m'.stage = m.stage
  capacity : m'.capacity = m.capacity
  caps : m'.caps = m.caps
  sourceDone : m'.sourceDone = m.sourceDone

/-- Outputs that keep to the capabilities are queued in order. -/
theorem emitAll_eq {outputs : List O} (hstage : m.stage ≠ .drained)
    (hdelay : outputs ≠ [] → m.stage = .draining → m.caps.delay = true)
    (hsingle : m.caps.subframes = true ∨ m.stage = .draining ∨
      outputs.length ≤ 1 ∧ m.producedThisInput = 0) :
    ∃ m', m.emitAll outputs = some m' ∧ m.Queued m' outputs := by
  induction outputs generalizing m with
  | nil => exact ⟨m, rfl, (List.append_nil _).symm, rfl, rfl, rfl, rfl⟩
  | cons output outputs ih =>
      have hemit : m.emit output = some { m with
          producedThisInput := min (m.producedThisInput + 1) 4294967295
          produced := satAddU64 m.produced 1
          queue := m.queue ++ [output] } := by
        rw [emit, if_pos]
        refine ⟨hstage, ?_, ?_⟩
        · by_cases hdraining : m.stage = .draining
          · exact Or.inr (hdelay (List.cons_ne_nil _ _) hdraining)
          · exact Or.inl hdraining
        · rcases hsingle with hsub | hdraining | ⟨-, hfirst⟩
          · exact Or.inr (Or.inl hsub)
          · exact Or.inr (Or.inr hdraining)
          · exact Or.inl hfirst
      have hrest : (m.caps.subframes = true ∨ m.stage = .draining) ∨ outputs = [] := by
        rcases hsingle with hsub | hdraining | ⟨hone, -⟩
        · exact Or.inl (Or.inl hsub)
        · exact Or.inl (Or.inr hdraining)
        · rw [List.length_cons] at hone
          exact Or.inr (List.eq_nil_of_length_eq_zero (by omega))
      rw [emitAll, List.foldlM_cons, hemit, some_bind]
      rcases hrest with hfree | rfl
      · rcases ih (m := { m with
            producedThisInput := min (m.producedThisInput + 1) 4294967295
            produced := satAddU64 m.produced 1
            queue := m.queue ++ [output] }) hstage
          (fun _ => hdelay (List.cons_ne_nil _ _)) (hfree.imp_right Or.inl) with
          ⟨m', hall, hqueued⟩
        refine ⟨m', hall, ⟨?_, hqueued.stage, hqueued.capacity, hqueued.caps,
          hqueued.sourceDone⟩⟩
        rw [hqueued.queue, List.append_assoc, List.singleton_append]
      · exact ⟨_, rfl, rfl, rfl, rfl, rfl, rfl⟩

end Machine

/-! ## Components -/

/-- What the handlers do with an input, the end of the stream and a flush: outputs, whether the
drain is finished, and an error. -/
structure Component (I O ε : Type) where
  State : Type
  init : State
  caps : ProtocolCaps
  capacity : Nat
  input : State → I → State × List O × Option (CodecError ε)
  drain : State → State × List O × Bool × Option (CodecError ε)
  reset : State → State

/-- A call by the user of a component. -/
inductive ProtocolCall (I : Type) where
  | send (input : Option I)
  | receive
  | flush

/-- What a call returns. -/
inductive Reply (O ε : Type) where
  | sent (result : Except (CodecError ε) Unit)
  | received (result : Except (CodecError ε) O)
  | flushed

variable {I O ε : Type}

/-- A running component.  No handler reads `taken` and `emitted`, the inputs and outputs since a
flush. -/
structure Running (c : Component I O ε) where
  state : c.State
  machine : Machine O
  taken : Nat
  emitted : Nat

/-- The result that an error leaves. -/
def resultOf (error : Option (CodecError ε)) : Except (CodecError ε) Unit :=
  match error with
  | none => .ok ()
  | some e => .error e

namespace Component

variable (c : Component I O ε)

/-- A new component. -/
def start : Running c where
  state := c.init
  machine := Machine.withCapacity c.caps c.capacity
  taken := 0
  emitted := 0

/-- Take an accepted input to the handler. -/
def handleInput (s : Running c) (m : Machine O) (i : I) :
    Option (Running c × Except (CodecError ε) Unit) := do
  let done := c.input s.state i
  let m ← m.emitAll done.2.1
  some (⟨done.1, m, s.taken + 1, s.emitted + done.2.1.length⟩, resultOf done.2.2)

/-- Take the end of the stream to the handler. -/
def handleDrain (s : Running c) (m : Machine O) :
    Option (Running c × Except (CodecError ε) Unit) := do
  let done := c.drain s.state
  let m ← m.emitAll done.2.1
  let m ← m.finishIf done.2.2.1
  some (⟨done.1, m, s.taken, s.emitted + done.2.1.length⟩, resultOf done.2.2.2)

/-- Send one input, or nothing to begin draining: nothing is done when the machine refuses. -/
def send (s : Running c) (input : Option I) :
    Option (Running c × Except (CodecError ε) Unit) :=
  let accepted := s.machine.accept input.isNone (ε := ε)
  match accepted.2, input with
  | .error e, _ => some (s, .error e)
  | .ok _, some i => c.handleInput s accepted.1 i
  | .ok _, none => c.handleDrain s accepted.1

/-- Take the next output. -/
def receive (s : Running c) : Running c × Except (CodecError ε) O :=
  let taken := s.machine.receive
  ({ s with machine := taken.1 }, taken.2)

/-- Discard all that is buffered. -/
def flush (s : Running c) : Running c :=
  ⟨c.reset s.state, s.machine.flush, 0, 0⟩

/-- Perform a call. -/
def step (s : Running c) : ProtocolCall I → Option (Running c × Reply O ε)
  | .send input => (c.send s input).map fun r => (r.1, .sent r.2)
  | .receive => some ((c.receive s).1, .received (c.receive s).2)
  | .flush => some (c.flush s, .flushed)

/-- The states that calls can bring a component to. -/
inductive Reachable : Running c → Prop where
  | start : Reachable c.start
  | step {s s' : Running c} {call : ProtocolCall I} {reply : Reply O ε} :
      Reachable s → c.step s call = some (s', reply) → Reachable s'

/-- At most one output for an input without subframes, outputs of a drain only with delay, no more
outputs than inputs without subframes, and a drain that finishes unless it fails. -/
structure Obeys : Prop where
  single : ∀ s i, c.Reachable s → s.machine.stage = .feeding →
    s.machine.queue.length < s.machine.capacity → c.caps.subframes = false →
      (c.input s.state i).2.1.length ≤ 1
  delayed : ∀ s, c.Reachable s → s.machine.stage = .feeding → (c.drain s.state).2.1 ≠ [] →
    c.caps.delay = true
  covered : ∀ s, c.Reachable s → s.machine.stage = .feeding → c.caps.subframes = false →
    s.emitted + (c.drain s.state).2.1.length ≤ s.taken
  complete : ∀ s, c.Reachable s → s.machine.stage = .feeding →
    (c.drain s.state).2.2.1 = true ∨ (c.drain s.state).2.2.2 ≠ none

/-- The contract with the validator's rules: a drain gives outputs only behind an input since the
last flush, no handler asks for anything, and a finished drain has not failed. -/
structure ObeysRules : Prop extends c.Obeys where
  fed : ∀ s, c.Reachable s → s.machine.stage = .feeding → (c.drain s.state).2.1 ≠ [] →
    0 < s.taken
  inputErrors : ∀ s i, c.Reachable s → s.machine.stage = .feeding →
    s.machine.queue.length < s.machine.capacity →
      (c.input s.state i).2.2 ≠ some .outputPending ∧
        (c.input s.state i).2.2 ≠ some .needMoreInput
  drainErrors : ∀ s, c.Reachable s → s.machine.stage = .feeding →
    (c.drain s.state).2.2.2 ≠ some .outputPending ∧
      (c.drain s.state).2.2.2 ≠ some .needMoreInput
  unfailed : ∀ s, c.Reachable s → s.machine.stage = .feeding → (c.drain s.state).2.2.1 = true →
    (c.drain s.state).2.2.2 = none

variable {c} {s s' : Running c}

/-! ## What a call does -/

/-- What a send does to a component that obeys its contract. -/
inductive SendOutcome (s : Running c) :
    Option I → Running c → Except (CodecError ε) Unit → Prop where
  /-- Behind the end of the stream nothing is accepted. -/
  | ended {input : Option I} : s.machine.stage ≠ .feeding → SendOutcome s input s (.error .eof)
  /-- A full queue refuses an input. -/
  | full {i : I} : s.machine.stage = .feeding → s.machine.capacity ≤ s.machine.queue.length →
      SendOutcome s (some i) s (.error .outputPending)
  /-- The handler has taken an input. -/
  | took {i : I} {m : Machine O} : s.machine.stage = .feeding →
      s.machine.queue.length < s.machine.capacity →
      s.machine.Queued m (c.input s.state i).2.1 →
      SendOutcome s (some i)
        ⟨(c.input s.state i).1, m, s.taken + 1, s.emitted + (c.input s.state i).2.1.length⟩
        (resultOf (c.input s.state i).2.2)
  /-- The handler has drained. -/
  | drained {m : Machine O} : s.machine.stage = .feeding →
      Machine.Queued { s.machine with
        stage := .draining
        sourceDone := s.machine.sourceDone || (c.drain s.state).2.2.1 } m
        (c.drain s.state).2.1 →
      SendOutcome s none
        ⟨(c.drain s.state).1, m, s.taken, s.emitted + (c.drain s.state).2.1.length⟩
        (resultOf (c.drain s.state).2.2.2)

/-- Every queued output is counted, the counted outputs are covered by inputs without subframes, and
the end is reported only behind an empty queue. -/
structure Counts (s : Running c) : Prop where
  caps : s.machine.caps = c.caps
  capacity_pos : 0 < s.machine.capacity
  queued : s.machine.queue.length ≤ s.emitted
  covered : c.caps.subframes = false → s.emitted ≤ s.taken
  open_ : s.machine.stage = .feeding → s.machine.sourceDone = false
  empty : s.machine.stage = .drained → s.machine.queue = [] ∧ s.machine.sourceDone = true

/-- A send that succeeds leaves the component as it is, or has called one of its handlers. -/
theorem send_moves {input : Option I} {result : Except (CodecError ε) Unit}
    (hsend : c.send s input = some (s', result)) :
    s' = s ∨
    (∃ i m, s' = ⟨(c.input s.state i).1, m, s.taken + 1,
      s.emitted + (c.input s.state i).2.1.length⟩) ∨
    ∃ m, s' = ⟨(c.drain s.state).1, m, s.taken, s.emitted + (c.drain s.state).2.1.length⟩ := by
  unfold send at hsend
  dsimp only at hsend
  split at hsend
  · rw [Option.some.injEq, Prod.mk.injEq] at hsend
    exact Or.inl hsend.1.symm
  · rename_i i _
    rw [handleInput, Option.bind_eq_bind, Option.bind_eq_some_iff] at hsend
    rcases hsend with ⟨m, -, hpair⟩
    rw [Option.some.injEq, Prod.mk.injEq] at hpair
    exact Or.inr (Or.inl ⟨i, m, hpair.1.symm⟩)
  · rw [handleDrain, Option.bind_eq_bind, Option.bind_eq_some_iff] at hsend
    rcases hsend with ⟨m, -, hrest⟩
    rw [Option.bind_eq_some_iff] at hrest
    rcases hrest with ⟨m', -, hpair⟩
    rw [Option.some.injEq, Prod.mk.injEq] at hpair
    exact Or.inr (Or.inr ⟨m', hpair.1.symm⟩)

/-- What holds of a new component and is kept by every handler holds of every state of a run. -/
theorem Reachable.holds {P : c.State → Nat → Nat → Prop} (start : P c.init 0 0)
    (input : ∀ x k n i, P x k n → P (c.input x i).1 (k + 1) (n + (c.input x i).2.1.length))
    (drain : ∀ x k n, P x k n → P (c.drain x).1 k (n + (c.drain x).2.1.length))
    (reset : ∀ x k n, P x k n → P (c.reset x) 0 0) (hs : c.Reachable s) :
    P s.state s.taken s.emitted := by
  induction hs with
  | start => exact start
  | @step s s' call reply hs hstep ih =>
      cases call with
      | send i =>
          rw [Component.step, Option.map_eq_some_iff] at hstep
          rcases hstep with ⟨⟨t, result⟩, hsend, hpair⟩
          rw [Prod.mk.injEq] at hpair
          rw [← hpair.1]
          rcases send_moves hsend with rfl | ⟨i, m, rfl⟩ | ⟨m, rfl⟩
          · exact ih
          · exact input _ _ _ i ih
          · exact drain _ _ _ ih
      | receive =>
          rw [Component.step, Option.some.injEq, Prod.mk.injEq] at hstep
          rw [← hstep.1]
          exact ih
      | flush =>
          rw [Component.step, Option.some.injEq, Prod.mk.injEq] at hstep
          rw [← hstep.1]
          exact reset _ _ _ ih

/-- What a send does. -/
theorem send_cases (h : c.Obeys) (hs : c.Reachable s) (hcounts : c.Counts s)
    (input : Option I) :
    ∃ s' result, c.send s input = some (s', result) ∧ c.SendOutcome s input s' result := by
  by_cases hstage : s.machine.stage = .feeding
  · cases input with
    | none =>
        have hdelay : (c.drain s.state).2.1 ≠ [] → s.machine.caps.delay = true := by
          intro hsome
          rw [hcounts.caps]
          exact h.delayed s hs hstage hsome
        rcases Machine.emitAll_eq (m := { s.machine with
            stage := .draining
            producedThisInput := 0 }) (by simp) (fun hsome _ => hdelay hsome)
          (Or.inr (Or.inl rfl)) with ⟨m, hall, hqueued⟩
        refine ⟨_, _, ?_, SendOutcome.drained (m := { m with
          sourceDone := s.machine.sourceDone || (c.drain s.state).2.2.1 }) hstage
          ⟨hqueued.queue, hqueued.stage, hqueued.capacity, hqueued.caps, rfl⟩⟩
        have hsource := hqueued.sourceDone
        unfold send
        rw [Option.isNone_none, Machine.accept_eof hstage]
        dsimp only
        rw [handleDrain, hall, some_bind]
        cases hdone : (c.drain s.state).2.2.1 with
        | true =>
            rw [Machine.finishIf, if_pos rfl, Machine.finish,
              if_pos (by rw [hqueued.stage]; simp), some_bind,
              Bool.or_true]
        | false =>
            rw [Machine.finishIf, if_neg Bool.false_ne_true, some_bind, Bool.or_false]
            dsimp only at hsource
            rw [← hsource]
    | some i =>
        by_cases hfull : s.machine.capacity ≤ s.machine.queue.length
        · refine ⟨s, .error .outputPending, ?_, SendOutcome.full hstage hfull⟩
          unfold send
          rw [Option.isNone_some, Machine.accept_full hstage hfull]
        · have hroom := not_le.mp hfull
          have hsingle : c.caps.subframes = true ∨ (c.input s.state i).2.1.length ≤ 1 := by
            cases hsub : c.caps.subframes with
            | true => exact Or.inl rfl
            | false => exact Or.inr (h.single s i hs hstage hroom hsub)
          rcases Machine.emitAll_eq (m := { s.machine with
              accepted := satAddU64 s.machine.accepted 1
              producedThisInput := 0 })
            (by rw [hstage]; simp) (fun _ hdraining => by rw [hstage] at hdraining; cases hdraining)
            (hsingle.imp (fun hsub => by rwa [← hcounts.caps] at hsub)
              fun hone => Or.inr ⟨hone, rfl⟩) with ⟨m, hall, hqueued⟩
          refine ⟨_, _, ?_, SendOutcome.took hstage hroom
            ⟨hqueued.queue, hqueued.stage, hqueued.capacity, hqueued.caps, hqueued.sourceDone⟩⟩
          unfold send
          rw [Option.isNone_some, Machine.accept_input hstage hroom]
          dsimp only
          rw [handleInput, hall, some_bind]
  · refine ⟨s, .error .eof, ?_, SendOutcome.ended hstage⟩
    unfold send
    rw [Machine.accept_ended hstage]

/-- What a receive does. -/
inductive ReceiveOutcome (s : Running c) :
    Running c → Except (CodecError ε) O → Prop where
  /-- The oldest output is taken. -/
  | output {o : O} {rest : List O} : s.machine.queue = o :: rest →
      ReceiveOutcome s { s with machine := { s.machine with
        queue := rest
        delivered := satAddU64 s.machine.delivered 1 } } (.ok o)
  /-- Nothing is queued before the end of the stream, or by a drain that has failed. -/
  | hungry : s.machine.queue = [] →
      s.machine.stage = .feeding ∨ s.machine.stage = .draining ∧ s.machine.sourceDone = false →
      ReceiveOutcome s s (.error .needMoreInput)
  /-- Nothing is queued and nothing will come. -/
  | ended : s.machine.queue = [] → s.machine.stage ≠ .feeding →
      (s.machine.stage = .draining → s.machine.sourceDone = true) →
      ReceiveOutcome s { s with machine := { s.machine with stage := .drained } } (.error .eof)

theorem receive_cases (s : Running c) :
    c.ReceiveOutcome s (c.receive s).1 (c.receive s).2 := by
  cases hqueue : s.machine.queue with
  | cons o rest =>
      rw [receive, Machine.receive_output hqueue]
      exact ReceiveOutcome.output hqueue
  | nil =>
      by_cases hwaits : s.machine.stage = .feeding ∨
          s.machine.stage = .draining ∧ s.machine.sourceDone = false
      · rw [receive, Machine.receive_hungry hqueue hwaits]
        exact ReceiveOutcome.hungry hqueue hwaits
      · rw [not_or] at hwaits
        have hdone : s.machine.stage = .draining → s.machine.sourceDone = true := by
          intro hdraining
          by_contra hopen
          exact hwaits.2 ⟨hdraining, Bool.eq_false_of_not_eq_true hopen⟩
        rw [receive, Machine.receive_ended hqueue hwaits.1 hdone]
        exact ReceiveOutcome.ended hqueue hwaits.1 hdone

theorem counts_start (c : Component I O ε) : c.Counts c.start where
  caps := rfl
  capacity_pos := le_max_right c.capacity 1
  queued := le_refl 0
  covered := fun _ => le_refl 0
  open_ := fun _ => rfl
  empty := fun hstage => by cases hstage

/-- A send keeps the counts. -/
theorem Counts.send (h : c.Obeys) (hs : c.Reachable s) (hcounts : c.Counts s)
    {input : Option I} {result : Except (CodecError ε) Unit}
    (houtcome : c.SendOutcome s input s' result) : c.Counts s' := by
  have hqueued := hcounts.queued
  cases houtcome with
  | ended => exact hcounts
  | full => exact hcounts
  | @took i m hstage hroom hm =>
      refine ⟨hm.caps.trans hcounts.caps, hm.capacity ▸ hcounts.capacity_pos, ?_, ?_, ?_, ?_⟩
      · dsimp only
        rw [hm.queue, List.length_append]
        omega
      · intro hsub
        have hone := h.single s i hs hstage hroom hsub
        have hcovered := hcounts.covered hsub
        dsimp only
        omega
      · intro _
        exact hm.sourceDone.trans (hcounts.open_ hstage)
      · intro hdrained
        dsimp only at hdrained
        rw [hm.stage, hstage] at hdrained
        cases hdrained
  | @drained m hstage hm =>
      refine ⟨hm.caps.trans hcounts.caps, hm.capacity ▸ hcounts.capacity_pos, ?_, ?_, ?_, ?_⟩
      · dsimp only
        rw [hm.queue, List.length_append]
        dsimp only
        omega
      · exact fun hsub => h.covered s hs hstage hsub
      · intro hfeeding
        dsimp only at hfeeding
        rw [hm.stage] at hfeeding
        cases hfeeding
      · intro hdrained
        dsimp only at hdrained
        rw [hm.stage] at hdrained
        cases hdrained

theorem Counts.receive (hcounts : c.Counts s) {result : Except (CodecError ε) O}
    (houtcome : c.ReceiveOutcome s s' result) : c.Counts s' := by
  cases houtcome with
  | @output o rest hqueue =>
      have hqueued := hcounts.queued
      rw [hqueue, List.length_cons] at hqueued
      refine ⟨hcounts.caps, hcounts.capacity_pos, by dsimp only; omega, hcounts.covered,
        hcounts.open_, ?_⟩
      intro hdrained
      rw [(hcounts.empty hdrained).1] at hqueue
      cases hqueue
  | hungry => exact hcounts
  | ended hqueue hstage hdone =>
      refine ⟨hcounts.caps, hcounts.capacity_pos, hcounts.queued, hcounts.covered,
        (fun hfeeding => by cases hfeeding), fun _ => ⟨hqueue, ?_⟩⟩
      cases hcase : s.machine.stage with
      | feeding => exact absurd hcase hstage
      | draining => exact hdone hcase
      | drained => exact (hcounts.empty hcase).2

theorem Counts.flush (hcounts : c.Counts s) : c.Counts (c.flush s) where
  caps := hcounts.caps
  capacity_pos := hcounts.capacity_pos
  queued := le_refl 0
  covered := fun _ => le_refl 0
  open_ := fun _ => rfl
  empty := fun hstage => by cases hstage

/-- Every state that a component which obeys its contract can reach keeps the counts. -/
theorem Reachable.counts (h : c.Obeys) (hs : c.Reachable s) : c.Counts s := by
  induction hs with
  | start => exact counts_start c
  | @step s s' call reply hs hstep ih =>
      cases call with
      | send input =>
          rcases send_cases h hs ih input with ⟨t, result, hsend, houtcome⟩
          rw [Component.step, hsend, Option.map_some, Option.some.injEq, Prod.mk.injEq] at hstep
          rw [← hstep.1]
          exact ih.send h hs houtcome
      | receive =>
          rw [Component.step, Option.some.injEq, Prod.mk.injEq] at hstep
          rw [← hstep.1]
          exact ih.receive (receive_cases s)
      | flush =>
          rw [Component.step, Option.some.injEq, Prod.mk.injEq] at hstep
          rw [← hstep.1]
          exact ih.flush

end Component

end Codec
end Vaco
