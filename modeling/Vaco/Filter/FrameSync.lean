import Vaco.Core.Packet

/-!
# Frame synchronisation

A synchroniser aligns several inputs on one timeline.  Every input holds the frame it
contributes and one frame of lookahead; the inputs at the sync level choose the time of
the next event, and every input advances up to it.

Main results:

- `FrameSync.step`: the event loop.
- `FrameSync.measure_round`: a round that neither answers nor ends leaves less to do.

Current gaps:

- The contents of frames are a parameter; flushing for a seek is left out.
-/

namespace Vaco
namespace Filter

open Library Vaco.Core

/-- A frame: its timestamp in the time base of its input, and its contents. -/
structure Frame (α : Type*) where
  pts : Timestamp
  data : α
deriving DecidableEq

/-- What to do when an input reaches end of stream. -/
inductive EofAction where
  | repeat
  | endAll
  | pass
deriving DecidableEq, Repr

/-- How a non-driving input is sampled at an event. -/
inductive TsSyncMode where
  | default
  | nearest
deriving DecidableEq, Repr

/-- The options, as a filter's option schema would carry them. -/
structure FrameSyncOpts where
  eofAction : EofAction
  shortest : Bool
  repeatlast : Bool
  tsSync : TsSyncMode
deriving DecidableEq

/-- Behaviour of an input outside its own frame range. -/
inductive ExtendMode where
  | stop
  | null
  | infinity
deriving DecidableEq, Repr

/-- One input's role in the synchronisation. -/
structure FsInput where
  before : ExtendMode
  after : ExtendMode
  sync : Nat
  timeBase : TimeBase
deriving DecidableEq

/-- Apply the option set to a list of roles. -/
def applyOpts (inputs : List FsInput) (opts : FrameSyncOpts) : List FsInput :=
  let inputs :=
    if opts.repeatlast = false ∨ opts.eofAction = .pass then
      inputs.mapIdx fun i input =>
        { input with after := if i = 0 then .stop else .null }
    else inputs
  if opts.shortest = true ∨ opts.eofAction = .endAll then
    inputs.map fun input => { input with after := .stop }
  else inputs

/-- The common time base is never finer than this. -/
abbrev maxDenominator : Nat := 1000000

/-- The time base used when the reduction would be finer. -/
def fallbackTimeBase : TimeBase :=
  Rational.MICROSECONDS

/-- The greatest common divisor of two time bases, capped. -/
def gcdQ (a b : TimeBase) : TimeBase :=
  if a.isDefined = false ∨ a.isZero then b
  else if b.isDefined = false ∨ b.isZero then a
  else
    let num := Nat.gcd (a.num.val * b.den.val).natAbs (b.num.val * a.den.val).natAbs
    let den := (a.den.val * b.den.val).natAbs
    if num = 0 ∨ den = 0 then fallbackTimeBase
    else
      let g := Nat.gcd num den
      let num := num / g
      let den := den / g
      if maxDenominator < den ∨ 2147483647 < num then fallbackTimeBase
      else
        match toI32? num, toI32? den with
        | some num, some den => ⟨num, den⟩
        | _, _ => fallbackTimeBase

/-- What one step of the synchroniser concluded. -/
inductive Step where
  | ready
  | pending
  | eof
deriving DecidableEq, Repr

/-- Where an input is relative to its own frames. -/
inductive InputState where
  | beforeFirst
  | running
  | afterEof
deriving DecidableEq, Repr

/-- An input: its role, its sync level, the frame it contributes, the lookahead and its end. -/
structure Input (α : Type*) where
  role : FsInput
  state : InputState
  sync : Nat
  frame : Option (Frame α)
  pts : Option I64
  next : Option (Frame α)
  nextPts : Option I64
  eofSeen : Bool
  eofPts : Option I64
  lastAssigned : I64
deriving DecidableEq

namespace Input

variable {α : Type*}

/-- An input before its first frame. -/
def new (role : FsInput) : Input α where
  role := role
  state := .beforeFirst
  sync := role.sync
  frame := none
  pts := none
  next := none
  nextPts := none
  eofSeen := false
  eofPts := none
  lastAssigned := .lit 0

/-- Whether the input holds a lookahead. -/
def hasNext (input : Input α) : Bool :=
  input.nextPts.isSome

/-- Whether the input can say nothing more about the future. -/
def exhausted (input : Input α) : Bool :=
  input.eofSeen && input.nextPts.isNone

/-- A frame's timestamp on the common timeline: its own, or one tick after the last one. -/
def assign (input : Input α) (common : TimeBase) (frame : Frame α) : I64 :=
  (frame.pts.rescale input.role.timeBase common .nearestAwayFromZero).getD
    (input.lastAssigned.saturatingAdd (.lit 1))

/-- Take a frame as the lookahead. -/
def lookAt (input : Input α) (pts : I64) (frame : Frame α) : Input α :=
  { input with lastAssigned := pts, nextPts := some pts, next := some frame }

/-- Note the end of stream; a second one is ignored. -/
def close (input : Input α) (common : TimeBase) (pts : Timestamp) : Input α :=
  if input.eofSeen then input
  else
    { input with
      eofSeen := true
      eofPts := pts.rescale input.role.timeBase common .nearestAwayFromZero }

/-- Move the lookahead into the current slot. -/
def promote (input : Input α) : Input α :=
  { input with
    frame := input.next
    pts := input.nextPts
    next := none
    nextPts := none
    state := .running }

/-- Advance an input while its lookahead is at or before a time, and say whether it has to be fed
first. -/
def advance (input : Input α) (pts : I64) : Input α × Bool :=
  match input.nextPts with
  | some p => if p ≤ pts then (input.promote, !input.eofSeen) else (input, false)
  | none => (input, !input.eofSeen)

def endDue (input : Input α) : Bool :=
  input.exhausted && input.state != .afterEof

/-- An input whose end of stream takes effect. -/
def applyEnd (input : Input α) : Input α :=
  if input.endDue then
    let ended := { input with state := .afterEof, sync := 0 }
    match input.role.after with
    | .null => { ended with frame := none, pts := none }
    | .stop | .infinity => ended
  else input

/-- Whether the end of an input ends the whole synchroniser. -/
def endsAll (input : Input α) : Bool :=
  input.endDue &&
    ((input.state == .beforeFirst && input.role.before == .stop) || input.role.after == .stop)

/-- Distance of two timestamps. -/
def absDiff (a b : I64) : Nat :=
  (a.val - b.val).natAbs

/-- Which of the two held frames an event carries. -/
def pick (input : Input α) (pts : I64) (mode : TsSyncMode) : Option (Frame α) :=
  match mode with
  | .default => input.frame
  | .nearest =>
      match input.pts, input.nextPts with
      | some cur, some next =>
          if absDiff next pts < absDiff cur pts then input.next.or input.frame
          else input.frame
      | _, _ => input.frame

def contribution (input : Input α) (pts : I64) (mode : TsSyncMode) : Option (Frame α) :=
  match input.state with
  | .beforeFirst =>
      match input.role.before with
      | .stop | .null => none
      | .infinity => input.next
  | .running => input.pick pts mode
  | .afterEof => input.frame

/-- Whether the input suppresses an event. -/
def blocks (input : Input α) : Bool :=
  input.state == .beforeFirst && input.role.before == .stop

end Input

/-- The synchroniser. -/
structure FrameSync (α : Type*) where
  inputs : List (Input α)
  opts : FrameSyncOpts
  timeBase : TimeBase
  syncLevel : Nat
  eventFrames : List (Option (Frame α))
  eventPts : I64
  pendingPts : Option I64
  ready : Bool
  eof : Bool
deriving DecidableEq

/-- Why the synchroniser refuses a call. -/
inductive FrameSyncError where
  | invalidData (message : String)
  | outputPending
deriving DecidableEq, Repr

/-- The highest sync level present. -/
def highestSync (levels : List Nat) : Nat :=
  levels.foldl max 0

/-- The common time base of the roles, or the error of the first without a usable one. -/
def commonTimeBase : Option TimeBase → List FsInput → Except FrameSyncError (Option TimeBase)
  | acc, [] => .ok acc
  | acc, role :: rest =>
      if role.timeBase.isDefined = false ∨ role.timeBase.isZero then
        .error (.invalidData "every framesync input needs a time base before configuration")
      else
        commonTimeBase
          (some (match acc with
            | none => role.timeBase
            | some base => gcdQ base role.timeBase))
          rest

namespace FrameSync

variable {α : Type*}

/-- Build a synchroniser, with the options applied to the roles. -/
def new (roles : List FsInput) (opts : FrameSyncOpts) : Except FrameSyncError (FrameSync α) :=
  if roles.isEmpty then
    .error (.invalidData "a frame synchroniser needs an input")
  else
    let roles := applyOpts roles opts
    match commonTimeBase none roles with
    | .error error => .error error
    | .ok timeBase =>
        .ok {
          inputs := roles.map Input.new
          opts := opts
          timeBase := timeBase.getD fallbackTimeBase
          syncLevel := highestSync (roles.map FsInput.sync)
          eventFrames := roles.map fun _ => none
          eventPts := .lit 0
          pendingPts := none
          ready := false
          eof := false }

/-- Hand a frame to an input. -/
def feed (s : FrameSync α) (i : Nat) (frame : Frame α) :
    Except FrameSyncError (FrameSync α) :=
  match s.inputs[i]? with
  | none => .error (.invalidData "no such framesync input")
  | some input =>
      if input.hasNext then .error .outputPending
      else
        .ok { s with
          inputs := s.inputs.set i (input.lookAt (input.assign s.timeBase frame) frame) }

/-- Tell an input that it has ended, at a timestamp in its own time base. -/
def close (s : FrameSync α) (i : Nat) (pts : Timestamp) : FrameSync α :=
  { s with inputs := s.inputs.modify i (Input.close · s.timeBase pts) }

/-- Let the ends of stream take effect whose final frame has been delivered. -/
def applyPendingEof (s : FrameSync α) : FrameSync α :=
  let inputs := s.inputs.map Input.applyEnd
  { s with
    inputs := inputs
    eof := s.eof || s.inputs.any Input.endsAll
    syncLevel :=
      if s.inputs.any Input.endDue then highestSync (inputs.map Input.sync) else s.syncLevel }

/-- The least lookahead of the driving inputs, if each has one or has ended. -/
def eventTime (level : Nat) : List (Input α) → Option I64 → Option (Option I64)
  | [], pts => some pts
  | input :: rest, pts =>
      if input.sync ≠ level then eventTime level rest pts
      else
        match input.nextPts with
        | some p =>
            eventTime level rest
              (some (match pts with
                | none => p
                | some q => min q p))
        | none => if input.eofSeen then eventTime level rest pts else none

/-- Advance the inputs in order up to a time, and stop at the first that has to be fed. -/
def advanceAll (pts : I64) : List (Input α) → List (Input α) × Bool
  | [] => ([], false)
  | input :: rest =>
      let (input, waits) := input.advance pts
      if waits then (input :: rest, true)
      else
        let (rest, waits) := advanceAll pts rest
        (input :: rest, waits)

/-- Choose the time of the next event, or answer. -/
def choose (s : FrameSync α) : FrameSync α × Except Step I64 :=
  let s := s.applyPendingEof
  if s.eof then (s, .error .eof)
  else if s.syncLevel = 0 then ({ s with eof := true }, .error .eof)
  else
    match eventTime s.syncLevel s.inputs none with
    | none => (s, .error .pending)
    | some none => ({ s with eof := true }, .error .eof)
    | some (some pts) => ({ s with pendingPts := some pts }, .ok pts)

/-- Fill the event at a time. -/
def fillEvent (s : FrameSync α) (pts : I64) : FrameSync α :=
  { s with
    eventPts := pts
    eventFrames := s.inputs.map fun input => input.contribution pts s.opts.tsSync
    ready := true }

/-- Bring every input up to the chosen time and deliver the event, unless an input has to be
fed or suppresses it. -/
def deliver (s : FrameSync α) (pts : I64) : FrameSync α × Option Step :=
  let (inputs, waits) := advanceAll pts s.inputs
  let s := { s with inputs := inputs }
  if waits then (s, some .pending)
  else
    let s := { s with pendingPts := none }
    if s.inputs.any Input.blocks then (s, none)
    else (s.fillEvent pts, some .ready)

/-- One round of the event loop; no answer means that it goes round again. -/
def round (s : FrameSync α) : FrameSync α × Option Step :=
  match s.pendingPts with
  | some pts => s.deliver pts
  | none =>
      match s.choose with
      | (s, .error answer) => (s, some answer)
      | (s, .ok pts) => s.deliver pts

/-- Lookaheads and chosen times the loop can still use up. -/
def measure (s : FrameSync α) : Nat :=
  2 * s.inputs.countP Input.hasNext + s.pendingPts.toList.length

end FrameSync

/-! ## The loop ends -/

namespace Input

variable {α : Type*}

theorem advance_cases (input : Input α) (pts : I64) :
    ((∃ p, input.nextPts = some p ∧ p ≤ pts) ∧
        input.advance pts = (input.promote, !input.eofSeen)) ∨
      ((∃ p, input.nextPts = some p ∧ pts < p) ∧ input.advance pts = (input, false)) ∨
      (input.nextPts = none ∧ input.advance pts = (input, !input.eofSeen)) := by
  unfold Input.advance
  cases hnext : input.nextPts with
  | none => exact Or.inr (Or.inr ⟨rfl, rfl⟩)
  | some p =>
      by_cases hp : p ≤ pts
      · exact Or.inl ⟨⟨p, rfl, hp⟩, if_pos hp⟩
      · exact Or.inr (Or.inl ⟨⟨p, rfl, not_le.mp hp⟩, if_neg hp⟩)

theorem hasNext_of_hasNext_advance {input : Input α} {pts : I64}
    (h : (input.advance pts).1.hasNext = true) : input.hasNext = true := by
  rcases advance_cases input pts with ⟨_, hstep⟩ | ⟨_, hstep⟩ | ⟨_, hstep⟩ <;>
    rw [hstep] at h
  · cases h
  · exact h
  · exact h

@[simp]
theorem nextPts_applyEnd (input : Input α) : input.applyEnd.nextPts = input.nextPts := by
  unfold applyEnd
  split
  · split <;> rfl
  · rfl

end Input

namespace FrameSync

variable {α : Type*}

theorem advanceAll_of_not_waits {pts : I64} {inputs : List (Input α)}
    (h : (advanceAll pts inputs).2 = false) :
    (advanceAll pts inputs).1 = inputs.map (fun input => (input.advance pts).1) ∧
      ∀ input ∈ inputs, (input.advance pts).2 = false := by
  induction inputs with
  | nil => simp [advanceAll]
  | cons input rest ih =>
      rw [advanceAll] at h ⊢
      cases hwaits : (input.advance pts).2 with
      | true => simp [hwaits] at h
      | false =>
          simp only [hwaits, Bool.false_eq_true, if_false] at h ⊢
          rcases ih h with ⟨hrest, hnone⟩
          exact ⟨by rw [List.map_cons, hrest], List.forall_mem_cons.mpr ⟨hwaits, hnone⟩⟩

theorem countP_map_advance (pts : I64) (inputs : List (Input α)) :
    (inputs.map fun input => (input.advance pts).1).countP Input.hasNext ≤
      inputs.countP Input.hasNext := by
  rw [List.countP_map]
  exact List.countP_mono_left fun input _ => Input.hasNext_of_hasNext_advance

theorem countP_map_advance_lt {pts : I64} {inputs : List (Input α)}
    (hdue : ∃ input ∈ inputs, ∃ p, input.nextPts = some p ∧ p ≤ pts) :
    (inputs.map fun input => (input.advance pts).1).countP Input.hasNext <
      inputs.countP Input.hasNext := by
  rcases hdue with ⟨input, hmem, p, hnext, hp⟩
  rcases List.append_of_mem hmem with ⟨before, after, rfl⟩
  have hbefore := countP_map_advance pts before
  have hafter := countP_map_advance pts after
  have hgone : (input.advance pts).1.hasNext = false := by
    rw [Input.advance, hnext]
    simp only [if_pos hp]
    rfl
  have hheld : input.hasNext = true := by rw [Input.hasNext, hnext]; rfl
  simp only [List.map_append, List.map_cons, List.countP_append, List.countP_cons, hgone, hheld]
  simp only [Bool.false_eq_true, if_false, if_true]
  omega

/-- The event time is the least lookahead of the driving inputs and of the time so far. -/
theorem eventTime_eq_some {level : Nat} {inputs : List (Input α)} {acc : Option I64} {pts : I64}
    (h : eventTime level inputs acc = some (some pts)) :
    acc = some pts ∨ ∃ input ∈ inputs, input.sync = level ∧ input.nextPts = some pts := by
  induction inputs generalizing acc with
  | nil => exact Or.inl (Option.some.inj h)
  | cons input rest ih =>
      rw [eventTime] at h
      split at h
      · rcases ih h with hacc | ⟨driver, hmem, hdriver⟩
        · exact Or.inl hacc
        · exact Or.inr ⟨driver, List.mem_cons_of_mem _ hmem, hdriver⟩
      · rename_i hsync
        rw [not_not] at hsync
        split at h
        · rename_i p hnext
          rcases ih h with hacc | ⟨driver, hmem, hdriver⟩
          · cases acc with
            | none =>
                cases hacc
                exact Or.inr ⟨input, List.mem_cons_self, hsync, hnext⟩
            | some q =>
                have hmin : min q p = pts := Option.some.inj hacc
                rcases min_choice q p with hq | hp
                · exact Or.inl (by rw [← hmin, hq])
                · refine Or.inr ⟨input, List.mem_cons_self, hsync, ?_⟩
                  rw [hnext, ← hmin, hp]
          · exact Or.inr ⟨driver, List.mem_cons_of_mem _ hmem, hdriver⟩
        · split at h
          · rcases ih h with hacc | ⟨driver, hmem, hdriver⟩
            · exact Or.inl hacc
            · exact Or.inr ⟨driver, List.mem_cons_of_mem _ hmem, hdriver⟩
          · cases h

theorem choose_eq_ok {s s' : FrameSync α} {pts : I64} (h : s.choose = (s', .ok pts)) :
    s' = { s.applyPendingEof with pendingPts := some pts } ∧
      ∃ input ∈ s'.inputs, input.nextPts = some pts := by
  rw [choose] at h
  split at h
  · cases h
  · split at h
    · cases h
    · split at h
      · cases h
      · cases h
      · rename_i time htime
        cases h
        rcases eventTime_eq_some htime with hnone | ⟨input, hmem, -, hnext⟩
        · cases hnone
        · exact ⟨rfl, input, hmem, hnext⟩

theorem eof_of_choose {s s' : FrameSync α} {pts : I64} (h : s.choose = (s', .ok pts)) :
    s'.eof = false := by
  rw [choose] at h
  split at h
  · cases h
  · rename_i hopen
    split at h
    · cases h
    · split at h
      · cases h
      · cases h
      · cases h
        exact Bool.not_eq_true _ ▸ hopen

theorem choose_eq_error {s s' : FrameSync α} {answer : Step}
    (h : s.choose = (s', .error answer)) :
    answer ≠ .ready ∧
      (s' = s.applyPendingEof ∨ s' = { s.applyPendingEof with eof := true }) := by
  rw [choose] at h
  split at h
  · cases h
    exact ⟨by decide, Or.inl rfl⟩
  · split at h
    · cases h
      exact ⟨by decide, Or.inr rfl⟩
    · split at h
      · cases h
        exact ⟨by decide, Or.inl rfl⟩
      · cases h
        exact ⟨by decide, Or.inr rfl⟩
      · cases h

theorem deliver_eq_none {s s' : FrameSync α} {pts : I64} (h : s.deliver pts = (s', none)) :
    s'.inputs = s.inputs.map (fun input => (input.advance pts).1) ∧ s'.pendingPts = none := by
  rw [deliver] at h
  cases hwaits : (advanceAll pts s.inputs).2 with
  | true => simp [hwaits] at h
  | false =>
      simp only [hwaits, Bool.false_eq_true, if_false] at h
      split at h
      · cases h
        exact ⟨(advanceAll_of_not_waits hwaits).1, rfl⟩
      · cases h

/-- A round without an answer uses up a lookahead or the chosen time. -/
theorem measure_round {s s' : FrameSync α} (h : s.round = (s', none)) :
    s'.measure < s.measure := by
  rw [round] at h
  split at h
  · rename_i pts hpending
    rcases deliver_eq_none h with ⟨hinputs, hnone⟩
    have hcount := countP_map_advance pts s.inputs
    rw [measure, measure, hinputs, hnone, hpending, Option.toList_none, Option.toList_some,
      List.length_nil, List.length_singleton]
    omega
  · rename_i hpending
    split at h
    · cases h
    · rename_i chosen pts hchoose
      rcases choose_eq_ok hchoose with ⟨rfl, driver, hmem, hnext⟩
      rcases deliver_eq_none h with ⟨hinputs, hnone⟩
      have hless : (s.applyPendingEof.inputs.map fun input => (input.advance pts).1).countP
          Input.hasNext < s.applyPendingEof.inputs.countP Input.hasNext :=
        countP_map_advance_lt ⟨driver, hmem, pts, hnext, le_rfl⟩
      change s'.inputs = s.applyPendingEof.inputs.map (fun input => (input.advance pts).1)
        at hinputs
      have hkept : s.applyPendingEof.inputs.countP Input.hasNext =
          s.inputs.countP Input.hasNext := by
        rw [applyPendingEof, List.countP_map]
        apply List.countP_congr
        intro input _
        simp [Input.hasNext]
      rw [measure, measure, hinputs, hnone, hpending, ← hkept]
      simp only [Option.toList_none, List.length_nil]
      omega

/-- The event loop. -/
def stepLoop (s : FrameSync α) : FrameSync α × Step :=
  match _ : s.round with
  | (s', some answer) => (s', answer)
  | (s', none) => stepLoop s'
termination_by s.measure
decreasing_by exact measure_round (by assumption)

/-- Try to produce the next event. -/
def step (s : FrameSync α) : FrameSync α × Step :=
  if s.eof then (s, .eof)
  else if s.ready then (s, .ready)
  else s.stepLoop

/-- Finish with the current event. -/
def consume (s : FrameSync α) : FrameSync α :=
  { s with ready := false, eventFrames := s.eventFrames.map fun _ => none }

end FrameSync

end Filter
end Vaco
