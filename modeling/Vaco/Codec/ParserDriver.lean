import Vaco.Library.BitStream
import Vaco.Sched.Pipeline

/-!
# The parser driver

A driver buffers the bytes that are pushed and hands them to a parser, which takes some of them
and hands out a unit or none.  Once the stream has ended and the buffer is empty the parser is
called with no bytes, until it has nothing left.

A forecast of a parser says which units it is still going to hand out, given all bytes that are
still to come.  Where a parser keeps its forecast, every run hands out the units that were
forecast at its beginning, however the bytes are cut.

Main results:

- `ParserDriver.nextUnit_spec`: a call keeps the forecast.
- `Forecast.runs_ok`: a run hands out what was forecast.
- `Forecast.runs_error`: a run fails only where a cap is exceeded.
- `Forecast.exists_runs`: every run ends.

Current gaps:

- The budget, the counters and the parsers of whole samples are left out.
- A parser that fails stays as it was.
-/

namespace Vaco
namespace Codec

open Library BitStream Vaco.Core Sched

/-- A parser: take some bytes, or none at the end of the stream, and hand out a unit or none. -/
abbrev ParseFn (P U : Type) : Type :=
  P → Bytes → Except Error ((Option U × Nat) × P)

/-- A parser behind a buffer of which the bytes from `pos` on have not been taken. -/
structure ParserDriver (P : Type) where
  parser : P
  buf : Bytes
  pos : Nat
  maxPending : Nat
  guard : ProgressGuard
  eos : Bool
  eosDelivered : Bool

namespace ParserDriver

variable {P U : Type}

/-- The default cap on the buffer. -/
def DEFAULT_MAX_PENDING : Nat :=
  2 * 2 ^ 20

/-- Drive a parser. -/
def new (parser : P) : ParserDriver P where
  parser := parser
  buf := []
  pos := 0
  maxPending := DEFAULT_MAX_PENDING
  guard := .new
  eos := false
  eosDelivered := false

/-- Set the cap on the buffer, to at least one byte. -/
def withMaxPending (d : ParserDriver P) (bytes : Nat) : ParserDriver P :=
  { d with maxPending := if bytes = 0 then 1 else bytes }

variable (d : ParserDriver P)

/-- How many bytes have not been taken. -/
def pending : Nat :=
  d.buf.length - d.pos

/-- The bytes that have not been taken. -/
def input : Bytes :=
  d.buf.drop d.pos

/-- Drop the bytes that have been taken once that is worth it. -/
def compact : ParserDriver P :=
  if d.pos = 0 then d
  else if d.pos = d.buf.length then { d with buf := [], pos := 0 }
  else if d.buf.length ≤ d.pos * 2 then { d with buf := d.buf.drop d.pos, pos := 0 }
  else d

/-- Add bytes to the buffer. -/
def push (chunk : Bytes) : Except Error (ParserDriver P) :=
  if d.eos then .error .eof
  else
    let d := d.compact
    let wouldBe := d.pending + chunk.length
    if d.maxPending < wouldBe then
      .error (.limitExceeded "parser_reassembly" wouldBe d.maxPending)
    else
      -- New bytes are progress, even where the parser takes none of the old ones.
      .ok { d with
        buf := d.buf ++ chunk
        guard := if chunk.isEmpty then d.guard else d.guard.reset }

/-- No more bytes will arrive. -/
def finish : ParserDriver P :=
  { d with eos := true }

variable (parse : ParseFn P U)

def flush : Except Error U × ParserDriver P :=
  match parse d.parser [] with
  | .error e => (.error e, d)
  | .ok ((unit, used), parser) =>
      if used ≠ 0 then
        (.error (.invalidData "parser consumed bytes from an empty end-of-stream slice"),
          { d with parser := parser })
      else
        match unit with
        | some u => (.ok u, { d with parser := parser })
        | none => (.error .eof, { d with parser := parser, eosDelivered := true })

/-- Take the next unit. -/
def nextUnit (d : ParserDriver P) : Except Error U × ParserDriver P :=
  if d.eosDelivered then (.error .eof, d)
  else if d.pending = 0 then
    if d.eos then d.flush parse else (.error .needMoreInput, d)
  else
    match parse d.parser d.input with
    | .error e => (.error e, d)
    | .ok ((unit, used), parser) =>
        if d.input.length < used then
          (.error (.invalidData "parser consumed more bytes than it was given"),
            { d with parser := parser })
        else
          match unit with
          | some u =>
              (.ok u, { d with parser := parser, pos := d.pos + used, guard := d.guard.reset })
          | none =>
              let ticked := d.guard.tick (used ≠ 0)
              match ticked.2 with
              | .error e =>
                  (.error e.toError,
                    { d with parser := parser, pos := d.pos + used, guard := ticked.1 })
              | .ok _ =>
                  if used = 0 then
                    -- The parser does not take the rest, and no more bytes come.
                    if d.eos then
                      nextUnit { d with
                        parser := parser, pos := d.buf.length, guard := ticked.1 }
                    else (.error .needMoreInput, { d with parser := parser, guard := ticked.1 })
                  else
                    nextUnit { d with
                      parser := parser, pos := d.pos + used, guard := ticked.1 }
termination_by d.pending
decreasing_by
  · simp only [pending] at *
    omega
  · simp only [pending] at *
    omega

/-! ## Runs -/

/-- Take units until there is an error: the units, what is left, and the error. -/
inductive Drains : ParserDriver P → List U → ParserDriver P → Error → Prop where
  | stop {d d' : ParserDriver P} {e : Error} (h : d.nextUnit parse = (.error e, d')) :
      Drains d [] d' e
  | unit {d d' d'' : ParserDriver P} {u : U} {units : List U} {e : Error}
      (h : d.nextUnit parse = (.ok u, d')) (rest : Drains d' units d'' e) :
      Drains d (u :: units) d'' e

/-- Push some chunks, and behind the marked ones take units until more bytes are needed. -/
inductive Feeds : ParserDriver P → List (Bytes × Bool) → List U → Except Error (ParserDriver P) →
    Prop where
  | done {d : ParserDriver P} : Feeds d [] [] (.ok d)
  | refused {d : ParserDriver P} {chunk : Bytes} {drained : Bool} {cuts : List (Bytes × Bool)}
      {e : Error} (h : d.push chunk = .error e) :
      Feeds d ((chunk, drained) :: cuts) [] (.error e)
  | pushed {d d' : ParserDriver P} {chunk : Bytes} {cuts : List (Bytes × Bool)} {units : List U}
      {outcome : Except Error (ParserDriver P)} (h : d.push chunk = .ok d')
      (rest : Feeds d' cuts units outcome) :
      Feeds d ((chunk, false) :: cuts) units outcome
  | drained {d d' d'' : ParserDriver P} {chunk : Bytes} {cuts : List (Bytes × Bool)}
      {taken units : List U} {outcome : Except Error (ParserDriver P)}
      (h : d.push chunk = .ok d') (hdrains : Drains parse d' taken d'' .needMoreInput)
      (rest : Feeds d'' cuts units outcome) :
      Feeds d ((chunk, true) :: cuts) (taken ++ units) outcome
  | failed {d d' d'' : ParserDriver P} {chunk : Bytes} {cuts : List (Bytes × Bool)}
      {taken : List U} {e : Error} (h : d.push chunk = .ok d')
      (hdrains : Drains parse d' taken d'' e) (hfatal : e ≠ .needMoreInput) :
      Feeds d ((chunk, true) :: cuts) taken (.error e)

/-- Push some chunks, finish, and take units until the end: all units, or the error. -/
inductive Runs : ParserDriver P → List (Bytes × Bool) → Except Error (List U) → Prop where
  | stopped {d : ParserDriver P} {cuts : List (Bytes × Bool)} {units : List U} {e : Error}
      (h : Feeds parse d cuts units (.error e)) : Runs d cuts (.error e)
  | ended {d d' d'' : ParserDriver P} {cuts : List (Bytes × Bool)} {units last : List U}
      (h : Feeds parse d cuts units (.ok d')) (hdrains : Drains parse d'.finish last d'' .eof) :
      Runs d cuts (.ok (units ++ last))
  | failed {d d' d'' : ParserDriver P} {cuts : List (Bytes × Bool)} {units last : List U}
      {e : Error} (h : Feeds parse d cuts units (.ok d'))
      (hdrains : Drains parse d'.finish last d'' e) (hfatal : e ≠ .eof) :
      Runs d cuts (.error e)

/-- All bytes that are pushed. -/
def pushed (cuts : List (Bytes × Bool)) : Bytes :=
  cuts.flatMap Prod.fst

end ParserDriver

/-! ## Forecasts -/

variable {P U : Type}

/-- What a parser is going to hand out, given all bytes that are still to come, and the bytes that
it holds.  A call hands out the first unit of the forecast, or nothing; it fails only where the
bytes exceed the cap. -/
structure Forecast (parse : ParseFn P U) (cap : Nat) where
  Running : P → Prop
  Ending : P → Prop
  future : P → Bytes → List U
  load : P → Nat
  ending_of_running {p : P} : Running p → Ending p
  parse_error {p : P} {bytes : Bytes} {e : Error} (hp : Running p) (hbytes : bytes ≠ [])
    (h : parse p bytes = .error e) :
    (∃ limit requested most, e = .limitExceeded limit requested most) ∧
      cap < load p + bytes.length
  parse_ok {p p' : P} {bytes : Bytes} {unit : Option U} {used : Nat} (hp : Running p)
    (hbytes : bytes ≠ []) (h : parse p bytes = .ok ((unit, used), p')) :
    Running p' ∧ used ≤ bytes.length ∧ (unit = none → used ≠ 0) ∧ load p' ≤ load p + used ∧
      ∀ more, future p (bytes ++ more) = unit.toList ++ future p' (bytes.drop used ++ more)
  parse_nil {p : P} (hp : Ending p) :
    ∃ unit p', parse p [] = .ok ((unit, 0), p') ∧ Ending p' ∧ load p' ≤ load p ∧
      future p [] = unit.toList ++ future p' [] ∧ (unit = none → future p [] = [])

namespace Forecast

open ParserDriver

variable {parse : ParseFn P U} {cap : Nat} (F : Forecast parse cap)

/-- What a driver is going to hand out, given all bytes that are still to be pushed. -/
def ahead (d : ParserDriver P) (more : Bytes) : List U :=
  F.future d.parser (d.input ++ more)

/-- The bytes that a driver and its parser hold. -/
def weight (d : ParserDriver P) : Nat :=
  F.load d.parser + d.input.length

/-- A driver whose parser is in order. -/
structure Good (d : ParserDriver P) : Prop where
  pos : d.pos ≤ d.buf.length
  delivered : d.eosDelivered = false
  ending : F.Ending d.parser
  running : d.eos = false ∨ d.input ≠ [] → F.Running d.parser

/-- What a call keeps. -/
structure Keeps (d d' : ParserDriver P) : Prop where
  good : F.Good d'
  eos : d'.eos = d.eos
  maxPending : d'.maxPending = d.maxPending
  weight : F.weight d' ≤ F.weight d

/-- A call returns the next unit of the forecast, or that bytes are missing, the end, or the cap. -/
inductive Outcome (d : ParserDriver P) : Except Error U → ParserDriver P → Prop where
  | unit {d' : ParserDriver P} {u : U} (keeps : F.Keeps d d')
      (h : ∀ more, (d.eos = true → more = []) → F.ahead d more = u :: F.ahead d' more) :
      Outcome d (.ok u) d'
  | hungry {d' : ParserDriver P} (hopen : d.eos = false) (keeps : F.Keeps d d')
      (h : ∀ more, F.ahead d more = F.ahead d' more) : Outcome d (.error .needMoreInput) d'
  | ended {d' : ParserDriver P} (hended : d.eos = true) (h : F.ahead d [] = []) :
      Outcome d (.error .eof) d'
  | capped {d' : ParserDriver P} {limit : String} {requested most : Nat}
      (h : cap < F.weight d) : Outcome d (.error (.limitExceeded limit requested most)) d'

variable {F} {d d' d'' : ParserDriver P}

theorem Keeps.refl (hd : F.Good d) : F.Keeps d d where
  good := hd
  eos := rfl
  maxPending := rfl
  weight := le_rfl

theorem Keeps.trans (h : F.Keeps d d') (h' : F.Keeps d' d'') : F.Keeps d d'' where
  good := h'.good
  eos := h'.eos.trans h.eos
  maxPending := h'.maxPending.trans h.maxPending
  weight := h'.weight.trans h.weight

theorem Outcome.of_keeps {result : Except Error U} (h : F.Outcome d' result d'')
    (hkeeps : F.Keeps d d') (hsame : ∀ more, F.ahead d more = F.ahead d' more) :
    F.Outcome d result d'' := by
  cases h with
  | unit keeps hnext =>
      refine .unit (hkeeps.trans keeps) ?_
      intro more hmore
      rw [hsame, hnext more (by rwa [hkeeps.eos])]
  | hungry hopen keeps hnext =>
      exact .hungry (hkeeps.eos ▸ hopen) (hkeeps.trans keeps)
        fun more => (hsame more).trans (hnext more)
  | ended hended hnone => exact .ended (hkeeps.eos ▸ hended) ((hsame []).trans hnone)
  | capped hover => exact .capped (lt_of_lt_of_le hover hkeeps.weight)

theorem pending_eq_length (d : ParserDriver P) : d.pending = d.input.length :=
  List.length_drop.symm

/-- At the end of the stream the parser is called without bytes. -/
theorem outcome_flush (hd : F.Good d) (hinput : d.input = []) (heos : d.eos = true) :
    F.Outcome d (d.flush parse).1 (d.flush parse).2 := by
  rcases F.parse_nil hd.ending with ⟨unit, p', hparse, hending, hload, hfuture, hnone⟩
  have hahead : F.ahead d [] = F.future d.parser [] := by
    rw [ahead, hinput]
    rfl
  unfold flush
  rw [hparse]
  simp only [ne_eq, not_true_eq_false, if_false]
  cases unit with
  | none => exact .ended heos (hahead.trans (hnone rfl))
  | some u =>
      have hinput' : ({ d with parser := p' } : ParserDriver P).input = [] := hinput
      refine .unit ⟨⟨hd.pos, hd.delivered, hending, ?_⟩, rfl, rfl, ?_⟩ ?_
      · rintro (hopen | hbytes)
        · exact absurd (heos.symm.trans hopen) nofun
        · exact absurd hinput' hbytes
      · exact Nat.add_le_add_right hload _
      · intro more hmore
        rw [hmore heos, hahead, hfuture, ahead, hinput']
        rfl

/-- Where the parser takes some bytes, it hands out the next unit of the forecast or none. -/
theorem keeps_take (hd : F.Good d) (hinput : d.input ≠ []) {unit : Option U} {used : Nat} {p' : P}
    (hparse : parse d.parser d.input = .ok ((unit, used), p')) (guard : ProgressGuard) :
    F.Keeps d { d with parser := p', pos := d.pos + used, guard := guard } ∧
      ∀ more, F.ahead d more = unit.toList ++
        F.ahead { d with parser := p', pos := d.pos + used, guard := guard } more := by
  rcases F.parse_ok (hd.running (.inr hinput)) hinput hparse
    with ⟨hrun, hused, _, hload, hfuture⟩
  have hlength : d.input.length = d.buf.length - d.pos := List.length_drop
  have hpos := hd.pos
  have hrest : ({ d with parser := p', pos := d.pos + used, guard := guard } :
      ParserDriver P).input = d.input.drop used := by
    show d.buf.drop (d.pos + used) = (d.buf.drop d.pos).drop used
    rw [List.drop_drop]
  refine ⟨⟨⟨?_, hd.delivered, F.ending_of_running hrun, fun _ => hrun⟩, rfl, rfl, ?_⟩, ?_⟩
  · show d.pos + used ≤ d.buf.length
    omega
  · unfold weight
    rw [hrest, List.length_drop]
    show F.load p' + _ ≤ _
    omega
  · intro more
    rw [ahead, ahead, hrest, hfuture]

/-- A call keeps the forecast. -/
theorem nextUnit_spec (hd : F.Good d) :
    F.Outcome d (d.nextUnit parse).1 (d.nextUnit parse).2 := by
  induction hleft : d.pending using Nat.strong_induction_on generalizing d with
  | _ left ih =>
      have hlength := pending_eq_length d
      have hdelivered : ¬ d.eosDelivered = true := by
        rw [hd.delivered]
        exact Bool.false_ne_true
      rw [nextUnit, if_neg hdelivered]
      by_cases hzero : d.pending = 0
      · have hinput : d.input = [] := List.eq_nil_of_length_eq_zero (hlength ▸ hzero)
        rw [if_pos hzero]
        cases heos : d.eos with
        | true => exact outcome_flush hd hinput heos
        | false => exact .hungry heos (.refl hd) fun _ => rfl
      · have hinput : d.input ≠ [] := by
          intro hnil
          rw [hnil] at hlength
          exact hzero hlength
        rw [if_neg hzero]
        have hrunning := hd.running (.inr hinput)
        cases hparse : parse d.parser d.input with
        | error e =>
            rcases F.parse_error hrunning hinput hparse with ⟨⟨limit, requested, most, rfl⟩, hover⟩
            exact .capped hover
        | ok answer =>
            rcases answer with ⟨⟨unit, used⟩, p'⟩
            rcases F.parse_ok hrunning hinput hparse with ⟨hrun, hused, hnone, hload, hfuture⟩
            dsimp only
            rw [if_neg (by omega)]
            cases unit with
            | some u =>
                rcases keeps_take hd hinput hparse d.guard.reset with ⟨hkeeps, hnext⟩
                exact .unit hkeeps fun more _ => hnext more
            | none =>
                have hprogress : used ≠ 0 := hnone rfl
                have htick : d.guard.tick (used ≠ 0) = ({ d.guard with stalls := 0 }, .ok ()) := by
                  simp [ProgressGuard.tick, hprogress]
                rw [htick]
                dsimp only
                rw [if_neg hprogress]
                rcases keeps_take hd hinput hparse { d.guard with stalls := 0 }
                  with ⟨hkeeps, hnext⟩
                refine (ih _ ?_ hkeeps.good rfl).of_keeps hkeeps hnext
                rw [← hleft]
                show d.buf.length - (d.pos + used) < d.buf.length - d.pos
                unfold pending at hzero
                omega

/-! ## Whole runs -/

/-- What taking units until there is an error comes to. -/
inductive Drained (F : Forecast parse cap) (d : ParserDriver P) :
    List U → ParserDriver P → Error → Prop where
  | hungry {d' : ParserDriver P} {units : List U} (hopen : d.eos = false) (keeps : F.Keeps d d')
      (h : ∀ more, F.ahead d more = units ++ F.ahead d' more) : Drained F d units d' .needMoreInput
  | ended {d' : ParserDriver P} {units : List U} (hended : d.eos = true)
      (h : F.ahead d [] = units) : Drained F d units d' .eof
  | capped {d' : ParserDriver P} {units : List U} {limit : String} {requested most : Nat}
      (h : cap < F.weight d) : Drained F d units d' (.limitExceeded limit requested most)

/-- Taking units takes them off the forecast. -/
theorem drains_spec (hd : F.Good d) {units : List U} {e : Error}
    (h : Drains parse d units d' e) : F.Drained d units d' e := by
  induction h with
  | stop hstop =>
      have hspec := nextUnit_spec hd
      rw [hstop] at hspec
      cases hspec with
      | hungry hopen keeps hnext => exact .hungry hopen keeps hnext
      | ended hended hnone => exact .ended hended hnone
      | capped hover => exact .capped hover
  | unit hunit _ ih =>
      have hspec := nextUnit_spec hd
      rw [hunit] at hspec
      cases hspec with
      | unit keeps hnext =>
          cases ih keeps.good with
          | hungry hopen keeps' hrest =>
              have hopen' := keeps.eos.symm.trans hopen
              refine .hungry hopen' (keeps.trans keeps') fun more => ?_
              have hmore := hnext more fun heos => Bool.noConfusion (heos.symm.trans hopen')
              rw [hmore, hrest]
              rfl
          | ended hended hrest =>
              refine .ended (keeps.eos ▸ hended) ?_
              rw [hnext [] fun _ => rfl, hrest]
          | capped hover => exact .capped (lt_of_lt_of_le hover keeps.weight)

theorem exists_drains (hd : F.Good d) : ∃ units d' e, Drains (U := U) parse d units d' e := by
  induction hleft : (F.ahead d []).length using Nat.strong_induction_on generalizing d with
  | _ left ih =>
      have hspec := nextUnit_spec hd
      cases hnext : d.nextUnit parse with
      | mk result d' =>
          rw [hnext] at hspec
          cases result with
          | error e => exact ⟨[], d', e, .stop hnext⟩
          | ok u =>
              cases hspec with
              | unit keeps hunit =>
                  have hless : (F.ahead d' []).length < left := by
                    rw [← hleft, hunit [] fun _ => rfl]
                    exact Nat.lt_succ_self _
                  rcases ih _ hless keeps.good rfl with ⟨units, d'', e, hrest⟩
                  exact ⟨u :: units, d'', e, .unit hnext hrest⟩

theorem input_compact (d : ParserDriver P) : d.compact.input = d.input := by
  unfold compact
  split
  · rfl
  · split
    · rename_i hall
      show [] = d.buf.drop d.pos
      rw [hall, List.drop_length]
    · split
      · rfl
      · rfl

theorem compact_spec (d : ParserDriver P) :
    d.compact.parser = d.parser ∧ d.compact.eos = d.eos ∧
      d.compact.eosDelivered = d.eosDelivered ∧ d.compact.maxPending = d.maxPending ∧
      (d.pos ≤ d.buf.length → d.compact.pos ≤ d.compact.buf.length) := by
  unfold compact
  split
  · exact ⟨rfl, rfl, rfl, rfl, id⟩
  · split
    · exact ⟨rfl, rfl, rfl, rfl, fun _ => le_rfl⟩
    · split
      · exact ⟨rfl, rfl, rfl, rfl, fun _ => Nat.zero_le _⟩
      · exact ⟨rfl, rfl, rfl, rfl, id⟩

/-- Bytes that are pushed are the next that were forecast. -/
theorem push_ok (hd : F.Good d) (hopen : d.eos = false) {chunk : Bytes}
    (h : d.push chunk = .ok d') :
    F.Good d' ∧ d'.eos = false ∧ d'.maxPending = d.maxPending ∧
      F.weight d' = F.weight d + chunk.length ∧
      ∀ more, F.ahead d (chunk ++ more) = F.ahead d' more := by
  rcases compact_spec d with ⟨hparser, heos, hdelivered, hmax, hpos⟩
  have hpos := hpos hd.pos
  unfold push at h
  rw [hopen] at h
  simp only [Bool.false_eq_true, if_false] at h
  split at h
  · cases h
  · cases h
    have hinput : ({ d.compact with
        buf := d.compact.buf ++ chunk
        guard := if chunk.isEmpty then d.compact.guard else d.compact.guard.reset } :
          ParserDriver P).input = d.input ++ chunk := by
      rw [← input_compact d]
      exact List.drop_append_of_le_length hpos
    have hrunning := hd.running (.inl hopen)
    refine ⟨⟨?_, hdelivered.trans hd.delivered, ?_, ?_⟩, heos.trans hopen, hmax, ?_, ?_⟩
    · show d.compact.pos ≤ (d.compact.buf ++ chunk).length
      rw [List.length_append]
      omega
    · show F.Ending d.compact.parser
      rw [hparser]
      exact hd.ending
    · intro _
      show F.Running d.compact.parser
      rw [hparser]
      exact hrunning
    · unfold weight
      rw [hinput, List.length_append]
      show F.load d.compact.parser + _ = _
      rw [hparser]
      omega
    · intro more
      rw [ahead, ahead, hinput, List.append_assoc]
      show _ = F.future d.compact.parser _
      rw [hparser]

theorem push_error (hopen : d.eos = false) {chunk : Bytes} {e : Error}
    (h : d.push chunk = .error e) :
    (∃ limit requested most, e = .limitExceeded limit requested most) ∧
      d.maxPending < F.weight d + chunk.length := by
  rcases compact_spec d with ⟨_, _, _, hmax, _⟩
  unfold push at h
  rw [hopen] at h
  simp only [Bool.false_eq_true, if_false] at h
  split at h
  · rename_i hover
    rw [pending_eq_length, input_compact, hmax] at hover
    cases h
    refine ⟨⟨_, _, _, rfl⟩, ?_⟩
    unfold weight
    omega
  · cases h

/-- Pushing chunks, and taking units in between, takes them off the forecast. -/
theorem feeds_ok (hd : F.Good d) (hopen : d.eos = false) {cuts : List (Bytes × Bool)}
    {units : List U} {outcome : Except Error (ParserDriver P)}
    (h : Feeds parse d cuts units outcome) (houtcome : outcome = .ok d') :
    F.Good d' ∧ d'.eos = false ∧ F.weight d' ≤ F.weight d + (pushed cuts).length ∧
      ∀ more, F.ahead d (pushed cuts ++ more) = units ++ F.ahead d' more := by
  induction h with
  | done =>
      cases houtcome
      exact ⟨hd, hopen, le_rfl, fun _ => rfl⟩
  | refused _ => cases houtcome
  | failed _ _ _ => cases houtcome
  | @pushed d d₁ chunk cuts units outcome hpush _ ih =>
      rcases push_ok hd hopen hpush with ⟨hgood, heos, _, hweight, hahead⟩
      rcases ih hgood heos houtcome with ⟨hgood', heos', hless, hrest⟩
      have hcuts : pushed ((chunk, false) :: cuts) = chunk ++ pushed cuts := rfl
      refine ⟨hgood', heos', ?_, fun more => ?_⟩
      · rw [hcuts, List.length_append]
        omega
      · rw [hcuts, List.append_assoc, hahead, hrest]
  | @drained d d₁ d₂ chunk cuts taken units outcome hpush hdrains _ ih =>
      rcases push_ok hd hopen hpush with ⟨hgood, heos, _, hweight, hahead⟩
      have hcuts : pushed ((chunk, true) :: cuts) = chunk ++ pushed cuts := rfl
      cases drains_spec hgood hdrains with
      | hungry _ keeps htaken =>
          rcases ih keeps.good (keeps.eos.trans heos) houtcome with ⟨hgood', heos', hless, hrest⟩
          have hkept := keeps.weight
          refine ⟨hgood', heos', ?_, fun more => ?_⟩
          · rw [hcuts, List.length_append]
            omega
          · rw [hcuts, List.append_assoc, hahead, htaken, hrest, List.append_assoc]

/-- Pushing chunks, and taking units in between, fails only where a cap is exceeded. -/
theorem feeds_error (hd : F.Good d) (hopen : d.eos = false) {cuts : List (Bytes × Bool)}
    {units : List U} {e : Error} {outcome : Except Error (ParserDriver P)}
    (h : Feeds parse d cuts units outcome) (houtcome : outcome = .error e) :
    (∃ limit requested most, e = .limitExceeded limit requested most) ∧
      min cap d.maxPending < F.weight d + (pushed cuts).length := by
  induction h with
  | done => cases houtcome
  | @refused d chunk drained cuts e' hpush =>
      cases houtcome
      rcases push_error (F := F) hopen hpush with ⟨hlimit, hover⟩
      have hcuts : pushed ((chunk, drained) :: cuts) = chunk ++ pushed cuts := rfl
      refine ⟨hlimit, ?_⟩
      rw [hcuts, List.length_append]
      omega
  | @failed d d₁ d₂ chunk cuts taken e' hpush hdrains hfatal =>
      cases houtcome
      rcases push_ok hd hopen hpush with ⟨hgood, heos, _, hweight, _⟩
      have hcuts : pushed ((chunk, true) :: cuts) = chunk ++ pushed cuts := rfl
      cases drains_spec hgood hdrains with
      | hungry _ _ _ => exact absurd rfl hfatal
      | ended hended _ => exact Bool.noConfusion (hended.symm.trans heos)
      | capped hover =>
          refine ⟨⟨_, _, _, rfl⟩, ?_⟩
          rw [hcuts, List.length_append]
          omega
  | @pushed d d₁ chunk cuts units outcome hpush _ ih =>
      rcases push_ok hd hopen hpush with ⟨hgood, heos, hmax, hweight, _⟩
      rcases ih hgood heos houtcome with ⟨hlimit, hover⟩
      have hcuts : pushed ((chunk, false) :: cuts) = chunk ++ pushed cuts := rfl
      refine ⟨hlimit, ?_⟩
      rw [hcuts, List.length_append]
      rw [hmax] at hover
      omega
  | @drained d d₁ d₂ chunk cuts taken units outcome hpush hdrains _ ih =>
      rcases push_ok hd hopen hpush with ⟨hgood, heos, hmax, hweight, _⟩
      have hcuts : pushed ((chunk, true) :: cuts) = chunk ++ pushed cuts := rfl
      cases drains_spec hgood hdrains with
      | hungry _ keeps _ =>
          rcases ih keeps.good (keeps.eos.trans heos) houtcome with ⟨hlimit, hover⟩
          have hkept := keeps.weight
          refine ⟨hlimit, ?_⟩
          rw [hcuts, List.length_append]
          rw [keeps.maxPending, hmax] at hover
          omega

/-- Pushing chunks, and taking units in between, comes to an end. -/
theorem exists_feeds (hd : F.Good d) (hopen : d.eos = false) (cuts : List (Bytes × Bool)) :
    ∃ units outcome, Feeds (U := U) parse d cuts units outcome := by
  induction cuts generalizing d with
  | nil => exact ⟨[], .ok d, .done⟩
  | cons cut cuts ih =>
      rcases cut with ⟨chunk, drained⟩
      cases hpush : d.push chunk with
      | error e => exact ⟨[], .error e, .refused hpush⟩
      | ok d₁ =>
          rcases push_ok hd hopen hpush with ⟨hgood, heos, _, _, _⟩
          cases drained with
          | false =>
              rcases ih hgood heos with ⟨units, outcome, hrest⟩
              exact ⟨units, outcome, .pushed hpush hrest⟩
          | true =>
              rcases exists_drains hgood with ⟨taken, d₂, e, hdrains⟩
              cases drains_spec hgood hdrains with
              | hungry _ keeps _ =>
                  rcases ih keeps.good (keeps.eos.trans heos) with ⟨units, outcome, hrest⟩
                  exact ⟨taken ++ units, outcome, .drained hpush hdrains hrest⟩
              | ended hended _ => exact Bool.noConfusion (hended.symm.trans heos)
              | capped _ => exact ⟨taken, _, .failed hpush hdrains nofun⟩

theorem good_finish (hd : F.Good d) (hopen : d.eos = false) : F.Good d.finish where
  pos := hd.pos
  delivered := hd.delivered
  ending := hd.ending
  running _ := hd.running (.inl hopen)

/-- A run hands out what was forecast. -/
theorem runs_ok (hd : F.Good d) (hopen : d.eos = false) {cuts : List (Bytes × Bool)}
    {units : List U} (h : Runs parse d cuts (.ok units)) : units = F.ahead d (pushed cuts) := by
  cases h with
  | ended hfeeds hdrains =>
      rcases feeds_ok hd hopen hfeeds rfl with ⟨hgood, heos, _, hahead⟩
      cases drains_spec (good_finish hgood heos) hdrains with
      | ended _ hlast =>
          have hall := hahead []
          rw [List.append_nil] at hall
          rw [hall, ← hlast]
          rfl

/-- A run fails only where a cap is exceeded. -/
theorem runs_error (hd : F.Good d) (hopen : d.eos = false) {cuts : List (Bytes × Bool)}
    {e : Error} (h : Runs (U := U) parse d cuts (.error e)) :
    (∃ limit requested most, e = .limitExceeded limit requested most) ∧
      min cap d.maxPending < F.weight d + (pushed cuts).length := by
  cases h with
  | stopped hfeeds => exact feeds_error hd hopen hfeeds rfl
  | failed hfeeds hdrains hfatal =>
      rcases feeds_ok hd hopen hfeeds rfl with ⟨hgood, heos, hless, _⟩
      cases drains_spec (good_finish hgood heos) hdrains with
      | hungry hopen' _ _ => exact Bool.noConfusion hopen'
      | ended _ _ => exact absurd rfl hfatal
      | @capped _ _ limit requested most hover =>
          refine ⟨⟨limit, requested, most, rfl⟩, ?_⟩
          have hsame : ∀ d : ParserDriver P, F.weight d.finish = F.weight d := fun _ => rfl
          rw [hsame] at hover
          omega

/-- Every run ends. -/
theorem exists_runs (hd : F.Good d) (hopen : d.eos = false) (cuts : List (Bytes × Bool)) :
    ∃ outcome, Runs (U := U) parse d cuts outcome := by
  rcases exists_feeds hd hopen cuts with ⟨units, outcome, hfeeds⟩
  cases outcome with
  | error e => exact ⟨_, .stopped hfeeds⟩
  | ok d' =>
      rcases feeds_ok hd hopen hfeeds rfl with ⟨hgood, heos, _, _⟩
      rcases exists_drains (good_finish hgood heos) with ⟨last, d'', e, hdrains⟩
      by_cases hend : e = .eof
      · subst hend
        exact ⟨_, .ended hfeeds hdrains⟩
      · exact ⟨_, .failed hfeeds hdrains hend⟩

end Forecast

end Codec
end Vaco
