import Vaco.Codec.ParserDriver
import Vaco.H264.StreamEnd

/-!
# Splitting does not depend on the chunks

A parser is going to hand out what it has queued, and then what its view gives once all bytes are
there.  It keeps this forecast whatever it is called with, so every run of a driver hands out what
the bytes give at once.  From the first start code on no byte is lost.

Without a start code the parser says that nothing in its buffer is a unit.  It still hands out
the last three bytes at the end.

Main results:

- `runs_output`: a run hands out what the bytes give at once.
- `access_units_iff`: when two runs hand out the same units.
-/

namespace Vaco
namespace H264

open Library BitStream Bitstream Vaco.Core Codec ParserDriver

variable {S : NalSyntax}

namespace H264Parser

variable {p : H264Parser S}

/-- A parser that the stream has not ended for. -/
structure Running (cap : Nat) (p : H264Parser S) : Prop where
  sound : p.Sound
  wf : p.view.Wf
  tail : p.eosTailDone = false
  maxAccessUnit : p.maxAccessUnit = cap

/-- A parser, which may have handled the last unit already. -/
structure Ending (cap : Nat) (p : H264Parser S) : Prop where
  sound : p.Sound
  open_or_done : p.eosTailDone = false ∧ p.view.Wf ∨ p.eosTailDone = true ∧ p.view.Settled
  maxAccessUnit : p.maxAccessUnit = cap

/-- What is handed out behind the queue. -/
def future (p : H264Parser S) (bytes : Bytes) : List AccessUnit :=
  p.ready ++ if p.eosTailDone then p.view.leftover else (p.view.append bytes).output

theorem output_append {v : View S} (hv : v.Wf) (more : Bytes) :
    (v.append more).output = v.advance.1 ++ (v.advance.2.append more).output := by
  rw [View.output, View.advance_append hv, View.output, List.append_assoc]

/-- Bytes are appended to the view. -/
theorem appendInput_spec (hp : p.Sound) (input : Bytes) :
    (∃ p', p.appendInput input = .ok p' ∧ p.Moves p' (p.view.append input) ∧ p'.ready = p.ready) ∨
      (∃ requested, p.appendInput input =
        .error (.limitExceeded "h264_access_unit" requested p.maxAccessUnit)) ∧
        p.maxAccessUnit < p.live.length + input.length := by
  unfold appendInput
  dsimp only
  split
  · rename_i hover
    exact .inr ⟨⟨_, rfl⟩, hover⟩
  · refine .inl ⟨_, rfl, ⟨⟨?_, ?_⟩, ?_, rfl, rfl⟩, rfl⟩
    · show p.auBase ≤ (p.au ++ input).length
      rw [List.length_append]
      exact hp.auBase.trans (Nat.le_add_right _ _)
    · have hlive : ({ p with au := p.au ++ input } : H264Parser S).live = p.live ++ input :=
        List.drop_append_of_le_length hp.auBase
      rw [hlive]
      exact hp.rules.append input
    · show View.mk ((p.au ++ input).drop p.auBase) p.nal p.pictures = _
      rw [List.drop_append_of_le_length hp.auBase]
      rfl

/-- A call with bytes hands out the next unit of the forecast, or takes the bytes. -/
theorem parse_bytes {cap : Nat} (hp : p.Running cap) {bytes : Bytes} (hbytes : bytes ≠ [])
    {unit : Option AccessUnit} {used : Nat} {p' : H264Parser S}
    (h : p.parse bytes = .ok ((unit, used), p')) :
    p'.Running cap ∧ used ≤ bytes.length ∧ (unit = none → used ≠ 0) ∧
      p'.live.length ≤ p.live.length + used ∧
      ∀ more, p.future (bytes ++ more) = unit.toList ++ p'.future (bytes.drop used ++ more) := by
  have hempty : ¬ bytes.isEmpty = true := by
    rw [List.isEmpty_iff]
    exact hbytes
  unfold parse at h
  rw [if_neg hempty] at h
  split at h
  · rename_i packet ready hready
    cases h
    refine ⟨⟨⟨hp.sound.auBase, hp.sound.rules⟩, hp.wf, hp.tail, hp.maxAccessUnit⟩,
      Nat.zero_le _, nofun, le_rfl, fun more => ?_⟩
    unfold future
    rw [hready]
    rfl
  · rename_i hready
    rcases appendInput_spec hp.sound bytes with ⟨q, hq, happend, hqueue⟩ | ⟨⟨requested, he⟩, _⟩
    · rw [hq] at h
      cases h
      rcases advance_view happend.sound with ⟨hmoves, hscanned⟩
      rw [happend.view] at hmoves hscanned
      rw [hqueue, hready, List.nil_append] at hscanned
      have hwf := View.Wf.append hp.wf bytes
      have htail : q.advance.eosTailDone = false :=
        (hmoves.eosTailDone.trans happend.eosTailDone).trans hp.tail
      have hview : ({ q.advance with ready := q.advance.ready.tail } : H264Parser S).view =
          (p.view.append bytes).advance.2 := hmoves.view
      refine ⟨⟨⟨hmoves.sound.auBase, hmoves.sound.rules⟩, ?_, htail, ?_⟩, le_rfl, ?_, ?_, ?_⟩
      · rw [hview]
        exact View.wf_advance hwf
      · exact (hmoves.maxAccessUnit.trans happend.maxAccessUnit).trans hp.maxAccessUnit
      · intro _ hzero
        exact hbytes (List.eq_nil_of_length_eq_zero hzero)
      · have hlength := View.length_advance (p.view.append bytes)
        have hlive : (p.view.append bytes).live.length = p.live.length + bytes.length :=
          List.length_append
        rw [hlive, ← hmoves.view] at hlength
        exact hlength
      · intro more
        unfold future
        rw [hview]
        show _ = _ ++ (q.advance.ready.tail ++ if q.advance.eosTailDone then _ else _)
        rw [htail, hp.tail, hready, hscanned, List.drop_length, List.nil_append,
          ← View.append_append]
        simp only [Bool.false_eq_true, if_false, List.nil_append]
        rw [output_append hwf, ← List.append_assoc]
        congr 1
        cases (p.view.append bytes).advance.1 <;> rfl
    · rw [he] at h
      cases h

theorem future_takeRest (hp : p.Sound) (htail : p.eosTailDone = true) (hready : p.ready = []) :
    (p.takeAccessUnit p.live.length).2.Ending p.maxAccessUnit ∧
      (p.takeAccessUnit p.live.length).2.live.length ≤ p.live.length ∧
      p.view.leftover = (p.takeAccessUnit p.live.length).1.toList ∧
      (p.takeAccessUnit p.live.length).2.future [] = [] := by
  rcases moves_takeAccessUnit hp p.live.length with ⟨hpacket, hmoves, hqueue⟩
  have htaken : (p.takeAccessUnit p.live.length).2.view =
      (p.view.take p.view.live.length).2 := hmoves.view
  have hdone := hmoves.eosTailDone.trans htail
  have hlive : (p.takeAccessUnit p.live.length).2.live = [] := by
    rw [live_takeAccessUnit, min_self, List.drop_length]
  refine ⟨⟨hmoves.sound, .inr ⟨hdone, ?_⟩, hmoves.maxAccessUnit⟩, ?_, hpacket.symm, ?_⟩
  · rw [htaken]
    exact View.settled_take p.view
  · rw [hlive]
    exact Nat.zero_le _
  · unfold future
    rw [hqueue, hready, hdone, htaken]
    exact View.leftover_take p.view

/-- Handling the last unit hands out the next unit of the forecast, or else the rest. -/
theorem future_finishTail (hp : p.Sound) (hwf : p.view.Wf) (hsettled : p.view.Settled)
    (hdone : p.eosTailDone = true) (hready : p.ready = []) :
    let answer := match p.finishTail.1 with
      | some packet => (some packet, p.finishTail.2)
      | none => p.finishTail.2.takeAccessUnit p.finishTail.2.live.length
    answer.2.Ending p.maxAccessUnit ∧ answer.2.live.length ≤ p.live.length ∧
      p.view.finals = answer.1.toList ++ answer.2.future [] ∧
      (answer.1 = none → p.view.finals = []) := by
  rcases finishTail_view hp hwf with ⟨hpacket, hended, hstill⟩
  have hfinals : p.view.finals = p.finishTail.1.toList ++ p.finishTail.2.view.leftover := by
    rw [hpacket, hended.view]
    rfl
  have hshort : p.finishTail.2.live.length ≤ p.live.length := by
    have hview := View.length_finishTail p.view
    rwa [← hended.view] at hview
  have htail : p.finishTail.2.view.Settled := by
    rw [hended.view]
    exact View.Settled.finishTail hsettled
  rw [hfinals]
  generalize p.finishTail = tail at *
  rcases tail with ⟨unit, q⟩
  have hdone' : q.eosTailDone = true := hended.eosTailDone.trans hdone
  have hready' : q.ready = [] := hstill.trans hready
  cases unit with
  | some packet =>
      refine ⟨⟨hended.sound, .inr ⟨hdone', htail⟩, hended.maxAccessUnit⟩, hshort, ?_, nofun⟩
      show _ = [packet] ++ q.future []
      unfold future
      rw [hready', hdone']
      rfl
  | none =>
      rcases future_takeRest hended.sound hdone' hready' with ⟨hend, hless, hrest, hnone⟩
      have hcap : q.maxAccessUnit = p.maxAccessUnit := hended.maxAccessUnit
      refine ⟨hcap ▸ hend, hless.trans hshort, ?_, ?_⟩
      · dsimp only
        rw [hrest, hnone, List.append_nil]
        rfl
      · intro hno
        dsimp only at hno ⊢
        rw [hrest, hno]
        rfl

/-- The end of the stream hands out the next unit of the forecast, or there is none. -/
theorem finishStream_spec {cap : Nat} (hp : p.Ending cap) :
    p.finishStream.2.Ending cap ∧ p.finishStream.2.live.length ≤ p.live.length ∧
      p.future [] = p.finishStream.1.toList ++ p.finishStream.2.future [] ∧
      (p.finishStream.1 = none → p.future [] = []) := by
  rcases advance_view hp.sound with ⟨hmoves, hscanned⟩
  have hlength : p.advance.live.length ≤ p.live.length := by
    have hview := View.length_advance p.view
    rwa [← hmoves.view] at hview
  have hcap := hmoves.maxAccessUnit.trans hp.maxAccessUnit
  have hsettled : p.advance.view.Settled := by
    rw [hmoves.view]
    exact View.settled_advance p.view
  have hqueue : p.future [] =
      p.advance.ready ++ if p.eosTailDone then p.advance.view.leftover
        else p.advance.view.finals := by
    unfold future
    rw [hscanned, hmoves.view, View.append_nil, List.append_assoc]
    rcases hp.open_or_done with ⟨hopen, _⟩ | ⟨hdone, hview⟩
    · rw [hopen]
      rfl
    · rw [hdone, hview.advance_eq]
      rfl
  rw [hqueue]
  unfold finishStream
  dsimp only
  split
  · rename_i packet ready hready
    refine ⟨⟨⟨hmoves.sound.auBase, hmoves.sound.rules⟩, ?_, hcap⟩, hlength, ?_, nofun⟩
    · rcases hp.open_or_done with ⟨hopen, hwf⟩ | ⟨hdone, _⟩
      · refine .inl ⟨hmoves.eosTailDone.trans hopen, ?_⟩
        show p.advance.view.Wf
        rw [hmoves.view]
        exact View.wf_advance hwf
      · exact .inr ⟨hmoves.eosTailDone.trans hdone, hsettled⟩
    · rw [hready]
      show packet :: ready ++ _ = packet ::
        (ready ++ if p.advance.eosTailDone then p.advance.view.leftover
          else (p.advance.view.append []).output)
      rw [hmoves.eosTailDone, View.append_nil, hsettled.output_eq]
      rfl
  · rename_i hready
    rw [hready, List.nil_append]
    rcases hp.open_or_done with ⟨hopen, hwf⟩ | ⟨hdone, _⟩
    · have htail : p.advance.eosTailDone = false := hmoves.eosTailDone.trans hopen
      have hwf' : p.advance.view.Wf := by
        rw [hmoves.view]
        exact View.wf_advance hwf
      rw [htail, hopen]
      rcases future_finishTail (p := { p.advance with ready := [], eosTailDone := true })
        ⟨hmoves.sound.auBase, hmoves.sound.rules⟩ hwf' hsettled rfl rfl
        with ⟨hend, hless, hfinals, hnone⟩
      exact ⟨hcap ▸ hend, le_trans hless hlength, hfinals, hnone⟩
    · have htail : p.advance.eosTailDone = true := hmoves.eosTailDone.trans hdone
      rw [htail, hdone]
      simp only [if_true]
      rcases future_takeRest hmoves.sound htail hready with ⟨hend, hless, hrest, hnone⟩
      refine ⟨hcap ▸ hend, hless.trans hlength, ?_, ?_⟩
      · rw [hrest, hnone, List.append_nil]
      · intro hno
        rw [hrest, hno]
        rfl

/-- What a parser is going to hand out. -/
def forecast (cap : Nat) : Forecast (parse (S := S)) cap where
  Running := Running cap
  Ending := Ending cap
  future := future
  load p := p.live.length
  ending_of_running hp := ⟨hp.sound, .inl ⟨hp.tail, hp.wf⟩, hp.maxAccessUnit⟩
  parse_error {p bytes e} hp hbytes h := by
    have hempty : ¬ bytes.isEmpty = true := by
      rw [List.isEmpty_iff]
      exact hbytes
    unfold parse at h
    rw [if_neg hempty] at h
    split at h
    · cases h
    · rcases appendInput_spec hp.sound bytes with ⟨q, hq, _⟩ | ⟨⟨requested, he⟩, hover⟩
      · rw [hq] at h
        cases h
      · rw [he] at h
        cases h
        exact ⟨⟨_, _, _, rfl⟩, hp.maxAccessUnit ▸ hover⟩
  parse_ok hp hbytes h := parse_bytes hp hbytes h
  parse_nil {p} hp := by
    rcases finishStream_spec hp with ⟨hend, hless, hfuture, hnone⟩
    exact ⟨p.finishStream.1, p.finishStream.2, rfl, hend, hless, hfuture, hnone⟩

end H264Parser

/-! ## Runs -/

/-- A driver with its caps over a parser that has seen nothing. -/
def driver (maxPending maxAccessUnit : Nat) : ParserDriver (H264Parser S) :=
  (ParserDriver.new (H264Parser.new maxAccessUnit)).withMaxPending maxPending

theorem good_driver (maxPending maxAccessUnit : Nat) :
    (H264Parser.forecast maxAccessUnit).Good (driver (S := S) maxPending maxAccessUnit) where
  pos := le_rfl
  delivered := rfl
  ending := ⟨H264Parser.sound_new _, .inl ⟨rfl, View.wf_empty⟩, rfl⟩
  running _ := ⟨H264Parser.sound_new _, View.wf_empty, rfl, rfl⟩

/-- A run hands out what the bytes give at once. -/
theorem runs_output {maxPending maxAccessUnit : Nat} {cuts : List (Bytes × Bool)}
    {units : List AccessUnit}
    (h : Runs H264Parser.parse (driver (S := S) maxPending maxAccessUnit) cuts (.ok units)) :
    units = ((View.empty : View S).append (pushed cuts)).output :=
  Forecast.runs_ok (good_driver maxPending maxAccessUnit) rfl h

theorem exists_runs {maxPending maxAccessUnit : Nat} {cuts : List (Bytes × Bool)}
    (hpending : (pushed cuts).length ≤ maxPending) (hunit : (pushed cuts).length ≤ maxAccessUnit) :
    Runs H264Parser.parse (driver (S := S) maxPending maxAccessUnit) cuts
      (.ok ((View.empty : View S).append (pushed cuts)).output) := by
  rcases Forecast.exists_runs (good_driver (S := S) maxPending maxAccessUnit) rfl cuts
    with ⟨_ | units, hruns⟩
  · have hover := (Forecast.runs_error (good_driver maxPending maxAccessUnit) rfl hruns).2
    have hweight : (H264Parser.forecast maxAccessUnit).weight
        (driver (S := S) maxPending maxAccessUnit) = 0 := rfl
    have hcap : maxPending ≤ (driver (S := S) maxPending maxAccessUnit).maxPending := by
      show maxPending ≤ if maxPending = 0 then 1 else maxPending
      split <;> omega
    omega
  · rw [← runs_output hruns]
    exact hruns

/-- Two runs over the same bytes hand out the same units, those from the first start code on,
exactly when there is a start code or no byte. -/
theorem access_units_iff (S : NalSyntax)
    (maxPending₁ maxPending₂ maxAccessUnit₁ maxAccessUnit₂ : Nat)
    (data : Bytes) (cuts₁ cuts₂ : List (Bytes × Bool)) (units₁ units₂ : List AccessUnit)
    (hcuts₁ : pushed cuts₁ = data) (hcuts₂ : pushed cuts₂ = data)
    (h₁ : Runs H264Parser.parse (driver (S := S) maxPending₁ maxAccessUnit₁) cuts₁ (.ok units₁))
    (h₂ : Runs H264Parser.parse (driver (S := S) maxPending₂ maxAccessUnit₂) cuts₂ (.ok units₂)) :
    (units₁ = units₂ ∧
      (∀ sc, firstCode data 0 = some sc →
        units₁.flatMap AccessUnit.payload = data.drop sc.offset) ∧
      (firstCode data 0 = none → units₁ = [])) ↔
      data = [] ∨ ∃ i, startsCode (data.drop i) = true := by
  have hunits₁ := runs_output h₁
  have hunits₂ := runs_output h₂
  rw [hcuts₁] at hunits₁
  rw [hcuts₂] at hunits₂
  have hcode : (∃ i, startsCode (data.drop i) = true) ↔ firstCode data 0 ≠ none := by
    rw [firstCode, ne_eq, Option.map_eq_none_iff, findStartCode_eq_none_iff]
    simp
  rw [hcode]
  constructor
  · rintro ⟨_, _, hsilent⟩
    by_cases hnone : firstCode data 0 = none
    · have hempty := hsilent hnone
      rw [hunits₁, View.output_eq_nil_iff hnone] at hempty
      exact .inl hempty
    · exact .inr hnone
  · intro hwhen
    refine ⟨hunits₁.trans hunits₂.symm, fun sc hsc => ?_, fun hnone => ?_⟩
    · rw [hunits₁]
      exact View.payload_output hsc
    · rcases hwhen with hempty | hsome
      · rw [hunits₁, View.output_eq_nil_iff hnone]
        exact hempty
      · exact absurd hnone hsome

/-- A syntax of which nothing is ever read. -/
def NalSyntax.silent : NalSyntax where
  Sets := Unit
  Sps := Unit
  Slice := Unit
  Poc := Unit
  Count := Unit
  Hint := Unit
  noSets := ()
  addSps _ _ := ()
  addPps _ _ := ()
  addSpsExtension _ _ := ()
  readSeiHint _ _ := none
  readSliceHeader _ _ := none
  activate _ _ := ()
  spsForPps _ _ := none
  startsNewPicture _ _ _ := false
  startPoc := ()
  advancePoc _ _ _ := ((), ())
  noCount := ()
  sliceIsIdr _ := false
  sliceIsReference _ := false
  pictureType _ := 'I'

/-- An access unit delimiter that is cut within its start code, and one that is not. -/
theorem access_units_delimiter :
    ∃ units₁ units₂,
      Runs H264Parser.parse (driver (S := .silent) 5 5) [([0], true), ([0, 1, 9, 16], false)]
          (.ok units₁) ∧
        Runs H264Parser.parse (driver (S := .silent) 5 5) [([0, 0, 1, 9, 16], true)]
          (.ok units₂) ∧
        units₁ = units₂ ∧ units₁.flatMap AccessUnit.payload = [0, 0, 1, 9, 16] := by
  have hfirst : Runs H264Parser.parse (driver (S := .silent) 5 5)
      [([0], true), ([0, 1, 9, 16], false)] (.ok ((View.empty : View .silent).append
        (pushed [([0], true), ([0, 1, 9, 16], false)])).output) := exists_runs le_rfl le_rfl
  have hsecond : Runs H264Parser.parse (driver (S := .silent) 5 5) [([0, 0, 1, 9, 16], true)]
      (.ok ((View.empty : View .silent).append (pushed [([0, 0, 1, 9, 16], true)])).output) :=
    exists_runs le_rfl le_rfl
  have hcode : firstCode [0, 0, 1, 9, 16] 0 = some ⟨0, 3⟩ := by
    rw [firstCode, findStartCode_eq_scan]
    rfl
  rcases (access_units_iff .silent 5 5 5 5 [0, 0, 1, 9, 16] _ _ _ _ rfl rfl hfirst hsecond).mpr
    (.inr ⟨0, rfl⟩) with ⟨hsame, hbytes, _⟩
  exact ⟨_, _, hfirst, hsecond, hsame, hbytes _ hcode⟩

/-- Three bytes without a start code are handed out. -/
theorem garbage_handed_out :
    Runs H264Parser.parse (driver (S := .silent) 3 3) [([1, 2, 3], true)]
        (.ok [⟨[1, 2, 3], false⟩]) ∧
      firstCode (pushed [([1, 2, 3], true)]) 0 = none := by
  have hnone : firstCode [1, 2, 3] 0 = none := by
    rw [firstCode, findStartCode_eq_scan]
    rfl
  have hruns : Runs H264Parser.parse (driver (S := .silent) 3 3) [([1, 2, 3], true)]
      (.ok ((View.empty : View .silent).append (pushed [([1, 2, 3], true)])).output) :=
    exists_runs le_rfl le_rfl
  refine ⟨?_, hnone⟩
  have houtput : ((View.empty : View .silent).append (pushed [([1, 2, 3], true)])).output =
      [⟨[1, 2, 3], false⟩] := by
    rw [View.output, View.advance_none hnone]
    rfl
  rwa [houtput] at hruns

end H264
end Vaco
