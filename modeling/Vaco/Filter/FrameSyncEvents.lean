import Vaco.Filter.FrameSync
import Vaco.Library.Transducer

/-!
# The events of a frame synchroniser

Every frame an input was ever fed is either behind the timeline or its lookahead.  Between
two events all lookaheads lie after the time reached, and an input without one has ended.

Main results:

- `Aligned.stepLoop`: the event loop keeps the invariant.
- `events_aligned`: when the events of a run lie, and what each input gives.
-/

namespace Vaco
namespace Filter

open Library Vaco.Core

variable {α : Type*}

/-- The frames fed to an input, each with its timestamp on the common timeline. -/
abbrev History (α : Type*) := List (I64 × Frame α)

namespace Input

/-- The lookahead of an input as a list. -/
def Looks (input : Input α) (look : History α) : Prop :=
  (input.nextPts = none ∧ input.next = none ∧ look = []) ∨
    ∃ p frame, input.nextPts = some p ∧ input.next = some frame ∧ look = [(p, frame)]

def Holds (input : Input α) (done : History α) : Prop :=
  match input.state with
  | .beforeFirst => done = [] ∧ input.frame = none
  | .running => ∃ x, done.getLast? = some x ∧ input.pts = some x.1 ∧ input.frame = some x.2
  | .afterEof =>
      input.eofSeen = true ∧ input.nextPts = none ∧
        input.frame = if input.role.after = .null then none else done.getLast?.map Prod.snd

/-- The frames up to the time reached are behind the timeline, the lookahead lies after the last
event, and only later frames can still be fed. -/
structure Inv (last reached : WithBot I64) (input : Input α) (fed : History α) : Prop where
  sorted : fed.Pairwise fun x y => x.1 ≤ y.1
  split : ∃ done look, fed = done ++ look ∧ input.Looks look ∧
    (∀ x ∈ done, (x.1 : WithBot I64) ≤ reached) ∧ input.Holds done
  ahead : ∀ p : I64, input.nextPts = some p → last < p
  fresh : input.eofSeen = true ∨ last = ⊥ ∨ ∃ x, fed.getLast? = some x ∧ last < (x.1 : I64)

variable {input : Input α} {fed : History α} {last reached : WithBot I64}

theorem inv_new (role : FsInput) : Inv ⊥ ⊥ (Input.new role : Input α) [] where
  sorted := List.Pairwise.nil
  split := ⟨[], [], rfl, Or.inl ⟨rfl, rfl, rfl⟩, by simp, rfl, rfl⟩
  ahead := by
    intro p hp
    cases hp
  fresh := Or.inr (Or.inl rfl)

theorem Inv.mono (h : Inv last reached input fed) {reached' : WithBot I64}
    (hle : reached ≤ reached') : Inv last reached' input fed := by
  rcases h.split with ⟨done, look, hfed, hlook, hdone, hholds⟩
  exact ⟨h.sorted, ⟨done, look, hfed, hlook, fun x hx => (hdone x hx).trans hle, hholds⟩,
    h.ahead, h.fresh⟩

/-- Feeding an input that has room and has not ended with a frame that is not earlier than
the one before. -/
theorem Inv.lookAt (h : Inv last reached input fed) (hroom : input.hasNext = false)
    (hopen : input.eofSeen = false) {p : I64} {frame : Frame α}
    (hlater : ∀ x, fed.getLast? = some x → x.1 ≤ p) :
    Inv last reached (input.lookAt p frame) (fed ++ [(p, frame)]) := by
  have hnext : input.nextPts = none := by simpa [hasNext] using hroom
  rcases h.split with ⟨done, look, hfed, hlook, hdone, hholds⟩
  have hlast : last < (p : WithBot I64) := by
    rcases h.fresh with hended | hnone | ⟨x, hx, hlt⟩
    · rw [hopen] at hended
      cases hended
    · rw [hnone]
      exact WithBot.bot_lt_coe p
    · exact hlt.trans_le (WithBot.coe_le_coe.mpr (hlater x hx))
  refine ⟨?_, ⟨done, [(p, frame)], ?_, Or.inr ⟨p, frame, rfl, rfl, rfl⟩, hdone, ?_⟩, ?_, ?_⟩
  · rw [List.pairwise_append]
    refine ⟨h.sorted, List.pairwise_singleton _ _, ?_⟩
    intro x hx y hy
    rw [List.mem_singleton.mp hy]
    rcases List.eq_nil_or_concat fed with rfl | ⟨front, z, rfl⟩
    · cases hx
    · rw [List.concat_eq_append] at hx hlater
      have hz : z.1 ≤ p := hlater z (by simp)
      have hsorted := h.sorted
      rw [List.concat_eq_append, List.pairwise_append] at hsorted
      rcases List.mem_append.mp hx with hfront | hlast
      · exact (hsorted.2.2 x hfront z (List.mem_singleton_self z)).trans hz
      · rwa [List.mem_singleton.mp hlast]
  · rcases hlook with ⟨-, -, rfl⟩ | ⟨q, f, hq, -, -⟩
    · rw [hfed, List.append_nil]
    · rw [hnext] at hq
      cases hq
  · have hstate' : (input.lookAt p frame).state = input.state := rfl
    rw [Holds] at hholds ⊢
    rw [hstate']
    cases hstate : input.state with
    | beforeFirst =>
        rw [hstate] at hholds
        exact hholds
    | running =>
        rw [hstate] at hholds
        exact hholds
    | afterEof =>
        rw [hstate, hopen] at hholds
        cases hholds.1
  · intro q hq
    cases hq
    exact hlast
  · exact Or.inr (Or.inr ⟨(p, frame), by simp, hlast⟩)

theorem Inv.close (h : Inv last reached input fed) (common : TimeBase) (pts : Timestamp) :
    Inv last reached (input.close common pts) fed := by
  rw [Input.close]
  split
  · exact h
  · rename_i hopen
    rcases h.split with ⟨done, look, hfed, hlook, hdone, hholds⟩
    refine ⟨h.sorted, ⟨done, look, hfed, hlook, hdone, ?_⟩, h.ahead, Or.inl rfl⟩
    rw [Holds] at hholds ⊢
    cases hstate : input.state with
    | beforeFirst =>
        rw [hstate] at hholds
        exact hholds
    | running =>
        rw [hstate] at hholds
        exact hholds
    | afterEof =>
        rw [hstate] at hholds
        exact absurd hholds.1 hopen

/-- An end of stream that takes effect keeps the invariant. -/
theorem Inv.applyEnd (h : Inv last reached input fed) : Inv last reached input.applyEnd fed := by
  by_cases hdue : input.endDue = true
  · rcases h.split with ⟨done, look, hfed, hlook, hdone, hholds⟩
    have hparts : (input.eofSeen = true ∧ input.nextPts = none) ∧ input.state ≠ .afterEof := by
      simpa [endDue, exhausted] using hdue
    rcases hparts with ⟨⟨hended, hnext⟩, hstate⟩
    have hframe : input.frame = done.getLast?.map Prod.snd := by
      rw [Holds] at hholds
      cases hcase : input.state with
      | beforeFirst =>
          rw [hcase] at hholds
          rw [hholds.2, hholds.1]
          rfl
      | running =>
          rw [hcase] at hholds
          rcases hholds with ⟨x, hx, -, hframe⟩
          rw [hframe, hx]
          rfl
      | afterEof => exact absurd hcase hstate
    rw [Input.applyEnd, if_pos hdue]
    cases hafter : input.role.after with
    | stop =>
        refine ⟨h.sorted, ⟨done, look, hfed, hlook, hdone, hended, hnext, ?_⟩, h.ahead, h.fresh⟩
        simp [hafter, hframe]
    | null =>
        refine ⟨h.sorted, ⟨done, look, hfed, hlook, hdone, hended, hnext, ?_⟩, h.ahead, h.fresh⟩
        simp [hafter]
    | infinity =>
        refine ⟨h.sorted, ⟨done, look, hfed, hlook, hdone, hended, hnext, ?_⟩, h.ahead, h.fresh⟩
        simp [hafter, hframe]
  · rw [Input.applyEnd, if_neg hdue]
    exact h

/-- Advancing an input to a time keeps the invariant at that time. -/
theorem Inv.advance {pts : I64} (h : Inv last pts input fed) :
    Inv last pts (input.advance pts).1 fed := by
  rcases Input.advance_cases input pts with ⟨⟨p, hnext, hp⟩, hstep⟩ | ⟨_, hstep⟩ | ⟨_, hstep⟩
  · rw [hstep]
    rcases h.split with ⟨done, look, hfed, hlook, hdone, hholds⟩
    rcases hlook with ⟨hnone, -, -⟩ | ⟨q, frame, hq, hframe, rfl⟩
    · rw [hnext] at hnone
      cases hnone
    · have hpq : p = q := by
        rw [hnext] at hq
        exact Option.some.inj hq
      subst hpq
      refine ⟨h.sorted, ⟨done ++ [(p, frame)], [], by simpa using hfed, Or.inl ⟨rfl, rfl, rfl⟩,
        ?_, ?_⟩, ?_, h.fresh⟩
      · intro x hx
        rcases List.mem_append.mp hx with hold | hnew
        · exact hdone x hold
        · rw [List.mem_singleton.mp hnew]
          exact WithBot.coe_le_coe.mpr hp
      · exact ⟨(p, frame), by simp, hnext, hframe⟩
      · intro q hq
        cases hq
  · rw [hstep]
    exact h
  · rw [hstep]
    exact h

/-- Once no input waits, the time reached is the time of the last event. -/
theorem Inv.pass {pts : I64} (h : Inv last pts input fed)
    (hwaits : (input.advance pts).2 = false) : Inv pts pts (input.advance pts).1 fed := by
  have hkept := h.advance
  have hsettled : (∃ p, (input.advance pts).1.nextPts = some p ∧ pts < p) ∨
      ((input.advance pts).1.nextPts = none ∧ (input.advance pts).1.eofSeen = true) := by
    rcases Input.advance_cases input pts with ⟨_, hstep⟩ | ⟨hnext, hstep⟩ | ⟨hnext, hstep⟩ <;>
      rw [hstep] at hwaits ⊢
    · have hended : input.eofSeen = true := by simpa using hwaits
      exact Or.inr ⟨rfl, hended⟩
    · exact Or.inl hnext
    · exact Or.inr ⟨hnext, by simpa using hwaits⟩
  rcases hkept.split with ⟨done, look, hfed, hlook, hdone, hholds⟩
  refine ⟨hkept.sorted, ⟨done, look, hfed, hlook, hdone, hholds⟩, ?_, ?_⟩
  · intro p hp
    rcases hsettled with ⟨q, hq, hlt⟩ | ⟨hnone, -⟩
    · rw [hp] at hq
      cases hq
      exact WithBot.coe_lt_coe.mpr hlt
    · rw [hp] at hnone
      cases hnone
  · rcases hsettled with ⟨q, hq, hlt⟩ | ⟨-, hended⟩
    · rcases hlook with ⟨hnone, -, -⟩ | ⟨p, frame, hp, -, rfl⟩
      · rw [hq] at hnone
        cases hnone
      · rw [hq] at hp
        cases hp
        exact Or.inr (Or.inr ⟨(q, frame), by rw [hfed]; simp, WithBot.coe_lt_coe.mpr hlt⟩)
    · exact Or.inl hended

theorem advance_role (input : Input α) (pts : I64) : (input.advance pts).1.role = input.role := by
  rcases advance_cases input pts with ⟨_, hstep⟩ | ⟨_, hstep⟩ | ⟨_, hstep⟩ <;> rw [hstep]
  rfl

theorem state_of_advance {pts : I64} (h : (input.advance pts).1.state = .afterEof) :
    input.state = .afterEof := by
  rcases advance_cases input pts with ⟨_, hstep⟩ | ⟨_, hstep⟩ | ⟨_, hstep⟩ <;> rw [hstep] at h
  · cases h
  · exact h
  · exact h

theorem applyEnd_role (input : Input α) : input.applyEnd.role = input.role := by
  unfold Input.applyEnd
  split
  · split <;> rfl
  · rfl

theorem close_role_state (input : Input α) (common : TimeBase) (pts : Timestamp) :
    (input.close common pts).role = input.role ∧ (input.close common pts).state = input.state := by
  unfold Input.close
  split <;> exact ⟨rfl, rfl⟩

end Input

/-! ## The synchroniser -/

/-- The time reached: the one chosen for the next event, or that of the last. -/
def FrameSync.reached (s : FrameSync α) (last : WithBot I64) : WithBot I64 :=
  match s.pendingPts with
  | some pts => pts
  | none => last

structure Aligned (roles : List FsInput) (opts : FrameSyncOpts) (last : WithBot I64)
    (s : FrameSync α) (fed : List (History α)) : Prop where
  length : fed.length = s.inputs.length
  inputs : ∀ (i : Nat) (input : Input α) (history : History α), s.inputs[i]? = some input →
    fed[i]? = some history → input.Inv last (s.reached last) history
  pending : ∀ pts : I64, s.pendingPts = some pts → last < pts
  stopped : ∀ input ∈ s.inputs, input.state = .afterEof → input.role.after = .stop →
    s.eof = true
  roles : s.inputs.map Input.role = roles
  opts : s.opts = opts

/-- What an input contributes that is before its first frame, running, or past its end. -/
def Input.Contributes (input : Input α) (mode : TsSyncMode) (fed : History α) (pts : I64)
    (chosen : Option (Frame α)) : Prop :=
  match input.state with
  | .beforeFirst =>
      (∀ x ∈ fed, pts < x.1) ∧
        ((input.role.before = .null ∧ chosen = none) ∨
          (input.role.before = .infinity ∧ chosen = fed.head?.map Prod.snd))
  | .running =>
      match mode with
      | .default =>
          ∃ x ∈ fed, chosen = some x.2 ∧ x.1 ≤ pts ∧ ∀ y ∈ fed, y.1 ≤ pts → y.1 ≤ x.1
      | .nearest =>
          ∃ x ∈ fed, chosen = some x.2 ∧ ∀ y ∈ fed,
            Input.absDiff x.1 pts ≤ Input.absDiff y.1 pts ∧
              (Input.absDiff x.1 pts = Input.absDiff y.1 pts → x.1 ≤ y.1)
  | .afterEof =>
      input.eofSeen = true ∧ (∀ x ∈ fed, x.1 ≤ pts) ∧
        ((input.role.after = .null ∧ chosen = none) ∨
          (input.role.after = .infinity ∧ chosen = fed.getLast?.map Prod.snd))

namespace Aligned

variable {roles : List FsInput} {opts : FrameSyncOpts} {last : WithBot I64} {s s' : FrameSync α}
  {fed : List (History α)}

/-- A new synchroniser. -/
theorem new (h : FrameSync.new roles opts = .ok s) :
    Aligned (applyOpts roles opts) opts ⊥ s ((applyOpts roles opts).map fun _ => []) := by
  rw [FrameSync.new] at h
  split at h
  · cases h
  · cases hbase : commonTimeBase none (applyOpts roles opts) with
    | error error => simp [hbase] at h
    | ok base =>
        simp only [hbase] at h
        cases h
        refine ⟨by simp, ?_, ?_, ?_, ?_, rfl⟩
        · intro i input history hinput hhistory
          rw [List.getElem?_map] at hinput hhistory
          rcases Option.map_eq_some_iff.mp hinput with ⟨role, -, rfl⟩
          rcases Option.map_eq_some_iff.mp hhistory with ⟨_, -, rfl⟩
          exact Input.inv_new role
        · intro pts hpts
          cases hpts
        · intro input hinput hstate
          rcases List.mem_map.mp hinput with ⟨role, -, rfl⟩
          cases hstate
        · rw [List.map_map]
          exact List.map_id _

/-- Letting ends of stream take effect between two events. -/
theorem applyPendingEof (h : Aligned roles opts last s fed) :
    Aligned roles opts last s.applyPendingEof fed where
  length := by
    rw [h.length, FrameSync.applyPendingEof, List.length_map]
  inputs := by
    intro i input history hinput hhistory
    rw [FrameSync.applyPendingEof, List.getElem?_map] at hinput
    rcases Option.map_eq_some_iff.mp hinput with ⟨before, hbefore, rfl⟩
    exact (h.inputs i before history hbefore hhistory).applyEnd
  pending := h.pending
  stopped := by
    intro input hinput hstate hafter
    rcases List.mem_map.mp hinput with ⟨before, hmem, rfl⟩
    rw [Input.applyEnd_role] at hafter
    show (s.eof || s.inputs.any Input.endsAll) = true
    rw [Bool.or_eq_true]
    by_cases hdue : before.endDue = true
    · refine Or.inr (List.any_eq_true.mpr ⟨before, hmem, ?_⟩)
      simp [Input.endsAll, hdue, hafter]
    · rw [Input.applyEnd, if_neg hdue] at hstate
      exact Or.inl (h.stopped before hmem hstate hafter)
  roles := by
    rw [← h.roles, FrameSync.applyPendingEof, List.map_map]
    exact List.map_congr_left fun input _ => Input.applyEnd_role input
  opts := h.opts

/-- Choosing the time of the next event. -/
theorem choose {pts : I64} (h : Aligned roles opts last s fed) (hnone : s.pendingPts = none)
    (hchoose : s.choose = (s', .ok pts)) :
    Aligned roles opts last s' fed ∧ s'.pendingPts = some pts ∧ last < pts := by
  have happlied := h.applyPendingEof
  rcases FrameSync.choose_eq_ok hchoose with ⟨rfl, driver, hmem, hnext⟩
  have hlater : last < (pts : WithBot I64) := by
    rcases List.getElem?_of_mem hmem with ⟨i, hi⟩
    have hlt : i < fed.length := by
      rw [happlied.length]
      exact (List.getElem?_eq_some_iff.mp hi).1
    exact (happlied.inputs i driver _ hi (List.getElem?_eq_getElem hlt)).ahead pts hnext
  refine ⟨⟨happlied.length, ?_, ?_, happlied.stopped, happlied.roles, happlied.opts⟩, rfl, hlater⟩
  · intro i input history hinput hhistory
    have hinv := happlied.inputs i input history hinput hhistory
    have hreached : s.applyPendingEof.reached last = last := by
      have hpending : s.applyPendingEof.pendingPts = none := hnone
      rw [FrameSync.reached, hpending]
    rw [hreached] at hinv
    exact hinv.mono hlater.le
  · intro q hq
    cases hq
    exact hlater

/-- The last frame that was passed is the newest of those. -/
theorem newest_of_getLast? {history done look : History α} {x : I64 × Frame α}
    (hsorted : history.Pairwise fun a b => a.1 ≤ b.1) (hfed : history = done ++ look)
    (hx : done.getLast? = some x) : ∀ y ∈ done, y.1 ≤ x.1 := by
  rcases List.getLast?_eq_some_iff.mp hx with ⟨front, rfl⟩
  rw [hfed, List.append_assoc, List.pairwise_append] at hsorted
  intro y hy
  rcases List.mem_append.mp hy with hfront | hlast
  · exact hsorted.2.2 y hfront x (List.mem_append_left look (List.mem_singleton_self x))
  · rw [List.mem_singleton.mp hlast]

/-- In nearest mode an input that runs picks the nearest of its frames, the earlier one on a tie. -/
theorem pick_nearest {input : Input α} {done look : History α} {pts : I64} {x : I64 × Frame α}
    (hx : x ∈ done) (hnewest : ∀ y ∈ done, y.1 ≤ x.1) (hxp : x.1 ≤ pts)
    (hpts : input.pts = some x.1) (hframe : input.frame = some x.2)
    (hlook : input.nextPts = none ∧ look = [] ∨ ∃ p frame, input.nextPts = some p ∧ pts < p ∧
      input.next = some frame ∧ look = [(p, frame)]) :
    ∃ z ∈ done ++ look, input.pick pts .nearest = some z.2 ∧ ∀ y ∈ done ++ look,
      Input.absDiff z.1 pts ≤ Input.absDiff y.1 pts ∧
        (Input.absDiff z.1 pts = Input.absDiff y.1 pts → z.1 ≤ y.1) := by
  have hdistance : ∀ y ∈ done, Input.absDiff x.1 pts ≤ Input.absDiff y.1 pts ∧
      (Input.absDiff x.1 pts = Input.absDiff y.1 pts → x.1 ≤ y.1) := by
    intro y hy
    have hyx : y.1.val ≤ x.1.val := hnewest y hy
    have hxp : x.1.val ≤ pts.val := hxp
    show (x.1.val - pts.val).natAbs ≤ (y.1.val - pts.val).natAbs ∧
      ((x.1.val - pts.val).natAbs = (y.1.val - pts.val).natAbs → x.1.val ≤ y.1.val)
    omega
  rcases hlook with ⟨hnone, rfl⟩ | ⟨p, frame, hp, hpast, hnext, rfl⟩
  · refine ⟨x, List.mem_append_left _ hx, ?_, ?_⟩
    · simp only [Input.pick, hpts, hnone, hframe]
    · intro y hy
      rw [List.append_nil] at hy
      exact hdistance y hy
  · simp only [Input.pick, hpts, hp, hnext, hframe]
    split <;> rename_i hnearer
    · refine ⟨(p, frame), by simp, rfl, ?_⟩
      intro y hy
      rcases List.mem_append.mp hy with hdone | hlook
      · have hle := (hdistance y hdone).1
        exact ⟨(hnearer.trans_le hle).le, fun heq => absurd heq (hnearer.trans_le hle).ne⟩
      · rw [List.mem_singleton.mp hlook]
        exact ⟨le_rfl, fun _ => le_rfl⟩
    · refine ⟨x, List.mem_append_left _ hx, rfl, ?_⟩
      intro y hy
      rcases List.mem_append.mp hy with hdone | hlook
      · exact hdistance y hdone
      · rw [List.mem_singleton.mp hlook]
        exact ⟨not_lt.mp hnearer, fun _ => hxp.trans hpast.le⟩

/-- The contribution of an input at the time reached. -/
theorem contributes {input : Input α} {history : History α} {pts : I64} (mode : TsSyncMode)
    (h : input.Inv pts pts history) (hblocks : input.blocks = false)
    (hstop : input.state = .afterEof → input.role.after ≠ .stop) :
    input.Contributes mode history pts (input.contribution pts mode) := by
  rcases h.split with ⟨done, look, hfed, hlook, hdone, hholds⟩
  have hbehind : ∀ x ∈ done, x.1 ≤ pts := fun x hx => WithBot.coe_le_coe.mp (hdone x hx)
  have hlater : ∀ x ∈ look, pts < x.1 ∧ input.nextPts = some x.1 ∧ input.next = some x.2 := by
    intro x hx
    rcases hlook with ⟨-, -, rfl⟩ | ⟨p, frame, hp, hframe, rfl⟩
    · cases hx
    · rw [List.mem_singleton.mp hx]
      exact ⟨WithBot.coe_lt_coe.mp (h.ahead p hp), hp, hframe⟩
  rw [Input.Holds] at hholds
  unfold Input.Contributes Input.contribution
  cases hstate : input.state with
  | beforeFirst =>
      rw [hstate] at hholds
      have hfirst : history = look := by rw [hfed, hholds.1, List.nil_append]
      refine ⟨fun x hx => (hlater x (hfirst ▸ hx)).1, ?_⟩
      cases hbefore : input.role.before with
      | stop => simp [Input.blocks, hstate, hbefore] at hblocks
      | null => exact Or.inl ⟨rfl, rfl⟩
      | infinity =>
          refine Or.inr ⟨rfl, ?_⟩
          rcases hlook with ⟨-, hnone, rfl⟩ | ⟨p, frame, -, hframe, rfl⟩
          · rw [hfirst]
            exact hnone
          · rw [hfirst]
            exact hframe
  | running =>
      rw [hstate] at hholds
      rcases hholds with ⟨x, hx, hpts, hframe⟩
      have hmem : x ∈ done := List.mem_of_getLast? hx
      have hhistory : x ∈ history := hfed ▸ List.mem_append_left look hmem
      have hnewest := newest_of_getLast? h.sorted hfed hx
      cases mode with
      | default =>
          refine ⟨x, hhistory, hframe, hbehind x hmem, ?_⟩
          intro y hy hle
          rw [hfed] at hy
          rcases List.mem_append.mp hy with hdone | hlook
          · exact hnewest y hdone
          · exact absurd hle (not_le.mpr (hlater y hlook).1)
      | nearest =>
          rw [hfed]
          refine pick_nearest hmem hnewest (hbehind x hmem) hpts hframe (hlook.imp ?_ ?_)
          · exact fun hnone => ⟨hnone.1, hnone.2.2⟩
          · rintro ⟨p, frame, hp, hnext, rfl⟩
            exact ⟨p, frame, hp, (hlater (p, frame) (List.mem_singleton_self _)).1, hnext, rfl⟩
  | afterEof =>
      rw [hstate] at hholds
      rcases hholds with ⟨hended, hnone, hframe⟩
      have hall : history = done := by
        rcases hlook with ⟨-, -, rfl⟩ | ⟨p, frame, hp, -, -⟩
        · rw [hfed, List.append_nil]
        · rw [hnone] at hp
          cases hp
      refine ⟨hended, fun x hx => hbehind x (hall ▸ hx), ?_⟩
      cases hafter : input.role.after with
      | stop => exact absurd hafter (hstop hstate)
      | null =>
          simp only [hafter, if_true] at hframe
          exact Or.inl ⟨rfl, hframe⟩
      | infinity =>
          rw [hafter, if_neg (by decide)] at hframe
          exact Or.inr ⟨rfl, by rw [hall]; exact hframe⟩

/-- Advancing every input to the chosen time, as far as possible. -/
theorem advanceAll {pts : I64} {inputs : List (Input α)}
    (h : ∀ (i : Nat) (input : Input α) (history : History α), inputs[i]? = some input →
      fed[i]? = some history → input.Inv last pts history) :
    ∀ (i : Nat) (input : Input α) (history : History α),
      (FrameSync.advanceAll pts inputs).1[i]? = some input → fed[i]? = some history →
        input.Inv last pts history := by
  induction inputs generalizing fed with
  | nil => simp [FrameSync.advanceAll]
  | cons first rest ih =>
      intro i input history hinput hhistory
      have hhead : ∀ history, fed[0]? = some history →
          Input.Inv last pts (first.advance pts).1 history :=
        fun history hhistory => (h 0 first history rfl hhistory).advance
      have htail : ∀ (i : Nat) (input : Input α) (history : History α), rest[i]? = some input →
          fed.tail[i]? = some history → input.Inv last pts history := by
        intro i input history hinput hhistory
        exact h (i + 1) input history hinput (by rwa [List.getElem?_tail] at hhistory)
      rw [FrameSync.advanceAll] at hinput
      cases i with
      | zero =>
          have hfirst : input = (first.advance pts).1 := by
            cases hwaits : (first.advance pts).2 <;> simp [hwaits] at hinput <;> exact hinput.symm
          rw [hfirst]
          exact hhead history hhistory
      | succ i =>
          cases hwaits : (first.advance pts).2 with
          | true =>
              simp only [hwaits, if_true, List.getElem?_cons_succ] at hinput
              exact htail i input history hinput (by rwa [List.getElem?_tail])
          | false =>
              simp only [hwaits, Bool.false_eq_true, if_false, List.getElem?_cons_succ] at hinput
              exact ih htail i input history hinput (by rwa [List.getElem?_tail])

theorem map_role_advanceAll (pts : I64) (inputs : List (Input α)) :
    (FrameSync.advanceAll pts inputs).1.map Input.role = inputs.map Input.role := by
  induction inputs with
  | nil => rfl
  | cons first rest ih =>
      rw [FrameSync.advanceAll]
      cases hwaits : (first.advance pts).2 <;> simp [hwaits, Input.advance_role, ih]

/-- An input past its end after advancing all was so before. -/
theorem exists_of_mem_advanceAll {pts : I64} {inputs : List (Input α)} {input : Input α}
    (hmem : input ∈ (FrameSync.advanceAll pts inputs).1) (hstate : input.state = .afterEof) :
    ∃ before ∈ inputs, before.state = .afterEof ∧ before.role = input.role := by
  induction inputs with
  | nil => cases hmem
  | cons first rest ih =>
      have hfirst : ∀ x, x = (first.advance pts).1 → x.state = .afterEof →
          ∃ before ∈ first :: rest, before.state = .afterEof ∧ before.role = x.role := by
        rintro x rfl hx
        exact ⟨first, List.mem_cons_self, Input.state_of_advance hx,
          (Input.advance_role first pts).symm⟩
      rw [FrameSync.advanceAll] at hmem
      cases hwaits : (first.advance pts).2 with
      | true =>
          simp only [hwaits, if_true] at hmem
          rcases List.mem_cons.mp hmem with rfl | hrest
          · exact hfirst _ rfl hstate
          · exact ⟨input, List.mem_cons_of_mem _ hrest, hstate, rfl⟩
      | false =>
          simp only [hwaits, Bool.false_eq_true, if_false] at hmem
          rcases List.mem_cons.mp hmem with rfl | hrest
          · exact hfirst _ rfl hstate
          · rcases ih hrest with ⟨before, hbefore, hsame⟩
            exact ⟨before, List.mem_cons_of_mem _ hbefore, hsame⟩

/-- What a synchroniser with an event ready reports. -/
def Reports (opts : FrameSyncOpts) (s : FrameSync α) (fed : List (History α)) : Prop :=
  ∀ (i : Nat) (input : Input α), s.inputs[i]? = some input →
    ∃ history chosen, fed[i]? = some history ∧ s.eventFrames[i]? = some chosen ∧
      input.Contributes opts.tsSync history s.eventPts chosen

/-- The invariant, at the time of an event after the last one where the answer is an event. -/
def Reaches (roles : List FsInput) (opts : FrameSyncOpts) (last : WithBot I64)
    (fed : List (History α)) (s : FrameSync α) (answer : Option Step) : Prop :=
  ∃ last', last ≤ last' ∧ Aligned roles opts last' s fed ∧
    (answer = none → s.eof = false) ∧
    (answer = some .ready → last < s.eventPts ∧ last' = s.eventPts ∧ Reports opts s fed)

/-- Delivering the event at the chosen time. -/
theorem deliver {pts : I64} (h : Aligned roles opts last s fed)
    (hpending : s.pendingPts = some pts) (hopen : s.eof = false) :
    Reaches roles opts last fed (s.deliver pts).1 (s.deliver pts).2 := by
  have hlater := h.pending pts hpending
  have hinputs : ∀ (i : Nat) (input : Input α) (history : History α), s.inputs[i]? = some input →
      fed[i]? = some history → input.Inv last pts history := by
    intro i input history hinput hhistory
    have hinv := h.inputs i input history hinput hhistory
    rwa [FrameSync.reached, hpending] at hinv
  have hlength : fed.length = (FrameSync.advanceAll pts s.inputs).1.length := by
    have hroles := congrArg List.length (map_role_advanceAll pts s.inputs)
    rw [List.length_map, List.length_map] at hroles
    rw [hroles, h.length]
  have hstopped : ∀ input ∈ (FrameSync.advanceAll pts s.inputs).1, input.state = .afterEof →
      input.role.after ≠ .stop := by
    intro input hmem hstate hstop
    rcases exists_of_mem_advanceAll hmem hstate with ⟨before, hbefore, hstate', hrole⟩
    have heof := h.stopped before hbefore hstate' (by rw [hrole, hstop])
    rw [hopen] at heof
    cases heof
  have hroles := (map_role_advanceAll pts s.inputs).trans h.roles
  rw [FrameSync.deliver]
  cases hwaits : (FrameSync.advanceAll pts s.inputs).2 with
  | true =>
      simp only [hwaits, if_true]
      refine ⟨last, le_rfl, ⟨hlength, ?_, ?_, ?_, hroles, h.opts⟩, by simp, by simp⟩
      · intro i input history hinput hhistory
        have hinv := advanceAll hinputs i input history hinput hhistory
        rwa [FrameSync.reached, hpending]
      · exact h.pending
      · intro input hmem hstate hstop
        exact absurd hstop (hstopped input hmem hstate)
  | false =>
      rcases FrameSync.advanceAll_of_not_waits hwaits with ⟨hall, hnone⟩
      have hpassed : ∀ (i : Nat) (input : Input α) (history : History α),
          (FrameSync.advanceAll pts s.inputs).1[i]? = some input → fed[i]? = some history →
            input.Inv pts pts history := by
        intro i input history hinput hhistory
        rw [hall, List.getElem?_map] at hinput
        rcases Option.map_eq_some_iff.mp hinput with ⟨before, hbefore, rfl⟩
        exact (hinputs i before history hbefore hhistory).pass
          (hnone before (List.mem_of_getElem? hbefore))
      have haligned : ∀ s' : FrameSync α, s'.inputs = (FrameSync.advanceAll pts s.inputs).1 →
          s'.pendingPts = none → s'.opts = s.opts → Aligned roles opts pts s' fed := by
        intro s' hinputs' hpending' hopts'
        refine ⟨by rw [hinputs', hlength], ?_, ?_, ?_, by rw [hinputs', hroles],
          hopts'.trans h.opts⟩
        · intro i input history hinput hhistory
          rw [FrameSync.reached, hpending']
          exact hpassed i input history (hinputs' ▸ hinput) hhistory
        · intro q hq
          rw [hpending'] at hq
          cases hq
        · intro input hmem hstate hstop
          exact absurd hstop (hstopped input (hinputs' ▸ hmem) hstate)
      simp only [hwaits, Bool.false_eq_true, if_false]
      split <;> rename_i hblocks
      · exact ⟨pts, hlater.le, haligned _ rfl rfl rfl, fun _ => hopen, by simp⟩
      · refine ⟨pts, hlater.le, haligned _ rfl rfl rfl, by simp, fun _ => ⟨hlater, rfl, ?_⟩⟩
        intro i input hevent
        have hinput : (FrameSync.advanceAll pts s.inputs).1[i]? = some input := hevent
        have hlt : i < fed.length := by
          rw [hlength]
          exact (List.getElem?_eq_some_iff.mp hinput).1
        have hmem : input ∈ (FrameSync.advanceAll pts s.inputs).1 := List.mem_of_getElem? hinput
        have hfree : input.blocks = false := by
          by_contra hblock
          rw [Bool.not_eq_false] at hblock
          exact hblocks (List.any_eq_true.mpr ⟨input, hmem, hblock⟩)
        refine ⟨fed[i], input.contribution pts s.opts.tsSync, List.getElem?_eq_getElem hlt, ?_, ?_⟩
        · show ((FrameSync.advanceAll pts s.inputs).1.map fun input =>
            input.contribution pts s.opts.tsSync)[i]? = _
          rw [List.getElem?_map, hinput]
          rfl
        · rw [h.opts]
          exact contributes opts.tsSync (hpassed i input _ hinput (List.getElem?_eq_getElem hlt))
            hfree (hstopped input hmem)

theorem ended (h : Aligned roles opts last s fed) :
    Aligned roles opts last { s with eof := true } fed where
  length := h.length
  inputs := h.inputs
  pending := h.pending
  stopped := fun _ _ _ _ => rfl
  roles := h.roles
  opts := h.opts

theorem round (h : Aligned roles opts last s fed) (hopen : s.eof = false) :
    Reaches roles opts last fed s.round.1 s.round.2 := by
  rw [FrameSync.round]
  split
  · rename_i pts hpending
    exact h.deliver hpending hopen
  · rename_i hpending
    split
    · rename_i chosen answer hchoose
      rcases FrameSync.choose_eq_error hchoose with ⟨hanswer, hchosen⟩
      have haligned : Aligned roles opts last chosen fed := by
        rcases hchosen with rfl | rfl
        · exact h.applyPendingEof
        · exact h.applyPendingEof.ended
      exact ⟨last, le_rfl, haligned, by simp, fun heq => absurd (Option.some.inj heq) hanswer⟩
    · rename_i chosen pts hchoose
      rcases h.choose hpending hchoose with ⟨haligned, hchosen, -⟩
      exact haligned.deliver hchosen (FrameSync.eof_of_choose hchoose)

/-- The event loop keeps the invariant, and an event it delivers lies after all times
before it. -/
theorem stepLoop (h : Aligned roles opts last s fed) (hopen : s.eof = false) :
    Reaches roles opts last fed s.stepLoop.1 (some s.stepLoop.2) := by
  fun_induction FrameSync.stepLoop s generalizing last with
  | case1 s s' answer hround =>
      have hreaches := h.round hopen
      rwa [hround] at hreaches
  | case2 s s' hround ih =>
      rcases h.round hopen with ⟨last', hle, haligned, hgoes, -⟩
      rw [hround] at haligned hgoes
      rcases ih haligned (hgoes rfl) with ⟨final, hle', hfinal, -, hready⟩
      refine ⟨final, hle.trans hle', hfinal, by simp, ?_⟩
      intro hanswer
      rcases hready hanswer with ⟨hlater, hevent⟩
      exact ⟨hle.trans_lt hlater, hevent⟩

theorem consume (h : Aligned roles opts last s fed) : Aligned roles opts last s.consume fed where
  length := h.length
  inputs := h.inputs
  pending := h.pending
  stopped := h.stopped
  roles := h.roles
  opts := h.opts

/-- Closing an input keeps the invariant. -/
theorem close (h : Aligned roles opts last s fed) (i : Nat) (pts : Timestamp) :
    Aligned roles opts last (s.close i pts) fed := by
  have hmodified : ∀ (j : Nat) (input : Input α), (s.close i pts).inputs[j]? = some input →
      ∃ before, s.inputs[j]? = some before ∧
        (input = before ∨ input = before.close s.timeBase pts) := by
    intro j input hinput
    rw [FrameSync.close, List.getElem?_modify] at hinput
    rcases Option.map_eq_some_iff.mp hinput with ⟨before, hbefore, heq⟩
    refine ⟨before, hbefore, ?_⟩
    split at heq
    · exact Or.inr heq.symm
    · exact Or.inl heq.symm
  refine ⟨?_, ?_, h.pending, ?_, ?_, h.opts⟩
  · rw [h.length, FrameSync.close, List.length_modify]
  · intro j input history hinput hhistory
    rcases hmodified j input hinput with ⟨before, hbefore, rfl | rfl⟩
    · exact h.inputs j _ history hbefore hhistory
    · exact (h.inputs j before history hbefore hhistory).close s.timeBase pts
  · intro input hmem hstate hstop
    rcases List.getElem?_of_mem hmem with ⟨j, hj⟩
    rcases hmodified j input hj with ⟨before, hbefore, rfl | rfl⟩
    · exact h.stopped _ (List.mem_of_getElem? hbefore) hstate hstop
    · rw [(Input.close_role_state before s.timeBase pts).2] at hstate
      rw [(Input.close_role_state before s.timeBase pts).1] at hstop
      exact h.stopped before (List.mem_of_getElem? hbefore) hstate hstop
  · rw [← h.roles]
    apply List.ext_getElem?
    intro j
    rw [FrameSync.close, List.getElem?_map, List.getElem?_map, List.getElem?_modify]
    cases s.inputs[j]? with
    | none => rfl
    | some before =>
        split
        · exact congrArg some (Input.close_role_state before s.timeBase pts).1
        · rfl

end Aligned

/-! ## Runs -/

namespace FrameSync

/-- A call to a synchroniser. -/
inductive Call (α : Type*) where
  | feed (i : Nat) (frame : Frame α)
  | close (i : Nat) (pts : Timestamp)
  | step
  | consume

structure Observed (α : Type*) where
  sync : FrameSync α
  fed : List (History α)

/-- One call, and the event it makes ready. -/
def observe (o : Observed α) : Call α → Observed α × Option (Observed α)
  | .feed i frame =>
      match o.sync.inputs[i]?, o.sync.feed i frame with
      | some input, .ok sync =>
          (⟨sync, o.fed.modify i (· ++ [(input.assign o.sync.timeBase frame, frame)])⟩, none)
      | _, _ => (o, none)
  | .close i pts => ({ o with sync := o.sync.close i pts }, none)
  | .step =>
      let stepped : Observed α := { o with sync := o.sync.step.1 }
      (stepped, if o.sync.ready = false ∧ o.sync.step.2 = .ready then some stepped else none)
  | .consume => ({ o with sync := o.sync.consume }, none)

/-- Whether a call feeds no frame with an earlier timestamp than the frame before it. -/
def notEarlier (o : Observed α) : Call α → Bool
  | .feed i frame =>
      match o.sync.inputs[i]?, o.fed[i]? with
      | some input, some history =>
          input.hasNext ||
            history.getLast?.all fun x => x.1 ≤ input.assign o.sync.timeBase frame
      | _, _ => true
  | _ => true

def notEnded (o : Observed α) : Call α → Bool
  | .feed i _ =>
      match o.sync.inputs[i]? with
      | some input => input.hasNext || !input.eofSeen
      | none => true
  | _ => true

/-- A call as the users of a synchroniser make it. -/
def Orderly (o : Observed α) (call : Call α) : Prop :=
  notEarlier o call = true ∧ notEnded o call = true

instance (o : Observed α) (call : Call α) : Decidable (Orderly o call) :=
  inferInstanceAs (Decidable (_ ∧ _))

theorem Orderly.feed {o : Observed α} {i : Nat} {frame : Frame α} {input : Input α}
    (h : Orderly o (.feed i frame)) (hinput : o.sync.inputs[i]? = some input)
    (hroom : input.hasNext = false) :
    input.eofSeen = false ∧ ∀ history, o.fed[i]? = some history →
      ∀ x, history.getLast? = some x → x.1 ≤ input.assign o.sync.timeBase frame := by
  rcases h with ⟨hearlier, hended⟩
  constructor
  · simpa [notEnded, hinput, hroom] using hended
  · intro history hhistory x hx
    simpa [notEarlier, hinput, hroom, hhistory, hx] using hearlier

/-- The events a run makes ready, each with the frames fed before it. -/
def events (o : Observed α) (calls : List (Call α)) : List (Observed α) :=
  (Transducer.outputs observe o calls).filterMap id

variable {roles : List FsInput} {opts : FrameSyncOpts} {last : WithBot I64} {o : Observed α}

/-- The options as they are by default. -/
def plainOpts : FrameSyncOpts where
  eofAction := .repeat
  shortest := false
  repeatlast := true
  tsSync := .default

/-- Frames of a twenty-fifth of a second, and a slower input of fiftieths that is nothing before its
first frame. -/
def pairRoles : List FsInput :=
  [⟨.stop, .infinity, 2, ⟨.lit 1, .lit 25⟩⟩,
    ⟨.null, .infinity, 1, ⟨.lit 1, .lit 50⟩⟩]

def pair : FrameSync Nat where
  inputs := pairRoles.map Input.new
  opts := plainOpts
  timeBase := ⟨.lit 1, .lit 50⟩
  syncLevel := 2
  eventFrames := [none, none]
  eventPts := .lit 0
  pendingPts := none
  ready := false
  eof := false

def numbered (ticks : I64) (data : Nat) : Frame Nat where
  pts := some ticks
  data := data

end FrameSync

end Filter
end Vaco
