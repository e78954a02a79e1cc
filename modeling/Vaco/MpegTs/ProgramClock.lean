import Vaco.Format.WrapState

/-!
# The clock of one program

Wrap state is kept per program and shared by its streams: one tracker for the
presentation times and one for the decode times.  Every PES packet of the program
feeds both, a packet without a decode time with its presentation time.

Main results:

- `ProgramClock.stampAll_tracks`: trackers stay with the true times.
- `unwraps_together_iff`: when a program unwraps by one constant.

Current gaps:

- The clock references (PCR) of a program are kept beside the trackers in the
  source and play no part in stamping.
-/

namespace Vaco
namespace MpegTs

open Library Vaco.Core Vaco.Format

/-- The width of a timestamp field. -/
def tsWrapBits : Nat := 33

/-- One program's clock. -/
structure ProgramClock where
  pts : WrapState
  dts : WrapState

namespace ProgramClock

/-- A fresh clock. -/
def new (opts : FormatOptions) : ProgramClock where
  pts := (WrapState.new tsWrapBits).withOptions opts
  dts := (WrapState.new tsWrapBits).withOptions opts

/-- Forget everything derived from packets. -/
def reset (c : ProgramClock) : ProgramClock where
  pts := c.pts.reset
  dts := c.dts.reset

/-- Show a tracker the value of a header field, if there is one. -/
def observed (s : WrapState) (ts : Timestamp) : WrapState :=
  match ts with
  | some v => s.observe v
  | none => s

/-- Both trackers observe the times of a PES packet, then correct them. -/
def stamp (c : ProgramClock) (pts dts : Timestamp) : ProgramClock × Timestamp × Timestamp :=
  let stampedPts := (observed c.pts pts).correct pts
  let stampedDts :=
    if dts.isSome then (observed c.dts dts).correct dts else (observed c.dts dts).correct pts
  (⟨stampedPts.1, stampedDts.1⟩, stampedPts.2, stampedDts.2)

end ProgramClock

/-- The true times of a PES packet, decoded when presented unless it carries a decode time. -/
structure PesTimes where
  stream : ℕ
  pts : Int
  dts : Int
  hasDts : Bool
  dts_eq : hasDts = false → dts = pts

/-- The field that carries a true time. -/
def fieldOf (t : Int) : I64 where
  val := t % 2 ^ 33
  le_val := by omega
  val_le := by omega

theorem fieldOf_val (t : Int) : (fieldOf t).val = t % 2 ^ 33 :=
  rfl

namespace PesTimes

/-- The presentation time field of the header. -/
def headerPts (x : PesTimes) : Timestamp :=
  some (fieldOf x.pts)

/-- The decode time field of the header. -/
def headerDts (x : PesTimes) : Timestamp :=
  if x.hasDts then some (fieldOf x.dts) else none

end PesTimes

namespace ProgramClock

/-- The PES packets of a program in file order, stamped one after the other. -/
def stampAll (c : ProgramClock) : List PesTimes → List (Timestamp × Timestamp)
  | [] => []
  | x :: rest =>
    let stamped := c.stamp x.headerPts x.headerDts
    stamped.2 :: stamped.1.stampAll rest

end ProgramClock

/-- Decoding before presentation by less than 2^31, changes of less than 2^31, and a span that fits.
-/
structure TrueTimes (packets : List PesTimes) : Prop where
  ordered : ∀ x ∈ packets, x.dts ≤ x.pts ∧ x.pts < x.dts + 2 ^ 31
  steady : packets.IsChain fun x y => |y.pts - x.pts| < 2 ^ 31 ∧ |y.dts - x.dts| < 2 ^ 31
  spans : ∀ x ∈ packets, ∀ y ∈ packets, |y.pts - x.pts| ≤ 2 ^ 62 ∧ |y.dts - x.dts| ≤ 2 ^ 62

/-- All corrected times of a program are the true ones moved by one whole number of
periods. -/
def UnwrapsTogether (opts : FormatOptions) (packets : List PesTimes) : Prop :=
  ∃ k : Int, ((ProgramClock.new opts).stampAll packets).map
      (fun stamped => (stamped.1.map (·.val), stamped.2.map (·.val))) =
    packets.map fun x => (some (x.pts + k * 2 ^ 33), some (x.dts + k * 2 ^ 33))

/-- The period a true time lies in. -/
def periodOf (t : Int) : Int :=
  t / 2 ^ 33

/-- With overflow correction the first packet's two times lie in the same period;
without it all times do. -/
def StartsInOnePeriod (opts : FormatOptions) (packets : List PesTimes) : Prop :=
  if opts.correctTsOverflow then
    ∀ x ∈ packets.head?, periodOf x.pts = periodOf x.dts
  else
    ∀ x ∈ packets, ∀ y ∈ packets, periodOf x.pts = periodOf y.pts ∧ periodOf x.pts = periodOf y.dts

/-! ## Both trackers follow the true times -/

namespace ProgramClock

theorem observe_offset (s : WrapState) (ts : I64) : (s.observe ts).offset = s.offset := by
  unfold WrapState.observe
  split
  · rfl
  · dsimp only
    split
    · split
      · rfl
      · split
        · rfl
        · rfl
    · split
      · split
        · rfl
        · rfl
      · rfl

theorem observed_frame (s : WrapState) (ts : Timestamp) :
    (observed s ts).bits = s.bits ∧ (observed s ts).last = s.last ∧
      (observed s ts).correctOverflow = s.correctOverflow ∧
      (observed s ts).offset = s.offset := by
  rcases ts with _ | v
  · exact ⟨rfl, rfl, rfl, rfl⟩
  · rcases s.observe_frame v with ⟨hbits, hlast, hcorrects⟩
    exact ⟨hbits, hlast, hcorrects, observe_offset s v⟩

theorem observed_tracks {s : WrapState} {shift t : Int} (h : s.Tracks 33 shift t)
    (ts : Timestamp) : (observed s ts).Tracks 33 shift t := by
  rcases observed_frame s ts with ⟨hbits, hlast, hcorrects, hoffset⟩
  refine ⟨hbits.trans h.bits_eq, hcorrects.trans h.corrects, ?_, ?_⟩
  · rw [hlast]
    exact h.last_eq
  · rw [hoffset]
    exact h.offset_eq

theorem stamp_eq (c : ProgramClock) (x : PesTimes) :
    c.stamp x.headerPts x.headerDts =
      (⟨((observed c.pts x.headerPts).correct (some (fieldOf x.pts))).1,
          ((observed c.dts x.headerDts).correct (some (fieldOf x.dts))).1⟩,
        ((observed c.pts x.headerPts).correct (some (fieldOf x.pts))).2,
        ((observed c.dts x.headerDts).correct (some (fieldOf x.dts))).2) := by
  unfold stamp PesTimes.headerPts PesTimes.headerDts
  rcases hdts : x.hasDts with _ | _
  · have heq := x.dts_eq hdts
    simp [heq]
  · simp

theorem fits_of_span {first t : Int} (h : |t - first| ≤ 2 ^ 62) :
    WrapState.FitsI64 (first % 2 ^ 33 - first + t - t % 2 ^ 33) ∧
      (clampI64 (first % 2 ^ 33 - first + t)).val = first % 2 ^ 33 - first + t := by
  rw [abs_le] at h
  have hlow := Int.emod_nonneg first (by decide : (2 : Int) ^ 33 ≠ 0)
  have hhigh := Int.emod_lt_of_pos first (by decide : (0 : Int) < 2 ^ 33)
  have hlow' := Int.emod_nonneg t (by decide : (2 : Int) ^ 33 ≠ 0)
  have hhigh' := Int.emod_lt_of_pos t (by decide : (0 : Int) < 2 ^ 33)
  refine ⟨⟨by omega, by omega⟩, ?_⟩
  apply Ranged.clamp_of_mem
  · omega
  · omega

theorem correct_field {s : WrapState} {first t t' : Int}
    (h : s.Tracks 33 (first % 2 ^ 33 - first) t) (ts : Timestamp) (hmove : |t' - t| < 2 ^ 31)
    (hspan : |t' - first| ≤ 2 ^ 62) :
    ((observed s ts).correct (some (fieldOf t'))).1.Tracks 33 (first % 2 ^ 33 - first) t' ∧
      ((observed s ts).correct (some (fieldOf t'))).2.map (·.val) =
        some (first % 2 ^ 33 - first + t') := by
  rcases fits_of_span hspan with ⟨hfits, hval⟩
  rcases WrapState.correct_tracks (by decide) (by decide) (observed_tracks h ts) (fieldOf_val t')
    (hmove.trans (by norm_num)) hfits with ⟨htracks, hanswer⟩
  refine ⟨htracks, ?_⟩
  rw [hanswer, Option.map_some, hval]

/-- Once both trackers follow the true times they follow them for ever. -/
theorem stampAll_tracks {c : ProgramClock} {firstPts firstDts : Int} {x : PesTimes}
    {rest : List PesTimes} (hpts : c.pts.Tracks 33 (firstPts % 2 ^ 33 - firstPts) x.pts)
    (hdts : c.dts.Tracks 33 (firstDts % 2 ^ 33 - firstDts) x.dts)
    (hsteady : (x :: rest).IsChain
      fun x y => |y.pts - x.pts| < 2 ^ 31 ∧ |y.dts - x.dts| < 2 ^ 31)
    (hspan : ∀ y ∈ rest, |y.pts - firstPts| ≤ 2 ^ 62 ∧ |y.dts - firstDts| ≤ 2 ^ 62) :
    (c.stampAll rest).map (fun stamped => (stamped.1.map (·.val), stamped.2.map (·.val))) =
      rest.map fun y =>
        (some (firstPts % 2 ^ 33 - firstPts + y.pts),
          some (firstDts % 2 ^ 33 - firstDts + y.dts)) := by
  induction rest generalizing c x with
  | nil => rfl
  | cons y rest ih =>
    rcases List.isChain_cons_cons.mp hsteady with ⟨⟨hmovePts, hmoveDts⟩, hrest⟩
    rcases hspan y (by simp) with ⟨hspanPts, hspanDts⟩
    rcases correct_field hpts y.headerPts hmovePts hspanPts with ⟨hpts', hvalPts⟩
    rcases correct_field hdts y.headerDts hmoveDts hspanDts with ⟨hdts', hvalDts⟩
    unfold stampAll
    rw [stamp_eq]
    dsimp only
    rw [List.map_cons, List.map_cons, ih hpts' hdts' hrest fun z hz => hspan z (by simp [hz])]
    dsimp only
    rw [hvalPts, hvalDts]

/-! ## The first packet -/

/-- The pivot leaves the very value it was set by where it is. -/
theorem pivot_observe (opts : FormatOptions) (ts : Timestamp) (raw : I64)
    (hts : ts = some raw ∨ ts = none) :
    ((observed ((WrapState.new 33).withOptions opts) ts).pivot raw) = raw := by
  have hperiod : ((WrapState.new 33).withOptions opts).period = some (shiftOne 33) := rfl
  have hval : (shiftOne 33).val = 8589934592 := rfl
  rcases hts with rfl | rfl
  · unfold observed WrapState.observe
    rw [hperiod]
    have hreference : ((WrapState.new 33).withOptions opts).reference = none := rfl
    rw [hreference]
    dsimp only
    split
    · rename_i hhigh
      have hge : ¬ raw.val < (halfOf (shiftOne 33)).val := by
        have hquarter : (8589934592 : Int).tdiv 4 = 2147483648 := rfl
        have hhalf : (8589934592 : Int).tdiv 2 = 4294967296 := rfl
        rw [halfOf_val]
        rw [hval] at hhigh ⊢
        omega
      unfold WrapState.pivot
      have hperiod' : ∀ s : WrapState, s.bits = 33 → s.period = some (shiftOne 33) := by
        intro s hs
        unfold WrapState.period WrapState.wraps
        rw [hs]
        rfl
      rw [hperiod' _ rfl]
      dsimp only
      rw [if_neg hge]
    · split
      · unfold WrapState.pivot
        split
        · rfl
        · rfl
      · unfold WrapState.pivot
        split
        · rfl
        · rfl
  · rfl

theorem correct_first {opts : FormatOptions} (hcorrects : opts.correctTsOverflow = true)
    {ts : Timestamp} {t : Int} (hts : ts = some (fieldOf t) ∨ ts = none) :
    ((observed ((WrapState.new 33).withOptions opts) ts).correct (some (fieldOf t))).1.Tracks 33
        (t % 2 ^ 33 - t) t ∧
      ((observed ((WrapState.new 33).withOptions opts) ts).correct (some (fieldOf t))).2.map
        (·.val) = some (t % 2 ^ 33) := by
  rcases observed_frame ((WrapState.new 33).withOptions opts) ts with ⟨hbits, hlast, hon, -⟩
  have hbits' : (observed ((WrapState.new 33).withOptions opts) ts).bits = 33 := hbits
  rcases WrapState.pivot_first (by decide) (by decide) hbits' (hon.trans hcorrects) hlast
    (fieldOf_val t) with ⟨htracks, hanswer, -⟩
  rw [pivot_observe opts ts _ hts] at htracks hanswer
  refine ⟨htracks, ?_⟩
  rw [hanswer]
  rfl

/-- Without overflow correction a tracker returns every raw field. -/
structure Raw (s : WrapState) : Prop where
  bits_eq : s.bits = 33
  corrects : s.correctOverflow = false
  offset_eq : s.offset.val = 0

theorem Raw.correct {s : WrapState} (h : Raw s) (ts : Timestamp) (t : Int)
    (hts : s.last = none → ts = some (fieldOf t) ∨ ts = none)
    (hfresh : s.last = none → ∃ opts, s = (WrapState.new 33).withOptions opts) :
    Raw ((observed s ts).correct (some (fieldOf t))).1 ∧
      ((observed s ts).correct (some (fieldOf t))).1.last.isSome ∧
      ((observed s ts).correct (some (fieldOf t))).2.map (·.val) = some (t % 2 ^ 33) := by
  rcases observed_frame s ts with ⟨hbits, hlast, hcorrects, hoffset⟩
  have hperiod : (observed s ts).period = some (shiftOne 33) := by
    unfold WrapState.period WrapState.wraps
    rw [hbits, h.bits_eq]
    rfl
  have htracked : ((observed s ts).trackedOffset (shiftOne 33) (fieldOf t)).val = 0 := by
    unfold WrapState.trackedOffset
    rw [hlast, hcorrects, h.corrects]
    rcases hprev : s.last with _ | prev
    · rcases hfresh hprev with ⟨opts, rfl⟩
      dsimp only
      rw [pivot_observe opts ts _ (hts hprev), Ranged.saturatingSub, sub_self]
      rfl
    · dsimp only
      rw [if_neg (by exact Bool.false_ne_true), hoffset]
      exact h.offset_eq
  have hcorrect : (observed s ts).correct (some (fieldOf t)) =
      ({ observed s ts with
          offset := (observed s ts).trackedOffset (shiftOne 33) (fieldOf t)
          last := some (fieldOf t) },
        some ((fieldOf t).saturatingAdd
          ((observed s ts).trackedOffset (shiftOne 33) (fieldOf t)))) := by
    simp only [WrapState.correct, hperiod]
  rw [hcorrect]
  refine ⟨⟨hbits.trans h.bits_eq, hcorrects.trans h.corrects, htracked⟩, rfl, ?_⟩
  rw [Ranged.saturatingAdd, htracked, add_zero]
  exact congrArg some (congrArg (·.val) (clampI64_val (fieldOf t)))

/-- Without overflow correction every stamp is the raw field. -/
theorem stampAll_raw {c : ProgramClock} (hpts : Raw c.pts) (hdts : Raw c.dts)
    (hfresh : (∃ opts, c = new opts) ∨ (c.pts.last.isSome ∧ c.dts.last.isSome))
    (packets : List PesTimes) :
    (c.stampAll packets).map (fun stamped => (stamped.1.map (·.val), stamped.2.map (·.val))) =
      packets.map fun x => (some (x.pts % 2 ^ 33), some (x.dts % 2 ^ 33)) := by
  induction packets generalizing c with
  | nil => rfl
  | cons x rest ih =>
    have hnew : (c.pts.last = none ∨ c.dts.last = none) → ∃ opts, c = new opts := by
      rcases hfresh with hnew | ⟨hp, hd⟩
      · exact fun _ => hnew
      · rintro (hnone | hnone)
        · rw [hnone] at hp
          exact absurd hp (by simp)
        · rw [hnone] at hd
          exact absurd hd (by simp)
    have hheaderDts : x.headerDts = some (fieldOf x.dts) ∨ x.headerDts = none := by
      unfold PesTimes.headerDts
      split
      · exact Or.inl rfl
      · exact Or.inr rfl
    rcases hpts.correct x.headerPts x.pts (fun _ => Or.inl rfl)
      (fun hnone => (hnew (Or.inl hnone)).imp fun opts h => by rw [h]; rfl) with
      ⟨hpts', hlastPts, hvalPts⟩
    rcases hdts.correct x.headerDts x.dts (fun _ => hheaderDts)
      (fun hnone => (hnew (Or.inr hnone)).imp fun opts h => by rw [h]; rfl) with
      ⟨hdts', hlastDts, hvalDts⟩
    unfold stampAll
    rw [stamp_eq]
    dsimp only
    rw [List.map_cons, List.map_cons, ih hpts' hdts' (Or.inr ⟨hlastPts, hlastDts⟩)]
    dsimp only
    rw [hvalPts, hvalDts]

end ProgramClock

open ProgramClock

/-! ## One offset for both fields -/

theorem emod_eq_add_iff (t k : Int) : t % 2 ^ 33 = t + k * 2 ^ 33 ↔ periodOf t = -k := by
  unfold periodOf
  have h := Int.mul_ediv_add_emod t (2 ^ 33)
  constructor
  · intro heq
    omega
  · intro heq
    omega

/-- All corrected times of a program are the true ones moved by one number of periods if and only if
its first packet starts both fields in one period. -/
theorem unwraps_together_iff (opts : FormatOptions) (packets : List PesTimes)
    (htimes : TrueTimes packets) :
    UnwrapsTogether opts packets ↔ StartsInOnePeriod opts packets := by
  unfold UnwrapsTogether StartsInOnePeriod
  rcases hcorrects : opts.correctTsOverflow with _ | _
  · rw [if_neg (by exact Bool.false_ne_true)]
    have hraw : Raw ((WrapState.new 33).withOptions opts) := ⟨rfl, hcorrects, rfl⟩
    rw [stampAll_raw hraw hraw (Or.inl ⟨opts, rfl⟩)]
    constructor
    · rintro ⟨k, heq⟩ x hx y hy
      have hall := List.map_inj_left.mp heq
      have hx' := hall x hx
      have hy' := hall y hy
      simp only [Prod.mk.injEq, Option.some.injEq, emod_eq_add_iff] at hx' hy'
      exact ⟨hx'.1.trans hy'.1.symm, hx'.1.trans hy'.2.symm⟩
    · intro h
      rcases packets with _ | ⟨x, rest⟩
      · exact ⟨0, rfl⟩
      · refine ⟨-periodOf x.pts, List.map_inj_left.mpr ?_⟩
        intro y hy
        rcases h x (by simp) y hy with ⟨hpts, hdts⟩
        simp only [Prod.mk.injEq, Option.some.injEq, emod_eq_add_iff, neg_neg]
        exact ⟨hpts.symm, hdts.symm⟩
  · rw [if_pos rfl]
    rcases packets with _ | ⟨x, rest⟩
    · exact ⟨fun _ y hy => absurd hy (by simp), fun _ => ⟨0, rfl⟩⟩
    · have hheaderDts : x.headerDts = some (fieldOf x.dts) ∨ x.headerDts = none := by
        unfold PesTimes.headerDts
        split
        · exact Or.inl rfl
        · exact Or.inr rfl
      rcases @correct_first opts hcorrects x.headerPts x.pts (Or.inl rfl) with ⟨hpts, hvalPts⟩
      rcases correct_first hcorrects hheaderDts with ⟨hdts, hvalDts⟩
      have hrun : ((ProgramClock.new opts).stampAll (x :: rest)).map
            (fun stamped => (stamped.1.map (·.val), stamped.2.map (·.val))) =
          (x :: rest).map fun y =>
            (some (x.pts % 2 ^ 33 - x.pts + y.pts), some (x.dts % 2 ^ 33 - x.dts + y.dts)) := by
        unfold stampAll
        rw [stamp_eq, List.map_cons, List.map_cons, sub_add_cancel, sub_add_cancel]
        dsimp only
        rw [stampAll_tracks hpts hdts htimes.steady fun y hy =>
          htimes.spans x (by simp) y (by simp [hy])]
        exact congrArg₂ List.cons (Prod.ext hvalPts hvalDts) rfl
      rw [hrun]
      constructor
      · rintro ⟨k, heq⟩ y hy
        obtain rfl : x = y := by simpa using hy
        have hx := List.map_inj_left.mp heq x (by simp)
        simp only [sub_add_cancel, Prod.mk.injEq, Option.some.injEq, emod_eq_add_iff] at hx
        exact hx.1.trans hx.2.symm
      · intro h
        have hperiod := h x (by simp)
        refine ⟨-periodOf x.pts, List.map_inj_left.mpr ?_⟩
        intro y _
        have hx := (emod_eq_add_iff x.pts (-periodOf x.pts)).mpr (neg_neg _).symm
        have hx' := (emod_eq_add_iff x.dts (-periodOf x.pts)).mpr (by rw [neg_neg, hperiod])
        simp only [Prod.mk.injEq, Option.some.injEq]
        exact ⟨by omega, by omega⟩

/-- Two streams, one without decode times, across a wrap after the first packet. -/
def wrappingPackets : List PesTimes :=
  [⟨0, 8589934000, 8589933000, true, by simp⟩, ⟨1, 8589934500, 8589934500, false, by simp⟩,
    ⟨0, 8589937600, 8589936600, true, by simp⟩]

theorem unwraps_together_wrapping :
    TrueTimes wrappingPackets ∧ UnwrapsTogether FormatOptions.default wrappingPackets := by
  have htimes : TrueTimes wrappingPackets := by
    refine ⟨?_, ?_, ?_⟩
    · simp [wrappingPackets]
    · simp [wrappingPackets]
    · simp [wrappingPackets]
  exact ⟨htimes, (unwraps_together_iff _ _ htimes).mpr (by
    unfold StartsInOnePeriod
    decide)⟩

/-- A first packet whose decode time lies before a wrap and whose presentation time
lies after it: the two fields stay one period apart. -/
theorem not_unwraps_together_first_astride :
    TrueTimes [⟨0, 8589935092, 8589934092, true, by simp⟩] ∧
      ¬ UnwrapsTogether FormatOptions.default [⟨0, 8589935092, 8589934092, true, by simp⟩] := by
  refine ⟨⟨by simp, by simp, by simp⟩, ?_⟩
  rintro ⟨k, heq⟩
  have hstamps : ((ProgramClock.new FormatOptions.default).stampAll
        [⟨0, 8589935092, 8589934092, true, by simp⟩]).map
      (fun stamped => (stamped.1.map (·.val), stamped.2.map (·.val))) =
        [(some 500, some 8589934092)] := rfl
  rw [hstamps] at heq
  simp only [List.map_cons, List.map_nil, List.cons.injEq, Prod.mk.injEq, Option.some.injEq,
    and_true] at heq
  omega

end MpegTs
end Vaco
