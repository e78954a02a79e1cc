import Vaco.Library.Spans
import Vaco.Ogg.Granule

/-!
# The granule timeline over the pages of a stream

The packets of a stream are stamped one behind another: each starts where the one before it ends,
whether or not the page between them states a position.  The timeline stands at the position of
a page that states one unless the packets before the last one of the page have run beyond it.

Main results:

- `GranuleTimeline.assign_spec`: what one page does to the timeline.
- `StreamTiming.sum_fallback_le`: the shares of a page do not exceed what the page moves its stream
  on.
- `StreamTiming.stamps_abut`: the stamps of all pages abut.
- `StreamTiming.stamps_contiguous_and_land`: stamps follow one another, and the timeline lands on
  every page exactly where no page states a position that has been passed.
-/

namespace Vaco
namespace Ogg

open Library BitStream Spans
open Vaco.Core (Rational castI32)

/-- A stamp as a span of exact integers. -/
def spanOf (stamp : I64 × I64) : Int × Int :=
  (stamp.1.val, stamp.2.val)

/-- Durations together, with none of them counted as negative. -/
def ticksOf (durations : List I64) : Int :=
  (durations.map fun d => (max d (clampI64 0)).val).sum

theorem val_max (a b : I64) : (max a b).val = max a.val b.val := by
  rcases le_total a b with h | h
  · rw [max_eq_right h, max_eq_right (Ranged.le_iff.mp h)]
  · rw [max_eq_left h, max_eq_left (Ranged.le_iff.mp h)]

theorem val_max_zero (d : I64) : (max d (clampI64 0)).val = max d.val 0 :=
  val_max d (clampI64 0)

theorem ticksOf_nonneg (durations : List I64) : 0 ≤ ticksOf durations := by
  apply List.sum_nonneg
  intro x hx
  rcases List.mem_map.mp hx with ⟨d, -, rfl⟩
  rw [val_max_zero]
  exact le_max_right _ _

@[simp]
theorem ticksOf_append (first second : List I64) :
    ticksOf (first ++ second) = ticksOf first + ticksOf second := by
  rw [ticksOf, List.map_append, List.sum_append]
  rfl

@[simp]
theorem ticksOf_singleton (d : I64) : ticksOf [d] = max d.val 0 := by
  rw [ticksOf, List.map_singleton, List.sum_singleton, val_max_zero]

namespace GranuleTimeline

theorem advance_concat (start : I64) (durations : List I64) (d : I64) :
    advance start (durations ++ [d]) =
      ((advance start durations).1.saturatingAdd (max d (clampI64 0)),
        (advance start durations).2 ++
          [((advance start durations).1, max d (clampI64 0))]) := by
  induction durations generalizing start with
  | nil => rfl
  | cons first durations ih =>
      rw [List.cons_append, advance, ih]
      rfl

theorem advance_spec (start : I64) (durations : List I64)
    (h : start.val + ticksOf durations ≤ 9223372036854775807) :
    (advance start durations).1.val = start.val + ticksOf durations ∧
      Abut start.val ((advance start durations).2.map spanOf) (advance start durations).1.val := by
  induction durations using List.reverseRecOn with
  | nil => exact ⟨(Int.add_zero _).symm, rfl⟩
  | append_singleton durations d ih =>
      rw [ticksOf_append, ticksOf_singleton] at h ⊢
      have hd := le_max_right d.val 0
      rcases ih (by omega) with ⟨hend, habut⟩
      have hsum : ((advance start durations).1.saturatingAdd (max d (clampI64 0))).val =
          start.val + ticksOf durations + max d.val 0 := by
        have hlo := start.le_val
        have hticks := ticksOf_nonneg durations
        rw [Ranged.saturatingAdd, hend, val_max_zero]
        exact Ranged.clamp_of_mem _ (by omega) (by omega)
      rw [advance_concat, hsum]
      refine ⟨by omega, ?_⟩
      rw [List.map_append, ← hend, List.map_singleton, spanOf, val_max_zero]
      exact habut.concat hd

/-- The last packet of a page starts where it did before it was made to end at the position. -/
theorem snap_advance (target start : I64) (durations : List I64) (d : I64)
    (h : start.val + ticksOf (durations ++ [d]) ≤ 9223372036854775807) :
    snap target (advance start (durations ++ [d])) =
      (max target (advance start durations).1, (advance start durations).2 ++
        [((advance start durations).1,
          max (target.saturatingSub (advance start durations).1) (clampI64 0))]) := by
  rw [ticksOf_append, ticksOf_singleton] at h
  have hd := le_max_right d.val 0
  have hend := (advance_spec start durations (by omega)).1
  have hback : ((advance start durations).1.saturatingAdd (max d (clampI64 0))).saturatingSub
      (max d (clampI64 0)) = (advance start durations).1 := by
    have hlo := (advance start durations).1.le_val
    have hhi := (advance start durations).1.val_le
    have hsum : ((advance start durations).1.saturatingAdd (max d (clampI64 0))).val =
        (advance start durations).1.val + max d.val 0 := by
      rw [Ranged.saturatingAdd, val_max_zero]
      exact Ranged.clamp_of_mem _ (by omega) (by omega)
    apply Ranged.ext
    rw [Ranged.saturatingSub, hsum, val_max_zero]
    exact (Ranged.clamp_of_mem _ (by omega) (by omega)).trans (by omega)
  rw [snap, advance_concat, List.getLast?_concat]
  dsimp only
  rw [hback, List.dropLast_concat]

/-- The packets of a page abut, up to the position it states or the start of its last packet. -/
theorem assign_spec (tl : GranuleTimeline) (m : GranuleMapping) (granule : I64)
    (durations : List I64) (d : I64)
    (hfits : (tl.plannedCursor m).val + ticksOf (durations ++ [d]) ≤ 9223372036854775807)
    (hdelta : ∀ target, m.timestamp granule = some target →
      target.val - (tl.plannedCursor m).val ≤ 9223372036854775807) :
    Abut (tl.plannedCursor m).val ((tl.assign m granule (durations ++ [d])).2.map spanOf)
        (tl.assign m granule (durations ++ [d])).1.cursor.val ∧
      (tl.assign m granule (durations ++ [d])).1.cursor.val =
        match m.timestamp granule with
        | none => (tl.plannedCursor m).val + ticksOf (durations ++ [d])
        | some target => max target.val ((tl.plannedCursor m).val + ticksOf durations) := by
  rw [assign]
  cases hstated : m.timestamp granule with
  | none =>
      have hwhole := advance_spec _ _ hfits
      exact ⟨hwhole.2, hwhole.1⟩
  | some target =>
      have hticks := ticksOf_nonneg durations
      have hd := le_max_right d.val 0
      have hbound := hdelta target hstated
      have hsnap := snap_advance target _ _ _ hfits
      rw [ticksOf_append, ticksOf_singleton] at hfits
      have hstart := advance_spec (tl.plannedCursor m) durations (by omega)
      have hend : ∀ c : Int, c + max (target.val - c) 0 = max target.val c := by
        intro c
        omega
      have hlength : (max (target.saturatingSub (advance (tl.plannedCursor m) durations).1)
          (clampI64 0)).val =
          max (target.val - (advance (tl.plannedCursor m) durations).1.val) 0 := by
        rw [val_max_zero, Ranged.saturatingSub, Ranged.val_clamp]
        omega
      dsimp only
      rw [hsnap, val_max, ← hstart.1]
      refine ⟨?_, rfl⟩
      rw [List.map_append, List.map_singleton, spanOf, hlength, ← hend]
      exact hstart.2.concat (le_max_right _ _)

end GranuleTimeline

namespace StreamTiming

variable {s : StreamTiming}

/-! ## Shares of a page -/

theorem clampedQuotient_le {x bound n : Int} (hn : 0 < n) (hx : x ≤ bound) (hbound : 0 ≤ bound) :
    max (max (clampI64 (x.tdiv n)) (clampI64 0)).val 0 ≤ bound / n := by
  have hquot : 0 ≤ bound / n := Int.ediv_nonneg hbound (Int.le_of_lt hn)
  have hle : x.tdiv n ≤ bound / n := by
    rcases le_total 0 x with hpos | hneg
    · rw [Int.tdiv_eq_ediv_of_nonneg hpos]
      exact Int.ediv_le_ediv hn hx
    · have hflip : 0 ≤ (-x).tdiv n := Int.tdiv_nonneg (by omega) (Int.le_of_lt hn)
      rw [Int.neg_tdiv] at hflip
      omega
  rw [val_max_zero, val_clampI64]
  omega

/-- The shares of the packets of a page do not exceed what the page moves its stream on. -/
theorem sum_fallback_le (delta : I64) (packets : List Bytes) :
    ticksOf (packets.map (fallbackTicks delta packets)) ≤ max delta.val 0 := by
  have hdelta := le_max_right delta.val 0
  rw [ticksOf, List.map_map]
  by_cases htotal : totalBytes packets ≤ 0
  · have hshare : ∀ b ∈ packets,
        (max (fallbackTicks delta packets b) (clampI64 0)).val ≤
          max delta.val 0 * 1 / (max packets.length 1 : Nat) := by
      intro b _
      rw [fallbackTicks, if_pos htotal, val_max_zero, Int.mul_one]
      exact clampedQuotient_le (by omega) (le_max_left _ _) hdelta
    refine (List.sum_le_sum hshare).trans ?_
    have hlen : (0 : Int) < (max packets.length 1 : Nat) := by omega
    have hsum := sum_shares_le hdelta hlen (packets.map fun _ => 1) (by simp)
    rwa [List.map_map] at hsum
  · have hshare : ∀ b ∈ packets,
        (max (fallbackTicks delta packets b) (clampI64 0)).val ≤
          max delta.val 0 * (lenI64 b).val / totalBytes packets := by
      intro b _
      have hlen : 0 ≤ (lenI64 b).val := by
        rw [lenI64, val_clampI64]
        omega
      have hmul := Int.mul_le_mul_of_nonneg_right (le_max_left delta.val 0) hlen
      have hprod := Int.mul_nonneg hdelta hlen
      rw [fallbackTicks, if_neg htotal, val_max_zero]
      refine clampedQuotient_le (by omega) ?_ hprod
      rw [Ranged.saturatingMul, Ranged.val_clamp]
      omega
    refine (List.sum_le_sum hshare).trans ?_
    have hsum := sum_shares_le hdelta (not_le.mp htotal) (packets.map fun b => (lenI64 b).val) le_rfl
    rwa [List.map_map] at hsum

/-! ## Whole runs -/

/-- The exact ends of a page's packets fit 64 bits, and so does the distance to its position. -/
structure PageFits (s : StreamTiming) (tl : GranuleTimeline) (page : CompletedPage) : Prop where
  ends : (tl.plannedCursor s.mapping).val +
    ticksOf (s.pageDurations (tl.plannedCursor s.mapping) page) ≤ 9223372036854775807
  distance : page.packets ≠ [] → ∀ target, s.mapping.timestamp page.granule = some target →
    target.val - (tl.plannedCursor s.mapping).val ≤ 9223372036854775807

/-- No stamp of some pages saturates. -/
def Fits (s : StreamTiming) : GranuleTimeline → List CompletedPage → Prop
  | _, [] => True
  | tl, page :: rest => s.PageFits tl page ∧ s.Fits (s.stampPage tl page).1 rest

/-- What a page that states no position moves its stream on. -/
def movedOn (s : StreamTiming) (packets : List Bytes) : Int :=
  ticksOf (packets.map fun b => (s.nominalDuration b).getD (clampI64 0))

/-- The stream is not beyond the stated position, nor are the durations before the last packet. -/
structure InTime (s : StreamTiming) (base target : I64) (page : CompletedPage) : Prop where
  base_le : base.val ≤ target.val
  durations_le : (∃ b ∈ page.packets, (s.nominalDuration b).isSome = true) →
    base.val + ticksOf (s.pageDurations base page).dropLast ≤ target.val

/-- No page with packets states a position that has been passed since the last one that was stated.
-/
def NeverPassed (s : StreamTiming) : I64 → List CompletedPage → Prop
  | _, [] => True
  | base, page :: rest =>
      if page.packets = [] then
        s.NeverPassed base rest
      else
        match s.mapping.timestamp page.granule with
        | none => s.NeverPassed (clampI64 (base.val + s.movedOn page.packets)) rest
        | some target => s.InTime base target page ∧ s.NeverPassed target rest

/-- The timeline stands at the position of every page that states one for its packets. -/
def Lands (s : StreamTiming) (tl : GranuleTimeline) (pages : List CompletedPage) : Prop :=
  ∀ k page, pages[k]? = some page → page.packets ≠ [] →
    ∀ target, s.mapping.timestamp page.granule = some target →
      (s.stampPages tl (pages.take (k + 1))).1.cursor = target

/-- Stamps follow one another: none has a negative duration, and each starts where the one before
it ends. -/
def Contiguous (stamps : List (I64 × I64)) : Prop :=
  ∀ (i : Nat) (stamp : I64 × I64), stamps[i]? = some stamp → 0 ≤ stamp.2.val ∧
    ∀ other : I64 × I64, stamps[i + 1]? = some other → other.1.val = stamp.1.val + stamp.2.val

/-- What one page with packets does to the timeline. -/
theorem stampPage_spec {tl : GranuleTimeline} {page : CompletedPage} (h : s.PageFits tl page)
    (hpackets : page.packets ≠ []) :
    (s.stampPage tl page).1.started = true ∧
      Abut (tl.plannedCursor s.mapping).val ((s.stampPage tl page).2.map spanOf)
        (s.stampPage tl page).1.cursor.val ∧
      (s.stampPage tl page).1.cursor.val =
        match s.mapping.timestamp page.granule with
        | none => (tl.plannedCursor s.mapping).val + s.movedOn page.packets
        | some target => max target.val ((tl.plannedCursor s.mapping).val +
            ticksOf (s.pageDurations (tl.plannedCursor s.mapping) page).dropLast) := by
  have hdurations : s.pageDurations (tl.plannedCursor s.mapping) page ≠ [] :=
    fun hnil => hpackets (List.map_eq_nil_iff.mp hnil)
  have hsplit := List.dropLast_append_getLast hdurations
  have hends := h.ends
  rw [← hsplit] at hends
  have hassign := tl.assign_spec s.mapping page.granule _ _ hends (h.distance hpackets)
  rw [hsplit] at hassign
  rw [stampPage, if_neg hpackets]
  refine ⟨rfl, hassign.1, hassign.2.trans ?_⟩
  cases hstated : s.mapping.timestamp page.granule with
  | none =>
      dsimp only
      rw [movedOn, pageDurations, hstated]
  | some target => rfl

theorem plannedCursor_of_started {tl : GranuleTimeline} (h : tl.started = true)
    (m : GranuleMapping) : tl.plannedCursor m = tl.cursor :=
  if_pos h

/-- The stamps of all pages abut, from where the timeline stands to where it is led. -/
theorem stamps_abut (s : StreamTiming) {tl : GranuleTimeline} {pages : List CompletedPage}
    (h : s.Fits tl pages) :
    Abut (tl.plannedCursor s.mapping).val ((s.stampPages tl pages).2.map spanOf)
      ((s.stampPages tl pages).1.plannedCursor s.mapping).val := by
  induction pages generalizing tl with
  | nil => rfl
  | cons page rest ih =>
      have hrest := ih h.2
      rw [stampPages, List.map_append]
      refine Abut.append ?_ hrest
      by_cases hpackets : page.packets = []
      · rw [stampPage, if_pos hpackets]
        rfl
      · have hpage := stampPage_spec h.1 hpackets
        rw [plannedCursor_of_started hpage.1]
        exact hpage.2.1

/-- A page that states a position lands the timeline there exactly where it has not been
passed. -/
theorem lands_iff_inTime {tl : GranuleTimeline} {page : CompletedPage} (h : s.PageFits tl page)
    (hpackets : page.packets ≠ []) {target : I64}
    (hstated : s.mapping.timestamp page.granule = some target) :
    (s.stampPage tl page).1.cursor = target ↔
      s.InTime (tl.plannedCursor s.mapping) target page := by
  have hcursor := (stampPage_spec h hpackets).2.2
  rw [hstated] at hcursor
  dsimp only at hcursor
  have hnonneg := ticksOf_nonneg
    (s.pageDurations (tl.plannedCursor s.mapping) page).dropLast
  rw [Ranged.ext_iff, hcursor, max_eq_left_iff]
  constructor
  · intro hle
    exact ⟨by omega, fun _ => hle⟩
  · intro hin
    by_cases hknown : ∃ b ∈ page.packets, (s.nominalDuration b).isSome = true
    · exact hin.durations_le hknown
    · have hbase := hin.base_le
      have hfits := h.distance hpackets target hstated
      have hshares : s.pageDurations (tl.plannedCursor s.mapping) page = page.packets.map
          (fallbackTicks (target.saturatingSub (tl.plannedCursor s.mapping)) page.packets) := by
        rw [pageDurations, hstated]
        apply List.map_congr_left
        intro b hb
        have hnone : s.nominalDuration b = none := by
          rw [← Option.not_isSome_iff_eq_none]
          exact fun hsome => hknown ⟨b, hb, hsome⟩
        rw [hnone]
        rfl
      have hsum := sum_fallback_le (target.saturatingSub (tl.plannedCursor s.mapping)) page.packets
      rw [← hshares, Ranged.saturatingSub, Ranged.val_clamp] at hsum
      have hdrop : ticksOf (s.pageDurations (tl.plannedCursor s.mapping) page).dropLast ≤
          ticksOf (s.pageDurations (tl.plannedCursor s.mapping) page) := by
        apply List.Sublist.sum_le_sum ((List.dropLast_sublist _).map _)
        intro x hx
        rcases List.mem_map.mp hx with ⟨d, -, rfl⟩
        rw [val_max_zero]
        exact le_max_right _ _
      omega

/-- The timeline lands on every page that states a position exactly where none of them has been
passed. -/
theorem lands_iff (s : StreamTiming) {tl : GranuleTimeline} {pages : List CompletedPage}
    (h : s.Fits tl pages) :
    s.Lands tl pages ↔ s.NeverPassed (tl.plannedCursor s.mapping) pages := by
  induction pages generalizing tl with
  | nil =>
      refine iff_of_true (fun k page hpage => ?_) trivial
      cases hpage
  | cons page rest ih =>
      have hrest := ih h.2
      have hsplit : s.Lands tl (page :: rest) ↔ (page.packets ≠ [] →
          ∀ target, s.mapping.timestamp page.granule = some target →
            (s.stampPage tl page).1.cursor = target) ∧
          s.Lands (s.stampPage tl page).1 rest := by
        constructor
        · intro hlands
          exact ⟨hlands 0 page rfl, fun k other hother => hlands (k + 1) other hother⟩
        · rintro ⟨hfirst, hlater⟩ k other hother
          cases k with
          | zero =>
              obtain rfl := Option.some.inj hother
              exact hfirst
          | succ k => exact hlater k other hother
      rw [hsplit, hrest, NeverPassed]
      by_cases hpackets : page.packets = []
      · have hsame : (s.stampPage tl page).1 = tl := by
          rw [stampPage, if_pos hpackets]
        rw [if_pos hpackets, hsame]
        exact ⟨And.right, fun hnever => ⟨fun hne => absurd hpackets hne, hnever⟩⟩
      · have hpage := stampPage_spec h.1 hpackets
        rw [if_neg hpackets, plannedCursor_of_started hpage.1]
        cases hstated : s.mapping.timestamp page.granule with
        | none =>
            have hcursor := hpage.2.2
            rw [hstated] at hcursor
            dsimp only at hcursor ⊢
            rw [← hcursor, clampI64_val]
            refine ⟨And.right, fun hnever => ⟨fun _ target htarget => ?_, hnever⟩⟩
            cases htarget
        | some target =>
            have hland := lands_iff_inTime h.1 hpackets hstated
            dsimp only
            constructor
            · rintro ⟨hfirst, hnever⟩
              have htarget := hfirst hpackets target rfl
              rw [htarget] at hnever
              exact ⟨hland.mp htarget, hnever⟩
            · rintro ⟨hin, hnever⟩
              have htarget := hland.mpr hin
              rw [htarget]
              refine ⟨fun _ other hother => Option.some.inj hother, hnever⟩

/-- The stamps follow one another, and the timeline stands at the stated position of every page with
packets exactly where none has been passed. -/
theorem stamps_contiguous_and_land (s : StreamTiming) (pages : List CompletedPage)
    (h : s.Fits .new pages) :
    Contiguous (s.stampPages .new pages).2 ∧
      (s.Lands .new pages ↔ s.NeverPassed s.mapping.initialCursor pages) := by
  refine ⟨fun i stamp hstamp => ?_, s.lands_iff h⟩
  have hspan : ((s.stampPages .new pages).2.map spanOf)[i]? = some (spanOf stamp) := by
    rw [List.getElem?_map, hstamp]
    rfl
  have hnext := (s.stamps_abut h).next hspan
  refine ⟨hnext.1, fun other hother => ?_⟩
  exact hnext.2 (spanOf other) (by rw [List.getElem?_map, hother]; rfl)

/-- A stream of plain sample counts without a parser. -/
def plainTiming : StreamTiming where
  mapping := .sampleCount
  parser := none
  timeBase := ⟨castI32 1, castI32 44100⟩

/-- Three packets on two pages that state their positions. -/
def twoPages : List CompletedPage :=
  [⟨clampI64 100, [[0x01#8], [0x01#8, 0x02#8]]⟩, ⟨clampI64 150, [[0x03#8]]⟩]

theorem stamps_contiguous_and_land_twoPages :
    Contiguous (plainTiming.stampPages .new twoPages).2 ∧
      (plainTiming.Lands .new twoPages ↔
        plainTiming.NeverPassed plainTiming.mapping.initialCursor twoPages) := by
  refine stamps_contiguous_and_land plainTiming twoPages ⟨⟨by decide, ?_⟩, ⟨by decide, ?_⟩, trivial⟩
  · intro _ target h
    obtain rfl : clampI64 100 = target := Option.some.inj h
    decide
  · intro _ target h
    obtain rfl : clampI64 150 = target := Option.some.inj h
    decide

/-- An Opus stream with a parser that knows the first of two packets: one frame of 20 ms, and a
packet that lacks its frame count. -/
def opusTiming : StreamTiming where
  mapping := .opus 312
  parser := some fun b => if b = [0xF8#8] then some ⟨castI32 960, castI32 48000⟩ else none
  timeBase := ⟨castI32 1, castI32 48000⟩

/-- A page with one packet that the parser knows and two that it does not. -/
def mixedPage : CompletedPage :=
  ⟨clampI64 1272, [[0xF8#8], [0xFB#8], [0xFB#8]]⟩

/-- The shares of the other packets count on top of a parsed duration, and neither a page without
packets nor a first position before the start moves the timeline. -/
theorem positions_missed :
    opusTiming.mapping.initialCursor.val + opusTiming.movedOn mixedPage.packets = 648 ∧
      opusTiming.mapping.timestamp mixedPage.granule = some (clampI64 960) ∧
      (opusTiming.stampPages .new [mixedPage]).1.cursor = clampI64 1072 ∧
      (plainTiming.stampPages .new
        (twoPages ++ [⟨clampI64 200, []⟩])).1.cursor = clampI64 150 ∧
      (plainTiming.stampPages .new [⟨clampI64 (-5), [[0x01#8]]⟩]).1.cursor = clampI64 0 := by
  refine ⟨?_, ?_, ?_, ?_, ?_⟩ <;> decide +kernel

end StreamTiming

end Ogg
end Vaco
