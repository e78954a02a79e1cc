import Vaco.H264.UnitSplitting

/-!
# The end of a byte stream

When no more bytes come, the last unit is handled like one that a start code has ended, and then
everything that is left is one access unit.  What a parser hands out from a string of bytes is
what scanning completes, what the last unit completes, and the rest.

Before the first start code three bytes are always kept, in case one begins there.  They are left
at the end as well, and handed out like an access unit.

Main results:

- `H264Parser.finishTail_view`: the parser handles the last unit as its view does.
-/

namespace Vaco
namespace H264

open Library BitStream Bitstream Vaco.Core

variable {S : NalSyntax}

namespace View

variable (v : View S)

/-- Handle the last unit. -/
def finishTail : List AccessUnit × View S :=
  match v.nal with
  | none => ([], v)
  | some pos =>
      let payload := trimTrailingZeros (v.live.drop pos.payloadStart)
      match H264NalHeader.parse payload with
      | none => ([], v)
      | some header =>
          let rbsp := toRbsp payload
          if v.pictures.startsAccessUnit header rbsp then
            let taken := v.take pos.framedStart
            (taken.1, { taken.2 with
              pictures := taken.2.pictures.applyNal header rbsp
              nal := some ⟨0, pos.payloadStart - pos.framedStart⟩ })
          else
            ([], { v with pictures := v.pictures.applyNal header rbsp })

/-- Everything that is left, as one access unit. -/
def leftover : List AccessUnit :=
  (v.take v.live.length).1

/-- What is handed out when no more bytes come. -/
def finals : List AccessUnit :=
  v.finishTail.1 ++ v.finishTail.2.leftover

/-- All that is handed out when no more bytes come. -/
def output : List AccessUnit :=
  v.advance.1 ++ v.advance.2.finals

variable {v}

/-! ## Views that have been scanned -/

/-- No start code is there, and scanning drops nothing. -/
structure Settled (v : View S) : Prop where
  noCode : firstCode v.live v.floor = none
  kept : v.settle = v

theorem Settled.advance_eq (h : v.Settled) : v.advance = ([], v) := by
  rw [advance_none h.noCode, h.kept]

theorem Settled.output_eq (h : v.Settled) : v.output = v.finals := by
  unfold output
  rw [h.advance_eq]
  rfl

theorem firstCode_drop {buf : Bytes} {floor floor' n : Nat} (h : firstCode buf floor = none)
    (hfloor : floor ≤ n + floor') : firstCode (buf.drop n) floor' = none := by
  rw [firstCode, Option.map_eq_none_iff, findStartCode_eq_none_iff] at h ⊢
  intro j hj
  rw [List.drop_drop]
  exact h (n + j) (by omega)

theorem firstCode_nil (floor : Nat) : firstCode [] floor = none := by
  rw [firstCode, Option.map_eq_none_iff, findStartCode_eq_none_iff]
  intro j _
  rw [List.drop_nil]
  rfl

theorem settled_advance (v : View S) : v.advance.2.Settled := by
  induction hleft : v.remaining using Nat.strong_induction_on generalizing v with
  | _ left ih =>
      cases hfound : firstCode v.live v.floor with
      | none =>
          rw [advance_none hfound]
          rcases v with ⟨live, _ | pos, pictures⟩
          · refine ⟨firstCode_drop hfound (Nat.zero_le _), ?_⟩
            have hnothing : (live.drop (live.length - 3)).length - 3 = 0 := by
              rw [List.length_drop]
              omega
            simp only [settle, drop, hnothing, List.drop_zero, Option.map_none]
          · exact ⟨hfound, rfl⟩
      | some sc =>
          rw [advance_some hfound]
          exact ih _ (hleft ▸ remaining_enter hfound) _ rfl

theorem live_take (v : View S) : (v.take v.live.length).2.live = [] := by
  show v.live.drop (min v.live.length v.live.length) = []
  rw [min_self, List.drop_length]

theorem settled_take (v : View S) : (v.take v.live.length).2.Settled := by
  have hlive := live_take v
  constructor
  · rw [hlive]
    exact firstCode_nil _
  · unfold settle
    split
    · rename_i hnal
      rw [hlive]
      generalize (v.take v.live.length).2 = taken at hlive hnal
      rcases taken with ⟨live, nal, pictures⟩
      simp only at hlive hnal
      subst hlive hnal
      rfl
    · rfl

/-- Handling the last unit leaves nothing to scan. -/
theorem Settled.finishTail (h : v.Settled) : v.finishTail.2.Settled := by
  unfold View.finishTail
  split
  · exact h
  · rename_i pos hnal
    dsimp only
    split
    · exact h
    · split
      · refine ⟨?_, rfl⟩
        have hfloor : v.floor = pos.payloadStart := by
          unfold floor
          rw [hnal]
          rfl
        have hnone := h.noCode
        rw [hfloor] at hnone
        show firstCode (v.live.drop (min pos.framedStart v.live.length))
          (pos.payloadStart - pos.framedStart) = none
        rcases le_total pos.framedStart v.live.length with hwithin | hbeyond
        · rw [min_eq_left hwithin]
          exact firstCode_drop hnone (by omega)
        · rw [min_eq_right hbeyond, List.drop_length]
          exact firstCode_nil _
      · exact ⟨h.noCode, by unfold settle; rw [hnal]⟩

/-! ## No byte is lost -/

theorem payload_leftover (v : View S) : v.leftover.flatMap AccessUnit.payload = v.live := by
  have hall := payload_take (v := v) v.live.length
  rwa [live_take, List.append_nil] at hall

theorem payload_finishTail (v : View S) :
    v.finishTail.1.flatMap AccessUnit.payload ++ v.finishTail.2.live = v.live := by
  unfold View.finishTail
  split
  · rfl
  · rename_i pos _
    dsimp only
    split
    · rfl
    · split
      · exact payload_take pos.framedStart
      · rfl

theorem length_finishTail (v : View S) : v.finishTail.2.live.length ≤ v.live.length := by
  have hbytes := congrArg List.length (payload_finishTail v)
  rw [List.length_append] at hbytes
  omega

theorem leftover_take (v : View S) : (v.take v.live.length).2.leftover = [] := by
  have hlive := live_take v
  unfold leftover
  generalize (v.take v.live.length).2 = taken at hlive
  rw [hlive]
  rfl

theorem payload_finals (v : View S) : v.finals.flatMap AccessUnit.payload = v.live := by
  rw [finals, List.flatMap_append, payload_leftover, payload_finishTail]

/-- From the first start code on, no byte is lost. -/
theorem payload_output {data : Bytes} {sc : StartCode} (h : firstCode data 0 = some sc) :
    ((empty : View S).append data).output.flatMap AccessUnit.payload = data.drop sc.offset := by
  have hfound : firstCode ((empty : View S).append data).live
      ((empty : View S).append data).floor = some sc := h
  have hentered : (((empty : View S).append data).enter sc).1 = [] := rfl
  have hlive : (((empty : View S).append data).enter sc).2.live = data.drop sc.offset := rfl
  have hnal : (((empty : View S).append data).enter sc).2.nal ≠ none := nofun
  rcases payload_advance hnal with ⟨hbytes, _⟩
  rw [output, advance_some hfound, hentered, List.nil_append, List.flatMap_append,
    payload_finals, hbytes, hlive]

/-- Without a start code nothing is handed out only where there is nothing. -/
theorem output_eq_nil_iff {data : Bytes} (h : firstCode data 0 = none) :
    ((empty : View S).append data).output = [] ↔ data = [] := by
  have hfound : firstCode ((empty : View S).append data).live
      ((empty : View S).append data).floor = none := h
  have hbytes := payload_finals ((empty : View S).append data).settle
  have hkept : ((empty : View S).append data).settle.live = data.drop (data.length - 3) := rfl
  rw [output, advance_none hfound, List.nil_append]
  constructor
  · intro hnil
    rw [hnil, hkept] at hbytes
    have hlength := congrArg List.length hbytes
    rw [List.flatMap_nil, List.length_drop, List.length_nil] at hlength
    exact List.eq_nil_of_length_eq_zero (by omega)
  · rintro rfl
    rfl

end View

/-! ## The parser at the end -/

namespace H264Parser

variable {p : H264Parser S}

theorem moves_takeAccessUnit (hp : p.Sound) (upto : Nat) :
    (p.takeAccessUnit upto).1.toList = (p.view.take upto).1 ∧
      p.Moves (p.takeAccessUnit upto).2 (p.view.take upto).2 ∧
      (p.takeAccessUnit upto).2.ready = p.ready := by
  rcases takeAccessUnit_view p upto with ⟨hpacket, hview, hdropped⟩
  refine ⟨hpacket, ⟨⟨hdropped.auBase hp.auBase, hdropped.rules hp ?_⟩, hview,
    hdropped.eosTailDone, hdropped.maxAccessUnit⟩, hdropped.ready⟩
  have hnal : (p.takeAccessUnit upto).2.nal =
      p.nal.map (NalPos.shift (min upto p.live.length)) := hdropped.nal
  show p.floor ≤ ((p.takeAccessUnit upto).2.nal.map NalPos.payloadStart).getD 0 + _
  rw [hnal]
  unfold floor
  cases p.nal with
  | none => exact Nat.zero_le _
  | some pos =>
      show pos.payloadStart ≤ pos.payloadStart - _ + _
      omega

/-- The parser handles the last unit as its view does. -/
theorem finishTail_view (hp : p.Sound) (hwf : p.view.Wf) :
    p.finishTail.1.toList = p.view.finishTail.1 ∧
      p.Moves p.finishTail.2 p.view.finishTail.2 ∧ p.finishTail.2.ready = p.ready := by
  unfold finishTail View.finishTail
  cases hnal : p.nal with
  | none =>
      have hnal' : p.view.nal = none := hnal
      rw [hnal']
      exact ⟨rfl, ⟨hp, rfl, rfl, rfl⟩, rfl⟩
  | some pos =>
      have hnal' : p.view.nal = some pos := hnal
      have hfloor : p.floor = pos.payloadStart := by
        unfold floor
        rw [hnal]
        rfl
      have hrules := hp.rules
      rw [hfloor] at hrules
      rcases hwf pos hnal' with ⟨hbefore, hwithin⟩
      have hlive : p.view.live = p.live := rfl
      rw [hlive] at hwithin
      have hpictures : p.view.pictures = p.pictures := rfl
      rw [hnal', hlive, hpictures]
      dsimp only
      cases H264NalHeader.parse (trimTrailingZeros (p.live.drop pos.payloadStart)) with
      | none => exact ⟨rfl, ⟨hp, rfl, rfl, rfl⟩, rfl⟩
      | some header =>
          dsimp only
          by_cases hboundary : p.pictures.startsAccessUnit header
              (toRbsp (trimTrailingZeros (p.live.drop pos.payloadStart))) = true
          · rw [if_pos hboundary, if_pos hboundary]
            rcases takeAccessUnit_view p pos.framedStart with ⟨hpacket, hview, hdropped⟩
            refine ⟨hpacket, ⟨⟨hdropped.auBase hp.auBase, hdropped.rules hp ?_⟩, ?_,
              hdropped.eosTailDone, hdropped.maxAccessUnit⟩, hdropped.ready⟩
            · rw [hfloor, min_eq_left (by omega)]
              show pos.payloadStart ≤ pos.payloadStart - pos.framedStart + pos.framedStart
              omega
            · rw [← hview]
              rfl
          · rw [if_neg hboundary, if_neg hboundary]
            exact ⟨rfl, ⟨⟨hp.auBase, hrules⟩, rfl, rfl, rfl⟩, rfl⟩

end H264Parser

end H264
end Vaco
