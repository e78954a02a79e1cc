import Vaco.H264.AccessUnits

/-!
# What the splitting computes

The live bytes, the position of the unit that is being assembled and the pictures so far are all
that the splitting depends on: the cursor into the buffer, its compaction and the mark of the
scanner are there for speed.  On these three, scanning a piece and then what follows it is
scanning both at once, and no byte behind the first start code is lost.

Main results:

- `H264Parser.advance_view`: the parser scans as the three say.
-/

namespace Vaco
namespace H264

open Library BitStream Bitstream Vaco.Core

variable {S : NalSyntax}

/-- What the splitting depends on. -/
structure View (S : NalSyntax) where
  live : Bytes
  nal : Option NalPos
  pictures : Pictures S

namespace View

/-- Nothing has been seen. -/
def empty : View S where
  live := []
  nal := none
  pictures := .new

variable (v : View S)

/-- Where the payload of the unit begins that is being assembled. -/
def floor : Nat :=
  (v.nal.map NalPos.payloadStart).getD 0

/-- More bytes arrive. -/
def append (more : Bytes) : View S :=
  { v with live := v.live ++ more }

/-- Bytes are dropped from the front. -/
def drop (n : Nat) : View S where
  live := v.live.drop n
  nal := v.nal.map (NalPos.shift n)
  pictures := v.pictures

/-- The first bytes are handed out, if there are any, and another access unit begins. -/
def take (upto : Nat) : List AccessUnit × View S :=
  let upto := min upto v.live.length
  (if upto = 0 then [] else [⟨v.live.take upto, v.pictures.auIsIdr⟩],
    { v.drop upto with pictures := v.pictures.nextUnit })

/-- A unit is complete. -/
def complete (pos : NalPos) (sc : StartCode) : List AccessUnit × View S :=
  let payload := trimTrailingZeros ((v.live.take sc.offset).drop pos.payloadStart)
  match H264NalHeader.parse payload with
  | none => ([], { v with nal := some ⟨sc.offset, sc.payloadOffset⟩ })
  | some header =>
      let rbsp := toRbsp payload
      if v.pictures.startsAccessUnit header rbsp then
        let taken := v.take pos.framedStart
        (taken.1, { taken.2 with
          pictures := taken.2.pictures.applyNal header rbsp
          nal := some ⟨sc.offset - pos.framedStart, sc.payloadOffset - pos.framedStart⟩ })
      else
        ([], { v with
          pictures := v.pictures.applyNal header rbsp
          nal := some ⟨sc.offset, sc.payloadOffset⟩ })

/-- A start code is there: it is the first one, or it ends a unit. -/
def enter (sc : StartCode) : List AccessUnit × View S :=
  match v.nal with
  | none => ([], { v.drop sc.offset with nal := some ⟨0, sc.len⟩ })
  | some pos => v.complete pos sc

/-- No start code is there: before the first one all but three bytes are dropped. -/
def settle : View S :=
  match v.nal with
  | none => v.drop (v.live.length - 3)
  | some _ => v

/-- What is left to scan. -/
def remaining : Nat :=
  v.live.length - v.floor

variable {v}

theorem remaining_complete (pos : NalPos) (sc : StartCode) :
    (v.complete pos sc).2.remaining ≤ v.live.length - sc.payloadOffset := by
  unfold complete
  dsimp only
  split
  · exact le_rfl
  · split
    · show (v.live.drop (min pos.framedStart v.live.length)).length -
        (sc.payloadOffset - pos.framedStart) ≤ _
      rw [List.length_drop]
      omega
    · exact le_rfl

theorem remaining_enter {sc : StartCode} (h : firstCode v.live v.floor = some sc) :
    (v.enter sc).2.remaining < v.remaining := by
  rcases firstCode_bounds h with ⟨hwithin, hfloor⟩
  have hless : v.live.length - sc.payloadOffset < v.remaining := by
    unfold remaining
    omega
  refine lt_of_le_of_lt ?_ hless
  unfold enter
  split
  · show (v.live.drop sc.offset).length - sc.len ≤ _
    rw [List.length_drop]
    unfold StartCode.payloadOffset
    omega
  · exact remaining_complete _ sc

/-- Scan until no start code is there: the access units that are complete, and what is left. -/
def advance (v : View S) : List AccessUnit × View S :=
  match _h : firstCode v.live v.floor with
  | none => ([], v.settle)
  | some sc =>
      let rest := advance (v.enter sc).2
      ((v.enter sc).1 ++ rest.1, rest.2)
termination_by v.remaining
decreasing_by exact remaining_enter (by assumption)

theorem advance_none (h : firstCode v.live v.floor = none) : v.advance = ([], v.settle) := by
  rw [advance]
  split
  · rfl
  · rename_i sc hsome
    rw [h] at hsome
    cases hsome

theorem advance_some {sc : StartCode} (h : firstCode v.live v.floor = some sc) :
    v.advance = ((v.enter sc).1 ++ (v.enter sc).2.advance.1, (v.enter sc).2.advance.2) := by
  rw [advance]
  split
  · rename_i hnone
    rw [h] at hnone
    cases hnone
  · rename_i sc' hsome
    rw [h] at hsome
    cases hsome
    rfl

/-- The unit that is being assembled begins before its payload, which begins within the bytes. -/
def Wf (v : View S) : Prop :=
  ∀ pos, v.nal = some pos → pos.framedStart ≤ pos.payloadStart ∧ pos.payloadStart ≤ v.live.length

theorem wf_empty : (empty : View S).Wf := by
  intro pos hpos
  cases hpos

theorem Wf.append (hv : v.Wf) (more : Bytes) : (v.append more).Wf := by
  intro pos hpos
  rcases hv pos hpos with ⟨hbefore, hwithin⟩
  refine ⟨hbefore, ?_⟩
  show pos.payloadStart ≤ (v.live ++ more).length
  rw [List.length_append]
  omega

@[simp]
theorem append_nil (v : View S) : v.append [] = v := by
  simp [append]

@[simp]
theorem append_append (v : View S) (first second : Bytes) :
    (v.append first).append second = v.append (first ++ second) := by
  simp [append]

/-! ## Entering start codes -/

/-- A complete unit leaves the next one at its start code. -/
theorem wf_enter {sc : StartCode} (h : firstCode v.live v.floor = some sc) :
    (v.enter sc).2.Wf := by
  have hwithin := (firstCode_bounds h).1
  have hoffset : sc.payloadOffset = sc.offset + sc.len := rfl
  unfold enter
  split
  · intro pos hpos
    cases hpos
    refine ⟨Nat.zero_le _, ?_⟩
    show sc.len ≤ (v.live.drop sc.offset).length
    rw [List.length_drop]
    omega
  · rename_i pos _
    unfold complete
    dsimp only
    split
    · intro pos hpos
      cases hpos
      exact ⟨Nat.le_add_right _ _, hwithin⟩
    · split
      · intro next hnext
        cases hnext
        refine ⟨Nat.sub_le_sub_right (Nat.le_add_right _ _) _, ?_⟩
        show sc.payloadOffset - pos.framedStart ≤
          (v.live.drop (min pos.framedStart v.live.length)).length
        rw [List.length_drop]
        omega
      · intro pos hpos
        cases hpos
        exact ⟨Nat.le_add_right _ _, hwithin⟩

theorem payload_take (upto : Nat) :
    (v.take upto).1.flatMap AccessUnit.payload ++ (v.take upto).2.live = v.live := by
  unfold take drop
  dsimp only
  split
  · rename_i hzero
    rw [hzero]
    rfl
  · rw [List.flatMap_singleton, List.take_append_drop]

theorem take_append {upto : Nat} (h : upto ≤ v.live.length) (more : Bytes) :
    (v.append more).take upto = ((v.take upto).1, (v.take upto).2.append more) := by
  have hlength : upto ≤ (v.append more).live.length := by
    simp only [append, List.length_append]
    omega
  unfold take
  rw [min_eq_left h, min_eq_left hlength]
  simp only [append, drop, List.take_append_of_le_length h, List.drop_append_of_le_length h]

theorem complete_append {pos : NalPos} {sc : StartCode} (hwithin : sc.payloadOffset ≤ v.live.length)
    (hpos : pos.framedStart ≤ v.live.length) (more : Bytes) :
    (v.append more).complete pos sc =
      ((v.complete pos sc).1, (v.complete pos sc).2.append more) := by
  have hoffset : sc.offset ≤ v.live.length := by
    unfold StartCode.payloadOffset at hwithin
    omega
  have hunit : (v.append more).live.take sc.offset = v.live.take sc.offset :=
    List.take_append_of_le_length hoffset
  have hpictures : (v.append more).pictures = v.pictures := rfl
  unfold complete
  rw [hunit, hpictures, take_append hpos]
  dsimp only
  split
  · rfl
  · split <;> rfl

theorem enter_append (hv : v.Wf) {sc : StartCode} (h : firstCode v.live v.floor = some sc)
    (more : Bytes) :
    (v.append more).enter sc = ((v.enter sc).1, (v.enter sc).2.append more) := by
  rcases firstCode_bounds h with ⟨hwithin, hfloor⟩
  have hoffset : sc.offset ≤ v.live.length := by
    unfold StartCode.payloadOffset at hwithin
    omega
  have hnal : (v.append more).nal = v.nal := rfl
  unfold enter
  rw [hnal]
  cases hcases : v.nal with
  | none => simp only [append, drop, List.drop_append_of_le_length hoffset]
  | some pos =>
      rcases hv pos hcases with ⟨hbefore, hpresent⟩
      have hpayload : v.floor = pos.payloadStart := by
        unfold floor
        rw [hcases]
        rfl
      exact complete_append hwithin (by omega) more

theorem payload_enter (sc : StartCode) (hnal : v.nal ≠ none) :
    (v.enter sc).2.nal ≠ none ∧
      (v.enter sc).1.flatMap AccessUnit.payload ++ (v.enter sc).2.live = v.live := by
  unfold enter
  cases hcases : v.nal with
  | none => exact absurd hcases hnal
  | some pos =>
      dsimp only
      unfold complete
      dsimp only
      split
      · exact ⟨nofun, rfl⟩
      · split
        · exact ⟨nofun, payload_take pos.framedStart⟩
        · exact ⟨nofun, rfl⟩

/-! ## Scanning in pieces -/

/-- Before the first start code the last three bytes are as good as all. -/
theorem advance_settle (hnone : firstCode v.live v.floor = none) (more : Bytes) :
    (v.settle.append more).advance = (v.append more).advance := by
  rcases v with ⟨live, _ | pos, pictures⟩
  · have htail := firstCode_tail hnone more
    generalize hk : live.length - 3 = k at htail
    have hle : k ≤ live.length := by omega
    have hshort : ((⟨live, none, pictures⟩ : View S).settle.append more) =
        ⟨live.drop k ++ more, none, pictures⟩ := by
      simp only [settle, drop, append, hk, Option.map_none]
    have hlong : ((⟨live, none, pictures⟩ : View S).append more) =
        ⟨live ++ more, none, pictures⟩ := rfl
    have hdrop : live.drop k ++ more = (live ++ more).drop k :=
      (List.drop_append_of_le_length hle).symm
    rw [hshort, hlong]
    cases hfound : firstCode (live.drop k ++ more) 0 with
    | none =>
        rw [hfound, Option.map_none] at htail
        rw [advance_none (v := ⟨live.drop k ++ more, none, pictures⟩) hfound,
          advance_none (v := ⟨live ++ more, none, pictures⟩) htail]
        have hkept : k + ((live ++ more).length - k - 3) = (live ++ more).length - 3 := by
          rw [List.length_append]
          omega
        simp only [settle, drop, hdrop, List.drop_drop, List.length_drop, hkept, Option.map_none]
    | some sc =>
        rw [hfound, Option.map_some] at htail
        rw [advance_some (v := ⟨live.drop k ++ more, none, pictures⟩) hfound,
          advance_some (v := ⟨live ++ more, none, pictures⟩) htail]
        have hoffset : k + sc.offset = sc.offset + k := Nat.add_comm _ _
        simp only [enter, drop, hdrop, List.drop_drop, hoffset]
  · rfl

theorem wf_advance (hv : v.Wf) : v.advance.2.Wf := by
  induction hleft : v.remaining using Nat.strong_induction_on generalizing v with
  | _ left ih =>
      cases hfound : firstCode v.live v.floor with
      | none =>
          rw [advance_none hfound]
          unfold settle
          split
          · rename_i hnal
            intro pos hpos
            rw [drop, hnal] at hpos
            cases hpos
          · exact hv
      | some sc =>
          rw [advance_some hfound]
          exact ih _ (hleft ▸ remaining_enter hfound) (wf_enter hfound) rfl

/-- Scanning some bytes and then more of them is scanning them at once. -/
theorem advance_append (hv : v.Wf) (more : Bytes) :
    (v.append more).advance =
      (v.advance.1 ++ (v.advance.2.append more).advance.1,
        (v.advance.2.append more).advance.2) := by
  induction hleft : v.remaining using Nat.strong_induction_on generalizing v with
  | _ left ih =>
      cases hfound : firstCode v.live v.floor with
      | none =>
          rw [advance_none hfound, advance_settle hfound, List.nil_append]
      | some sc =>
          have hless := remaining_enter hfound
          have hsame : firstCode (v.append more).live (v.append more).floor = some sc :=
            firstCode_append hfound more
          rw [advance_some hfound, advance_some hsame, enter_append hv hfound,
            ih _ (hleft ▸ hless) (wf_enter hfound) rfl, List.append_assoc]

theorem length_enter (sc : StartCode) : (v.enter sc).2.live.length ≤ v.live.length := by
  have hdrop : ∀ n, (v.live.drop n).length ≤ v.live.length := fun n => by
    rw [List.length_drop]
    omega
  unfold enter
  split
  · exact hdrop sc.offset
  · unfold complete
    dsimp only
    split
    · exact le_rfl
    · split
      · exact hdrop _
      · exact le_rfl

theorem length_advance (v : View S) : v.advance.2.live.length ≤ v.live.length := by
  induction hleft : v.remaining using Nat.strong_induction_on generalizing v with
  | _ left ih =>
      cases hfound : firstCode v.live v.floor with
      | none =>
          rw [advance_none hfound]
          unfold settle
          split
          · show (v.live.drop _).length ≤ _
            rw [List.length_drop]
            omega
          · exact le_rfl
      | some sc =>
          rw [advance_some hfound]
          exact (ih _ (hleft ▸ remaining_enter hfound) _ rfl).trans (length_enter sc)

/-- From the first start code on, what is handed out and what is kept make up the bytes. -/
theorem payload_advance (hnal : v.nal ≠ none) :
    v.advance.1.flatMap AccessUnit.payload ++ v.advance.2.live = v.live ∧
      v.advance.2.nal ≠ none := by
  induction hleft : v.remaining using Nat.strong_induction_on generalizing v with
  | _ left ih =>
      cases hfound : firstCode v.live v.floor with
      | none =>
          have hsettle : v.settle = v := by
            unfold settle
            cases hcases : v.nal with
            | none => exact absurd hcases hnal
            | some pos => rfl
          rw [advance_none hfound, hsettle]
          exact ⟨rfl, hnal⟩
      | some sc =>
          rcases payload_enter sc hnal with ⟨henter, hbytes⟩
          rcases ih _ (hleft ▸ remaining_enter hfound) henter rfl with ⟨hrest, hstays⟩
          rw [advance_some hfound, List.flatMap_append, List.append_assoc, hrest, hbytes]
          exact ⟨rfl, hstays⟩

end View

/-! ## The parser and its view -/

namespace H264Parser

/-- What the splitting sees of a parser. -/
def view (p : H264Parser S) : View S where
  live := p.live
  nal := p.nal
  pictures := p.pictures

/-- The cursor lies in the buffer, and the mark of the scanner tells the truth. -/
structure Sound (p : H264Parser S) : Prop where
  auBase : p.auBase ≤ p.au.length
  rules : p.scanner.Rules p.live p.floor

/-- A parser that moves on as its view does, with some access units for its queue. -/
structure Moves (p p' : H264Parser S) (v : View S) : Prop where
  sound : p'.Sound
  view : p'.view = v
  eosTailDone : p'.eosTailDone = p.eosTailDone
  maxAccessUnit : p'.maxAccessUnit = p.maxAccessUnit

theorem Moves.trans {p p' p'' : H264Parser S} {v v' : View S} (h : p.Moves p' v)
    (h' : p'.Moves p'' v') : p.Moves p'' v' where
  sound := h'.sound
  view := h'.view
  eosTailDone := h'.eosTailDone.trans h.eosTailDone
  maxAccessUnit := h'.maxAccessUnit.trans h.maxAccessUnit

variable {p : H264Parser S}

theorem sound_new (maxAccessUnit : Nat) : (new maxAccessUnit : H264Parser S).Sound where
  auBase := le_rfl
  rules := Scanner.rules_of_le (Nat.zero_le _)

theorem Dropped.rules {p' : H264Parser S} {n floor : Nat} (h : Dropped p p' n) (hp : p.Sound)
    (hfloor : p.floor ≤ floor + n) : p'.scanner.Rules p'.live floor := by
  rw [h.scanner, h.live]
  exact hp.rules.consume hfloor

theorem takeAccessUnit_view (p : H264Parser S) (upto : Nat) :
    (p.takeAccessUnit upto).1.toList = (p.view.take upto).1 ∧
      (p.takeAccessUnit upto).2.view = (p.view.take upto).2 ∧
      Dropped p { (p.takeAccessUnit upto).2 with pictures := p.pictures }
        (min upto p.live.length) := by
  have hdropped := dropped_dropFront (p := p) (min upto p.live.length)
  rw [min_eq_left (min_le_right _ _)] at hdropped
  refine ⟨?_, ?_, ?_⟩
  · by_cases hzero : min upto p.live.length = 0 <;> simp [takeAccessUnit, View.take, view, hzero]
  · show View.mk (p.dropFront (min upto p.live.length)).live
      (p.dropFront (min upto p.live.length)).nal
      (p.dropFront (min upto p.live.length)).pictures.nextUnit = _
    rw [hdropped.live, hdropped.nal, hdropped.pictures]
    rfl
  · exact ⟨hdropped.live, hdropped.nal, hdropped.scanner, rfl, hdropped.ready,
      hdropped.eosTailDone, hdropped.maxAccessUnit, hdropped.auBase⟩

/-- Completing a unit completes it in the view. -/
theorem completeNal_view (hp : p.Sound) (pos : NalPos) {sc : StartCode}
    (hfloor : p.floor ≤ sc.payloadOffset) (hwithin : sc.payloadOffset ≤ p.live.length) :
    (p.completeNal pos sc).1.toList = (p.view.complete pos sc).1 ∧
      p.Moves (p.completeNal pos sc).2 (p.view.complete pos sc).2 ∧
      (p.completeNal pos sc).2.ready = p.ready := by
  have hstay : p.scanner.Rules p.live sc.payloadOffset := fun j hj hlt =>
    hp.rules j (by omega) hlt
  unfold completeNal View.complete
  dsimp only
  split
  · rename_i hnone
    have hnone' : H264NalHeader.parse
        (trimTrailingZeros ((p.view.live.take sc.offset).drop pos.payloadStart)) = none := hnone
    rw [hnone']
    exact ⟨rfl, ⟨⟨hp.auBase, hstay⟩, rfl, rfl, rfl⟩, rfl⟩
  · rename_i header hsome
    have hsome' : H264NalHeader.parse
        (trimTrailingZeros ((p.view.live.take sc.offset).drop pos.payloadStart)) =
          some header := hsome
    rw [hsome']
    dsimp only
    by_cases hboundary : p.pictures.startsAccessUnit header
        (toRbsp (trimTrailingZeros ((p.live.take sc.offset).drop pos.payloadStart))) = true
    · have hboundary' : p.view.pictures.startsAccessUnit header (toRbsp (trimTrailingZeros
          ((p.view.live.take sc.offset).drop pos.payloadStart))) = true := hboundary
      rw [if_pos hboundary, if_pos hboundary, if_pos hboundary']
      rcases takeAccessUnit_view p pos.framedStart with ⟨hpacket, hview, hdropped⟩
      refine ⟨hpacket, ⟨⟨hdropped.auBase hp.auBase, ?_⟩, ?_, hdropped.eosTailDone,
        hdropped.maxAccessUnit⟩, hdropped.ready⟩
      · exact hdropped.rules hp (show p.floor ≤ sc.offset + sc.len - pos.framedStart + _ by
          unfold StartCode.payloadOffset at hfloor hwithin
          omega)
      · rw [← hview]
        rfl
    · have hboundary' : ¬ p.view.pictures.startsAccessUnit header (toRbsp (trimTrailingZeros
          ((p.view.live.take sc.offset).drop pos.payloadStart))) = true := hboundary
      rw [if_neg hboundary, if_neg hboundary, if_neg hboundary']
      exact ⟨rfl, ⟨⟨hp.auBase, hstay⟩, rfl, rfl, rfl⟩, rfl⟩

theorem scan_view (hp : p.Sound) :
    p.scan.1 = firstCode p.view.live p.view.floor ∧ p.Moves p.scan.2 p.view := by
  rcases hp.rules.find with ⟨hfound, hrules⟩
  exact ⟨hfound, ⟨⟨hp.auBase, hrules⟩, rfl, rfl, rfl⟩⟩

/-- Where nothing is found the view settles. -/
theorem settle_view (hp : p.Sound) :
    p.Moves p.settle p.view.settle ∧ p.settle.ready = p.ready := by
  unfold settle View.settle
  cases hnal : p.nal with
  | none =>
      have hnal' : p.view.nal = none := hnal
      have hdropped := dropped_dropFront (p := p) (p.live.length - 3)
      rw [min_eq_left (Nat.sub_le _ _)] at hdropped
      rw [hnal']
      refine ⟨⟨⟨hdropped.auBase hp.auBase, ?_⟩, ?_, hdropped.eosTailDone,
        hdropped.maxAccessUnit⟩, hdropped.ready⟩
      · refine hdropped.rules hp ?_
        unfold floor
        rw [hnal]
        exact Nat.zero_le _
      · show View.mk _ _ _ = _
        rw [hdropped.live, hdropped.nal, hdropped.pictures]
        rfl
  | some pos =>
      have hnal' : p.view.nal = some pos := hnal
      rw [hnal']
      exact ⟨⟨hp, rfl, rfl, rfl⟩, rfl⟩

/-- A start code is entered into the view. -/
theorem enter_view (hp : p.Sound) {sc : StartCode} (h : firstCode p.live p.floor = some sc) :
    p.Moves (p.enter sc) (p.view.enter sc).2 ∧
      (p.enter sc).ready = p.ready ++ (p.view.enter sc).1 := by
  rcases firstCode_bounds h with ⟨hwithin, hfloor⟩
  unfold enter View.enter
  cases hnal : p.nal with
  | none =>
      have hnal' : p.view.nal = none := hnal
      have hdropped := dropped_dropFront (p := p) sc.offset
      have hoffset : min sc.offset p.live.length = sc.offset := by
        unfold StartCode.payloadOffset at hwithin
        omega
      rw [hoffset] at hdropped
      rw [hnal']
      refine ⟨⟨⟨hdropped.auBase hp.auBase, ?_⟩, ?_, hdropped.eosTailDone,
        hdropped.maxAccessUnit⟩, hdropped.ready.trans (List.append_nil _).symm⟩
      · refine hdropped.rules hp ?_
        unfold floor
        rw [hnal]
        exact Nat.zero_le _
      · show View.mk (p.dropFront sc.offset).live _ (p.dropFront sc.offset).pictures = _
        rw [hdropped.live, hdropped.pictures]
        rfl
  | some pos =>
      have hnal' : p.view.nal = some pos := hnal
      rcases completeNal_view hp pos (show p.floor ≤ sc.payloadOffset by omega) hwithin
        with ⟨hpacket, hmoves, hready⟩
      rw [hnal']
      refine ⟨⟨⟨hmoves.sound.auBase, hmoves.sound.rules⟩, hmoves.view, hmoves.eosTailDone,
        hmoves.maxAccessUnit⟩, ?_⟩
      show (p.completeNal pos sc).2.ready ++ (p.completeNal pos sc).1.toList = _
      rw [hready, hpacket]

/-- The parser scans as its view does: what becomes complete is queued. -/
theorem advance_view (hp : p.Sound) :
    p.Moves p.advance p.view.advance.2 ∧ p.advance.ready = p.ready ++ p.view.advance.1 := by
  induction hleft : p.remaining using Nat.strong_induction_on generalizing p with
  | _ left ih =>
      rcases scan_view hp with ⟨hfound, hscan⟩
      have hready : p.scan.2.ready = p.ready := rfl
      rw [advance]
      split
      · rename_i hnone
        rw [hfound] at hnone
        rw [View.advance_none hnone]
        rcases settle_view hscan.sound with ⟨hsettle, hqueue⟩
        rw [hscan.view] at hsettle
        exact ⟨hscan.trans hsettle, by rw [hqueue, hready, List.append_nil]⟩
      · rename_i sc hsome
        have hless := remaining_enter hsome
        rw [hfound] at hsome
        rcases enter_view hscan.sound hsome with ⟨henter, hqueue⟩
        rw [hscan.view] at henter hqueue
        rcases ih _ (hleft ▸ hless) henter.sound rfl with ⟨hrest, hqueue'⟩
        rw [henter.view] at hrest hqueue'
        rw [View.advance_some hsome]
        refine ⟨(hscan.trans henter).trans hrest, ?_⟩
        rw [hqueue', hqueue, hready, List.append_assoc]

end H264Parser

end H264
end Vaco
