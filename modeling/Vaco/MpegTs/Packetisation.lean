import Vaco.MpegTs.Section

/-!
# Sections in packets

A legal packetisation cuts a sequence of sections into packet payloads: a packet lies
inside a section, or brings the end of one and further sections, of which the last may
go on in the next packet.  The payload of a packet in which a section starts begins with
a pointer field.

Main results:

- `Receiver.receiveAll_eq`: what is emitted.
- `sections_reassembled`: exactly the sections that arrived whole.

Current gaps:

- The caller that detects a loss from the continuity counter is not part of this module.
- A packet inside a section carries at least one byte of it, as every transport packet
  with a payload does.
-/

namespace Vaco
namespace MpegTs

open Library.BitStream

inductive SectionPacket where
  | carrying (bytes : Bytes)
  | closing (tail : Bytes) (whole : List Section) (stuffing : Nat)
  | opening (tail : Bytes) (whole : List Section) (next : Section) (head : Bytes)

namespace SectionPacket

/-- A section starts in the packet. -/
def payloadUnitStart : SectionPacket → Bool
  | carrying _ => false
  | closing _ whole _ => !whole.isEmpty
  | opening _ _ _ _ => true

/-- The bytes of sections one after another. -/
def joined (whole : List Section) : Bytes :=
  (whole.map Section.bytes).flatten

def payload : SectionPacket → Bytes
  | carrying bytes => bytes
  | closing tail whole stuffing =>
      if whole.isEmpty then tail ++ List.replicate stuffing stuffingByte
      else BitVec.ofNat 8 tail.length ::
        (tail ++ (joined whole ++ List.replicate stuffing stuffingByte))
  | opening tail whole _ head =>
      BitVec.ofNat 8 tail.length :: (tail ++ (joined whole ++ head))

end SectionPacket

/-- The packets send the bytes `rest` of the section in progress and then the
sections, the last of them whole. -/
inductive Sends : Bytes → List Section → List SectionPacket → Prop where
  | nil : Sends [] [] []
  | carrying {rest : Bytes} {sections : List Section} {packets : List SectionPacket} (bytes : Bytes)
      (hbytes : bytes ≠ []) (hrest : rest ≠ []) (h : Sends rest sections packets) :
      Sends (bytes ++ rest) sections (.carrying bytes :: packets)
  | closing {sections : List Section} {packets : List SectionPacket} (tail : Bytes)
      (whole : List Section) (stuffing : Nat) (hpointer : whole ≠ [] → tail.length < 256)
      (h : Sends [] sections packets) :
      Sends tail (whole ++ sections) (.closing tail whole stuffing :: packets)
  | opening {rest : Bytes} {sections : List Section} {packets : List SectionPacket} (tail : Bytes)
      (whole : List Section) (next : Section) (head : Bytes) (hpointer : tail.length < 256)
      (hnext : next.bytes = head ++ rest) (hhead : head ≠ []) (hrest : rest ≠ [])
      (h : Sends rest sections packets) :
      Sends tail (whole ++ next :: sections) (.opening tail whole next head :: packets)

def Packetises (sections : List Section) (packets : List SectionPacket) : Prop :=
  Sends [] sections packets

/-- A section with the first and the last packet that carry bytes of it. -/
structure Span where
  content : Section
  first : Nat
  last : Nat

namespace Span

/-- All packets that carry bytes of the section arrived. -/
def arrived (kept : Nat → Bool) (span : Span) : Bool :=
  decide (∀ i < span.last + 1, span.first ≤ i → kept i = true)

/-- The section in progress, with the packet it started in, ends in packet
`position`. -/
def ended (current : Option (Section × Nat)) (position : Nat) : List Span :=
  current.toList.map fun started => ⟨started.1, started.2, position⟩

/-- Sections that start and end in one packet. -/
def inside (whole : List Section) (position : Nat) : List Span :=
  whole.map fun content => ⟨content, position, position⟩

/-- The spans of the sections in progress and to come. -/
def of : Nat → Option (Section × Nat) → List SectionPacket → List Span
  | _, _, [] => []
  | position, current, .carrying _ :: packets => of (position + 1) current packets
  | position, current, .closing _ whole _ :: packets =>
      ended current position ++ inside whole position ++ of (position + 1) none packets
  | position, current, .opening _ whole next _ :: packets =>
      ended current position ++ inside whole position ++
        of (position + 1) (some (next, position)) packets

end Span

/-- The assembler, and whether a packet was lost since the last one delivered. -/
structure Receiver where
  assembler : SectionAssembler
  gap : Bool

namespace Receiver

/-- Before the first packet. -/
def new : Receiver where
  assembler := .new
  gap := false

/-- The assembler that gets the next packet: after a loss it is told to abandon. -/
def ready (r : Receiver) : SectionAssembler :=
  if r.gap then r.assembler.abandon else r.assembler

/-- A packet is delivered, or lost. -/
def receive (r : Receiver) (kept : Bool) (packet : SectionPacket) : Receiver × List Bytes :=
  if kept then
    let pushed := r.ready.push packet.payloadUnitStart packet.payload
    (⟨pushed.1, false⟩, pushed.2)
  else (⟨r.assembler, true⟩, [])

/-- The sections emitted over a run, packet `i` being delivered if `kept i`. -/
def receiveAll (kept : Nat → Bool) : Nat → Receiver → List SectionPacket → List Bytes
  | _, _, [] => []
  | position, r, packet :: packets =>
      let received := r.receive (kept position) packet
      received.2 ++ receiveAll kept (position + 1) received.1 packets

end Receiver

/-- No section is in progress, or what was sent of it is held, or it is damaged and a pointer field
is awaited. -/
inductive Follows (kept : Nat → Bool) (position : Nat) (a : SectionAssembler) :
    Bytes → Option (Section × Nat) → Prop where
  | idle (h : a.Between) : Follows kept position a [] none
  | intact {held rest : Bytes} {s : Section} {first : Nat} (h : a.Holds held s)
      (hbytes : s.bytes = held ++ rest) (hrest : rest ≠ []) (hfirst : first < position)
      (harrived : ∀ i < position, first ≤ i → kept i = true) :
      Follows kept position a rest (some (s, first))
  | lost {rest : Bytes} {s : Section} {first i : Nat} (h : a.Between)
      (haligned : a.aligned = false) (hrest : rest ≠ []) (hfirst : first ≤ i)
      (hi : i < position) (hlost : kept i = false) :
      Follows kept position a rest (some (s, first))

namespace Span

variable {kept : Nat → Bool} {position : Nat}

theorem arrived_iff (span : Span) :
    span.arrived kept = true ↔ ∀ i < span.last + 1, span.first ≤ i → kept i = true :=
  decide_eq_true_iff

theorem filter_inside_kept (hkept : kept position = true) (whole : List Section) :
    (inside whole position).filter (arrived kept) = inside whole position := by
  rw [List.filter_eq_self]
  intro span hspan
  rcases List.mem_map.1 hspan with ⟨content, _, rfl⟩
  rw [arrived_iff]
  intro i hi hfirst
  have heq : i = position := Nat.le_antisymm (Nat.lt_succ_iff.1 hi) hfirst
  rw [heq]
  exact hkept

theorem filter_ended_lost (hlost : kept position = false) {current : Option (Section × Nat)}
    (hfirst : ∀ started ∈ current, started.2 ≤ position) (whole : List Section) :
    (ended current position ++ inside whole position).filter (arrived kept) = [] := by
  rw [List.filter_eq_nil_iff]
  intro span hspan harrived
  rw [arrived_iff] at harrived
  have hbounds : span.first ≤ position ∧ span.last = position := by
    rcases List.mem_append.1 hspan with hended | hinside
    · rcases List.mem_map.1 hended with ⟨started, hstarted, rfl⟩
      exact ⟨hfirst started (Option.mem_toList.1 hstarted), rfl⟩
    · rcases List.mem_map.1 hinside with ⟨content, _, rfl⟩
      exact ⟨Nat.le_refl _, rfl⟩
  have hcontra := harrived position (by omega) hbounds.1
  rw [hlost] at hcontra
  exact Bool.false_ne_true hcontra

theorem content_ended (current : Option (Section × Nat)) :
    (ended current position).map content = current.toList.map Prod.fst := by
  rw [ended, List.map_map]
  rfl

theorem content_inside (whole : List Section) :
    (inside whole position).map content = whole := by
  rw [inside, List.map_map]
  exact List.map_id whole

theorem map_inside (whole : List Section) :
    (inside whole position).map (fun span => span.content.bytes) = whole.map Section.bytes := by
  rw [inside, List.map_map]
  rfl

end Span

namespace SectionAssembler

theorem realign_between (a : SectionAssembler) : a.realign.Between where
  buf := rfl
  want := rfl

theorem abandon_between (a : SectionAssembler) : a.abandon.Between where
  buf := rfl
  want := rfl

theorem push_continuing (a : SectionAssembler) (payload : Bytes) :
    a.push false payload = a.pushHead payload :=
  if_neg Bool.false_ne_true

theorem pushHead_unaligned {a : SectionAssembler} (h : a.Between) (haligned : a.aligned = false)
    (head : Bytes) :
    ∃ a' : SectionAssembler, a'.Between ∧ a'.aligned = false ∧ a.pushHead head = (a', []) := by
  refine ⟨_, ?_, ?_, if_neg ?_⟩
  · exact ⟨h.buf, h.want⟩
  · exact haligned
  · rw [haligned]
    exact Bool.false_ne_true

theorem push_start {a : SectionAssembler} {tail : Bytes} (hpointer : tail.length < 256)
    (starting : Bytes) :
    a.push true (BitVec.ofNat 8 tail.length :: (tail ++ starting)) =
      (((a.pushHead tail).1.realign.feed starting).1,
        (a.pushHead tail).2 ++ ((a.pushHead tail).1.realign.feed starting).2) := by
  have hto : (BitVec.ofNat 8 tail.length).toNat = tail.length := by
    rw [BitVec.toNat_ofNat]
    exact Nat.mod_eq_of_lt hpointer
  have hfits : ¬ (tail ++ starting).length < tail.length := by
    rw [List.length_append]
    omega
  simp only [push, if_true, hto, hfits, if_false, List.take_left, List.drop_left]

end SectionAssembler

namespace Follows

variable {kept : Nat → Bool} {position : Nat} {a : SectionAssembler} {rest : Bytes}
  {current : Option (Section × Nat)}

theorem first_lt (h : Follows kept position a rest current) :
    ∀ started ∈ current, started.2 < position := by
  intro started hstarted
  cases h with
  | idle h => cases hstarted
  | intact h hbytes hrest hfirst harrived =>
      rw [← Option.mem_some.1 hstarted]
      exact hfirst
  | lost h haligned hrest hfirst hi hlost =>
      rw [← Option.mem_some.1 hstarted]
      exact Nat.lt_of_le_of_lt hfirst hi

/-- A delivered packet inside the section in progress. -/
theorem push_carrying {bytes : Bytes} (h : Follows kept position a (bytes ++ rest) current)
    (hbytes : bytes ≠ []) (hrest : rest ≠ []) (hkept : kept position = true) :
    ∃ a', a.push false bytes = (a', []) ∧ Follows kept (position + 1) a' rest current := by
  generalize hsum : bytes ++ rest = sum at h
  cases h with
  | idle h => exact absurd (List.append_eq_nil_iff.1 hsum).1 hbytes
  | @intact held _ s first hholds hwhole hsum' hfirst harrived =>
      rw [← hsum, ← List.append_assoc] at hwhole
      rcases SectionAssembler.feed_within hholds hwhole hbytes hrest with
        ⟨a', hfeeds, hholds'⟩
      refine ⟨a', ?_, .intact hholds' hwhole hrest (by omega) ?_⟩
      · rw [SectionAssembler.push_continuing, SectionAssembler.pushHead,
          if_pos hholds.aligned, hfeeds.feed_eq]
      · intro i hi hle
        rcases Nat.lt_or_eq_of_le (Nat.lt_succ_iff.1 hi) with hlt | heq
        · exact harrived i hlt hle
        · rw [heq]
          exact hkept
  | @lost _ s first i hbetween haligned hsum' hfirst hi hlost =>
      rcases SectionAssembler.pushHead_unaligned hbetween haligned bytes with
        ⟨a', hbetween', haligned', hpush⟩
      rw [SectionAssembler.push_continuing, hpush]
      exact ⟨a', rfl, .lost hbetween' haligned' hrest hfirst (by omega) hlost⟩

/-- The end of the section in progress is delivered: it is emitted if all of it arrived. -/
theorem pushHead_ending (h : Follows kept position a rest current)
    (hkept : kept position = true) (stuffing : Nat) :
    ∃ a' : SectionAssembler, a'.Between ∧
      a.pushHead (rest ++ List.replicate stuffing stuffingByte) =
        (a', ((Span.ended current position).filter (Span.arrived kept)).map
          fun span => span.content.bytes) := by
  cases h with
  | idle h =>
      by_cases haligned : a.aligned = true
      · refine ⟨a, h, ?_⟩
        rw [List.nil_append, SectionAssembler.pushHead, if_pos haligned,
          (SectionAssembler.feed_stuffing h stuffing).feed_eq]
        rfl
      · rcases SectionAssembler.pushHead_unaligned h (Bool.eq_false_iff.2 haligned)
          ([] ++ List.replicate stuffing stuffingByte) with ⟨a', hbetween, _, hpush⟩
        exact ⟨a', hbetween, hpush⟩
  | @intact held _ s first hholds hwhole hrest hfirst harrived =>
      rcases SectionAssembler.feed_completing hholds hwhole hrest
        (List.replicate stuffing stuffingByte) with ⟨a₁, hbetween, _, hfeeds⟩
      have hspan : Span.arrived kept ⟨s, first, position⟩ = true := by
        rw [Span.arrived_iff]
        intro i hi hle
        rcases Nat.lt_or_eq_of_le (Nat.lt_succ_iff.1 hi) with hlt | heq
        · exact harrived i hlt hle
        · rw [heq]
          exact hkept
      have hfilter : (Span.ended (some (s, first)) position).filter (Span.arrived kept) =
          [⟨s, first, position⟩] :=
        List.filter_cons_of_pos hspan
      refine ⟨a₁, hbetween, ?_⟩
      rw [SectionAssembler.pushHead, if_pos hholds.aligned,
        (hfeeds _ _ (SectionAssembler.feed_stuffing hbetween stuffing)).feed_eq, hfilter]
      rfl
  | @lost _ s first i hbetween haligned hrest hfirst hi hlost =>
      have hspan : ¬ Span.arrived kept ⟨s, first, position⟩ = true := by
        rw [Span.arrived_iff]
        intro harrived
        have hcontra := harrived i (by change i < position + 1; omega) hfirst
        rw [hlost] at hcontra
        exact Bool.false_ne_true hcontra
      have hfilter : (Span.ended (some (s, first)) position).filter (Span.arrived kept) = [] :=
        List.filter_cons_of_neg hspan
      rcases SectionAssembler.pushHead_unaligned hbetween haligned
        (rest ++ List.replicate stuffing stuffingByte) with ⟨a', hbetween', _, hpush⟩
      rw [hfilter]
      exact ⟨a', hbetween', hpush⟩

theorem push_starting (h : Follows kept position a rest current)
    (hkept : kept position = true) (hpointer : rest.length < 256) (whole : List Section)
    (more : Bytes) :
    ∃ a₁ : SectionAssembler, a₁.Between ∧ a₁.aligned = true ∧ ∀ a', a₁.Feeds more a' [] →
      a.push true (BitVec.ofNat 8 rest.length :: (rest ++ (SectionPacket.joined whole ++ more))) =
        (a', ((Span.ended current position ++ Span.inside whole position).filter
          (Span.arrived kept)).map fun span => span.content.bytes) := by
  rcases h.pushHead_ending hkept 0 with ⟨a₀, _, hending⟩
  rw [List.replicate_zero, List.append_nil] at hending
  rcases SectionAssembler.feed_sections a₀.realign_between rfl whole more with
    ⟨a₁, hbetween, haligned, hsections⟩
  refine ⟨a₁, hbetween, haligned, ?_⟩
  intro a' hmore
  have hfeeds := hsections a' [] hmore
  rw [SectionAssembler.push_start hpointer, hending, SectionPacket.joined]
  simp only [hfeeds.feed_eq]
  rw [List.filter_append, List.map_append, Span.filter_inside_kept hkept, Span.map_inside,
    List.append_nil]

theorem push_closing (h : Follows kept position a rest current) (hkept : kept position = true)
    {whole : List Section} (hpointer : whole ≠ [] → rest.length < 256) (stuffing : Nat) :
    ∃ a' : SectionAssembler, a'.Between ∧
      a.push (SectionPacket.closing rest whole stuffing).payloadUnitStart
          (SectionPacket.closing rest whole stuffing).payload =
        (a', ((Span.ended current position ++ Span.inside whole position).filter
          (Span.arrived kept)).map fun span => span.content.bytes) := by
  cases whole with
  | nil =>
      rcases h.pushHead_ending hkept stuffing with ⟨a', hbetween, hending⟩
      refine ⟨a', hbetween, ?_⟩
      rw [Span.inside, List.map_nil, List.append_nil, ← hending]
      exact SectionAssembler.push_continuing a _
  | cons content whole =>
      rcases h.push_starting hkept (hpointer (List.cons_ne_nil _ _)) (content :: whole)
        (List.replicate stuffing stuffingByte) with ⟨a₁, hbetween, _, hpush⟩
      exact ⟨a₁, hbetween, hpush a₁ (SectionAssembler.feed_stuffing hbetween stuffing)⟩

theorem push_opening (h : Follows kept position a rest current) (hkept : kept position = true)
    (hpointer : rest.length < 256) (whole : List Section) {next : Section} {head later : Bytes}
    (hnext : next.bytes = head ++ later) (hhead : head ≠ []) (hlater : later ≠ []) :
    ∃ a' : SectionAssembler, a'.Holds head next ∧
      a.push (SectionPacket.opening rest whole next head).payloadUnitStart
          (SectionPacket.opening rest whole next head).payload =
        (a', ((Span.ended current position ++ Span.inside whole position).filter
          (Span.arrived kept)).map fun span => span.content.bytes) := by
  rcases h.push_starting hkept hpointer whole head with ⟨a₁, hbetween, haligned, hpush⟩
  rcases SectionAssembler.feed_within (SectionAssembler.Holds.of_between hbetween haligned next)
    hnext hhead hlater with ⟨a', hfeeds, hholds⟩
  exact ⟨a', hholds, hpush a' hfeeds⟩

end Follows

namespace Receiver

theorem receive_kept (r : Receiver) (packet : SectionPacket) :
    r.receive true packet =
      (⟨(r.ready.push packet.payloadUnitStart packet.payload).1, false⟩,
        (r.ready.push packet.payloadUnitStart packet.payload).2) :=
  rfl

theorem receive_lost (r : Receiver) (packet : SectionPacket) :
    r.receive false packet = (⟨r.assembler, true⟩, []) :=
  rfl

/-- What is emitted: the sections all of whose packets arrived. -/
theorem receiveAll_eq {rest : Bytes} {sections : List Section} {packets : List SectionPacket}
    (hsends : Sends rest sections packets) (kept : Nat → Bool) :
    ∀ (position : Nat) (r : Receiver) (current : Option (Section × Nat)),
      Follows kept position r.ready rest current →
      receiveAll kept position r packets =
        ((Span.of position current packets).filter (Span.arrived kept)).map
          fun span => span.content.bytes := by
  induction hsends with
  | nil =>
      intro position r current _
      rfl
  | carrying bytes hbytes hrest _ ih =>
      intro position r current hfollows
      rw [receiveAll, Span.of]
      cases hkept : kept position with
      | true =>
          rcases hfollows.push_carrying hbytes hrest hkept with ⟨a', hpush, hfollows'⟩
          rw [receive_kept, SectionPacket.payloadUnitStart, SectionPacket.payload, hpush]
          exact ih (position + 1) ⟨a', false⟩ current hfollows'
      | false =>
          rw [receive_lost]
          refine ih (position + 1) ⟨r.assembler, true⟩ current ?_
          generalize hsum : bytes ++ _ = sum at hfollows
          cases hfollows with
          | idle h => exact absurd (List.append_eq_nil_iff.1 hsum).1 hbytes
          | intact h hwhole hsum' hfirst harrived =>
              exact .lost r.assembler.abandon_between rfl hrest (Nat.le_of_lt hfirst)
                (Nat.lt_succ_self position) hkept
          | lost h haligned hsum' hfirst hi hlost =>
              exact .lost r.assembler.abandon_between rfl hrest hfirst
                (Nat.lt_succ_of_lt hi) hlost
  | closing tail whole stuffing hpointer _ ih =>
      intro position r current hfollows
      rw [receiveAll, Span.of, List.filter_append, List.map_append]
      cases hkept : kept position with
      | true =>
          rcases hfollows.push_closing hkept hpointer stuffing with ⟨a', hbetween, hpush⟩
          rw [receive_kept, hpush]
          exact congrArg _ (ih (position + 1) ⟨a', false⟩ none (.idle hbetween))
      | false =>
          rw [receive_lost, Span.filter_ended_lost hkept
            (fun started hstarted => Nat.le_of_lt (hfollows.first_lt started hstarted))]
          exact ih (position + 1) ⟨r.assembler, true⟩ none (.idle r.assembler.abandon_between)
  | opening tail whole next head hpointer hnext hhead hrest _ ih =>
      intro position r current hfollows
      rw [receiveAll, Span.of, List.filter_append, List.map_append]
      cases hkept : kept position with
      | true =>
          rcases hfollows.push_opening hkept hpointer whole hnext hhead hrest with
            ⟨a', hholds, hpush⟩
          rw [receive_kept, hpush]
          refine congrArg _ (ih (position + 1) ⟨a', false⟩ (some (next, position)) ?_)
          refine .intact hholds hnext hrest (Nat.lt_succ_self position) ?_
          intro i hi hle
          rw [Nat.le_antisymm (Nat.lt_succ_iff.1 hi) hle]
          exact hkept
      | false =>
          rw [receive_lost, Span.filter_ended_lost hkept
            (fun started hstarted => Nat.le_of_lt (hfollows.first_lt started hstarted))]
          exact ih (position + 1) ⟨r.assembler, true⟩ (some (next, position))
            (.lost r.assembler.abandon_between rfl hrest (Nat.le_refl position)
              (Nat.lt_succ_self position) hkept)

end Receiver

namespace Sends

/-- The spans of a packetisation are its sections, in order. -/
theorem spans_sections {rest : Bytes} {sections : List Section} {packets : List SectionPacket}
    (hsends : Sends rest sections packets) :
    ∀ (position : Nat) (current : Option (Section × Nat)), (rest = [] → current = none) →
      (Span.of position current packets).map Span.content =
        current.toList.map Prod.fst ++ sections := by
  induction hsends with
  | nil =>
      intro position current hcurrent
      rw [hcurrent rfl]
      rfl
  | carrying bytes hbytes hrest _ ih =>
      intro position current _
      exact ih (position + 1) current (fun hnil => absurd hnil hrest)
  | closing tail whole stuffing hpointer _ ih =>
      intro position current _
      have hlater := ih (position + 1) none (fun _ => rfl)
      rw [Span.of, List.map_append, hlater, List.map_append, Span.content_ended,
        Span.content_inside, List.append_assoc]
      rfl
  | opening tail whole next head hpointer hnext hhead hrest _ ih =>
      intro position current _
      have hlater := ih (position + 1) (some (next, position)) (fun hnil => absurd hnil hrest)
      rw [Span.of, List.map_append, hlater, List.map_append, Span.content_ended,
        Span.content_inside, List.append_assoc]
      rfl

theorem append {rest : Bytes} {sections sections' : List Section}
    {packets packets' : List SectionPacket} (h : Sends rest sections packets)
    (h' : Packetises sections' packets') :
    Sends rest (sections ++ sections') (packets ++ packets') := by
  induction h with
  | nil => exact h'
  | carrying bytes hbytes hrest _ ih => exact .carrying bytes hbytes hrest ih
  | closing tail whole stuffing hpointer _ ih =>
      rw [List.append_assoc]
      exact .closing tail whole stuffing hpointer ih
  | opening tail whole next head hpointer hnext hhead hrest _ ih =>
      rw [List.append_assoc]
      exact .opening tail whole next head hpointer hnext hhead hrest ih

end Sends

theorem Receiver.receiveAll_kept {sections : List Section} {packets : List SectionPacket}
    (h : Packetises sections packets) :
    Receiver.receiveAll (fun _ => true) 0 .new packets = sections.map Section.bytes := by
  have hspans : (Span.of 0 none packets).map Span.content = sections :=
    h.spans_sections 0 none (fun _ => rfl)
  rw [Receiver.receiveAll_eq h (fun _ => true) 0 .new none (.idle ⟨rfl, rfl⟩),
    List.filter_eq_self.2]
  · rw [← hspans, List.map_map]
    rfl
  · intro span _
    rw [Span.arrived_iff]
    intro i _ _
    rfl

/-- The sections that an assembler emits when it is fed payloads one after the other. -/
def SectionAssembler.pushAll (a : SectionAssembler) : List (Bool × Bytes) → List Bytes
  | [] => []
  | (payloadUnitStart, payload) :: others =>
      let pushed := a.push payloadUnitStart payload
      pushed.2 ++ pushed.1.pushAll others

theorem Receiver.receiveAll_pushAll (position : Nat) (a : SectionAssembler)
    (packets : List SectionPacket) :
    Receiver.receiveAll (fun _ => true) position ⟨a, false⟩ packets =
      a.pushAll (packets.map fun packet => (packet.payloadUnitStart, packet.payload)) := by
  induction packets generalizing position a with
  | nil => rfl
  | cons packet packets ih =>
      rw [Receiver.receiveAll, List.map_cons, SectionAssembler.pushAll]
      exact congrArg _ (ih (position + 1) _)

/-- Without a loss the sections sent are emitted, in order; else, told to abandon at every loss,
exactly those all of whose packets arrived. -/
theorem sections_reassembled {sections : List Section} {packets : List SectionPacket}
    (h : Packetises sections packets) :
    Receiver.receiveAll (fun _ => true) 0 .new packets = sections.map Section.bytes ∧
      (Span.of 0 none packets).map Span.content = sections ∧
        ∀ kept : Nat → Bool,
          Receiver.receiveAll kept 0 .new packets =
            ((Span.of 0 none packets).filter (Span.arrived kept)).map
              fun span => span.content.bytes := by
  refine ⟨Receiver.receiveAll_kept h, h.spans_sections 0 none (fun _ => rfl), ?_⟩
  intro kept
  exact Receiver.receiveAll_eq h kept 0 .new none (.idle ⟨rfl, rfl⟩)

/-- A five byte section and a three byte section in two packets. -/
def twoSections : Section × Section where
  fst :=
    { bytes := [0x00, 0x70, 0x02, 0x07, 0x08]
      header_le := by decide
      length_le := by decide
      tableId_ne := by decide
      length_eq := by decide }
  snd :=
    { bytes := [0x70, 0x70, 0x00]
      header_le := by decide
      length_le := by decide
      tableId_ne := by decide
      length_eq := by decide }

/-- The first section is cut behind its second byte. -/
def twoPackets : List SectionPacket :=
  [.opening [] [] twoSections.1 [0x00, 0x70],
    .closing [0x02, 0x07, 0x08] [twoSections.2] 2]

theorem sections_reassembled_twoPackets :
    Receiver.receiveAll (fun _ => true) 0 .new twoPackets =
        [twoSections.1, twoSections.2].map Section.bytes ∧
      (Span.of 0 none twoPackets).map Span.content = [twoSections.1, twoSections.2] ∧
        ∀ kept : Nat → Bool,
          Receiver.receiveAll kept 0 .new twoPackets =
            ((Span.of 0 none twoPackets).filter (Span.arrived kept)).map
              fun span => span.content.bytes := by
  have hlast : Sends [0x02, 0x07, 0x08] ([twoSections.2] ++ [])
      [.closing [0x02, 0x07, 0x08] [twoSections.2] 2] :=
    .closing _ [twoSections.2] 2 (fun _ => by decide) .nil
  exact sections_reassembled
    (.opening [] [] twoSections.1 [0x00, 0x70] (by decide) rfl (by decide) (by decide) hlast)

end MpegTs
end Vaco
