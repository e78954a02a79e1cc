import Vaco.Codec.AudioTrim

/-!
# Gapless trimming

A packet may state how many samples to drop from the front and the back of what is decoded
from it.  The wrapper around a decoder keeps two counters: the samples still to drop from the
front, which carry from frame to frame, and the samples to drop from the back.  They are set
when a packet is accepted and spent on the frame that is received next.

Every frame has its own trims: the front trims of the packets up to its own, as far as no
earlier frame has used them, and the back trim of its own packet.  The counters agree with
them as long as a packet with trims is accepted only when the frames still to come are dropped
whole anyway, and nothing of a back trim is left over for a later frame.

Main results:

- `Session.Timely.call`: what a call keeps.
- `gapless_interleavings`: timely runs hand over the same samples.
-/

namespace Vaco
namespace Codec

open Library Vaco.Core

/-- The samples or the text of a frame. -/
inductive FrameData where
  | video (planes : List (List Byte))
  | audio (frame : AudioFrame)
  | subtitle (rects : List (List Byte))
deriving DecidableEq

/-- A decoder that is wrapped. -/
structure InnerDecoder where
  State : Type
  init : State
  send : State → Option Packet → State × Except Error Unit
  receive : State → State × Except Error FrameData
  flush : State → State

/-- The samples that a packet states to drop from the front and from the back. -/
def skipSamples (packet : Packet) : Option (Nat × Nat) :=
  match packet.sideData .skipSamples with
  | some (.skipSamples start stop _ _) => some (start.toNat, stop.toNat)
  | _ => none

/-- A decoder with the trims that are pending. -/
structure GaplessDecoder (d : InnerDecoder) where
  inner : d.State
  budget : AudioBudget
  pendingStart : Nat
  pendingEnd : Nat

/-- What one round of the loop of a receive comes to. -/
inductive Round where
  | waiting (error : Error)
  | failed (error : Error)
  | handed (frame : FrameData)
  | again
deriving DecidableEq

namespace Round

/-- Whether the loop ends. -/
def isOver : Round → Bool
  | again => false
  | _ => true

/-- The frame that is handed over, if one is. -/
def frames : Round → List FrameData
  | handed frame => [frame]
  | _ => []

end Round

namespace GaplessDecoder

variable {d : InnerDecoder}

/-- Wrap a decoder. -/
def new (d : InnerDecoder) (budget : AudioBudget) : GaplessDecoder d where
  inner := d.init
  budget := budget
  pendingStart := 0
  pendingEnd := 0

/-- Set the counters from an accepted packet: front trims add up, a back trim replaces the one
before. -/
def bank (g : GaplessDecoder d) (packet : Option Packet) : GaplessDecoder d :=
  match packet.bind skipSamples with
  | some trims =>
      { g with
        pendingStart := satAddU64 g.pendingStart trims.1
        pendingEnd := trims.2 }
  | none => g

/-- Send a packet, or nothing to begin draining.  A packet that is not accepted is not
counted. -/
def sendPacket (g : GaplessDecoder d) (packet : Option Packet) :
    GaplessDecoder d × Except Error Unit :=
  let sent := d.send g.inner packet
  match sent.2 with
  | .error e => ({ g with inner := sent.1 }, .error e)
  | .ok () => (bank { g with inner := sent.1 } packet, .ok ())

/-- Spend the counters on a frame. -/
def spend (g : GaplessDecoder d) (frame : AudioFrame) : GaplessDecoder d × Round :=
  let front := min g.pendingStart frame.samples
  let back := min g.pendingEnd (frame.samples - front)
  let g := { g with
    pendingStart := g.pendingStart - front
    pendingEnd := g.pendingEnd - back }
  if front = 0 ∧ back = 0 then (g, .handed (.audio frame))
  else
    let trimmed := trim frame front back g.budget
    let g := { g with budget := trimmed.1 }
    match trimmed.2 with
    | .error e => (g, .failed e)
    | .ok out => if 0 < out.samples then (g, .handed (.audio out)) else (g, .again)

/-- One round of the loop of a receive. -/
def round (g : GaplessDecoder d) : GaplessDecoder d × Round :=
  let received := d.receive g.inner
  let g := { g with inner := received.1 }
  match received.2 with
  | .error e => (g, .waiting e)
  | .ok frame =>
      if g.pendingStart = 0 ∧ g.pendingEnd = 0 then (g, .handed frame)
      else
        match frame with
        | .audio a => g.spend a
        | .video planes => (g, .handed (.video planes))
        | .subtitle rects => (g, .handed (.subtitle rects))

end GaplessDecoder

/-! ## Decoders with one frame for each packet -/

/-- A decoder of one audio frame for each accepted packet, in order.  `Holds` tells the packets that
a state has accepted and the frames that it still holds. -/
structure OneFrameEach (d : InnerDecoder) (decode : List Packet → Packet → AudioFrame) where
  Holds : d.State → List Packet → List AudioFrame → Prop
  start : Holds d.init [] []
  accepts : ∀ s accepted held p, Holds s accepted held → (d.send s (some p)).2 = .ok () →
    Holds (d.send s (some p)).1 (accepted ++ [p]) (held ++ [decode accepted p])
  refuses : ∀ s accepted held p e, Holds s accepted held → (d.send s (some p)).2 = .error e →
    Holds (d.send s (some p)).1 accepted held
  ends : ∀ s accepted held, Holds s accepted held → Holds (d.send s none).1 accepted held
  receives : ∀ s accepted held frame, Holds s accepted held → (d.receive s).2 = .ok frame →
    ∃ a rest, frame = .audio a ∧ held = a :: rest ∧ Holds (d.receive s).1 accepted rest
  waits : ∀ s accepted held e, Holds s accepted held → (d.receive s).2 = .error e →
    Holds (d.receive s).1 accepted held

/-- A frame with the trims that its own packet states. -/
structure Entry where
  frame : AudioFrame
  trims : Option (Nat × Nat)
deriving DecidableEq

namespace Entry

/-- The samples that the packet of a frame states to drop from the front. -/
def start (x : Entry) : Nat :=
  (x.trims.map Prod.fst).getD 0

/-- The samples that the packet of a frame states to drop from the back. -/
def stop (x : Entry) : Nat :=
  (x.trims.map Prod.snd).getD 0

end Entry

/-- The front trims of some frames together. -/
def totalStart (entries : List Entry) : Nat :=
  (entries.map Entry.start).sum

/-- The samples of some frames together. -/
def totalSamples (entries : List Entry) : Nat :=
  (entries.map fun x => x.frame.samples).sum

/-- The frames of some packets, behind others, with their own trims. -/
def entries (decode : List Packet → Packet → AudioFrame) :
    List Packet → List Packet → List Entry
  | _, [] => []
  | before, p :: packets =>
      ⟨decode before p, skipSamples p⟩ :: entries decode (before ++ [p]) packets

/-! ## Every frame by its own trims -/

/-- Frames handed over by their own trims, with the front trim that is carried. -/
structure Own where
  carry : Nat
  budget : AudioBudget
  handed : List FrameData

/-- Cut a frame.  One that is cut to nothing, or cannot be copied, is not handed over. -/
def cut (frame : AudioFrame) (front back : Nat) (budget : AudioBudget) :
    AudioBudget × Option AudioFrame :=
  if front = 0 ∧ back = 0 then (budget, some frame)
  else
    let trimmed := trim frame front back budget
    (trimmed.1,
      match trimmed.2 with
      | .error _ => none
      | .ok out => if 0 < out.samples then some out else none)

/-- Hand over one frame by its own trims. -/
def Own.take (o : Own) (x : Entry) : Own :=
  let front := min (o.carry + x.start) x.frame.samples
  let done := cut x.frame front (min x.stop (x.frame.samples - front)) o.budget
  ⟨o.carry + x.start - front, done.1, o.handed ++ (done.2.map FrameData.audio).toList⟩

/-- Hand over some frames in order. -/
def Own.takeAll (budget : AudioBudget) (taken : List Entry) : Own :=
  taken.foldl Own.take ⟨0, budget, []⟩

def ownTrims (decode : List Packet → Packet → AudioFrame) (budget : AudioBudget)
    (packets : List Packet) : List FrameData :=
  (Own.takeAll budget (entries decode [] packets)).handed

def samplesOf (plane : Nat) (frames : List FrameData) : List Byte :=
  frames.flatMap fun frame =>
    match frame with
    | .audio a => (a.planes[plane]?).getD []
    | _ => []

/-! ## Runs -/

/-- The next packet, the end of the stream, or a receive whose loop goes round so many times at
most. -/
inductive GaplessCall where
  | send
  | sendEnd
  | receive (rounds : Nat)

/-- A run over some packets.  No function of the decoder reads `accepted` and `outstanding`, the
accepted packets and the frames still held. -/
structure Session (d : InnerDecoder) where
  decoder : GaplessDecoder d
  remaining : List Packet
  handed : List FrameData
  accepted : List Packet
  outstanding : List Entry

namespace Session

variable {d : InnerDecoder} (decode : List Packet → Packet → AudioFrame)

/-- Before the first call. -/
def start (d : InnerDecoder) (budget : AudioBudget) (packets : List Packet) : Session d where
  decoder := .new d budget
  remaining := packets
  handed := []
  accepted := []
  outstanding := []

/-- Send the next packet; one that is refused is offered again. -/
def send (s : Session d) : Session d :=
  match s.remaining with
  | [] => s
  | p :: rest =>
      let sent := s.decoder.sendPacket (some p)
      match sent.2 with
      | .error _ => { s with decoder := sent.1 }
      | .ok () =>
          { s with
            decoder := sent.1
            remaining := rest
            accepted := s.accepted ++ [p]
            outstanding := s.outstanding ++ [⟨decode s.accepted p, skipSamples p⟩] }

/-- Signal the end of the stream. -/
def sendEnd (s : Session d) : Session d :=
  { s with decoder := (s.decoder.sendPacket none).1 }

/-- One round of the loop of a receive, and whether the call is over. -/
def round (s : Session d) : Session d × Bool :=
  let done := s.decoder.round
  match done.2 with
  | .waiting _ => ({ s with decoder := done.1 }, true)
  | result =>
      ({ s with
        decoder := done.1
        handed := s.handed ++ result.frames
        outstanding := s.outstanding.tail }, result.isOver)

/-- Receive a frame. -/
def receive : Nat → Session d → Option (Session d)
  | 0, _ => none
  | rounds + 1, s => if s.round.2 then some s.round.1 else receive rounds s.round.1

/-- Perform a call. -/
def step (s : Session d) : GaplessCall → Option (Session d)
  | .send => some (s.send decode)
  | .sendEnd => some s.sendEnd
  | .receive rounds => s.receive rounds

/-- Perform some calls. -/
def run (s : Session d) (calls : List GaplessCall) : Option (Session d) :=
  calls.foldlM (step decode) s

/-- All packets have been accepted and all frames received. -/
def Complete (s : Session d) : Prop :=
  s.remaining = [] ∧ s.outstanding = []

/-! ## The condition -/

/-- A packet with trims is accepted only when the pending front trim drops every frame still to
come, or when it states nothing and no back trim is pending. -/
def SendTimely (s : Session d) : Prop :=
  ∀ p ∈ s.remaining.head?, (s.decoder.sendPacket (some p)).2 = .ok () →
    ∀ trims ∈ skipSamples p,
      s.decoder.pendingStart + trims.1 ≤ u64Max ∧
        (totalSamples s.outstanding ≤ s.decoder.pendingStart ∨
          trims = (0, 0) ∧ s.decoder.pendingEnd = 0)

instance (s : Session d) : Decidable s.SendTimely :=
  inferInstanceAs (Decidable (∀ p ∈ s.remaining.head?, (s.decoder.sendPacket (some p)).2 = .ok () →
    ∀ trims ∈ skipSamples p,
      s.decoder.pendingStart + trims.1 ≤ u64Max ∧
        (totalSamples s.outstanding ≤ s.decoder.pendingStart ∨
          trims = (0, 0) ∧ s.decoder.pendingEnd = 0)))

/-- A back trim pending at a receive was stated by the packet of the frame, or the frame is dropped.
-/
def NextTimely (g : GaplessDecoder d) : List Entry → Except Error FrameData → Prop
  | x :: rest, .ok _ =>
      x.frame.samples ≤ g.pendingStart ∨ g.pendingEnd = 0 ∨
        x.trims ≠ none ∧ ∀ y ∈ rest, y.trims = none
  | _, _ => True

instance (g : GaplessDecoder d) : ∀ outstanding received,
    Decidable (NextTimely g outstanding received)
  | x :: rest, .ok _ =>
      inferInstanceAs (Decidable
        (x.frame.samples ≤ g.pendingStart ∨ g.pendingEnd = 0 ∨
          x.trims ≠ none ∧ ∀ y ∈ rest, y.trims = none))
  | [], _ => isTrue trivial
  | _ :: _, .error _ => isTrue trivial

/-- The same for a round, which asks the decoder for a frame. -/
def RoundTimely (s : Session d) : Prop :=
  NextTimely s.decoder s.outstanding (d.receive s.decoder.inner).2

instance (s : Session d) : Decidable s.RoundTimely :=
  inferInstanceAs (Decidable (NextTimely s.decoder s.outstanding (d.receive s.decoder.inner).2))

/-- The same for every round of a receive. -/
def ReceiveTimely : Nat → Session d → Prop
  | 0, _ => True
  | rounds + 1, s => s.RoundTimely ∧ (s.round.2 = false → ReceiveTimely rounds s.round.1)

instance decidableReceiveTimely : ∀ rounds (s : Session d), Decidable (s.ReceiveTimely rounds)
  | 0, _ => isTrue trivial
  | rounds + 1, s =>
      have := decidableReceiveTimely rounds s.round.1
      inferInstanceAs (Decidable
        (s.RoundTimely ∧ (s.round.2 = false → ReceiveTimely rounds s.round.1)))

/-- A call meets the condition. -/
def CallTimely (s : Session d) : GaplessCall → Prop
  | .send => s.SendTimely
  | .sendEnd => True
  | .receive rounds => s.ReceiveTimely rounds

instance (s : Session d) : ∀ call, Decidable (s.CallTimely call)
  | .send => inferInstanceAs (Decidable s.SendTimely)
  | .sendEnd => isTrue trivial
  | .receive rounds => inferInstanceAs (Decidable (s.ReceiveTimely rounds))

/-- Every call of a run meets the condition. -/
def RunTimely : Session d → List GaplessCall → Prop
  | _, [] => True
  | s, call :: calls => s.CallTimely call ∧ ∀ s' ∈ s.step decode call, RunTimely s' calls

instance decidableRunTimely : ∀ (s : Session d) calls, Decidable (s.RunTimely decode calls)
  | _, [] => isTrue trivial
  | s, call :: calls =>
      have : DecidablePred fun s' : Session d => s'.RunTimely decode calls :=
        fun s' => decidableRunTimely s' calls
      inferInstanceAs (Decidable
        (s.CallTimely call ∧ ∀ s' ∈ s.step decode call, RunTimely decode s' calls))

theorem RoundTimely.next {s : Session d} (h : s.RoundTimely) {x : Entry} {rest : List Entry}
    (hout : s.outstanding = x :: rest) {frame : FrameData}
    (hreceived : (d.receive s.decoder.inner).2 = .ok frame) :
    x.frame.samples ≤ s.decoder.pendingStart ∨ s.decoder.pendingEnd = 0 ∨
      x.trims ≠ none ∧ ∀ y ∈ rest, y.trims = none := by
  rw [RoundTimely, hout, hreceived] at h
  exact h

end Session

/-! ## Frames on time -/

/-- A frame that is not dropped whole is followed by no front trim, and by no trims at all behind a
back trim of its own. -/
def OnTime : Nat → List Entry → Prop
  | _, [] => True
  | carry, x :: rest =>
      (x.frame.samples ≤ carry + x.start ∨
        totalStart rest = 0 ∧ (x.stop = 0 ∨ ∀ y ∈ rest, y.trims = none)) ∧
      OnTime (carry + x.start - x.frame.samples) rest

variable {carry : Nat} {held : List Entry} {x : Entry}

@[simp]
theorem totalStart_cons (x : Entry) (held : List Entry) :
    totalStart (x :: held) = x.start + totalStart held := by
  rw [totalStart, List.map_cons, List.sum_cons, totalStart]

@[simp]
theorem totalStart_concat (held : List Entry) (x : Entry) :
    totalStart (held ++ [x]) = totalStart held + x.start := by
  rw [totalStart, List.map_append, List.sum_append, List.map_singleton, List.sum_singleton,
    totalStart]

@[simp]
theorem totalSamples_cons (x : Entry) (held : List Entry) :
    totalSamples (x :: held) = x.frame.samples + totalSamples held := by
  rw [totalSamples, List.map_cons, List.sum_cons, totalSamples]

theorem OnTime.concat_none (h : OnTime carry held) (hx : x.trims = none) :
    OnTime carry (held ++ [x]) := by
  have hstart : x.start = 0 := by rw [Entry.start, hx]; rfl
  induction held generalizing carry with
  | nil => exact ⟨Or.inr ⟨rfl, Or.inl (by rw [Entry.stop, hx]; rfl)⟩, trivial⟩
  | cons y held ih =>
      refine ⟨h.1.imp_right ?_, ih h.2⟩
      rintro ⟨hzero, hstop⟩
      refine ⟨(totalStart_concat held x).trans (by rw [hzero, hstart]), hstop.imp_right ?_⟩
      intro hnone z hz
      rcases List.mem_append.mp hz with hz | hz
      · exact hnone z hz
      · rw [List.mem_singleton.mp hz]
        exact hx

theorem OnTime.concat_dropped (h : OnTime carry held)
    (hdropped : totalSamples held ≤ carry + totalStart held) :
    OnTime carry (held ++ [x]) := by
  induction held generalizing carry with
  | nil => exact ⟨Or.inr ⟨rfl, Or.inr (by simp)⟩, trivial⟩
  | cons y held ih =>
      rw [totalSamples_cons, totalStart_cons] at hdropped
      have hwhole : y.frame.samples ≤ carry + y.start := by
        rcases h.1 with hwhole | ⟨hzero, -⟩
        · exact hwhole
        · omega
      exact ⟨Or.inl hwhole, ih h.2 (by omega)⟩

/-- The trims that were stated last. -/
def lastTrims (held : List Entry) : Option (Nat × Nat) :=
  (held.filterMap Entry.trims).getLast?

theorem lastTrims_cons {trims : Nat × Nat} (h : lastTrims held = some trims) :
    lastTrims (x :: held) = some trims := by
  rw [lastTrims] at h ⊢
  cases hx : x.trims with
  | none => rwa [List.filterMap_cons_none hx]
  | some t => rw [List.filterMap_cons_some hx, List.getLast?_cons, h, Option.getD_some]

theorem lastTrims_of_none (h : ∀ y ∈ held, y.trims = none) :
    lastTrims (x :: held) = x.trims := by
  have hnone : held.filterMap Entry.trims = [] := List.filterMap_eq_nil_iff.mpr h
  rw [lastTrims]
  cases hx : x.trims with
  | none => rw [List.filterMap_cons_none hx, hnone, List.getLast?_nil]
  | some t => rw [List.filterMap_cons_some hx, hnone, List.getLast?_singleton]

theorem lastTrims_concat (held : List Entry) (x : Entry) :
    lastTrims (held ++ [x]) = x.trims.or (lastTrims held) := by
  rw [lastTrims, List.filterMap_append]
  cases hx : x.trims with
  | none => rw [List.filterMap_cons_none hx, List.filterMap_nil, List.append_nil, Option.none_or,
      lastTrims]
  | some t => rw [List.filterMap_cons_some hx, List.filterMap_nil, List.getLast?_append,
      List.getLast?_singleton, lastTrims]

theorem Entry.stop_eq {trims : Nat × Nat} (h : x.trims = some trims) : x.stop = trims.2 := by
  rw [Entry.stop, h]
  rfl

theorem OnTime.concat_zero (h : OnTime carry held) (hstart : x.start = 0)
    (hlast : ∀ trims, lastTrims held = some trims → trims.2 = 0) :
    OnTime carry (held ++ [x]) := by
  induction held generalizing carry with
  | nil => exact ⟨Or.inr ⟨rfl, Or.inr (by simp)⟩, trivial⟩
  | cons y held ih =>
      refine ⟨h.1.imp_right ?_, ih h.2 fun trims hsome => hlast trims (lastTrims_cons hsome)⟩
      rintro ⟨hzero, hstop⟩
      refine ⟨(totalStart_concat held x).trans (by rw [hzero, hstart]), Or.inl ?_⟩
      rcases hstop with hstop | hnone
      · exact hstop
      · cases hy : y.trims with
        | none => rw [Entry.stop, hy]; rfl
        | some trims =>
            rw [Entry.stop_eq hy]
            exact hlast trims ((lastTrims_of_none hnone).trans hy)

/-- What is pending at the front is what is carried with all front trims behind it, and what is
pending at the back was stated last. -/
structure Serves (carry : Nat) (held : List Entry) (pendingStart pendingEnd : Nat) : Prop where
  onTime : OnTime carry held
  front : pendingStart = carry + totalStart held
  back : ∀ trims, lastTrims held = some trims → pendingEnd = trims.2

/-- A frame that is not dropped whole is received under its own back trim. -/
theorem Serves.pendingEnd_eq {pendingStart pendingEnd : Nat}
    (h : Serves carry (x :: held) pendingStart pendingEnd)
    (hleft : carry + x.start < x.frame.samples)
    (htimely : x.frame.samples ≤ pendingStart ∨ pendingEnd = 0 ∨
      x.trims ≠ none ∧ ∀ y ∈ held, y.trims = none) :
    pendingEnd = x.stop := by
  have hfront := h.front
  rw [totalStart_cons] at hfront
  rcases h.onTime.1 with hwhole | ⟨hzero, hstop⟩
  · omega
  · -- The trims of a frame that no later packet has overwritten are in force.
    have hstated : x.trims ≠ none → (∀ y ∈ held, y.trims = none) → pendingEnd = x.stop := by
      intro hsome hnone
      rcases Option.ne_none_iff_exists'.mp hsome with ⟨trims, hx⟩
      rw [h.back trims ((lastTrims_of_none hnone).trans hx), Entry.stop_eq hx]
    rcases htimely with hwhole | hpending | ⟨hsome, hnone⟩
    · omega
    · rcases hstop with hstop | hnone
      · rw [hpending, hstop]
      · by_cases hsome : x.trims = none
        · rw [hpending, Entry.stop, hsome]
          rfl
        · exact hstated hsome hnone
    · exact hstated hsome hnone

/-- The counters cut the next frame by its own trims, and then serve the others. -/
theorem Serves.take {pendingStart pendingEnd : Nat}
    (h : Serves carry (x :: held) pendingStart pendingEnd)
    (htimely : x.frame.samples ≤ pendingStart ∨ pendingEnd = 0 ∨
      x.trims ≠ none ∧ ∀ y ∈ held, y.trims = none) :
    let front := min (carry + x.start) x.frame.samples
    let back := min x.stop (x.frame.samples - front)
    min pendingStart x.frame.samples = front ∧
      min pendingEnd (x.frame.samples - front) = back ∧
      Serves (carry + x.start - front) held (pendingStart - front) (pendingEnd - back) := by
  have hfront := h.front
  rw [totalStart_cons] at hfront
  intro front back
  by_cases hwhole : x.frame.samples ≤ carry + x.start
  · have hcut : front = x.frame.samples := Nat.min_eq_right hwhole
    have hback : back = 0 := by
      show min x.stop (x.frame.samples - front) = 0
      rw [hcut, Nat.sub_self, Nat.min_zero]
    refine ⟨by rw [hcut]; omega, by rw [hcut, Nat.sub_self, Nat.min_zero, hback], ?_⟩
    rw [hcut, hback]
    exact ⟨h.onTime.2, by omega, fun trims hlast => h.back trims (lastTrims_cons hlast)⟩
  · have hleft := not_le.mp hwhole
    have hcut : front = carry + x.start := Nat.min_eq_left hleft.le
    have hpending := h.pendingEnd_eq hleft htimely
    rcases h.onTime.1 with habsurd | ⟨hzero, hstop⟩
    · omega
    · refine ⟨by rw [hcut]; omega, by rw [hpending], ?_⟩
      have honTime := h.onTime.2
      rw [hcut, Nat.sub_self]
      rw [Nat.sub_eq_zero_of_le hleft.le] at honTime
      refine ⟨honTime, by omega, fun trims hlast => ?_⟩
      rcases hstop with hstop | hnone
      · have hback : back = 0 := by
          show min x.stop (x.frame.samples - front) = 0
          rw [hstop, Nat.zero_min]
        rw [hback, Nat.sub_zero]
        exact h.back trims (lastTrims_cons hlast)
      · have hnil : held.filterMap Entry.trims = [] := List.filterMap_eq_nil_iff.mpr hnone
        rw [lastTrims, hnil] at hlast
        cases hlast

/-- The counters go on serving the frames when a packet is accepted. -/
theorem Serves.bank {pendingStart pendingEnd : Nat}
    (h : Serves carry held pendingStart pendingEnd)
    (htimely : ∀ trims, x.trims = some trims →
      totalSamples held ≤ pendingStart ∨ trims = (0, 0) ∧ pendingEnd = 0) :
    Serves carry (held ++ [x]) (pendingStart + x.start)
      ((x.trims.map Prod.snd).getD pendingEnd) := by
  have hfront := h.front
  have hback : ∀ trims, lastTrims (held ++ [x]) = some trims →
      (x.trims.map Prod.snd).getD pendingEnd = trims.2 := by
    intro trims hlast
    rw [lastTrims_concat] at hlast
    cases hx : x.trims with
    | none =>
        rw [hx, Option.none_or] at hlast
        exact h.back trims hlast
    | some t =>
        rw [hx, Option.some_or, Option.some.injEq] at hlast
        rw [hlast]
        rfl
  refine ⟨?_, by rw [totalStart_concat]; omega, hback⟩
  cases hx : x.trims with
  | none => exact h.onTime.concat_none hx
  | some trims =>
      rcases htimely trims hx with hdropped | ⟨rfl, hzero⟩
      · exact h.onTime.concat_dropped (hfront ▸ hdropped)
      · refine h.onTime.concat_zero (by rw [Entry.start, hx]; rfl) fun trims hlast => ?_
        rw [← h.back trims hlast, hzero]

/-! ## What a call keeps -/

namespace GaplessDecoder

variable {d : InnerDecoder} {g : GaplessDecoder d}

/-- Spending the counters cuts the frame. -/
theorem spend_eq (g : GaplessDecoder d) (a : AudioFrame) :
    let front := min g.pendingStart a.samples
    let back := min g.pendingEnd (a.samples - front)
    (g.spend a).1 = { g with
      pendingStart := g.pendingStart - front
      pendingEnd := g.pendingEnd - back
      budget := (cut a front back g.budget).1 } ∧
    (g.spend a).2.frames = ((cut a front back g.budget).2.map FrameData.audio).toList ∧
    ∀ e, (g.spend a).2 ≠ .waiting e := by
  intro front back
  unfold spend cut
  dsimp only
  by_cases hnothing : front = 0 ∧ back = 0
  · rw [if_pos hnothing, if_pos hnothing]
    exact ⟨rfl, rfl, fun e h => by cases h⟩
  · rw [if_neg hnothing, if_neg hnothing]
    dsimp only
    cases (trim a front back g.budget).2 with
    | error e => exact ⟨rfl, rfl, fun e h => by cases h⟩
    | ok out =>
        by_cases hsome : 0 < out.samples
        · dsimp only
          rw [if_pos hsome, if_pos hsome]
          exact ⟨rfl, rfl, fun e h => by cases h⟩
        · dsimp only
          rw [if_neg hsome, if_neg hsome]
          exact ⟨rfl, rfl, fun e h => by cases h⟩

theorem sendPacket_accepted {packet : Option Packet} (h : (d.send g.inner packet).2 = .ok ()) :
    g.sendPacket packet =
      (({ g with inner := (d.send g.inner packet).1 } : GaplessDecoder d).bank packet,
        .ok ()) := by
  unfold sendPacket
  dsimp only
  rw [h]

theorem sendPacket_refused {packet : Option Packet} {e : Error}
    (h : (d.send g.inner packet).2 = .error e) :
    g.sendPacket packet = ({ g with inner := (d.send g.inner packet).1 }, .error e) := by
  unfold sendPacket
  dsimp only
  rw [h]

theorem bank_some (g : GaplessDecoder d) (p : Packet) (a : AudioFrame)
    (hfits : ∀ trims, skipSamples p = some trims → g.pendingStart + trims.1 ≤ u64Max) :
    g.bank (some p) = { g with
      pendingStart := g.pendingStart + (Entry.mk a (skipSamples p)).start
      pendingEnd := ((skipSamples p).map Prod.snd).getD g.pendingEnd } := by
  unfold bank Entry.start
  rw [Option.bind_some]
  cases htrims : skipSamples p with
  | none => rfl
  | some trims =>
      dsimp only
      rw [satAddU64_of_le (hfits trims htrims)]
      rfl

theorem round_audio {a : AudioFrame} (h : (d.receive g.inner).2 = .ok (.audio a)) :
    g.round = ({ g with inner := (d.receive g.inner).1 } : GaplessDecoder d).spend a := by
  unfold round
  dsimp only
  rw [h]
  dsimp only
  by_cases hnone : g.pendingStart = 0 ∧ g.pendingEnd = 0
  · rw [if_pos hnone]
    unfold spend
    dsimp only
    rw [hnone.1, hnone.2, Nat.zero_min, Nat.zero_min, if_pos ⟨rfl, rfl⟩]
  · rw [if_neg hnone]

theorem round_waiting {e : Error} (h : (d.receive g.inner).2 = .error e) :
    g.round = ({ g with inner := (d.receive g.inner).1 }, .waiting e) := by
  unfold round
  dsimp only
  rw [h]

end GaplessDecoder

theorem entries_concat (decode : List Packet → Packet → AudioFrame)
    (before packets : List Packet) (p : Packet) :
    entries decode before (packets ++ [p]) =
      entries decode before packets ++ [⟨decode (before ++ packets) p, skipSamples p⟩] := by
  induction packets generalizing before with
  | nil =>
      rw [List.append_nil]
      rfl
  | cons q packets ih =>
      rw [List.cons_append, entries, ih, entries, List.append_assoc, List.singleton_append,
        List.cons_append]

namespace Session

variable {d : InnerDecoder} {decode : List Packet → Packet → AudioFrame} {s s' : Session d}

/-- The frames taken so far were handed over by their own trims, and the counters serve the
others. -/
structure Timely (h : OneFrameEach d decode) (budget : AudioBudget) (packets : List Packet)
    (taken : List Entry) (s : Session d) : Prop where
  offered : s.accepted ++ s.remaining = packets
  listed : entries decode [] s.accepted = taken ++ s.outstanding
  holds : h.Holds s.decoder.inner s.accepted (s.outstanding.map Entry.frame)
  handed : s.handed = (Own.takeAll budget taken).handed
  charged : s.decoder.budget = (Own.takeAll budget taken).budget
  serves : Serves (Own.takeAll budget taken).carry s.outstanding
    s.decoder.pendingStart s.decoder.pendingEnd

variable {h : OneFrameEach d decode} {budget : AudioBudget} {packets : List Packet}
  {taken : List Entry}

theorem timely_start (h : OneFrameEach d decode) (budget : AudioBudget)
    (packets : List Packet) : Timely h budget packets [] (start d budget packets) where
  offered := rfl
  listed := rfl
  holds := h.start
  handed := rfl
  charged := rfl
  serves := ⟨trivial, rfl, fun trims hlast => by cases hlast⟩

theorem round_eq (hwaits : ∀ e, s.decoder.round.2 ≠ .waiting e) :
    s.round = ({ s with
      decoder := s.decoder.round.1
      handed := s.handed ++ s.decoder.round.2.frames
      outstanding := s.outstanding.tail }, s.decoder.round.2.isOver) := by
  unfold round
  dsimp only
  split
  · rename_i e hround
    exact absurd hround (hwaits e)
  · rfl

/-- A round takes the next frame by its own trims, or waits. -/
theorem Timely.round (ht : s.Timely h budget packets taken) (htimely : s.RoundTimely) :
    ∃ taken', s.round.1.Timely h budget packets taken' := by
  cases hreceived : (d.receive s.decoder.inner).2 with
  | error e =>
      refine ⟨taken, ?_⟩
      rw [Session.round, GaplessDecoder.round_waiting hreceived]
      exact ⟨ht.offered, ht.listed, h.waits _ _ _ e ht.holds hreceived, ht.handed, ht.charged,
        ht.serves⟩
  | ok frame =>
      rcases h.receives _ _ _ frame ht.holds hreceived with ⟨a, frames, rfl, hheld, hholds⟩
      rcases List.map_eq_cons_iff.mp hheld with ⟨x, rest, hout, rfl, rfl⟩
      have hserves := ht.serves
      rw [hout] at hserves
      rcases hserves.take (htimely.next hout hreceived) with ⟨hfront, hback, hserves⟩
      rcases GaplessDecoder.spend_eq
        { s.decoder with inner := (d.receive s.decoder.inner).1 } x.frame with
        ⟨hspend, hframes, hwaits⟩
      have hround := GaplessDecoder.round_audio hreceived
      dsimp only at hspend hframes
      rw [hfront, hback] at hspend hframes
      rw [← hround] at hspend hframes hwaits
      have htaken : Own.takeAll budget (taken ++ [x]) =
          (Own.takeAll budget taken).take x := by
        rw [Own.takeAll, List.foldl_append, Own.takeAll]
        rfl
      refine ⟨taken ++ [x], ?_⟩
      rw [round_eq hwaits, hspend, hframes, hout, List.tail_cons]
      refine ⟨ht.offered, ?_, hholds, ?_, ?_, ?_⟩
      · rw [ht.listed, hout, List.append_assoc, List.singleton_append]
      · rw [htaken]
        dsimp only
        rw [ht.handed, ht.charged]
        rfl
      · rw [htaken]
        dsimp only
        rw [ht.charged]
        rfl
      · rw [htaken]
        exact hserves

theorem Timely.receive {rounds : Nat} (ht : s.Timely h budget packets taken)
    (htimely : s.ReceiveTimely rounds) (hreceive : s.receive rounds = some s') :
    ∃ taken', s'.Timely h budget packets taken' := by
  induction rounds generalizing s taken with
  | zero => cases hreceive
  | succ rounds ih =>
      rcases ht.round htimely.1 with ⟨taken', ht'⟩
      rw [Session.receive] at hreceive
      cases hover : s.round.2 with
      | true =>
          rw [if_pos hover, Option.some.injEq] at hreceive
          rw [← hreceive]
          exact ⟨taken', ht'⟩
      | false =>
          rw [if_neg (by rw [hover]; exact Bool.false_ne_true)] at hreceive
          exact ih ht' (htimely.2 hover) hreceive

/-- A send leaves the counters in the service of the frames. -/
theorem Timely.send (ht : s.Timely h budget packets taken) (htimely : s.SendTimely) :
    (s.send decode).Timely h budget packets taken := by
  unfold Session.send
  split
  · exact ht
  · rename_i p rest hremaining
    have hoffered := ht.offered
    rw [hremaining] at hoffered
    dsimp only
    cases hsent : (d.send s.decoder.inner (some p)).2 with
    | error e =>
        rw [GaplessDecoder.sendPacket_refused hsent]
        exact ⟨ht.offered, ht.listed, h.refuses _ _ _ p e ht.holds hsent, ht.handed, ht.charged,
          ht.serves⟩
    | ok accepted =>
        have hsend := GaplessDecoder.sendPacket_accepted hsent
        have hcondition := htimely p (by rw [hremaining]; rfl) (by rw [hsend])
        have hbank := GaplessDecoder.bank_some
          { s.decoder with inner := (d.send s.decoder.inner (some p)).1 } p (decode s.accepted p)
          fun trims htrims => (hcondition trims htrims).1
        have hserves := ht.serves.bank (x := ⟨decode s.accepted p, skipSamples p⟩)
          fun trims htrims => (hcondition trims htrims).2
        rw [hsend, hbank]
        refine ⟨?_, ?_, ?_, ht.handed, ht.charged, hserves⟩
        · dsimp only
          rw [List.append_assoc, List.singleton_append]
          exact hoffered
        · dsimp only
          rw [entries_concat, ht.listed, List.append_assoc, List.nil_append]
        · dsimp only
          rw [List.map_append, List.map_singleton]
          exact h.accepts _ _ _ p ht.holds hsent

theorem Timely.sendEnd (ht : s.Timely h budget packets taken) :
    s.sendEnd.Timely h budget packets taken := by
  have hends := h.ends _ _ _ ht.holds
  unfold Session.sendEnd
  cases hsent : (d.send s.decoder.inner none).2 with
  | error e =>
      rw [GaplessDecoder.sendPacket_refused hsent]
      exact ⟨ht.offered, ht.listed, hends, ht.handed, ht.charged, ht.serves⟩
  | ok accepted =>
      rw [GaplessDecoder.sendPacket_accepted hsent]
      exact ⟨ht.offered, ht.listed, hends, ht.handed, ht.charged, ht.serves⟩

/-- A call that meets the condition keeps the frames on time. -/
theorem Timely.call {call : GaplessCall} (ht : s.Timely h budget packets taken)
    (htimely : s.CallTimely call) (hstep : s.step decode call = some s') :
    ∃ taken', s'.Timely h budget packets taken' := by
  cases call with
  | send =>
      rw [step, Option.some.injEq] at hstep
      rw [← hstep]
      exact ⟨taken, ht.send htimely⟩
  | sendEnd =>
      rw [step, Option.some.injEq] at hstep
      rw [← hstep]
      exact ⟨taken, ht.sendEnd⟩
  | receive rounds => exact ht.receive htimely hstep

theorem Timely.run {calls : List GaplessCall} (ht : s.Timely h budget packets taken)
    (htimely : s.RunTimely decode calls) (hrun : s.run decode calls = some s') :
    ∃ taken', s'.Timely h budget packets taken' := by
  induction calls generalizing s taken with
  | nil =>
      rw [Session.run, List.foldlM_nil, Option.pure_def, Option.some.injEq] at hrun
      rw [← hrun]
      exact ⟨taken, ht⟩
  | cons call calls ih =>
      rw [Session.run, List.foldlM_cons, Option.bind_eq_bind, Option.bind_eq_some_iff] at hrun
      rcases hrun with ⟨t, hstep, hrest⟩
      rcases ht.call htimely.1 hstep with ⟨taken', ht'⟩
      exact ih ht' (htimely.2 t hstep) hrest

theorem Timely.complete (ht : s.Timely h budget packets taken) (hdone : s.Complete) :
    s.handed = ownTrims decode budget packets := by
  have hoffered := ht.offered
  have hlisted := ht.listed
  rw [hdone.1, List.append_nil] at hoffered
  rw [hdone.2, List.append_nil, hoffered] at hlisted
  rw [ht.handed, ownTrims, hlisted]

end Session

/-- Timely runs over the same packets hand over the same samples, those each frame keeps by its own
trims. -/
theorem gapless_interleavings {d : InnerDecoder} {decode : List Packet → Packet → AudioFrame}
    (h : OneFrameEach d decode) (budget : AudioBudget) (packets : List Packet)
    {calls₁ calls₂ : List GaplessCall} {s₁ s₂ : Session d}
    (hrun₁ : (Session.start d budget packets).run decode calls₁ = some s₁)
    (htimely₁ : (Session.start d budget packets).RunTimely decode calls₁)
    (hdone₁ : s₁.Complete)
    (hrun₂ : (Session.start d budget packets).run decode calls₂ = some s₂)
    (htimely₂ : (Session.start d budget packets).RunTimely decode calls₂)
    (hdone₂ : s₂.Complete) :
    (∀ plane, samplesOf plane s₁.handed = samplesOf plane s₂.handed) ∧
      s₁.handed = ownTrims decode budget packets ∧
      s₂.handed = ownTrims decode budget packets := by
  have hstart := Session.timely_start h budget packets
  rcases hstart.run htimely₁ hrun₁ with ⟨taken₁, ht₁⟩
  rcases hstart.run htimely₂ hrun₂ with ⟨taken₂, ht₂⟩
  have hhanded₁ := ht₁.complete hdone₁
  have hhanded₂ := ht₂.complete hdone₂
  exact ⟨fun plane => by rw [hhanded₁, hhanded₂], hhanded₁, hhanded₂⟩

/-! ## Decoders that queue -/

/-- The payload of a packet as a frame of one channel. -/
def payloadFrame (_ : List Packet) (p : Packet) : AudioFrame :=
  ⟨.u8, 44100, p.data.length, 1, [p.data]⟩

/-- A decoder that turns payloads into frames, and queues the frames until they are
received. -/
def queueing : InnerDecoder where
  State := List AudioFrame
  init := []
  send := fun held packet => (held ++ (packet.map (payloadFrame [])).toList, .ok ())
  receive := fun held =>
    match held with
    | [] => ([], .error .needMoreInput)
    | a :: rest => (rest, .ok (.audio a))
  flush := fun _ => []

/-- It produces one frame for each packet. -/
def queueing_oneFrameEach : OneFrameEach queueing payloadFrame where
  Holds := fun held _ frames => held = frames
  start := rfl
  accepts := fun _ _ _ _ h _ => by rw [← h]; rfl
  refuses := fun _ _ _ _ _ _ hrefused => by cases hrefused
  ends := fun held _ _ h => (List.append_nil held).trans h
  receives := fun held _ frames frame h hreceived => by
    cases held with
    | nil => cases hreceived
    | cons a rest =>
        cases hreceived
        exact ⟨a, rest, rfl, h.symm, rfl⟩
  waits := fun held _ _ _ h hreceived => by
    cases held with
    | nil => exact h
    | cons a rest => cases hreceived

/-- A packet that states trims. -/
def trimmedPacket (data : List Byte) (start stop : BitVec 32) : Packet :=
  { Packet.empty with
    data := data
    len := data.length
    sideDataEntries := [.skipSamples start stop 0 0] }

/-- A packet that states none. -/
def plainPacket (data : List Byte) : Packet :=
  { Packet.empty with
    data := data
    len := data.length }

/-- A budget that no trim of these packets exceeds. -/
def ampleBudget : AudioBudget where
  budget := Sched.Budget.new ⟨1000000, 1000000, by decide⟩
  maxChannels := 8

/-- The samples on the first plane behind some calls. -/
def samplesAfter (packets : List Packet) (calls : List GaplessCall) : Option (List Byte) :=
  ((Session.start queueing ampleBudget packets).run payloadFrame calls).map fun s =>
    samplesOf 0 s.handed

/-- A front trim wider than its frame, and a back trim later. -/
def widePackets : List Packet :=
  [trimmedPacket [1, 2] 3 0, plainPacket [3, 4], trimmedPacket [5, 6] 0 1]

/-- The packets received two at once, and one by one. -/
theorem gapless_interleavings_widePackets :
    ∃ s₁ s₂,
      (Session.start queueing ampleBudget widePackets).run payloadFrame
          [.send, .send, .receive 2, .send, .receive 1] = some s₁ ∧
      (Session.start queueing ampleBudget widePackets).run payloadFrame
          [.send, .receive 2, .send, .receive 1, .send, .receive 1] = some s₂ ∧
      (∀ plane, samplesOf plane s₁.handed = samplesOf plane s₂.handed) ∧
      s₁.handed = ownTrims payloadFrame ampleBudget widePackets ∧
      s₂.handed = ownTrims payloadFrame ampleBudget widePackets := by
  have hahead : (Session.start queueing ampleBudget widePackets).RunTimely payloadFrame
      [.send, .send, .receive 2, .send, .receive 1] := by decide
  have hsingle : (Session.start queueing ampleBudget widePackets).RunTimely payloadFrame
      [.send, .receive 2, .send, .receive 1, .send, .receive 1] := by decide
  exact ⟨_, _, rfl, rfl, gapless_interleavings queueing_oneFrameEach ampleBudget widePackets
    rfl hahead ⟨rfl, rfl⟩ rfl hsingle ⟨rfl, rfl⟩⟩

/-- Sending ahead takes the back trim of a packet from the frame before it, or from the one behind.
-/
theorem not_gapless_interleavings :
    (¬ ∀ (d : InnerDecoder) (decode : List Packet → Packet → AudioFrame)
        (_ : OneFrameEach d decode) (budget : AudioBudget) (packets : List Packet)
        (calls₁ calls₂ : List GaplessCall) (s₁ s₂ : Session d),
        (Session.start d budget packets).run decode calls₁ = some s₁ → s₁.Complete →
        (Session.start d budget packets).run decode calls₂ = some s₂ → s₂.Complete →
        ∀ plane, samplesOf plane s₁.handed = samplesOf plane s₂.handed) ∧
    samplesAfter [trimmedPacket [1, 2] 2 1, plainPacket [3, 4]]
      [.send, .receive 2, .send, .receive 1] = some [3] ∧
    samplesOf 0 (ownTrims payloadFrame ampleBudget
      [trimmedPacket [1, 2] 2 1, plainPacket [3, 4]]) = [3, 4] := by
  refine ⟨fun h => ?_, by decide, by decide⟩
  have hsame := h queueing payloadFrame queueing_oneFrameEach ampleBudget
    [plainPacket [1, 2], trimmedPacket [3, 4] 0 1] [.send, .receive 1, .send, .receive 1]
    [.send, .send, .receive 1, .receive 1] _ _ rfl ⟨rfl, rfl⟩ rfl ⟨rfl, rfl⟩ 0
  revert hsame
  decide

end Codec
end Vaco
