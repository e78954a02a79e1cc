import Mathlib.Tactic
import Vaco.Library.BitStream

/-!
# SRT message reassembly

Message mode of the SRT protocol: an application message travels as one
packet or as a first, some middle and a last packet over consecutive sequence
numbers.  The reassembler is fed what the receive window delivers and what it
gave up on, in sequence order, and collects the parts of each message by its
message number.

Main results:

- `SentMessage.feed_eq`: what one message does.
- `completed_exactly_whole_messages`: when exactly the whole messages complete.

Current gaps:

- The transmission mode bit of the handshake is outside this module: only
  message mode reaches the reassembler.
-/

namespace Vaco
namespace Srt

open Library.BitStream

/-- Where a data packet stands in its message. -/
inductive PacketPosition where
  | middle
  | last
  | first
  | single
  deriving DecidableEq, Repr

/-- One reassembly outcome. -/
inductive MessageEvent where
  | complete (msgNo : ℕ) (payload : Bytes)
  | dropped (msgNo : ℕ)
  deriving DecidableEq, Repr

/-- The parts of a message received so far. -/
structure InProgress where
  parts : List Bytes
  deriving DecidableEq, Repr

/-- The default accumulation holds no part. -/
def InProgress.default : InProgress where
  parts := []

/-- Reassembles data packet deliveries into whole messages. -/
structure MessageReassembler where
  inProgress : Std.ExtTreeMap ℕ InProgress

namespace MessageReassembler

/-- A reassembler that has seen nothing. -/
def new : MessageReassembler where
  inProgress := ∅

/-- Feed one packet the receive window delivered. -/
def onDelivered (r : MessageReassembler) (position : PacketPosition) (msgNo : ℕ)
    (payload : Bytes) : MessageReassembler × Option MessageEvent :=
  match position with
  | .single => (r, some (.complete msgNo payload))
  | .first => (⟨r.inProgress.insert msgNo ⟨[payload]⟩⟩, none)
  | .middle =>
    let entry := r.inProgress[msgNo]?.getD InProgress.default
    (⟨r.inProgress.insert msgNo ⟨entry.parts ++ [payload]⟩⟩, none)
  | .last =>
    let entry := r.inProgress[msgNo]?.getD InProgress.default
    (⟨r.inProgress.erase msgNo⟩, some (.complete msgNo (entry.parts ++ [payload]).flatten))

/-- The receive window gave up on a packet of message `msgNo`. -/
def onSeqDropped (r : MessageReassembler) (msgNo : ℕ) :
    MessageReassembler × Option MessageEvent :=
  (⟨r.inProgress.erase msgNo⟩, r.inProgress[msgNo]?.map fun _ => .dropped msgNo)

end MessageReassembler

/-- A packet as it was sent, with the receive window's verdict on it. -/
structure SentPacket where
  payload : Bytes
  dropped : Bool
  deriving DecidableEq, Repr

/-- How a message is split into packets. -/
inductive MessageSplit where
  | single (packet : SentPacket)
  | parts (first : SentPacket) (middles : List SentPacket) (last : SentPacket)
  deriving DecidableEq, Repr

/-- A message of the sender. -/
structure SentMessage where
  msgNo : ℕ
  split : MessageSplit
  deriving DecidableEq, Repr

/-- A sent packet with the header fields the reassembler reads. -/
structure Arrival where
  position : PacketPosition
  msgNo : ℕ
  packet : SentPacket
  deriving DecidableEq, Repr

namespace SentMessage

/-- The packets of a message, in sequence order. -/
def packets (m : SentMessage) : List SentPacket :=
  match m.split with
  | .single packet => [packet]
  | .parts first middles last => first :: (middles ++ [last])

/-- The final packet of a message. -/
def lastPacket (m : SentMessage) : SentPacket :=
  match m.split with
  | .single packet => packet
  | .parts _ _ last => last

/-- The packets of a message with their header fields, in sequence order. -/
def arrivals (m : SentMessage) : List Arrival :=
  match m.split with
  | .single packet => [⟨.single, m.msgNo, packet⟩]
  | .parts first middles last =>
    ⟨.first, m.msgNo, first⟩ ::
      (middles.map (fun packet => ⟨.middle, m.msgNo, packet⟩) ++ [⟨.last, m.msgNo, last⟩])

/-- The application's payload. -/
def payload (m : SentMessage) : Bytes :=
  (m.packets.map (·.payload)).flatten

/-- No packet of the message was dropped. -/
def Whole (m : SentMessage) : Prop :=
  ∀ packet ∈ m.packets, packet.dropped = false

instance (m : SentMessage) : Decidable m.Whole :=
  inferInstanceAs (Decidable (∀ packet ∈ m.packets, packet.dropped = false))

theorem Whole.lastPacket {m : SentMessage} (h : m.Whole) : m.lastPacket.dropped = false := by
  rcases m with ⟨msgNo, packet | ⟨first, middles, last⟩⟩
  · exact h packet (by simp [packets])
  · exact h last (by simp [packets])

end SentMessage

namespace MessageReassembler

/-- One step of a run: the packet if it was delivered, else the drop notice. -/
def onArrival (r : MessageReassembler) (a : Arrival) :
    MessageReassembler × Option MessageEvent :=
  if a.packet.dropped then r.onSeqDropped a.msgNo
  else r.onDelivered a.position a.msgNo a.packet.payload

/-- Feeds a sequence of packets and drop notices, collecting the events. -/
def feed (r : MessageReassembler) : List Arrival → MessageReassembler × List MessageEvent
  | [] => (r, [])
  | a :: rest =>
    let step := r.onArrival a
    let later := step.1.feed rest
    (later.1, step.2.toList ++ later.2)

@[simp]
theorem feed_nil (r : MessageReassembler) : r.feed [] = (r, []) :=
  rfl

theorem feed_cons (r : MessageReassembler) (a : Arrival) (rest : List Arrival) :
    r.feed (a :: rest) =
      (((r.onArrival a).1.feed rest).1,
        (r.onArrival a).2.toList ++ ((r.onArrival a).1.feed rest).2) :=
  rfl

theorem feed_append (r : MessageReassembler) (xs ys : List Arrival) :
    r.feed (xs ++ ys) =
      (((r.feed xs).1.feed ys).1, (r.feed xs).2 ++ ((r.feed xs).1.feed ys).2) := by
  induction xs generalizing r with
  | nil => simp
  | cons a xs ih =>
    rw [List.cons_append, feed_cons, feed_cons, ih]
    simp

/-- The reassembler while one message is on its way: nothing else is held. -/
def holding (msgNo : ℕ) : Option (List Bytes) → MessageReassembler
  | none => new
  | some parts => ⟨(∅ : Std.ExtTreeMap ℕ InProgress).insert msgNo ⟨parts⟩⟩

def heldAfter (held : Option (List Bytes)) (packet : SentPacket) :
    Option (List Bytes) :=
  if packet.dropped then none else some (held.getD [] ++ [packet.payload])

end MessageReassembler

def completions (events : List MessageEvent) : List (ℕ × Bytes) :=
  events.filterMap fun
    | .complete msgNo payload => some (msgNo, payload)
    | .dropped _ => none

theorem completions_append (xs ys : List MessageEvent) :
    completions (xs ++ ys) = completions xs ++ completions ys :=
  List.filterMap_append

namespace MessageReassembler

@[simp]
theorem holding_none (msgNo : ℕ) : holding msgNo none = new :=
  rfl

theorem holding_getElem? (msgNo : ℕ) (held : Option (List Bytes)) :
    (holding msgNo held).inProgress[msgNo]? = held.map InProgress.mk := by
  rcases held with _ | parts
  · simp [holding, new]
  · simp [holding]

theorem holding_erase (msgNo : ℕ) (held : Option (List Bytes)) :
    (holding msgNo held).inProgress.erase msgNo = ∅ := by
  apply Std.ExtTreeMap.ext_getElem?
  intro k
  rcases held with _ | parts
  · simp [holding, new]
  · rw [Std.ExtTreeMap.getElem?_erase]
    by_cases hk : msgNo = k
    · simp [hk]
    · simp [holding, hk]

theorem holding_insert (msgNo : ℕ) (held : Option (List Bytes))
    (parts : List Bytes) :
    (⟨(holding msgNo held).inProgress.insert msgNo ⟨parts⟩⟩ : MessageReassembler) =
      holding msgNo (some parts) := by
  rcases held with _ | old
  · rfl
  · unfold holding
    congr 1
    apply Std.ExtTreeMap.ext_getElem?
    intro k
    by_cases hk : msgNo = k
    · simp [hk]
    · simp [hk]

theorem holding_dropped (msgNo : ℕ) (held : Option (List Bytes))
    (position : PacketPosition) (packet : SentPacket) (h : packet.dropped = true) :
    ((holding msgNo held).onArrival ⟨position, msgNo, packet⟩).1 = holding msgNo none ∧
      completions ((holding msgNo held).onArrival ⟨position, msgNo, packet⟩).2.toList = [] := by
  simp only [onArrival, h, if_true, onSeqDropped, holding_erase, holding_getElem?]
  refine ⟨rfl, ?_⟩
  rcases held with _ | parts
  · rfl
  · rfl

theorem holding_first (msgNo : ℕ) (packet : SentPacket) :
    ((holding msgNo none).onArrival ⟨.first, msgNo, packet⟩).1 =
        holding msgNo (heldAfter none packet) ∧
      completions ((holding msgNo none).onArrival ⟨.first, msgNo, packet⟩).2.toList = [] := by
  rcases h : packet.dropped with _ | _
  · simp only [onArrival, h, onDelivered, heldAfter]
    exact ⟨rfl, rfl⟩
  · simpa [heldAfter, h] using holding_dropped msgNo none .first packet h

theorem holding_middle (msgNo : ℕ) (held : Option (List Bytes)) (packet : SentPacket) :
    ((holding msgNo held).onArrival ⟨.middle, msgNo, packet⟩).1 =
        holding msgNo (heldAfter held packet) ∧
      completions ((holding msgNo held).onArrival ⟨.middle, msgNo, packet⟩).2.toList = [] := by
  rcases h : packet.dropped with _ | _
  · have hparts : ((held.map InProgress.mk).getD InProgress.default).parts = held.getD [] := by
      rcases held with _ | parts
      · rfl
      · rfl
    simp only [onArrival, h, onDelivered, heldAfter, holding_getElem?, hparts]
    exact ⟨holding_insert msgNo held _, rfl⟩
  · simpa [heldAfter, h] using holding_dropped msgNo held .middle packet h

theorem holding_last (msgNo : ℕ) (held : Option (List Bytes)) (packet : SentPacket) :
    ((holding msgNo held).onArrival ⟨.last, msgNo, packet⟩).1 = new ∧
      completions ((holding msgNo held).onArrival ⟨.last, msgNo, packet⟩).2.toList =
        if packet.dropped then []
        else [(msgNo, (held.getD [] ++ [packet.payload]).flatten)] := by
  rcases h : packet.dropped with _ | _
  · have hparts : ((held.map InProgress.mk).getD InProgress.default).parts = held.getD [] := by
      rcases held with _ | parts
      · rfl
      · rfl
    simp only [onArrival, h, onDelivered, holding_getElem?, holding_erase, hparts]
    exact ⟨rfl, rfl⟩
  · simpa [h] using holding_dropped msgNo held .last packet h

theorem feed_middles (msgNo : ℕ) (middles : List SentPacket)
    (held : Option (List Bytes)) :
    ((holding msgNo held).feed (middles.map fun packet => ⟨.middle, msgNo, packet⟩)).1 =
        holding msgNo (middles.foldl heldAfter held) ∧
      completions
        ((holding msgNo held).feed (middles.map fun packet => ⟨.middle, msgNo, packet⟩)).2 = [] := by
  induction middles generalizing held with
  | nil => exact ⟨rfl, rfl⟩
  | cons packet middles ih =>
    rcases holding_middle msgNo held packet with ⟨hstate, hevents⟩
    rcases ih (heldAfter held packet) with ⟨ihstate, ihevents⟩
    rw [List.map_cons, feed_cons, hstate, completions_append, hevents, ihevents]
    exact ⟨ihstate, rfl⟩

theorem foldl_heldAfter (packets : List SentPacket) (parts : List Bytes)
    (h : ∀ packet ∈ packets, packet.dropped = false) :
    packets.foldl heldAfter (some parts) = some (parts ++ packets.map (·.payload)) := by
  induction packets generalizing parts with
  | nil => simp
  | cons packet packets ih =>
    have hpacket : heldAfter (some parts) packet = some (parts ++ [packet.payload]) := by
      simp [heldAfter, h packet (by simp)]
    rw [List.foldl_cons, hpacket, ih _ fun q hq => h q (by simp [hq])]
    simp

end MessageReassembler

open MessageReassembler

namespace SentMessage

/-- The payload the reassembler completes the message with: what arrived since
the last drop. -/
def assembled (m : SentMessage) : Bytes :=
  match m.split with
  | .single packet => packet.payload
  | .parts first middles last =>
    ((middles.foldl heldAfter (heldAfter none first)).getD [] ++ [last.payload]).flatten

/-- A whole message leaves the reassembler empty, and completes iff its final packet was delivered.
-/
theorem feed_eq (m : SentMessage) :
    (new.feed m.arrivals).1 = new ∧
      completions (new.feed m.arrivals).2 =
        if m.lastPacket.dropped then [] else [(m.msgNo, m.assembled)] := by
  rcases m with ⟨msgNo, packet | ⟨first, middles, last⟩⟩
  · rcases h : packet.dropped with _ | _
    · simp [arrivals, feed_cons, onArrival, onDelivered, h, lastPacket, assembled, completions]
    · have hsingle := holding_dropped msgNo none .single packet h
      simpa [arrivals, feed_cons, lastPacket, h] using hsingle
  · rcases holding_first msgNo first with ⟨hfirst, hfirstEvents⟩
    rcases feed_middles msgNo middles (heldAfter none first) with ⟨hmiddles, hmiddleEvents⟩
    rcases holding_last msgNo (middles.foldl heldAfter (heldAfter none first)) last with
      ⟨hlast, hlastEvents⟩
    change (holding msgNo none |>.feed _).1 = new ∧ completions (holding msgNo none |>.feed _).2 = _
    simp only [arrivals, feed_cons, feed_append, feed_nil, hfirst, hmiddles, completions_append,
      hfirstEvents, hmiddleEvents, List.append_nil, List.nil_append]
    exact ⟨hlast, hlastEvents⟩

theorem Whole.assembled_eq {m : SentMessage} (h : m.Whole) : m.assembled = m.payload := by
  rcases m with ⟨msgNo, packet | ⟨first, middles, last⟩⟩
  · simp [assembled, payload, packets]
  · have hfirst : heldAfter none first = some [first.payload] := by
      simp [heldAfter, h first (by simp [packets])]
    have hmiddles := foldl_heldAfter middles [first.payload]
      fun packet hpacket => h packet (by simp [packets, hpacket])
    simp [assembled, payload, packets, hfirst, hmiddles]

end SentMessage

theorem completions_feed (messages : List SentMessage) :
    completions (new.feed (messages.flatMap SentMessage.arrivals)).2 =
      (messages.filter fun m => !m.lastPacket.dropped).map fun m => (m.msgNo, m.assembled) := by
  induction messages with
  | nil => rfl
  | cons m messages ih =>
    rcases m.feed_eq with ⟨hstate, hevents⟩
    rw [List.flatMap_cons, feed_append, completions_append, hstate, hevents, ih]
    rcases h : m.lastPacket.dropped with _ | _
    · simp [h]
    · simp [h]

/-- The property asked of a run: exactly the messages delivered whole are
completed, in order and with their payload. -/
def CompletesWholeMessages (messages : List SentMessage) : Prop :=
  completions (new.feed (messages.flatMap SentMessage.arrivals)).2 =
    (messages.filter fun m => decide m.Whole).map fun m => (m.msgNo, m.payload)

instance (messages : List SentMessage) : Decidable (CompletesWholeMessages messages) :=
  inferInstanceAs (Decidable (_ = _))

/-- Exactly the messages delivered whole are completed if and only if no
message lost a packet while its final one was delivered. -/
theorem completed_exactly_whole_messages (messages : List SentMessage) :
    CompletesWholeMessages messages ↔
      ∀ m ∈ messages, m.lastPacket.dropped = false → m.Whole := by
  unfold CompletesWholeMessages
  rw [completions_feed]
  constructor
  · intro h m hm hlast
    have hsub : List.Sublist (messages.filter fun m => decide m.Whole)
        (messages.filter fun m => !m.lastPacket.dropped) := by
      apply List.monotone_filter_right
      intro a ha
      simpa using (of_decide_eq_true ha).lastPacket
    have hlength := congrArg List.length h
    rw [List.length_map, List.length_map] at hlength
    have heq := hsub.eq_of_length hlength.symm
    have hmem : m ∈ messages.filter fun m => !m.lastPacket.dropped := by
      simp [hm, hlast]
    rw [← heq] at hmem
    simpa using (List.mem_filter.mp hmem).2
  · intro h
    have hfilter : (messages.filter fun m => !m.lastPacket.dropped) =
        messages.filter fun m => decide m.Whole := by
      apply List.filter_congr
      intro m hm
      by_cases hwhole : m.Whole
      · simp [hwhole, hwhole.lastPacket]
      · have hlast : ¬ m.lastPacket.dropped = false := fun hlast => hwhole (h m hm hlast)
        simp [hwhole, hlast]
    rw [hfilter]
    apply List.map_congr_left
    intro m hm
    have hwhole : m.Whole := by simpa using (List.mem_filter.mp hm).2
    rw [hwhole.assembled_eq]

/-- A message of three packets whose middle one is dropped completes all the
same, without the dropped part. -/
theorem not_completes_middle_dropped :
    ¬ CompletesWholeMessages
        [⟨9, .parts ⟨[1], false⟩ [⟨[2], true⟩] ⟨[3], false⟩⟩] := by
  decide

end Srt
end Vaco
