import Vaco.Srt.ReceiveRuns
import Vaco.Srt.SendWindow

/-!
# A send window and a receive window joined by a link

The sender numbers its packets modulo 2^31 from an initial sequence number.  The
link keeps everything ever put on it: a message may be carried to its
destination at any time, any number of times, or never.  The receiver reports
losses when it notices them and on every tick, and acknowledges the number it
expects next.

Main results:

- `Link.Linked.step`: what holds of both windows and everything on the link, kept by every step as
  long as no number wraps.
- `Link.Linked.deliversArrived`: after a tick of the receiver the packets that arrived with all
  before them are delivered.
- `link_delivers_in_order`: in every run in which losses are repaired in time and no sequence number
  wraps, the payloads are delivered in order, each exactly once, and every packet not delivered
  stays with the sender.
-/

namespace Vaco
namespace Srt

open Library Library.BitStream Library.Timeline

/-- A message on the link. -/
inductive WireMessage where
  | data (seqNo : ℕ) (payload : Bytes)
  | nak (cif : Bytes)
  | ack (lastAckSeqNo : ℕ)
  deriving DecidableEq, Repr

/-- Both windows, everything ever put on the link between them, and the history of the run. -/
structure Link where
  initialSeqNo : ℕ
  sender : SendWindow
  receiver : ReceiverRun
  wire : List WireMessage
  sent : List Bytes
  log : List ReceiveCall
  arrived : List ℕ

/-- One step of the two parties or of the link. -/
inductive LinkAction where
  | send (payload : Bytes) (timestamp nowMs : ℕ)
  | carry (message nowMs : ℕ)
  | senderTick (nowMs : ℕ)
  | receiverTick (nowMs : ℕ)
  | acknowledge
  deriving DecidableEq, Repr

/-- Retransmissions on the link. -/
def dataMessages (resent : List (ℕ × ℕ × Bytes)) : List WireMessage :=
  resent.map fun packet => .data packet.1 packet.2.2

/-- A loss report on the link, unless nothing is missing. -/
def nakMessages (lost : List ℕ) : List WireMessage :=
  if lost.isEmpty then [] else [.nak (serializeNakCif lost)]

namespace Link

/-- Both windows before the first packet. -/
def start (rtoMs latencyMs initialSeqNo : ℕ) : Link where
  initialSeqNo := initialSeqNo
  sender := SendWindow.new rtoMs
  receiver := ⟨ReceiveWindow.new latencyMs initialSeqNo, [], []⟩
  wire := []
  sent := []
  log := []
  arrived := []

/-- The sequence number of the packet at an index. -/
def seqOf (s : Link) (index : ℕ) : ℕ :=
  (s.initialSeqNo + index) % seqModulus

/-- The packets sent so far that a data message is a copy of. -/
def copied (s : Link) (seqNo : ℕ) (payload : Bytes) : List ℕ :=
  (List.range s.sent.length).filter fun index =>
    decide (s.seqOf index = seqNo) && decide (s.sent[index]? = some payload)

/-- A message reaches its destination. -/
def receive (s : Link) (nowMs : ℕ) : WireMessage → Link
  | .data seqNo payload =>
    { s with
      receiver := s.receiver.step (.arrival seqNo payload nowMs)
      wire := s.wire ++ nakMessages (s.receiver.window.onData seqNo payload nowMs).2
      log := s.log ++ [.arrival seqNo payload nowMs]
      arrived := s.arrived ++ s.copied seqNo payload }
  | .nak cif =>
    match parseNakCif cif with
    | some lost =>
      { s with
        sender := (s.sender.onNak lost nowMs).1
        wire := s.wire ++ dataMessages (s.sender.onNak lost nowMs).2 }
    | none => s
  | .ack lastAckSeqNo =>
    { s with
      sender := s.sender.onAck lastAckSeqNo }

/-- One step. -/
def step (s : Link) : LinkAction → Link
  | .send payload timestamp nowMs =>
    { s with
      sender := s.sender.onSend (s.seqOf s.sent.length) timestamp payload nowMs
      wire := s.wire ++ [.data (s.seqOf s.sent.length) payload]
      sent := s.sent ++ [payload] }
  | .carry message nowMs =>
    match s.wire[message]? with
    | some carried => s.receive nowMs carried
    | none => s
  | .senderTick nowMs =>
    { s with
      sender := (s.sender.onTick nowMs).1
      wire := s.wire ++ dataMessages (s.sender.onTick nowMs).2 }
  | .receiverTick nowMs =>
    { s with
      receiver := s.receiver.step (.tick nowMs)
      wire := s.wire ++ nakMessages (s.receiver.window.onTick nowMs).2.renak
      log := s.log ++ [.tick nowMs] }
  | .acknowledge =>
    { s with
      wire := s.wire ++ [.ack (s.receiver.window.nextExpected % seqModulus)] }

/-- A run from the start. -/
def after (rtoMs latencyMs initialSeqNo : ℕ) (actions : List LinkAction) : Link :=
  actions.foldl step (start rtoMs latencyMs initialSeqNo)

theorem after_append_singleton (rtoMs latencyMs initialSeqNo : ℕ) (actions : List LinkAction)
    (action : LinkAction) :
    after rtoMs latencyMs initialSeqNo (actions ++ [action]) =
      (after rtoMs latencyMs initialSeqNo actions).step action := by
  simp [after]

def Repaired (s : Link) (nowMs : ℕ) : Prop :=
  ∀ loss ∈ s.receiver.window.lossList.toList, nowMs - loss.2 < s.receiver.window.latencyMs

instance (s : Link) (nowMs : ℕ) : Decidable (s.Repaired nowMs) :=
  inferInstanceAs (Decidable (∀ loss ∈ _, _))

/-- The losses are repaired in time for a step: a tick of the receiver finds
none that is too old. -/
def InTime (s : Link) : LinkAction → Prop
  | .receiverTick nowMs => s.Repaired nowMs
  | _ => True

instance (s : Link) (action : LinkAction) : Decidable (s.InTime action) :=
  match action with
  | .receiverTick nowMs => inferInstanceAs (Decidable (s.Repaired nowMs))
  | .send _ _ _ => inferInstanceAs (Decidable True)
  | .carry _ _ => inferInstanceAs (Decidable True)
  | .senderTick _ => inferInstanceAs (Decidable True)
  | .acknowledge => inferInstanceAs (Decidable True)

/-- A step of a run in which losses are repaired in time and fewer than 2^30
packets are in flight. -/
def Allowed (s : Link) (action : LinkAction) : Prop :=
  (s.step action).sender.buffer.size < 1073741824 ∧ s.InTime action

instance (s : Link) (action : LinkAction) : Decidable (s.Allowed action) :=
  inferInstanceAs (Decidable (_ ∧ _))

/-- Every step of a run is allowed. -/
def AllowedRun (s : Link) : List LinkAction → Prop
  | [] => True
  | action :: rest => s.Allowed action ∧ (s.step action).AllowedRun rest

instance decidableAllowedRun (s : Link) (actions : List LinkAction) :
    Decidable (s.AllowedRun actions) :=
  match actions with
  | [] => inferInstanceAs (Decidable True)
  | action :: rest =>
    haveI := decidableAllowedRun (s.step action) rest
    inferInstanceAs (Decidable (_ ∧ _))

theorem allowedRun_append (s : Link) (xs ys : List LinkAction) :
    s.AllowedRun (xs ++ ys) ↔ s.AllowedRun xs ∧ (xs.foldl step s).AllowedRun ys := by
  induction xs generalizing s with
  | nil => simp [AllowedRun]
  | cons action xs ih =>
    rw [List.cons_append, AllowedRun, AllowedRun, ih, List.foldl_cons, and_assoc]

end Link

/-- The payloads delivered are the first ones sent, each once, and the sender holds the others. -/
structure DeliversInOrder (s : Link) : Prop where
  inOrder : s.receiver.delivered.map Prod.snd = s.sent.take s.receiver.delivered.length
  holdsUndelivered : ∀ index payload, s.sent[index]? = some payload →
    s.receiver.delivered.length ≤ index → s.sender.held (s.seqOf index) = some payload

/-- What is asked of the link after a tick of the receiver: the packets that
arrived with all before them are delivered. -/
def DeliversArrived (s : Link) : Prop :=
  ∀ index < s.sent.length, (∀ j ≤ index, j ∈ s.arrived) → index < s.receiver.delivered.length

instance (s : Link) : Decidable (DeliversArrived s) :=
  inferInstanceAs (Decidable (∀ index < _, _))

namespace Link

/-- What holds of the two windows and of everything on the link while no number
has wrapped. -/
structure Linked (latencyMs : ℕ) (s : Link) : Prop where
  noWrap : s.initialSeqNo + s.sent.length ≤ seqModulus
  follows : Follows latencyMs s.initialSeqNo s.log s.receiver
  noneDropped : s.receiver.dropped = []
  arrivals : ∀ seqNo payload nowMs, Call.arrival seqNo payload nowMs ∈ s.log →
    ∃ index, seqNo = s.initialSeqNo + index ∧ s.sent[index]? = some payload
  arrived : ∀ index, index ∈ s.arrived → (lastPayload s.log (s.initialSeqNo + index)).isSome
  data : ∀ seqNo payload, WireMessage.data seqNo payload ∈ s.wire →
    ∃ index, seqNo = s.initialSeqNo + index ∧ s.sent[index]? = some payload
  acks : ∀ lastAckSeqNo, WireMessage.ack lastAckSeqNo ∈ s.wire →
    lastAckSeqNo ≤ s.receiver.window.nextExpected
  heldSent : ∀ seqNo payload, s.sender.held seqNo = some payload →
    ∃ index, seqNo = s.initialSeqNo + index ∧ s.sent[index]? = some payload
  holds : ∀ index payload, s.sent[index]? = some payload →
    s.receiver.window.nextExpected ≤ s.initialSeqNo + index →
    s.sender.held (s.initialSeqNo + index) = some payload

section Steps

variable {latencyMs : ℕ} {s : Link}

theorem index_lt {sent : List Bytes} {index : ℕ} {payload : Bytes}
    (h : sent[index]? = some payload) : index < sent.length :=
  (List.getElem?_eq_some_iff.mp h).1

theorem sent_append {sent : List Bytes} {index : ℕ} {payload new : Bytes}
    (h : sent[index]? = some payload) : (sent ++ [new])[index]? = some payload := by
  rw [List.getElem?_append_left (index_lt h)]
  exact h

theorem Linked.seqOf_eq (h : s.Linked latencyMs) {index : ℕ} (hindex : index < s.sent.length) :
    s.seqOf index = s.initialSeqNo + index := by
  have hwrap := h.noWrap
  unfold seqOf
  exact Nat.mod_eq_of_lt (by omega)

theorem Linked.below (h : s.Linked latencyMs) : Below u32Max s.log := by
  intro seqNo payload nowMs hmem
  rcases h.arrivals seqNo payload nowMs hmem with ⟨index, rfl, hpayload⟩
  have hindex := index_lt hpayload
  have hwrap := h.noWrap
  unfold seqModulus at hwrap
  unfold u32Max
  omega

theorem Linked.start (rtoMs latencyMs initialSeqNo : ℕ) (h : initialSeqNo ≤ seqModulus) :
    (Link.start rtoMs latencyMs initialSeqNo).Linked latencyMs where
  noWrap := h
  follows := Follows.new latencyMs initialSeqNo
  noneDropped := rfl
  arrivals := fun _ _ _ hmem => absurd hmem List.not_mem_nil
  arrived := fun _ hmem => absurd hmem List.not_mem_nil
  data := fun _ _ hmem => absurd hmem List.not_mem_nil
  acks := fun _ hmem => absurd hmem List.not_mem_nil
  heldSent := by
    intro seqNo payload hheld
    simp [Link.start, SendWindow.new, SendWindow.held] at hheld
  holds := by
    intro index payload hsent
    simp [Link.start] at hsent

/-- A new packet under a number that does not wrap. -/
theorem Linked.send (h : s.Linked latencyMs) (payload : Bytes) (timestamp nowMs : ℕ)
    (hwrap : s.initialSeqNo + s.sent.length < seqModulus) :
    (s.step (.send payload timestamp nowMs)).Linked latencyMs := by
  have hseq : s.seqOf s.sent.length = s.initialSeqNo + s.sent.length := Nat.mod_eq_of_lt hwrap
  have hnew : (s.sent ++ [payload])[s.sent.length]? = some payload := by simp
  refine ⟨?_, h.follows, h.noneDropped, ?_, h.arrived, ?_, ?_, ?_, ?_⟩
  · change s.initialSeqNo + (s.sent ++ [payload]).length ≤ seqModulus
    rw [List.length_append, List.length_singleton]
    omega
  · intro seqNo old time hmem
    rcases h.arrivals seqNo old time hmem with ⟨index, rfl, hsent⟩
    exact ⟨index, rfl, sent_append hsent⟩
  · intro seqNo old hmem
    rcases List.mem_append.mp hmem with hbefore | hlast
    · rcases h.data seqNo old hbefore with ⟨index, rfl, hsent⟩
      exact ⟨index, rfl, sent_append hsent⟩
    · obtain ⟨rfl, rfl⟩ := WireMessage.data.inj (List.mem_singleton.mp hlast)
      exact ⟨s.sent.length, hseq, hnew⟩
  · intro lastAckSeqNo hmem
    rcases List.mem_append.mp hmem with hbefore | hlast
    · exact h.acks lastAckSeqNo hbefore
    · exact absurd (List.mem_singleton.mp hlast) (by simp)
  · intro seqNo old hheld
    change (s.sender.onSend (s.seqOf s.sent.length) timestamp payload nowMs).held seqNo = _
      at hheld
    rw [SendWindow.onSend_held] at hheld
    by_cases hk : s.seqOf s.sent.length = seqNo
    · rw [if_pos hk] at hheld
      obtain rfl := Option.some.inj hheld
      exact ⟨s.sent.length, hk.symm.trans hseq, hnew⟩
    · rw [if_neg hk] at hheld
      rcases h.heldSent seqNo old hheld with ⟨index, rfl, hsent⟩
      exact ⟨index, rfl, sent_append hsent⟩
  · intro index old hsent hnext
    change (s.sender.onSend (s.seqOf s.sent.length) timestamp payload nowMs).held
      (s.initialSeqNo + index) = _
    rw [SendWindow.onSend_held, hseq]
    by_cases hk : index = s.sent.length
    · subst hk
      rw [if_pos rfl]
      exact hnew.symm.trans hsent
    · rw [if_neg (by omega)]
      have hindex := index_lt hsent
      change index < (s.sent ++ [payload]).length at hindex
      rw [List.length_append, List.length_singleton] at hindex
      have hold : s.sent[index]? = some old := by
        rw [← hsent]
        exact (List.getElem?_append_left (by omega)).symm
      exact h.holds index old hold hnext

/-- Retransmissions put copies of sent packets on the link. -/
theorem Linked.resend (h : s.Linked latencyMs) {sender : SendWindow}
    {resent : List (ℕ × ℕ × Bytes)} (hkeeps : SendWindow.Keeps s.sender sender resent) :
    ({ s with
        sender := sender
        wire := s.wire ++ dataMessages resent } : Link).Linked latencyMs := by
  refine ⟨h.noWrap, h.follows, h.noneDropped, h.arrivals, h.arrived, ?_, ?_, ?_, ?_⟩
  · intro seqNo payload hmem
    rcases List.mem_append.mp hmem with hbefore | hnew
    · exact h.data seqNo payload hbefore
    · rcases List.mem_map.mp hnew with ⟨packet, hpacket, heq⟩
      obtain ⟨rfl, rfl⟩ := WireMessage.data.inj heq
      exact h.heldSent _ _ (hkeeps.resent packet hpacket)
  · intro lastAckSeqNo hmem
    rcases List.mem_append.mp hmem with hbefore | hnew
    · exact h.acks lastAckSeqNo hbefore
    · rcases List.mem_map.mp hnew with ⟨packet, -, heq⟩
      exact absurd heq (by simp)
  · intro seqNo payload hheld
    rw [hkeeps.held] at hheld
    exact h.heldSent seqNo payload hheld
  · intro index payload hsent hnext
    rw [hkeeps.held]
    exact h.holds index payload hsent hnext

theorem Linked.acked (h : s.Linked latencyMs) {lastAckSeqNo : ℕ}
    (hack : WireMessage.ack lastAckSeqNo ∈ s.wire) :
    ({ s with
        sender := s.sender.onAck lastAckSeqNo } : Link).Linked latencyMs := by
  have hle := h.acks lastAckSeqNo hack
  refine ⟨h.noWrap, h.follows, h.noneDropped, h.arrivals, h.arrived, h.data, h.acks, ?_, ?_⟩
  · intro seqNo payload hheld
    rw [SendWindow.onAck_held] at hheld
    split at hheld
    · exact h.heldSent seqNo payload hheld
    · exact absurd hheld (by simp)
  · intro index payload hsent hnext
    rw [SendWindow.onAck_held, if_pos (hle.trans hnext)]
    exact h.holds index payload hsent hnext

theorem mem_wire_nak {wire : List WireMessage} {lost : List ℕ} {message : WireMessage}
    (hmem : message ∈ wire ++ nakMessages lost) :
    message ∈ wire ∨ ∃ cif, message = .nak cif := by
  rcases List.mem_append.mp hmem with hbefore | hnew
  · exact Or.inl hbefore
  · unfold nakMessages at hnew
    split at hnew
    · exact absurd hnew List.not_mem_nil
    · exact Or.inr ⟨_, List.mem_singleton.mp hnew⟩

/-- A copy of a packet reaches the receiver. -/
theorem Linked.arrive (h : s.Linked latencyMs) {seqNo nowMs : ℕ} {payload : Bytes}
    (hdata : WireMessage.data seqNo payload ∈ s.wire) :
    (s.receive nowMs (.data seqNo payload)).Linked latencyMs := by
  rcases h.data seqNo payload hdata with ⟨index, rfl, hsent⟩
  have harrivals : ∀ q p t, Call.arrival q p t ∈
        s.log ++ [.arrival (s.initialSeqNo + index) payload nowMs] →
      ∃ i, q = s.initialSeqNo + i ∧ s.sent[i]? = some p := by
    intro q p t hmem
    rcases List.mem_append.mp hmem with hbefore | hnew
    · exact h.arrivals q p t hbefore
    · obtain ⟨rfl, rfl, -⟩ := Call.arrival.inj (List.mem_singleton.mp hnew)
      exact ⟨index, rfl, hsent⟩
  have hwrap := h.noWrap
  have hbelow : Below u32Max (s.log ++ [.arrival (s.initialSeqNo + index) payload nowMs]) := by
    intro q p t hmem
    rcases harrivals q p t hmem with ⟨i, rfl, hp⟩
    have hi := index_lt hp
    unfold seqModulus at hwrap
    unfold u32Max
    omega
  have hnext : (s.receiver.step (.arrival (s.initialSeqNo + index) payload nowMs)
      ).window.nextExpected = s.receiver.window.nextExpected :=
    ReceiveWindow.onData_nextExpected ..
  refine ⟨hwrap, ?_, h.noneDropped, harrivals, ?_, ?_, ?_, h.heldSent, ?_⟩
  · by_cases hstale : s.initialSeqNo + index < s.receiver.window.nextExpected
    · exact h.follows.stale hbelow hstale
    · exact h.follows.accepted hbelow (not_lt.mp hstale)
  · intro i hi
    change (lastPayload (s.log ++ [.arrival (s.initialSeqNo + index) payload nowMs])
      (s.initialSeqNo + i)).isSome
    rw [lastPayload_append_arrival]
    by_cases hsame : s.initialSeqNo + index = s.initialSeqNo + i
    · rw [if_pos hsame]
      rfl
    · rw [if_neg hsame]
      rcases List.mem_append.mp hi with hbefore | hnew
      · exact h.arrived i hbefore
      · rcases List.mem_filter.mp hnew with ⟨hrange, hcopy⟩
        have hseq := h.seqOf_eq (List.mem_range.mp hrange)
        have heq : s.seqOf i = s.initialSeqNo + index := by
          simp only [Bool.and_eq_true, decide_eq_true_eq] at hcopy
          exact hcopy.1
        exact absurd (heq.symm.trans hseq) hsame
  · intro q p hmem
    rcases mem_wire_nak hmem with hbefore | ⟨cif, heq⟩
    · exact h.data q p hbefore
    · exact absurd heq (by simp)
  · intro lastAckSeqNo hmem
    change lastAckSeqNo ≤
      (s.receiver.step (.arrival (s.initialSeqNo + index) payload nowMs)).window.nextExpected
    rw [hnext]
    rcases mem_wire_nak hmem with hbefore | ⟨cif, heq⟩
    · exact h.acks lastAckSeqNo hbefore
    · exact absurd heq (by simp)
  · intro i p hp hle
    change (s.receiver.step (.arrival (s.initialSeqNo + index) payload nowMs)
      ).window.nextExpected ≤ _ at hle
    rw [hnext] at hle
    exact h.holds i p hp hle

/-- A tick of the receiver when every loss is young. -/
theorem Linked.receiverTick (h : s.Linked latencyMs) {nowMs : ℕ} (hrepaired : s.Repaired nowMs) :
    (s.step (.receiverTick nowMs)).Linked latencyMs := by
  rcases ReceiveWindow.onTick_spec h.follows.shows nowMs with ⟨hswept, -, -⟩
  have hadvanced : s.receiver.window.nextExpected ≤
      (s.receiver.step (.tick nowMs)).window.nextExpected := hswept.advanced
  have hmem : ∀ q p t, Call.arrival q p t ∈ s.log ++ [.tick nowMs] →
      Call.arrival q p t ∈ s.log := by
    intro q p t hcall
    rcases List.mem_append.mp hcall with hbefore | hnew
    · exact hbefore
    · exact absurd (List.mem_singleton.mp hnew) (by simp)
  have hbelow : Below u32Max (s.log ++ [.tick nowMs]) :=
    fun q p t hcall => h.below q p t (hmem q p t hcall)
  refine ⟨h.noWrap, h.follows.tick hbelow, ?_, ?_, ?_, ?_, ?_, h.heldSent, ?_⟩
  · change s.receiver.dropped ++ (s.receiver.window.onTick nowMs).2.dropped = []
    rw [h.noneDropped, hswept.dropped]
    change [] ++ ([] ++ _) = []
    rw [List.nil_append, List.nil_append, ReceiveWindow.droppedOf, List.filter_eq_nil_iff]
    intro k hk hnone
    have hbounds := List.mem_range'_1.mp hk
    rw [Option.isNone_iff_eq_none] at hnone
    rcases hswept.overdue k (by omega) (by omega) hnone with ⟨detectedAt, hdetected, hold⟩
    have hlisted : s.receiver.window.lossList[k]? = some detectedAt := by
      rw [h.follows.shows.lossList, if_pos (by omega), hdetected]
    have hyoung := hrepaired (k, detectedAt)
      (Std.ExtTreeMap.mem_toList_iff_getElem?_eq_some.mpr hlisted)
    dsimp only at hyoung
    omega
  · intro q p t hcall
    exact h.arrivals q p t (hmem q p t hcall)
  · intro index hindex
    change (lastPayload (s.log ++ [.tick nowMs]) _).isSome
    rw [lastPayload_append_tick]
    exact h.arrived index hindex
  · intro q p hwire
    rcases mem_wire_nak hwire with hbefore | ⟨cif, heq⟩
    · exact h.data q p hbefore
    · exact absurd heq (by simp)
  · intro lastAckSeqNo hwire
    rcases mem_wire_nak hwire with hbefore | ⟨cif, heq⟩
    · exact (h.acks lastAckSeqNo hbefore).trans hadvanced
    · exact absurd heq (by simp)
  · intro index payload hsent hnext
    exact h.holds index payload hsent (hadvanced.trans hnext)

theorem Linked.acknowledge (h : s.Linked latencyMs) : (s.step .acknowledge).Linked latencyMs := by
  refine ⟨h.noWrap, h.follows, h.noneDropped, h.arrivals, h.arrived, ?_, ?_, h.heldSent, h.holds⟩
  · intro seqNo payload hmem
    rcases List.mem_append.mp hmem with hbefore | hnew
    · exact h.data seqNo payload hbefore
    · exact absurd (List.mem_singleton.mp hnew) (by simp)
  · intro lastAckSeqNo hmem
    rcases List.mem_append.mp hmem with hbefore | hnew
    · exact h.acks lastAckSeqNo hbefore
    · obtain rfl := WireMessage.ack.inj (List.mem_singleton.mp hnew)
      exact Nat.mod_le _ _

/-- Every allowed step that sends no packet under a wrapped number. -/
theorem Linked.step (h : s.Linked latencyMs) {action : LinkAction} (hallowed : s.Allowed action)
    (hwrap : ∀ payload timestamp nowMs, action = .send payload timestamp nowMs →
      s.initialSeqNo + s.sent.length < seqModulus) :
    (s.step action).Linked latencyMs := by
  rcases action with ⟨payload, timestamp, nowMs⟩ | ⟨message, nowMs⟩ | nowMs | nowMs | _
  · exact h.send payload timestamp nowMs (hwrap payload timestamp nowMs rfl)
  · have hstep : s.step (.carry message nowMs) =
        match s.wire[message]? with
        | some carried => s.receive nowMs carried
        | none => s := rfl
    rw [hstep]
    rcases hcarried : s.wire[message]? with _ | carried
    · exact h
    · have hmem := List.mem_of_getElem? hcarried
      rcases carried with ⟨seqNo, payload⟩ | cif | lastAckSeqNo
      · exact h.arrive hmem
      · have hreceive : s.receive nowMs (.nak cif) =
            match parseNakCif cif with
            | some lost =>
              { s with
                sender := (s.sender.onNak lost nowMs).1
                wire := s.wire ++ dataMessages (s.sender.onNak lost nowMs).2 }
            | none => s := rfl
        dsimp only
        rw [hreceive]
        rcases parseNakCif cif with _ | lost
        · exact h
        · exact h.resend (s.sender.onNak_keeps lost nowMs)
      · exact h.acked hmem
  · exact h.resend (s.sender.onTick_keeps nowMs)
  · exact h.receiverTick hallowed.2
  · exact h.acknowledge

/-! ## What the invariant says of the run -/

theorem Linked.delivered_numbers (h : s.Linked latencyMs) :
    s.receiver.delivered.map Prod.fst =
      List.range' s.initialSeqNo (s.receiver.window.nextExpected - s.initialSeqNo) := by
  have hswept := h.follows.swept
  rw [h.noneDropped] at hswept
  exact hswept.taken_eq

theorem Linked.delivered_length (h : s.Linked latencyMs) :
    s.initialSeqNo + s.receiver.delivered.length = s.receiver.window.nextExpected := by
  have hnumbers := congrArg List.length h.delivered_numbers
  rw [List.length_map, List.length_range'] at hnumbers
  have hlow := h.follows.swept.le
  omega

theorem Linked.delivered_payload (h : s.Linked latencyMs) {index : ℕ}
    (hindex : index < s.receiver.delivered.length) :
    s.sent[index]? = some (s.receiver.delivered[index].2) := by
  have hmem := List.getElem_mem hindex
  rcases h.follows.payloads _ hmem with ⟨earlier, nowMs, hpre, hlast⟩
  rcases lastPayload_some_mem hlast with ⟨time, harrival⟩
  have hlogged := hpre.subset (List.mem_append_left _ harrival)
  rcases h.arrivals _ _ _ hlogged with ⟨i, hi, hsent⟩
  have hnumber : s.receiver.delivered[index].1 = s.initialSeqNo + index := by
    have hget := congrArg (fun numbers : List ℕ => numbers[index]?) h.delivered_numbers
    have hlength := h.delivered_length
    rw [List.getElem?_map, List.getElem?_range' (by omega), List.getElem?_eq_getElem hindex] at hget
    simpa using hget
  have hsame : i = index := by omega
  exact hsame ▸ hsent

theorem Linked.deliversInOrder (h : s.Linked latencyMs) : DeliversInOrder s where
  inOrder := by
    apply List.ext_getElem?
    intro index
    rw [List.getElem?_map]
    by_cases hindex : index < s.receiver.delivered.length
    · rw [List.getElem?_take_of_lt hindex, h.delivered_payload hindex,
        List.getElem?_eq_getElem hindex]
      rfl
    · rw [List.getElem?_eq_none (not_lt.mp hindex),
        List.getElem?_eq_none ((List.length_take_le _ _).trans (not_lt.mp hindex))]
      rfl
  holdsUndelivered := by
    intro index payload hsent hundelivered
    have hlength := h.delivered_length
    rw [h.seqOf_eq (index_lt hsent)]
    exact h.holds index payload hsent (by omega)

/-- After a tick the window stands at a number that has not arrived. -/
theorem Linked.deliversArrived (h : s.Linked latencyMs) {nowMs : ℕ}
    (hafter : (s.step (.receiverTick nowMs)).Linked latencyMs) :
    DeliversArrived (s.step (.receiverTick nowMs)) := by
  rcases ReceiveWindow.onTick_spec h.follows.shows nowMs with ⟨hswept, hrests, -⟩
  intro index _ harrived
  by_contra hout
  have hlength := hafter.delivered_length
  have hlow := hafter.follows.swept.le
  have hmissing := hrests.1
  rw [hswept.shows.buffered, if_pos le_rfl] at hmissing
  have hfront : (s.step (.receiverTick nowMs)).receiver.delivered.length ≤ index := by omega
  have hsome := hafter.arrived _ (harrived _ hfront)
  rw [hlength] at hsome
  change (lastPayload (s.log ++ [.tick nowMs]) (s.receiver.window.onTick nowMs).1.nextExpected
    ).isSome at hsome
  rw [lastPayload_append_tick, hmissing] at hsome
  exact absurd hsome (by simp)

end Steps

end Link

/-! ## Runs -/

/-- Whether an action hands the sender a new packet. -/
def LinkAction.isSend : LinkAction → Bool
  | .send _ _ _ => true
  | _ => false

/-- No sequence number of a run wraps: the initial number and the packets sent
stay within 31 bits. -/
def NoWrap (initialSeqNo : ℕ) (actions : List LinkAction) : Prop :=
  initialSeqNo + actions.countP LinkAction.isSend ≤ seqModulus

section Runs

variable {rtoMs latencyMs initialSeqNo : ℕ} {actions : List LinkAction}

/-- A step keeps the initial number and counts the packets sent. -/
theorem Link.step_sent (s : Link) (action : LinkAction) :
    (s.step action).initialSeqNo = s.initialSeqNo ∧
      (s.step action).sent.length = s.sent.length + [action].countP LinkAction.isSend := by
  rcases action with ⟨payload, timestamp, nowMs⟩ | ⟨message, nowMs⟩ | nowMs | nowMs | _
  · exact ⟨rfl, by simp [Link.step, LinkAction.isSend]⟩
  · have hstep : s.step (.carry message nowMs) =
        match s.wire[message]? with
        | some carried => s.receive nowMs carried
        | none => s := rfl
    rw [hstep]
    rcases s.wire[message]? with _ | ⟨seqNo, payload⟩ | cif | lastAckSeqNo
    · exact ⟨rfl, rfl⟩
    · exact ⟨rfl, rfl⟩
    · dsimp only [Link.receive]
      rcases parseNakCif cif with _ | lost
      · exact ⟨rfl, rfl⟩
      · exact ⟨rfl, rfl⟩
    · exact ⟨rfl, rfl⟩
  · exact ⟨rfl, rfl⟩
  · exact ⟨rfl, rfl⟩
  · exact ⟨rfl, rfl⟩

theorem Link.after_sent (rtoMs latencyMs initialSeqNo : ℕ) (actions : List LinkAction) :
    (Link.after rtoMs latencyMs initialSeqNo actions).initialSeqNo = initialSeqNo ∧
      (Link.after rtoMs latencyMs initialSeqNo actions).sent.length =
        actions.countP LinkAction.isSend := by
  induction actions using List.reverseRecOn with
  | nil => exact ⟨rfl, rfl⟩
  | append_singleton actions action ih =>
    rw [Link.after_append_singleton, List.countP_append]
    rcases Link.step_sent (Link.after rtoMs latencyMs initialSeqNo actions) action with
      ⟨hinitial, hsent⟩
    exact ⟨hinitial.trans ih.1, by rw [hsent, ih.2]⟩

theorem NoWrap.ofPrefix {earlier : List LinkAction} (h : NoWrap initialSeqNo actions)
    (hpre : earlier <+: actions) : NoWrap initialSeqNo earlier := by
  have hcount := hpre.sublist.countP_le (p := LinkAction.isSend)
  unfold NoWrap at h ⊢
  omega

/-- The invariant holds in every state of a run without a wrap. -/
theorem Link.after_linked
    (hallowed : (Link.start rtoMs latencyMs initialSeqNo).AllowedRun actions)
    (hwrap : NoWrap initialSeqNo actions) :
    (Link.after rtoMs latencyMs initialSeqNo actions).Linked latencyMs := by
  induction actions using List.reverseRecOn with
  | nil =>
    have hinitial : initialSeqNo ≤ seqModulus := by
      unfold NoWrap at hwrap
      simpa using hwrap
    exact Link.Linked.start rtoMs latencyMs initialSeqNo hinitial
  | append_singleton actions action ih =>
    rcases (Link.allowedRun_append _ actions [action]).mp hallowed with ⟨hearlier, hlast⟩
    have hbefore := ih hearlier (hwrap.ofPrefix (List.prefix_append _ _))
    rw [Link.after_append_singleton]
    apply hbefore.step hlast.1
    rintro payload timestamp nowMs rfl
    rcases Link.after_sent rtoMs latencyMs initialSeqNo actions with ⟨hinitial, hsent⟩
    unfold NoWrap at hwrap
    rw [List.countP_append] at hwrap
    rw [hinitial, hsent]
    simp [LinkAction.isSend] at hwrap
    omega

/-- Payloads are delivered in order, each exactly once, and none leaves the sender before, in every
run in which no sequence number wraps. -/
theorem link_delivers_in_order (rtoMs latencyMs initialSeqNo : ℕ) (actions : List LinkAction)
    (hallowed : (Link.start rtoMs latencyMs initialSeqNo).AllowedRun actions)
    (hwrap : NoWrap initialSeqNo actions) :
    ∀ earlier, earlier <+: actions →
      DeliversInOrder (Link.after rtoMs latencyMs initialSeqNo earlier) ∧
        ∀ before nowMs, earlier = before ++ [.receiverTick nowMs] →
          DeliversArrived (Link.after rtoMs latencyMs initialSeqNo earlier) := by
  rintro earlier ⟨rest, rfl⟩
  have hearlier := ((Link.allowedRun_append _ earlier rest).mp hallowed).1
  have hwrap' := hwrap.ofPrefix (List.prefix_append _ _)
  have hlinked := Link.after_linked hearlier hwrap'
  refine ⟨hlinked.deliversInOrder, ?_⟩
  rintro before nowMs rfl
  have hbefore := Link.after_linked ((Link.allowedRun_append _ before _).mp hearlier).1
    (hwrap'.ofPrefix (List.prefix_append _ _))
  rw [Link.after_append_singleton] at hlinked ⊢
  exact hbefore.deliversArrived hlinked

/-- The second of three packets is lost once, the third comes twice, and a loss report brings the
second. -/
def reorderedRun : List LinkAction :=
  [.send [1] 0 0, .send [2] 0 0, .carry 0 1, .receiverTick 1, .send [3] 0 1, .carry 2 2,
    .carry 2 2, .carry 3 3, .carry 4 4, .receiverTick 5, .acknowledge, .carry 5 6]

theorem link_delivers_in_order_reordered :
    (Link.start 50 100 7).AllowedRun reorderedRun ∧ NoWrap 7 reorderedRun ∧
      ∀ earlier, earlier <+: reorderedRun →
        DeliversInOrder (Link.after 50 100 7 earlier) ∧
          ∀ before nowMs, earlier = before ++ [.receiverTick nowMs] →
            DeliversArrived (Link.after 50 100 7 earlier) := by
  have hallowed : (Link.start 50 100 7).AllowedRun reorderedRun := by decide +kernel
  have hwrap : NoWrap 7 reorderedRun := by
    unfold NoWrap
    decide
  exact ⟨hallowed, hwrap, link_delivers_in_order 50 100 7 reorderedRun hallowed hwrap⟩

/-- The last number before the wrap and the one after it: the second packet
arrives and is taken for an old one. -/
theorem link_not_delivers_across_wrap :
    (Link.start 50 100 2147483647).AllowedRun
        [.send [1] 0 0, .carry 0 1, .receiverTick 2, .send [2] 0 3, .carry 1 4, .receiverTick 5] ∧
      ¬ DeliversArrived (Link.after 50 100 2147483647
        [.send [1] 0 0, .carry 0 1, .receiverTick 2, .send [2] 0 3, .carry 1 4,
          .receiverTick 5]) := by
  decide

end Runs

end Srt
end Vaco
