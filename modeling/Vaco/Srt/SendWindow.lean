import Vaco.Library.ByteWords
import Vaco.Srt.ReceiveWindow

/-!
# The SRT send window and its loss reports

The sender's retransmission buffer: every packet sent stays under its sequence
number until it is acknowledged, and goes out again when the peer reports it
lost or nothing was heard of it for long enough.  A loss report travels as a
list of 32-bit words with the top bit clear.

Main results:

- `SendWindow.onNak_keeps`, `SendWindow.onTick_keeps`: payloads stay in place.

Current gaps:

- The token bucket gates new packets before they are handed to the window and
  is not modelled.
-/

namespace Vaco
namespace Srt

open Library.BitStream Library.ByteWords

/-- Sequence numbers on the wire have 31 bits. -/
def seqModulus : ℕ := 2147483648

/-- A packet waiting for its acknowledgement. -/
structure InFlight where
  timestamp : ℕ
  payload : Bytes
  lastSentAtMs : ℕ
  deriving DecidableEq, Repr

/-- Counters of a send window. -/
structure SendStats where
  packetsSent : ℕ
  packetsRetransmitted : ℕ
  deriving DecidableEq, Repr

/-- The sender's retransmission buffer. -/
structure SendWindow where
  rtoMs : ℕ
  buffer : Std.ExtTreeMap ℕ InFlight
  stats : SendStats

namespace SendWindow

/-- An empty window. -/
def new (rtoMs : ℕ) : SendWindow where
  rtoMs := rtoMs
  buffer := ∅
  stats := ⟨0, 0⟩

/-- Record a freshly sent data packet. -/
def onSend (w : SendWindow) (seqNo timestamp : ℕ) (payload : Bytes) (nowMs : ℕ) : SendWindow :=
  { w with
    buffer := w.buffer.insert seqNo ⟨timestamp, payload, nowMs⟩
    stats :=
      { w.stats with
        packetsSent := w.stats.packetsSent + 1 } }

/-- The peer acknowledged everything before `lastAckSeqNo`: the map is
split there and its upper part kept. -/
def onAck (w : SendWindow) (lastAckSeqNo : ℕ) : SendWindow :=
  { w with
    buffer := w.buffer.filter fun seq _ => decide (lastAckSeqNo ≤ seq) }

/-- Resend one number the peer named lost, if the window still holds it. -/
def resend (nowMs : ℕ) (state : SendWindow × List (ℕ × ℕ × Bytes)) (seq : ℕ) :
    SendWindow × List (ℕ × ℕ × Bytes) :=
  match state.1.buffer[seq]? with
  | some entry =>
    ({ state.1 with
        buffer := state.1.buffer.insert seq { entry with lastSentAtMs := nowMs }
        stats :=
          { state.1.stats with
            packetsRetransmitted := state.1.stats.packetsRetransmitted + 1 } },
      state.2 ++ [(seq, entry.timestamp, entry.payload)])
  | none => state

/-- The peer named these numbers lost: resend every one the window holds. -/
def onNak (w : SendWindow) (lost : List ℕ) (nowMs : ℕ) : SendWindow × List (ℕ × ℕ × Bytes) :=
  lost.foldl (resend nowMs) (w, [])

/-- Whether an entry was last sent long enough ago. -/
def isDue (w : SendWindow) (nowMs : ℕ) (entry : InFlight) : Bool :=
  decide (w.rtoMs ≤ nowMs - entry.lastSentAtMs)

/-- Resend whatever was not resent for the timeout. -/
def onTick (w : SendWindow) (nowMs : ℕ) : SendWindow × List (ℕ × ℕ × Bytes) :=
  let due := w.buffer.toList.filter fun entry => w.isDue nowMs entry.2
  ({ w with
      buffer := w.buffer.map fun _ entry =>
        if w.isDue nowMs entry then { entry with lastSentAtMs := nowMs } else entry
      stats :=
        { w.stats with
          packetsRetransmitted := w.stats.packetsRetransmitted + due.length } },
    due.map fun entry => (entry.1, entry.2.timestamp, entry.2.payload))

/-- The payload held under a number. -/
def held (w : SendWindow) (seq : ℕ) : Option Bytes :=
  w.buffer[seq]?.map InFlight.payload

theorem onSend_held (w : SendWindow) (seqNo timestamp : ℕ) (payload : Bytes) (nowMs k : ℕ) :
    (w.onSend seqNo timestamp payload nowMs).held k =
      if seqNo = k then some payload else w.held k := by
  unfold held onSend
  dsimp only
  rw [Std.ExtTreeMap.getElem?_insert]
  by_cases hk : seqNo = k
  · simp [hk]
  · simp [hk]

theorem onAck_held (w : SendWindow) (lastAckSeqNo k : ℕ) :
    (w.onAck lastAckSeqNo).held k = if lastAckSeqNo ≤ k then w.held k else none := by
  unfold held onAck
  dsimp only
  rw [Std.ExtTreeMap.getElem?_filter']
  by_cases hk : lastAckSeqNo ≤ k
  · rcases w.buffer[k]? with _ | entry
    · simp
    · simp [hk]
  · rcases w.buffer[k]? with _ | entry
    · simp
    · simp [hk]

/-- What a retransmission step leaves: every payload in place, and only held
packets sent. -/
structure Keeps (w w' : SendWindow) (resent : List (ℕ × ℕ × Bytes)) : Prop where
  held : ∀ k, w'.held k = w.held k
  resent : ∀ packet ∈ resent, w.held packet.1 = some packet.2.2

/-- Resending one number keeps every payload. -/
theorem resend_keeps {w : SendWindow} {state : SendWindow × List (ℕ × ℕ × Bytes)}
    (h : Keeps w state.1 state.2) (nowMs seq : ℕ) :
    Keeps w (resend nowMs state seq).1 (resend nowMs state seq).2 := by
  unfold resend
  rcases hentry : state.1.buffer[seq]? with _ | entry
  · exact h
  · have hheld : state.1.held seq = some entry.payload := by
      unfold held
      rw [hentry]
      rfl
    refine ⟨?_, ?_⟩
    · intro k
      rw [← h.held k]
      unfold held
      dsimp only
      rw [Std.ExtTreeMap.getElem?_insert]
      by_cases hk : seq = k
      · subst hk
        simp [hentry]
      · simp [hk]
    · intro packet hpacket
      rcases List.mem_append.mp hpacket with hold | hnew
      · exact h.resent packet hold
      · obtain rfl := List.mem_singleton.mp hnew
        rw [← h.held]
        exact hheld

theorem onNak_keeps (w : SendWindow) (lost : List ℕ) (nowMs : ℕ) :
    Keeps w (w.onNak lost nowMs).1 (w.onNak lost nowMs).2 := by
  have hfold : ∀ state : SendWindow × List (ℕ × ℕ × Bytes), Keeps w state.1 state.2 →
      Keeps w (lost.foldl (resend nowMs) state).1 (lost.foldl (resend nowMs) state).2 := by
    induction lost with
    | nil => exact fun state h => h
    | cons seq lost ih => exact fun state h => ih _ (resend_keeps h nowMs seq)
  exact hfold (w, []) ⟨fun _ => rfl, by simp⟩

theorem onTick_keeps (w : SendWindow) (nowMs : ℕ) :
    Keeps w (w.onTick nowMs).1 (w.onTick nowMs).2 := by
  refine ⟨?_, ?_⟩
  · intro k
    unfold held onTick
    dsimp only
    rw [Std.ExtTreeMap.getElem?_map]
    rcases w.buffer[k]? with _ | entry
    · rfl
    · rw [Option.map_some, Option.map_some, Option.map_some]
      split
      · rfl
      · rfl
  · intro packet hpacket
    rcases List.mem_map.mp hpacket with ⟨entry, hentry, rfl⟩
    have hmem := (List.mem_filter.mp hentry).1
    rw [show entry = (entry.1, entry.2) from rfl,
      Std.ExtTreeMap.mem_toList_iff_getElem?_eq_some] at hmem
    unfold held
    rw [hmem]
    rfl

end SendWindow

/-! ## Loss reports -/

/-- A loss report: one word for each number, its top bit clear. -/
def serializeNakCif (lost : List ℕ) : Bytes :=
  lost.flatMap fun seq => beBytes 4 (seq % seqModulus)

/-- The words of a loss report, their top bits cleared. -/
def nakWords : Bytes → List ℕ
  | a :: b :: c :: d :: rest => beNat [a, b, c, d] % seqModulus :: nakWords rest
  | _ => []

/-- Read a loss report; its length must be a whole number of words. -/
def parseNakCif (data : Bytes) : Option (List ℕ) :=
  if data.length % 4 = 0 then some (nakWords data) else none

end Srt
end Vaco
