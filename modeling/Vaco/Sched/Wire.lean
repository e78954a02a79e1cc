import Mathlib.Data.List.Forall2
import Mathlib.Logic.Relation
import Mathlib.Algebra.Order.BigOperators.Group.List
import Vaco.Core.Packet

/-!
# Wires and the budget that pays for them

A wire is a bounded queue between one producer and one consumer.  Every queued item
is charged to the memory budget of the pipeline, and is given back when it is taken
or when the consumer abandons the wire.

Each wire carries two history lists, the items it accepted and the items taken from
it.  They are proof data: no function reads them.

Main results:

- `WireMoves.ledger`: the budget has committed exactly the bytes that are queued.

Current gaps:

- The part of the limits that the budget of a pipeline never asks for, the fuel and
  the high-water mark of the budget are left out.
-/

namespace Vaco
namespace Sched

open Library Vaco.Core

/-! ## The budget -/

/-- Caps on the bytes that are charged to a budget. -/
structure Limits where
  maxAllocTotal : Nat
  maxAllocSingle : Nat
  total_le : maxAllocTotal ≤ u64Max
deriving DecidableEq

/-- A limit was reached. -/
inductive LimitError where
  | exceeded (limit : String) (requested cap : Nat)
  | overflow
  | noProgress (ticks : Nat)
deriving DecidableEq

/-- A limit error as every component reports it. -/
def LimitError.toError : LimitError → Error
  | .exceeded limit requested cap => .limitExceeded limit requested cap
  | .overflow => .limitExceeded "size_computation" u64Max u64Max
  | .noProgress ticks => .limitExceeded "progress" ticks ticks

/-- Bytes charged against the limits. -/
structure Budget where
  limits : Limits
  committed : Nat
  pending : Nat
deriving DecidableEq

namespace Budget

/-- A budget with nothing charged. -/
def new (limits : Limits) : Budget where
  limits := limits
  committed := 0
  pending := 0

/-- Check some bytes against both caps without holding them. -/
def check (b : Budget) (bytes : Nat) : Except LimitError Unit :=
  if b.limits.maxAllocSingle < bytes then
    .error (.exceeded "max_alloc_single" bytes b.limits.maxAllocSingle)
  else if u64Max < b.committed + b.pending + bytes then
    .error .overflow
  else if b.limits.maxAllocTotal < b.committed + b.pending + bytes then
    .error (.exceeded "max_alloc_total" (b.committed + b.pending + bytes) b.limits.maxAllocTotal)
  else
    .ok ()

/-- Check and commit some bytes in one step. -/
def charge (b : Budget) (bytes : Nat) : Except LimitError Budget :=
  match b.check bytes with
  | .error e => .error e
  | .ok () => .ok { b with committed := satAddU64 b.committed bytes }

/-- Give bytes back. -/
def release (b : Budget) (bytes : Nat) : Budget :=
  { b with committed := b.committed - bytes }

variable {b b' : Budget} {bytes : Nat}

theorem check_eq_ok_iff :
    b.check bytes = .ok () ↔
      bytes ≤ b.limits.maxAllocSingle ∧
        b.committed + b.pending + bytes ≤ b.limits.maxAllocTotal := by
  have htotal := b.limits.total_le
  unfold check
  split <;> rename_i h₁
  · simp; omega
  split <;> rename_i h₂
  · simp; omega
  split <;> rename_i h₃
  · simp; omega
  · simp; omega

theorem charge_eq_ok (h : b.charge bytes = .ok b') :
    b' = { b with committed := b.committed + bytes } ∧
      b.committed + b.pending + bytes ≤ b.limits.maxAllocTotal := by
  unfold charge at h
  split at h
  · cases h
  · rename_i hcheck
    have hfits := (check_eq_ok_iff.1 hcheck).2
    have htotal := b.limits.total_le
    rw [satAddU64_of_le (by omega)] at h
    cases h
    exact ⟨rfl, hfits⟩

theorem charge_of_le (hsingle : bytes ≤ b.limits.maxAllocSingle)
    (htotal : b.committed + b.pending + bytes ≤ b.limits.maxAllocTotal) :
    b.charge bytes = .ok { b with committed := b.committed + bytes } := by
  have hmax := b.limits.total_le
  rw [charge, check_eq_ok_iff.2 ⟨hsingle, htotal⟩]
  dsimp only
  rw [satAddU64_of_le (by omega)]

@[simp]
theorem release_limits (b : Budget) (bytes : Nat) : (b.release bytes).limits = b.limits :=
  rfl

@[simp]
theorem release_committed (b : Budget) (bytes : Nat) :
    (b.release bytes).committed = b.committed - bytes :=
  rfl

end Budget

/-! ## Items in transit -/

/-- What a wire carries. -/
inductive Flow where
  | packets
  | frames
deriving DecidableEq

/-- The samples or the text of a frame, as the buffers that hold them. -/
inductive FrameData where
  | video (planes : List (List Byte))
  | audio (planes : List (List Byte))
  | subtitle (rects : List (List Byte))
deriving DecidableEq

/-- A decoded frame with its timing. -/
structure Frame where
  pts : Timestamp
  timeBase : TimeBase
  data : FrameData
deriving DecidableEq

/-- One item in transit. -/
inductive Payload where
  | packet (p : Packet)
  | frame (f : Frame)
deriving DecidableEq

namespace Payload

/-- Which flow the item belongs on. -/
def flow : Payload → Flow
  | .packet _ => .packets
  | .frame _ => .frames

/-- Payload bytes of the item. -/
def bytes : Payload → Nat
  | .packet p => p.len
  | .frame f =>
      match f.data with
      | .video planes => (planes.map List.length).sum
      | .audio planes => (planes.map List.length).sum
      | .subtitle rects => (rects.map List.length).sum

/-- The presentation timestamp, in the base of the wire. -/
def pts : Payload → Timestamp
  | .packet p => p.pts
  | .frame f => f.pts

/-- The packet, or nothing if this is a frame. -/
def intoPacket : Payload → Option Packet
  | .packet p => some p
  | .frame _ => none

/-- The frame, or nothing if this is a packet. -/
def intoFrame : Payload → Option Frame
  | .frame f => some f
  | .packet _ => none

end Payload

/-! ## Rescaling at a stage boundary -/

/-- Whether a move between two bases leaves the ticks alone. -/
def keepsTicks (src dst : TimeBase) : Bool :=
  src = dst || !src.isDefined || !dst.isDefined

/-- Move the timing of a frame. -/
def rescaleFrame (f : Frame) (src dst : TimeBase) : Frame :=
  if keepsTicks src dst then
    { f with timeBase := dst }
  else
    { f with pts := f.pts.rescale src dst .nearestAwayFromZero, timeBase := dst }

/-- Move the timing of a packet. -/
def rescalePacket (p : Packet) (src dst : TimeBase) : Packet :=
  if keepsTicks src dst then p else p.rescaleTs src dst .nearestAwayFromZero

/-- Move the timing of whatever the item is. -/
def rescale (item : Payload) (src dst : TimeBase) : Payload :=
  match item with
  | .packet p => .packet (rescalePacket p src dst)
  | .frame f => .frame (rescaleFrame f src dst)

/-- Move an end-of-stream timestamp. -/
def rescaleTs (ts : Timestamp) (src dst : TimeBase) : Timestamp :=
  if keepsTicks src dst then ts else ts.rescale src dst .nearestAwayFromZero

/-! ## Wires -/

/-- The bound on one wire. -/
structure Capacity where
  maxItems : Nat
  maxBytes : Nat
deriving DecidableEq

/-- The default bound. -/
def Capacity.default : Capacity where
  maxItems := 64
  maxBytes := 16777216

/-- Counters of one wire. -/
structure WireStats where
  pushed : Nat
  popped : Nat
  highWater : Nat
  stalls : Nat
deriving DecidableEq

/-- A bounded queue with one producer and one consumer.  The fields `accepted` and
`taken` are the history of the wire. -/
structure Wire where
  queue : List Payload
  flow : Flow
  cap : Capacity
  bytes : Nat
  closed : Bool
  abandoned : Bool
  endPts : Timestamp
  timeBase : TimeBase
  stats : WireStats
  accepted : List Payload
  taken : List Payload
deriving DecidableEq

namespace Wire

/-- An open, empty wire. -/
def new (flow : Flow) (cap : Capacity) (timeBase : TimeBase) : Wire where
  queue := []
  flow := flow
  cap := cap
  bytes := 0
  closed := false
  abandoned := false
  endPts := none
  timeBase := timeBase
  stats := ⟨0, 0, 0, 0⟩
  accepted := []
  taken := []

/-- Items waiting. -/
def depth (w : Wire) : Nat :=
  w.queue.length

/-- Nothing waiting. -/
def isEmpty (w : Wire) : Bool :=
  w.queue.isEmpty

/-- Closed and drained. -/
def atEof (w : Wire) : Bool :=
  w.closed && w.queue.isEmpty

/-- Whether a producer may be admitted.  An empty wire has room for any item. -/
def hasRoom (w : Wire) : Bool :=
  if w.abandoned then
    true
  else if w.closed then
    false
  else
    w.queue.isEmpty || (w.queue.length < w.cap.maxItems && w.bytes < w.cap.maxBytes)

/-- Record that a producer was held back. -/
def noteStall (w : Wire) : Wire :=
  { w with stats := { w.stats with stalls := satAddU64 w.stats.stalls 1 } }

/-- Append an item and charge its bytes.  A refused item changes nothing. -/
def push (w : Wire) (item : Payload) (b : Budget) : Except Error (Wire × Budget) :=
  if w.abandoned then
    .ok (w, b)
  else if item.flow ≠ w.flow then
    .error (.invalidData "an item of the wrong kind was pushed onto a wire")
  else if w.closed then
    .error (.invalidData
      "an item was pushed onto a wire whose producer had already closed it")
  else
    match b.charge item.bytes with
    | .error e => .error e.toError
    | .ok b' =>
        .ok ({ w with
          bytes := satAddU64 w.bytes item.bytes
          queue := w.queue ++ [item]
          stats := { w.stats with
            pushed := satAddU64 w.stats.pushed 1
            highWater := max w.stats.highWater (w.queue.length + 1) }
          accepted := w.accepted ++ [item] }, b')

/-- Take the oldest item and give its bytes back. -/
def pop (w : Wire) (b : Budget) : Option (Payload × Wire × Budget) :=
  match w.queue with
  | [] => none
  | item :: rest =>
      some (item,
        { w with
          queue := rest
          bytes := w.bytes - item.bytes
          stats := { w.stats with popped := satAddU64 w.stats.popped 1 }
          taken := w.taken ++ [item] },
        b.release item.bytes)

/-- Declare that nothing further will be pushed; the first end wins. -/
def close (w : Wire) (endPts : Timestamp) : Wire :=
  if w.closed then w else { w with closed := true, endPts := endPts }

/-- The consumer takes nothing more: drop what is queued and swallow what follows. -/
def abandon (w : Wire) (b : Budget) : Wire × Budget :=
  ({ w with bytes := 0, queue := [], closed := true, abandoned := true }, b.release w.bytes)

/-! ## What holds of one wire -/

/-- A wire that counts its bytes, whose queue is what was accepted but not taken. -/
structure Valid (w : Wire) : Prop where
  bytes_eq : w.bytes = (w.queue.map Payload.bytes).sum
  drained_of_abandoned : w.abandoned = true → w.closed = true ∧ w.queue = []
  fifo : w.abandoned = false → w.accepted = w.taken ++ w.queue
  taken_le : w.taken <+: w.accepted

/-- How a wire may change: flags are sticky, histories grow, and a closed wire accepts
nothing. -/
structure Evolves (w w' : Wire) : Prop where
  closed : w.closed = true → w'.closed = true ∧ w'.accepted = w.accepted
  abandoned : w.abandoned = true → w'.abandoned = true
  atEof : w.atEof = true → w'.atEof = true
  accepted_le : w.accepted <+: w'.accepted
  taken_le : w.taken <+: w'.taken
  fixed : w'.flow = w.flow ∧ w'.cap = w.cap ∧ w'.timeBase = w.timeBase

variable {w w' w'' : Wire} {item : Payload} {b b' : Budget}

theorem valid_new (flow : Flow) (cap : Capacity) (timeBase : TimeBase) :
    (Wire.new flow cap timeBase).Valid where
  bytes_eq := rfl
  drained_of_abandoned h := by cases h
  fifo _ := rfl
  taken_le := List.prefix_refl _

theorem Evolves.refl (w : Wire) : w.Evolves w where
  closed h := ⟨h, rfl⟩
  abandoned h := h
  atEof h := h
  accepted_le := List.prefix_refl _
  taken_le := List.prefix_refl _
  fixed := ⟨rfl, rfl, rfl⟩

theorem Evolves.trans (h : w.Evolves w') (h' : w'.Evolves w'') : w.Evolves w'' where
  closed hc := by
    rcases h.closed hc with ⟨hc', ha⟩
    rcases h'.closed hc' with ⟨hc'', ha'⟩
    exact ⟨hc'', ha'.trans ha⟩
  abandoned ha := h'.abandoned (h.abandoned ha)
  atEof he := h'.atEof (h.atEof he)
  accepted_le := List.IsPrefix.trans h.accepted_le h'.accepted_le
  taken_le := List.IsPrefix.trans h.taken_le h'.taken_le
  fixed := by
    rcases h.fixed with ⟨hf, hc, ht⟩
    rcases h'.fixed with ⟨hf', hc', ht'⟩
    exact ⟨hf'.trans hf, hc'.trans hc, ht'.trans ht⟩

/-- An accepted item is either swallowed by an abandoned wire or queued and charged. -/
theorem push_eq_ok (h : w.push item b = .ok (w', b')) :
    (w.abandoned = true ∧ w' = w ∧ b' = b) ∨
      (w.abandoned = false ∧ w.closed = false ∧ item.flow = w.flow ∧
        b.charge item.bytes = .ok b' ∧
        w'.queue = w.queue ++ [item] ∧ w'.accepted = w.accepted ++ [item] ∧
        w'.bytes = satAddU64 w.bytes item.bytes ∧ w'.taken = w.taken ∧
        w'.closed = false ∧ w'.abandoned = false ∧
        w'.flow = w.flow ∧ w'.cap = w.cap ∧ w'.timeBase = w.timeBase) := by
  unfold push at h
  split at h
  · rename_i ha
    cases h
    exact .inl ⟨ha, rfl, rfl⟩
  · rename_i ha
    split at h
    · cases h
    · rename_i hf
      split at h
      · cases h
      · rename_i hc
        split at h
        · cases h
        · rename_i hcharge
          cases h
          right
          simp only [Bool.not_eq_true] at ha hc
          exact ⟨ha, hc, not_not.1 hf, hcharge, rfl, rfl, rfl, rfl, hc, ha, rfl, rfl, rfl⟩

theorem pop_eq_some (h : w.pop b = some (item, w', b')) :
    w.queue = item :: w'.queue ∧ w'.taken = w.taken ++ [item] ∧
      w'.bytes = w.bytes - item.bytes ∧ b' = b.release item.bytes ∧
      w'.accepted = w.accepted ∧ w'.closed = w.closed ∧ w'.abandoned = w.abandoned ∧
      w'.flow = w.flow ∧ w'.cap = w.cap ∧ w'.timeBase = w.timeBase := by
  unfold pop at h
  split at h
  · cases h
  · rename_i hq
    cases h
    exact ⟨hq, rfl, rfl, rfl, rfl, rfl, rfl, rfl, rfl, rfl⟩

theorem close_fields (w : Wire) (ts : Timestamp) :
    (w.close ts).queue = w.queue ∧ (w.close ts).bytes = w.bytes ∧
      (w.close ts).accepted = w.accepted ∧ (w.close ts).taken = w.taken ∧
      (w.close ts).abandoned = w.abandoned ∧ (w.close ts).closed = true ∧
      (w.close ts).flow = w.flow ∧ (w.close ts).cap = w.cap ∧
      (w.close ts).timeBase = w.timeBase := by
  unfold close
  split
  · rename_i hc
    exact ⟨rfl, rfl, rfl, rfl, rfl, hc, rfl, rfl, rfl⟩
  · exact ⟨rfl, rfl, rfl, rfl, rfl, rfl, rfl, rfl, rfl⟩

end Wire

/-! ## All wires of a pipeline and their budget -/

/-- The wires with the budget they charge. -/
abbrev Pool := List Wire × Budget

/-- One change to one wire. -/
inductive WireMove : Pool → Pool → Prop where
  | push {ws : List Wire} {b b' : Budget} {w w' : Wire} (i : Nat) (item : Payload)
      (hw : ws[i]? = some w) (h : w.push item b = .ok (w', b')) :
      WireMove (ws, b) (ws.set i w', b')
  | pop {ws : List Wire} {b b' : Budget} {w w' : Wire} {item : Payload} (i : Nat)
      (hw : ws[i]? = some w) (h : w.pop b = some (item, w', b')) :
      WireMove (ws, b) (ws.set i w', b')
  | close {ws : List Wire} {b : Budget} {w : Wire} (i : Nat) (ts : Timestamp)
      (hw : ws[i]? = some w) : WireMove (ws, b) (ws.set i (w.close ts), b)
  | abandon {ws : List Wire} {b : Budget} {w : Wire} (i : Nat) (hw : ws[i]? = some w) :
      WireMove (ws, b) (ws.set i (w.abandon b).1, (w.abandon b).2)
  | noteStall {ws : List Wire} {b : Budget} {w : Wire} (i : Nat) (hw : ws[i]? = some w) :
      WireMove (ws, b) (ws.set i w.noteStall, b)

/-- Any number of changes. -/
abbrev WireMoves : Pool → Pool → Prop :=
  Relation.ReflTransGen WireMove

/-- The books balance: every wire is valid and the budget has committed what is queued. -/
structure Ledger (s : Pool) : Prop where
  valid : ∀ w ∈ s.1, w.Valid
  committed_eq : s.2.committed = (s.1.map Wire.bytes).sum
  pending_eq : s.2.pending = 0
  committed_le : s.2.committed ≤ s.2.limits.maxAllocTotal

/-- Every wire evolves. -/
def WiresEvolve (ws ws' : List Wire) : Prop :=
  List.Forall₂ Wire.Evolves ws ws'

section Ledger

variable {ws ws' : List Wire} {b b' : Budget} {w w' : Wire} {i : Nat} {s s' s'' : Pool}

theorem sum_bytes_set (hw : ws[i]? = some w) (w' : Wire) :
    ((ws.set i w').map Wire.bytes).sum + w.bytes = (ws.map Wire.bytes).sum + w'.bytes := by
  induction ws generalizing i with
  | nil => simp at hw
  | cons v vs ih =>
      cases i with
      | zero =>
          simp only [List.getElem?_cons_zero, Option.some.injEq] at hw
          subst hw
          simp only [List.set_cons_zero, List.map_cons, List.sum_cons]
          omega
      | succ i =>
          have hrest := ih (by simpa using hw)
          simp only [List.set_cons_succ, List.map_cons, List.sum_cons]
          omega

theorem bytes_le_sum (hw : ws[i]? = some w) : w.bytes ≤ (ws.map Wire.bytes).sum :=
  List.single_le_sum (by simp) _ (List.mem_map_of_mem (List.mem_of_getElem? hw))

theorem Ledger.set (h : Ledger (ws, b)) (hw : ws[i]? = some w) (hv : w'.Valid)
    (hb : b'.committed + w.bytes = b.committed + w'.bytes) (hp : b'.pending = 0)
    (hle : b'.committed ≤ b'.limits.maxAllocTotal) : Ledger (ws.set i w', b') where
  valid v hmem := by
    rcases List.mem_or_eq_of_mem_set hmem with hmem | rfl
    · exact h.valid v hmem
    · exact hv
  committed_eq := by
    have hsum := sum_bytes_set hw w'
    have hcommitted : b.committed = (ws.map Wire.bytes).sum := h.committed_eq
    change b'.committed = ((ws.set i w').map Wire.bytes).sum
    omega
  pending_eq := hp
  committed_le := hle

theorem Wire.Valid.push {item : Payload} (hv : w.Valid) (hsum : w.bytes + item.bytes ≤ u64Max)
    (h : w.push item b = .ok (w', b')) : w'.Valid := by
  rcases Wire.push_eq_ok h with ⟨_, rfl, _⟩ |
    ⟨ha, hc, _, _, hq, hacc, hbytes, htaken, hc', ha', _⟩
  · exact hv
  · have hfifo := hv.fifo ha
    exact {
      bytes_eq := by
        rw [hbytes, hq, satAddU64_of_le hsum, hv.bytes_eq]
        simp
      drained_of_abandoned := fun habs => by simp [ha'] at habs
      fifo := fun _ => by rw [hacc, hq, htaken, hfifo, List.append_assoc]
      taken_le := by
        rw [htaken, hacc, hfifo, List.append_assoc]
        exact List.prefix_append _ _ }

theorem Wire.Valid.pop {item : Payload} (hv : w.Valid) (h : w.pop b = some (item, w', b')) :
    w'.Valid := by
  rcases Wire.pop_eq_some h with ⟨hq, htaken, hbytes, _, hacc, hc, ha, _⟩
  -- an abandoned wire is empty, so this one is not abandoned
  have hnot : w.abandoned = false := by
    by_contra habs
    have hempty := (hv.drained_of_abandoned (by simpa using habs)).2
    rw [hq] at hempty
    cases hempty
  have hfifo := hv.fifo hnot
  exact {
    bytes_eq := by
      rw [hbytes, hv.bytes_eq, hq]
      simp
    drained_of_abandoned := fun habs => by simp [ha, hnot] at habs
    fifo := fun _ => by rw [hacc, htaken, hfifo, hq, List.append_assoc, List.singleton_append]
    taken_le := by
      rw [hacc, htaken, hfifo, hq]
      exact ⟨w'.queue, by simp⟩ }

theorem Wire.Valid.close (hv : w.Valid) (ts : Timestamp) : (w.close ts).Valid := by
  rcases w.close_fields ts with ⟨hq, hbytes, hacc, htaken, ha, hc, _⟩
  exact {
    bytes_eq := by rw [hbytes, hq, hv.bytes_eq]
    drained_of_abandoned := fun habs => by
      rw [ha] at habs
      exact ⟨hc, hq.trans (hv.drained_of_abandoned habs).2⟩
    fifo := fun hnot => by
      rw [ha] at hnot
      rw [hacc, htaken, hq, hv.fifo hnot]
    taken_le := by
      rw [hacc, htaken]
      exact hv.taken_le }

theorem Wire.Valid.abandon (hv : w.Valid) (b : Budget) : (w.abandon b).1.Valid where
  bytes_eq := rfl
  drained_of_abandoned _ := ⟨rfl, rfl⟩
  fifo h := by cases h
  taken_le := hv.taken_le

/-- Each change keeps the books. -/
theorem WireMove.ledger (hm : WireMove s s') (h : Ledger s) : Ledger s' := by
  have hcommitted := h.committed_eq
  have hpending := h.pending_eq
  have hle := h.committed_le
  cases hm with
  | @push ws b b' w w' i item hw hpush =>
      have hv := h.valid w (List.mem_of_getElem? hw)
      have hbound := bytes_le_sum hw
      have htotal := b.limits.total_le
      simp only at hcommitted hpending hle
      rcases Wire.push_eq_ok hpush with ⟨_, rfl, rfl⟩ | ⟨_, _, _, hcharge, _, _, hbytes, _⟩
      · exact h.set hw hv rfl hpending hle
      · rcases Budget.charge_eq_ok hcharge with ⟨rfl, hfits⟩
        have hsum : w.bytes + item.bytes ≤ u64Max := by omega
        refine h.set hw (hv.push hsum hpush) ?_ hpending ?_
        · rw [hbytes, satAddU64_of_le hsum]
          simp only
          omega
        · simp only
          omega
  | @pop ws b b' w w' item i hw hpop =>
      have hv := h.valid w (List.mem_of_getElem? hw)
      have hbound := bytes_le_sum hw
      rcases Wire.pop_eq_some hpop with ⟨hq, _, hbytes, rfl, _⟩
      have hitem : item.bytes ≤ w.bytes := by
        rw [hv.bytes_eq, hq]
        simp
      simp only at hcommitted hpending hle
      refine h.set hw (hv.pop hpop) ?_ hpending ?_
      · rw [hbytes, Budget.release_committed]
        omega
      · rw [Budget.release_committed, Budget.release_limits]
        omega
  | @close ws b w i ts hw =>
      have hv := h.valid w (List.mem_of_getElem? hw)
      refine h.set hw (hv.close ts) ?_ hpending hle
      rw [(w.close_fields ts).2.1]
  | @abandon ws b w i hw =>
      have hv := h.valid w (List.mem_of_getElem? hw)
      have hbound := bytes_le_sum hw
      simp only at hcommitted hpending hle
      refine h.set hw (hv.abandon b) ?_ hpending ?_
      · simp only [Wire.abandon, Budget.release_committed]
        omega
      · simp only [Wire.abandon, Budget.release_committed, Budget.release_limits]
        omega
  | @noteStall ws b w i hw =>
      have hv := h.valid w (List.mem_of_getElem? hw)
      exact h.set hw ⟨hv.bytes_eq, hv.drained_of_abandoned, hv.fifo, hv.taken_le⟩ rfl
        hpending hle

theorem WiresEvolve.set (hw : ws[i]? = some w) (h : w.Evolves w') :
    WiresEvolve ws (ws.set i w') := by
  induction ws generalizing i with
  | nil => simp at hw
  | cons v vs ih =>
      have hsame : List.Forall₂ Wire.Evolves vs vs :=
        List.forall₂_same.2 fun w _ => Wire.Evolves.refl w
      cases i with
      | zero =>
          simp only [List.getElem?_cons_zero, Option.some.injEq] at hw
          subst hw
          exact .cons h hsame
      | succ i => exact .cons (Wire.Evolves.refl v) (ih (by simpa using hw))

theorem Wire.evolves_push {item : Payload} (h : w.push item b = .ok (w', b')) :
    w.Evolves w' := by
  rcases Wire.push_eq_ok h with ⟨_, rfl, _⟩ |
    ⟨ha, hc, _, _, _, hacc, _, htaken, _, _, hfixed⟩
  · exact Wire.Evolves.refl w'
  · exact {
      closed := fun habs => by simp [hc] at habs
      abandoned := fun habs => by simp [ha] at habs
      atEof := fun habs => by simp [Wire.atEof, hc] at habs
      accepted_le := by
        rw [hacc]
        exact List.prefix_append _ _
      taken_le := by rw [htaken]
      fixed := hfixed }

theorem Wire.evolves_pop {item : Payload} (h : w.pop b = some (item, w', b')) :
    w.Evolves w' := by
  rcases Wire.pop_eq_some h with ⟨hq, htaken, _, _, hacc, hc, ha, hfixed⟩
  exact {
    closed := fun hclosed => ⟨hc.trans hclosed, hacc⟩
    abandoned := fun habs => ha.trans habs
    atEof := fun heof => by simp [Wire.atEof, hq] at heof
    accepted_le := by rw [hacc]
    taken_le := by
      rw [htaken]
      exact List.prefix_append _ _
    fixed := hfixed }

theorem Wire.evolves_close (w : Wire) (ts : Timestamp) : w.Evolves (w.close ts) := by
  rcases w.close_fields ts with ⟨hq, _, hacc, htaken, ha, hc, hfixed⟩
  exact {
    closed := fun _ => ⟨hc, hacc⟩
    abandoned := fun habs => ha.trans habs
    atEof := fun heof => by
      simp only [Wire.atEof, Bool.and_eq_true] at heof ⊢
      exact ⟨hc, hq ▸ heof.2⟩
    accepted_le := by rw [hacc]
    taken_le := by rw [htaken]
    fixed := hfixed }

/-- Each change evolves the wires. -/
theorem WireMove.evolves (hm : WireMove s s') : WiresEvolve s.1 s'.1 := by
  cases hm with
  | push i item hw hpush => exact WiresEvolve.set hw (Wire.evolves_push hpush)
  | pop i hw hpop => exact WiresEvolve.set hw (Wire.evolves_pop hpop)
  | close i ts hw => exact WiresEvolve.set hw (Wire.evolves_close _ ts)
  | abandon i hw =>
      exact WiresEvolve.set hw {
        closed := fun _ => ⟨rfl, rfl⟩
        abandoned := fun _ => rfl
        atEof := fun _ => rfl
        accepted_le := List.prefix_refl _
        taken_le := List.prefix_refl _
        fixed := ⟨rfl, rfl, rfl⟩ }
  | noteStall i hw =>
      exact WiresEvolve.set hw {
        closed := fun hc => ⟨hc, rfl⟩
        abandoned := fun ha => ha
        atEof := fun he => he
        accepted_le := List.prefix_refl _
        taken_le := List.prefix_refl _
        fixed := ⟨rfl, rfl, rfl⟩ }

theorem WiresEvolve.trans {ws'' : List Wire} (h : WiresEvolve ws ws')
    (h' : WiresEvolve ws' ws'') : WiresEvolve ws ws'' := by
  induction h generalizing ws'' with
  | nil => exact h'
  | cons hhead _ ih =>
      cases h' with
      | cons hhead' htail' => exact .cons (hhead.trans hhead') (ih htail')

theorem WiresEvolve.refl (ws : List Wire) : WiresEvolve ws ws :=
  List.forall₂_same.2 fun w _ => Wire.Evolves.refl w

theorem WiresEvolve.get (h : WiresEvolve ws ws') (hw : ws[i]? = some w) :
    ∃ w', ws'[i]? = some w' ∧ w.Evolves w' := by
  induction h generalizing i with
  | nil => simp at hw
  | @cons v v' vs vs' hhead _ ih =>
      cases i with
      | zero =>
          simp only [List.getElem?_cons_zero, Option.some.injEq] at hw
          subst hw
          exact ⟨v', rfl, hhead⟩
      | succ i => exact ih (by simpa using hw)

/-- Whatever is done to the wires, the books stay balanced. -/
theorem WireMoves.ledger (hm : WireMoves s s') (h : Ledger s) : Ledger s' := by
  induction hm with
  | refl => exact h
  | tail _ hstep ih => exact hstep.ledger ih

/-- Whatever is done to the wires, each of them evolves. -/
theorem WireMoves.evolves (hm : WireMoves s s') : WiresEvolve s.1 s'.1 := by
  induction hm with
  | refl => exact WiresEvolve.refl _
  | tail _ hstep ih => exact ih.trans hstep.evolves

end Ledger

end Sched
end Vaco
