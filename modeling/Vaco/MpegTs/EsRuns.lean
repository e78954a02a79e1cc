import Vaco.MpegTs.EsPid

/-!
# Losses on an elementary PID

PES packets are sent in transport packets of one PID, some of which are lost.  The gap is
noticed on the first packet behind the loss.

Main results:

- `Inv.step`: what one transport packet keeps.
- `marks_damage_of_insideUnits`: when exactly the damaged packets are marked.

Current gaps:

- A transport packet is sent once; the duplicates that the format admits are left out.
-/

namespace Vaco
namespace MpegTs

open Library Library.BitStream Library.ByteWords Vaco.Core

/-! ## What is sent -/

/-- A valid PES packet: its header is readable, and a declared length is its length. -/
structure PesPacket where
  bytes : Bytes
  header : PesHeader
  parse_eq : PesHeader.parse bytes = some header
  length_eq : ∀ total ∈ header.totalLen, bytes.length = total

namespace PesPacket

/-- The packet declares its length. -/
def bounded (p : PesPacket) : Bool :=
  p.header.totalLen.isSome

/-- Everything behind the header. -/
def payload (p : PesPacket) : Bytes :=
  p.bytes.drop p.header.payloadOffset

end PesPacket

/-- A transport packet at a byte position, with the PES packet it carries; delivered or lost. -/
structure Sent where
  unit : Nat
  packet : TsPacket
  pos : Nat
  kept : Bool

/-- The number of packets with a payload. -/
def payloads (sent : List Sent) : Nat :=
  sent.countP fun e => e.packet.header.hasPayload

/-- An undamaged, unscrambled packet that signals no discontinuity. -/
structure Sent.Plain (e : Sent) (bytes : Bytes) (counter : Nat) : Prop where
  noError : e.packet.header.transportError = false
  clear : e.packet.header.isScrambled = false
  continuous : e.packet.discontinuity = false
  payload : e.packet.payload = bytes
  counter : e.packet.header.continuity = counter % 16

/-- The packets carry `k` PES packets from the beginning, the last of them but for the bytes `rest`;
a packet without a payload repeats the counter before it. -/
inductive Carries (first : Nat) (pes : List PesPacket) : List Sent → Nat → Bytes → Prop where
  | nil : Carries first pes [] 0 []
  | start {sent : List Sent} {k : Nat} {p : PesPacket} {head rest : Bytes} {e : Sent}
      (h : Carries first pes sent k []) (hp : pes[k]? = some p)
      (hbytes : p.bytes = head ++ rest) (hhead : head ≠ [])
      (hplain : e.Plain head (first + payloads sent))
      (hpayload : e.packet.header.hasPayload = true)
      (hstart : e.packet.header.payloadUnitStart = true) (hunit : e.unit = k)
      (hpos : ∀ e' ∈ sent, e'.pos < e.pos) : Carries first pes (sent ++ [e]) (k + 1) rest
  | more {sent : List Sent} {k : Nat} {bytes rest : Bytes} {e : Sent}
      (h : Carries first pes sent (k + 1) (bytes ++ rest)) (hbytes : bytes ≠ [])
      (hplain : e.Plain bytes (first + payloads sent))
      (hpayload : e.packet.header.hasPayload = true)
      (hstart : e.packet.header.payloadUnitStart = false) (hunit : e.unit = k)
      (hpos : ∀ e' ∈ sent, e'.pos < e.pos) : Carries first pes (sent ++ [e]) (k + 1) rest
  | filler {sent : List Sent} {k : Nat} {rest : Bytes} {e : Sent}
      (h : Carries first pes sent k rest)
      (hplain : e.Plain [] (first + payloads sent + 15))
      (hpayload : e.packet.header.hasPayload = false)
      (hstart : e.packet.header.payloadUnitStart = false)
      (hpos : ∀ e' ∈ sent, e'.pos < e.pos) : Carries first pes (sent ++ [e]) k rest

def Lost (u : Nat) (sent : List Sent) : Prop :=
  ∃ e ∈ sent, e.packet.header.hasPayload = true ∧ e.unit = u ∧ e.kept = false

/-- PES packet `u` starts at a byte position. -/
def StartsAt (u pos : Nat) (sent : List Sent) : Prop :=
  ∃ e ∈ sent, e.packet.header.payloadUnitStart = true ∧ e.unit = u ∧ e.pos = pos

/-- All of these packets were lost. -/
def Missing (lost : List Sent) : Prop :=
  ∀ e ∈ lost, e.kept = false

/-- The packets end with one that was delivered. -/
def LastKept (sent : List Sent) : Prop :=
  ∃ earlier e, sent = earlier ++ [e] ∧ e.kept = true

/-- Fewer than 16 consecutive packets are lost at a time. -/
def ShortLosses (sent : List Sent) : Prop :=
  ∀ before lost after, sent = before ++ lost ++ after → Missing lost → lost.length < 16

/-! ## Reading -/

/-- The state of the PID, and everything handed on. -/
structure Reader where
  demuxer : PidDemuxer
  flushes : List Flush

namespace Reader

/-- Take in what a call hands on.  A call that fails is followed by the next one. -/
def handled (r : Reader) (h : PidDemuxer.Handled) : Reader where
  demuxer := h.demuxer
  flushes := r.flushes ++ h.flushes

/-- One transport packet: it reaches the demultiplexer if it is delivered. -/
def step (kind : StreamKind) (r : Reader) (e : Sent) : Reader :=
  if e.kept then r.handled (r.demuxer.handleEs kind e.packet e.pos) else r

/-- All transport packets. -/
def readAll (kind : StreamKind) (r : Reader) (sent : List Sent) : Reader :=
  sent.foldl (step kind) r

/-- The end of the input. -/
def finish (kind : StreamKind) (r : Reader) : Reader :=
  r.handled (r.demuxer.flushAll kind)

end Reader

/-- The state of a PID of which nothing was read. -/
def EsPid.new : EsPid where
  buf := []
  total := none
  started := false
  cc := none
  pos := 0
  corrupt := false
  key := false
  discontinuity := false
  held := []

/-- Before the first transport packet of the PID. -/
def Reader.new (clock : ProgramClock) (budget : Sched.Budget) (queue : List EsPacket) :
    Reader where
  demuxer :=
    { es := .new
      clock
      budget
      queue
      stats := {} }
  flushes := []

/-- The memory budget refuses no payload that is collected. -/
def NoneRefused (kind : StreamKind) : Reader → List Sent → Prop
  | _, [] => True
  | r, e :: sent =>
      (e.kept = true → r.demuxer.HasRoom kind e.packet) ∧ NoneRefused kind (r.step kind e) sent

instance decidableNoneRefused (kind : StreamKind) :
    (r : Reader) → (sent : List Sent) → Decidable (NoneRefused kind r sent)
  | _, [] => isTrue trivial
  | r, e :: sent =>
      have := decidableNoneRefused kind (r.step kind e) sent
      inferInstanceAs (Decidable ((e.kept = true → r.demuxer.HasRoom kind e.packet) ∧
        NoneRefused kind (r.step kind e) sent))

/-- An unmarked output is cut from the payload of one PES packet, and a marked one started as one of
which a packet was lost. -/
def MarksDamage (kind : StreamKind) (pes : List PesPacket) (sent : List Sent)
    (flushes : List Flush) : Prop :=
  ∀ f ∈ flushes, ∀ packet ∈ f.packets,
    (packet.corrupt = false → ∃ p ∈ pes, packet.payload ∈ cutBytes kind p.payload) ∧
      (packet.corrupt = true → ∀ e ∈ sent, e.packet.header.payloadUnitStart = true →
        e.pos = f.start → Lost e.unit sent)

/-- The first packet delivered behind the loss starts no PES packet and is no duplicate; a loss of a
start lies behind a PES packet of known length or a damaged one. -/
structure NoticedInside (pes : List PesPacket) (before lost : List Sent) (e : Sent) : Prop where
  not_start : e.packet.header.payloadUnitStart = false
  not_duplicate : e.packet.header.hasPayload = true → payloads lost ≠ 15
  start_lost : ∀ s ∈ lost, s.packet.header.payloadUnitStart = true →
    ∀ u p, s.unit = u + 1 → pes[u]? = some p → p.bounded = false → Lost u (before ++ lost)

/-- Every loss of a payload behind a delivered packet is noticed inside the PES packet that
it damaged. -/
def EachNoticed (pes : List PesPacket) (sent : List Sent) : Prop :=
  ∀ before lost e after, sent = before ++ lost ++ e :: after → LastKept before →
    Missing lost → 0 < payloads lost → e.kept = true → NoticedInside pes before lost e

/-- Every loss is noticed inside the PES packet it damaged, one at the end behind an earlier one. -/
structure InsideUnits (pes : List PesPacket) (sent : List Sent) : Prop where
  noticed : EachNoticed pes sent
  ending : ∀ before lost, sent = before ++ lost → LastKept before → Missing lost →
    ∀ u pos, StartsAt u pos before → Lost u lost → Lost u before

/-! ## What the packets carry -/

namespace PesPacket

variable {p : PesPacket} {kind : StreamKind}

theorem collectedPayload_eq (p : PesPacket) : collectedPayload p.header p.bytes = p.payload := by
  unfold collectedPayload payload
  cases htotal : p.header.totalLen with
  | none => rw [Option.getD_none, Nat.min_self, List.take_length]
  | some total =>
      have hlen := p.length_eq total htotal
      rw [Option.getD_some, ← hlen, Nat.min_self, List.take_length]

theorem declaredTotal_eq (p : PesPacket) : declaredTotal p.bytes = p.header.totalLen :=
  (PesHeader.parse_declared p.parse_eq).2

theorem eq_nil_of_complete {buf rest : Bytes} (hbytes : p.bytes = buf ++ rest)
    (hcomplete : (declaredTotal buf).any (· ≤ buf.length) = true) : rest = [] := by
  cases htotal : declaredTotal buf with
  | none =>
      rw [htotal] at hcomplete
      cases hcomplete
  | some total =>
      have hlen : total ≤ buf.length := by
        rw [htotal] at hcomplete
        exact of_decide_eq_true hcomplete
      have hwhole := declaredTotal_append (le_length_of_declaredTotal htotal) rest
      rw [← hbytes, p.declaredTotal_eq, htotal] at hwhole
      have hall := p.length_eq total hwhole
      rw [hbytes, List.length_append] at hall
      exact List.length_eq_zero_iff.1 (by omega)

theorem bounded_eq_false (h : ¬ (declaredTotal p.bytes).any (· ≤ p.bytes.length) = true) :
    p.bounded = false := by
  rw [p.declaredTotal_eq] at h
  unfold bounded
  cases htotal : p.header.totalLen with
  | none => rfl
  | some total =>
      rw [htotal] at h
      have hlen := p.length_eq total htotal
      exact absurd (decide_eq_true (Nat.le_of_eq hlen.symm)) h

end PesPacket

theorem payloads_append (sent later : List Sent) :
    payloads (sent ++ later) = payloads sent + payloads later :=
  List.countP_append

theorem payloads_singleton (e : Sent) :
    payloads [e] = if e.packet.header.hasPayload then 1 else 0 :=
  List.countP_singleton

theorem Lost.append {u : Nat} {sent : List Sent} (h : Lost u sent) (later : List Sent) :
    Lost u (sent ++ later) := by
  rcases h with ⟨e, he, hlost⟩
  exact ⟨e, List.mem_append_left later he, hlost⟩

theorem Lost.of_append {u : Nat} {sent later : List Sent} (h : Lost u (sent ++ later))
    (hlater : ¬ Lost u later) : Lost u sent := by
  rcases h with ⟨e, he, hlost⟩
  rcases List.mem_append.1 he with he | he
  · exact ⟨e, he, hlost⟩
  · exact absurd ⟨e, he, hlost⟩ hlater

theorem not_lost_of_kept {u : Nat} {e : Sent} (hkept : e.kept = true) : ¬ Lost u [e] := by
  rintro ⟨s, hs, _, _, hlost⟩
  rw [List.mem_singleton.1 hs, hkept] at hlost
  cases hlost

theorem not_lost_of_payloads {u : Nat} {lost : List Sent} (h : payloads lost = 0) :
    ¬ Lost u lost := by
  rintro ⟨s, hs, hpayload, _⟩
  have hpos : 0 < payloads lost := List.countP_pos_iff.2 ⟨s, hs, hpayload⟩
  omega

theorem StartsAt.append {u pos : Nat} {sent : List Sent} (h : StartsAt u pos sent)
    (later : List Sent) : StartsAt u pos (sent ++ later) := by
  rcases h with ⟨e, he, hstart⟩
  exact ⟨e, List.mem_append_left later he, hstart⟩

namespace Carries

variable {first : Nat} {pes : List PesPacket} {sent : List Sent} {k : Nat} {rest : Bytes}
  {e : Sent}

/-- What the last packet is. -/
theorem of_concat (h : Carries first pes (sent ++ [e]) k rest) :
    (∃ j p head, k = j + 1 ∧ Carries first pes sent j [] ∧ pes[j]? = some p ∧
        p.bytes = head ++ rest ∧ e.packet.payload = head ∧
          e.packet.header.payloadUnitStart = true ∧ e.packet.header.hasPayload = true ∧
            e.unit = j) ∨
      (∃ j bytes, k = j + 1 ∧ Carries first pes sent (j + 1) (bytes ++ rest) ∧ bytes ≠ [] ∧
        e.packet.payload = bytes ∧ e.packet.header.payloadUnitStart = false ∧
          e.packet.header.hasPayload = true ∧ e.unit = j) ∨
        Carries first pes sent k rest ∧ e.packet.header.payloadUnitStart = false ∧
          e.packet.header.hasPayload = false := by
  generalize hall : sent ++ [e] = all at h
  cases h with
  | nil => exact absurd (List.append_eq_nil_iff.1 hall).2 (List.cons_ne_nil _ _)
  | start h hp hbytes hhead hplain hpayload hstart hunit hpos =>
      rcases List.append_inj' hall rfl with ⟨rfl, hlast⟩
      cases hlast
      exact .inl ⟨_, _, _, rfl, h, hp, hbytes, hplain.payload, hstart, hpayload, hunit⟩
  | more h hbytes hplain hpayload hstart hunit hpos =>
      rcases List.append_inj' hall rfl with ⟨rfl, hlast⟩
      cases hlast
      exact .inr (.inl ⟨_, _, rfl, h, hbytes, hplain.payload, hstart, hpayload, hunit⟩)
  | filler h hplain hpayload hstart hpos =>
      rcases List.append_inj' hall rfl with ⟨rfl, hlast⟩
      cases hlast
      exact .inr (.inr ⟨h, hstart, hpayload⟩)

/-- The packets determine what they carry. -/
theorem unique (h : Carries first pes sent k rest) {k' : Nat} {rest' : Bytes}
    (h' : Carries first pes sent k' rest') : k = k' ∧ rest = rest' := by
  induction h generalizing k' rest' with
  | nil =>
      generalize hall : ([] : List Sent) = all at h'
      cases h' with
      | nil => exact ⟨rfl, rfl⟩
      | start => exact absurd hall.symm (by simp)
      | more => exact absurd hall.symm (by simp)
      | filler => exact absurd hall.symm (by simp)
  | start _ hp hbytes _ hplain hpayload hstart _ _ ih =>
      rcases h'.of_concat with ⟨j, p', head', rfl, h, hp', hbytes', hhead', _⟩ |
        ⟨j, bytes, rfl, _, _, _, hstart', _⟩ | ⟨_, hstart', _⟩
      · rcases ih h with ⟨rfl, _⟩
        rw [hp] at hp'
        cases hp'
        rw [hplain.payload] at hhead'
        rw [← hhead', hbytes] at hbytes'
        exact ⟨rfl, List.append_cancel_left hbytes'⟩
      · rw [hstart] at hstart'
        cases hstart'
      · rw [hstart] at hstart'
        cases hstart'
  | more _ _ hplain hpayload hstart _ _ ih =>
      rcases h'.of_concat with ⟨j, p', head', rfl, _, _, _, _, hstart', _⟩ |
        ⟨j, bytes, rfl, h, _, hbytes', _⟩ | ⟨_, _, hpayload'⟩
      · rw [hstart] at hstart'
        cases hstart'
      · rcases ih h with ⟨hk, hrest⟩
        rw [hplain.payload] at hbytes'
        rw [← hbytes'] at hrest
        exact ⟨hk, List.append_cancel_left hrest⟩
      · rw [hpayload] at hpayload'
        cases hpayload'
  | filler _ _ hpayload hstart _ ih =>
      rcases h'.of_concat with ⟨j, p', head', rfl, _, _, _, _, hstart', _⟩ |
        ⟨j, bytes, rfl, _, _, _, _, hpayload', _⟩ | ⟨h, _, _⟩
      · rw [hstart] at hstart'
        cases hstart'
      · rw [hpayload] at hpayload'
        cases hpayload'
      · exact ih h

/-- Every packet has its own position. -/
theorem eq_of_pos (h : Carries first pes sent k rest) :
    ∀ e ∈ sent, ∀ e' ∈ sent, e.pos = e'.pos → e = e' := by
  have hstep : ∀ {earlier : List Sent} {last : Sent},
      (∀ e ∈ earlier, ∀ e' ∈ earlier, e.pos = e'.pos → e = e') →
        (∀ e' ∈ earlier, e'.pos < last.pos) →
          ∀ e ∈ earlier ++ [last], ∀ e' ∈ earlier ++ [last], e.pos = e'.pos → e = e' := by
    intro earlier last hearlier hpos e he e' he' heq
    rcases List.mem_append.1 he with he | he
    · rcases List.mem_append.1 he' with he' | he'
      · exact hearlier e he e' he' heq
      · rw [List.mem_singleton.1 he'] at heq
        exact absurd heq (Nat.ne_of_lt (hpos e he))
    · rcases List.mem_append.1 he' with he' | he'
      · rw [List.mem_singleton.1 he] at heq
        exact absurd heq.symm (Nat.ne_of_lt (hpos e' he'))
      · rw [List.mem_singleton.1 he, List.mem_singleton.1 he']
  induction h with
  | nil =>
      intro e he
      cases he
  | start _ _ _ _ _ _ _ _ hpos ih => exact hstep ih hpos
  | more _ _ _ _ _ _ hpos ih => exact hstep ih hpos
  | filler _ _ _ _ hpos ih => exact hstep ih hpos

/-- The payloads sent are of the PES packets that have started. -/
theorem unit_lt (h : Carries first pes sent k rest) :
    ∀ e ∈ sent, e.packet.header.hasPayload = true → e.unit < k := by
  induction h with
  | nil =>
      intro e he
      cases he
  | start _ _ _ _ _ _ _ hunit _ ih =>
      intro e he hpayload
      rcases List.mem_append.1 he with he | he
      · exact Nat.lt_succ_of_lt (ih e he hpayload)
      · rw [List.mem_singleton.1 he, hunit]
        exact Nat.lt_succ_self _
  | more _ _ _ _ _ hunit _ ih =>
      intro e he hpayload
      rcases List.mem_append.1 he with he | he
      · exact ih e he hpayload
      · rw [List.mem_singleton.1 he, hunit]
        exact Nat.lt_succ_self _
  | filler _ _ hnone _ _ ih =>
      intro e he hpayload
      rcases List.mem_append.1 he with he | he
      · exact ih e he hpayload
      · rw [List.mem_singleton.1 he, hnone] at hpayload
        cases hpayload

theorem not_lost (h : Carries first pes sent k rest) : ¬ Lost k sent := by
  rintro ⟨e, he, hpayload, hunit, _⟩
  exact absurd hunit (Nat.ne_of_lt (h.unit_lt e he hpayload))

/-- Packets carry nothing, or first continue the PES packet in progress or start the next one. -/
theorem advance (h : Carries first pes sent k rest) (lost : List Sent) {k' : Nat} {rest' : Bytes}
    (h' : Carries first pes (sent ++ lost) k' rest') :
    (payloads lost = 0 ∧ k' = k ∧ rest' = rest) ∨
      ∃ e ∈ lost, e.packet.header.hasPayload = true ∧
        ((rest ≠ [] ∧ e.unit + 1 = k) ∨
          (rest = [] ∧ e.packet.header.payloadUnitStart = true ∧ e.unit = k)) := by
  induction lost using List.reverseRecOn generalizing k' rest' with
  | nil =>
      rw [List.append_nil] at h'
      rcases h.unique h' with ⟨rfl, rfl⟩
      exact .inl ⟨rfl, rfl, rfl⟩
  | append_singleton lost last ih =>
      have hmem : last ∈ lost ++ [last] := List.mem_append_right lost (List.mem_singleton.2 rfl)
      rw [← List.append_assoc] at h'
      have hearlier : ∀ {j : Nat} {before : Bytes}, Carries first pes (sent ++ lost) j before →
          (payloads lost = 0 ∧ j = k ∧ before = rest) ∨
            ∃ e ∈ lost ++ [last], e.packet.header.hasPayload = true ∧
              ((rest ≠ [] ∧ e.unit + 1 = k) ∨
                (rest = [] ∧ e.packet.header.payloadUnitStart = true ∧ e.unit = k)) := by
        intro j before hcarries
        rcases ih hcarries with hnone | ⟨e, he, hfirst⟩
        · exact .inl hnone
        · exact .inr ⟨e, List.mem_append_left _ he, hfirst⟩
      rcases h'.of_concat with ⟨j, p, head, rfl, hj, _, _, _, hstart, hpayload, hunit⟩ |
        ⟨j, bytes, rfl, hj, hbytes, _, _, hpayload, hunit⟩ | ⟨hj, _, hpayload⟩
      · rcases hearlier hj with ⟨_, rfl, hrest⟩ | hsome
        · exact .inr ⟨last, hmem, hpayload, .inr ⟨hrest.symm, hstart, hunit⟩⟩
        · exact .inr hsome
      · rcases hearlier hj with ⟨_, hk, hrest⟩ | hsome
        · refine .inr ⟨last, hmem, hpayload, .inl ⟨?_, by rw [hunit, hk]⟩⟩
          rw [← hrest]
          simp [hbytes]
        · exact .inr hsome
      · rcases hearlier hj with ⟨hnone, hk, hrest⟩ | hsome
        · refine .inl ⟨?_, hk, hrest⟩
          rw [payloads_append, hnone, payloads_singleton, hpayload]
          rfl
        · exact .inr hsome

end Carries

/-! ## What is being collected -/

/-- No PES packet is in progress, or a damaged and marked one, or all that was sent of it is
collected. -/
inductive Collecting (first : Nat) (pes : List PesPacket) (before : List Sent) (es : EsPid) :
    Prop where
  | idle (hstarted : es.started = false)
  | damaged {u : Nat} (hcorrupt : es.corrupt = true) (hstart : StartsAt u es.pos before)
      (hlost : Lost u before)
  | whole {k : Nat} {p : PesPacket} {rest : Bytes} (hcorrupt : es.corrupt = false)
      (hstart : StartsAt k es.pos before) (hp : pes[k]? = some p)
      (hbytes : p.bytes = es.buf ++ rest) (htotal : es.total = declaredTotal es.buf)
      (hbuf : es.buf ≠ []) (hcarries : Carries first pes before (k + 1) rest)
      (hopen : ¬ es.total.any (· ≤ es.buf.length) = true) (hwhole : ¬ Lost k before)

/-- What a flush hands on without the mark is cut from one PES packet; with the mark it
started as a damaged one. -/
def HonestFlush (kind : StreamKind) (pes : List PesPacket) (sent : List Sent) (f : Flush) :
    Prop :=
  ∀ packet ∈ f.packets,
    (packet.corrupt = false → ∃ p ∈ pes, packet.payload ∈ cutBytes kind p.payload) ∧
      (packet.corrupt = true → ∃ u, StartsAt u f.start sent ∧ Lost u sent)

/-- A call handed on what it may, and left a state to go on with. -/
structure Settled (kind : StreamKind) (first : Nat) (pes : List PesPacket) (sent : List Sent)
    (h : PidDemuxer.Handled) : Prop where
  honest : ∀ f ∈ h.flushes, HonestFlush kind pes sent f
  collecting : Collecting first pes sent h.demuxer.es

theorem HonestFlush.append {kind : StreamKind} {pes : List PesPacket} {sent : List Sent}
    {f : Flush} (h : HonestFlush kind pes sent f) (later : List Sent) :
    HonestFlush kind pes (sent ++ later) f := by
  intro packet hpacket
  rcases h packet hpacket with ⟨hclear, hmarked⟩
  refine ⟨hclear, ?_⟩
  intro hcorrupt
  rcases hmarked hcorrupt with ⟨u, hstart, hlost⟩
  exact ⟨u, hstart.append later, hlost.append later⟩

namespace PidDemuxer

variable {kind : StreamKind} {first : Nat} {pes : List PesPacket} {sent : List Sent}
  {d : PidDemuxer} {payload : Bytes}

theorem flush_damaged {u : Nat} (hcorrupt : d.es.corrupt = true)
    (hstart : StartsAt u d.es.pos sent) (hlost : Lost u sent) :
    HonestFlush kind pes sent ⟨d.es.pos, (d.flushPes kind).2.1⟩ := by
  intro packet hpacket
  rcases flushPes_packets hpacket with ⟨hmark, _⟩
  rw [hcorrupt] at hmark
  refine ⟨?_, fun _ => ⟨u, hstart, hlost⟩⟩
  intro hclear
  rw [hmark] at hclear
  cases hclear

theorem flush_whole {p : PesPacket} (hcorrupt : d.es.corrupt = false) (hp : p ∈ pes)
    (hbuf : d.es.buf = p.bytes) :
    HonestFlush kind pes sent ⟨d.es.pos, (d.flushPes kind).2.1⟩ := by
  intro packet hpacket
  rcases flushPes_packets hpacket with ⟨hmark, header, hparse, hpayload⟩
  rw [hcorrupt] at hmark
  rw [hbuf, p.parse_eq] at hparse
  rw [hbuf, ← Option.some.inj hparse, p.collectedPayload_eq] at hpayload
  refine ⟨fun _ => ⟨p, hp, hpayload⟩, ?_⟩
  intro hmarked
  rw [hmark] at hmarked
  cases hmarked

theorem collect_damaged {u : Nat} (hroom : (d.budget.charge payload.length).isOk = true)
    (hcorrupt : d.es.corrupt = true) (hstart : StartsAt u d.es.pos sent) (hlost : Lost u sent) :
    Settled kind first pes sent (d.collect kind payload) := by
  rcases collect_cases kind hroom with ⟨hnone, hidle⟩ | ⟨hnone, hgrown, _⟩ |
    ⟨d', hes, _, hflush, hflushed⟩
  · exact ⟨by simp [hnone], .idle hidle⟩
  · refine ⟨by simp [hnone], ?_⟩
    rw [hgrown]
    exact .damaged hcorrupt hstart hlost
  · have hpos : d'.es.pos = d.es.pos := by
      rw [hes]
      rfl
    refine ⟨?_, ?_⟩
    · intro f hf
      rw [hflush, List.mem_singleton] at hf
      rw [hf, ← hpos]
      rw [← hpos] at hstart
      exact flush_damaged (by rw [hes]; exact hcorrupt) hstart hlost
    · rw [hflushed]
      exact .idle flushPes_started

theorem collect_whole {k : Nat} {p : PesPacket} {rest : Bytes}
    (hroom : (d.budget.charge payload.length).isOk = true) (hcorrupt : d.es.corrupt = false)
    (hstart : StartsAt k d.es.pos sent) (hp : pes[k]? = some p)
    (hbytes : p.bytes = d.es.buf ++ payload ++ rest) (htotal : d.es.total = declaredTotal d.es.buf)
    (hpayload : payload ≠ []) (hcarries : Carries first pes sent (k + 1) rest)
    (hwhole : ¬ Lost k sent) : Settled kind first pes sent (d.collect kind payload) := by
  have hgrownTotal : (d.grown payload).total = declaredTotal (d.grown payload).buf :=
    grown_total htotal payload
  have hgrownBytes : p.bytes = (d.grown payload).buf ++ rest := hbytes
  rcases collect_cases kind hroom with ⟨hnone, hidle⟩ | ⟨hnone, hgrown, hopen⟩ |
    ⟨d', hes, hcomplete, hflush, hflushed⟩
  · exact ⟨by simp [hnone], .idle hidle⟩
  · refine ⟨by simp [hnone], ?_⟩
    rw [hgrown]
    refine .whole hcorrupt hstart hp hgrownBytes hgrownTotal ?_ hcarries hopen hwhole
    exact fun hnil => hpayload (List.append_eq_nil_iff.1 hnil).2
  · have hpos : d'.es.pos = d.es.pos := by
      rw [hes]
      rfl
    rw [hgrownTotal] at hcomplete
    have hrest := p.eq_nil_of_complete hgrownBytes hcomplete
    refine ⟨?_, ?_⟩
    · intro f hf
      rw [hflush, List.mem_singleton] at hf
      rw [hf, ← hpos]
      refine flush_whole (by rw [hes]; exact hcorrupt) (List.mem_of_getElem? hp) ?_
      rw [hes, hgrownBytes, hrest, List.append_nil]
    · rw [hflushed]
      exact .idle flushPes_started

theorem marked_false (d : PidDemuxer) : d.marked false = d := by
  unfold marked
  rw [Bool.or_false]

/-- The first bytes of a PES packet are collected. -/
theorem enter_start {k : Nat} {p : PesPacket} {head rest : Bytes} {e : Sent} {counter : Nat}
    (hroom : (d.budget.charge head.length).isOk = true) (hp : pes[k]? = some p)
    (hbytes : p.bytes = head ++ rest) (hhead : head ≠ [])
    (hplain : e.Plain head counter) (hpayload : e.packet.header.hasPayload = true)
    (hstart : e.packet.header.payloadUnitStart = true) (hunit : e.unit = k)
    (hkept : e.kept = true) (hsent : Carries first pes sent k [])
    (hcarries : Carries first pes (sent ++ [e]) (k + 1) rest) :
    Settled kind first pes (sent ++ [e]) (d.enter kind e.packet e.pos false) := by
  have hstarts : StartsAt k e.pos (sent ++ [e]) :=
    ⟨e, List.mem_append_right sent (List.mem_singleton.2 rfl), hstart, hunit, rfl⟩
  have hsettled : Settled kind first pes (sent ++ [e])
      (((d.startUnit e.packet e.pos).marked false).collect kind head) := by
    unfold startUnit
    rw [if_pos hstart]
    exact collect_whole hroom rfl hstarts hp hbytes rfl hhead hcarries
      (fun hlost => hsent.not_lost (hlost.of_append (not_lost_of_kept hkept)))
  unfold enter
  dsimp only
  have hopen : ¬ (!((d.startUnit e.packet e.pos).marked false).es.started ||
      !e.packet.header.hasPayload) = true := by
    unfold startUnit
    rw [if_pos hstart, hpayload]
    exact Bool.false_ne_true
  rw [if_neg hopen, hplain.clear, if_neg Bool.false_ne_true, hplain.payload]
  exact hsettled

theorem enter_inside {pkt : TsPacket} {pos : Nat} {corruptNow : Bool}
    (hstart : pkt.header.payloadUnitStart = false) (hclear : pkt.header.isScrambled = false) :
    d.enter kind pkt pos corruptNow =
      if !d.es.started || !pkt.header.hasPayload then ⟨d.marked corruptNow, [], none⟩
      else (d.marked corruptNow).collect kind pkt.payload := by
  have hsame : d.startUnit pkt pos = d := by
    unfold startUnit
    rw [hstart, if_neg Bool.false_ne_true]
  unfold enter
  dsimp only
  rw [hsame, hclear]
  rfl

theorem HasRoom.inside {pkt : TsPacket} (h : d.HasRoom kind pkt)
    (hpayload : pkt.header.hasPayload = true) (hstart : pkt.header.payloadUnitStart = false)
    (hstarted : d.es.started = true) : (d.budget.charge pkt.payload.length).isOk = true := by
  have hcharged := h hpayload (.inr hstarted)
  unfold charging at hcharged
  rw [if_neg fun hpending => absurd (hstart.symm.trans hpending.1) Bool.false_ne_true] at hcharged
  exact hcharged

/-- Further bytes of the PES packet in progress are collected. -/
theorem enter_more {k : Nat} {bytes rest : Bytes} {e : Sent} {counter : Nat} {corruptNow : Bool}
    (hroom : d.es.started = true → (d.budget.charge bytes.length).isOk = true)
    (h : Collecting first pes sent (d.marked corruptNow).es)
    (hsent : Carries first pes sent (k + 1) (bytes ++ rest)) (hbytes : bytes ≠ [])
    (hplain : e.Plain bytes counter) (hpayload : e.packet.header.hasPayload = true)
    (hstart : e.packet.header.payloadUnitStart = false) (hkept : e.kept = true)
    (hcarries : Carries first pes (sent ++ [e]) (k + 1) rest) :
    Settled kind first pes (sent ++ [e]) (d.enter kind e.packet e.pos corruptNow) := by
  rw [enter_inside hstart hplain.clear, hpayload, hplain.payload]
  cases hstarted : d.es.started with
  | false => exact ⟨by simp, .idle hstarted⟩
  | true =>
      rw [if_neg (by simp)]
      cases h with
      | idle hidle => exact absurd (hidle.symm.trans hstarted) Bool.false_ne_true
      | damaged hcorrupt hstartsAt hlost =>
          exact collect_damaged (hroom hstarted) hcorrupt (hstartsAt.append _) (hlost.append _)
      | whole hcorrupt hstartsAt hp hprefix htotal _ hwire _ hwhole =>
          rcases hwire.unique hsent with ⟨hk, hrest⟩
          cases hk
          rw [hrest, ← List.append_assoc] at hprefix
          exact collect_whole (hroom hstarted) hcorrupt (hstartsAt.append _) hp hprefix htotal
            hbytes hcarries (fun hlost => hwhole (hlost.of_append (not_lost_of_kept hkept)))

theorem enter_filler {k : Nat} {rest : Bytes} {e : Sent} {counter : Nat} {corruptNow : Bool}
    (h : Collecting first pes sent (d.marked corruptNow).es)
    (hsent : Carries first pes sent k rest) (hplain : e.Plain [] counter)
    (hpayload : e.packet.header.hasPayload = false)
    (hstart : e.packet.header.payloadUnitStart = false) (hkept : e.kept = true)
    (hcarries : Carries first pes (sent ++ [e]) k rest) :
    Settled kind first pes (sent ++ [e]) (d.enter kind e.packet e.pos corruptNow) := by
  rw [enter_inside hstart hplain.clear, hpayload, if_pos (by simp)]
  refine ⟨by simp, ?_⟩
  cases h with
  | idle hidle => exact .idle hidle
  | damaged hcorrupt hstartsAt hlost =>
      exact .damaged hcorrupt (hstartsAt.append _) (hlost.append _)
  | whole hcorrupt hstartsAt hp hprefix htotal hbuf hwire hopen hwhole =>
      rcases hwire.unique hsent with ⟨rfl, rfl⟩
      exact .whole hcorrupt (hstartsAt.append _) hp hprefix htotal hbuf hcarries hopen
        (fun hlost => hwhole (hlost.of_append (not_lost_of_kept hkept)))

theorem handleEs_inside {pkt : TsPacket} {pos : Nat} {cc : Option Nat} {verdict : Continuity}
    (herror : pkt.header.transportError = false) (hcontinuous : pkt.discontinuity = false)
    (hcheck : checkContinuity d.es.cc pkt.header.continuity pkt.header.hasPayload false =
      (cc, verdict))
    (hverdict : verdict ≠ .duplicate) (hstart : pkt.header.payloadUnitStart = false) :
    d.handleEs kind pkt pos =
      (d.noted cc false (decide (verdict = .gap))).enter kind pkt pos
        (decide (verdict = .gap)) := by
  unfold handleEs
  simp only [hcontinuous, hcheck, hverdict, if_false, herror, hstart, Bool.false_or,
    Bool.false_eq_true, false_and]

theorem handleEs_start {pkt : TsPacket} {pos : Nat} {cc : Option Nat}
    (herror : pkt.header.transportError = false) (hcontinuous : pkt.discontinuity = false)
    (hcheck : checkContinuity d.es.cc pkt.header.continuity pkt.header.hasPayload false =
      (cc, .ok))
    (hstart : pkt.header.payloadUnitStart = true) :
    d.handleEs kind pkt pos =
      let noted := d.noted cc false false
      if noted.es.started ∧ noted.es.buf ≠ [] then
        let flushed := noted.flushPes kind
        if flushed.2.2.isSome then ⟨flushed.1, [⟨noted.es.pos, flushed.2.1⟩], flushed.2.2⟩
        else
          let entered := flushed.1.enter kind pkt pos false
          ⟨entered.demuxer, ⟨noted.es.pos, flushed.2.1⟩ :: entered.flushes, entered.error⟩
      else noted.enter kind pkt pos false := by
  have hok : decide (Continuity.ok = .gap) = false := by decide
  unfold handleEs
  simp only [hcontinuous, hcheck, herror, hstart, hok, Bool.false_or, true_and]
  rfl

end PidDemuxer

/-! ## From one packet to the next -/

/-- The state behind some packets, the last of them delivered; or nothing was delivered. -/
inductive Behind (first : Nat) (pes : List PesPacket) (before : List Sent) (es : EsPid) :
    Prop where
  | fresh (hnil : before = []) (hcc : es.cc = none) (hstarted : es.started = false)
  | seen (hlast : LastKept before) (hcc : es.cc = some ((first + payloads before + 15) % 16))
      (hcollecting : Collecting first pes before es)

/-- What holds of everything handed on, and of the state, behind some packets. -/
structure Inv (kind : StreamKind) (first : Nat) (pes : List PesPacket) (sent : List Sent)
    (r : Reader) : Prop where
  honest : ∀ f ∈ r.flushes, HonestFlush kind pes sent f
  state : ∃ before lost, sent = before ++ lost ∧ Missing lost ∧
    Behind first pes before r.demuxer.es

namespace Collecting

variable {first : Nat} {pes : List PesPacket} {before lost : List Sent} {es : EsPid} {k : Nat}
  {rest : Bytes}

theorem over_nothing (h : Collecting first pes before es)
    (hcarries : Carries first pes (before ++ lost) k rest) (hnone : payloads lost = 0) :
    Collecting first pes (before ++ lost) es := by
  cases h with
  | idle hidle => exact .idle hidle
  | damaged hcorrupt hstart hlost => exact .damaged hcorrupt (hstart.append _) (hlost.append _)
  | whole hcorrupt hstart hp hbytes htotal hbuf hwire hopen hwhole =>
      rcases hwire.advance lost hcarries with ⟨_, rfl, rfl⟩ | ⟨e, he, hpayload, _⟩
      · exact .whole hcorrupt (hstart.append _) hp hbytes htotal hbuf hcarries hopen
          (fun hlost => hwhole (hlost.of_append (not_lost_of_payloads hnone)))
      · have hpos : 0 < payloads lost := List.countP_pos_iff.2 ⟨e, he, hpayload⟩
        omega

/-- A loss that is noticed inside the PES packet that it damaged: the one in progress may be
marked. -/
theorem over_loss (h : Collecting first pes before es)
    (hcarries : Carries first pes (before ++ lost) k rest) (hmissing : Missing lost)
    (hsome : payloads lost ≠ 0) {e : Sent} (hnoticed : NoticedInside pes before lost e)
    {es' : EsPid} (hcorrupt' : es'.corrupt = true) (hstarted' : es'.started = es.started)
    (hpos' : es'.pos = es.pos) : Collecting first pes (before ++ lost) es' := by
  cases h with
  | idle hidle => exact .idle (hstarted'.trans hidle)
  | damaged _ hstart hlost =>
      rw [← hpos'] at hstart
      exact .damaged hcorrupt' (hstart.append _) (hlost.append _)
  | @whole u p later _ hstart hp hbytes htotal hbuf hwire hopen _ =>
      have hlost : Lost u (before ++ lost) := by
        rcases hwire.advance lost hcarries with ⟨hnone, _⟩ | ⟨s, hs, hpayload, hfirst⟩
        · exact absurd hnone hsome
        · rcases hfirst with ⟨_, hunit⟩ | ⟨hlater, hsstart, hunit⟩
          · exact ⟨s, List.mem_append_right _ hs, hpayload, Nat.succ_inj.1 hunit,
              hmissing s hs⟩
          · -- All of the PES packet was collected: its end was not known.
            rw [hlater, List.append_nil] at hbytes
            rw [htotal, ← hbytes] at hopen
            exact hnoticed.start_lost s hs hsstart u p hunit hp (p.bounded_eq_false hopen)
      rw [← hpos'] at hstart
      exact .damaged hcorrupt' (hstart.append _) hlost

end Collecting

namespace PidDemuxer

variable {kind : StreamKind} {first : Nat} {pes : List PesPacket} {before lost : List Sent}
  {d : PidDemuxer} {k : Nat} {rest : Bytes} {e : Sent} {bytes : Bytes}

/-- The next packet delivered notices the loss, unless no payload was lost. -/
theorem verdict_of_behind (h : Behind first pes before d.es)
    (hcarries : Carries first pes (before ++ lost) k rest) (hmissing : Missing lost)
    (hshort : lost.length < 16)
    (hnoticed : LastKept before → 0 < payloads lost → NoticedInside pes before lost e)
    {counter : Nat} (hplain : e.Plain bytes counter)
    (hcounter : counter % 16 = (first + payloads (before ++ lost) +
      if e.packet.header.hasPayload then 0 else 15) % 16) :
    ∃ verdict, verdict ≠ Continuity.duplicate ∧
      checkContinuity d.es.cc e.packet.header.continuity e.packet.header.hasPayload false =
        (some (counter % 16), verdict) ∧
        (verdict ≠ .ok → e.packet.header.payloadUnitStart = false) ∧
          Collecting first pes (before ++ lost)
            ((d.noted (some (counter % 16)) false (decide (verdict = .gap))).marked
              (decide (verdict = .gap))).es := by
  cases h with
  | fresh hnil hcc hstarted =>
      refine ⟨.ok, by decide, ?_, fun hok => absurd rfl hok, .idle hstarted⟩
      rw [hcc, hplain.counter]
      rfl
  | seen hlast hcc hcollecting =>
      have hmissed : payloads lost < 16 := Nat.lt_of_le_of_lt List.countP_le_length hshort
      have hcheck := @checkContinuity_of_advance ((first + payloads before + 15) % 16)
        (payloads lost) (counter % 16) (Nat.mod_lt _ (by decide)) hmissed
        e.packet.header.hasPayload (by
          rw [hcounter, payloads_append]
          cases e.packet.header.hasPayload with
          | true => simp only [if_true]; omega
          | false => simp only [Bool.false_eq_true, if_false]; omega)
      rw [hcc, hplain.counter, hcheck]
      by_cases hnone : payloads lost = 0
      · rw [if_pos hnone]
        refine ⟨.ok, by decide, rfl, fun hok => absurd rfl hok, ?_⟩
        have hover := hcollecting.over_nothing hcarries hnone
        cases hover with
        | idle hidle => exact .idle hidle
        | damaged hcorrupt hstart hlost =>
            exact .damaged (by simp [marked, noted, hcorrupt]) hstart hlost
        | whole hcorrupt hstart hp hbytes htotal hbuf hwire hopen hwhole =>
            exact .whole (by simp [marked, noted, hcorrupt]) hstart hp hbytes htotal hbuf hwire
              hopen hwhole
      · have hinside := hnoticed hlast (Nat.pos_of_ne_zero hnone)
        rw [if_neg hnone, if_neg (fun hdup => hinside.not_duplicate hdup.2 hdup.1)]
        refine ⟨.gap, by decide, rfl, fun _ => hinside.not_start, ?_⟩
        exact hcollecting.over_loss hcarries hmissing hnone hinside
          (by simp [marked]) rfl rfl

/-- A delivered packet that starts a PES packet. -/
theorem handle_start {sent : List Sent} {p : PesPacket} {head : Bytes} {counter : Nat}
    {cc : Option Nat} (hroom : d.HasRoom kind e.packet)
    (h : Collecting first pes sent (d.noted cc false false).es)
    (hcheck : checkContinuity d.es.cc e.packet.header.continuity e.packet.header.hasPayload
      false = (cc, .ok))
    (hsent : Carries first pes sent k []) (hp : pes[k]? = some p)
    (hbytes : p.bytes = head ++ rest) (hhead : head ≠ []) (hplain : e.Plain head counter)
    (hpayload : e.packet.header.hasPayload = true)
    (hstart : e.packet.header.payloadUnitStart = true) (hunit : e.unit = k)
    (hkept : e.kept = true) (hcarries : Carries first pes (sent ++ [e]) (k + 1) rest) :
    Settled kind first pes (sent ++ [e]) (d.handleEs kind e.packet e.pos) := by
  rw [handleEs_start hplain.noError hplain.continuous hcheck hstart]
  dsimp only
  have hcharged := hroom hpayload (.inl hstart)
  rw [hplain.payload] at hcharged
  unfold charging at hcharged
  split
  · rename_i hpending
    rw [if_pos ⟨hstart, hpending⟩, ← flushPes_budget_noted cc false] at hcharged
    have hflush : HonestFlush kind pes sent
        ⟨(d.noted cc false false).es.pos, ((d.noted cc false false).flushPes kind).2.1⟩ := by
      cases h with
      | idle hidle => exact absurd (hidle.symm.trans hpending.1) Bool.false_ne_true
      | damaged hcorrupt hstartsAt hlost => exact flush_damaged hcorrupt hstartsAt hlost
      | whole hcorrupt hstartsAt hq hprefix htotal hbuf hwire hopen _ =>
          rcases hwire.unique hsent with ⟨_, hnil⟩
          rw [hnil, List.append_nil] at hprefix
          exact flush_whole hcorrupt (List.mem_of_getElem? hq) hprefix.symm
    split
    · -- The PES packet that starts is dropped with its start.
      refine ⟨?_, .idle flushPes_started⟩
      intro f hf
      rw [List.mem_singleton.1 hf]
      exact hflush.append _
    · have hentered : Settled kind first pes (sent ++ [e])
          (((d.noted cc false false).flushPes kind).1.enter kind e.packet e.pos false) :=
        enter_start hcharged hp hbytes hhead hplain hpayload hstart hunit hkept hsent hcarries
      refine ⟨?_, hentered.collecting⟩
      intro f hf
      rcases List.mem_cons.1 hf with hbefore | hafter
      · rw [hbefore]
        exact hflush.append _
      · exact hentered.honest f hafter
  · rename_i hquiet
    rw [if_neg fun hpending => hquiet hpending.2] at hcharged
    exact enter_start hcharged hp hbytes hhead hplain hpayload hstart hunit hkept hsent hcarries

theorem handleEs_cc {pkt : TsPacket} {pos : Nat} {cc : Option Nat} {verdict : Continuity}
    (hcontinuous : pkt.discontinuity = false)
    (hcheck : checkContinuity d.es.cc pkt.header.continuity pkt.header.hasPayload false =
      (cc, verdict))
    (hverdict : verdict ≠ .duplicate) : (d.handleEs kind pkt pos).demuxer.es.cc = cc := by
  unfold handleEs
  simp only [hcontinuous, hcheck, hverdict, if_false]
  split
  · split
    · rw [flushPes_cc]
      rfl
    · rw [enter_cc, flushPes_cc]
      rfl
  · rw [enter_cc]
    rfl

end PidDemuxer

namespace Inv

variable {kind : StreamKind} {first : Nat} {pes : List PesPacket} {sent : List Sent}
  {r : Reader} {e : Sent}

theorem new (clock : ProgramClock) (budget : Sched.Budget) (queue : List EsPacket) :
    Inv kind first pes [] (Reader.new clock budget queue) where
  honest := by
    intro f hf
    cases hf
  state := ⟨[], [], rfl, by simp [Missing], .fresh rfl rfl rfl⟩

theorem lose (h : Inv kind first pes sent r) (hlost : e.kept = false) :
    Inv kind first pes (sent ++ [e]) (r.step kind e) := by
  have hstep : r.step kind e = r := by
    unfold Reader.step
    rw [hlost, if_neg Bool.false_ne_true]
  rw [hstep]
  refine ⟨fun f hf => (h.honest f hf).append _, ?_⟩
  rcases h.state with ⟨before, lost, hsent, hmissing, hbehind⟩
  refine ⟨before, lost ++ [e], by rw [hsent, List.append_assoc], ?_, hbehind⟩
  intro s hs
  rcases List.mem_append.1 hs with hs | hs
  · exact hmissing s hs
  · rw [List.mem_singleton.1 hs]
    exact hlost

theorem take (h : Inv kind first pes sent r) (hkept : e.kept = true)
    (hsettled : Settled kind first pes (sent ++ [e]) (r.demuxer.handleEs kind e.packet e.pos))
    (hcc : (r.demuxer.handleEs kind e.packet e.pos).demuxer.es.cc =
      some ((first + payloads (sent ++ [e]) + 15) % 16)) :
    Inv kind first pes (sent ++ [e]) (r.step kind e) := by
  have hstep : r.step kind e = r.handled (r.demuxer.handleEs kind e.packet e.pos) := by
    unfold Reader.step
    rw [if_pos hkept]
  rw [hstep]
  refine ⟨?_, sent ++ [e], [], (List.append_nil _).symm, by simp [Missing],
    .seen ⟨sent, e, rfl, hkept⟩ hcc hsettled.collecting⟩
  intro f hf
  rcases List.mem_append.1 hf with hbefore | hnow
  · exact (h.honest f hbefore).append _
  · exact hsettled.honest f hnow

/-- Nothing is refused up to a packet and on it. -/
theorem noneRefused_concat :
    NoneRefused kind r (sent ++ [e]) ↔ NoneRefused kind r sent ∧
      (e.kept = true → (r.readAll kind sent).demuxer.HasRoom kind e.packet) := by
  induction sent generalizing r with
  | nil => exact ⟨fun h => ⟨trivial, h.1⟩, fun h => ⟨h.2, trivial⟩⟩
  | cons s sent ih =>
      rw [List.cons_append, NoneRefused, NoneRefused, ih, and_assoc]
      rfl

theorem verdict (h : Inv kind first pes sent r) {k : Nat} {rest : Bytes}
    (hsent : Carries first pes sent k rest)
    (hshort : ShortLosses (sent ++ [e])) (hnoticed : EachNoticed pes (sent ++ [e]))
    (hkept : e.kept = true) {bytes : Bytes} {counter : Nat} (hplain : e.Plain bytes counter)
    (hcounter : counter % 16 =
      (first + payloads sent + if e.packet.header.hasPayload then 0 else 15) % 16) :
    ∃ verdict, verdict ≠ Continuity.duplicate ∧
      checkContinuity r.demuxer.es.cc e.packet.header.continuity e.packet.header.hasPayload false =
        (some (counter % 16), verdict) ∧
        (verdict ≠ .ok → e.packet.header.payloadUnitStart = false) ∧
          Collecting first pes sent
            ((r.demuxer.noted (some (counter % 16)) false (decide (verdict = .gap))).marked
              (decide (verdict = .gap))).es := by
  rcases h.state with ⟨before, lost, rfl, hmissing, hbehind⟩
  exact PidDemuxer.verdict_of_behind hbehind hsent hmissing
    (hshort before lost [e] rfl hmissing)
    (fun hlast hsome => hnoticed before lost e [] rfl hlast hmissing hsome hkept) hplain hcounter

/-- From one transport packet to the next. -/
theorem step (h : Inv kind first pes sent r) {k : Nat} {rest : Bytes}
    (hcarries : Carries first pes (sent ++ [e]) k rest) (hshort : ShortLosses (sent ++ [e]))
    (hnoticed : EachNoticed pes (sent ++ [e]))
    (hroom : e.kept = true → r.demuxer.HasRoom kind e.packet) :
    Inv kind first pes (sent ++ [e]) (r.step kind e) := by
  cases hkept : e.kept with
  | false => exact h.lose hkept
  | true =>
      generalize hall : sent ++ [e] = all at hcarries
      cases hcarries with
      | nil => exact absurd (List.append_eq_nil_iff.1 hall).2 (List.cons_ne_nil _ _)
      | start hsent hp hbytes hhead hplain hpayload hstart hunit hpos =>
          rcases List.append_inj' hall rfl with ⟨rfl, hlast⟩
          cases hlast
          have hcarries := Carries.start hsent hp hbytes hhead hplain hpayload hstart hunit hpos
          rcases h.verdict hsent hshort hnoticed hkept hplain
            (by rw [hpayload, if_pos rfl, Nat.add_zero]) with
            ⟨verdict, hverdict, hcheck, hinside, hcollecting⟩
          have hok : verdict = .ok := by
            by_contra hne
            rw [hinside hne] at hstart
            cases hstart
          have hgap : decide (verdict = .gap) = false := by
            rw [hok]
            rfl
          rw [hok] at hcheck
          rw [hgap, PidDemuxer.marked_false] at hcollecting
          refine h.take hkept
            (PidDemuxer.handle_start (hroom hkept) hcollecting hcheck hsent hp hbytes hhead hplain
              hpayload hstart hunit hkept hcarries) ?_
          rw [PidDemuxer.handleEs_cc hplain.continuous hcheck (by decide), payloads_append,
            payloads_singleton, hpayload, if_pos rfl]
          exact congrArg some (by omega)
      | more hsent hbytes hplain hpayload hstart hunit hpos =>
          rcases List.append_inj' hall rfl with ⟨rfl, hlast⟩
          cases hlast
          have hcarries := Carries.more hsent hbytes hplain hpayload hstart hunit hpos
          rcases h.verdict hsent hshort hnoticed hkept hplain
            (by rw [hpayload, if_pos rfl, Nat.add_zero]) with
            ⟨verdict, hverdict, hcheck, _, hcollecting⟩
          refine h.take hkept ?_ ?_
          · rw [PidDemuxer.handleEs_inside hplain.noError hplain.continuous hcheck hverdict
              hstart]
            refine PidDemuxer.enter_more ?_ hcollecting hsent hbytes hplain hpayload hstart hkept
              hcarries
            intro hstarted
            rw [← hplain.payload]
            exact (hroom hkept).inside hpayload hstart hstarted
          · rw [PidDemuxer.handleEs_cc hplain.continuous hcheck hverdict, payloads_append,
              payloads_singleton, hpayload, if_pos rfl]
            exact congrArg some (by omega)
      | filler hsent hplain hpayload hstart hpos =>
          rcases List.append_inj' hall rfl with ⟨rfl, hlast⟩
          cases hlast
          have hcarries := Carries.filler hsent hplain hpayload hstart hpos
          rcases h.verdict hsent hshort hnoticed hkept hplain
            (by rw [hpayload, if_neg Bool.false_ne_true]) with
            ⟨verdict, hverdict, hcheck, _, hcollecting⟩
          refine h.take hkept ?_ ?_
          · rw [PidDemuxer.handleEs_inside hplain.noError hplain.continuous hcheck hverdict
              hstart]
            exact PidDemuxer.enter_filler hcollecting hsent hplain hpayload hstart hkept
              hcarries
          · rw [PidDemuxer.handleEs_cc hplain.continuous hcheck hverdict, payloads_append,
              payloads_singleton, hpayload]
            rfl

/-- All transport packets. -/
theorem run {k : Nat} {rest : Bytes} (hcarries : Carries first pes sent k rest)
    (hshort : ShortLosses sent) (hnoticed : EachNoticed pes sent)
    (hnone : NoneRefused kind r sent) (hstart : Inv kind first pes [] r) :
    Inv kind first pes sent (r.readAll kind sent) := by
  have hshorter : ∀ {earlier : List Sent} {last : Sent},
      ShortLosses (earlier ++ [last]) → ShortLosses earlier := by
    intro earlier last hall before lost after heq hmissing
    exact hall before lost (after ++ [last]) (by rw [heq, List.append_assoc]) hmissing
  have hearlier : ∀ {earlier : List Sent} {last : Sent},
      EachNoticed pes (earlier ++ [last]) → EachNoticed pes earlier := by
    intro earlier last hall before lost e after heq
    exact hall before lost e (after ++ [last])
      (by rw [heq, List.append_assoc, List.cons_append])
  have hlast : ∀ {earlier : List Sent} {last : Sent},
      r.readAll kind (earlier ++ [last]) = (r.readAll kind earlier).step kind last := by
    intro earlier last
    exact List.foldl_concat _ _ _ _
  induction hcarries with
  | nil => exact hstart
  | start hsent hp hbytes hhead hplain hpayload hstart' hunit hpos ih =>
      rw [hlast]
      rcases noneRefused_concat.1 hnone with ⟨hbefore, hroom⟩
      exact (ih (hshorter hshort) (hearlier hnoticed) hbefore).step
        (.start hsent hp hbytes hhead hplain hpayload hstart' hunit hpos) hshort hnoticed hroom
  | more hsent hbytes hplain hpayload hstart' hunit hpos ih =>
      rw [hlast]
      rcases noneRefused_concat.1 hnone with ⟨hbefore, hroom⟩
      exact (ih (hshorter hshort) (hearlier hnoticed) hbefore).step
        (.more hsent hbytes hplain hpayload hstart' hunit hpos) hshort hnoticed hroom
  | filler hsent hplain hpayload hstart' hpos ih =>
      rw [hlast]
      rcases noneRefused_concat.1 hnone with ⟨hbefore, hroom⟩
      exact (ih (hshorter hshort) (hearlier hnoticed) hbefore).step
        (.filler hsent hplain hpayload hstart' hpos) hshort hnoticed hroom

/-- The end of the input. -/
theorem finish (h : Inv kind first pes sent r)
    (hcarries : Carries first pes sent pes.length [])
    (hending : ∀ before lost, sent = before ++ lost → LastKept before → Missing lost →
      ∀ u pos, StartsAt u pos before → Lost u lost → Lost u before) :
    ∀ f ∈ (r.finish kind).flushes, HonestFlush kind pes sent f := by
  unfold Reader.finish
  rcases h.state with ⟨before, lost, rfl, hmissing, hbehind⟩
  intro f hf
  rcases List.mem_append.1 hf with hbefore | hnow
  · exact h.honest f hbefore
  · unfold PidDemuxer.flushAll at hnow
    split at hnow
    · rename_i hpending
      rw [List.mem_singleton.1 hnow]
      cases hbehind with
      | fresh _ _ hidle => exact absurd (hidle.symm.trans hpending.1) Bool.false_ne_true
      | seen hlast _ hcollecting =>
          cases hcollecting with
          | idle hidle => exact absurd (hidle.symm.trans hpending.1) Bool.false_ne_true
          | damaged hcorrupt hstart hlost =>
              exact PidDemuxer.flush_damaged hcorrupt (hstart.append _) (hlost.append _)
          | @whole u p rest hcorrupt hstart hp hbytes _ _ hwire _ hwhole =>
              have hnil : rest = [] := by
                rcases hwire.advance lost hcarries with ⟨_, _, hnil⟩ |
                  ⟨s, hs, hpayload, ⟨_, hunit⟩ | ⟨hnil, _⟩⟩
                · exact hnil.symm
                · have hlost := hending before lost rfl hlast hmissing _ _ hstart
                    ⟨s, hs, hpayload, Nat.succ_inj.1 hunit, hmissing s hs⟩
                  exact absurd hlost hwhole
                · exact hnil
              rw [hnil, List.append_nil] at hbytes
              exact PidDemuxer.flush_whole hcorrupt (List.mem_of_getElem? hp) hbytes.symm
    · cases hnow

end Inv

/-- If every loss is noticed inside the PES packet it damaged, and the budget refuses no payload,
nothing damaged is handed on unmarked, and nothing whole is marked. -/
theorem marks_damage_of_insideUnits (kind : StreamKind) (clock : ProgramClock)
    (budget : Sched.Budget) (queue : List EsPacket) {first : Nat} {pes : List PesPacket}
    {sent : List Sent} (hcarries : Carries first pes sent pes.length [])
    (hshort : ShortLosses sent) (hinside : InsideUnits pes sent)
    (hnone : NoneRefused kind (.new clock budget queue) sent) :
    MarksDamage kind pes sent
      (((Reader.new clock budget queue).readAll kind sent).finish kind).flushes := by
  have hrun := Inv.run hcarries hshort hinside.noticed hnone
    (@Inv.new kind first pes clock budget queue)
  intro f hf packet hpacket
  rcases hrun.finish hcarries hinside.ending f hf packet hpacket with ⟨hclear, hmarked⟩
  refine ⟨hclear, ?_⟩
  intro hcorrupt e he hstart hpos
  rcases hmarked hcorrupt with ⟨u, ⟨s, hs, _, hunit, hspos⟩, hlost⟩
  have hsame : e = s := hcarries.eq_of_pos e he s hs (hpos.trans hspos.symm)
  rw [hsame, hunit]
  exact hlost

/-- A video stream, whose payloads are handed on unsplit. -/
def plainVideo : StreamKind where
  video := true
  split := fun _ => []

/-- An undamaged transport packet with a payload. -/
def payloadPacket (start : Bool) (continuity : Nat) (payload : Bytes) : TsPacket where
  header :=
    { transportError := false
      payloadUnitStart := start
      transportPriority := false
      pid := 0x100
      scrambling := 0
      adaptationControl := 1
      continuity }
  adaptation := none
  payload
  malformedAdaptation := false

theorem plain_payloadPacket {unit pos counter : Nat} {kept start : Bool} {bytes : Bytes}
    (hcounter : counter < 16) :
    Sent.Plain ⟨unit, payloadPacket start counter bytes, pos, kept⟩ bytes counter where
  noError := rfl
  clear := rfl
  continuous := rfl
  payload := rfl
  counter := (Nat.mod_eq_of_lt hcounter).symm

/-- A PES packet without a length and without timestamps, with a payload of three bytes. -/
def shortPes (a b c : BitVec 8) : PesPacket where
  bytes := [0, 0, 1, 0xE0, 0, 0, 0x80, 0, 0, a, b, c]
  header :=
    { streamId := 0xE0
      packetLength := 0
      payloadOffset := 9
      pts := none
      dts := none
      dataAlignment := false
      scrambling := 0 }
  parse_eq := by rfl
  length_eq := by
    intro total htotal
    cases htotal

/-- A budget that admits a megabyte. -/
def megabyte : Sched.Budget :=
  .new ⟨2 ^ 20, 2 ^ 20, by decide⟩

def middleLost : List Sent :=
  [⟨0, payloadPacket true 0 [0, 0, 1, 0xE0, 0, 0, 0x80, 0, 0, 7], 0, true⟩,
    ⟨0, payloadPacket false 1 [8], 188, false⟩,
    ⟨0, payloadPacket false 2 [9], 376, true⟩]

theorem marks_damage_of_insideUnits_middleLost :
    MarksDamage plainVideo [shortPes 7 8 9] middleLost
      (((Reader.new (.new {}) megabyte []).readAll plainVideo middleLost).finish
        plainVideo).flushes := by
  have hcarries : Carries 0 [shortPes 7 8 9] middleLost 1 [] := by
    have hfirst : Carries 0 [shortPes 7 8 9] (middleLost.take 1) 1 [8, 9] :=
      .start .nil rfl rfl (by decide) (plain_payloadPacket (by decide)) rfl rfl rfl (by decide)
    have hsecond : Carries 0 [shortPes 7 8 9] (middleLost.take 2) 1 [9] :=
      @Carries.more 0 _ _ _ [8] [9] ⟨0, payloadPacket false 1 [8], 188, false⟩ hfirst (by decide)
        (plain_payloadPacket (by decide)) rfl rfl rfl (by decide)
    exact @Carries.more 0 _ _ _ [9] [] ⟨0, payloadPacket false 2 [9], 376, true⟩ hsecond
      (by decide) (plain_payloadPacket (by decide)) rfl rfl rfl (by decide)
  refine marks_damage_of_insideUnits plainVideo (.new {}) megabyte [] hcarries ?_ ⟨?_, ?_⟩
    (by decide +kernel)
  · intro before lost after heq _
    have hlen := congrArg List.length heq
    simp only [middleLost, List.length_cons, List.length_nil, List.length_append] at hlen
    omega
  · intro before lost e after heq hlast hmissing hsome hkept
    rcases hlast with ⟨earlier, last, rfl, hlastKept⟩
    rcases earlier with _ | ⟨x, _ | ⟨y, _ | ⟨z, earlier⟩⟩⟩
    · rcases lost with _ | ⟨s, _ | ⟨s', lost⟩⟩
      · exact absurd hsome (by decide)
      · simp only [middleLost, List.nil_append, List.cons_append, List.cons.injEq] at heq
        rcases heq with ⟨_, hs, he, _⟩
        rw [← hs, ← he]
        refine ⟨rfl, fun _ => by decide, ?_⟩
        intro t ht hstart
        rw [List.mem_singleton.1 ht] at hstart
        cases hstart
      · simp only [middleLost, List.nil_append, List.cons_append, List.cons.injEq] at heq
        have hkept' := hmissing s' (by simp)
        rw [← heq.2.2.1] at hkept'
        cases hkept'
    · simp only [middleLost, List.nil_append, List.cons_append, List.cons.injEq] at heq
      rw [← heq.2.1] at hlastKept
      cases hlastKept
    · simp [middleLost] at heq
    · simp [middleLost] at heq
  · intro before lost heq hlast hmissing u pos hstart hlost
    rcases List.eq_nil_or_concat lost with rfl | ⟨lost, last, rfl⟩
    · rcases hlost with ⟨s, hs, _⟩
      cases hs
    · have hkept := hmissing last (by simp)
      rw [List.concat_eq_append, ← List.append_assoc] at heq
      have hlast' := congrArg List.getLast? heq
      rw [List.getLast?_concat] at hlast'
      rw [← Option.some.inj hlast'] at hkept
      cases hkept

/-- Two PES packets; the last transport packet of the first one is lost. -/
def tailLost : List Sent :=
  [⟨0, payloadPacket true 0 [0, 0, 1, 0xE0, 0, 0, 0x80, 0, 0, 7], 0, true⟩,
    ⟨0, payloadPacket false 1 [8, 9], 188, false⟩,
    ⟨1, payloadPacket true 2 [0, 0, 1, 0xE0, 0, 0, 0x80, 0, 0, 4, 5, 6], 376, true⟩]

/-- The first PES packet is handed on cut short and unmarked, and the second one, whole, is marked.
-/
theorem not_marks_damage_tailLost :
    Carries 0 [shortPes 7 8 9, shortPes 4 5 6] tailLost 2 [] ∧ ShortLosses tailLost ∧
      (((Reader.new (.new {}) megabyte []).readAll plainVideo tailLost).finish
          plainVideo).flushes.map
        (fun f => f.packets.map fun packet => (packet.payload, packet.corrupt)) =
          [[([7], false)], [([4, 5, 6], true)]] ∧
        ¬ MarksDamage plainVideo [shortPes 7 8 9, shortPes 4 5 6] tailLost
          (((Reader.new (.new {}) megabyte []).readAll plainVideo tailLost).finish
            plainVideo).flushes := by
  have hflushes : (((Reader.new (.new {}) megabyte []).readAll plainVideo tailLost).finish
      plainVideo).flushes.map
        (fun f => f.packets.map fun packet => (packet.payload, packet.corrupt)) =
          [[([7], false)], [([4, 5, 6], true)]] := by
    decide +kernel
  refine ⟨?_, ?_, hflushes, ?_⟩
  · have hfirst : Carries 0 [shortPes 7 8 9, shortPes 4 5 6] (tailLost.take 1) 1 [8, 9] :=
      .start .nil rfl rfl (by decide) (plain_payloadPacket (by decide)) rfl rfl rfl (by decide)
    have hsecond : Carries 0 [shortPes 7 8 9, shortPes 4 5 6] (tailLost.take 2) 1 [] :=
      @Carries.more 0 _ _ _ [8, 9] [] ⟨0, payloadPacket false 1 [8, 9], 188, false⟩ hfirst
        (by decide) (plain_payloadPacket (by decide)) rfl rfl rfl (by decide)
    exact @Carries.start 0 _ _ _ (shortPes 4 5 6) _ _
      ⟨1, payloadPacket true 2 [0, 0, 1, 0xE0, 0, 0, 0x80, 0, 0, 4, 5, 6], 376, true⟩ hsecond rfl
      rfl (by decide) (plain_payloadPacket (by decide)) rfl rfl rfl (by decide)
  · intro before lost after heq _
    have hlen := congrArg List.length heq
    simp only [tailLost, List.length_cons, List.length_nil, List.length_append] at hlen
    omega
  · intro hmarks
    rcases hall : (((Reader.new (.new {}) megabyte []).readAll plainVideo tailLost).finish
      plainVideo).flushes with _ | ⟨f, others⟩
    · rw [hall] at hflushes
      cases hflushes
    · rw [hall, List.map_cons, List.cons.injEq] at hflushes
      rcases hpackets : f.packets with _ | ⟨packet, more⟩
      · rw [hpackets] at hflushes
        cases hflushes.1
      · rw [hpackets, List.map_cons, List.cons.injEq, Prod.mk.injEq] at hflushes
        have hcut := (hmarks f (by rw [hall]; exact List.mem_cons_self) packet
          (by rw [hpackets]; exact List.mem_cons_self)).1 hflushes.1.1.2
        rw [hflushes.1.1.1] at hcut
        revert hcut
        decide

/-- A PES packet without a length, of three transport packets. -/
def longPes : PesPacket where
  bytes := [0, 0, 1, 0xE0, 0, 0, 0x80, 0, 0, 7] ++ (List.replicate 140 8 ++ [9])
  header := (shortPes 7 8 9).header
  parse_eq := by decide +kernel
  length_eq := by
    intro total htotal
    cases htotal

def nothingLost : List Sent :=
  [⟨0, payloadPacket true 0 [0, 0, 1, 0xE0, 0, 0, 0x80, 0, 0, 7], 0, true⟩,
    ⟨0, payloadPacket false 1 (List.replicate 140 8), 188, true⟩,
    ⟨0, payloadPacket false 2 [9], 376, true⟩]

/-- Nothing is lost, but the budget refuses the second payload: the PES packet is handed on
without it, unmarked. -/
theorem not_marks_damage_refused :
    Carries 0 [longPes] nothingLost 1 [] ∧ (∀ e ∈ nothingLost, e.kept = true) ∧
      (((Reader.new (.new {}) (.new ⟨140, 140, by decide⟩) []).readAll plainVideo nothingLost).finish
          plainVideo).flushes.map
        (fun f => f.packets.map fun packet => (packet.payload, packet.corrupt)) =
          [[([7, 9], false)]] := by
  refine ⟨?_, by decide, by decide +kernel⟩
  have hfirst : Carries 0 [longPes] (nothingLost.take 1) 1 (List.replicate 140 8 ++ [9]) :=
    .start .nil rfl rfl (by decide) (plain_payloadPacket (by decide)) rfl rfl rfl (by decide)
  have hsecond : Carries 0 [longPes] (nothingLost.take 2) 1 [9] :=
    @Carries.more 0 _ _ _ (List.replicate 140 8) [9]
      ⟨0, payloadPacket false 1 (List.replicate 140 8), 188, true⟩ hfirst (by decide)
      (plain_payloadPacket (by decide)) rfl rfl rfl (by decide)
  exact @Carries.more 0 _ _ _ [9] [] ⟨0, payloadPacket false 2 [9], 376, true⟩ hsecond (by decide)
    (plain_payloadPacket (by decide)) rfl rfl rfl (by decide)

end MpegTs
end Vaco
