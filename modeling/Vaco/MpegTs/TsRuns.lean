import Vaco.MpegTs.TsWriter

/-!
# Runs of the transport packet writer

Calls that write PES packets and sections on any PIDs follow each other in any order.

Main results:

- `Written.step`: what one call keeps.
- `transports_calls`: what is read back of every call.
-/

namespace Vaco
namespace MpegTs

open Library.BitStream Vaco.Core

/-! ## What a receiver sees of one call -/

namespace TsWriter

variable {pad : PadStyle} {req : AfRequest} {prefixed : Bytes}

theorem cellViews_cons (fuel : Nat) (req : AfRequest) (first : Bool) (hne : prefixed ≠ []) :
    cellViews pad (fuel + 1) req first prefixed =
      ⟨first, cellPayload (cellLens req pad prefixed.length) prefixed, req.wrapped⟩ ::
        cellViews pad fuel {} false
          (prefixed.drop (cellLens req pad prefixed.length).realLen) := by
  have hpos := List.length_pos_iff.2 hne
  rw [cellViews, if_neg (by omega)]

theorem cellViews_nil (pad : PadStyle) (fuel : Nat) : cellViews pad fuel {} false [] = [] := by
  cases fuel with
  | zero => rfl
  | succ fuel => rfl

theorem cellViews_later (pad : PadStyle) (fuel : Nat) (prefixed : Bytes) :
    ∀ v ∈ cellViews pad fuel {} false prefixed, v.start = false ∧ v.marks = {} := by
  induction fuel generalizing prefixed with
  | zero =>
      intro v hv
      cases hv
  | succ fuel ih =>
      intro v hv
      by_cases hnil : prefixed = []
      · rw [hnil, cellViews_nil] at hv
        cases hv
      · rw [cellViews_cons fuel {} false hnil] at hv
        rcases List.mem_cons.1 hv with hfirst | hlater
        · rw [hfirst]
          exact ⟨rfl, rfl⟩
        · exact ih _ v hlater

theorem cellPayload_pes (req : AfRequest) (prefixed : Bytes) :
    cellPayload (cellLens req .adaptationField prefixed.length) prefixed =
      prefixed.take (cellLens req .adaptationField prefixed.length).realLen := by
  have hlens : (cellLens req .adaptationField prefixed.length).payloadLen -
      (cellLens req .adaptationField prefixed.length).realLen = 0 := by
    unfold cellLens
    dsimp only
    split
    · exact Nat.sub_self _
    · split
      · exact Nat.sub_self _
      · exact Nat.sub_self _
  unfold cellPayload
  rw [hlens, List.replicate_zero, List.append_nil]

/-- The payloads of a PES packet give back its bytes. -/
theorem flatten_pes (fuel : Nat) (req : AfRequest) (first : Bool) (prefixed : Bytes)
    (hfuel : prefixed.length < fuel) :
    ((cellViews .adaptationField fuel req first prefixed).map CellView.payload).flatten =
      prefixed := by
  induction fuel generalizing req first prefixed with
  | zero => omega
  | succ fuel ih =>
      by_cases hnil : prefixed = []
      · have hlater : ((cellViews .adaptationField fuel {} false []).map
            CellView.payload).flatten = [] := by
          rw [cellViews_nil]
          rfl
        rw [hnil, cellViews]
        split
        · rfl
        · rw [List.map_cons, List.flatten_cons, cellPayload_pes, List.take_nil, List.drop_nil,
            hlater]
          rfl
      · have hfit := cellLens_fit req .adaptationField (List.length_pos_iff.2 hnil)
        have hpos := hfit.real_pos
        have hreal := hfit.real_le
        rw [cellViews_cons fuel req first hnil, List.map_cons, List.flatten_cons, cellPayload_pes,
          ih {} false _ (by rw [List.length_drop]; omega), List.take_append_drop]

theorem cellLens_section (req : AfRequest) (remaining : Nat) :
    (cellLens req .trailingBytes remaining).payloadLen = bodyLen - req.minWireLen ∧
      (cellLens req .trailingBytes remaining).realLen =
        min remaining (bodyLen - req.minWireLen) := by
  have hmin := req.minWireLen_le
  unfold cellLens
  dsimp only
  split
  · exact ⟨rfl, by dsimp only; omega⟩
  · split
    · rename_i hplain
      have hzero := AfRequest.minWireLen_eq_zero hplain.2
      exact ⟨by dsimp only; omega, by dsimp only; omega⟩
    · refine ⟨rfl, ?_⟩
      dsimp only
      by_cases hzero : req.minContentLen = 0
      · have := AfRequest.minWireLen_eq_zero hzero
        omega
      · omega

theorem cellPayload_section (req : AfRequest) (prefixed : Bytes) :
    cellPayload (cellLens req .trailingBytes prefixed.length) prefixed =
      prefixed.take (bodyLen - req.minWireLen) ++
        List.replicate (bodyLen - req.minWireLen - prefixed.length) stuffingByte := by
  rcases cellLens_section req prefixed.length with ⟨hpayload, hreal⟩
  unfold cellPayload
  rw [hpayload, hreal]
  rcases Nat.le_total prefixed.length (bodyLen - req.minWireLen) with hle | hle
  · rw [Nat.min_eq_left hle, List.take_length, List.take_of_length_le hle]
  · rw [Nat.min_eq_right hle, Nat.sub_self, Nat.sub_eq_zero_of_le hle]

/-- The packets behind the first of a section are a legal end of its packetisation. -/
theorem sends_later (fuel : Nat) (rest : Bytes) (hfuel : rest.length < fuel) (hne : rest ≠ []) :
    ∃ packets, Sends rest [] packets ∧
      (cellViews .trailingBytes fuel {} false rest).map (fun v => (v.start, v.payload)) =
        packets.map fun packet => (packet.payloadUnitStart, packet.payload) := by
  induction fuel generalizing rest with
  | zero => omega
  | succ fuel ih =>
      have hbody : bodyLen - ({} : AfRequest).minWireLen = 184 := by decide
      rcases cellLens_section {} rest.length with ⟨_, hreal⟩
      rw [hbody] at hreal
      rw [cellViews_cons fuel {} false hne, cellPayload_section, hreal, hbody, List.map_cons]
      by_cases hlast : rest.length ≤ 184
      · refine ⟨[.closing rest [] (184 - rest.length)],
          .closing rest [] _ (fun hwhole => absurd rfl hwhole) .nil, ?_⟩
        rw [Nat.min_eq_left hlast, List.drop_length, cellViews_nil, List.take_of_length_le hlast]
        rfl
      · have hlong : 184 < rest.length := Nat.lt_of_not_le hlast
        rcases ih (rest.drop 184) (by rw [List.length_drop]; omega)
          (by rw [← List.length_pos_iff, List.length_drop]; omega) with ⟨packets, hsends, hviews⟩
        have hcarrying := Sends.carrying (rest.take 184)
          (by rw [← List.length_pos_iff, List.length_take]; omega)
          (by rw [← List.length_pos_iff, List.length_drop]; omega) hsends
        rw [List.take_append_drop] at hcarrying
        refine ⟨.carrying (rest.take 184) :: packets, hcarrying, ?_⟩
        rw [Nat.min_eq_right (Nat.le_of_lt hlong), hviews, List.map_cons,
          Nat.sub_eq_zero_of_le (Nat.le_of_lt hlong), List.replicate_zero, List.append_nil]
        rfl

/-- The packets of a section are a legal packetisation of it. -/
theorem packetises_section (s : Section) (req : AfRequest) (fuel : Nat)
    (hfuel : s.bytes.length + 1 ≤ fuel) :
    ∃ packets, Packetises [s] packets ∧
      (cellViews .trailingBytes (fuel + 1) req true (0 :: s.bytes)).map
          (fun v => (v.start, v.payload)) =
        packets.map fun packet => (packet.payloadUnitStart, packet.payload) := by
  have hmin := req.minWireLen_le
  have hheader : 3 ≤ s.bytes.length := s.header_le
  rcases cellLens_section req (0 :: s.bytes).length with ⟨_, hreal⟩
  generalize hroom : bodyLen - req.minWireLen = room at hreal
  have hroomPos : 2 ≤ room := by
    have hbody : bodyLen = 184 := rfl
    omega
  rw [cellViews_cons fuel req true (List.cons_ne_nil _ _), cellPayload_section, hreal, hroom,
    List.map_cons]
  by_cases hlast : (0 :: s.bytes : Bytes).length ≤ room
  · refine ⟨[.closing [] [s] (room - (0 :: s.bytes : Bytes).length)],
      .closing [] [s] _ (fun _ => by decide) .nil, ?_⟩
    rw [Nat.min_eq_left hlast, List.drop_length, cellViews_nil, List.take_of_length_le hlast]
    simp only [List.map_nil, List.map_cons, SectionPacket.payloadUnitStart,
      SectionPacket.payload, SectionPacket.joined, List.isEmpty_cons, Bool.not_false,
      Bool.false_eq_true, if_false, List.flatten_cons, List.flatten_nil, List.append_nil,
      List.nil_append, List.length_nil, List.cons_append]
    rfl
  · have hlong : room < s.bytes.length + 1 := by
      rw [List.length_cons] at hlast
      omega
    have hcut : (0 :: s.bytes : Bytes).take room = 0 :: s.bytes.take (room - 1) := by
      rw [← Nat.sub_add_cancel (Nat.le_of_succ_le hroomPos), List.take_succ_cons]
      rfl
    have hrest : (0 :: s.bytes : Bytes).drop room = s.bytes.drop (room - 1) := by
      rw [← Nat.sub_add_cancel (Nat.le_of_succ_le hroomPos), List.drop_succ_cons]
      rfl
    have hrestNe : s.bytes.drop (room - 1) ≠ [] := by
      rw [← List.length_pos_iff, List.length_drop]
      omega
    rcases sends_later fuel (s.bytes.drop (room - 1)) (by rw [List.length_drop]; omega)
      hrestNe with ⟨packets, hsends, hviews⟩
    have hopening : Sends [] ([] ++ s :: [])
        (.opening [] [] s (s.bytes.take (room - 1)) :: packets) :=
      .opening [] [] s (s.bytes.take (room - 1)) (by decide) (List.take_append_drop _ _).symm
        (by rw [← List.length_pos_iff, List.length_take]; omega) hrestNe hsends
    refine ⟨_, hopening, ?_⟩
    have hfull : room ≤ (0 :: s.bytes : Bytes).length := Nat.le_of_lt (Nat.lt_of_not_le hlast)
    rw [Nat.min_eq_right hfull, hcut, hrest, hviews, List.map_cons, Nat.sub_eq_zero_of_le hfull,
      List.replicate_zero, List.append_nil]
    rfl

end TsWriter

/-! ## Calls -/

/-- What a call writes: a PES packet, or a section. -/
inductive Content where
  | pes (bytes : Bytes) (nonempty : bytes ≠ [])
  | psi (content : Section)

/-- One call of the writer, on a valid PID. -/
structure Call where
  pid : Nat
  pid_le : pid ≤ maxPid
  request : AfRequest
  content : Content

namespace Call

/-- The call writes a PES packet. -/
def isPes (c : Call) : Bool :=
  match c.content with
  | .pes _ _ => true
  | .psi _ => false

/-- The bytes written. -/
def bytes (c : Call) : Bytes :=
  match c.content with
  | .pes bytes _ => bytes
  | .psi content => content.bytes

/-- Make the call. -/
def write (w : TsWriter) (c : Call) : Except Error TsWriter :=
  match c.content with
  | .pes bytes _ => w.writePes c.pid bytes c.request
  | .psi content => w.writeSection c.pid content.bytes c.request

end Call

/-- Make the calls one after the other. -/
def writeAll (w : TsWriter) (calls : List Call) : Except Error TsWriter :=
  calls.foldlM Call.write w

/-- The packets of one PID. -/
def onPid (pid : Nat) (packets : List TsPacket) : List TsPacket :=
  packets.filter fun p => p.header.pid = pid

/-- The calls on one PID. -/
def callsOn (pid : Nat) (calls : List Call) : List Call :=
  calls.filter fun c => c.pid = pid

def unitsFrom : List TsPacket → Bytes × List Bytes
  | [] => ([], [])
  | p :: packets =>
      let later := unitsFrom packets
      if p.header.payloadUnitStart then ([], (p.payload ++ later.1) :: later.2)
      else (p.payload ++ later.1, later.2)

/-- The packets of a call: all on its PID, the first a start with the marks asked for, the others
neither. -/
def MarkedFirst (c : Call) (group : List TsPacket) : Prop :=
  (∀ p ∈ group, p.header.pid = c.pid) ∧
    ∃ first others, group = first :: others ∧ first.header.payloadUnitStart = true ∧
      first.view.marks = c.request.wrapped ∧
        ∀ p ∈ others, p.header.payloadUnitStart = false ∧ p.view.marks = {}

/-- The packets transport the calls without loss. -/
structure Transports (calls : List Call) (packets : List Bytes) (groups : List (List TsPacket)) :
    Prop where
  lengths : ∀ packet ∈ packets, packet.length = tsPacketSize
  parsed : packets.map TsPacket.parse = groups.flatten.map some
  wellFormed : ∀ p ∈ groups.flatten, p.malformedAdaptation = false
  counters : ∀ pid, (onPid pid groups.flatten).map (fun p => p.header.continuity) =
    (List.range (onPid pid groups.flatten).length).map (· % 16)
  pes : ∀ pid, (∀ c ∈ callsOn pid calls, c.isPes = true) →
    unitsFrom (onPid pid groups.flatten) = ([], (callsOn pid calls).map Call.bytes)
  sections : ∀ pid, (∀ c ∈ callsOn pid calls, c.isPes = false) →
    SectionAssembler.new.pushAll ((onPid pid groups.flatten).map
      fun p => (p.header.payloadUnitStart, p.payload)) = (callsOn pid calls).map Call.bytes
  marks : List.Forall₂ MarkedFirst calls groups

/-! ## One call -/

/-- The packets of a call carry a PES packet from its start on, or a legal packetisation of a
section. -/
structure Carried (c : Call) (group : List TsPacket) : Prop where
  wellFormed : ∀ p ∈ group, p.malformedAdaptation = false ∧ p.header.pid = c.pid
  marked : ∃ first others, group = first :: others ∧ first.header.payloadUnitStart = true ∧
    first.view.marks = c.request.wrapped ∧
      ∀ p ∈ others, p.header.payloadUnitStart = false ∧ p.view.marks = {}
  pes : c.isPes = true → (group.map TsPacket.payload).flatten = c.bytes
  psi : c.isPes = false → ∃ content packets, c.bytes = content.bytes ∧
    Packetises [content] packets ∧
      group.map (fun p => (p.header.payloadUnitStart, p.payload)) =
        packets.map fun packet => (packet.payloadUnitStart, packet.payload)

namespace TsWriter

theorem marked_of_views {pad : PadStyle} {fuel : Nat} {req : AfRequest} {prefixed : Bytes}
    {group : List TsPacket} (hne : prefixed ≠ [])
    (hviews : group.map TsPacket.view = cellViews pad (fuel + 1) req true prefixed) :
    ∃ first others, group = first :: others ∧ first.header.payloadUnitStart = true ∧
      first.view.marks = req.wrapped ∧
        ∀ p ∈ others, p.header.payloadUnitStart = false ∧ p.view.marks = {} := by
  rw [cellViews_cons fuel req true hne] at hviews
  rcases List.map_eq_cons_iff.1 hviews with ⟨first, others, rfl, hfirst, hothers⟩
  refine ⟨first, others, rfl, congrArg CellView.start hfirst, by rw [hfirst], ?_⟩
  intro p hp
  have hview : p.view ∈ others.map TsPacket.view := List.mem_map_of_mem hp
  rw [hothers] at hview
  exact cellViews_later pad fuel _ p.view hview

/-- A call writes its packets. -/
theorem write_carried (w : TsWriter) (c : Call) (hcounter : counterOf c.pid w.cc < 16) :
    ∃ w' views group, c.write w = .ok w' ∧ Appends w w' c.pid views group ∧ Carried c group := by
  have hvalid : ¬ maxPid < c.pid := Nat.not_lt_of_le c.pid_le
  cases hcontent : c.content with
  | pes bytes hne =>
      have hwrite : c.write w = .ok (writeLoop c.pid .adaptationField (bytes.length + 1) c.request
          true w bytes) := by
        unfold Call.write
        rw [hcontent]
        exact if_neg hvalid
      rcases writeLoop_appends c.pid_le .adaptationField (bytes.length + 1) c.request true w bytes
        (fun _ => hne) hcounter with ⟨group, happends⟩
      refine ⟨_, _, group, hwrite, happends, happends.wellFormed,
        marked_of_views hne happends.views_eq, ?_, ?_⟩
      · intro _
        have hflatten := flatten_pes (bytes.length + 1) c.request true bytes (Nat.lt_succ_self _)
        rw [← happends.views_eq, List.map_map] at hflatten
        unfold Call.bytes
        rw [hcontent]
        exact hflatten
      · intro hpes
        unfold Call.isPes at hpes
        rw [hcontent] at hpes
        cases hpes
  | psi content =>
      have hwrite : c.write w = .ok (writeLoop c.pid .trailingBytes
          (content.bytes.length + 1 + 1) c.request true w (0 :: content.bytes)) := by
        unfold Call.write
        rw [hcontent]
        exact if_neg hvalid
      rcases writeLoop_appends c.pid_le .trailingBytes (content.bytes.length + 1 + 1) c.request true
        w (0 :: content.bytes) (fun _ => List.cons_ne_nil _ _) hcounter with ⟨group, happends⟩
      refine ⟨_, _, group, hwrite, happends, happends.wellFormed,
        marked_of_views (List.cons_ne_nil _ _) happends.views_eq, ?_, ?_⟩
      · intro hpes
        unfold Call.isPes at hpes
        rw [hcontent] at hpes
        cases hpes
      · intro _
        rcases packetises_section content c.request (content.bytes.length + 1) (Nat.le_refl _) with
          ⟨packets, hpacketises, hviews⟩
        rw [← happends.views_eq, List.map_map] at hviews
        refine ⟨content, packets, ?_, hpacketises, hviews⟩
        unfold Call.bytes
        rw [hcontent]

end TsWriter

/-! ## All calls -/

theorem onPid_append (pid : Nat) (packets later : List TsPacket) :
    onPid pid (packets ++ later) = onPid pid packets ++ onPid pid later :=
  List.filter_append ..

theorem Carried.onPid_eq {c : Call} {group : List TsPacket} (h : Carried c group) (pid : Nat) :
    onPid pid group = if c.pid = pid then group else [] := by
  unfold onPid
  split
  · rename_i hpid
    rw [List.filter_eq_self]
    intro p hp
    exact decide_eq_true ((h.wellFormed p hp).2.trans hpid)
  · rename_i hpid
    rw [List.filter_eq_nil_iff]
    intro p hp heq
    exact hpid ((h.wellFormed p hp).2.symm.trans (of_decide_eq_true heq))

/-- What holds behind some calls. -/
structure Written (calls : List Call) (w : TsWriter) (groups : List (List TsPacket)) : Prop where
  lengths : ∀ packet ∈ w.packets, packet.length = tsPacketSize
  parsed : w.packets.map TsPacket.parse = groups.flatten.map some
  wellFormed : ∀ p ∈ groups.flatten, p.malformedAdaptation = false
  carried : List.Forall₂ Carried calls groups
  counters : ∀ pid, (onPid pid groups.flatten).map (fun p => p.header.continuity) =
    (List.range (onPid pid groups.flatten).length).map (· % 16)
  counterOf_eq : ∀ pid, counterOf pid w.cc = (onPid pid groups.flatten).length % 16

namespace Written

variable {calls : List Call} {w w' : TsWriter} {groups : List (List TsPacket)} {c : Call}

theorem new (m2ts : Bool) (muxrateBps : Option Nat) : Written [] (.new m2ts muxrateBps) [] where
  lengths := by
    intro packet hpacket
    cases hpacket
  parsed := rfl
  wellFormed := by
    intro p hp
    cases hp
  carried := .nil
  counters := fun _ => rfl
  counterOf_eq := fun _ => rfl

/-- From one call to the next. -/
theorem step (h : Written calls w groups) {views : List CellView} {group : List TsPacket}
    (happends : TsWriter.Appends w w' c.pid views group) (hcarried : Carried c group) :
    Written (calls ++ [c]) w' (groups ++ [group]) := by
  have hflatten : (groups ++ [group]).flatten = groups.flatten ++ group := by
    rw [List.flatten_append, List.flatten_singleton]
  refine ⟨?_, ?_, ?_, ?_, ?_, ?_⟩
  · intro packet hpacket
    rcases happends.lengths packet hpacket with hold | hnew
    · exact h.lengths packet hold
    · exact hnew
  · rw [happends.parsed, h.parsed, hflatten, List.map_append]
  · intro p hp
    rw [hflatten] at hp
    rcases List.mem_append.1 hp with hold | hnew
    · exact h.wellFormed p hold
    · exact (hcarried.wellFormed p hnew).1
  · exact List.rel_append h.carried (.cons hcarried .nil)
  · intro pid
    rw [hflatten, onPid_append, hcarried.onPid_eq pid]
    by_cases hpid : c.pid = pid
    · rw [if_pos hpid, List.map_append, h.counters pid, happends.counters, hpid, h.counterOf_eq pid,
        TsWriter.map_mod_range' (Nat.mod_mod _ _), List.range_eq_range', ← List.map_append,
        List.length_append, List.range_eq_range']
      refine congrArg (List.map _) ?_
      have happend := @List.range'_append_1 0 (onPid pid groups.flatten).length group.length
      rw [Nat.zero_add] at happend
      exact happend
    · rw [if_neg hpid, List.append_nil]
      exact h.counters pid
  · intro pid
    rw [happends.counterOf_eq pid, hflatten, onPid_append, hcarried.onPid_eq pid]
    by_cases hpid : pid = c.pid
    · rw [if_pos hpid, if_pos hpid.symm, hpid, h.counterOf_eq c.pid, List.length_append]
      omega
    · rw [if_neg hpid, if_neg (Ne.symm hpid), List.append_nil]
      exact h.counterOf_eq pid

theorem run (h : Written calls w groups) (later : List Call) :
    ∃ w' groups', writeAll w later = .ok w' ∧ Written (calls ++ later) w' groups' := by
  induction later generalizing calls w groups with
  | nil => exact ⟨w, groups, rfl, by rw [List.append_nil]; exact h⟩
  | cons c later ih =>
      have hcounter : counterOf c.pid w.cc < 16 := by
        rw [h.counterOf_eq]
        exact Nat.mod_lt _ (by decide)
      rcases w.write_carried c hcounter with ⟨w₁, views, group, hwrite, happends, hcarried⟩
      rcases ih (h.step happends hcarried) with ⟨w', groups', hlater, hwritten⟩
      refine ⟨w', groups', ?_, ?_⟩
      · unfold writeAll at hlater ⊢
        rw [List.foldlM_cons, hwrite]
        exact hlater
      · rw [List.append_assoc] at hwritten
        exact hwritten

end Written

theorem Carried.unitsFrom_append {c : Call} {group later : List TsPacket} (h : Carried c group)
    {units : List Bytes} (hlater : unitsFrom later = ([], units)) (hpes : c.isPes = true) :
    unitsFrom (group ++ later) = ([], c.bytes :: units) := by
  have hinside : ∀ others : List TsPacket,
      (∀ p ∈ others, p.header.payloadUnitStart = false) →
        unitsFrom (others ++ later) = ((others.map TsPacket.payload).flatten, units) := by
    intro others
    induction others with
    | nil => exact fun _ => hlater
    | cons p others ih =>
        intro hothers
        rw [List.cons_append, unitsFrom, ih (fun q hq => hothers q (List.mem_cons_of_mem _ hq)),
          hothers p List.mem_cons_self, if_neg Bool.false_ne_true, List.map_cons,
          List.flatten_cons]
  rcases h.marked with ⟨first, others, rfl, hstart, _, hothers⟩
  rw [List.cons_append, unitsFrom, hinside others (fun p hp => (hothers p hp).1), if_pos hstart,
    ← h.pes hpes, List.map_cons, List.flatten_cons]

theorem unitsFrom_of_carried {pid : Nat} {calls : List Call} {groups : List (List TsPacket)}
    (h : List.Forall₂ Carried calls groups) (hpes : ∀ c ∈ callsOn pid calls, c.isPes = true) :
    unitsFrom (onPid pid groups.flatten) = ([], (callsOn pid calls).map Call.bytes) := by
  induction h with
  | nil => rfl
  | @cons c group calls groups hcarried _ ih =>
      rw [List.flatten_cons, onPid_append, hcarried.onPid_eq pid]
      by_cases hpid : c.pid = pid
      · have hcalls : callsOn pid (c :: calls) = c :: callsOn pid calls :=
          List.filter_cons_of_pos (decide_eq_true hpid)
        rw [hcalls] at hpes ⊢
        rw [if_pos hpid, List.map_cons]
        exact hcarried.unitsFrom_append
          (ih fun c' hc' => hpes c' (List.mem_cons_of_mem _ hc')) (hpes c List.mem_cons_self)
      · have hcalls : callsOn pid (c :: calls) = callsOn pid calls :=
          List.filter_cons_of_neg (fun heq => hpid (of_decide_eq_true heq))
        rw [hcalls] at hpes ⊢
        rw [if_neg hpid, List.nil_append]
        exact ih hpes

/-- The packets of a PID that carries sections are a legal packetisation of them. -/
theorem packetises_of_carried {pid : Nat} {calls : List Call} {groups : List (List TsPacket)}
    (h : List.Forall₂ Carried calls groups) (hpsi : ∀ c ∈ callsOn pid calls, c.isPes = false) :
    ∃ sections packets, Packetises sections packets ∧
      sections.map Section.bytes = (callsOn pid calls).map Call.bytes ∧
        (onPid pid groups.flatten).map (fun p => (p.header.payloadUnitStart, p.payload)) =
          packets.map fun packet => (packet.payloadUnitStart, packet.payload) := by
  induction h with
  | nil => exact ⟨[], [], .nil, rfl, rfl⟩
  | @cons c group calls groups hcarried _ ih =>
      rw [List.flatten_cons, onPid_append, hcarried.onPid_eq pid]
      by_cases hpid : c.pid = pid
      · have hcalls : callsOn pid (c :: calls) = c :: callsOn pid calls :=
          List.filter_cons_of_pos (decide_eq_true hpid)
        rw [hcalls] at hpsi ⊢
        rcases ih fun c' hc' => hpsi c' (List.mem_cons_of_mem _ hc') with
          ⟨sections, packets, hpacketises, hsections, hpackets⟩
        rcases hcarried.psi (hpsi c List.mem_cons_self) with
          ⟨content, first, hbytes, hfirst, hgroup⟩
        refine ⟨content :: sections, first ++ packets, hfirst.append hpacketises, ?_, ?_⟩
        · rw [List.map_cons, List.map_cons, hsections, hbytes]
        · rw [if_pos hpid, List.map_append, List.map_append, hgroup, hpackets]
      · have hcalls : callsOn pid (c :: calls) = callsOn pid calls :=
          List.filter_cons_of_neg (fun heq => hpid (of_decide_eq_true heq))
        rw [hcalls] at hpsi ⊢
        rw [if_neg hpid, List.nil_append]
        exact ih hpsi

/-- Whatever is written on valid PIDs, every call succeeds and the packets transport it without
loss. -/
theorem transports_calls (m2ts : Bool) (muxrateBps : Option Nat) (calls : List Call) :
    ∃ w groups, writeAll (.new m2ts muxrateBps) calls = .ok w ∧
      Transports calls w.packets groups := by
  rcases (Written.new m2ts muxrateBps).run calls with ⟨w, groups, hwrite, hwritten⟩
  rw [List.nil_append] at hwritten
  refine ⟨w, groups, hwrite, hwritten.lengths, hwritten.parsed, hwritten.wellFormed,
    hwritten.counters, ?_, ?_, ?_⟩
  · intro pid hpes
    exact unitsFrom_of_carried hwritten.carried hpes
  · intro pid hpsi
    rcases packetises_of_carried hwritten.carried hpsi with
      ⟨sections, packets, hpacketises, hsections, hpackets⟩
    rw [hpackets, ← hsections, ← Receiver.receiveAll_kept hpacketises]
    exact (Receiver.receiveAll_pushAll 0 .new packets).symm
  · refine hwritten.carried.imp ?_
    intro c group hcarried
    exact ⟨fun p hp => (hcarried.wellFormed p hp).2, hcarried.marked⟩

/-- A section, a PES packet of two transport packets with a clock reference, and one of one. -/
def sectionAndPes : List Call :=
  [{ pid := 0, pid_le := by decide, request := {}
     content := .psi ⟨[0x42, 0xB0, 2, 1, 2], by decide, by decide, by decide, by decide⟩ },
   { pid := 256, pid_le := by decide, request := { randomAccess := true, pcr := some ⟨900, 7⟩ }
     content := .pes (List.replicate 200 5) (by decide) },
   { pid := 256, pid_le := by decide, request := {}, content := .pes [1, 2, 3] (by decide) }]

theorem transports_calls_sectionAndPes :
    ∃ w groups, writeAll (.new false none) sectionAndPes = .ok w ∧ w.packets.length = 4 ∧
      Transports sectionAndPes w.packets groups := by
  have hlength : (writeAll (.new false none) sectionAndPes).map (fun w => w.packets.length) =
      .ok 4 := by
    decide +kernel
  rcases transports_calls false none sectionAndPes with ⟨w, groups, hwrite, htransports⟩
  rw [hwrite] at hlength
  exact ⟨w, groups, hwrite, Except.ok.inj hlength, htransports⟩

end MpegTs
end Vaco
