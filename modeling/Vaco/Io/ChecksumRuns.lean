import Vaco.Io.CursorRuns

/-!
# What a running checksum has seen

An open checksum region is meant to cover the bytes its caller read, however the reader got them
and however it moved between them.  Reads feed exactly what they deliver, and peeks, seeks inside
the buffer and seeks of the transport feed nothing.  A seek served by discarding bytes, however,
feeds the bytes it passes over, so two contexts over one content agree only while no seek of an
open region is served that way.

Main results:

- `call_feeds`: a call feeds what it delivers, unless it is a discarding seek.
- `Answers.agree`: calls that succeed alike on two byte arrays of one content deliver the same
  bytes.
- `checksums_agree`: over runs without discarding seeks both checksums are those of the bytes read.
- `not_checksums_agree`: with one they differ.
-/

namespace Vaco
namespace Io

open Library Library.BitStream Library.Transducer Vaco.Core

/-- The checksum of some bytes. -/
def digest (kind : ChecksumKind) (data : Bytes) : BitVec 64 :=
  ((Checksum.new kind 0).update data).value

theorem value_update_new (kind : ChecksumKind) (start : Nat) (data : Bytes) :
    ((Checksum.new kind start).update data).value = digest kind data := by
  cases kind with
  | crc32Ieee => rfl
  | crc32Mpeg2 => rfl
  | adler32 => rfl

/-! ## The region of a run -/

/-- The open region after one more call: its kind and the bytes read since it was opened. -/
def regionStep (region : Option (ChecksumKind × Bytes)) (step : Call × Bytes) :
    Option (ChecksumKind × Bytes) :=
  match step.1 with
  | .startChecksum kind => some (kind, [])
  | _ => region.map fun open_ => (open_.1, open_.2 ++ step.2)

def regionOf (steps : List (Call × Bytes)) : Option (ChecksumKind × Bytes) :=
  steps.foldl regionStep none

def deliveries (steps : List (Call × Reply)) : List (Call × Bytes) :=
  steps.map fun step => (step.1, step.2.delivered)

theorem regionOf_concat (steps : List (Call × Reply)) (a : Call) (reply : Reply) :
    regionOf (deliveries (steps ++ [(a, reply)])) =
      regionStep (regionOf (deliveries steps)) (a, reply.delivered) := by
  rw [deliveries, List.map_append, regionOf, List.foldl_append]
  rfl

namespace IoContext

variable {m : Medium} {cap : Nat} {c : IoContext}

/-! ## What a call feeds -/

def PassesOver (c : IoContext) : Call → Prop
  | .seek pos => c.Discards pos
  | .skip n => c.Discards (satAddU64 c.pos n)
  | _ => False

instance (c : IoContext) (a : Call) : Decidable (c.PassesOver a) :=
  match a with
  | .seek pos => inferInstanceAs (Decidable (c.Discards pos))
  | .skip n => inferInstanceAs (Decidable (c.Discards (satAddU64 c.pos n)))
  | .readPartial _ => isFalse id
  | .readExact _ => isFalse id
  | .peek _ => isFalse id
  | .r8 => isFalse id
  | .startChecksum _ => isFalse id

/-- No bytes are passed over by reading while a region is open. -/
def Unfed (c : IoContext) (a : Call) : Prop :=
  c.checksum = none ∨ ¬ c.PassesOver a

instance (c : IoContext) (a : Call) : Decidable (c.Unfed a) :=
  inferInstanceAs (Decidable (_ ∨ _))

theorem map_update_nil (sum : Option Checksum) : (sum.map fun s => s.update []) = sum := by
  cases sum with
  | none => rfl
  | some s => rw [Option.map_some, Checksum.update_nil]

theorem seek_checksum {pos : Nat} (h : c.WellFormed m cap) (hpos : pos ≤ u64Max)
    (hunfed : c.checksum = none ∨ ¬ c.Discards pos) : (c.seek pos).1.checksum = c.checksum := by
  rcases hseek : c.seek pos with ⟨c', r⟩
  by_cases hwindow : c.InWindow pos
  · rcases seek_of_inWindow h hwindow with ⟨c₁, hseek₁, -, -, hsum⟩
    rw [hseek₁] at hseek
    cases hseek
    exact hsum
  by_cases hdiscards : c.Discards pos
  · rcases seek_of_discards h hdiscards hseek with ⟨data, hconsumes, -⟩
    have hclosed := hunfed.resolve_right fun hno => hno hdiscards
    rw [hconsumes.checksum_eq, hclosed]
    rfl
  · exact (seek_of_source h hpos hwindow hdiscards hseek).2.1

/-- A call that opens no region feeds what it delivers, unless it is a discarding seek. -/
theorem call_feeds (h : c.WellFormed m cap) {a : Call} (hopen : ∀ kind, a ≠ .startChecksum kind)
    (hunfed : c.Unfed a) :
    (c.call a).1.checksum = c.checksum.map fun sum => sum.update (c.call a).2.delivered := by
  cases a with
  | readPartial len =>
      rcases hread : c.readPartial len with ⟨c', r⟩
      rw [call, hread]
      rcases readPartial_spec h hread with ⟨e, rfl, -, hstays⟩ | ⟨data, rfl, hconsumes, -⟩
      · exact hstays.consumes.checksum_eq
      · exact hconsumes.checksum_eq
  | readExact len =>
      rcases hread : c.readExact len with ⟨c', data, r⟩
      rw [call, hread]
      exact (readExact_spec h hread).1.checksum_eq
  | peek len =>
      rcases hpeek : c.peek len with ⟨c', r⟩
      rw [call, hpeek]
      exact (peek_spec h hpeek).1.consumes.checksum_eq
  | r8 =>
      rcases hread : c.r8 with ⟨c', r⟩
      rw [call, hread]
      rcases r8_spec h hread with ⟨b, rfl, hconsumes⟩ | ⟨e, rfl, hstays, -⟩
      · exact hconsumes.checksum_eq
      · exact hstays.consumes.checksum_eq
  | seek pos =>
      change (c.seek pos).1.checksum = c.checksum.map fun sum => sum.update []
      rw [map_update_nil]
      exact seek_checksum h (Nat.le_of_lt_succ pos.isLt) hunfed
  | skip n =>
      have hsum := seek_checksum h (Nat.min_le_right (c.pos + n) u64Max) hunfed
      change (c.skip n).1.checksum = c.checksum.map fun sum => sum.update []
      rw [map_update_nil, skip]
      rcases hseek : c.seek (satAddU64 c.pos n) with ⟨c', r⟩
      rw [← satAddU64, hseek] at hsum
      cases r with
      | error e => exact hsum
      | ok actual =>
          dsimp only
          split
          · exact hsum
          · exact hsum
  | startChecksum kind => exact absurd rfl (hopen kind)

/-- An open checksum has been fed the bytes read since it was opened. -/
def Sums (c : IoContext) (region : Option (ChecksumKind × Bytes)) : Prop :=
  ∃ start, c.checksum = region.map fun open_ => (Checksum.new open_.1 start).update open_.2

theorem Sums.value {region : Option (ChecksumKind × Bytes)} (h : c.Sums region) :
    c.checksumValue = region.map fun open_ => digest open_.1 open_.2 := by
  rcases h with ⟨start, hsum⟩
  have hvalue : (Checksum.value ∘ fun open_ : ChecksumKind × Bytes =>
      (Checksum.new open_.1 start).update open_.2) = fun open_ => digest open_.1 open_.2 :=
    funext fun open_ => value_update_new open_.1 start open_.2
  rw [checksumValue, hsum, Option.map_map, hvalue]

/-- One call keeps the checksum that of the bytes read. -/
theorem Sums.call {region : Option (ChecksumKind × Bytes)} (h : c.Sums region)
    (hwf : c.WellFormed m cap) {a : Call} (hunfed : c.Unfed a) :
    (c.call a).1.Sums (regionStep region (a, (c.call a).2.delivered)) := by
  by_cases hopen : ∃ kind, a = .startChecksum kind
  · rcases hopen with ⟨kind, rfl⟩
    refine ⟨c.pos, ?_⟩
    change some (Checksum.new kind c.pos) = some ((Checksum.new kind c.pos).update [])
    rw [Checksum.update_nil]
  · have hclosed : ∀ kind, a ≠ .startChecksum kind := fun kind ha => hopen ⟨kind, ha⟩
    have hfeeds := call_feeds hwf hclosed hunfed
    have hstep : regionStep region (a, (c.call a).2.delivered) =
        region.map fun open_ => (open_.1, open_.2 ++ (c.call a).2.delivered) := by
      cases a with
      | startChecksum kind => exact absurd rfl (hclosed kind)
      | readPartial len => rfl
      | readExact len => rfl
      | peek len => rfl
      | r8 => rfl
      | seek pos => rfl
      | skip n => rfl
    rcases h with ⟨start, hsum⟩
    refine ⟨start, ?_⟩
    rw [hfeeds, hsum, hstep, Option.map_map, Option.map_map]
    congr 1
    funext open_
    exact (Checksum.update_append _ open_.2 _).symm

theorem Sums.run (hwf : c.WellFormed m cap) (hsum : c.checksum = none) {calls : List Call}
    (hunfed : Admissible IoContext.call Unfed c calls) :
    (stateAfter IoContext.call c calls).Sums
      (regionOf (deliveries (trace IoContext.call c calls))) := by
  have hrun : (stateAfter IoContext.call c calls).WellFormed m cap ∧
      (stateAfter IoContext.call c calls).Sums
        (regionOf (deliveries (trace IoContext.call c calls))) := by
    refine history_induction
      (H := fun past s => s.WellFormed m cap ∧ s.Sums (regionOf (deliveries past)))
      ⟨hwf, 0, hsum⟩ ?_ hunfed
    rintro past s a ⟨hs, hsums⟩ hstep
    refine ⟨(call_spec hs a).1, ?_⟩
    rw [regionOf_concat]
    exact hsums.call hs hstep
  exact hrun.2

end IoContext

/-! ## Two runs -/

/-- The position a seek reached. -/
def Reply.position : Reply → Option Nat
  | .reached (.ok pos) => some pos
  | _ => none

/-- Both calls succeed, with as many bytes or at the same position. -/
structure Reply.Agrees (reply reply' : Reply) : Prop where
  succeeded : reply.succeeded = true
  succeeded' : reply'.succeeded = true
  count_eq : reply.delivered.length = reply'.delivered.length
  position_eq : reply.position = reply'.position

instance (reply reply' : Reply) : Decidable (reply.Agrees reply') :=
  decidable_of_iff (reply.succeeded = true ∧ reply'.succeeded = true ∧
      reply.delivered.length = reply'.delivered.length ∧ reply.position = reply'.position)
    ⟨fun h => ⟨h.1, h.2.1, h.2.2.1, h.2.2.2⟩,
      fun h => ⟨h.succeeded, h.succeeded', h.count_eq, h.position_eq⟩⟩

/-- Calls that succeed alike on two byte arrays of one content deliver the same bytes and leave
both cursors at one place. -/
theorem Answers.agree {m m' : Medium} {cap cap' p q q' : Nat} {a : Call} {reply reply' : Reply}
    (hcontent : m.content = m'.content) (h : Answers m cap p a reply q)
    (h' : Answers m' cap' p a reply' q') (hagree : reply.Agrees reply') :
    q = q' ∧ reply.delivered = reply'.delivered := by
  cases h with
  | readPartial hle hin hnone =>
      cases h' with
      | readPartial hle' hin' hnone' =>
          have hlen : ((m.content.drop p).take _).length = ((m'.content.drop p).take _).length :=
            hagree.count_eq
          rw [List.length_take, List.length_take, List.length_drop, List.length_drop] at hlen
          rw [← hcontent] at hin' hlen
          rename_i n n'
          have hn : n = n' := by omega
          rw [hn]
          refine ⟨rfl, ?_⟩
          change (m.content.drop p).take n' = (m'.content.drop p).take n'
          rw [hcontent]
  | readExact hin =>
      cases h' with
      | readExact hin' =>
          refine ⟨rfl, ?_⟩
          change (m.content.drop p).take _ = (m'.content.drop p).take _
          rw [hcontent]
      | readShort hshort => exact absurd hagree.succeeded' Bool.false_ne_true
  | readShort hshort => exact absurd hagree.succeeded Bool.false_ne_true
  | peek len =>
      cases h' with
      | peek len => exact ⟨rfl, rfl⟩
      | peekRefused hlen limit requested most => exact absurd hagree.succeeded' Bool.false_ne_true
  | peekRefused hlen limit requested most => exact absurd hagree.succeeded Bool.false_ne_true
  | r8 hb =>
      cases h' with
      | r8 hb' =>
          rw [hcontent] at hb
          rw [hb, Option.some_inj] at hb'
          rw [hb']
          exact ⟨rfl, rfl⟩
      | r8End hend => exact absurd hagree.succeeded' Bool.false_ne_true
  | r8End hend => exact absurd hagree.succeeded Bool.false_ne_true
  | seek pos =>
      cases h' with
      | seek pos => exact ⟨rfl, rfl⟩
      | seekLands pos hseek => exact ⟨Option.some_inj.1 hagree.position_eq, rfl⟩
      | seekShort hahead hend => exact absurd hagree.succeeded' Bool.false_ne_true
      | seekBehind hseek hbehind => exact absurd hagree.succeeded' Bool.false_ne_true
  | seekLands pos hseek =>
      cases h' with
      | seek pos => exact ⟨Option.some_inj.1 hagree.position_eq, rfl⟩
      | seekLands pos hseek => exact ⟨Option.some_inj.1 hagree.position_eq, rfl⟩
      | seekShort hahead hend => exact absurd hagree.succeeded' Bool.false_ne_true
      | seekBehind hseek hbehind => exact absurd hagree.succeeded' Bool.false_ne_true
  | seekShort hahead hend => exact absurd hagree.succeeded Bool.false_ne_true
  | seekBehind hseek hbehind => exact absurd hagree.succeeded Bool.false_ne_true
  | skip n =>
      cases h' with
      | skip n => exact ⟨rfl, rfl⟩
      | skipShort hend => exact absurd hagree.succeeded' Bool.false_ne_true
      | skipElsewhere hseek hland => exact absurd hagree.succeeded' Bool.false_ne_true
  | skipShort hend => exact absurd hagree.succeeded Bool.false_ne_true
  | skipElsewhere hseek hland => exact absurd hagree.succeeded Bool.false_ne_true
  | startChecksum kind =>
      cases h' with
      | startChecksum kind => exact ⟨rfl, rfl⟩

namespace IoContext

/-- Every run of a fresh context whose calls all succeed is one of the byte array with a cursor. -/
theorem follows_of_new {src : MediaSource} {opts : IoOptions} {c : IoContext}
    (hnew : IoContext.new src opts = .ok c) (calls : List Call) :
    Follows (fun p a reply q => reply.succeeded = false ∨
        Answers src.medium (min opts.maxProbeBytes opts.block) p a reply q) src.pos
      (trace IoContext.call c calls) (stateAfter IoContext.call c calls).pos := by
  rcases new_eq_ok hnew with ⟨hwf, hstart, -⟩
  rw [← hstart]
  exact hwf.follows (fun _ _ hone => hone.2.elim Or.inr fun hno => Or.inl hno.2) calls

/-- Calls that succeed alike on two contexts over one content deliver the same bytes. -/
theorem deliveries_eq {src₁ src₂ : MediaSource} {opts₁ opts₂ : IoOptions} {c₁ c₂ : IoContext}
    (hnew₁ : IoContext.new src₁ opts₁ = .ok c₁) (hnew₂ : IoContext.new src₂ opts₂ = .ok c₂)
    (hcontent : src₁.medium.content = src₂.medium.content) (hstart : src₁.pos = src₂.pos)
    {calls : List Call}
    (hvalid : List.Forall₂ Reply.Agrees (outputs IoContext.call c₁ calls)
      (outputs IoContext.call c₂ calls)) :
    deliveries (trace IoContext.call c₁ calls) = deliveries (trace IoContext.call c₂ calls) := by
  have hfollows₁ := follows_of_new hnew₁ calls
  have hfollows₂ := follows_of_new hnew₂ calls
  rw [← hstart] at hfollows₂
  refine (hfollows₁.functional ?_ hfollows₂ (forall₂_trace hvalid)).2
  intro p a reply reply' q q' hanswer hanswer' hagree
  have hok := hagree.succeeded
  have hok' := hagree.succeeded'
  rcases hanswer with hno | hanswer
  · rw [hok] at hno
    cases hno
  rcases hanswer' with hno | hanswer'
  · rw [hok'] at hno
    cases hno
  exact hanswer.agree hcontent hanswer' hagree

/-- Without discarding seeks in an open region both checksums are that of the bytes delivered. -/
theorem checksums_agree {src₁ src₂ : MediaSource} {opts₁ opts₂ : IoOptions} {c₁ c₂ : IoContext}
    (hnew₁ : IoContext.new src₁ opts₁ = .ok c₁) (hnew₂ : IoContext.new src₂ opts₂ = .ok c₂)
    (hcontent : src₁.medium.content = src₂.medium.content) (hstart : src₁.pos = src₂.pos)
    {calls : List Call}
    (hvalid : List.Forall₂ Reply.Agrees (outputs IoContext.call c₁ calls)
      (outputs IoContext.call c₂ calls))
    (hunfed₁ : Admissible IoContext.call Unfed c₁ calls)
    (hunfed₂ : Admissible IoContext.call Unfed c₂ calls) :
    (stateAfter IoContext.call c₁ calls).checksumValue =
        (stateAfter IoContext.call c₂ calls).checksumValue ∧
      (stateAfter IoContext.call c₁ calls).checksumValue =
        (regionOf (deliveries (trace IoContext.call c₁ calls))).map (fun open_ =>
          digest open_.1 open_.2) ∧
      (stateAfter IoContext.call c₂ calls).checksumValue =
        (regionOf (deliveries (trace IoContext.call c₂ calls))).map fun open_ =>
          digest open_.1 open_.2 := by
  rcases new_eq_ok hnew₁ with ⟨hwf₁, -, hclosed₁⟩
  rcases new_eq_ok hnew₂ with ⟨hwf₂, -, hclosed₂⟩
  have hvalue₁ := (Sums.run hwf₁ hclosed₁ hunfed₁).value
  have hvalue₂ := (Sums.run hwf₂ hclosed₂ hunfed₂).value
  refine ⟨?_, hvalue₁, hvalue₂⟩
  rw [hvalue₁, hvalue₂, deliveries_eq hnew₁ hnew₂ hcontent hstart hvalid]

/-- A byte skipped inside the buffers of a seekable and of a forward-only context. -/
theorem checksums_agree_oneSkipped :
    ∃ c₁ c₂,
      IoContext.new (.memory [7#8, 8#8, 9#8] .cheap (by decide))
        (IoOptions.default.withBlockSize 64) = .ok c₁ ∧
      IoContext.new (.memory [7#8, 8#8, 9#8] .none (by decide))
        (IoOptions.default.withBlockSize 64) = .ok c₂ ∧
      (stateAfter IoContext.call c₁ [.startChecksum .adler32, .r8, .seek 2, .r8]).checksumValue =
        (stateAfter IoContext.call c₂ [.startChecksum .adler32, .r8, .seek 2, .r8]).checksumValue := by
  refine ⟨_, _, rfl, rfl, ?_⟩
  have hagree := @checksums_agree (.memory [7#8, 8#8, 9#8] .cheap (by decide))
    (.memory [7#8, 8#8, 9#8] .none (by decide)) (IoOptions.default.withBlockSize 64)
    (IoOptions.default.withBlockSize 64) _ _ rfl rfl rfl rfl
    [.startChecksum .adler32, .r8, .seek 2, .r8] (by decide +kernel) (by decide +kernel)
    (by decide +kernel)
  exact hagree.1

/-- A seek over the first byte feeds it on a forward-only source and not on a seekable one. -/
theorem not_checksums_agree :
    ¬ ∀ (src₁ src₂ : MediaSource) (opts₁ opts₂ : IoOptions) (c₁ c₂ : IoContext),
      IoContext.new src₁ opts₁ = .ok c₁ → IoContext.new src₂ opts₂ = .ok c₂ →
      src₁.medium.content = src₂.medium.content → src₁.pos = src₂.pos → ∀ calls : List Call,
      List.Forall₂ Reply.Agrees (outputs IoContext.call c₁ calls)
        (outputs IoContext.call c₂ calls) →
      (stateAfter IoContext.call c₁ calls).checksumValue =
          (stateAfter IoContext.call c₂ calls).checksumValue ∧
        (stateAfter IoContext.call c₁ calls).checksumValue =
          (regionOf (deliveries (trace IoContext.call c₁ calls))).map (fun open_ =>
            digest open_.1 open_.2) ∧
        (stateAfter IoContext.call c₂ calls).checksumValue =
          (regionOf (deliveries (trace IoContext.call c₂ calls))).map fun open_ =>
            digest open_.1 open_.2 := by
  intro h
  have hboth := h (.memory [7#8] .cheap (by decide)) (.memory [7#8] .none (by decide))
    (IoOptions.default.withBlockSize 64) (IoOptions.default.withBlockSize 64) _ _ rfl rfl rfl rfl
    [.startChecksum .adler32, .seek 1] (by decide +kernel)
  exact absurd hboth.1 (by decide +kernel)

end IoContext

end Io
end Vaco
