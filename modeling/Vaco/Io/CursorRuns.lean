import Vaco.Library.Transducer
import Vaco.Io.ContextWindow

/-!
# A context is a byte array with a cursor

Seen from its caller a context is the content of its source and a position in it.  Reads deliver
the bytes at the position and move over them, peeks show them, seeks move the position.  How the
source slices its reads, how large the buffer is and which way a seek is served stay invisible,
apart from the length of a partial read and the seeks a forward-only source refuses.

Main results:

- `call_spec`: one call is a step of the byte array with a cursor.
- `refines_cursor`: so is every run.
-/

namespace Vaco
namespace Io

open Library Library.BitStream Library.Transducer Vaco.Core

/-! ## Calls and replies -/

/-- An offset or a distance as a caller gives it. -/
abbrev Offset := Fin (u64Max + 1)

/-- A call of a reader. -/
inductive Call where
  | readPartial (len : Nat)
  | readExact (len : Nat)
  | peek (len : Nat)
  | r8
  | seek (pos : Offset)
  | skip (n : Offset)
  | startChecksum (kind : ChecksumKind)
deriving DecidableEq, Repr

/-- What a call gives back: the bytes a read delivered, the bytes a peek shows, the position a
seek reached. -/
inductive Reply where
  | bytes (data : Bytes) (result : Except Error Unit)
  | shown (result : Except Error Bytes)
  | reached (result : Except Error Nat)
  | done (result : Except Error Unit)

namespace Reply

/-- The call did not fail. -/
def succeeded : Reply → Bool
  | .bytes _ result => result.isOk
  | .shown result => result.isOk
  | .reached result => result.isOk
  | .done result => result.isOk

/-- The bytes a read handed to the caller. -/
def delivered : Reply → Bytes
  | .bytes data _ => data
  | .shown _ => []
  | .reached _ => []
  | .done _ => []

/-- A read that gives its bytes or nothing. -/
def ofRead : Except Error Bytes → Reply
  | .ok data => .bytes data (.ok ())
  | .error e => .bytes [] (.error e)

/-- A read of one byte. -/
def ofByte : Except Error (BitVec 8) → Reply
  | .ok b => .bytes [b] (.ok ())
  | .error e => .bytes [] (.error e)

end Reply

/-- Answer a call. -/
def IoContext.call (c : IoContext) : Call → IoContext × Reply
  | .readPartial len => ((c.readPartial len).1, .ofRead (c.readPartial len).2)
  | .readExact len => ((c.readExact len).1, .bytes (c.readExact len).2.1 (c.readExact len).2.2)
  | .peek len => ((c.peek len).1, .shown (c.peek len).2)
  | .r8 => (c.r8.1, .ofByte c.r8.2)
  | .seek pos => ((c.seek pos).1, .reached (c.seek pos).2)
  | .skip n => ((c.skip n).1, .done (c.skip n).2)
  | .startChecksum kind => (c.startChecksum kind, .done (.ok ()))

/-! ## The byte array with a cursor -/

/-- How a byte array with a cursor at `p` answers a call, and where its cursor is afterwards.  A
seek reaches its target, or where the transport lands; a forward-only source refuses one behind the
cursor. -/
inductive Answers (m : Medium) (cap p : Nat) : Call → Reply → Nat → Prop
  | readPartial {len n : Nat} (hle : n ≤ len) (hin : n ≤ m.content.length - p)
      (hnone : n = 0 → 0 < len → m.content.length ≤ p) :
      Answers m cap p (.readPartial len) (.bytes ((m.content.drop p).take n) (.ok ())) (p + n)
  | readExact {len : Nat} (hin : len ≤ m.content.length - p) :
      Answers m cap p (.readExact len) (.bytes ((m.content.drop p).take len) (.ok ())) (p + len)
  | readShort {len : Nat} (hshort : m.content.length - p < len) :
      Answers m cap p (.readExact len) (.bytes (m.content.drop p) (.error .unexpectedEof))
        (p + (m.content.length - p))
  | peek (len : Nat) :
      Answers m cap p (.peek len) (.shown (.ok ((m.content.drop p).take len))) p
  | peekRefused {len : Nat} (hlen : cap < len) (limit : String) (requested most : Nat) :
      Answers m cap p (.peek len) (.shown (.error (.limitExceeded limit requested most))) p
  | r8 {b : BitVec 8} (hb : m.content[p]? = some b) :
      Answers m cap p .r8 (.bytes [b] (.ok ())) (p + 1)
  | r8End (hend : m.content.length ≤ p) :
      Answers m cap p .r8 (.bytes [] (.error .unexpectedEof)) p
  | seek (pos : Offset) : Answers m cap p (.seek pos) (.reached (.ok pos)) pos
  | seekLands (pos : Offset) (hseek : m.seekability ≠ .none) :
      Answers m cap p (.seek pos) (.reached (.ok (m.lands pos))) (m.lands pos)
  | seekShort {pos : Offset} (hahead : p < pos) (hend : m.content.length < pos) :
      Answers m cap p (.seek pos) (.reached (.error .unexpectedEof)) (p + (m.content.length - p))
  | seekBehind {pos : Offset} (hseek : m.seekability = .none) (hbehind : pos < p) :
      Answers m cap p (.seek pos) (.reached (.error .notSeekable)) p
  | skip (n : Offset) : Answers m cap p (.skip n) (.done (.ok ())) (satAddU64 p n)
  | skipShort {n : Offset} (hend : m.content.length < satAddU64 p n) :
      Answers m cap p (.skip n) (.done (.error .unexpectedEof)) (p + (m.content.length - p))
  | skipElsewhere {n : Offset} (hseek : m.seekability ≠ .none)
      (hland : m.lands (satAddU64 p n) ≠ satAddU64 p n) :
      Answers m cap p (.skip n) (.done (.error .unexpectedEof)) (m.lands (satAddU64 p n))
  | startChecksum (kind : ChecksumKind) :
      Answers m cap p (.startChecksum kind) (.done (.ok ())) p

/-! ## One call -/

namespace IoContext

variable {m : Medium} {cap : Nat} {c c' : IoContext}

/-- The state keeps the invariant and the reply is one of the byte array with a cursor, unless the
transport failed. -/
def Refines (m : Medium) (cap : Nat) (c : IoContext) (call : Call) (after : IoContext × Reply) :
    Prop :=
  after.1.WellFormed m cap ∧
    (Answers m cap c.pos call after.2 after.1.pos ∨ m.Fails ∧ after.2.succeeded = false)

theorem Consumes.length_le {data : Bytes} (h : Consumes m cap c c' data) :
    data.length ≤ m.content.length - c.pos := by
  have hlen := congrArg List.length h.data_eq
  rw [List.length_take, List.length_drop] at hlen
  omega

theorem readPartial_refines (h : c.WellFormed m cap) (len : Nat) :
    Refines m cap c (.readPartial len) (c.call (.readPartial len)) := by
  rcases hread : c.readPartial len with ⟨c', r⟩
  have hcall : c.call (.readPartial len) = (c', .ofRead r) := by rw [call, hread]
  rw [hcall]
  rcases readPartial_spec h hread with ⟨e, rfl, hfails, hstays⟩ | ⟨data, rfl, hconsumes, hle, hnone⟩
  · exact ⟨hstays.wf, Or.inr ⟨hfails, rfl⟩⟩
  · refine ⟨hconsumes.wf, Or.inl ?_⟩
    have hanswer := @Answers.readPartial m cap c.pos len data.length hle hconsumes.length_le
      fun hzero => hnone (List.length_eq_zero_iff.1 hzero)
    rw [← hconsumes.data_eq, ← hconsumes.pos_eq] at hanswer
    exact hanswer

theorem readExact_refines (h : c.WellFormed m cap) (len : Nat) :
    Refines m cap c (.readExact len) (c.call (.readExact len)) := by
  rcases hread : c.readExact len with ⟨c', data, r⟩
  have hcall : c.call (.readExact len) = (c', .bytes data r) := by rw [call, hread]
  rw [hcall]
  rcases readExact_spec h hread with ⟨hconsumes, hends⟩
  have hin := hconsumes.length_le
  refine ⟨hconsumes.wf, ?_⟩
  cases r with
  | ok u =>
      have hall : data.length = len := hends
      have hanswer := @Answers.readExact m cap c.pos len (by omega)
      rw [← hall, ← hconsumes.data_eq, ← hconsumes.pos_eq, hall] at hanswer
      exact Or.inl hanswer
  | error e =>
      rcases (show m.Fails ∨ _ from hends) with hfails | ⟨rfl, hend, hlt⟩
      · exact Or.inr ⟨hfails, rfl⟩
      · have hpos := hconsumes.pos_eq
        have hall : data.length = m.content.length - c.pos := by omega
        have hdata : data = m.content.drop c.pos := by
          rw [hconsumes.data_eq, List.take_of_length_le]
          rw [List.length_drop, hall]
        have hanswer := @Answers.readShort m cap c.pos len (by omega)
        rw [← hdata, ← hall, ← hpos] at hanswer
        exact Or.inl hanswer

theorem peek_refines (h : c.WellFormed m cap) (len : Nat) :
    Refines m cap c (.peek len) (c.call (.peek len)) := by
  rcases hpeek : c.peek len with ⟨c', r⟩
  have hcall : c.call (.peek len) = (c', .shown r) := by rw [call, hpeek]
  rw [hcall]
  rcases peek_spec h hpeek with
    ⟨hstays, rfl | ⟨e, rfl, hfails | ⟨hlen, limit, requested, most, rfl⟩⟩⟩
  · refine ⟨hstays.wf, Or.inl ?_⟩
    rw [hstays.pos_eq]
    exact Answers.peek len
  · exact ⟨hstays.wf, Or.inr ⟨hfails, rfl⟩⟩
  · refine ⟨hstays.wf, Or.inl ?_⟩
    rw [hstays.pos_eq]
    exact Answers.peekRefused hlen limit requested most

theorem r8_refines (h : c.WellFormed m cap) : Refines m cap c .r8 (c.call .r8) := by
  rcases hread : c.r8 with ⟨c', r⟩
  have hcall : c.call .r8 = (c', .ofByte r) := by rw [call, hread]
  rw [hcall]
  rcases r8_spec h hread with ⟨b, rfl, hconsumes⟩ | ⟨e, rfl, hstays, hfails | ⟨rfl, hend⟩⟩
  · refine ⟨hconsumes.wf, Or.inl ?_⟩
    have hdata := hconsumes.data_eq
    rw [List.length_singleton, List.take_one, List.head?_drop] at hdata
    rw [hconsumes.pos_eq]
    refine Answers.r8 ?_
    cases hb : m.content[c.pos]? with
    | none =>
        rw [hb] at hdata
        cases hdata
    | some b' =>
        rw [hb, Option.toList_some, List.singleton_inj] at hdata
        rw [hdata]
  · exact ⟨hstays.wf, Or.inr ⟨hfails, rfl⟩⟩
  · refine ⟨hstays.wf, Or.inl ?_⟩
    rw [hstays.pos_eq]
    exact Answers.r8End hend

/-- A seek ends at its target, where the transport lands, at the end, or not at all. -/
theorem seek_ends {pos : Nat} {r : Except Error Nat} (h : c.WellFormed m cap)
    (hpos : pos ≤ u64Max) (hseek : c.seek pos = (c', r)) :
    c'.WellFormed m cap ∧
      (r = .ok pos ∧ c'.pos = pos ∨
        m.seekability ≠ .none ∧ r = .ok (m.lands pos) ∧ c'.pos = m.lands pos ∨
        c.pos < pos ∧ m.content.length < pos ∧ r = .error .unexpectedEof ∧
          c'.pos = c.pos + (m.content.length - c.pos) ∨
        m.seekability = .none ∧ pos < c.pos ∧ ¬ c.InWindow pos ∧ r = .error .notSeekable ∧
          c'.pos = c.pos ∨
        m.Fails ∧ ∃ e, r = .error e) := by
  by_cases hwindow : c.InWindow pos
  · rcases seek_of_inWindow h hwindow with ⟨c₁, hseek₁, hwf, hmoved, -⟩
    rw [hseek₁] at hseek
    cases hseek
    exact ⟨hwf, Or.inl ⟨rfl, hmoved⟩⟩
  by_cases hdiscards : c.Discards pos
  · rcases seek_of_discards h hdiscards hseek with
      ⟨data, hconsumes, ⟨hr, hmoved⟩ | ⟨e, hr, hfails | ⟨rfl, hend, hshort⟩⟩⟩
    · exact ⟨hconsumes.wf, Or.inl ⟨hr, hmoved⟩⟩
    · exact ⟨hconsumes.wf, Or.inr (Or.inr (Or.inr (Or.inr ⟨hfails, e, hr⟩)))⟩
    · have hin := hconsumes.length_le
      have hmoved := hconsumes.pos_eq
      exact ⟨hconsumes.wf, Or.inr (Or.inr (Or.inl ⟨hdiscards.2.1, by omega, hr, by omega⟩))⟩
  · rcases seek_of_source h hpos hwindow hdiscards hseek with
      ⟨hwf, -, ⟨hnone, hbehind, hr, rfl⟩ | ⟨hsome, ⟨hr, hmoved⟩ | ⟨e, hr, hfails⟩⟩⟩
    · exact ⟨hwf, Or.inr (Or.inr (Or.inr (Or.inl ⟨hnone, hbehind, hwindow, hr, rfl⟩)))⟩
    · exact ⟨hwf, Or.inr (Or.inl ⟨hsome, hr, hmoved⟩)⟩
    · exact ⟨hwf, Or.inr (Or.inr (Or.inr (Or.inr ⟨hfails, e, hr⟩)))⟩

theorem seek_refines (h : c.WellFormed m cap) (pos : Offset) :
    Refines m cap c (.seek pos) (c.call (.seek pos)) := by
  rcases hseek : c.seek pos with ⟨c', r⟩
  have hcall : c.call (.seek pos) = (c', .reached r) := by rw [call, hseek]
  rw [hcall]
  rcases seek_ends h (Nat.le_of_lt_succ pos.isLt) hseek with
    ⟨hwf, ⟨rfl, hmoved⟩ | ⟨hsome, rfl, hmoved⟩ | ⟨hahead, hend, rfl, hmoved⟩ |
      ⟨hnone, hbehind, -, rfl, hmoved⟩ | ⟨hfails, e, rfl⟩⟩
  · refine ⟨hwf, Or.inl ?_⟩
    rw [hmoved]
    exact Answers.seek pos
  · refine ⟨hwf, Or.inl ?_⟩
    rw [hmoved]
    exact Answers.seekLands pos hsome
  · refine ⟨hwf, Or.inl ?_⟩
    rw [hmoved]
    exact Answers.seekShort hahead hend
  · refine ⟨hwf, Or.inl ?_⟩
    rw [hmoved]
    exact Answers.seekBehind hnone hbehind
  · exact ⟨hwf, Or.inr ⟨hfails, rfl⟩⟩

theorem skip_refines (h : c.WellFormed m cap) (n : Offset) :
    Refines m cap c (.skip n) (c.call (.skip n)) := by
  have htarget : satAddU64 c.pos n ≤ u64Max := Nat.min_le_right _ _
  have hforward : c.pos ≤ satAddU64 c.pos n := by
    have hpos := h.pos_le
    rw [satAddU64]
    omega
  rcases hseek : c.seek (satAddU64 c.pos n) with ⟨c', r⟩
  rcases seek_ends h htarget hseek with
    ⟨hwf, ⟨rfl, hmoved⟩ | ⟨hsome, rfl, hmoved⟩ | ⟨hahead, hend, rfl, hmoved⟩ |
      ⟨hnone, hbehind, -, rfl, hmoved⟩ | ⟨hfails, e, rfl⟩⟩
  · have hcall : c.call (.skip n) = (c', .done (.ok ())) := by
      rw [call, skip, hseek]
      dsimp only
      rw [if_pos rfl]
    rw [hcall]
    refine ⟨hwf, Or.inl ?_⟩
    rw [hmoved]
    exact Answers.skip n
  · by_cases hland : m.lands (satAddU64 c.pos n) = satAddU64 c.pos n
    · have hcall : c.call (.skip n) = (c', .done (.ok ())) := by
        rw [call, skip, hseek]
        dsimp only
        rw [if_pos hland]
      rw [hcall]
      refine ⟨hwf, Or.inl ?_⟩
      rw [hmoved, hland]
      exact Answers.skip n
    · have hcall : c.call (.skip n) = (c', .done (.error .unexpectedEof)) := by
        rw [call, skip, hseek]
        dsimp only
        rw [if_neg hland]
      rw [hcall]
      refine ⟨hwf, Or.inl ?_⟩
      rw [hmoved]
      exact Answers.skipElsewhere hsome hland
  · have hcall : c.call (.skip n) = (c', .done (.error .unexpectedEof)) := by
      rw [call, skip, hseek]
    rw [hcall]
    refine ⟨hwf, Or.inl ?_⟩
    rw [hmoved]
    exact Answers.skipShort hend
  · omega
  · have hcall : c.call (.skip n) = (c', .done (.error e)) := by
      rw [call, skip, hseek]
    rw [hcall]
    exact ⟨hwf, Or.inr ⟨hfails, rfl⟩⟩

theorem startChecksum_refines (h : c.WellFormed m cap) (kind : ChecksumKind) :
    Refines m cap c (.startChecksum kind) (c.call (.startChecksum kind)) :=
  ⟨⟨h.medium, h.seekability, h.shortSeek, h.head_le, h.tail_le, h.buf_pos, h.transport, h.window,
    h.eof, h.sticky, h.cap_le_maxPeek, h.cap_le_buf⟩, Or.inl (Answers.startChecksum kind)⟩

/-- One call of a context is a step of the byte array with a cursor. -/
theorem call_spec (h : c.WellFormed m cap) (a : Call) : Refines m cap c a (c.call a) := by
  cases a with
  | readPartial len => exact readPartial_refines h len
  | readExact len => exact readExact_refines h len
  | peek len => exact peek_refines h len
  | r8 => exact r8_refines h
  | seek pos => exact seek_refines h pos
  | skip n => exact skip_refines h n
  | startChecksum kind => exact startChecksum_refines h kind

/-! ## Runs -/

theorem WellFormed.run (h : c.WellFormed m cap) (calls : List Call) :
    (stateAfter IoContext.call c calls).WellFormed m cap :=
  invariant (P := fun _ _ => True) h (fun _ a hs _ => (call_spec hs a).1) (admissible_true c calls)

/-- A run follows whatever every call of a well-formed context meets. -/
theorem WellFormed.follows (h : c.WellFormed m cap) {spec : Nat → Call → Reply → Nat → Prop}
    (hspec : ∀ (c : IoContext) (a : Call), Refines m cap c a (c.call a) →
      spec c.pos a (c.call a).2 (c.call a).1.pos) (calls : List Call) :
    Follows spec c.pos (trace IoContext.call c calls) (stateAfter IoContext.call c calls).pos := by
  have hfollows : ∃ q, Follows spec c.pos (trace IoContext.call c calls) q ∧
      (stateAfter IoContext.call c calls).WellFormed m cap ∧
      q = (stateAfter IoContext.call c calls).pos := by
    refine follows_trace (P := fun _ _ => True) (R := fun p s => s.WellFormed m cap ∧ p = s.pos)
      ⟨h, rfl⟩ ?_ (admissible_true c calls)
    rintro p s a ⟨hs, rfl⟩ -
    exact ⟨_, hspec s a (call_spec hs a), (call_spec hs a).1, rfl⟩
  rcases hfollows with ⟨q, hfollows, -, rfl⟩
  exact hfollows

end IoContext

end Io
end Vaco
