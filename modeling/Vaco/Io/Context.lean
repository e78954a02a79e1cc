import Mathlib.Tactic
import Vaco.Sched.Wire
import Vaco.Io.Checksum

/-!
# The buffered reader every demuxer is handed

A context owns one read buffer over a media source.  The bytes between `head` and
`tail` are unconsumed, the bytes before `head` serve backward seeks, and `base` is
the offset of the first byte of the buffer.  Filling, compaction, direct reads, peeks and the
three kinds of seek all rewrite these three numbers.

Main results:

- `MediaSource.read_spec`: what one read of the transport may give.

Current gaps:

- The cancellation token is left out: nobody cancels the contexts here.
- The readers of words and of strings, which repeat `read_exact` and `r8`, and the seek
  from the end are left out.
-/

namespace Vaco
namespace Io

open Library Library.BitStream Vaco.Core Vaco.Sched

/-! ## Media sources -/

/-- Where a source's bytes come from. -/
inductive Seekability where
  | cheap
  | expensive
  | none
deriving DecidableEq, Repr

/-- A transport.  Its `k`-th call fails with `fails k`; a read gives at most `gives k` bytes, one at
least while there is one; a seek lands at `lands pos`. -/
structure Medium where
  content : Bytes
  seekability : Seekability
  gives : Nat → Nat
  fails : Nat → Option Error
  lands : Nat → Nat
  length_content_le : content.length ≤ u64Max
  lands_le : ∀ pos, lands pos ≤ u64Max

/-- Some call of the transport fails. -/
def Medium.Fails (m : Medium) : Prop :=
  ∃ k e, m.fails k = some e

/-- A transport at a position, with the number of calls it has answered. -/
structure MediaSource where
  medium : Medium
  calls : Nat
  pos : Nat
  pos_le : pos ≤ u64Max

namespace MediaSource

/-- The bytes the next read gives when it does not fail. -/
def available (s : MediaSource) (len : Nat) : Bytes :=
  (s.medium.content.drop s.pos).take (min len (max 1 (s.medium.gives s.calls)))

theorem pos_add_available_le (s : MediaSource) (len : Nat) :
    s.pos + (s.available len).length ≤ u64Max := by
  have hpos := s.pos_le
  have hlen := s.medium.length_content_le
  rw [available, List.length_take, List.length_drop]
  omega

/-- Read at most `len` bytes. -/
def read (s : MediaSource) (len : Nat) : MediaSource × Except Error Bytes :=
  match s.medium.fails s.calls with
  | some e => ({ s with calls := s.calls + 1 }, .error e)
  | none =>
      ({ s with
          calls := s.calls + 1
          pos := s.pos + (s.available len).length
          pos_le := s.pos_add_available_le len }, .ok (s.available len))

/-- Move to an absolute offset, returning the position reached. -/
def seek (s : MediaSource) (pos : Nat) : MediaSource × Except Error Nat :=
  if s.medium.seekability = .none then
    (s, .error .notSeekable)
  else
    match s.medium.fails s.calls with
    | some e => ({ s with calls := s.calls + 1 }, .error e)
    | none =>
        ({ s with
            calls := s.calls + 1
            pos := s.medium.lands pos
            pos_le := s.medium.lands_le pos }, .ok (s.medium.lands pos))

/-- A slice of bytes presented as a media source. -/
def memory (data : Bytes) (seekability : Seekability) (h : data.length ≤ u64Max) : MediaSource where
  medium :=
    { content := data
      seekability := seekability
      gives := fun _ => data.length
      fails := fun _ => none
      lands := fun pos => min pos u64Max
      length_content_le := h
      lands_le := fun _ => Nat.min_le_right _ _ }
  calls := 0
  pos := 0
  pos_le := Nat.zero_le _

variable {s s' : MediaSource} {len pos : Nat}

/-- A read gives the bytes at the position and moves over them; it gives none only at the end. -/
theorem read_spec {r : Except Error Bytes} (h : s.read len = (s', r)) :
    s'.medium = s.medium ∧
      ((∃ e, r = .error e ∧ s.medium.Fails ∧ s'.pos = s.pos) ∨
        ∃ data, r = .ok data ∧ data = (s.medium.content.drop s.pos).take data.length ∧
          data.length ≤ len ∧ s'.pos = s.pos + data.length ∧
            (data = [] → 0 < len → s.medium.content.length ≤ s.pos)) := by
  unfold read at h
  cases hfails : s.medium.fails s.calls with
  | some e =>
      rw [hfails, Prod.mk.injEq] at h
      rcases h with ⟨rfl, rfl⟩
      exact ⟨rfl, Or.inl ⟨e, rfl, ⟨s.calls, e, hfails⟩, rfl⟩⟩
  | none =>
      rw [hfails, Prod.mk.injEq] at h
      rcases h with ⟨rfl, rfl⟩
      refine ⟨rfl, Or.inr ⟨s.available len, rfl, ?_, ?_, rfl, ?_⟩⟩
      · rw [available, List.length_take, List.take_eq_take_iff]
        omega
      · rw [available, List.length_take]
        omega
      · intro hnil hlen
        have hlength := congrArg List.length hnil
        rw [available, List.length_take, List.length_drop, List.length_nil] at hlength
        omega

theorem seek_spec {r : Except Error Nat} (h : s.seek pos = (s', r))
    (hseek : s.medium.seekability ≠ .none) :
    s'.medium = s.medium ∧
      ((∃ e, r = .error e ∧ s.medium.Fails ∧ s'.pos = s.pos) ∨
        r = .ok (s.medium.lands pos) ∧ s'.pos = s.medium.lands pos) := by
  unfold seek at h
  rw [if_neg hseek] at h
  cases hfails : s.medium.fails s.calls with
  | some e =>
      rw [hfails, Prod.mk.injEq] at h
      rcases h with ⟨rfl, rfl⟩
      exact ⟨rfl, Or.inl ⟨e, rfl, ⟨s.calls, e, hfails⟩, rfl⟩⟩
  | none =>
      rw [hfails, Prod.mk.injEq] at h
      rcases h with ⟨rfl, rfl⟩
      exact ⟨rfl, Or.inr ⟨rfl, rfl⟩⟩

end MediaSource

/-! ## The context -/

/-- Tunables of a context. -/
structure IoOptions where
  blockSize : Nat
  direct : Bool
  shortSeekMax : Nat
  limits : Limits
  maxProbeBytes : Nat

/-- The smallest buffer that is honoured. -/
def minBlockSize : Nat :=
  64

/-- The largest buffer that is honoured. -/
def maxBlockSize : Nat :=
  16777216

/-- The size of the buffer a context starts with. -/
def IoOptions.block (opts : IoOptions) : Nat :=
  max minBlockSize (min opts.blockSize maxBlockSize)

/-- The options a context has when none are given, with the limits for untrusted input. -/
def IoOptions.default : IoOptions where
  blockSize := 32768
  direct := false
  shortSeekMax := 65536
  limits :=
    { maxAllocTotal := 67108864
      maxAllocSingle := 16777216
      total_le := by decide }
  maxProbeBytes := 1048576

/-- Override the buffer size. -/
def IoOptions.withBlockSize (opts : IoOptions) (n : Nat) : IoOptions :=
  { opts with blockSize := n }

/-- Reconstruct an error so that a sticky failure can be returned again. -/
def replay : Error → Error
  | .cancelled => .io "Other"
  | e => e

/-- Bytes with others written over them from a position on. -/
def store (buf : Bytes) (start : Nat) (data : Bytes) : Bytes :=
  buf.take start ++ data ++ buf.drop (start + data.length)

/-- The buffered reader. -/
structure IoContext where
  src : MediaSource
  buf : Bytes
  head : Nat
  tail : Nat
  base : Nat
  eof : Bool
  err : Option Error
  bytesRead : Nat
  checksum : Option Checksum
  budget : Budget
  seekability : Seekability
  shortSeek : Nat
  direct : Bool
  maxPeek : Nat

namespace IoContext

/-- The forward distance that is read and discarded instead of sought. -/
def shortSeekOf (seekability : Seekability) (opts : IoOptions) : Nat :=
  match seekability with
  | .cheap => 0
  | .expensive => opts.shortSeekMax
  | .none => u64Max

/-- Wrap a source with a buffer sized by the options. -/
def new (src : MediaSource) (opts : IoOptions) : Except Error IoContext :=
  match (Budget.new opts.limits).charge opts.block with
  | .error e => .error e.toError
  | .ok budget =>
      .ok
        { src := src
          buf := List.replicate opts.block 0#8
          head := 0
          tail := 0
          base := src.pos
          eof := false
          err := none
          bytesRead := 0
          checksum := none
          budget := budget
          seekability := src.medium.seekability
          shortSeek := shortSeekOf src.medium.seekability opts
          direct := opts.direct
          maxPeek := opts.maxProbeBytes }

/-- The caller's byte offset. -/
def pos (c : IoContext) : Nat :=
  satAddU64 c.base c.head

/-- Unconsumed bytes already in the buffer. -/
def buffered (c : IoContext) : Nat :=
  c.tail - c.head

/-- Record the first failure and return the error. -/
def fail (c : IoContext) (e : Error) : IoContext × Error :=
  ({ c with err := if c.err.isNone then some e else c.err }, replay e)

/-- Move unconsumed bytes to the front of the buffer. -/
def compact (c : IoContext) : IoContext :=
  if c.head = 0 then
    c
  else
    { c with
      buf := store c.buf 0 ((c.buf.take c.tail).drop c.head)
      base := satAddU64 c.base c.head
      tail := c.tail - c.head
      head := 0 }

/-- Make room for a read behind the buffered bytes. -/
def makeRoom (c : IoContext) : IoContext :=
  if c.head = c.tail then
    { c with
      base := satAddU64 c.base c.head
      head := 0
      tail := 0 }
  else if c.tail = c.buf.length then
    c.compact
  else
    c

/-- One read of the transport into the room behind the buffered bytes. -/
def pull (c : IoContext) : IoContext × Except Error Unit :=
  if c.buf.length ≤ c.tail then
    (c, .ok ())
  else
    match c.src.read (c.buf.length - c.tail) with
    | (src, .error e) =>
        let failed := { c with src := src }.fail e
        (failed.1, .error failed.2)
    | (src, .ok data) =>
        if data = [] then
          ({ c with
              src := src
              eof := true }, .ok ())
        else
          ({ c with
              src := src
              buf := store c.buf c.tail data
              tail := c.tail + data.length
              bytesRead := satAddU64 c.bytesRead data.length }, .ok ())

/-- Pull one transport read into the buffer. -/
def fill (c : IoContext) : IoContext × Except Error Unit :=
  match c.err with
  | some e => (c, .error (replay e))
  | none => if c.eof then (c, .ok ()) else c.makeRoom.pull

/-- The next `n` bytes of the buffer, where it has them. -/
def region (c : IoContext) (n : Nat) : Option Bytes :=
  if c.head + n ≤ c.buf.length then some ((c.buf.drop c.head).take n) else none

/-- Feed bytes to the open checksum. -/
def feed (c : IoContext) (data : Option Bytes) : Option Checksum :=
  match c.checksum, data with
  | some sum, some data => some (sum.update data)
  | sum, _ => sum

/-- Consume `n` buffered bytes, feeding any open checksum. -/
def advance (c : IoContext) (n : Nat) : IoContext :=
  { c with
    checksum := c.feed (c.region n)
    head := c.head + n }

/-- Read from the transport past the buffer, which is empty. -/
def readDirect (c : IoContext) (len : Nat) : IoContext × Except Error Bytes :=
  match c.src.read len with
  | (src, .error e) =>
      let failed := { c with src := src }.fail e
      (failed.1, .error failed.2)
  | (src, .ok data) =>
      if data = [] then
        ({ c with
            src := src
            eof := true }, .ok [])
      else
        ({ c with
            src := src
            bytesRead := satAddU64 c.bytesRead data.length
            checksum := c.feed (some data)
            base := satAddU64 c.base (c.head + data.length)
            head := 0
            tail := 0 }, .ok data)

/-- Copy out of the buffer as much as it has and the caller takes. -/
def readBuffered (c : IoContext) (len : Nat) : IoContext × Except Error Bytes :=
  match c.region (min c.buffered len) with
  | none => (c, .error .unexpectedEof)
  | some data => (c.advance (min c.buffered len), .ok data)

/-- Read up to `len` bytes.  A short read is normal; no bytes is the end. -/
def readPartial (c : IoContext) (len : Nat) : IoContext × Except Error Bytes :=
  if len = 0 then
    (c, .ok [])
  else if c.buffered = 0 then
    if c.direct && decide (c.buf.length ≤ len) && !c.eof then
      c.readDirect len
    else
      match c.fill with
      | (c, .error e) => (c, .error e)
      | (c, .ok ()) => if c.buffered = 0 then (c, .ok []) else c.readBuffered len
  else
    c.readBuffered len

/-- Read until `left` more bytes have come, or the source ends. -/
def readLoop : Nat → IoContext → Nat → IoContext × Bytes × Except Error Unit
  | 0, c, _ => (c, [], .ok ())
  | fuel + 1, c, left =>
      if left = 0 then
        (c, [], .ok ())
      else
        match c.readPartial left with
        | (c, .error e) => (c, [], .error e)
        | (c, .ok data) =>
            if data = [] then
              (c, [], .error .unexpectedEof)
            else
              let rest := readLoop fuel c (left - data.length)
              (rest.1, data ++ rest.2.1, rest.2.2)

/-- Read exactly `len` bytes. -/
def readExact (c : IoContext) (len : Nat) : IoContext × Bytes × Except Error Unit :=
  readLoop len c len

def growTo (c : IoContext) (len : Nat) : IoContext × Except Error Unit :=
  if c.buf.length < len then
    match c.budget.charge (len - c.buf.length) with
    | .error e => (c, .error e.toError)
    | .ok budget =>
        ({ c with
            budget := budget
            buf := c.buf ++ List.replicate (len - c.buf.length) 0#8 }, .ok ())
  else
    (c, .ok ())

/-- Fill until `len` bytes are buffered, the source ends or a turn brings nothing. -/
def peekLoop : Nat → IoContext → Nat → IoContext × Except Error Unit
  | 0, c, _ => (c, .ok ())
  | fuel + 1, c, len =>
      if decide (c.buffered < len) && !c.eof then
        match c.fill with
        | (c', .error e) => (c', .error e)
        | (c', .ok ()) => if c'.tail = c.tail then (c', .ok ()) else peekLoop fuel c' len
      else
        (c, .ok ())

/-- The buffered bytes a peek shows. -/
def shown (c : IoContext) (len : Nat) : Except Error Bytes :=
  if c.head ≤ min (c.head + len) c.tail ∧ min (c.head + len) c.tail ≤ c.buf.length then
    .ok ((c.buf.take (min (c.head + len) c.tail)).drop c.head)
  else
    .error .unexpectedEof

/-- Look at the next `len` bytes without consuming them. -/
def peek (c : IoContext) (len : Nat) : IoContext × Except Error Bytes :=
  if c.maxPeek < len then
    (c, .error (.limitExceeded "max_probe_bytes" len c.maxPeek))
  else if c.buffered < len then
    match c.compact.growTo len with
    | (c, .error e) => (c, .error e)
    | (c, .ok ()) =>
        match peekLoop len c len with
        | (c, .error e) => (c, .error e)
        | (c, .ok ()) => (c, c.shown len)
  else
    (c, c.shown len)

/-- Discard `left` bytes by reading them, each turn at least one. -/
def discardLoop : Nat → IoContext → Nat → IoContext × Except Error Unit
  | 0, c, _ => (c, .ok ())
  | fuel + 1, c, left =>
      if left = 0 then
        (c, .ok ())
      else if c.buffered = 0 then
        match c.fill with
        | (c, .error e) => (c, .error e)
        | (c, .ok ()) =>
            if c.buffered = 0 then
              (c, .error .unexpectedEof)
            else
              discardLoop fuel (c.advance (min c.buffered left)) (left - min c.buffered left)
      else
        discardLoop fuel (c.advance (min c.buffered left)) (left - min c.buffered left)

/-- Discard `n` bytes by reading them. -/
def discard (c : IoContext) (n : Nat) : IoContext × Except Error Unit :=
  discardLoop n c n

/-- The next byte of a buffer that has one. -/
def readByte (c : IoContext) : IoContext × Except Error (BitVec 8) :=
  match c.buf[c.head]? with
  | none => (c, .error .unexpectedEof)
  | some b => (c.advance 1, .ok b)

/-- Read one byte. -/
def r8 (c : IoContext) : IoContext × Except Error (BitVec 8) :=
  if c.buffered = 0 then
    match c.fill with
    | (c, .error e) => (c, .error e)
    | (c, .ok ()) => if c.buffered = 0 then (c, .error .unexpectedEof) else c.readByte
  else
    c.readByte

/-- The offset lies in the window of bytes the buffer holds. -/
def InWindow (c : IoContext) (pos : Nat) : Prop :=
  c.base ≤ pos ∧ pos ≤ satAddU64 c.base c.tail

instance (c : IoContext) (pos : Nat) : Decidable (c.InWindow pos) :=
  inferInstanceAs (Decidable (_ ∧ _))

/-- The offset lies outside the window and ahead by no more than the short-seek distance. -/
def Discards (c : IoContext) (pos : Nat) : Prop :=
  ¬ c.InWindow pos ∧ c.pos < pos ∧ pos - c.pos ≤ c.shortSeek

instance (c : IoContext) (pos : Nat) : Decidable (c.Discards pos) :=
  inferInstanceAs (Decidable (_ ∧ _))

/-- Seek the transport, dropping the buffer. -/
def seekSource (c : IoContext) (pos : Nat) : IoContext × Except Error Nat :=
  if c.seekability = .none then
    (c, .error .notSeekable)
  else
    match c.src.seek pos with
    | (src, .error e) =>
        let failed := { c with src := src }.fail e
        (failed.1, .error failed.2)
    | (src, .ok actual) =>
        ({ c with
            src := src
            base := actual
            head := 0
            tail := 0
            eof := false }, .ok actual)

/-- Move to an absolute offset: inside the buffer, by discarding, or by the transport. -/
def seek (c : IoContext) (pos : Nat) : IoContext × Except Error Nat :=
  if c.InWindow pos then
    ({ c with head := pos - c.base }, .ok pos)
  else if c.pos < pos ∧ pos - c.pos ≤ c.shortSeek then
    match c.discard (pos - c.pos) with
    | (c, .error e) => (c, .error e)
    | (c, .ok ()) => (c, .ok pos)
  else
    c.seekSource pos

/-- Skip exactly `n` bytes forward. -/
def skip (c : IoContext) (n : Nat) : IoContext × Except Error Unit :=
  match c.seek (satAddU64 c.pos n) with
  | (c', .error e) => (c', .error e)
  | (c', .ok actual) =>
      if actual = satAddU64 c.pos n then (c', .ok ()) else (c', .error .unexpectedEof)

/-- Open a checksum region at the current position. -/
def startChecksum (c : IoContext) (kind : ChecksumKind) : IoContext :=
  { c with checksum := some (Checksum.new kind c.pos) }

/-- The value so far without closing the region. -/
def checksumValue (c : IoContext) : Option (BitVec 64) :=
  c.checksum.map Checksum.value

end IoContext

end Io
end Vaco
