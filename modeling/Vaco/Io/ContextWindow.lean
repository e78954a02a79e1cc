import Vaco.Io.Context

/-!
# What the buffer of a context holds

At every moment the buffer holds a stretch of the source's content: from `base` up to the
position of the transport.  Each operation either leaves the caller's position where it is or
moves it over bytes of the content, which are also the bytes an open checksum is fed.

Main results:

- `fill_spec`: a fill with room brings bytes or finds the end of the content.
- `readPartial_spec`, `readExact_spec`, `r8_spec` and `discard_spec`: what a read or a discard
  consumes.
- `peek_spec`: a peek leaves the position and shows the following bytes.
- `seek_of_inWindow`, `seek_of_discards` and `seek_of_source`: the three ways a seek is served.
-/

namespace Vaco
namespace Io

open Library Library.BitStream Vaco.Core Vaco.Sched

/-! ## Storing into the buffer -/

theorem length_store {buf data : Bytes} {start : Nat} (h : start + data.length ≤ buf.length) :
    (store buf start data).length = buf.length := by
  rw [store, List.length_append, List.length_append, List.length_take, List.length_drop]
  omega

theorem take_store {buf data : Bytes} {start : Nat} (h : start ≤ buf.length) :
    (store buf start data).take (start + data.length) = buf.take start ++ data := by
  have hlen : (buf.take start ++ data).length = start + data.length := by
    rw [List.length_append, List.length_take, Nat.min_eq_left h]
  rw [store, ← hlen, List.take_left]

namespace IoContext

/-! ## The invariant -/

/-- The buffer ends where the transport stands, and `cap` bytes can be peeked. -/
structure WellFormed (m : Medium) (cap : Nat) (c : IoContext) : Prop where
  medium : c.src.medium = m
  seekability : c.seekability = m.seekability
  shortSeek : m.seekability = .none → c.shortSeek = u64Max
  head_le : c.head ≤ c.tail
  tail_le : c.tail ≤ c.buf.length
  buf_pos : 0 < c.buf.length
  transport : c.src.pos = c.base + c.tail
  window : c.buf.take c.tail = (m.content.drop c.base).take c.tail
  eof : c.eof = true → m.content.length ≤ c.src.pos
  sticky : ∀ e, c.err = some e → m.Fails
  cap_le_maxPeek : cap ≤ c.maxPeek
  cap_le_buf : cap ≤ c.buf.length

variable {m : Medium} {cap : Nat} {c c' c'' : IoContext}

namespace WellFormed

theorem base_add_le (h : c.WellFormed m cap) : c.base + c.tail ≤ u64Max := by
  have hpos := c.src.pos_le
  rwa [h.transport] at hpos

theorem pos_eq (h : c.WellFormed m cap) : c.pos = c.base + c.head := by
  have hle := h.base_add_le
  have hhead := h.head_le
  exact satAddU64_of_le (by omega)

theorem windowEnd_eq (h : c.WellFormed m cap) : satAddU64 c.base c.tail = c.base + c.tail :=
  satAddU64_of_le h.base_add_le

theorem transport_eq (h : c.WellFormed m cap) : c.src.pos = c.pos + c.buffered := by
  have hhead := h.head_le
  rw [h.transport, h.pos_eq, buffered]
  omega

theorem pos_le (h : c.WellFormed m cap) : c.pos ≤ u64Max := by
  have hle := h.base_add_le
  have hhead := h.head_le
  rw [h.pos_eq]
  omega

theorem slice (h : c.WellFormed m cap) {n : Nat} (hn : n ≤ c.buffered) :
    (c.buf.drop c.head).take n = (m.content.drop c.pos).take n := by
  have hhead := h.head_le
  have hmin : min n (c.tail - c.head) = n := Nat.min_eq_left hn
  calc
    (c.buf.drop c.head).take n = ((c.buf.take c.tail).drop c.head).take n := by
      rw [List.drop_take, List.take_take, hmin]
    _ = (((m.content.drop c.base).take c.tail).drop c.head).take n := by rw [h.window]
    _ = (m.content.drop c.pos).take n := by
      rw [List.drop_take, List.take_take, hmin, List.drop_drop, h.pos_eq]

theorem region_eq (h : c.WellFormed m cap) {n : Nat} (hn : n ≤ c.buffered) :
    c.region n = some ((m.content.drop c.pos).take n) := by
  have hhead := h.head_le
  have htail := h.tail_le
  rw [buffered] at hn
  rw [region, if_pos (by omega), h.slice hn]

end WellFormed

/-! ## A fresh context -/

/-- A fresh context stands where its source does, with an empty buffer. -/
theorem new_eq_ok {src : MediaSource} {opts : IoOptions} (h : IoContext.new src opts = .ok c) :
    c.WellFormed src.medium (min opts.maxProbeBytes opts.block) ∧ c.pos = src.pos ∧
      c.checksum = none := by
  unfold IoContext.new at h
  split at h
  · cases h
  · cases h
    have hblock : 0 < opts.block := by
      rw [IoOptions.block, minBlockSize]
      omega
    refine ⟨⟨rfl, rfl, ?_, Nat.le_refl _, Nat.zero_le _, ?_, rfl, ?_, ?_, ?_, ?_, ?_⟩, ?_, rfl⟩
    · intro hnone
      change shortSeekOf src.medium.seekability opts = u64Max
      rw [hnone]
      rfl
    · rwa [List.length_replicate]
    · rw [List.take_zero, List.take_zero]
    · intro h
      cases h
    · intro e h
      cases h
    · exact Nat.min_le_left _ _
    · rw [List.length_replicate]
      exact Nat.min_le_right _ _
    · exact satAddU64_of_le src.pos_le

/-! ## Steps that leave the position -/

/-- The position and the checksum stay, and no buffered byte is lost. -/
structure Stays (m : Medium) (cap : Nat) (c c' : IoContext) : Prop where
  wf : c'.WellFormed m cap
  pos_eq : c'.pos = c.pos
  checksum_eq : c'.checksum = c.checksum
  buf_le : c.buf.length ≤ c'.buf.length
  buffered_le : c.buffered ≤ c'.buffered
  head_zero : c.head = 0 → c'.head = 0

namespace Stays

theorem refl (h : c.WellFormed m cap) : Stays m cap c c where
  wf := h
  pos_eq := rfl
  checksum_eq := rfl
  buf_le := Nat.le_refl _
  buffered_le := Nat.le_refl _
  head_zero := id

theorem trans (first : Stays m cap c c') (second : Stays m cap c' c'') : Stays m cap c c'' where
  wf := second.wf
  pos_eq := second.pos_eq.trans first.pos_eq
  checksum_eq := second.checksum_eq.trans first.checksum_eq
  buf_le := Nat.le_trans first.buf_le second.buf_le
  buffered_le := Nat.le_trans first.buffered_le second.buffered_le
  head_zero := fun h => second.head_zero (first.head_zero h)

end Stays

/-- Compaction moves the buffered bytes to the front. -/
theorem compact_stays (h : c.WellFormed m cap) :
    Stays m cap c c.compact ∧ c.compact.head = 0 ∧ c.compact.buf.length = c.buf.length := by
  unfold compact
  split
  · rename_i hzero
    exact ⟨Stays.refl h, hzero, rfl⟩
  · have hhead := h.head_le
    have htail := h.tail_le
    have hle := h.base_add_le
    have hpos := h.pos_eq
    have hlen : ((c.buf.take c.tail).drop c.head).length = c.tail - c.head := by
      rw [List.length_drop, List.length_take, Nat.min_eq_left htail]
    have hbuf : (store c.buf 0 ((c.buf.take c.tail).drop c.head)).length = c.buf.length :=
      length_store (by omega)
    have hstored : (store c.buf 0 ((c.buf.take c.tail).drop c.head)).take (0 + _) = _ :=
      take_store (Nat.zero_le c.buf.length)
    rw [hlen, Nat.zero_add, List.take_zero, List.nil_append] at hstored
    refine ⟨⟨⟨h.medium, h.seekability, h.shortSeek, ?_, ?_, ?_, ?_, ?_, h.eof, h.sticky,
      h.cap_le_maxPeek, ?_⟩, ?_, rfl, ?_, ?_, fun _ => rfl⟩, rfl, hbuf⟩
    · exact Nat.zero_le _
    · change c.tail - c.head ≤ (store c.buf 0 _).length
      omega
    · change 0 < (store c.buf 0 _).length
      rw [hbuf]
      exact h.buf_pos
    · change c.src.pos = c.pos + (c.tail - c.head)
      rw [h.transport, hpos]
      omega
    · change (store c.buf 0 _).take (c.tail - c.head) = (m.content.drop c.pos).take (c.tail - c.head)
      rw [hstored, h.window, List.drop_take, List.drop_drop, hpos]
    · change cap ≤ (store c.buf 0 _).length
      rw [hbuf]
      exact h.cap_le_buf
    · exact satAddU64_of_le h.pos_le
    · change c.buf.length ≤ (store c.buf 0 _).length
      omega
    · exact Nat.le_refl _

/-- After making room there is room, unless the buffer is full of unconsumed bytes. -/
theorem makeRoom_stays (h : c.WellFormed m cap) :
    Stays m cap c c.makeRoom ∧
      (c.buffered < c.buf.length → c.makeRoom.tail < c.makeRoom.buf.length) := by
  have hhead := h.head_le
  unfold makeRoom
  split
  · rename_i hempty
    have hpos := h.pos_eq
    refine ⟨⟨⟨h.medium, h.seekability, h.shortSeek, Nat.le_refl _, Nat.zero_le _, h.buf_pos, ?_, ?_,
      h.eof, h.sticky, h.cap_le_maxPeek, h.cap_le_buf⟩, ?_, rfl, Nat.le_refl _, ?_, fun _ => rfl⟩,
      fun _ => h.buf_pos⟩
    · change c.src.pos = c.pos + 0
      rw [h.transport, hpos, hempty, Nat.add_zero]
    · rw [List.take_zero, List.take_zero]
    · exact satAddU64_of_le h.pos_le
    · rw [buffered, hempty, Nat.sub_self]
      exact Nat.zero_le _
  split
  · rename_i hne hfull
    rcases compact_stays h with ⟨hstays, hzero, hbuf⟩
    refine ⟨hstays, fun _ => ?_⟩
    have hmoved : c.compact.tail = c.tail - c.head := by
      unfold compact
      split
      · rename_i hhead
        rw [hhead, Nat.sub_zero]
      · rfl
    rename_i hroom
    rw [buffered] at hroom
    omega
  · rename_i hne hfull
    have htail := h.tail_le
    exact ⟨Stays.refl h, fun _ => by omega⟩

/-- A fill brings bytes or the bytes buffered are the last ones. -/
def Fetches (m : Medium) (c c' : IoContext) : Prop :=
  c.buffered < c'.buffered ∨ m.content.length ≤ c'.pos + c'.buffered

theorem pull_spec {r : Except Error Unit} (h : c.WellFormed m cap) (hpull : c.pull = (c', r)) :
    Stays m cap c c' ∧
      ((∃ e, r = .error e ∧ m.Fails) ∨
        r = .ok () ∧ (c.tail < c.buf.length → Fetches m c c')) := by
  unfold pull at hpull
  split at hpull
  · rename_i hfull
    cases hpull
    exact ⟨Stays.refl h, Or.inr ⟨rfl, fun hroom => absurd hroom (by omega)⟩⟩
  rename_i hroom
  rcases hread : c.src.read (c.buf.length - c.tail) with ⟨src, r'⟩
  rw [hread] at hpull
  rcases MediaSource.read_spec hread with ⟨hmedium, ⟨e, rfl, hfails, hsrc⟩ |
    ⟨data, rfl, hdata, hlen, hsrc, hnone⟩⟩
  · cases hpull
    rw [h.medium] at hfails hmedium
    refine ⟨⟨⟨hmedium, h.seekability, h.shortSeek, h.head_le, h.tail_le, h.buf_pos, ?_, h.window, ?_,
      fun _ _ => hfails, h.cap_le_maxPeek, h.cap_le_buf⟩, rfl, rfl, Nat.le_refl _, Nat.le_refl _, id⟩,
      Or.inl ⟨_, rfl, hfails⟩⟩
    · exact hsrc.trans h.transport
    · intro heof
      exact hsrc ▸ h.eof heof
  rw [h.medium] at hmedium hdata hnone
  dsimp only at hpull
  split at hpull
  · rename_i hnil
    cases hpull
    subst hnil
    have hend := hnone rfl (by omega)
    refine ⟨⟨⟨hmedium, h.seekability, h.shortSeek, h.head_le, h.tail_le, h.buf_pos, ?_, h.window, ?_,
      h.sticky, h.cap_le_maxPeek, h.cap_le_buf⟩, rfl, rfl, Nat.le_refl _, Nat.le_refl _, id⟩,
      Or.inr ⟨rfl, fun _ => Or.inr ?_⟩⟩
    · exact hsrc.trans h.transport
    · intro _
      exact hend.trans (Nat.le_of_eq hsrc.symm)
    · exact hend.trans (Nat.le_of_eq h.transport_eq)
  · rename_i hcons
    cases hpull
    have hpos : 0 < data.length := List.length_pos_iff.2 hcons
    have hhead := h.head_le
    have hbuf : (store c.buf c.tail data).length = c.buf.length := length_store (by omega)
    refine ⟨⟨⟨hmedium, h.seekability, h.shortSeek, ?_, ?_, ?_, ?_, ?_, ?_, h.sticky,
      h.cap_le_maxPeek, ?_⟩, rfl, rfl, Nat.le_of_eq hbuf.symm, ?_, id⟩,
      Or.inr ⟨rfl, fun _ => Or.inl ?_⟩⟩
    · change c.head ≤ c.tail + data.length
      omega
    · change c.tail + data.length ≤ (store c.buf c.tail data).length
      omega
    · change 0 < (store c.buf c.tail data).length
      rw [hbuf]
      exact h.buf_pos
    · change src.pos = c.base + (c.tail + data.length)
      rw [hsrc, h.transport]
      omega
    · change (store c.buf c.tail data).take (c.tail + data.length) = _
      rw [take_store h.tail_le, h.window, List.take_add, List.drop_drop, ← h.transport, ← hdata]
    · intro heof
      have hend := h.eof heof
      change m.content.length ≤ src.pos
      omega
    · change cap ≤ (store c.buf c.tail data).length
      rw [hbuf]
      exact h.cap_le_buf
    · change c.tail - c.head ≤ c.tail + data.length - c.head
      omega
    · change c.tail - c.head < c.tail + data.length - c.head
      omega

/-- A fill leaves the position; with room in the buffer it brings bytes or finds the end. -/
theorem fill_spec {r : Except Error Unit} (h : c.WellFormed m cap) (hfill : c.fill = (c', r)) :
    Stays m cap c c' ∧
      ((∃ e, r = .error e ∧ m.Fails) ∨
        r = .ok () ∧ (c.buffered < c.buf.length → Fetches m c c')) := by
  unfold fill at hfill
  split at hfill
  · rename_i e herr
    cases hfill
    exact ⟨Stays.refl h, Or.inl ⟨_, rfl, h.sticky e herr⟩⟩
  split at hfill
  · rename_i heof
    cases hfill
    have hend := h.eof heof
    exact ⟨Stays.refl h, Or.inr ⟨rfl, fun _ => Or.inr (hend.trans (Nat.le_of_eq h.transport_eq))⟩⟩
  · rcases makeRoom_stays h with ⟨hstays, hroom⟩
    rcases pull_spec hstays.wf hfill with ⟨hpulled, hresult⟩
    refine ⟨hstays.trans hpulled, hresult.imp_right ?_⟩
    rintro ⟨hok, hfetch⟩
    refine ⟨hok, fun hspace => ?_⟩
    have hbuffered := hstays.buffered_le
    rcases hfetch (hroom hspace) with hmore | hend
    · exact Or.inl (by omega)
    · exact Or.inr hend

theorem fill_empty {r : Except Error Unit} (h : c.WellFormed m cap) (hempty : c.buffered = 0)
    (hfill : c.fill = (c', r)) :
    Stays m cap c c' ∧
      ((∃ e, r = .error e ∧ m.Fails) ∨
        r = .ok () ∧ (c'.buffered = 0 → m.content.length ≤ c'.pos)) := by
  rcases fill_spec h hfill with ⟨hstays, hresult⟩
  refine ⟨hstays, hresult.imp_right ?_⟩
  rintro ⟨hok, hfetch⟩
  have hbuf := h.buf_pos
  refine ⟨hok, fun hnone => ?_⟩
  rcases hfetch (by omega) with hmore | hend
  · omega
  · omega

/-! ## Steps that consume bytes -/

@[simp]
theorem feed_some (c : IoContext) (data : Bytes) :
    c.feed (some data) = c.checksum.map fun sum => sum.update data := by
  unfold feed
  cases c.checksum with
  | none => rfl
  | some sum => rfl

/-- The position moves over `data`, the next bytes of the medium, and an open checksum is fed
them. -/
structure Consumes (m : Medium) (cap : Nat) (c c' : IoContext) (data : Bytes) : Prop where
  wf : c'.WellFormed m cap
  data_eq : data = (m.content.drop c.pos).take data.length
  pos_eq : c'.pos = c.pos + data.length
  checksum_eq : c'.checksum = c.checksum.map fun sum => sum.update data

theorem Stays.consumes (h : Stays m cap c c') : Consumes m cap c c' [] where
  wf := h.wf
  data_eq := rfl
  pos_eq := h.pos_eq
  checksum_eq := by
    rw [h.checksum_eq]
    cases c.checksum with
    | none => rfl
    | some sum => rw [Option.map_some, Checksum.update_nil]

theorem Consumes.append {first second : Bytes} (h : Consumes m cap c c' first)
    (h' : Consumes m cap c' c'' second) : Consumes m cap c c'' (first ++ second) where
  wf := h'.wf
  data_eq := by
    rw [List.length_append, List.take_add, List.drop_drop, ← h.pos_eq, ← h.data_eq, ← h'.data_eq]
  pos_eq := by
    rw [h'.pos_eq, h.pos_eq, List.length_append]
    omega
  checksum_eq := by
    rw [h'.checksum_eq, h.checksum_eq, Option.map_map]
    congr 1
    funext sum
    exact (sum.update_append first second).symm

theorem Stays.trans_consumes {data : Bytes} (h : Stays m cap c c')
    (h' : Consumes m cap c' c'' data) : Consumes m cap c c'' data :=
  h.consumes.append h'

/-- Advancing consumes buffered bytes. -/
theorem advance_consumes (h : c.WellFormed m cap) {n : Nat} (hn : n ≤ c.buffered) :
    Consumes m cap c (c.advance n) ((m.content.drop c.pos).take n) ∧
      ((m.content.drop c.pos).take n).length = n := by
  have hhead := h.head_le
  have htail := h.tail_le
  have hle := h.base_add_le
  have hlen : ((m.content.drop c.pos).take n).length = n := by
    rw [← h.slice hn, List.length_take, List.length_drop]
    rw [buffered] at hn
    omega
  have hmoved : c.head + n ≤ c.tail := by
    rw [buffered] at hn
    omega
  refine ⟨⟨⟨h.medium, h.seekability, h.shortSeek, hmoved, h.tail_le, h.buf_pos, h.transport,
    h.window, h.eof, h.sticky, h.cap_le_maxPeek, h.cap_le_buf⟩, ?_, ?_, ?_⟩, hlen⟩
  · rw [hlen]
  · rw [hlen, h.pos_eq]
    change satAddU64 c.base (c.head + n) = c.base + c.head + n
    rw [satAddU64_of_le (by omega)]
    omega
  · change c.feed (c.region n) = _
    rw [h.region_eq hn, feed_some]

/-- A direct read of an empty buffer consumes what the transport gives. -/
theorem readDirect_spec {len : Nat} {r : Except Error Bytes} (h : c.WellFormed m cap)
    (hempty : c.buffered = 0) (hlen : 0 < len) (hread : c.readDirect len = (c', r)) :
    (∃ e, r = .error e ∧ m.Fails ∧ Stays m cap c c') ∨
      ∃ data, r = .ok data ∧ Consumes m cap c c' data ∧ data.length ≤ len ∧
        (data = [] → m.content.length ≤ c.pos) := by
  have htransport := h.transport_eq
  rw [hempty, Nat.add_zero] at htransport
  unfold readDirect at hread
  rcases hsrc : c.src.read len with ⟨src, r'⟩
  rw [hsrc] at hread
  rcases MediaSource.read_spec hsrc with ⟨hmedium, ⟨e, rfl, hfails, hpos⟩ |
    ⟨data, rfl, hdata, hdatalen, hpos, hnone⟩⟩
  · cases hread
    rw [h.medium] at hfails hmedium
    refine Or.inl ⟨_, rfl, hfails, ⟨hmedium, h.seekability, h.shortSeek, h.head_le, h.tail_le,
      h.buf_pos, ?_, h.window, ?_, fun _ _ => hfails, h.cap_le_maxPeek, h.cap_le_buf⟩, rfl, rfl,
      Nat.le_refl _, Nat.le_refl _, id⟩
    · exact hpos.trans h.transport
    · intro heof
      exact hpos ▸ h.eof heof
  rw [h.medium] at hmedium hdata hnone
  rw [htransport] at hdata hnone
  dsimp only at hread
  split at hread
  · rename_i hnil
    cases hread
    subst hnil
    have hend := hnone rfl hlen
    have hstays : Stays m cap c { c with
        src := src
        eof := true } := by
      refine ⟨⟨hmedium, h.seekability, h.shortSeek, h.head_le, h.tail_le, h.buf_pos, ?_, h.window,
        ?_, h.sticky, h.cap_le_maxPeek, h.cap_le_buf⟩, rfl, rfl, Nat.le_refl _, Nat.le_refl _, id⟩
      · exact hpos.trans h.transport
      · intro _
        change m.content.length ≤ src.pos
        rw [hpos, htransport]
        exact hend
    exact Or.inr ⟨[], rfl, hstays.consumes, Nat.zero_le _, fun _ => hend⟩
  · rename_i hcons
    cases hread
    have hbound := src.pos_le
    have hexact := h.pos_eq
    have hbase : satAddU64 c.base (c.head + data.length) = src.pos := by
      rw [satAddU64_of_le (by omega)]
      omega
    refine Or.inr ⟨data, rfl, ⟨⟨hmedium, h.seekability, h.shortSeek, Nat.le_refl _, Nat.zero_le _,
      h.buf_pos, ?_, ?_, ?_, h.sticky, h.cap_le_maxPeek, h.cap_le_buf⟩, hdata, ?_, ?_⟩, hdatalen,
      fun hnil => absurd hnil hcons⟩
    · exact hbase.symm
    · rw [List.take_zero, List.take_zero]
    · intro heof
      have hend := h.eof heof
      change m.content.length ≤ src.pos
      omega
    · change satAddU64 (satAddU64 c.base (c.head + data.length)) 0 = c.pos + data.length
      rw [hbase, satAddU64_of_le (by omega)]
      omega
    · exact feed_some c data

theorem readBuffered_spec {len : Nat} {r : Except Error Bytes} (h : c.WellFormed m cap)
    (hread : c.readBuffered len = (c', r)) :
    ∃ data, r = .ok data ∧ Consumes m cap c c' data ∧ data.length = min c.buffered len := by
  have hn : min c.buffered len ≤ c.buffered := Nat.min_le_left _ _
  unfold readBuffered at hread
  rw [h.region_eq hn] at hread
  cases hread
  rcases advance_consumes h hn with ⟨hconsumes, hlen⟩
  exact ⟨_, rfl, hconsumes, hlen⟩

/-- A partial read consumes what it delivers: nothing only at the end of the medium, or when
nothing is asked for. -/
theorem readPartial_spec {len : Nat} {r : Except Error Bytes} (h : c.WellFormed m cap)
    (hread : c.readPartial len = (c', r)) :
    (∃ e, r = .error e ∧ m.Fails ∧ Stays m cap c c') ∨
      ∃ data, r = .ok data ∧ Consumes m cap c c' data ∧ data.length ≤ len ∧
        (data = [] → 0 < len → m.content.length ≤ c.pos) := by
  unfold readPartial at hread
  split at hread
  · rename_i hzero
    cases hread
    exact Or.inr ⟨[], rfl, (Stays.refl h).consumes, Nat.zero_le _, fun _ hlen => by omega⟩
  rename_i hlen
  split at hread
  · rename_i hempty
    split at hread
    · exact (readDirect_spec h hempty (Nat.pos_of_ne_zero hlen) hread).imp_right
        fun ⟨data, hr, hconsumes, hle, hnone⟩ => ⟨data, hr, hconsumes, hle, fun hnil _ => hnone hnil⟩
    · rcases hfill : c.fill with ⟨c₁, r₁⟩
      rw [hfill] at hread
      rcases fill_empty h hempty hfill with ⟨hstays, ⟨e, rfl, hfails⟩ | ⟨rfl, hend⟩⟩
      · cases hread
        exact Or.inl ⟨e, rfl, hfails, hstays⟩
      dsimp only at hread
      split at hread
      · rename_i hnone
        cases hread
        refine Or.inr ⟨[], rfl, hstays.consumes, Nat.zero_le _, fun _ _ => ?_⟩
        rw [← hstays.pos_eq]
        exact hend hnone
      · rcases readBuffered_spec hstays.wf hread with ⟨data, hr, hconsumes, hdata⟩
        refine Or.inr ⟨data, hr, hstays.trans_consumes hconsumes, by omega, fun hnil _ => ?_⟩
        rw [hnil, List.length_nil] at hdata
        omega
  · rename_i hsome
    rcases readBuffered_spec h hread with ⟨data, hr, hconsumes, hdata⟩
    refine Or.inr ⟨data, hr, hconsumes, by omega, fun hnil _ => ?_⟩
    rw [hnil, List.length_nil] at hdata
    omega

/-- A read of `want` bytes ends with all of them, at the end of the medium, or by a failure. -/
def Ends (m : Medium) (c' : IoContext) (got want : Nat) : Except Error Unit → Prop
  | .ok () => got = want
  | .error e => m.Fails ∨ e = .unexpectedEof ∧ m.content.length ≤ c'.pos ∧ got < want

theorem Ends.later {got want n : Nat} {r : Except Error Unit} (h : Ends m c' got (want - n) r)
    (hn : n ≤ want) : Ends m c' (n + got) want r := by
  cases r with
  | ok u =>
      have h : got = want - n := h
      change n + got = want
      omega
  | error e =>
      refine Or.imp_right ?_ (show m.Fails ∨ _ from h)
      rintro ⟨he, hend, hlt⟩
      exact ⟨he, hend, by omega⟩

theorem readLoop_spec {fuel left : Nat} {data : Bytes} {r : Except Error Unit}
    (h : c.WellFormed m cap) (hfuel : left ≤ fuel) (hread : readLoop fuel c left = (c', data, r)) :
    Consumes m cap c c' data ∧ Ends m c' data.length left r := by
  induction fuel generalizing c left data with
  | zero =>
      cases hread
      exact ⟨(Stays.refl h).consumes, (Nat.le_zero.1 hfuel).symm⟩
  | succ fuel ih =>
      unfold readLoop at hread
      split at hread
      · rename_i hzero
        cases hread
        exact ⟨(Stays.refl h).consumes, hzero.symm⟩
      rename_i hleft
      rcases hone : c.readPartial left with ⟨c₁, r₁⟩
      rw [hone] at hread
      rcases readPartial_spec h hone with ⟨e, rfl, hfails, hstays⟩ |
        ⟨first, rfl, hconsumes, hle, hnone⟩
      · cases hread
        exact ⟨hstays.consumes, Or.inl hfails⟩
      dsimp only at hread
      split at hread
      · rename_i hnil
        cases hread
        subst hnil
        have hend := hnone rfl (Nat.pos_of_ne_zero hleft)
        refine ⟨hconsumes, Or.inr ⟨rfl, ?_, Nat.pos_of_ne_zero hleft⟩⟩
        rw [hconsumes.pos_eq]
        exact hend
      · rename_i hcons
        have hpos : 0 < first.length := List.length_pos_iff.2 hcons
        rcases hrest : readLoop fuel c₁ (left - first.length) with ⟨c₂, second, r₂⟩
        rw [hrest] at hread
        cases hread
        rcases ih hconsumes.wf (by omega) hrest with ⟨hsecond, hends⟩
        refine ⟨hconsumes.append hsecond, ?_⟩
        rw [List.length_append]
        exact hends.later hle

/-- An exact read consumes what it delivers. -/
theorem readExact_spec {len : Nat} {data : Bytes} {r : Except Error Unit} (h : c.WellFormed m cap)
    (hread : c.readExact len = (c', data, r)) :
    Consumes m cap c c' data ∧ Ends m c' data.length len r :=
  readLoop_spec h (Nat.le_refl _) hread

/-- One turn of a discard advances over buffered bytes. -/
theorem discardLoop_spec {fuel left : Nat} {r : Except Error Unit} (h : c.WellFormed m cap)
    (hfuel : left ≤ fuel) (hdiscard : discardLoop fuel c left = (c', r)) :
    ∃ data, Consumes m cap c c' data ∧ Ends m c' data.length left r := by
  induction fuel generalizing c left with
  | zero =>
      cases hdiscard
      exact ⟨[], (Stays.refl h).consumes, (Nat.le_zero.1 hfuel).symm⟩
  | succ fuel ih =>
      -- a turn with bytes in the buffer, whoever put them there
      have turn : ∀ {c₁ : IoContext}, c₁.WellFormed m cap → c₁.buffered ≠ 0 → left ≠ 0 →
          discardLoop fuel (c₁.advance (min c₁.buffered left)) (left - min c₁.buffered left) =
            (c', r) →
          ∃ data, Consumes m cap c₁ c' data ∧ Ends m c' data.length left r := by
        intro c₁ h₁ hsome hleft hrest
        rcases advance_consumes h₁ (Nat.min_le_left c₁.buffered left) with ⟨hfirst, hlen⟩
        rcases ih hfirst.wf (by omega) hrest with ⟨second, hsecond, hends⟩
        refine ⟨_, hfirst.append hsecond, ?_⟩
        rw [List.length_append, hlen]
        exact hends.later (Nat.min_le_right _ _)
      unfold discardLoop at hdiscard
      split at hdiscard
      · rename_i hzero
        cases hdiscard
        exact ⟨[], (Stays.refl h).consumes, hzero.symm⟩
      rename_i hleft
      split at hdiscard
      · rename_i hempty
        rcases hfill : c.fill with ⟨c₁, r₁⟩
        rw [hfill] at hdiscard
        rcases fill_empty h hempty hfill with ⟨hstays, ⟨e, rfl, hfails⟩ | ⟨rfl, hend⟩⟩
        · cases hdiscard
          exact ⟨[], hstays.consumes, Or.inl hfails⟩
        dsimp only at hdiscard
        split at hdiscard
        · rename_i hnone
          cases hdiscard
          exact ⟨[], hstays.consumes, Or.inr ⟨rfl, hend hnone, Nat.pos_of_ne_zero hleft⟩⟩
        · rename_i hsome
          rcases turn hstays.wf hsome hleft hdiscard with ⟨data, hconsumes, hends⟩
          exact ⟨data, hstays.trans_consumes hconsumes, hends⟩
      · rename_i hsome
        exact turn h hsome hleft hdiscard

/-- A discard consumes the bytes it passes over. -/
theorem discard_spec {n : Nat} {r : Except Error Unit} (h : c.WellFormed m cap)
    (hdiscard : c.discard n = (c', r)) :
    ∃ data, Consumes m cap c c' data ∧ Ends m c' data.length n r :=
  discardLoop_spec h (Nat.le_refl _) hdiscard

theorem readByte_spec {r : Except Error (BitVec 8)} (h : c.WellFormed m cap)
    (hsome : c.buffered ≠ 0) (hread : c.readByte = (c', r)) :
    ∃ b, r = .ok b ∧ Consumes m cap c c' [b] := by
  have hone : 1 ≤ c.buffered := Nat.one_le_iff_ne_zero.2 hsome
  have hslice := h.slice hone
  rcases advance_consumes h hone with ⟨hconsumes, hlen⟩
  unfold readByte at hread
  rcases hbyte : c.buf[c.head]? with _ | b
  · have htail := h.tail_le
    rw [List.getElem?_eq_none_iff] at hbyte
    rw [buffered] at hsome
    omega
  · rw [hbyte] at hread
    cases hread
    rw [← hslice, List.take_one, List.head?_drop, hbyte, Option.toList_some] at hconsumes
    exact ⟨b, rfl, hconsumes⟩

/-- A one-byte read consumes the byte it delivers. -/
theorem r8_spec {r : Except Error (BitVec 8)} (h : c.WellFormed m cap) (hread : c.r8 = (c', r)) :
    (∃ b, r = .ok b ∧ Consumes m cap c c' [b]) ∨
      ∃ e, r = .error e ∧ Stays m cap c c' ∧
        (m.Fails ∨ e = .unexpectedEof ∧ m.content.length ≤ c.pos) := by
  unfold r8 at hread
  split at hread
  · rename_i hempty
    rcases hfill : c.fill with ⟨c₁, r₁⟩
    rw [hfill] at hread
    rcases fill_empty h hempty hfill with ⟨hstays, ⟨e, rfl, hfails⟩ | ⟨rfl, hend⟩⟩
    · cases hread
      exact Or.inr ⟨e, rfl, hstays, Or.inl hfails⟩
    dsimp only at hread
    split at hread
    · rename_i hnone
      cases hread
      refine Or.inr ⟨_, rfl, hstays, Or.inr ⟨rfl, ?_⟩⟩
      rw [← hstays.pos_eq]
      exact hend hnone
    · rename_i hsome
      rcases readByte_spec hstays.wf hsome hread with ⟨b, hr, hconsumes⟩
      exact Or.inl ⟨b, hr, hstays.trans_consumes hconsumes⟩
  · rename_i hsome
    exact Or.inl (readByte_spec h hsome hread)

/-! ## Peeks -/

theorem growTo_spec {len : Nat} {r : Except Error Unit} (h : c.WellFormed m cap)
    (hgrow : c.growTo len = (c', r)) :
    Stays m cap c c' ∧
      (r = .ok () ∧ len ≤ c'.buf.length ∨
        cap < len ∧ ∃ e : LimitError, r = .error e.toError) := by
  have hcap := h.cap_le_buf
  unfold growTo at hgrow
  split at hgrow
  · rename_i hshort
    split at hgrow
    · rename_i e hcharge
      cases hgrow
      exact ⟨Stays.refl h, Or.inr ⟨by omega, e, rfl⟩⟩
    · rename_i budget hcharge
      cases hgrow
      have hlen : (c.buf ++ List.replicate (len - c.buf.length) 0#8).length = len := by
        rw [List.length_append, List.length_replicate]
        omega
      have htail := h.tail_le
      refine ⟨⟨⟨h.medium, h.seekability, h.shortSeek, h.head_le, ?_, ?_, h.transport, ?_, h.eof,
        h.sticky, h.cap_le_maxPeek, ?_⟩, rfl, rfl, ?_, Nat.le_refl _, id⟩, Or.inl ⟨rfl, ?_⟩⟩
      · change c.tail ≤ (c.buf ++ _).length
        omega
      · change 0 < (c.buf ++ _).length
        omega
      · change (c.buf ++ _).take c.tail = _
        rw [List.take_append_of_le_length htail, h.window]
      · change cap ≤ (c.buf ++ _).length
        omega
      · change c.buf.length ≤ (c.buf ++ _).length
        omega
      · exact Nat.le_of_eq hlen.symm
  · rename_i hfits
    cases hgrow
    exact ⟨Stays.refl h, Or.inl ⟨rfl, by omega⟩⟩

/-- Enough turns fill the buffer with `len` bytes or with the last ones of the medium. -/
theorem peekLoop_spec {fuel len : Nat} {r : Except Error Unit} (h : c.WellFormed m cap)
    (hzero : c.head = 0) (hlen : len ≤ c.buf.length) (hfuel : len ≤ c.buffered + fuel)
    (hpeek : peekLoop fuel c len = (c', r)) :
    Stays m cap c c' ∧
      ((∃ e, r = .error e ∧ m.Fails) ∨
        r = .ok () ∧ (len ≤ c'.buffered ∨ m.content.length ≤ c'.pos + c'.buffered)) := by
  induction fuel generalizing c with
  | zero =>
      cases hpeek
      exact ⟨Stays.refl h, Or.inr ⟨rfl, Or.inl hfuel⟩⟩
  | succ fuel ih =>
      unfold peekLoop at hpeek
      split at hpeek
      · rename_i hmore
        rw [Bool.and_eq_true, decide_eq_true_eq] at hmore
        rcases hfill : c.fill with ⟨c₁, r₁⟩
        rw [hfill] at hpeek
        rcases fill_spec h hfill with ⟨hstays, ⟨e, rfl, hfails⟩ | ⟨rfl, hfetch⟩⟩
        · cases hpeek
          exact ⟨hstays, Or.inl ⟨e, rfl, hfails⟩⟩
        have hzero₁ := hstays.head_zero hzero
        have hbuf := hstays.buf_le
        have hfetch := hfetch (by omega)
        dsimp only at hpeek
        split at hpeek
        · rename_i hsame
          cases hpeek
          refine ⟨hstays, Or.inr ⟨rfl, ?_⟩⟩
          rcases hfetch with hgrew | hend
          · rw [buffered, buffered, hsame, hzero, hzero₁] at hgrew
            exact absurd hgrew (Nat.lt_irrefl _)
          · exact Or.inr hend
        · rename_i hchanged
          have hbuffered := hstays.buffered_le
          have hgrew : c.buffered < c₁.buffered := by
            rw [buffered, buffered, hzero, hzero₁] at hbuffered ⊢
            omega
          rcases ih hstays.wf hzero₁ (by omega) (by omega) hpeek with ⟨hrest, hresult⟩
          exact ⟨hstays.trans hrest, hresult⟩
      · rename_i hdone
        cases hpeek
        rw [Bool.and_eq_true, decide_eq_true_eq, not_and_or] at hdone
        refine ⟨Stays.refl h, Or.inr ⟨rfl, ?_⟩⟩
        rcases hdone with hfull | heof
        · exact Or.inl (by omega)
        · rw [Bool.not_eq_true', Bool.not_eq_false] at heof
          exact Or.inr ((h.eof heof).trans (Nat.le_of_eq h.transport_eq))

theorem shown_eq {len : Nat} (h : c.WellFormed m cap)
    (henough : len ≤ c.buffered ∨ m.content.length ≤ c.pos + c.buffered) :
    c.shown len = .ok ((m.content.drop c.pos).take len) := by
  have hhead := h.head_le
  have htail := h.tail_le
  have hend : min (c.head + len) c.tail = c.head + min len c.buffered := by
    rw [buffered]
    omega
  have hslice := h.slice (Nat.min_le_right len c.buffered)
  have hall : (m.content.drop c.pos).take (min len c.buffered) = (m.content.drop c.pos).take len := by
    rw [List.take_eq_take_iff, List.length_drop]
    omega
  have hcut : (c.buf.take (c.head + min len c.buffered)).drop c.head =
      (c.buf.drop c.head).take (min len c.buffered) := by
    rw [List.drop_take, Nat.add_sub_cancel_left]
  rw [shown, if_pos (by omega), hend, hcut, hslice, hall]

/-- A peek shows the following bytes; only one of more than `cap` bytes may be refused. -/
theorem peek_spec {len : Nat} {r : Except Error Bytes} (h : c.WellFormed m cap)
    (hpeek : c.peek len = (c', r)) :
    Stays m cap c c' ∧
      (r = .ok ((m.content.drop c.pos).take len) ∨
        ∃ e, r = .error e ∧
          (m.Fails ∨
            cap < len ∧ ∃ limit requested most, e = .limitExceeded limit requested most)) := by
  have hcap := h.cap_le_maxPeek
  unfold peek at hpeek
  split at hpeek
  · rename_i hmax
    cases hpeek
    exact ⟨Stays.refl h, Or.inr ⟨_, rfl, Or.inr ⟨by omega, _, _, _, rfl⟩⟩⟩
  split at hpeek
  · rcases compact_stays h with ⟨hcompact, hzero, -⟩
    rcases hgrow : c.compact.growTo len with ⟨c₁, r₁⟩
    rw [hgrow] at hpeek
    rcases growTo_spec hcompact.wf hgrow with ⟨hgrown, ⟨rfl, hlen⟩ | ⟨hover, e, rfl⟩⟩
    · dsimp only at hpeek
      rcases hloop : peekLoop len c₁ len with ⟨c₂, r₂⟩
      rw [hloop] at hpeek
      rcases peekLoop_spec hgrown.wf (hgrown.head_zero hzero) hlen (Nat.le_add_left _ _) hloop with
        ⟨hfilled, ⟨e, rfl, hfails⟩ | ⟨rfl, henough⟩⟩
      · cases hpeek
        exact ⟨(hcompact.trans hgrown).trans hfilled, Or.inr ⟨e, rfl, Or.inl hfails⟩⟩
      · cases hpeek
        have hstays := (hcompact.trans hgrown).trans hfilled
        refine ⟨hstays, Or.inl ?_⟩
        rw [shown_eq hstays.wf henough, hstays.pos_eq]
    · cases hpeek
      refine ⟨hcompact.trans hgrown, Or.inr ⟨_, rfl, Or.inr ⟨hover, ?_⟩⟩⟩
      cases e with
      | exceeded limit requested most => exact ⟨_, _, _, rfl⟩
      | overflow => exact ⟨_, _, _, rfl⟩
      | noProgress ticks => exact ⟨_, _, _, rfl⟩
  · rename_i hbuffered
    cases hpeek
    exact ⟨Stays.refl h, Or.inl (shown_eq h (Or.inl (by omega)))⟩

/-! ## Seeks -/

/-- A seek inside the window moves the position and nothing else. -/
theorem seek_of_inWindow {pos : Nat} (h : c.WellFormed m cap) (hwindow : c.InWindow pos) :
    ∃ c', c.seek pos = (c', .ok pos) ∧ c'.WellFormed m cap ∧ c'.pos = pos ∧
      c'.checksum = c.checksum := by
  have hle := h.base_add_le
  have hseek : c.seek pos = ({ c with head := pos - c.base }, .ok pos) := if_pos hwindow
  rcases hwindow with ⟨hlow, hhigh⟩
  rw [h.windowEnd_eq] at hhigh
  refine ⟨_, hseek, ⟨h.medium, h.seekability, h.shortSeek, ?_, h.tail_le, h.buf_pos, h.transport,
    h.window, h.eof, h.sticky, h.cap_le_maxPeek, h.cap_le_buf⟩, ?_, rfl⟩
  · change pos - c.base ≤ c.tail
    omega
  · change satAddU64 c.base (pos - c.base) = pos
    rw [satAddU64_of_le (by omega)]
    omega

/-- A short forward hop out of the window consumes the bytes it passes over. -/
theorem seek_of_discards {pos : Nat} {r : Except Error Nat} (h : c.WellFormed m cap)
    (hdiscards : c.Discards pos) (hseek : c.seek pos = (c', r)) :
    ∃ data, Consumes m cap c c' data ∧
      (r = .ok pos ∧ c'.pos = pos ∨
        ∃ e, r = .error e ∧
          (m.Fails ∨ e = .unexpectedEof ∧ m.content.length ≤ c'.pos ∧ c'.pos < pos)) := by
  rcases hdiscards with ⟨hout, hahead, hshort⟩
  unfold seek at hseek
  rw [if_neg hout, if_pos ⟨hahead, hshort⟩] at hseek
  rcases hdiscard : c.discard (pos - c.pos) with ⟨c₁, r₁⟩
  rw [hdiscard] at hseek
  rcases discard_spec h hdiscard with ⟨data, hconsumes, hends⟩
  have hpos := hconsumes.pos_eq
  cases r₁ with
  | ok u =>
      cases hseek
      have hends : data.length = pos - c.pos := hends
      exact ⟨data, hconsumes, Or.inl ⟨rfl, by omega⟩⟩
  | error e =>
      cases hseek
      refine ⟨data, hconsumes, Or.inr ⟨e, rfl, Or.imp_right ?_ (show m.Fails ∨ _ from hends)⟩⟩
      rintro ⟨he, hend, hlt⟩
      exact ⟨he, hend, by omega⟩

/-- Any other seek is the transport's, which refuses a target behind the position where it cannot
seek. -/
theorem seek_of_source {pos : Nat} {r : Except Error Nat} (h : c.WellFormed m cap)
    (hpos : pos ≤ u64Max) (hout : ¬ c.InWindow pos) (hdiscards : ¬ c.Discards pos)
    (hseek : c.seek pos = (c', r)) :
    c'.WellFormed m cap ∧ c'.checksum = c.checksum ∧
      (m.seekability = .none ∧ pos < c.pos ∧ r = .error .notSeekable ∧ c' = c ∨
        m.seekability ≠ .none ∧
          (r = .ok (m.lands pos) ∧ c'.pos = m.lands pos ∨
            ∃ e, r = .error e ∧ m.Fails)) := by
  have hfar : ¬ (c.pos < pos ∧ pos - c.pos ≤ c.shortSeek) := fun hshort => hdiscards ⟨hout, hshort⟩
  unfold seek at hseek
  rw [if_neg hout, if_neg hfar] at hseek
  unfold seekSource at hseek
  split at hseek
  · rename_i hnone
    cases hseek
    rw [h.seekability] at hnone
    refine ⟨h, rfl, Or.inl ⟨hnone, ?_, rfl, rfl⟩⟩
    rw [h.shortSeek hnone] at hfar
    rw [InWindow, h.windowEnd_eq] at hout
    have hexact := h.pos_eq
    have hhead := h.head_le
    omega
  · rename_i hsome
    rw [h.seekability] at hsome
    rcases hsrc : c.src.seek pos with ⟨src, r₁⟩
    rw [hsrc] at hseek
    have hcan := hsome
    rw [← h.medium] at hcan
    rcases MediaSource.seek_spec hsrc hcan with ⟨hmedium, ⟨e, rfl, hfails, hstand⟩ | ⟨rfl, hland⟩⟩
    · cases hseek
      rw [h.medium] at hfails hmedium
      refine ⟨⟨hmedium, h.seekability, h.shortSeek, h.head_le, h.tail_le, h.buf_pos, ?_, h.window,
        ?_, fun _ _ => hfails, h.cap_le_maxPeek, h.cap_le_buf⟩, rfl,
        Or.inr ⟨hsome, Or.inr ⟨_, rfl, hfails⟩⟩⟩
      · exact hstand.trans h.transport
      · intro heof
        exact hstand ▸ h.eof heof
    · cases hseek
      rw [h.medium] at hland hmedium
      refine ⟨⟨hmedium, h.seekability, h.shortSeek, Nat.le_refl _, Nat.zero_le _, h.buf_pos, ?_, ?_,
        ?_, h.sticky, h.cap_le_maxPeek, h.cap_le_buf⟩, rfl, Or.inr ⟨hsome, Or.inl ⟨?_, ?_⟩⟩⟩
      · change src.pos = c.src.medium.lands pos + 0
        rw [hland, h.medium, Nat.add_zero]
      · rw [List.take_zero, List.take_zero]
      · intro heof
        cases heof
      · rw [h.medium]
      · change satAddU64 (c.src.medium.lands pos) 0 = m.lands pos
        have hbound := m.lands_le pos
        rw [h.medium, satAddU64_of_le (by omega), Nat.add_zero]

end IoContext

end Io
end Vaco
