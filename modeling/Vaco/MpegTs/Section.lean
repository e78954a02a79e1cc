import Vaco.Library.BitStream
import Mathlib.Tactic

/-!
# Section framing

A section may begin anywhere in a packet's payload, span packets, or share one with
others.  The assembler of a PID collects the bytes of the section in progress; the
pointer field of a packet says where the first new section begins.

Main results:

- `SectionAssembler.feed_within`: bytes inside a section are collected.

Current gaps:

- The CRC and the fields of the long header are not read by the framing.
- The counters are natural numbers; the source saturates them at 64 bits.
-/

namespace Vaco
namespace MpegTs

open Library.BitStream

/-- The largest size a section may have. -/
def maxSectionLen : Nat := 4096

/-- Bytes before the end of the length field. -/
def headerMin : Nat := 3

/-- Stuffing after the last section in a packet. -/
def stuffingByte : BitVec 8 := 0xFF

/-- The twelve bits of the length field in a section's second and third byte. -/
def sectionLength (bytes : Bytes) : Nat :=
  ((bytes.getD 1 0) &&& 0x0F).toNat * 256 + (bytes.getD 2 0).toNat

/-- A section as it goes on the wire. -/
structure Section where
  bytes : Bytes
  header_le : headerMin ≤ bytes.length
  length_le : bytes.length ≤ maxSectionLen
  tableId_ne : bytes.head? ≠ some stuffingByte
  length_eq : bytes.length = headerMin + sectionLength bytes

/-- Why an assembler threw away bytes. -/
structure AssemblerStats where
  badPointer : Nat := 0
  overLong : Nat := 0
  unaligned : Nat := 0
  abandoned : Nat := 0
  emitted : Nat := 0
deriving DecidableEq

/-- The assembler of one PID: bytes held, size expected (zero in the header), and whether it is in
step. -/
structure SectionAssembler where
  buf : Bytes
  want : Nat
  aligned : Bool
  stats : AssemblerStats
deriving DecidableEq

/-- What one round of the feeding loop comes to: it returns, or a section is complete. -/
inductive Round where
  | stop (a : SectionAssembler)
  | complete (a : SectionAssembler) (rest : Bytes)

namespace SectionAssembler

/-- An assembler that has not yet seen a section start. -/
def new : SectionAssembler where
  buf := []
  want := 0
  aligned := false
  stats := {}

/-- Forget the section in progress, keeping alignment. -/
def dropPartial (a : SectionAssembler) : SectionAssembler where
  buf := []
  want := 0
  aligned := a.aligned
  stats := a.stats

def countAbandoned (a : SectionAssembler) : AssemblerStats :=
  if 0 < a.buf.length then { a.stats with abandoned := a.stats.abandoned + 1 } else a.stats

/-- Forget the section in progress and the alignment. -/
def abandon (a : SectionAssembler) : SectionAssembler where
  buf := []
  want := 0
  aligned := false
  stats := a.countAbandoned

/-- How many bytes are copied to reach `target`; none if they do not fit the buffer. -/
def taken (a : SectionAssembler) (src : Bytes) (target : Nat) : Nat :=
  let n := min (target - a.buf.length) src.length
  if a.buf.length + n ≤ maxSectionLen then n else 0

/-- Copy bytes until the buffer holds `target` of them. -/
def take (a : SectionAssembler) (src : Bytes) (target : Nat) : SectionAssembler :=
  { a with buf := a.buf ++ src.take (a.taken src target) }

/-- The state after handing a section to the caller. -/
def emit (a : SectionAssembler) : SectionAssembler where
  buf := []
  want := 0
  aligned := a.aligned
  stats := { a.stats with emitted := a.stats.emitted + 1 }

/-- Collect the body of a section of known size. -/
def fill (a : SectionAssembler) (rest : Bytes) : Round :=
  let filled := a.take rest a.want
  if filled.buf.length < a.want then .stop filled
  else .complete filled (rest.drop (a.taken rest a.want))

/-- One round of the feeding loop. -/
def round (a : SectionAssembler) (rest : Bytes) : Round :=
  if rest = [] then .stop a
  else if a.buf.length = 0 ∧ rest.head? = some stuffingByte then .stop a
  else if a.want = 0 then
    let headed := a.take rest headerMin
    let rest := rest.drop (a.taken rest headerMin)
    if headed.buf.length < headerMin then .stop headed
    else
      let sized := { headed with want := headerMin + sectionLength headed.buf }
      if maxSectionLen < sized.want then
        .stop { sized with
          stats := { sized.stats with overLong := sized.stats.overLong + 1 } }.abandon
      else if sized.want ≤ headerMin then .complete sized rest
      else sized.fill rest
  else a.fill rest

/-- The feeding loop: the state it leaves and the sections it emits. -/
def feedLoop : Nat → SectionAssembler → Bytes → SectionAssembler × List Bytes
  | 0, a, _ => (a, [])
  | fuel + 1, a, rest =>
      match a.round rest with
      | .stop a => (a, [])
      | .complete a rest =>
          let next := feedLoop fuel a.emit rest
          (next.1, a.buf :: next.2)

/-- Consume `data`.  Every section completed takes at least one byte of it. -/
def feed (a : SectionAssembler) (data : Bytes) : SectionAssembler × List Bytes :=
  feedLoop data.length a data

/-- The bytes before the pointer's target, which end the section in progress. -/
def pushHead (a : SectionAssembler) (head : Bytes) : SectionAssembler × List Bytes :=
  if a.aligned then a.feed head
  else ({ a with
          stats := { a.stats with unaligned := a.stats.unaligned + head.length } }, [])

/-- A new section starts: the one before is abandoned, and the alignment re-established. -/
def realign (a : SectionAssembler) : SectionAssembler :=
  { { a with
      stats := a.countAbandoned }.dropPartial with
    aligned := true }

/-- Feed one packet's payload. -/
def push (a : SectionAssembler) (payloadUnitStart : Bool) (payload : Bytes) :
    SectionAssembler × List Bytes :=
  if payloadUnitStart then
    match payload with
    | [] => (a, [])
    | pointer :: rest =>
        if rest.length < pointer.toNat then
          ({ a with
              stats := { a.stats with badPointer := a.stats.badPointer + 1 } }.abandon, [])
        else
          let ended := a.pushHead (rest.take pointer.toNat)
          let started := ended.1.realign.feed (rest.drop pointer.toNat)
          (started.1, ended.2 ++ started.2)
  else a.pushHead payload

structure Holds (a : SectionAssembler) (held : Bytes) (s : Section) : Prop where
  aligned : a.aligned = true
  buf : a.buf = held
  want : a.want = if held.length < headerMin then 0 else s.bytes.length

/-- The assembler is between sections. -/
structure Between (a : SectionAssembler) : Prop where
  buf : a.buf = []
  want : a.want = 0

/-- Consuming `data` emits `out` and leaves `a'`, however long the loop may
run. -/
def Feeds (a : SectionAssembler) (data : Bytes) (a' : SectionAssembler) (out : List Bytes) :
    Prop :=
  ∀ fuel, data.length ≤ fuel → feedLoop fuel a data = (a', out)

end SectionAssembler

theorem sectionLength_take {bytes : Bytes} {n : Nat} (h : headerMin ≤ n) :
    sectionLength (bytes.take n) = sectionLength bytes := by
  have hn : 3 ≤ n := h
  unfold sectionLength
  simp only [List.getD_eq_getElem?_getD]
  rw [List.getElem?_take_of_lt (by omega), List.getElem?_take_of_lt (by omega)]

theorem sectionLength_append {bytes more : Bytes} (h : headerMin ≤ bytes.length) :
    sectionLength (bytes ++ more) = sectionLength bytes := by
  rw [← @sectionLength_take (bytes ++ more) bytes.length h, List.take_left]

namespace SectionAssembler

theorem take_buf {a : SectionAssembler} {src : Bytes} {target : Nat}
    (hlen : a.buf.length ≤ target) (htarget : target ≤ maxSectionLen) :
    (a.take src target).buf = (a.buf ++ src).take target := by
  have htaken : a.taken src target = min (target - a.buf.length) src.length := by
    unfold taken
    exact if_pos (by omega)
  unfold take
  rw [htaken, List.take_append, List.take_of_length_le hlen]
  rcases Nat.le_total (target - a.buf.length) src.length with h | h
  · rw [Nat.min_eq_left h]
  · rw [Nat.min_eq_right h, List.take_length, List.take_of_length_le h]

theorem drop_taken {a : SectionAssembler} {src : Bytes} {target : Nat}
    (hlen : a.buf.length ≤ target) (htarget : target ≤ maxSectionLen) :
    src.drop (a.taken src target) = (a.buf ++ src).drop target := by
  have htaken : a.taken src target = min (target - a.buf.length) src.length := by
    unfold taken
    exact if_pos (by omega)
  rw [htaken, List.drop_append, List.drop_of_length_le hlen, List.nil_append]
  rcases Nat.le_total (target - a.buf.length) src.length with h | h
  · rw [Nat.min_eq_left h]
  · rw [Nat.min_eq_right h, List.drop_length, List.drop_of_length_le h]

theorem fill_short {a : SectionAssembler} {rest : Bytes} (hwant : a.want ≤ maxSectionLen)
    (h : (a.buf ++ rest).length < a.want) :
    a.fill rest = .stop { a with buf := a.buf ++ rest } := by
  have hle : a.buf.length ≤ a.want := by
    rw [List.length_append] at h
    omega
  have hbuf : (a.take rest a.want).buf = a.buf ++ rest := by
    rw [take_buf hle hwant, List.take_of_length_le (Nat.le_of_lt h)]
  have htake : a.take rest a.want = { a with buf := a.buf ++ rest } := by
    rw [← hbuf]
    rfl
  unfold fill
  rw [htake]
  exact if_pos h

theorem fill_complete {a : SectionAssembler} {rest : Bytes} (hwant : a.want ≤ maxSectionLen)
    (hle : a.buf.length ≤ a.want) (h : a.want ≤ (a.buf ++ rest).length) :
    a.fill rest =
      .complete { a with buf := (a.buf ++ rest).take a.want } ((a.buf ++ rest).drop a.want) := by
  have htake : a.take rest a.want = { a with buf := (a.buf ++ rest).take a.want } := by
    rw [← take_buf hle hwant]
    rfl
  unfold fill
  rw [htake, drop_taken hle hwant]
  refine if_neg ?_
  rw [List.length_take]
  omega

theorem round_stuffing {a : SectionAssembler} (h : a.Between) {rest : Bytes}
    (hrest : rest = [] ∨ rest.head? = some stuffingByte) : a.round rest = .stop a := by
  unfold round
  rcases hrest with hnil | hstuffing
  · exact if_pos hnil
  · by_cases hnil : rest = []
    · exact if_pos hnil
    · rw [if_neg hnil, if_pos ⟨by rw [h.buf, List.length_nil], hstuffing⟩]

theorem round_waiting {a : SectionAssembler} {rest : Bytes} (hnil : rest ≠ [])
    (hstuffing : a.buf = [] → rest.head? ≠ some stuffingByte) (hwant : a.want = 0)
    (h : (a.buf ++ rest).length < headerMin) :
    a.round rest = .stop { a with buf := a.buf ++ rest } := by
  have hle : a.buf.length ≤ headerMin := by
    rw [List.length_append] at h
    omega
  have htake : a.take rest headerMin = { a with buf := a.buf ++ rest } := by
    have hbuf := @take_buf a rest headerMin hle (by decide)
    rw [List.take_of_length_le (Nat.le_of_lt h)] at hbuf
    rw [← hbuf]
    rfl
  unfold round
  rw [if_neg hnil, if_neg (fun hstart => hstuffing (List.length_eq_zero_iff.1 hstart.1) hstart.2),
    if_pos hwant, htake]
  exact if_pos h

/-- Once the header is complete the size of the section is known. -/
theorem round_header {a : SectionAssembler} {rest : Bytes} (hnil : rest ≠ [])
    (hstuffing : a.buf = [] → rest.head? ≠ some stuffingByte) (hwant : a.want = 0)
    (hlt : a.buf.length < headerMin) (h : headerMin ≤ (a.buf ++ rest).length)
    (hsize : headerMin + sectionLength (a.buf ++ rest) ≤ maxSectionLen) :
    a.round rest =
      let sized : SectionAssembler :=
        { a with
          buf := (a.buf ++ rest).take headerMin
          want := headerMin + sectionLength (a.buf ++ rest) }
      if sized.want ≤ headerMin then .complete sized ((a.buf ++ rest).drop headerMin)
      else sized.fill ((a.buf ++ rest).drop headerMin) := by
  have hle : a.buf.length ≤ headerMin := Nat.le_of_lt hlt
  have htake : a.take rest headerMin = { a with buf := (a.buf ++ rest).take headerMin } := by
    rw [← take_buf hle (by decide)]
    rfl
  have hlen : ((a.buf ++ rest).take headerMin).length = headerMin := by
    rw [List.length_take]
    omega
  unfold round
  rw [if_neg hnil, if_neg (fun hstart => hstuffing (List.length_eq_zero_iff.1 hstart.1) hstart.2),
    if_pos hwant, htake, drop_taken hle (by decide)]
  simp only [hlen, Nat.lt_irrefl, if_false, sectionLength_take (Nat.le_refl headerMin)]
  rw [if_neg (by omega)]

theorem round_body {a : SectionAssembler} {rest : Bytes} (hnil : rest ≠ [])
    (hbuf : a.buf ≠ []) (hwant : a.want ≠ 0) : a.round rest = a.fill rest := by
  unfold round
  rw [if_neg hnil, if_neg (fun hstart => hbuf (List.length_eq_zero_iff.1 hstart.1)),
    if_neg hwant]

namespace Holds

variable {a : SectionAssembler} {held rest later : Bytes} {s : Section}

theorem of_between (h : a.Between) (haligned : a.aligned = true) (s : Section) :
    a.Holds [] s where
  aligned := haligned
  buf := h.buf
  want := h.want

theorem not_stuffing (h : a.Holds held s) (hbytes : s.bytes = held ++ rest) (hnil : rest ≠ [])
    (more : Bytes) : a.buf = [] → (rest ++ more).head? ≠ some stuffingByte := by
  intro hbuf hstuffing
  rw [h.buf] at hbuf
  rw [hbuf, List.nil_append] at hbytes
  rw [List.head?_append_of_ne_nil _ hnil, ← hbytes] at hstuffing
  exact s.tableId_ne hstuffing

/-- Bytes inside the section are collected. -/
theorem round_within (h : a.Holds held s) (hbytes : s.bytes = held ++ rest ++ later)
    (hnil : rest ≠ []) (hlater : later ≠ []) :
    ∃ a', a.round rest = .stop a' ∧ a'.Holds (held ++ rest) s := by
  have hpos : 0 < later.length := List.length_pos_iff.2 hlater
  have hlen := congrArg List.length hbytes
  rw [List.length_append] at hlen
  have hmax := s.length_le
  have hstuffing : a.buf = [] → rest.head? ≠ some stuffingByte := by
    have hstart := @not_stuffing a held (rest ++ later) s h
      (by rw [hbytes, List.append_assoc]) (by simp [hnil]) []
    rw [List.append_nil, List.head?_append_of_ne_nil _ hnil] at hstart
    exact hstart
  refine ⟨?_, ?_, ?_⟩
  · exact { a with
      buf := held ++ rest
      want := if (held ++ rest).length < headerMin then 0 else s.bytes.length }
  · by_cases hheld : held.length < headerMin
    · have hwant : a.want = 0 := by
        rw [h.want, if_pos hheld]
      by_cases hshort : (held ++ rest).length < headerMin
      · rw [round_waiting hnil hstuffing hwant (by rw [h.buf]; exact hshort), h.buf,
          if_pos hshort, ← hwant]
      · have hsize : headerMin + sectionLength (held ++ rest) = s.bytes.length := by
          rw [s.length_eq, hbytes, @sectionLength_append (held ++ rest) later (by omega)]
        rw [round_header hnil hstuffing hwant (by rw [h.buf]; exact hheld)
          (by rw [h.buf]; omega) (by rw [h.buf, hsize]; exact hmax)]
        simp only [h.buf, hsize]
        rw [if_neg (by omega), fill_short hmax (by
          rw [List.take_append_drop]
          change (held ++ rest).length < s.bytes.length
          omega)]
        simp only [List.take_append_drop, if_neg hshort]
    · have hwant : a.want = s.bytes.length := by
        rw [h.want, if_neg hheld]
      have hlong : ¬ (held ++ rest).length < headerMin := by
        rw [List.length_append]
        omega
      have hbuf : a.buf ≠ [] := by
        rw [h.buf]
        intro hempty
        rw [hempty] at hheld
        exact hheld (by decide)
      rw [round_body hnil hbuf (by have := s.header_le; unfold headerMin at this; omega),
        fill_short (by omega) (by rw [h.buf, hwant]; omega), h.buf, if_neg hlong, ← hwant]
  · exact ⟨h.aligned, rfl, rfl⟩

/-- The last bytes of the section complete it. -/
theorem round_completing (h : a.Holds held s) (hbytes : s.bytes = held ++ rest)
    (hnil : rest ≠ []) (more : Bytes) :
    ∃ a', a.round (rest ++ more) = .complete a' more ∧ a'.buf = s.bytes ∧
      a'.aligned = true := by
  have hpos : 0 < rest.length := List.length_pos_iff.2 hnil
  have hlen := congrArg List.length hbytes
  rw [List.length_append] at hlen
  have hmax := s.length_le
  have hmin := s.header_le
  have hstuffing := h.not_stuffing hbytes hnil more
  have hwhole : a.buf ++ (rest ++ more) = s.bytes ++ more := by
    rw [h.buf, hbytes, List.append_assoc]
  have hne : rest ++ more ≠ [] := by
    simp [hnil]
  refine ⟨?_, ?_, ?_, ?_⟩
  · exact { a with
      buf := s.bytes
      want := s.bytes.length }
  · by_cases hheld : held.length < headerMin
    · have hwant : a.want = 0 := by
        rw [h.want, if_pos hheld]
      have hsize : headerMin + sectionLength (s.bytes ++ more) = s.bytes.length := by
        rw [sectionLength_append hmin, ← s.length_eq]
      rw [round_header hne hstuffing hwant (by rw [h.buf]; exact hheld)
        (by rw [hwhole, List.length_append]; omega) (by rw [hwhole, hsize]; exact hmax)]
      simp only [hwhole, hsize]
      by_cases hthree : s.bytes.length ≤ headerMin
      · have heq : headerMin = s.bytes.length := by omega
        rw [if_pos hthree]
        simp only [heq, List.take_left, List.drop_left]
      · rw [if_neg hthree, fill_complete hmax
          (by rw [List.length_take]; exact Nat.le_trans (Nat.min_le_left _ _) hmin)
          (by rw [List.take_append_drop, List.length_append]; exact Nat.le_add_right _ _)]
        simp only [List.take_append_drop, List.take_left, List.drop_left]
    · have hwant : a.want = s.bytes.length := by
        rw [h.want, if_neg hheld]
      have hbuf : a.buf ≠ [] := by
        rw [h.buf]
        intro hempty
        rw [hempty] at hheld
        exact hheld (by decide)
      rw [round_body hne hbuf (by unfold headerMin at hmin; omega),
        fill_complete (by omega) (by rw [h.buf]; omega)
          (by rw [hwhole, hwant, List.length_append]; omega), hwhole, hwant]
      simp only [List.take_left, List.drop_left]
  · rfl
  · exact h.aligned

end Holds

namespace Feeds

theorem feed_eq {a a' : SectionAssembler} {data : Bytes} {out : List Bytes}
    (h : a.Feeds data a' out) : a.feed data = (a', out) :=
  h data.length (Nat.le_refl _)

theorem of_stop {a a' : SectionAssembler} {data : Bytes} (hnil : data ≠ [])
    (h : a.round data = .stop a') : a.Feeds data a' [] := by
  intro fuel hfuel
  have hpos := List.length_pos_iff.2 hnil
  cases fuel with
  | zero => omega
  | succ fuel => rw [feedLoop, h]

theorem nil (a : SectionAssembler) : a.Feeds [] a [] := by
  intro fuel _
  cases fuel with
  | zero => rfl
  | succ fuel =>
      have hround : a.round [] = .stop a := by
        unfold round
        exact if_pos rfl
      rw [feedLoop, hround]

theorem of_complete {a a₁ a' : SectionAssembler} {data rest : Bytes} {out : List Bytes}
    (h : a.round data = .complete a₁ rest) (hlt : rest.length < data.length)
    (hrest : a₁.emit.Feeds rest a' out) : a.Feeds data a' (a₁.buf :: out) := by
  intro fuel hfuel
  cases fuel with
  | zero => omega
  | succ fuel =>
      rw [feedLoop, h]
      simp only [hrest fuel (by omega)]

end Feeds

theorem emit_between (a : SectionAssembler) : a.emit.Between where
  buf := rfl
  want := rfl

/-- Bytes inside a section are collected. -/
theorem feed_within {a : SectionAssembler} {held rest later : Bytes} {s : Section}
    (h : a.Holds held s) (hbytes : s.bytes = held ++ rest ++ later) (hnil : rest ≠ [])
    (hlater : later ≠ []) :
    ∃ a', a.Feeds rest a' [] ∧ a'.Holds (held ++ rest) s := by
  rcases h.round_within hbytes hnil hlater with ⟨a', hround, hholds⟩
  exact ⟨a', Feeds.of_stop hnil hround, hholds⟩

/-- The last bytes of a section emit it, and the rest of the payload is read as if it came
alone. -/
theorem feed_completing {a : SectionAssembler} {held rest : Bytes} {s : Section}
    (h : a.Holds held s) (hbytes : s.bytes = held ++ rest) (hnil : rest ≠ []) (more : Bytes) :
    ∃ a₁ : SectionAssembler, a₁.Between ∧ a₁.aligned = true ∧
      ∀ a' out, a₁.Feeds more a' out → a.Feeds (rest ++ more) a' (s.bytes :: out) := by
  rcases h.round_completing hbytes hnil more with ⟨a₁, hround, hbuf, haligned⟩
  refine ⟨a₁.emit, a₁.emit_between, haligned, ?_⟩
  intro a' out hmore
  have hlt : more.length < (rest ++ more).length := by
    have hpos := List.length_pos_iff.2 hnil
    rw [List.length_append]
    omega
  rw [← hbuf]
  exact Feeds.of_complete hround hlt hmore

/-- Whole sections are emitted in order. -/
theorem feed_sections {a : SectionAssembler} (h : a.Between) (haligned : a.aligned = true)
    (whole : List Section) (more : Bytes) :
    ∃ a₁ : SectionAssembler, a₁.Between ∧ a₁.aligned = true ∧
      ∀ a' out, a₁.Feeds more a' out →
        a.Feeds ((whole.map Section.bytes).flatten ++ more) a'
          (whole.map Section.bytes ++ out) := by
  induction whole generalizing a with
  | nil => exact ⟨a, h, haligned, fun a' out hmore => hmore⟩
  | cons s whole ih =>
      have hnil : s.bytes ≠ [] := by
        have hmin := s.header_le
        rw [← List.length_pos_iff]
        exact Nat.lt_of_lt_of_le (by decide) hmin
      rcases feed_completing (Holds.of_between h haligned s) (List.nil_append _).symm hnil
        ((whole.map Section.bytes).flatten ++ more) with ⟨a₁, hbetween, haligned₁, hfirst⟩
      rcases ih hbetween haligned₁ with ⟨a₂, hbetween₂, haligned₂, hothers⟩
      refine ⟨a₂, hbetween₂, haligned₂, ?_⟩
      intro a' out hmore
      have hfeeds := hfirst a' _ (hothers a' out hmore)
      rw [List.map_cons, List.flatten_cons, List.append_assoc]
      exact hfeeds

theorem feed_stuffing {a : SectionAssembler} (h : a.Between) (n : Nat) :
    a.Feeds (List.replicate n stuffingByte) a [] := by
  cases n with
  | zero => exact Feeds.nil a
  | succ n => exact Feeds.of_stop (by simp) (round_stuffing h (.inr rfl))

end SectionAssembler

end MpegTs
end Vaco
