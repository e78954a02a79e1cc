import Vaco.Core.Packet
import Vaco.MpegTs.Packetisation
import Vaco.MpegTs.TsPacket

/-!
# Writing transport packets

The writer cuts PES packets and sections into 188-byte packets, with one continuity
counter for each PID.  The first packet of a call carries the adaptation field that was
asked for; the last one is filled up, for a PES packet with a stuffed adaptation field and
for a section with stuffing behind it.

Main results:

- `AdaptationField.parse_encodeAf`: an adaptation field is read back.

Current gaps:

- The sink takes every write.
-/

namespace Vaco
namespace MpegTs

open Library.BitStream Library.ByteWords Vaco.Core

/-- Payload bytes available in a packet with no adaptation field. -/
def bodyLen : Nat := tsPacketSize - 4

/-- What the adaptation field of the first packet of a call should carry. -/
structure AfRequest where
  discontinuity : Bool := false
  randomAccess : Bool := false
  pcr : Option Pcr := none
deriving DecidableEq

namespace AfRequest

/-- Nothing is asked for. -/
def isTrivial (req : AfRequest) : Bool :=
  !req.discontinuity && !req.randomAccess && req.pcr.isNone

/-- Bytes of adaptation field content the request needs, before any stuffing. -/
def minContentLen (req : AfRequest) : Nat :=
  if req.isTrivial then 0 else 1 + if req.pcr.isSome then 6 else 0

/-- The same with the length byte; nothing if no field is needed. -/
def minWireLen (req : AfRequest) : Nat :=
  if 0 < req.minContentLen then 1 + req.minContentLen else 0

/-- The flags byte. -/
def flags (req : AfRequest) : BitVec 8 :=
  BitVec.ofNat 8 ((if req.discontinuity then 0x80 else 0) + (if req.randomAccess then 0x40 else 0) +
    if req.pcr.isSome then 0x10 else 0)

end AfRequest

/-- Encode a clock reference: 33 bits of base, six ones, nine bits of extension. -/
def encodePcr (pcr : Pcr) : Bytes :=
  let base := (pcr.base % 2 ^ 33).toNat
  let ext := pcr.extension % 512
  beBytes 4 (base / 2) ++
    [BitVec.ofNat 8 (base % 2 * 128 + 0x7E + ext / 256), BitVec.ofNat 8 (ext % 256)]

/-- Build an adaptation field of a length, the length byte included. -/
def encodeAf (req : AfRequest) (totalWireLen : Nat) : Bytes :=
  if totalWireLen = 0 then []
  else if totalWireLen = 1 then [0]
  else
    let af := BitVec.ofNat 8 (totalWireLen - 1) :: req.flags :: (req.pcr.map encodePcr).getD []
    af ++ List.replicate (totalWireLen - af.length) 0xFF

/-- How the last packet of a call is filled up. -/
inductive PadStyle where
  | adaptationField
  | trailingBytes
deriving DecidableEq

/-- The lengths of one packet: the bytes taken, the payload and the adaptation field. -/
structure CellLens where
  realLen : Nat
  payloadLen : Nat
  afWireLen : Nat

/-- Choose the lengths of a packet. -/
def cellLens (req : AfRequest) (pad : PadStyle) (remaining : Nat) : CellLens :=
  let capacity := bodyLen - req.minWireLen
  if capacity ≤ remaining ∧ 0 < req.minContentLen then ⟨capacity, capacity, req.minWireLen⟩
  else if bodyLen ≤ remaining ∧ req.minContentLen = 0 then ⟨bodyLen, bodyLen, 0⟩
  else
    match pad with
    | .adaptationField => ⟨remaining, remaining, bodyLen - remaining⟩
    | .trailingBytes => ⟨remaining, bodyLen - req.minWireLen, req.minWireLen⟩

/-- Copy bytes into a buffer, if they fit. -/
def place (buf : Bytes) (position : Nat) (src : Bytes) : Bytes :=
  if position + src.length ≤ buf.length then
    buf.take position ++ src ++ buf.drop (position + src.length)
  else buf

/-- The header bytes of a packet. -/
def headerBytes (pid : Nat) (pusi : Bool) (afc cc : Nat) : Bytes :=
  [syncByte, BitVec.ofNat 8 ((if pusi then 64 else 0) + pid / 256 % 32), BitVec.ofNat 8 (pid % 256),
    BitVec.ofNat 8 (afc * 16 + cc % 16)]

/-- The counter for a PID, and the counters after a packet. -/
def nextCc (pid : Nat) (hasPayload : Bool) : List (Nat × Nat) → Nat × List (Nat × Nat)
  | [] => (0, [(pid, if hasPayload then 1 else 0)])
  | (p, val) :: others =>
      if p = pid then (val, (p, if hasPayload then (val + 1) % 16 else val) :: others)
      else
        let next := nextCc pid hasPayload others
        (next.1, (p, val) :: next.2)

/-- The writer: what each packet wrote to the sink, with the prefix if there is one, and the
counter of every PID. -/
structure TsWriter where
  strides : List Bytes
  m2ts : Bool
  cc : List (Nat × Nat)
  bytesWritten : Nat
  nominalBps : Nat

namespace TsWriter

/-- A writer that has written nothing. -/
def new (m2ts : Bool) (muxrateBps : Option Nat) : TsWriter where
  strides := []
  m2ts
  cc := []
  bytesWritten := 0
  nominalBps := max (muxrateBps.getD 20000000) 1

/-- The arrival time stamp, paced by the bytes written. -/
def nextAts (w : TsWriter) : Nat :=
  min (min (w.bytesWritten * 8) Library.u64Max * 27000000) Library.u64Max / w.nominalBps % 2 ^ 30

/-- Write one packet, with a prefix if configured. -/
def emit (w : TsWriter) (packet : Bytes) : TsWriter :=
  { w with
    strides := w.strides ++ [if w.m2ts then beBytes 4 w.nextAts ++ packet else packet]
    bytesWritten :=
      Library.satAddU64 (Library.satAddU64 w.bytesWritten (if w.m2ts then 4 else 0)) tsPacketSize }

/-- The bytes of one packet; what is not written stays filled with stuffing. -/
def cell (req : AfRequest) (pid : Nat) (pusi : Bool) (cc : Nat) (lens : CellLens)
    (prefixed : Bytes) : Bytes :=
  let hasPayload := 0 < lens.payloadLen
  let afc := if 0 < lens.afWireLen then (if hasPayload then 3 else 2) else 1
  let headed := place (List.replicate tsPacketSize 0xFF) 0 (headerBytes pid pusi afc cc)
  let af := encodeAf req lens.afWireLen
  place (place headed 4 af) (4 + af.length) (prefixed.take lens.realLen)

/-- The loop of `write_payload`: one packet a round, the request on the first only. -/
def writeLoop (pid : Nat) (pad : PadStyle) :
    Nat → AfRequest → Bool → TsWriter → Bytes → TsWriter
  | 0, _, _, w, _ => w
  | fuel + 1, req, first, w, prefixed =>
      if prefixed.length = 0 ∧ !first then w
      else
        let lens := cellLens req pad prefixed.length
        let next := nextCc pid (decide (0 < lens.payloadLen)) w.cc
        let packet := cell req pid first next.1 lens prefixed
        writeLoop pid pad fuel {} false ({ w with
          cc := next.2 }.emit packet) (prefixed.drop lens.realLen)

/-- Split a payload across as many packets as it takes.  Every round takes a byte, if there
is one. -/
def writePayload (w : TsWriter) (pid : Nat) (pointerField : Option (BitVec 8)) (payload : Bytes)
    (req : AfRequest) (pad : PadStyle) : Except Error TsWriter :=
  if maxPid < pid then .error (.invalidData "mpegts: pid does not fit 13 bits")
  else
    let prefixed := pointerField.toList ++ payload
    .ok (writeLoop pid pad (prefixed.length + 1) req true w prefixed)

/-- Write a complete section. -/
def writeSection (w : TsWriter) (pid : Nat) (bytes : Bytes) (req : AfRequest) :
    Except Error TsWriter :=
  w.writePayload pid (some 0) bytes req .trailingBytes

/-- Write a complete PES packet. -/
def writePes (w : TsWriter) (pid : Nat) (pes : Bytes) (req : AfRequest) : Except Error TsWriter :=
  w.writePayload pid none pes req .adaptationField

end TsWriter

/-! ## Packets are read back -/

/-- A header is read back. -/
theorem TsHeader.parse_headerBytes {pid afc : Nat} (hpid : pid ≤ maxPid) (hafc : afc < 4)
    (pusi : Bool) (cc : Nat) (more : Bytes) :
    TsHeader.parse (headerBytes pid pusi afc cc ++ more) =
      some
        { transportError := false
          payloadUnitStart := pusi
          transportPriority := false
          pid
          scrambling := 0
          adaptationControl := afc
          continuity := cc % 16 } := by
  have hbits : ∀ (pusi : Bool) (high : Fin 32),
      hasBit (BitVec.ofNat 8 ((if pusi then 64 else 0) + high)) 0x80 = false ∧
        hasBit (BitVec.ofNat 8 ((if pusi then 64 else 0) + high)) 0x40 = pusi ∧
        hasBit (BitVec.ofNat 8 ((if pusi then 64 else 0) + high)) 0x20 = false ∧
          (BitVec.ofNat 8 ((if pusi then 64 else 0) + high) &&& 0x1F).toNat = high := by
    decide
  rcases hbits pusi ⟨pid / 256 % 32, Nat.mod_lt _ (by decide)⟩ with ⟨herror, hstart, hprio, hhigh⟩
  dsimp only at herror hstart hprio hhigh
  have hpid' : pid ≤ 8191 := hpid
  have hlow : pid / 256 % 32 * 256 + (BitVec.ofNat 8 (pid % 256)).toNat = pid := by
    rw [BitVec.toNat_ofNat]
    omega
  have hlast : (BitVec.ofNat 8 (afc * 16 + cc % 16)).toNat = afc * 16 + cc % 16 := by
    rw [BitVec.toNat_ofNat]
    omega
  have hscrambling : (afc * 16 + cc % 16) / 64 = 0 := by omega
  have hcontrol : (afc * 16 + cc % 16) / 16 % 4 = afc := by omega
  have hcc : (afc * 16 + cc % 16) % 16 = cc % 16 := by omega
  simp only [headerBytes, List.cons_append, List.nil_append, TsHeader.parse, ne_eq,
    not_true_eq_false, if_false, herror, hstart, hprio, hhigh, hlow, hlast, hscrambling, hcontrol,
    hcc]

/-- The clock reference that its fields can hold. -/
def Pcr.wrapped (pcr : Pcr) : Pcr where
  base := pcr.base % 2 ^ 33
  extension := pcr.extension % 512

theorem length_encodePcr (pcr : Pcr) : (encodePcr pcr).length = 6 := by
  simp only [encodePcr, List.length_append, length_beBytes, List.length_cons, List.length_nil]

/-- A clock reference is read back, as far as its fields hold it. -/
theorem Pcr.parse_encodePcr (pcr : Pcr) (more : Bytes) :
    Pcr.parse (encodePcr pcr ++ more) = some pcr.wrapped := by
  have hbase : 0 ≤ pcr.base % 2 ^ 33 := Int.emod_nonneg _ (by decide)
  have hbound : pcr.base % 2 ^ 33 < 2 ^ 33 := Int.emod_lt_of_pos _ (by decide)
  have hlt : (pcr.base % 2 ^ 33).toNat < 2 ^ 33 := by omega
  have hext : pcr.extension % 512 < 512 := Nat.mod_lt _ (by decide)
  unfold encodePcr
  dsimp only
  generalize hb : (pcr.base % 2 ^ 33).toNat = base at hlt ⊢
  have hword : beNat (beBytes 4 (base / 2)) = base / 2 := beNat_beBytes (by omega)
  have hlen := length_beBytes 4 (base / 2)
  have hlast : (BitVec.ofNat 8 (base % 2 * 128 + 0x7E + pcr.extension % 512 / 256)).toNat =
      base % 2 * 128 + 0x7E + pcr.extension % 512 / 256 := by
    rw [BitVec.toNat_ofNat]
    omega
  have hlow : (BitVec.ofNat 8 (pcr.extension % 512 % 256)).toNat =
      pcr.extension % 512 % 256 := by
    rw [BitVec.toNat_ofNat]
    omega
  match hbytes : beBytes 4 (base / 2), hlen with
  | [b0, b1, b2, b3], _ =>
      rw [hbytes] at hword
      have hwhole : base / 2 * 2 + (base % 2 * 128 + 0x7E + pcr.extension % 512 / 256) / 128 =
          base := by omega
      have hhigh : (base % 2 * 128 + 0x7E + pcr.extension % 512 / 256) % 2 * 256 +
          pcr.extension % 512 % 256 = pcr.extension % 512 := by omega
      simp only [List.cons_append, List.nil_append, Pcr.parse, hword, hlast, hlow, hwhole, hhigh,
        Pcr.wrapped]
      rw [← hb, Int.toNat_of_nonneg hbase]

namespace AfRequest

theorem minWireLen_le (req : AfRequest) : req.minWireLen ≤ 8 := by
  have hcontent : req.minContentLen ≤ 7 := by
    unfold minContentLen
    split
    · omega
    · split
      · omega
      · omega
  unfold minWireLen
  split
  · omega
  · omega

theorem content_le {req : AfRequest} {total : Nat} (hmin : req.minWireLen ≤ total)
    (hlong : 1 < total) : 2 + ((req.pcr.map encodePcr).getD []).length ≤ total := by
  unfold minWireLen minContentLen isTrivial at hmin
  cases hpcr : req.pcr with
  | none =>
      rw [Option.map_none, Option.getD_none, List.length_nil]
      omega
  | some pcr =>
      rw [hpcr] at hmin
      rw [Option.map_some, Option.getD_some, length_encodePcr]
      simp at hmin
      omega

theorem trivial_of_le {req : AfRequest} (hmin : req.minWireLen ≤ 1) :
    req.discontinuity = false ∧ req.randomAccess = false ∧ req.pcr = none := by
  unfold minWireLen minContentLen at hmin
  cases htrivial : req.isTrivial with
  | true =>
      unfold isTrivial at htrivial
      simp only [Bool.and_eq_true, Bool.not_eq_true', Option.isNone_iff_eq_none] at htrivial
      exact ⟨htrivial.1.1, htrivial.1.2, htrivial.2⟩
  | false =>
      rw [htrivial] at hmin
      simp at hmin

theorem hasBit_flags (req : AfRequest) :
    hasBit req.flags 0x80 = req.discontinuity ∧ hasBit req.flags 0x40 = req.randomAccess ∧
      hasBit req.flags 0x20 = false ∧ hasBit req.flags 0x10 = req.pcr.isSome ∧
        hasBit req.flags 0x08 = false ∧ hasBit req.flags 0x04 = false := by
  have hbits : ∀ d r c : Bool,
      let flags := BitVec.ofNat 8 ((if d then 0x80 else 0) + (if r then 0x40 else 0) +
        if c then 0x10 else 0)
      hasBit flags 0x80 = d ∧ hasBit flags 0x40 = r ∧ hasBit flags 0x20 = false ∧
        hasBit flags 0x10 = c ∧ hasBit flags 0x08 = false ∧ hasBit flags 0x04 = false := by
    decide
  exact hbits req.discontinuity req.randomAccess req.pcr.isSome

end AfRequest

theorem length_encodeAf {req : AfRequest} {total : Nat} (hmin : req.minWireLen ≤ total) :
    (encodeAf req total).length = total := by
  unfold encodeAf
  by_cases hzero : total = 0
  · rw [if_pos hzero, hzero, List.length_nil]
  · rw [if_neg hzero]
    by_cases hone : total = 1
    · rw [if_pos hone, hone]
      rfl
    · have hcontent := AfRequest.content_le hmin (by omega)
      rw [if_neg hone]
      simp only [List.length_append, List.length_cons, List.length_replicate]
      omega

/-- An adaptation field is read back. -/
theorem AdaptationField.parse_encodeAf {req : AfRequest} {total : Nat}
    (hmin : req.minWireLen ≤ total) (hpos : 0 < total) (hmax : total ≤ bodyLen) (more : Bytes) :
    AdaptationField.parse (encodeAf req total ++ more) =
      some
        { totalLen := total
          discontinuity := req.discontinuity
          randomAccess := req.randomAccess
          pcr := req.pcr.map Pcr.wrapped } := by
  have hbody : total ≤ 184 := hmax
  unfold encodeAf
  dsimp only
  rw [if_neg (Nat.ne_of_gt hpos)]
  by_cases hone : total = 1
  · rw [hone] at hmin
    rcases AfRequest.trivial_of_le hmin with ⟨hd, hr, hpcr⟩
    rw [if_pos hone, hone, hd, hr, hpcr]
    rfl
  · have hcontent := AfRequest.content_le hmin (by omega)
    rcases req.hasBit_flags with ⟨hd, hr, he, hp, ho, hs⟩
    rw [if_neg hone]
    generalize hbytes : (req.pcr.map encodePcr).getD [] = content at hcontent
    generalize hfill : List.replicate
      (total - (BitVec.ofNat 8 (total - 1) :: req.flags :: content).length) (255 : BitVec 8) = fill
    have hfillLen : fill.length = total - (2 + content.length) := by
      rw [← hfill, List.length_replicate, List.length_cons, List.length_cons]
      omega
    have hlength : (BitVec.ofNat 8 (total - 1)).toNat = total - 1 := by
      rw [BitVec.toNat_ofNat]
      omega
    have hfits : ¬ (req.flags :: (content ++ fill) ++ more).length < total - 1 := by
      simp only [List.length_append, List.length_cons]
      omega
    have htake : (req.flags :: (content ++ fill) ++ more).take (total - 1) =
        req.flags :: (content ++ fill) := by
      refine List.take_left' ?_
      simp only [List.length_append, List.length_cons]
      omega
    have hpcr : (if req.pcr.isSome then Pcr.parse (content ++ fill) else none) =
        req.pcr.map Pcr.wrapped := by
      cases hreq : req.pcr with
      | none => rfl
      | some pcr =>
          rw [← hbytes, hreq, Option.map_some, Option.getD_some, Pcr.parse_encodePcr]
          rfl
    have htotal : total - 1 + 1 = total := by omega
    change AdaptationField.parse
      (BitVec.ofNat 8 (total - 1) :: (req.flags :: (content ++ fill) ++ more)) = _
    simp only [AdaptationField.parse, hlength, hfits, if_false, htake, AdaptationField.ofFlags, hd,
      hr, he, hp, ho, hs, hpcr, htotal, Bool.false_eq_true]

theorem place_filling {done src : Bytes} {n : Nat} (fill : BitVec 8) (h : src.length ≤ n) :
    place (done ++ List.replicate n fill) done.length src =
      done ++ src ++ List.replicate (n - src.length) fill := by
  have hfits : done.length + src.length ≤ (done ++ List.replicate n fill).length := by
    rw [List.length_append, List.length_replicate]
    omega
  unfold place
  rw [if_pos hfits, List.take_left, Nat.add_comm, ← List.drop_drop]
  have hdrop : ((done ++ List.replicate n fill).drop done.length) = List.replicate n fill :=
    List.drop_left
  rw [List.drop_drop, Nat.add_comm, ← List.drop_drop, hdrop, List.drop_replicate]

/-- What is taken fits the payload, payload and adaptation field fill the packet, and the request
has room. -/
structure CellLens.Fit (lens : CellLens) (req : AfRequest) (remaining : Nat) : Prop where
  real_le : lens.realLen ≤ remaining
  real_pos : 0 < lens.realLen
  real_le_payload : lens.realLen ≤ lens.payloadLen
  sum_eq : lens.payloadLen + lens.afWireLen = bodyLen
  min_le : req.minWireLen ≤ lens.afWireLen

theorem AfRequest.minWireLen_eq_zero {req : AfRequest} (h : req.minContentLen = 0) :
    req.minWireLen = 0 := by
  unfold AfRequest.minWireLen
  rw [h]
  rfl

/-- The lengths of a packet fit, in all of the cases. -/
theorem cellLens_fit (req : AfRequest) (pad : PadStyle) {remaining : Nat} (hpos : 0 < remaining) :
    (cellLens req pad remaining).Fit req remaining := by
  have hmin := req.minWireLen_le
  have hbody : bodyLen = 184 := rfl
  unfold cellLens
  dsimp only
  split
  · rename_i hfull
    exact ⟨hfull.1, by dsimp only; omega, Nat.le_refl _, by dsimp only; omega, Nat.le_refl _⟩
  · rename_i hshort
    split
    · rename_i hplain
      have hzero := AfRequest.minWireLen_eq_zero hplain.2
      exact ⟨hplain.1, by dsimp only; omega, Nat.le_refl _, by dsimp only; omega, by omega⟩
    · rename_i hlast
      have hfits : remaining ≤ bodyLen - req.minWireLen := by
        by_cases hzero : req.minContentLen = 0
        · have := AfRequest.minWireLen_eq_zero hzero
          omega
        · omega
      cases pad with
      | adaptationField =>
          exact ⟨Nat.le_refl _, hpos, Nat.le_refl _, by dsimp only; omega, by dsimp only; omega⟩
      | trailingBytes =>
          exact ⟨Nat.le_refl _, hpos, hfits, by dsimp only; omega, Nat.le_refl _⟩

namespace TsWriter

/-- The payload of a packet: the bytes taken, and stuffing up to the payload length. -/
def cellPayload (lens : CellLens) (prefixed : Bytes) : Bytes :=
  prefixed.take lens.realLen ++ List.replicate (lens.payloadLen - lens.realLen) stuffingByte

variable {req : AfRequest} {pid : Nat} {pusi : Bool} {cc : Nat} {lens : CellLens}
  {prefixed : Bytes}

/-- The bytes of a packet: header, adaptation field and payload. -/
theorem cell_eq (hfit : lens.Fit req prefixed.length) :
    cell req pid pusi cc lens prefixed =
      headerBytes pid pusi (if 0 < lens.afWireLen then 3 else 1) cc ++
        (encodeAf req lens.afWireLen ++ cellPayload lens prefixed) := by
  have hbody : bodyLen = 184 := rfl
  have hreal := hfit.real_le
  have hpos := hfit.real_pos
  have hle := hfit.real_le_payload
  have hsum := hfit.sum_eq
  have hpayload : 0 < lens.payloadLen := by omega
  have haf := length_encodeAf hfit.min_le
  have htake : (prefixed.take lens.realLen).length = lens.realLen := by
    rw [List.length_take]
    omega
  unfold cell
  dsimp only
  rw [if_pos hpayload]
  generalize hheader :
    headerBytes pid pusi (if 0 < lens.afWireLen then 3 else 1) cc = header
  have hheaderLen : header.length = 4 := by
    rw [← hheader]
    rfl
  have hheaded : place (List.replicate tsPacketSize 0xFF) 0 header =
      header ++ List.replicate 184 0xFF := by
    have hplaced := @place_filling [] header tsPacketSize 0xFF (by rw [hheaderLen]; decide)
    rw [hheaderLen] at hplaced
    exact hplaced
  have hadapted : place (header ++ List.replicate 184 0xFF) 4 (encodeAf req lens.afWireLen) =
      header ++ encodeAf req lens.afWireLen ++
        List.replicate (184 - lens.afWireLen) 0xFF := by
    have hplaced := @place_filling header (encodeAf req lens.afWireLen) 184 0xFF
      (by rw [haf]; omega)
    rw [hheaderLen, haf] at hplaced
    exact hplaced
  have hdone : (header ++ encodeAf req lens.afWireLen).length = 4 + lens.afWireLen := by
    rw [List.length_append, hheaderLen, haf]
  have hwhole := @place_filling (header ++ encodeAf req lens.afWireLen)
    (prefixed.take lens.realLen) (184 - lens.afWireLen) 0xFF (by rw [htake]; omega)
  rw [hdone, htake] at hwhole
  have hfill : 184 - lens.afWireLen - lens.realLen = lens.payloadLen - lens.realLen := by omega
  rw [hheaded, hadapted, haf, hwhole, hfill, List.append_assoc, List.append_assoc]
  rfl

theorem length_cell (hfit : lens.Fit req prefixed.length) :
    (cell req pid pusi cc lens prefixed).length = tsPacketSize := by
  have hbody : bodyLen = 184 := rfl
  have hreal := hfit.real_le
  have hle := hfit.real_le_payload
  have hsum := hfit.sum_eq
  rw [cell_eq hfit]
  simp only [List.length_append, length_encodeAf hfit.min_le, cellPayload, List.length_take,
    List.length_replicate, headerBytes, List.length_cons, List.length_nil, tsPacketSize]
  omega

/-- A packet is read back. -/
theorem parse_cell (hpid : pid ≤ maxPid) (hfit : lens.Fit req prefixed.length) :
    ∃ p, TsPacket.parse (cell req pid pusi cc lens prefixed) = some p ∧
      p.malformedAdaptation = false ∧ p.header.pid = pid ∧ p.header.payloadUnitStart = pusi ∧
        p.header.hasPayload = true ∧ p.header.continuity = cc % 16 ∧
          p.payload = cellPayload lens prefixed ∧ p.discontinuity = req.discontinuity ∧
            p.randomAccess = req.randomAccess ∧ p.pcr = req.pcr.map Pcr.wrapped := by
  have hbody : bodyLen = 184 := rfl
  have hpos := hfit.real_pos
  have hle := hfit.real_le_payload
  have hsum := hfit.sum_eq
  have hafc : (if 0 < lens.afWireLen then 3 else 1) < 4 := by
    split
    · decide
    · decide
  rw [cell_eq hfit]
  unfold TsPacket.parse
  rw [TsHeader.parse_headerBytes hpid hafc]
  have hdrop : (headerBytes pid pusi (if 0 < lens.afWireLen then 3 else 1) cc ++
      (encodeAf req lens.afWireLen ++ cellPayload lens prefixed)).drop 4 =
        encodeAf req lens.afWireLen ++ cellPayload lens prefixed :=
    rfl
  rw [hdrop]
  by_cases haf : 0 < lens.afWireLen
  · have hparse := AdaptationField.parse_encodeAf hfit.min_le haf (by omega)
      (cellPayload lens prefixed)
    have hpayload : (encodeAf req lens.afWireLen ++ cellPayload lens prefixed).drop
        lens.afWireLen = cellPayload lens prefixed :=
      List.drop_left' (length_encodeAf hfit.min_le)
    rw [if_pos haf]
    simp only [TsHeader.hasAdaptation, TsHeader.hasPayload, Option.bind_eq_bind, Option.bind_some,
      Option.pure_def, Nat.reduceDiv, Nat.reduceMod, BEq.rfl, if_true, hparse, Option.isNone_some,
      Bool.and_false, Bool.not_false, Bool.and_self, Option.map_some, Option.getD_some, hpayload]
    exact ⟨_, rfl, rfl, rfl, rfl, by simp, rfl, rfl, rfl, rfl, rfl⟩
  · have hzero : lens.afWireLen = 0 := Nat.eq_zero_of_not_pos haf
    have hmin := hfit.min_le
    rw [hzero] at hmin
    rcases AfRequest.trivial_of_le (Nat.le_trans hmin (by decide)) with ⟨hd, hr, hpcr⟩
    have hnone : encodeAf req 0 = [] := if_pos rfl
    have hplain : ((1 : Nat) / 2 % 2 == 1) = false := by decide
    rw [hd, hr, hpcr, if_neg haf, hzero, hnone, List.nil_append]
    simp only [TsHeader.hasAdaptation, TsHeader.hasPayload, Option.bind_eq_bind, Option.bind_some,
      Option.pure_def, hplain, Nat.reduceMod, BEq.rfl, Bool.false_eq_true, if_false,
      Bool.false_and, Bool.not_false, Bool.and_self, if_true, Option.map_none, Option.getD_none,
      List.drop_zero]
    exact ⟨_, rfl, rfl, rfl, rfl, by simp, rfl, rfl, rfl, rfl, rfl⟩

end TsWriter

/-! ## The packets of one call -/

/-- The counter that the next packet of a PID gets. -/
def counterOf (pid : Nat) : List (Nat × Nat) → Nat
  | [] => 0
  | (p, val) :: others => if p = pid then val else counterOf pid others

theorem nextCc_fst (pid : Nat) (hasPayload : Bool) (cc : List (Nat × Nat)) :
    (nextCc pid hasPayload cc).1 = counterOf pid cc := by
  induction cc with
  | nil => rfl
  | cons entry others ih =>
      rw [nextCc, counterOf]
      split
      · rfl
      · exact ih

/-- A packet with a payload advances the counter of its PID and no other. -/
theorem counterOf_nextCc (pid : Nat) (cc : List (Nat × Nat)) (other : Nat) :
    counterOf other (nextCc pid true cc).2 =
      if other = pid then (counterOf pid cc + 1) % 16 else counterOf other cc := by
  induction cc with
  | nil =>
      simp only [nextCc, counterOf, if_true]
      by_cases hother : other = pid
      · rw [if_pos hother.symm, if_pos hother]
      · rw [if_neg (Ne.symm hother), if_neg hother]
  | cons entry others ih =>
      rw [nextCc]
      by_cases hentry : entry.1 = pid
      · rw [if_pos hentry]
        simp only [counterOf, if_true]
        by_cases hother : other = pid
        · rw [if_pos (hentry.trans hother.symm), if_pos hother, if_pos hentry]
        · have hne : ¬ entry.1 = other := fun heq => hother (heq.symm.trans hentry)
          rw [if_neg hne, if_neg hother, if_neg hne]
      · rw [if_neg hentry]
        simp only [counterOf, ih]
        by_cases hother : other = pid
        · rw [if_pos hother, if_pos hother, if_neg (fun heq => hentry (heq.trans hother)),
            if_neg hentry]
        · rw [if_neg hother, if_neg hother]

/-- What a receiver sees of a packet: a start, its payload and its marks. -/
structure CellView where
  start : Bool
  payload : Bytes
  marks : AfRequest
deriving DecidableEq

/-- What a receiver sees of a packet. -/
def TsPacket.view (p : TsPacket) : CellView where
  start := p.header.payloadUnitStart
  payload := p.payload
  marks :=
    { discontinuity := p.discontinuity
      randomAccess := p.randomAccess
      pcr := p.pcr }

/-- The marks of a request, as far as the fields hold them. -/
def AfRequest.wrapped (req : AfRequest) : AfRequest :=
  { req with
    pcr := req.pcr.map Pcr.wrapped }

namespace TsWriter

/-- The transport packet in what was written at once. -/
def body (m2ts : Bool) (stride : Bytes) : Bytes :=
  (stride.drop (if m2ts then 4 else 0)).take tsPacketSize

/-- The packets written so far. -/
def packets (w : TsWriter) : List Bytes :=
  w.strides.map (body w.m2ts)

/-- What a receiver sees of the packets of a call. -/
def cellViews (pad : PadStyle) : Nat → AfRequest → Bool → Bytes → List CellView
  | 0, _, _, _ => []
  | fuel + 1, req, first, prefixed =>
      if prefixed.length = 0 ∧ !first then []
      else
        let lens := cellLens req pad prefixed.length
        ⟨first, cellPayload lens prefixed, req.wrapped⟩ ::
          cellViews pad fuel {} false (prefixed.drop lens.realLen)

theorem packets_emit (w : TsWriter) {packet : Bytes} (hlen : packet.length = tsPacketSize) :
    (w.emit packet).packets = w.packets ++ [packet] := by
  have hbody : body w.m2ts (if w.m2ts then beBytes 4 w.nextAts ++ packet else packet) = packet := by
    unfold body
    cases w.m2ts with
    | true =>
        rw [if_pos rfl, if_pos rfl, List.drop_left' (length_beBytes 4 _), ← hlen, List.take_length]
    | false =>
        rw [if_neg Bool.false_ne_true, if_neg Bool.false_ne_true, List.drop_zero, ← hlen,
          List.take_length]
  unfold packets emit
  rw [List.map_append, List.map_singleton, hbody]

/-- Packets with these views follow on a PID: they are read back, and their counters go on
from the one of the PID. -/
structure Appends (w w' : TsWriter) (pid : Nat) (views : List CellView) (group : List TsPacket) :
    Prop where
  parsed : w'.packets.map TsPacket.parse = w.packets.map TsPacket.parse ++ group.map some
  lengths : ∀ packet ∈ w'.packets, packet ∈ w.packets ∨ packet.length = tsPacketSize
  views_eq : group.map TsPacket.view = views
  wellFormed : ∀ p ∈ group, p.malformedAdaptation = false ∧ p.header.pid = pid
  counters : group.map (fun p => p.header.continuity) =
    (List.range' (counterOf pid w.cc) group.length).map (· % 16)
  counterOf_eq : ∀ other, counterOf other w'.cc =
    if other = pid then (counterOf pid w.cc + group.length) % 16 else counterOf other w.cc

theorem map_mod_range' {a b : Nat} (h : a % 16 = b % 16) (n : Nat) :
    (List.range' a n).map (· % 16) = (List.range' b n).map (· % 16) := by
  induction n generalizing a b with
  | zero => rfl
  | succ n ih =>
      rw [List.range'_succ, List.range'_succ, List.map_cons, List.map_cons, h,
        ih (by omega : (a + 1) % 16 = (b + 1) % 16)]

namespace Appends

variable {w w₁ w₂ : TsWriter} {pid : Nat} {views₁ views₂ : List CellView}
  {group₁ group₂ : List TsPacket}

theorem nil (hcounter : counterOf pid w.cc < 16) : Appends w w pid [] [] where
  parsed := (List.append_nil _).symm
  lengths := fun _ hpacket => .inl hpacket
  views_eq := rfl
  wellFormed := by simp
  counters := rfl
  counterOf_eq := by
    intro other
    rw [List.length_nil, Nat.add_zero, Nat.mod_eq_of_lt hcounter]
    split
    · rename_i hother
      rw [hother]
    · rfl

theorem trans (h₁ : Appends w w₁ pid views₁ group₁) (h₂ : Appends w₁ w₂ pid views₂ group₂) :
    Appends w w₂ pid (views₁ ++ views₂) (group₁ ++ group₂) where
  parsed := by
    rw [h₂.parsed, h₁.parsed, List.map_append, List.append_assoc]
  lengths := by
    intro packet hpacket
    rcases h₂.lengths packet hpacket with hold | hnew
    · exact h₁.lengths packet hold
    · exact .inr hnew
  views_eq := by
    rw [List.map_append, h₁.views_eq, h₂.views_eq]
  wellFormed := by
    intro p hp
    rcases List.mem_append.1 hp with hp | hp
    · exact h₁.wellFormed p hp
    · exact h₂.wellFormed p hp
  counters := by
    have hstart := h₁.counterOf_eq pid
    rw [if_pos rfl] at hstart
    rw [List.map_append, h₁.counters, h₂.counters, hstart, map_mod_range' (Nat.mod_mod _ _),
      ← List.map_append, List.length_append, List.range'_append_1]
  counterOf_eq := by
    intro other
    rw [h₂.counterOf_eq other, h₁.counterOf_eq pid, h₁.counterOf_eq other, if_pos rfl,
      List.length_append]
    split
    · omega
    · rfl

end Appends

/-- One packet. -/
theorem emit_appends {pid : Nat} (hpid : pid ≤ maxPid) (w : TsWriter) {req : AfRequest}
    (first : Bool) {lens : CellLens} {prefixed : Bytes} (hfit : lens.Fit req prefixed.length) :
    ∃ p, Appends w
      ({ w with
        cc := (nextCc pid true w.cc).2 }.emit
          (cell req pid first (counterOf pid w.cc) lens prefixed)) pid
      [⟨first, cellPayload lens prefixed, req.wrapped⟩] [p] := by
  rcases @parse_cell req pid first (counterOf pid w.cc) lens prefixed hpid hfit with
    ⟨p, hparse, hwell, hppid, hstart, _, hcc, hbytes, hdisc, hrandom, hpcr⟩
  have hlen := @length_cell req pid first (counterOf pid w.cc) lens prefixed hfit
  generalize cell req pid first (counterOf pid w.cc) lens prefixed = packet at hparse hlen ⊢
  have hpackets : ({ w with
      cc := (nextCc pid true w.cc).2 }.emit packet).packets = w.packets ++ [packet] :=
    packets_emit _ hlen
  refine ⟨p, ?_, ?_, ?_, ?_, ?_, ?_⟩
  · rw [hpackets, List.map_append, List.map_singleton, hparse, List.map_singleton]
  · intro packet' hpacket'
    rw [hpackets] at hpacket'
    rcases List.mem_append.1 hpacket' with hearlier | hlast
    · exact .inl hearlier
    · rw [List.mem_singleton.1 hlast]
      exact .inr hlen
  · rw [List.map_singleton]
    unfold TsPacket.view AfRequest.wrapped
    rw [hstart, hbytes, hdisc, hrandom, hpcr]
  · intro q hq
    rw [List.mem_singleton.1 hq]
    exact ⟨hwell, hppid⟩
  · rw [List.map_singleton, hcc]
    rfl
  · intro other
    exact counterOf_nextCc pid w.cc other

/-- The packets of the loop. -/
theorem writeLoop_appends {pid : Nat} (hpid : pid ≤ maxPid) (pad : PadStyle) (fuel : Nat)
    (req : AfRequest) (first : Bool) (w : TsWriter) (prefixed : Bytes)
    (hfirst : first = true → prefixed ≠ []) (hcounter : counterOf pid w.cc < 16) :
    ∃ group, Appends w (writeLoop pid pad fuel req first w prefixed) pid
      (cellViews pad fuel req first prefixed) group := by
  induction fuel generalizing req first w prefixed with
  | zero => exact ⟨[], .nil hcounter⟩
  | succ fuel ih =>
      rw [writeLoop, cellViews]
      by_cases hdone : prefixed.length = 0 ∧ !first
      · rw [if_pos hdone, if_pos hdone]
        exact ⟨[], .nil hcounter⟩
      · have hpos : 0 < prefixed.length := by
          cases hstart : first with
          | true => exact List.length_pos_iff.2 (hfirst hstart)
          | false =>
              rw [hstart] at hdone
              simp only [Bool.not_false, and_true] at hdone
              exact Nat.pos_of_ne_zero hdone
        have hfit := cellLens_fit req pad hpos
        have hpayload : decide (0 < (cellLens req pad prefixed.length).payloadLen) = true := by
          have hreal := hfit.real_pos
          have hle := hfit.real_le_payload
          exact decide_eq_true (by omega)
        rw [if_neg hdone, if_neg hdone]
        dsimp only
        rw [hpayload, nextCc_fst]
        rcases emit_appends hpid w first hfit with ⟨p, hone⟩
        have hnext := hone.counterOf_eq pid
        rw [if_pos rfl] at hnext
        rcases ih {} false _ (prefixed.drop (cellLens req pad prefixed.length).realLen)
          (fun hfalse => absurd hfalse Bool.false_ne_true)
          (by rw [hnext]; exact Nat.mod_lt _ (by decide)) with ⟨group, hothers⟩
        exact ⟨p :: group, hone.trans hothers⟩

end TsWriter

end MpegTs
end Vaco
