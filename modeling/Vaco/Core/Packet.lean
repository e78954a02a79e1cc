import Vaco.Core.Time

/-!
# Packets

A packet is a payload with its stream, its two timestamps, its duration and its
side data.  Rescaling moves both timestamps together, and with them the exact tick
count that the side data may carry.

Main results:

- `Packet.rescaleTs_eq`: both timestamps and the duration of a rescaled packet.

Current gaps:

- Payloads are byte lists: sharing, padding and pooling of buffers are left out.
-/

namespace Vaco
namespace Core

open Library

/-- One byte. -/
abbrev Byte := BitVec 8

/-- The kind of data that a stream carries. -/
inductive MediaType where
  | video
  | audio
  | subtitle
  | data
  | attachment
deriving DecidableEq, Repr

/-- Errors that the components report. -/
inductive Error where
  | invalidData (message : String)
  | unexpectedEof
  | eof
  | needMoreInput
  | outputPending
  | unsupported (message : String)
  | limitExceeded (limit : String) (requested cap : Nat)
  | option (name detail : String)
  | io (kind : String)
  | notSeekable
  | cancelled
deriving DecidableEq

/-- What a protocol reports when it fails. -/
inductive ProtocolError where
  | unsupported (scheme operation : String)
  | malformed (scheme detail : String)
  | io (error : Error)
deriving DecidableEq

/-- Whether a component may continue after the error. -/
def Error.isRecoverable : Error → Bool
  | .invalidData _ => true
  | .unsupported _ => true
  | _ => false

/-- Side data attached to a packet. -/
inductive PacketSideData where
  | palette (data : List Byte)
  | newExtradata (data : List Byte)
  | displayMatrix (matrix : List I32)
  | skipSamples (start stop : BitVec 32) (skipReason discardReason : Byte)
  | mpegtsStreamId (id : Byte)
  | durationTicks (ticks : I64)
deriving DecidableEq

/-- Which kind of side data an entry is. -/
inductive PacketSideDataKind where
  | palette
  | newExtradata
  | displayMatrix
  | skipSamples
  | mpegtsStreamId
  | durationTicks
deriving DecidableEq

/-- The kind of an entry. -/
def PacketSideData.kind : PacketSideData → PacketSideDataKind
  | .palette _ => .palette
  | .newExtradata _ => .newExtradata
  | .displayMatrix _ => .displayMatrix
  | .skipSamples .. => .skipSamples
  | .mpegtsStreamId _ => .mpegtsStreamId
  | .durationTicks _ => .durationTicks

/-- One packet: a payload of `len` logical bytes with its timing. -/
structure Packet where
  data : List Byte
  len : Nat
  streamIndex : Nat
  pts : Timestamp
  dts : Timestamp
  duration : Duration
  sideDataEntries : List PacketSideData
deriving DecidableEq

namespace Packet

/-- An empty packet. -/
def empty : Packet where
  data := []
  len := 0
  streamIndex := 0
  pts := none
  dts := none
  duration := Duration.ZERO
  sideDataEntries := []

/-- The first entry of a kind. -/
def sideData (p : Packet) (kind : PacketSideDataKind) : Option PacketSideData :=
  p.sideDataEntries.find? fun d => d.kind = kind

/-- Attach an entry in place of the first one of its kind, or at the end. -/
def setSideData (p : Packet) (data : PacketSideData) : Packet :=
  match p.sideDataEntries.findIdx? fun d => d.kind = data.kind with
  | some slot => { p with sideDataEntries := p.sideDataEntries.set slot data }
  | none => { p with sideDataEntries := p.sideDataEntries ++ [data] }

/-- Detach the first entry of a kind. -/
def removeSideData (p : Packet) (kind : PacketSideDataKind) : Packet :=
  match p.sideDataEntries.findIdx? fun d => d.kind = kind with
  | some at' => { p with sideDataEntries := p.sideDataEntries.eraseIdx at' }
  | none => p

/-- The exact duration in the stream's own base. -/
def durationTs (p : Packet) : Option I64 :=
  match p.sideData .durationTicks with
  | some (.durationTicks ticks) => some ticks
  | _ => none

/-- Store an exact duration; a negative one clears the value. -/
def setDurationTs (p : Packet) (ticks : I64) : Packet :=
  if 0 ≤ ticks.val then
    p.setSideData (.durationTicks ticks)
  else
    p.removeSideData .durationTicks

def rescaleTs (p : Packet) (src dst : TimeBase) (rounding : Rounding) : Packet :=
  let p := { p with
    pts := p.pts.rescale src dst rounding
    dts := p.dts.rescale src dst rounding }
  match p.durationTs with
  | none => p
  | some ticks =>
      match Timestamp.rescale (some ticks) src dst rounding with
      | none => p
      | some scaled => p.setDurationTs scaled

/-! ## Frame lemmas -/

variable (p : Packet) (ticks : I64) (src dst : TimeBase) (rounding : Rounding)

theorem setDurationTs_eq :
    ∃ entries, p.setDurationTs ticks = { p with sideDataEntries := entries } := by
  unfold setDurationTs setSideData removeSideData
  split
  · split <;> exact ⟨_, rfl⟩
  · split
    · exact ⟨_, rfl⟩
    · exact ⟨p.sideDataEntries, rfl⟩

theorem rescaleTs_eq :
    ∃ entries, p.rescaleTs src dst rounding =
      { p with
        pts := p.pts.rescale src dst rounding
        dts := p.dts.rescale src dst rounding
        sideDataEntries := entries } := by
  unfold rescaleTs
  dsimp only
  split
  · exact ⟨p.sideDataEntries, rfl⟩
  · split
    · exact ⟨p.sideDataEntries, rfl⟩
    · rename_i scaled _
      rcases setDurationTs_eq { p with
        pts := p.pts.rescale src dst rounding
        dts := p.dts.rescale src dst rounding } scaled with ⟨entries, h⟩
      exact ⟨entries, h⟩

@[simp]
theorem rescaleTs_pts : (p.rescaleTs src dst rounding).pts = p.pts.rescale src dst rounding := by
  rcases rescaleTs_eq p src dst rounding with ⟨entries, h⟩
  rw [h]

@[simp]
theorem rescaleTs_dts : (p.rescaleTs src dst rounding).dts = p.dts.rescale src dst rounding := by
  rcases rescaleTs_eq p src dst rounding with ⟨entries, h⟩
  rw [h]

@[simp]
theorem rescaleTs_streamIndex : (p.rescaleTs src dst rounding).streamIndex = p.streamIndex := by
  rcases rescaleTs_eq p src dst rounding with ⟨entries, h⟩
  rw [h]

@[simp]
theorem rescaleTs_duration : (p.rescaleTs src dst rounding).duration = p.duration := by
  rcases rescaleTs_eq p src dst rounding with ⟨entries, h⟩
  rw [h]

end Packet

end Core
end Vaco
