import Vaco.Core.Packet

/-!
# The writer that muxers are handed

A muxer appends to a sink.  Buffering is invisible from outside: the sink holds what was written,
at the positions it was written to.

Main results:

- `IoWriter.write_append`: a write at the end appends.
-/

namespace Vaco
namespace Core

/-- What a writer's sink holds, where the next byte lands and whether the sink can seek. -/
structure IoWriter where
  bytes : List Byte
  pos : Nat
  isSeekable : Bool
deriving DecidableEq, Repr

namespace IoWriter

/-- Bytes with others written over them from a position on, zeros filling a gap before it. -/
def overwrite (bytes : List Byte) (pos : Nat) (data : List Byte) : List Byte :=
  (bytes ++ List.replicate (pos - bytes.length) 0).take pos ++ data ++
    bytes.drop (pos + data.length)

/-- Write `data` at the current position. -/
def write (out : IoWriter) (data : List Byte) : IoWriter :=
  { out with
    bytes := overwrite out.bytes out.pos data
    pos := out.pos + data.length }

/-- A writer at the end of its sink, with the bytes it holds. -/
def ofBytes (bytes : List Byte) (isSeekable : Bool) : IoWriter :=
  { bytes := bytes
    pos := bytes.length
    isSeekable := isSeekable }

theorem overwrite_end (bytes data : List Byte) :
    overwrite bytes bytes.length data = bytes ++ data := by
  rw [overwrite, Nat.sub_self, List.replicate_zero, List.append_nil, List.take_length,
    List.drop_eq_nil_of_le (Nat.le_add_right _ _), List.append_nil]

/-- A write at the end appends. -/
@[simp]
theorem write_append (bytes data : List Byte) (isSeekable : Bool) :
    (ofBytes bytes isSeekable).write data = ofBytes (bytes ++ data) isSeekable := by
  rw [write, ofBytes, ofBytes, mk.injEq]
  exact ⟨overwrite_end bytes data, (List.length_append).symm, rfl⟩

end IoWriter

end Core
end Vaco
