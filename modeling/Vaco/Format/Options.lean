import Vaco.Core.Time

/-!
# Container flags and format-level options

The declarations a container makes about itself and the option values that the
timestamp rules, the wraparound state and the interleave queue read.

Main results:

- `AvoidNegativeTs.resolve`: the policy that a container's flags settle on.

Current gaps:

- Options that no rule modelled here reads are left out of
  `FormatOptions`.
-/

namespace Vaco
namespace Format

open Library Vaco.Core

/-- Container-level capability declarations. -/
structure FormatFlags where
  bits : BitVec 32
deriving DecidableEq

namespace FormatFlags

/-- Carries no timestamps at all. -/
def NOTIMESTAMPS : FormatFlags := ⟨1#32 <<< 5⟩

/-- Timestamps may jump legitimately. -/
def TS_DISCONT : FormatFlags := ⟨1#32 <<< 7⟩

/-- Non-decreasing decode times are acceptable. -/
def TS_NONSTRICT : FormatFlags := ⟨1#32 <<< 14⟩

/-- Negative timestamps are representable. -/
def TS_NEGATIVE : FormatFlags := ⟨1#32 <<< 15⟩

/-- Whether every flag of `other` is set. -/
def contains (self other : FormatFlags) : Bool :=
  self.bits &&& other.bits == other.bits

/-- Whether decode times must be strictly increasing on the mux side. -/
def requiresStrictDts (self : FormatFlags) : Bool :=
  !self.contains TS_NONSTRICT

end FormatFlags

/-- Format-layer behaviour switches. -/
structure FFlags where
  bits : BitVec 64
deriving DecidableEq

namespace FFlags

/-- Generate presentation times. -/
def GENPTS : FFlags := ⟨1#64 <<< 2⟩

/-- Do not fill in missing values that can be exactly calculated. -/
def NOFILLIN : FFlags := ⟨1#64 <<< 3⟩

/-- Ignore decode times. -/
def IGNDTS : FFlags := ⟨1#64 <<< 5⟩

/-- Add needed bitstream filters automatically. -/
def AUTOBSF : FFlags := ⟨1#64 <<< 11⟩

/-- Whether every flag of `other` is set. -/
def contains (self other : FFlags) : Bool :=
  self.bits &&& other.bits == other.bits

end FFlags

inductive AvoidNegativeTs where
  | disabled
  | makeNonNegative
  | makeZero
deriving DecidableEq

/-- Resolve the option value against the muxer's flags. -/
def AvoidNegativeTs.resolve (value : I32) (tsNegativeOk : Bool) : AvoidNegativeTs :=
  match value.val with
  | 0 => .disabled
  | 1 => .makeNonNegative
  | 2 => .makeZero
  | _ => if tsNegativeOk then .disabled else .makeNonNegative

/-- The options that the timestamp model reads, with the defaults of the table. -/
structure FormatOptions where
  fflags : FFlags := FFlags.AUTOBSF
  audioPreload : I32 := .lit 0
  chunkDuration : I32 := .lit 0
  chunkSize : I32 := .lit 0
  correctTsOverflow : Bool := true
  outputTsOffset : Duration := Duration.ZERO
  maxInterleaveDelta : I64 := .lit 10000000
  avoidNegativeTs : I32 := .lit (-1)

namespace FormatOptions

/-- The default option set. -/
def default : FormatOptions := {}

/-- Whether the timestamp-generation rules are enabled. -/
def fillsInTimestamps (opts : FormatOptions) : Bool :=
  !opts.fflags.contains FFlags.NOFILLIN

end FormatOptions

end Format
end Vaco
