import Vaco.Core.Rational
import Vaco.Ogg.Page

/-!
# Granule positions as timestamps

The granule position of a page states where a stream stands behind the last packet that ends on
the page.  A timeline gives each packet a start and a duration.  The durations come from the
mapping, from a parser, or from the page's share by the length of the packet, and the last packet
of a page takes up what is left to the position that the page states.

Main results:

- `GranuleTimeline.assign`: start and duration of the packets of one page.

Current gaps:

- A mapping is given, and not read from an identification header.
- A packet that the budget refuses is stamped as any other.
-/

namespace Vaco
namespace Ogg

open Library BitStream
open Vaco.Core (Rational)

/-- How the granule position of a stream is read. -/
inductive GranuleMapping where
  | sampleCount
  | opus (preSkip : Nat)
  | vorbis (nominal : I64)
  | speex (samplesPerPacket : I64)
  | theora (granuleShift : Nat)
deriving DecidableEq

namespace GranuleMapping

/-- The position that a granule denotes, unless it is unset. -/
def timestamp (m : GranuleMapping) (granule : I64) : Option I64 :=
  if granule = granuleUnset then
    none
  else
    some <|
      match m with
      | sampleCount | vorbis _ | speex _ => granule
      | opus preSkip => clampI64 (granule.val - preSkip)
      | theora granuleShift =>
          let shift := min granuleShift 62
          let g := max granule.val 0
          clampI64 (g / 2 ^ shift + g % 2 ^ shift)

/-- The position before the first packet of a stream. -/
def initialCursor : GranuleMapping → I64
  | opus preSkip => clampI64 (-preSkip)
  | vorbis nominal => clampI64 (-nominal.val)
  | sampleCount | speex _ | theora _ => clampI64 0

def fixedDuration : GranuleMapping → Option I64
  | vorbis nominal => some nominal
  | speex samplesPerPacket => some samplesPerPacket
  | theora _ => some (clampI64 1)
  | sampleCount | opus _ => none

end GranuleMapping

/-! ## The timeline -/

/-- The position that the next packet of a stream starts at, once there has been one. -/
structure GranuleTimeline where
  cursor : I64
  started : Bool
deriving DecidableEq

namespace GranuleTimeline

/-- A timeline that has not seen a packet. -/
def new : GranuleTimeline where
  cursor := clampI64 0
  started := false

/-- The position that the next packet will start at. -/
def plannedCursor (tl : GranuleTimeline) (m : GranuleMapping) : I64 :=
  if tl.started then tl.cursor else m.initialCursor

/-- Packets of given durations from a position on: the position behind them, and their starts
and durations. -/
def advance : I64 → List I64 → I64 × List (I64 × I64)
  | cursor, [] => (cursor, [])
  | cursor, d :: rest =>
      let d := max d (clampI64 0)
      let later := advance (cursor.saturatingAdd d) rest
      (later.1, (cursor, d) :: later.2)

/-- The last packet made to end at a position, or to have no duration where it starts beyond. -/
def snap (target : I64) (walked : I64 × List (I64 × I64)) : I64 × List (I64 × I64) :=
  match walked.2.getLast? with
  | none => walked
  | some last =>
      let startOfLast := walked.1.saturatingSub last.2
      (max target startOfLast,
        walked.2.dropLast ++ [(last.1, max (target.saturatingSub startOfLast) (clampI64 0))])

/-- Start and duration of the packets that complete on one page. -/
def assign (tl : GranuleTimeline) (m : GranuleMapping) (pageGranule : I64)
    (nominalDurations : List I64) : GranuleTimeline × List (I64 × I64) :=
  let walked := advance (tl.plannedCursor m) nominalDurations
  let stamped :=
    match m.timestamp pageGranule with
    | none => walked
    | some target => snap target walked
  (⟨stamped.1, true⟩, stamped.2)

end GranuleTimeline

/-! ## The pages of a stream -/

/-- The mapping of a stream, the durations that a parser reads from packets, and its time base. -/
structure StreamTiming where
  mapping : GranuleMapping
  parser : Option (Bytes → Option Rational)
  timeBase : Rational

structure CompletedPage where
  granule : I64
  packets : List Bytes
deriving DecidableEq

namespace StreamTiming

def nominalDuration (s : StreamTiming) (payload : Bytes) : Option I64 :=
  match s.mapping.fixedDuration with
  | some fixed => some fixed
  | none => do
      let parser ← s.parser
      let r ← parser payload
      let num := r.num.val * s.timeBase.den.val
      let den := r.den.val * s.timeBase.num.val
      if r.isDefined = false ∨ s.timeBase.num.val = 0 ∨ den = 0 then
        none
      else
        let half := |den| / 2
        let ticks := (|num| + half) / |den|
        toI64? (if (0 ≤ num) = (0 ≤ den) then ticks else -ticks)

/-- The length of a packet as a signed word. -/
def lenI64 (b : Bytes) : I64 :=
  clampI64 b.length

/-- The length of some packets together. -/
def totalBytes (packets : List Bytes) : Int :=
  (packets.map fun b => (lenI64 b).val).sum

/-- The share of a packet in what a page moves its stream on. -/
def fallbackTicks (delta : I64) (packets : List Bytes) (b : Bytes) : I64 :=
  if totalBytes packets ≤ 0 then
    max (clampI64 (delta.val.tdiv (max packets.length 1 : Nat))) (clampI64 0)
  else
    max (clampI64 ((delta.saturatingMul (lenI64 b)).val.tdiv (totalBytes packets))) (clampI64 0)

/-- The durations that the packets of a page are taken to have before the last one is snapped. -/
def pageDurations (s : StreamTiming) (planned : I64) (page : CompletedPage) : List I64 :=
  page.packets.map fun b =>
    (s.nominalDuration b).getD <|
      match s.mapping.timestamp page.granule with
      | none => clampI64 0
      | some target => fallbackTicks (target.saturatingSub planned) page.packets b

def stampPage (s : StreamTiming) (tl : GranuleTimeline) (page : CompletedPage) :
    GranuleTimeline × List (I64 × I64) :=
  if page.packets = [] then
    (tl, [])
  else
    tl.assign s.mapping page.granule (s.pageDurations (tl.plannedCursor s.mapping) page)

/-- Start and duration of the data packets of some pages, one page behind another. -/
def stampPages (s : StreamTiming) :
    GranuleTimeline → List CompletedPage → GranuleTimeline × List (I64 × I64)
  | tl, [] => (tl, [])
  | tl, page :: rest =>
      let later := s.stampPages (s.stampPage tl page).1 rest
      (later.1, (s.stampPage tl page).2 ++ later.2)

end StreamTiming

end Ogg
end Vaco
