import Vaco.Bitstream.AnnexB
import Vaco.Bitstream.Escaping
import Vaco.Bitstream.Scanner
import Vaco.Core.Packet

/-!
# Access units of a byte stream

The parser keeps the access unit that it assembles in one buffer, with the NAL unit whose end has
not arrived at the back.  Where the next start code ends a NAL unit, its header and what is known
of the parameter sets decide whether it begins an access unit; if so, everything before it is cut
off the front and queued.  The front of the buffer is a cursor, and the scanner keeps a mark of
its own, so every cut moves three offsets.

How parameter sets, messages and slice headers are parsed is a parameter of the model.

Main results:

- `H264Parser.advance`: scan the buffer, and queue every access unit that it completes.

Current gaps:

- The budget of the parser and the samples of containers are left out.
- The description of the stream that the parser reports is left out; no boundary depends on it.
-/

namespace Vaco
namespace H264

open Library BitStream Bitstream Vaco.Core

/-! ## NAL units -/

/-- What a NAL unit holds. -/
inductive H264NalUnitType where
  | unspecified
  | nonIdrSlice
  | slicePartitionA
  | slicePartitionB
  | slicePartitionC
  | idrSlice
  | sei
  | sps
  | pps
  | accessUnitDelimiter
  | endOfSequence
  | endOfStream
  | filler
  | spsExtension
  | prefixUnit
  | subsetSps
  | depthParameterSet
  | auxiliarySlice
  | sliceExtension
  | sliceExtensionDepth
  | reserved (v : Nat)
  | unspecifiedHigh (v : Nat)
deriving DecidableEq

namespace H264NalUnitType

/-- The type of a number. -/
def fromU8 : Nat → H264NalUnitType
  | 0 => .unspecified
  | 1 => .nonIdrSlice
  | 2 => .slicePartitionA
  | 3 => .slicePartitionB
  | 4 => .slicePartitionC
  | 5 => .idrSlice
  | 6 => .sei
  | 7 => .sps
  | 8 => .pps
  | 9 => .accessUnitDelimiter
  | 10 => .endOfSequence
  | 11 => .endOfStream
  | 12 => .filler
  | 13 => .spsExtension
  | 14 => .prefixUnit
  | 15 => .subsetSps
  | 16 => .depthParameterSet
  | 19 => .auxiliarySlice
  | 20 => .sliceExtension
  | 21 => .sliceExtensionDepth
  | v => if v = 17 ∨ v = 18 ∨ v = 22 ∨ v = 23 then .reserved v else .unspecifiedHigh v

/-- Whether a unit carries slice data of the primary picture. -/
def isVcl : H264NalUnitType → Bool
  | .nonIdrSlice | .slicePartitionA | .slicePartitionB | .slicePartitionC | .idrSlice => true
  | _ => false

/-- Whether a unit begins with a slice header. -/
def hasSliceHeader : H264NalUnitType → Bool
  | .nonIdrSlice | .slicePartitionA | .idrSlice => true
  | .auxiliarySlice | .sliceExtension | .sliceExtensionDepth => true
  | _ => false

/-- Whether a unit belongs to an IDR picture. -/
def isIdr : H264NalUnitType → Bool
  | .idrSlice => true
  | _ => false

end H264NalUnitType

/-- The header of a NAL unit. -/
structure H264NalHeader where
  forbiddenZeroBit : Bool
  nalRefIdc : BitVec 8
  nalUnitType : H264NalUnitType
deriving DecidableEq

namespace H264NalHeader

/-- Decode the first byte of a NAL unit. -/
def parse : Bytes → Option H264NalHeader
  | [] => none
  | b :: _ => some {
      forbiddenZeroBit := b &&& 0x80 != 0
      nalRefIdc := (b >>> 5) &&& 0x03
      nalUnitType := .fromU8 (b &&& 0x1F).toNat }

/-- Whether a unit belongs to an IDR picture. -/
def isIdr (h : H264NalHeader) : Bool :=
  h.nalUnitType.isIdr

/-- Whether a unit is used for reference. -/
def isReference (h : H264NalHeader) : Bool :=
  h.nalRefIdc != 0

end H264NalHeader

/-! ## What is parsed of a unit -/

/-- The parsing of parameter sets, messages and slice headers, and the parameter sets that are
known. -/
structure NalSyntax where
  Sets : Type
  Sps : Type
  Slice : Type
  Poc : Type
  Count : Type
  Hint : Type
  noSets : Sets
  addSps : Bytes → Sets → Sets
  addPps : Bytes → Sets → Sets
  addSpsExtension : Bytes → Sets → Sets
  readSeiHint : Bytes → Sets → Option Hint
  readSliceHeader : Bytes → Sets → Option Slice
  activate : Slice → Sets → Sets
  spsForPps : Sets → Slice → Option Sps
  startsNewPicture : Slice → Slice → Sps → Bool
  startPoc : Poc
  advancePoc : Poc → Sps → Slice → Poc × Count
  noCount : Count
  sliceIsIdr : Slice → Bool
  sliceIsReference : Slice → Bool
  pictureType : Slice → Char

variable {S : NalSyntax}

/-- What the parser learned about the picture it just saw. -/
structure PictureInfo (S : NalSyntax) where
  poc : S.Count
  isIdr : Bool
  isReference : Bool
  pictureType : Option Char
  fieldOrder : Option S.Hint

/-- What the units so far leave behind: the parameter sets, and what the access unit holds. -/
structure Pictures (S : NalSyntax) where
  sets : S.Sets
  poc : S.Poc
  auHasVcl : Bool
  auIsIdr : Bool
  prevSlice : Option S.Slice
  auPicStruct : Option S.Hint
  lastPicture : PictureInfo S

namespace Pictures

/-- Nothing has been seen. -/
def new : Pictures S where
  sets := S.noSets
  poc := S.startPoc
  auHasVcl := false
  auIsIdr := false
  prevSlice := none
  auPicStruct := none
  lastPicture := ⟨S.noCount, false, false, none, none⟩

/-- Another access unit begins. -/
def nextUnit (pictures : Pictures S) : Pictures S :=
  { pictures with auHasVcl := false, auIsIdr := false, auPicStruct := none }

/-- Whether a unit begins a new access unit. -/
def startsAccessUnit (pictures : Pictures S) (header : H264NalHeader) (rbsp : Bytes) : Bool :=
  match header.nalUnitType with
  | .accessUnitDelimiter | .sps | .subsetSps | .pps | .sei | .prefixUnit => pictures.auHasVcl
  | t =>
      if t.isVcl then
        if !pictures.auHasVcl then false
        else
          match pictures.prevSlice with
          | none => true
          | some prev =>
              match S.readSliceHeader rbsp pictures.sets with
              | none => true
              | some next =>
                  match S.spsForPps pictures.sets next with
                  | some sps => S.startsNewPicture next prev sps
                  | none => true
      else
        false

/-- Record what the first slice of a picture says. -/
def beginPicture (pictures : Pictures S) (header : H264NalHeader) (rbsp : Bytes) : Pictures S :=
  match S.readSliceHeader rbsp pictures.sets with
  | none =>
      { pictures with
        lastPicture := ⟨S.noCount, header.isIdr, header.isReference, none, none⟩ }
  | some h =>
      let sets := S.activate h pictures.sets
      let poc :=
        match S.spsForPps sets h with
        | some sps => S.advancePoc pictures.poc sps h
        | none => (pictures.poc, S.noCount)
      { pictures with
        sets := sets
        poc := poc.1
        lastPicture := ⟨poc.2, S.sliceIsIdr h, S.sliceIsReference h, some (S.pictureType h),
          pictures.auPicStruct⟩
        prevSlice := some h }

/-- Fold a unit into what is known. -/
def applyNal (pictures : Pictures S) (header : H264NalHeader) (rbsp : Bytes) : Pictures S :=
  match header.nalUnitType with
  | .sps | .subsetSps => { pictures with sets := S.addSps rbsp pictures.sets }
  | .pps => { pictures with sets := S.addPps rbsp pictures.sets }
  | .spsExtension => { pictures with sets := S.addSpsExtension rbsp pictures.sets }
  | .sei =>
      match S.readSeiHint rbsp pictures.sets with
      | some hint => { pictures with auPicStruct := some hint }
      | none => pictures
  | t =>
      if t.isVcl then
        let begun :=
          if !pictures.auHasVcl && t.hasSliceHeader then pictures.beginPicture header rbsp
          else pictures
        { begun with auHasVcl := true, auIsIdr := begun.auIsIdr || header.isIdr }
      else
        pictures

end Pictures

/-! ## The buffer -/

structure AccessUnit where
  payload : Bytes
  key : Bool
deriving DecidableEq

/-- Where the NAL unit that is being assembled lies: its start code and its payload. -/
structure NalPos where
  framedStart : Nat
  payloadStart : Nat
deriving DecidableEq

/-- A position after bytes have been taken off the front. -/
def NalPos.shift (n : Nat) (pos : NalPos) : NalPos where
  framedStart := pos.framedStart - n
  payloadStart := pos.payloadStart - n

/-- A parser: `au` is the buffer, of which the bytes from `auBase` on are live. -/
structure H264Parser (S : NalSyntax) where
  au : Bytes
  auBase : Nat
  scanner : Scanner
  nal : Option NalPos
  pictures : Pictures S
  ready : List AccessUnit
  eosTailDone : Bool
  maxAccessUnit : Nat

namespace H264Parser

/-- A parser that has seen nothing. -/
def new (maxAccessUnit : Nat) : H264Parser S where
  au := []
  auBase := 0
  scanner := .new
  nal := none
  pictures := .new
  ready := []
  eosTailDone := false
  maxAccessUnit := maxAccessUnit

variable (p : H264Parser S)

/-- The part of the buffer that has not been handed out yet. -/
def live : Bytes :=
  p.au.drop p.auBase

/-- Where the payload of the unit begins that is being assembled. -/
def floor : Nat :=
  (p.nal.map NalPos.payloadStart).getD 0

/-- Drop bytes from the front, and move every offset with it. -/
def dropFront (n : Nat) : H264Parser S :=
  let n := min n p.live.length
  if n = 0 then p
  else
    let p : H264Parser S := { p with
      auBase := p.auBase + n
      scanner := p.scanner.consume n
      nal := p.nal.map (NalPos.shift n) }
    if p.au.length ≤ p.auBase * 2 then { p with au := p.au.drop p.auBase, auBase := 0 } else p

def takeAccessUnit (upto : Nat) : Option AccessUnit × H264Parser S :=
  let upto := min upto p.live.length
  let packet := if upto = 0 then none else some ⟨p.live.take upto, p.pictures.auIsIdr⟩
  let p := p.dropFront upto
  (packet, { p with pictures := p.pictures.nextUnit })

/-- Append bytes to the buffer. -/
def appendInput (input : Bytes) : Except Error (H264Parser S) :=
  let wouldBe := p.live.length + input.length
  if p.maxAccessUnit < wouldBe then
    .error (.limitExceeded "h264_access_unit" wouldBe p.maxAccessUnit)
  else
    .ok { p with au := p.au ++ input }

/-- Handle the unit that a start code has just ended. -/
def completeNal (pos : NalPos) (sc : StartCode) : Option AccessUnit × H264Parser S :=
  let payload := trimTrailingZeros ((p.live.take sc.offset).drop pos.payloadStart)
  -- No bytes are left of two start codes next to each other.
  match H264NalHeader.parse payload with
  | none => (none, { p with nal := some ⟨sc.offset, sc.offset + sc.len⟩ })
  | some header =>
      let rbsp := toRbsp payload
      let boundary := p.pictures.startsAccessUnit header rbsp
      let shift := if boundary then pos.framedStart else 0
      let taken := if boundary then p.takeAccessUnit shift else (none, p)
      (taken.1, { taken.2 with
        pictures := taken.2.pictures.applyNal header rbsp
        nal := some ⟨sc.offset - shift, sc.offset + sc.len - shift⟩ })

/-- Look for the next start code. -/
def scan : Option StartCode × H264Parser S :=
  let found := p.scanner.find p.live p.floor
  (found.1, { p with scanner := found.2 })

/-- Nothing was found: before the first start code all but three bytes are dropped. -/
def settle : H264Parser S :=
  match p.nal with
  | none => p.dropFront (p.live.length - 3)
  | some _ => p

/-- A start code was found: it is the first one, or it ends a unit. -/
def enter (sc : StartCode) : H264Parser S :=
  match p.nal with
  | none => { p.dropFront sc.offset with nal := some ⟨0, sc.len⟩ }
  | some pos =>
      let completed := p.completeNal pos sc
      { completed.2 with ready := completed.2.ready ++ completed.1.toList }

/-- What is left to scan. -/
def remaining : Nat :=
  p.live.length - p.floor

/-! ## Dropping -/

variable {p} {p' : H264Parser S}

/-- A number of live bytes are dropped, every offset is moved with them, and nothing else
happens. -/
structure Dropped (p p' : H264Parser S) (n : Nat) : Prop where
  live : p'.live = p.live.drop n
  nal : p'.nal = p.nal.map (NalPos.shift n)
  scanner : p'.scanner = p.scanner.consume n
  pictures : p'.pictures = p.pictures
  ready : p'.ready = p.ready
  eosTailDone : p'.eosTailDone = p.eosTailDone
  maxAccessUnit : p'.maxAccessUnit = p.maxAccessUnit
  auBase : p.auBase ≤ p.au.length → p'.auBase ≤ p'.au.length

theorem dropped_dropFront (n : Nat) : Dropped p (p.dropFront n) (min n p.live.length) := by
  unfold dropFront
  dsimp only
  split
  · rename_i hzero
    rw [hzero]
    exact ⟨rfl, by cases p.nal <;> rfl, rfl, rfl, rfl, rfl, rfl, id⟩
  · have hdrop : p.au.drop (p.auBase + min n p.live.length) =
        p.live.drop (min n p.live.length) := by
      rw [← List.drop_drop]
      rfl
    have hlength : p.live.length = p.au.length - p.auBase := List.length_drop
    split
    · exact ⟨hdrop, rfl, rfl, rfl, rfl, rfl, rfl, fun _ => Nat.zero_le _⟩
    · exact ⟨hdrop, rfl, rfl, rfl, rfl, rfl, rfl, fun _ => by dsimp only; omega⟩

theorem live_takeAccessUnit (upto : Nat) :
    (p.takeAccessUnit upto).2.live = p.live.drop (min upto p.live.length) := by
  have hdropped := (dropped_dropFront (p := p) (min upto p.live.length)).live
  rwa [min_eq_left (min_le_right _ _)] at hdropped

theorem remaining_completeNal (pos : NalPos) (sc : StartCode) :
    (p.completeNal pos sc).2.remaining ≤ p.live.length - sc.payloadOffset := by
  unfold completeNal
  dsimp only
  split
  · exact le_rfl
  · generalize p.pictures.startsAccessUnit _ _ = boundary
    cases boundary with
    | false => exact le_rfl
    | true =>
      have hlive := live_takeAccessUnit (p := p) pos.framedStart
      show (p.takeAccessUnit pos.framedStart).2.live.length -
        (sc.offset + sc.len - pos.framedStart) ≤ _
      rw [hlive, List.length_drop]
      unfold StartCode.payloadOffset
      omega

/-- Every start code leaves less to scan. -/
theorem remaining_enter {sc : StartCode} (h : p.scan.1 = some sc) :
    (p.scan.2.enter sc).remaining < p.remaining := by
  rcases Scanner.find_bounds h with ⟨hwithin, hfloor⟩
  have hless : p.live.length - sc.payloadOffset < p.remaining := by
    unfold remaining
    omega
  refine lt_of_le_of_lt ?_ hless
  unfold enter
  split
  · have hlive := (dropped_dropFront (p := p.scan.2) sc.offset).live
    show (p.scan.2.dropFront sc.offset).live.length - sc.len ≤ _
    rw [hlive, List.length_drop]
    show p.live.length - min sc.offset p.live.length - sc.len ≤ _
    unfold StartCode.payloadOffset at hwithin ⊢
    omega
  · exact remaining_completeNal (p := p.scan.2) _ sc

variable (p)

/-- Scan for boundaries until nothing is found. -/
def advance (p : H264Parser S) : H264Parser S :=
  match _h : p.scan.1 with
  | none => p.scan.2.settle
  | some sc => advance (p.scan.2.enter sc)
termination_by p.remaining
decreasing_by exact remaining_enter (by assumption)

/-- Handle the last unit, which no start code ends. -/
def finishTail : Option AccessUnit × H264Parser S :=
  match p.nal with
  | none => (none, p)
  | some pos =>
      let payload := trimTrailingZeros (p.live.drop pos.payloadStart)
      match H264NalHeader.parse payload with
      | none => (none, p)
      | some header =>
          let rbsp := toRbsp payload
          if p.pictures.startsAccessUnit header rbsp then
            let taken := p.takeAccessUnit pos.framedStart
            (taken.1, { taken.2 with
              pictures := taken.2.pictures.applyNal header rbsp
              nal := some ⟨0, pos.payloadStart - pos.framedStart⟩ })
          else
            (none, { p with pictures := p.pictures.applyNal header rbsp })

/-- Hand out what is queued, then what the last unit completes, then the rest. -/
def finishStream : Option AccessUnit × H264Parser S :=
  let p := p.advance
  match p.ready with
  | packet :: ready => (some packet, { p with ready := ready })
  | [] =>
      if p.eosTailDone then p.takeAccessUnit p.live.length
      else
        let tail := { p with eosTailDone := true }.finishTail
        match tail.1 with
        | some packet => (some packet, tail.2)
        | none => tail.2.takeAccessUnit tail.2.live.length

/-- Take bytes, or none at the end: a unit, if any, and how many bytes are taken. -/
def parse (p : H264Parser S) (input : Bytes) :
    Except Error ((Option AccessUnit × Nat) × H264Parser S) :=
  if input.isEmpty then
    .ok ((p.finishStream.1, 0), p.finishStream.2)
  else
    match p.ready with
    | packet :: ready => .ok ((some packet, 0), { p with ready := ready })
    | [] =>
        match p.appendInput input with
        | .error e => .error e
        | .ok p =>
            let p := p.advance
            .ok ((p.ready.head?, input.length), { p with ready := p.ready.tail })

end H264Parser

end H264
end Vaco
