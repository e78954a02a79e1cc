import Vaco.Codec.VideoFrame
import Vaco.Library.ByteWords

/-!
# The QOI codec

An image is a header, chunks for its pixels row by row, and an end marker.  Both sides keep the
previous pixel and a table of 64 pixels that were seen; a chunk names a place of the table, a
difference from the previous pixel, a run of it, or the pixel itself.

Main results:

- `encode`: the bytes of an image.
- `decode`: the image of some bytes; `decodeReader` also gives the place where it stopped.
-/

namespace Vaco
namespace Qoi

open Library Region Vaco.Core Vaco.Codec

/-- The first bytes of an image. -/
def magic : List Byte :=
  [0x71, 0x6F, 0x69, 0x66]

/-- The last bytes of an image. -/
def endMarker : List Byte :=
  [0, 0, 0, 0, 0, 0, 0, 1]

/-- The longest run of one chunk. -/
def runMax : Nat := 62

/-! ## Pixels and the table -/

/-- A pixel. -/
structure Px where
  r : Byte
  g : Byte
  b : Byte
  a : Byte
deriving DecidableEq

/-- The pixel before the first one. -/
def startPixel : Px :=
  ⟨0, 0, 0, 255⟩

/-- The place of a pixel in the table. -/
def hash (px : Px) : Nat :=
  (px.r.toNat * 3 + px.g.toNat * 5 + px.b.toNat * 7 + px.a.toNat * 11) % 64

/-- The bytes of a pixel in a plane. -/
def Px.bytes (px : Px) (bpp : Nat) : List Byte :=
  if bpp = 4 then [px.r, px.g, px.b, px.a] else [px.r, px.g, px.b]

/-- The pixel of some bytes. -/
def Px.ofSample (channels : Nat) (sample : List Byte) : Except Error Px :=
  if channels = 4 then
    match sample with
    | [r, g, b, a] => .ok ⟨r, g, b, a⟩
    | _ => .error (.invalidData "qoi: short pixel")
  else
    match sample with
    | [r, g, b] => .ok ⟨r, g, b, 255⟩
    | _ => .error (.invalidData "qoi: short pixel")

/-- The pixels that were seen, each at its place. -/
structure Table where
  slots : List Px
  length_eq : slots.length = 64
deriving DecidableEq

namespace Table

/-- No pixel was seen. -/
def new : Table where
  slots := List.replicate 64 ⟨0, 0, 0, 0⟩
  length_eq := List.length_replicate

/-- The pixel at a place. -/
def get (t : Table) (i : Nat) : Px :=
  t.slots.getD i ⟨0, 0, 0, 0⟩

/-- Put a pixel at a place. -/
def set (t : Table) (i : Nat) (px : Px) : Table where
  slots := t.slots.set i px
  length_eq := List.length_set.trans t.length_eq

end Table

/-! ## Places in a plane -/

/-- The rows and columns of an image in order. -/
def positions (width height : Nat) : List (Nat × Nat) :=
  (List.range height).flatMap fun y => (List.range width).map fun x => (y, x)

/-- The offset of a pixel, which saturates. -/
def pixelOffset (stride bpp : Nat) (pos : Nat × Nat) : Nat :=
  satAddU64 (min (pos.1 * stride) u64Max) (min (pos.2 * bpp) u64Max)

/-- Put the bytes of a pixel into a plane. -/
def writePixel (buf : List Byte) (offset : Nat) (bytes : List Byte) : Except Error (List Byte) :=
  match writeBlock buf offset bytes with
  | some buf => .ok buf
  | none => .error (.invalidData "qoi: pixel write out of bounds")

/-- The bytes of a pixel in a plane. -/
def readPixel (buf : List Byte) (offset n : Nat) : Except Error (List Byte) :=
  match readBlock buf offset n with
  | some bytes => .ok bytes
  | none => .error (.invalidData "qoi: pixel read out of bounds")

/-! ## Reading -/

/-- A cursor over some bytes. -/
structure Reader where
  data : List Byte
  pos : Nat
deriving DecidableEq

namespace Reader

/-- A cursor at the beginning. -/
def new (data : List Byte) : Reader :=
  ⟨data, 0⟩

/-- One byte. -/
def u8 (r : Reader) : Except Error (Byte × Reader) :=
  match r.data[r.pos]? with
  | some byte => .ok (byte, { r with pos := r.pos + 1 })
  | none => .error .unexpectedEof

/-- Some bytes.  An end that cannot be counted lies behind the data, too. -/
def bytes (r : Reader) (n : Nat) : Except Error (List Byte × Reader) :=
  match readBlock r.data r.pos n with
  | some out => .ok (out, { r with pos := r.pos + n })
  | none => .error .unexpectedEof

/-- A big-endian word. -/
def u32Be (r : Reader) : Except Error (BitVec 32 × Reader) :=
  (r.bytes 4).map fun (bytes, r) => (BitVec.ofNat 32 (ByteWords.beNat bytes), r)

end Reader

/-- What a header states. -/
structure Header where
  width : BitVec 32
  height : BitVec 32
  format : PixFmt
  channelBytes : Nat
deriving DecidableEq

/-- Read a header. -/
def readHeader (r : Reader) : Except Error (Header × Reader) := do
  let (first, r) ← r.bytes 4
  if first ≠ magic then
    .error (.invalidData "qoi: bad magic")
  else
    let (width, r) ← r.u32Be
    let (height, r) ← r.u32Be
    let (channels, r) ← r.u8
    let (_, r) ← r.u8
    if width = 0 ∨ height = 0 then
      .error (.invalidData "qoi: zero-sized image")
    else if channels = 3 then
      .ok (⟨width, height, .rgb24, 3⟩, r)
    else if channels = 4 then
      .ok (⟨width, height, .rgba, 4⟩, r)
    else
      .error (.invalidData "qoi: channels must be 3 or 4")

/-! ## Decoding -/

/-- What the decoder keeps from one pixel to the next. -/
structure DecodeState where
  table : Table
  prev : Px
  run : Nat
  reader : Reader
deriving DecidableEq

namespace DecodeState

/-- Nothing was decoded. -/
def new (r : Reader) : DecodeState :=
  ⟨.new, startPixel, 0, r⟩

/-- A new pixel, which is put into the table. -/
def see (s : DecodeState) (px : Px) (r : Reader) : DecodeState where
  table := s.table.set (hash px) px
  prev := px
  run := 0
  reader := r

end DecodeState

/-- The chunk of a tag; the cursor is behind the tag. -/
def decodeChunk (s : DecodeState) (tag : Byte) (r : Reader) : Except Error DecodeState :=
  if tag = 0xFE then
    match r.bytes 3 with
    | .error e => .error e
    | .ok ([nr, ng, nb], r) => .ok (s.see ⟨nr, ng, nb, s.prev.a⟩ r)
    | .ok _ => .error .unexpectedEof
  else if tag = 0xFF then
    match r.bytes 4 with
    | .error e => .error e
    | .ok ([nr, ng, nb, na], r) => .ok (s.see ⟨nr, ng, nb, na⟩ r)
    | .ok _ => .error .unexpectedEof
  else if tag >>> 6 = 0 then
    .ok (s.see (s.table.get (tag &&& 0x3F).toNat) r)
  else if tag >>> 6 = 1 then
    let dr : Int := ((tag >>> 4) &&& 0x03).toNat - 2
    let dg : Int := ((tag >>> 2) &&& 0x03).toNat - 2
    let db : Int := (tag &&& 0x03).toNat - 2
    .ok (s.see
      ⟨s.prev.r + BitVec.ofInt 8 dr, s.prev.g + BitVec.ofInt 8 dg, s.prev.b + BitVec.ofInt 8 db,
        s.prev.a⟩ r)
  else if tag >>> 6 = 2 then
    match r.u8 with
    | .error e => .error e
    | .ok (b2, r) =>
        let vg : Int := (tag &&& 0x3F).toNat - 32
        let vr : Int := vg - (8 : Int) + ((b2 >>> 4) &&& 0x0F).toNat
        let vb : Int := vg - (8 : Int) + (b2 &&& 0x0F).toNat
        .ok (s.see
          ⟨s.prev.r + BitVec.ofInt 8 vr, s.prev.g + BitVec.ofInt 8 vg,
            s.prev.b + BitVec.ofInt 8 vb, s.prev.a⟩ r)
  else
    .ok { s with
      run := (tag &&& 0x3F).toNat
      reader := r }

/-- The next pixel becomes the previous one. -/
def decodePixel (s : DecodeState) : Except Error DecodeState :=
  if 0 < s.run then
    .ok { s with run := s.run - 1 }
  else
    match s.reader.u8 with
    | .error e => .error e
    | .ok (tag, r) => decodeChunk s tag r

def decodePixels (stride bpp : Nat) :
    List (Nat × Nat) → DecodeState → List Byte → Except Error (DecodeState × List Byte)
  | [], s, buf => .ok (s, buf)
  | pos :: rest, s, buf => do
      let s ← decodePixel s
      let buf ← writePixel buf (pixelOffset stride bpp pos) (s.prev.bytes bpp)
      decodePixels stride bpp rest s buf

def decodeFrame (h : Header) (r : Reader) (frame : VideoFrame) : Except Error (VideoFrame × Reader) :=
  match frame.planes with
  | [] => .error (.invalidData "qoi: no plane 0")
  | plane :: others => do
      let (s, buf) ← decodePixels plane.stride h.channelBytes
        (positions h.width.toNat h.height.toNat) (.new r) plane.data
      let (tail, r) ← s.reader.bytes endMarker.length
      if tail ≠ endMarker then
        .error (.invalidData "qoi: missing end marker")
      else
        .ok ({ frame with planes := { plane with data := buf } :: others }, r)

/-- Decode an image, and tell where it ends. -/
def decodeReader (r : Reader) (b : VideoBudget) :
    VideoBudget × Except Error (VideoFrame × Reader) :=
  match readHeader r with
  | .error e => (b, .error e)
  | .ok (h, r) =>
      match allocVideo b h.format h.width h.height with
      | (b, .error e) => (b, .error e)
      | (b, .ok frame) => (b, decodeFrame h r frame)

/-- Decode an image. -/
def decode (data : List Byte) (b : VideoBudget) : VideoBudget × Except Error VideoFrame :=
  let out := decodeReader (.new data) b
  (out.1, out.2.map Prod.fst)

/-! ## Encoding -/

/-- What the encoder keeps from one pixel to the next. -/
structure EncodeState where
  table : Table
  prev : Px
  run : Nat
  seen : Nat
deriving DecidableEq

/-- Nothing was encoded. -/
def EncodeState.new : EncodeState :=
  ⟨.new, startPixel, 0, 0⟩

/-- The chunk of a run. -/
def runChunk (run : Nat) : Byte :=
  0xC0 ||| BitVec.ofNat 8 (run - 1)

def pixelChunk (prev px : Px) : List Byte :=
  if px.a = prev.a then
    let vr : BitVec 8 := px.r - prev.r
    let vg : BitVec 8 := px.g - prev.g
    let vb : BitVec 8 := px.b - prev.b
    let vgR := vr - vg
    let vgB := vb - vg
    if (-2 ≤ vr.toInt ∧ vr.toInt ≤ 1) ∧ (-2 ≤ vg.toInt ∧ vg.toInt ≤ 1) ∧
        (-2 ≤ vb.toInt ∧ vb.toInt ≤ 1) then
      [0x40 ||| (vr + 2) <<< 4 ||| (vg + 2) <<< 2 ||| (vb + 2)]
    else if (-32 ≤ vg.toInt ∧ vg.toInt ≤ 31) ∧ (-8 ≤ vgR.toInt ∧ vgR.toInt ≤ 7) ∧
        (-8 ≤ vgB.toInt ∧ vgB.toInt ≤ 7) then
      [0x80 ||| (vg + 32), (vgR + 8) <<< 4 ||| (vgB + 8)]
    else
      [0xFE, px.r, px.g, px.b]
  else
    [0xFF, px.r, px.g, px.b, px.a]

/-- The chunks that a pixel completes. -/
def encodePixel (total : Nat) (s : EncodeState) (px : Px) : EncodeState × List Byte :=
  let s := { s with seen := s.seen + 1 }
  if px = s.prev then
    let run := s.run + 1
    if run = runMax ∨ s.seen = total then
      ({ s with run := 0 }, [runChunk run])
    else
      ({ s with run := run }, [])
  else
    let flushed := if 0 < s.run then [runChunk s.run] else []
    let idx := hash px
    if s.table.get idx = px then
      ({ s with
        prev := px
        run := 0 }, flushed ++ [BitVec.ofNat 8 idx])
    else
      ({ s with
        table := s.table.set idx px
        prev := px
        run := 0 }, flushed ++ pixelChunk s.prev px)

/-- The chunks of the pixels of some positions. -/
def encodePixels (plane : Plane) (channels bpp total : Nat) :
    List (Nat × Nat) → EncodeState → Except Error (List Byte)
  | [], _ => .ok []
  | pos :: rest, s => do
      let sample ← readPixel plane.data (pixelOffset plane.stride bpp pos) bpp
      let px ← Px.ofSample channels sample
      let bytes ← encodePixels plane channels bpp total rest (encodePixel total s px).1
      .ok ((encodePixel total s px).2 ++ bytes)

/-- The header of an image. -/
def headerBytes (width height : BitVec 32) (channels : Nat) : List Byte :=
  magic ++ ByteWords.beBytes 4 width.toNat ++ ByteWords.beBytes 4 height.toNat ++
    [BitVec.ofNat 8 channels, 0]

/-- Encode the first plane of an image. -/
def encodeChannels (frame : VideoFrame) (channels bpp : Nat) : Except Error (List Byte) :=
  if frame.width = 0 ∨ frame.height = 0 then
    .error (.invalidData "qoi: zero-sized image")
  else
    match frame.planes with
    | [] => .error (.invalidData "qoi: no plane 0")
    | plane :: _ => do
        let bytes ← encodePixels plane channels bpp (frame.width.toNat * frame.height.toNat)
          (positions frame.width.toNat frame.height.toNat) .new
        .ok (headerBytes frame.width frame.height channels ++ bytes ++ endMarker)

/-- Encode an image. -/
def encode (frame : VideoFrame) : Except Error (List Byte) :=
  match frame.format with
  | .rgb24 => encodeChannels frame 3 3
  | .rgba => encodeChannels frame 4 4
  | _ => .error (.unsupported "qoi: encoder needs rgb24 or rgba input")

end Qoi
end Vaco
