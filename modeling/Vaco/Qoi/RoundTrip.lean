import Vaco.Qoi.Chunks

/-!
# QOI images come back

The encoder walks over the pixels of a plane, the decoder over the chunks; after every pixel both
have the same table and the same previous pixel.  The decoder's plane has a stride of its own, so
its pixels lie apart and each is what was written there.

Main results:

- `Agree.steps`: both sides agree after every pixel.
- `Agree.pixels`: the decoder's plane holds the pixels.
- `decode_encode`: an image that is encoded is decoded again within every budget that has room for
  it, and what follows it is not read.
- `length_encode_le`: how long what is encoded can get.
-/

namespace Vaco
namespace Qoi

open Library Region Transducer Vaco.Core Vaco.Codec

/-! ## Runs of both sides -/

/-- Decode some pixels without a plane. -/
def decodeSteps : Nat → DecodeState → Except Error DecodeState
  | 0, s => .ok s
  | n + 1, s =>
      match decodePixel s with
      | .error e => .error e
      | .ok s => decodeSteps n s

section Runs

variable {total : Nat} {e : EncodeState} {pxs : List Px} {tail : List Byte} {d : DecodeState}

/-- Both sides agree after every pixel. -/
theorem Agree.steps (h : Agree total e pxs tail d) {k : Nat} (hk : k ≤ pxs.length) :
    ∃ d', decodeSteps k d = .ok d' ∧ d'.reader.data = d.reader.data ∧
      Agree total (stateAfter (encodePixel total) e (pxs.take k)) (pxs.drop k) tail d' := by
  induction k generalizing e pxs d with
  | zero => exact ⟨d, rfl, rfl, h⟩
  | succ k ih =>
      cases pxs with
      | nil => exact absurd hk (Nat.not_succ_le_zero k)
      | cons px pxs =>
          rcases h.step with ⟨d', hstep, -, hdata, hagree⟩
          rcases ih hagree (Nat.le_of_succ_le_succ hk) with ⟨d'', hsteps, hdata', hagree'⟩
          refine ⟨d'', ?_, hdata'.trans hdata, hagree'⟩
          rw [decodeSteps, hstep]
          exact hsteps

/-- The decoder's plane holds the pixels. -/
theorem Agree.pixels {stride bpp : Nat} {items : List ((Nat × Nat) × Px)} {buf buf' : List Byte}
    (h : Agree total e (items.map Prod.snd) tail d)
    (hwrite : writeAll buf
      (items.map fun item => (pixelOffset stride bpp item.1, item.2.bytes bpp)) = some buf') :
    ∃ d', decodePixels stride bpp (items.map Prod.fst) d buf = .ok (d', buf') ∧
      d'.reader.data = d.reader.data ∧
      Agree total (stateAfter (encodePixel total) e (items.map Prod.snd)) [] tail d' := by
  induction items generalizing e d buf with
  | nil =>
      cases hwrite
      exact ⟨d, rfl, rfl, h⟩
  | cons item items ih =>
      rcases h.step with ⟨d', hstep, hprev, hdata, hagree⟩
      rw [List.map_cons, writeAll] at hwrite
      split at hwrite
      · cases hwrite
      · rename_i first hfirst
        rcases ih hagree hwrite with ⟨d'', hpixels, hdata', hagree'⟩
        have hpixel : writePixel buf (pixelOffset stride bpp item.1) (d'.prev.bytes bpp) =
            .ok first := by
          rw [hprev, writePixel, hfirst]
        refine ⟨d'', ?_, hdata'.trans hdata, hagree'⟩
        rw [List.map_cons, decodePixels, hstep]
        change (writePixel buf (pixelOffset stride bpp item.1) (d'.prev.bytes bpp) >>= fun buf =>
          decodePixels stride bpp (items.map Prod.fst) d' buf) = _
        rw [hpixel]
        exact hpixels

end Runs

/-! ## The pixels of a plane -/

/-- The pixel of some bytes; without alpha it is opaque. -/
def samplePx (sample : List Byte) : Px :=
  ⟨sample.getD 0 0, sample.getD 1 0, sample.getD 2 0, sample.getD 3 255⟩

/-- The pixel at a place of a plane. -/
def pixelAt (plane : Plane) (bpp : Nat) (pos : Nat × Nat) : Px :=
  samplePx ((readBlock plane.data (pixelOffset plane.stride bpp pos) bpp).getD [])

/-- The pixels of a plane, row by row. -/
def pixelsOf (plane : Plane) (bpp width height : Nat) : List Px :=
  (positions width height).map (pixelAt plane bpp)

section Plane

variable {plane : Plane} {bpp : Nat} {pos : Nat × Nat} {sample : List Byte}

theorem samplePx_spec (hbpp : bpp = 3 ∨ bpp = 4) (hlength : sample.length = bpp) :
    (samplePx sample).bytes bpp = sample ∧ Px.ofSample bpp sample = .ok (samplePx sample) := by
  rcases hbpp with rfl | rfl
  · match sample, hlength with
    | [r, g, b], _ => exact ⟨rfl, rfl⟩
  · match sample, hlength with
    | [r, g, b, a], _ => exact ⟨rfl, rfl⟩

theorem length_bytes (px : Px) (hbpp : bpp = 3 ∨ bpp = 4) : (px.bytes bpp).length = bpp := by
  rcases hbpp with rfl | rfl
  · rfl
  · rfl

theorem mem_positions {width height : Nat} :
    pos ∈ positions width height ↔ pos.1 < height ∧ pos.2 < width := by
  rw [positions, List.mem_flatMap]
  constructor
  · rintro ⟨y, hy, hmem⟩
    rcases List.mem_map.mp hmem with ⟨x, hx, rfl⟩
    exact ⟨List.mem_range.mp hy, List.mem_range.mp hx⟩
  · rintro ⟨hy, hx⟩
    exact ⟨pos.1, List.mem_range.mpr hy, List.mem_map.mpr ⟨pos.2, List.mem_range.mpr hx, rfl⟩⟩

theorem length_positions (width height : Nat) :
    (positions width height).length = width * height := by
  rw [positions, List.length_flatMap]
  simp only [List.length_map, List.length_range, List.map_const', List.sum_replicate, smul_eq_mul]
  exact Nat.mul_comm height width

theorem pairwise_positions (width height : Nat) :
    (positions width height).Pairwise fun pos pos' =>
      pos.1 < pos'.1 ∨ pos.1 = pos'.1 ∧ pos.2 < pos'.2 := by
  rw [positions, List.pairwise_flatMap]
  constructor
  · intro y _
    rw [List.pairwise_map]
    exact List.pairwise_lt_range.imp fun hlt => Or.inr ⟨rfl, hlt⟩
  · refine List.pairwise_lt_range.imp fun {y y'} hlt pos hpos pos' hpos' => ?_
    rcases List.mem_map.mp hpos with ⟨x, -, rfl⟩
    rcases List.mem_map.mp hpos' with ⟨x', -, rfl⟩
    exact Or.inl hlt

theorem pixelOffset_eq {stride : Nat} (h : pos.1 * stride + pos.2 * bpp ≤ u64Max) :
    pixelOffset stride bpp pos = pos.1 * stride + pos.2 * bpp := by
  rw [pixelOffset, min_eq_left (by omega), min_eq_left (by omega), satAddU64_of_le h]

theorem apart_of_lt {stride width : Nat} {pos pos' : Nat × Nat} (hrow : width * bpp ≤ stride)
    (hpos : pos.2 < width) (hlt : pos.1 < pos'.1 ∨ pos.1 = pos'.1 ∧ pos.2 < pos'.2) :
    Apart (pos.1 * stride + pos.2 * bpp) bpp (pos'.1 * stride + pos'.2 * bpp) bpp := by
  have hnext : (pos.2 + 1) * bpp = pos.2 * bpp + bpp := Nat.succ_mul _ _
  refine Or.inl ?_
  rcases hlt with hrows | ⟨hsame, hcolumns⟩
  · have hstep : (pos.1 + 1) * stride ≤ pos'.1 * stride := Nat.mul_le_mul_right stride hrows
    have hend : (pos.2 + 1) * bpp ≤ width * bpp := Nat.mul_le_mul_right bpp hpos
    rw [Nat.succ_mul] at hstep
    omega
  · have hstep : (pos.2 + 1) * bpp ≤ pos'.2 * bpp := Nat.mul_le_mul_right bpp hcolumns
    rw [hsame]
    omega

end Plane

/-! ## The encoder's walk -/

/-- A picture whose first plane holds its pixels: in rows of any stride, and in one of the two
formats. -/
structure IsImage (frame : VideoFrame) (plane : Plane) (bpp : Nat) : Prop where
  format : frame.format = .rgb24 ∧ bpp = 3 ∨ frame.format = .rgba ∧ bpp = 4
  width_ne : frame.width ≠ 0
  height_ne : frame.height ≠ 0
  plane_eq : frame.planes.head? = some plane
  length_le : plane.data.length ≤ u64Max
  fits : ∀ y < frame.height.toNat, ∀ x < frame.width.toNat,
    y * plane.stride + x * bpp + bpp ≤ plane.data.length

section Walk

variable {frame : VideoFrame} {plane : Plane} {bpp : Nat}

theorem IsImage.bpp_eq (h : IsImage frame plane bpp) : bpp = 3 ∨ bpp = 4 :=
  h.format.imp And.right And.right

theorem IsImage.readBlock_eq (h : IsImage frame plane bpp) {pos : Nat × Nat}
    (hpos : pos ∈ positions frame.width.toNat frame.height.toNat) :
    pixelOffset plane.stride bpp pos = pos.1 * plane.stride + pos.2 * bpp ∧
      readBlock plane.data (pos.1 * plane.stride + pos.2 * bpp) bpp =
        some ((pixelAt plane bpp pos).bytes bpp) := by
  rcases mem_positions.mp hpos with ⟨hy, hx⟩
  have hfits := h.fits pos.1 hy pos.2 hx
  have hlength := h.length_le
  have hoffset : pixelOffset plane.stride bpp pos = pos.1 * plane.stride + pos.2 * bpp :=
    pixelOffset_eq (by omega)
  have hread := readBlock_of_le hfits
  refine ⟨hoffset, ?_⟩
  rw [pixelAt, hoffset, hread, Option.getD_some,
    (samplePx_spec h.bpp_eq (length_of_readBlock hread)).1]

/-- The encoder walks over the pixels of the plane. -/
theorem encodePixels_eq {total : Nat} {posns : List (Nat × Nat)} (hbpp : bpp = 3 ∨ bpp = 4)
    (hread : ∀ pos ∈ posns, readBlock plane.data (pixelOffset plane.stride bpp pos) bpp =
      some ((pixelAt plane bpp pos).bytes bpp)) (e : EncodeState) :
    encodePixels plane bpp bpp total posns e =
      .ok (encodeAll total e (posns.map (pixelAt plane bpp))) := by
  induction posns generalizing e with
  | nil => rfl
  | cons pos posns ih =>
      rcases List.forall_mem_cons.mp hread with ⟨hfirst, hrest⟩
      have hsample : readPixel plane.data (pixelOffset plane.stride bpp pos) bpp =
          .ok ((pixelAt plane bpp pos).bytes bpp) := by
        rw [readPixel, hfirst]
      have hpixel : Px.ofSample bpp ((pixelAt plane bpp pos).bytes bpp) =
          .ok (pixelAt plane bpp pos) := by
        have hpx : pixelAt plane bpp pos = samplePx ((pixelAt plane bpp pos).bytes bpp) := by
          conv_lhs => rw [pixelAt, hfirst, Option.getD_some]
        have hof := (samplePx_spec hbpp (length_bytes (pixelAt plane bpp pos) hbpp)).2
        rw [← hpx] at hof
        exact hof
      rw [encodePixels, hsample]
      change (Px.ofSample bpp ((pixelAt plane bpp pos).bytes bpp) >>= fun px =>
        encodePixels plane bpp bpp total posns (encodePixel total e px).1 >>= fun bytes =>
          .ok ((encodePixel total e px).2 ++ bytes)) = _
      rw [hpixel]
      change (encodePixels plane bpp bpp total posns (encodePixel total e (pixelAt plane bpp pos)).1
        >>= fun bytes => .ok ((encodePixel total e (pixelAt plane bpp pos)).2 ++ bytes)) = _
      rw [ih hrest]
      rfl

/-- What the encoder writes for an image. -/
def imageBytes (frame : VideoFrame) (plane : Plane) (bpp : Nat) : List Byte :=
  headerBytes frame.width frame.height bpp ++
    encodeAll (frame.width.toNat * frame.height.toNat) .new
      (pixelsOf plane bpp frame.width.toNat frame.height.toNat) ++ endMarker

/-- The encoder accepts an image. -/
theorem IsImage.encode_eq (h : IsImage frame plane bpp) :
    encode frame = .ok (imageBytes frame plane bpp) := by
  have hplanes : ∃ others, frame.planes = plane :: others := by
    cases hplanes : frame.planes with
    | nil =>
        have heq := h.plane_eq
        rw [hplanes] at heq
        cases heq
    | cons first others =>
        have heq := h.plane_eq
        rw [hplanes] at heq
        cases heq
        exact ⟨others, rfl⟩
  rcases hplanes with ⟨others, hplanes⟩
  have hchannels : encodeChannels frame bpp bpp = .ok (imageBytes frame plane bpp) := by
    rw [encodeChannels, if_neg (not_or.mpr ⟨h.width_ne, h.height_ne⟩), hplanes]
    dsimp only
    rw [encodePixels_eq h.bpp_eq fun pos hpos => by
      rw [(h.readBlock_eq hpos).1]
      exact (h.readBlock_eq hpos).2]
    rfl
  rw [encode]
  rcases h.format with ⟨hformat, rfl⟩ | ⟨hformat, rfl⟩
  · rw [hformat]
    exact hchannels
  · rw [hformat]
    exact hchannels

end Walk

/-! ## The decoder's header and plane -/

theorem length_headerBytes (width height : BitVec 32) (channels : Nat) :
    (headerBytes width height channels).length = 14 := by
  rw [headerBytes, List.length_append, List.length_append, List.length_append,
    ByteWords.length_beBytes, ByteWords.length_beBytes]
  rfl

theorem Reader.Ahead.u32Be {r : Reader} {word : BitVec 32} {rest : List Byte}
    (h : r.Ahead (ByteWords.beBytes 4 word.toNat ++ rest)) :
    r.u32Be = .ok (word, r.skip 4) ∧ (r.skip 4).Ahead rest := by
  have hlength := ByteWords.length_beBytes 4 word.toNat
  have hskip := h.skip
  rw [hlength] at hskip
  refine ⟨?_, hskip⟩
  rw [Reader.u32Be, h.bytes hlength]
  change Except.ok (BitVec.ofNat 32 (ByteWords.beNat (ByteWords.beBytes 4 word.toNat)),
    r.skip 4) = _
  rw [ByteWords.ofNat_beNat (by decide)]

/-- The decoder reads the header that the encoder has written. -/
theorem readHeader_eq {frame : VideoFrame} {plane : Plane} {bpp : Nat} {rest : List Byte}
    (h : IsImage frame plane bpp) :
    readHeader (.new (headerBytes frame.width frame.height bpp ++ rest)) =
      .ok (⟨frame.width, frame.height, frame.format, bpp⟩,
        ⟨headerBytes frame.width frame.height bpp ++ rest, 14⟩) := by
  generalize hr : Reader.new (headerBytes frame.width frame.height bpp ++ rest) = r
  have hahead : r.Ahead (magic ++ (ByteWords.beBytes 4 frame.width.toNat ++
      (ByteWords.beBytes 4 frame.height.toNat ++ (BitVec.ofNat 8 bpp :: 0 :: rest)))) := by
    refine ⟨[], ?_, by rw [← hr]; rfl⟩
    rw [← hr, headerBytes]
    simp only [Reader.new, List.append_assoc, List.nil_append, List.cons_append]
  have hmagic : r.bytes 4 = .ok (magic, r.skip 4) := hahead.bytes rfl
  have hafter : (r.skip 4).Ahead _ := hahead.skip
  rcases hafter.u32Be with ⟨hwidth, hafter⟩
  rcases hafter.u32Be with ⟨hheight, hafter⟩
  have hchannels := hafter.u8
  have hcolour := hafter.skip_one.u8
  have hend : (((((r.skip 4).skip 4).skip 4).skip 1).skip 1) =
      ⟨headerBytes frame.width frame.height bpp ++ rest, 14⟩ := by
    rw [← hr]
    rfl
  have hsize : ¬(frame.width = 0 ∨ frame.height = 0) := not_or.mpr ⟨h.width_ne, h.height_ne⟩
  have hread : readHeader r =
      if frame.width = 0 ∨ frame.height = 0 then
        .error (.invalidData "qoi: zero-sized image")
      else if BitVec.ofNat 8 bpp = 3 then
        .ok (⟨frame.width, frame.height, .rgb24, 3⟩,
          ⟨headerBytes frame.width frame.height bpp ++ rest, 14⟩)
      else if BitVec.ofNat 8 bpp = 4 then
        .ok (⟨frame.width, frame.height, .rgba, 4⟩,
          ⟨headerBytes frame.width frame.height bpp ++ rest, 14⟩)
      else
        .error (.invalidData "qoi: channels must be 3 or 4") := by
    rw [← hend, readHeader, hmagic]
    change ((r.skip 4).u32Be >>= _) = _
    rw [hwidth]
    change (((r.skip 4).skip 4).u32Be >>= _) = _
    rw [hheight]
    change ((((r.skip 4).skip 4).skip 4).u8 >>= _) = _
    rw [hchannels]
    change (((((r.skip 4).skip 4).skip 4).skip 1).u8 >>= _) = _
    rw [hcolour]
    rfl
  rw [hread, if_neg hsize]
  rcases h.format with ⟨hformat, rfl⟩ | ⟨hformat, rfl⟩
  · rw [hformat]
    rfl
  · rw [hformat]
    rfl

theorem IsImage.row_le {frame : VideoFrame} {plane : Plane} {bpp : Nat}
    (h : IsImage frame plane bpp) (width : Nat) :
    width * bpp ≤ frame.format.alignedStride width 0 := by
  have hmin : frame.format.minStride width 0 = width * bpp := by
    rcases h.format with ⟨hformat, rfl⟩ | ⟨hformat, rfl⟩
    · rw [hformat]
      simp [PixFmt.minStride, PixFmt.descriptor, PixFmt.componentSamples]
    · rw [hformat]
      simp [PixFmt.minStride, PixFmt.descriptor, PixFmt.componentSamples]
  rw [PixFmt.alignedStride, hmin, bufferAlign]
  omega

theorem IsImage.blankFrame_eq {frame : VideoFrame} {plane : Plane} {bpp : Nat}
    (h : IsImage frame plane bpp) (width height : BitVec 32) :
    blankFrame frame.format width height =
      ⟨frame.format, width, height,
        [⟨List.replicate (frame.format.alignedStride width.toNat 0 * height.toNat) 0,
          frame.format.alignedStride width.toNat 0⟩]⟩ := by
  rcases h.format with ⟨hformat, -⟩ | ⟨hformat, -⟩
  · rw [hformat]
    rfl
  · rw [hformat]
    rfl

/-! ## The round trip -/

theorem Agree.done {total : Nat} {e : EncodeState} {tail : List Byte} {d : DecodeState}
    (h : Agree total e [] tail d) : d.reader.Ahead tail := by
  rcases h.ahead with ⟨after, hpxs, hahead, -⟩
  rcases List.append_eq_nil_iff.mp hpxs.symm with ⟨-, rfl⟩
  exact hahead

theorem Reader.Ahead.pos_eq {r : Reader} {before rest : List Byte} (h : r.Ahead rest)
    (hdata : r.data = before ++ rest) : r.pos = before.length := by
  rcases h with ⟨before', hdata', hpos⟩
  rw [hpos, List.append_cancel_right (hdata'.symm.trans hdata)]

/-- The state of the encoder after some of the pixels of an image. -/
def encodedState (frame : VideoFrame) (plane : Plane) (bpp k : Nat) : EncodeState :=
  stateAfter (encodePixel (frame.width.toNat * frame.height.toNat)) .new
    ((pixelsOf plane bpp frame.width.toNat frame.height.toNat).take k)

def encodedChunks (frame : VideoFrame) (plane : Plane) (bpp k : Nat) : List Byte :=
  encodeAll (frame.width.toNat * frame.height.toNat) .new
    ((pixelsOf plane bpp frame.width.toNat frame.height.toNat).take k)

section RoundTrip

variable {frame : VideoFrame} {plane : Plane} {bpp : Nat}

theorem length_pixelsOf (plane : Plane) (bpp width height : Nat) :
    (pixelsOf plane bpp width height).length = width * height := by
  rw [pixelsOf, List.length_map, length_positions]

theorem agree_start (frame : VideoFrame) (plane : Plane) (bpp : Nat) (rest : List Byte) :
    Agree (frame.width.toNat * frame.height.toNat) .new
      (pixelsOf plane bpp frame.width.toNat frame.height.toNat) (endMarker ++ rest)
      (.new ⟨imageBytes frame plane bpp ++ rest, 14⟩) where
  total_eq := by
    rw [length_pixelsOf]
    exact (Nat.zero_add _).symm
  table_eq := rfl
  prev_eq := rfl
  ahead := by
    refine ⟨pixelsOf plane bpp frame.width.toNat frame.height.toNat, rfl,
      ⟨headerBytes frame.width frame.height bpp, ?_, (length_headerBytes _ _ _).symm⟩,
      Or.inl ⟨rfl, rfl⟩⟩
    change imageBytes frame plane bpp ++ rest = _
    rw [imageBytes, List.append_assoc, List.append_assoc]
    rfl

theorem imageBytes_split (frame : VideoFrame) (plane : Plane) (bpp k : Nat) (rest : List Byte) :
    imageBytes frame plane bpp ++ rest =
      (headerBytes frame.width frame.height bpp ++ encodedChunks frame plane bpp k) ++
        (encodeAll (frame.width.toNat * frame.height.toNat) (encodedState frame plane bpp k)
          ((pixelsOf plane bpp frame.width.toNat frame.height.toNat).drop k) ++
            (endMarker ++ rest)) := by
  have hsplit : encodeAll (frame.width.toNat * frame.height.toNat) .new
      (pixelsOf plane bpp frame.width.toNat frame.height.toNat) =
      encodedChunks frame plane bpp k ++
        encodeAll (frame.width.toNat * frame.height.toNat) (encodedState frame plane bpp k)
          ((pixelsOf plane bpp frame.width.toNat frame.height.toNat).drop k) := by
    conv_lhs => rw [← List.take_append_drop k (pixelsOf plane bpp _ _)]
    rw [encodeAll, outputs_append, List.flatten_append]
    rfl
  rw [imageBytes, hsplit]
  simp only [List.append_assoc]

theorem agree_throughout (frame : VideoFrame) (plane : Plane) (bpp : Nat) (rest : List Byte)
    {k : Nat} (hk : k ≤ frame.width.toNat * frame.height.toNat) :
    ∃ d, decodeSteps k (.new ⟨imageBytes frame plane bpp ++ rest, 14⟩) = .ok d ∧
      d.table = (encodedState frame plane bpp k).table ∧
      d.prev = (encodedState frame plane bpp k).prev ∧
      ((encodedState frame plane bpp k).run = 0 →
        d.run = 0 ∧ d.reader.pos = 14 + (encodedChunks frame plane bpp k).length) := by
  rw [← length_pixelsOf plane bpp] at hk
  rcases (agree_start frame plane bpp rest).steps hk with ⟨d, hsteps, hdata, hagree⟩
  refine ⟨d, hsteps, hagree.table_eq, hagree.prev_eq, fun hrun => ?_⟩
  rcases hagree.closed hrun with ⟨hdrun, hahead⟩
  refine ⟨hdrun, ?_⟩
  have hpos := hahead.pos_eq (hdata.trans (imageBytes_split frame plane bpp k rest))
  rw [hpos, List.length_append, length_headerBytes]

/-- The decoder fills its plane with the pixels of the image, and stops behind the end marker. -/
theorem IsImage.decodeFrame_eq (h : IsImage frame plane bpp) {stride : Nat}
    (hrow : frame.width.toNat * bpp ≤ stride) (hsize : stride * frame.height.toNat ≤ u64Max) :
    ∃ buf, (∀ rest, decodeFrame ⟨frame.width, frame.height, frame.format, bpp⟩
        ⟨imageBytes frame plane bpp ++ rest, 14⟩
        ⟨frame.format, frame.width, frame.height,
          [⟨List.replicate (stride * frame.height.toNat) 0, stride⟩]⟩ =
        .ok (⟨frame.format, frame.width, frame.height, [⟨buf, stride⟩]⟩,
          ⟨imageBytes frame plane bpp ++ rest, (imageBytes frame plane bpp).length⟩)) ∧
      ∀ pos ∈ positions frame.width.toNat frame.height.toNat,
        readBlock buf (pos.1 * stride + pos.2 * bpp) bpp =
          some ((pixelAt plane bpp pos).bytes bpp) := by
  have hbytes : ∀ px : Px, (px.bytes bpp).length = bpp := fun px => length_bytes px h.bpp_eq
  -- each pixel of the decoder's plane lies in it
  have hinside : ∀ pos ∈ positions frame.width.toNat frame.height.toNat,
      pos.1 * stride + pos.2 * bpp + bpp ≤ stride * frame.height.toNat := by
    intro pos hpos
    rcases mem_positions.mp hpos with ⟨hy, hx⟩
    have hcolumn : (pos.2 + 1) * bpp ≤ frame.width.toNat * bpp := Nat.mul_le_mul_right bpp hx
    have hrows : (pos.1 + 1) * stride ≤ frame.height.toNat * stride := Nat.mul_le_mul_right stride hy
    rw [Nat.succ_mul] at hcolumn hrows
    rw [Nat.mul_comm stride]
    omega
  have hoffset : ∀ pos ∈ positions frame.width.toNat frame.height.toNat,
      pixelOffset stride bpp pos = pos.1 * stride + pos.2 * bpp := by
    intro pos hpos
    have hend := hinside pos hpos
    exact pixelOffset_eq (by omega)
  have hfits : ∀ b ∈ (positions frame.width.toNat frame.height.toNat).map fun pos =>
      (pixelOffset stride bpp pos, (pixelAt plane bpp pos).bytes bpp),
      b.1 + b.2.length ≤ (List.replicate (stride * frame.height.toNat) (0 : Byte)).length := by
    refine List.forall_mem_map.mpr fun pos hpos => ?_
    rw [hbytes, hoffset pos hpos, List.length_replicate]
    exact hinside pos hpos
  have hapart : ((positions frame.width.toNat frame.height.toNat).map fun pos =>
      (pixelOffset stride bpp pos, (pixelAt plane bpp pos).bytes bpp)).Pairwise fun b b' =>
        Apart b.1 b.2.length b'.1 b'.2.length := by
    refine List.pairwise_map.mpr
      ((pairwise_positions _ _).imp_of_mem fun {pos pos'} hpos hpos' hlt => ?_)
    rw [hbytes, hbytes, hoffset pos hpos, hoffset pos' hpos']
    exact apart_of_lt hrow (mem_positions.mp hpos).2 hlt
  rcases writeAll_spec hfits hapart with ⟨buf, hwrite, -, hread⟩
  have hitems : (positions frame.width.toNat frame.height.toNat).map (fun pos =>
      (pixelOffset stride bpp pos, (pixelAt plane bpp pos).bytes bpp)) =
      ((positions frame.width.toNat frame.height.toNat).map fun pos =>
        (pos, pixelAt plane bpp pos)).map fun item =>
          (pixelOffset stride bpp item.1, item.2.bytes bpp) := by
    rw [List.map_map]
    rfl
  have hposns : ((positions frame.width.toNat frame.height.toNat).map fun pos =>
      (pos, pixelAt plane bpp pos)).map Prod.fst =
      positions frame.width.toNat frame.height.toNat := by
    rw [List.map_map]
    exact List.map_id _
  have hpixels : ((positions frame.width.toNat frame.height.toNat).map fun pos =>
      (pos, pixelAt plane bpp pos)).map Prod.snd =
      pixelsOf plane bpp frame.width.toNat frame.height.toNat := by
    rw [List.map_map]
    rfl
  rw [hitems] at hwrite
  refine ⟨buf, fun rest => ?_, fun pos hpos => ?_⟩
  · have hstart := agree_start frame plane bpp rest
    rw [← hpixels] at hstart
    rcases hstart.pixels hwrite with ⟨d, hdecode, hdata, hagree⟩
    rw [hposns] at hdecode
    have hahead := hagree.done
    have htail : d.reader.bytes 8 = .ok (endMarker, d.reader.skip 8) := hahead.bytes rfl
    have hpos := hahead.skip.pos_eq (hdata.trans rfl)
    have hreader : d.reader.skip 8 =
        ⟨imageBytes frame plane bpp ++ rest, (imageBytes frame plane bpp).length⟩ := by
      rw [← hpos, Reader.skip]
      exact congrArg (fun data => Reader.mk data (d.reader.pos + 8)) hdata
    rw [decodeFrame]
    dsimp only
    rw [hdecode]
    change (d.reader.bytes 8 >>= _) = _
    rw [htail, hreader]
    rfl
  · have hblock := hread _ (List.mem_map_of_mem hpos)
    dsimp only at hblock
    rw [hbytes, hoffset pos hpos] at hblock
    exact hblock

theorem IsImage.size_le (h : IsImage frame plane bpp) {b : VideoBudget}
    (hadmits : b.Admits frame.format frame.width.toNat frame.height.toNat) :
    frame.format.alignedStride frame.width.toNat 0 * frame.height.toNat ≤ u64Max := by
  have htotal := hadmits.total_le
  have hmax := b.budget.limits.total_le
  rcases h.format with ⟨hformat, -⟩ | ⟨hformat, -⟩
  · rw [hformat] at htotal ⊢
    change _ + (PixFmt.rgb24.alignedStride frame.width.toNat 0 * frame.height.toNat + _ + 0) ≤ _
      at htotal
    omega
  · rw [hformat] at htotal ⊢
    change _ + (PixFmt.rgba.alignedStride frame.width.toNat 0 * frame.height.toNat + _ + 0) ≤ _
      at htotal
    omega

/-- What the decoder reads of an image and of what follows it. -/
theorem IsImage.decodeReader_eq (h : IsImage frame plane bpp) {b : VideoBudget}
    (hadmits : b.Admits frame.format frame.width.toNat frame.height.toNat) :
    ∃ b' buf, (∀ rest, decodeReader (.new (imageBytes frame plane bpp ++ rest)) b =
        (b', .ok (⟨frame.format, frame.width, frame.height,
          [⟨buf, frame.format.alignedStride frame.width.toNat 0⟩]⟩,
          ⟨imageBytes frame plane bpp ++ rest, (imageBytes frame plane bpp).length⟩))) ∧
      ∀ pos ∈ positions frame.width.toNat frame.height.toNat,
        readBlock buf (pos.1 * frame.format.alignedStride frame.width.toNat 0 + pos.2 * bpp) bpp =
          some ((pixelAt plane bpp pos).bytes bpp) := by
  have halloc := allocVideo_of_admits hadmits
  rw [h.blankFrame_eq] at halloc
  rcases h.decodeFrame_eq (h.row_le frame.width.toNat) (h.size_le hadmits) with ⟨buf, hframe, hread⟩
  refine ⟨(allocVideo b frame.format frame.width frame.height).1, buf, fun rest => ?_, hread⟩
  have hdata : headerBytes frame.width frame.height bpp ++
      (encodeAll (frame.width.toNat * frame.height.toNat) .new
        (pixelsOf plane bpp frame.width.toNat frame.height.toNat) ++ (endMarker ++ rest)) =
      imageBytes frame plane bpp ++ rest := by
    rw [imageBytes]
    simp only [List.append_assoc]
  have hheader : readHeader (.new (headerBytes frame.width frame.height bpp ++
      (encodeAll (frame.width.toNat * frame.height.toNat) .new
        (pixelsOf plane bpp frame.width.toNat frame.height.toNat) ++ (endMarker ++ rest)))) = _ :=
    readHeader_eq h
  rw [hdata] at hheader
  rw [decodeReader, hheader]
  dsimp only
  rw [halloc]
  dsimp only
  rw [hframe]

/-- An image is decoded to the same format, dimensions and pixels within every budget that has room,
and exactly the bytes that were written are read. -/
theorem decode_encode (h : IsImage frame plane bpp) {b : VideoBudget}
    (hadmits : b.Admits frame.format frame.width.toNat frame.height.toNat) :
    ∃ bytes b' out plane', encode frame = .ok bytes ∧
      decode bytes b = (b', .ok out) ∧
      (∀ rest, decodeReader (.new (bytes ++ rest)) b =
        (b', .ok (out, ⟨bytes ++ rest, bytes.length⟩))) ∧
      out = ⟨frame.format, frame.width, frame.height, [plane']⟩ ∧
      (∀ y < frame.height.toNat, ∀ x < frame.width.toNat, ∃ sample,
        readBlock plane.data (y * plane.stride + x * bpp) bpp = some sample ∧
          readBlock plane'.data (y * plane'.stride + x * bpp) bpp = some sample) ∧
      ∀ rest, ∀ k ≤ frame.width.toNat * frame.height.toNat, ∃ d,
        decodeSteps k (.new ⟨bytes ++ rest, 14⟩) = .ok d ∧
        d.table = (encodedState frame plane bpp k).table ∧
        d.prev = (encodedState frame plane bpp k).prev ∧
        ((encodedState frame plane bpp k).run = 0 →
          d.run = 0 ∧ d.reader.pos = 14 + (encodedChunks frame plane bpp k).length) := by
  rcases h.decodeReader_eq hadmits with ⟨b', buf, hreader, hread⟩
  refine ⟨imageBytes frame plane bpp, b', _, _, h.encode_eq, ?_, hreader, rfl,
    fun y hy x hx => ?_, fun rest k hk => agree_throughout frame plane bpp rest hk⟩
  · have hall := hreader []
    rw [List.append_nil] at hall
    rw [decode, hall]
    rfl
  · have hpos : (y, x) ∈ positions frame.width.toNat frame.height.toNat :=
      mem_positions.mpr ⟨hy, hx⟩
    exact ⟨_, (h.readBlock_eq hpos).2, hread (y, x) hpos⟩

end RoundTrip

/-- A frame of two rows with a stride of ten, three pixels each. -/
def stridedFrame : VideoFrame where
  format := .rgb24
  width := 3
  height := 2
  planes := [⟨[9, 9, 9, 9, 9, 9, 10, 8, 11, 7, 200, 100, 50, 0, 0, 0, 0, 0, 0], 10⟩]

/-- A budget with room for small frames. -/
def smallBudget : VideoBudget where
  budget := .new ⟨1000, 500, Nat.le_of_ble_eq_true rfl⟩
  maxDimension := 16
  maxFrameBytes := 256
  maxFrameBytes_le := Nat.le_of_ble_eq_true rfl

theorem decode_encode_strided :
    ∃ bytes out, encode stridedFrame = .ok bytes ∧ (decode bytes smallBudget).2 = .ok out ∧
      out.format = .rgb24 := by
  have hadmits : smallBudget.Admits .rgb24 3 2 :=
    { width_le := by decide
      height_le := by decide
      bytes_le := by decide
      single_le := by decide
      total_le := by decide }
  have himage : IsImage stridedFrame
      ⟨[9, 9, 9, 9, 9, 9, 10, 8, 11, 7, 200, 100, 50, 0, 0, 0, 0, 0, 0], 10⟩ 3 :=
    { format := Or.inl ⟨rfl, rfl⟩
      width_ne := by decide
      height_ne := by decide
      plane_eq := rfl
      length_le := by decide
      fits := by decide }
  rcases decode_encode himage hadmits with ⟨bytes, b', out, plane', hencode, hdecode, -, hout, -⟩
  exact ⟨bytes, out, hencode, congrArg Prod.snd hdecode, by rw [hout]; rfl⟩

/-! ## The size of what is encoded -/

/-- A pixel takes no more bytes than it has channels and one, with the chunk of the run before it
paid for. -/
theorem length_encodePixel_le {total channels : Nat} {s : EncodeState} {px : Px}
    (hchannels : 3 ≤ channels) (halpha : 4 ≤ channels ∨ px.a = s.prev.a) :
    (encodePixel total s px).2.length + min (encodePixel total s px).1.run 1 ≤
      channels + 1 + min s.run 1 := by
  by_cases hpx : px = s.prev
  · by_cases hclose : s.run + 1 = runMax ∨ s.seen + 1 = total
    · rw [encodePixel_close hpx hclose]
      simp [EncodeState.closed]
      omega
    · rw [encodePixel_open hpx hclose]
      simp
      omega
  · have hchunk : (chunkOf s.table s.prev px).length ≤ channels + 1 := by
      unfold chunkOf pixelChunk
      grind
    rw [encodePixel_ne hpx]
    grind

theorem length_encodePixels_le {plane : Plane} {channels bpp total : Nat} {posns : List (Nat × Nat)}
    {s : EncodeState} {bytes : List Byte} (hchannels : 3 ≤ channels)
    (halpha : 4 ≤ channels ∨ s.prev.a = 255)
    (h : encodePixels plane channels bpp total posns s = .ok bytes) :
    bytes.length ≤ (channels + 1) * posns.length + min s.run 1 := by
  induction posns generalizing s bytes with
  | nil =>
      cases h
      exact Nat.zero_le _
  | cons pos posns ih =>
      simp only [encodePixels, bind, Except.bind] at h
      split at h
      · cases h
      · split at h
        · cases h
        · rename_i px hpx
          split at h
          · cases h
          · rename_i rest hrest
            cases h
            have hopaque : 4 ≤ channels ∨ px.a = 255 := by
              unfold Px.ofSample at hpx
              grind
            have hprev : (encodePixel total s px).1.prev = px := by
              unfold encodePixel
              grind
            have hstep := @length_encodePixel_le total channels s px hchannels (by grind)
            have hlater := ih (by rwa [hprev]) hrest
            rw [List.length_append, List.length_cons, Nat.mul_succ]
            omega

/-- An encoded image is no longer than its header, its end marker and a byte more than its channels
for every pixel. -/
theorem length_encode_le {frame : VideoFrame} {bytes : List Byte} (h : encode frame = .ok bytes) :
    bytes.length ≤ 22 + ((if frame.format = .rgba then 4 else 3) + 1) *
      (frame.width.toNat * frame.height.toNat) := by
  have hbound : ∀ channels, 3 ≤ channels → encodeChannels frame channels channels = .ok bytes →
      bytes.length ≤ 22 + (channels + 1) * (frame.width.toNat * frame.height.toNat) := by
    intro channels hchannels h
    simp only [encodeChannels, bind, Except.bind] at h
    split at h
    · cases h
    · split at h
      · cases h
      · split at h
        · cases h
        · rename_i chunks hchunks
          cases h
          have hle := length_encodePixels_le hchannels (Or.inr rfl) hchunks
          rw [length_positions] at hle
          simp only [List.length_append, length_headerBytes]
          change 14 + chunks.length + 8 ≤ _
          change chunks.length ≤ _ + 0 at hle
          omega
  unfold encode at h
  split at h
  · rename_i hformat
    rw [hformat]
    exact hbound 3 (le_refl 3) h
  · rename_i hformat
    rw [hformat]
    exact hbound 4 (by decide) h
  · cases h

theorem length_encode_le_strided :
    ∃ bytes, encode stridedFrame = .ok bytes ∧ bytes.length ≤ 46 := by
  cases h : encode stridedFrame with
  | error e =>
      have hok : (encode stridedFrame).isOk = true := by decide +kernel
      rw [h] at hok
      cases hok
  | ok bytes => exact ⟨bytes, rfl, length_encode_le h⟩

end Qoi
end Vaco
