import Vaco.Qoi.Codec
import Vaco.Library.Transducer

/-!
# Chunks of a QOI image

A decoder that has the table and the previous pixel of the encoder reads the chunk of a pixel as the
pixel.  Runs are different: the encoder writes the chunk of a run when it ends, the decoder reads it
when it begins, so the decoder is ahead of the encoder by the pixels of the run that are still to
come.

Main results:

- `decodePixel_chunk`: the chunk of a pixel is read as the pixel.
- `exists_run`: what the encoder writes next when a run is open.
-/

namespace Vaco
namespace Qoi

open Library Region Transducer Vaco.Core Vaco.Codec

/-! ## The cursor -/

/-- Some bytes lie ahead of a cursor, and nothing behind them. -/
def Reader.Ahead (r : Reader) (rest : List Byte) : Prop :=
  ∃ before, r.data = before ++ rest ∧ r.pos = before.length

/-- The cursor behind some bytes. -/
def Reader.skip (r : Reader) (n : Nat) : Reader :=
  { r with pos := r.pos + n }

section Cursor

variable {r : Reader} {rest : List Byte}

theorem Reader.Ahead.skip {bytes : List Byte} (h : r.Ahead (bytes ++ rest)) :
    (r.skip bytes.length).Ahead rest := by
  rcases h with ⟨before, hdata, hpos⟩
  refine ⟨before ++ bytes, ?_, ?_⟩
  · rw [List.append_assoc]
    exact hdata
  · rw [List.length_append, ← hpos]
    rfl

theorem Reader.Ahead.skip_one {byte : Byte} (h : r.Ahead (byte :: rest)) : (r.skip 1).Ahead rest :=
  @Reader.Ahead.skip r rest [byte] h

theorem Reader.Ahead.u8 {byte : Byte} (h : r.Ahead (byte :: rest)) :
    r.u8 = .ok (byte, r.skip 1) := by
  rcases h with ⟨before, hdata, hpos⟩
  have hbyte : r.data[r.pos]? = some byte := by
    rw [hdata, hpos, List.getElem?_append_right (le_refl _), Nat.sub_self]
    rfl
  rw [Reader.u8, hbyte]
  rfl

theorem Reader.Ahead.bytes {bytes : List Byte} {n : Nat} (h : r.Ahead (bytes ++ rest))
    (hn : bytes.length = n) : r.bytes n = .ok (bytes, r.skip n) := by
  rcases h with ⟨before, hdata, hpos⟩
  have hblock : readBlock r.data r.pos n = some bytes := by
    rw [readBlock_of_le, hdata, hpos, List.drop_left, ← hn, List.take_left]
    rw [hdata, hpos, List.length_append, List.length_append]
    omega
  rw [Reader.bytes, hblock]
  rfl

end Cursor

/-! ## Tags -/

theorem index_tag : ∀ i < 64, (BitVec.ofNat 8 i) ≠ 0xFE ∧ (BitVec.ofNat 8 i) ≠ 0xFF ∧
    (BitVec.ofNat 8 i) >>> 6 = 0 ∧ ((BitVec.ofNat 8 i) &&& 0x3F).toNat = i := by
  decide +kernel

theorem run_tag : ∀ n < 62, runChunk (n + 1) ≠ 0xFE ∧ runChunk (n + 1) ≠ 0xFF ∧
    runChunk (n + 1) >>> 6 ≠ 0 ∧ runChunk (n + 1) >>> 6 ≠ 1 ∧ runChunk (n + 1) >>> 6 ≠ 2 ∧
      (runChunk (n + 1) &&& 0x3F).toNat = n := by
  decide +kernel

theorem exists_ofInt {v : Byte} {low : Int} {n : Nat} (hlow : -low ≤ v.toInt)
    (hhigh : v.toInt < n - low) : ∃ i : Fin n, v = BitVec.ofInt 8 (((i : Nat) : Int) - low) := by
  refine ⟨⟨(v.toInt + low).toNat, by omega⟩, ?_⟩
  have hvalue : (((v.toInt + low).toNat : Nat) : Int) - low = v.toInt := by omega
  rw [hvalue, BitVec.ofInt_toInt]

theorem diff_tag : ∀ i j k : Fin 4,
    let tag : Byte := 0x40 ||| (BitVec.ofInt 8 (((i : Nat) : Int) - 2) + 2) <<< 4 |||
      (BitVec.ofInt 8 (((j : Nat) : Int) - 2) + 2) <<< 2 |||
        (BitVec.ofInt 8 (((k : Nat) : Int) - 2) + 2)
    tag ≠ 0xFE ∧ tag ≠ 0xFF ∧ tag >>> 6 ≠ 0 ∧ tag >>> 6 = 1 ∧
      ((tag >>> 4) &&& 0x03).toNat = i ∧ ((tag >>> 2) &&& 0x03).toNat = j ∧
        (tag &&& 0x03).toNat = k := by
  decide +kernel

theorem luma_tag : ∀ i : Fin 64,
    let tag : Byte := 0x80 ||| (BitVec.ofInt 8 (((i : Nat) : Int) - 32) + 32)
    tag ≠ 0xFE ∧ tag ≠ 0xFF ∧ tag >>> 6 ≠ 0 ∧ tag >>> 6 ≠ 1 ∧ tag >>> 6 = 2 ∧
      (tag &&& 0x3F).toNat = i := by
  decide +kernel

theorem luma_byte : ∀ i j : Fin 16,
    let byte : Byte := (BitVec.ofInt 8 (((i : Nat) : Int) - 8) + 8) <<< 4 |||
      (BitVec.ofInt 8 (((j : Nat) : Int) - 8) + 8)
    ((byte >>> 4) &&& 0x0F).toNat = i ∧ (byte &&& 0x0F).toNat = j := by
  decide +kernel

/-! ## The chunk of a pixel -/

def chunkOf (t : Table) (prev px : Px) : List Byte :=
  if t.get (hash px) = px then [BitVec.ofNat 8 (hash px)] else pixelChunk prev px

theorem hash_lt (px : Px) : hash px < 64 :=
  Nat.mod_lt _ (Nat.succ_pos 63)

theorem Table.set_get {t : Table} {px : Px} (h : t.get (hash px) = px) :
    t.set (hash px) px = t := by
  have hlt : hash px < t.slots.length := by
    rw [t.length_eq]
    exact hash_lt px
  have hslot : t.slots[hash px] = px := by
    rw [Table.get, List.getD_eq_getElem?_getD, List.getElem?_eq_getElem hlt] at h
    exact h
  have hset : t.slots.set (hash px) t.slots[hash px] = t.slots := List.set_getElem_self hlt
  rw [hslot] at hset
  rw [Table.set]
  congr 1

section Chunk

variable {s : DecodeState} {px : Px} {rest : List Byte}

theorem add_diff (prev v : Byte) : prev + (v - prev) = v := by
  rw [BitVec.add_comm, BitVec.sub_add_cancel]

theorem decodePixel_of_ahead {tag : Byte} (hrun : s.run = 0) (hahead : s.reader.Ahead (tag :: rest)) :
    decodePixel s = decodeChunk s tag (s.reader.skip 1) := by
  rw [decodePixel, if_neg (by omega), hahead.u8]

theorem decodePixel_index (hrun : s.run = 0) (hget : s.table.get (hash px) = px)
    (hahead : s.reader.Ahead (BitVec.ofNat 8 (hash px) :: rest)) :
    decodePixel s = .ok (s.see px (s.reader.skip 1)) := by
  rcases index_tag (hash px) (hash_lt px) with ⟨hrgb, hrgba, htag, hvalue⟩
  rw [decodePixel_of_ahead hrun hahead, decodeChunk, if_neg hrgb, if_neg hrgba, if_pos htag, hvalue,
    hget]

theorem decodePixel_rgb (hrun : s.run = 0) (halpha : px.a = s.prev.a)
    (hahead : s.reader.Ahead (0xFE :: ([px.r, px.g, px.b] ++ rest))) :
    decodePixel s = .ok (s.see px (s.reader.skip 4)) := by
  have hbytes : (s.reader.skip 1).bytes 3 = .ok ([px.r, px.g, px.b], (s.reader.skip 1).skip 3) :=
    hahead.skip_one.bytes rfl
  rw [decodePixel_of_ahead hrun hahead, decodeChunk, if_pos rfl, hbytes, ← halpha]
  rfl

theorem decodePixel_rgba (hrun : s.run = 0)
    (hahead : s.reader.Ahead (0xFF :: ([px.r, px.g, px.b, px.a] ++ rest))) :
    decodePixel s = .ok (s.see px (s.reader.skip 5)) := by
  have hne : (0xFF : Byte) ≠ 0xFE := by decide
  have hbytes : (s.reader.skip 1).bytes 4 =
      .ok ([px.r, px.g, px.b, px.a], (s.reader.skip 1).skip 4) :=
    hahead.skip_one.bytes rfl
  rw [decodePixel_of_ahead hrun hahead, decodeChunk, if_neg hne, if_pos rfl, hbytes]
  rfl

theorem decodePixel_diff {i j k : Fin 4} (hrun : s.run = 0) (halpha : px.a = s.prev.a)
    (hr : px.r - s.prev.r = BitVec.ofInt 8 (((i : Nat) : Int) - 2))
    (hg : px.g - s.prev.g = BitVec.ofInt 8 (((j : Nat) : Int) - 2))
    (hb : px.b - s.prev.b = BitVec.ofInt 8 (((k : Nat) : Int) - 2))
    (hahead : s.reader.Ahead
      ((0x40 ||| (px.r - s.prev.r + 2) <<< 4 ||| (px.g - s.prev.g + 2) <<< 2 |||
        (px.b - s.prev.b + 2)) :: rest)) :
    decodePixel s = .ok (s.see px (s.reader.skip 1)) := by
  rw [decodePixel_of_ahead hrun hahead]
  have htag := diff_tag i j k
  dsimp only at htag
  rw [← hr, ← hg, ← hb] at htag
  rcases htag with ⟨hrgb, hrgba, hindex, hdiff, hri, hgj, hbk⟩
  rw [decodeChunk, if_neg hrgb, if_neg hrgba, if_neg hindex, if_pos hdiff]
  dsimp only
  rw [hri, hgj, hbk]
  have hred := add_diff s.prev.r px.r
  have hgreen := add_diff s.prev.g px.g
  have hblue := add_diff s.prev.b px.b
  rw [hr] at hred
  rw [hg] at hgreen
  rw [hb] at hblue
  change Except.ok (s.see
    ⟨s.prev.r + BitVec.ofInt 8 (((i : Nat) : Int) - 2),
      s.prev.g + BitVec.ofInt 8 (((j : Nat) : Int) - 2),
      s.prev.b + BitVec.ofInt 8 (((k : Nat) : Int) - 2), s.prev.a⟩ (s.reader.skip 1)) = _
  rw [hred, hgreen, hblue, ← halpha]

theorem decodePixel_luma {i : Fin 64} {j k : Fin 16} (hrun : s.run = 0) (halpha : px.a = s.prev.a)
    (hg : px.g - s.prev.g = BitVec.ofInt 8 (((i : Nat) : Int) - 32))
    (hr : px.r - s.prev.r - (px.g - s.prev.g) = BitVec.ofInt 8 (((j : Nat) : Int) - 8))
    (hb : px.b - s.prev.b - (px.g - s.prev.g) = BitVec.ofInt 8 (((k : Nat) : Int) - 8))
    (hahead : s.reader.Ahead
      ((0x80 ||| (px.g - s.prev.g + 32)) ::
        ((px.r - s.prev.r - (px.g - s.prev.g) + 8) <<< 4 |||
          (px.b - s.prev.b - (px.g - s.prev.g) + 8)) :: rest)) :
    decodePixel s = .ok (s.see px (s.reader.skip 2)) := by
  rw [decodePixel_of_ahead hrun hahead]
  have htag := luma_tag i
  have hbyte := luma_byte j k
  dsimp only at htag hbyte
  rw [← hg] at htag
  rw [← hr, ← hb] at hbyte
  rcases htag with ⟨hrgb, hrgba, hindex, hdiff, hluma, hgi⟩
  rcases hbyte with ⟨hrj, hbk⟩
  rw [decodeChunk, if_neg hrgb, if_neg hrgba, if_neg hindex, if_neg hdiff, if_pos hluma,
    hahead.skip_one.u8]
  dsimp only
  rw [hgi, hrj, hbk]
  have hother : ∀ (v : Byte) (n : Nat), v - (px.g - s.prev.g) = BitVec.ofInt 8 ((n : Int) - 8) →
      BitVec.ofInt 8 (((i : Nat) : Int) - 32 - 8 + n) = v := by
    intro v n hv
    have hsum : ((i : Nat) : Int) - 32 - 8 + n = (((i : Nat) : Int) - 32) + ((n : Int) - 8) := by
      ring
    rw [hsum, BitVec.ofInt_add, ← hg, ← hv, add_diff]
  rw [hother _ _ hr, hother _ _ hb]
  change Except.ok (s.see
    ⟨s.prev.r + (px.r - s.prev.r), s.prev.g + BitVec.ofInt 8 (((i : Nat) : Int) - 32),
      s.prev.b + (px.b - s.prev.b), s.prev.a⟩ ((s.reader.skip 1).skip 1)) = _
  rw [← hg, add_diff, add_diff, add_diff, ← halpha]
  rfl

/-- The chunk of a pixel is read as the pixel. -/
theorem decodePixel_chunk (hrun : s.run = 0)
    (hahead : s.reader.Ahead (chunkOf s.table s.prev px ++ rest)) :
    decodePixel s = .ok (s.see px (s.reader.skip (chunkOf s.table s.prev px).length)) := by
  rw [chunkOf] at hahead ⊢
  by_cases hget : s.table.get (hash px) = px
  · rw [if_pos hget] at hahead ⊢
    exact decodePixel_index hrun hget hahead
  · rw [if_neg hget] at hahead ⊢
    rw [pixelChunk] at hahead ⊢
    by_cases halpha : px.a = s.prev.a
    · rw [if_pos halpha] at hahead ⊢
      dsimp only at hahead ⊢
      split at hahead
      · rename_i hdiff
        rcases hdiff with ⟨⟨hrlow, hrhigh⟩, ⟨hglow, hghigh⟩, hblow, hbhigh⟩
        rcases exists_ofInt (n := 4) hrlow (by omega) with ⟨i, hi⟩
        rcases exists_ofInt (n := 4) hglow (by omega) with ⟨j, hj⟩
        rcases exists_ofInt (n := 4) hblow (by omega) with ⟨k, hk⟩
        rw [if_pos ⟨⟨hrlow, hrhigh⟩, ⟨hglow, hghigh⟩, hblow, hbhigh⟩]
        exact decodePixel_diff hrun halpha hi hj hk hahead
      · rename_i hdiff
        rw [if_neg hdiff]
        split at hahead
        · rename_i hluma
          rcases hluma with ⟨⟨hglow, hghigh⟩, ⟨hrlow, hrhigh⟩, hblow, hbhigh⟩
          rcases exists_ofInt (n := 64) hglow (by omega) with ⟨i, hi⟩
          rcases exists_ofInt (n := 16) hrlow (by omega) with ⟨j, hj⟩
          rcases exists_ofInt (n := 16) hblow (by omega) with ⟨k, hk⟩
          rw [if_pos ⟨⟨hglow, hghigh⟩, ⟨hrlow, hrhigh⟩, hblow, hbhigh⟩]
          exact decodePixel_luma hrun halpha hi hj hk hahead
        · rename_i hluma
          rw [if_neg hluma]
          exact decodePixel_rgb hrun halpha hahead
    · rw [if_neg halpha] at hahead ⊢
      exact decodePixel_rgba hrun hahead

theorem decodePixel_run {n : Nat} (hrun : s.run = 0) (hn : n < 62)
    (hahead : s.reader.Ahead (runChunk (n + 1) :: rest)) :
    decodePixel s = .ok { s with
      run := n
      reader := s.reader.skip 1 } := by
  rcases run_tag n hn with ⟨hrgb, hrgba, hindex, hdiff, hluma, hvalue⟩
  rw [decodePixel_of_ahead hrun hahead, decodeChunk, if_neg hrgb, if_neg hrgba, if_neg hindex,
    if_neg hdiff, if_neg hluma, hvalue]

end Chunk

/-! ## Runs -/

/-- The chunks that the encoder still writes for some pixels. -/
def encodeAll (total : Nat) (e : EncodeState) (pxs : List Px) : List Byte :=
  (outputs (encodePixel total) e pxs).flatten

/-- The encoder between two runs, some pixels on. -/
def EncodeState.closed (e : EncodeState) (n : Nat) : EncodeState :=
  { e with
    run := 0
    seen := e.seen + n }

/-- A run of a length ends: it is as long as a run can be, or another pixel comes, or none. -/
def Stops (n : Nat) (prev : Px) (after : List Px) : Prop :=
  n ≤ runMax ∧ (n = runMax ∨ ∀ px ∈ after.head?, px ≠ prev)

section Encode

variable {total : Nat} {e : EncodeState} {px : Px} {pxs : List Px}

theorem encodeAll_cons (total : Nat) (e : EncodeState) (px : Px) (pxs : List Px) :
    encodeAll total e (px :: pxs) =
      (encodePixel total e px).2 ++ encodeAll total (encodePixel total e px).1 pxs :=
  rfl

theorem closed_zero (hrun : e.run = 0) : e.closed 0 = e := by
  cases e
  cases hrun
  rfl

theorem encodePixel_close (hpx : px = e.prev) (hclose : e.run + 1 = runMax ∨ e.seen + 1 = total) :
    encodePixel total e px = (e.closed 1, [runChunk (e.run + 1)]) := by
  rw [encodePixel]
  dsimp only
  rw [if_pos hpx, if_pos hclose]
  rfl

theorem encodePixel_open (hpx : px = e.prev)
    (hopen : ¬(e.run + 1 = runMax ∨ e.seen + 1 = total)) :
    encodePixel total e px =
      ({ e with
        run := e.run + 1
        seen := e.seen + 1 }, []) := by
  rw [encodePixel]
  dsimp only
  rw [if_pos hpx, if_neg hopen]

theorem encodePixel_ne (hpx : px ≠ e.prev) :
    encodePixel total e px =
      (⟨e.table.set (hash px) px, px, 0, e.seen + 1⟩,
        (if 0 < e.run then [runChunk e.run] else []) ++ chunkOf e.table e.prev px) := by
  rw [encodePixel, chunkOf]
  dsimp only
  rw [if_neg hpx]
  by_cases hget : e.table.get (hash px) = px
  · rw [if_pos hget, if_pos hget, Table.set_get hget]
  · rw [if_neg hget, if_neg hget]

/-- When a run is open or begins, the chunk of the whole run comes, and then what follows it. -/
theorem exists_run (htotal : total = e.seen + pxs.length) (hlt : e.run < runMax) (hne : pxs ≠ [])
    (hopen : 0 < e.run ∨ pxs.head? = some e.prev) :
    ∃ n after, pxs = List.replicate n e.prev ++ after ∧ Stops (e.run + n) e.prev after ∧
      encodeAll total e pxs =
        runChunk (e.run + n) :: encodeAll total (e.closed n) after := by
  induction pxs generalizing e with
  | nil => exact absurd rfl hne
  | cons px pxs ih =>
      rw [List.length_cons] at htotal
      rw [encodeAll_cons]
      by_cases hpx : px = e.prev
      · by_cases hclose : e.run + 1 = runMax ∨ e.seen + 1 = total
        · rw [encodePixel_close hpx hclose]
          refine ⟨1, pxs, by rw [hpx]; rfl, ⟨by omega, ?_⟩, rfl⟩
          rcases hclose with hmax | hlast
          · exact Or.inl hmax
          · have hnil : pxs = [] := List.length_eq_zero_iff.mp (by omega)
            rw [hnil]
            exact Or.inr fun _ h => nomatch h
        · have hmore : pxs ≠ [] := by
            rintro rfl
            exact hclose (Or.inr (by rw [htotal]; rfl))
          rw [encodePixel_open hpx hclose]
          rcases ih (e := { e with
              run := e.run + 1
              seen := e.seen + 1 })
            (by dsimp only; omega) (by dsimp only; omega) hmore (Or.inl (Nat.succ_pos _)) with
            ⟨n, after, hpxs, hstops, hbytes⟩
          dsimp only at hpxs hstops
          rw [Nat.add_right_comm, Nat.add_assoc] at hstops
          refine ⟨n + 1, after, ?_, hstops, ?_⟩
          · rw [List.replicate_succ, List.cons_append, ← hpxs, hpx]
          · rw [List.nil_append, hbytes]
            dsimp only [EncodeState.closed]
            rw [Nat.add_right_comm, Nat.add_assoc e.run, Nat.add_assoc e.seen, Nat.add_comm 1 n]
      · have hrun : 0 < e.run := by
          rcases hopen with hrun | hhead
          · exact hrun
          · exact absurd (Option.some.inj hhead) hpx
        have hfresh : px ≠ (e.closed 0).prev := hpx
        refine ⟨0, px :: pxs, rfl, ⟨by omega, Or.inr ?_⟩, ?_⟩
        · intro other hother
          cases hother
          exact hpx
        · rw [encodePixel_ne hpx, encodeAll_cons, encodePixel_ne hfresh, if_pos hrun]
          rfl

end Encode

/-! ## Agreement -/

/-- The decoder is where the encoder is, up to the run that it has read ahead. -/
structure Agree (total : Nat) (e : EncodeState) (pxs : List Px) (tail : List Byte)
    (d : DecodeState) : Prop where
  total_eq : total = e.seen + pxs.length
  table_eq : d.table = e.table
  prev_eq : d.prev = e.prev
  ahead : ∃ after, pxs = List.replicate d.run e.prev ++ after ∧
    d.reader.Ahead (encodeAll total (e.closed d.run) after ++ tail) ∧
      (e.run = 0 ∧ d.run = 0 ∨
        0 < e.run ∧ e.run < runMax ∧ Stops (e.run + d.run) e.prev after)

section Agreement

variable {total : Nat} {e : EncodeState} {px : Px} {pxs : List Px} {tail : List Byte}
  {d d' : DecodeState}

theorem Agree.closed (h : Agree total e pxs tail d) (hrun : e.run = 0) :
    d.run = 0 ∧ d.reader.Ahead (encodeAll total e pxs ++ tail) := by
  rcases h.ahead with ⟨after, hpxs, hahead, ⟨-, hdrun⟩ | ⟨hopen, -⟩⟩
  · rw [hdrun] at hpxs hahead
    rw [hpxs]
    refine ⟨hdrun, ?_⟩
    rw [closed_zero hrun] at hahead
    exact hahead
  · omega

/-- A pixel of a run that the decoder has read. -/
theorem Agree.of_run {n : Nat} {after : List Px} (htotal : total = e.seen + (px :: pxs).length)
    (hlt : e.run < runMax) (hpxs : px :: pxs = List.replicate (n + 1) e.prev ++ after)
    (hstops : Stops (e.run + (n + 1)) e.prev after) (htable : d.table = e.table)
    (hprev : d.prev = e.prev) (hrun : d.run = n)
    (hahead : d.reader.Ahead (encodeAll total (e.closed (n + 1)) after ++ tail)) :
    px = e.prev ∧ Agree total (encodePixel total e px).1 pxs tail d := by
  rw [List.replicate_succ, List.cons_append] at hpxs
  rcases List.cons.inj hpxs with ⟨hpx, hpxs⟩
  rw [List.length_cons] at htotal
  refine ⟨hpx, ?_⟩
  by_cases hclose : e.run + 1 = runMax ∨ e.seen + 1 = total
  · have hn : n = 0 := by
      rcases hclose with hmax | hlast
      · have hle := hstops.1
        omega
      · have hlength := congrArg List.length hpxs
        rw [List.length_append, List.length_replicate] at hlength
        omega
    subst hn
    rw [encodePixel_close hpx hclose]
    exact
      { total_eq := by
          dsimp only [EncodeState.closed]
          omega
        table_eq := htable
        prev_eq := hprev
        ahead := ⟨after, by rw [hrun]; exact hpxs, by rw [hrun]; exact hahead, Or.inl ⟨rfl, hrun⟩⟩ }
  · rw [encodePixel_open hpx hclose]
    have hclosed : e.closed (n + 1) = EncodeState.closed
        { e with
          run := e.run + 1
          seen := e.seen + 1 } n := by
      rw [EncodeState.closed, Nat.add_comm n 1, ← Nat.add_assoc]
      rfl
    rw [hclosed] at hahead
    exact
      { total_eq := by
          dsimp only
          omega
        table_eq := htable
        prev_eq := hprev
        ahead := by
          refine ⟨after, by rw [hrun]; exact hpxs, by rw [hrun]; exact hahead, Or.inr ?_⟩
          dsimp only
          rw [hrun, Nat.add_right_comm]
          exact ⟨Nat.succ_pos _, by omega, hstops⟩ }

/-- With every pixel both sides stay in agreement, and the decoder's pixel is the encoder's. -/
theorem Agree.step (h : Agree total e (px :: pxs) tail d) :
    ∃ d', decodePixel d = .ok d' ∧ d'.prev = px ∧ d'.reader.data = d.reader.data ∧
      Agree total (encodePixel total e px).1 pxs tail d' := by
  rcases h.ahead with ⟨after, hpxs, hahead, hruns⟩
  rcases Nat.eq_zero_or_pos d.run with hdrun | hdrun
  · -- the decoder reads a chunk
    rw [hdrun, List.replicate_zero, List.nil_append] at hpxs
    rw [hdrun] at hahead
    subst hpxs
    by_cases hpx : px = e.prev
    · have herun : e.run = 0 := by
        rcases hruns with ⟨herun, -⟩ | ⟨-, hlt, -, hmax | hother⟩
        · exact herun
        · omega
        · exact absurd hpx (hother px rfl)
      rw [closed_zero herun] at hahead
      rcases exists_run h.total_eq (by rw [herun]; exact Nat.succ_pos 61)
        (List.cons_ne_nil px pxs) (Or.inr (congrArg some hpx)) with ⟨n, after, hrun, hstops, hbytes⟩
      rw [herun, Nat.zero_add] at hbytes
      cases n with
      | zero =>
          rw [herun] at hstops
          rw [List.replicate_zero, List.nil_append] at hrun
          rcases hstops.2 with hmax | hother
          · exact absurd hmax (by decide)
          · rw [← hrun] at hother
            exact absurd hpx (hother px rfl)
      | succ n =>
          have hn : n < 62 := by
            have hle : e.run + (n + 1) ≤ 62 := hstops.1
            omega
          rw [hbytes, List.cons_append] at hahead
          have hlt : e.run < runMax := by
            rw [herun]
            exact Nat.succ_pos 61
          have hagree := Agree.of_run
            (d := { d with
              run := n
              reader := d.reader.skip 1 })
            h.total_eq hlt hrun hstops h.table_eq h.prev_eq rfl hahead.skip_one
          exact ⟨_, decodePixel_run hdrun hn hahead, h.prev_eq.trans hpx.symm, rfl, hagree.2⟩
    · have hfresh : px ≠ (e.closed 0).prev := hpx
      rw [encodeAll_cons, encodePixel_ne hfresh, List.append_assoc, List.append_assoc] at hahead
      change d.reader.Ahead (chunkOf e.table e.prev px ++ _) at hahead
      rw [← h.table_eq, ← h.prev_eq] at hahead
      refine ⟨_, decodePixel_chunk hdrun hahead, rfl, rfl, ?_⟩
      rw [encodePixel_ne hpx]
      have htotal := h.total_eq
      rw [List.length_cons] at htotal
      have hskip := hahead.skip
      rw [h.table_eq, h.prev_eq] at hskip
      exact
        { total_eq := by
            dsimp only
            omega
          table_eq := congrArg (fun t : Table => t.set (hash px) px) h.table_eq
          prev_eq := rfl
          ahead := ⟨pxs, rfl, by rw [h.table_eq, h.prev_eq]; exact hskip, Or.inl ⟨rfl, rfl⟩⟩ }
  · -- the decoder is in a run that it has read
    rcases hruns with ⟨-, hzero⟩ | ⟨-, hlt, hstops⟩
    · omega
    · obtain ⟨n, hn⟩ : ∃ n, d.run = n + 1 := ⟨d.run - 1, by omega⟩
      rw [hn] at hpxs hahead hstops
      have hstep : decodePixel d = .ok { d with run := n } := by
        rw [decodePixel, if_pos hdrun, hn]
        rfl
      rcases Agree.of_run (d := { d with run := n }) h.total_eq hlt hpxs hstops h.table_eq h.prev_eq
        rfl hahead with ⟨hpx, hagree⟩
      exact ⟨_, hstep, h.prev_eq.trans hpx.symm, rfl, hagree⟩

end Agreement

end Qoi
end Vaco
