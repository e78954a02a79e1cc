import Vaco.Library.BoundedPasses
import Vaco.Mp4.Progressive

/-!
# The faststart fixed point

The length of `moov` decides the chunk offsets and the offsets decide the length: a track
whose offsets leave 32 bits takes four more bytes for each chunk, and these may carry the
offsets of another track over.  The widening comes in waves, and the passes are enough for
seven of them.

Main results:

- `faststart_exact`: when the offsets written are those of the payload.

Current gaps:

- A `moov` of more bytes than its own size field holds is compared by its length only.
-/

namespace Vaco
namespace Mp4

open Library BitStream ByteWords BoundedPasses Isom
open Vaco.Core (Error IoWriter)

/-! ## Lengths -/

/-- Length of a `trak` apart from its table of chunk offsets. -/
def trakRest (opts : MuxOptions) (movieTimescale : Nat) (track : TrackState) : Nat :=
  32 + (trackHeader track movieTimescale opts.creationTime).length +
    (buildEdts track movieTimescale).length + (mediaHead track opts.creationTime).length +
    (minfHead track).length + (stblHead track).length +
    if opts.encryption then (encryptionBoxes track 0).length else 0

/-- Length of `moov` with 32-bit chunk offsets everywhere. -/
def narrowLen (tracks : List TrackState) (opts : MuxOptions) (movieTimescale : Nat) : Nat :=
  8 + (movieHeader tracks opts movieTimescale).length +
    (tracks.map fun t => trakRest opts movieTimescale t + (16 + 4 * t.chunks.length)).sum +
    (buildUdta opts).length

/-- Whether a chunk of a track starts beyond 32 bits when the payload starts at `start`. -/
def crosses (start : Nat) (t : TrackState) : Bool :=
  t.chunkOffsetList.any fun o => decide (u32Max < o + start)

/-- Bytes that 64-bit chunk offsets add when the payload starts at `start`. -/
def widening (tracks : List TrackState) (start : Nat) : Nat :=
  (tracks.map fun t => if crosses start t then 4 * t.chunks.length else 0).sum

theorem needsCo64_shiftedOffsets (t : TrackState) (shift : Nat) :
    Writer.needsCo64 (shiftedOffsets t shift) = crosses shift t := by
  have hcaps : u32Max < u64Max := by decide
  rw [Writer.needsCo64, shiftedOffsets, crosses, List.any_map]
  congr 1
  ext o
  rw [Function.comp_apply, satAdd, decide_eq_decide]
  omega

theorem length_encryptionBoxes (track : TrackState) (start : Nat) :
    (encryptionBoxes track start).length = (encryptionBoxes track 0).length := by
  have hsaio : ∀ offset, (Writer.saio offset).length = 20 := by
    intro offset
    rw [Writer.saio, length_fullbx rfl, List.length_append, length_lenField, length_beBytes]
  simp only [encryptionBoxes, List.length_append, hsaio]

theorem length_buildStbl (track : TrackState) (shift : Nat)
    (encryption : Bool) (start : Nat) :
    (buildStbl track shift encryption start).length =
      8 + (stblHead track).length + (Writer.chunkOffsets (shiftedOffsets track shift)).length +
        if encryption then (encryptionBoxes track 0).length else 0 := by
  rw [buildStbl, length_bx rfl, List.length_append, List.length_append]
  split
  · rw [length_encryptionBoxes]
    omega
  · rw [List.length_nil]
    omega

theorem length_buildTrak (opts : MuxOptions) (movieTimescale shift start : Nat)
    (track : TrackState) :
    (buildTrak track movieTimescale opts.creationTime shift opts.encryption start).length =
      trakRest opts movieTimescale track + (16 + 4 * track.chunks.length) +
        if crosses shift track then 4 * track.chunks.length else 0 := by
  have hlen : (shiftedOffsets track shift).length = track.chunks.length := by
    rw [shiftedOffsets, List.length_map, TrackState.chunkOffsetList, List.length_map]
  rw [buildTrak, length_bx rfl, List.length_append, List.length_append, length_bx rfl,
    List.length_append,
    length_bx rfl, List.length_append, length_buildStbl, Writer.length_chunkOffsets, hlen,
    needsCo64_shiftedOffsets, trakRest]
  omega

theorem length_appendTraks (opts : MuxOptions) (movieTimescale shift moovStart : Nat)
    (tracks : List TrackState) (body : Bytes) :
    (appendTraks opts movieTimescale shift moovStart tracks body).length =
      body.length +
        (tracks.map fun t => trakRest opts movieTimescale t + (16 + 4 * t.chunks.length)).sum +
        widening tracks shift := by
  induction tracks generalizing body with
  | nil => rfl
  | cons t tracks ih =>
      rw [appendTraks, ih, List.length_append, length_buildTrak, List.map_cons, List.sum_cons,
        widening, widening, List.map_cons, List.sum_cons]
      omega

/-- `moov` is its length with 32-bit tables and the widening at the payload's start. -/
theorem length_buildMoov (tracks : List TrackState) (opts : MuxOptions)
    (movieTimescale shift moovStart : Nat) :
    (buildMoov tracks opts movieTimescale shift moovStart).length =
      narrowLen tracks opts movieTimescale + widening tracks shift := by
  rw [buildMoov, length_bx rfl, List.length_append, length_appendTraks, narrowLen]
  omega

/-! ## The widening -/

variable {tracks : List TrackState} {opts : MuxOptions} {movieTimescale : Nat}

theorem crosses_mono {start start' : Nat} (h : start ≤ start') {t : TrackState}
    (hcross : crosses start t = true) : crosses start' t = true := by
  rw [crosses, List.any_eq_true] at hcross ⊢
  rcases hcross with ⟨o, hmem, ho⟩
  exact ⟨o, hmem, decide_eq_true ((of_decide_eq_true ho).trans_le (by omega))⟩

theorem widening_mono (tracks : List TrackState) : Monotone (widening tracks) := by
  intro start start' h
  apply List.sum_le_sum
  intro t _
  cases hcross : crosses start t with
  | false => exact Nat.zero_le _
  | true => rw [crosses_mono h hcross]

theorem widening_min (tracks : List TrackState) (start : Nat) :
    widening tracks (min start u64Max) = widening tracks start := by
  have hcaps : u32Max < u64Max := by decide
  have hcross : ∀ t, crosses (min start u64Max) t = crosses start t := by
    intro t
    rw [crosses, crosses]
    congr 1
    ext o
    rw [decide_eq_decide]
    omega
  rw [widening, widening]
  simp only [hcross]

/-- The widening after some waves, the first for a payload right behind `ftyp`. -/
def wave (tracks : List TrackState) (ftypLen narrow : Nat) : Nat → Nat
  | 0 => widening tracks (ftypLen + 16)
  | i + 1 => widening tracks (ftypLen + narrow + wave tracks ftypLen narrow i + 16)

/-- The seventh wave widens nothing any more. -/
def Settles (tracks : List TrackState) (ftypLen narrow : Nat) : Prop :=
  wave tracks ftypLen narrow 7 = wave tracks ftypLen narrow 6

instance decidableSettles (tracks : List TrackState) (ftypLen narrow : Nat) :
    Decidable (Settles tracks ftypLen narrow) :=
  inferInstanceAs (Decidable (_ = _))

/-! ## The passes -/

/-- The length built with a trial length, as the passes compare it. -/
def builtLen (tracks : List TrackState) (ftypLen narrow trial : Nat) : Nat :=
  min (narrow + widening tracks (ftypLen + trial + 16)) u64Max

theorem prefixBeforeMdat_eq (ftypLen moovLen : Nat) :
    prefixBeforeMdat ftypLen moovLen = min (ftypLen + moovLen + 16) u64Max := by
  unfold prefixBeforeMdat satAdd mdatHeaderLen
  omega

theorem length_built (tracks : List TrackState) (opts : MuxOptions)
    (movieTimescale ftypLen trial : Nat) :
    (buildMoov tracks opts movieTimescale (prefixBeforeMdat ftypLen trial) ftypLen).length =
      narrowLen tracks opts movieTimescale + widening tracks (ftypLen + trial + 16) := by
  rw [length_buildMoov, prefixBeforeMdat_eq, widening_min]

theorem faststartPasses_eq (tracks : List TrackState) (opts : MuxOptions)
    (movieTimescale ftypLen left trial : Nat) (built : BuiltMoov) :
    faststartPasses tracks opts movieTimescale ftypLen (left + 1) trial built =
      let last := lastTrial
        (builtLen tracks ftypLen (narrowLen tracks opts movieTimescale)) left trial
      ⟨buildMoov tracks opts movieTimescale (prefixBeforeMdat ftypLen last) ftypLen,
        prefixBeforeMdat ftypLen last⟩ := by
  induction left generalizing trial built with
  | zero =>
      rw [faststartPasses, faststartPasses, ite_self]
      rfl
  | succ left ih =>
      have hgot : min (buildMoov tracks opts movieTimescale (prefixBeforeMdat ftypLen trial)
          ftypLen).length u64Max =
          builtLen tracks ftypLen (narrowLen tracks opts movieTimescale) trial := by
        rw [length_built, builtLen]
      rw [faststartPasses, hgot, lastTrial]
      split
      · rfl
      · exact ih _ _

theorem builtLen_mono (tracks : List TrackState) (ftypLen narrow : Nat) :
    Monotone (builtLen tracks ftypLen narrow) := by
  intro trial trial' h
  apply min_le_min_right
  exact Nat.add_le_add_left (widening_mono tracks (by omega)) narrow

theorem iterate_builtLen (tracks : List TrackState) (ftypLen narrow i : Nat) :
    (builtLen tracks ftypLen narrow)^[i + 1] 0 =
      min (narrow + wave tracks ftypLen narrow i) u64Max := by
  induction i with
  | zero => rfl
  | succ i ih =>
      have hcap : ∀ w, widening tracks (ftypLen + min (narrow + w) u64Max + 16) =
          widening tracks (ftypLen + narrow + w + 16) := by
        intro w
        rw [← widening_min tracks (ftypLen + min (narrow + w) u64Max + 16),
          ← widening_min tracks (ftypLen + narrow + w + 16)]
        congr 1
        omega
      rw [Function.iterate_succ_apply', ih, builtLen, hcap, wave]

/-! ## Exactness -/

/-- Every chunk offset that faststart writes is the position of its chunk behind the
`moov` written. -/
def OffsetsExact (ftypLen : Nat) (tracks : List TrackState) (opts : MuxOptions)
    (movieTimescale : Nat) : Prop :=
  let built := faststartMoov tracks opts movieTimescale ftypLen
  ∀ t ∈ tracks, shiftedOffsets t built.shift =
    t.chunkOffsetList.map fun o => ftypLen + built.bytes.length + 16 + o

/-- Every chunk lies at a 64-bit position behind the settled `moov`. -/
def PositionsFit (ftypLen narrow : Nat) (tracks : List TrackState) : Prop :=
  ∀ t ∈ tracks, ∀ o ∈ t.chunkOffsetList,
    ftypLen + narrow + wave tracks ftypLen narrow 7 + 16 + o ≤ u64Max

theorem widening_eq_zero (h : ∀ t ∈ tracks, t.chunkOffsetList = []) (start : Nat) :
    widening tracks start = 0 := by
  rw [widening, List.sum_eq_zero]
  intro n hn
  rcases List.mem_map.mp hn with ⟨t, ht, rfl⟩
  rw [crosses, h t ht]
  rfl

theorem wave_eq_zero (h : ∀ t ∈ tracks, t.chunkOffsetList = []) (ftypLen narrow i : Nat) :
    wave tracks ftypLen narrow i = 0 := by
  cases i with
  | zero => exact widening_eq_zero h _
  | succ i => exact widening_eq_zero h _

theorem offsetsExact_iff_lastTrial (ftypLen : Nat) (tracks : List TrackState)
    (opts : MuxOptions) (movieTimescale : Nat) :
    OffsetsExact ftypLen tracks opts movieTimescale ↔
      ∀ t ∈ tracks, ∀ o ∈ t.chunkOffsetList,
        min (o + min (ftypLen + lastTrial (builtLen tracks ftypLen
            (narrowLen tracks opts movieTimescale)) 7 0 + 16) u64Max) u64Max =
          ftypLen + (narrowLen tracks opts movieTimescale + widening tracks (ftypLen +
            lastTrial (builtLen tracks ftypLen (narrowLen tracks opts movieTimescale)) 7 0 +
            16)) + 16 + o := by
  rw [OffsetsExact, faststartMoov, show maxFaststartPasses = 7 + 1 from rfl,
    faststartPasses_eq]
  dsimp only
  rw [length_built, prefixBeforeMdat_eq]
  apply forall₂_congr
  intro t _
  rw [shiftedOffsets, List.map_inj_left]
  rfl

/-- The offsets written are exact if and only if the widening settles and every position
fits. -/
theorem offsetsExact_iff (ftypLen : Nat) (tracks : List TrackState) (opts : MuxOptions)
    (movieTimescale : Nat) :
    OffsetsExact ftypLen tracks opts movieTimescale ↔
      Settles tracks ftypLen (narrowLen tracks opts movieTimescale) ∧
        PositionsFit ftypLen (narrowLen tracks opts movieTimescale) tracks := by
  rw [offsetsExact_iff_lastTrial, Settles, PositionsFit]
  generalize narrowLen tracks opts movieTimescale = narrow
  generalize hlast : lastTrial (builtLen tracks ftypLen narrow) 7 0 = last
  have hsix : (builtLen tracks ftypLen narrow)^[7] 0 =
      min (narrow + wave tracks ftypLen narrow 6) u64Max := iterate_builtLen _ _ _ _
  have hseven : (builtLen tracks ftypLen narrow)^[8] 0 =
      min (narrow + wave tracks ftypLen narrow 7) u64Max := iterate_builtLen _ _ _ _
  have hbuilt : builtLen tracks ftypLen narrow last =
      min (narrow + widening tracks (ftypLen + last + 16)) u64Max := rfl
  by_cases hchunk : ∃ t ∈ tracks, ∃ o, o ∈ t.chunkOffsetList
  · rcases hchunk with ⟨t, ht, o, ho⟩
    constructor
    · intro h
      have hexact := h t ht o ho
      have hup : last ≤ builtLen tracks ftypLen narrow last := by
        rcases lastTrial_eq_iterate (builtLen tracks ftypLen narrow) 7 0 with ⟨j, -, hj⟩
        have hchain := (builtLen_mono tracks ftypLen narrow).monotone_iterate_of_le_map
          (Nat.zero_le _) (Nat.le_succ j)
        rw [hlast] at hj
        rw [hj, ← Function.iterate_succ_apply' (builtLen tracks ftypLen narrow) j]
        exact hchain
      have hfixed : builtLen tracks ftypLen narrow last = last := by
        generalize u64Max = cap at *
        omega
      have hagree : (builtLen tracks ftypLen narrow)^[8] 0 =
          (builtLen tracks ftypLen narrow)^[7] 0 :=
        (lastTrial_fixed_iff 7 0).mp (by rw [hlast]; exact hfixed)
      have hiter := lastTrial_of_agree hagree
      rw [hlast] at hiter
      constructor
      · generalize u64Max = cap at *
        omega
      · intro t' ht' o' ho'
        have hexact' := h t' ht' o' ho'
        generalize u64Max = cap at *
        omega
    · rintro ⟨hsettles, hfit⟩ t' ht' o' ho'
      have hpos := hfit t' ht' o' ho'
      have hagree : (builtLen tracks ftypLen narrow)^[8] 0 =
          (builtLen tracks ftypLen narrow)^[7] 0 := by
        rw [hseven, hsix, hsettles]
      have hiter := lastTrial_of_agree hagree
      have hfixed := (lastTrial_fixed_iff 7 0).mpr hagree
      rw [hlast] at hiter hfixed
      generalize u64Max = cap at *
      omega
  · have hnone : ∀ t ∈ tracks, t.chunkOffsetList = [] := by
      intro t ht
      rw [List.eq_nil_iff_forall_not_mem]
      intro o ho
      exact hchunk ⟨t, ht, o, ho⟩
    constructor
    · intro _
      refine ⟨?_, ?_⟩
      · rw [wave_eq_zero hnone, wave_eq_zero hnone]
      · intro t ht o ho
        exact absurd ⟨t, ht, o, ho⟩ hchunk
    · intro _ t ht o ho
      exact absurd ⟨t, ht, o, ho⟩ hchunk

theorem faststartMoov_bytes (tracks : List TrackState) (opts : MuxOptions)
    (movieTimescale ftypLen : Nat) :
    (faststartMoov tracks opts movieTimescale ftypLen).bytes =
      buildMoov tracks opts movieTimescale
        (faststartMoov tracks opts movieTimescale ftypLen).shift ftypLen := by
  rw [faststartMoov, show maxFaststartPasses = 7 + 1 from rfl, faststartPasses_eq]

/-- The chunk offsets in `moov` are the positions of the chunks if and only if the widening settles
within seven waves and every position fits 64 bits. -/
theorem faststart_exact (before mdatBuf : Bytes) (isSeekable : Bool) (tracks : List TrackState)
    (opts : MuxOptions) (movieTimescale : Nat) :
    (∃ header : Bytes, header.length = 16 ∧
      finishFaststart (.ofBytes before isSeekable) tracks opts movieTimescale mdatBuf =
        .ofBytes (before ++ buildMoov tracks opts movieTimescale
          (faststartMoov tracks opts movieTimescale before.length).shift before.length ++
          header ++ mdatBuf) isSeekable) ∧
    (OffsetsExact before.length tracks opts movieTimescale ↔
      Settles tracks before.length (narrowLen tracks opts movieTimescale) ∧
        PositionsFit before.length (narrowLen tracks opts movieTimescale) tracks) := by
  refine ⟨?_, offsetsExact_iff before.length tracks opts movieTimescale⟩
  refine ⟨be32 1 ++ fourCc 'm' 'd' 'a' 't' ++
    be64 (satAdd u64Max mdatHeaderLen (min mdatBuf.length u64Max)), ?_, ?_⟩
  · rw [List.length_append, List.length_append, length_beBytes, length_beBytes]
    rfl
  · rw [← faststartMoov_bytes, finishFaststart]
    simp only [IoWriter.write_append, List.append_assoc]
    rfl

/-- A track of one sample in a chunk of its own. -/
def oneSample (trackId offset size : Nat) : TrackState :=
  { trackId := trackId
    media := .video
    handler := fourCc 'v' 'i' 'd' 'e'
    timescale := 1000
    volume := 0
    width := 0
    height := 0
    language := 0x55C4
    entryBytes := bx (fourCc 'm' 'p' '4' 'v') (List.replicate 78 0)
    bitRate := none
    isH264 := false
    samples :=
      [{ offset := offset
         size := size
         dts := .lit 0
         ctsOffset := .lit 0
         isSync := true }]
    chunks :=
      [{ offset := offset
         sampleCount := 1 }]
    lastDurationHint := 40
    lastDurationHint_le := by decide
    matrix := identityMatrix }

/-- A sample of nearly four gibibytes, and seven samples of four bytes behind it that lie a
step of four bytes apart. -/
def staircase (size : Nat) : List TrackState :=
  oneSample 1 0 size :: (List.range 7).map fun i => oneSample (i + 2) (size + 4 * i) 4

theorem narrowLen_staircase : narrowLen (staircase 4294962963) {} 1000 = 4265 := by
  decide +kernel

/-- The seven small samples cross over one after another, and the last pass is one short. -/
theorem staircase_not_exact :
    ¬ OffsetsExact (fileTypeBox .mp4 false).length (staircase 4294962963) {} 1000 := by
  rw [offsetsExact_iff, narrowLen_staircase]
  intro h
  have hsettles : ¬ Settles (staircase 4294962963) (fileTypeBox .mp4 false).length 4265 := by
    decide +kernel
  exact hsettles h.1

end Mp4
end Vaco
