import Vaco.Ebml.Vint

/-!
# Laced blocks

A block is a track number, a time, a flags octet and the data of its frames.  A lace puts several
frames into one block, behind their number and the sizes of all but the last: as runs of the largest
octet, as a number and its signed differences, or not at all where all sizes are equal.

Main results:

- `frames_extents`: the frames of a block leave no gap.
- `lacing_round_trips`: the frames of a lace are read back.

Current gaps:

- Lengths are unbounded; the checks that only a length past a machine word would fail are left out.
-/

namespace Vaco
namespace Matroska

open Library BitStream Vaco.Core Ebml

/-! ## Reading -/

/-- The lacing that the flags of a block select. -/
inductive Lacing where
  | none
  | xiph
  | ebml
  | fixed
deriving DecidableEq

/-- Read the lacing bits of a flags octet. -/
def Lacing.fromFlags (flags : BitVec 8) : Lacing :=
  if (flags >>> 1) &&& 0b11#8 = 0b01#8 then .xiph
  else if (flags >>> 1) &&& 0b11#8 = 0b11#8 then .ebml
  else if (flags >>> 1) &&& 0b11#8 = 0b10#8 then .fixed
  else .none

/-- A block header. -/
structure BlockHeader where
  track : Nat
  relTimestamp : Int
  keyframe : Bool
  invisible : Bool
  discardable : Bool
  lacing : Lacing
  headerLen : Nat

/-- Read the header of a block. -/
def parseHeader (data : Bytes) (simple : Bool) : Except Error BlockHeader :=
  match readSize data MAX_SIZE_LEN with
  | .error _ => .error (.invalidData "block track number is not a VINT")
  | .ok (.unknown, _) => .error (.invalidData "block track number is the unknown marker")
  | .ok (.known track, used) =>
      match data[used]?, data[used + 1]?, data[used + 2]? with
      | some hi, some lo, some flags =>
          .ok {
            track := track
            relTimestamp := (hi ++ lo).toInt
            keyframe := simple && (flags &&& 0x80#8 != 0)
            invisible := flags &&& 0x08#8 != 0
            discardable := simple && (flags &&& 0x01#8 != 0)
            lacing := Lacing.fromFlags flags
            headerLen := used + 3 }
      | _, _, _ => .error .unexpectedEof

/-- The extent of a frame in the data of a block. -/
structure Frame where
  offset : Nat
  len : Nat

/-- The size of a run of largest octets and the octet that ends it. -/
def xiphSize : Bytes → Except Error (Nat × Nat)
  | [] => .error .unexpectedEof
  | b :: rest =>
      if b ≠ 0xFF#8 then .ok (b.toNat, 1)
      else
        match xiphSize rest with
        | .error e => .error e
        | .ok (size, used) => .ok (255 + size, used + 1)

/-- A number of sizes, and the octets they took. -/
def xiphSizes : Nat → Bytes → Except Error (List Nat × Nat)
  | 0, _ => .ok ([], 0)
  | count + 1, buf =>
      match xiphSize buf with
      | .error e => .error e
      | .ok (size, used) =>
          match xiphSizes count (buf.drop used) with
          | .error e => .error e
          | .ok (sizes, more) => .ok (size :: sizes, used + more)

/-- A number of sizes by their differences, and the octets they took. -/
def ebmlDeltas (prev : Nat) : Nat → Bytes → Except Error (List Nat × Nat)
  | 0, _ => .ok ([], 0)
  | count + 1, buf =>
      match readSignedVint buf with
      | .error e => .error e
      | .ok (delta, used) =>
          if (prev : Int) + delta < 0 then
            .error (.invalidData "ebml lace size delta goes negative")
          else
            match ebmlDeltas ((prev : Int) + delta).toNat count (buf.drop used) with
            | .error e => .error e
            | .ok (sizes, more) => .ok (((prev : Int) + delta).toNat :: sizes, used + more)

/-- A number of sizes, the first one as itself, and the octets they took. -/
def ebmlSizes : Nat → Bytes → Except Error (List Nat × Nat)
  | 0, _ => .ok ([], 0)
  | count + 1, buf =>
      match readSize buf MAX_SIZE_LEN with
      | .error e => .error e
      | .ok (.unknown, _) => .error (.invalidData "ebml lace size is the unknown marker")
      | .ok (.known size, used) =>
          match ebmlDeltas size count (buf.drop used) with
          | .error e => .error e
          | .ok (sizes, more) => .ok (size :: sizes, used + more)

def placeFrames (totalEnd : Nat) : Nat → List Nat → Except Error (List Frame)
  | start, [] => .ok [⟨start, totalEnd - start⟩]
  | start, len :: sizes =>
      if totalEnd < start + len then
        .error (.invalidData "laced frame runs past the block")
      else
        match placeFrames totalEnd (start + len) sizes with
        | .error e => .error e
        | .ok out => .ok (⟨start, len⟩ :: out)

/-- Read the number of frames, their sizes, and place them. -/
def laced (body : Bytes) (base : Nat) (sizes : Nat → Bytes → Except Error (List Nat × Nat)) :
    Except Error (List Frame) :=
  match body with
  | [] => .error .unexpectedEof
  | count :: rest =>
      match sizes count.toNat rest with
      | .error e => .error e
      | .ok (sizes, used) => placeFrames (base + body.length) (base + 1 + used) sizes

/-- Frames of one size behind each other. -/
def fixedFrames (each : Nat) : Nat → Nat → List Frame
  | 0, _ => []
  | count + 1, start => ⟨start, each⟩ :: fixedFrames each count (start + each)

/-- Read the number of frames and divide the rest. -/
def fixed (body : Bytes) (base : Nat) : Except Error (List Frame) :=
  match body with
  | [] => .error .unexpectedEof
  | count :: rest =>
      if rest.length % (count.toNat + 1) ≠ 0 then
        .error (.invalidData "fixed-size lace does not divide evenly into its frame count")
      else
        .ok (fixedFrames (rest.length / (count.toNat + 1)) (count.toNat + 1) (base + 1))

/-- Split the data of a block into frames. -/
def frames (data : Bytes) (header : BlockHeader) : Except Error (List Frame) :=
  if data.length < header.headerLen then .error .unexpectedEof
  else
    let body := data.drop header.headerLen
    match header.lacing with
    | .none => .ok [⟨header.headerLen, body.length⟩]
    | .xiph => laced body header.headerLen xiphSizes
    | .ebml => laced body header.headerLen ebmlSizes
    | .fixed => fixed body header.headerLen

/-! ## Writing -/

/-- The kinds of lacing. -/
inductive LaceKind where
  | none
  | xiph
  | fixedSize
  | ebml

/-- The lacing bits in their place. -/
def LaceKind.flagBits : LaceKind → BitVec 8
  | .none => 0x00#8
  | .xiph => 0x02#8
  | .ebml => 0x06#8
  | .fixedSize => 0x04#8

/-- Encode the header of a block. -/
def blockHeader (track : Nat) (relTs : Int) (flags : BitVec 8) : Except Error Bytes :=
  if -32768 ≤ relTs ∧ relTs ≤ 32767 then
    .ok (vintMin track ++
      [(BitVec.ofInt 16 relTs).extractLsb' 8 8, (BitVec.ofInt 16 relTs).extractLsb' 0 8] ++ [flags])
  else
    .error (.unsupported "matroska: block timestamp does not fit a cluster")

/-- A size as a run of largest octets and what is left. -/
def xiphCode (n : Nat) : Bytes :=
  List.replicate (n / 255) 0xFF#8 ++ [BitVec.ofNat 8 (n % 255)]

/-- Sizes by their differences. -/
def ebmlDeltaCodes : Nat → List Nat → Bytes
  | _, [] => []
  | prev, len :: lens => signedVint ((len : Int) - prev) ++ ebmlDeltaCodes len lens

/-- Sizes, the first one as itself. -/
def ebmlCodes : List Nat → Bytes
  | [] => []
  | len :: lens => vintMin len ++ ebmlDeltaCodes len lens

/-- The number of frames as a lace holds it. -/
def laceHead (fs : List Bytes) : BitVec 8 :=
  BitVec.ofNat 8 (fs.length - 1)

/-- The sizes that a lace holds. -/
def codedSizes (fs : List Bytes) : List Nat :=
  (fs.take (fs.length - 1)).map List.length

/-- Lace frames with runs of the largest octet. -/
def xiphLace (fs : List Bytes) : Bytes :=
  laceHead fs :: ((codedSizes fs).flatMap xiphCode ++ fs.flatten)

/-- Lace frames with differences of sizes. -/
def ebmlLace (fs : List Bytes) : Bytes :=
  laceHead fs :: (ebmlCodes (codedSizes fs) ++ fs.flatten)

/-- Lace frames of one size. -/
def fixedLace (fs : List Bytes) : Bytes :=
  laceHead fs :: fs.flatten

/-- Lace frames into the payload of one block. -/
def lace (kind : LaceKind) (fs : List Bytes) : Except Error Bytes :=
  if 256 < fs.length then .error (.unsupported "matroska: lace holds at most 256 frames")
  else
    match kind with
    | .none => .ok (fs.head?.getD [])
    | .xiph => .ok (xiphLace fs)
    | .ebml => .ok (ebmlLace fs)
    | .fixedSize =>
        if fs.any fun f => f.length != (fs.head?.map List.length).getD 0 then
          .error (.unsupported "matroska: fixed-size lacing needs frames of equal length")
        else
          .ok (fixedLace fs)

/-! ## Extents -/

/-- Frames that follow each other from one place to another. -/
def Extents (stop : Nat) : Nat → List Frame → Prop
  | start, [] => start = stop
  | start, f :: out => f.offset = start ∧ Extents stop (start + f.len) out

/-- Frames of some sizes behind each other. -/
def spread : Nat → List Nat → List Frame
  | _, [] => []
  | start, len :: lens => ⟨start, len⟩ :: spread (start + len) lens

/-- The bytes of a frame. -/
def Frame.cut (data : Bytes) (f : Frame) : Bytes :=
  (data.drop f.offset).take f.len

variable {data body rest : Bytes} {header : BlockHeader} {out : List Frame} {fs : List Bytes}
  {start stop total base n : Nat} {sizes lens : List Nat}

theorem extents_spread (start : Nat) (lens : List Nat) :
    Extents (start + lens.sum) start (spread start lens) := by
  induction lens generalizing start with
  | nil => rfl
  | cons len lens ih =>
      have hrest := ih (start + len)
      rw [Nat.add_assoc, ← List.sum_cons] at hrest
      exact ⟨rfl, hrest⟩

theorem placeFrames_eq (h : start + sizes.sum ≤ total) :
    placeFrames total start sizes =
      .ok (spread start (sizes ++ [total - (start + sizes.sum)])) := by
  induction sizes generalizing start with
  | nil => rfl
  | cons len sizes ih =>
      rw [List.sum_cons, ← Nat.add_assoc] at h ⊢
      have hnot : ¬ total < start + len := by omega
      rw [placeFrames, if_neg hnot, ih h]
      rfl

theorem placeFrames_fits (h : placeFrames total start sizes = .ok out)
    (hempty : sizes = [] → start ≤ total) : start + sizes.sum ≤ total := by
  induction sizes generalizing start out with
  | nil => simpa using hempty rfl
  | cons len sizes ih =>
      rw [placeFrames] at h
      split at h
      · cases h
      · rename_i hfits
        cases hrest : placeFrames total (start + len) sizes with
        | error e => simp [hrest] at h
        | ok more =>
            have hsum := ih hrest fun _ => by omega
            rw [List.sum_cons]
            omega

theorem placeFrames_extents (h : placeFrames total start sizes = .ok out)
    (hempty : sizes = [] → start ≤ total) : out ≠ [] ∧ Extents total start out := by
  have hfits := placeFrames_fits h hempty
  rw [placeFrames_eq hfits] at h
  cases h
  have hextents := extents_spread start (sizes ++ [total - (start + sizes.sum)])
  rw [List.sum_append, List.sum_singleton, ← Nat.add_assoc, Nat.add_sub_cancel' hfits] at hextents
  refine ⟨?_, hextents⟩
  cases sizes <;> simp [spread]

theorem fixedFrames_eq (each count start : Nat) :
    fixedFrames each count start = spread start (List.replicate count each) := by
  induction count generalizing start with
  | zero => rfl
  | succ count ih => rw [fixedFrames, List.replicate_succ, spread, ih]

theorem laced_extents {read : Nat → Bytes → Except Error (List Nat × Nat)}
    (hread : ∀ count buf used, read count buf = .ok ([], used) → used = 0)
    (h : laced body base read = .ok out) :
    out ≠ [] ∧ ∃ start, base ≤ start ∧ Extents (base + body.length) start out := by
  cases body with
  | nil => cases h
  | cons count rest =>
      rw [laced] at h
      cases hsizes : read count.toNat rest with
      | error e => simp [hsizes] at h
      | ok result =>
          rw [hsizes] at h
          have hplaced := placeFrames_extents h (by
            intro hnil
            have hused := hread count.toNat rest result.2 (by rw [hsizes, ← hnil])
            rw [List.length_cons]
            omega)
          exact ⟨hplaced.1, base + 1 + result.2, by omega, hplaced.2⟩

theorem xiphSizes_nil {count used : Nat} {buf : Bytes} (h : xiphSizes count buf = .ok ([], used)) :
    used = 0 := by
  cases count with
  | zero => cases h; rfl
  | succ count =>
      rw [xiphSizes] at h
      split at h
      · cases h
      · split at h <;> cases h

theorem ebmlSizes_nil {count used : Nat} {buf : Bytes} (h : ebmlSizes count buf = .ok ([], used)) :
    used = 0 := by
  cases count with
  | zero => cases h; rfl
  | succ count =>
      rw [ebmlSizes] at h
      split at h
      · cases h
      · cases h
      · split at h <;> cases h

theorem fixed_extents (h : fixed body base = .ok out) :
    out ≠ [] ∧ ∃ start, base ≤ start ∧ Extents (base + body.length) start out := by
  cases body with
  | nil => cases h
  | cons count rest =>
      rw [fixed] at h
      split at h
      · cases h
      · rename_i hmod
        cases h
        have hextents := extents_spread (base + 1)
          (List.replicate (count.toNat + 1) (rest.length / (count.toNat + 1)))
        have hdiv := Nat.mul_div_cancel' (Nat.dvd_of_mod_eq_zero (not_not.1 hmod))
        rw [List.sum_replicate, smul_eq_mul, hdiv, ← fixedFrames_eq] at hextents
        refine ⟨by simp [fixedFrames], base + 1, by omega, ?_⟩
        rw [List.length_cons, show base + (rest.length + 1) = base + 1 + rest.length by omega]
        exact hextents

/-- The frames of a block follow each other up to its end. -/
theorem frames_extents (h : frames data header = .ok out) :
    out ≠ [] ∧ ∃ start, header.headerLen ≤ start ∧ Extents data.length start out := by
  unfold frames at h
  split at h
  · cases h
  · rename_i hlen
    have htotal : header.headerLen + (data.drop header.headerLen).length = data.length := by
      rw [List.length_drop]
      omega
    cases hlacing : header.lacing with
    | none =>
        simp only [hlacing, Except.ok.injEq] at h
        subst h
        exact ⟨by simp, header.headerLen, le_refl _, rfl, htotal⟩
    | xiph =>
        simp only [hlacing] at h
        have hextents := laced_extents (fun _ _ _ => xiphSizes_nil) h
        rwa [htotal] at hextents
    | ebml =>
        simp only [hlacing] at h
        have hextents := laced_extents (fun _ _ _ => ebmlSizes_nil) h
        rwa [htotal] at hextents
    | fixed =>
        simp only [hlacing] at h
        have hextents := fixed_extents h
        rwa [htotal] at hextents

/-! ## Sizes read back -/

theorem xiphSize_code (n : Nat) (rest : Bytes) :
    xiphSize (xiphCode n ++ rest) = .ok (n, (xiphCode n).length) := by
  have hlast : ∀ r < 255, xiphSize (BitVec.ofNat 8 r :: rest) = .ok (r, 1) := by
    intro r hr
    have hvalue : (BitVec.ofNat 8 r).toNat = r := by
      rw [BitVec.toNat_ofNat]
      omega
    have hne : BitVec.ofNat 8 r ≠ 0xFF#8 := by
      intro heq
      have hsame := congrArg BitVec.toNat heq
      rw [hvalue] at hsame
      simp at hsame
      omega
    rw [xiphSize, if_pos hne, hvalue]
  have hrun : ∀ q r, r < 255 →
      xiphSize (List.replicate q 0xFF#8 ++ BitVec.ofNat 8 r :: rest) =
        .ok (255 * q + r, q + 1) := by
    intro q r hr
    induction q with
    | zero => simpa using hlast r hr
    | succ q ih =>
        rw [List.replicate_succ, List.cons_append, xiphSize, if_neg (not_not.2 rfl), ih]
        dsimp only
        congr 2
        omega
  have hmod := Nat.mod_lt n (by norm_num : 0 < 255)
  rw [xiphCode, List.append_assoc, List.singleton_append, hrun _ _ hmod, Nat.div_add_mod]
  simp

theorem xiphSizes_codes (lens : List Nat) (rest : Bytes) :
    xiphSizes lens.length (lens.flatMap xiphCode ++ rest) =
      .ok (lens, (lens.flatMap xiphCode).length) := by
  induction lens with
  | nil => rfl
  | cons len lens ih =>
      rw [List.length_cons, xiphSizes, List.flatMap_cons, List.append_assoc, xiphSize_code]
      dsimp only
      rw [List.drop_left, ih, List.length_append]

/-- Sizes that a number and its signed differences can tell. -/
def Codable : List Nat → Prop
  | [] => True
  | len :: lens =>
      len < 2 ^ 56 - 1 ∧
        List.IsChain (fun a b : Nat => -(2 ^ 55 - 1) ≤ (b : Int) - a ∧ (b : Int) - a ≤ 2 ^ 55 - 1)
          (len :: lens)

theorem ebmlDeltas_codes (prev : Nat) (lens : List Nat) (rest : Bytes)
    (h : List.IsChain (fun a b : Nat => -(2 ^ 55 - 1) ≤ (b : Int) - a ∧ (b : Int) - a ≤ 2 ^ 55 - 1)
      (prev :: lens)) :
    ebmlDeltas prev lens.length (ebmlDeltaCodes prev lens ++ rest) =
      .ok (lens, (ebmlDeltaCodes prev lens).length) := by
  induction lens generalizing prev with
  | nil => rfl
  | cons len lens ih =>
      have hchain := List.isChain_cons_cons.1 h
      have hback : (prev : Int) + ((len : Int) - prev) = len := by omega
      rw [List.length_cons, ebmlDeltas, ebmlDeltaCodes, List.append_assoc,
        readSignedVint_signedVint hchain.1.1 hchain.1.2]
      dsimp only
      rw [hback, if_neg (by omega), Int.toNat_natCast, List.drop_left, ih len hchain.2,
        List.length_append]

theorem ebmlSizes_codes (lens : List Nat) (rest : Bytes) (h : Codable lens) :
    ebmlSizes lens.length (ebmlCodes lens ++ rest) = .ok (lens, (ebmlCodes lens).length) := by
  cases lens with
  | nil => rfl
  | cons len lens =>
      rw [List.length_cons, ebmlSizes, ebmlCodes, List.append_assoc,
        readSize_vintMin h.1 le_maxSizeLen]
      dsimp only
      rw [List.drop_left, ebmlDeltas_codes len lens rest h.2, List.length_append]

/-! ## The round trip -/

/-- The lacing that a kind is read as. -/
def LaceKind.lacing : LaceKind → Lacing
  | .none => .none
  | .xiph => .xiph
  | .fixedSize => .fixed
  | .ebml => .ebml

def LaceKind.Holds (kind : LaceKind) (fs : List Bytes) : Prop :=
  match kind with
  | .none => fs.length = 1
  | .xiph => True
  | .fixedSize => ∃ len, ∀ f ∈ fs, f.length = len
  | .ebml => Codable (codedSizes fs)

def RoundTrips (kind : LaceKind) (fs : List Bytes) : Prop :=
  ∃ payload, lace kind fs = .ok payload ∧
    ∀ (track : Nat) (relTs : Int) (flags : BitVec 8) (simple : Bool),
      track < 2 ^ 56 - 1 → -32768 ≤ relTs → relTs ≤ 32767 → flags &&& 0x06#8 = 0 →
        ∃ head header out, blockHeader track relTs (flags ||| kind.flagBits) = .ok head ∧
          parseHeader (head ++ payload) simple = .ok header ∧
          frames (head ++ payload) header = .ok out ∧
          out.map (Frame.cut (head ++ payload)) = fs

theorem fromFlags_flagBits (kind : LaceKind) {flags : BitVec 8} (h : flags &&& 0x06#8 = 0) :
    Lacing.fromFlags (flags ||| kind.flagBits) = kind.lacing := by
  have hall : ∀ n < 256, BitVec.ofNat 8 n &&& 0x06#8 = 0 →
      Lacing.fromFlags (BitVec.ofNat 8 n ||| 0x00#8) = .none ∧
        Lacing.fromFlags (BitVec.ofNat 8 n ||| 0x02#8) = .xiph ∧
        Lacing.fromFlags (BitVec.ofNat 8 n ||| 0x06#8) = .ebml ∧
        Lacing.fromFlags (BitVec.ofNat 8 n ||| 0x04#8) = .fixed := by decide +kernel
  have hflags := hall flags.toNat flags.isLt
  rw [BitVec.ofNat_toNat, BitVec.setWidth_eq] at hflags
  cases kind with
  | none => exact (hflags h).1
  | xiph => exact (hflags h).2.1
  | ebml => exact (hflags h).2.2.1
  | fixedSize => exact (hflags h).2.2.2

/-- A written header is read back. -/
theorem parseHeader_blockHeader {track : Nat} {relTs : Int} {flags : BitVec 8} {head : Bytes}
    (htrack : track < 2 ^ 56 - 1) (hhead : blockHeader track relTs flags = .ok head)
    (payload : Bytes) (simple : Bool) :
    parseHeader (head ++ payload) simple = .ok {
      track := track
      relTimestamp := relTs
      keyframe := simple && (flags &&& 0x80#8 != 0)
      invisible := flags &&& 0x08#8 != 0
      discardable := simple && (flags &&& 0x01#8 != 0)
      lacing := Lacing.fromFlags flags
      headerLen := head.length } := by
  have hword : ∀ w : BitVec 16, w.extractLsb' 8 8 ++ w.extractLsb' 0 8 = w := by
    intro w
    ext i hi
    simp
    grind
  rw [blockHeader] at hhead
  split at hhead
  · rename_i hrange
    cases hhead
    have hback : (BitVec.ofInt 16 relTs).toInt = relTs := by
      rw [BitVec.toInt_ofInt]
      exact Int.bmod_eq_of_le (by norm_num; omega) (by norm_num; omega)
    rw [List.append_assoc, List.append_assoc, parseHeader, readSize_vintMin htrack le_maxSizeLen]
    simp [hword, hback]
  · cases hhead

theorem cut_spread (before : Bytes) (fs : List Bytes) :
    (spread before.length (fs.map List.length)).map (Frame.cut (before ++ fs.flatten)) = fs := by
  induction fs generalizing before with
  | nil => rfl
  | cons f fs ih =>
      have hrest := ih (before ++ f)
      rw [List.length_append, List.append_assoc] at hrest
      rw [List.map_cons, spread, List.map_cons, List.flatten_cons, hrest, Frame.cut]
      dsimp only
      rw [List.drop_left, List.take_left]

theorem toNat_laceHead (hpos : 1 ≤ fs.length) (hcount : fs.length ≤ 256) :
    (laceHead fs).toNat = fs.length - 1 := by
  rw [laceHead, BitVec.toNat_ofNat]
  omega

theorem codedSizes_last (hpos : 1 ≤ fs.length) :
    (codedSizes fs).length = fs.length - 1 ∧ (codedSizes fs).sum ≤ fs.flatten.length ∧
      codedSizes fs ++ [fs.flatten.length - (codedSizes fs).sum] = fs.map List.length := by
  rcases List.eq_nil_or_concat fs with rfl | ⟨init, last, rfl⟩
  · simp at hpos
  · have hcoded : codedSizes (init ++ [last]) = init.map List.length := by
      simp [codedSizes]
    rw [List.concat_eq_append, hcoded]
    refine ⟨by simp, by simp [List.length_flatten], ?_⟩
    simp [List.length_flatten]

/-- A lace whose sizes are read back gives its frames back. -/
theorem laced_lace {read : Nat → Bytes → Except Error (List Nat × Nat)} {codes : Bytes}
    (head : Bytes) (hpos : 1 ≤ fs.length) (hcount : fs.length ≤ 256)
    (hread : read (codedSizes fs).length (codes ++ fs.flatten) =
      .ok (codedSizes fs, codes.length)) :
    ∃ out, laced (laceHead fs :: (codes ++ fs.flatten)) head.length read = .ok out ∧
      out.map (Frame.cut (head ++ laceHead fs :: (codes ++ fs.flatten))) = fs := by
  rcases codedSizes_last hpos with ⟨hlength, hsum, hsizes⟩
  have hbefore : (head ++ laceHead fs :: codes).length = head.length + 1 + codes.length := by
    simp only [List.length_append, List.length_cons]
    omega
  have hdata : head ++ laceHead fs :: (codes ++ fs.flatten) =
      (head ++ laceHead fs :: codes) ++ fs.flatten := by simp
  have hstop : head.length + (laceHead fs :: (codes ++ fs.flatten)).length =
      head.length + 1 + codes.length + fs.flatten.length := by
    simp only [List.length_append, List.length_cons]
    omega
  refine ⟨spread (head.length + 1 + codes.length) (fs.map List.length), ?_, ?_⟩
  · rw [hlength] at hread
    rw [laced, toNat_laceHead hpos hcount, hread]
    dsimp only
    rw [hstop, placeFrames_eq (by omega), Nat.add_sub_add_left, hsizes]
  · rw [hdata, ← hbefore]
    exact cut_spread _ fs

theorem fixed_lace (head : Bytes) (hpos : 1 ≤ fs.length) (hcount : fs.length ≤ 256) {len : Nat}
    (hlen : ∀ f ∈ fs, f.length = len) :
    ∃ out, fixed (laceHead fs :: fs.flatten) head.length = .ok out ∧
      out.map (Frame.cut (head ++ laceHead fs :: fs.flatten)) = fs := by
  have hmap : fs.map List.length = List.replicate fs.length len :=
    List.eq_replicate_iff.2 ⟨by simp, by simpa using hlen⟩
  have hflat : fs.flatten.length = fs.length * len := by
    rw [List.length_flatten, hmap, List.sum_replicate, smul_eq_mul]
  have hnumber : (laceHead fs).toNat + 1 = fs.length := by
    rw [toNat_laceHead hpos hcount]
    omega
  refine ⟨spread (head.length + 1) (fs.map List.length), ?_, ?_⟩
  · rw [fixed, hnumber, hflat, Nat.mul_mod_right, if_neg (not_not.2 rfl),
      Nat.mul_div_cancel_left _ hpos, fixedFrames_eq, hmap]
  · have hcut := cut_spread (head ++ [laceHead fs]) fs
    rw [List.length_append, List.length_singleton, List.append_assoc, List.singleton_append] at hcut
    exact hcut

/-- The payload of a lace, and its frames behind any header. -/
theorem lace_spec {kind : LaceKind} (hpos : 1 ≤ fs.length) (hcount : fs.length ≤ 256)
    (hholds : kind.Holds fs) :
    ∃ payload, lace kind fs = .ok payload ∧ ∀ (head : Bytes) (header : BlockHeader),
      header.lacing = kind.lacing → header.headerLen = head.length →
        ∃ out, frames (head ++ payload) header = .ok out ∧
          out.map (Frame.cut (head ++ payload)) = fs := by
  have hsize := (codedSizes_last hpos).1
  unfold lace
  rw [if_neg (by omega)]
  cases kind with
  | none =>
      rcases List.length_eq_one_iff.1 hholds with ⟨f, rfl⟩
      refine ⟨f, rfl, fun head header hlacing hlen => ⟨[⟨head.length, f.length⟩], ?_, ?_⟩⟩
      · rw [frames, if_neg (by simp [hlen]), hlacing, hlen, List.drop_left]
        rfl
      · simp [Frame.cut]
  | xiph =>
      refine ⟨xiphLace fs, rfl, fun head header hlacing hlen => ?_⟩
      rcases laced_lace head hpos hcount (xiphSizes_codes (codedSizes fs) fs.flatten) with
        ⟨out, hout, hcut⟩
      refine ⟨out, ?_, hcut⟩
      rw [frames, if_neg (by simp [hlen]), hlacing, hlen, List.drop_left]
      exact hout
  | ebml =>
      refine ⟨ebmlLace fs, rfl, fun head header hlacing hlen => ?_⟩
      rcases laced_lace head hpos hcount (ebmlSizes_codes (codedSizes fs) fs.flatten hholds) with
        ⟨out, hout, hcut⟩
      refine ⟨out, ?_, hcut⟩
      rw [frames, if_neg (by simp [hlen]), hlacing, hlen, List.drop_left]
      exact hout
  | fixedSize =>
      rcases hholds with ⟨len, hlen⟩
      have hsame : (fs.any fun f => f.length != (fs.head?.map List.length).getD 0) = false := by
        rcases fs with - | ⟨first, fs⟩
        · rfl
        · rw [List.any_eq_false]
          intro f hf
          simp [hlen f hf, hlen first List.mem_cons_self]
      refine ⟨fixedLace fs, by simp [hsame], fun head header hlacing hheader => ?_⟩
      rcases fixed_lace head hpos hcount hlen with ⟨out, hout, hcut⟩
      refine ⟨out, ?_, hcut⟩
      rw [frames, if_neg (by simp [hheader]), hlacing, hheader, List.drop_left]
      exact hout

/-- The frames of a lace that its kind can hold are read back, and whatever a block holds, its frames
follow each other up to its end. -/
theorem lacing_round_trips :
    (∀ (kind : LaceKind) (fs : List Bytes), 1 ≤ fs.length → fs.length ≤ 256 → kind.Holds fs →
      RoundTrips kind fs) ∧
    ∀ (data : Bytes) (header : BlockHeader) (out : List Frame), frames data header = .ok out →
      out ≠ [] ∧ ∃ start, header.headerLen ≤ start ∧ Extents data.length start out := by
  refine ⟨?_, fun data header out => frames_extents⟩
  intro kind fs hpos hcount hholds
  rcases lace_spec hpos hcount hholds with ⟨payload, hlace, hframes⟩
  refine ⟨payload, hlace, ?_⟩
  intro track relTs flags simple htrack hlo hhi hflags
  rcases (⟨_, if_pos ⟨hlo, hhi⟩⟩ :
    ∃ head, blockHeader track relTs (flags ||| kind.flagBits) = .ok head) with ⟨head, hhead⟩
  have hheader := parseHeader_blockHeader htrack hhead payload simple
  generalize hread : BlockHeader.mk .. = header at hheader
  have hlacing : header.lacing = kind.lacing := by rw [← hread, fromFlags_flagBits kind hflags]
  rcases hframes head header hlacing (by rw [← hread]) with ⟨out, hout, hcut⟩
  exact ⟨head, header, out, hhead, hheader, hout, hcut⟩

/-- Three frames of different lengths, one of them empty, and three of one length. -/
theorem lacing_round_trips_three :
    (RoundTrips .ebml [[1, 2], [], [3, 4, 5]] ∧ RoundTrips .xiph [[1, 2], [], [3, 4, 5]]) ∧
      RoundTrips .fixedSize [[1, 2], [3, 4], [5, 6]] := by
  have hcodable : Codable (codedSizes [[1, 2], [], [3, 4, 5]]) := by
    refine ⟨by decide, ?_⟩
    decide
  refine ⟨⟨lacing_round_trips.1 .ebml _ (by decide) (by decide) hcodable,
    lacing_round_trips.1 .xiph _ (by decide) (by decide) trivial⟩,
    lacing_round_trips.1 .fixedSize _ (by decide) (by decide) ⟨2, by decide⟩⟩

/-- A first size of ones reads as unknown. -/
theorem not_roundTrips_ebml {first : Bytes} (hfirst : first.length = 2 ^ 56 - 1) :
    ¬ RoundTrips .ebml [first, []] := by
  rintro ⟨payload, hlace, hread⟩
  have htrack : 1 < 2 ^ 56 - 1 := by norm_num
  have hlo : (-32768 : Int) ≤ 0 := by norm_num
  have hhi : (0 : Int) ≤ 32767 := by norm_num
  rcases hread 1 0 0 true htrack hlo hhi rfl with ⟨head, header, out, hhead, hheader, hout, -⟩
  cases hheader.symm.trans (parseHeader_blockHeader htrack hhead payload true)
  have hsizes : codedSizes [first, []] = [2 ^ 56 - 1] := by
    rw [← hfirst]
    rfl
  have hcodes : ebmlCodes [2 ^ 56 - 1] = vint (2 ^ 56 - 1) 8 := by
    rw [ebmlCodes, ebmlDeltaCodes, List.append_nil, vintMin]
    rfl
  have hunknown : ∀ rest, readSize (vint (2 ^ 56 - 1) (7 + 1) ++ rest) MAX_SIZE_LEN = _ :=
    fun _ => readSize_vint (by norm_num) (by norm_num) le_maxSizeLen
  have hlaced : lace .ebml [first, []] =
      .ok (1#8 :: (ebmlCodes (codedSizes [first, []]) ++ [first, []].flatten)) := rfl
  rw [hsizes, hcodes] at hlaced
  cases hlace.symm.trans hlaced
  rw [frames, if_neg (by simp)] at hout
  dsimp only at hout
  rw [List.drop_left, fromFlags_flagBits .ebml rfl] at hout
  dsimp only [LaceKind.lacing] at hout
  rw [laced, show (1#8).toNat = 0 + 1 from rfl, ebmlSizes, hunknown, allOnes_eq (by norm_num),
    if_pos rfl] at hout
  cases hout

/-- Without lacing a second frame is lost. -/
theorem not_roundTrips_unlaced :
    ¬ RoundTrips .none [[1#8], [2#8]] ∧
      ¬ RoundTrips .ebml [List.replicate (2 ^ 56 - 1) 0#8, []] := by
  refine ⟨?_, not_roundTrips_ebml List.length_replicate⟩
  rintro ⟨payload, hlace, hread⟩
  rcases hread 1 0 0 true (by norm_num) (by norm_num) (by norm_num) rfl with
    ⟨head, header, out, hhead, hheader, hout, hcut⟩
  cases hlace
  cases hhead
  cases hheader
  cases hout
  have hlength := congrArg List.length hcut
  simp at hlength

end Matroska
end Vaco
