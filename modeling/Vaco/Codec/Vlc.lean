import Vaco.Bitstream.BitWriter
import Vaco.Library.SlotTable

/-!
# Variable-length codes

A table lists codewords with their lengths and symbols, and decoding scans it for the
first codeword in front of the reader.  Two lookups replace the scan: a full one with a
slot for every window of the longest length, and a bounded one with a slot for every
window of a chosen width, which leaves longer codewords to the scan.

Main results:

- `lookup_agrees`: when the bounded lookup is the scan.
- `faithful_iff`: the widths and tables for which both lookups are.

Current gaps:

- Lengths above 32 bits, which the documentation of the entries excludes, are not
  represented.
-/

namespace Vaco
namespace Codec

open Library BitStream SlotTable
open Vaco.Bitstream

/-- An entry: a codeword in the low bits, its length, zero to be skipped, and its symbol. -/
structure VlcEntry where
  code : BitVec 32
  len : Nat
  symbol : BitVec 32
  len_le : len ≤ 32
deriving DecidableEq

/-- A table with the length of its longest codeword. -/
structure VlcTable where
  entries : List VlcEntry
  maxLen : Nat
  maxLen_eq : maxLen = (entries.map VlcEntry.len).foldl max 0

/-- A slot of a lookup: a symbol and the length of its codeword, or length zero where no
codeword belongs. -/
abbrev Slot := BitVec 32 × Nat

/-- The length of a slot that leaves its windows to the scan. -/
abbrev lookupFallback : Nat := 255

/-- A lookup over the windows of a width. -/
structure VlcLookup where
  table : VlcTable
  width : Nat
  slots : List Slot

/-- A shift by as many bits as the word has, which panics when overflow is checked. -/
structure ShiftOverflow where
deriving DecidableEq

/-- Shift a 32-bit word to the right; by 32 bits and more it panics or shifts modulo 32. -/
def shiftRight (checks : Bool) (x : BitVec 32) (n : Nat) : Except ShiftOverflow (BitVec 32) :=
  if checks = true ∧ 32 ≤ n then .error ⟨⟩ else .ok (x >>> (n % 32))

/-- Whether no codeword belongs to a slot yet. -/
def freeSlot (slot : Slot) : Bool :=
  slot.2 == 0

namespace VlcTable

/-- Build a table from its entries. -/
def new (entries : List VlcEntry) : VlcTable where
  entries := entries
  maxLen := (entries.map VlcEntry.len).foldl max 0
  maxLen_eq := rfl

/-- Whether an entry takes part in decoding. -/
def candidate (t : VlcTable) (entry : VlcEntry) : Bool :=
  !(decide (entry.len = 0) || decide (t.maxLen < entry.len))

/-- Whether a window begins with the codeword of an entry. -/
def startsWith (t : VlcTable) (peeked : BitVec 32) (entry : VlcEntry) : Bool :=
  peeked >>> (t.maxLen - entry.len) == entry.code

/-- The first entry whose codeword a window begins with. -/
def scan (t : VlcTable) (peeked : BitVec 32) : Option VlcEntry :=
  t.entries.find? fun entry => t.candidate entry && t.startsWith peeked entry

/-- Decode one symbol by a scan of the table. -/
def decode (t : VlcTable) (r : BitReader) : BitReader × Option (BitVec 32) :=
  if t.maxLen = 0 then
    (r, none)
  else
    let (r, peeked) := r.peek t.maxLen
    match t.scan peeked with
    | some entry => (r.skip entry.len, some entry.symbol)
    | none => (r, none)

/-- The slots that an entry claims among those of a width that holds its codeword. -/
def directClaim (width : Nat) (entry : VlcEntry) : Claim Slot where
  base := entry.code.toNat <<< (width - entry.len)
  span := 1 <<< (width - entry.len)
  value := (entry.symbol, entry.len)

/-- Build a lookup with a slot for every window of the longest length. -/
def buildLut (t : VlcTable) : List Slot :=
  claimAll freeSlot ((t.entries.filter t.candidate).map (directClaim t.maxLen))
    (List.replicate (1 <<< t.maxLen) (0, 0))

/-- Decode one symbol by a full lookup. -/
def decodeWithLut (t : VlcTable) (r : BitReader) (lut : List Slot) :
    BitReader × Option (BitVec 32) :=
  if t.maxLen = 0 then
    (r, none)
  else
    let (r, peeked) := r.peek t.maxLen
    match lut[peeked.toNat]? with
    | none => (r, none)
    | some (symbol, len) => if len = 0 then (r, none) else (r.skip len, some symbol)

/-- The slots that an entry claims; a longer codeword claims that of its leading bits for the scan.
-/
def lookupClaim (checks : Bool) (width : Nat) (entry : VlcEntry) :
    Except ShiftOverflow (Claim Slot) :=
  if width < entry.len then
    (shiftRight checks entry.code (entry.len - width)).map fun leading =>
      { base := leading.toNat, span := 1, value := (0, lookupFallback) }
  else
    .ok (directClaim width entry)

/-- The claims of some entries in order. -/
def lookupClaims (checks : Bool) (width : Nat) :
    List VlcEntry → Except ShiftOverflow (List (Claim Slot))
  | [] => .ok []
  | entry :: rest =>
      match lookupClaim checks width entry with
      | .error overflow => .error overflow
      | .ok claim => (lookupClaims checks width rest).map (claim :: ·)

/-- Build a lookup with a slot for every window of a width; a width above the longest length
is refused. -/
def buildLookup (checks : Bool) (t : VlcTable) (width : Nat) :
    Except ShiftOverflow (Option VlcLookup) :=
  if t.maxLen < width ∨ 64 ≤ width then
    .ok none
  else
    (lookupClaims checks width (t.entries.filter t.candidate)).map fun claims =>
      some
        { table := t
          width := width
          slots := claimAll freeSlot claims (List.replicate (1 <<< width) (0, 0)) }

end VlcTable

/-- Decode one symbol by a bounded lookup. -/
def VlcLookup.decode (lookup : VlcLookup) (r : BitReader) : BitReader × Option (BitVec 32) :=
  let (r, peeked) := r.peek lookup.width
  match lookup.slots[peeked.toNat]? with
  | none => (r, none)
  | some (symbol, len) =>
      if len = 0 then (r, none)
      else if len = lookupFallback then lookup.table.decode r
      else (r.skip len, some symbol)

/-! ## Windows -/

/-- The bits in front of a position of the data. -/
def window (data : Bytes) (p n : Nat) : BitVec 32 :=
  BitVec.ofNat 32 (number (ofBytes data) p n)

theorem toNat_window (data : Bytes) (p : Nat) {n : Nat} (hn : n ≤ 32) :
    (window data p n).toNat = number (ofBytes data) p n := by
  have hlt := number_lt (ofBytes data) p n
  have hpow : 2 ^ n ≤ 2 ^ 32 := Nat.pow_le_pow_right (by decide) hn
  rw [window, BitVec.toNat_ofNat, Nat.mod_eq_of_lt (by omega)]

theorem peek_eq_window {r : BitReader} {p n : Nat} (h : r.At p) (hn : n ≤ 32) :
    (r.peek n).2 = window r.data.bytes p n := by
  apply BitVec.eq_of_toNat_eq
  rw [(h.peek hn).2, toNat_window _ _ hn]

theorem toNat_window_div (data : Bytes) (p : Nat) {m n : Nat} (hm : m ≤ n) (hn : n ≤ 32) :
    (window data p n).toNat / 2 ^ (n - m) = (window data p m).toNat := by
  have hsplit := number_add (ofBytes data) p m (n - m)
  have hlt := number_lt (ofBytes data) (p + m) (n - m)
  rw [Nat.add_sub_cancel' hm] at hsplit
  rw [toNat_window _ _ hn, toNat_window _ _ (hm.trans hn), hsplit,
    Nat.mul_comm, Nat.mul_add_div (by positivity), Nat.div_eq_of_lt hlt, Nat.add_zero]

/-- Two reads of a reader that return the same and leave it at the same position. -/
def Agree (r : BitReader) (x y : BitReader × Option (BitVec 32)) : Prop :=
  x.2 = y.2 ∧ ∃ p, r.MovesTo x.1 p ∧ r.MovesTo y.1 p

/-! ## The scan -/

namespace VlcTable

variable {t : VlcTable} {r : BitReader} {p : Nat} {entry : VlcEntry}

theorem foldl_max_le {lengths : List Nat} {start bound : Nat} (hstart : start ≤ bound)
    (h : ∀ n ∈ lengths, n ≤ bound) : lengths.foldl max start ≤ bound := by
  induction lengths generalizing start with
  | nil => exact hstart
  | cons n lengths ih =>
      rw [List.foldl_cons]
      exact ih (max_le hstart (h n List.mem_cons_self)) fun m hm => h m (List.mem_cons_of_mem _ hm)

theorem maxLen_le (t : VlcTable) : t.maxLen ≤ 32 := by
  rw [t.maxLen_eq]
  apply foldl_max_le (Nat.zero_le _)
  intro n hn
  rcases List.mem_map.mp hn with ⟨entry, -, rfl⟩
  exact entry.len_le

theorem candidate_iff : t.candidate entry = true ↔ 0 < entry.len ∧ entry.len ≤ t.maxLen := by
  simp [candidate, Nat.pos_iff_ne_zero]

theorem startsWith_iff {peeked : BitVec 32} :
    t.startsWith peeked entry = true ↔
      peeked.toNat / 2 ^ (t.maxLen - entry.len) = entry.code.toNat := by
  rw [startsWith, beq_iff_eq, ← BitVec.toNat_inj, BitVec.toNat_ushiftRight,
    Nat.shiftRight_eq_div_pow]

theorem decode_spec (h : r.At p) (hlen : t.maxLen ≠ 0) :
    r.MovesTo (t.decode r).1
        (p + ((t.scan (window r.data.bytes p t.maxLen)).map VlcEntry.len).getD 0) ∧
      (t.decode r).2 =
        (t.scan (window r.data.bytes p t.maxLen)).map VlcEntry.symbol := by
  have hpeek := (h.peek t.maxLen_le).1
  rw [decode, if_neg hlen]
  simp only [peek_eq_window h t.maxLen_le]
  cases t.scan (window r.data.bytes p t.maxLen) with
  | none => exact ⟨hpeek, rfl⟩
  | some entry => exact ⟨hpeek.trans (hpeek.at_pos.skip entry.len), rfl⟩

theorem decode_agrees {r' : BitReader} (h : r.At p) (hmove : r.MovesTo r' p) :
    Agree r (t.decode r) (t.decode r') := by
  by_cases hlen : t.maxLen = 0
  · rw [decode, decode, if_pos hlen, if_pos hlen]
    exact ⟨rfl, p, h.stay, hmove⟩
  · rcases decode_spec h hlen with ⟨hone, hsymbol⟩
    rcases decode_spec (t := t) hmove.at_pos hlen with ⟨htwo, hsymbol'⟩
    rw [hmove.data] at htwo hsymbol'
    exact ⟨hsymbol.trans hsymbol'.symm, _, hone, hmove.trans htwo⟩

/-! ## Slots and codewords -/

theorem covers_directClaim {width i : Nat} :
    (directClaim width entry).covers i = true ↔
      i / 2 ^ (width - entry.len) = entry.code.toNat := by
  have hpos : 0 < 2 ^ (width - entry.len) := by positivity
  rw [Claim.covers, Bool.and_eq_true, decide_eq_true_eq, decide_eq_true_eq, directClaim,
    Nat.shiftLeft_eq, Nat.shiftLeft_eq, Nat.one_mul, ← Nat.succ_mul, ← Nat.le_div_iff_mul_le hpos,
    ← Nat.div_lt_iff_lt_mul hpos]
  omega

theorem directClaim_taken (hentry : t.candidate entry = true) (width : Nat) :
    freeSlot (directClaim width entry).value = false := by
  have := (candidate_iff.mp hentry).1
  simp only [directClaim, freeSlot, beq_eq_false_iff_ne]
  omega

theorem getElem?_buildLut {peeked : BitVec 32} (hlt : peeked.toNat < 2 ^ t.maxLen) :
    t.buildLut[peeked.toNat]? =
      some (((t.scan peeked).map fun entry => (entry.symbol, entry.len)).getD (0, 0)) := by
  have hslot : (List.replicate (1 <<< t.maxLen) ((0, 0) : Slot))[peeked.toNat]? = some (0, 0) := by
    rw [List.getElem?_replicate, Nat.shiftLeft_eq, Nat.one_mul, if_pos hlt]
  have hvalues : ∀ claim ∈ (t.entries.filter t.candidate).map (directClaim t.maxLen),
      freeSlot claim.value = false := by
    intro claim hclaim
    rcases List.mem_map.mp hclaim with ⟨entry, hentry, rfl⟩
    exact directClaim_taken (List.mem_filter.mp hentry).2 t.maxLen
  have hscan : (t.entries.find? fun entry =>
      t.candidate entry && (directClaim t.maxLen entry).covers peeked.toNat) = t.scan peeked := by
    rw [scan]
    congr 1
    ext entry
    rw [Bool.eq_iff_iff.mpr (covers_directClaim.trans startsWith_iff.symm)]
  rw [buildLut, getElem?_claimAll hslot rfl hvalues, List.find?_map, List.find?_filter]
  simp only [Function.comp_apply, Bool.decide_and, Bool.decide_eq_true, hscan, Option.map_map]
  rfl

/-- Decoding by the full lookup is decoding by the scan. -/
theorem decodeWithLut_agrees (t : VlcTable) (h : r.At p) :
    Agree r (t.decode r) (t.decodeWithLut r t.buildLut) := by
  by_cases hlen : t.maxLen = 0
  · rw [decode, decodeWithLut, if_pos hlen, if_pos hlen]
    exact ⟨rfl, p, h.stay, h.stay⟩
  · have hpeek := (h.peek t.maxLen_le).1
    have hlt : (window r.data.bytes p t.maxLen).toNat < 2 ^ t.maxLen := by
      rw [toNat_window _ _ t.maxLen_le]
      exact number_lt _ _ _
    rcases decode_spec h hlen with ⟨hmove, hsymbol⟩
    rw [Agree, hsymbol, decodeWithLut, if_neg hlen]
    simp only [peek_eq_window h t.maxLen_le, getElem?_buildLut hlt]
    cases hscan : t.scan (window r.data.bytes p t.maxLen) with
    | none =>
        rw [hscan] at hmove
        exact ⟨rfl, p, hmove, hpeek⟩
    | some entry =>
        rw [hscan] at hmove
        have hfound := List.find?_some hscan
        rw [Bool.and_eq_true, candidate_iff] at hfound
        simp only [Option.map_some, Option.getD_some, if_neg (Nat.ne_of_gt hfound.1.1)]
        exact ⟨trivial, _, hmove, hpeek.trans (hpeek.at_pos.skip entry.len)⟩

/-! ## The bounded lookup -/

/-- The slots that an entry claims among those of a width where no shift panics. -/
def claimOf (width : Nat) (entry : VlcEntry) : Claim Slot :=
  if width < entry.len then
    { base := (entry.code >>> ((entry.len - width) % 32)).toNat
      span := 1
      value := (0, lookupFallback) }
  else
    directClaim width entry

/-- Every codeword of the table claims the slot of its leading bits: the shift to them does
not overflow. -/
def Marks (t : VlcTable) (width : Nat) : Prop :=
  ∀ entry ∈ t.entries, entry.len - width < 32

/-- Claims are built when overflow is unchecked or no shift overflows. -/
theorem lookupClaims_eq_ok {checks : Bool} {width : Nat} {entries : List VlcEntry}
    (h : checks = false ∨ ∀ entry ∈ entries, entry.len - width < 32) :
    lookupClaims checks width entries = .ok (entries.map (claimOf width)) := by
  induction entries with
  | nil => rfl
  | cons entry entries ih =>
      have hclaim : lookupClaim checks width entry = .ok (claimOf width entry) := by
        rw [lookupClaim, claimOf]
        split
        · have hshift : ¬ (checks = true ∧ 32 ≤ entry.len - width) := by
            rintro ⟨hchecks, hlong⟩
            rcases h with hnone | hshort
            · rw [hnone] at hchecks
              cases hchecks
            · exact absurd (hshort entry List.mem_cons_self) (not_lt.mpr hlong)
          rw [shiftRight, if_neg hshift]
          rfl
        · rfl
      have hrest := ih (h.imp id fun hshort e he => hshort e (List.mem_cons_of_mem _ he))
      rw [lookupClaims, hclaim, hrest]
      rfl

/-- A checked shift that overflows panics. -/
theorem lookupClaims_eq_error {width : Nat} {entries : List VlcEntry}
    (h : ∃ entry ∈ entries, 32 ≤ entry.len - width) :
    lookupClaims true width entries = .error ⟨⟩ := by
  induction entries with
  | nil =>
      rcases h with ⟨entry, hmem, -⟩
      cases hmem
  | cons entry entries ih =>
      rw [lookupClaims]
      by_cases hlong : 32 ≤ entry.len - width
      · rw [lookupClaim, if_pos (by omega), shiftRight, if_pos ⟨rfl, hlong⟩]
        rfl
      · have hrest : ∃ e ∈ entries, 32 ≤ e.len - width := by
          rcases h with ⟨e, hmem, he⟩
          rcases List.mem_cons.mp hmem with rfl | hmem
          · exact absurd he hlong
          · exact ⟨e, hmem, he⟩
        cases hclaim : lookupClaim true width entry with
        | error overflow => rfl
        | ok claim =>
            rw [ih hrest]
            rfl

/-- The lookup that is built where no shift panics. -/
def lookupOf (t : VlcTable) (width : Nat) : VlcLookup where
  table := t
  width := width
  slots := claimAll freeSlot ((t.entries.filter t.candidate).map (claimOf width))
    (List.replicate (1 <<< width) (0, 0))

/-- The first entry that claims the slot of a window. -/
def claimant (t : VlcTable) (width : Nat) (peeked : BitVec 32) : Option VlcEntry :=
  t.entries.find? fun entry => t.candidate entry && (claimOf width entry).covers peeked.toNat

theorem getElem?_lookupOf {width : Nat} {peeked : BitVec 32} (hlt : peeked.toNat < 2 ^ width) :
    (t.lookupOf width).slots[peeked.toNat]? =
      some (((t.claimant width peeked).map fun entry => (claimOf width entry).value).getD
        (0, 0)) := by
  have hslot : (List.replicate (1 <<< width) ((0, 0) : Slot))[peeked.toNat]? = some (0, 0) := by
    rw [List.getElem?_replicate, Nat.shiftLeft_eq, Nat.one_mul, if_pos hlt]
  have hvalues : ∀ claim ∈ (t.entries.filter t.candidate).map (claimOf width),
      freeSlot claim.value = false := by
    intro claim hclaim
    rcases List.mem_map.mp hclaim with ⟨entry, hentry, rfl⟩
    rw [claimOf]
    split
    · rfl
    · exact directClaim_taken (List.mem_filter.mp hentry).2 width
  rw [lookupOf, getElem?_claimAll hslot rfl hvalues, List.find?_map, List.find?_filter, claimant]
  simp only [Function.comp_apply, Bool.decide_and, Bool.decide_eq_true, Option.map_map]
  rfl

/-- A codeword claims the slots of the windows that begin with it and, within the width, no others.
-/
theorem covers_of_startsWith {width : Nat} {data : Bytes} {p : Nat} (hwidth : width ≤ t.maxLen)
    (hentry : t.candidate entry = true) :
    (entry.len - width < 32 → t.startsWith (window data p t.maxLen) entry = true →
        (claimOf width entry).covers (window data p width).toNat = true) ∧
      (entry.len ≤ width → (claimOf width entry).covers (window data p width).toNat = true →
        t.startsWith (window data p t.maxLen) entry = true) := by
  have hmax := t.maxLen_le
  have hlen := (candidate_iff.mp hentry).2
  have hlonger := toNat_window_div data p hlen hmax
  rw [startsWith_iff, hlonger, claimOf]
  by_cases hlong : width < entry.len
  · rw [if_pos hlong]
    constructor
    · intro hshift hstarts
      have hleading := toNat_window_div data p hlong.le (hlen.trans hmax)
      rw [hstarts] at hleading
      have hbase : (entry.code >>> ((entry.len - width) % 32)).toNat =
          (window data p width).toNat := by
        rw [Nat.mod_eq_of_lt hshift, BitVec.toNat_ushiftRight, Nat.shiftRight_eq_div_pow, hleading]
      rw [Claim.covers, hbase]
      simp
    · intro hshort
      omega
  · have hwithin := toNat_window_div data p (not_lt.mp hlong) (hwidth.trans hmax)
    rw [if_neg hlong, covers_directClaim, hwithin]
    exact ⟨fun _ h => h, fun _ h => h⟩

/-- The bounded lookup takes the first entry that claims the slot, or leaves a longer codeword to
the scan. -/
theorem decode_lookupOf {width : Nat} (hwidth : width ≤ t.maxLen) (h : r.At p) :
    (t.lookupOf width).decode r =
      match t.claimant width (window r.data.bytes p width) with
      | none => ((r.peek width).1, none)
      | some entry =>
          if width < entry.len then t.decode (r.peek width).1
          else ((r.peek width).1.skip entry.len, some entry.symbol) := by
  have hwide := hwidth.trans t.maxLen_le
  have hlt : (window r.data.bytes p width).toNat < 2 ^ width := by
    rw [toNat_window _ _ hwide]
    exact number_lt _ _ _
  rw [VlcLookup.decode]
  simp only [show (t.lookupOf width).width = width from rfl,
    show (t.lookupOf width).table = t from rfl, peek_eq_window h hwide, getElem?_lookupOf hlt]
  cases hclaimant : t.claimant width (window r.data.bytes p width) with
  | none => rfl
  | some entry =>
      have hfound := List.find?_some hclaimant
      rw [Bool.and_eq_true, candidate_iff] at hfound
      simp only [Option.map_some, Option.getD_some, claimOf]
      split
      · rfl
      · have hpos : entry.len ≠ 0 := by omega
        have hshort : entry.len ≠ 255 := by
          have := entry.len_le
          omega
        rw [show (directClaim width entry).value = (entry.symbol, entry.len) from rfl]
        dsimp only
        rw [if_neg hpos, if_neg hshort]

theorem lookupOf_agrees_of_fallback {width : Nat} (hwidth : width ≤ t.maxLen) (h : r.At p)
    (hclaimant : t.claimant width (window r.data.bytes p width) = some entry)
    (hlong : width < entry.len) : Agree r (t.decode r) ((t.lookupOf width).decode r) := by
  rw [decode_lookupOf hwidth h, hclaimant]
  simp only [if_pos hlong]
  exact decode_agrees h (h.peek (hwidth.trans t.maxLen_le)).1

/-- Decoding by the bounded lookup is decoding by the scan where every codeword marks the slot
of its leading bits. -/
theorem lookup_agrees {width : Nat} (hwidth : width ≤ t.maxLen) (hmarks : t.Marks width)
    (h : r.At p) : Agree r (t.decode r) ((t.lookupOf width).decode r) := by
  have hpeek := (h.peek (hwidth.trans t.maxLen_le)).1
  have hclaims : ∀ entry ∈ t.entries, (t.candidate entry &&
      (claimOf width entry).covers (window r.data.bytes p width).toNat) = false →
      (t.candidate entry && t.startsWith (window r.data.bytes p t.maxLen) entry) = false := by
    intro entry hmem hnot
    cases hentry : t.candidate entry with
    | false => rfl
    | true =>
        rw [hentry, Bool.true_and] at hnot
        rw [Bool.true_and, ← Bool.not_eq_true]
        intro hstarts
        have hcovers := (covers_of_startsWith hwidth hentry).1 (hmarks entry hmem) hstarts
        rw [hnot] at hcovers
        cases hcovers
  cases hclaimant : t.claimant width (window r.data.bytes p width) with
  | none =>
      -- No entry claims the slot, so no codeword begins the window.
      have hscan : t.scan (window r.data.bytes p t.maxLen) = none := by
        rw [claimant, List.find?_eq_none] at hclaimant
        rw [scan, List.find?_eq_none]
        intro entry hmem
        rw [Bool.not_eq_true]
        exact hclaims entry hmem (Bool.eq_false_iff.mpr (hclaimant entry hmem))
      rw [decode_lookupOf hwidth h, hclaimant]
      by_cases hlen : t.maxLen = 0
      · rw [decode, if_pos hlen]
        exact ⟨rfl, p, h.stay, hpeek⟩
      · rcases decode_spec h hlen with ⟨hmove, hsymbol⟩
        rw [hscan] at hmove hsymbol
        exact ⟨hsymbol, p, hmove, hpeek⟩
  | some entry =>
      by_cases hlong : width < entry.len
      · exact lookupOf_agrees_of_fallback hwidth h hclaimant hlong
      · -- The entry is within the width, so it is the first that the window begins with.
        rcases List.find?_eq_some_iff_append.mp hclaimant with ⟨hfound, before, after, hsplit, hfirst⟩
        rw [Bool.and_eq_true] at hfound
        rcases hfound with ⟨hentry, hcovers⟩
        have hstarts := (covers_of_startsWith hwidth hentry).2 (not_lt.mp hlong) hcovers
        have hscan : t.scan (window r.data.bytes p t.maxLen) = some entry := by
          refine List.find?_eq_some_iff_append.mpr
            ⟨by rw [hentry, hstarts]; rfl, before, after, hsplit, ?_⟩
          intro earlier hmem
          rw [Bool.not_eq_true']
          exact hclaims earlier (by rw [hsplit]; exact List.mem_append_left _ hmem)
            (Bool.not_eq_true' _ ▸ hfirst earlier hmem)
        have hlen : t.maxLen ≠ 0 := by
          have := candidate_iff.mp hentry
          omega
        rcases decode_spec h hlen with ⟨hmove, hsymbol⟩
        rw [hscan] at hmove hsymbol
        rw [decode_lookupOf hwidth h, hclaimant]
        simp only [if_neg hlong]
        exact ⟨hsymbol, _, hmove, hpeek.trans (hpeek.at_pos.skip entry.len)⟩

/-! ## Where the lookups are the scan -/

theorem le_foldl_max {lengths : List Nat} {start n : Nat} (h : n = start ∨ n ∈ lengths) :
    n ≤ lengths.foldl max start := by
  induction lengths generalizing start n with
  | nil =>
      rcases h with rfl | h
      · exact le_rfl
      · cases h
  | cons m lengths ih =>
      rw [List.foldl_cons]
      rcases h with rfl | h
      · exact (le_max_left n m).trans (ih (Or.inl rfl))
      · rcases List.mem_cons.mp h with rfl | h
        · exact (le_max_right start n).trans (ih (Or.inl rfl))
        · exact ih (Or.inr h)

theorem le_maxLen (h : entry ∈ t.entries) : entry.len ≤ t.maxLen := by
  rw [t.maxLen_eq]
  exact le_foldl_max (Or.inr (List.mem_map_of_mem h))

/-- What building a bounded lookup has to give: the scan, or no lookup where the width is
refused, and no panic. -/
def Decodes (t : VlcTable) : Except ShiftOverflow (Option VlcLookup) → Prop
  | .error _ => False
  | .ok none => True
  | .ok (some lookup) => ∀ r p, BitReader.At r p → Agree r (t.decode r) (lookup.decode r)

/-- Both lookups decode as the scan, for every reader at every position. -/
def Faithful (checks : Bool) (t : VlcTable) (width : Nat) : Prop :=
  (∀ r p, BitReader.At r p → Agree r (t.decode r) (t.decodeWithLut r t.buildLut)) ∧
    t.Decodes (t.buildLookup checks width)

/-- At width zero no codeword has 32 bits, or unchecked the bits of some codeword mark the only
slot. -/
def Delegates (checks : Bool) (t : VlcTable) (width : Nat) : Prop :=
  width = 0 →
    (∀ entry ∈ t.entries, entry.len ≠ 32) ∨
      checks = false ∧
        ∃ entry ∈ t.entries, entry.len ≠ 0 ∧ entry.code >>> (entry.len % 32) = 0

theorem covers_zero {peeked : BitVec 32} (hpeeked : peeked.toNat = 0) (hlen : 0 < entry.len) :
    (claimOf 0 entry).covers peeked.toNat = true ↔ entry.code >>> (entry.len % 32) = 0 := by
  rw [hpeeked, claimOf, if_pos hlen, Claim.covers, Nat.sub_zero, ← BitVec.toNat_inj]
  simp

theorem exists_reader_of_code (code : BitVec 32) :
    ∃ r : BitReader, r.At 0 ∧ window r.data.bytes 0 32 = code := by
  have hput := BitWriter.wf_new.put (le_refl 32) code
  have hfinish := hput.wf.finish
  have hlength := hput.length
  have hempty : BitWriter.new.length = 0 := rfl
  refine ⟨BitReader.new ⟨(BitWriter.new.put 32 code).finish, by omega⟩, BitReader.at_start _ _, ?_⟩
  apply BitVec.eq_of_toNat_eq
  rw [toNat_window _ _ (le_refl 32)]
  have hfield := hput.field
  rw [hempty, Nat.mod_eq_of_lt code.isLt] at hfield
  exact (congrArg (fun bits => number bits 0 32) hfinish.1).trans hfield

/-- A lookup of width zero with a codeword of 32 bits and a free slot does not find that
codeword. -/
theorem not_agrees_of_unmarked (hmem : entry ∈ t.entries) (hlen : entry.len = 32)
    (hfree : ∀ e ∈ t.entries, e.len ≠ 0 → e.code >>> (e.len % 32) ≠ 0) :
    ¬ ∀ r p, BitReader.At r p → Agree r (t.decode r) ((t.lookupOf 0).decode r) := by
  intro hagrees
  have hmax : t.maxLen = 32 := by
    have := le_maxLen hmem
    have := t.maxLen_le
    omega
  have hentry : t.candidate entry = true := candidate_iff.mpr (by omega)
  rcases exists_reader_of_code entry.code with ⟨r, hat, hcode⟩
  have hslot : (window r.data.bytes 0 0).toNat = 0 := toNat_window _ _ (Nat.zero_le _)
  have hclaimant : t.claimant 0 (window r.data.bytes 0 0) = none := by
    rw [claimant, List.find?_eq_none]
    intro e he
    rw [Bool.and_eq_true, candidate_iff]
    rintro ⟨⟨hpos, -⟩, hcovers⟩
    exact hfree e he (by omega) ((covers_zero hslot hpos).mp hcovers)
  have hstarts : t.startsWith (window r.data.bytes 0 t.maxLen) entry = true := by
    rw [startsWith_iff, hmax, hcode, hlen]
    simp
  have hscan : (t.scan (window r.data.bytes 0 t.maxLen)).isSome = true := by
    rw [scan, List.find?_isSome]
    exact ⟨entry, hmem, by rw [hentry, hstarts]; rfl⟩
  rcases decode_spec (t := t) hat (by omega) with ⟨-, hsymbol⟩
  have hsame := (hagrees r 0 hat).1
  rw [hsymbol, decode_lookupOf (Nat.zero_le _) hat, hclaimant, Option.map_eq_none_iff] at hsame
  rw [hsame] at hscan
  cases hscan

theorem buildLookup_eq_ok {checks : Bool} {width : Nat} (hwidth : width ≤ t.maxLen)
    (h : checks = false ∨ t.Marks width) :
    t.buildLookup checks width = .ok (some (t.lookupOf width)) := by
  have hmax := t.maxLen_le
  have hcandidates : checks = false ∨
      ∀ e ∈ t.entries.filter t.candidate, e.len - width < 32 :=
    h.imp_right fun hmarks e he => hmarks e (List.mem_filter.mp he).1
  have hclaims := lookupClaims_eq_ok hcandidates
  rw [buildLookup, if_neg (by omega), hclaims]
  rfl

theorem buildLookup_eq_error (hmem : entry ∈ t.entries) (hlen : entry.len = 32) :
    t.buildLookup true 0 = .error ⟨⟩ := by
  have hentry : entry ∈ t.entries.filter t.candidate :=
    List.mem_filter.mpr ⟨hmem, candidate_iff.mpr ⟨by omega, le_maxLen hmem⟩⟩
  rw [buildLookup, if_neg (by omega), lookupClaims_eq_error ⟨entry, hentry, by omega⟩]
  rfl

/-- A lookup that delegates to the scan decodes as the scan. -/
theorem decodes_of_delegates {checks : Bool} {width : Nat} (h : Delegates checks t width) :
    t.Decodes (t.buildLookup checks width) := by
  by_cases hwidth : width ≤ t.maxLen
  · by_cases hmarks : t.Marks width
    · rw [buildLookup_eq_ok hwidth (Or.inr hmarks)]
      exact fun r p hat => lookup_agrees hwidth hmarks hat
    · -- A codeword of 32 bits is shifted by as many for a lookup of width zero.
      rw [Marks] at hmarks
      push Not at hmarks
      rcases hmarks with ⟨entry, hmem, hlong⟩
      have hlen := entry.len_le
      obtain rfl : width = 0 := by omega
      rcases h rfl with hnone | ⟨rfl, marking, hmarking, hpos, hzero⟩
      · exact absurd (by omega) (hnone entry hmem)
      · -- The slot is claimed, and every claimant leaves it to the scan.
        rw [buildLookup_eq_ok hwidth (Or.inl rfl)]
        intro r p hat
        have hslot : (window r.data.bytes p 0).toNat = 0 := toNat_window _ _ (Nat.zero_le _)
        have hclaimed : (t.claimant 0 (window r.data.bytes p 0)).isSome = true := by
          rw [claimant, List.find?_isSome]
          refine ⟨marking, hmarking, ?_⟩
          rw [Bool.and_eq_true, candidate_iff]
          exact ⟨⟨Nat.pos_of_ne_zero hpos, le_maxLen hmarking⟩,
            (covers_zero hslot (Nat.pos_of_ne_zero hpos)).mpr hzero⟩
        rcases Option.isSome_iff_exists.mp hclaimed with ⟨first, hfirst⟩
        have hfound := List.find?_some hfirst
        rw [Bool.and_eq_true, candidate_iff] at hfound
        exact lookupOf_agrees_of_fallback hwidth hat hfirst hfound.1.1
  · have hrefused : t.buildLookup checks width = .ok none := by
      rw [buildLookup, if_pos (Or.inl (not_le.mp hwidth))]
    rw [hrefused]
    trivial

theorem delegates_of_decodes {checks : Bool} {width : Nat}
    (h : t.Decodes (t.buildLookup checks width)) : Delegates checks t width := by
  rintro rfl
  by_cases hnone : ∀ entry ∈ t.entries, entry.len ≠ 32
  · exact Or.inl hnone
  · push Not at hnone
    rcases hnone with ⟨entry, hmem, hlen⟩
    cases checks with
    | true =>
        rw [buildLookup_eq_error hmem hlen] at h
        exact h.elim
    | false =>
        rw [buildLookup_eq_ok (Nat.zero_le _) (Or.inl rfl)] at h
        refine Or.inr ⟨rfl, ?_⟩
        by_contra hfree
        push Not at hfree
        exact not_agrees_of_unmarked hmem hlen hfree h

/-- Both lookups are the scan exactly when the width is positive or a lookup of width zero
delegates to the scan. -/
theorem faithful_iff (checks : Bool) (t : VlcTable) (width : Nat) :
    Faithful checks t width ↔ Delegates checks t width := by
  constructor
  · intro h
    exact delegates_of_decodes h.2
  · intro h
    exact ⟨fun r p hat => decodeWithLut_agrees t hat, decodes_of_delegates h⟩

/-- A codeword of 32 bits whose first bit is one. -/
def overwideTable : VlcTable :=
  new [{ code := 0x80000000#32, len := 32, symbol := 7, len_le := le_refl 32 }]

/-- With a lookup of width zero a codeword of 32 bits panics, or is not found where unchecked. -/
theorem not_faithful_overwideTable :
    ¬ Faithful true overwideTable 0 ∧ ¬ Faithful false overwideTable 0 := by
  have hnot : ∀ checks, ¬ Delegates checks overwideTable 0 := by
    intro checks hdelegates
    rcases hdelegates rfl with hnone | ⟨-, entry, hmem, -, hzero⟩
    · exact hnone _ List.mem_cons_self rfl
    · rcases List.mem_singleton.mp hmem with rfl
      exact absurd hzero (by decide)
  exact ⟨fun h => hnot true (delegates_of_decodes h.2),
    fun h => hnot false (delegates_of_decodes h.2)⟩

end VlcTable

end Codec
end Vaco
