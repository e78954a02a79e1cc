import Vaco.Codec.Vlc
import Vaco.Library.PrefixCode

/-!
# Prefix-free and complete tables

A check compares every pair of codewords, and a sum counts the windows that they cover.  A table
that passes the check is decoded one way only.  Where the sum is the number of all windows, some
codeword stands in front of every reader.

An entry whose codeword does not fit in its length counts for the sum, but no window begins with
it.

Main results:

- `decode_of_begins`: the codeword in front of the reader is decoded.
- `prefix_free_decodes`: prefix-free tables decode what was spelled.
-/

namespace Vaco
namespace Codec

open Library BitStream PrefixCode
open Vaco.Bitstream

/-! ## The checks -/

/-- Whether one of two codewords begins with the other; of codewords without bits, whether they are
equal. -/
def clash (a b : VlcEntry) : Bool :=
  let (short, long) := if a.len ≤ b.len then (a, b) else (b, a)
  if short.len = 0 ∨ long.len = 0 ∨ short.len = long.len then
    decide (short.len = long.len) && decide (short.code = long.code)
  else
    decide (long.code >>> (long.len - short.len) = short.code)

/-- Whether no codeword begins with another. -/
def isPrefixFree : List VlcEntry → Bool
  | [] => true
  | a :: entries => entries.all (fun b => !clash a b) && isPrefixFree entries

/-- The number of windows of a width that the codewords cover, by their lengths. -/
def kraftNumerator (entries : List VlcEntry) (scaleLen : Nat) : Nat :=
  entries.foldl (fun total e =>
    if e.len = 0 ∨ scaleLen < e.len then total else satAddU64 total (1 <<< (scaleLen - e.len))) 0

namespace VlcTable

/-- Decode some symbols. -/
def decodeMany (t : VlcTable) : Nat → BitReader → BitReader × List (Option (BitVec 32))
  | 0, r => (r, [])
  | n + 1, r =>
      let rest := t.decodeMany n (t.decode r).1
      (rest.1, (t.decode r).2 :: rest.2)

end VlcTable

/-- The bits of a codeword, the highest first. -/
def VlcEntry.codeword (e : VlcEntry) : List Bool :=
  (List.range e.len).map fun i => e.code.getLsbD (e.len - 1 - i)

/-- The concatenation of some codewords stands in front of a position. -/
def Spells (bits : Nat → Bool) (p : Nat) (es : List VlcEntry) : Prop :=
  ∀ (i : Nat) (hi : i < (es.flatMap VlcEntry.codeword).length),
    bits (p + i) = (es.flatMap VlcEntry.codeword)[i]

/-! ## Decoding -/

variable {entries : List VlcEntry} {a b e : VlcEntry} {r : BitReader} {p : Nat}

/-- Two codewords that one window begins with clash. -/
theorem clash_of_begins {n word : Nat} (ha : 0 < a.len) (hb : 0 < b.len) (han : a.len ≤ n)
    (hbn : b.len ≤ n) (hbegins : Begins n word a.len a.code.toNat)
    (hbegins' : Begins n word b.len b.code.toNat) : clash a b = true := by
  have key : ∀ x y : VlcEntry, 0 < x.len → x.len ≤ y.len → y.len ≤ n →
      Begins n word x.len x.code.toNat → Begins n word y.len y.code.toNat →
      (if x.len = 0 ∨ y.len = 0 ∨ x.len = y.len then
        decide (x.len = y.len) && decide (x.code = y.code)
      else decide (y.code >>> (y.len - x.len) = x.code)) = true := by
    intro x y hx hxy hy hfirst hsecond
    have hprefix := begins_of_begins hxy hy hfirst hsecond
    unfold Begins at hprefix
    split
    · have hlen : x.len = y.len := by omega
      rw [hlen, Nat.sub_self, pow_zero, Nat.div_one] at hprefix
      rw [decide_eq_true hlen, decide_eq_true (BitVec.eq_of_toNat_eq hprefix.symm)]
      rfl
    · refine decide_eq_true (BitVec.eq_of_toNat_eq ?_)
      rw [BitVec.toNat_ushiftRight, Nat.shiftRight_eq_div_pow, hprefix]
  unfold clash
  by_cases hle : a.len ≤ b.len
  · rw [if_pos hle]
    exact key a b ha hle hbn hbegins hbegins'
  · rw [if_neg hle]
    exact key b a hb (by omega) han hbegins' hbegins

theorem isPrefixFree_iff : isPrefixFree entries = true ↔
    entries.Pairwise fun a b => clash a b = false := by
  induction entries with
  | nil => simp [isPrefixFree]
  | cons a entries ih => simp [isPrefixFree, ih]

theorem clash_comm (a b : VlcEntry) : clash a b = clash b a := by
  unfold clash
  rcases lt_trichotomy a.len b.len with hlt | heq | hgt
  · rw [if_pos hlt.le, if_neg (not_le.mpr hlt)]
  · rw [if_pos heq.le, if_pos heq.ge]
    simp only [heq, or_true, if_true, decide_true, Bool.true_and, eq_comm]
  · rw [if_neg (not_le.mpr hgt), if_pos hgt.le]

@[simp] theorem VlcEntry.length_codeword (e : VlcEntry) : e.codeword.length = e.len := by
  rw [codeword, List.length_map, List.length_range]

/-- The first codeword is a number in front of the position, the others stand behind it. -/
theorem Spells.of_cons {bits : Nat → Bool} {es : List VlcEntry} (hfits : e.code.toNat < 2 ^ e.len)
    (h : Spells bits p (e :: es)) :
    number bits p e.len = e.code.toNat ∧ Spells bits (p + e.len) es := by
  have hlen : ((e :: es).flatMap VlcEntry.codeword).length =
      e.len + (es.flatMap VlcEntry.codeword).length := by
    rw [List.flatMap_cons, List.length_append, VlcEntry.length_codeword]
  constructor
  · have hbits : ∀ i < e.len, bits (p + i) = e.code.toNat.testBit (e.len - 1 - i) := by
      intro i hi
      rw [h i (by omega), BitVec.testBit_toNat]
      simp [List.flatMap_cons, List.getElem_append_left, hi, VlcEntry.codeword]
    rw [number_eq_mod hbits, Nat.mod_eq_of_lt hfits]
  · intro i hi
    have hnext := h (e.len + i) (by omega)
    rw [← Nat.add_assoc] at hnext
    rw [hnext]
    simp [List.flatMap_cons, List.getElem_append_right]

namespace VlcTable

/-- A codeword in front of the reader is the one that is decoded. -/
theorem decode_of_begins (hfree : isPrefixFree entries = true) (he : e ∈ entries)
    (hpos : 0 < e.len) (h : r.At p)
    (hcode : number (ofBytes r.data.bytes) p e.len = e.code.toNat) :
    ((new entries).decode r).2 = some e.symbol ∧
      r.MovesTo ((new entries).decode r).1 (p + e.len) := by
  have hmax : e.len ≤ (new entries).maxLen := le_maxLen he
  have hlen : (new entries).maxLen ≠ 0 := by omega
  have hbits := maxLen_le (new entries)
  have hbegins : Begins (new entries).maxLen
      (window r.data.bytes p (new entries).maxLen).toNat e.len e.code.toNat := by
    unfold Begins
    rw [toNat_window_div _ _ hmax hbits, toNat_window _ _ e.len_le, hcode]
  have hfound : ∃ found, (new entries).scan (window r.data.bytes p (new entries).maxLen) =
      some found := by
    rw [← Option.isSome_iff_exists, scan, List.find?_isSome]
    refine ⟨e, he, ?_⟩
    rw [candidate_iff.mpr ⟨hpos, hmax⟩, startsWith_iff.mpr hbegins]
    rfl
  rcases hfound with ⟨found, hfound⟩
  have hmem := List.mem_of_find?_eq_some hfound
  have hmatch := List.find?_some hfound
  rw [Bool.and_eq_true, candidate_iff, startsWith_iff] at hmatch
  have hsame : found = e := by
    by_contra hne
    have hclash := clash_of_begins hmatch.1.1 hpos hmatch.1.2 hmax hmatch.2 hbegins
    have hsymm : Std.Symm fun a b : VlcEntry => clash a b = false :=
      ⟨fun a b hab => (clash_comm b a).trans hab⟩
    rw [(isPrefixFree_iff.mp hfree).forall hmem he hne] at hclash
    cases hclash
  rcases decode_spec h hlen with ⟨hmoves, hsymbol⟩
  rw [hfound, hsame] at hmoves hsymbol
  exact ⟨hsymbol, hmoves⟩

/-- A sequence of codewords is decoded as its symbols, whatever stands behind it. -/
theorem decodeMany_spells (hfree : isPrefixFree entries = true)
    (hfits : ∀ e ∈ entries, e.code.toNat < 2 ^ e.len) {es : List VlcEntry}
    (hes : ∀ e ∈ es, e ∈ entries ∧ 0 < e.len) (h : r.At p)
    (hspells : Spells (ofBytes r.data.bytes) p es) :
    ((new entries).decodeMany es.length r).2 = es.map (fun e => some e.symbol) ∧
      r.MovesTo ((new entries).decodeMany es.length r).1 (p + (es.map VlcEntry.len).sum) := by
  induction es generalizing r p with
  | nil => exact ⟨rfl, h.stay⟩
  | cons e es ih =>
      rcases hes e List.mem_cons_self with ⟨he, hpos⟩
      rcases hspells.of_cons (hfits e he) with ⟨hcode, hrest⟩
      rcases decode_of_begins hfree he hpos h hcode with ⟨hsymbol, hmoves⟩
      have hnext := hrest
      rw [← hmoves.data] at hnext
      rcases ih (fun e' he' => hes e' (List.mem_cons_of_mem e he')) hmoves.at_pos hnext
        with ⟨hsymbols, hlast⟩
      have hsum : p + ((e :: es).map VlcEntry.len).sum =
          p + e.len + (es.map VlcEntry.len).sum := by
        rw [List.map_cons, List.sum_cons, Nat.add_assoc]
      rw [hsum]
      refine ⟨?_, hmoves.trans hlast⟩
      rw [List.length_cons, decodeMany, hsymbol, hsymbols]
      rfl

/-! ## Complete tables -/

/-- The codewords that count for a width. -/
def counted (scaleLen : Nat) (entries : List VlcEntry) : List VlcEntry :=
  entries.filter fun e => decide (0 < e.len ∧ e.len ≤ scaleLen)

/-- The sum is that of the windows that the codewords cover, clamped to 64 bits. -/
theorem kraftNumerator_eq (entries : List VlcEntry) (scaleLen : Nat) :
    kraftNumerator entries scaleLen =
      min ((counted scaleLen entries).map fun e => 2 ^ (scaleLen - e.len)).sum u64Max := by
  have hfold : ∀ total ≤ u64Max, entries.foldl (fun total e =>
      if e.len = 0 ∨ scaleLen < e.len then total
      else satAddU64 total (1 <<< (scaleLen - e.len))) total =
        min (total + ((counted scaleLen entries).map fun e => 2 ^ (scaleLen - e.len)).sum)
          u64Max := by
    induction entries with
    | nil =>
        intro total htotal
        simp [counted, htotal]
    | cons e entries ih =>
        intro total htotal
        rw [List.foldl_cons]
        by_cases hskip : e.len = 0 ∨ scaleLen < e.len
        · have hcounted : counted scaleLen (e :: entries) = counted scaleLen entries := by
            refine List.filter_cons_of_neg ?_
            rw [decide_eq_true_iff]
            omega
          rw [if_pos hskip, ih total htotal, hcounted]
        · have hcounted : counted scaleLen (e :: entries) = e :: counted scaleLen entries := by
            refine List.filter_cons_of_pos ?_
            rw [decide_eq_true_iff]
            omega
          rw [if_neg hskip, satAddU64, ih _ (min_le_right _ _), hcounted, List.map_cons,
            List.sum_cons, Nat.one_shiftLeft]
          omega
  rw [kraftNumerator, hfold 0 (Nat.zero_le _), Nat.zero_add]

/-- A complete table decodes something everywhere. -/
theorem decode_isSome (hfits : ∀ e ∈ entries, e.code.toNat < 2 ^ e.len)
    (hfree : isPrefixFree entries = true)
    (hkraft : kraftNumerator entries (new entries).maxLen = 2 ^ (new entries).maxLen)
    (h : r.At p) : ((new entries).decode r).2.isSome = true := by
  have hbits := maxLen_le (new entries)
  generalize hn : (new entries).maxLen = n at hkraft hbits
  have hpow : 2 ^ n ≤ 2 ^ 32 := Nat.pow_le_pow_right (by decide) hbits
  have hmax : u64Max = 18446744073709551615 := rfl
  have hsum : ((counted n entries).map fun e => 2 ^ (n - e.len)).sum = 2 ^ n := by
    rw [kraftNumerator_eq] at hkraft
    omega
  have hcounted : ∀ e ∈ counted n entries, e ∈ entries ∧ 0 < e.len ∧ e.len ≤ n := by
    intro e he
    rwa [counted, List.mem_filter, decide_eq_true_iff] at he
  have hpairs : (counted n entries).Pairwise fun a b => ∀ word,
      Begins n word a.len a.code.toNat → ¬ Begins n word b.len b.code.toNat := by
    refine List.Pairwise.imp_of_mem ?_ ((isPrefixFree_iff.mp hfree).filter _)
    intro a b ha hb hclash word hbegins hbegins'
    rcases hcounted a ha with ⟨_, hapos, hale⟩
    rcases hcounted b hb with ⟨_, hbpos, hble⟩
    rw [clash_of_begins hapos hbpos hale hble hbegins hbegins'] at hclash
    cases hclash
  have hlen : n ≠ 0 := by
    intro hzero
    subst hzero
    have hnone : counted 0 entries = [] := by
      rw [counted, List.filter_eq_nil_iff]
      intro e _
      rw [decide_eq_true_iff]
      omega
    rw [hnone] at hsum
    exact absurd hsum (by decide)
  have hword : (window r.data.bytes p n).toNat < 2 ^ n := by
    rw [toNat_window _ _ hbits]
    exact number_lt _ _ _
  rcases exists_begins (fun e he => (hcounted e he).2.2)
    (fun e he => hfits e (hcounted e he).1) hpairs hsum hword with ⟨e, he, hbegins⟩
  rcases hcounted e he with ⟨hmem, hpos, hle⟩
  have hdecode := (decode_spec h (hn ▸ hlen)).2
  rw [hdecode, Option.isSome_map, hn, scan, List.find?_isSome]
  refine ⟨e, hmem, ?_⟩
  rw [candidate_iff.mpr ⟨hpos, hn ▸ hle⟩, startsWith_iff.mpr (hn ▸ hbegins)]
  rfl

/-- A prefix-free table whose codewords fit in their lengths decodes concatenated codewords as their
symbols; a complete one decodes something in front of every reader. -/
theorem prefix_free_decodes (entries : List VlcEntry) (hfree : isPrefixFree entries = true)
    (hfits : ∀ e ∈ entries, e.code.toNat < 2 ^ e.len) :
    (∀ (es : List VlcEntry) (r : BitReader) (p : Nat), (∀ e ∈ es, e ∈ entries ∧ 0 < e.len) →
      r.At p → Spells (ofBytes r.data.bytes) p es →
        ((new entries).decodeMany es.length r).2 = es.map (fun e => some e.symbol) ∧
          r.MovesTo ((new entries).decodeMany es.length r).1 (p + (es.map VlcEntry.len).sum)) ∧
      (kraftNumerator entries (new entries).maxLen = 2 ^ (new entries).maxLen →
        ∀ (r : BitReader) (p : Nat), r.At p → ((new entries).decode r).2.isSome = true) :=
  ⟨fun _ _ _ hes h hspells => decodeMany_spells hfree hfits hes h hspells,
    fun hkraft _ _ h => decode_isSome hfits hfree hkraft h⟩

end VlcTable

/-- A complete table of three codewords. -/
def toyTable : List VlcEntry :=
  [⟨0, 1, 65, by decide⟩, ⟨2, 2, 66, by decide⟩, ⟨3, 2, 67, by decide⟩]

theorem prefix_free_decodes_toy :
    ((VlcTable.new toyTable).decodeMany 3 (BitReader.new ⟨[0x58], by decide⟩)).2 =
        [some 65, some 66, some 67] ∧
      ((VlcTable.new toyTable).decode (BitReader.new ⟨[0xFF], by decide⟩)).2.isSome = true := by
  have hfree : isPrefixFree toyTable = true := by decide
  rcases VlcTable.prefix_free_decodes toyTable hfree (by decide) with ⟨hsequence, hcomplete⟩
  refine ⟨(hsequence toyTable _ 0 (by decide) (BitReader.at_start _ _) ?_).1,
    hcomplete (by decide) _ 0 (BitReader.at_start _ _)⟩
  unfold Spells
  decide

/-- A codeword that does not fit in its length passes both checks, and nothing begins with it. -/
theorem overlong_codeword_not_decoded :
    isPrefixFree [⟨0, 1, 65, by decide⟩, ⟨3, 1, 66, by decide⟩] = true ∧
      kraftNumerator [⟨0, 1, 65, by decide⟩, ⟨3, 1, 66, by decide⟩] 1 = 2 ^ 1 ∧
      (VlcTable.new [⟨0, 1, 65, by decide⟩, ⟨3, 1, 66, by decide⟩]).maxLen = 1 ∧
      ((VlcTable.new [⟨0, 1, 65, by decide⟩, ⟨3, 1, 66, by decide⟩]).decode
        (BitReader.new ⟨[0x80], by decide⟩)).2 = none := by
  refine ⟨by decide, by decide, by decide, ?_⟩
  decide

end Codec
end Vaco
