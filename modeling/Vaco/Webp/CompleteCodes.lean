import Vaco.Webp.HuffmanTrie

/-!
# Complete codes and VP8L Huffman tables

A table is only to be built for a complete code, and then every string of bits is decoded.  No
sum of lengths is checked, though: lengths are refused only when a codeword goes through the leaf
of an earlier one.

Main results:

- `decodes_of_complete`: a complete code decodes all bits.
- `tells_complete_iff`: when lengths are told complete or not.
-/

namespace Vaco
namespace Webp

open Library BitStream Vaco.Core Trie

namespace BitReaderLsb

/-- The reader behind some bits. -/
def skip : Nat → BitReaderLsb → BitReaderLsb
  | 0, r => r
  | k + 1, r => skip k r.readBit.2

/-- The bits in front of the reader. -/
def front (r : BitReaderLsb) (k : Nat) : Bool :=
  (r.skip k).readBit.1

end BitReaderLsb

/-- The codewords of all symbols, as paths. -/
def words (lengths : List Nat) : List (Nat × Nat) :=
  (present lengths).map (pathOf fun e => canonical lengths e.1 e.2)

/-- A codeword is a proper beginning of a later one, and no earlier one begins with it. -/
def Shadowed (ws : List (Nat × Nat)) : Prop :=
  ∃ before v behind, ws = before ++ v :: behind ∧ (∀ b ∈ before, ¬ Begins v.1 b.1) ∧
    ∃ w ∈ behind, w.1 ≠ v.1 ∧ Begins v.1 w.1

def DecodesCanonical (lengths : List Nat) (table : HuffmanTable) (r : BitReaderLsb) : Prop :=
  ∃ len sym, lengths[sym]? = some len ∧ 0 < len ∧
    table.decode r = some (asU32 sym, r.skip len) ∧
    ∀ k < len, r.front k = (canonical lengths len sym).testBit (len - 1 - k)

/-- A table is built exactly for a complete code, and decodes every string of bits. -/
def TellsComplete (lengths : List Nat) : Prop :=
  ((∃ table, HuffmanTable.fromLengths lengths = .ok table) ↔ Complete lengths) ∧
    (Complete lengths → ∀ table, HuffmanTable.fromLengths lengths = .ok table →
      ∀ r, DecodesCanonical lengths table r)

/-! ## Codewords and paths -/

variable {lengths : List Nat} {l m c d j : Nat} {e f : Nat × Nat}

theorem path_div (hc : c < 2 ^ l) (hd : d < 2 ^ m) (h : (2 ^ m + d) / 2 ^ j = 2 ^ l + c) :
    m = l + j ∧ d / 2 ^ j = c := by
  have hj : j ≤ m := by
    by_contra hlt
    have hpow : 2 ^ (m + 1) ≤ 2 ^ j := Nat.pow_le_pow_right two_pos (by omega)
    rw [pow_succ] at hpow
    rw [Nat.div_eq_of_lt (by omega)] at h
    have hpos := Nat.two_pow_pos l
    omega
  rcases Nat.exists_eq_add_of_le hj with ⟨n, rfl⟩
  have hdiv : d / 2 ^ j < 2 ^ n := by
    rw [Nat.div_lt_iff_lt_mul (Nat.two_pow_pos j), ← pow_add, Nat.add_comm n j]
    exact hd
  rw [pow_add, Nat.mul_add_div (Nat.two_pow_pos j)] at h
  generalize d / 2 ^ j = q at h hdiv ⊢
  have hln : n = l := by
    rcases Nat.lt_trichotomy n l with hlt | heq | hgt
    · have hpow : 2 ^ (n + 1) ≤ 2 ^ l := Nat.pow_le_pow_right two_pos hlt
      rw [pow_succ] at hpow
      omega
    · exact heq
    · have hpow : 2 ^ (l + 1) ≤ 2 ^ n := Nat.pow_le_pow_right two_pos hgt
      rw [pow_succ] at hpow
      omega
  subst hln
  exact ⟨Nat.add_comm _ _, by omega⟩

theorem eq_of_begins (hkraft : kraft lengths 15 ≤ 2 ^ 15) (hle : ∀ l ∈ lengths, l ≤ 15)
    (he : e ∈ present lengths) (hf : f ∈ present lengths)
    (h : Begins (pathOf (fun e => canonical lengths e.1 e.2) e).1
      (pathOf (fun e => canonical lengths e.1 e.2) f).1) : e = f := by
  rcases mem_present.mp he with ⟨he0, heget⟩
  rcases mem_present.mp hf with ⟨hf0, hfget⟩
  have helt := canonical_lt hkraft heget he0 (hle _ (List.mem_of_getElem? heget))
  have hflt := canonical_lt hkraft hfget hf0 (hle _ (List.mem_of_getElem? hfget))
  rcases h with ⟨-, j, -, hj⟩
  rw [pathOf, pathOf, Nat.mod_eq_of_lt helt, Nat.mod_eq_of_lt hflt] at hj
  rcases path_div helt hflt hj with ⟨hlen, hdiv⟩
  have hsym : e.2 = f.2 := by
    by_contra hne
    refine canonical_div_ne heget he0 hfget (by omega) hne ?_
    rwa [show f.1 - e.1 = j by omega]
  refine Prod.ext ?_ hsym
  rw [hsym] at heget
  exact Option.some.inj (heget.symm.trans hfget)

theorem map_pathOf_codes (hle : ∀ l ∈ lengths, l ≤ 15) :
    (present lengths).map
      (pathOf fun e => (assignCodes (nextCode lengths) lengths)[e.2]?.getD 0) = words lengths := by
  refine List.map_congr_left fun e he => ?_
  rcases mem_present.mp he with ⟨he0, heget⟩
  have hdvd : 2 ^ e.1 ∣ 4294967296 :=
    (Nat.pow_dvd_pow 2 ((hle _ (List.mem_of_getElem? heget)).trans (by decide))).trans
      (show 2 ^ 32 ∣ 4294967296 from dvd_rfl)
  rw [pathOf, pathOf, getElem?_canonicalCodes heget he0, Option.getD_some, asU32,
    Nat.mod_mod_of_dvd _ hdvd]

theorem blocked_iff {ws0 ws : List (Nat × Nat)} : Blocked ws0 ws ↔
    ∃ before w behind, ws = before ++ w :: behind ∧ Blocks (ws0 ++ before) w.1 := by
  induction ws generalizing ws0 with
  | nil => simp [Blocked]
  | cons w ws ih =>
      rw [Blocked, ih]
      constructor
      · rintro (h | ⟨before, v, behind, rfl, h⟩)
        · exact ⟨[], w, ws, rfl, by rwa [List.append_nil]⟩
        · exact ⟨w :: before, v, behind, rfl, by rwa [List.append_assoc] at h⟩
      · rintro ⟨before, v, behind, heq, h⟩
        cases before with
        | nil =>
            rw [List.nil_append, List.cons.injEq] at heq
            rw [List.append_nil, ← heq.1] at h
            exact .inl h
        | cons b before =>
            rw [List.cons_append, List.cons.injEq] at heq
            refine .inr ⟨before, v, behind, heq.2, ?_⟩
            rwa [heq.1, List.append_assoc]

theorem blocked_iff_shadowed {ws : List (Nat × Nat)} (hws : ∀ w ∈ ws, 1 < w.1 ∧ w.1 < 65536) :
    Blocked [] ws ↔ Shadowed ws := by
  rw [blocked_iff]
  constructor
  · rintro ⟨before, w, behind, rfl, j, hj, s, hs⟩
    have hw := hws w (List.mem_append_right _ List.mem_cons_self)
    rw [List.nil_append, content] at hs
    split at hs
    · cases hs
    · rcases Option.map_eq_some_iff.mp hs with ⟨v, hv, hsv⟩
      rcases List.find?_eq_some_iff_append.mp hv with ⟨hbegins, b, b', rfl, hb⟩
      have hvw : v.1 = w.1 / 2 ^ j := by
        by_contra hne
        rw [if_neg hne] at hsv
        cases hsv
      rw [← hvw] at hbegins hb
      refine ⟨b, v, b' ++ w :: behind, by rw [List.append_assoc]; rfl, fun a ha h => ?_, w,
        List.mem_append_right _ List.mem_cons_self, ?_, (of_decide_eq_true hbegins).1, j, ?_,
        hvw.symm⟩
      · have hno := hb a ha
        rw [decide_eq_true h] at hno
        cases hno
      · rw [hvw]
        exact (Nat.div_lt_self (by omega) (Nat.one_lt_two_pow hj.ne')).ne'
      · by_contra hlt
        have hpow : 2 ^ 16 ≤ 2 ^ j := Nat.pow_le_pow_right two_pos (not_lt.mp hlt)
        have hpos := (of_decide_eq_true hbegins).1
        rw [hvw, Nat.div_eq_of_lt (by omega)] at hpos
        exact lt_irrefl 0 hpos
  · rintro ⟨before, v, behind, rfl, hbefore, w, hw, hne, hpos, j, hj, hjw⟩
    have hv := hws v (List.mem_append_right _ List.mem_cons_self)
    rcases List.append_of_mem hw with ⟨c, c', rfl⟩
    refine ⟨before ++ v :: c, w, c', by rw [List.append_assoc]; rfl, j, ?_, v.2, ?_⟩
    · rcases Nat.eq_zero_or_pos j with rfl | hj0
      · rw [pow_zero, Nat.div_one] at hjw
        exact absurd hjw hne
      · exact hj0
    · have hself : decide (Begins v.1 v.1) = true :=
        decide_eq_true ⟨hpos, 0, by decide, by rw [pow_zero, Nat.div_one]⟩
      have hfind : (before ++ v :: c).find? (fun w => decide (Begins v.1 w.1)) = some v :=
        List.find?_eq_some_iff_append.mpr ⟨hself, before, c, rfl, fun a ha => by
          rw [decide_eq_false (hbefore a ha)]
          rfl⟩
      rw [List.nil_append, hjw, content, if_neg hv.1.ne', hfind, Option.map_some, if_pos rfl]

theorem words_bounded (hle : ∀ l ∈ lengths, l ≤ 15) :
    ∀ w ∈ words lengths, 1 < w.1 ∧ w.1 < 65536 := by
  intro w hw
  rcases List.mem_map.mp hw with ⟨e, he, rfl⟩
  rcases mem_present.mp he with ⟨he0, heget⟩
  have hpow := Nat.one_lt_two_pow he0.ne'
  refine ⟨?_, (path_spec _ (hle _ (List.mem_of_getElem? heget))).1⟩
  rw [pathOf]
  omega

/-! ## Tables -/

theorem lt_foldr_max : 15 < lengths.foldr max 0 ↔ ∃ l ∈ lengths, 15 < l := by
  induction lengths with
  | nil => simp
  | cons l lengths ih => rw [List.foldr_cons, lt_max_iff, ih, List.exists_mem_cons_iff]

theorem fromLengths_eq (h : 2 ≤ (present lengths).length) :
    HuffmanTable.fromLengths lengths = (do
      let codes ← canonicalCodes lengths
      let nodes ← insertAll codes (present lengths) [.branch noChild noChild]
      pure (.tree nodes)) := by
  rw [HuffmanTable.fromLengths]
  rcases hpresent : present lengths with _ | ⟨a, _ | ⟨b, rest⟩⟩
  · rw [hpresent] at h
    exact absurd h (by decide)
  · rw [hpresent] at h
    exact absurd h (by simp)
  · rfl

/-- A table is built unless a codeword is shadowed. -/
theorem fromLengths_spec (h : 2 ≤ (present lengths).length) (hle : ∀ l ∈ lengths, l ≤ 15) :
    (Shadowed (words lengths) → ∃ e, HuffmanTable.fromLengths lengths = .error e) ∧
      (¬ Shadowed (words lengths) → ∃ t, HuffmanTable.fromLengths lengths = .ok (.tree (render t)) ∧
        Owned (words lengths) t) := by
  have hmax : ¬ 15 < lengths.foldr max 0 := fun hlt => by
    rcases lt_foldr_max.mp hlt with ⟨l, hl, hlt⟩
    exact absurd (hle l hl) (not_le.mpr hlt)
  have hentries : ∀ e ∈ present lengths, e.1 ≤ 15 := fun e he =>
    hle _ (List.mem_of_getElem? (mem_present.mp he).2)
  have hall := Owned.empty.insertAll (assignCodes (nextCode lengths) lengths) hentries
  have hroot : render [(1, none)] = [.branch noChild noChild] := rfl
  dsimp only at hall
  rw [map_pathOf_codes hle, blocked_iff_shadowed (words_bounded hle), hroot] at hall
  have htable : HuffmanTable.fromLengths lengths =
      (insertAll (assignCodes (nextCode lengths) lengths) (present lengths)
        [.branch noChild noChild]).bind fun nodes => .ok (.tree nodes) := by
    rw [fromLengths_eq h, canonicalCodes, if_neg hmax]
    rfl
  rw [htable]
  refine ⟨fun hshadowed => ?_, fun hno => ?_⟩
  · rcases hall.1 hshadowed with ⟨e, he⟩
    exact ⟨e, by rw [he]; rfl⟩
  · rcases hall.2 hno with ⟨t, ht, howned⟩
    exact ⟨t, by rw [ht]; rfl, howned⟩

/-- Walking the trie along the bits of a leaf. -/
theorem walk_eq {t : Trie} {w s k cur fuel : Nat} {o : Option Nat} {r : BitReaderLsb}
    (ht : Shaped t) (hw : (w, some s) ∈ t) (hbranch : ∀ j, 0 < j → j ≤ k → (w / 2 ^ j, none) ∈ t)
    (hcur : t[cur]? = some (w / 2 ^ k, o)) (hfront : ∀ i < k, r.front i = w.testBit (k - 1 - i))
    (hfuel : k < fuel) : HuffmanTable.walk t.render fuel cur r = some (s, r.skip k) := by
  induction k generalizing cur o fuel r with
  | zero =>
      rcases Nat.exists_eq_add_of_lt hfuel with ⟨fuel, rfl⟩
      rw [pow_zero, Nat.div_one] at hcur
      rw [ht.eq_of_mem (List.mem_of_getElem? hcur) hw] at hcur
      rw [HuffmanTable.walk, getElem?_render hcur]
      rfl
  | succ k ih =>
      rcases Nat.exists_eq_add_of_lt hfuel with ⟨fuel, rfl⟩
      have hbit : r.readBit.1 = w.testBit k := by
        have hzero := hfront 0 (Nat.succ_pos k)
        rwa [Nat.sub_zero, Nat.add_sub_cancel] at hzero
      have hnext : ∃ o', (w / 2 ^ k, o') ∈ t := by
        rcases Nat.eq_zero_or_pos k with rfl | hk
        · exact ⟨some s, by rwa [pow_zero, Nat.div_one]⟩
        · exact ⟨none, hbranch k hk (Nat.le_succ k)⟩
      rcases hnext with ⟨o', ho'⟩
      rcases List.getElem?_of_mem ho' with ⟨i, hi⟩
      have hhalf : w / 2 ^ k / 2 = w / 2 ^ (k + 1) := by rw [Nat.div_div_eq_div_mul, ← pow_succ]
      have hslot : (if w.testBit k then t.slot (2 * (w / 2 ^ (k + 1)) + 1)
          else t.slot (2 * (w / 2 ^ (k + 1)))) = i := by
        rw [← ht.slot_eq hi, Nat.testBit_eq_decide_div_mod_eq]
        split
        · rename_i hone
          rw [decide_eq_true_iff] at hone
          congr 1
          omega
        · rename_i hzero
          rw [decide_eq_true_iff] at hzero
          congr 1
          omega
      rw [ht.eq_of_mem (List.mem_of_getElem? hcur) (hbranch (k + 1) (Nat.succ_pos k) le_rfl)] at hcur
      rw [HuffmanTable.walk, getElem?_render hcur]
      dsimp only [node]
      rw [hbit, hslot]
      refine ih (fun j hj hjk => hbranch j hj (by omega)) hi (fun i' hi' => ?_) (by omega)
      have hlater := hfront (i' + 1) (by omega)
      rwa [show k + 1 - 1 - (i' + 1) = k - 1 - i' by omega] at hlater

/-- The codeword of a symbol is a leaf, and there are branches above it. -/
theorem content_words (hkraft : kraft lengths 15 ≤ 2 ^ 15) (hle : ∀ l ∈ lengths, l ≤ 15)
    (he : e ∈ present lengths) (hj : j ≤ e.1) :
    content (words lengths) ((pathOf (fun e => canonical lengths e.1 e.2) e).1 / 2 ^ j) =
      some (if j = 0 then some (asU32 e.2) else none) := by
  set path := pathOf fun e => canonical lengths e.1 e.2 with hpath
  have hmem : path e ∈ words lengths := List.mem_map_of_mem he
  have hbound := words_bounded hle _ hmem
  have hlen := hle _ (List.mem_of_getElem? (mem_present.mp he).2)
  have hone : (path e).1 / 2 ^ e.1 = 1 := (path_spec _ hlen).2.1
  have hge : (path e).1 / 2 ^ e.1 ≤ (path e).1 / 2 ^ j :=
    Nat.div_le_div_left (Nat.pow_le_pow_right two_pos hj) (Nat.two_pow_pos j)
  have hself : (path e).1 / 2 ^ j = (path e).1 → j = 0 := by
    intro heq
    by_contra hne
    exact absurd heq (Nat.div_lt_self (by omega) (Nat.one_lt_two_pow hne)).ne
  rw [content]
  split
  · rename_i hr
    rw [if_neg]
    rintro rfl
    rw [pow_zero, Nat.div_one] at hr
    omega
  · cases hfind : (words lengths).find? fun w => decide (Begins ((path e).1 / 2 ^ j) w.1) with
    | none =>
        refine absurd (decide_eq_true ?_) (List.find?_eq_none.mp hfind _ hmem)
        exact ⟨by omega, j, by omega, rfl⟩
    | some v =>
        rcases List.mem_map.mp (List.mem_of_find?_eq_some hfind) with ⟨f, hf, rfl⟩
        have hfound := List.find?_some hfind
        have hbegins : Begins ((path e).1 / 2 ^ j) (path f).1 := of_decide_eq_true hfound
        rw [Option.map_some, ← hpath]
        congr 1
        by_cases hj0 : j = 0
        · subst hj0
          rw [pow_zero, Nat.div_one] at hbegins ⊢
          rw [← eq_of_begins hkraft hle he hf hbegins, if_pos rfl, if_pos rfl]
          rfl
        · rw [if_neg hj0, if_neg]
          intro heq
          have hef := eq_of_begins hkraft hle hf he ⟨by rw [heq]; omega, j, by omega, heq.symm⟩
          rw [hef] at heq
          exact hj0 (hself heq.symm)

/-- The table of a complete code decodes every string of bits. -/
theorem decodes_of_complete (h : Complete lengths) {t : Trie} (ht : Owned (words lengths) t)
    (r : BitReaderLsb) : DecodesCanonical lengths (.tree (render t)) r := by
  rcases exists_canonical_begins h (number_lt r.front 0 15) with ⟨e, he, hbegins⟩
  rcases mem_present.mp he with ⟨he0, heget⟩
  have hlen := h.1 _ (List.mem_of_getElem? heget)
  have hlt := canonical_lt h.2.le heget he0 hlen
  have hnumber : number r.front 0 e.1 = canonical lengths e.1 e.2 := by
    have hsplit := number_add r.front 0 e.1 (15 - e.1)
    rw [Nat.add_sub_cancel' hlen] at hsplit
    rw [← hbegins, hsplit, Nat.mul_comm, Nat.mul_add_div (Nat.two_pow_pos _),
      Nat.div_eq_of_lt (number_lt _ _ _), Nat.add_zero]
  have hfront : ∀ k < e.1, r.front k = (canonical lengths e.1 e.2).testBit (e.1 - 1 - k) := by
    intro k hk
    rw [← hnumber, testBit_number _ _ hk, Nat.zero_add]
  have hnode : ∀ j ≤ e.1, ((2 ^ e.1 + canonical lengths e.1 e.2 % 2 ^ e.1) / 2 ^ j,
      if j = 0 then some (asU32 e.2) else none) ∈ t := fun j hj =>
    (ht.mem_iff _ _).mpr (content_words h.2.le h.1 he hj)
  rcases path_spec (canonical lengths e.1 e.2) hlen with ⟨-, hone, -⟩
  refine ⟨e.1, e.2, heget, he0, ?_, hfront⟩
  have hleaf := hnode 0 (Nat.zero_le _)
  rw [pow_zero, Nat.div_one, if_pos rfl] at hleaf
  refine walk_eq ht.shaped hleaf (fun j hj hje => ?_) (ht.root.trans (by rw [hone])) (fun k hk => ?_)
    (by omega)
  · have hbranch := hnode j hje
    rwa [if_neg hj.ne'] at hbranch
  · rw [hfront k hk, Nat.mod_eq_of_lt hlt, Nat.testBit_two_pow_add_gt (by omega)]

theorem not_shadowed (hkraft : kraft lengths 15 ≤ 2 ^ 15) (hle : ∀ l ∈ lengths, l ≤ 15) :
    ¬ Shadowed (words lengths) := by
  rintro ⟨before, v, behind, hwords, -, w, hw, hne, hbegins⟩
  have hv : v ∈ words lengths := hwords ▸ List.mem_append_right _ List.mem_cons_self
  have hw' : w ∈ words lengths :=
    hwords ▸ List.mem_append_right _ (List.mem_cons_of_mem _ hw)
  rcases List.mem_map.mp hv with ⟨e, he, rfl⟩
  rcases List.mem_map.mp hw' with ⟨f, hf, rfl⟩
  rw [eq_of_begins hkraft hle he hf hbegins] at hne
  exact hne rfl

/-- A sum that falls short of all words is never told. -/
theorem tells_complete_iff (h : 2 ≤ (present lengths).length) :
    TellsComplete lengths ↔ (∃ l ∈ lengths, 15 < l) ∨ kraft lengths 15 = 2 ^ 15 ∨
      2 ^ 15 < kraft lengths 15 ∧ Shadowed (words lengths) := by
  by_cases hle : ∀ l ∈ lengths, l ≤ 15
  · have hlong : ¬ ∃ l ∈ lengths, 15 < l := fun ⟨l, hl, hlt⟩ => absurd (hle l hl) (not_le.mpr hlt)
    have hcomplete : Complete lengths ↔ kraft lengths 15 = 2 ^ 15 := and_iff_right hle
    have hspec := fromLengths_spec h hle
    have hok : (∃ table, HuffmanTable.fromLengths lengths = .ok table) ↔
        ¬ Shadowed (words lengths) := by
      constructor
      · rintro ⟨table, htable⟩ hshadowed
        rcases hspec.1 hshadowed with ⟨e, he⟩
        rw [he] at htable
        cases htable
      · intro hno
        rcases hspec.2 hno with ⟨t, ht, -⟩
        exact ⟨_, ht⟩
    rw [TellsComplete, hok, hcomplete, or_iff_right hlong]
    constructor
    · rintro ⟨hiff, -⟩
      rcases Nat.lt_trichotomy (kraft lengths 15) (2 ^ 15) with hlt | heq | hgt
      · exact absurd (hiff.mp (not_shadowed hlt.le hle)) hlt.ne
      · exact .inl heq
      · exact .inr ⟨hgt, not_not.mp (mt hiff.mp hgt.ne')⟩
    · rintro (heq | ⟨hgt, hshadowed⟩)
      · have hno := not_shadowed heq.le hle
        refine ⟨iff_of_true hno heq, fun _ table htable r => ?_⟩
        rcases hspec.2 hno with ⟨t, ht, howned⟩
        rw [← Except.ok.inj (ht.symm.trans htable)]
        exact decodes_of_complete ⟨hle, heq⟩ howned r
      · exact ⟨iff_of_false (not_not.mpr hshadowed) hgt.ne', fun heq => absurd heq hgt.ne'⟩
  · have hlong : ∃ l ∈ lengths, 15 < l := by
      by_contra hno
      exact hle fun l hl => not_lt.mp fun hlt => hno ⟨l, hl, hlt⟩
    have hbad : ¬ ∃ table, HuffmanTable.fromLengths lengths = .ok table := by
      rintro ⟨table, htable⟩
      rw [fromLengths_eq h, canonicalCodes, if_pos (lt_foldr_max.mpr hlong)] at htable
      cases htable
    exact iff_of_true ⟨iff_of_false hbad fun hc => hle hc.1, fun hc => absurd hc.1 hle⟩ (.inl hlong)

/-- Three codewords of one bit: the third one is taken for the first. -/
theorem tells_complete_iff_three_bits :
    TellsComplete [1, 1, 1] ↔ (∃ l ∈ [1, 1, 1], 15 < l) ∨ kraft [1, 1, 1] 15 = 2 ^ 15 ∨
      2 ^ 15 < kraft [1, 1, 1] 15 ∧ Shadowed (words [1, 1, 1]) :=
  tells_complete_iff (by decide)

/-- A table is built for two codewords of two bits, which leave half of all words out. -/
theorem not_tellsComplete_two_short : ¬ TellsComplete [2, 2] := by
  intro h
  have hok : ∃ table, HuffmanTable.fromLengths [2, 2] = .ok table := ⟨_, rfl⟩
  exact absurd (h.1.mp hok) (by decide)

end Webp
end Vaco
