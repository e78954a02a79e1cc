import Vaco.Core.Packet
import Vaco.Library.BitStream
import Vaco.Library.FixedWidth
import Vaco.Library.PrefixCode

/-!
# VP8L Huffman tables

A table is built from a list of code lengths: canonical codewords are put into a binary trie, one
symbol after another, and a symbol is decoded by walking the trie with one bit at a time.

Main results:

- `getElem?_canonicalCodes`: the codewords are the canonical ones, up to 32 bits.
-/

namespace Vaco
namespace Webp

open Library BitStream Vaco.Core

/-! ## The bit reader -/

structure BitReaderLsb where
  data : Bytes
  bitPos : Nat
  overran : Bool
deriving DecidableEq

namespace BitReaderLsb

/-- The number of bits of the data. -/
def totalBits (self : BitReaderLsb) : Nat :=
  min (self.data.length * 8) u64Max

/-- One bit; a zero behind the end. -/
def readBit (self : BitReaderLsb) : Bool × BitReaderLsb :=
  if self.totalBits ≤ self.bitPos then
    (false, { self with overran := true, bitPos := satAddU64 self.bitPos 1 })
  else
    (((self.data[self.bitPos / 8]?).getD 0).getLsbD (self.bitPos % 8),
      { self with bitPos := satAddU64 self.bitPos 1 })

end BitReaderLsb

/-! ## Tables -/

/-- A node of a table; the root is the node 0. -/
inductive Node where
  | branch (onZero onOne : Nat)
  | leaf (symbol : Nat)
deriving DecidableEq

/-- A table that symbols are decoded with. -/
inductive HuffmanTable where
  | single (symbol : Nat)
  | tree (nodes : List Node)
deriving DecidableEq

/-- The child of a branch that has none, `u32::MAX`. -/
def noChild : Nat := 4294967295

/-- A number as `u32` arithmetic leaves it. -/
def asU32 (n : Nat) : Nat :=
  n % 4294967296

/-- How many symbols have a length that is not zero. -/
def blCount (lengths : List Nat) (l : Nat) : Nat :=
  if 0 < l then asU32 (lengths.count l) else 0

/-- The first codeword of every length. -/
def nextCode (lengths : List Nat) : Nat → Nat
  | 0 => 0
  | bits + 1 => asU32 ((nextCode lengths bits + blCount lengths bits) * 2)

/-- The codewords of symbols, given the next one of every length. -/
def assignCodes (next : Nat → Nat) : List Nat → List Nat
  | [] => []
  | l :: rest =>
      if 0 < l then next l :: assignCodes (Function.update next l (asU32 (next l + 1))) rest
      else 0 :: assignCodes next rest

/-- The canonical codeword of every symbol. -/
def canonicalCodes (lengths : List Nat) : Except Error (List Nat) :=
  if 15 < lengths.foldr max 0 then
    .error (.invalidData "vp8l: huffman code length exceeds 15")
  else .ok (assignCodes (nextCode lengths) lengths)

def insertBits (sym code : Nat) : Nat → Nat → List Node → Except Error (List Node)
  | 0, _, nodes => .ok nodes
  | k + 1, cur, nodes =>
      match nodes[cur]? with
      | some (.branch z o) =>
          let bit := code / 2 ^ k % 2
          let next := if bit = 0 then z else o
          if next = noChild then
            let pushed := nodes ++ [if k = 0 then .leaf (asU32 sym) else .branch noChild noChild]
            let newIdx := if nodes.length ≤ noChild then nodes.length else noChild
            let linked := pushed.set cur
              (if bit = 0 then .branch newIdx o else .branch z newIdx)
            insertBits sym code k nodes.length linked
          else insertBits sym code k next nodes
      | _ => .error (.invalidData "vp8l: huffman lengths over-subscribed")

/-- The lengths that are not zero, with their symbols. -/
def present (lengths : List Nat) : List (Nat × Nat) :=
  lengths.zipIdx.filter fun p => decide (0 < p.1)

/-- The trie of some symbols. -/
def insertAll (codes : List Nat) : List (Nat × Nat) → List Node → Except Error (List Node)
  | [], nodes => .ok nodes
  | (len, sym) :: rest, nodes => do
      let nodes ← insertBits sym (codes[sym]?.getD 0) len 0 nodes
      insertAll codes rest nodes

namespace HuffmanTable

/-- Build a table from one code length for every symbol. -/
def fromLengths (lengths : List Nat) : Except Error HuffmanTable :=
  match present lengths with
  | [] => .ok (.single 0)
  | [(_, sym)] => .ok (.single (if sym ≤ 4294967295 then sym else 0))
  | entries => do
      let codes ← canonicalCodes lengths
      let nodes ← insertAll codes entries [.branch noChild noChild]
      pure (.tree nodes)

def walk (nodes : List Node) : Nat → Nat → BitReaderLsb → Option (Nat × BitReaderLsb)
  | 0, _, _ => none
  | fuel + 1, cur, r =>
      match nodes[cur]? with
      | some (.leaf sym) => some (sym, r)
      | some (.branch z o) =>
          let read := r.readBit
          walk nodes fuel (if read.1 then o else z) read.2
      | none => some (0, r)

/-- Decode one symbol; a trie is no deeper than 15, so 16 nodes are enough. -/
def decode (self : HuffmanTable) (r : BitReaderLsb) : Option (Nat × BitReaderLsb) :=
  match self with
  | single sym => some (sym, r)
  | tree nodes => walk nodes 16 0 r

end HuffmanTable

/-! ## Canonical codewords -/

/-- The words of some width that begin with codewords of at most that width. -/
def kraft (lengths : List Nat) (width : Nat) : Nat :=
  (lengths.map fun l => if 0 < l ∧ l ≤ width then 2 ^ (width - l) else 0).sum

/-- The codeword of a symbol of some length, by what comes before it. -/
def canonical (lengths : List Nat) (l sym : Nat) : Nat :=
  2 * kraft lengths (l - 1) + (lengths.take sym).count l

variable {lengths : List Nat} {l m sym : Nat}

theorem kraft_zero (lengths : List Nat) : kraft lengths 0 = 0 := by
  rw [kraft, List.sum_eq_zero]
  intro x hx
  rcases List.mem_map.mp hx with ⟨l, -, rfl⟩
  exact if_neg fun h => absurd h.2 (not_le.mpr h.1)

theorem kraft_cons (l : Nat) (lengths : List Nat) (width : Nat) :
    kraft (l :: lengths) width =
      (if 0 < l ∧ l ≤ width then 2 ^ (width - l) else 0) + kraft lengths width := by
  rw [kraft, List.map_cons, List.sum_cons]
  rfl

theorem kraft_succ (lengths : List Nat) (width : Nat) :
    kraft lengths (width + 1) = 2 * kraft lengths width + lengths.count (width + 1) := by
  induction lengths with
  | nil => rfl
  | cons l lengths ih =>
      rw [kraft_cons, ih, kraft_cons, List.count_cons]
      have hhead : (if 0 < l ∧ l ≤ width + 1 then 2 ^ (width + 1 - l) else 0) =
          2 * (if 0 < l ∧ l ≤ width then 2 ^ (width - l) else 0) +
            if (l == width + 1) = true then 1 else 0 := by
        by_cases hl : 0 < l ∧ l ≤ width
        · rw [if_pos hl, if_pos ⟨hl.1, by omega⟩, if_neg (by rw [beq_iff_eq]; omega),
            Nat.succ_sub hl.2, pow_succ]
          omega
        · by_cases heq : l = width + 1
          · subst heq
            simp
          · rw [if_neg hl, if_neg (by omega), if_neg (by rwa [beq_iff_eq])]
      rw [hhead]
      omega

theorem kraft_mul_le (lengths : List Nat) {l m : Nat} (h : l ≤ m) :
    kraft lengths l * 2 ^ (m - l) ≤ kraft lengths m := by
  induction m, h using Nat.le_induction with
  | base => rw [Nat.sub_self, pow_zero, Nat.mul_one]
  | succ m hm ih =>
      rw [kraft_succ, Nat.succ_sub hm, pow_succ, ← Nat.mul_assoc]
      omega

theorem nextCode_eq (lengths : List Nat) (l : Nat) :
    nextCode lengths (l + 1) = asU32 (2 * kraft lengths l) := by
  induction l with
  | zero =>
      rw [kraft_zero]
      rfl
  | succ l ih =>
      rw [nextCode, ih, blCount, if_pos (Nat.succ_pos l), kraft_succ]
      unfold asU32
      omega

theorem getElem?_assignCodes {next : Nat → Nat} (hnext : ∀ l, next l = asU32 (next l))
    (h : lengths[sym]? = some l) (hl : 0 < l) :
    (assignCodes next lengths)[sym]? = some (asU32 (next l + (lengths.take sym).count l)) := by
  induction lengths generalizing next sym with
  | nil => cases h
  | cons head rest ih =>
      cases sym with
      | zero =>
          cases h
          rw [assignCodes, if_pos hl, List.take_zero, List.count_nil, List.getElem?_cons_zero]
          exact congrArg some (hnext l)
      | succ sym =>
          rw [List.getElem?_cons_succ] at h
          rw [assignCodes, List.take_succ_cons, List.count_cons]
          split
          · have hupdate : ∀ x, Function.update next head (asU32 (next head + 1)) x =
                asU32 (Function.update next head (asU32 (next head + 1)) x) := by
              intro x
              by_cases hx : x = head
              · rw [hx, Function.update_self, asU32, asU32, Nat.mod_mod]
              · rw [Function.update_of_ne hx]
                exact hnext x
            rw [List.getElem?_cons_succ, ih hupdate h]
            by_cases hx : l = head
            · subst hx
              rw [Function.update_self, if_pos (beq_self_eq_true l)]
              unfold asU32
              congr 1
              omega
            · rw [Function.update_of_ne hx, if_neg (by rw [beq_iff_eq]; exact Ne.symm hx),
                Nat.add_zero]
          · rename_i hhead
            rw [List.getElem?_cons_succ, ih hnext h,
              if_neg (by rw [beq_iff_eq]; omega), Nat.add_zero]

/-- The codewords are the canonical ones, up to 32 bits. -/
theorem getElem?_canonicalCodes (h : lengths[sym]? = some l) (hl : 0 < l) :
    (assignCodes (nextCode lengths) lengths)[sym]? = some (asU32 (canonical lengths l sym)) := by
  have hnext : ∀ l, nextCode lengths l = asU32 (nextCode lengths l) := by
    intro l
    cases l with
    | zero => rfl
    | succ l => rw [nextCode, asU32, asU32, Nat.mod_mod]
  rw [getElem?_assignCodes hnext h hl, canonical]
  cases l with
  | zero => exact absurd hl (lt_irrefl 0)
  | succ k =>
      rw [nextCode_eq, Nat.add_sub_cancel]
      unfold asU32
      congr 1
      omega

theorem canonical_lt_kraft (h : lengths[sym]? = some l) (hl : 0 < l) :
    canonical lengths l sym < kraft lengths l := by
  rcases List.getElem?_eq_some_iff.mp h with ⟨hlt, hget⟩
  have hcount : (lengths.take sym).count l < lengths.count l := by
    conv_rhs => rw [← List.take_append_drop sym lengths, List.count_append,
      List.drop_eq_getElem_cons hlt, hget, List.count_cons_self]
    omega
  cases l with
  | zero => exact absurd hl (lt_irrefl 0)
  | succ k =>
      rw [canonical, Nat.add_sub_cancel, kraft_succ]
      omega

/-- Of two codewords the later starts behind the earlier. -/
theorem canonical_apart {sym' : Nat} (h : lengths[sym]? = some l) (hl : 0 < l)
    (h' : lengths[sym']? = some m) (hlm : l < m ∨ l = m ∧ sym < sym') :
    (canonical lengths l sym + 1) * 2 ^ (m - l) ≤ canonical lengths m sym' := by
  rcases hlm with hlt | ⟨rfl, hlt⟩
  · have hmul := kraft_mul_le lengths (show l ≤ m - 1 by omega)
    have hpow : 2 ^ (m - l) = 2 ^ (m - 1 - l) * 2 := by
      rw [← pow_succ]
      congr 1
      omega
    calc (canonical lengths l sym + 1) * 2 ^ (m - l)
        ≤ kraft lengths l * 2 ^ (m - l) := Nat.mul_le_mul_right _ (canonical_lt_kraft h hl)
      _ = kraft lengths l * 2 ^ (m - 1 - l) * 2 := by rw [hpow, Nat.mul_assoc]
      _ ≤ kraft lengths (m - 1) * 2 := Nat.mul_le_mul_right _ hmul
      _ ≤ canonical lengths m sym' := by
          rw [canonical]
          omega
  · rw [Nat.sub_self, pow_zero, Nat.mul_one, canonical, canonical]
    rcases List.getElem?_eq_some_iff.mp h with ⟨hlen, hget⟩
    have hcount : (lengths.take sym).count l < (lengths.take sym').count l := by
      have hsub := ((List.take_sublist_take_left (l := lengths) hlt)).count_le l
      rw [List.take_add_one, List.getElem?_eq_getElem hlen, hget, Option.toList_some,
        List.count_append, List.count_singleton_self] at hsub
      omega
    omega

/-! ## Complete codes -/

/-- No length is above 15, and the codewords take up all words. -/
def Complete (lengths : List Nat) : Prop :=
  (∀ l ∈ lengths, l ≤ 15) ∧ kraft lengths 15 = 2 ^ 15

instance (lengths : List Nat) : Decidable (Complete lengths) :=
  inferInstanceAs (Decidable (_ ∧ _))

theorem mem_present {p : Nat × Nat} :
    p ∈ present lengths ↔ 0 < p.1 ∧ lengths[p.2]? = some p.1 := by
  rw [present, List.mem_filter, List.mem_zipIdx_iff_getElem?, decide_eq_true_iff, And.comm]

theorem present_ordered (lengths : List Nat) :
    (present lengths).Pairwise fun p q => p.2 < q.2 := by
  have hzip : (lengths.zipIdx.map Prod.snd).Pairwise (· < ·) := by
    rw [List.zipIdx_map_snd]
    exact List.pairwise_lt_range'
  exact (List.pairwise_map.mp hzip).filter _

theorem sum_present (h : ∀ l ∈ lengths, l ≤ 15) :
    ((present lengths).map fun p => 2 ^ (15 - p.1)).sum = kraft lengths 15 := by
  have hfilter : ∀ entries : List (Nat × Nat), (∀ p ∈ entries, p.1 ≤ 15) →
      ((entries.filter fun p => decide (0 < p.1)).map fun p => 2 ^ (15 - p.1)).sum =
        kraft (entries.map Prod.fst) 15 := by
    intro entries hall
    induction entries with
    | nil => rfl
    | cons p entries ih =>
        rw [List.forall_mem_cons] at hall
        rw [List.map_cons, kraft_cons, ← ih hall.2, List.filter_cons]
        by_cases hp : 0 < p.1
        · rw [if_pos (decide_eq_true hp), List.map_cons, List.sum_cons, if_pos ⟨hp, hall.1⟩]
        · rw [if_neg (by rwa [decide_eq_true_iff]), if_neg fun h => hp h.1, Nat.zero_add]
  have hle : ∀ p ∈ lengths.zipIdx, p.1 ≤ 15 := fun p hp =>
    h p.1 (List.fst_mem_of_mem_zipIdx hp)
  rw [present, hfilter _ hle, List.zipIdx_map_fst]

theorem canonical_lt (hkraft : kraft lengths 15 ≤ 2 ^ 15) (h : lengths[sym]? = some l)
    (hl : 0 < l) (hle : l ≤ 15) : canonical lengths l sym < 2 ^ l := by
  have hmul := (kraft_mul_le lengths hle).trans hkraft
  rw [← Nat.add_sub_cancel' hle, pow_add, Nat.add_sub_cancel_left] at hmul
  exact (canonical_lt_kraft h hl).trans_le
    (Nat.le_of_mul_le_mul_right hmul (Nat.two_pow_pos _))

theorem canonical_div_ne {sym' : Nat} (h : lengths[sym]? = some l) (hl : 0 < l)
    (h' : lengths[sym']? = some m) (hlm : l ≤ m) (hne : sym ≠ sym') :
    canonical lengths m sym' / 2 ^ (m - l) ≠ canonical lengths l sym := by
  intro heq
  have hpos := Nat.two_pow_pos (m - l)
  by_cases hafter : l < m ∨ l = m ∧ sym < sym'
  · have hle := (Nat.le_div_iff_mul_le hpos).mpr (canonical_apart h hl h' hafter)
    omega
  · have hlt : sym' < sym := by omega
    have hm : l = m := by omega
    subst hm
    have hle := canonical_apart h' hl h (.inr ⟨rfl, hlt⟩)
    rw [Nat.sub_self, pow_zero, Nat.div_one] at heq
    rw [Nat.sub_self, pow_zero, Nat.mul_one] at hle
    omega

/-- The words of a complete code cover all words. -/
theorem exists_canonical_begins (hcomplete : Complete lengths) {word : Nat} (hword : word < 2 ^ 15) :
    ∃ p ∈ present lengths, PrefixCode.Begins 15 word p.1 (canonical lengths p.1 p.2) := by
  have hle : ∀ p ∈ present lengths, p.1 ≤ 15 := fun p hp =>
    hcomplete.1 p.1 (List.mem_of_getElem? (mem_present.mp hp).2)
  refine PrefixCode.exists_begins hle (fun p hp => ?_) ?_ ?_ hword
  · exact canonical_lt hcomplete.2.le (mem_present.mp hp).2 (mem_present.mp hp).1 (hle p hp)
  · refine (present_ordered lengths).imp_of_mem fun {p q} hp hq hlt word hbp hbq => ?_
    rcases mem_present.mp hp with ⟨hp0, hpget⟩
    rcases mem_present.mp hq with ⟨hq0, hqget⟩
    rcases Nat.le_total p.1 q.1 with hpq | hqp
    · exact canonical_div_ne hpget hp0 hqget hpq hlt.ne
        (PrefixCode.begins_of_begins hpq (hle q hq) hbp hbq)
    · exact canonical_div_ne hqget hq0 hpget hqp hlt.ne'
        (PrefixCode.begins_of_begins hqp (hle p hp) hbq hbp)
  · exact (sum_present hcomplete.1).trans hcomplete.2

end Webp
end Vaco
