import Mathlib.Algebra.BigOperators.Intervals
import Mathlib.Order.Interval.Finset.Nat
import Mathlib.Tactic

/-!
# Prefix codes

A codeword is a number with a length, and a word of a longer length begins with it when its
leading bits are that number.  The words that begin with a codeword are an interval, of a size
that depends on the length only.  Where no word begins with two codewords, the sizes add up to the
number of words that begin with any; so where they add up to the number of all words, every word
begins with one.

Main results:

- `begins_of_begins`: of two codewords that one word begins with, the longer begins with the
  shorter.
-/

namespace Vaco
namespace Library
namespace PrefixCode

/-- A word of some length begins with a codeword. -/
def Begins (n word len code : Nat) : Prop :=
  word / 2 ^ (n - len) = code

/-- Of two codewords that one word begins with, the longer begins with the shorter. -/
theorem begins_of_begins {n word short long c d : Nat} (hle : short ≤ long) (hlong : long ≤ n)
    (hc : Begins n word short c) (hd : Begins n word long d) : Begins long d short c := by
  unfold Begins at *
  have hsplit : n - short = n - long + (long - short) := by omega
  rw [← hd, Nat.div_div_eq_div_mul, ← pow_add, ← hsplit, hc]

/-- The words that begin with a codeword. -/
def block (n len code : Nat) : Finset Nat :=
  Finset.Ico (code * 2 ^ (n - len)) ((code + 1) * 2 ^ (n - len))

theorem mem_block {n word len code : Nat} : word ∈ block n len code ↔ Begins n word len code := by
  have hpos : 0 < 2 ^ (n - len) := Nat.two_pow_pos _
  rw [block, Finset.mem_Ico, Begins, Nat.div_eq_iff hpos, Nat.succ_mul]
  omega

theorem card_block (n len code : Nat) : (block n len code).card = 2 ^ (n - len) := by
  rw [block, Nat.card_Ico, Nat.succ_mul, Nat.add_sub_cancel_left]

theorem block_subset {n len code : Nat} (hlen : len ≤ n) (hfits : code < 2 ^ len) :
    block n len code ⊆ Finset.range (2 ^ n) := by
  intro word hword
  have htop : (code + 1) * 2 ^ (n - len) ≤ 2 ^ n := by
    calc (code + 1) * 2 ^ (n - len) ≤ 2 ^ len * 2 ^ (n - len) := Nat.mul_le_mul_right _ hfits
      _ = 2 ^ n := by rw [← pow_add, Nat.add_sub_cancel' hlen]
  have hlt := (Finset.mem_Ico.mp hword).2
  exact Finset.mem_range.mpr (lt_of_lt_of_le hlt htop)

variable {α : Type} {len code : α → Nat} {n : Nat} {l : List α}

/-- The words that begin with any codeword of a list. -/
def covered (n : Nat) (len code : α → Nat) : List α → Finset Nat
  | [] => ∅
  | a :: l => block n (len a) (code a) ∪ covered n len code l

theorem mem_covered {word : Nat} :
    word ∈ covered n len code l ↔ ∃ a ∈ l, Begins n word (len a) (code a) := by
  induction l with
  | nil => simp [covered]
  | cons a l ih => simp [covered, mem_block, ih]

theorem card_covered (hfree : l.Pairwise fun a b => ∀ word,
      Begins n word (len a) (code a) → ¬ Begins n word (len b) (code b)) :
    (covered n len code l).card = (l.map fun a => 2 ^ (n - len a)).sum := by
  induction l with
  | nil => rfl
  | cons a l ih =>
      rcases List.pairwise_cons.mp hfree with ⟨hhead, htail⟩
      have hdisjoint : Disjoint (block n (len a) (code a)) (covered n len code l) := by
        rw [Finset.disjoint_left]
        intro word hword hcovered
        rcases mem_covered.mp hcovered with ⟨b, hb, hbegins⟩
        exact hhead b hb word (mem_block.mp hword) hbegins
      rw [covered, Finset.card_union_of_disjoint hdisjoint, card_block, ih htail, List.map_cons,
        List.sum_cons]

/-- Where no word begins with two codewords and their blocks add up to all words, every word begins
with one. -/
theorem exists_begins (hlen : ∀ a ∈ l, len a ≤ n) (hfits : ∀ a ∈ l, code a < 2 ^ len a)
    (hfree : l.Pairwise fun a b => ∀ word,
      Begins n word (len a) (code a) → ¬ Begins n word (len b) (code b))
    (hsum : (l.map fun a => 2 ^ (n - len a)).sum = 2 ^ n) {word : Nat} (hword : word < 2 ^ n) :
    ∃ a ∈ l, Begins n word (len a) (code a) := by
  have hsubset : covered n len code l ⊆ Finset.range (2 ^ n) := by
    intro w hw
    rcases mem_covered.mp hw with ⟨a, ha, hbegins⟩
    exact block_subset (hlen a ha) (hfits a ha) (mem_block.mpr hbegins)
  have hall : covered n len code l = Finset.range (2 ^ n) := by
    refine Finset.eq_of_subset_of_card_le hsubset ?_
    rw [card_covered hfree, hsum, Finset.card_range]
  rw [← mem_covered, hall]
  exact Finset.mem_range.mpr hword

end PrefixCode
end Library
end Vaco
