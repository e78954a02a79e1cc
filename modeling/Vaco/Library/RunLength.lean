import Mathlib.Tactic

/-!
# Run-length coded sequences

A sequence is coded as runs of equal values.  The entry at a position is the value of the
one run that covers the position, and sums over the sequence are sums over whole runs and
a part of the run that is cut.

Main results:

- `getElem?_expand`: the entry at a position is the value of the run that covers it.
- `sum_take_expand`: the sum before a position.
- `exists_covers`: every position below the total is covered.
- `getElem?_blocks`: the same for blocks of any entries.
- `findRun_of_covers`: a walk from any earlier run ends at the covering run.
-/

namespace Vaco
namespace Library
namespace RunLength

/-- A run covers a position that lies between the entries before it and those before the
next one. -/
def Covers (start : Nat → Nat) (n r : Nat) : Prop :=
  start r ≤ n ∧ n < start (r + 1)

theorem Covers.le_of_start {start : Nat → Nat} (hmono : Monotone start) {n r c : Nat}
    (h : Covers start n r) (hc : start c ≤ n) : c ≤ r := by
  by_contra hlt
  have hle : start (r + 1) ≤ start c := hmono (not_le.mp hlt)
  have hend := h.2
  omega

theorem Covers.unique {start : Nat → Nat} (hmono : Monotone start) {n r r' : Nat}
    (h : Covers start n r) (h' : Covers start n r') : r = r' :=
  Nat.le_antisymm (h'.le_of_start hmono h.1) (h.le_of_start hmono h'.1)

/-- Every position between two starts is covered by a run between them. -/
theorem exists_covers {start : Nat → Nat} {n a b : Nat} (ha : start a ≤ n) (hb : n < start b)
    (hab : a ≤ b) : ∃ r, a ≤ r ∧ r < b ∧ Covers start n r := by
  induction b, hab using Nat.le_induction with
  | base => omega
  | succ b hab ih =>
      by_cases h : n < start b
      · rcases ih h with ⟨r, har, hrb, hcovers⟩
        exact ⟨r, har, by omega, hcovers⟩
      · exact ⟨b, hab, by omega, not_lt.mp h, hb⟩

/-- The first of `left` runs from `c` on that ends beyond a position. -/
def findRun (start : Nat → Nat) (n : Nat) : Nat → Nat → Option Nat
  | 0, _ => none
  | left + 1, c => if n < start (c + 1) then some c else findRun start n left (c + 1)

/-- A walk that starts at or before the covering run ends at it. -/
theorem findRun_of_covers {start : Nat → Nat} (hmono : Monotone start) {n r : Nat}
    (h : Covers start n r) {left c : Nat} (hc : c ≤ r) (hr : r < c + left) :
    findRun start n left c = some r := by
  induction left generalizing c with
  | zero => omega
  | succ left ih =>
      rw [findRun]
      rcases Nat.eq_or_lt_of_le hc with rfl | hlt
      · rw [if_pos h.2]
      · have hle : start (c + 1) ≤ start r := hmono hlt
        rw [if_neg (not_lt.mpr (hle.trans h.1))]
        exact ih hlt (by omega)

theorem findRun_of_le {start : Nat → Nat} (hmono : Monotone start) {n left c : Nat}
    (h : start (c + left) ≤ n) : findRun start n left c = none := by
  induction left generalizing c with
  | zero => rfl
  | succ left ih =>
      have hle : start (c + 1) ≤ start (c + (left + 1)) := hmono (by omega)
      rw [findRun, if_neg (not_lt.mpr (hle.trans h))]
      apply ih
      rwa [show c + 1 + left = c + (left + 1) by omega]

variable {α : Type*}

/-- The entries of a table given by position. -/
def entryList (len : Nat) (entry : Nat → α) : List α :=
  (List.range len).map entry

@[simp]
theorem length_entryList (len : Nat) (entry : Nat → α) : (entryList len entry).length = len := by
  rw [entryList, List.length_map, List.length_range]

theorem getElem?_entryList {len i : Nat} (h : i < len) (entry : Nat → α) :
    (entryList len entry)[i]? = some (entry i) := by
  rw [entryList, List.getElem?_map, List.getElem?_range h]
  rfl

/-- The sequence that runs stand for. -/
def expand (runs : List (Nat × α)) : List α :=
  runs.flatMap fun run => List.replicate run.1 run.2

/-- Entries before a run. -/
def before (runs : List (Nat × α)) (i : Nat) : Nat :=
  ((runs.take i).map Prod.fst).sum

/-- Sum of the entries before a run. -/
def weight (runs : List (Nat × Nat)) (i : Nat) : Nat :=
  ((runs.take i).map fun run => run.1 * run.2).sum

@[simp]
theorem before_zero (runs : List (Nat × α)) : before runs 0 = 0 := by
  simp [before]

@[simp]
theorem weight_zero (runs : List (Nat × Nat)) : weight runs 0 = 0 := by
  simp [weight]

theorem before_succ {runs : List (Nat × α)} {i : Nat} {run : Nat × α} (h : runs[i]? = some run) :
    before runs (i + 1) = before runs i + run.1 := by
  rw [before, List.take_add_one, h, List.map_append, List.sum_append]
  simp [before]

theorem weight_succ {runs : List (Nat × Nat)} {i : Nat} {run : Nat × Nat}
    (h : runs[i]? = some run) : weight runs (i + 1) = weight runs i + run.1 * run.2 := by
  rw [weight, List.take_add_one, h, List.map_append, List.sum_append]
  simp [weight]

theorem before_mono (runs : List (Nat × α)) : Monotone (before runs) := by
  apply monotone_nat_of_le_succ
  intro i
  cases h : runs[i]? with
  | none =>
      have hlen := List.getElem?_eq_none_iff.mp h
      rw [before, before, List.take_of_length_le (by omega), List.take_of_length_le (by omega)]
  | some run =>
      rw [before_succ h]
      exact Nat.le_add_right _ _

theorem weight_mono (runs : List (Nat × Nat)) : Monotone (weight runs) := by
  apply monotone_nat_of_le_succ
  intro i
  cases h : runs[i]? with
  | none =>
      have hlen := List.getElem?_eq_none_iff.mp h
      rw [weight, weight, List.take_of_length_le (by omega), List.take_of_length_le (by omega)]
  | some run =>
      rw [weight_succ h]
      exact Nat.le_add_right _ _

@[simp]
theorem expand_nil : expand ([] : List (Nat × α)) = [] :=
  rfl

@[simp]
theorem expand_cons (run : Nat × α) (runs : List (Nat × α)) :
    expand (run :: runs) = List.replicate run.1 run.2 ++ expand runs :=
  rfl

@[simp]
theorem expand_append (first second : List (Nat × α)) :
    expand (first ++ second) = expand first ++ expand second :=
  List.flatMap_append

theorem length_expand (runs : List (Nat × α)) :
    (expand runs).length = before runs runs.length := by
  rw [before, List.take_length]
  induction runs with
  | nil => rfl
  | cons run runs ih =>
      rw [expand_cons, List.length_append, List.length_replicate, ih, List.map_cons,
        List.sum_cons]

theorem sum_expand (runs : List (Nat × Nat)) : (expand runs).sum = weight runs runs.length := by
  rw [weight, List.take_length]
  induction runs with
  | nil => rfl
  | cons run runs ih =>
      rw [expand_cons, List.sum_append, ih, List.map_cons, List.sum_cons]
      simp

theorem split_at {runs : List (Nat × α)} {r : Nat} {run : Nat × α} (h : runs[r]? = some run) :
    runs = runs.take r ++ run :: runs.drop (r + 1) := by
  rcases List.getElem?_eq_some_iff.mp h with ⟨hlt, hget⟩
  rw [← hget, List.getElem_cons_drop, List.take_append_drop]

theorem length_expand_take (runs : List (Nat × α)) (r : Nat) :
    (expand (runs.take r)).length = before runs r := by
  rw [length_expand, before, before, List.take_length]

theorem expand_eq {runs : List (Nat × α)} {r : Nat} {run : Nat × α} (h : runs[r]? = some run) :
    expand runs =
      expand (runs.take r) ++ (List.replicate run.1 run.2 ++ expand (runs.drop (r + 1))) := by
  conv_lhs => rw [split_at h]
  rw [expand_append, expand_cons]

/-- The entry at a position is the value of the run that covers it. -/
theorem getElem?_expand {runs : List (Nat × α)} {n r : Nat} {run : Nat × α}
    (h : runs[r]? = some run) (hcovers : Covers (before runs) n r) :
    (expand runs)[n]? = some run.2 := by
  rcases hcovers with ⟨hle, hlt⟩
  rw [before_succ h] at hlt
  rw [expand_eq h, List.getElem?_append_right (by rwa [length_expand_take]),
    length_expand_take, List.getElem?_append_left (by rw [List.length_replicate]; omega),
    List.getElem?_replicate, if_pos (by omega)]

theorem sum_take_run {runs : List (Nat × Nat)} {n r : Nat} {run : Nat × Nat}
    (h : runs[r]? = some run) (hle : before runs r ≤ n) (hn : n ≤ before runs (r + 1)) :
    ((expand runs).take n).sum = weight runs r + (n - before runs r) * run.2 := by
  rw [before_succ h] at hn
  have hfirst : (expand (runs.take r)).sum = weight runs r := by
    rw [sum_expand, weight, weight, List.take_length]
  rw [expand_eq h, List.take_append, length_expand_take,
    List.take_of_length_le (by rwa [length_expand_take]), List.sum_append, hfirst,
    List.take_append_of_le_length (by rw [List.length_replicate]; omega), List.take_replicate,
    List.sum_replicate, Nat.min_eq_left (by omega), smul_eq_mul]

/-- The sum before a position of a run. -/
theorem sum_take_expand {runs : List (Nat × Nat)} {n r : Nat} {run : Nat × Nat}
    (h : runs[r]? = some run) (hcovers : Covers (before runs) n r) :
    ((expand runs).take n).sum = weight runs r + (n - before runs r) * run.2 :=
  sum_take_run h hcovers.1 (Nat.le_of_lt hcovers.2)

theorem sum_take_before (runs : List (Nat × Nat)) (r : Nat) :
    ((expand runs).take (before runs r)).sum = weight runs r := by
  have hsplit : expand runs = expand (runs.take r) ++ expand (runs.drop r) := by
    rw [← expand_append, List.take_append_drop]
  rw [hsplit, ← length_expand_take, List.take_left, sum_expand, weight, weight, List.take_length]

theorem sum_take_mono (l : List Nat) : Monotone fun n => (l.take n).sum := by
  intro a b hab
  apply List.Sublist.sum_le_sum
  · exact List.take_sublist_take_left hab
  · intro _ _
    exact Nat.zero_le _

/-! ## Runs of blocks -/

theorem length_blocks {block : Nat → List α} {start : Nat → Nat} (hzero : start 0 = 0) {len : Nat}
    (hstart : ∀ i < len, start (i + 1) = start i + (block i).length) :
    ((List.range len).flatMap block).length = start len := by
  induction len with
  | zero => rw [hzero]; rfl
  | succ len ih =>
      rw [List.range_succ, List.flatMap_append, List.length_append, ih fun i hi =>
        hstart i (Nat.lt_succ_of_lt hi), hstart len (Nat.lt_succ_self len), List.flatMap_singleton]

/-- An entry of blocks set one behind another is that of the block that covers it. -/
theorem getElem?_blocks {block : Nat → List α} {start : Nat → Nat} (hzero : start 0 = 0)
    (hmono : Monotone start) {len n r : Nat}
    (hstart : ∀ i < len, start (i + 1) = start i + (block i).length) (hr : r < len)
    (h : Covers start n r) :
    ((List.range len).flatMap block)[n]? = (block r)[n - start r]? := by
  induction len with
  | zero => omega
  | succ len ih =>
      have hstart' : ∀ i < len, start (i + 1) = start i + (block i).length :=
        fun i hi => hstart i (Nat.lt_succ_of_lt hi)
      have hlen := length_blocks hzero hstart'
      rw [List.range_succ, List.flatMap_append, List.flatMap_singleton]
      rcases Nat.eq_or_lt_of_le (Nat.le_of_lt_succ hr) with heq | hlt
      · rw [List.getElem?_append_right (by rw [hlen, ← heq]; exact h.1), hlen, heq]
      · have hend : start (r + 1) ≤ start len := hmono hlt
        rw [List.getElem?_append_left (by rw [hlen]; exact h.2.trans_le hend)]
        exact ih hstart' hlt

theorem length_expand_const {size : Nat} (f : Nat → α) (runs : Nat) :
    (expand ((List.range runs).map fun j => (size, f j))).length = runs * size := by
  rw [length_expand, before, List.take_length, List.map_map]
  simp [Function.comp_def]

theorem getElem?_expand_const {size k : Nat} (f : Nat → α) {runs : Nat} (hk : k < runs * size) :
    (expand ((List.range runs).map fun j => (size, f j)))[k]? = some (f (k / size)) := by
  induction runs with
  | zero => omega
  | succ runs ih =>
      have hlen := @length_expand_const _ size f runs
      rw [List.range_succ, List.map_append, expand_append]
      by_cases h : k < runs * size
      · rw [List.getElem?_append_left (by rwa [hlen]), ih h]
      · rw [Nat.succ_mul] at hk
        have hquot : k / size = runs := by
          rw [Nat.div_eq_iff (by omega)]
          constructor
          · omega
          · omega
        rw [List.getElem?_append_right (by rw [hlen]; omega), hlen, List.map_singleton,
          expand_cons, expand_nil, List.append_nil, List.getElem?_replicate,
          if_pos (by omega), hquot]

end RunLength
end Library
end Vaco
