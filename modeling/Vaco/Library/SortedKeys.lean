import Mathlib.Tactic

/-!
# Lists with increasing keys

A list whose keys increase strictly falls apart at any key: the members before it, at most one
member at it, and the members behind it.  Putting a member between the first and the last part
adds its key or replaces what had it.

Main results:

- `exists_split`: the three parts at a key.
- `pairwise_put`: keys still increase with a member put between two parts.
-/

namespace Vaco
namespace Library
namespace SortedKeys

variable {α κ : Type*} [LinearOrder κ] {key : α → κ}

structure Split (key : α → κ) (k : κ) (l : List α) where
  before : List α
  same : Option α
  behind : List α
  eq : l = before ++ same.toList ++ behind
  before_lt : ∀ x ∈ before, key x < k
  same_eq : ∀ x ∈ same, key x = k
  lt_behind : ∀ x ∈ behind, k < key x

theorem exists_split {l : List α} (h : l.Pairwise fun a b => key a < key b) (k : κ) :
    Nonempty (Split key k l) := by
  induction l with
  | nil => exact ⟨⟨[], none, [], rfl, by simp, by simp, by simp⟩⟩
  | cons a l ih =>
      rw [List.pairwise_cons] at h
      rcases lt_trichotomy (key a) k with hlt | heq | hgt
      · rcases ih h.2 with ⟨s⟩
        refine ⟨⟨a :: s.before, s.same, s.behind, ?_, ?_, s.same_eq, s.lt_behind⟩⟩
        · rw [List.cons_append, List.cons_append, ← s.eq]
        · exact List.forall_mem_cons.mpr ⟨hlt, s.before_lt⟩
      · refine ⟨⟨[], some a, l, rfl, by simp, ?_, fun x hx => heq ▸ h.1 x hx⟩⟩
        intro x hx
        rw [← Option.mem_some_iff.mp hx]
        exact heq
      · refine ⟨⟨[], none, a :: l, rfl, by simp, by simp, ?_⟩⟩
        exact List.forall_mem_cons.mpr ⟨hgt, fun x hx => hgt.trans (h.1 x hx)⟩

namespace Split

variable {k : κ} {l : List α} (s : Split key k l)

theorem takeWhile_eq : (l.takeWhile fun x => decide (key x < k)) = s.before := by
  have hrest : ((s.same.toList ++ s.behind).takeWhile fun x => decide (key x < k)) = [] := by
    cases hlist : s.same.toList ++ s.behind with
    | nil => rfl
    | cons b rest =>
        have hmem : b ∈ s.same.toList ++ s.behind := hlist ▸ List.mem_cons_self
        refine List.takeWhile_cons_of_neg ?_
        rw [decide_eq_true_iff, not_lt]
        rcases List.mem_append.mp hmem with hsame | hbehind
        · exact (s.same_eq b (Option.mem_toList.mp hsame)).ge
        · exact (s.lt_behind b hbehind).le
  conv_lhs => rw [s.eq, List.append_assoc]
  rw [List.takeWhile_append_of_pos fun x hx => decide_eq_true (s.before_lt x hx), hrest,
    List.append_nil]

theorem getElem?_before : l[s.before.length]? = (s.same.toList ++ s.behind)[0]? := by
  rcases s with ⟨before, same, behind, rfl, -, -, -⟩
  dsimp only
  rw [List.append_assoc, List.getElem?_append_right le_rfl, Nat.sub_self]

variable {e : α}

theorem set_before {x : α} (h : s.same = some x) :
    l.set s.before.length e = s.before ++ e :: s.behind := by
  revert h
  rcases s with ⟨before, same, behind, rfl, -, -, -⟩
  rintro rfl
  simp

theorem insert_before (h : s.same = none) :
    l.take s.before.length ++ e :: l.drop s.before.length = s.before ++ e :: s.behind := by
  revert h
  rcases s with ⟨before, same, behind, rfl, -, -, -⟩
  rintro rfl
  dsimp only
  rw [Option.toList_none, List.append_nil, List.take_left, List.drop_left]

theorem length_before_le : s.before.length ≤ l.length := by
  rcases s with ⟨before, same, behind, rfl, -, -, -⟩
  dsimp only
  rw [List.append_assoc, List.length_append]
  exact Nat.le_add_right _ _

theorem mem_iff {x : α} : x ∈ l ↔ x ∈ s.before ∨ x ∈ s.same ∨ x ∈ s.behind := by
  conv_lhs => rw [s.eq]
  rw [List.mem_append, List.mem_append, Option.mem_toList, or_assoc]
  rfl

theorem mem_put (he : key e = k) {x : α} :
    x ∈ s.before ++ e :: s.behind ↔ x = e ∨ x ∈ l ∧ key x ≠ key e := by
  rw [List.mem_append, List.mem_cons, s.mem_iff, he]
  constructor
  · rintro (hx | rfl | hx)
    · exact .inr ⟨.inl hx, (s.before_lt x hx).ne⟩
    · exact .inl rfl
    · exact .inr ⟨.inr (.inr hx), (s.lt_behind x hx).ne'⟩
  · rintro (rfl | ⟨hx | hx | hx, hne⟩)
    · exact .inr (.inl rfl)
    · exact .inl hx
    · exact absurd (s.same_eq x hx) hne
    · exact .inr (.inr hx)

theorem mem_upto {x : α} : x ∈ s.before ++ s.same.toList ↔ x ∈ l ∧ key x ≤ k := by
  rw [s.mem_iff, List.mem_append, Option.mem_toList]
  constructor
  · rintro (hx | hx)
    · exact ⟨.inl hx, (s.before_lt x hx).le⟩
    · exact ⟨.inr (.inl hx), (s.same_eq x hx).le⟩
  · rintro ⟨hx | hx | hx, hle⟩
    · exact .inl hx
    · exact .inr hx
    · exact absurd hle (not_le.mpr (s.lt_behind x hx))

theorem take_upto : l.take (s.before ++ s.same.toList).length = s.before ++ s.same.toList := by
  rcases s with ⟨before, same, behind, rfl, -, -, -⟩
  exact List.take_left

theorem pairwise_put (h : l.Pairwise fun a b => key a < key b) (he : key e = k) :
    (s.before ++ e :: s.behind).Pairwise fun a b => key a < key b := by
  rw [s.eq, List.pairwise_append, List.pairwise_append] at h
  rw [List.pairwise_append, List.pairwise_cons]
  refine ⟨h.1.1, ⟨fun x hx => he ▸ s.lt_behind x hx, h.2.1⟩, ?_⟩
  intro a ha b hb
  rcases List.mem_cons.mp hb with rfl | hb
  · exact he ▸ s.before_lt a ha
  · exact (s.before_lt a ha).trans (s.lt_behind b hb)

theorem length_put : (s.before ++ e :: s.behind).length + s.same.toList.length = l.length + 1 := by
  conv_rhs => rw [s.eq]
  simp only [List.length_append, List.length_cons]
  omega

end Split

end SortedKeys
end Library
end Vaco
