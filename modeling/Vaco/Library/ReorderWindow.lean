import Mathlib.Data.List.ReduceOption
import Vaco.Library.Transducer

/-!
# A bounded reorder window

A window keeps its values sorted.  Every new value is inserted in order, and once
the window holds more values than the delay its least value leaves.  On a sequence
whose values are displaced by at most the delay the values leave in sorted order.

Main results:

- `windowInsert_perm`, `windowInsert_sorted`: insertion into the window.
- `outputs_windowPush`: the window sorts what is reordered by its delay at most.
-/

namespace Vaco
namespace Library

variable {α : Type*} [LinearOrder α]

/-- Insert a value before the first greater one. -/
def windowInsert (w : List α) (v : α) : List α :=
  w.insertIdx (w.findIdx fun x => v < x) v

/-- Insert a value and, once the window is deeper than the delay, emit the least. -/
def windowPush (delay : Nat) (w : List α) (v : α) : List α × Option α :=
  if (windowInsert w v).length ≤ delay then
    (windowInsert w v, none)
  else
    ((windowInsert w v).tail, (windowInsert w v).head?)

@[simp]
theorem windowInsert_nil (v : α) : windowInsert [] v = [v] :=
  rfl

theorem windowInsert_cons (b : α) (w : List α) (v : α) :
    windowInsert (b :: w) v = if v < b then v :: b :: w else b :: windowInsert w v := by
  unfold windowInsert
  rw [List.findIdx_cons]
  by_cases h : v < b <;> simp [h]

/-- Insertion adds exactly the new value. -/
theorem windowInsert_perm (w : List α) (v : α) : (windowInsert w v).Perm (v :: w) := by
  induction w with
  | nil => simp
  | cons b w ih =>
      rw [windowInsert_cons]
      split
      · exact List.Perm.refl _
      · exact (ih.cons b).trans (List.Perm.swap v b w)

@[simp]
theorem length_windowInsert (w : List α) (v : α) :
    (windowInsert w v).length = w.length + 1 := by
  simpa using (windowInsert_perm w v).length_eq

/-- Insertion keeps the window sorted. -/
theorem windowInsert_sorted {w : List α} (v : α) (h : w.Pairwise (· ≤ ·)) :
    (windowInsert w v).Pairwise (· ≤ ·) := by
  induction w with
  | nil => simp
  | cons b w ih =>
      rw [List.pairwise_cons] at h
      rw [windowInsert_cons]
      split
      · rename_i hlt
        apply List.Pairwise.cons
        · intro x hx
          rcases List.mem_cons.mp hx with rfl | hx
          · exact hlt.le
          · exact hlt.le.trans (h.1 x hx)
        · exact List.pairwise_cons.mpr h
      · rename_i hle
        apply List.Pairwise.cons
        · intro x hx
          rcases List.mem_cons.mp ((windowInsert_perm w v).mem_iff.mp hx) with rfl | hx
          · exact not_lt.mp hle
          · exact h.1 x hx
        · exact ih h.2

theorem head?_windowInsert (w : List α) (v : α) :
    (windowInsert w v).head? = some (w.head?.elim v fun x => if v < x then v else x) := by
  cases w with
  | nil => rfl
  | cons b w =>
      rw [windowInsert_cons]
      split <;> rename_i h <;> simp [h]

theorem windowPush_le {delay : Nat} {w w' : List α} {v x : α}
    (h : windowPush delay w v = (w', some x)) : x ≤ v := by
  unfold windowPush at h
  split at h
  · simp at h
  · have hhead := (Prod.ext_iff.mp h).2
    simp only [head?_windowInsert, Option.some.injEq] at hhead
    cases hw : w.head? with
    | none => simp [hw] at hhead; exact hhead.ge
    | some b =>
        simp only [hw, Option.elim_some] at hhead
        split at hhead
        · exact hhead.ge
        · rename_i hb
          exact hhead ▸ not_lt.mp hb

theorem windowPush_length_le {delay : Nat} {w : List α} (h : w.length ≤ delay) (v : α) :
    (windowPush delay w v).1.length ≤ delay := by
  unfold windowPush
  split
  · assumption
  · rw [List.length_tail, length_windowInsert]
    omega

theorem windowPush_eq_none_iff {delay : Nat} {w : List α} (v : α) :
    (windowPush delay w v).2 = none ↔ w.length < delay := by
  unfold windowPush
  split
  · rename_i hfill
    rw [length_windowInsert] at hfill
    simp
    omega
  · rename_i hfull
    rw [length_windowInsert] at hfull
    simp only [head?_windowInsert, reduceCtorEq, false_iff]
    omega

theorem length_windowPush {delay : Nat} {w : List α} (h : w.length ≤ delay) (v : α) :
    (windowPush delay w v).1.length = min delay (w.length + 1) := by
  unfold windowPush
  split
  · rename_i hfill
    rw [length_windowInsert] at hfill ⊢
    exact (Nat.min_eq_right hfill).symm
  · rename_i hfull
    rw [length_windowInsert] at hfull
    rw [List.length_tail, length_windowInsert]
    omega

theorem windowPush_perm (delay : Nat) (w : List α) (v : α) :
    ((windowPush delay w v).2.toList ++ (windowPush delay w v).1).Perm (v :: w) := by
  have hperm := windowInsert_perm w v
  unfold windowPush
  split
  · exact hperm
  · cases hwin : windowInsert w v with
    | nil =>
        have hlen := length_windowInsert w v
        simp [hwin] at hlen
    | cons m rest => simpa [hwin] using hperm

theorem windowPush_sorted {delay : Nat} {w : List α} (v : α) (h : w.Pairwise (· ≤ ·)) :
    (windowPush delay w v).1.Pairwise (· ≤ ·) := by
  have hins := windowInsert_sorted v h
  unfold windowPush
  split
  · exact hins
  · exact hins.tail

/-! ## Runs -/

theorem stateAfter_windowPush_sorted (d : Nat) {w : List α} (l : List α)
    (h : w.Pairwise (· ≤ ·)) :
    (Transducer.stateAfter (windowPush d) w l).Pairwise (· ≤ ·) :=
  Transducer.invariant (P := fun _ _ => True) h (fun _ v hw _ => windowPush_sorted v hw)
    (Transducer.admissible_true w l)

/-- What a run emitted and kept is the first window and everything pushed. -/
theorem outputs_windowPush_perm (d : Nat) (w l : List α) :
    ((Transducer.outputs (windowPush d) w l).reduceOption ++
      Transducer.stateAfter (windowPush d) w l).Perm (w ++ l) := by
  induction l generalizing w with
  | nil => simp
  | cons v l ih =>
      have hone := windowPush_perm d w v
      have hrest := ih (windowPush d w v).1
      rw [Transducer.outputs_cons, Transducer.stateAfter_cons]
      calc
        (((windowPush d w v).2 ::
              Transducer.outputs (windowPush d) (windowPush d w v).1 l).reduceOption ++ _).Perm
            ((windowPush d w v).2.toList ++ ((windowPush d w v).1 ++ l)) := by
          cases (windowPush d w v).2 with
          | none => simpa using hrest
          | some x => simpa using hrest
        ((windowPush d w v).2.toList ++ ((windowPush d w v).1 ++ l)).Perm (v :: w ++ l) := by
          rw [← List.append_assoc]
          exact hone.append_right l
        (v :: w ++ l).Perm (w ++ v :: l) := List.perm_middle.symm

theorem outputs_windowPush_none_iff {d : Nat} {w l : List α} (hw : w.length ≤ d) {i : Nat}
    (hi : i < l.length) :
    (Transducer.outputs (windowPush d) w l)[i]? = some none ↔ i + w.length < d := by
  induction l generalizing w i with
  | nil => simp at hi
  | cons v l ih =>
      have hlen := length_windowPush hw v
      rw [Transducer.outputs_cons]
      cases i with
      | zero => simp [windowPush_eq_none_iff]
      | succ i =>
          rw [List.getElem?_cons_succ, ih (windowPush_length_le hw v) (Nat.lt_of_succ_lt_succ hi),
            hlen]
          omega

/-! ## Sequences of bounded reorder depth -/

/-- At every position at most `d` of the values already seen are greater than a
later one. -/
def ReorderDepthAtMost (d : Nat) (l : List α) : Prop :=
  ∀ seen later, l = seen ++ later →
    (seen.filter fun p => decide (∃ x ∈ later, x < p)).length ≤ d

instance (d : Nat) (l : List α) : Decidable (ReorderDepthAtMost d l) :=
  decidable_of_iff
    (∀ k < l.length + 1,
      ((l.take k).filter fun p => decide (∃ x ∈ l.drop k, x < p)).length ≤ d) (by
    constructor
    · rintro h seen later rfl
      simpa using h seen.length (by simp)
    · intro h k _
      exact h (l.take k) (l.drop k) (List.take_append_drop k l).symm)

/-- At most `d` of the values in the window or already read are greater than the next one. -/
def DepthFrom (d : Nat) (w l : List α) : Prop :=
  ∀ seen x later, l = seen ++ x :: later → ((w ++ seen).filter fun p => decide (x < p)).length ≤ d

theorem ReorderDepthAtMost.depthFrom {d : Nat} {l : List α} (h : ReorderDepthAtMost d l) :
    DepthFrom d [] l := by
  intro seen x later hl
  apply le_trans _ (h seen (x :: later) hl)
  rw [List.nil_append]
  apply List.Sublist.length_le
  apply List.monotone_filter_right
  intro p hp
  simp only [decide_eq_true_eq] at hp ⊢
  exact ⟨x, List.mem_cons_self, hp⟩

theorem DepthFrom.read {d : Nat} {w w' l : List α} {v : α} (h : DepthFrom d w (v :: l))
    (hw : w'.Subperm (v :: w)) : DepthFrom d w' l := by
  intro seen x later hl
  apply le_trans _ (h (v :: seen) x later (by rw [hl]; rfl))
  apply List.Subperm.length_le
  apply List.Subperm.filter
  have hmid : (w ++ v :: seen).Perm (v :: w ++ seen) := List.perm_middle
  exact ((List.subperm_append_right seen).mpr hw).trans hmid.symm.subperm

/-- The least value of a full window is at most everything still to come. -/
theorem DepthFrom.head_le {d : Nat} {w l : List α} {v m : α} {rest : List α}
    (h : DepthFrom d w (v :: l)) (hsorted : (m :: rest).Pairwise (· ≤ ·))
    (hperm : (m :: rest).Perm (v :: w)) (hfull : d < (m :: rest).length) :
    ∀ x ∈ l, m ≤ x := by
  intro x hx
  by_contra hlt
  rcases List.append_of_mem hx with ⟨seen, later, rfl⟩
  -- Otherwise the whole window is greater than a later value.
  have hall : ∀ p ∈ m :: rest, x < p := by
    intro p hp
    rcases List.mem_cons.mp hp with rfl | hp
    · exact not_le.mp hlt
    · exact (not_le.mp hlt).trans_le ((List.pairwise_cons.mp hsorted).1 p hp)
  have hcount := h (v :: seen) x later rfl
  have hsub : (m :: rest).Subperm ((w ++ v :: seen).filter fun p => decide (x < p)) := by
    have hmid : (w ++ v :: seen).Perm (v :: w ++ seen) := List.perm_middle
    have hself : (m :: rest).filter (fun p => decide (x < p)) = m :: rest := by
      rw [List.filter_eq_self]
      simpa using hall
    rw [← hself]
    apply List.Subperm.filter
    exact hperm.subperm.trans ((List.sublist_append_left _ _).subperm.trans hmid.symm.subperm)
  have := hsub.length_le
  omega

theorem insertionSort_congr {l l' : List α} (h : l.Perm l') :
    l.insertionSort (· ≤ ·) = l'.insertionSort (· ≤ ·) :=
  List.Perm.eq_of_pairwise' (List.pairwise_insertionSort (· ≤ ·) l)
    (List.pairwise_insertionSort (· ≤ ·) l')
    ((List.perm_insertionSort _ l).trans (h.trans (List.perm_insertionSort _ l').symm))

/-- A sequence of bounded depth first fills a sorted window and then leaves in sorted order. -/
theorem outputs_windowPush_from (d : Nat) {w : List α} (l : List α)
    (hsorted : w.Pairwise (· ≤ ·)) (hw : w.length ≤ d) (hdepth : DepthFrom d w l) :
    Transducer.outputs (windowPush d) w l =
      List.replicate (min (d - w.length) l.length) none ++
        (((w ++ l).insertionSort (· ≤ ·)).take (w.length + l.length - d)).map some := by
  induction l generalizing w with
  | nil => simp [hw]
  | cons v l ih =>
      have hperm := windowInsert_perm w v
      have hins := windowInsert_sorted v hsorted
      have hlen := length_windowInsert w v
      have hsort : (w ++ v :: l).insertionSort (· ≤ ·) =
          (windowInsert w v ++ l).insertionSort (· ≤ ·) :=
        insertionSort_congr (List.perm_middle.trans (hperm.symm.append_right l))
      rw [Transducer.outputs_cons, windowPush, hsort]
      by_cases hfill : (windowInsert w v).length ≤ d
      · rw [if_pos hfill, ih hins hfill (hdepth.read hperm.subperm)]
        have hcount : min (d - w.length) (v :: l).length =
            min (d - (windowInsert w v).length) l.length + 1 := by
          simp
          omega
        rw [hcount, List.replicate_succ, hlen, List.length_cons]
        simp [Nat.add_right_comm, Nat.add_assoc]
      · rw [if_neg hfill]
        have hfull : d < (windowInsert w v).length := not_le.mp hfill
        cases hwin : windowInsert w v with
        | nil => simp [hwin] at hlen
        | cons m rest =>
            rw [hwin] at hperm hins hlen hfull
            have hleast := hdepth.head_le hins hperm hfull
            have hrest : rest.length = d := by
              rw [List.length_cons] at hlen hfull
              omega
            have htail : rest.Subperm (v :: w) :=
              (List.sublist_cons_self m rest).subperm.trans hperm.subperm
            have hmin : ∀ x ∈ rest ++ l, m ≤ x := by
              intro x hx
              rcases List.mem_append.mp hx with hx | hx
              · exact (List.pairwise_cons.mp hins).1 x hx
              · exact hleast x hx
            have hw' : w.length = d := by
              rw [List.length_cons] at hlen
              omega
            rw [List.tail_cons, ih (List.pairwise_cons.mp hins).2 hrest.le (hdepth.read htail),
              List.cons_append, List.insertionSort_cons_of_forall_rel _ hmin]
            simp [hrest, hw']

/-- On a sequence of reorder depth at most the delay the window first fills and then
emits the sorted sequence. -/
theorem outputs_windowPush (d : Nat) {l : List α} (h : ReorderDepthAtMost d l) :
    Transducer.outputs (windowPush d) [] l =
      List.replicate (min d l.length) none ++
        ((l.insertionSort (· ≤ ·)).take (l.length - d)).map some := by
  simpa using outputs_windowPush_from d l List.Pairwise.nil (Nat.zero_le d) h.depthFrom

/-- On a sequence of bounded depth, what a run emitted is the front of the sorted
sequence and the window is the rest of it. -/
theorem outputs_windowPush_sorted {d : Nat} {l : List α} (h : DepthFrom d [] l) :
    (Transducer.outputs (windowPush d) [] l).reduceOption =
        (l.insertionSort (· ≤ ·)).take (l.length - d) ∧
      Transducer.stateAfter (windowPush d) [] l =
        (l.insertionSort (· ≤ ·)).drop (l.length - d) := by
  have hout : (Transducer.outputs (windowPush d) [] l).reduceOption =
      (l.insertionSort (· ≤ ·)).take (l.length - d) := by
    rw [outputs_windowPush_from d l List.Pairwise.nil (Nat.zero_le d) h]
    rw [List.reduceOption_append, List.reduceOption_replicate_none]
    simp [List.reduceOption, List.filterMap_map]
  refine ⟨hout, ?_⟩
  have hperm := outputs_windowPush_perm d [] l
  rw [hout, List.nil_append] at hperm
  have hsort : ((l.insertionSort (· ≤ ·)).take (l.length - d) ++
      (l.insertionSort (· ≤ ·)).drop (l.length - d)).Perm l := by
    rw [List.take_append_drop]
    exact List.perm_insertionSort _ l
  -- Both rests are sorted and hold the same values.
  apply List.Perm.eq_of_pairwise'
    (stateAfter_windowPush_sorted d l List.Pairwise.nil)
    ((List.pairwise_insertionSort (· ≤ ·) l).drop)
  exact (List.perm_append_left_iff _).mp (hperm.trans hsort.symm)

end Library
end Vaco
