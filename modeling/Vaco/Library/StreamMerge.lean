import Mathlib.Data.List.MinMax
import Mathlib.Data.Prod.Lex
import Mathlib.Tactic

/-!
# Streaming merge of ordered queues

Several streams feed one queue each, and a merge takes the least head: least key
first, least stream among equal keys.  While a stream is open its future items are
unknown, so an item may leave only when every open stream has something queued.
What has left is then final: nothing that is queued or still to come belongs before
it.

Main results:

- `least_eq_some_iff`: the least head is the head of its queue that no other head precedes.
- `Merging.push`, `Merging.close` and `Merging.take`: the three steps of a merge keep the merge
  invariant.
- `Merging.key_le_of_open`: everything that has left is at most everything an open stream can still
  accept.
- `Merging.mergeAll_complete`: merging closed streams returns everything accepted, sorted by place.
-/

namespace Vaco
namespace Library
namespace StreamMerge

variable {α κ : Type*} [LinearOrder κ] (key : α → κ)

/-- The place of an item in the merge: by key, then by stream. -/
def rank (x : Nat × α) : κ ×ₗ ℕ :=
  toLex (key x.2, x.1)

/-- The first item of every nonempty queue, with its stream. -/
def heads (queues : List (List α)) : List (Nat × α) :=
  queues.zipIdx.filterMap fun x => x.1.head?.map fun a => (x.2, a)

/-- The head that comes first in the merge. -/
def least (queues : List (List α)) : Option (Nat × α) :=
  (heads queues).argmin (rank key)

/-- Every item that is queued, with its stream. -/
def queuedItems (queues : List (List α)) : List (Nat × α) :=
  queues.zipIdx.flatMap fun x => x.1.map (Prod.mk x.2)

variable {key}

theorem rank_le_iff {x y : Nat × α} :
    rank key x ≤ rank key y ↔ key x.2 < key y.2 ∨ key x.2 = key y.2 ∧ x.1 ≤ y.1 := by
  rw [rank, rank, Prod.Lex.toLex_le_toLex]

theorem key_le_of_rank_le {x y : Nat × α} (h : rank key x ≤ rank key y) :
    key x.2 ≤ key y.2 := by
  rcases rank_le_iff.mp h with h | h
  · exact h.le
  · exact h.1.le

theorem rank_le_of_key_le {i : Nat} {a b : α} (h : key a ≤ key b) :
    rank key (i, a) ≤ rank key (i, b) := by
  rw [rank_le_iff]
  rcases h.lt_or_eq with h | h
  · exact Or.inl h
  · exact Or.inr ⟨h, le_rfl⟩

theorem mem_heads {queues : List (List α)} {i : Nat} {a : α} :
    (i, a) ∈ heads queues ↔ ∃ rest, queues[i]? = some (a :: rest) := by
  simp only [heads, List.mem_filterMap, List.mem_zipIdx_iff_getElem?, Option.map_eq_some_iff,
    Prod.mk.injEq, Prod.exists]
  constructor
  · rintro ⟨queue, j, hqueue, b, hb, rfl, rfl⟩
    rcases List.head?_eq_some_iff.mp hb with ⟨rest, rfl⟩
    exact ⟨rest, hqueue⟩
  · rintro ⟨rest, h⟩
    exact ⟨a :: rest, i, h, a, rfl, rfl, rfl⟩

theorem rank_least_le {queues : List (List α)} {x : Nat × α} (h : least key queues = some x)
    {j : Nat} {b : α} {rest : List α} (hj : queues[j]? = some (b :: rest)) :
    rank key x ≤ rank key (j, b) :=
  List.le_of_mem_argmin (mem_heads.mpr ⟨rest, hj⟩) h

/-- The least head is the head of its queue that no other head precedes. -/
theorem least_eq_some_iff {queues : List (List α)} {i : Nat} {a : α} :
    least key queues = some (i, a) ↔
      (∃ rest, queues[i]? = some (a :: rest)) ∧
        ∀ j b rest, queues[j]? = some (b :: rest) → rank key (i, a) ≤ rank key (j, b) := by
  constructor
  · intro h
    exact ⟨mem_heads.mp (List.argmin_mem h), fun j b rest hj => rank_least_le h hj⟩
  · rintro ⟨⟨rest, hi⟩, hmin⟩
    cases hleast : least key queues with
    | none =>
        have hmem := mem_heads.mpr ⟨rest, hi⟩
        rw [List.argmin_eq_none.mp hleast] at hmem
        cases hmem
    | some x =>
        rcases mem_heads.mp (List.argmin_mem hleast) with ⟨rest', hx⟩
        have hle := hmin _ _ _ hx
        have hge := rank_least_le hleast hi
        have hrank := congrArg ofLex (le_antisymm hge hle)
        have hstream : x.1 = i := congrArg Prod.snd hrank
        rw [hstream, hi] at hx
        have hhead : a = x.2 := (List.cons.inj (Option.some.inj hx)).1
        rw [← hstream, hhead]

theorem least_eq_none_iff {queues : List (List α)} :
    least key queues = none ↔ ∀ queue ∈ queues, queue = [] := by
  rw [least, List.argmin_eq_none, List.eq_nil_iff_forall_not_mem]
  constructor
  · intro h queue hqueue
    rcases List.getElem?_of_mem hqueue with ⟨i, hi⟩
    cases queue with
    | nil => rfl
    | cons a rest => exact absurd (mem_heads.mpr ⟨rest, hi⟩) (h (i, a))
  · rintro h ⟨i, a⟩ hmem
    rcases mem_heads.mp hmem with ⟨rest, hi⟩
    cases h _ (List.mem_of_getElem? hi)

theorem exists_queuedItems_modify {queues : List (List α)} {i : Nat} {queue : List α}
    (h : queues[i]? = some queue) :
    ∃ before after, queuedItems queues = before ++ queue.map (Prod.mk i) ++ after ∧
      ∀ f, queuedItems (queues.modify i f) = before ++ (f queue).map (Prod.mk i) ++ after := by
  rcases List.getElem?_eq_some_iff.mp h with ⟨hlt, rfl⟩
  have hblock : ∀ f, queuedItems (queues.modify i f) =
      queuedItems (queues.take i) ++ (f queues[i]).map (Prod.mk i) ++
        ((queues.drop (i + 1)).zipIdx (i + 1)).flatMap fun x => x.1.map (Prod.mk x.2) := by
    intro f
    rw [List.modify_eq_take_cons_drop hlt]
    simp [queuedItems, List.zipIdx_append, List.zipIdx_cons, Nat.min_eq_left hlt.le]
  refine ⟨_, _, ?_, hblock⟩
  simpa using hblock id

theorem queuedItems_push {queues : List (List α)} {i : Nat} {queue : List α} (a : α)
    (h : queues[i]? = some queue) :
    (queuedItems (queues.modify i (· ++ [a]))).Perm (queuedItems queues ++ [(i, a)]) := by
  rcases exists_queuedItems_modify h with ⟨before, after, hself, hmodify⟩
  rw [hmodify, hself]
  simp only [List.map_append, List.map_cons, List.map_nil, List.append_assoc]
  exact ((@List.perm_append_comm _ [(i, a)] _).append_left _).append_left _

theorem queuedItems_take {queues : List (List α)} {i : Nat} {a : α} {rest : List α}
    (h : queues[i]? = some (a :: rest)) :
    ((i, a) :: queuedItems (queues.modify i List.tail)).Perm (queuedItems queues) := by
  rcases exists_queuedItems_modify h with ⟨before, after, hself, hmodify⟩
  rw [hmodify, hself]
  simp only [List.map_cons, List.append_assoc]
  exact List.perm_middle.symm

theorem mem_queuedItems {queues : List (List α)} {i : Nat} {a : α} :
    (i, a) ∈ queuedItems queues ↔ ∃ queue, queues[i]? = some queue ∧ a ∈ queue := by
  simp only [queuedItems, List.mem_flatMap, List.mem_zipIdx_iff_getElem?, List.mem_map,
    Prod.mk.injEq, Prod.exists]
  constructor
  · rintro ⟨queue, j, hqueue, b, hb, rfl, rfl⟩
    exact ⟨queue, hqueue, hb⟩
  · rintro ⟨queue, hqueue, ha⟩
    exact ⟨queue, i, hqueue, a, ha, rfl, rfl⟩

/-! ## Merging while streams are open -/

variable (key) in
/-- The merge so far: what was accepted, what has left, what is queued, and which
streams may still accept items. -/
structure Merging (accepted emitted : List (Nat × α)) (queues : List (List α))
    (isOpen : Nat → Prop) : Prop where
  fifo : ∀ i, accepted.filter (·.1 = i) =
    emitted.filter (·.1 = i) ++ ((queues[i]?).getD []).map (Prod.mk i)
  perm : (emitted ++ queuedItems queues).Perm accepted
  ordered : accepted.Pairwise fun x y => x.1 = y.1 → key x.2 ≤ key y.2
  sorted : emitted.Pairwise fun x y => rank key x ≤ rank key y
  below_queued : ∀ x ∈ emitted, ∀ y ∈ queuedItems queues, rank key x ≤ rank key y
  below_open : ∀ x ∈ emitted, ∀ i, isOpen i →
    ∃ a, (i, a) ∈ accepted ∧ rank key x ≤ rank key (i, a)

namespace Merging

variable {accepted emitted : List (Nat × α)} {queues : List (List α)} {isOpen : Nat → Prop}

theorem start {queues : List (List α)} (h : ∀ queue ∈ queues, queue = [])
    (isOpen : Nat → Prop) : Merging key [] [] queues isOpen := by
  have hnone : queuedItems queues = [] := by
    rw [List.eq_nil_iff_forall_not_mem]
    rintro ⟨i, a⟩ hmem
    rcases mem_queuedItems.mp hmem with ⟨queue, hqueue, ha⟩
    rw [h queue (List.mem_of_getElem? hqueue)] at ha
    cases ha
  have hqueue : ∀ i : Nat, (queues[i]?).getD [] = [] := by
    intro i
    cases hi : queues[i]? with
    | none => rfl
    | some queue => exact h queue (List.mem_of_getElem? hi)
  constructor <;> simp [hnone, hqueue]

/-- Everything that has left is at most everything an open stream can still
accept. -/
theorem key_le_of_open (h : Merging key accepted emitted queues isOpen) {i : Nat} {a : α}
    (hopen : isOpen i) (ha : ∀ b, (i, b) ∈ accepted → key b ≤ key a) :
    ∀ x ∈ emitted, rank key x ≤ rank key (i, a) := by
  intro x hx
  rcases h.below_open x hx i hopen with ⟨b, hb, hle⟩
  exact hle.trans (rank_le_of_key_le (ha b hb))

/-- An open stream accepts an item no earlier than its previous ones. -/
theorem push (h : Merging key accepted emitted queues isOpen) {i : Nat} {a : α}
    (hopen : isOpen i) (hi : i < queues.length)
    (ha : ∀ b, (i, b) ∈ accepted → key b ≤ key a) :
    Merging key (accepted ++ [(i, a)]) emitted (queues.modify i (· ++ [a])) isOpen where
  fifo := by
    intro j
    rw [List.filter_append, h.fifo]
    by_cases hij : i = j
    · subst hij
      simp [hi]
    · simp [hij]
  perm := by
    have hpush := queuedItems_push a (List.getElem?_eq_getElem hi)
    refine (hpush.append_left emitted).trans ?_
    rw [← List.append_assoc]
    exact h.perm.append_right _
  ordered := by
    rw [List.pairwise_append]
    refine ⟨h.ordered, List.pairwise_singleton _ _, ?_⟩
    rintro ⟨j, b⟩ hb y hy hstream
    rw [List.mem_singleton] at hy
    subst hy
    dsimp only at hstream
    subst hstream
    exact ha b hb
  sorted := h.sorted
  below_queued := by
    intro x hx y hy
    have hpush := queuedItems_push a (List.getElem?_eq_getElem hi)
    rcases List.mem_append.mp (hpush.mem_iff.mp hy) with hold | hnew
    · exact h.below_queued x hx y hold
    · rw [List.mem_singleton.mp hnew]
      exact h.key_le_of_open hopen ha x hx
  below_open := by
    intro x hx j hj
    rcases h.below_open x hx j hj with ⟨b, hb, hle⟩
    exact ⟨b, List.mem_append_left _ hb, hle⟩

/-- A stream closes. -/
theorem close (h : Merging key accepted emitted queues isOpen) {isOpen' : Nat → Prop}
    (hclose : ∀ i, isOpen' i → isOpen i) : Merging key accepted emitted queues isOpen' where
  fifo := h.fifo
  perm := h.perm
  ordered := h.ordered
  sorted := h.sorted
  below_queued := h.below_queued
  below_open := fun x hx i hi => h.below_open x hx i (hclose i hi)

theorem mem_accepted (h : Merging key accepted emitted queues isOpen) {y : Nat × α}
    (hy : y ∈ queuedItems queues) : y ∈ accepted :=
  h.perm.mem_iff.mp (List.mem_append_right _ hy)

theorem queue_ordered (h : Merging key accepted emitted queues isOpen) {i : Nat}
    {queue : List α} (hi : queues[i]? = some queue) :
    queue.Pairwise fun a b => key a ≤ key b := by
  have hstream : (accepted.filter (·.1 = i)).Pairwise fun x y => key x.2 ≤ key y.2 := by
    rw [List.pairwise_filter]
    refine h.ordered.imp ?_
    intro x y hxy hx hy
    exact hxy (by simp_all)
  rw [h.fifo, List.pairwise_append, hi] at hstream
  simpa [List.pairwise_map] using hstream.2.1

theorem rank_least_le_queued (h : Merging key accepted emitted queues isOpen) {x : Nat × α}
    (hx : least key queues = some x) : ∀ y ∈ queuedItems queues, rank key x ≤ rank key y := by
  rintro ⟨j, b⟩ hy
  rcases mem_queuedItems.mp hy with ⟨queue, hqueue, hb⟩
  cases queue with
  | nil => cases hb
  | cons c rest =>
      have hhead := rank_least_le hx hqueue
      rcases List.mem_cons.mp hb with rfl | hrest
      · exact hhead
      · have hle := List.rel_of_pairwise_cons (h.queue_ordered hqueue) hrest
        exact hhead.trans (rank_le_of_key_le hle)

/-- When every open stream has something queued, the least head may leave. -/
theorem take (h : Merging key accepted emitted queues isOpen) {i : Nat} {a : α}
    (hleast : least key queues = some (i, a))
    (hready : ∀ j, isOpen j → ∃ b, (j, b) ∈ queuedItems queues) :
    Merging key accepted (emitted ++ [(i, a)]) (queues.modify i List.tail) isOpen := by
  rcases (least_eq_some_iff.mp hleast).1 with ⟨rest, hqueue⟩
  have htake := queuedItems_take hqueue
  have hi : i < queues.length := (List.getElem?_eq_some_iff.mp hqueue).1
  have hmem : (i, a) ∈ queuedItems queues := htake.mem_iff.mp (List.mem_cons_self ..)
  have hfirst := h.rank_least_le_queued hleast
  constructor
  · intro j
    rw [h.fifo, List.filter_append]
    by_cases hij : i = j
    · subst hij
      have hget : queues[i] = a :: rest := (List.getElem?_eq_some_iff.mp hqueue).2
      simp [hi, hget]
    · simp [hij]
  · rw [List.append_assoc]
    exact (htake.append_left emitted).trans h.perm
  · exact h.ordered
  · rw [List.pairwise_append]
    refine ⟨h.sorted, List.pairwise_singleton _ _, ?_⟩
    intro x hx y hy
    rw [List.mem_singleton.mp hy]
    exact h.below_queued x hx _ hmem
  · intro x hx y hy
    have hy' : y ∈ queuedItems queues := htake.mem_iff.mp (List.mem_cons_of_mem _ hy)
    rcases List.mem_append.mp hx with hold | hnew
    · exact h.below_queued x hold y hy'
    · rw [List.mem_singleton.mp hnew]
      exact hfirst y hy'
  · intro x hx j hj
    rcases List.mem_append.mp hx with hold | hnew
    · exact h.below_open x hold j hj
    · rcases hready j hj with ⟨b, hb⟩
      rw [List.mem_singleton.mp hnew]
      exact ⟨b, h.mem_accepted hb, hfirst _ hb⟩

theorem emitted_of_accepted (h : Merging key accepted emitted queues isOpen)
    {S : Nat × α → Nat × α → Prop}
    (haccepted : accepted.Pairwise fun x y => x.1 = y.1 → S x y) :
    emitted.Pairwise fun x y => x.1 = y.1 → S x y := by
  rw [List.pairwise_iff_forall_sublist]
  intro x y hsub hstream
  have hfilter := hsub.filter fun z => decide (z.1 = y.1)
  have hboth : [x, y].filter (fun z => decide (z.1 = y.1)) = [x, y] := by simp [hstream]
  rw [hboth] at hfilter
  have hheld : [x, y].Sublist (emitted.filter (fun z => decide (z.1 = y.1)) ++
      ((queues[y.1]?).getD []).map (Prod.mk y.1)) :=
    List.sublist_append_of_sublist_left hfilter
  rw [← h.fifo] at hheld
  have hpair := haccepted.sublist (hheld.trans List.filter_sublist)
  exact List.rel_of_pairwise_cons hpair (List.mem_singleton_self y) hstream

end Merging

/-! ## Merging closed streams -/

variable (key) in
/-- Take the least head again and again, at most `fuel` times. -/
def mergeAll : Nat → List (List α) → List (Nat × α)
  | 0, _ => []
  | fuel + 1, queues =>
      match least key queues with
      | none => []
      | some x => x :: mergeAll fuel (queues.modify x.1 List.tail)

variable (key) in
def leftOver : Nat → List (List α) → List (List α)
  | 0, queues => queues
  | fuel + 1, queues =>
      match least key queues with
      | none => queues
      | some x => leftOver fuel (queues.modify x.1 List.tail)

theorem length_queuedItems_take {queues : List (List α)} {x : Nat × α}
    (h : least key queues = some x) :
    (queuedItems (queues.modify x.1 List.tail)).length + 1 = (queuedItems queues).length := by
  rcases (least_eq_some_iff (a := x.2)).mp h with ⟨⟨rest, hx⟩, -⟩
  exact (queuedItems_take hx).length_eq

theorem queuedItems_leftOver {fuel : Nat} {queues : List (List α)}
    (h : (queuedItems queues).length ≤ fuel) : queuedItems (leftOver key fuel queues) = [] := by
  induction fuel generalizing queues with
  | zero => exact List.eq_nil_of_length_eq_zero (Nat.le_zero.mp h)
  | succ fuel ih =>
      rw [leftOver]
      cases hleast : least key queues with
      | none =>
          rw [least_eq_none_iff] at hleast
          rw [List.eq_nil_iff_forall_not_mem]
          rintro ⟨i, a⟩ hmem
          rcases mem_queuedItems.mp hmem with ⟨queue, hqueue, ha⟩
          rw [hleast queue (List.mem_of_getElem? hqueue)] at ha
          cases ha
      | some x =>
          apply ih
          have := length_queuedItems_take hleast
          omega

theorem Merging.mergeAll {accepted emitted : List (Nat × α)} {queues : List (List α)}
    (h : Merging key accepted emitted queues fun _ => False) (fuel : Nat) :
    Merging key accepted (emitted ++ StreamMerge.mergeAll key fuel queues)
      (leftOver key fuel queues) fun _ => False := by
  induction fuel generalizing emitted queues with
  | zero => simpa [StreamMerge.mergeAll, leftOver] using h
  | succ fuel ih =>
      rw [StreamMerge.mergeAll, leftOver]
      cases hleast : least key queues with
      | none => simpa using h
      | some x =>
          have hstep := ih (h.take hleast (fun j hj => hj.elim))
          simpa using hstep

/-- With enough turns everything accepted leaves, sorted by place. -/
theorem Merging.mergeAll_complete {accepted : List (Nat × α)} {queues : List (List α)}
    (h : Merging key accepted [] queues fun _ => False) {fuel : Nat}
    (hfuel : (queuedItems queues).length ≤ fuel) :
    (StreamMerge.mergeAll key fuel queues).Perm accepted ∧
      (StreamMerge.mergeAll key fuel queues).Pairwise fun x y => rank key x ≤ rank key y := by
  have hall := h.mergeAll fuel
  have hperm := hall.perm
  rw [queuedItems_leftOver hfuel] at hperm
  exact ⟨by simpa using hperm, by simpa using hall.sorted⟩

/-! ## Merging through a projection of the items -/

variable {β : Type*} {key' : β → κ} {f : α → β}

/-- The least head of projected queues is the projection of the least head. -/
theorem least_map (hf : ∀ a, key' (f a) = key a) (queues : List (List α)) :
    least key' (queues.map (List.map f)) = (least key queues).map (Prod.map id f) := by
  cases h : least key queues with
  | none =>
      rw [least_eq_none_iff] at h
      rw [Option.map_none, least_eq_none_iff]
      intro queue hqueue
      rcases List.mem_map.mp hqueue with ⟨queue, hmem, rfl⟩
      rw [h queue hmem, List.map_nil]
  | some x =>
      rcases (least_eq_some_iff (a := x.2)).mp h with ⟨⟨rest, hx⟩, hmin⟩
      rw [Option.map_some]
      refine least_eq_some_iff.mpr ⟨⟨rest.map f, by simp [hx]⟩, ?_⟩
      intro j b rest hj
      rw [List.getElem?_map, Option.map_eq_some_iff] at hj
      rcases hj with ⟨queue, hqueue, hmap⟩
      cases queue with
      | nil => simp at hmap
      | cons c rest' =>
          simp only [List.map_cons, List.cons.injEq] at hmap
          have hle := hmin j c rest' hqueue
          rw [rank_le_iff] at hle ⊢
          simpa [← hmap.1, hf] using hle

theorem mergeAll_map (hf : ∀ a, key' (f a) = key a) (fuel : Nat) (queues : List (List α)) :
    mergeAll key' fuel (queues.map (List.map f)) =
      (mergeAll key fuel queues).map (Prod.map id f) := by
  induction fuel generalizing queues with
  | zero => rfl
  | succ fuel ih =>
      rw [mergeAll, mergeAll, least_map hf]
      cases least key queues with
      | none => rfl
      | some x =>
          have htail : (queues.map (List.map f)).modify x.1 List.tail =
              (queues.modify x.1 List.tail).map (List.map f) := by
            apply List.ext_getElem?
            intro j
            by_cases hj : x.1 = j <;> cases hq : queues[j]? <;> simp [hj, hq]
          simp [htail, ih]

end StreamMerge
end Library
end Vaco
