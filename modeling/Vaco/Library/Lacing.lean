import Mathlib.Tactic

/-!
# Units of data laced into pieces

A unit of data is cut into pieces of one full length and a shorter last piece, which may be empty.
The shorter piece ends the unit, so that the units are found again in the sequence of their pieces,
wherever that sequence is cut.

Main results:

- `gather_some`: what a unit that is open at a cut adds to what comes behind it.
-/

namespace Vaco
namespace Library
namespace Lacing

variable {α : Type*} {full : Nat}

/-- The units that a sequence of pieces ends, and the one that it leaves open. -/
def gather (full : Nat) : Option (List α) → List (List α) → List (List α) × Option (List α)
  | opened, [] => ([], opened)
  | opened, piece :: rest =>
      if piece.length < full then
        let gathered := gather full none rest
        ((opened.getD [] ++ piece) :: gathered.1, gathered.2)
      else
        gather full (some (opened.getD [] ++ piece)) rest

theorem gather_short {opened : Option (List α)} {piece : List α} (h : piece.length < full)
    (rest : List (List α)) :
    gather full opened (piece :: rest) =
      ((opened.getD [] ++ piece) :: (gather full none rest).1, (gather full none rest).2) := by
  rw [gather, if_pos h]

theorem gather_long {opened : Option (List α)} {piece : List α} (h : full ≤ piece.length)
    (rest : List (List α)) :
    gather full opened (piece :: rest) = gather full (some (opened.getD [] ++ piece)) rest := by
  rw [gather, if_neg (not_lt.mpr h)]

/-- What a unit that is open adds to the pieces behind it. -/
theorem gather_some (unit : List α) {segs : List (List α)} (h : segs ≠ []) :
    gather full (some unit) segs =
      match (gather full none segs).1 with
      | [] => ([], some (unit ++ (gather full none segs).2.getD []))
      | first :: others => ((unit ++ first) :: others, (gather full none segs).2) := by
  induction segs generalizing unit with
  | nil => exact absurd rfl h
  | cons piece rest ih =>
      by_cases hpiece : piece.length < full
      · rw [gather_short hpiece, gather_short hpiece]
        rfl
      · rw [gather_long (not_lt.mp hpiece), gather_long (not_lt.mp hpiece), Option.getD_some,
          Option.getD_none, List.nil_append]
        by_cases hrest : rest = []
        · rw [hrest]
          rfl
        · rw [ih _ hrest, ih piece hrest]
          cases (gather full none rest).1 with
          | nil => rw [Option.getD_some, List.append_assoc]
          | cons first others =>
              dsimp only
              rw [List.append_assoc]

theorem isSome_gather (opened : Option (List α)) {segs : List (List α)} (h : segs ≠ []) :
    (gather full opened segs).2.isSome ↔ full ≤ (segs.getLast h).length := by
  induction segs generalizing opened with
  | nil => exact absurd rfl h
  | cons piece rest ih =>
      by_cases hrest : rest = []
      · subst hrest
        rw [List.getLast_singleton]
        by_cases hpiece : piece.length < full
        · rw [gather_short hpiece]
          exact ⟨fun hsome => Bool.noConfusion hsome, fun hle => absurd hle (not_le.mpr hpiece)⟩
        · rw [gather_long (not_lt.mp hpiece)]
          exact ⟨fun _ => not_lt.mp hpiece, fun _ => rfl⟩
      · rw [List.getLast_cons hrest]
        by_cases hpiece : piece.length < full
        · rw [gather_short hpiece]
          exact ih none hrest
        · rw [gather_long (not_lt.mp hpiece)]
          exact ih _ hrest

theorem length_gather (opened : Option (List α)) (segs : List (List α)) :
    (gather full opened segs).1.length = segs.countP fun piece => piece.length < full := by
  induction segs generalizing opened with
  | nil => rfl
  | cons piece rest ih =>
      by_cases hpiece : piece.length < full
      · rw [gather_short hpiece, List.length_cons, ih, List.countP_cons_of_pos (by simpa using hpiece)]
      · rw [gather_long (not_lt.mp hpiece), ih, List.countP_cons_of_neg (by simpa using hpiece)]

theorem length_opened_le {bound : Nat} (opened : Option (List α)) (segs : List (List α))
    (hended : ∀ unit ∈ (gather full opened segs).1, unit.length ≤ bound)
    (hopen : ((gather full opened segs).2.getD []).length ≤ bound) :
    (opened.getD []).length ≤ bound := by
  induction segs generalizing opened with
  | nil => exact hopen
  | cons piece rest ih =>
      have hadd : (opened.getD []).length ≤ (opened.getD [] ++ piece).length := by
        rw [List.length_append]
        exact Nat.le_add_right _ _
      by_cases hpiece : piece.length < full
      · rw [gather_short hpiece] at hended
        exact hadd.trans (hended _ List.mem_cons_self)
      · rw [gather_long (not_lt.mp hpiece)] at hended hopen
        exact hadd.trans (ih _ hended hopen)

theorem sum_length_gather (opened : Option (List α)) (segs : List (List α)) :
    ((gather full opened segs).1.map List.length).sum +
        ((gather full opened segs).2.getD []).length =
      (opened.getD []).length + segs.flatten.length := by
  induction segs generalizing opened with
  | nil => exact Nat.zero_add _
  | cons piece rest ih =>
      rw [List.flatten_cons, List.length_append]
      by_cases hpiece : piece.length < full
      · rw [gather_short hpiece, List.map_cons, List.sum_cons, List.length_append]
        have hrest := ih none
        rw [Option.getD_none, List.length_nil] at hrest
        dsimp only
        omega
      · rw [gather_long (not_lt.mp hpiece), ih, Option.getD_some, List.length_append]
        omega

/-! ## Tagged pieces -/

variable {β : Type*}

/-- The tagged pieces of each unit that ends, and those of the unit left open. -/
def group (full : Nat) : List (List α × β) → List (List α × β) →
    List (List (List α × β)) × List (List α × β)
  | opened, [] => ([], opened)
  | opened, piece :: rest =>
      if piece.1.length < full then
        let grouped := group full [] rest
        ((opened ++ [piece]) :: grouped.1, grouped.2)
      else
        group full (opened ++ [piece]) rest

/-- The unit that some tagged pieces make up. -/
def unitOf (segs : List (List α × β)) : List α :=
  (segs.map Prod.fst).flatten

/-- The unit that some tagged pieces leave open. -/
def openOf (segs : List (List α × β)) : Option (List α) :=
  if segs = [] then none else some (unitOf segs)

theorem unitOf_append_singleton (segs : List (List α × β)) (piece : List α × β) :
    unitOf (segs ++ [piece]) = unitOf segs ++ piece.1 := by
  rw [unitOf, List.map_append, List.flatten_append, List.map_singleton, List.flatten_singleton]
  rfl

theorem getD_openOf (segs : List (List α × β)) : (openOf segs).getD [] = unitOf segs := by
  rw [openOf]
  split
  · rename_i h
    rw [h]
    rfl
  · rfl

theorem openOf_append_singleton (segs : List (List α × β)) (piece : List α × β) :
    openOf (segs ++ [piece]) = some (unitOf segs ++ piece.1) := by
  rw [openOf, if_neg (by simp), unitOf_append_singleton]

theorem group_short {opened : List (List α × β)} {piece : List α × β}
    (h : piece.1.length < full) (rest : List (List α × β)) :
    group full opened (piece :: rest) =
      ((opened ++ [piece]) :: (group full [] rest).1, (group full [] rest).2) := by
  rw [group, if_pos h]

theorem group_long {opened : List (List α × β)} {piece : List α × β}
    (h : full ≤ piece.1.length) (rest : List (List α × β)) :
    group full opened (piece :: rest) = group full (opened ++ [piece]) rest := by
  rw [group, if_neg (not_lt.mpr h)]

theorem group_append (opened first second : List (List α × β)) :
    group full opened (first ++ second) =
      ((group full opened first).1 ++ (group full (group full opened first).2 second).1,
        (group full (group full opened first).2 second).2) := by
  induction first generalizing opened with
  | nil => rfl
  | cons piece rest ih =>
      rw [List.cons_append]
      by_cases h : piece.1.length < full
      · rw [group_short h, group_short h, ih, List.cons_append]
      · rw [group_long (not_lt.mp h), group_long (not_lt.mp h), ih]

/-- The units of tagged pieces are those of the pieces. -/
theorem gather_map_fst (opened segs : List (List α × β)) :
    gather full (openOf opened) (segs.map Prod.fst) =
      ((group full opened segs).1.map unitOf, openOf (group full opened segs).2) := by
  induction segs generalizing opened with
  | nil => rfl
  | cons piece rest ih =>
      rw [List.map_cons]
      by_cases h : piece.1.length < full
      · have hrest := ih []
        rw [openOf, if_pos rfl] at hrest
        rw [gather_short h, group_short h, hrest, getD_openOf, List.map_cons,
          unitOf_append_singleton]
      · rw [gather_long (not_lt.mp h), group_long (not_lt.mp h), ← ih, getD_openOf,
          openOf_append_singleton]

/-- What holds of all tags holds of those of every unit and of the one left open. -/
theorem group_forall {P : β → Prop} {opened segs : List (List α × β)}
    (hopened : ∀ piece ∈ opened, P piece.2) (hsegs : ∀ piece ∈ segs, P piece.2) :
    (∀ unit ∈ (group full opened segs).1, ∀ piece ∈ unit, P piece.2) ∧
      ∀ piece ∈ (group full opened segs).2, P piece.2 := by
  induction segs generalizing opened with
  | nil => exact ⟨fun unit hunit => absurd hunit List.not_mem_nil, hopened⟩
  | cons piece rest ih =>
      have hpiece := hsegs piece List.mem_cons_self
      have hrest : ∀ other ∈ rest, P other.2 := fun other hother =>
        hsegs other (List.mem_cons_of_mem _ hother)
      have hmore : ∀ other ∈ opened ++ [piece], P other.2 := by
        intro other hother
        rcases List.mem_append.mp hother with hother | hother
        · exact hopened other hother
        · rw [List.mem_singleton.mp hother]
          exact hpiece
      by_cases h : piece.1.length < full
      · rw [group_short h]
        rcases ih (fun other hother => absurd hother List.not_mem_nil) hrest with ⟨hunits, hleft⟩
        refine ⟨fun unit hunit => ?_, hleft⟩
        rcases List.mem_cons.mp hunit with rfl | hunit
        · exact hmore
        · exact hunits unit hunit
      · rw [group_long (not_lt.mp h)]
        exact ih hmore hrest

theorem exists_mem_of_mem_left {opened segs : List (List α × β)} (hsegs : segs ≠ [])
    (h : (group full opened segs).2 ≠ []) : ∃ piece ∈ (group full opened segs).2, piece ∈ segs := by
  induction segs generalizing opened with
  | nil => exact absurd rfl hsegs
  | cons piece rest ih =>
      by_cases hrest : rest = []
      · subst hrest
        by_cases hshort : piece.1.length < full
        · rw [group_short hshort] at h
          exact absurd rfl h
        · rw [group_long (not_lt.mp hshort)]
          exact ⟨piece, List.mem_append_right _ List.mem_cons_self, List.mem_cons_self⟩
      · by_cases hshort : piece.1.length < full
        · rw [group_short hshort] at h ⊢
          rcases ih hrest h with ⟨other, hleft, hmem⟩
          exact ⟨other, hleft, List.mem_cons_of_mem _ hmem⟩
        · rw [group_long (not_lt.mp hshort)] at h ⊢
          rcases ih hrest h with ⟨other, hleft, hmem⟩
          exact ⟨other, hleft, List.mem_cons_of_mem _ hmem⟩

end Lacing
end Library
end Vaco
