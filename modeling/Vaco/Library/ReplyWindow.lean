import Mathlib.Tactic

/-!
# A window of numbered replies

Requests are numbered, and their replies arrive in any order.  A window keeps one slot for each
request that has not been answered to the caller, the oldest first; a reply is stored in the
slot that its number names relative to the number of the oldest.  When every reply on its way is
one that is missing, each exactly once, storing a reply keeps it so, and what leaves the front
of the window are the replies in the order of the requests.

Main results:

- `missing_concat`: a request adds its reply to the missing ones.
-/

namespace Vaco
namespace Library
namespace ReplyWindow

variable {ρ : Type*}

/-- Store a reply in the slot that its number names; a reply to an older request is dropped. -/
def store (base : Nat) (slots : List (Option ρ)) (reply : Nat × ρ) : List (Option ρ) :=
  if base ≤ reply.1 then slots.set (reply.1 - base) (some reply.2) else slots

/-- The replies that the empty slots wait for, with their numbers. -/
def missing : Nat → List (Option ρ) → List ρ → List (Nat × ρ)
  | base, none :: slots, d :: due => (base, d) :: missing (base + 1) slots due
  | base, some _ :: slots, _ :: due => missing (base + 1) slots due
  | _, _, _ => []

/-- Every reply that has been stored is the one that is due. -/
def Filled (slots : List (Option ρ)) (due : List ρ) : Prop :=
  List.Forall₂ (fun slot d => ∀ r ∈ slot, r = d) slots due

variable {base i : Nat} {slots : List (Option ρ)} {due : List ρ} {r d : ρ} {slot : Option ρ}

@[simp]
theorem missing_nil (base : Nat) (due : List ρ) : missing base [] due = [] := by
  unfold missing
  rfl

theorem Filled.length_eq (h : Filled slots due) : slots.length = due.length :=
  List.Forall₂.length_eq h

theorem Filled.concat (h : Filled slots due) (hslot : ∀ r ∈ slot, r = d) :
    Filled (slots ++ [slot]) (due ++ [d]) :=
  List.rel_append h (List.Forall₂.cons hslot List.Forall₂.nil)

/-- A request that is not answered adds its reply to the missing ones. -/
theorem missing_concat (h : Filled slots due) (base : Nat) (d : ρ) :
    missing base (slots ++ [none]) (due ++ [d]) =
      missing base slots due ++ [(base + slots.length, d)] := by
  induction h generalizing base with
  | nil => rfl
  | @cons slot d' slots due _ _ ih =>
      have hbase : base + 1 + slots.length = base + (slots.length + 1) := by omega
      cases slot with
      | none =>
          simp only [List.cons_append, missing, ih, List.length_cons, hbase]
      | some r =>
          simp only [List.cons_append, missing, ih, List.length_cons, hbase]

theorem missing_concat_some (h : Filled slots due) (base : Nat) (r d : ρ) :
    missing base (slots ++ [some r]) (due ++ [d]) = missing base slots due := by
  induction h generalizing base with
  | nil => rfl
  | @cons slot d' slots due _ _ ih =>
      cases slot with
      | none => simp only [List.cons_append, missing, ih]
      | some r' => simp only [List.cons_append, missing, ih]

theorem missing_eq_nil (h : missing base slots due = []) (base' : Nat) :
    missing base' slots due = [] := by
  induction slots generalizing base base' due with
  | nil => exact missing_nil base' due
  | cons slot slots ih =>
      cases due with
      | nil => cases slot <;> rfl
      | cons d due =>
          cases slot with
          | none => cases h
          | some r => exact ih h (base' + 1)

theorem le_of_mem_missing (h : Filled slots due) (hmem : (i, r) ∈ missing base slots due) :
    base ≤ i := by
  induction h generalizing base with
  | nil => simp at hmem
  | @cons slot d' slots due _ _ ih =>
      cases slot with
      | none =>
          rw [missing, List.mem_cons, Prod.mk.injEq] at hmem
          rcases hmem with ⟨rfl, -⟩ | hmem
          · exact le_rfl
          · exact (Nat.le_succ base).trans (ih hmem)
      | some r' =>
          rw [missing] at hmem
          exact (Nat.le_succ base).trans (ih hmem)

theorem store_cons (h : base + 1 ≤ i) (slot : Option ρ) (slots : List (Option ρ)) (r : ρ) :
    store base (slot :: slots) (i, r) = slot :: store (base + 1) slots (i, r) := by
  have hindex : i - base = i - (base + 1) + 1 := by omega
  rw [store, store, if_pos (by dsimp only; omega), if_pos h]
  dsimp only
  rw [hindex, List.set_cons_succ]

/-- Storing a missing reply fills its slot and leaves the others missing. -/
theorem store_missing (h : Filled slots due) (hmem : (i, r) ∈ missing base slots due) :
    Filled (store base slots (i, r)) due ∧
      (missing base slots due).Perm ((i, r) :: missing base (store base slots (i, r)) due) := by
  induction h generalizing base with
  | nil => simp at hmem
  | @cons slot d slots due hslot hrest ih =>
      cases slot with
      | none =>
          rw [missing, List.mem_cons, Prod.mk.injEq] at hmem
          rcases hmem with ⟨rfl, rfl⟩ | hmem
          · rw [store, if_pos le_rfl]
            dsimp only
            rw [Nat.sub_self, List.set_cons_zero]
            exact ⟨List.Forall₂.cons (fun x hx => (Option.some.inj hx).symm) hrest,
              List.Perm.refl _⟩
          · rcases ih hmem with ⟨hfilled, hperm⟩
            rw [store_cons (le_of_mem_missing hrest hmem)]
            refine ⟨List.Forall₂.cons hslot hfilled, ?_⟩
            rw [missing, missing]
            exact (hperm.cons _).trans (List.Perm.swap _ _ _)
      | some x =>
          rw [missing] at hmem
          rcases ih hmem with ⟨hfilled, hperm⟩
          rw [store_cons (le_of_mem_missing hrest hmem)]
          refine ⟨List.Forall₂.cons hslot hfilled, ?_⟩
          rw [missing, missing]
          exact hperm

theorem store_next {replies : List (Nat × ρ)} {reply : Nat × ρ} (h : Filled slots due)
    (hperm : (reply :: replies).Perm (missing base slots due)) :
    Filled (store base slots reply) due ∧
      replies.Perm (missing base (store base slots reply) due) := by
  have hmem : (reply.1, reply.2) ∈ missing base slots due :=
    hperm.subset List.mem_cons_self
  rcases store_missing h hmem with ⟨hfilled, hrest⟩
  exact ⟨hfilled, (List.perm_cons reply).mp (hperm.trans hrest)⟩

theorem store_all {replies others : List (Nat × ρ)} (h : Filled slots due)
    (hperm : (replies ++ others).Perm (missing base slots due)) :
    Filled (replies.foldl (store base) slots) due ∧
      others.Perm (missing base (replies.foldl (store base) slots) due) := by
  induction replies generalizing slots with
  | nil => exact ⟨h, hperm⟩
  | cons reply replies ih =>
      rcases store_next h hperm with ⟨hfilled, hrest⟩
      exact ih hfilled hrest

theorem front_leaves (h : Filled (some r :: slots) due) (base : Nat) :
    ∃ rest, due = r :: rest ∧ Filled slots rest ∧
      missing base (some r :: slots) due = missing (base + 1) slots rest := by
  cases h with
  | @cons _ d _ rest hslot hrest =>
      have hfront := hslot r rfl
      rw [← hfront]
      exact ⟨rest, rfl, hrest, rfl⟩

end ReplyWindow
end Library
end Vaco
