import Vaco.Library.Checked
import Vaco.Library.FiniteDescent

/-!
# Tree codes

A small alphabet is the leaves of a binary tree in a flat array: a node holds the entries at
its index and at the next one, a positive entry is the index of a deeper node, and any other
entry is a leaf of the negated value.  The reader takes one bool at every node; the writer
searches the entries for the value, and writes the branch it finds.  Both walk the array
unguarded against cycles, as does the search.

Main results:

- `entryReaches_eq`: the search ends and finds exactly the leaves below a node.
-/

namespace Vaco
namespace Codec

open Library Checked FiniteDescent

/-- A tree: pairs of entries, the root at index 0. -/
abbrev Tree := List Int

namespace Tree

variable {σ : Type}

/-- Walk a tree from an index; the fuel bounds the nodes on the way. -/
def readTreeLoop (tree : Tree) (readBool : σ → Nat → Option (σ × Bool)) :
    Nat → σ → Int → Option (σ × Int)
  | 0, _, _ => none
  | fuel + 1, s, i =>
      if i < 0 then
        some (s, 0)
      else do
        let (s, branch) ← readBool s (i.toNat / 2)
        match tree[i.toNat + branch.toNat]? with
        | none => some (s, 0)
        | some entry =>
            if entry ≤ 0 then some (s, -entry) else readTreeLoop tree readBool fuel s entry

/-- Walk a tree from an index; no path without a cycle has more nodes than there are
entries. -/
def readTreeAt (tree : Tree) (start : Int) (readBool : σ → Nat → Option (σ × Bool)) (s : σ) :
    Option (σ × Int) :=
  readTreeLoop tree readBool (tree.length + 1) s start

/-- Walk a tree from the root. -/
def readTree (tree : Tree) (readBool : σ → Nat → Option (σ × Bool)) (s : σ) :
    Option (σ × Int) :=
  tree.readTreeAt 0 readBool s

/-- Whether an entry reaches a leaf of a value; the fuel bounds the depth of the search. -/
def entryReaches (tree : Tree) (value : Int) : Nat → Int → Option Bool
  | 0, _ => none
  | fuel + 1, entry =>
      if entry ≤ 0 then
        some (decide (-entry = value))
      else do
        let left ← entryReaches tree value fuel (tree.getD entry.toNat 0)
        if left then some true else entryReaches tree value fuel (tree.getD (entry.toNat + 1) 0)

/-- Write the branches to a leaf from an index; the fuel bounds the nodes on the way. -/
def writeTreeLoop (tree : Tree) (value : Int) (writeBool : σ → Nat → Bool → Option σ) :
    Nat → σ → Int → Option σ
  | 0, _, _ => none
  | fuel + 1, s, i =>
      if i < 0 then
        some s
      else do
        let e0 := tree.getD i.toNat 0
        let e1 := tree.getD (i.toNat + 1) 0
        let goRight ← entryReaches tree value (tree.length + 1) e1
        let s ← writeBool s (i.toNat / 2) goRight
        let chosen := if goRight then e1 else e0
        if chosen ≤ 0 then some s else writeTreeLoop tree value writeBool fuel s chosen

/-- Write the branches to a leaf from an index. -/
def writeTreeAt (tree : Tree) (start value : Int) (writeBool : σ → Nat → Bool → Option σ)
    (s : σ) : Option σ :=
  writeTreeLoop tree value writeBool (tree.length + 1) s start

/-- Write the branches to a leaf from the root. -/
def writeTree (tree : Tree) (value : Int) (writeBool : σ → Nat → Bool → Option σ) (s : σ) :
    Option σ :=
  tree.writeTreeAt 0 value writeBool s

/-! ## Well-formed trees -/

/-- The entry on a branch of a node. -/
def entry (tree : Tree) (i : Nat) (branch : Bool) : Int :=
  tree.getD (i + branch.toNat) 0

/-- A positive entry of a node names a deeper node. -/
def Child (tree : Tree) (j i : Nat) : Prop :=
  0 < j ∧ ∃ branch, tree.entry i branch = j

/-- Every node below the root has both entries in the array, and no path comes back. -/
structure WellFormed (tree : Tree) : Prop where
  inside : ∀ i, Relation.ReflTransGen tree.Child i 0 → i + 1 < tree.length
  acyclic : Acc tree.Child 0

/-- A leaf of a value is below a node. -/
inductive HasLeaf (tree : Tree) (value : Int) : Nat → Prop where
  | leaf {i : Nat} (branch : Bool) :
      tree.entry i branch ≤ 0 → -tree.entry i branch = value → HasLeaf tree value i
  | deeper {i j : Nat} : tree.Child j i → HasLeaf tree value j → HasLeaf tree value i

/-- A leaf of a value is below an entry. -/
def EntryHas (tree : Tree) (value entry : Int) : Prop :=
  (entry ≤ 0 ∧ -entry = value) ∨ (0 < entry ∧ tree.HasLeaf value entry.toNat)

variable {tree : Tree} {value : Int} {i : Nat}

theorem entry_false (tree : Tree) (i : Nat) : tree.entry i false = tree.getD i 0 :=
  rfl

theorem entry_true (tree : Tree) (i : Nat) : tree.entry i true = tree.getD (i + 1) 0 :=
  rfl

theorem child_of_entry_pos {branch : Bool} (h : 0 < tree.entry i branch) :
    tree.Child (tree.entry i branch).toNat i :=
  ⟨by omega, branch, by omega⟩

/-- What is below a node is below one of its entries. -/
theorem hasLeaf_iff :
    tree.HasLeaf value i ↔
      tree.EntryHas value (tree.entry i false) ∨ tree.EntryHas value (tree.entry i true) := by
  constructor
  · intro h
    cases h with
    | leaf branch hle hvalue =>
        cases branch with
        | false => exact Or.inl (Or.inl ⟨hle, hvalue⟩)
        | true => exact Or.inr (Or.inl ⟨hle, hvalue⟩)
    | @deeper _ j hchild hleaf =>
        rcases hchild with ⟨hpos, branch, hentry⟩
        have hbelow : tree.EntryHas value (tree.entry i branch) := by
          refine Or.inr ⟨by omega, ?_⟩
          rwa [hentry, Int.toNat_natCast]
        cases branch with
        | false => exact Or.inl hbelow
        | true => exact Or.inr hbelow
  · have hbranch : ∀ branch, tree.EntryHas value (tree.entry i branch) →
        tree.HasLeaf value i := by
      intro branch h
      rcases h with ⟨hle, hvalue⟩ | ⟨hpos, hleaf⟩
      · exact HasLeaf.leaf branch hle hvalue
      · exact HasLeaf.deeper (child_of_entry_pos hpos) hleaf
    intro h
    rcases h with h | h
    · exact hbranch false h
    · exact hbranch true h

/-- A tree is well formed where every positive entry is the index of a deeper node within the
array. -/
theorem wellFormed_of_deeper (hroot : 1 < tree.length)
    (h : ∀ k < tree.length, 0 < tree.getD k 0 →
      k < tree.getD k 0 ∧ tree.getD k 0 + 1 < tree.length) : tree.WellFormed := by
  have hchild : ∀ {j i : Nat}, tree.Child j i → i < j ∧ j + 1 < tree.length := by
    intro j i hchild
    rcases hchild with ⟨hpos, branch, hentry⟩
    rw [entry] at hentry
    have hlt : i + branch.toNat < tree.length := by
      by_contra hout
      rw [List.getD_eq_getElem?_getD, List.getElem?_eq_none (not_lt.mp hout)] at hentry
      change (0 : Int) = j at hentry
      omega
    have hdeeper := h _ hlt (by omega)
    omega
  constructor
  · intro i hreach
    rcases Relation.ReflTransGen.cases_head hreach with heq | ⟨j, hstep, -⟩
    · omega
    · exact (hchild hstep).2
  · have hall : ∀ n i, tree.length - i = n → Acc tree.Child i := by
      intro n
      induction n using Nat.strong_induction_on with
      | _ n ih =>
          intro i hi
          refine Acc.intro i ?_
          intro j hj
          have hdeeper := hchild hj
          exact ih (tree.length - j) (by omega) j rfl
    exact hall _ 0 rfl

/-! ## The search -/

theorem entryReaches_entry {fuel : Nat} {e : Int}
    (h : 0 < e → ∃ b, entryReaches tree value (fuel + 1) e = some b ∧
      (b = true ↔ tree.HasLeaf value e.toNat)) :
    ∃ b, entryReaches tree value (fuel + 1) e = some b ∧ (b = true ↔ tree.EntryHas value e) := by
  by_cases hpos : 0 < e
  · rcases h hpos with ⟨b, hreaches, hiff⟩
    refine ⟨b, hreaches, hiff.trans ?_⟩
    constructor
    · exact fun hleaf => Or.inr ⟨hpos, hleaf⟩
    · rintro (⟨hle, -⟩ | ⟨-, hleaf⟩)
      · omega
      · exact hleaf
  · refine ⟨decide (-e = value), ?_, ?_⟩
    · rw [entryReaches, if_pos (by omega)]
    · rw [decide_eq_true_iff]
      constructor
      · exact fun hvalue => Or.inl ⟨by omega, hvalue⟩
      · rintro (⟨-, hvalue⟩ | ⟨hlt, -⟩)
        · exact hvalue
        · omega

theorem entryReaches_step {fuel : Nat} (hpos : 0 < i)
    (h : ∀ j, tree.Child j i → ∃ b, entryReaches tree value (fuel + 1) j = some b ∧
      (b = true ↔ tree.HasLeaf value j)) :
    ∃ b, entryReaches tree value (fuel + 1 + 1) i = some b ∧
      (b = true ↔ tree.HasLeaf value i) := by
  have hentry : ∀ branch, ∃ b, entryReaches tree value (fuel + 1) (tree.entry i branch) = some b ∧
      (b = true ↔ tree.EntryHas value (tree.entry i branch)) := by
    intro branch
    apply entryReaches_entry
    intro hlt
    have hchild := h _ (child_of_entry_pos hlt)
    rwa [Int.toNat_of_nonneg hlt.le] at hchild
  rcases hentry false with ⟨left, hleft, hleftIff⟩
  rcases hentry true with ⟨right, hright, hrightIff⟩
  rw [entryReaches, if_neg (by omega), Int.toNat_natCast, ← entry_false, ← entry_true, hleft,
    some_bind, hasLeaf_iff, ← hleftIff, ← hrightIff]
  cases left with
  | true => exact ⟨true, rfl, by simp⟩
  | false => exact ⟨right, hright, by simp⟩

theorem WellFormed.acc (h : tree.WellFormed)
    (hreach : Relation.ReflTransGen tree.Child i 0) : Acc tree.Child i := by
  rcases Relation.reflTransGen_iff_eq_or_transGen.mp hreach with heq | htrans
  · rw [← heq]
    exact h.acyclic
  · exact h.acyclic.inv_of_transGen htrans

theorem WellFormed.mem_range (h : tree.WellFormed)
    (hreach : Relation.ReflTransGen tree.Child i 0) (j : Nat)
    (hj : Relation.ReflTransGen tree.Child j i) : j ∈ Finset.range tree.length := by
  have hinside := h.inside j (hj.trans hreach)
  rw [Finset.mem_range]
  omega

/-- The search ends and finds exactly the leaves below an entry. -/
theorem entryReaches_eq (value : Int) (h : tree.WellFormed)
    (hreach : Relation.ReflTransGen tree.Child i 0) (branch : Bool) :
    ∃ b, entryReaches tree value (tree.length + 1) (tree.entry i branch) = some b ∧
      (b = true ↔ tree.EntryHas value (tree.entry i branch)) := by
  apply entryReaches_entry
  intro hpos
  have hchild := child_of_entry_pos hpos
  generalize hj : (tree.entry i branch).toNat = j at hchild ⊢
  have hbelow := hreach.head hchild
  have hnode := fuel_induction (motive := fun fuel (j : Nat) => 0 < j →
    ∃ b, entryReaches tree value (fuel + 1) j = some b ∧ (b = true ↔ tree.HasLeaf value j))
    (fun fuel a ih hpos => entryReaches_step hpos fun b hb => ih b hb hb.1)
    (h.acc hbelow) (h.mem_range hbelow) (by omega)
  rw [Finset.card_range] at hnode
  rwa [show tree.entry i branch = j by omega]

/-! ## Writing and reading -/

/-- Writer and reader walk one path of nodes and branches from a node to a value. -/
def Mirrored (tree : Tree) (value : Int) (fuel i : Nat) : Prop :=
  ∃ path : List (Nat × Bool),
    (∀ (σ : Type) (writeBool : σ → Nat → Bool → Option σ) (s : σ),
      writeTreeLoop tree value writeBool fuel s i =
        path.foldlM (fun s step => writeBool s step.1 step.2) s) ∧
    ∀ (τ : Type) (readBool : τ → Nat → Option (τ × Bool)) (s s' : τ),
      run readBool s (path.map Prod.fst) = some (s', path.map Prod.snd) →
        readTreeLoop tree readBool fuel s i = some (s', value)

/-- A node with a leaf of the value is mirrored when its children with one are. -/
theorem mirrored_step (h : tree.WellFormed) (hreach : Relation.ReflTransGen tree.Child i 0)
    (hleaf : tree.HasLeaf value i) {fuel : Nat}
    (ih : ∀ j, tree.Child j i → tree.HasLeaf value j → Mirrored tree value fuel j) :
    Mirrored tree value (fuel + 1) i := by
  rcases entryReaches_eq value h hreach true with ⟨goRight, hsearch, hiff⟩
  have hchosen : (if goRight then tree.entry i true else tree.entry i false) =
      tree.entry i goRight := by
    cases goRight <;> rfl
  have hhas : tree.EntryHas value (tree.entry i goRight) := by
    rw [hasLeaf_iff] at hleaf
    cases goRight with
    | true => exact hiff.mp rfl
    | false => exact hleaf.resolve_right fun hright => by cases hiff.mpr hright
  have hget : tree[i + goRight.toNat]? = some (tree.entry i goRight) := by
    have hinside := h.inside i hreach
    have hbit := Bool.toNat_lt goRight
    rw [entry, List.getD_eq_getElem?_getD, List.getElem?_eq_getElem (by omega), Option.getD_some]
  have hwrite : ∀ (σ : Type) (writeBool : σ → Nat → Bool → Option σ) (s : σ),
      writeTreeLoop tree value writeBool (fuel + 1) s i =
        (writeBool s (i / 2) goRight).bind fun s => if tree.entry i goRight ≤ 0 then some s
          else writeTreeLoop tree value writeBool fuel s (tree.entry i goRight) := by
    intro σ writeBool s
    rw [writeTreeLoop, if_neg (by omega), Int.toNat_natCast, ← entry_false, ← entry_true]
    dsimp only
    rw [hsearch, some_bind, hchosen]
    rfl
  have hread : ∀ (τ : Type) (readBool : τ → Nat → Option (τ × Bool)) (s t : τ),
      readBool s (i / 2) = some (t, goRight) →
      readTreeLoop tree readBool (fuel + 1) s i = if tree.entry i goRight ≤ 0
        then some (t, -tree.entry i goRight)
        else readTreeLoop tree readBool fuel t (tree.entry i goRight) := by
    intro τ readBool s t hbool
    rw [readTreeLoop, if_neg (by omega), Int.toNat_natCast, hbool, some_bind]
    dsimp only
    rw [hget]
  rcases hhas with ⟨hle, hvalue⟩ | ⟨hpos, hbelow⟩
  · refine ⟨[(i / 2, goRight)], ?_, ?_⟩
    · intro σ writeBool s
      rw [hwrite]
      simp only [if_pos hle]
      rfl
    · intro τ readBool s s' hrun
      rcases run_cons_inv hrun with ⟨t, b, rest, hbool, hrest, hsame⟩
      rw [List.map_cons, List.cons.injEq] at hsame
      rcases hsame with ⟨rfl, rfl⟩
      rw [List.map_nil, run_nil, Option.some.injEq, Prod.mk.injEq] at hrest
      rw [hread τ readBool s t hbool, if_pos hle, hvalue, hrest.1]
  · rcases ih _ (child_of_entry_pos hpos) hbelow with ⟨path, hwrites, hreads⟩
    rw [Int.toNat_of_nonneg hpos.le] at hwrites hreads
    refine ⟨(i / 2, goRight) :: path, ?_, ?_⟩
    · intro σ writeBool s
      rw [hwrite, List.foldlM_cons]
      simp only [if_neg (not_le.mpr hpos), hwrites]
      rfl
    · intro τ readBool s s' hrun
      rcases run_cons_inv hrun with ⟨t, b, rest, hbool, hrest, hsame⟩
      rw [List.map_cons, List.cons.injEq] at hsame
      rcases hsame with ⟨rfl, rfl⟩
      rw [hread τ readBool s t hbool, if_neg (not_le.mpr hpos)]
      exact hreads τ readBool t s' hrest

/-- Writer and reader walk one path from the root, and at its end the reader has the value. -/
def Agree (tree : Tree) (value : Int) : Prop :=
  ∃ path : List (Nat × Bool),
    (∀ (σ : Type) (writeBool : σ → Nat → Bool → Option σ) (s : σ),
      tree.writeTree value writeBool s =
        path.foldlM (fun s step => writeBool s step.1 step.2) s) ∧
    ∀ (τ : Type) (readBool : τ → Nat → Option (τ × Bool)) (s s' : τ),
      run readBool s (path.map Prod.fst) = some (s', path.map Prod.snd) →
        tree.readTree readBool s = some (s', value)

/-- In a well-formed tree writer and reader agree on every leaf. -/
theorem agree_of_hasLeaf (h : tree.WellFormed) (hleaf : tree.HasLeaf value 0) :
    Agree tree value := by
  have hroot : Relation.ReflTransGen tree.Child 0 0 := Relation.ReflTransGen.refl
  have hnode := fuel_induction (motive := fun fuel (j : Nat) =>
    Relation.ReflTransGen tree.Child j 0 → tree.HasLeaf value j →
      Mirrored tree value (fuel + 1) j)
    (fun fuel a ih hreach hleaf => mirrored_step h hreach hleaf fun b hb => ih b hb (hreach.head hb))
    h.acyclic (h.mem_range hroot) hroot hleaf
  rw [Finset.card_range] at hnode
  exact hnode

end Tree

end Codec
end Vaco
