import Vaco.Webp.HuffmanTable

/-!
# Tries of VP8L Huffman tables

The nodes of a table are those of a trie whose nodes have numbers as paths: the root is 1, and the
children of a path are its double and the number behind that.  A codeword of some length is such a
path as well, with a leading one.

Main results:

- `insertBits_spec`: what putting a codeword into the nodes does to the trie.
-/

namespace Vaco
namespace Webp

open Library BitStream Vaco.Core

/-- The nodes of a trie in the order they were made: their paths, and the symbols of the leaves. -/
abbrev Trie : Type := List (Nat × Option Nat)

namespace Trie

/-- The paths of the nodes. -/
abbrev paths (t : Trie) : List Nat :=
  t.map Prod.fst

/-- Where the node of a path is. -/
def slot (t : Trie) (q : Nat) : Nat :=
  if q ∈ t.paths then t.paths.idxOf q else noChild

/-- One node of a table. -/
def node (t : Trie) (e : Nat × Option Nat) : Node :=
  match e.2 with
  | some sym => .leaf sym
  | none => .branch (t.slot (2 * e.1)) (t.slot (2 * e.1 + 1))

/-- The nodes of a table. -/
def render (t : Trie) : List Node :=
  t.map t.node

/-- Paths are distinct and at most 15 bits long, and what is below a node is below a branch. -/
structure Shaped (t : Trie) : Prop where
  nodup : t.paths.Nodup
  bounded : ∀ q ∈ t.paths, 0 < q ∧ q < 65536
  parent : ∀ q ∈ t.paths, q ≠ 1 → (q / 2, none) ∈ t

variable {t : Trie} {p q w i k : Nat} {o o' : Option Nat}

theorem mem_paths : q ∈ t.paths ↔ ∃ o, (q, o) ∈ t := by
  rw [List.mem_map]
  constructor
  · rintro ⟨e, he, rfl⟩
    exact ⟨e.2, he⟩
  · rintro ⟨o, ho⟩
    exact ⟨(q, o), ho, rfl⟩

theorem Shaped.eq_of_mem (ht : Shaped t) (h : (q, o) ∈ t) (h' : (q, o') ∈ t) : o = o' :=
  congrArg Prod.snd (List.inj_on_of_nodup_map ht.nodup h h' rfl)

theorem Shaped.length_le (ht : Shaped t) : t.length ≤ 65536 := by
  have hsub : t.paths.toFinset ⊆ Finset.range 65536 := fun q hq =>
    Finset.mem_range.mpr (ht.bounded q (List.mem_toFinset.mp hq)).2
  have hcard := Finset.card_le_card hsub
  rwa [List.toFinset_card_of_nodup ht.nodup, List.length_map, Finset.card_range] at hcard

theorem Shaped.slot_eq (ht : Shaped t) (h : t[i]? = some (q, o)) : t.slot q = i := by
  rcases List.getElem?_eq_some_iff.mp h with ⟨hi, hget⟩
  have hlen : i < t.paths.length := by rwa [List.length_map]
  have hq : t.paths[i] = q := by rw [List.getElem_map, hget]
  rw [slot, if_pos (hq ▸ List.getElem_mem hlen), ← hq, ht.nodup.idxOf_getElem]

theorem Shaped.slot_ne (ht : Shaped t) (h : t[i]? = some (q, o)) : t.slot q ≠ noChild := by
  have hi := (List.getElem?_eq_some_iff.mp h).1
  have hlen := ht.length_le
  rw [ht.slot_eq h, noChild]
  omega

theorem slot_of_not_mem (h : q ∉ t.paths) : t.slot q = noChild :=
  if_neg h

theorem Shaped.mem_ancestor (ht : Shaped t) (h : q ∈ t.paths) (hk : 0 < q / 2 ^ k) :
    q / 2 ^ k ∈ t.paths := by
  induction k with
  | zero => rwa [pow_zero, Nat.div_one]
  | succ k ih =>
      rw [pow_succ, ← Nat.div_div_eq_div_mul] at hk ⊢
      exact mem_paths.mpr ⟨none, ht.parent _ (ih (by omega)) (by omega)⟩

theorem mem_push {r : Nat} {x : Option Nat} :
    (r, x) ∈ t ++ [(q, o)] ↔ (r, x) ∈ t ∨ r = q ∧ x = o := by
  rw [List.mem_append, List.mem_singleton, Prod.mk.injEq]

theorem mem_paths_push {r : Nat} : r ∈ paths (t ++ [(q, o)]) ↔ r ∈ t.paths ∨ r = q := by
  rw [paths, List.map_append, List.mem_append, List.map_singleton, List.mem_singleton]

theorem Shaped.push (ht : Shaped t) (hp : (p, none) ∈ t) (hq : q / 2 = p) (hlt : q < 65536)
    (hnew : q ∉ t.paths) (o : Option Nat) : Shaped (t ++ [(q, o)]) := by
  have hpos := (ht.bounded p (mem_paths.mpr ⟨none, hp⟩)).1
  refine ⟨?_, ?_, ?_⟩
  · rw [paths, List.map_append]
    exact List.Nodup.append ht.nodup (List.nodup_singleton q)
      (List.disjoint_singleton.mpr hnew)
  · intro r hr
    rcases mem_paths_push.mp hr with hr | rfl
    · exact ht.bounded r hr
    · exact ⟨by omega, hlt⟩
  · intro r hr hne
    rcases mem_paths_push.mp hr with hr | rfl
    · exact List.mem_append_left _ (ht.parent r hr hne)
    · exact List.mem_append_left _ (hq ▸ hp)

theorem slot_push_self (hnew : q ∉ t.paths) (o : Option Nat) :
    slot (t ++ [(q, o)]) q = t.length := by
  simp [slot, List.idxOf_append, hnew]

theorem slot_push_of_ne {r : Nat} (hne : r ≠ q) (o : Option Nat) :
    slot (t ++ [(q, o)]) r = t.slot r := by
  by_cases hr : r ∈ t.paths
  · rw [slot, slot, if_pos hr, paths, List.map_append, if_pos (List.mem_append_left _ hr),
      List.idxOf_append_of_mem hr]
  · rw [slot_of_not_mem hr, slot_of_not_mem fun h => (mem_paths_push.mp h).elim hr hne]

/-- A node as it is made. -/
def fresh : Option Nat → Node
  | some sym => .leaf sym
  | none => .branch noChild noChild

/-- The nodes with a new one: the branch above it leads to it. -/
theorem Shaped.render_push (ht : Shaped t) (hp : t[i]? = some (p, none)) (hq : q / 2 = p)
    (hnew : q ∉ t.paths) (o : Option Nat) :
    render (t ++ [(q, o)]) = (t.render ++ [fresh o]).set i
      (if q % 2 = 0 then .branch t.length (t.slot (2 * p + 1))
        else .branch (t.slot (2 * p)) t.length) := by
  rcases List.getElem?_eq_some_iff.mp hp with ⟨hi, hget⟩
  have hpos := (ht.bounded p (mem_paths.mpr ⟨none, List.mem_of_getElem? hp⟩)).1
  have hlast : node (t ++ [(q, o)]) (q, o) = fresh o := by
    cases o with
    | some sym => rfl
    | none =>
        have hbelow : ∀ r, r / 2 = q → slot (t ++ [(q, none)]) r = noChild := by
          intro r hr
          rw [slot_push_of_ne (by omega)]
          refine slot_of_not_mem fun hmem => hnew (mem_paths.mpr ⟨none, ?_⟩)
          exact hr ▸ ht.parent r hmem (by omega)
        rw [node, hbelow _ (by omega), hbelow _ (by omega), fresh]
  have hold : t.map (node (t ++ [(q, o)])) = t.render.set i
      (if q % 2 = 0 then .branch t.length (t.slot (2 * p + 1))
        else .branch (t.slot (2 * p)) t.length) := by
    refine List.ext_getElem (by simp [render]) fun m hm hm' => ?_
    rw [List.length_map] at hm
    rw [List.getElem_set, List.getElem_map]
    by_cases hmi : i = m
    · subst hmi
      rw [if_pos rfl, hget, node]
      by_cases heven : q % 2 = 0
      · rw [if_pos heven, show 2 * p = q by omega, slot_push_self hnew,
          slot_push_of_ne (by omega)]
      · rw [if_neg heven, show 2 * p + 1 = q by omega, slot_push_self hnew,
          slot_push_of_ne (by omega)]
    · have hne : t[m].1 ≠ p := by
        intro heq
        have hinj := List.nodup_iff_injective_get.mp ht.nodup
        have hfin := @hinj ⟨i, by rwa [List.length_map]⟩ ⟨m, by rwa [List.length_map]⟩
          (by simp [hget, heq])
        exact hmi (congrArg Fin.val hfin)
      simp only [if_neg hmi, render, List.getElem_map, node]
      cases t[m].2 with
      | some sym => rfl
      | none =>
          dsimp only
          rw [slot_push_of_ne (by omega), slot_push_of_ne (by omega)]
  have hlen : i < t.render.length := by rwa [render, List.length_map]
  rw [render, List.map_append, hold, List.map_singleton, hlast, List.set_append_left _ _ hlen]

/-! ## Putting a codeword in -/

/-- A leaf stands above the node of a codeword. -/
def Clashes (t : Trie) (w k : Nat) : Prop :=
  ∃ j, 0 < j ∧ j ≤ k ∧ ∃ sym, (w / 2 ^ j, some sym) ∈ t

theorem getElem?_render (h : t[i]? = some (q, o)) : t.render[i]? = some (t.node (q, o)) := by
  rw [render, List.getElem?_map, h]
  rfl

/-- One bit on: to the node that is there, or to a new one. -/
theorem insertBits_succ {sym code cur : Nat} (ht : Shaped t)
    (hcur : t[cur]? = some (w / 2 ^ (k + 1), none)) (hbit : code / 2 ^ k % 2 = w / 2 ^ k % 2) :
    insertBits sym code (k + 1) cur t.render =
      if w / 2 ^ k ∈ t.paths then insertBits sym code k (t.slot (w / 2 ^ k)) t.render
      else insertBits sym code k t.length
        (render (t ++ [(w / 2 ^ k, if k = 0 then some (asU32 sym) else none)])) := by
  have hhalf : w / 2 ^ k / 2 = w / 2 ^ (k + 1) := by rw [Nat.div_div_eq_div_mul, ← pow_succ]
  have hnext : (if code / 2 ^ k % 2 = 0 then t.slot (2 * (w / 2 ^ (k + 1)))
      else t.slot (2 * (w / 2 ^ (k + 1)) + 1)) = t.slot (w / 2 ^ k) := by
    rw [hbit]
    split
    · rw [show 2 * (w / 2 ^ (k + 1)) = w / 2 ^ k by omega]
    · rw [show 2 * (w / 2 ^ (k + 1)) + 1 = w / 2 ^ k by omega]
  rw [insertBits, getElem?_render hcur]
  dsimp only [node]
  rw [hnext]
  by_cases hq : w / 2 ^ k ∈ t.paths
  · rcases mem_paths.mp hq with ⟨o', ho'⟩
    rcases List.getElem?_of_mem ho' with ⟨j, hj⟩
    rw [if_pos hq, if_neg (ht.slot_ne hj)]
  · have hlen : t.render.length = t.length := List.length_map _
    have hsmall : t.length ≤ noChild := ht.length_le.trans (by decide)
    have hfresh : (if k = 0 then Node.leaf (asU32 sym) else .branch noChild noChild) =
        fresh (if k = 0 then some (asU32 sym) else none) := by
      split <;> rfl
    rw [if_neg hq, if_pos (slot_of_not_mem hq), hlen, if_pos hsmall, hfresh,
      ht.render_push hcur hhalf hq, hbit]

/-- What putting the last bits of a codeword into the nodes does to the trie. -/
theorem insertBits_spec (sym : Nat) {code cur : Nat} (ht : Shaped t) (hw : w < 65536)
    (hbits : ∀ j < k, code / 2 ^ j % 2 = w / 2 ^ j % 2) (hk : 0 < w / 2 ^ k)
    (hcur : t[cur]? = some (w / 2 ^ k, o)) :
    (Clashes t w k → ∃ e, insertBits sym code k cur t.render = .error e) ∧
      (¬ Clashes t w k → ∃ t', insertBits sym code k cur t.render = .ok (render t') ∧
        Shaped t' ∧ t <+: t' ∧ ∀ r x, (r, x) ∈ t' ↔ (r, x) ∈ t ∨ r ∉ t.paths ∧
          ∃ j < k, r = w / 2 ^ j ∧ x = if j = 0 then some (asU32 sym) else none) := by
  induction k generalizing t cur o with
  | zero =>
      refine ⟨fun ⟨j, hj, hj0, _⟩ => absurd hj (by omega), fun _ =>
        ⟨t, rfl, ht, List.prefix_rfl, fun r x => ?_⟩⟩
      simp
  | succ k ih =>
      have hmem := List.mem_of_getElem? hcur
      have hhalf : w / 2 ^ k / 2 = w / 2 ^ (k + 1) := by rw [Nat.div_div_eq_div_mul, ← pow_succ]
      have hle : w / 2 ^ k < 65536 := (Nat.div_le_self _ _).trans_lt hw
      have hbits' : ∀ j < k, code / 2 ^ j % 2 = w / 2 ^ j % 2 := fun j hj => hbits j (by omega)
      cases o with
      | some s =>
          refine ⟨fun _ => ⟨.invalidData "vp8l: huffman lengths over-subscribed", ?_⟩,
            fun hno => absurd ⟨k + 1, by omega, le_rfl, s, hmem⟩ hno⟩
          rw [insertBits, getElem?_render hcur]
          rfl
      | none =>
          have hclash : Clashes t w (k + 1) ↔ Clashes t w k := by
            refine ⟨fun ⟨j, hj, hjk, s, hs⟩ => ?_, fun ⟨j, hj, hjk, hs⟩ => ⟨j, hj, by omega, hs⟩⟩
            rcases Nat.lt_or_eq_of_le hjk with hlt | rfl
            · exact ⟨j, hj, Nat.le_of_lt_succ hlt, s, hs⟩
            · exact absurd (ht.eq_of_mem hmem hs) (by simp)
          rw [hclash, insertBits_succ ht hcur (hbits k (Nat.lt_succ_self k))]
          by_cases hq : w / 2 ^ k ∈ t.paths
          · rcases mem_paths.mp hq with ⟨o', ho'⟩
            rcases List.getElem?_of_mem ho' with ⟨j, hj⟩
            have hrec := ih ht hbits' (by omega) hj
            rw [if_pos hq, ht.slot_eq hj]
            refine ⟨hrec.1, fun hno => ?_⟩
            rcases hrec.2 hno with ⟨t', hok, hshaped, hprefix, hin⟩
            refine ⟨t', hok, hshaped, hprefix, fun r x => (hin r x).trans (or_congr_right ?_)⟩
            refine and_congr_right fun hr => ⟨fun ⟨j, hj, h⟩ => ⟨j, by omega, h⟩, ?_⟩
            rintro ⟨j, hj, rfl, hx⟩
            rcases Nat.lt_or_eq_of_le (Nat.le_of_lt_succ hj) with hlt | rfl
            · exact ⟨j, hlt, rfl, hx⟩
            · exact absurd hq hr
          · -- Nothing of the codeword below here is in the trie yet.
            have hbelow : ∀ j ≤ k, w / 2 ^ j ∉ t.paths := by
              intro j hj hin
              have hsplit : w / 2 ^ j / 2 ^ (k - j) = w / 2 ^ k := by
                rw [Nat.div_div_eq_div_mul, ← pow_add, Nat.add_sub_cancel' hj]
              exact hq (hsplit ▸ ht.mem_ancestor hin (by rw [hsplit]; omega))
            have hpush := ht.push hmem hhalf hle hq (if k = 0 then some (asU32 sym) else none)
            have hrec := ih hpush hbits' (by omega)
              (List.getElem?_concat_length (l := t))
            have hno : ¬ Clashes t w k := fun ⟨j, _, hjk, s, hs⟩ =>
              hbelow j hjk (mem_paths.mpr ⟨_, hs⟩)
            have hno' : ¬ Clashes (t ++ [(w / 2 ^ k, if k = 0 then some (asU32 sym) else none)])
                w k := by
              rintro ⟨j, hj, hjk, s, hs⟩
              rcases mem_push.mp hs with hs | ⟨-, heq⟩
              · exact hbelow j hjk (mem_paths.mpr ⟨_, hs⟩)
              · rw [if_neg (by omega)] at heq
                cases heq
            rw [if_neg hq]
            refine ⟨fun h => absurd h hno, fun _ => ?_⟩
            rcases hrec.2 hno' with ⟨t', hok, hshaped, hprefix, hin⟩
            refine ⟨t', hok, hshaped, (List.prefix_append _ _).trans hprefix, fun r x =>
              (hin r x).trans ?_⟩
            rw [mem_push, mem_paths_push]
            constructor
            · rintro ((hx | ⟨rfl, rfl⟩) | ⟨hr, j, hj, hx⟩)
              · exact .inl hx
              · exact .inr ⟨hq, k, Nat.lt_succ_self k, rfl, rfl⟩
              · exact .inr ⟨fun h => hr (.inl h), j, by omega, hx⟩
            · rintro (hx | ⟨hr, j, hj, rfl, hx⟩)
              · exact .inl (.inl hx)
              · rcases Nat.lt_or_eq_of_le (Nat.le_of_lt_succ hj) with hlt | rfl
                · refine .inr ⟨fun h => h.elim hr fun heq => ?_, j, hlt, rfl, hx⟩
                  have hdeep : w / 2 ^ j / 2 ^ (k - j - 1) / 2 = w / 2 ^ k := by
                    rw [Nat.div_div_eq_div_mul, Nat.div_div_eq_div_mul, ← pow_succ, ← pow_add]
                    congr 2
                    omega
                  have hself := Nat.div_le_self (w / 2 ^ j) (2 ^ (k - j - 1))
                  omega
                · exact .inl (.inr ⟨rfl, hx⟩)

/-! ## Putting all codewords in -/

/-- A path begins with another. -/
def Begins (r w : Nat) : Prop :=
  0 < r ∧ ∃ j < 16, w / 2 ^ j = r

instance (r w : Nat) : Decidable (Begins r w) :=
  inferInstanceAs (Decidable (_ ∧ _))

/-- What is at a path: a leaf where the first codeword that begins with it ends there. -/
def content (ws : List (Nat × Nat)) (r : Nat) : Option (Option Nat) :=
  if r = 1 then some none
  else (ws.find? fun w => decide (Begins r w.1)).map fun w => if w.1 = r then some w.2 else none

/-- A codeword goes through the leaf of another. -/
def Blocks (ws : List (Nat × Nat)) (w : Nat) : Prop :=
  ∃ j, 0 < j ∧ ∃ sym, content ws (w / 2 ^ j) = some (some sym)

/-- A trie of codewords that were put in one after another. -/
structure Owned (ws : List (Nat × Nat)) (t : Trie) : Prop where
  shaped : Shaped t
  root : t[0]? = some (1, none)
  mem_iff : ∀ r x, (r, x) ∈ t ↔ content ws r = some x

variable {ws : List (Nat × Nat)}

theorem content_zero (ws : List (Nat × Nat)) : content ws 0 = none := by
  have hnone : ws.find? (fun w => decide (Begins 0 w.1)) = none :=
    List.find?_eq_none.mpr fun w _ h => lt_irrefl 0 (of_decide_eq_true h).1
  rw [content, if_neg Nat.zero_ne_one, hnone, Option.map_none]

theorem content_concat (ws : List (Nat × Nat)) (w s r : Nat) :
    content (ws ++ [(w, s)]) r = (content ws r).or
      (if Begins r w then some (if w = r then some s else none) else none) := by
  rw [content, content]
  split
  · rfl
  · rw [List.find?_append]
    by_cases hr : Begins r w
    · cases ws.find? fun w => decide (Begins r w.1) <;> simp [hr]
    · cases ws.find? fun w => decide (Begins r w.1) <;> simp [hr]

theorem Owned.empty : Owned [] [(1, none)] where
  shaped := ⟨List.nodup_singleton 1, by simp, by simp⟩
  root := rfl
  mem_iff := by
    intro r x
    rw [List.mem_singleton, Prod.mk.injEq, content]
    by_cases hr : r = 1
    · simp [hr, eq_comm]
    · simp [hr]

/-- One codeword more. -/
theorem Owned.insertBits (sym : Nat) {code : Nat} (h : Owned ws t) (hw : w < 65536)
    (hk : w / 2 ^ k = 1)
    (hk15 : k ≤ 15) (hbits : ∀ j < k, code / 2 ^ j % 2 = w / 2 ^ j % 2) :
    (Blocks ws w → ∃ e, Webp.insertBits sym code k 0 t.render = .error e) ∧
      (¬ Blocks ws w → ∃ t', Webp.insertBits sym code k 0 t.render = .ok (render t') ∧
        Owned (ws ++ [(w, asU32 sym)]) t') := by
  have hspec := insertBits_spec sym h.shaped hw hbits (hk ▸ Nat.one_pos)
    (h.root.trans (by rw [hk]))
  have hzero : ∀ j, k < j → w / 2 ^ j = 0 := by
    intro j hj
    rw [← Nat.add_sub_cancel' hj.le, pow_add, ← Nat.div_div_eq_div_mul, hk]
    exact Nat.div_eq_of_lt (Nat.one_lt_two_pow (by omega))
  have hself : ∀ j, w = w / 2 ^ j ↔ j = 0 := by
    have hpos : 0 < w := Nat.pos_of_ne_zero fun h0 => by simp [h0] at hk
    refine fun j => ⟨fun heq => ?_, fun hj => by rw [hj, pow_zero, Nat.div_one]⟩
    by_contra hj
    exact absurd heq (Nat.div_lt_self hpos (Nat.one_lt_two_pow hj)).ne'
  have hclash : Clashes t w k ↔ Blocks ws w := by
    constructor
    · rintro ⟨j, hj, -, s, hs⟩
      exact ⟨j, hj, s, (h.mem_iff _ _).mp hs⟩
    · rintro ⟨j, hj, s, hs⟩
      refine ⟨j, hj, not_lt.mp fun hlt => ?_, s, (h.mem_iff _ _).mpr hs⟩
      rw [hzero j hlt, content_zero] at hs
      cases hs
  rw [hclash] at hspec
  refine ⟨hspec.1, fun hno => ?_⟩
  rcases hspec.2 hno with ⟨t', hok, hshaped, ⟨new, hnew⟩, hin⟩
  refine ⟨t', hok, hshaped, ?_, fun r x => (hin r x).trans ?_⟩
  · rw [← hnew, List.getElem?_append_left (List.getElem?_eq_some_iff.mp h.root).1]
    exact h.root
  · have hpaths : r ∈ t.paths ↔ ∃ y, content ws r = some y :=
      mem_paths.trans (exists_congr fun y => h.mem_iff r y)
    rw [h.mem_iff, content_concat, hpaths]
    cases hcontent : content ws r with
    | some y => simp
    | none =>
        have hr1 : r ≠ 1 := by
          rintro rfl
          cases hcontent
        rw [Option.none_or]
        constructor
        · rintro (hx | ⟨-, j, hj, rfl, rfl⟩)
          · cases hx
          · have hle : w / 2 ^ k ≤ w / 2 ^ j :=
              Nat.div_le_div_left (Nat.pow_le_pow_right two_pos hj.le) (Nat.two_pow_pos j)
            rw [if_pos ⟨by omega, j, by omega, rfl⟩, if_congr (hself j) rfl rfl]
        · split
          · rename_i hbegins
            rcases hbegins with ⟨hr0, j, -, rfl⟩
            rw [if_congr (hself j) rfl rfl]
            rintro ⟨⟩
            refine .inr ⟨by simp, j, ?_, rfl, rfl⟩
            rcases Nat.lt_trichotomy j k with hlt | rfl | hgt
            · exact hlt
            · exact absurd hk hr1
            · exact absurd (hzero j hgt) hr0.ne'
          · rintro ⟨⟩

/-- A codeword of some length, as a path, with its symbol. -/
def pathOf (code : Nat × Nat → Nat) (e : Nat × Nat) : Nat × Nat :=
  (2 ^ e.1 + code e % 2 ^ e.1, asU32 e.2)

theorem path_spec {len : Nat} (code : Nat) (hlen : len ≤ 15) :
    2 ^ len + code % 2 ^ len < 65536 ∧ (2 ^ len + code % 2 ^ len) / 2 ^ len = 1 ∧
      ∀ j < len, code / 2 ^ j % 2 = (2 ^ len + code % 2 ^ len) / 2 ^ j % 2 := by
  have hmod := Nat.mod_lt code (Nat.two_pow_pos len)
  refine ⟨?_, ?_, fun j hj => ?_⟩
  · have hpow : 2 ^ len ≤ 2 ^ 15 := Nat.pow_le_pow_right two_pos hlen
    omega
  · rw [Nat.add_div_left _ (Nat.two_pow_pos len), Nat.div_eq_of_lt hmod]
  · rw [← Nat.toNat_testBit, ← Nat.toNat_testBit, Nat.testBit_two_pow_add_gt hj,
      Nat.testBit_mod_two_pow, decide_eq_true hj, Bool.true_and]

/-- Codewords of which one goes through the leaf of an earlier one. -/
def Blocked : List (Nat × Nat) → List (Nat × Nat) → Prop
  | _, [] => False
  | ws, w :: rest => Blocks ws w.1 ∨ Blocked (ws ++ [w]) rest

/-- Codewords are put in without an error unless one goes through the leaf of another. -/
theorem Owned.insertAll (codes : List Nat) {entries : List (Nat × Nat)} (h : Owned ws t)
    (hlen : ∀ e ∈ entries, e.1 ≤ 15) :
    let words := entries.map (pathOf fun e => codes[e.2]?.getD 0)
    (Blocked ws words → ∃ e, Webp.insertAll codes entries t.render = .error e) ∧
      (¬ Blocked ws words → ∃ t', Webp.insertAll codes entries t.render = .ok (render t') ∧
        Owned (ws ++ words) t') := by
  dsimp only
  induction entries generalizing ws t with
  | nil =>
      refine ⟨False.elim, fun _ => ⟨t, rfl, ?_⟩⟩
      rwa [List.map_nil, List.append_nil]
  | cons e entries ih =>
      rw [List.forall_mem_cons] at hlen
      rcases path_spec (codes[e.2]?.getD 0) hlen.1 with ⟨hlt, hone, hbits⟩
      have hstep := h.insertBits e.2 hlt hone hlen.1 hbits
      rw [List.map_cons, Blocked, Webp.insertAll]
      by_cases hblocks : Blocks ws (pathOf (fun e => codes[e.2]?.getD 0) e).1
      · rcases hstep.1 hblocks with ⟨err, herr⟩
        refine ⟨fun _ => ⟨err, ?_⟩, fun hno => absurd (.inl hblocks) hno⟩
        rw [herr]
        rfl
      · rcases hstep.2 hblocks with ⟨t', hok, howned⟩
        rcases ih howned hlen.2 with ⟨hbad, hgood⟩
        rw [hok, or_iff_right hblocks]
        refine ⟨hbad, fun hno => ?_⟩
        rcases hgood hno with ⟨t'', hok', howned'⟩
        refine ⟨t'', hok', ?_⟩
        rwa [List.append_assoc] at howned'

end Trie

end Webp
end Vaco
