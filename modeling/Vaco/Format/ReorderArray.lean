import Vaco.Format.TimestampFixer

/-!
# The reorder window in its array

The reorder window of a stream lies in the front of a fixed array.  A value is stored at
its place after the values behind it were moved up by one, and the least value leaves
before the others are moved down.

Main results:

- `copyWithin_up` and `copyWithin_down`: the two moves inside the array insert into and drop from
  the window.
- `pushReorderSlots_eq` and `pushReorder_slots`: a call on the array is a push into the window it
  holds, and answers as the fixer's list of values does.
- `reorder_window_sorts`: a run of calls returns nothing until the window is deep enough, loses
  nothing, and sorts what is reordered no deeper than the delay.
- `pushAllSlots_refines`: every run on the array is one on the list.
-/

namespace Vaco
namespace Format

open Library Vaco.Core

/-! ## The array -/

/-- Copy a range of a slice to a place in it, or panic where either leaves the slice. -/
def copyWithin {α : Type} (a : List α) (start stop dest : Nat) : Option (List α) :=
  if start ≤ stop ∧ stop ≤ a.length ∧ dest + (stop - start) ≤ a.length then
    some (a.take dest ++ (a.drop start).take (stop - start) ++ a.drop (dest + (stop - start)))
  else
    none

/-- The reorder window of a stream: the array, how many of its slots are in use, and the
delay. -/
structure ReorderSlots where
  reorder : List Timestamp
  reorderLen : Nat
  delay : Nat

namespace ReorderSlots

/-- An empty window. -/
def empty (delay : Nat) : ReorderSlots where
  reorder := List.replicate MAX_REORDER none
  reorderLen := 0
  delay := delay

/-- The slots in use. -/
def window (st : ReorderSlots) : List Timestamp :=
  st.reorder.take st.reorderLen

end ReorderSlots

/-- Take the least value out of the array. -/
def popReorderSlots (st : ReorderSlots) : Option (ReorderSlots × Option Timestamp) :=
  match st.reorder.head? with
  | none => some (st, none)
  | some out => do
      let reorder ← copyWithin st.reorder 1 st.reorderLen 0
      return ({ st with reorder := reorder, reorderLen := st.reorderLen - 1 }, some out)

/-- Push a timestamp into the array and return the least one once the window is deep
enough, or panic. -/
def pushReorderSlots (st : ReorderSlots) (dts : Timestamp) :
    Option (ReorderSlots × Option Timestamp) :=
  match dts with
  | none => some (st, none)
  | some v =>
      if MAX_REORDER ≤ st.reorderLen ∨ st.reorder.length < st.reorderLen then
        some (st, none)
      else do
        let pos := st.window.findIdx fun t => t.all fun x => v < x
        let reorder ← copyWithin st.reorder pos st.reorderLen (pos + 1)
        if reorder.length ≤ pos then
          return ({ st with reorder := reorder }, none)
        else
          let st := { st with
            reorder := reorder.set pos (some v)
            reorderLen := st.reorderLen + 1 }
          if st.reorderLen ≤ st.delay then
            return (st, none)
          else
            popReorderSlots st

/-- Push timestamps one after the other. -/
def pushAllSlots (st : ReorderSlots) :
    List Timestamp → Option (ReorderSlots × List (Option Timestamp))
  | [] => some (st, [])
  | dts :: rest => do
      let (st, out) ← pushReorderSlots st dts
      let (st, outs) ← pushAllSlots st rest
      return (st, out :: outs)

/-! ## Moves inside the array -/

/-- Moving the values behind a place up by one makes room for a value there. -/
theorem copyWithin_up {α : Type} {a : List α} {pos len : Nat} (hpos : pos ≤ len)
    (hlen : len < a.length) (v : α) :
    ∃ b, copyWithin a pos len (pos + 1) = some b ∧ b.length = a.length ∧
      (b.set pos v).take (len + 1) = (a.take len).insertIdx pos v := by
  have hroom : pos ≤ len ∧ len ≤ a.length ∧ pos + 1 + (len - pos) ≤ a.length := by omega
  refine ⟨_, if_pos hroom, ?_, ?_⟩
  · simp
    omega
  · apply List.ext_getElem?
    intro i
    rw [List.getElem?_insertIdx, List.getElem?_take, List.getElem?_set]
    simp only [List.getElem?_append, List.getElem?_take, List.getElem?_drop, List.length_append,
      List.length_take, List.length_drop]
    grind

/-- Moving the values behind the first one down by one drops it. -/
theorem copyWithin_down {α : Type} {a : List α} {len : Nat} (hpos : 0 < len)
    (hlen : len ≤ a.length) :
    ∃ b, copyWithin a 1 len 0 = some b ∧ b.length = a.length ∧
      b.take (len - 1) = (a.take len).tail := by
  have hroom : 1 ≤ len ∧ len ≤ a.length ∧ 0 + (len - 1) ≤ a.length := by omega
  refine ⟨_, if_pos hroom, ?_, ?_⟩
  · simp
    omega
  · rw [List.take_zero, List.nil_append, List.take_left']
    · rw [← List.drop_one, List.drop_take]
    · simp
      omega

/-! ## The window in the array -/

/-- The array holds the window: its slots in use are the present values of the window. -/
structure ReorderSlots.Holds (st : ReorderSlots) (w : List I64) : Prop where
  room : st.reorder.length = MAX_REORDER
  len : st.reorderLen = w.length
  slots : st.window = w.map some

theorem holds_empty (delay : Nat) : (ReorderSlots.empty delay).Holds [] where
  room := List.length_replicate
  len := rfl
  slots := rfl

theorem findIdx_slots (w : List I64) (v : I64) :
    ((w.map some).findIdx fun t => t.all fun x => v < x) = w.findIdx fun x => v < x := by
  induction w with
  | nil => rfl
  | cons b w ih =>
      rw [List.map_cons, List.findIdx_cons, List.findIdx_cons, ih]
      rfl

/-- Taking a value out of the array drops the head of the window. -/
theorem popReorderSlots_eq {st : ReorderSlots} {m : I64} {w : List I64}
    (h : st.Holds (m :: w)) :
    ∃ st', popReorderSlots st = some (st', some (some m)) ∧ st'.Holds w ∧
      st'.delay = st.delay := by
  have hlen : st.reorderLen = w.length + 1 := h.len
  have hfront : st.reorderLen ≤ st.reorder.length := by
    have := congrArg List.length h.slots
    simp only [ReorderSlots.window, List.length_take, List.length_map, List.length_cons] at this
    omega
  rcases copyWithin_down (Nat.lt_of_lt_of_eq (Nat.succ_pos _) hlen.symm) hfront with
    ⟨b, hcopy, hroom, hdrop⟩
  have hhead : st.reorder.head? = some (some m) := by
    have hwindow := congrArg List.head? h.slots
    rw [ReorderSlots.window, hlen, List.head?_take] at hwindow
    simpa using hwindow
  refine ⟨⟨b, st.reorderLen - 1, st.delay⟩, ?_, ⟨?_, ?_, ?_⟩, rfl⟩
  · simp [popReorderSlots, hhead, hcopy]
  · exact hroom.trans h.room
  · exact congrArg (· - 1) hlen
  · rw [ReorderSlots.window, hdrop]
    exact congrArg List.tail h.slots

/-- A call on an array that is not full is a push into its window. -/
theorem pushReorderSlots_eq {st : ReorderSlots} {w : List I64} (h : st.Holds w)
    (hw : w.length < MAX_REORDER) (v : I64) :
    ∃ st', pushReorderSlots st (some v) = some (st', (windowPush st.delay w v).2.map some) ∧
      st'.Holds (windowPush st.delay w v).1 ∧ st'.delay = st.delay := by
  have hlen := h.len
  have hroom := h.room
  have hpos : (w.findIdx fun x => v < x) ≤ st.reorderLen := hlen ▸ List.findIdx_le_length
  have hfree : st.reorderLen < st.reorder.length := by omega
  rcases copyWithin_up hpos hfree (some v) with ⟨b, hcopy, hb, hinsert⟩
  have hslots : (b.set (w.findIdx fun x => v < x) (some v)).take (st.reorderLen + 1) =
      (windowInsert w v).map some := by
    rw [hinsert, windowInsert, List.map_insertIdx, ← h.slots]
    rfl
  -- The array after the insertion holds the window after it.
  have hholds : ReorderSlots.Holds ⟨b.set (w.findIdx fun x => v < x) (some v),
      st.reorderLen + 1, st.delay⟩ (windowInsert w v) := by
    refine ⟨?_, ?_, hslots⟩
    · rw [List.length_set, hb, hroom]
    · rw [length_windowInsert, hlen]
  have hopen : ¬(MAX_REORDER ≤ st.reorderLen ∨ st.reorder.length < st.reorderLen) := by omega
  have hcall : pushReorderSlots st (some v) =
      if st.reorderLen + 1 ≤ st.delay then
        some (⟨b.set (w.findIdx fun x => v < x) (some v), st.reorderLen + 1, st.delay⟩, none)
      else
        popReorderSlots ⟨b.set (w.findIdx fun x => v < x) (some v), st.reorderLen + 1,
          st.delay⟩ := by
    have hplace : ¬b.length ≤ w.findIdx fun x => v < x := by omega
    simp only [pushReorderSlots, if_neg hopen, h.slots, findIdx_slots, hcopy,
      Option.bind_eq_bind, Option.bind_some, if_neg hplace]
    rfl
  rw [hcall, windowPush, length_windowInsert, ← hlen]
  split
  · exact ⟨_, rfl, hholds, rfl⟩
  · cases hwin : windowInsert w v with
    | nil =>
        have := length_windowInsert w v
        simp [hwin] at this
    | cons m rest => exact popReorderSlots_eq (hwin ▸ hholds)

/-- The array answers every call as the list of its values in use does. -/
theorem pushReorder_slots {st : StreamTs} {slots : ReorderSlots} (h : slots.Holds st.reorder)
    (hdelay : slots.delay = st.delay) (dts : Timestamp) :
    ∃ slots', pushReorderSlots slots dts = some (slots', (pushReorder st dts).2.map some) ∧
      slots'.Holds (pushReorder st dts).1.reorder ∧
      slots'.delay = (pushReorder st dts).1.delay := by
  cases dts with
  | none => exact ⟨slots, rfl, h, hdelay⟩
  | some v =>
      by_cases hlen : st.reorder.length < MAX_REORDER
      · rcases pushReorderSlots_eq h hlen v with ⟨slots', hcall, hnext, hsame⟩
        rw [hdelay] at hcall hnext hsame
        rw [pushReorder_eq_windowPush v hlen]
        exact ⟨slots', hcall, hnext, hsame⟩
      · have hfull : MAX_REORDER ≤ slots.reorderLen := h.len ▸ not_lt.mp hlen
        rw [pushReorder, if_pos (not_lt.mp hlen)]
        exact ⟨slots, if_pos (Or.inl hfull), h, hdelay⟩

/-! ## Runs of calls -/

theorem pushAllSlots_eq {st : ReorderSlots} {w : List I64} (h : st.Holds w)
    (hw : w.length ≤ st.delay) (hdelay : st.delay < MAX_REORDER) (l : List I64) :
    ∃ st', pushAllSlots st (l.map some) =
        some (st', (Transducer.outputs (windowPush st.delay) w l).map (Option.map some)) ∧
      st'.Holds (Transducer.stateAfter (windowPush st.delay) w l) := by
  induction l generalizing st w with
  | nil => exact ⟨st, rfl, h⟩
  | cons v l ih =>
      rcases pushReorderSlots_eq h (hw.trans_lt hdelay) v with ⟨next, hcall, hnext, hsame⟩
      have hfill : (windowPush st.delay w v).1.length ≤ next.delay :=
        hsame ▸ windowPush_length_le hw v
      rcases ih hnext hfill (hsame ▸ hdelay) with ⟨last, hrun, hlast⟩
      rw [hsame] at hrun hlast
      exact ⟨last, by simp [pushAllSlots, hcall, hrun], hlast⟩

theorem pushAllSlots_take {st last : ReorderSlots} {l : List Timestamp}
    {outs : List (Option Timestamp)} (h : pushAllSlots st l = some (last, outs)) (k : Nat) :
    ∃ mid, pushAllSlots st (l.take k) = some (mid, outs.take k) := by
  induction l generalizing st last outs k with
  | nil =>
      have houts : outs = [] := (Prod.ext_iff.mp (Option.some.inj h)).2.symm
      exact ⟨st, by simp [pushAllSlots, houts]⟩
  | cons dts l ih =>
      cases k with
      | zero => exact ⟨st, rfl⟩
      | succ k =>
          rw [pushAllSlots, Option.bind_eq_bind, Option.bind_eq_some_iff] at h
          rcases h with ⟨⟨next, out⟩, hcall, hrest⟩
          rw [Option.bind_eq_bind, Option.bind_eq_some_iff] at hrest
          rcases hrest with ⟨⟨final, rest⟩, hrun, hresult⟩
          have houts : outs = out :: rest := (Prod.ext_iff.mp (Option.some.inj hresult)).2.symm
          rcases ih hrun k with ⟨mid, hmid⟩
          exact ⟨mid, by simp [pushAllSlots, hcall, hmid, houts]⟩

theorem pushAllSlots_perm {d : Nat} (hd : d < MAX_REORDER) {st : ReorderSlots} {l : List I64}
    {outs : List (Option Timestamp)}
    (h : pushAllSlots (ReorderSlots.empty d) (l.map some) = some (st, outs)) :
    (outs.reduceOption ++ st.window).Perm (l.map some) := by
  rcases pushAllSlots_eq (holds_empty d) (Nat.zero_le d) hd l with ⟨st', hrun, hholds⟩
  rw [hrun] at h
  rcases Prod.mk.inj (Option.some.inj h) with ⟨rfl, rfl⟩
  rw [hholds.slots, List.reduceOption_map, ← List.map_append]
  exact (outputs_windowPush_perm d [] l).map some

/-- From an empty window nothing panics, the first calls return nothing, values are neither lost nor
greater than the one just pushed, and where at most the delay of them are greater before each one,
they come back sorted. -/
theorem reorder_window_sorts (d : Nat) (hd : d ≤ 15) (l : List I64) :
    ∃ st outs, pushAllSlots (ReorderSlots.empty d) (l.map some) = some (st, outs) ∧
      outs.length = l.length ∧
      (∀ i < l.length, outs[i]? = some none ↔ i < d) ∧
      (∀ k, ∃ mid, pushAllSlots (ReorderSlots.empty d) ((l.take k).map some) =
          some (mid, outs.take k) ∧
        ((outs.take k).reduceOption ++ mid.window).Perm ((l.take k).map some)) ∧
      (∀ (i : Nat) (v : I64) (t : Timestamp), l[i]? = some v → outs[i]? = some (some t) →
        ∃ x, t = some x ∧ x ≤ v) ∧
      (DepthFrom d [] l →
        outs.reduceOption = ((l.insertionSort (· ≤ ·)).take (l.length - d)).map some ∧
          st.window = ((l.insertionSort (· ≤ ·)).drop (l.length - d)).map some) := by
  have hroom : d < MAX_REORDER := Nat.lt_succ_of_le hd
  rcases pushAllSlots_eq (holds_empty d) (Nat.zero_le d) hroom l with ⟨st, hrun, hholds⟩
  have hempty : (ReorderSlots.empty d).delay = d := rfl
  rw [hempty] at hrun hholds
  refine ⟨st, _, hrun, ?_, ?_, ?_, ?_, ?_⟩
  · rw [List.length_map, Transducer.length_outputs]
  · intro i hi
    have hnone := outputs_windowPush_none_iff (w := []) (Nat.zero_le d) hi
    rw [List.getElem?_map]
    simpa using hnone
  · intro k
    rcases pushAllSlots_take hrun k with ⟨mid, hmid⟩
    rw [← List.map_take] at hmid
    exact ⟨mid, hmid, pushAllSlots_perm hroom hmid⟩
  · intro i v t hv ht
    rw [List.getElem?_map, Transducer.getElem?_outputs, hv] at ht
    rcases Option.map_eq_some_iff.mp (Option.some.inj ht) with ⟨x, hx, rfl⟩
    exact ⟨x, rfl, windowPush_le (Prod.ext rfl hx)⟩
  · intro hdepth
    rcases outputs_windowPush_sorted hdepth with ⟨hout, hkept⟩
    rw [List.reduceOption_map, hholds.slots, ← hout, ← hkept]
    exact ⟨rfl, rfl⟩

/-- Four decode times, one of them out of its place, through a window of one. -/
theorem reorder_window_sorts_four :
    ∃ st outs,
      pushAllSlots (ReorderSlots.empty 1) (([⟨0, by decide, by decide⟩, ⟨20, by decide, by decide⟩,
        ⟨10, by decide, by decide⟩, ⟨30, by decide, by decide⟩] : List I64).map some) =
          some (st, outs) ∧
      outs.reduceOption.map (Option.map Ranged.val) = [some 0, some 10, some 20] ∧
      st.window.map (Option.map Ranged.val) = [some 30] := by
  rcases reorder_window_sorts 1 (by decide) [⟨0, by decide, by decide⟩,
    ⟨20, by decide, by decide⟩, ⟨10, by decide, by decide⟩, ⟨30, by decide, by decide⟩] with
    ⟨st, outs, hrun, -, -, -, -, hsorted⟩
  rcases hsorted (ReorderDepthAtMost.depthFrom (by decide)) with ⟨hout, hkept⟩
  refine ⟨st, outs, hrun, ?_, ?_⟩
  · rw [hout]
    decide
  · rw [hkept]
    decide

theorem pushAllSlots_refines_from {st : StreamTs} {slots : ReorderSlots}
    (h : slots.Holds st.reorder) (hdelay : slots.delay = st.delay) (l : List Timestamp) :
    ∃ slots', pushAllSlots slots l =
        some (slots', (Transducer.outputs pushReorder st l).map (Option.map some)) ∧
      slots'.Holds (Transducer.stateAfter pushReorder st l).reorder := by
  induction l generalizing st slots with
  | nil => exact ⟨slots, rfl, h⟩
  | cons dts l ih =>
      rcases pushReorder_slots h hdelay dts with ⟨next, hcall, hnext, hsame⟩
      rcases ih hnext hsame with ⟨last, hrun, hlast⟩
      exact ⟨last, by simp [pushAllSlots, hcall, hrun], hlast⟩

/-- The array never panics and answers as the list of its values in use, over every run of calls. -/
theorem pushAllSlots_refines (delay : Nat) (l : List Timestamp) :
    let st := { StreamTs.default with delay := delay }
    ∃ slots, pushAllSlots (ReorderSlots.empty delay) l =
        some (slots, (Transducer.outputs pushReorder st l).map (Option.map some)) ∧
      slots.window = (Transducer.stateAfter pushReorder st l).reorder.map some := by
  intro st
  rcases @pushAllSlots_refines_from st _ (holds_empty delay) rfl l with ⟨slots, hrun, hholds⟩
  exact ⟨slots, hrun, hholds.slots⟩

end Format
end Vaco
