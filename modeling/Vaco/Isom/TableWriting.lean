import Vaco.Isom.SampleAccess
import Vaco.Isom.Writer

/-!
# Reading the tables that were written

A written table states its count and its entries at a fixed width, so the parsed table has
exactly the entries it was written from.

Main results:

- `getWord_writtenTable`: every word of every entry is read back.
-/

namespace Vaco
namespace Isom

open Library BitStream ByteWords RunLength
open Vaco.Core (Error)

/-! ## Tables of any entries -/

theorem beNat_be32 {v : Nat} (h : v ≤ u32Max) : beNat (be32 v) = v :=
  beNat_beBytes (Nat.lt_succ_of_le h)

theorem entryList_eq {α : Type*} {entry : Nat → α} {l : List α}
    (h : ∀ i a, l[i]? = some a → entry i = a) : entryList l.length entry = l := by
  apply List.ext_getElem?
  intro i
  by_cases hi : i < l.length
  · rw [getElem?_entryList hi, h i _ (List.getElem?_eq_getElem hi), List.getElem?_eq_getElem hi]
  · rw [List.getElem?_eq_none (by rw [length_entryList]; exact not_lt.mp hi),
      List.getElem?_eq_none (not_lt.mp hi)]

section Entries

variable {α : Type*} {entry : α → Bytes} {width : Nat} {entries : List α}

theorem length_flatMap_entry (h : ∀ a, (entry a).length = width) (entries : List α) :
    (entries.flatMap entry).length = entries.length * width := by
  rw [List.length_flatMap]
  simp [h]

theorem slice_flatMap (h : ∀ a, (entry a).length = width) {i : Nat} {a : α}
    (ha : entries[i]? = some a) :
    ((entries.flatMap entry).drop (i * width)).take width = entry a := by
  induction entries generalizing i with
  | nil => cases ha
  | cons first entries ih =>
      rw [List.flatMap_cons]
      cases i with
      | zero =>
          rw [List.getElem?_cons_zero] at ha
          rw [Nat.zero_mul, List.drop_zero, ← Option.some.inj ha, List.take_left' (h first)]
      | succ i =>
          rw [List.getElem?_cons_succ] at ha
          rw [Nat.succ_mul, Nat.add_comm, ← List.drop_drop, List.drop_left' (h first)]
          exact ih ha

theorem countAndRest_table (hlen : entries.length ≤ u32Max) (entry : α → Bytes) :
    countAndRest (Writer.table entry entries) = (entries.length, entries.flatMap entry) := by
  rw [countAndRest, Writer.table, take_lenField, drop_lenField, beNat_lenField hlen,
    if_pos (by rw [List.length_append, length_lenField]; omega)]

def writtenTable (entry : α → Bytes) (width : Nat) (entries : List α) : EntryTable :=
  EntryTable.new (entries.flatMap entry) width entries.length

theorem writtenTable_len (hwidth : width ≠ 0) (h : ∀ a, (entry a).length = width)
    (hlen : entries.length ≤ u32Max) : (writtenTable entry width entries).len = entries.length := by
  rw [writtenTable, EntryTable.new_len hwidth, length_flatMap_entry h,
    Nat.mul_div_cancel _ (Nat.pos_of_ne_zero hwidth), Nat.min_eq_left hlen, Nat.min_self]

/-- Every word of every entry is read back. -/
theorem getWord_writtenTable (hwidth : width ≠ 0) (h : ∀ a, (entry a).length = width)
    (hlen : entries.length ≤ u32Max) {i : Nat} {a : α} (ha : entries[i]? = some a)
    (before word after : Bytes) (hsplit : entry a = before ++ word ++ after) :
    (writtenTable entry width entries).getWord word.length i before.length =
      some (beNat word) := by
  have hi : i < entries.length := (List.getElem?_eq_some_iff.mp ha).1
  have hentry : (writtenTable entry width entries).entry i = some (entry a) := by
    rw [EntryTable.entry, writtenTable_len hwidth h hlen, if_neg (not_le.mpr hi), writtenTable,
      EntryTable.new_stride hwidth, EntryTable.new, if_neg hwidth]
    exact congrArg some (slice_flatMap h ha)
  rw [EntryTable.getWord, hentry, Option.bind_some, hsplit, List.append_assoc, List.drop_left,
    List.take_left, if_neg (by rw [List.length_append]; omega)]

end Entries

/-! ## The tables of a track -/

theorem pairEntry_writtenTable {β : Type*} (second : β → Bytes)
    (hsecond : ∀ b, (second b).length = 4) {runs : List (Nat × β)} (hlen : runs.length ≤ u32Max)
    {i : Nat} {run : Nat × β} (hrun : runs[i]? = some run) (hcount : run.1 ≤ u32Max) :
    pairEntry (writtenTable (fun run => be32 run.1 ++ second run.2) 8 runs) i =
      (run.1, beNat (second run.2)) := by
  have hwidth : ∀ run : Nat × β, (be32 run.1 ++ second run.2).length = 8 := by
    intro run
    rw [List.length_append, length_beBytes, hsecond]
  have hfst := getWord_writtenTable (by decide) hwidth hlen hrun [] (be32 run.1)
    (second run.2) rfl
  have hsnd := getWord_writtenTable (by decide) hwidth hlen hrun (be32 run.1) (second run.2) []
    (List.append_nil _).symm
  rw [length_beBytes, List.length_nil] at hfst
  rw [length_beBytes, hsecond] at hsnd
  rw [pairEntry, EntryTable.getU32, EntryTable.getU32, hfst, hsnd, beNat_be32 hcount]
  rfl

namespace TimeToSample

/-- A parsed table has the runs it was written from. -/
theorem entries_written {runs : List (Nat × Nat)} (hlen : runs.length ≤ u32Max)
    (hruns : ∀ run ∈ runs, run.1 ≤ u32Max ∧ run.2 ≤ u32Max) (version flags : Nat) :
    (parse
      { version := version
        flags := flags
        body := Writer.table (fun run => be32 run.1 ++ be32 run.2) runs }).entries = runs := by
  have htable : (parse
      { version := version
        flags := flags
        body := Writer.table (fun run => be32 run.1 ++ be32 run.2) runs }).runs =
      writtenTable (fun run => be32 run.1 ++ be32 run.2) 8 runs := by
    rw [parse, writtenTable]
    dsimp only
    rw [countAndRest_table hlen]
  rw [entries, htable, writtenTable_len (by decide) (fun run => by
    rw [List.length_append, length_beBytes, length_beBytes]) hlen]
  apply entryList_eq
  intro i run hrun
  have hbounds := hruns run (List.mem_of_getElem? hrun)
  rw [pairEntry_writtenTable be32 (fun _ => length_beBytes 4 _) hlen hrun hbounds.1,
    beNat_be32 hbounds.2]

end TimeToSample

end Isom
end Vaco
