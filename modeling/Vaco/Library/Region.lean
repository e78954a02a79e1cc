import Mathlib.Tactic

/-!
# Blocks of a buffer

A block is read from a buffer at an offset and written back at one, both only where it lies in
the buffer.  What is written is read back, and blocks that lie apart do not touch each other, so a
list of blocks written one after the other can be read block by block.

Main results:

- `readBlock_writeBlock`: a block that is written is read back.
- `readBlock_writeBlock_of_apart`: a block that lies apart is as it was.
-/

namespace Vaco
namespace Library
namespace Region

variable {α : Type*}

/-- The entries from an offset on, if the buffer has them. -/
def readBlock (buf : List α) (offset n : Nat) : Option (List α) :=
  if offset + n ≤ buf.length then some ((buf.drop offset).take n) else none

def writeBlock (buf : List α) (offset : Nat) (block : List α) : Option (List α) :=
  if offset + block.length ≤ buf.length then
    some (buf.take offset ++ block ++ buf.drop (offset + block.length))
  else
    none

/-- Two blocks of lengths lie apart. -/
def Apart (offset n offset' n' : Nat) : Prop :=
  offset + n ≤ offset' ∨ offset' + n' ≤ offset

/-- Put blocks at offsets, one after the other. -/
def writeAll (buf : List α) : List (Nat × List α) → Option (List α)
  | [] => some buf
  | (offset, block) :: rest =>
      match writeBlock buf offset block with
      | none => none
      | some buf => writeAll buf rest

variable {buf buf' : List α} {offset n : Nat} {block : List α}

theorem readBlock_of_le (h : offset + n ≤ buf.length) :
    readBlock buf offset n = some ((buf.drop offset).take n) :=
  if_pos h

theorem length_of_readBlock (h : readBlock buf offset n = some block) : block.length = n := by
  rw [readBlock] at h
  split at h
  · cases h
    rw [List.length_take, List.length_drop]
    omega
  · cases h

theorem exists_writeBlock (h : offset + block.length ≤ buf.length) :
    ∃ buf', writeBlock buf offset block = some buf' :=
  ⟨_, if_pos h⟩

theorem length_of_writeBlock (h : writeBlock buf offset block = some buf') :
    buf'.length = buf.length := by
  rw [writeBlock] at h
  split at h
  · rename_i hfits
    cases h
    rw [List.length_append, List.length_append, List.length_take, List.length_drop]
    omega
  · cases h

theorem getElem?_of_writeBlock (h : writeBlock buf offset block = some buf') (i : Nat) :
    buf'[i]? = if offset ≤ i ∧ i < offset + block.length then block[i - offset]? else buf[i]? := by
  rw [writeBlock] at h
  split at h
  · rename_i hfits
    cases h
    have hbefore : (buf.take offset).length = offset := by
      rw [List.length_take]
      omega
    by_cases hlt : i < offset
    · rw [if_neg (by omega), List.append_assoc, List.getElem?_append_left (by omega),
        List.getElem?_take_of_lt hlt]
    · rw [List.append_assoc, List.getElem?_append_right (by omega), hbefore]
      by_cases hin : i < offset + block.length
      · rw [if_pos ⟨by omega, hin⟩, List.getElem?_append_left (by omega)]
      · rw [if_neg (by omega), List.getElem?_append_right (by omega), List.getElem?_drop]
        congr 1
        omega
  · cases h

/-- A block that is written is read back. -/
theorem readBlock_writeBlock (h : writeBlock buf offset block = some buf') :
    readBlock buf' offset block.length = some block := by
  have hlength := length_of_writeBlock h
  have hfits : offset + block.length ≤ buf.length := by
    rw [writeBlock] at h
    split at h
    · assumption
    · cases h
  rw [readBlock_of_le (by omega)]
  refine congrArg some (List.ext_getElem? fun i => ?_)
  rw [List.getElem?_take, List.getElem?_drop, getElem?_of_writeBlock h]
  by_cases hin : i < block.length
  · rw [if_pos hin, if_pos ⟨by omega, by omega⟩, Nat.add_sub_cancel_left]
  · rw [if_neg hin, List.getElem?_eq_none (by omega)]

/-- A block that lies apart is as it was. -/
theorem readBlock_writeBlock_of_apart {offset' n' : Nat}
    (h : writeBlock buf offset block = some buf')
    (hapart : Apart offset' n' offset block.length) :
    readBlock buf' offset' n' = readBlock buf offset' n' := by
  rw [readBlock, readBlock, length_of_writeBlock h]
  split
  · refine congrArg some (List.ext_getElem? fun i => ?_)
    rw [List.getElem?_take, List.getElem?_take, List.getElem?_drop, List.getElem?_drop,
      getElem?_of_writeBlock h]
    by_cases hin : i < n'
    · rw [if_pos hin, if_pos hin, if_neg]
      rcases hapart with hbefore | hafter
      · omega
      · omega
    · rw [if_neg hin, if_neg hin]
  · rfl

theorem readBlock_writeAll_of_apart {blocks : List (Nat × List α)} {offset n : Nat}
    (h : writeAll buf blocks = some buf')
    (hapart : ∀ b ∈ blocks, Apart offset n b.1 b.2.length) :
    readBlock buf' offset n = readBlock buf offset n := by
  induction blocks generalizing buf with
  | nil =>
      cases h
      rfl
  | cons b blocks ih =>
      rcases List.forall_mem_cons.mp hapart with ⟨hfirst, hrest⟩
      rw [writeAll] at h
      split at h
      · cases h
      · rename_i first hwrite
        rw [ih h hrest, readBlock_writeBlock_of_apart hwrite hfirst]

/-- Blocks that lie apart can all be written, and each is read back. -/
theorem writeAll_spec {blocks : List (Nat × List α)}
    (hfits : ∀ b ∈ blocks, b.1 + b.2.length ≤ buf.length)
    (hapart : blocks.Pairwise fun b b' => Apart b.1 b.2.length b'.1 b'.2.length) :
    ∃ buf', writeAll buf blocks = some buf' ∧ buf'.length = buf.length ∧
      ∀ b ∈ blocks, readBlock buf' b.1 b.2.length = some b.2 := by
  induction blocks generalizing buf with
  | nil => exact ⟨buf, rfl, rfl, fun _ h => nomatch h⟩
  | cons b blocks ih =>
      rcases List.forall_mem_cons.mp hfits with ⟨hfirst, hrest⟩
      rcases List.pairwise_cons.mp hapart with ⟨hfirstApart, hrestApart⟩
      rcases exists_writeBlock hfirst with ⟨first, hwrite⟩
      have hlength := length_of_writeBlock hwrite
      rcases ih (by rw [hlength]; exact hrest) hrestApart with ⟨buf', hall, hlength', hread⟩
      refine ⟨buf', ?_, hlength'.trans hlength, List.forall_mem_cons.mpr ⟨?_, hread⟩⟩
      · rw [writeAll, hwrite]
        exact hall
      · rw [readBlock_writeAll_of_apart hall hfirstApart, readBlock_writeBlock hwrite]

end Region
end Library
end Vaco
