import Vaco.Nalu.Framing
import Vaco.Sched.Wire

/-!
# Conversion between the two framings

The worst size of the result is charged before anything is written.  A unit that its length field
cannot say is refused; a length that cannot be ends a sample without an error.

Main results:

- `appended_le_worstSample`: a conversion writes no more than is charged.
- `framing_conversion_preserves`: units come through both ways.
-/

namespace Vaco
namespace Nalu

open Library BitStream ByteWords Bitstream Vaco.Core
open Sched (Budget)

/-! ## The conversions -/

/-- Saturating multiplication of unsigned 64-bit values. -/
def satMulU64 (a b : Nat) : Nat :=
  min (a * b) u64Max

def worstStream (sample : Bytes) (size : LengthSize) : Nat :=
  satAddU64 sample.length (satMulU64 ((sample.length + size.bytes - 1) / size.bytes) 4)

def worstSample (stream : Bytes) (size : LengthSize) : Nat :=
  satAddU64 stream.length (satMulU64 ((stream.length + 2) / 3) size.bytes)

/-- Append units behind start codes of four bytes. -/
def appendAnnexb : List Bytes → Bytes → Nat → Bytes × Nat
  | [], out, count => (out, count)
  | nal :: rest, out, count => appendAnnexb rest (out ++ [0, 0, 0, 1] ++ nal) (count + 1)

/-- Rewrite a sample as a byte stream. -/
def lengthPrefixedToAnnexb (sample : Bytes) (size : LengthSize) (out : Bytes) (budget : Budget) :
    Bytes × Budget × Except Error Nat :=
  match budget.charge (worstStream sample size) with
  | .error e => (out, budget, .error e.toError)
  | .ok budget =>
      let appended := appendAnnexb (units sample (.lengthPrefixed size)) out 0
      (appended.1, budget, .ok appended.2)

def appendPrefixed (size : LengthSize) : List Bytes → Bytes → Nat → Bytes × Except Error Nat
  | [], out, count => (out, .ok count)
  | nal :: rest, out, count =>
      if size.maxUnitLen < nal.length then
        (out, .error (.invalidData "NAL unit is longer than the length prefix can express"))
      else
        appendPrefixed size rest (out ++ beBytes size.bytes nal.length ++ nal) (count + 1)

/-- Rewrite a byte stream as a sample. -/
def annexbToLengthPrefixed (stream : Bytes) (size : LengthSize) (out : Bytes) (budget : Budget) :
    Bytes × Budget × Except Error Nat :=
  match budget.charge (worstSample stream size) with
  | .error e => (out, budget, .error e.toError)
  | .ok budget =>
      let appended := appendPrefixed size (units stream .annexB) out 0
      (appended.1, budget, appended.2)

/-! ## What is written -/

variable {size : LengthSize} {stream sample out : Bytes} {budget budget' : Budget}
  {list : List Bytes} {count : Nat}

theorem appendAnnexb_eq (list : List Bytes) (out : Bytes) (count : Nat) :
    appendAnnexb list out count =
      (out ++ frame (list.map fun unit => (true, unit)), count + list.length) := by
  induction list generalizing out count with
  | nil => rw [appendAnnexb, List.map_nil, frame, List.append_nil, List.length_nil, Nat.add_zero]
  | cons nal list ih =>
      rw [appendAnnexb, ih, List.map_cons, frame, List.length_cons, List.append_assoc,
        List.append_assoc, Nat.add_assoc, Nat.add_comm 1]
      rfl

theorem appendPrefixed_of_fits (h : ∀ unit ∈ list, unit.length ≤ size.maxUnitLen) (out : Bytes)
    (count : Nat) :
    appendPrefixed size list out count = (out ++ prefixed size list, .ok (count + list.length)) := by
  induction list generalizing out count with
  | nil =>
      rw [appendPrefixed, prefixed, List.flatMap_nil, List.append_nil, List.length_nil, Nat.add_zero]
  | cons nal list ih =>
      rcases List.forall_mem_cons.mp h with ⟨hnal, hlist⟩
      rw [appendPrefixed, if_neg (not_lt.mpr hnal), ih hlist, prefixed_cons, List.length_cons,
        List.append_assoc, List.append_assoc, Nat.add_assoc, Nat.add_comm 1]

theorem lengthPrefixedToAnnexb_eq (h : budget.charge (worstStream sample size) = .ok budget')
    (out : Bytes) :
    lengthPrefixedToAnnexb sample size out budget =
      (out ++ frame ((units sample (.lengthPrefixed size)).map fun unit => (true, unit)), budget',
        .ok (units sample (.lengthPrefixed size)).length) := by
  rw [lengthPrefixedToAnnexb, h]
  dsimp only
  rw [appendAnnexb_eq, Nat.zero_add]

theorem annexbToLengthPrefixed_of_fits
    (h : budget.charge (worstSample stream size) = .ok budget')
    (hfits : ∀ unit ∈ units stream .annexB, unit.length ≤ size.maxUnitLen) (out : Bytes) :
    annexbToLengthPrefixed stream size out budget =
      (out ++ prefixed size (units stream .annexB), budget',
        .ok (units stream .annexB).length) := by
  rw [annexbToLengthPrefixed, h]
  dsimp only
  rw [appendPrefixed_of_fits hfits, Nat.zero_add]

theorem ne_nil_of_terminated {unit : Bytes} (h : Terminated unit) : unit ≠ [] := by
  rcases h with ⟨last, hlast, -⟩
  rintro rfl
  cases hlast

theorem units_frame_long (h : ∀ unit ∈ list, scan unit = none ∧ Terminated unit) :
    units (frame (list.map fun unit => (true, unit))) .annexB = list := by
  rw [units, NalIter.collect_frame]
  · rw [List.map_map]
    exact List.map_id list
  · intro framed hframed
    rcases List.mem_map.mp hframed with ⟨unit, hunit, rfl⟩
    exact h unit hunit

/-! ## What is charged -/

theorem length_frame_long (list : List Bytes) :
    (frame (list.map fun unit => (true, unit))).length =
      (list.map List.length).sum + 4 * list.length := by
  induction list with
  | nil => rfl
  | cons unit list ih =>
      rw [List.map_cons, frame, List.length_append, length_startCode, List.length_append, ih,
        List.map_cons, List.sum_cons, List.length_cons]
      rw [Bool.toNat_true]
      omega

theorem lengthUnits_sum (size : LengthSize) (buf : Bytes) :
    ((lengthUnits size buf).map List.length).sum + size.bytes * (lengthUnits size buf).length ≤
      buf.length := by
  fun_induction lengthUnits size buf with
  | case1 => exact Nat.zero_le _
  | case2 => exact Nat.zero_le _
  | case3 buf hlong len rest hlen ih =>
      have hrest : rest.length = buf.length - size.bytes := List.length_drop
      rw [List.length_drop] at ih
      rw [List.map_cons, List.sum_cons, List.length_cons, List.length_take, Nat.mul_add_one]
      omega

/-- A byte stream that was written takes no more than what was charged. -/
theorem appended_le_worstStream (sample : Bytes) (size : LengthSize)
    (h : (frame ((units sample (.lengthPrefixed size)).map fun unit => (true, unit))).length ≤
      u64Max) :
    (frame ((units sample (.lengthPrefixed size)).map fun unit => (true, unit))).length ≤
      worstStream sample size := by
  have hsum := lengthUnits_sum size sample
  have hcount : (units sample (.lengthPrefixed size)).length ≤
      (sample.length + size.bytes - 1) / size.bytes := by
    rw [Nat.le_div_iff_mul_le size.bytes_pos, Nat.mul_comm]
    have hpos := size.bytes_pos
    rw [units]
    omega
  rw [length_frame_long] at h ⊢
  rw [worstStream, satAddU64, satMulU64]
  rw [units] at h hcount ⊢
  omega

theorem length_prefixed_eq (size : LengthSize) (list : List Bytes) :
    (prefixed size list).length = (list.map List.length).sum + size.bytes * list.length := by
  induction list with
  | nil => rfl
  | cons unit list ih =>
      rw [prefixed_cons, List.length_append, length_beBytes, List.length_append, ih, List.map_cons,
        List.sum_cons, List.length_cons, Nat.mul_add_one]
      omega

theorem appendPrefixed_prefix (size : LengthSize) (list : List Bytes) (out : Bytes) (count : Nat) :
    ∃ done, done <+: list ∧ (appendPrefixed size list out count).1 = out ++ prefixed size done := by
  induction list generalizing out count with
  | nil => exact ⟨[], List.nil_prefix, (List.append_nil out).symm⟩
  | cons nal list ih =>
      rw [appendPrefixed]
      split
      · exact ⟨[], List.nil_prefix, (List.append_nil out).symm⟩
      · rcases ih (out ++ beBytes size.bytes nal.length ++ nal) (count + 1) with
          ⟨done, hprefix, hout⟩
        refine ⟨nal :: done, List.cons_prefix_cons.mpr ⟨rfl, hprefix⟩, ?_⟩
        rw [hout, prefixed_cons, List.append_assoc, List.append_assoc]

/-- A sample that was written takes no more than what was charged. -/
theorem appended_le_worstSample {done : List Bytes} (hdone : done <+: units stream .annexB)
    (h : (prefixed size done).length ≤ u64Max) :
    (prefixed size done).length ≤ worstSample stream size := by
  have hsum : ∀ list : List Bytes, (list.map fun unit => unit.length + 3).sum =
      (list.map List.length).sum + 3 * list.length := by
    intro list
    induction list with
    | nil => rfl
    | cons unit list ih =>
        rw [List.map_cons, List.sum_cons, ih, List.map_cons, List.sum_cons, List.length_cons]
        omega
  have hall := (NalIter.nalUnits_spec stream).2
  rcases hdone with ⟨rest, hrest⟩
  rw [units] at hrest
  rw [← hrest, hsum, List.map_append, List.sum_append, List.length_append] at hall
  have hcount : done.length ≤ (stream.length + 2) / 3 := by
    omega
  have hmul : size.bytes * done.length ≤ (stream.length + 2) / 3 * size.bytes := by
    rw [Nat.mul_comm]
    exact Nat.mul_le_mul_right _ hcount
  rw [length_prefixed_eq] at h ⊢
  rw [worstSample, satAddU64, satMulU64]
  omega

theorem charged_lengthPrefixedToAnnexb (sample : Bytes) (size : LengthSize) (out : Bytes)
    (budget : Budget) (h : (lengthPrefixedToAnnexb sample size out budget).1.length ≤ u64Max) :
    (lengthPrefixedToAnnexb sample size out budget).1.length - out.length ≤
      (lengthPrefixedToAnnexb sample size out budget).2.1.committed - budget.committed := by
  cases hcharge : budget.charge (worstStream sample size) with
  | error e =>
      rw [lengthPrefixedToAnnexb, hcharge]
      simp
  | ok budget' =>
      have hcommitted := (Sched.Budget.charge_eq_ok hcharge).1
      rw [lengthPrefixedToAnnexb_eq hcharge, List.length_append] at h ⊢
      have hworst := appended_le_worstStream sample size (Nat.le_trans (Nat.le_add_left _ _) h)
      rw [hcommitted]
      dsimp only
      omega

theorem charged_annexbToLengthPrefixed (stream : Bytes) (size : LengthSize) (out : Bytes)
    (budget : Budget) (h : (annexbToLengthPrefixed stream size out budget).1.length ≤ u64Max) :
    (annexbToLengthPrefixed stream size out budget).1.length - out.length ≤
      (annexbToLengthPrefixed stream size out budget).2.1.committed - budget.committed := by
  cases hcharge : budget.charge (worstSample stream size) with
  | error e =>
      rw [annexbToLengthPrefixed, hcharge]
      simp
  | ok budget' =>
      have hcommitted := (Sched.Budget.charge_eq_ok hcharge).1
      rw [annexbToLengthPrefixed, hcharge] at h ⊢
      dsimp only at h ⊢
      rcases appendPrefixed_prefix size (units stream .annexB) out 0 with ⟨done, hdone, hout⟩
      rw [hout, List.length_append] at h ⊢
      have hworst := appended_le_worstSample hdone (Nat.le_trans (Nat.le_add_left _ _) h)
      rw [hcommitted]
      dsimp only
      omega

/-! ## Both ways -/

/-- A sample of units behind their lengths and nothing else. -/
def WellFormed (size : LengthSize) (sample : Bytes) : Prop :=
  prefixed size (units sample (.lengthPrefixed size)) = sample

/-- Units that fit come through from a byte stream to a sample and back; a sample of escaped units
comes back byte for byte; and what is charged covers what is appended. -/
theorem framing_conversion_preserves :
    (∀ (stream : Bytes) (size : LengthSize) (out : Bytes) (budget budget' : Budget),
      (∀ unit ∈ units stream .annexB, unit.length ≤ size.maxUnitLen) →
      budget.charge (worstSample stream size) = .ok budget' →
      ∃ sample, annexbToLengthPrefixed stream size out budget =
          (out ++ sample, budget', .ok (units stream .annexB).length) ∧
        units sample (.lengthPrefixed size) = units stream .annexB ∧
        ∀ (out : Bytes) (budget budget' : Budget),
          budget.charge (worstStream sample size) = .ok budget' →
          ∃ back, lengthPrefixedToAnnexb sample size out budget =
              (out ++ back, budget', .ok (units stream .annexB).length) ∧
            units back .annexB = units stream .annexB) ∧
    (∀ (sample : Bytes) (size : LengthSize) (out : Bytes) (budget budget' : Budget),
      WellFormed size sample →
      (∀ unit ∈ units sample (.lengthPrefixed size),
        violatesEbspConstraint unit = false ∧ Terminated unit) →
      budget.charge (worstStream sample size) = .ok budget' →
      ∃ stream, lengthPrefixedToAnnexb sample size out budget =
          (out ++ stream, budget', .ok (units sample (.lengthPrefixed size)).length) ∧
        ∀ (out : Bytes) (budget budget' : Budget),
          budget.charge (worstSample stream size) = .ok budget' →
          annexbToLengthPrefixed stream size out budget =
            (out ++ sample, budget', .ok (units sample (.lengthPrefixed size)).length)) ∧
    (∀ (sample : Bytes) (size : LengthSize) (out : Bytes) (budget : Budget),
      (lengthPrefixedToAnnexb sample size out budget).1.length ≤ u64Max →
      (lengthPrefixedToAnnexb sample size out budget).1.length - out.length ≤
        (lengthPrefixedToAnnexb sample size out budget).2.1.committed - budget.committed) ∧
    ∀ (stream : Bytes) (size : LengthSize) (out : Bytes) (budget : Budget),
      (annexbToLengthPrefixed stream size out budget).1.length ≤ u64Max →
      (annexbToLengthPrefixed stream size out budget).1.length - out.length ≤
        (annexbToLengthPrefixed stream size out budget).2.1.committed - budget.committed := by
  refine ⟨?_, ?_, charged_lengthPrefixedToAnnexb, charged_annexbToLengthPrefixed⟩
  · intro stream size out budget budget' hfits hcharge
    have hall := (NalIter.nalUnits_spec stream).1
    have hsample : units (prefixed size (units stream .annexB)) (.lengthPrefixed size) =
        units stream .annexB :=
      lengthUnits_prefixed fun unit hunit =>
        ⟨ne_nil_of_terminated (hall unit hunit).2, hfits unit hunit⟩
    refine ⟨_, annexbToLengthPrefixed_of_fits hcharge hfits out, hsample, ?_⟩
    intro out budget budget' hcharge
    refine ⟨_, ?_, units_frame_long hall⟩
    rw [lengthPrefixedToAnnexb_eq hcharge, hsample]
  · intro sample size out budget budget' hwell hunits hcharge
    refine ⟨_, lengthPrefixedToAnnexb_eq hcharge out, ?_⟩
    intro out budget budget' hcharge
    have hlong : ∀ unit ∈ units sample (.lengthPrefixed size),
        scan unit = none ∧ Terminated unit := fun unit hunit =>
      ⟨scan_of_not_violatesEbspConstraint (hunits unit hunit).1, (hunits unit hunit).2⟩
    have hback := units_frame_long hlong
    rw [annexbToLengthPrefixed_of_fits hcharge, hback, hwell]
    rw [hback]
    exact fun unit hunit => (lengthUnits_mem hunit).2

/-- A length of two bytes. -/
def twoBytes : LengthSize :=
  ⟨2, by decide⟩

/-- Two units come through to lengths of two bytes and back. -/
theorem framing_conversion_preserves_two :
    let stream := frame [(true, [0x67, 66, 0, 10]), (false, [0x68, 0xCE, 0x80])]
    let budget := Budget.new ⟨64, 64, by decide⟩
    ∃ sample back, annexbToLengthPrefixed stream twoBytes [] budget =
        (sample, { budget with committed := 24 }, .ok 2) ∧
      units sample (.lengthPrefixed twoBytes) = [[0x67, 66, 0, 10], [0x68, 0xCE, 0x80]] ∧
      lengthPrefixedToAnnexb sample twoBytes [] budget =
        (back, { budget with committed := 35 }, .ok 2) ∧
      units back .annexB = [[0x67, 66, 0, 10], [0x68, 0xCE, 0x80]] := by
  intro stream budget
  have hunits : units stream .annexB = [[0x67, 66, 0, 10], [0x68, 0xCE, 0x80]] := by
    refine NalIter.collect_frame fun unit hunit => ?_
    fin_cases hunit <;> exact ⟨rfl, _, rfl, by decide⟩
  have hfits : ∀ unit ∈ units stream .annexB, unit.length ≤ twoBytes.maxUnitLen := by
    rw [hunits]
    decide
  have hthere : budget.charge (worstSample stream twoBytes) =
      .ok { budget with committed := 24 } := by decide
  rcases framing_conversion_preserves.1 stream twoBytes [] budget _ hfits hthere with
    ⟨sample, hsample, hunits', hback⟩
  have hprefixed := hsample.symm.trans (annexbToLengthPrefixed_of_fits hthere hfits [])
  rw [List.nil_append, List.nil_append, Prod.mk.injEq, hunits] at hprefixed
  rcases hprefixed with ⟨rfl, -⟩
  rw [hunits] at hsample hunits' hback
  rcases hback [] budget { budget with committed := 35 } (by decide) with ⟨back, hstream, hsame⟩
  exact ⟨_, back, hsample, hunits', hstream, hsame⟩

end Nalu
end Vaco
