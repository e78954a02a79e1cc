import Vaco.Bitstream.FieldProgram
import Vaco.Bitstream.Golomb
import Vaco.Bitstream.ReaderRefinement

/-!
# Programs over the bit writer, read back

A program writes fields of any kind one after the other; the mirrored program reads
them back.  Writer and reader cache differently, and meet in the stream of written
bits: every write appends one field, and every mirrored read of such a field returns
the written value and stops where the writer stopped.

Main results:

- `writeStep_appends`: every write appends its field.
- `write_read_inverse`: the values of every program come back.

Current gaps:

- Positions are compared until the 64-bit counts of bits saturate.
-/

namespace Vaco
namespace Bitstream

open Library BitStream

/-- One write, with a legal width and a representable value. -/
inductive WriteOp where
  | put (n : Fin 33) (v : BitVec 32)
  | putLong (n : Fin 65) (v : BitVec 64)
  | putSigned (n : Fin 33) (v : BitVec 32)
  | putZeros (n : BitVec 32)
  | ue (v : BitVec 32) (h : v.toNat ≤ 4294967294)
  | se (v : BitVec 32) (h : -2147483648 < v.toInt)
  | alignZero
deriving DecidableEq

/-- Run one write. -/
def writeStep (w : BitWriter) : WriteOp → BitWriter
  | .put n v => w.put n v
  | .putLong n v => w.putLong n v
  | .putSigned n v => w.putSigned n v
  | .putZeros n => w.putZeros n.toNat
  | .ue v _ => w.ue v
  | .se v _ => w.se v
  | .alignZero => w.alignZero

/-- Run a program of writes. -/
def writeAll (w : BitWriter) (ops : List WriteOp) : BitWriter :=
  ops.foldl writeStep w

/-- Read zeros back, 32 at a time while more are left. -/
def getZeros : Nat → BitReader → Nat → BitReader × List ReadResult
  | 0, r, left => ((r.get left).1, [.unsigned (r.get left).2.toNat])
  | fuel + 1, r, left =>
      if 32 < left then
        ((getZeros fuel (r.get 32).1 (left - 32)).1,
          .unsigned (r.get 32).2.toNat :: (getZeros fuel (r.get 32).1 (left - 32)).2)
      else
        ((r.get left).1, [.unsigned (r.get left).2.toNat])

/-- The mirrored read of a write. -/
def readBack (r : BitReader) : WriteOp → BitReader × List ReadResult
  | .put n _ => ((r.get n).1, [.unsigned (r.get n).2.toNat])
  | .putLong n _ => ((r.getLong n).1, [.unsigned (r.getLong n).2.toNat])
  | .putSigned n _ => ((r.getSigned n).1, [.signed (r.getSigned n).2.toInt])
  | .putZeros n => getZeros n.toNat r n.toNat
  | .ue _ _ => (r.ue.1, [.unsigned r.ue.2.toNat])
  | .se _ _ => (r.se.1, [.signed r.se.2.toInt])
  | .alignZero => (r.align, [])

/-- What a write has written: the value, masked to the width of the field. -/
def WriteOp.written : WriteOp → List ReadResult
  | .put n v => [.unsigned (v.toNat % 2 ^ n.val)]
  | .putLong n v => [.unsigned (v.toNat % 2 ^ n.val)]
  | .putSigned n v => [.signed (v.setWidth n.val).toInt]
  | .putZeros n => List.replicate ((n.toNat - 1) / 32 + 1) (.unsigned 0)
  | .ue v _ => [.unsigned v.toNat]
  | .se v _ => [.signed v.toInt]
  | .alignZero => []

/-! ## Fields -/

def WriteOp.width (p : Nat) : WriteOp → Nat
  | .put n _ => n
  | .putLong n _ => n
  | .putSigned n _ => n
  | .putZeros n => n.toNat
  | .ue v _ => 2 * (BitWriter.ueCode v).size - 1
  | .se v _ => 2 * (BitWriter.ueCode (BitWriter.seCode v)).size - 1
  | .alignZero => BitReader.toBoundary p

/-- The number in the field of a write. -/
def WriteOp.field : WriteOp → Nat
  | .put n v => v.toNat % 2 ^ n.val
  | .putLong n v => v.toNat % 2 ^ n.val
  | .putSigned n v => v.toNat % 2 ^ n.val
  | .putZeros _ => 0
  | .ue v _ => BitWriter.ueCode v
  | .se v _ => BitWriter.ueCode (BitWriter.seCode v)
  | .alignZero => 0

/-- Every write appends its field. -/
theorem writeStep_appends {w : BitWriter} (h : w.Wf) (op : WriteOp) :
    w.Appends (writeStep w op) (op.width w.length) op.field := by
  cases op with
  | put n v => exact h.put (Nat.lt_succ_iff.mp n.isLt) v
  | putLong n v => exact h.putLong (Nat.lt_succ_iff.mp n.isLt) v
  | putSigned n v => exact h.put (Nat.lt_succ_iff.mp n.isLt) v
  | putZeros n => exact h.putZeros n.toNat
  | ue v _ => exact h.ue v
  | se v _ => exact h.ue (BitWriter.seCode v)
  | alignZero => exact h.alignZero

/-! ## Reading fields back -/

theorem signedNumber_eq_toInt {bits : Nat → Bool} {pos n : Nat} {v : BitVec 32}
    (hfield : number bits pos n = v.toNat % 2 ^ n) :
    signedNumber bits pos n = (v.setWidth n).toInt := by
  have hvalue : (v.setWidth n).toNat = number bits pos n := by
    rw [BitVec.toNat_setWidth, hfield]
  cases n with
  | zero => simp [signedNumber, BitVec.toInt_zero_length]
  | succ n =>
      have hsign := two_pow_le_number_iff bits pos n
      rw [BitVec.toInt_eq_toNat_cond, hvalue, signedNumber]
      by_cases hbit : bits pos = true
      · have hge := hsign.mpr hbit
        rw [if_pos ⟨Nat.succ_pos n, hbit⟩, if_neg (by rw [Nat.pow_succ]; omega)]
        push_cast
        rfl
      · have hlt := hsign.not.mpr hbit
        rw [if_neg (fun hboth => hbit hboth.2), if_pos (by rw [Nat.pow_succ]; omega)]

theorem ueCode_eq {v : BitVec 32} (h : v.toNat ≤ 4294967294) :
    BitWriter.ueCode v = v.toNat + 1 := by
  unfold BitWriter.ueCode
  omega

theorem ueCode_pos (v : BitVec 32) : 0 < BitWriter.ueCode v :=
  Nat.succ_pos _

theorem size_ueCode_le (v : BitVec 32) : (BitWriter.ueCode v).size ≤ 32 := by
  rw [Nat.size_le]
  unfold BitWriter.ueCode
  omega

/-- The code number of a representable signed value is representable and stands for it. -/
theorem seValue_seCode {v : BitVec 32} (h : -2147483648 < v.toInt) :
    (BitWriter.seCode v).toNat ≤ 4294967294 ∧ BitReader.seValue (BitWriter.seCode v) = v := by
  have hlt := v.isLt
  have hint := v.toInt_eq_toNat_cond
  have hmax : max v.toInt (-2147483647) = v.toInt := max_eq_left (by omega)
  have hcode : (BitWriter.seCode v).toNat =
      if 0 < v.toInt then v.toInt.toNat * 2 - 1 else v.toInt.natAbs * 2 := by
    rw [BitWriter.seCode]
    simp only [hmax]
    split
    · rw [BitVec.toNat_ofNat, Nat.mod_eq_of_lt]
      split at hint <;> omega
    · rw [BitVec.toNat_ofNat, Nat.mod_eq_of_lt]
      split at hint <;> omega
  constructor
  · rw [hcode]
    split at hint <;> split <;> omega
  · apply BitVec.eq_of_toNat_eq
    rw [BitReader.toNat_seValue, hcode]
    by_cases hpos : 0 < v.toInt
    · rw [if_pos hpos, if_pos (by omega)]
      split at hint <;> omega
    · rw [if_neg hpos, if_neg (by omega)]
      split at hint <;> omega

namespace BitReader

variable {r : BitReader} {p : Nat}

/-- Zeros read back as zeros. -/
theorem At.getZeros (h : r.At p) {fuel left : Nat} (hleft : left ≤ 32 * (fuel + 1))
    (hfield : number (ofBytes r.data.bytes) p left = 0) :
    r.MovesTo (getZeros fuel r left).1 (p + left) ∧
      (getZeros fuel r left).2 = List.replicate ((left - 1) / 32 + 1) (.unsigned 0) := by
  induction fuel generalizing r p left with
  | zero =>
      rcases h.get (show left ≤ 32 by omega) with ⟨hmove, hvalue⟩
      have hone : (left - 1) / 32 = 0 := by omega
      refine ⟨hmove, ?_⟩
      rw [Bitstream.getZeros, hvalue, hfield, hone]
      rfl
  | succ fuel ih =>
      rw [Bitstream.getZeros]
      by_cases hmore : 32 < left
      · have hsplit := number_add (ofBytes r.data.bytes) p 32 (left - 32)
        have hsum : 32 + (left - 32) = left := by omega
        rw [hsum, hfield, eq_comm, Nat.add_eq_zero_iff, Nat.mul_eq_zero] at hsplit
        have hfirst := hsplit.1.resolve_right (by positivity)
        rcases h.get (le_refl 32) with ⟨hmove, hvalue⟩
        have hrest := ih hmove.at_pos (show left - 32 ≤ 32 * (fuel + 1) by omega)
          (by rw [hmove.data]; exact hsplit.2)
        have hchunks : (left - 1) / 32 + 1 = (left - 32 - 1) / 32 + 1 + 1 := by omega
        have hend : p + 32 + (left - 32) = p + left := by omega
        rw [if_pos hmore]
        refine ⟨hend ▸ hmove.trans hrest.1, ?_⟩
        rw [hvalue, hfirst, hrest.2, hchunks]
        rfl
      · rcases h.get (show left ≤ 32 by omega) with ⟨hmove, hvalue⟩
        have hone : (left - 1) / 32 = 0 := by omega
        rw [if_neg hmore]
        refine ⟨hmove, ?_⟩
        rw [hvalue, hfield, hone]
        rfl

/-- Every mirrored read of a field returns what was written and stops behind the
field. -/
theorem At.readBack (h : r.At p) {op : WriteOp}
    (hfield : number (ofBytes r.data.bytes) p (op.width p) = op.field) :
    r.MovesTo (readBack r op).1 (p + op.width p) ∧ (readBack r op).2 = op.written := by
  cases op with
  | put n v =>
      rcases h.get (Nat.lt_succ_iff.mp n.isLt) with ⟨hmove, hvalue⟩
      exact ⟨hmove, congrArg (fun x => [ReadResult.unsigned x]) (hvalue.trans hfield)⟩
  | putLong n v =>
      rcases h.getLong (Nat.lt_succ_iff.mp n.isLt) with ⟨hmove, hvalue⟩
      exact ⟨hmove, congrArg (fun x => [ReadResult.unsigned x]) (hvalue.trans hfield)⟩
  | putSigned n v =>
      rcases h.getSigned (Nat.lt_succ_iff.mp n.isLt) with ⟨hmove, hvalue⟩
      have hmasked := hvalue.trans (signedNumber_eq_toInt hfield)
      exact ⟨hmove, congrArg (fun x => [ReadResult.signed x]) hmasked⟩
  | putZeros n => exact h.getZeros (by omega) hfield
  | ue v hv =>
      rcases h.ue_field (ueCode_pos _) (size_ueCode_le v) hfield with ⟨hmove, hvalue⟩
      rw [ueCode_eq hv, Nat.add_sub_cancel] at hvalue
      exact ⟨hmove, congrArg (fun x => [ReadResult.unsigned x]) hvalue⟩
  | se v hv =>
      rcases seValue_seCode hv with ⟨hcode, hstands⟩
      rcases h.ue_field (ueCode_pos _) (size_ueCode_le _) hfield with ⟨hmove, hvalue⟩
      rw [ueCode_eq hcode, Nat.add_sub_cancel] at hvalue
      have hread : r.ue.2 = BitWriter.seCode v := BitVec.eq_of_toNat_eq hvalue
      have hvalue' : r.se.2 = v := (congrArg seValue hread).trans hstands
      exact ⟨hmove, congrArg (fun x : BitVec 32 => [ReadResult.signed x.toInt]) hvalue'⟩
  | alignZero => exact ⟨h.align, rfl⟩

end BitReader

/-! ## Whole programs -/

/-- The writes as a kind of code. -/
def writeCode : FieldCode WriteOp (List ReadResult) where
  write := writeStep
  read := readBack
  legal _ := True
  width := WriteOp.width
  field := WriteOp.field
  value := WriteOp.written
  appends _ h := writeStep_appends h _
  reads _ h hfield := h.readBack hfield

theorem BitWriter.bitLen_eq {w : BitWriter} (h : w.length ≤ u64Max) : w.bitLen = w.length := by
  unfold BitWriter.length at h
  unfold bitLen BitWriter.length
  omega

/-- Reading the finished bytes back returns the values written, and after every step reader and
writer stand at one place. -/
theorem write_read_inverse (ops : List WriteOp)
    (hfit : (writeAll BitWriter.new ops).finish.length < 9223372036854775808) :
    let r := BitReader.new ⟨(writeAll BitWriter.new ops).finish, hfit⟩
    Transducer.outputs readBack r ops = ops.map WriteOp.written ∧
      ∀ done todo, ops = done ++ todo →
        (Transducer.stateAfter readBack r done).overrun = false ∧
          ((writeAll BitWriter.new done).length + 64 ≤ u64Max →
            (writeAll BitWriter.new done).bitLen =
              (Transducer.stateAfter readBack r done).bitPos) := by
  intro r
  rcases writeCode.inverse (fun op _ => trivial) hfit with ⟨hvalues, hsteps⟩
  refine ⟨hvalues, ?_⟩
  intro done todo hsplit
  rcases hsteps done todo hsplit with ⟨hread, hoverrun⟩
  refine ⟨hoverrun, ?_⟩
  intro hcount
  have hposition : (Transducer.stateAfter readBack r done).bitPos =
      (writeAll BitWriter.new done).length := hread.at_pos.bitPos_eq hcount
  rw [BitWriter.bitLen_eq (by omega), hposition]

/-- A program with every kind of write, crossing byte boundaries. -/
def mixedProgram : List WriteOp :=
  [.put 3 5#32, .ue 41#32 (by decide), .se (-7) (by decide), .putLong 40 0xABCDEF0123#64,
    .putSigned 5 (-3), .putZeros 70#32, .alignZero, .put 32 0xFFFFFFFF#32]

theorem write_read_inverse_mixed :
    Transducer.outputs readBack
        (BitReader.new ⟨(writeAll BitWriter.new mixedProgram).finish, by decide +kernel⟩)
        mixedProgram =
      mixedProgram.map WriteOp.written :=
  (write_read_inverse mixedProgram (by decide +kernel)).1

end Bitstream
end Vaco
