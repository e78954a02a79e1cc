import Vaco.Bitstream.BitWriter
import Vaco.Library.Transducer

/-!
# Programs of fields, written and read back

A kind of code writes its operations as fields, one behind the other, and reads every
field back with a mirrored operation.  Writer and reader meet in the stream of written
bits: if every write appends one field and every mirrored read of such a field returns
what was written, then whole programs come back.

Main results:

- `inverse`: over the finished bytes of a program the values come back.
-/

namespace Vaco
namespace Bitstream

open Library BitStream

/-- A kind of code: how its legal operations are written as fields, and how they are read
back. -/
structure FieldCode (Op Value : Type) where
  write : BitWriter → Op → BitWriter
  read : BitReader → Op → BitReader × Value
  legal : Op → Prop
  width : Nat → Op → Nat
  field : Op → Nat
  value : Op → Value
  appends : ∀ {w : BitWriter} {op}, legal op → w.Wf →
    w.Appends (write w op) (width w.length op) (field op)
  reads : ∀ {r : BitReader} {p op}, legal op → r.At p →
    number (ofBytes r.data.bytes) p (width p op) = field op →
    r.MovesTo (read r op).1 (p + width p op) ∧ (read r op).2 = value op

namespace FieldCode

variable {Op Value : Type} (code : FieldCode Op Value)

/-- Write a program. -/
def writeAll (w : BitWriter) (ops : List Op) : BitWriter :=
  ops.foldl code.write w

variable {code} {w : BitWriter} {ops : List Op}

/-- A program of writes keeps the bits written before it. -/
theorem writeAll_keeps (h : w.Wf) (hlegal : ∀ op ∈ ops, code.legal op) :
    (code.writeAll w ops).Wf ∧ w.length ≤ (code.writeAll w ops).length ∧
      ∀ i < w.length, (code.writeAll w ops).bit i = w.bit i := by
  induction ops generalizing w with
  | nil => exact ⟨h, le_rfl, fun _ _ => rfl⟩
  | cons op ops ih =>
      have hstep := code.appends (hlegal op List.mem_cons_self) h
      have hlength := hstep.length
      rcases ih hstep.wf fun o ho => hlegal o (List.mem_cons_of_mem _ ho) with ⟨hwf, hle, hkeeps⟩
      rw [writeAll, List.foldl_cons]
      refine ⟨hwf, le_trans (by omega) hle, ?_⟩
      intro i hi
      exact (hkeeps i (by omega)).trans (hstep.keeps i hi)

/-- A program read back where its bits begin returns what was written and stops where the writer
did. -/
theorem reads_all {r : BitReader} (hw : w.Wf) (hlegal : ∀ op ∈ ops, code.legal op)
    (h : r.At w.length)
    (hdata : ∀ i < (code.writeAll w ops).length,
      ofBytes r.data.bytes i = (code.writeAll w ops).bit i) :
    r.MovesTo (Transducer.stateAfter code.read r ops) (code.writeAll w ops).length ∧
      Transducer.outputs code.read r ops = ops.map code.value := by
  induction ops generalizing w r with
  | nil => exact ⟨h.stay, rfl⟩
  | cons op ops ih =>
      have hop := hlegal op List.mem_cons_self
      have hrest : ∀ o ∈ ops, code.legal o := fun o ho => hlegal o (List.mem_cons_of_mem _ ho)
      have hstep := code.appends hop hw
      rcases writeAll_keeps hstep.wf hrest with ⟨-, hle, hkeeps⟩
      have hlength := hstep.length
      have hall : code.writeAll w (op :: ops) = code.writeAll (code.write w op) ops := rfl
      rw [hall] at hdata ⊢
      have hfield : number (ofBytes r.data.bytes) w.length (code.width w.length op) =
          code.field op := by
        rw [← hstep.field]
        apply number_congr
        intro i hi
        rw [hdata _ (by omega), hkeeps _ (by omega)]
      rcases code.reads hop h hfield with ⟨hmove, hvalue⟩
      have hnext : (code.read r op).1.At (code.write w op).length := by
        rw [hlength]
        exact hmove.at_pos
      rcases ih hstep.wf hrest hnext (by rw [hmove.data]; exact hdata) with ⟨hmoves, hvalues⟩
      exact ⟨hmove.trans hmoves, by
        rw [Transducer.outputs_cons, hvalue, hvalues, List.map_cons]⟩

/-- The mirrored reads return what was written, each from where the writer stood, and never overrun.
-/
theorem inverse (hlegal : ∀ op ∈ ops, code.legal op)
    (hfit : (code.writeAll BitWriter.new ops).finish.length < 9223372036854775808) :
    let r := BitReader.new ⟨(code.writeAll BitWriter.new ops).finish, hfit⟩
    Transducer.outputs code.read r ops = ops.map code.value ∧
      ∀ done todo, ops = done ++ todo →
        r.MovesTo (Transducer.stateAfter code.read r done)
            (code.writeAll BitWriter.new done).length ∧
          (Transducer.stateAfter code.read r done).overrun = false := by
  intro r
  have hstart : r.At BitWriter.new.length := BitReader.at_start _ _
  rcases writeAll_keeps BitWriter.wf_new hlegal with ⟨hwf, -, -⟩
  rcases hwf.finish with ⟨hbits, hcovers, -⟩
  have hdata : ∀ i, ofBytes r.data.bytes i = (code.writeAll BitWriter.new ops).bit i :=
    fun i => congrFun hbits i
  refine ⟨(reads_all BitWriter.wf_new hlegal hstart fun i _ => hdata i).2, ?_⟩
  rintro done todo rfl
  have hdone : ∀ op ∈ done, code.legal op := fun op hop => hlegal op (List.mem_append_left _ hop)
  have htodo : ∀ op ∈ todo, code.legal op := fun op hop => hlegal op (List.mem_append_right _ hop)
  have hsplit : code.writeAll BitWriter.new (done ++ todo) =
      code.writeAll (code.writeAll BitWriter.new done) todo := List.foldl_append
  rcases writeAll_keeps BitWriter.wf_new hdone with ⟨hwf', -, -⟩
  rcases writeAll_keeps hwf' htodo with ⟨-, hle, hkeeps⟩
  have hbefore : ∀ i < (code.writeAll BitWriter.new done).length,
      ofBytes r.data.bytes i = (code.writeAll BitWriter.new done).bit i := by
    intro i hi
    rw [hdata, hsplit, hkeeps i hi]
  have hread := (reads_all BitWriter.wf_new hdone hstart hbefore).1
  refine ⟨hread, ?_⟩
  have hbound := hread.at_pos.bitPos_le
  have hlogical : (Transducer.stateAfter code.read r done).logicalBits =
      min ((code.writeAll BitWriter.new (done ++ todo)).finish.length * 8) u64Max :=
    hread.logicalBits
  have hflag : (Transducer.stateAfter code.read r done).flagged = false := hread.flagged
  rw [hsplit] at hcovers
  rw [BitReader.overrun, hflag, hlogical, hsplit]
  simp only [Bool.false_or, decide_eq_false_iff_not]
  omega

end FieldCode

end Bitstream
end Vaco
