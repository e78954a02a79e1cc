import Vaco.Bitstream.BitProgram

/-!
# Writes and the reads that give their values back

A write and a read belong together when the bits that the one appends give its value to the
other, wherever the data starts with what was written.  Such pairs are put behind each other.

Main results:

- `Coded.andThen`: one write behind another is read by one read behind the other.
-/

namespace Vaco
namespace Bitstream

open Library BitStream

def Follows (r : BitReader) (w : BitWriter) : Prop :=
  ∀ i < w.length, ofBytes r.data.bytes i = w.bit i

/-- Some bits are appended from which a read at their start gets a value, and moves behind
them. -/
structure Coded {β : Type} (w w' : BitWriter) (read : BitReader → BitReader × β) (value : β)
    (width : Nat) : Prop where
  wf : w'.Wf
  length : w'.length = w.length + width
  keeps : ∀ i < w.length, w'.bit i = w.bit i
  reads : ∀ r : BitReader, r.At w.length → Follows r w' →
    r.MovesTo (read r).1 w'.length ∧ (read r).2 = value

variable {β γ : Type} {w w' w'' : BitWriter} {r r' : BitReader} {p width width' : Nat}
  {read : BitReader → BitReader × β} {value : β}

theorem Follows.mono (h : Follows r w') (hle : w.length ≤ w'.length)
    (hkeeps : ∀ i < w.length, w'.bit i = w.bit i) : Follows r w := by
  intro i hi
  rw [h i (by omega), hkeeps i hi]

theorem Follows.moves (h : Follows r w) (hmove : r.MovesTo r' p) : Follows r' w := by
  intro i hi
  rw [hmove.data]
  exact h i hi

theorem Follows.field {n value : Nat} (h : Follows r w') (happ : w.Appends w' n value) :
    number (ofBytes r.data.bytes) w.length n = value := by
  rw [← happ.field]
  apply number_congr
  intro i hi
  exact h _ (by rw [happ.length]; omega)

/-! ## Putting pairs together -/

theorem coded_nothing (hw : w.Wf) (value : β) : Coded w w (fun r => (r, value)) value 0 :=
  ⟨hw, rfl, fun _ _ => rfl, fun _ hr _ => ⟨hr.stay, rfl⟩⟩

theorem Coded.follows (h : Coded w w' read value width) {r : BitReader} (hr : Follows r w') :
    Follows r w :=
  hr.mono (by rw [h.length]; omega) h.keeps

/-- One write behind another is read by one read behind the other. -/
theorem Coded.andThen {next : BitReader → BitReader × γ} {result : γ}
    (h : Coded w w' read value width) (h' : Coded w' w'' next result width') :
    Coded w w'' (fun r => next (read r).1) result (width + width') where
  wf := h'.wf
  length := by rw [h'.length, h.length, Nat.add_assoc]
  keeps := by
    intro i hi
    rw [h'.keeps i (by rw [h.length]; omega), h.keeps i hi]
  reads := by
    intro r hr hfollows
    have hmove := (h.reads r hr (h'.follows hfollows)).1
    rcases h'.reads (read r).1 hmove.at_pos (hfollows.moves hmove) with ⟨hmove', hresult⟩
    exact ⟨hmove.trans hmove', hresult⟩

theorem Coded.map (h : Coded w w' read value width) (f : β → γ) :
    Coded w w' (fun r => ((read r).1, f (read r).2)) (f value) width where
  wf := h.wf
  length := h.length
  keeps := h.keeps
  reads := by
    intro r hr hfollows
    rcases h.reads r hr hfollows with ⟨hmove, hvalue⟩
    exact ⟨hmove, congrArg f hvalue⟩

theorem Coded.congr {read' : BitReader → BitReader × β} (h : Coded w w' read value width)
    (hread : ∀ r : BitReader, r.At w.length → Follows r w' → read' r = read r) :
    Coded w w' read' value width where
  wf := h.wf
  length := h.length
  keeps := h.keeps
  reads := by
    intro r hr hfollows
    rw [hread r hr hfollows]
    exact h.reads r hr hfollows

/-! ## Finished bytes -/

/-- A reader of the finished bytes reads what was written. -/
theorem follows_finish (hw : w.Wf) {r : BitReader} (hdata : r.data.bytes = w.finish) :
    Follows r w := by
  intro i _
  rw [hdata, hw.finish.1]

end Bitstream
end Vaco
