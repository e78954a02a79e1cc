import Vaco.Library.BitStream
import Vaco.Library.Checked

/-!
# Interval coding

An arithmetic encoder narrows a cell of numbers with every symbol and refines the numbers by
further digits; the code is a stream of bits whose leading digits lie in the last cell.  A
decoder holds the distance of the leading digits from the start of the cell.  Cells are
nested, so the digits lie in every cell on the way, and the decoder can always tell which
part was taken.

Main results:

- `doublingsTo_bounds`: a smaller range is doubled to a number of digits.
- `Cell.Within.trans`: refined cells are nested.
- `Cell.Holds.of_within`: a stream in a refined cell is in the cell.
- `ReadsBack.trans`: what is written in two parts is read back in two parts.
- `round_trip`: if every symbol comes back from a decoder that follows the encoder, provided the
  code is in the next cell, then every sequence does, provided the code is in the last cell; Theorem
  `round_trip_parts` says so of every part of the sequence.
-/

namespace Vaco
namespace Library
namespace IntervalCoder

open BitStream

/-! ## Renormalisation -/

/-- How often a range is doubled until it has a number of digits. -/
def doublingsTo (width range : Nat) : Nat :=
  width - range.size

theorem doublingsTo_of_le {width range : Nat} (h : 2 ^ (width - 1) ≤ range) :
    doublingsTo width range = 0 := by
  have hsize : width - 1 < range.size := Nat.lt_size.mpr h
  unfold doublingsTo
  omega

theorem doublingsTo_of_lt {width range : Nat} (hpos : 0 < range) (h : range < 2 ^ (width - 1)) :
    doublingsTo width range = doublingsTo width (2 * range) + 1 := by
  have hsize : range.size ≤ width - 1 := Nat.size_le.mpr h
  have hone : 0 < range.size := Nat.size_pos.mpr hpos
  have hdouble : (2 * range).size = range.size + 1 := by
    rw [Nat.mul_comm, ← Nat.pow_one 2, ← Nat.shiftLeft_eq, Nat.size_shiftLeft (by omega)]
  unfold doublingsTo
  omega

theorem doublingsTo_lt {width range : Nat} (hwidth : 0 < width) (hpos : 0 < range) :
    doublingsTo width range < width := by
  have hone : 0 < range.size := Nat.size_pos.mpr hpos
  unfold doublingsTo
  omega

/-- The range of exactly that many digits that a smaller one is doubled to. -/
theorem doublingsTo_bounds {width range : Nat} (hpos : 0 < range) (h : range < 2 ^ width) :
    2 ^ (width - 1) ≤ range * 2 ^ doublingsTo width range ∧
      range * 2 ^ doublingsTo width range < 2 ^ width := by
  induction hcount : doublingsTo width range generalizing range with
  | zero =>
      have hone : 0 < range.size := Nat.size_pos.mpr hpos
      have hsize : width - 1 < range.size := by
        unfold doublingsTo at hcount
        omega
      have hge := Nat.lt_size.mp hsize
      omega
  | succ n ih =>
      have hlt : range < 2 ^ (width - 1) := by
        by_contra hge
        rw [doublingsTo_of_le (not_lt.mp hge)] at hcount
        cases hcount
      have hwidth : 2 ^ width = 2 * 2 ^ (width - 1) := by
        rw [← Nat.pow_succ']
        congr 1
        unfold doublingsTo at hcount
        omega
      rw [doublingsTo_of_lt hpos hlt, Nat.add_right_cancel_iff] at hcount
      have hdouble := ih (by omega) (by omega) hcount
      rwa [Nat.mul_comm 2 range, Nat.mul_assoc, ← Nat.pow_succ'] at hdouble

/-! ## Cells -/

/-- The numbers of `depth` more digits than at the start, from `low` on. -/
structure Cell where
  low : Nat
  range : Nat
  depth : Nat

namespace Cell

/-- A part of a cell. -/
def narrow (c : Cell) (base width : Nat) : Cell where
  low := c.low + base
  range := width
  depth := c.depth

/-- A cell refined by a number of digits. -/
def scale (c : Cell) (n : Nat) : Cell where
  low := c.low * 2 ^ n
  range := c.range * 2 ^ n
  depth := c.depth + n

theorem scale_scale (c : Cell) (m n : Nat) : (c.scale m).scale n = c.scale (m + n) := by
  simp only [scale, Nat.pow_add, Nat.mul_assoc, Nat.add_assoc]

/-- A cell that refines a part of another. -/
structure Within (c' c : Cell) : Prop where
  depth_le : c.depth ≤ c'.depth
  low_le : c.low * 2 ^ (c'.depth - c.depth) ≤ c'.low
  le_high : c'.low + c'.range ≤ (c.low + c.range) * 2 ^ (c'.depth - c.depth)

variable {c c' c'' : Cell}

theorem Within.refl (c : Cell) : c.Within c where
  depth_le := le_rfl
  low_le := by simp
  le_high := by simp

/-- Refined cells are nested. -/
theorem Within.trans (h : c''.Within c') (h' : c'.Within c) : c''.Within c := by
  have hpow : 2 ^ (c''.depth - c.depth) =
      2 ^ (c'.depth - c.depth) * 2 ^ (c''.depth - c'.depth) := by
    rw [← Nat.pow_add]
    congr 1
    have := h.depth_le
    have := h'.depth_le
    omega
  refine ⟨h'.depth_le.trans h.depth_le, ?_, ?_⟩
  · rw [hpow, ← Nat.mul_assoc]
    exact (Nat.mul_le_mul_right _ h'.low_le).trans h.low_le
  · rw [hpow, ← Nat.mul_assoc]
    exact h.le_high.trans (Nat.mul_le_mul_right _ h'.le_high)

/-- A cell stays below a bound that it refines a cell below. -/
theorem Within.inside (h : c'.Within c) {bound : Nat}
    (hinside : c.low + c.range ≤ bound * 2 ^ c.depth) :
    c'.low + c'.range ≤ bound * 2 ^ c'.depth := by
  have hscale := Nat.mul_le_mul_right (2 ^ (c'.depth - c.depth)) hinside
  rw [Nat.mul_assoc, ← Nat.pow_add, Nat.add_sub_cancel' h.depth_le] at hscale
  exact h.le_high.trans hscale

theorem within_narrow {base width : Nat} (h : base + width ≤ c.range) :
    (c.narrow base width).Within c where
  depth_le := le_rfl
  low_le := by simp [narrow]
  le_high := by
    simp only [narrow, Nat.sub_self, Nat.pow_zero, Nat.mul_one]
    omega

theorem within_scale (c : Cell) (n : Nat) : (c.scale n).Within c where
  depth_le := Nat.le_add_right _ _
  low_le := by simp [scale]
  le_high := by simp [scale, Nat.add_mul]

/-- A part of a cell, refined until its range has a number of digits. -/
def part (width : Nat) (c : Cell) (base range : Nat) : Cell :=
  (c.narrow base range).scale (doublingsTo width range)

theorem part_within {width base range : Nat} (h : base + range ≤ c.range) :
    (part width c base range).Within c :=
  (within_scale _ _).trans (within_narrow h)

/-- The leading digits of a stream lie in a cell; the first `start` of them come before
the first refinement. -/
def Holds (bits : Nat → Bool) (start : Nat) (c : Cell) : Prop :=
  c.low ≤ number bits 0 (start + c.depth) ∧ number bits 0 (start + c.depth) < c.low + c.range

variable {bits : Nat → Bool} {start : Nat}

/-- A stream in a refined cell is in the cell. -/
theorem Holds.of_within (h : c'.Holds bits start) (hwithin : c'.Within c) :
    c.Holds bits start := by
  have hdepth := hwithin.depth_le
  have hsplit := number_add bits 0 (start + c.depth) (c'.depth - c.depth)
  have hrest := number_lt bits (0 + (start + c.depth)) (c'.depth - c.depth)
  rw [show start + c.depth + (c'.depth - c.depth) = start + c'.depth by omega] at hsplit
  rcases h with ⟨hlow, hhigh⟩
  have hle := hwithin.low_le
  have hge := hwithin.le_high
  have hpos : 0 < 2 ^ (c'.depth - c.depth) := by positivity
  constructor
  · by_contra hless
    have hstep := Nat.mul_le_mul_right (2 ^ (c'.depth - c.depth)) (not_le.mp hless)
    rw [Nat.succ_mul] at hstep
    omega
  · by_contra hmore
    have hstep := Nat.mul_le_mul_right (2 ^ (c'.depth - c.depth)) (not_lt.mp hmore)
    omega

end Cell

/-! ## Parts of a code -/

section ReadsBack

variable {τ : Type} {Tracks : (Nat → Bool) → τ → Cell → Prop} {start : Nat} {c c' c'' : Cell}
  {Reads Reads' : τ → τ → Prop}

/-- A decoder that tracks the first cell on a stream in the second reads, and tracks the second. -/
structure ReadsBack (Tracks : (Nat → Bool) → τ → Cell → Prop) (start : Nat) (c c' : Cell)
    (Reads : τ → τ → Prop) : Prop where
  within : c'.Within c
  reads : ∀ bits d, Tracks bits d c → c'.Holds bits start → ∃ d', Reads d d' ∧ Tracks bits d' c'

theorem ReadsBack.refl (c : Cell) : ReadsBack Tracks start c c Eq where
  within := Cell.Within.refl c
  reads := fun _ d htracks _ => ⟨d, rfl, htracks⟩

/-- What is written in two parts is read back in two parts. -/
theorem ReadsBack.trans (h : ReadsBack Tracks start c c' Reads)
    (h' : ReadsBack Tracks start c' c'' Reads') :
    ReadsBack Tracks start c c'' (Relation.Comp Reads Reads') where
  within := h'.within.trans h.within
  reads := by
    intro bits d htracks hholds
    rcases h.reads bits d htracks (hholds.of_within h'.within) with ⟨d', hread, htracks'⟩
    rcases h'.reads bits d' htracks' hholds with ⟨d'', hread', htracks''⟩
    exact ⟨d'', ⟨d', hread, hread'⟩, htracks''⟩

theorem ReadsBack.mono (h : ReadsBack Tracks start c c' Reads)
    (himp : ∀ d d', Reads d d' → Reads' d d') : ReadsBack Tracks start c c' Reads' where
  within := h.within
  reads := by
    intro bits d htracks hholds
    rcases h.reads bits d htracks hholds with ⟨d', hread, htracks'⟩
    exact ⟨d', himp d d' hread, htracks'⟩

end ReadsBack

/-! ## Sequences -/

section RoundTrip

variable {σ τ Op β : Type} {encode : σ → Op → Option σ} {decode : τ → Op → Option (τ × β)}
  {value : Op → β} {At : σ → Cell → Prop} {Tracks : (Nat → Bool) → τ → σ → Cell → Prop}
  {start : Nat}

/-- An encoder moves to a cell within its own, and a decoder that tracks it reads the symbol. -/
def Follows (encode : σ → Op → Option σ) (decode : τ → Op → Option (τ × β)) (value : Op → β)
    (At : σ → Cell → Prop) (Tracks : (Nat → Bool) → τ → σ → Cell → Prop) (start : Nat) : Prop :=
  ∀ e c op, At e c → ∃ e' c', encode e op = some e' ∧ At e' c' ∧ c'.Within c ∧
    ∀ bits d, Tracks bits d e c → c'.Holds bits start →
      ∃ d', decode d op = some (d', value op) ∧ Tracks bits d' e' c'

/-- If every symbol comes back, every sequence does, from a stream in the last cell. -/
theorem round_trip (h : Follows encode decode value At Tracks start) {e : σ} {c : Cell}
    (he : At e c) (ops : List Op) :
    ∃ e' c', ops.foldlM encode e = some e' ∧ At e' c' ∧ c'.Within c ∧
      ∀ bits d, Tracks bits d e c → c'.Holds bits start →
        ∃ d', Checked.run decode d ops = some (d', ops.map value) ∧ Tracks bits d' e' c' := by
  induction ops generalizing e c with
  | nil =>
      refine ⟨e, c, rfl, he, Cell.Within.refl c, ?_⟩
      intro bits d htracks _
      exact ⟨d, rfl, htracks⟩
  | cons op ops ih =>
      rcases h e c op he with ⟨e₁, c₁, hencode, hat, hwithin, hdecode⟩
      rcases ih hat with ⟨e', c', hrest, hat', hwithin', hdecodes⟩
      refine ⟨e', c', ?_, hat', hwithin'.trans hwithin, ?_⟩
      · rw [List.foldlM_cons, hencode]
        exact hrest
      · intro bits d htracks hholds
        rcases hdecode bits d htracks (hholds.of_within hwithin') with ⟨d₁, hone, htracks₁⟩
        rcases hdecodes bits d₁ htracks₁ hholds with ⟨d', hrun, htracks'⟩
        refine ⟨d', ?_, htracks'⟩
        rw [Checked.run_cons hone, hrun]
        rfl

/-- Behind every part of a sequence the decoder goes on tracking the encoder. -/
theorem round_trip_parts (h : Follows encode decode value At Tracks start) {e : σ} {c : Cell}
    (he : At e c) (ops : List Op) :
    ∃ e' c', ops.foldlM encode e = some e' ∧ At e' c' ∧ c'.Within c ∧
      ∀ bits d, Tracks bits d e c → c'.Holds bits start →
        ∀ done todo, ops = done ++ todo → ∃ d₁ e₁ c₁,
          Checked.run decode d done = some (d₁, done.map value) ∧
            done.foldlM encode e = some e₁ ∧ At e₁ c₁ ∧ Tracks bits d₁ e₁ c₁ ∧
              c₁.Holds bits start ∧ c₁.depth ≤ c'.depth := by
  induction ops generalizing e c with
  | nil =>
      refine ⟨e, c, rfl, he, Cell.Within.refl c, ?_⟩
      intro bits d htracks hholds done todo hsplit
      rw [(List.append_eq_nil_iff.mp hsplit.symm).1]
      exact ⟨d, e, c, rfl, rfl, he, htracks, hholds, le_rfl⟩
  | cons op ops ih =>
      rcases h e c op he with ⟨e₁, c₁, hencode, hat, hwithin, hdecode⟩
      rcases ih hat with ⟨e', c', hrest, hat', hwithin', hparts⟩
      have hwhole := hwithin'.trans hwithin
      refine ⟨e', c', ?_, hat', hwhole, ?_⟩
      · rw [List.foldlM_cons, hencode]
        exact hrest
      · intro bits d htracks hholds done todo hsplit
        cases done with
        | nil => exact ⟨d, e, c, rfl, rfl, he, htracks, hholds.of_within hwhole, hwhole.depth_le⟩
        | cons first done =>
            rw [List.cons_append, List.cons.injEq] at hsplit
            rcases hsplit with ⟨rfl, hsplit⟩
            rcases hdecode bits d htracks (hholds.of_within hwithin') with ⟨d₁, hone, htracks₁⟩
            rcases hparts bits d₁ htracks₁ hholds done todo hsplit with
              ⟨d₂, e₂, c₂, hrun, hencodes, hat₂, htracks₂, hrests⟩
            refine ⟨d₂, e₂, c₂, ?_, ?_, hat₂, htracks₂, hrests⟩
            · rw [Checked.run_cons hone, hrun]
              rfl
            · rw [List.foldlM_cons, hencode]
              exact hencodes

end RoundTrip

end IntervalCoder
end Library
end Vaco
