import Mathlib.Tactic

/-!
# Runs of a deterministic transducer

A transducer reads one input at a time, changes its state and answers each input
with one output.  A run over a list of inputs has a final state and a trace, which
pairs every input with its answer.  Invariants, histories and simulations of one
step lift to whole runs here, once.

Main results:

- `trace_append`: a run splits at every position.
- `history_induction`: a relation between the past of a run and its state, kept by every admissible
  step, holds after every admissible run.
- `simulation`: two transducers related by a step-wise simulation give the same answers.
- `follows_trace`: a transducer that answers each input as a relational specification allows has
  traces of the specification.
- `undone`: a transducer that undoes another step by step undoes its runs.
- `Splits.part_stateAfter`: where every input changes one part of the state, the order of inputs of
  different parts does not matter.
-/

namespace Vaco
namespace Library
namespace Transducer

variable {σ τ α β : Type*}

/-- State after a list of inputs. -/
def stateAfter (step : σ → α → σ × β) (s : σ) (inputs : List α) : σ :=
  inputs.foldl (fun s a => (step s a).1) s

/-- Inputs of a run, each with the answer it received. -/
def trace (step : σ → α → σ × β) : σ → List α → List (α × β)
  | _, [] => []
  | s, a :: inputs => (a, (step s a).2) :: trace step (step s a).1 inputs

/-- Answers of a run. -/
def outputs (step : σ → α → σ × β) (s : σ) (inputs : List α) : List β :=
  (trace step s inputs).map Prod.snd

/-- Every input of a run is admissible in the state that reads it. -/
def Admissible (step : σ → α → σ × β) (P : σ → α → Prop) : σ → List α → Prop
  | _, [] => True
  | s, a :: inputs => P s a ∧ Admissible step P (step s a).1 inputs

variable {step : σ → α → σ × β} {step' : τ → α → τ × β} {P : σ → α → Prop}

instance decidableAdmissible [∀ s a, Decidable (P s a)] :
    ∀ s inputs, Decidable (Admissible step P s inputs)
  | _, [] => isTrue trivial
  | s, a :: inputs =>
      have := decidableAdmissible (step s a).1 inputs
      inferInstanceAs (Decidable (P s a ∧ Admissible step P (step s a).1 inputs))

@[simp]
theorem stateAfter_nil (s : σ) : stateAfter step s [] = s :=
  rfl

@[simp]
theorem stateAfter_cons (s : σ) (a : α) (inputs : List α) :
    stateAfter step s (a :: inputs) = stateAfter step (step s a).1 inputs :=
  rfl

@[simp]
theorem stateAfter_append (s : σ) (first second : List α) :
    stateAfter step s (first ++ second) = stateAfter step (stateAfter step s first) second :=
  List.foldl_append

@[simp]
theorem trace_nil (s : σ) : trace step s [] = [] :=
  rfl

@[simp]
theorem trace_cons (s : σ) (a : α) (inputs : List α) :
    trace step s (a :: inputs) = (a, (step s a).2) :: trace step (step s a).1 inputs :=
  rfl

/-- A run splits at every position. -/
theorem trace_append (s : σ) (first second : List α) :
    trace step s (first ++ second) =
      trace step s first ++ trace step (stateAfter step s first) second := by
  induction first generalizing s with
  | nil => rfl
  | cons a first ih => simp [ih]

@[simp]
theorem outputs_nil (s : σ) : outputs step s [] = [] :=
  rfl

@[simp]
theorem outputs_cons (s : σ) (a : α) (inputs : List α) :
    outputs step s (a :: inputs) = (step s a).2 :: outputs step (step s a).1 inputs :=
  rfl

theorem outputs_append (s : σ) (first second : List α) :
    outputs step s (first ++ second) =
      outputs step s first ++ outputs step (stateAfter step s first) second := by
  simp [outputs, trace_append]

theorem getElem?_outputs (s : σ) (inputs : List α) (i : Nat) :
    (outputs step s inputs)[i]? =
      inputs[i]?.map fun a => (step (stateAfter step s (inputs.take i)) a).2 := by
  induction inputs generalizing s i with
  | nil => rfl
  | cons a inputs ih =>
      cases i with
      | zero => rfl
      | succ i => exact ih (step s a).1 i

@[simp]
theorem length_outputs (s : σ) (inputs : List α) :
    (outputs step s inputs).length = inputs.length := by
  induction inputs generalizing s with
  | nil => rfl
  | cons a inputs ih => simp [ih]

@[simp]
theorem admissible_nil (s : σ) : Admissible step P s [] :=
  trivial

@[simp]
theorem admissible_cons (s : σ) (a : α) (inputs : List α) :
    Admissible step P s (a :: inputs) ↔ P s a ∧ Admissible step P (step s a).1 inputs :=
  Iff.rfl

theorem admissible_append (s : σ) (first second : List α) :
    Admissible step P s (first ++ second) ↔
      Admissible step P s first ∧ Admissible step P (stateAfter step s first) second := by
  induction first generalizing s with
  | nil => simp
  | cons a first ih => simp [ih, and_assoc]

theorem admissible_iff_forall (s : σ) (inputs : List α) :
    Admissible step P s inputs ↔
      ∀ earlier a later, inputs = earlier ++ a :: later → P (stateAfter step s earlier) a := by
  induction inputs generalizing s with
  | nil => simp
  | cons a inputs ih =>
      rw [admissible_cons, ih]
      constructor
      · rintro ⟨hfirst, hrest⟩ earlier b later h
        cases earlier with
        | nil =>
            rw [List.nil_append, List.cons.injEq] at h
            exact h.1 ▸ hfirst
        | cons c earlier =>
            rw [List.cons_append, List.cons.injEq] at h
            rcases h with ⟨rfl, h⟩
            exact hrest earlier b later h
      · intro h
        refine ⟨h [] a inputs rfl, fun earlier b later hcut => ?_⟩
        exact h (a :: earlier) b later (by rw [hcut, List.cons_append])

theorem admissible_true (s : σ) (inputs : List α) :
    Admissible step (fun _ _ => True) s inputs := by
  induction inputs generalizing s with
  | nil => trivial
  | cons a inputs ih => exact ⟨trivial, ih _⟩

theorem trace_eq_of_outputs_eq {s : σ} {t : τ} {inputs : List α}
    (h : outputs step s inputs = outputs step' t inputs) :
    trace step s inputs = trace step' t inputs := by
  induction inputs generalizing s t with
  | nil => rfl
  | cons a inputs ih =>
      rw [outputs_cons, outputs_cons, List.cons.injEq] at h
      rw [trace_cons, trace_cons, h.1, ih h.2]

/-- A relation between the past of a run and its state, kept by every step, holds behind every run.
-/
theorem history_induction {H : List (α × β) → σ → Prop} {s : σ} {inputs : List α}
    (start : H [] s)
    (keeps : ∀ past s a, H past s → P s a → H (past ++ [(a, (step s a).2)]) (step s a).1)
    (admissible : Admissible step P s inputs) :
    H (trace step s inputs) (stateAfter step s inputs) := by
  induction inputs using List.reverseRecOn with
  | nil => exact start
  | append_singleton inputs a ih =>
      rw [admissible_append] at admissible
      rw [trace_append, stateAfter_append]
      exact keeps _ _ a (ih admissible.1) admissible.2.1

theorem invariant {Inv : σ → Prop} {s : σ} {inputs : List α} (start : Inv s)
    (keeps : ∀ s a, Inv s → P s a → Inv (step s a).1)
    (admissible : Admissible step P s inputs) : Inv (stateAfter step s inputs) :=
  history_induction (H := fun _ s => Inv s) start (fun _ s a => keeps s a) admissible

/-- Two transducers related by a step-wise simulation give the same answers and
stay related. -/
theorem simulation {R : σ → τ → Prop} {s : σ} {t : τ} {inputs : List α} (start : R s t)
    (keeps : ∀ s t a, R s t → P s a →
      R (step s a).1 (step' t a).1 ∧ (step s a).2 = (step' t a).2)
    (admissible : Admissible step P s inputs) :
    R (stateAfter step s inputs) (stateAfter step' t inputs) ∧
      outputs step s inputs = outputs step' t inputs := by
  induction inputs generalizing s t with
  | nil => exact ⟨start, rfl⟩
  | cons a inputs ih =>
      have hone := keeps s t a start admissible.1
      have hrest := ih hone.1 admissible.2
      simp [hone.2, hrest]

/-! ## Relational specifications -/

variable {π : Type*} {β' : Type*}

/-- Every input is answered as it may be in the state before it, with the state behind it. -/
inductive Follows (spec : π → α → β → π → Prop) : π → List (α × β) → π → Prop
  | nil (p : π) : Follows spec p [] p
  | cons {p q r : π} {a : α} {b : β} {trace : List (α × β)} (first : spec p a b q)
      (rest : Follows spec q trace r) : Follows spec p ((a, b) :: trace) r

/-- A transducer whose admissible steps are steps of a specification has traces of it. -/
theorem follows_trace {spec : π → α → β → π → Prop} {R : π → σ → Prop} {p : π} {s : σ}
    {inputs : List α} (start : R p s)
    (keeps : ∀ p s a, R p s → P s a → ∃ q, spec p a (step s a).2 q ∧ R q (step s a).1)
    (admissible : Admissible step P s inputs) :
    ∃ q, Follows spec p (trace step s inputs) q ∧ R q (stateAfter step s inputs) := by
  induction inputs generalizing p s with
  | nil => exact ⟨p, Follows.nil p, start⟩
  | cons a inputs ih =>
      rcases keeps p s a start admissible.1 with ⟨q, hfirst, hq⟩
      rcases ih hq admissible.2 with ⟨r, hrest, hr⟩
      exact ⟨r, Follows.cons hfirst hrest, hr⟩

theorem forall₂_trace {E : β → β' → Prop} {other : τ → α → τ × β'} {s : σ} {t : τ}
    {inputs : List α}
    (h : List.Forall₂ E (outputs step s inputs) (outputs other t inputs)) :
    List.Forall₂ (fun x y => x.1 = y.1 ∧ E x.2 y.2) (trace step s inputs)
      (trace other t inputs) := by
  induction inputs generalizing s t with
  | nil => exact List.Forall₂.nil
  | cons a inputs ih =>
      rw [outputs_cons, outputs_cons, List.forall₂_cons] at h
      exact List.Forall₂.cons ⟨rfl, h.1⟩ (ih h.2)

/-- Where matching answers leave both specifications in one state, matching traces are seen alike.
-/
theorem Follows.functional {γ : Type*} {spec : π → α → β → π → Prop}
    {spec' : π → α → β' → π → Prop} {E : β → β' → Prop} {view : β → γ} {view' : β' → γ}
    (same : ∀ {p a b b' q q'}, spec p a b q → spec' p a b' q' → E b b' → q = q' ∧ view b = view' b')
    {p q q' : π} {first : List (α × β)} {second : List (α × β')} (h : Follows spec p first q)
    (h' : Follows spec' p second q')
    (agree : List.Forall₂ (fun x y => x.1 = y.1 ∧ E x.2 y.2) first second) :
    q = q' ∧ first.map (fun x => (x.1, view x.2)) = second.map (fun y => (y.1, view' y.2)) := by
  induction h generalizing second with
  | nil p =>
      cases agree
      cases h'
      exact ⟨rfl, rfl⟩
  | cons hstep hrest ih =>
      rename_i x y
      cases agree with
      | cons hpair hpairs =>
          cases h' with
          | cons hstep' hrest' =>
              rcases hpair with ⟨rfl, hE⟩
              rcases same hstep hstep' hE with ⟨rfl, hview⟩
              rcases ih hrest' hpairs with ⟨hend, hviews⟩
              refine ⟨hend, ?_⟩
              rw [List.map_cons, List.map_cons, hviews, hview]

/-! ## Cascades -/

variable {γ : Type*}

/-- Feed the answers of one transducer to another. -/
def cascade (first : σ → α → σ × β) (second : τ → β → τ × γ) :
    σ × τ → α → (σ × τ) × γ :=
  fun s a =>
    let one := first s.1 a
    let two := second s.2 one.2
    ((one.1, two.1), two.2)

theorem outputs_cascade (first : σ → α → σ × β) (second : τ → β → τ × γ) (s : σ) (t : τ)
    (inputs : List α) :
    outputs (cascade first second) (s, t) inputs =
      outputs second t (outputs first s inputs) := by
  induction inputs generalizing s t with
  | nil => rfl
  | cons a inputs ih => simp [cascade, ih]

/-! ## Inverses -/

/-- A transducer that is undone after every step is undone on the answers to some inputs. -/
theorem undone {undo : σ → β → σ × α} {inputs : List α}
    (h : ∀ a ∈ inputs, ∀ s, undo s (step s a).2 = ((step s a).1, a)) (s : σ) :
    outputs undo s (outputs step s inputs) = inputs ∧
      stateAfter undo s (outputs step s inputs) = stateAfter step s inputs := by
  induction inputs generalizing s with
  | nil => exact ⟨rfl, rfl⟩
  | cons a inputs ih =>
      have hfirst := h a List.mem_cons_self s
      rcases ih (fun b hb => h b (List.mem_cons_of_mem _ hb)) (step s a).1 with ⟨hrest, hstate⟩
      constructor
      · rw [outputs_cons, outputs_cons, hfirst, hrest]
      · rw [outputs_cons, stateAfter_cons, stateAfter_cons, hfirst, hstate]

theorem forall_mem_outputs {Q : β → Prop} (h : ∀ s a, Q (step s a).2) (s : σ)
    (inputs : List α) : ∀ b ∈ outputs step s inputs, Q b := by
  induction inputs generalizing s with
  | nil => simp
  | cons a inputs ih =>
      intro b hb
      rw [outputs_cons, List.mem_cons] at hb
      rcases hb with rfl | hb
      · exact h s a
      · exact ih _ b hb

/-! ## Components -/

variable {ι ρ : Type*}

/-- A state that splits into parts, of which every input changes its own one only. -/
structure Splits (step : σ → α → σ × β) (Inv : σ → Prop) (kind : α → ι) (part : ι → σ → ρ)
    (one : ρ → α → ρ) : Prop where
  keeps : ∀ s a, Inv s → Inv (step s a).1
  own : ∀ s a, Inv s → part (kind a) (step s a).1 = one (part (kind a) s) a
  others : ∀ s a i, Inv s → i ≠ kind a → part i (step s a).1 = part i s

theorem Splits.stateAfter {Inv : σ → Prop} {kind : α → ι} {part : ι → σ → ρ} {one : ρ → α → ρ}
    (h : Splits step Inv kind part one) {s : σ} (hs : Inv s) (inputs : List α) :
    Inv (Transducer.stateAfter step s inputs) := by
  induction inputs generalizing s with
  | nil => exact hs
  | cons a inputs ih => exact ih (h.keeps s a hs)

/-- A part of the final state depends on the inputs of its own kind only, in their
order. -/
theorem Splits.part_stateAfter [DecidableEq ι] {Inv : σ → Prop} {kind : α → ι} {part : ι → σ → ρ}
    {one : ρ → α → ρ} (h : Splits step Inv kind part one) {s : σ} (hs : Inv s)
    (inputs : List α) (i : ι) :
    part i (Transducer.stateAfter step s inputs) =
      (inputs.filter fun a => kind a = i).foldl one (part i s) := by
  induction inputs generalizing s with
  | nil => rfl
  | cons a inputs ih =>
      rw [stateAfter_cons, ih (h.keeps s a hs)]
      by_cases hi : kind a = i
      · subst hi
        simp [h.own s a hs]
      · simp [hi, h.others s a i hs (Ne.symm hi)]

end Transducer
end Library
end Vaco
