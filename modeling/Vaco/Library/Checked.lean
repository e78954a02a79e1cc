import Mathlib.Tactic

/-!
# Checked unsigned arithmetic and runs that may panic

Arithmetic on 32-bit words is done on numbers, and an operation whose exact result does not
fit gives nothing: the program panics there, or loses bits.  A step that may panic lifts to
runs over lists of inputs, which panic as soon as one step does.

Main results:

- `run_counted`, `run_invariant`: what every step keeps, every run keeps.
-/

namespace Vaco
namespace Library
namespace Checked

/-- Subtraction of unsigned words, which panics below zero. -/
def sub (a b : Nat) : Option Nat :=
  if b ≤ a then some (a - b) else none

/-- Addition of 32-bit words, which panics above the greatest. -/
def add32 (a b : Nat) : Option Nat :=
  if a + b < 4294967296 then some (a + b) else none

/-- Multiplication of 32-bit words, which panics above the greatest. -/
def mul32 (a b : Nat) : Option Nat :=
  if a * b < 4294967296 then some (a * b) else none

/-- A shift of a 32-bit word to the left that loses no bit. -/
def shl32 (a n : Nat) : Option Nat :=
  if a * 2 ^ n < 4294967296 then some (a * 2 ^ n) else none

theorem some_bind {α β : Type} (a : α) (f : α → Option β) : (some a >>= f) = f a :=
  rfl

theorem sub_of_le {a b : Nat} (h : b ≤ a) : sub a b = some (a - b) :=
  if_pos h

theorem add32_of_lt {a b : Nat} (h : a + b < 4294967296) : add32 a b = some (a + b) :=
  if_pos h

theorem mul32_of_lt {a b : Nat} (h : a * b < 4294967296) : mul32 a b = some (a * b) :=
  if_pos h

theorem shl32_of_lt {a n : Nat} (h : a * 2 ^ n < 4294967296) : shl32 a n = some (a * 2 ^ n) :=
  if_pos h

theorem shl32_one {a : Nat} (h : 2 * a < 4294967296) : shl32 a 1 = some (2 * a) := by
  rw [shl32_of_lt (by omega), Nat.pow_one, Nat.mul_comm]

theorem two_mul_or {a b : Nat} (hb : b < 2) : 2 * a ||| b = 2 * a + b := by
  have hshift := Nat.shiftLeft_add_eq_or_of_lt (i := 1) (b := b) (by omega) a
  rw [Nat.shiftLeft_eq, Nat.pow_one, Nat.mul_comm] at hshift
  exact hshift.symm

/-! ## Runs -/

section Runs

variable {σ α β : Type*}

def run (step : σ → α → Option (σ × β)) : σ → List α → Option (σ × List β)
  | s, [] => some (s, [])
  | s, a :: inputs =>
      match step s a with
      | none => none
      | some (s, b) => (run step s inputs).map fun rest => (rest.1, b :: rest.2)

variable {step : σ → α → Option (σ × β)}

@[simp]
theorem run_nil (s : σ) : run step s [] = some (s, []) :=
  rfl

theorem run_cons {s s' : σ} {a : α} {b : β} (h : step s a = some (s', b)) (inputs : List α) :
    run step s (a :: inputs) =
      (run step s' inputs).map fun rest => (rest.1, b :: rest.2) := by
  rw [run, h]

theorem run_cons_inv {s s' : σ} {a : α} {inputs : List α} {answers : List β}
    (h : run step s (a :: inputs) = some (s', answers)) :
    ∃ t b rest, step s a = some (t, b) ∧ run step t inputs = some (s', rest) ∧
      answers = b :: rest := by
  rw [run] at h
  cases hstep : step s a with
  | none =>
      rw [hstep] at h
      cases h
  | some next =>
      rw [hstep] at h
      rcases next with ⟨t, b⟩
      rw [Option.map_eq_some_iff] at h
      rcases h with ⟨⟨t', rest⟩, hrest, hpair⟩
      rw [Prod.mk.injEq] at hpair
      rcases hpair with ⟨rfl, rfl⟩
      exact ⟨t, b, rest, rfl, hrest, rfl⟩

theorem run_map {γ : Type*} (f : γ → α) (s : σ) (inputs : List γ) :
    run step s (inputs.map f) = run (fun s c => step s (f c)) s inputs := by
  induction inputs generalizing s with
  | nil => rfl
  | cons c inputs ih =>
      rw [List.map_cons, run, run]
      cases step s (f c) with
      | none => rfl
      | some next =>
          dsimp only
          rw [ih]

/-- A run splits at every position. -/
theorem run_append {s s' : σ} {first : List α} {answers : List β}
    (h : run step s first = some (s', answers)) (second : List α) :
    run step s (first ++ second) =
      (run step s' second).map fun rest => (rest.1, answers ++ rest.2) := by
  induction first generalizing s answers with
  | nil =>
      rw [run_nil, Option.some.injEq, Prod.mk.injEq] at h
      rcases h with ⟨rfl, rfl⟩
      simp
  | cons a first ih =>
      rcases run_cons_inv h with ⟨t, b, rest, hstep, hrest, rfl⟩
      rw [List.cons_append, run_cons hstep, ih hrest, Option.map_map]
      rfl

theorem run_split {s s' s'' : σ} {first second : List α} {answers rest : List β}
    (h : run step s first = some (s', answers))
    (hwhole : run step s (first ++ second) = some (s'', answers ++ rest)) :
    run step s' second = some (s'', rest) := by
  rw [run_append h, Option.map_eq_some_iff] at hwhole
  rcases hwhole with ⟨⟨t, found⟩, hrun, hpair⟩
  rw [Prod.mk.injEq, List.append_cancel_left_eq] at hpair
  rcases hpair with ⟨rfl, rfl⟩
  exact hrun

/-- Where every step keeps an invariant of the cost so far and answers as it should, so does every
run. -/
theorem run_counted {Sound : Nat → σ → Prop} {Answers : α → β → Prop} (cost : α → Nat)
    (keeps : ∀ k s a, Sound k s →
      ∃ s' b, step s a = some (s', b) ∧ Sound (k + cost a) s' ∧ Answers a b)
    {k : Nat} {s : σ} (start : Sound k s) (inputs : List α) :
    ∃ s' answers, run step s inputs = some (s', answers) ∧
      Sound (k + (inputs.map cost).sum) s' ∧ List.Forall₂ Answers inputs answers := by
  induction inputs generalizing k s with
  | nil => exact ⟨s, [], rfl, start, List.Forall₂.nil⟩
  | cons a inputs ih =>
      rcases keeps k s a start with ⟨t, b, hstep, hsound, hanswer⟩
      rcases ih hsound with ⟨s', answers, hrun, hsound', hanswers⟩
      refine ⟨s', b :: answers, ?_, ?_, List.Forall₂.cons hanswer hanswers⟩
      · rw [run_cons hstep, hrun]
        rfl
      · rwa [List.map_cons, List.sum_cons, ← Nat.add_assoc]

/-- Where every step from a sound state succeeds and leaves a sound state, every run
does. -/
theorem run_invariant {Sound : σ → Prop} {s : σ} (start : Sound s)
    (keeps : ∀ s a, Sound s → ∃ s' b, step s a = some (s', b) ∧ Sound s') (inputs : List α) :
    ∃ s' answers, run step s inputs = some (s', answers) ∧ Sound s' := by
  have hkeeps : ∀ (_ : Nat) s a, Sound s →
      ∃ s' b, step s a = some (s', b) ∧ Sound s' ∧ True := by
    intro _ s a h
    rcases keeps s a h with ⟨s', b, hstep, hsound⟩
    exact ⟨s', b, hstep, hsound, trivial⟩
  rcases run_counted (fun _ => 0) hkeeps (k := 0) start inputs with
    ⟨s', answers, hrun, hsound, -⟩
  exact ⟨s', answers, hrun, hsound⟩

end Runs

end Checked
end Library
end Vaco
