import Mathlib.Logic.Basic

/-!
# Runs of a deterministic system

A system takes one step for each input. A property of states holds throughout a run if it holds
before the first step and after each (`Throughout`); a condition holds along a run if each step
meets it (`Along`).

## Main results

* `Traces.throughout_iff_along` — if a step keeps the property just if it meets the condition,
  the property holds throughout a run just if the condition holds along it.
* `Traces.throughout_of_along` — the same from an invariant that the condition suffices for.
-/

set_option autoImplicit false

namespace Traces

variable {σ ι : Type} (step : σ → ι → σ)

/-- The property holds in every state of the run. -/
def Throughout (P : σ → Prop) : List ι → σ → Prop
  | [], s => P s
  | i :: is, s => P s ∧ Throughout P is (step s i)

/-- Every step of the run meets the condition in the state in which it is taken. -/
def Along (C : σ → ι → Prop) : List ι → σ → Prop
  | [], _ => True
  | i :: is, s => C s i ∧ Along C is (step s i)

instance Along.decidable (C : σ → ι → Prop) [∀ s i, Decidable (C s i)] :
    ∀ (is : List ι) (s : σ), Decidable (Along step C is s)
  | [], _ => .isTrue trivial
  | i :: is, s =>
    have := Along.decidable C is (step s i)
    inferInstanceAs (Decidable (C s i ∧ Along step C is (step s i)))

instance Throughout.decidable (P : σ → Prop) [DecidablePred P] :
    ∀ (is : List ι) (s : σ), Decidable (Throughout step P is s)
  | [], s => inferInstanceAs (Decidable (P s))
  | i :: is, s =>
    have := Throughout.decidable P is (step s i)
    inferInstanceAs (Decidable (P s ∧ Throughout step P is (step s i)))

variable {step} {P I : σ → Prop} {A C : σ → ι → Prop}

/-- It holds before the first step. -/
lemma Throughout.first {is : List ι} {s : σ} (h : Throughout step P is s) : P s := by
  cases is with
  | nil => exact h
  | cons i is => exact h.1

/-- A condition that every step meets. -/
lemma along_of_forall (h : ∀ s i, C s i) (is : List ι) (s : σ) : Along step C is s := by
  induction is generalizing s with
  | nil => trivial
  | cons i is ih => exact ⟨h s i, ih _⟩

/-- The property of states is decided step by step: in a state with invariant and property, an
admissible step keeps the property just if it meets the condition. -/
lemma throughout_iff_along (hinv : ∀ s i, I s → A s i → I (step s i))
    (hstep : ∀ s i, I s → A s i → P s → (P (step s i) ↔ C s i)) (is : List ι) (s : σ) (hs : I s)
    (hP : P s) (hA : Along step A is s) : Throughout step P is s ↔ Along step C is s := by
  induction is generalizing s with
  | nil => exact ⟨fun _ => trivial, fun _ => hP⟩
  | cons i is ih =>
    have hone := hstep s i hs hA.1 hP
    constructor
    · rintro ⟨-, hrest⟩
      exact ⟨hone.mp hrest.first, (ih _ (hinv s i hs hA.1) hrest.first hA.2).mp hrest⟩
    · rintro ⟨hC, hrest⟩
      exact ⟨hP, (ih _ (hinv s i hs hA.1) (hone.mpr hC) hA.2).mpr hrest⟩

/-- A property that an invariant gives holds throughout a run along which the condition holds, if
steps that meet it keep the invariant. -/
lemma throughout_of_along (hinv : ∀ s i, I s → C s i → I (step s i)) (hP : ∀ s, I s → P s)
    {is : List ι} {s : σ} (hs : I s) (hC : Along step C is s) : Throughout step P is s := by
  induction is generalizing s with
  | nil => exact hP s hs
  | cons i is ih => exact ⟨hP s hs, ih (hinv s i hs hC.1) hC.2⟩

end Traces
