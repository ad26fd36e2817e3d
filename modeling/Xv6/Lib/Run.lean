import Mathlib.Logic.Relation

set_option autoImplicit false

/-!
# Runs of a transition system

A system is a step relation on its states. A run is a `Relation.ReflTransGen` chain of steps,
and a state is reachable when a run leads to it from an initial state. The invariant rule turns a
lemma about one step into a fact about every reachable state; `chain` glues runs given for each
`k` into one run, which is how a run of a number of rounds that depends on a parameter is built.
-/
namespace Run

open Relation

variable {σ : Type*}

/-- The states that some run from a state satisfying `init` reaches. -/
def Reachable (step : σ → σ → Prop) (init : σ → Prop) (s : σ) : Prop :=
  ∃ s₀, init s₀ ∧ ReflTransGen step s₀ s

variable {step : σ → σ → Prop}

/-- A property that every step keeps holds at the end of every run that starts in it. -/
theorem invariant {P : σ → Prop} (hstep : ∀ x y, P x → step x y → P y) {a b : σ}
    (h : ReflTransGen step a b) (ha : P a) : P b := by
  induction h with
  | refl => exact ha
  | tail _ hxy ih => exact hstep _ _ ih hxy

/-- The invariant rule: a property of every initial state that every step keeps holds in every
reachable state. -/
theorem reachable_invariant {init P : σ → Prop} (h0 : ∀ s, init s → P s)
    (hstep : ∀ x y, P x → step x y → P y) {s : σ} (hs : Reachable step init s) : P s := by
  obtain ⟨s₀, hinit, hrun⟩ := hs
  exact invariant hstep hrun (h0 s₀ hinit)

theorem Reachable.of_init {init : σ → Prop} {s : σ} (h : init s) : Reachable step init s :=
  ⟨s, h, .refl⟩

theorem Reachable.tail {init : σ → Prop} {s t : σ} (hs : Reachable step init s)
    (h : ReflTransGen step s t) : Reachable step init t := by
  obtain ⟨s₀, hinit, hrun⟩ := hs
  exact ⟨s₀, hinit, hrun.trans h⟩

theorem Reachable.map {τ : Type*} {step' : τ → τ → Prop} {init : σ → Prop} {init' : τ → Prop}
    {P : σ → Prop} (f : σ → τ) (hinit : ∀ s, init s → init' (f s))
    (hstep : ∀ x y, P x → step x y → step' (f x) (f y))
    (hP : ∀ s, Reachable step init s → P s) {s : σ} (hs : Reachable step init s) :
    Reachable step' init' (f s) := by
  obtain ⟨s₀, hinit₀, hrun⟩ := hs
  refine ⟨f s₀, hinit s₀ hinit₀, ?_⟩
  -- the run is mapped step by step; each source state is reachable, so `P` holds there
  induction hrun with
  | refl => exact .refl
  | @tail x y hx hxy ih => exact ih.tail (hstep x y (hP x ⟨s₀, hinit₀, hx⟩) hxy)

/-- Runs from `f k` to `f (k + 1)` for every `k` make one run from `f 0` to `f n`. -/
theorem chain (f : Nat → σ) (h : ∀ k, ReflTransGen step (f k) (f (k + 1))) (n : Nat) :
    ReflTransGen step (f 0) (f n) := by
  induction n with
  | zero => exact .refl
  | succ n ih => exact ih.trans (h n)

end Run
