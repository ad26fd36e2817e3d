import Mathlib.Data.List.Basic

set_option autoImplicit false

/-!
# Crashes in a sequence of atomic writes

A program that changes a store by atomic writes, each computed from the state in which it is
issued, so that a write can copy what an earlier one put in place. A crash stops the program
after any number of its writes: what it leaves is `crash s p k`, the state after the first `k`
writes. An invariant of every single write holds after every prefix (`crash_invariant`), and a
crash in `p ++ q` is a crash in `p` followed by one in `q` (`crash_append`).
-/
namespace Crash

variable {σ ω : Type*} (write : σ → ω → σ)

def run : σ → List (σ → ω) → σ
  | s, [] => s
  | s, g :: gs => run (write s (g s)) gs

/-- The state after the first `k` writes of `p`. -/
def crash (s : σ) (p : List (σ → ω)) (k : Nat) : σ := run write s (p.take k)

variable {write}

@[simp] theorem run_nil (s : σ) : run write s [] = s := rfl

@[simp] theorem run_cons (s : σ) (g : σ → ω) (gs : List (σ → ω)) :
    run write s (g :: gs) = run write (write s (g s)) gs := rfl

theorem run_append (s : σ) (p q : List (σ → ω)) :
    run write s (p ++ q) = run write (run write s p) q := by
  induction p generalizing s with
  | nil => rfl
  | cons g gs ih => exact ih _

@[simp] theorem crash_zero (s : σ) (p : List (σ → ω)) : crash write s p 0 = s := by
  unfold crash
  rw [List.take_zero]
  rfl

@[simp] theorem crash_nil (s : σ) (k : Nat) : crash write s [] k = s := by
  unfold crash
  rw [List.take_nil]
  rfl

theorem crash_cons_succ (s : σ) (g : σ → ω) (gs : List (σ → ω)) (k : Nat) :
    crash write s (g :: gs) (k + 1) = crash write (write s (g s)) gs k := rfl

theorem crash_of_length_le {s : σ} {p : List (σ → ω)} {k : Nat} (h : p.length ≤ k) :
    crash write s p k = run write s p := by
  unfold crash
  rw [List.take_of_length_le h]

theorem crash_singleton (s : σ) (g : σ → ω) {k : Nat} (hk : 0 < k) :
    crash write s [g] k = write s (g s) := by
  rw [crash_of_length_le (by rw [List.length_singleton]; omega)]
  rfl

theorem crash_append (s : σ) (p q : List (σ → ω)) (k : Nat) :
    crash write s (p ++ q) k = crash write (crash write s p k) q (k - p.length) := by
  unfold crash
  rw [List.take_append, run_append]

theorem crash_invariant {P : σ → Prop} {p : List (σ → ω)}
    (hp : ∀ s, P s → ∀ g ∈ p, P (write s (g s))) {s : σ} (hs : P s) (k : Nat) :
    P (crash write s p k) := by
  induction p generalizing s k with
  | nil => rwa [crash_nil]
  | cons g gs ih =>
    cases k with
    | zero => rwa [crash_zero]
    | succ k =>
      rw [crash_cons_succ]
      exact ih (fun s' hs' g' hg' => hp s' hs' g' (List.mem_cons_of_mem g hg'))
        (hp s hs g List.mem_cons_self) k

end Crash
