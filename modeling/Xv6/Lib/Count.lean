import Mathlib.Algebra.Order.BigOperators.Group.Finset
import Mathlib.Data.Fintype.BigOperators

set_option autoImplicit false

/-!
# Counting holders over a finite index

A reference count is compared with the number of places that hold a reference: a sum over a
finite type of `1` for each place that holds one. A call changes what one place holds, or one
row of places, so the sums are compared across a change at a single index.
-/
namespace Count

open Finset

variable {α : Type*} [Fintype α]

/-- Two functions that agree away from `a` have sums that differ by their values at `a`. -/
theorem sum_add_of_eq_off [DecidableEq α] {M : Type*} [AddCommMonoid M] {f g : α → M} (a : α)
    (h : ∀ x, x ≠ a → f x = g x) : (∑ x, f x) + g a = (∑ x, g x) + f a := by
  rw [Fintype.sum_eq_add_sum_compl a f, Fintype.sum_eq_add_sum_compl a g,
    Finset.sum_congr rfl fun x hx => h x (by simpa using hx)]
  rw [add_right_comm, add_right_comm (g a), add_comm (f a)]

/-- The number of indices that satisfy `P`. -/
def holders (P : α → Prop) [DecidablePred P] : Nat := ∑ x, if P x then 1 else 0

/-- A count that moves at one index: the old count and the new differ by what that index held. -/
theorem holders_add_of_iff_off [DecidableEq α] (P Q : α → Prop) [DecidablePred P] [DecidablePred Q] (a : α)
    (h : ∀ x, x ≠ a → (P x ↔ Q x)) :
    holders P + (if Q a then 1 else 0) = holders Q + (if P a then 1 else 0) :=
  sum_add_of_eq_off (f := fun x => if P x then 1 else 0) (g := fun x => if Q x then 1 else 0) a
    fun x hx => if_congr (h x hx) rfl rfl

theorem holders_congr {P Q : α → Prop} [DecidablePred P] [DecidablePred Q]
    (h : ∀ x, P x ↔ Q x) : holders P = holders Q :=
  Finset.sum_congr rfl fun x _ => if_congr (h x) rfl rfl

theorem holders_eq_zero {P : α → Prop} [DecidablePred P] (h : ∀ x, ¬ P x) : holders P = 0 :=
  Finset.sum_eq_zero fun x _ => if_neg (h x)

end Count
