import Mathlib.Logic.Function.Basic

set_option autoImplicit false

/-!
# `memmove` in `string.c`

Memory is a byte array indexed by address. The kernel's `memmove` copies backward, from the
top, when the source starts below the destination and runs into it, and forward otherwise.
Both loops are modelled as the C code runs them, one byte a pass. `moved` says what the call is
for: the bytes of `[dst, dst + n)` are those that were at `[src, src + n)`, and no other byte
changes. The kernel's `memmove` is `moved` for every source, destination and count,
overlapping or not (`memmove_eq_moved`).
-/
namespace Xv6

open Function (update)

/-- What `memmove(dst, src, n)` is for. -/
def moved (b : Nat → UInt8) (dst src n : Nat) : Nat → UInt8 :=
  fun a => if dst ≤ a ∧ a < dst + n then b (a - dst + src) else b a

/-- `while(n-- > 0) *d++ = *s++;` -/
def copyForward : (Nat → UInt8) → Nat → Nat → Nat → Nat → UInt8
  | b, _, _, 0 => b
  | b, d, s, n + 1 => copyForward (update b d (b s)) (d + 1) (s + 1) n

/-- `while(n-- > 0) *--d = *--s;` from the ends `d` and `s` of the two ranges. -/
def copyBackward : (Nat → UInt8) → Nat → Nat → Nat → Nat → UInt8
  | b, _, _, 0 => b
  | b, d, s, n + 1 => copyBackward (update b (d - 1) (b (s - 1))) (d - 1) (s - 1) n

/-- `memmove(dst, src, n)` of `string.c`. -/
def memmove (b : Nat → UInt8) (dst src n : Nat) : Nat → UInt8 :=
  if src < dst ∧ src + n > dst then copyBackward b (dst + n) (src + n) n
  else copyForward b dst src n

theorem moved_zero (b : Nat → UInt8) (dst src : Nat) : moved b dst src 0 = b := by
  funext a
  unfold moved
  rw [if_neg (by omega)]

theorem copyForward_succ (n : Nat) :
    ∀ (b : Nat → UInt8) (d s : Nat), copyForward b d s (n + 1) =
      update (copyForward b d s n) (d + n) (copyForward b d s n (s + n)) := by
  induction n with
  | zero => intro b d s; rfl
  | succ n ih =>
    intro b d s
    rw [copyForward, ih, copyForward]
    simp only [Nat.add_right_comm _ 1 n, Nat.add_assoc]

theorem moved_snoc (b : Nat → UInt8) {d s n : Nat} (hs : ¬ (d ≤ s + n ∧ s + n < d + n)) :
    update (moved b d s n) (d + n) (moved b d s n (s + n)) = moved b d s (n + 1) := by
  funext a
  unfold moved
  rw [if_neg hs]
  by_cases ha : a = d + n
  · subst ha
    rw [Function.update_self, if_pos (by omega)]
    congr 1
    omega
  · rw [Function.update_of_ne ha]
    by_cases hin : d ≤ a ∧ a < d + n
    · rw [if_pos hin, if_pos (by omega)]
    · rw [if_neg hin, if_neg (by omega)]

theorem copyForward_eq_moved (b : Nat → UInt8) {d s n : Nat} (h : d ≤ s ∨ s + n ≤ d) :
    copyForward b d s n = moved b d s n := by
  -- by induction on the passes made; the source byte of the next pass is not yet written
  have hrun : ∀ j ≤ n, copyForward b d s j = moved b d s j := by
    intro j
    induction j with
    | zero => intro _; rw [moved_zero]; rfl
    | succ j ih =>
      intro hj
      rw [copyForward_succ, ih (by omega)]
      exact moved_snoc b (by omega)
  exact hrun n (Nat.le_refl n)

theorem moved_update_top (b : Nat → UInt8) {d s n : Nat} (h : s ≤ d ∨ d + n + 1 ≤ s) :
    moved (update b (d + n) (b (s + n))) d s n = moved b d s (n + 1) := by
  funext a
  unfold moved
  by_cases ha : a = d + n
  · subst ha
    rw [if_neg (by omega), Function.update_self, if_pos (by omega)]
    congr 1
    omega
  · by_cases hin : d ≤ a ∧ a < d + n
    · rw [if_pos hin, if_pos (by omega), Function.update_of_ne (by omega)]
    · rw [if_neg hin, if_neg (by omega), Function.update_of_ne ha]

theorem copyBackward_eq_moved (n : Nat) :
    ∀ (b : Nat → UInt8) (d s : Nat), (s ≤ d ∨ d + n ≤ s) →
      copyBackward b (d + n) (s + n) n = moved b d s n := by
  induction n with
  | zero => intro b d s _; rw [moved_zero]; rfl
  | succ n ih =>
    intro b d s h
    have hd : d + (n + 1) - 1 = d + n := by omega
    have hs : s + (n + 1) - 1 = s + n := by omega
    rw [copyBackward, hd, hs, ih _ d s (by omega)]
    exact moved_update_top b (by omega)

theorem memmove_eq_moved (b : Nat → UInt8) (dst src n : Nat) :
    memmove b dst src n = moved b dst src n := by
  unfold memmove
  by_cases h : src < dst ∧ src + n > dst
  · rw [if_pos h]
    exact copyBackward_eq_moved n b dst src (Or.inl (Nat.le_of_lt h.1))
  · rw [if_neg h]
    exact copyForward_eq_moved b (by omega)

end Xv6
