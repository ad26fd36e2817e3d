import Mathlib.Data.UInt
import Mathlib.Logic.Function.Basic

set_option autoImplicit false

/-!
# Ring buffers indexed by free-running counters

A ring of `N` slots is read and written through two 32-bit counters that only ever grow, each
reduced modulo `N` to pick a slot. The items between counter `a` and counter `b` are the
`(b - a)` slots from `a % N` on, taken in order: `window data a n` lists them. When `N` divides
`2 ^ 32` the counters may wrap around: the slot of `b` is still `n` slots past the slot of `a`.

The lemmas say what one write at the end and one read at the front do to the window, and how the
unsigned difference of two counters moves when either counter is incremented.
-/
namespace Ring

def slot (N : Nat) [NeZero N] (i : Nat) : Fin N := ⟨i % N, Nat.mod_lt _ (Nat.pos_of_neZero N)⟩

variable {α : Type} {N : Nat} [NeZero N]

/-- The `n` items from counter value `a` on, oldest first. -/
def window (data : Fin N → α) (a : Nat) : Nat → List α
  | 0 => []
  | n + 1 => window data a n ++ [data (slot N (a + n))]

variable {data : Fin N → α} {a n : Nat}

@[simp] theorem window_zero : window data a 0 = [] := rfl

theorem window_succ : window data a (n + 1) = window data a n ++ [data (slot N (a + n))] := rfl

@[simp] theorem length_window : (window data a n).length = n := by
  induction n with
  | zero => rfl
  | succ n ih => rw [window_succ, List.length_append, ih, List.length_singleton]

theorem slot_ne {i k : Nat} (hik : i < k) (hk : k < N) (a : Nat) :
    slot N (a + i) ≠ slot N (a + k) := by
  intro h
  have hmod : (a + k) % N = (a + i) % N := (Fin.mk.inj_iff.mp h).symm
  have hdvd : N ∣ (a + k) - (a + i) := Nat.dvd_of_mod_eq_zero (Nat.sub_mod_eq_zero_of_mod_eq hmod)
  have hzero := Nat.eq_zero_of_dvd_of_lt hdvd (by omega)
  omega

theorem window_update_outside {j : Fin N} {x : α}
    (hj : ∀ k < n, j ≠ slot N (a + k)) :
    window (Function.update data j x) a n = window data a n := by
  induction n with
  | zero => rfl
  | succ n ih =>
    rw [window_succ, window_succ, ih (fun k hk => hj k (by omega)),
      Function.update_of_ne (hj n (by omega)).symm]

theorem window_push (x : α) (hn : n < N) :
    window (Function.update data (slot N (a + n)) x) a (n + 1) = window data a n ++ [x] := by
  rw [window_succ, Function.update_self,
    window_update_outside (fun k hk => (slot_ne hk hn a).symm)]

theorem window_pop : window data a (n + 1) = data (slot N a) :: window data (a + 1) n := by
  induction n with
  | zero => rfl
  | succ n ih =>
    rw [window_succ, ih, window_succ, List.cons_append, Nat.add_right_comm a 1 n,
      Nat.add_assoc a n 1]

theorem window_mod {a' : Nat} (h : a % N = a' % N) : window data a n = window data a' n := by
  induction n with
  | zero => rfl
  | succ n ih =>
    have hslot : slot N (a + n) = slot N (a' + n) := by
      apply Fin.ext
      change (a + n) % N = (a' + n) % N
      rw [Nat.add_mod, h, ← Nat.add_mod]
    rw [window_succ, window_succ, ih, hslot]

theorem window_append (m : Nat) :
    window data a (m + n) = window data a m ++ window data (a + m) n := by
  induction n with
  | zero => rw [Nat.add_zero, window_zero, List.append_nil]
  | succ n ih =>
    rw [← Nat.add_assoc, window_succ, ih, window_succ, List.append_assoc, Nat.add_assoc a m n]

/-! ### Free-running 32-bit counters -/

omit [NeZero N] in
theorem toNat_mod_of_gap (hN : N ∣ 2 ^ 32) (a b : UInt32) :
    b.toNat % N = (a.toNat + (b - a).toNat) % N := by
  have hword : (a.toNat + (b - a).toNat) % 2 ^ 32 = b.toNat := by
    have := UInt32.toNat_sub b a
    have := UInt32.toNat_lt a
    have := UInt32.toNat_lt b
    omega
  calc b.toNat % N = (a.toNat + (b - a).toNat) % 2 ^ 32 % N := by rw [hword]
    _ = (a.toNat + (b - a).toNat) % N := Nat.mod_mod_of_dvd _ hN

theorem slot_of_gap (hN : N ∣ 2 ^ 32) (a b : UInt32) :
    slot N b.toNat = slot N (a.toNat + (b - a).toNat) :=
  Fin.ext (toNat_mod_of_gap hN a b)

theorem gap_succ_left {a b : UInt32} (h : (b - a).toNat + 1 < 2 ^ 32) :
    (b + 1 - a).toNat = (b - a).toNat + 1 := by
  have h1 := UInt32.toNat_sub b a
  have h2 := UInt32.toNat_sub (b + 1) a
  have h3 := UInt32.toNat_add b 1
  have := UInt32.toNat_lt a
  have := UInt32.toNat_lt b
  simp only [UInt32.toNat_one] at h3
  omega

theorem gap_succ_right {a b : UInt32} (h : 0 < (b - a).toNat) :
    (b - (a + 1)).toNat = (b - a).toNat - 1 := by
  have h1 := UInt32.toNat_sub b a
  have h2 := UInt32.toNat_sub b (a + 1)
  have h3 := UInt32.toNat_add a 1
  have := UInt32.toNat_lt a
  have := UInt32.toNat_lt b
  simp only [UInt32.toNat_one] at h3
  omega

theorem gap_pred_left {a b : UInt32} (h : 0 < (b - a).toNat) :
    (b - 1 - a).toNat = (b - a).toNat - 1 := by
  have h1 := UInt32.toNat_sub b a
  have h2 := UInt32.toNat_sub (b - 1) a
  have h3 := UInt32.toNat_sub b 1
  have := UInt32.toNat_lt a
  have := UInt32.toNat_lt b
  simp only [UInt32.toNat_one] at h3
  omega

theorem gap_add {a b c : UInt32} (h : (b - a).toNat + (c - b).toNat < 2 ^ 32) :
    (c - a).toNat = (b - a).toNat + (c - b).toNat := by
  have h1 := UInt32.toNat_sub b a
  have h2 := UInt32.toNat_sub c b
  have h3 := UInt32.toNat_sub c a
  have := UInt32.toNat_lt a
  have := UInt32.toNat_lt b
  have := UInt32.toNat_lt c
  omega

theorem eq_iff_gap_zero {a b : UInt32} : a = b ↔ (b - a).toNat = 0 := by
  rw [← UInt32.toNat_inj, UInt32.toNat_sub]
  have := UInt32.toNat_lt a
  have := UInt32.toNat_lt b
  omega

theorem eq_add_iff_gap {a b k : UInt32} : b = a + k ↔ (b - a).toNat = k.toNat := by
  rw [← UInt32.toNat_inj, UInt32.toNat_sub, UInt32.toNat_add]
  have := UInt32.toNat_lt a
  have := UInt32.toNat_lt b
  have := UInt32.toNat_lt k
  omega

end Ring
