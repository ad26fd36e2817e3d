import Mathlib

set_option autoImplicit false

/-!
# Flag bits of a machine word

A flag is a power of two tested with `&`, set with `|` and cleared with `& ~`. On a `w`-bit
word `~f` is `2^w - 1 - f`. These lemmas reduce each operation to `Nat.testBit`, and split a
word into an aligned address and the low flag bits.
-/
namespace FlagWord

theorem and_two_pow_ne_zero_iff (x k : Nat) : x &&& 2 ^ k ≠ 0 ↔ x.testBit k = true := by
  constructor
  · intro h
    by_contra hb
    apply h
    apply Nat.eq_of_testBit_eq
    intro i
    simp only [Nat.testBit_and, Nat.testBit_two_pow, Nat.zero_testBit]
    by_cases hi : k = i
    · subst hi
      simpa using hb
    · simp [hi]
  · intro h h0
    have := congrArg (fun y => y.testBit k) h0
    simp [h] at this

theorem testBit_complement {w f : Nat} (hf : f < 2 ^ w) (i : Nat) :
    (2 ^ w - 1 - f).testBit i = (decide (i < w) && !f.testBit i) := by
  rw [show 2 ^ w - 1 - f = 2 ^ w - (f + 1) by omega]
  exact Nat.testBit_two_pow_sub_succ hf i

theorem testBit_and_complement {w f : Nat} (hf : f < 2 ^ w) (x i : Nat) :
    (x &&& (2 ^ w - 1 - f)).testBit i = (x.testBit i && decide (i < w) && !f.testBit i) := by
  rw [Nat.testBit_and, testBit_complement hf, Bool.and_assoc]

theorem testBit_aligned {a k i : Nat} (ha : a % 2 ^ k = 0) (hi : i < k) : a.testBit i = false := by
  have h := Nat.testBit_mod_two_pow a k i
  rw [ha, Nat.zero_testBit] at h
  simp [hi] at h
  exact h

theorem addr_of_or {a f k w : Nat} (hk : k ≤ w) (ha : a % 2 ^ k = 0) (hw : a < 2 ^ w)
    (hf : f < 2 ^ k) : (a ||| f) &&& (2 ^ w - 1 - (2 ^ k - 1)) = a := by
  have hk' : 2 ^ k - 1 < 2 ^ w := by
    have := Nat.pow_le_pow_right (by norm_num : 0 < 2) hk
    omega
  apply Nat.eq_of_testBit_eq
  intro i
  rw [Nat.testBit_and, Nat.testBit_or, testBit_complement hk', Nat.testBit_two_pow_sub_one]
  by_cases hik : i < k
  · simp [hik, testBit_aligned ha hik]
  · have hfi : f.testBit i = false := Nat.testBit_lt_two_pow (lt_of_lt_of_le hf
      (Nat.pow_le_pow_right (by norm_num) (Nat.le_of_not_lt hik)))
    by_cases hiw : i < w
    · simp [hik, hiw, hfi]
    · have hai : a.testBit i = false := Nat.testBit_lt_two_pow (lt_of_lt_of_le hw
        (Nat.pow_le_pow_right (by norm_num) (Nat.le_of_not_lt hiw)))
      simp [hik, hiw, hfi, hai]

end FlagWord
