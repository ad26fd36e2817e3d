import Xv6.String

set_option autoImplicit false

/-!
# `memmove` in `ulib.c`

The user library's `memmove` always copies forward, one byte a pass, like the forward loop of
the kernel's. Where the destination starts inside the source, above it by `k`, each pass reads
a byte that an earlier pass has already written, so the first `k` source bytes repeat through
the destination (`memmove_overlap_repeats`) instead of the source being copied.
-/
namespace Xv6

namespace Ulib

/-- `memmove(vdst, vsrc, n)` of `ulib.c`: `while(n-- > 0) *dst++ = *src++;` on an `int` count. -/
def memmove (b : Nat → UInt8) (vdst vsrc : Nat) (n : Int32) : Nat → UInt8 :=
  copyForward b vdst vsrc n.toInt.toNat

/-- `strchr(s, c)` of `ulib.c` on the bytes `b`, looking at no more than `fuel` of them:
`for(; *s; s++) if(*s == c) return (char*)s; return 0;` -/
def strchr (b : Nat → UInt8) (s : Nat) (c : UInt8) : Nat → Option Nat
  | 0 => none
  | fuel + 1 => if b s = 0 then none else if b s = c then some s else strchr b (s + 1) c fuel

end Ulib

theorem copyForward_shift (b : Nat → UInt8) (s : Nat) {k : Nat} (hk : 0 < k) (j : Nat) :
    ∀ a, copyForward b (s + k) s j a =
      if s + k ≤ a ∧ a < s + k + j then b (s + (a - (s + k)) % k) else b a := by
  induction j with
  | zero => intro a; rw [if_neg (by omega)]; rfl
  | succ j ih =>
    intro a
    have hread : copyForward b (s + k) s j (s + j) = b (s + j % k) := by
      rw [ih]
      by_cases hjk : k ≤ j
      · rw [if_pos (by omega), Nat.mod_eq_sub_mod hjk]
        congr 3
        omega
      · rw [if_neg (by omega), Nat.mod_eq_of_lt (by omega)]
    rw [copyForward_succ, hread]
    by_cases ha : a = s + k + j
    · subst ha
      rw [Function.update_self, if_pos (by omega)]
      congr 3
      omega
    · rw [Function.update_of_ne ha, ih]
      by_cases hin : s + k ≤ a ∧ a < s + k + j
      · rw [if_pos hin, if_pos (by omega)]
      · rw [if_neg hin, if_neg (by omega)]

/-- `ulib.c`'s `memmove` into a destination `k` bytes above its source: byte `i` of the
destination is source byte `i % k`, so the call is no copy as soon as the destination reaches
past the `k`-th byte and the source bytes `0` and `k` differ. -/
theorem memmove_overlap_repeats (b : Nat → UInt8) (s k : Nat) (n : Int32) (hk : 0 < k) :
    (∀ i < n.toInt.toNat, Ulib.memmove b (s + k) s n (s + k + i) = b (s + i % k)) ∧
      (k < n.toInt.toNat → b (s + k) ≠ b s →
        Ulib.memmove b (s + k) s n ≠ moved b (s + k) s n.toInt.toNat) := by
  have hrep : ∀ i < n.toInt.toNat, Ulib.memmove b (s + k) s n (s + k + i) = b (s + i % k) := by
    intro i hi
    unfold Ulib.memmove
    rw [copyForward_shift b s hk, if_pos (by omega)]
    congr 3
    omega
  refine ⟨hrep, fun hkn hb heq => hb ?_⟩
  have hmoved : moved b (s + k) s n.toInt.toNat (s + k + k) = b (s + k) := by
    unfold moved
    rw [if_pos (by omega)]
    congr 1
    omega
  rw [← hmoved, ← heq, hrep k hkn, Nat.mod_self, Nat.add_zero]

theorem memmove_overlap_repeats_two :
    (0 : Nat) < 1 ∧ Ulib.memmove (fun a => a.toUInt8) (0 + 1) 0 2 ≠
      moved (fun a => a.toUInt8) (0 + 1) 0 (2 : Int32).toInt.toNat :=
  ⟨by decide, (memmove_overlap_repeats (fun a => a.toUInt8) 0 1 2 (by decide)).2
    (by decide) (by decide)⟩

end Xv6
