import Xv6.Vm.UserMem
import Xv6.Proc.Defs

set_option autoImplicit false

/-!
# System call arguments: `syscall.c` and `argfd`

The arguments of a system call are the words above the saved user `esp`. Each function returns
`none` where the C function returns `-1`; a fault while it reads user memory is an error. The
bounds tests compare `uint` values, and `addr + 4` wraps at `2^32` as in the C code.
-/
namespace Xv6

def fetchint (m : Mem) (p : Proc) (addr : Nat) : Except String (Option Int32) :=
  if addr ≥ p.vlimit ∨ (addr + 4) % WORD > p.vlimit ∨ addr < p.vbase ∨
      (addr + 4) % WORD ≤ p.vbase then .ok none
  else (loadUserInt m p.pgdir addr).map some

/-- The scan of `fetchstr` at `s`, with `n` bytes left below `vlimit`: the length of the string
at `addr` once a `0` byte is found. -/
def fetchstrLoop (m : Mem) (pgdir addr : Nat) : Nat → Nat → Except String (Option Nat)
  | 0, _ => .ok none
  | n + 1, s =>
    match loadUser m pgdir s with
    | .error e => .error e
    | .ok b => if b = 0 then .ok (some (s - addr)) else fetchstrLoop m pgdir addr n (s + 1)

def fetchstr (m : Mem) (p : Proc) (addr : Nat) : Except String (Option Nat) :=
  if addr ≥ p.vlimit ∨ addr < p.vbase then .ok none
  else fetchstrLoop m p.pgdir addr (p.vlimit - addr) addr

def argint (m : Mem) (p : Proc) (n : Nat) : Except String (Option Int32) :=
  fetchint m p ((p.tf.esp + 4 + 4 * n) % WORD)

/-- `argptr(n, &pp, size)`: the pointer once it and `size` pass the bounds tests. -/
def argptr (m : Mem) (p : Proc) (n : Nat) (size : Int32) : Except String (Option Nat) :=
  match argint m p n with
  | .error e => .error e
  | .ok none => .ok none
  | .ok (some i) =>
    if size < 0 ∨ uint i ≥ p.vlimit ∨ (uint i + uint size) % WORD > p.vlimit ∨
        uint i < p.vbase ∨ (uint i + uint size) % WORD ≤ p.vbase then .ok none
    else .ok (some (uint i))

/-- `argstr(n, &pp)`: the pointer and the length of the string. -/
def argstr (m : Mem) (p : Proc) (n : Nat) : Except String (Option (Nat × Nat)) :=
  match argint m p n with
  | .error e => .error e
  | .ok none => .ok none
  | .ok (some addr) => (fetchstr m p (uint addr)).map (Option.map fun len => (uint addr, len))

/-- `argfd(n, &fd, &f)` over the caller's open files `ofile`. The C test
`fd < 0 || fd >= NOFILE` on the `int` is `uint fd ≥ NOFILE` on its bits (`argfd_test_iff`). -/
def argfd {F : Type} (ofile : Fin NOFILE → Option F) (m : Mem) (p : Proc) (n : Nat) :
    Except String (Option (Nat × F)) :=
  match argint m p n with
  | .error e => .error e
  | .ok none => .ok none
  | .ok (some fd) =>
    if h : uint fd < NOFILE then
      match ofile ⟨uint fd, h⟩ with
      | none => .ok none
      | some f => .ok (some (uint fd, f))
    else .ok none

theorem argfd_test_iff (fd : Int32) : (fd < 0 ∨ fd ≥ Int32.ofNat NOFILE) ↔ ¬ uint fd < NOFILE := by
  have hN : uint (Int32.ofNat NOFILE) = NOFILE := by decide
  by_cases hneg : fd < 0
  · have h := (int_neg_iff fd).1 hneg
    unfold NOFILE at *
    simp only [hneg, true_or, true_iff]
    omega
  · have h := (int_neg_iff fd).not.1 hneg
    rw [ge_iff_le, Int32.le_iff_toInt_le, int_toInt_eq, int_toInt_eq, hN,
      if_pos (by unfold NOFILE; omega), if_pos (by omega)]
    unfold NOFILE at *
    simp only [hneg, false_or]
    omega

namespace SameReads

variable {m m' : Mem} {p : Proc}

theorem fetchint_eq (h : SameReads m' m p.pgdir) (addr : Nat) :
    fetchint m' p addr = fetchint m p addr := by
  unfold fetchint
  rw [h.loadUserInt_eq]

theorem fetchstr_eq (h : SameReads m' m p.pgdir) (addr : Nat) :
    fetchstr m' p addr = fetchstr m p addr := by
  have hloop : ∀ n s, fetchstrLoop m' p.pgdir addr n s = fetchstrLoop m p.pgdir addr n s := by
    intro n
    induction n with
    | zero => intro s; rfl
    | succ n ih =>
      intro s
      simp only [fetchstrLoop, h.loadUser_eq, ih]
  unfold fetchstr
  rw [hloop]

theorem argint_eq (h : SameReads m' m p.pgdir) (n : Nat) : argint m' p n = argint m p n :=
  h.fetchint_eq _

theorem argptr_eq (h : SameReads m' m p.pgdir) (n : Nat) (size : Int32) :
    argptr m' p n size = argptr m p n size := by
  unfold argptr
  rw [h.argint_eq]

theorem argfd_eq {F : Type} (ofile : Fin NOFILE → Option F) (h : SameReads m' m p.pgdir)
    (n : Nat) : argfd ofile m' p n = argfd ofile m p n := by
  unfold argfd
  rw [h.argint_eq]

end SameReads

theorem argptr_ok {m : Mem} {p : Proc} {n : Nat} {a size : Nat}
    (hi : argint m p n = .ok (some (Int32.ofNat a))) (ha : a < 2 ^ 31) (hs : size < 2 ^ 31)
    (hpos : 0 < size) (hlo : p.vbase ≤ a) (hhi : a + size ≤ p.vlimit) :
    argptr m p n (Int32.ofNat size) = .ok (some a) := by
  have hW : WORD = 4294967296 := rfl
  have hua : uint (Int32.ofNat a) = a := uint_ofNat (by omega)
  have hus : uint (Int32.ofNat size) = size := uint_ofNat (by omega)
  have hneg : ¬ (Int32.ofNat size < 0) := by
    rw [int_neg_iff, hus]
    omega
  unfold argptr
  rw [hi]
  dsimp only
  rw [hua, hus, hW]
  rw [if_neg (by rintro (h | h | h | h | h) <;> first | exact hneg h | omega)]

/-! ## The bounds tests as intervals

With `vlimit < KERNBASE` the four `uint` comparisons of `fetchint` and `argptr` say exactly that
the range `[a, a + s)` of a nonempty object lies in `[vbase, vlimit)`: the sum `a + s` could
wrap only for an `a` at or above `vlimit`, which the first test already refuses. -/

theorem range_test_sound {lo hi a s : Nat} (hhi : hi < KERNBASE) (hs : s < 2 ^ 31)
    (h : ¬ (a ≥ hi ∨ (a + s) % WORD > hi ∨ a < lo ∨ (a + s) % WORD ≤ lo)) :
    lo ≤ a ∧ a + s ≤ hi := by
  have hK : KERNBASE = 2147483648 := rfl
  have hW : WORD = 4294967296 := rfl
  rw [hW] at h
  rw [hK] at hhi
  omega

theorem range_test_iff {lo hi a s : Nat} (hhi : hi < KERNBASE) (hs : s < 2 ^ 31) (hpos : 0 < s) :
    (a ≥ hi ∨ (a + s) % WORD > hi ∨ a < lo ∨ (a + s) % WORD ≤ lo) ↔ ¬ (lo ≤ a ∧ a + s ≤ hi) := by
  constructor
  · intro h hin
    have hK : KERNBASE = 2147483648 := rfl
    have hW : WORD = 4294967296 := rfl
    rw [hW] at h
    rw [hK] at hhi
    omega
  · intro h
    by_contra hn
    exact h (range_test_sound hhi hs hn)

theorem fetchint_eq_if {m : Mem} {p : Proc} (hk : p.vlimit < KERNBASE) (addr : Nat) :
    fetchint m p addr = if p.vbase ≤ addr ∧ addr + 4 ≤ p.vlimit then
      (loadUserInt m p.pgdir addr).map some else .ok none := by
  unfold fetchint
  by_cases hin : p.vbase ≤ addr ∧ addr + 4 ≤ p.vlimit
  · rw [if_pos hin, if_neg ((range_test_iff hk (by decide) (by decide)).not.mpr (not_not.mpr hin))]
  · rw [if_neg hin, if_pos ((range_test_iff hk (by decide) (by decide)).mpr hin)]

theorem toInt_of_not_neg {x : Int32} (h : ¬ x < 0) : x.toInt = uint x ∧ uint x < 2 ^ 31 := by
  have hx := (int_neg_iff x).not.mp h
  rw [int_toInt_eq, if_pos (by omega)]
  omega

theorem argptr_sound {m : Mem} {p : Proc} {n : Nat} {i size : Int32} {a : Nat}
    (hk : p.vlimit < KERNBASE) (hi : argint m p n = .ok (some i))
    (h : argptr m p n size = .ok (some a)) :
    a = uint i ∧ 0 ≤ size.toInt ∧ p.vbase ≤ uint i ∧ (uint i : Int) + size.toInt ≤ p.vlimit := by
  unfold argptr at h
  rw [hi] at h
  dsimp only at h
  by_cases htest : size < 0 ∨ uint i ≥ p.vlimit ∨ (uint i + uint size) % WORD > p.vlimit ∨
      uint i < p.vbase ∨ (uint i + uint size) % WORD ≤ p.vbase
  · rw [if_pos htest] at h
    cases h
  · rw [if_neg htest] at h
    have hsize : ¬ size < 0 := fun hneg => htest (Or.inl hneg)
    obtain ⟨hint, hlt⟩ := toInt_of_not_neg hsize
    have hrange := range_test_sound hk hlt (fun hr => htest (Or.inr hr))
    refine ⟨(Option.some.inj (Except.ok.inj h)).symm, ?_, hrange.1, ?_⟩ <;> omega

theorem argptr_eq_if {m : Mem} {p : Proc} {n : Nat} {i size : Int32}
    (hk : p.vlimit < KERNBASE) (hi : argint m p n = .ok (some i)) (hpos : 0 < size.toInt) :
    argptr m p n size = if p.vbase ≤ uint i ∧ (uint i : Int) + size.toInt ≤ p.vlimit then
      .ok (some (uint i)) else .ok none := by
  have hsize : ¬ size < 0 := by
    rw [Int32.lt_iff_toInt_lt, Int32.toInt_zero]
    omega
  obtain ⟨hint, hlt⟩ := toInt_of_not_neg hsize
  have hiff := @range_test_iff p.vbase _ (uint i) _ hk hlt (by omega)
  unfold argptr
  rw [hi]
  dsimp only
  by_cases hin : p.vbase ≤ uint i ∧ (uint i : Int) + size.toInt ≤ p.vlimit
  · have hnat : p.vbase ≤ uint i ∧ uint i + uint size ≤ p.vlimit := by omega
    rw [if_pos hin, if_neg]
    rintro (hneg | htest)
    · exact hsize hneg
    · exact hiff.mp htest hnat
  · have hnat : ¬ (p.vbase ≤ uint i ∧ uint i + uint size ≤ p.vlimit) := by omega
    rw [if_neg hin, if_pos (Or.inr (hiff.mpr hnat))]

/-! ## `fetchstr` -/

/-- The first `0` byte at or after `s` is at `e`, and every byte from `s` to it is readable. -/
def FirstNul (m : Mem) (pgdir s e : Nat) : Prop :=
  s ≤ e ∧ loadUser m pgdir e = .ok 0 ∧
    ∀ j, s ≤ j → j < e → ∃ b, loadUser m pgdir j = .ok b ∧ b ≠ 0

namespace FirstNul

variable {m : Mem} {pgdir s e : Nat}

theorem not_of_error {err : String} (hl : loadUser m pgdir s = .error err) :
    ¬ FirstNul m pgdir s e := by
  rintro ⟨hse, hnul, hbefore⟩
  by_cases heq : e = s
  · rw [heq, hl] at hnul
    cases hnul
  · obtain ⟨b, hb, _⟩ := hbefore s (Nat.le_refl s) (by omega)
    rw [hl] at hb
    cases hb

theorem iff_of_zero (hl : loadUser m pgdir s = .ok 0) : FirstNul m pgdir s e ↔ e = s := by
  constructor
  · rintro ⟨hse, _, hbefore⟩
    by_contra hne
    obtain ⟨b, hb, hb0⟩ := hbefore s (Nat.le_refl s) (by omega)
    rw [hl] at hb
    exact hb0 (Except.ok.inj hb).symm
  · intro he
    rw [he]
    exact ⟨Nat.le_refl s, hl, fun j hj hj' => absurd hj' (by omega)⟩

theorem iff_of_ne_zero {b : UInt8} (hl : loadUser m pgdir s = .ok b) (hb : b ≠ 0) :
    FirstNul m pgdir s e ↔ FirstNul m pgdir (s + 1) e := by
  constructor
  · rintro ⟨hse, hnul, hbefore⟩
    have hne : s ≠ e := by
      rintro rfl
      rw [hl] at hnul
      exact hb (Except.ok.inj hnul)
    exact ⟨by omega, hnul, fun j hj hj' => hbefore j (by omega) hj'⟩
  · rintro ⟨hse, hnul, hbefore⟩
    refine ⟨by omega, hnul, fun j hj hj' => ?_⟩
    by_cases hjs : j = s
    · exact ⟨b, hjs ▸ hl, hb⟩
    · exact hbefore j (by omega) hj'

theorem congr {m' : Mem} (h : FirstNul m pgdir s e)
    (hsame : ∀ j, s ≤ j → j ≤ e → loadUser m' pgdir j = loadUser m pgdir j) :
    FirstNul m' pgdir s e :=
  ⟨h.1, (hsame e h.1 (Nat.le_refl e)).trans h.2.1, fun j hj hj' =>
    (hsame j hj (Nat.le_of_lt hj')) ▸ h.2.2 j hj hj'⟩

end FirstNul

theorem fetchstrLoop_eq_some_iff {m : Mem} {pgdir addr k : Nat} (n : Nat) :
    ∀ s, addr ≤ s → (fetchstrLoop m pgdir addr n s = .ok (some k) ↔
      addr + k < s + n ∧ FirstNul m pgdir s (addr + k)) := by
  induction n with
  | zero =>
    intro s _
    constructor
    · intro h
      cases h
    · rintro ⟨hlt, hse, _⟩
      omega
  | succ n ih =>
    intro s hs
    unfold fetchstrLoop
    cases hl : loadUser m pgdir s with
    | error e =>
      constructor
      · intro h
        cases h
      · rintro ⟨_, hfirst⟩
        exact absurd hfirst (FirstNul.not_of_error hl)
    | ok b =>
      dsimp only
      by_cases hb : b = 0
      · rw [if_pos hb]
        subst hb
        rw [FirstNul.iff_of_zero hl]
        constructor
        · intro h
          have hk : s - addr = k := Option.some.inj (Except.ok.inj h)
          omega
        · rintro ⟨_, hk⟩
          have hk' : s - addr = k := by omega
          rw [hk']
      · have hn : s + 1 + n = s + (n + 1) := by omega
        rw [if_neg hb, ih (s + 1) (by omega), FirstNul.iff_of_ne_zero hl hb, hn]

theorem fetchstr_eq_some_iff {m : Mem} {p : Proc} (addr k : Nat) :
    fetchstr m p addr = .ok (some k) ↔
      p.vbase ≤ addr ∧ addr + k < p.vlimit ∧ FirstNul m p.pgdir addr (addr + k) := by
  unfold fetchstr
  by_cases htest : addr ≥ p.vlimit ∨ addr < p.vbase
  · rw [if_pos htest]
    constructor
    · intro h
      cases h
    · rintro ⟨hlo, hhi, _⟩
      omega
  · have hlo : p.vbase ≤ addr := by omega
    have hhi : addr + k < addr + (p.vlimit - addr) ↔ addr + k < p.vlimit := by omega
    rw [if_neg htest, fetchstrLoop_eq_some_iff _ addr (Nat.le_refl addr), hhi]
    simp only [hlo, true_and]

/-- The bounds arithmetic of the system call arguments, for a process whose limit is below
`KERNBASE`: `fetchint` reads exactly the words inside `[vbase, vlimit)`; `argptr` accepts only a
nonnegative size and a range inside it, and for a positive size every such range; `fetchstr`
returns `k` exactly when the first `0` at or after `addr` is at `addr + k`, inside the limits,
and then it returns the same on any memory that agrees on the bytes from `addr` to `addr + k`. -/
theorem syscall_arg_bounds (m : Mem) (p : Proc) (hk : p.vlimit < KERNBASE) :
    (∀ addr, fetchint m p addr = if p.vbase ≤ addr ∧ addr + 4 ≤ p.vlimit then
      (loadUserInt m p.pgdir addr).map some else .ok none) ∧
    (∀ n i size, argint m p n = .ok (some i) →
      (∀ a, argptr m p n size = .ok (some a) →
        a = uint i ∧ 0 ≤ size.toInt ∧ p.vbase ≤ uint i ∧ (uint i : Int) + size.toInt ≤ p.vlimit) ∧
      (0 < size.toInt → argptr m p n size =
        if p.vbase ≤ uint i ∧ (uint i : Int) + size.toInt ≤ p.vlimit then .ok (some (uint i))
        else .ok none)) ∧
    (∀ addr k, fetchstr m p addr = .ok (some k) ↔
      p.vbase ≤ addr ∧ addr + k < p.vlimit ∧ FirstNul m p.pgdir addr (addr + k)) ∧
    (∀ addr k (m' : Mem), fetchstr m p addr = .ok (some k) →
      (∀ j ≤ k, loadUser m' p.pgdir (addr + j) = loadUser m p.pgdir (addr + j)) →
      fetchstr m' p addr = .ok (some k)) := by
  refine ⟨fetchint_eq_if hk, fun n i size hi => ⟨fun a h => argptr_sound hk hi h,
    fun hpos => argptr_eq_if hk hi hpos⟩, fetchstr_eq_some_iff, ?_⟩
  intro addr k m' h hsame
  obtain ⟨hlo, hhi, hfirst⟩ := (fetchstr_eq_some_iff addr k).mp h
  have hsame' : ∀ j, addr ≤ j → j ≤ addr + k → loadUser m' p.pgdir j = loadUser m p.pgdir j := by
    intro j hj hj'
    have := hsame (j - addr) (by omega)
    rwa [Nat.add_sub_cancel' hj] at this
  exact (fetchstr_eq_some_iff addr k).mpr ⟨hlo, hhi, hfirst.congr hsame'⟩

theorem syscall_arg_bounds_wrapped :
    (⟨PGSIZE, 2 * PGSIZE, 0, 0, .RUNNING, 1, none, ⟨0, 0, 0⟩, .addr 0, false⟩ : Proc).vlimit <
        KERNBASE ∧
      fetchint ⟨[], fun _ _ => 0, fun _ => 0⟩
        ⟨PGSIZE, 2 * PGSIZE, 0, 0, .RUNNING, 1, none, ⟨0, 0, 0⟩, .addr 0, false⟩ 0xFFFFFFFE =
        .ok none := by
  refine ⟨by decide, ?_⟩
  rw [(syscall_arg_bounds ⟨[], fun _ _ => 0, fun _ => 0⟩
    ⟨PGSIZE, 2 * PGSIZE, 0, 0, .RUNNING, 1, none, ⟨0, 0, 0⟩, .addr 0, false⟩ (by decide)).1]
  rw [if_neg (by decide)]

end Xv6
