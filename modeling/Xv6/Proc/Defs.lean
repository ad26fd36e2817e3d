import Xv6.Param

set_option autoImplicit false

/-!
# Processes: `proc.h`

The fields of `struct proc` that the modelled code reads or writes. A pointer to a slot of
`ptable.proc` is a `Fin NPROC`; the trap frame, which the C code keeps on the kernel stack,
is a value with the three registers the code touches.
-/
namespace Xv6

inductive ProcState where
  | UNUSED | EMBRYO | SLEEPING | RUNNABLE | RUNNING | ZOMBIE
  deriving DecidableEq, Repr

/-- A `sleep` channel: a slot of the process table, as `wait` and `exit` use it, or the address
of another kernel object. The null channel is `addr 0`. -/
inductive Chan where
  | proc (i : Fin NPROC)
  | addr (a : Nat)
  deriving DecidableEq, Repr

def Chan.ofProc : Option (Fin NPROC) → Chan
  | none => .addr 0
  | some i => .proc i

structure Trapframe where
  eax : Nat
  esp : Nat
  eip : Nat
  deriving DecidableEq, Repr

structure Proc where
  vbase : Nat
  vlimit : Nat
  pgdir : Nat
  kstack : Nat
  state : ProcState
  pid : Int32
  parent : Option (Fin NPROC)
  tf : Trapframe
  chan : Chan
  killed : Bool

/-- The C conversion of an `int` to `uint`. -/
def uint (x : Int32) : Nat := x.toBitVec.toNat

theorem uint_lt (x : Int32) : uint x < WORD := x.toBitVec.isLt

theorem uint_inj {x y : Int32} (h : uint x = uint y) : x = y :=
  Int32.toBitVec_inj.mp (BitVec.eq_of_toNat_eq h)

theorem int_toInt_eq (x : Int32) :
    x.toInt = if 2 * uint x < 2 ^ 32 then (uint x : Int) else (uint x : Int) - (2 ^ 32 : Nat) :=
  BitVec.toInt_eq_toNat_cond x.toBitVec

theorem int_neg_iff (x : Int32) : x < 0 ↔ 2 ^ 31 ≤ uint x := by
  rw [Int32.lt_iff_toInt_lt, Int32.toInt_zero, int_toInt_eq]
  have := uint_lt x
  unfold WORD at this
  split_ifs <;> omega

theorem int_pos_iff (x : Int32) : 0 < x ↔ 0 < uint x ∧ uint x < 2 ^ 31 := by
  rw [Int32.lt_iff_toInt_lt, Int32.toInt_zero, int_toInt_eq]
  have := uint_lt x
  unfold WORD at this
  split_ifs <;> omega

theorem uint_neg (x : Int32) : uint (-x) = (WORD - uint x) % WORD := by
  unfold uint
  rw [Int32.toBitVec_neg, BitVec.toNat_neg]
  rfl

theorem uint_ofNat {v : Nat} (h : v < WORD) : uint (Int32.ofNat v) = v := by
  unfold uint WORD at *
  simp
  omega

theorem uint_add (x y : Int32) : uint (x + y) = (uint x + uint y) % WORD := by
  unfold uint
  rw [Int32.toBitVec_add, BitVec.toNat_add]
  rfl

theorem uint_mul (x y : Int32) : uint (x * y) = uint x * uint y % WORD := by
  unfold uint
  rw [Int32.toBitVec_mul, BitVec.toNat_mul]
  rfl

theorem int_lt_iff_uint {x y : Int32} (hx : uint x < 2 ^ 31) (hy : uint y < 2 ^ 31) :
    x < y ↔ uint x < uint y := by
  rw [Int32.lt_iff_toInt_lt, int_toInt_eq, int_toInt_eq, if_pos (by omega), if_pos (by omega)]
  omega

theorem uint_mod_of_nonneg {x y : Int32} (hx : uint x < 2 ^ 31) (hy : uint y < 2 ^ 31) :
    uint (x % y) = uint x % uint y := by
  have h := Int32.toInt_mod x y
  rw [int_toInt_eq x, int_toInt_eq y, if_pos (by omega), if_pos (by omega),
    Int.tmod_eq_emod_of_nonneg (by omega), int_toInt_eq] at h
  have hm : uint x % uint y < 2 ^ 31 := lt_of_le_of_lt (Nat.mod_le _ _) hx
  split_ifs at h with h1
  · exact_mod_cast h
  · exfalso
    have := uint_lt (x % y)
    unfold WORD at this
    omega

end Xv6
