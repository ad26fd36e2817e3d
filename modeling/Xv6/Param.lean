import Mathlib

set_option autoImplicit false

/-!
# Constants and address arithmetic

The numbers of `param.h`, `memlayout.h` and `mmu.h`, and their macros over 32-bit
unsigned words. A `uint` is a `Nat` below `2^32`; the macros reduce modulo `2^32`
exactly where the C arithmetic can wrap.
-/
namespace Xv6

def NPROC : Nat := 64

instance : NeZero NPROC := ⟨by decide⟩
def NCPU : Nat := 8
def KSTACKSIZE : Nat := 4096
def NOFILE : Nat := 16
def MAXARG : Nat := 32
def MAXOPBLOCKS : Nat := 10
def LOGSIZE : Nat := MAXOPBLOCKS * 3
def NBUF : Nat := MAXOPBLOCKS * 3
def FSSIZE : Nat := 1000

def EXTMEM : Nat := 0x100000
def PHYSTOP : Nat := 0xE000000
def DEVSPACE : Nat := 0xFE000000
def KERNBASE : Nat := 0x80000000
def KERNLINK : Nat := KERNBASE + EXTMEM

def WORD : Nat := 2 ^ 32

def V2P (a : Nat) : Nat := (a + WORD - KERNBASE) % WORD
def P2V (a : Nat) : Nat := (a + KERNBASE) % WORD

def NPDENTRIES : Nat := 1024
def NPTENTRIES : Nat := 1024
def PGSIZE : Nat := 4096
def PTXSHIFT : Nat := 12
def PDXSHIFT : Nat := 22

def PDX (va : Nat) : Nat := (va >>> PDXSHIFT) &&& 0x3FF
def PTX (va : Nat) : Nat := (va >>> PTXSHIFT) &&& 0x3FF
def PGADDR (d t o : Nat) : Nat := ((d <<< PDXSHIFT) ||| (t <<< PTXSHIFT) ||| o) % WORD

def PGROUNDUP (sz : Nat) : Nat := (sz + PGSIZE - 1) % WORD / PGSIZE * PGSIZE
def PGROUNDDOWN (a : Nat) : Nat := a / PGSIZE * PGSIZE

def PTE_P : Nat := 0x001
def PTE_W : Nat := 0x002
def PTE_U : Nat := 0x004

/-- `~` on a `uint`. -/
def uintNot (x : Nat) : Nat := WORD - 1 - x

def PTE_ADDR (pte : Nat) : Nat := pte &&& uintNot 0xFFF
def PTE_FLAGS (pte : Nat) : Nat := pte &&& 0xFFF

/-- The linker symbols of `kernel.ld` that the kernel reads: `data`, placed at a page
boundary after the read-only sections, and `end`, the first address after the bss. -/
structure Linker where
  data : Nat
  kend : Nat
  data_aligned : data % PGSIZE = 0
  kernlink_le_data : KERNLINK ≤ data
  data_le_end : data ≤ kend
  end_lt : kend < KERNBASE + PHYSTOP

theorem PDX_eq (va : Nat) : PDX va = va / 2 ^ 22 % 1024 := by
  simp only [PDX, PDXSHIFT, Nat.shiftRight_eq_div_pow]
  exact Nat.and_two_pow_sub_one_eq_mod _ 10

theorem PTX_eq (va : Nat) : PTX va = va / 2 ^ 12 % 1024 := by
  simp only [PTX, PTXSHIFT, Nat.shiftRight_eq_div_pow]
  exact Nat.and_two_pow_sub_one_eq_mod _ 10

theorem PGROUNDUP_eq {sz : Nat} (h : sz + PGSIZE ≤ WORD) :
    PGROUNDUP sz = (sz + PGSIZE - 1) / PGSIZE * PGSIZE := by
  unfold PGROUNDUP
  rw [Nat.mod_eq_of_lt (by unfold PGSIZE at *; omega)]

theorem P2V_V2P {a : Nat} (h₁ : KERNBASE ≤ a) (h₂ : a < WORD) : P2V (V2P a) = a := by
  unfold V2P P2V WORD KERNBASE at *
  omega

theorem PGADDR_dir {d : Nat} (h : d < 1024) : PGADDR d 0 0 = d * 2 ^ 22 := by
  simp only [PGADDR, PDXSHIFT, Nat.shiftLeft_eq, Nat.zero_mul, Nat.or_zero, WORD]
  exact Nat.mod_eq_of_lt (by omega)

theorem add_PGSIZE_le {a b : Nat} (ha : a % PGSIZE = 0) (hb : b % PGSIZE = 0) (h : a < b) :
    a + PGSIZE ≤ b := by
  unfold PGSIZE at *
  omega

theorem eq_of_PDX_PTX {a b : Nat} (ha : a % PGSIZE = 0) (hb : b % PGSIZE = 0) (ha' : a < WORD)
    (hb' : b < WORD) (hd : PDX a = PDX b) (ht : PTX a = PTX b) : a = b := by
  rw [PDX_eq, PDX_eq] at hd
  rw [PTX_eq, PTX_eq] at ht
  unfold PGSIZE WORD at *
  omega

end Xv6
