import Xv6.Vm.Dealloc

set_option autoImplicit false

/-!
# The kernel's accesses to user memory

During a system call the current page directory is the caller's, so the kernel reaches user
address `va` at `va`'s offset in the page its PTE maps. A load faults when that PTE is not
present. `entry.S` sets `CR0_WP`, so a store faults as well when the directory entry or the
PTE lacks `PTE_W`. A fault in kernel mode ends in `panic("trap")`.
-/
namespace Xv6

namespace Mem

def kaddr (m : Mem) (pgdir va : Nat) : Nat := m.page pgdir va + va % PGSIZE

def WritableAt (m : Mem) (pgdir va : Nat) : Prop :=
  Present (m.pte pgdir va) ∧ Writable (m.pt pgdir (PDX va)) ∧ Writable (m.pte pgdir va)

instance (m : Mem) (pgdir va : Nat) : Decidable (m.WritableAt pgdir va) :=
  inferInstanceAs (Decidable (_ ∧ _ ∧ _))

end Mem

/-- A kernel load of the byte at user address `va`. -/
def loadUser (m : Mem) (pgdir va : Nat) : Except String UInt8 :=
  if Present (m.pte pgdir va) then .ok (m.bytes (m.kaddr pgdir va)) else .error "trap"

/-- A kernel store of `b` at user address `va`. -/
def storeUser (m : Mem) (pgdir va : Nat) (b : UInt8) : Except String Mem :=
  if m.WritableAt pgdir va then .ok (m.writeBytes (m.kaddr pgdir va) [b]) else .error "trap"

def loadUserBytes (m : Mem) (pgdir : Nat) : Nat → Nat → Except String (List UInt8)
  | 0, _ => .ok []
  | n + 1, va =>
    match loadUser m pgdir va with
    | .error e => .error e
    | .ok b => (loadUserBytes m pgdir n ((va + 1) % WORD)).map fun bs => b :: bs

def storeUserBytes (m : Mem) (pgdir va : Nat) : List UInt8 → Except String Mem
  | [] => .ok m
  | b :: bs =>
    match storeUser m pgdir va b with
    | .error e => .error e
    | .ok m => storeUserBytes m pgdir ((va + 1) % WORD) bs

def bytesValue : List UInt8 → Nat
  | [] => 0
  | b :: bs => b.toNat + 256 * bytesValue bs

def loadUserInt (m : Mem) (pgdir addr : Nat) : Except String Int32 :=
  (loadUserBytes m pgdir 4 addr).map fun bs => Int32.ofNat (bytesValue bs)

/-- `m'` shows the kernel the same user memory as `m` through `pgdir`: the same pages are mapped,
at the same places, and hold the same bytes. -/
structure SameReads (m' m : Mem) (pgdir : Nat) : Prop where
  bytes_eq : m'.bytes = m.bytes
  present_iff : ∀ va, Present (m'.pte pgdir va) ↔ Present (m.pte pgdir va)
  addr_eq : ∀ va, PTE_ADDR (m'.pte pgdir va) = PTE_ADDR (m.pte pgdir va)

namespace SameReads

variable {m m' : Mem} {pgdir : Nat}

theorem of_pages (hb : m'.bytes = m.bytes)
    (hp : ∀ va, va % PGSIZE = 0 → va < WORD →
      (Present (m'.pte pgdir va) ↔ Present (m.pte pgdir va)) ∧
        PTE_ADDR (m'.pte pgdir va) = PTE_ADDR (m.pte pgdir va)) :
    SameReads m' m pgdir := by
  have hround : ∀ va, va % WORD / PGSIZE * PGSIZE % PGSIZE = 0 ∧
      va % WORD / PGSIZE * PGSIZE < WORD := by
    intro va
    unfold WORD PGSIZE
    omega
  refine ⟨hb, fun va => ?_, fun va => ?_⟩
  · rw [Mem.pte_round m', Mem.pte_round m]
    exact (hp _ (hround va).1 (hround va).2).1
  · rw [Mem.pte_round m', Mem.pte_round m]
    exact (hp _ (hround va).1 (hround va).2).2

theorem loadUser_eq (h : SameReads m' m pgdir) (va : Nat) :
    loadUser m' pgdir va = loadUser m pgdir va := by
  have hk : m'.kaddr pgdir va = m.kaddr pgdir va := by
    unfold Mem.kaddr Mem.page
    rw [h.addr_eq]
  unfold loadUser
  by_cases hp : Present (m.pte pgdir va)
  · rw [if_pos ((h.present_iff va).2 hp), if_pos hp, hk, h.bytes_eq]
  · rw [if_neg (fun h' => hp ((h.present_iff va).1 h')), if_neg hp]

theorem loadUserBytes_eq (h : SameReads m' m pgdir) (n : Nat) :
    ∀ va, loadUserBytes m' pgdir n va = loadUserBytes m pgdir n va := by
  induction n with
  | zero => intro va; rfl
  | succ n ih =>
    intro va
    simp only [loadUserBytes, h.loadUser_eq, ih]

theorem loadUserInt_eq (h : SameReads m' m pgdir) (addr : Nat) :
    loadUserInt m' pgdir addr = loadUserInt m pgdir addr := by
  unfold loadUserInt
  rw [h.loadUserBytes_eq]

end SameReads

theorem storeUser_fault {m : Mem} {pgdir va : Nat} (h : ¬ Writable (m.pte pgdir va))
    (b : UInt8) : storeUser m pgdir va b = .error "trap" := by
  unfold storeUser
  rw [if_neg (fun hw => h hw.2.2)]

theorem storeUserBytes_fault {m : Mem} {pgdir va : Nat} (h : ¬ Writable (m.pte pgdir va))
    (b : UInt8) (bs : List UInt8) : storeUserBytes m pgdir va (b :: bs) = .error "trap" := by
  unfold storeUserBytes
  rw [storeUser_fault h]

end Xv6
