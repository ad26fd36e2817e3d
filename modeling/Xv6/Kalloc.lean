import Xv6.Param

set_option autoImplicit false

/-!
# Physical pages: `kalloc.c`

Memory is seen at kernel virtual addresses. The free list is the list of pages that
`kmem.freelist` threads through their first words. A page in use is read either as 1024
words (a page directory or page table) or as bytes (everything else); both views are
written by `memset`, and the page-ownership invariant keeps the two kinds apart.
-/
namespace Xv6

structure Mem where
  freelist : List Nat
  pt : Nat → Nat → Nat
  bytes : Nat → UInt8

namespace Mem

def fill (m : Mem) (v : Nat) (c : UInt8) : Mem :=
  { m with
    pt := Function.update m.pt v (fun _ => c.toNat * 0x01010101)
    bytes := fun a => if v ≤ a ∧ a < v + PGSIZE then c else m.bytes a }

/-- `*p = x` for the word `i` of the page at `t`: a PDE or PTE write. -/
def store (m : Mem) (t i x : Nat) : Mem :=
  { m with pt := Function.update m.pt t (Function.update (m.pt t) i x) }

def copy (m : Mem) (dst src n : Nat) : Mem :=
  { m with bytes := fun a => if dst ≤ a ∧ a < dst + n then m.bytes (a - dst + src) else m.bytes a }

def writeBytes (m : Mem) (dst : Nat) (bs : List UInt8) : Mem :=
  { m with bytes := fun a => if dst ≤ a ∧ a < dst + bs.length then bs.getD (a - dst) 0
                             else m.bytes a }

@[simp] theorem fill_freelist (m : Mem) (v : Nat) (c : UInt8) :
    (m.fill v c).freelist = m.freelist := rfl

@[simp] theorem store_freelist (m : Mem) (t i x : Nat) :
    (m.store t i x).freelist = m.freelist := rfl

@[simp] theorem copy_freelist (m : Mem) (dst src n : Nat) :
    (m.copy dst src n).freelist = m.freelist := rfl

@[simp] theorem copy_pt (m : Mem) (dst src n : Nat) : (m.copy dst src n).pt = m.pt := rfl

@[simp] theorem writeBytes_freelist (m : Mem) (dst : Nat) (bs : List UInt8) :
    (m.writeBytes dst bs).freelist = m.freelist := rfl

@[simp] theorem writeBytes_pt (m : Mem) (dst : Nat) (bs : List UInt8) :
    (m.writeBytes dst bs).pt = m.pt := rfl

@[simp] theorem store_bytes (m : Mem) (t i x : Nat) : (m.store t i x).bytes = m.bytes := rfl

theorem fill_pt (m : Mem) (v : Nat) (c : UInt8) (t i : Nat) :
    (m.fill v c).pt t i = if t = v then c.toNat * 0x01010101 else m.pt t i := by
  by_cases h : t = v
  · subst h
    simp [fill]
  · simp [fill, h]

theorem store_pt (m : Mem) (t i x t' i' : Nat) :
    (m.store t i x).pt t' i' = if t' = t ∧ i' = i then x else m.pt t' i' := by
  by_cases h : t' = t
  · subst h
    by_cases hi : i' = i
    · subst hi
      simp [store]
    · simp [store, hi]
  · simp [store, h]

end Mem

def kalloc (m : Mem) : Option Nat × Mem :=
  match m.freelist with
  | [] => (none, m)
  | r :: rs => (some r, { m with freelist := rs })

def kfree (L : Linker) (m : Mem) (v : Nat) : Except String Mem :=
  if v % PGSIZE ≠ 0 ∨ v < L.kend ∨ V2P v ≥ PHYSTOP then .error "kfree"
  else
    let m := m.fill v 1
    .ok { m with freelist := v :: m.freelist }

/-- A page that `kfree` takes without a panic. -/
def Freeable (L : Linker) (v : Nat) : Prop := v % PGSIZE = 0 ∧ L.kend ≤ v ∧ V2P v < PHYSTOP

theorem kfree_freeable {L : Linker} {v : Nat} (m : Mem) (h : Freeable L v) :
    kfree L m v = .ok { m.fill v 1 with freelist := v :: m.freelist } := by
  obtain ⟨h₁, h₂, h₃⟩ := h
  unfold kfree
  rw [if_neg (by omega)]
  rfl

theorem kalloc_none {m m' : Mem} (h : kalloc m = (none, m')) : m.freelist = [] ∧ m' = m := by
  unfold kalloc at h
  split at h <;> simp_all

theorem kalloc_some {m m' : Mem} {r : Nat} (h : kalloc m = (some r, m')) :
    m.freelist = r :: m'.freelist ∧ m' = { m with freelist := m'.freelist } := by
  unfold kalloc at h
  split at h
  · simp at h
  · rename_i r' rs hfl
    simp only [Prod.mk.injEq, Option.some.injEq] at h
    obtain ⟨rfl, rfl⟩ := h
    exact ⟨hfl, rfl⟩

theorem kfree_ok {L : Linker} {m m' : Mem} {v : Nat} (h : kfree L m v = .ok m') :
    v % PGSIZE = 0 ∧ L.kend ≤ v ∧ V2P v < PHYSTOP ∧
      m' = { m.fill v 1 with freelist := v :: m.freelist } := by
  unfold kfree at h
  split at h
  · simp at h
  · rename_i hv
    simp only [Except.ok.injEq] at h
    subst h
    refine ⟨?_, ?_, ?_, rfl⟩ <;> omega

end Xv6
