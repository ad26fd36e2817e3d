import Xv6.Kalloc
import Xv6.Lib.Flags

set_option autoImplicit false

/-!
# Two-level page tables: `walkpgdir` and `mappages`

A PTE is found through the page-directory entry `PDX va` of `pgdir` and the entry `PTX va`
of the page table it names. `Mem.pte` is what the MMU reads for `va`: the PTE, or `0` when
no page table covers `va`. The `Present`, `Writable` and `User` tests are the C tests
`*pte & PTE_P` and so on.
-/
namespace Xv6

def Present (x : Nat) : Prop := x &&& PTE_P ≠ 0
def Writable (x : Nat) : Prop := x &&& PTE_W ≠ 0
def User (x : Nat) : Prop := x &&& PTE_U ≠ 0

instance (x : Nat) : Decidable (Present x) := inferInstanceAs (Decidable (_ ≠ _))
instance (x : Nat) : Decidable (Writable x) := inferInstanceAs (Decidable (_ ≠ _))
instance (x : Nat) : Decidable (User x) := inferInstanceAs (Decidable (_ ≠ _))

theorem present_iff (x : Nat) : Present x ↔ x.testBit 0 = true :=
  FlagWord.and_two_pow_ne_zero_iff x 0

theorem writable_iff (x : Nat) : Writable x ↔ x.testBit 1 = true :=
  FlagWord.and_two_pow_ne_zero_iff x 1

theorem not_present_zero : ¬ Present 0 := by
  simp [Present]

/-- `walkpgdir`: the page-table page and index of `va`'s PTE, allocating the page table when
`alloc`; `none` is the null pointer. -/
def walkpgdir (m : Mem) (pgdir va : Nat) (alloc : Bool) : Option (Nat × Nat) × Mem :=
  let pde := m.pt pgdir (PDX va)
  if pde &&& PTE_P ≠ 0 then (some (P2V (PTE_ADDR pde), PTX va), m)
  else if !alloc then (none, m)
  else
    match kalloc m with
    | (none, m) => (none, m)
    | (some pgtab, m) =>
      (some (pgtab, PTX va),
        (m.fill pgtab 0).store pgdir (PDX va) (V2P pgtab ||| PTE_P ||| PTE_W ||| PTE_U))

namespace Mem

def ptPage (m : Mem) (pgdir x : Nat) : Nat := P2V (PTE_ADDR (m.pt pgdir x))

def pte (m : Mem) (pgdir va : Nat) : Nat :=
  match (walkpgdir m pgdir va false).1 with
  | some (t, i) => m.pt t i
  | none => 0

theorem pte_eq (m : Mem) (pgdir va : Nat) :
    m.pte pgdir va =
      if Present (m.pt pgdir (PDX va)) then m.pt (m.ptPage pgdir (PDX va)) (PTX va) else 0 := by
  unfold pte walkpgdir Present ptPage
  by_cases h : m.pt pgdir (PDX va) &&& PTE_P ≠ 0 <;> simp [h]

@[simp] theorem pte_freelist (m : Mem) (l : List Nat) (pgdir va : Nat) :
    ({ m with freelist := l } : Mem).pte pgdir va = m.pte pgdir va := by
  rw [pte_eq, pte_eq]
  rfl

theorem present_pde_of_pte {m : Mem} {pgdir va : Nat} (h : Present (m.pte pgdir va)) :
    Present (m.pt pgdir (PDX va)) := by
  rw [pte_eq] at h
  by_cases hp : Present (m.pt pgdir (PDX va))
  · exact hp
  · rw [if_neg hp] at h
    exact absurd h not_present_zero

theorem pte_congr_idx {m : Mem} {pgdir va vb : Nat} (hd : PDX va = PDX vb) (ht : PTX va = PTX vb) :
    m.pte pgdir va = m.pte pgdir vb := by
  rw [pte_eq, pte_eq, hd, ht]

theorem pte_round (m : Mem) (pgdir va : Nat) :
    m.pte pgdir va = m.pte pgdir (va % WORD / PGSIZE * PGSIZE) := by
  apply pte_congr_idx
  · rw [PDX_eq, PDX_eq]
    unfold WORD PGSIZE
    omega
  · rw [PTX_eq, PTX_eq]
    unfold WORD PGSIZE
    omega

theorem ptPage_congr {m m' : Mem} {d : Nat} (h : m'.pt d = m.pt d) (y : Nat) :
    m'.ptPage d y = m.ptPage d y := by
  unfold ptPage
  rw [h]

theorem PDX_lt (va : Nat) : PDX va < 1024 := by
  rw [PDX_eq]
  omega

theorem pte_store_table {m : Mem} {d x : Nat} (hx : Present (m.pt d x)) (hd : m.ptPage d x ≠ d)
    (hinj : ∀ y < 1024, Present (m.pt d y) → m.ptPage d y = m.ptPage d x → y = x)
    (i v va : Nat) :
    (m.store (m.ptPage d x) i v).pte d va =
      if PDX va = x ∧ PTX va = i then v else m.pte d va := by
  have hpde : (m.store (m.ptPage d x) i v).pt d = m.pt d := by
    funext y
    rw [store_pt]
    simp [Ne.symm hd]
  rw [pte_eq, pte_eq, ptPage_congr hpde, hpde, store_pt]
  by_cases hp : Present (m.pt d (PDX va))
  · have hiff : m.ptPage d (PDX va) = m.ptPage d x ↔ PDX va = x := by
      constructor
      · exact hinj _ (PDX_lt va) hp
      · intro h
        rw [h]
    simp only [hp, ↓reduceIte, hiff]
  · have hne : PDX va ≠ x := by
      rintro rfl
      exact hp hx
    simp [hp, hne]

theorem pte_fill {m : Mem} {d v : Nat} (c : UInt8) (hd : v ≠ d) (va : Nat)
    (ht : Present (m.pt d (PDX va)) → m.ptPage d (PDX va) ≠ v) :
    (m.fill v c).pte d va = m.pte d va := by
  have hpde : (m.fill v c).pt d = m.pt d := by
    funext y
    rw [fill_pt]
    simp [Ne.symm hd]
  rw [pte_eq, pte_eq, ptPage_congr hpde, hpde]
  by_cases hp : Present (m.pt d (PDX va))
  · rw [if_pos hp, if_pos hp, fill_pt, if_neg (ht hp)]
  · rw [if_neg hp, if_neg hp]

end Mem

theorem walkpgdir_false (m : Mem) (pgdir va : Nat) :
    walkpgdir m pgdir va false =
      (if Present (m.pt pgdir (PDX va)) then some (m.ptPage pgdir (PDX va), PTX va) else none,
        m) := by
  unfold walkpgdir Present Mem.ptPage
  by_cases h : m.pt pgdir (PDX va) &&& PTE_P ≠ 0 <;> simp [h]

theorem walkpgdir_true {m m' : Mem} {pgdir va : Nat} {r : Option (Nat × Nat)}
    (h : walkpgdir m pgdir va true = (r, m')) :
    (Present (m.pt pgdir (PDX va)) ∧ r = some (m.ptPage pgdir (PDX va), PTX va) ∧ m' = m) ∨
    (¬ Present (m.pt pgdir (PDX va)) ∧ m.freelist = [] ∧ r = none ∧ m' = m) ∨
    (¬ Present (m.pt pgdir (PDX va)) ∧ ∃ pgtab rest, m.freelist = pgtab :: rest ∧
      r = some (pgtab, PTX va) ∧
      m' = ({ m with freelist := rest }.fill pgtab 0).store pgdir (PDX va)
        (V2P pgtab ||| PTE_P ||| PTE_W ||| PTE_U)) := by
  unfold walkpgdir at h
  by_cases hp : m.pt pgdir (PDX va) &&& PTE_P ≠ 0
  · rw [if_pos hp, Prod.mk.injEq] at h
    exact Or.inl ⟨hp, h.1.symm, h.2.symm⟩
  · rw [if_neg hp] at h
    simp only [Bool.not_true, Bool.false_eq_true, ↓reduceIte] at h
    right
    cases hk : kalloc m with
    | mk r₀ m₀ =>
      rw [hk] at h
      cases r₀ with
      | none =>
        obtain ⟨hfl, rfl⟩ := kalloc_none hk
        simp only [Prod.mk.injEq] at h
        exact Or.inl ⟨hp, hfl, h.1.symm, h.2.symm⟩
      | some pgtab =>
        obtain ⟨hfl, hm₀⟩ := kalloc_some hk
        simp only [Prod.mk.injEq] at h
        refine Or.inr ⟨hp, pgtab, m₀.freelist, hfl, h.1.symm, ?_⟩
        rw [← h.2, hm₀]

/-- The loop of `mappages`: it maps page `a` to `pa`, then the `n` pages after it. The C loop
stops when `a == last`; `n` counts the pages from `a` to `last`. -/
def mappagesLoop (pgdir perm : Nat) : Nat → Nat → Nat → Mem → Except String (Int × Mem)
  | n, a, pa, m =>
    match walkpgdir m pgdir a true with
    | (none, m) => .ok (-1, m)
    | (some (t, i), m) =>
      if m.pt t i &&& PTE_P ≠ 0 then .error "remap"
      else
        let m := m.store t i (pa ||| perm ||| PTE_P)
        match n with
        | 0 => .ok (0, m)
        | n + 1 => mappagesLoop pgdir perm n ((a + PGSIZE) % WORD) ((pa + PGSIZE) % WORD) m

def mappages (m : Mem) (pgdir va size pa perm : Nat) : Except String (Int × Mem) :=
  let a := PGROUNDDOWN va
  let last := PGROUNDDOWN ((va + size + WORD - 1) % WORD)
  mappagesLoop pgdir perm ((last + WORD - a) % WORD / PGSIZE) a pa m

end Xv6
