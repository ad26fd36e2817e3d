import Xv6.Vm.Dealloc
import Xv6.Proc.Grow

set_option autoImplicit false

/-!
# `mprotect` and `munprotect`

Both walk the pages from `addr` below `len * PGSIZE + addr` and change `PTE_W` in the PTE of
each page that is present and has `PTE_U`. When all those pages are there, the loop changes
exactly their PTEs, and in them only `PTE_W`: the pages stay mapped where they were.

The loop's test `((*pte & PTE_P) != 0) && ... && pte` reads through `pte` before it tests it, so
a page whose page table is missing makes the kernel read address `0` and fault.
-/
namespace Xv6

section Flags

theorem testBit_PTE_ADDR (x i : Nat) :
    (PTE_ADDR x).testBit i = (x.testBit i && decide (12 ≤ i ∧ i < 32)) := by
  rw [PTE_ADDR, uintNot, WORD, show (0xFFF : Nat) = 2 ^ 12 - 1 by rfl,
    FlagWord.testBit_and_complement (by norm_num), Nat.testBit_two_pow_sub_one]
  by_cases h : i < 12 <;> by_cases h' : i < 32 <;> simp [h, h']; omega

theorem testBit_clearW (x i : Nat) :
    (x &&& uintNot PTE_W).testBit i = (x.testBit i && decide (i < 32) && !decide (i = 1)) := by
  rw [show x &&& uintNot PTE_W = x &&& (2 ^ 32 - 1 - 2 ^ 1) from rfl,
    FlagWord.testBit_and_complement (by norm_num), Nat.testBit_two_pow]
  by_cases h : i = 1
  · simp [h]
  · simp [h, Ne.symm h]

theorem present_clearW (x : Nat) : Present (x &&& uintNot PTE_W) ↔ Present x := by
  rw [present_iff, present_iff, testBit_clearW]
  simp

theorem not_writable_clearW (x : Nat) : ¬ Writable (x &&& uintNot PTE_W) := by
  rw [writable_iff, testBit_clearW]
  simp

theorem PTE_ADDR_clearW (x : Nat) : PTE_ADDR (x &&& uintNot PTE_W) = PTE_ADDR x := by
  apply Nat.eq_of_testBit_eq
  intro i
  rw [testBit_PTE_ADDR, testBit_PTE_ADDR, testBit_clearW]
  by_cases h : 12 ≤ i ∧ i < 32
  · have h1 : i ≠ 1 := by omega
    simp [h, h1]
  · simp [h]

end Flags

section Loop

variable {L : Linker} {m₀ : Mem} {d : Nat} (update : Nat → Nat)

theorem protectLoop_ok (hw : DirWf L m₀ d) {bound : Int32} (hb : uint bound < 2 ^ 31)
    (hbal : uint bound % PGSIZE = 0) (fuel : Nat) :
    ∀ (i : Int32) (m : Mem), m.pt d = m₀.pt d → uint i % PGSIZE = 0 → uint i ≤ uint bound →
      uint bound ≤ uint i + fuel * PGSIZE →
      (∀ va, va % PGSIZE = 0 → uint i ≤ va → va < uint bound →
        Present (m.pte d va) ∧ User (m.pte d va)) →
      ∃ m', protectLoop update d bound fuel i m = .ok (0, m') ∧ m'.pt d = m₀.pt d ∧
        m'.bytes = m.bytes ∧ ∀ va, va % PGSIZE = 0 → va < WORD →
          m'.pte d va = if uint i ≤ va ∧ va < uint bound then update (m.pte d va)
            else m.pte d va := by
  have hP4 : PGSIZE = 4096 := rfl
  have hW : WORD = 4294967296 := rfl
  induction fuel with
  | zero =>
    intro i m hpt _ hle hf _
    have hnot : ¬ i < bound := by
      rw [int_lt_iff_uint (by omega) hb]
      omega
    unfold protectLoop
    rw [if_neg hnot]
    refine ⟨m, rfl, hpt, rfl, fun va _ _ => ?_⟩
    rw [if_neg (by omega)]
  | succ k ih =>
    intro i m hpt hal hle hf hpu
    unfold protectLoop
    by_cases hlt : uint i < uint bound
    · rw [if_pos ((int_lt_iff_uint (by omega) hb).2 hlt)]
      obtain ⟨hP, hU⟩ := hpu (uint i) hal le_rfl hlt
      have hpde : Present (m.pt d (PDX (uint i))) := Mem.present_pde_of_pte hP
      have hpte : m.pt (m.ptPage d (PDX (uint i))) (PTX (uint i)) = m.pte d (uint i) := by
        rw [Mem.pte_eq, if_pos hpde]
      obtain ⟨m₁, hm₁⟩ : ∃ m₁, m₁ =
          m.store (m.ptPage d (PDX (uint i))) (PTX (uint i)) (update (m.pte d (uint i))) :=
        ⟨_, rfl⟩
      have hpt₁ : m₁.pt d = m₀.pt d := by
        rw [hm₁, hw.pt_store_own hpt hP, hpt]
      have hpte₁ : ∀ va, va % PGSIZE = 0 → va < WORD →
          m₁.pte d va = if va = uint i then update (m.pte d va) else m.pte d va := by
        intro va hva hvw
        rw [hm₁, hw.pte_store_own hpt hP]
        by_cases he : va = uint i
        · rw [if_pos ⟨congrArg PDX he, congrArg PTX he⟩, if_pos he, he]
        · rw [if_neg (fun h => he (eq_of_PDX_PTX hva hal hvw (uint_lt i) h.1 h.2)), if_neg he]
      have hnext : uint (i + 4096) = uint i + PGSIZE := by
        rw [uint_add, show uint 4096 = 4096 by rfl, hW]
        omega
      have hstep : uint i + PGSIZE ≤ uint bound := add_PGSIZE_le hal hbal hlt
      have hal' : uint (i + 4096) % PGSIZE = 0 := by
        rw [hnext, Nat.add_mod_right]
        exact hal
      obtain ⟨m', hrun, hpt', hbytes', hpte'⟩ := ih (i + 4096) m₁ hpt₁ hal' (by omega)
        (by rw [Nat.succ_mul] at hf; omega)
        (fun va hva h₁ h₂ => by
          rw [hpte₁ va hva (by omega), if_neg (by omega)]
          exact hpu va hva (by omega) h₂)
      rw [walkpgdir_false, if_pos hpde]
      dsimp only
      rw [hpte, if_pos ⟨hP, hU⟩, ← hm₁, hrun]
      refine ⟨m', rfl, hpt', by rw [hbytes', hm₁, Mem.store_bytes], fun va hva hvw => ?_⟩
      rw [hpte' va hva hvw, hpte₁ va hva hvw, hnext]
      by_cases he : va = uint i
      · rw [if_neg (by omega), if_pos he, if_pos (by omega)]
      · rw [if_neg he]
        by_cases hin : uint i ≤ va ∧ va < uint bound
        · have hge : uint i + PGSIZE ≤ va := add_PGSIZE_le hal hva (by omega)
          rw [if_pos ⟨hge, hin.2⟩, if_pos hin]
        · rw [if_neg (by omega), if_neg hin]
    · rw [if_neg (fun h => hlt ((int_lt_iff_uint (by omega) hb).1 h))]
      refine ⟨m, rfl, hpt, rfl, fun va _ _ => ?_⟩
      rw [if_neg (by omega)]

end Loop

theorem uint_bound {a len : Nat} (h : a + len * PGSIZE < 2 ^ 31) :
    uint (Int32.ofNat len * 4096 + Int32.ofNat a) = a + len * PGSIZE := by
  have hw : WORD = 4294967296 := rfl
  unfold PGSIZE at h ⊢
  rw [uint_add, uint_mul, uint_ofNat (by omega), uint_ofNat (by omega),
    show uint 4096 = 4096 from rfl, hw]
  omega

theorem protectChecks_false {vlimit a len : Nat} (ha : a % PGSIZE = 0) (hlen : 0 < len)
    (h : a + len * PGSIZE < 2 ^ 31) :
    protectChecks vlimit (Int32.ofNat a) (Int32.ofNat len) = false := by
  have hlen' : len < 2 ^ 31 := by
    unfold PGSIZE at h
    omega
  have hl : ¬ (Int32.ofNat len ≤ 0) := by
    rw [Int32.le_iff_toInt_le, Int32.toInt_zero, Int32.toInt_ofNat_of_lt hlen']
    omega
  have hm : Int32.ofNat a % 4096 = 0 := by
    apply uint_inj
    have ha' : uint (Int32.ofNat a) = a := uint_ofNat (by unfold WORD; omega)
    rw [uint_mod_of_nonneg (by omega) (by decide), ha', show uint 4096 = 4096 from rfl]
    exact ha
  simp [protectChecks, hl, hm]

theorem protect_ok {L : Linker} {m : Mem} {p : Proc} (update : Nat → Nat)
    (hw : DirWf L m p.pgdir) {a len : Nat} (ha : a % PGSIZE = 0) (hlen : 0 < len)
    (hb : a + len * PGSIZE < 2 ^ 31)
    (hpu : ∀ va, va % PGSIZE = 0 → a ≤ va → va < a + len * PGSIZE →
      Present (m.pte p.pgdir va) ∧ User (m.pte p.pgdir va)) :
    ∃ m', (if protectChecks p.vlimit (Int32.ofNat a) (Int32.ofNat len) then .ok (-1, m)
        else protectLoop update p.pgdir (Int32.ofNat len * 4096 + Int32.ofNat a) LOOPFUEL
          (Int32.ofNat a) m) = .ok (0, m') ∧
      m'.pt p.pgdir = m.pt p.pgdir ∧ m'.bytes = m.bytes ∧
      ∀ va, va % PGSIZE = 0 → va < WORD →
        m'.pte p.pgdir va =
          if a ≤ va ∧ va < a + len * PGSIZE then update (m.pte p.pgdir va)
          else m.pte p.pgdir va := by
  have hbound := uint_bound hb
  have ha' : uint (Int32.ofNat a) = a := uint_ofNat (by unfold WORD; omega)
  have hfuel : LOOPFUEL * PGSIZE = 2 ^ 32 + 4096 := by decide
  rw [protectChecks_false ha hlen hb, if_neg Bool.false_ne_true]
  obtain ⟨m', hrun, hpt, hbytes, hpte⟩ :=
    protectLoop_ok update hw (by rw [hbound]; exact hb)
      (by rw [hbound, Nat.add_mul_mod_self_right]; exact ha) LOOPFUEL (Int32.ofNat a) m rfl
      (by rw [ha']; exact ha) (by rw [ha', hbound]; omega) (by rw [ha', hbound]; omega)
      (by rw [ha', hbound]; exact hpu)
  rw [ha', hbound] at hpte
  exact ⟨m', hrun, hpt, hbytes, hpte⟩

theorem mprotect_ok {L : Linker} {m : Mem} {p : Proc} (hw : DirWf L m p.pgdir) {a len : Nat}
    (ha : a % PGSIZE = 0) (hlen : 0 < len) (hb : a + len * PGSIZE < 2 ^ 31)
    (hpu : ∀ va, va % PGSIZE = 0 → a ≤ va → va < a + len * PGSIZE →
      Present (m.pte p.pgdir va) ∧ User (m.pte p.pgdir va)) :
    ∃ m', mprotect m p (Int32.ofNat a) (Int32.ofNat len) = .ok (0, m') ∧
      m'.pt p.pgdir = m.pt p.pgdir ∧ m'.bytes = m.bytes ∧
      ∀ va, va % PGSIZE = 0 → va < WORD →
        m'.pte p.pgdir va =
          if a ≤ va ∧ va < a + len * PGSIZE then m.pte p.pgdir va &&& uintNot PTE_W
          else m.pte p.pgdir va :=
  protect_ok _ hw ha hlen hb hpu

theorem munprotect_ok {L : Linker} {m : Mem} {p : Proc} (hw : DirWf L m p.pgdir) {a len : Nat}
    (ha : a % PGSIZE = 0) (hlen : 0 < len) (hb : a + len * PGSIZE < 2 ^ 31)
    (hpu : ∀ va, va % PGSIZE = 0 → a ≤ va → va < a + len * PGSIZE →
      Present (m.pte p.pgdir va) ∧ User (m.pte p.pgdir va)) :
    ∃ m', munprotect m p (Int32.ofNat a) (Int32.ofNat len) = .ok (0, m') ∧
      m'.pt p.pgdir = m.pt p.pgdir ∧ m'.bytes = m.bytes ∧
      ∀ va, va % PGSIZE = 0 → va < WORD →
        m'.pte p.pgdir va =
          if a ≤ va ∧ va < a + len * PGSIZE then m.pte p.pgdir va ||| PTE_W
          else m.pte p.pgdir va :=
  protect_ok _ hw ha hlen hb hpu

theorem protectLoop_no_table (update : Nat → Nat) {m : Mem} {d : Nat} {bound i : Int32}
    {fuel : Nat} (hlt : i < bound) (hpde : ¬ Present (m.pt d (PDX (uint i)))) :
    protectLoop update d bound (fuel + 1) i m = .error "trap" := by
  unfold protectLoop
  rw [if_pos hlt, walkpgdir_false, if_neg hpde]

/-- `mprotect` and `munprotect` of `len` pages from a page-aligned `addr` whose page table is
missing pass the argument checks and then fault, whatever the process's `vlimit`. -/
theorem protect_missing_table_traps {m : Mem} {p : Proc} {a len : Nat} (ha : a % PGSIZE = 0)
    (hlen : 0 < len) (hb : a + len * PGSIZE < 2 ^ 31)
    (hpde : ¬ Present (m.pt p.pgdir (PDX a))) :
    mprotect m p (Int32.ofNat a) (Int32.ofNat len) = .error "trap" ∧
      munprotect m p (Int32.ofNat a) (Int32.ofNat len) = .error "trap" := by
  have ha' : uint (Int32.ofNat a) = a := uint_ofNat (by unfold WORD; omega)
  have hbound := uint_bound hb
  -- the loop is entered: `addr < len * PGSIZE + addr` with no overflow
  have hlt : Int32.ofNat a < Int32.ofNat len * 4096 + Int32.ofNat a := by
    rw [int_lt_iff_uint (by omega) (by omega), ha', hbound]
    unfold PGSIZE
    omega
  have hfuel : LOOPFUEL = WORD / PGSIZE + 1 := rfl
  have hpde' : ¬ Present (m.pt p.pgdir (PDX (uint (Int32.ofNat a)))) := by
    rw [ha']
    exact hpde
  unfold mprotect munprotect
  rw [protectChecks_false ha hlen hb, if_neg Bool.false_ne_true, hfuel]
  exact ⟨protectLoop_no_table _ hlt hpde', protectLoop_no_table _ hlt hpde'⟩

theorem protect_missing_table_traps_init :
    AddrSpace initMem initProc ∧
      mprotect initMem initProc (Int32.ofNat 0x400000) (Int32.ofNat 1) = .error "trap" ∧
      munprotect initMem initProc (Int32.ofNat 0x400000) (Int32.ofNat 1) = .error "trap" :=
  have hpde : ¬ Present (initMem.pt initProc.pgdir (PDX 0x400000)) := by
    change ¬ Present (initMem.pt 0x80400000 (PDX 0x400000))
    rw [initMem_pde, if_neg (by decide)]
    exact not_present_zero
  ⟨initAddrSpace, protect_missing_table_traps (by decide) (by decide) (by decide) hpde⟩

end Xv6
