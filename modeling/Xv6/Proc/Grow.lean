import Xv6.Vm.Dealloc
import Xv6.Proc.Defs

set_option autoImplicit false

/-!
# Growing and shrinking a process: `growproc`

`AddrSpace` is the address-space invariant that the rest of the kernel relies on: the user part
of a process is `[PGSIZE, vlimit)` below `KERNBASE`, and a page-aligned user address is mapped
exactly when it lies in `[PGSIZE, PGROUNDUP(vlimit))`.

`growproc` reads a `0` from `deallocuvm` as failure, but `deallocuvm` returns its `newvlimit`,
which is `0` when a process gives back all of its memory. The pages are then freed while
`vlimit` stays, so the invariant fails.
-/
namespace Xv6

/-- `growproc(n)`: its result, the memory, and the calling process. `vlimit + n` is the `uint`
sum, modulo `2^32`. -/
def growproc (L : Linker) (m : Mem) (p : Proc) (n : Int32) : Except String (Int × Mem × Proc) :=
  let vlimit := p.vlimit
  if n > 0 then
    match allocuvm L m p.pgdir p.vbase vlimit ((vlimit + uint n) % WORD) with
    | .error e => .error e
    | .ok (vlimit, m) => if vlimit = 0 then .ok (-1, m, p) else .ok (0, m, { p with vlimit })
  else if n < 0 then
    match deallocuvm L m p.pgdir vlimit ((vlimit + uint n) % WORD) with
    | .error e => .error e
    | .ok (vlimit, m) => if vlimit = 0 then .ok (-1, m, p) else .ok (0, m, { p with vlimit })
  else .ok (0, m, p)

/-- `sys_sbrk` once `argint` has fetched `n`: the old `vlimit`, or `-1` when `growproc` fails. -/
def sys_sbrk (L : Linker) (m : Mem) (p : Proc) (n : Int32) : Except String (Int × Mem × Proc) :=
  let addr := p.vlimit
  match growproc L m p n with
  | .error e => .error e
  | .ok (r, m, p) => if r < 0 then .ok (-1, m, p) else .ok (addr, m, p)

structure AddrSpace (m : Mem) (p : Proc) : Prop where
  vbase_eq : p.vbase = PGSIZE
  base_le : PGSIZE ≤ p.vlimit
  limit_lt : p.vlimit < KERNBASE
  mapped : ∀ va, va % PGSIZE = 0 → va < KERNBASE →
    (Present (m.pte p.pgdir va) ↔ PGSIZE ≤ va ∧ va < PGROUNDUP p.vlimit)

theorem growproc_neg {L : Linker} {m : Mem} {p : Proc} {n : Nat} (h0 : 0 < n)
    (hn : n < 2 ^ 31) :
    growproc L m p (-(Int32.ofNat n)) =
      match deallocuvm L m p.pgdir p.vlimit ((p.vlimit + (WORD - n)) % WORD) with
      | .error e => .error e
      | .ok (vlimit, m) =>
        if vlimit = 0 then .ok (-1, m, p) else .ok (0, m, { p with vlimit }) := by
  have hu : uint (-(Int32.ofNat n)) = WORD - n := by
    rw [uint_neg, uint_ofNat (by unfold WORD; omega)]
    unfold WORD
    omega
  have hpos : ¬ (-(Int32.ofNat n) > 0) := by
    rw [gt_iff_lt, int_pos_iff, hu]
    unfold WORD
    omega
  have hneg : -(Int32.ofNat n) < 0 := by
    rw [int_neg_iff, hu]
    unfold WORD
    omega
  unfold growproc
  rw [if_neg hpos, if_pos hneg, hu]

/-- Giving back the whole user part with `sbrk(-vlimit)` frees every page, yet `growproc`
reports failure and keeps `vlimit`: the page at `PGSIZE` is then unmapped though it lies
below `vlimit`. -/
theorem growproc_neg_vlimit_unmaps {L : Linker} {m : Mem} {p : Proc} (hs : AddrSpace m p)
    (hw : DirWf L m p.pgdir) (hgt : PGSIZE < p.vlimit) :
    ∃ m', growproc L m p (-(Int32.ofNat p.vlimit)) = .ok (-1, m', p) ∧ ¬ AddrSpace m' p := by
  have hlim := hs.limit_lt
  have hzero : (p.vlimit + (WORD - p.vlimit)) % WORD = 0 := by
    unfold KERNBASE at hlim
    unfold WORD
    omega
  have hpos : 0 < p.vlimit := by
    unfold PGSIZE at hgt
    omega
  obtain ⟨m', hd, -, -, hpte⟩ := deallocuvm_spec hw hpos hlim.le
  refine ⟨m', ?_, ?_⟩
  · rw [growproc_neg (by unfold PGSIZE at hgt; omega) (by unfold KERNBASE at hlim; omega),
      hzero, hd]
    rfl
  · intro hs'
    have hup : PGSIZE < PGROUNDUP p.vlimit := by
      rw [PGROUNDUP_eq (by unfold KERNBASE at hlim; unfold PGSIZE WORD; omega)]
      unfold PGSIZE at *
      omega
    have hwas : Present (m.pte p.pgdir PGSIZE) :=
      (hs.mapped PGSIZE (by decide) (by decide)).2 ⟨le_rfl, hup⟩
    have hnow : Present (m'.pte p.pgdir PGSIZE) :=
      (hs'.mapped PGSIZE (by decide) (by decide)).2 ⟨le_rfl, hup⟩
    rw [hpte PGSIZE (by decide) (by decide), if_pos ⟨by decide, hgt, hwas⟩] at hnow
    exact not_present_zero hnow

def initProc : Proc where
  vbase := PGSIZE
  vlimit := 2 * PGSIZE
  pgdir := 0x80400000
  kstack := 0
  state := .RUNNING
  pid := 1
  parent := none
  tf := ⟨0, 0, 0⟩
  chan := .addr 0
  killed := false

theorem initAddrSpace : AddrSpace initMem initProc where
  vbase_eq := rfl
  base_le := by decide
  limit_lt := by decide
  mapped va ha hk := by
    change Present (initMem.pte 0x80400000 va) ↔ PGSIZE ≤ va ∧ va < PGROUNDUP (2 * PGSIZE)
    rw [initMem_present, PDX_eq, PTX_eq, show PGROUNDUP (2 * PGSIZE) = 8192 by decide]
    unfold PGSIZE KERNBASE at *
    omega

theorem growproc_neg_vlimit_unmaps_init :
    AddrSpace initMem initProc ∧ DirWf initLinker initMem initProc.pgdir ∧
      PGSIZE < initProc.vlimit ∧
      ∃ m', growproc initLinker initMem initProc (-(Int32.ofNat initProc.vlimit)) =
        .ok (-1, m', initProc) ∧ ¬ AddrSpace m' initProc :=
  ⟨initAddrSpace, initDirWf, by decide,
    growproc_neg_vlimit_unmaps initAddrSpace initDirWf (by decide)⟩

/-- `sbrk(n)` with `vlimit + n < 0`: the `uint` sum wraps to a limit above `vlimit`, so
`deallocuvm` frees nothing and returns the old limit, which `growproc` reads as success. `sbrk`
returns the old break and nothing changes, though the break cannot move by `n`. -/
theorem sbrk_below_zero_keeps_break {L : Linker} {m : Mem} {p : Proc} (hs : AddrSpace m p)
    {n : Int32} (hn : n.toInt + p.vlimit < 0) :
    sys_sbrk L m p n = .ok (p.vlimit, m, p) := by
  have hlim := hs.limit_lt
  have hbase := hs.base_le
  have hW : WORD = 2 ^ 32 := rfl
  have hK : KERNBASE = 2 ^ 31 := rfl
  have hP : PGSIZE = 4096 := rfl
  -- `n` is negative, so its bits read as `n + 2^32`
  have hu : (uint n : Int) = n.toInt + 2 ^ 32 := by
    have h := int_toInt_eq n
    split_ifs at h with hsmall
    · omega
    · push_cast at h
      omega
  have hneg : n < 0 := by
    rw [Int32.lt_iff_toInt_lt, Int32.toInt_zero]
    omega
  have hpos : ¬ n > 0 := by
    rw [gt_iff_lt, Int32.lt_iff_toInt_lt, Int32.toInt_zero]
    omega
  have hwrap : (p.vlimit + uint n) % WORD = p.vlimit + uint n := by
    apply Nat.mod_eq_of_lt
    rw [hW]
    omega
  have hge : (p.vlimit + uint n) % WORD ≥ p.vlimit := by
    rw [hwrap]
    omega
  have hne : p.vlimit ≠ 0 := by
    rw [hP] at hbase
    omega
  unfold sys_sbrk growproc deallocuvm
  rw [if_neg hpos, if_pos hneg, if_pos hge]
  dsimp only
  rw [if_neg hne]
  rfl

theorem sbrk_below_zero_keeps_break_init :
    AddrSpace initMem initProc ∧ (-0x3000 : Int32).toInt + initProc.vlimit < 0 ∧
      sys_sbrk initLinker initMem initProc (-0x3000) = .ok (initProc.vlimit, initMem, initProc) :=
  have hn : (-0x3000 : Int32).toInt + initProc.vlimit < 0 := by decide
  ⟨initAddrSpace, hn, sbrk_below_zero_keeps_break initAddrSpace hn⟩

end Xv6
