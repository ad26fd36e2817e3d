import Xv6.Syscall.Args
import Xv6.Vm.Protect
import Xv6.Proc.Grow

set_option autoImplicit false

/-!
# Reading into a user buffer: `sys_read`

`sys_read` checks its buffer with `argptr`, which compares the pointer with `vbase` and
`vlimit` only. `mprotect` clears `PTE_W` on pages inside that range, and the kernel's store of
the first byte read into such a page is a write fault in kernel mode.
-/
namespace Xv6

/-- `sys_read` over the caller's open files `ofile` and the file layer's `fileread`, which
gives the bytes a file hands over for a request of `n` bytes, or `none` for its `-1`. The bytes
are stored into the buffer in order, as `piperead` and `readi` store them. -/
def sys_read {F : Type} (ofile : Fin NOFILE → Option F)
    (fileread : F → Nat → Option (List UInt8)) (m : Mem) (p : Proc) :
    Except String (Int × Mem) :=
  match argfd ofile m p 0 with
  | .error e => .error e
  | .ok none => .ok (-1, m)
  | .ok (some (_, f)) =>
    match argint m p 2 with
    | .error e => .error e
    | .ok none => .ok (-1, m)
    | .ok (some n) =>
      match argptr m p 1 n with
      | .error e => .error e
      | .ok none => .ok (-1, m)
      | .ok (some addr) =>
        match fileread f (uint n) with
        | none => .ok (-1, m)
        | some bs => (storeUserBytes m p.pgdir addr bs).map fun m => (bs.length, m)

/-- `mprotect(a, 1)` on a user page, then `read(fd, a, n)` from a file with data: the buffer
passes `argptr`, and the kernel's store into the read-only page faults. -/
theorem sys_read_after_mprotect_faults {F : Type} {ofile : Fin NOFILE → Option F}
    {fileread : F → Nat → Option (List UInt8)} {L : Linker} {m : Mem} {p : Proc}
    {a n fd : Nat} {f : F} {b : UInt8} {bs : List UInt8}
    (hw : DirWf L m p.pgdir) (ha : a % PGSIZE = 0) (hb : a + PGSIZE < 2 ^ 31)
    (hpu : Present (m.pte p.pgdir a) ∧ User (m.pte p.pgdir a))
    (hfd : argfd ofile m p 0 = .ok (some (fd, f)))
    (hbuf : argint m p 1 = .ok (some (Int32.ofNat a)))
    (hcnt : argint m p 2 = .ok (some (Int32.ofNat n)))
    (hn : 0 < n) (hn' : n < 2 ^ 31) (hlo : p.vbase ≤ a) (hhi : a + n ≤ p.vlimit)
    (hread : fileread f n = some (b :: bs)) :
    ∃ m', mprotect m p (Int32.ofNat a) 1 = .ok (0, m') ∧
      sys_read ofile fileread m' p = .error "trap" := by
  have hP4 : PGSIZE = 4096 := rfl
  obtain ⟨m', hm, -, hbytes, hpte⟩ := mprotect_ok hw ha (by decide : 0 < 1) (by omega)
    (fun va hva h₁ h₂ => by
      have hva' : va = a := by
        by_contra hne
        have := add_PGSIZE_le ha hva (by omega)
        omega
      rw [hva']
      exact hpu)
  have hs : SameReads m' m p.pgdir := by
    refine SameReads.of_pages hbytes (fun va hva hvw => ?_)
    rw [hpte va hva hvw]
    split_ifs
    · exact ⟨present_clearW _, PTE_ADDR_clearW _⟩
    · exact ⟨Iff.rfl, rfl⟩
  have hro : ¬ Writable (m'.pte p.pgdir a) := by
    rw [hpte a ha (by unfold WORD; omega), if_pos ⟨le_rfl, by omega⟩]
    exact not_writable_clearW _
  have hptr : argptr m' p 1 (Int32.ofNat n) = .ok (some a) := by
    rw [hs.argptr_eq]
    exact argptr_ok hbuf (by omega) hn' hn hlo hhi
  refine ⟨m', hm, ?_⟩
  unfold sys_read
  rw [hs.argfd_eq, hfd]
  dsimp only
  rw [hs.argint_eq, hcnt]
  dsimp only
  rw [hptr]
  dsimp only
  rw [uint_ofNat (by unfold WORD; omega), hread]
  dsimp only
  rw [storeUserBytes_fault hro]
  rfl

def readMem : Mem :=
  { initMem with bytes := fun x => if x = 0x80402F09 then 0x10 else if x = 0x80402F0C then 1 else 0 }

def readProc : Proc := { initProc with tf := ⟨0, 0x1F00, 0⟩ }

def readOfile : Fin NOFILE → Option Unit := fun i => if i.val = 0 then some () else none

def readFile : Unit → Nat → Option (List UInt8) := fun _ _ => some [0x41]

theorem sys_read_after_mprotect_faults_init :
    argfd readOfile readMem readProc 0 = .ok (some (0, ())) ∧
      argint readMem readProc 1 = .ok (some (Int32.ofNat 0x1000)) ∧
      argint readMem readProc 2 = .ok (some (Int32.ofNat 1)) ∧
      ∃ m', mprotect readMem readProc (Int32.ofNat 0x1000) 1 = .ok (0, m') ∧
        sys_read readOfile readFile m' readProc = .error "trap" :=
  ⟨by decide +kernel, by decide +kernel, by decide +kernel,
    @sys_read_after_mprotect_faults Unit readOfile readFile initLinker readMem readProc 0x1000 1 0
      () 0x41 [] (initDirWf.of_pt_eq rfl) (by decide) (by decide)
      (by decide +kernel)
      (by decide +kernel) (by decide +kernel) (by decide +kernel) (by decide) (by decide)
      (by decide) (by decide) rfl⟩

end Xv6
