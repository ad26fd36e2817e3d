import Xv6.Vm.Walk
import Xv6.Proc.Defs

set_option autoImplicit false

/-!
# User address spaces: `vm.c`

Each function threads the memory and returns what the C function returns; a `panic` is an
`Except.error` with its message. A loop over pages runs on `LOOPFUEL` passes, one more than
there are pages in the 32-bit address space: a loop that steps through distinct pages ends
within it, and running out stands for a C loop that never ends.
-/
namespace Xv6

def LOOPFUEL : Nat := WORD / PGSIZE + 1

/-- One entry of `kmap`: the kernel's mapping of `[physStart, physEnd)` at `virt`. -/
structure Kmap where
  virt : Nat
  physStart : Nat
  physEnd : Nat
  perm : Nat

def kmap (L : Linker) : List Kmap :=
  [⟨KERNBASE, 0, EXTMEM, PTE_W⟩,
   ⟨KERNLINK, V2P KERNLINK, V2P L.data, 0⟩,
   ⟨L.data, V2P L.data, PHYSTOP, PTE_W⟩,
   ⟨DEVSPACE, DEVSPACE, 0, PTE_W⟩]

/-- One pass of the body of `deallocuvm`'s loop at `a`: the value of `a` before the loop's
`a += PGSIZE`, and the memory. -/
def deallocuvmBody (L : Linker) (pgdir a : Nat) (m : Mem) : Except String (Nat × Mem) :=
  match (walkpgdir m pgdir a false).1 with
  | none => .ok ((PGADDR (PDX a + 1) 0 0 + WORD - PGSIZE) % WORD, m)
  | some (t, i) =>
    if m.pt t i &&& PTE_P ≠ 0 then
      let pa := PTE_ADDR (m.pt t i)
      if pa = 0 then .error "kfree"
      else (kfree L m (P2V pa)).map fun m => (a, m.store t i 0)
    else .ok (a, m)

def deallocuvmLoop (L : Linker) (pgdir oldvlimit : Nat) (fuel a : Nat) (m : Mem) :
    Except String Mem :=
  if a < oldvlimit then
    match fuel with
    | 0 => .error "loop does not end"
    | fuel + 1 =>
      match deallocuvmBody L pgdir a m with
      | .error e => .error e
      | .ok (a, m) => deallocuvmLoop L pgdir oldvlimit fuel ((a + PGSIZE) % WORD) m
  else .ok m

def deallocuvm (L : Linker) (m : Mem) (pgdir oldvlimit newvlimit : Nat) :
    Except String (Nat × Mem) :=
  if newvlimit ≥ oldvlimit then .ok (oldvlimit, m)
  else (deallocuvmLoop L pgdir oldvlimit LOOPFUEL (PGROUNDUP newvlimit) m).map
    fun m => (newvlimit, m)

def allocuvmLoop (L : Linker) (pgdir oldvlimit newvlimit : Nat) (fuel a : Nat) (m : Mem) :
    Except String (Nat × Mem) :=
  if a < newvlimit then
    match fuel with
    | 0 => .error "loop does not end"
    | fuel + 1 =>
      match kalloc m with
      | (none, m) =>
        (deallocuvm L m pgdir newvlimit oldvlimit).map fun r => (0, r.2)
      | (some mem, m) =>
        match mappages (m.fill mem 0) pgdir a PGSIZE (V2P mem) (PTE_W ||| PTE_U) with
        | .error e => .error e
        | .ok (r, m) =>
          if r < 0 then
            match deallocuvm L m pgdir newvlimit oldvlimit with
            | .error e => .error e
            | .ok (_, m) => (kfree L m mem).map fun m => (0, m)
          else allocuvmLoop L pgdir oldvlimit newvlimit fuel ((a + PGSIZE) % WORD) m
  else .ok (newvlimit, m)

/-- `allocuvm`: the new limit, or `0` on failure. `vbase` is unused, as in the C code. -/
def allocuvm (L : Linker) (m : Mem) (pgdir _vbase oldvlimit newvlimit : Nat) :
    Except String (Nat × Mem) :=
  if newvlimit ≥ KERNBASE then .ok (0, m)
  else if newvlimit < oldvlimit then .ok (oldvlimit, m)
  else allocuvmLoop L pgdir oldvlimit newvlimit LOOPFUEL (PGROUNDUP oldvlimit) m

/-- `freevm`: the user pages, then every page table, then the directory itself. -/
def freevm (L : Linker) (m : Mem) (pgdir : Nat) : Except String Mem :=
  if pgdir = 0 then .error "freevm: no pgdir"
  else
    match deallocuvm L m pgdir KERNBASE 0 with
    | .error e => .error e
    | .ok (_, m) =>
      let freeTables := (List.range NPDENTRIES).foldlM (fun m i =>
        if m.pt pgdir i &&& PTE_P ≠ 0 then kfree L m (P2V (PTE_ADDR (m.pt pgdir i)))
        else .ok m) m
      match freeTables with
      | .error e => .error e
      | .ok m => kfree L m pgdir

def setupkvmLoop (L : Linker) (pgdir : Nat) : List Kmap → Mem → Except String (Option Nat × Mem)
  | [], m => .ok (some pgdir, m)
  | k :: ks, m =>
    match mappages m pgdir k.virt ((k.physEnd + WORD - k.physStart) % WORD) k.physStart k.perm with
    | .error e => .error e
    | .ok (r, m) =>
      if r < 0 then (freevm L m pgdir).map fun m => (none, m)
      else setupkvmLoop L pgdir ks m

/-- `setupkvm`: a new page directory holding the kernel's mappings, or `none`. -/
def setupkvm (L : Linker) (m : Mem) : Except String (Option Nat × Mem) :=
  match kalloc m with
  | (none, m) => .ok (none, m)
  | (some pgdir, m) =>
    if P2V PHYSTOP > DEVSPACE then .error "PHYSTOP too high"
    else setupkvmLoop L pgdir (kmap L) (m.fill pgdir 0)

/-- `inituvm`: the first process's code at `0x1000`. `kalloc` failing would make the kernel
write through a null pointer. -/
def inituvm (m : Mem) (pgdir : Nat) (init : List UInt8) : Except String Mem :=
  if init.length ≥ PGSIZE then .error "inituvm: more than a page"
  else
    match kalloc m with
    | (none, _) => .error "trap"
    | (some mem, m) =>
      match mappages (m.fill mem 0) pgdir 0x1000 PGSIZE (V2P mem) (PTE_W ||| PTE_U) with
      | .error e => .error e
      | .ok (_, m) => .ok (m.writeBytes mem init)

def clearpteu (m : Mem) (pgdir uva : Nat) : Except String Mem :=
  match (walkpgdir m pgdir uva false).1 with
  | none => .error "clearpteu"
  | some (t, i) => .ok (m.store t i (m.pt t i &&& uintNot PTE_U))

def copyuvmLoop (L : Linker) (pgdir d vlimit : Nat) (fuel i : Nat) (m : Mem) :
    Except String (Option Nat × Mem) :=
  if i < vlimit then
    match fuel with
    | 0 => .error "loop does not end"
    | fuel + 1 =>
      match (walkpgdir m pgdir i false).1 with
      | none => .error "copyuvm: pte should exist"
      | some (t, j) =>
        if m.pt t j &&& PTE_P = 0 then .error "copyuvm: page not present"
        else
          let pa := PTE_ADDR (m.pt t j)
          let flags := PTE_FLAGS (m.pt t j)
          match kalloc m with
          | (none, m) => (freevm L m d).map fun m => (none, m)
          | (some mem, m) =>
            match mappages (m.copy mem (P2V pa) PGSIZE) d i PGSIZE (V2P mem) flags with
            | .error e => .error e
            | .ok (r, m) =>
              if r < 0 then
                match kfree L m mem with
                | .error e => .error e
                | .ok m => (freevm L m d).map fun m => (none, m)
              else copyuvmLoop L pgdir d vlimit fuel ((i + PGSIZE) % WORD) m
  else .ok (some d, m)

/-- `copyuvm`: a new page directory with a copy of every page of `[PGSIZE, vlimit)`. -/
def copyuvm (L : Linker) (m : Mem) (pgdir _vbase vlimit : Nat) :
    Except String (Option Nat × Mem) :=
  match setupkvm L m with
  | .error e => .error e
  | .ok (none, m) => .ok (none, m)
  | .ok (some d, m) => copyuvmLoop L pgdir d vlimit LOOPFUEL PGSIZE m

/-- The loop shared by `mprotect` and `munprotect`: every page from `i` below `bound` must have
a present PTE with `PTE_U`, and gets `update` applied to it. A null `pte` is dereferenced
before it is tested: the kernel reads address 0, which no process maps, and faults. -/
def protectLoop (update : Nat → Nat) (pgdir : Nat) (bound : Int32) (fuel : Nat) (i : Int32)
    (m : Mem) : Except String (Int × Mem) :=
  if i < bound then
    match fuel with
    | 0 => .error "loop does not end"
    | fuel + 1 =>
      match (walkpgdir m pgdir (uint i) false).1 with
      | none => .error "trap"
      | some (t, j) =>
        if m.pt t j &&& PTE_P ≠ 0 ∧ m.pt t j &&& PTE_U ≠ 0 then
          protectLoop update pgdir bound fuel (i + 4096) (m.store t j (update (m.pt t j)))
        else .ok (-1, m)
  else .ok (0, m)

def protectChecks (vlimit : Nat) (addr len : Int32) : Bool :=
  (uint (len * 4096 + addr) > vlimit && len ≤ 0) || addr % 4096 ≠ 0

def mprotect (m : Mem) (p : Proc) (addr len : Int32) : Except String (Int × Mem) :=
  if protectChecks p.vlimit addr len then .ok (-1, m)
  else protectLoop (fun x => x &&& uintNot PTE_W) p.pgdir (len * 4096 + addr) LOOPFUEL addr m

def munprotect (m : Mem) (p : Proc) (addr len : Int32) : Except String (Int × Mem) :=
  if protectChecks p.vlimit addr len then .ok (-1, m)
  else protectLoop (fun x => x ||| PTE_W) p.pgdir (len * 4096 + addr) LOOPFUEL addr m

end Xv6
