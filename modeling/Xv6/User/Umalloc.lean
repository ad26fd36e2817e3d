import Xv6.Param

set_option autoImplicit false

/-!
# The user-space allocator: `umalloc.c`

The allocator of K&R: a circular list of free blocks sorted by address, through a static `base`
of size zero, each block starting with a `Header` that holds the next free block and the block's
size in `Header` units. `malloc` takes the first block that is large enough, from its tail;
`morecore` asks `sbrk` for at least 4096 units and frees them into the list; `free` puts a block
back in address order and merges it with the blocks on either side.

Memory is a map of 32-bit words: the `Header` at `p` is the word at `p` (`s.ptr`) and the word at
`p + 4` (`s.size`). `sizeof(Header)` is 8, so `Header *` arithmetic counts in steps of 8 bytes,
modulo `2 ^ 32`. `sbrk` answers as `sys_sbrk` does: the old break, moved by `n` as `growproc`
moves it, with one page from `kalloc` for each page the break grows into. The list walks run on
fuel; running out of it stands for a loop that never ends.
-/
namespace Xv6

namespace Umalloc

structure Heap where
  mem : UInt32 → UInt32
  /-- `freep`, `0` until the first `malloc`. -/
  freep : UInt32
  /-- `&base`. -/
  base : UInt32
  /-- The process's break, its `vlimit`. -/
  brk : UInt32
  /-- The pages `kalloc` has left. -/
  pages : Nat

namespace Heap

def ptr (h : Heap) (p : UInt32) : UInt32 := h.mem p

def size (h : Heap) (p : UInt32) : UInt32 := h.mem (p + 4)

def setPtr (h : Heap) (p v : UInt32) : Heap := { h with mem := Function.update h.mem p v }

def setSize (h : Heap) (p v : UInt32) : Heap :=
  { h with mem := Function.update h.mem (p + 4) v }

end Heap

def HDR : UInt32 := 8

/-- `sbrk(n)`: the old break, or `none` for the `-1` of a `growproc` that fails. Growing calls
`allocuvm`, which refuses a break at or above `KERNBASE` and needs a page of `kalloc` for each
page from `PGROUNDUP(vlimit)` to the new break; shrinking calls `deallocuvm`, which only ever
lowers the break, and a break of `0` reads as a failure. -/
def sbrk (h : Heap) (n : Int32) : Option (UInt32 × Heap) :=
  let addr := h.brk
  let newv := h.brk + n.toUInt32
  if 0 < n then
    let need := (PGROUNDUP newv.toNat - PGROUNDUP h.brk.toNat) / PGSIZE
    if newv.toNat ≥ KERNBASE then none
    else if newv < h.brk then some (addr, h)
    else if h.pages < need then none
    else some (addr, { h with brk := newv, pages := h.pages - need })
  else if n < 0 then
    let v := if newv ≥ h.brk then h.brk else newv
    if v = 0 then none
    else
      some (addr, { h with
        brk := v, pages := h.pages + (PGROUNDUP h.brk.toNat - PGROUNDUP v.toNat) / PGSIZE })
  else some (addr, h)

/-- The loop of `free`: from `p`, the free block after which `bp` goes, in address order or at
the wrap-around of the list. -/
def freeSearch (h : Heap) (bp : UInt32) : Nat → UInt32 → Option UInt32
  | 0, _ => none
  | fuel + 1, p =>
    if bp > p ∧ bp < h.ptr p then some p
    else if p ≥ h.ptr p ∧ (bp > p ∨ bp < h.ptr p) then some p
    else freeSearch h bp fuel (h.ptr p)

/-- `free(ap)`: the block is linked in after `p` and merged with its neighbours. -/
def free (h : Heap) (ap : UInt32) : Option Heap :=
  let bp := ap - HDR
  match freeSearch h bp WORD h.freep with
  | none => none
  | some p =>
    -- join to the upper neighbour
    let h := if bp + HDR * h.size bp = h.ptr p then
        let h := h.setSize bp (h.size bp + h.size (h.ptr p))
        h.setPtr bp (h.ptr (h.ptr p))
      else h.setPtr bp (h.ptr p)
    -- join to the lower neighbour
    let h := if p + HDR * h.size p = bp then
        let h := h.setSize p (h.size p + h.size bp)
        h.setPtr p (h.ptr bp)
      else h.setPtr p bp
    some { h with freep := p }

/-- `morecore(nu)`: the new `freep`, `0` when `sbrk` fails; `none` when `free` does not end. -/
def morecore (h : Heap) (nu : UInt32) : Option (UInt32 × Heap) :=
  let nu := if nu < 4096 then 4096 else nu
  -- `sbrk` takes an `int`: the byte count `nu * sizeof(Header)` is reinterpreted as signed
  match sbrk h (nu * HDR).toInt32 with
  | none => some (0, h)
  | some (p, h) =>
    let h := h.setSize p nu
    (free h (p + HDR)).map fun h => (h.freep, h)

def nunits (nbytes : UInt32) : UInt32 := (nbytes + HDR - 1) / HDR + 1

/-- The loop of `malloc`, at `p` after `prevp`. -/
def mallocLoop (units : UInt32) : Nat → UInt32 → UInt32 → Heap → Option (UInt32 × Heap)
  | 0, _, _, _ => none
  | fuel + 1, prevp, p, h =>
    if h.size p ≥ units then
      if h.size p = units then
        let h := h.setPtr prevp (h.ptr p)
        some (p + HDR, { h with freep := prevp })
      else
        -- allocate the tail end of the block
        let h := h.setSize p (h.size p - units)
        let p := p + HDR * h.size p
        let h := h.setSize p units
        some (p + HDR, { h with freep := prevp })
    else if p = h.freep then
      match morecore h units with
      | none => none
      | some (0, h) => some (0, h)
      | some (q, h) => mallocLoop units fuel q (h.ptr q) h
    else mallocLoop units fuel p (h.ptr p) h

/-- `malloc(nbytes)`: the pointer returned, `0` when there is no memory, and the heap after it;
`none` when a loop does not end. -/
def malloc (h : Heap) (nbytes : UInt32) : Option (UInt32 × Heap) :=
  let units := nunits nbytes
  let h := if h.freep = 0 then { (h.setPtr h.base h.base).setSize h.base 0 with freep := h.base }
    else h
  mallocLoop units WORD h.freep (h.ptr h.freep) h

/-! ### The size of a request -/

theorem nunits_room {nbytes : UInt32} (h : nbytes.toNat < 2 ^ 32 - 7) :
    nbytes.toNat ≤ ((nunits nbytes).toNat - 1) * 8 := by
  have hadd : (nbytes + HDR - 1).toNat = nbytes.toNat + 7 := by
    rw [UInt32.toNat_sub, UInt32.toNat_add]
    change (2 ^ 32 - 1 + (nbytes.toNat + 8) % 2 ^ 32) % 2 ^ 32 = nbytes.toNat + 7
    omega
  have hdiv : ((nbytes + HDR - 1) / HDR).toNat = (nbytes.toNat + 7) / 8 := by
    rw [UInt32.toNat_div, hadd]
    rfl
  have hunits : (nunits nbytes).toNat = (nbytes.toNat + 7) / 8 + 1 := by
    unfold nunits
    rw [UInt32.toNat_add, hdiv, UInt32.toNat_one]
    omega
  rw [hunits]
  omega

theorem nunits_wraps {nbytes : UInt32} (h : 2 ^ 32 - 7 ≤ nbytes.toNat) : nunits nbytes = 1 := by
  have hadd : (nbytes + HDR - 1).toNat = nbytes.toNat + 7 - 2 ^ 32 := by
    rw [UInt32.toNat_sub, UInt32.toNat_add]
    change (2 ^ 32 - 1 + (nbytes.toNat + 8) % 2 ^ 32) % 2 ^ 32 = _
    have := UInt32.toNat_lt nbytes
    omega
  have hdiv : ((nbytes + HDR - 1) / HDR).toNat = 0 := by
    rw [UInt32.toNat_div, hadd]
    change (nbytes.toNat + 7 - 2 ^ 32) / 8 = 0
    have := UInt32.toNat_lt nbytes
    omega
  unfold nunits
  rw [← UInt32.toNat_inj, UInt32.toNat_add, hdiv]
  rfl

def heap₀ : Heap := ⟨fun _ => 0, 0, 0x2000, 0x3000, 1024⟩

/-- `malloc(0xffffffff)` succeeds with a block of one unit. The request wraps to one unit, so
`morecore` gets 4096 units from `sbrk`, and `malloc` hands out the last unit below the new break:
the pointer returned is the break itself, and no byte of the block lies below it. -/
theorem malloc_wrapped_request :
    (malloc heap₀ 0xFFFFFFFF).map (fun r => (r.1, r.2.size (r.1 - HDR), r.2.brk)) =
      some (0xB000, 1, 0xB000) := by
  decide

end Umalloc

end Xv6
