import Xv6.Fs.Layout
import Xv6.Fs.LogOp

set_option autoImplicit false

/-!
# Blocks and inodes: `fs.c`

The kernel's file-system state: the disk as the buffer cache holds it, the log, and the inode
cache. Every change to a block goes through `FsState.write`, which is `log_write` of the
block's buffer, so once a transaction commits the disk holds what `disk` holds. An inode
pointer is the index of its entry in the cache. Sleep locks are not modelled: each function
runs with the locks it needs.

A loop runs on fuel that it cannot use up (each pass of `readi` or `writei` moves at least a
byte); running out stands for a C loop that never ends.
-/
namespace Xv6

/-- An entry of the inode cache: the on-disk fields, read from disk once `valid`, and the
cache's own fields. -/
structure CInode extends DInode where
  inum : Nat
  ref : Nat
  valid : Bool

/-- `devsw`: the read and write functions of the device majors that have them. A device does
not touch the file system; a read returns the bytes the device delivers. -/
structure Devsw where
  read : Nat → Option (Nat → List UInt8)
  write : Nat → Option (List UInt8 → Int)

def CONSOLE : Nat := 1

def consoleDevsw : Devsw where
  read major := if major = CONSOLE then some fun _ => [] else none
  write major := if major = CONSOLE then some fun bs => bs.length else none

structure FsState where
  disk : Image
  log : Log
  icache : Fin NINODE → CInode
  devsw : Devsw

namespace FsState

def boot (img : Image) (devsw : Devsw) : FsState :=
  ⟨img, initLog, fun _ => ⟨DInode.zero, 0, 0, false⟩, devsw⟩

def setInode (s : FsState) (c : Fin NINODE) (ip : CInode) : FsState :=
  { s with icache := Function.update s.icache c ip }

def setAddr (s : FsState) (c : Fin NINODE) (i : Fin (NDIRECT + 1)) (a : Nat) : FsState :=
  s.setInode c { s.icache c with addrs := Function.update (s.icache c).addrs i a }

def setSize (s : FsState) (c : Fin NINODE) (n : Nat) : FsState :=
  s.setInode c { s.icache c with size := n }

def write (s : FsState) (b : Nat) (f : Image → Image) : Except String FsState :=
  match log_write s.log b with
  | .error e => .error e
  | .ok l => .ok { s with disk := f s.disk, log := l }

@[simp] theorem setInode_disk (s : FsState) (c : Fin NINODE) (ip : CInode) :
    (s.setInode c ip).disk = s.disk := rfl
@[simp] theorem setInode_log (s : FsState) (c : Fin NINODE) (ip : CInode) :
    (s.setInode c ip).log = s.log := rfl
@[simp] theorem setInode_icache (s : FsState) (c : Fin NINODE) (ip : CInode) :
    (s.setInode c ip).icache = Function.update s.icache c ip := rfl

end FsState

/-! ### Blocks -/

def bzero (s : FsState) (bno : Nat) : Except String FsState :=
  s.write bno (·.zero bno)

/-- `balloc`: the first block whose bit in the free map is clear, marked in use and zeroed.
The C loops scan the map block by block and bit by bit, that is, in block-number order. -/
def balloc (s : FsState) : Except String (Nat × FsState) :=
  match (List.range s.disk.sb.size).find? (fun b => !s.disk.bitmap b) with
  | none => .error "balloc: out of blocks"
  | some b =>
    match s.write (BBLOCK b s.disk.sb) (·.setBit b true) with
    | .error e => .error e
    | .ok s =>
      match bzero s b with
      | .error e => .error e
      | .ok s => .ok (b, s)

def bfree (s : FsState) (b : Nat) : Except String FsState :=
  if s.disk.bitmap b = false then .error "freeing free block"
  else s.write (BBLOCK b s.disk.sb) (·.setBit b false)

/-! ### Inodes -/

/-- `iupdate`: the cached inode written back to its slot on disk. -/
def iupdate (s : FsState) (c : Fin NINODE) : Except String FsState :=
  let ip := s.icache c
  s.write (IBLOCK ip.inum s.disk.sb) (·.setDinode ip.inum ip.toDInode)

/-- `iget`: the entry already caching `inum`, with one more reference, or else the first free
entry, taken for `inum` and not yet read from disk. -/
def iget (s : FsState) (inum : Nat) : Except String (Fin NINODE × FsState) :=
  match Fin.find? fun c => decide (0 < (s.icache c).ref ∧ (s.icache c).inum = inum) with
  | some c => .ok (c, s.setInode c { s.icache c with ref := (s.icache c).ref + 1 })
  | none =>
    match Fin.find? fun c => decide ((s.icache c).ref = 0) with
    | none => .error "iget: no inodes"
    | some c => .ok (c, s.setInode c { s.icache c with inum, ref := 1, valid := false })

def idup (s : FsState) (c : Fin NINODE) : FsState :=
  s.setInode c { s.icache c with ref := (s.icache c).ref + 1 }

/-- `ilock`: the entry read from disk if it is not valid yet. -/
def ilock (s : FsState) (c : Fin NINODE) : Except String FsState :=
  let ip := s.icache c
  if ip.ref < 1 then .error "ilock"
  else if ip.valid then .ok s
  else
    let ip : CInode :=
      { toDInode := s.disk.dinode ip.inum, inum := ip.inum, ref := ip.ref, valid := true }
    if ip.type = 0 then .error "ilock: no type"
    else .ok (s.setInode c ip)

/-- `ialloc`: the first inode from `1` whose type on disk is `0`, cleared and given `type`. -/
def ialloc (s : FsState) (type : Nat) : Except String (Fin NINODE × FsState) :=
  match (List.range' 1 (s.disk.sb.ninodes - 1)).find? (fun inum =>
      (s.disk.dinode inum).type = 0) with
  | none => .error "ialloc: no inodes"
  | some inum =>
    match s.write (IBLOCK inum s.disk.sb) (·.setDinode inum { DInode.zero with type }) with
    | .error e => .error e
    | .ok s => iget s inum

/-- `bmap`: the disk block of block `bn` of the inode, allocated if there is none. -/
def bmap (s : FsState) (c : Fin NINODE) (bn : Nat) : Except String (Nat × FsState) :=
  if h : bn < NDIRECT then
    let i := direct ⟨bn, h⟩
    let addr := (s.icache c).addrs i
    if addr = 0 then
      match balloc s with
      | .error e => .error e
      | .ok (addr, s) => .ok (addr, s.setAddr c i addr)
    else .ok (addr, s)
  else if h' : bn - NDIRECT < NINDIRECT then
    -- load the indirect block, allocating if necessary
    let loaded : Except String (Nat × FsState) :=
      if (s.icache c).addrs indirect = 0 then
        match balloc s with
        | .error e => .error e
        | .ok (ia, s) => .ok (ia, s.setAddr c indirect ia)
      else .ok ((s.icache c).addrs indirect, s)
    match loaded with
    | .error e => .error e
    | .ok (ia, s) =>
      let j : Fin NINDIRECT := ⟨bn - NDIRECT, h'⟩
      let addr := s.disk.ind ia j
      if addr = 0 then
        match balloc s with
        | .error e => .error e
        | .ok (addr, s) =>
          match s.write ia (·.setInd ia j addr) with
          | .error e => .error e
          | .ok s => .ok (addr, s)
      else .ok (addr, s)
  else .error "bmap: out of range"

def itruncDirect (c : Fin NINODE) : List (Fin NDIRECT) → FsState → Except String FsState
  | [], s => .ok s
  | i :: is, s =>
    let a := (s.icache c).addrs (direct i)
    if a ≠ 0 then
      match bfree s a with
      | .error e => .error e
      | .ok s => itruncDirect c is (s.setAddr c (direct i) 0)
    else itruncDirect c is s

def bfreeEntries : List Nat → FsState → Except String FsState
  | [], s => .ok s
  | a :: as, s =>
    if a ≠ 0 then
      match bfree s a with
      | .error e => .error e
      | .ok s => bfreeEntries as s
    else bfreeEntries as s

def itrunc (s : FsState) (c : Fin NINODE) : Except String FsState :=
  match itruncDirect c (List.finRange NDIRECT) s with
  | .error e => .error e
  | .ok s =>
    let ia := (s.icache c).addrs indirect
    let freed : Except String FsState :=
      if ia ≠ 0 then
        match bfreeEntries ((List.finRange NINDIRECT).map (s.disk.ind ia)) s with
        | .error e => .error e
        | .ok s =>
          match bfree s ia with
          | .error e => .error e
          | .ok s => .ok (s.setAddr c indirect 0)
      else .ok s
    match freed with
    | .error e => .error e
    | .ok s => iupdate (s.setSize c 0) c

/-- `iput`: drop a reference; the last reference to an inode with no links frees it. -/
def iput (s : FsState) (c : Fin NINODE) : Except String FsState :=
  let ip := s.icache c
  let freed : Except String FsState :=
    if ip.valid = true ∧ ip.nlink = 0 ∧ ip.ref = 1 then
      match itrunc s c with
      | .error e => .error e
      | .ok s =>
        match iupdate (s.setInode c { s.icache c with type := 0 }) c with
        | .error e => .error e
        | .ok s => .ok (s.setInode c { s.icache c with valid := false })
    else .ok s
  match freed with
  | .error e => .error e
  | .ok s => .ok (s.setInode c { s.icache c with ref := (s.icache c).ref - 1 })

/-! ### Inode content -/

def readiLoop (c : Fin NINODE) (n : Nat) (fuel tot off : Nat) (dst : List UInt8)
    (s : FsState) : Except String (List UInt8 × FsState) :=
  if tot < n then
    match fuel with
    | 0 => .error "loop does not end"
    | fuel + 1 =>
      match bmap s c (off / BSIZE) with
      | .error e => .error e
      | .ok (b, s) =>
        let m := min (n - tot) (BSIZE - off % BSIZE)
        readiLoop c n fuel (tot + m) (off + m) (dst ++ s.disk.readData b (off % BSIZE) m) s
  else .ok (dst, s)

/-- `readi`: the count `readi` returns, the bytes read, and the state. -/
def readi (s : FsState) (c : Fin NINODE) (off n : Nat) :
    Except String (Int × List UInt8 × FsState) :=
  let ip := s.icache c
  if ip.type = T_DEV then
    match s.devsw.read ip.major with
    | none => .ok (-1, [], s)
    | some rd => .ok ((rd n).length, rd n, s)
  else if off > ip.size ∨ (off + n) % WORD < off then .ok (-1, [], s)
  else
    let n := if off + n > ip.size then ip.size - off else n
    match readiLoop c n n 0 off [] s with
    | .error e => .error e
    | .ok (bs, s) => .ok (n, bs, s)

def writeiLoop (c : Fin NINODE) (src : List UInt8) (n : Nat) (fuel tot off : Nat)
    (s : FsState) : Except String FsState :=
  if tot < n then
    match fuel with
    | 0 => .error "loop does not end"
    | fuel + 1 =>
      match bmap s c (off / BSIZE) with
      | .error e => .error e
      | .ok (b, s) =>
        let m := min (n - tot) (BSIZE - off % BSIZE)
        match s.write b (·.writeData b (off % BSIZE) ((src.drop tot).take m)) with
        | .error e => .error e
        | .ok s => writeiLoop c src n fuel (tot + m) (off + m) s
  else .ok s

/-- `writei`: the count `writei` returns and the state. The inode grows, and is written back,
when the write ends past its size. -/
def writei (s : FsState) (c : Fin NINODE) (src : List UInt8) (off n : Nat) :
    Except String (Int × FsState) :=
  let ip := s.icache c
  if ip.type = T_DEV then
    match s.devsw.write ip.major with
    | none => .ok (-1, s)
    | some wr => .ok (wr (src.take n), s)
  else if off > ip.size ∨ (off + n) % WORD < off then .ok (-1, s)
  else if off + n > MAXFILE * BSIZE then .ok (-1, s)
  else
    match writeiLoop c src n n 0 off s with
    | .error e => .error e
    | .ok s =>
      if n > 0 ∧ off + n > (s.icache c).size then
        match iupdate (s.setSize c (off + n)) c with
        | .error e => .error e
        | .ok s => .ok (n, s)
      else .ok (n, s)

/-! ### What each function does -/

/-- The log takes `k` more `log_write`s without a panic. -/
def Log.Room (k : Nat) (l : Log) : Prop :=
  l.lh.length + k < LOGSIZE ∧ l.size = LOGSIZE ∧ 1 ≤ l.outstanding

end Xv6
