import Xv6.Fs.Dir

set_option autoImplicit false

/-!
# `mkfs`: the initial image

`mkfs fs.img files...` lays out the disk, makes the root directory with `.` and `..`, and for
each file an inode with the file's bytes and an entry in the root. Blocks are handed out in
order from the first data block (`freeblock`), and the free map marks every block below the
last one handed out. An `assert` that fails, or a name with a `/`, makes `mkfs` stop without
an image (`none`).

A file is given as its argument (the host path, a bare name) and its bytes.
-/
namespace Xv6

def NINODES : Nat := 200
def nbitmap : Nat := FSSIZE / (BSIZE * 8) + 1
def ninodeblocks : Nat := NINODES / IPB + 1
def nlog : Nat := LOGSIZE
def nmeta : Nat := 2 + nlog + ninodeblocks + nbitmap
def nblocks : Nat := FSSIZE - nmeta

def mkfsSb : Superblock where
  size := FSSIZE
  nblocks := nblocks
  ninodes := NINODES
  nlog := nlog
  logstart := 2
  inodestart := 2 + nlog
  bmapstart := 2 + nlog + ninodeblocks

def DOT : List UInt8 := [46]
def DOTDOT : List UInt8 := [46, 46]

def readChunks (bytes : List UInt8) : List (List UInt8) :=
  (List.range ((bytes.length + BSIZE - 1) / BSIZE)).map fun i => (bytes.drop (BSIZE * i)).take BSIZE

structure Mkfs where
  img : Image
  freeinode : Nat
  freeblock : Nat

namespace Mkfs

def start : Mkfs where
  img := ⟨mkfsSb, fun _ => false, fun _ => DInode.zero, fun _ _ => 0, fun _ _ => 0⟩
  freeinode := 1
  freeblock := nmeta

def ialloc (m : Mkfs) (type : Nat) : Nat × Mkfs :=
  let inum := m.freeinode
  (inum, { m with
    freeinode := inum + 1
    img := m.img.setDinode inum { DInode.zero with type, nlink := 1 } })

def blockOf (din : DInode) (fbn : Nat) (h : fbn < MAXFILE) (m : Mkfs) : Nat × DInode × Mkfs :=
  if hd : fbn < NDIRECT then
    let i := direct ⟨fbn, hd⟩
    if din.addrs i = 0 then
      (m.freeblock, { din with addrs := Function.update din.addrs i m.freeblock },
        { m with freeblock := m.freeblock + 1 })
    else (din.addrs i, din, m)
  else
    let (din, m) : DInode × Mkfs :=
      if din.addrs indirect = 0 then
        ({ din with addrs := Function.update din.addrs indirect m.freeblock },
          { m with freeblock := m.freeblock + 1 })
      else (din, m)
    let ia := din.addrs indirect
    let j : Fin NINDIRECT := ⟨fbn - NDIRECT, by unfold MAXFILE at h; omega⟩
    if m.img.ind ia j = 0 then
      (m.freeblock, din,
        { m with img := m.img.setInd ia j m.freeblock, freeblock := m.freeblock + 1 })
    else (m.img.ind ia j, din, m)

def iappendLoop (fuel : Nat) (p : List UInt8) (off : Nat) (din : DInode) (m : Mkfs) :
    Option (Nat × DInode × Mkfs) :=
  if p.length > 0 then
    match fuel with
    | 0 => none
    | fuel + 1 =>
      let fbn := off / BSIZE
      if h : fbn < MAXFILE then
        let (x, din, m) := blockOf din fbn h m
        let n1 := min p.length ((fbn + 1) * BSIZE - off)
        iappendLoop fuel (p.drop n1) (off + n1) din
          { m with img := m.img.writeData x (off - fbn * BSIZE) (p.take n1) }
      else none
  else some (off, din, m)

def iappend (m : Mkfs) (inum : Nat) (p : List UInt8) : Option Mkfs :=
  let din := m.img.dinode inum
  match iappendLoop p.length p din.size din m with
  | none => none
  | some (off, din, m) => some { m with img := m.img.setDinode inum { din with size := off } }

def addFile (rootino : Nat) (m : Mkfs) (file : List UInt8 × List UInt8) : Option Mkfs :=
  if SLASH ∈ file.1 then none
  else
    let name := if file.1.headD 0 = 95 then file.1.tail else file.1
    let (inum, m) := m.ialloc T_FILE
    match m.iappend rootino (Dirent.encode ⟨inum, name⟩) with
    | none => none
    | some m => (readChunks file.2).foldlM (fun m chunk => m.iappend inum chunk) m

end Mkfs

/-- The image `mkfs` writes for its arguments, in order. `ialloc` gives the root `ROOTINO`, the
first inode number, so `assert(rootino == ROOTINO)` holds. -/
def mkfs (files : List (List UInt8 × List UInt8)) : Option Image :=
  let (rootino, m) := Mkfs.start.ialloc T_DIR
  match m.iappend rootino (Dirent.encode ⟨rootino, DOT⟩) with
  | none => none
  | some m =>
    match m.iappend rootino (Dirent.encode ⟨rootino, DOTDOT⟩) with
    | none => none
    | some m =>
      match files.foldlM (Mkfs.addFile rootino) m with
      | none => none
      | some m =>
        -- fix size of root inode dir: rounded up to the next block boundary
        let din := m.img.dinode rootino
        let img := m.img.setDinode rootino { din with size := (din.size / BSIZE + 1) * BSIZE }
        -- `balloc(freeblock)`: the bits of every block below `freeblock`
        if m.freeblock < BSIZE * 8 then some { img with bitmap := fun b => decide (b < m.freeblock) }
        else none

namespace Mkfs

/-! ### What every step keeps -/

end Mkfs

/-! ### The image -/

def files30 : List (List UInt8 × List UInt8) :=
  ((List.range 26).map fun i => ([97 + i.toUInt8], [])) ++
    (List.range 4).map fun i => ([65 + i.toUInt8], [])

/-- Thirty files are valid arguments, and with `.` and `..` their entries fill the root's first
block exactly. The root's size is then rounded up by a whole block that nothing allocates:
offsets `512` to `1023` of the root directory lie below its size and have no block. -/
theorem mkfs_root_hole :
    (files30.map Prod.fst).Nodup ∧ (∀ f ∈ files30, f.1.length ≤ DIRSIZ ∧ SLASH ∉ f.1) ∧
      files30.length < NINODES ∧
      (mkfs files30).map (fun img => ((img.dinode ROOTINO).type, (img.dinode ROOTINO).size,
        (img.dinode ROOTINO).addrs (direct ⟨1, by decide⟩))) = some (T_DIR, 2 * BSIZE, 0) :=
  ⟨by decide, by decide, by decide, by decide +kernel⟩

end Xv6
