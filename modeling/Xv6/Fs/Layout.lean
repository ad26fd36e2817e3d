import Xv6.Param

set_option autoImplicit false

/-!
# The on-disk file system: `fs.h`

The superblock, the on-disk inode and the disk as the file system reads it. A block is read
through the view its use gives it: the free map as one bit per block number, an inode block as
its `IPB` inodes, an indirect block as `NINDIRECT` block numbers, any other block as bytes.
Each view is written only through the functions below; `bzero` writes both views of a block.
-/
namespace Xv6

def BSIZE : Nat := 512
def ROOTINO : Nat := 1
def NDIRECT : Nat := 12
def NINDIRECT : Nat := BSIZE / 4
def MAXFILE : Nat := NDIRECT + NINDIRECT
def IPB : Nat := BSIZE / 64
def BPB : Nat := BSIZE * 8
def DIRSIZ : Nat := 14
def DIRENTSIZE : Nat := 2 + DIRSIZ

def T_DIR : Nat := 1
def T_FILE : Nat := 2
def T_DEV : Nat := 3

/-- `NINODE` of `param.h`: the entries of the inode cache. -/
def NINODE : Nat := 50

instance : NeZero NINODE := ⟨by decide⟩

structure Superblock where
  size : Nat
  nblocks : Nat
  ninodes : Nat
  nlog : Nat
  logstart : Nat
  inodestart : Nat
  bmapstart : Nat
  deriving DecidableEq, Repr

/-- The blocks below the data blocks: boot block, superblock, log, inodes and free map. -/
def Superblock.nmeta (sb : Superblock) : Nat := sb.size - sb.nblocks

def IBLOCK (i : Nat) (sb : Superblock) : Nat := i / IPB + sb.inodestart
def BBLOCK (b : Nat) (sb : Superblock) : Nat := b / BPB + sb.bmapstart

structure DInode where
  type : Nat
  major : Nat
  minor : Nat
  nlink : Nat
  size : Nat
  addrs : Fin (NDIRECT + 1) → Nat

def DInode.zero : DInode := ⟨0, 0, 0, 0, 0, fun _ => 0⟩

def direct (i : Fin NDIRECT) : Fin (NDIRECT + 1) := i.castSucc

def indirect : Fin (NDIRECT + 1) := Fin.last NDIRECT

theorem direct_ne_indirect (i : Fin NDIRECT) : direct i ≠ indirect :=
  Fin.castSucc_ne_last i

structure Image where
  sb : Superblock
  /-- The bit of block `b` in the free map: block `BBLOCK(b)`, byte `(b % BPB) / 8`, bit
  `b % 8`. -/
  bitmap : Nat → Bool
  /-- Inode `inum`: block `IBLOCK(inum)`, slot `inum % IPB`. -/
  dinode : Nat → DInode
  /-- Block `b` read as an indirect block. -/
  ind : Nat → Fin NINDIRECT → Nat
  /-- Byte `i` of block `b`. -/
  data : Nat → Nat → UInt8

namespace Image

def setBit (d : Image) (b : Nat) (v : Bool) : Image :=
  { d with bitmap := Function.update d.bitmap b v }

def setDinode (d : Image) (inum : Nat) (di : DInode) : Image :=
  { d with dinode := Function.update d.dinode inum di }

def setInd (d : Image) (b : Nat) (j : Fin NINDIRECT) (v : Nat) : Image :=
  { d with ind := Function.update d.ind b (Function.update (d.ind b) j v) }

def writeData (d : Image) (b o : Nat) (bs : List UInt8) : Image :=
  { d with
    data := Function.update d.data b fun i =>
      if o ≤ i ∧ i < o + bs.length then bs.getD (i - o) 0 else d.data b i }

def readData (d : Image) (b o m : Nat) : List UInt8 :=
  (List.range m).map fun k => d.data b (o + k)

def zero (d : Image) (b : Nat) : Image :=
  { d with
    ind := Function.update d.ind b fun _ => 0
    data := Function.update d.data b fun _ => 0 }

@[simp] theorem setBit_dinode (d : Image) (b : Nat) (v : Bool) :
    (d.setBit b v).dinode = d.dinode := rfl
@[simp] theorem setBit_ind (d : Image) (b : Nat) (v : Bool) : (d.setBit b v).ind = d.ind := rfl
@[simp] theorem setBit_sb (d : Image) (b : Nat) (v : Bool) : (d.setBit b v).sb = d.sb := rfl
@[simp] theorem setBit_data (d : Image) (b : Nat) (v : Bool) :
    (d.setBit b v).data = d.data := rfl

@[simp] theorem setDinode_bitmap (d : Image) (inum : Nat) (di : DInode) :
    (d.setDinode inum di).bitmap = d.bitmap := rfl
@[simp] theorem setDinode_dinode (d : Image) (inum : Nat) (di : DInode) :
    (d.setDinode inum di).dinode = Function.update d.dinode inum di := rfl
@[simp] theorem setDinode_ind (d : Image) (inum : Nat) (di : DInode) :
    (d.setDinode inum di).ind = d.ind := rfl
@[simp] theorem setDinode_sb (d : Image) (inum : Nat) (di : DInode) :
    (d.setDinode inum di).sb = d.sb := rfl
@[simp] theorem setDinode_data (d : Image) (inum : Nat) (di : DInode) :
    (d.setDinode inum di).data = d.data := rfl

@[simp] theorem setInd_bitmap (d : Image) (b : Nat) (j : Fin NINDIRECT) (v : Nat) :
    (d.setInd b j v).bitmap = d.bitmap := rfl
@[simp] theorem setInd_dinode (d : Image) (b : Nat) (j : Fin NINDIRECT) (v : Nat) :
    (d.setInd b j v).dinode = d.dinode := rfl
@[simp] theorem setInd_sb (d : Image) (b : Nat) (j : Fin NINDIRECT) (v : Nat) :
    (d.setInd b j v).sb = d.sb := rfl
@[simp] theorem setInd_data (d : Image) (b : Nat) (j : Fin NINDIRECT) (v : Nat) :
    (d.setInd b j v).data = d.data := rfl

@[simp] theorem writeData_bitmap (d : Image) (b o : Nat) (bs : List UInt8) :
    (d.writeData b o bs).bitmap = d.bitmap := rfl
@[simp] theorem writeData_dinode (d : Image) (b o : Nat) (bs : List UInt8) :
    (d.writeData b o bs).dinode = d.dinode := rfl
@[simp] theorem writeData_ind (d : Image) (b o : Nat) (bs : List UInt8) :
    (d.writeData b o bs).ind = d.ind := rfl
@[simp] theorem writeData_sb (d : Image) (b o : Nat) (bs : List UInt8) :
    (d.writeData b o bs).sb = d.sb := rfl

@[simp] theorem zero_dinode (d : Image) (b : Nat) : (d.zero b).dinode = d.dinode := rfl
@[simp] theorem zero_sb (d : Image) (b : Nat) : (d.zero b).sb = d.sb := rfl

end Image

end Xv6
