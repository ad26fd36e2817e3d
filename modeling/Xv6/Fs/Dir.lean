import Xv6.Fs.Inode

set_option autoImplicit false

/-!
# Directories and path names: `fs.c`

A directory is a file of `struct dirent`s, two bytes of inode number and `DIRSIZ` bytes of
name. A C string is a list of bytes; a byte read past the end of the list is the terminating
`NUL`.
-/
namespace Xv6

def SLASH : UInt8 := 47

/-- `strncmp(p, q, n)` of `string.c`. -/
def strncmp : List UInt8 → List UInt8 → Nat → Int
  | _, _, 0 => 0
  | p, q, n + 1 =>
    if p.headD 0 ≠ 0 ∧ p.headD 0 = q.headD 0 then strncmp p.tail q.tail n
    else ((p.headD 0).toNat : Int) - (q.headD 0).toNat

/-- The `n` bytes `strncpy(s, t, n)` writes: `t` up to its `NUL`, padded with `NUL`s. -/
def strncpy (t : List UInt8) (n : Nat) : List UInt8 :=
  (t.takeWhile (· ≠ 0) ++ List.replicate n 0).take n

def namecmp (s t : List UInt8) : Int := strncmp s t DIRSIZ

structure Dirent where
  inum : Nat
  name : List UInt8

def Dirent.encode (de : Dirent) : List UInt8 :=
  [(de.inum % 256).toUInt8, (de.inum / 256 % 256).toUInt8] ++ strncpy de.name DIRSIZ

def Dirent.decode (bs : List UInt8) : Dirent :=
  ⟨(bs.getD 0 0).toNat + 256 * (bs.getD 1 0).toNat, (bs.drop 2).take DIRSIZ⟩

def DIRFUEL : Nat := WORD / DIRENTSIZE + 1

def dirlookupLoop (c : Fin NINODE) (name : List UInt8) (fuel off : Nat) (s : FsState) :
    Except String (Option (Fin NINODE × Nat) × FsState) :=
  if off < (s.icache c).size then
    match fuel with
    | 0 => .error "loop does not end"
    | fuel + 1 =>
      match readi s c off DIRENTSIZE with
      | .error e => .error e
      | .ok (r, bs, s) =>
        if r ≠ DIRENTSIZE then .error "dirlookup read"
        else
          let de := Dirent.decode bs
          if de.inum = 0 then dirlookupLoop c name fuel ((off + DIRENTSIZE) % WORD) s
          else if namecmp name de.name = 0 then
            match iget s de.inum with
            | .error e => .error e
            | .ok (ip, s) => .ok (some (ip, off), s)
          else dirlookupLoop c name fuel ((off + DIRENTSIZE) % WORD) s
  else .ok (none, s)

/-- `dirlookup`: the cache entry of the inode that `name` names in directory `c`, with the
entry's offset. -/
def dirlookup (s : FsState) (c : Fin NINODE) (name : List UInt8) :
    Except String (Option (Fin NINODE × Nat) × FsState) :=
  if (s.icache c).type ≠ T_DIR then .error "dirlookup not DIR"
  else dirlookupLoop c name DIRFUEL 0 s

def dirlinkLoop (c : Fin NINODE) (fuel off : Nat) (s : FsState) :
    Except String (Nat × FsState) :=
  if off < (s.icache c).size then
    match fuel with
    | 0 => .error "loop does not end"
    | fuel + 1 =>
      match readi s c off DIRENTSIZE with
      | .error e => .error e
      | .ok (r, bs, s) =>
        if r ≠ DIRENTSIZE then .error "dirlink read"
        else if (Dirent.decode bs).inum = 0 then .ok (off, s)
        else dirlinkLoop c fuel ((off + DIRENTSIZE) % WORD) s
  else .ok (off, s)

/-- `dirlink`: a new entry for `name` in the first free slot of directory `c`, or at its end;
`-1` if `name` is there already. -/
def dirlink (s : FsState) (c : Fin NINODE) (name : List UInt8) (inum : Nat) :
    Except String (Int × FsState) :=
  match dirlookup s c name with
  | .error e => .error e
  | .ok (some (ip, _), s) => (iput s ip).map fun s => (-1, s)
  | .ok (none, s) =>
    match dirlinkLoop c DIRFUEL 0 s with
    | .error e => .error e
    | .ok (off, s) =>
      match writei s c (Dirent.encode ⟨inum, name⟩) off DIRENTSIZE with
      | .error e => .error e
      | .ok (r, s) => if r ≠ DIRENTSIZE then .error "dirlink" else .ok (0, s)

/-- `skipelem`: the next element of `path`, as it is left in `name`, and the rest of the path
after the slashes that follow it; `none` when no element is left. -/
def skipelem (path : List UInt8) : Option (List UInt8 × List UInt8) :=
  let path := path.dropWhile (· = SLASH)
  if path = [] then none
  else
    let elem := path.takeWhile (· ≠ SLASH)
    let rest := (path.dropWhile (· ≠ SLASH)).dropWhile (· = SLASH)
    some (if elem.length ≥ DIRSIZ then elem.take DIRSIZ else elem ++ [0], rest)

def namexLoop (nameiparent : Bool) (fuel : Nat) (path name : List UInt8) (ip : Fin NINODE)
    (s : FsState) : Except String (Option (Fin NINODE) × List UInt8 × FsState) :=
  match skipelem path with
  | none =>
    if nameiparent then (iput s ip).map fun s => (none, name, s)
    else .ok (some ip, name, s)
  | some (name, path) =>
    match fuel with
    | 0 => .error "loop does not end"
    | fuel + 1 =>
      match ilock s ip with
      | .error e => .error e
      | .ok s =>
        if (s.icache ip).type ≠ T_DIR then (iput s ip).map fun s => (none, name, s)
        else if nameiparent ∧ path = [] then .ok (some ip, name, s)
        else
          match dirlookup s ip name with
          | .error e => .error e
          | .ok (none, s) => (iput s ip).map fun s => (none, name, s)
          | .ok (some (next, _), s) =>
            match iput s ip with
            | .error e => .error e
            | .ok s => namexLoop nameiparent fuel path name next s

/-- `namex`: from the root for an absolute path, else from the process's `cwd`. -/
def namex (s : FsState) (cwd : Fin NINODE) (path : List UInt8) (nameiparent : Bool) :
    Except String (Option (Fin NINODE) × List UInt8 × FsState) :=
  let start : Except String (Fin NINODE × FsState) :=
    if path.headD 0 = SLASH then iget s ROOTINO else .ok (cwd, idup s cwd)
  match start with
  | .error e => .error e
  | .ok (ip, s) => namexLoop nameiparent path.length path [] ip s

def namei (s : FsState) (cwd : Fin NINODE) (path : List UInt8) :
    Except String (Option (Fin NINODE) × FsState) :=
  (namex s cwd path false).map fun (ip, _, s) => (ip, s)

/-- `nameiparent`: the parent directory of the last element of `path`, and that element. -/
def nameiparent (s : FsState) (cwd : Fin NINODE) (path : List UInt8) :
    Except String (Option (Fin NINODE) × List UInt8 × FsState) :=
  namex s cwd path true

/-! ### What `dirlookup` does -/

section Lookup

variable {c : Fin NINODE} {name : List UInt8} {s : FsState}

theorem dirlookupLoop_done {fuel off : Nat} (h : ¬ off < (s.icache c).size) :
    dirlookupLoop c name fuel off s = .ok (none, s) := by
  unfold dirlookupLoop
  rw [if_neg h]

theorem dirlookupLoop_next {fuel off : Nat} {bs : List UInt8} {s' : FsState}
    (hlt : off < (s.icache c).size) (hr : readi s c off DIRENTSIZE = .ok (DIRENTSIZE, bs, s'))
    (hskip : (Dirent.decode bs).inum = 0 ∨ namecmp name (Dirent.decode bs).name ≠ 0) :
    dirlookupLoop c name (fuel + 1) off s =
      dirlookupLoop c name fuel ((off + DIRENTSIZE) % WORD) s' := by
  conv_lhs => unfold dirlookupLoop
  rw [if_pos hlt]
  dsimp only
  rw [hr]
  dsimp only
  rw [if_neg (fun h => h rfl)]
  by_cases h0 : (Dirent.decode bs).inum = 0
  · rw [if_pos h0]
  · rw [if_neg h0, if_neg (hskip.resolve_left h0)]

def entryAt (d : Image) (b o : Nat) : Dirent := Dirent.decode (d.readData b o DIRENTSIZE)

end Lookup

/-! ### The name space on disk -/

namespace Image

def blockAt (d : Image) (inum bn : Nat) : Nat :=
  if h : bn < NDIRECT then (d.dinode inum).addrs (direct ⟨bn, h⟩)
  else if h' : bn - NDIRECT < NINDIRECT then
    if (d.dinode inum).addrs indirect = 0 then 0
    else d.ind ((d.dinode inum).addrs indirect) ⟨bn - NDIRECT, h'⟩
  else 0

/-- The inode numbers in the entries of directory `inum`, up to its size, free entries and
entries in missing blocks left out. -/
def entryInums (d : Image) (inum : Nat) : List Nat :=
  (List.range ((d.dinode inum).size / DIRENTSIZE)).filterMap fun k =>
    let b := d.blockAt inum (DIRENTSIZE * k / BSIZE)
    let e := (entryAt d b (DIRENTSIZE * k % BSIZE)).inum
    if b = 0 ∨ e = 0 then none else some e

/-- The inodes reachable from the root through the entries of directories. -/
inductive Reaches (d : Image) : Nat → Prop
  | root : Reaches d ROOTINO
  | entry {p c : Nat} : Reaches d p → (d.dinode p).type = T_DIR → c ∈ d.entryInums p →
      Reaches d c

theorem Reaches.mem_of_closed {d : Image} {S : List Nat} (hroot : ROOTINO ∈ S)
    (hclosed : ∀ p ∈ S, (d.dinode p).type = T_DIR → ∀ c ∈ d.entryInums p, c ∈ S) {n : Nat}
    (h : Reaches d n) : n ∈ S := by
  induction h with
  | root => exact hroot
  | entry _ hdir hc ih => exact hclosed _ ih hdir _ hc

end Image

end Xv6
