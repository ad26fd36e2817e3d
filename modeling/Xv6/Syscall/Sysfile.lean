import Xv6.Fs.Mkfs

set_option autoImplicit false

/-!
# File-system system calls: `sysfile.c`

Each call runs in one transaction, between `begin_op` and `end_op`. The path argument is the
string `argstr` fetched; the process's `cwd` is the cache entry of its current directory.
-/
namespace Xv6

/-- `begin_op()` once the caller gets in; `none` while it would sleep on `&log`. -/
def beginOp (s : FsState) : Option FsState :=
  (begin_op s.log).map fun l => { s with log := l }

/-- `end_op()`, and `commit()` when the caller is the last one out. Every block the
transaction changed was logged, so after the commit the disk holds `disk`. -/
def endOp (s : FsState) : Except String FsState :=
  match end_op s.log with
  | .error e => .error e
  | .ok (true, l) => .ok { s with log := finishCommit l }
  | .ok (false, l) => .ok { s with log := l }

def putFail (s : FsState) (dp : Fin NINODE) : Except String (Int × FsState) :=
  match iput s dp with
  | .error e => .error e
  | .ok s => (endOp s).map fun s => (-1, s)

def isdiremptyLoop (dp : Fin NINODE) (fuel off : Nat) (s : FsState) :
    Except String (Bool × FsState) :=
  if off < (s.icache dp).size then
    match fuel with
    | 0 => .error "loop does not end"
    | fuel + 1 =>
      match readi s dp off DIRENTSIZE with
      | .error e => .error e
      | .ok (r, bs, s) =>
        if r ≠ DIRENTSIZE then .error "isdirempty: readi"
        else if (Dirent.decode bs).inum ≠ 0 then .ok (false, s)
        else isdiremptyLoop dp fuel ((off + DIRENTSIZE) % WORD) s
  else .ok (true, s)

/-- `isdirempty`: whether directory `dp` has no entries but `.` and `..`. -/
def isdirempty (s : FsState) (dp : Fin NINODE) : Except String (Bool × FsState) :=
  isdiremptyLoop dp DIRFUEL (2 * DIRENTSIZE) s

/-- `sys_unlink`: the result and the state; `none` while `begin_op` would sleep. -/
def sys_unlink (s : FsState) (cwd : Fin NINODE) (path : List UInt8) :
    Option (Except String (Int × FsState)) :=
  (beginOp s).map fun s =>
    match nameiparent s cwd path with
    | .error e => .error e
    | .ok (none, _, s) => (endOp s).map fun s => (-1, s)
    | .ok (some dp, name, s) =>
      match ilock s dp with
      | .error e => .error e
      | .ok s =>
        -- cannot unlink "." or ".."
        if namecmp name DOT = 0 ∨ namecmp name DOTDOT = 0 then putFail s dp
        else
          match dirlookup s dp name with
          | .error e => .error e
          | .ok (none, s) => putFail s dp
          | .ok (some (ip, off), s) =>
            match ilock s ip with
            | .error e => .error e
            | .ok s =>
              if (s.icache ip).nlink < 1 then .error "unlink: nlink < 1"
              else
                let empty : Except String (Bool × FsState) :=
                  if (s.icache ip).type = T_DIR then isdirempty s ip else .ok (true, s)
                match empty with
                | .error e => .error e
                | .ok (false, s) =>
                  match iput s ip with
                  | .error e => .error e
                  | .ok s => putFail s dp
                | .ok (true, s) =>
                  match writei s dp (List.replicate DIRENTSIZE 0) off DIRENTSIZE with
                  | .error e => .error e
                  | .ok (r, s) =>
                    if r ≠ DIRENTSIZE then .error "unlink: writei"
                    else
                      -- a directory's ".." no longer counts as a link to `dp`
                      let parent : Except String FsState :=
                        if (s.icache ip).type = T_DIR then
                          iupdate (s.setInode dp { s.icache dp with nlink := (s.icache dp).nlink - 1 })
                            dp
                        else .ok s
                      match parent with
                      | .error e => .error e
                      | .ok s =>
                        match iput s dp with
                        | .error e => .error e
                        | .ok s =>
                          let s := s.setInode ip { s.icache ip with nlink := (s.icache ip).nlink - 1 }
                          match iupdate s ip with
                          | .error e => .error e
                          | .ok s =>
                            match iput s ip with
                            | .error e => .error e
                            | .ok s => (endOp s).map fun s => (0, s)

/-- `create`: the entry, locked, of a new inode of `type` at `path`, or of the `T_FILE` that is
there already when `type` is `T_FILE`; `none` when there is no parent or the name is taken. -/
def create (s : FsState) (cwd : Fin NINODE) (path : List UInt8) (type major minor : Nat) :
    Except String (Option (Fin NINODE) × FsState) :=
  match nameiparent s cwd path with
  | .error e => .error e
  | .ok (none, _, s) => .ok (none, s)
  | .ok (some dp, name, s) =>
    match ilock s dp with
    | .error e => .error e
    | .ok s =>
      match dirlookup s dp name with
      | .error e => .error e
      | .ok (some (ip, _), s) =>
        match iput s dp with
        | .error e => .error e
        | .ok s =>
          match ilock s ip with
          | .error e => .error e
          | .ok s =>
            if type = T_FILE ∧ (s.icache ip).type = T_FILE then .ok (some ip, s)
            else (iput s ip).map fun s => (none, s)
      | .ok (none, s) =>
        match ialloc s type with
        | .error e => .error e
        | .ok (ip, s) =>
          match ilock s ip with
          | .error e => .error e
          | .ok s =>
            let s := s.setInode ip { s.icache ip with major, minor, nlink := 1 }
            match iupdate s ip with
            | .error e => .error e
            | .ok s =>
              -- a directory gets "." and ".."; only ".." is a link, to the parent
              let dots : Except String FsState :=
                if type = T_DIR then
                  let s := s.setInode dp { s.icache dp with nlink := (s.icache dp).nlink + 1 }
                  match iupdate s dp with
                  | .error e => .error e
                  | .ok s =>
                    match dirlink s ip DOT (s.icache ip).inum with
                    | .error e => .error e
                    | .ok (r, s) =>
                      if r < 0 then .error "create dots"
                      else
                        match dirlink s ip DOTDOT (s.icache dp).inum with
                        | .error e => .error e
                        | .ok (r, s) => if r < 0 then .error "create dots" else .ok s
                else .ok s
              match dots with
              | .error e => .error e
              | .ok s =>
                match dirlink s dp name (s.icache ip).inum with
                | .error e => .error e
                | .ok (r, s) =>
                  if r < 0 then .error "create: dirlink"
                  else (iput s dp).map fun s => (some ip, s)

def createCall (s : FsState) (cwd : Fin NINODE) (path : List UInt8) (type major minor : Nat) :
    Option (Except String (Int × FsState)) :=
  (beginOp s).map fun s =>
    match create s cwd path type major minor with
    | .error e => .error e
    | .ok (none, s) => (endOp s).map fun s => (-1, s)
    | .ok (some ip, s) =>
      match iput s ip with
      | .error e => .error e
      | .ok s => (endOp s).map fun s => (0, s)

def sys_mkdir (s : FsState) (cwd : Fin NINODE) (path : List UInt8) :
    Option (Except String (Int × FsState)) :=
  createCall s cwd path T_DIR 0 0

def sys_mknod (s : FsState) (cwd : Fin NINODE) (path : List UInt8) (major minor : Nat) :
    Option (Except String (Int × FsState)) :=
  createCall s cwd path T_DEV major minor

/-- `sys_link`: a new entry `new` for the inode at `old`, which must not be a directory. -/
def sys_link (s : FsState) (cwd : Fin NINODE) (old new : List UInt8) :
    Option (Except String (Int × FsState)) :=
  (beginOp s).map fun s =>
    match namei s cwd old with
    | .error e => .error e
    | .ok (none, s) => (endOp s).map fun s => (-1, s)
    | .ok (some ip, s) =>
      match ilock s ip with
      | .error e => .error e
      | .ok s =>
        if (s.icache ip).type = T_DIR then putFail s ip
        else
          let s := s.setInode ip { s.icache ip with nlink := (s.icache ip).nlink + 1 }
          match iupdate s ip with
          | .error e => .error e
          | .ok s =>
            -- `bad:` the link taken back
            let bad (s : FsState) : Except String (Int × FsState) :=
              match ilock s ip with
              | .error e => .error e
              | .ok s =>
                let s := s.setInode ip { s.icache ip with nlink := (s.icache ip).nlink - 1 }
                match iupdate s ip with
                | .error e => .error e
                | .ok s => putFail s ip
            match nameiparent s cwd new with
            | .error e => .error e
            | .ok (none, _, s) => bad s
            | .ok (some dp, name, s) =>
              match ilock s dp with
              | .error e => .error e
              | .ok s =>
                -- one device, so `dp->dev != ip->dev` never holds
                match dirlink s dp name (s.icache ip).inum with
                | .error e => .error e
                | .ok (r, s) =>
                  match iput s dp with
                  | .error e => .error e
                  | .ok s =>
                    if r < 0 then bad s
                    else
                      match iput s ip with
                      | .error e => .error e
                      | .ok s => (endOp s).map fun s => (0, s)

/-- `sys_chdir`: the result, the new `cwd` and the state. -/
def sys_chdir (s : FsState) (cwd : Fin NINODE) (path : List UInt8) :
    Option (Except String (Int × Fin NINODE × FsState)) :=
  (beginOp s).map fun s =>
    match namei s cwd path with
    | .error e => .error e
    | .ok (none, s) => (endOp s).map fun s => (-1, cwd, s)
    | .ok (some ip, s) =>
      match ilock s ip with
      | .error e => .error e
      | .ok s =>
        if (s.icache ip).type ≠ T_DIR then
          match iput s ip with
          | .error e => .error e
          | .ok s => (endOp s).map fun s => (-1, cwd, s)
        else
          match iput s cwd with
          | .error e => .error e
          | .ok s => (endOp s).map fun s => (0, ip, s)

/-! ### Runs from an image `mkfs` writes

The first process's `cwd` is `namei("/")`, taken by `userinit` in the state the kernel boots in.
-/

/-- A lookup in the root of the thirty-file image reads past the root's first block, into the
block `mkfs` counted in the root's size and never allocated. `bmap` allocates it and records it
in the cached root only. Once `chdir` returns, the root's cache entry is in use, valid and
unlocked, and its `addrs[1]` is not the one of the root's inode on disk. -/
theorem chdir_caches_unwritten_block :
    ∃ img c s₁ s₂, mkfs files30 = some img ∧
      namei (FsState.boot img consoleDevsw) 0 [SLASH] = .ok (some c, s₁) ∧
      sys_chdir s₁ c [69] = some (.ok (-1, c, s₂)) ∧
      0 < (s₂.icache c).ref ∧ (s₂.icache c).valid = true ∧ (s₂.icache c).inum = ROOTINO ∧
      (s₂.icache c).addrs (direct ⟨1, by decide⟩) ≠
        (s₂.disk.dinode ROOTINO).addrs (direct ⟨1, by decide⟩) := by
  have h : (mkfs files30).any (fun img =>
      match namei (FsState.boot img consoleDevsw) 0 [SLASH] with
      | .ok (some c, s₁) =>
        match sys_chdir s₁ c [69] with
        | some (.ok (r, c', s₂)) =>
          decide (r = -1 ∧ c' = c ∧ 0 < (s₂.icache c).ref ∧ (s₂.icache c).valid = true ∧
            (s₂.icache c).inum = ROOTINO ∧
            (s₂.icache c).addrs (direct ⟨1, by decide⟩) ≠
              (s₂.disk.dinode ROOTINO).addrs (direct ⟨1, by decide⟩))
        | _ => false
      | _ => false) = true := by
    decide +kernel
  obtain ⟨img, himg, h⟩ := (Option.any_eq_true _ _).1 h
  split at h
  · rename_i c s₁ hn
    split at h
    · rename_i r c' s₂ hc
      obtain ⟨hr, hc', hgood⟩ := of_decide_eq_true h
      rw [hr, hc'] at hc
      exact ⟨img, c, s₁, s₂, himg, hn, hc, hgood⟩
    · cases h
  · cases h

/-- An empty directory that is a process's `cwd` can be unlinked, and the process can still
create entries in it. On the image of an empty file system: `mkdir("d")`, `chdir("d")`,
`unlink("/d")`, then `mknod("x", CONSOLE, 1)`. The device inode `x` has `nlink = 1`, but the
only entry naming it is in `d`, which no entry names any more: the root's entries name the root
alone, and no path from the root reaches `x`. -/
theorem unlink_cwd_orphans_new_inode :
    ∃ img c₀ c s₀ s₁ s₂ s₃ s₄, mkfs [] = some img ∧
      namei (FsState.boot img consoleDevsw) 0 [SLASH] = .ok (some c₀, s₀) ∧
      sys_mkdir s₀ c₀ [100] = some (.ok (0, s₁)) ∧
      sys_chdir s₁ c₀ [100] = some (.ok (0, c, s₂)) ∧
      sys_unlink s₂ c [SLASH, 100] = some (.ok (0, s₃)) ∧
      sys_mknod s₃ c [120] CONSOLE 1 = some (.ok (0, s₄)) ∧
      (s₄.disk.dinode 3).type = T_DEV ∧ (s₄.disk.dinode 3).nlink = 1 ∧ ¬ s₄.disk.Reaches 3 := by
  have h : (mkfs []).any (fun img =>
      match namei (FsState.boot img consoleDevsw) 0 [SLASH] with
      | .ok (some c₀, s₀) =>
        match sys_mkdir s₀ c₀ [100] with
        | some (.ok (0, s₁)) =>
          match sys_chdir s₁ c₀ [100] with
          | some (.ok (0, c, s₂)) =>
            match sys_unlink s₂ c [SLASH, 100] with
            | some (.ok (0, s₃)) =>
              match sys_mknod s₃ c [120] CONSOLE 1 with
              | some (.ok (0, s₄)) =>
                decide ((s₄.disk.dinode 3).type = T_DEV ∧ (s₄.disk.dinode 3).nlink = 1 ∧
                  s₄.disk.entryInums ROOTINO = [ROOTINO, ROOTINO])
              | _ => false
            | _ => false
          | _ => false
        | _ => false
      | _ => false) = true := by
    decide +kernel
  obtain ⟨img, himg, h⟩ := (Option.any_eq_true _ _).1 h
  split at h
  · rename_i c₀ s₀ h₀
    split at h
    · rename_i s₁ h₁
      split at h
      · rename_i c s₂ h₂
        split at h
        · rename_i s₃ h₃
          split at h
          · rename_i s₄ h₄
            obtain ⟨htype, hnlink, hroot⟩ := of_decide_eq_true h
            refine ⟨img, c₀, c, s₀, s₁, s₂, s₃, s₄, himg, h₀, h₁, h₂, h₃, h₄, htype, hnlink, ?_⟩
            intro hreach
            have hmem := Image.Reaches.mem_of_closed (S := [ROOTINO]) (List.mem_singleton_self _)
              (fun p hp _ c hc => by
                rw [List.mem_singleton] at hp
                rw [hp, hroot] at hc
                simpa using hc) hreach
            exact absurd hmem (by decide)
          all_goals cases h
        all_goals cases h
      all_goals cases h
    all_goals cases h
  all_goals cases h

end Xv6
