import Xv6.Syscall.Sysfile
import Xv6.Syscall.Fd

set_option autoImplicit false

/-!
# `sys_open` on the file system

`sys_open` finds or creates its inode inside a transaction, and then takes a file and a
descriptor for it. The descriptor half is `FdSys.sys_open`; here it follows the file-system half,
`create(path, T_FILE, 0, 0)` under `O_CREATE` and `namei` with `ilock` otherwise. When the file
table or the descriptor table is full, the descriptor half undoes itself (`FdSys.sys_open_fail_eq`)
and the call returns `-1` after `iunlockput` and `end_op`. Nothing undoes `create`: the new inode
and its entry stay.
-/
namespace Xv6

def O_RDONLY : Nat := 0x000
def O_CREATE : Nat := 0x200

namespace FdSys

variable {P I : Type} [DecidableEq P] [DecidableEq I]

theorem sys_open_fail_eq {s s' : FdSys P I} {p : Fin NPROC} {ip : I} {omode : Nat} {r : Int}
    (hfree : ∀ f, (s.fs.file f).ref = 0 → (s.fs.file f).type = .FD_NONE)
    (h : s.sys_open p ip omode = .ok (r, s')) (hr : r < 0) : s' = s := by
  unfold sys_open at h
  dsimp only at h
  rcases hfa : (s.fs.idup ip).filealloc with _ | ⟨f, fs⟩
  · rw [hfa] at h
    cases h
    simp only [FileState.iput_idup]
  · obtain ⟨h0, rfl⟩ := FileState.filealloc_eq_some hfa
    have htype : ((s.fs.idup ip).file f).type = .FD_NONE := hfree f h0
    rw [hfa] at h
    dsimp only at h
    split at h
    · have hclose : ((s.fs.idup ip).setFile f
          { (s.fs.idup ip).file f with ref := 1 }).fileclose f = .ok (s.fs.idup ip) := by
        rw [FileState.fileclose_eq (by simp)]
        simp only [FileState.setFile_file_self, lt_irrefl, if_false, htype,
          FileState.setFile_setFile]
        conv_rhs => rw [← FileState.setFile_same (s.fs.idup ip) f]
        generalize (s.fs.idup ip).file f = x at htype h0
        cases x
        simp_all
      rw [hclose] at h
      cases h
      simp only [FileState.iput_idup]
    · cases h
      omega

end FdSys

def openInode (s : FsState) (cwd : Fin NINODE) (path : List UInt8) (omode : Nat) :
    Except String (Option (Fin NINODE) × FsState) :=
  if omode &&& O_CREATE ≠ 0 then create s cwd path T_FILE 0 0
  else
    match namei s cwd path with
    | .error e => .error e
    | .ok (none, s) => .ok (none, s)
    | .ok (some ip, s) =>
      match ilock s ip with
      | .error e => .error e
      | .ok s =>
        if (s.icache ip).type = T_DIR ∧ omode ≠ O_RDONLY then (iput s ip).map fun s => (none, s)
        else .ok (some ip, s)

/-- `sys_open`: the result, the file system, and the files and descriptors of `fds`, where
process `p` is the caller; `none` while `begin_op` would sleep. The counts of `fds` are the
references of files to inodes, and the cache entries' own counts are those of `s`. -/
def sys_open {P : Type} [DecidableEq P] (s : FsState) (fds : FdSys P (Fin NINODE))
    (p : Fin NPROC) (cwd : Fin NINODE) (path : List UInt8) (omode : Nat) :
    Option (Except String (Int × FsState × FdSys P (Fin NINODE))) :=
  (beginOp s).map fun s =>
    match openInode s cwd path omode with
    | .error e => .error e
    | .ok (none, s) => (endOp s).map fun s => (-1, s, fds)
    | .ok (some ip, s) =>
      match fds.sys_open p ip omode with
      | .error e => .error e
      | .ok (r, fds) =>
        -- `iunlockput(ip); end_op(); return -1;` after the file or the descriptor failed
        if r < 0 then (putFail s ip).map fun x => (x.1, x.2, fds)
        else (endOp s).map fun s => (r, s, fds)

def fullOfile (root : Fin NINODE) : FdSys Unit (Fin NINODE) :=
  ⟨⟨fun f => if f = 0 then ⟨.FD_INODE root, NOFILE, true, false, 0⟩ else File.zero,
    fun _ => ⟨fun _ => 0, 0, 0, false, false⟩, fun _ => false, fun i => if i = root then 2 else 0⟩,
    fun p => if p = 0 then ⟨.live, fun _ => some 0, some root, none⟩
      else ⟨.unused, fun _ => none, none, none⟩⟩

/-- On the image of an empty file system, with the root as `cwd` and opened once more by the file
of `fullOfile`: `open("a", O_CREATE)` finds no free descriptor and returns `-1`, but `create` has
allocated inode `2` as a `T_FILE` with one link, and the root's entries now name it. -/
theorem open_create_full_ofile_keeps_inode :
    ∃ img c₀ s₀ s₁ s₂ fds, mkfs [] = some img ∧
      namei (FsState.boot img consoleDevsw) 0 [SLASH] = .ok (some c₀, s₀) ∧
      namei s₀ c₀ [SLASH] = .ok (some c₀, s₁) ∧
      (∀ fd, ((fullOfile c₀).proc 0).ofile fd ≠ none) ∧
      sys_open s₁ (fullOfile c₀) 0 c₀ [97] O_CREATE = some (.ok (-1, s₂, fds)) ∧
      (s₁.disk.dinode 2).type = 0 ∧ s₁.disk.entryInums ROOTINO = [ROOTINO, ROOTINO] ∧
      (s₂.disk.dinode 2).type = T_FILE ∧ (s₂.disk.dinode 2).nlink = 1 ∧
      s₂.disk.entryInums ROOTINO = [ROOTINO, ROOTINO, 2] := by
  have h : (mkfs []).any (fun img =>
      match namei (FsState.boot img consoleDevsw) 0 [SLASH] with
      | .ok (some c₀, s₀) =>
        match namei s₀ c₀ [SLASH] with
        | .ok (some c, s₁) =>
          match sys_open s₁ (fullOfile c₀) 0 c₀ [97] O_CREATE with
          | some (.ok (r, s₂, _)) =>
            decide (c = c₀ ∧ (∀ fd, ((fullOfile c₀).proc 0).ofile fd ≠ none) ∧ r = -1 ∧
              (s₁.disk.dinode 2).type = 0 ∧ s₁.disk.entryInums ROOTINO = [ROOTINO, ROOTINO] ∧
              (s₂.disk.dinode 2).type = T_FILE ∧ (s₂.disk.dinode 2).nlink = 1 ∧
              s₂.disk.entryInums ROOTINO = [ROOTINO, ROOTINO, 2])
          | _ => false
        | _ => false
      | _ => false) = true := by
    decide +kernel
  obtain ⟨img, himg, h⟩ := (Option.any_eq_true _ _).1 h
  split at h
  · rename_i c₀ s₀ h₀
    split at h
    · rename_i c s₁ h₁
      split at h
      · rename_i r s₂ fds h₂
        obtain ⟨rfl, hfull, rfl, hgood⟩ := of_decide_eq_true h
        exact ⟨img, c, s₀, s₁, s₂, fds, himg, h₀, h₁, hfull, h₂, hgood⟩
      · cases h
    · cases h
  · cases h

end Xv6
