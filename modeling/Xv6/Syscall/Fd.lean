import Xv6.File
import Xv6.Lib.Run

set_option autoImplicit false
set_option linter.unusedSectionVars false

/-!
# File descriptors: `sysfile.c`, `fork` and `exit`

Each process has `NOFILE` descriptors, `ofile`, each empty or naming a file of `ftable`, and a
current directory. `fdalloc` puts a file in the lowest empty descriptor and takes over the
caller's reference to it. `dup`, `close`, `open` and `pipe` are the system calls on descriptors;
`fork` duplicates each descriptor of the parent into the child; `exit` closes them in its loop
`for(fd = 0; fd < NOFILE; fd++)`, where each `fileclose` comes before the
`curproc->ofile[fd] = 0` that clears the slot.

A system call runs as one step, but for the `fileclose` that frees an inode file: it sleeps in
`begin_op` before its `iput`, and other processes run meanwhile, so `close` is two steps and the
process holds the inode's reference in between (`put`). `exit`'s loop runs as one step for each
descriptor, one for such an `iput`, and one for the clearing of each slot it closed; after the
loop, `iput(curproc->cwd)` and `curproc->cwd = 0` are two steps, since `end_op` may sleep
between them. `exec` changes no descriptor. A call is given what it fetched: a
descriptor that `argfd` rejects returns `-1` and changes nothing, as does a path that `namei`
does not find; `open` is given the inode that `namei` or `create` returned, `pipe` the page of
its `kalloc`, and `fork` whether `copyuvm` succeeded.
-/
namespace Xv6

open Function (update)

/-- Where a process slot is, as far as its descriptors go. -/
inductive FdPhase where
  | unused
  | live
  /-- In `close`'s `fileclose`, after the file is freed and before the `iput` of its inode. -/
  | putting
  /-- In `exit`'s loop, at descriptor `fd`. -/
  | exiting (fd : Nat)
  /-- In `exit`'s loop, after the `fileclose` of `ofile[fd]` and before the slot is cleared. -/
  | closing (fd : Fin NOFILE)
  /-- After `iput(curproc->cwd)` and before `curproc->cwd = 0`. -/
  | dropped
  | zombie
  deriving DecidableEq

structure FdProc (I : Type) where
  phase : FdPhase
  ofile : Fin NOFILE → Option (Fin NFILE)
  cwd : Option I
  /-- The inode of a file `fileclose` has freed, whose `iput` is still to come. -/
  put : Option I

structure FdSys (P I : Type) where
  fs : FileState P I
  proc : Fin NPROC → FdProc I

instance : NeZero NOFILE := ⟨by decide⟩

def O_WRONLY : Nat := 0x001
def O_RDWR : Nat := 0x002

namespace FdSys

variable {P I : Type} [DecidableEq P] [DecidableEq I]

def setProc (s : FdSys P I) (p : Fin NPROC) (x : FdProc I) : FdSys P I :=
  { s with proc := update s.proc p x }

def setOfile (s : FdSys P I) (p : Fin NPROC) (fd : Fin NOFILE) (v : Option (Fin NFILE)) :
    FdSys P I :=
  s.setProc p { s.proc p with ofile := update (s.proc p).ofile fd v }

def setPhase (s : FdSys P I) (p : Fin NPROC) (ph : FdPhase) : FdSys P I :=
  s.setProc p { s.proc p with phase := ph }

@[simp] theorem setProc_fs (s : FdSys P I) (p : Fin NPROC) (x : FdProc I) :
    (s.setProc p x).fs = s.fs := rfl
@[simp] theorem setOfile_fs (s : FdSys P I) (p : Fin NPROC) (fd : Fin NOFILE)
    (v : Option (Fin NFILE)) : (s.setOfile p fd v).fs = s.fs := rfl
@[simp] theorem setPhase_fs (s : FdSys P I) (p : Fin NPROC) (ph : FdPhase) :
    (s.setPhase p ph).fs = s.fs := rfl
theorem setProc_proc (s : FdSys P I) (p q : Fin NPROC) (x : FdProc I) :
    (s.setProc p x).proc q = if q = p then x else s.proc q := Function.update_apply _ _ _ _

/-- `fdalloc(f)`: the lowest empty descriptor, now holding `f`. -/
def fdalloc (s : FdSys P I) (p : Fin NPROC) (f : Fin NFILE) : Option (Fin NOFILE × FdSys P I) :=
  match Fin.find? fun fd => ((s.proc p).ofile fd).isNone with
  | none => none
  | some fd => some (fd, s.setOfile p fd (some f))

theorem fdalloc_eq_some {s s' : FdSys P I} {p : Fin NPROC} {f : Fin NFILE} {fd : Fin NOFILE}
    (h : s.fdalloc p f = some (fd, s')) :
    (s.proc p).ofile fd = none ∧ s' = s.setOfile p fd (some f) := by
  unfold fdalloc at h
  split at h
  · cases h
  · rename_i fd' hfd
    cases h
    exact ⟨Option.isNone_iff_eq_none.1 (Fin.find?_eq_some_iff.1 hfd).1, rfl⟩

def sys_dup (s : FdSys P I) (p : Fin NPROC) (fd : Fin NOFILE) : Except String (Int × FdSys P I) :=
  match (s.proc p).ofile fd with
  | none => .ok (-1, s)
  | some f =>
    match s.fdalloc p f with
    | none => .ok (-1, s)
    | some (fd', s) => (s.fs.filedup f).map fun fs => (fd'.val, { s with fs })

def sys_close (s : FdSys P I) (p : Fin NPROC) (fd : Fin NOFILE) :
    Except String (Int × FdSys P I) :=
  match (s.proc p).ofile fd with
  | none => .ok (-1, s)
  | some f =>
    let s := s.setOfile p fd none
    (s.fs.filecloseBegin f).map fun (fs, ip) =>
      match ip with
      | none => (0, { s with fs })
      | some i => (0, { s.setProc p { s.proc p with phase := .putting, put := some i } with fs })

/-- The rest of `fileclose` after `begin_op`: `iput(ff.ip)`; the process goes on in phase `ph`. -/
def filecloseEnd (s : FdSys P I) (p : Fin NPROC) (i : I) (ph : FdPhase) : FdSys P I :=
  { s.setProc p { s.proc p with phase := ph, put := none } with fs := s.fs.iput i }

/-- `sys_open` once `create` or `namei` has returned `ip`, with a reference to it taken. A failure
closes the file taken and puts the inode with `iunlockput`. -/
def sys_open (s : FdSys P I) (p : Fin NPROC) (ip : I) (omode : Nat) :
    Except String (Int × FdSys P I) :=
  let s := { s with fs := s.fs.idup ip }
  match s.fs.filealloc with
  | none => .ok (-1, { s with fs := s.fs.iput ip })
  | some (f, fs) =>
    match { s with fs }.fdalloc p f with
    | none => (fs.fileclose f).map fun fs => (-1, { s with fs := fs.iput ip })
    | some (fd, s) =>
      let fs := s.fs.setFile f { s.fs.file f with
        type := .FD_INODE ip, off := 0, readable := omode &&& O_WRONLY == 0,
        writable := omode &&& O_WRONLY != 0 || omode &&& O_RDWR != 0 }
      .ok (fd.val, { s with fs })

/-- `sys_pipe` with `page` the result of `pipealloc`'s `kalloc`: both ends in the two lowest
empty descriptors; if either `fdalloc` fails, the first descriptor is cleared again and both
files are closed. -/
def sys_pipe (s : FdSys P I) (p : Fin NPROC) (page : Option P) :
    Except String (Int × FdSys P I) :=
  match s.fs.pipealloc page with
  | .error e => .error e
  | .ok (none, fs) => .ok (-1, { s with fs })
  | .ok (some (rf, wf), fs) =>
    let s := { s with fs }
    match s.fdalloc p rf with
    | some (fd0, s₁) =>
      match s₁.fdalloc p wf with
      | some (_, s₂) => .ok (0, s₂)
      | none =>
        let s := s₁.setOfile p fd0 none
        match s.fs.fileclose rf with
        | .error e => .error e
        | .ok fs => (fs.fileclose wf).map fun fs => (-1, { s with fs })
    | none =>
      match s.fs.fileclose rf with
      | .error e => .error e
      | .ok fs => (fs.fileclose wf).map fun fs => (-1, { s with fs })

/-- The loop of `fork` over the parent's descriptors: `filedup` of each file. -/
def forkFiles (fs : FileState P I) (ofile : Fin NOFILE → Option (Fin NFILE)) :
    List (Fin NOFILE) → Except String (FileState P I)
  | [] => .ok fs
  | i :: is =>
    match ofile i with
    | none => forkFiles fs ofile is
    | some f =>
      match fs.filedup f with
      | .error e => .error e
      | .ok fs => forkFiles fs ofile is

/-- `fork` from process `p`: the first unused slot, or `none` for `-1` when there is none or
`copyuvm` fails. The child's descriptors are the parent's, each file with one more reference,
and its current directory is `idup` of the parent's. -/
def fork (s : FdSys P I) (p : Fin NPROC) (copied : Bool) :
    Except String (Option (Fin NPROC) × FdSys P I) :=
  match Fin.find? fun q => decide ((s.proc q).phase = .unused) with
  | none => .ok (none, s)
  | some np =>
    if copied = false then .ok (none, s)
    else
      match forkFiles s.fs (s.proc p).ofile (List.finRange NOFILE) with
      | .error e => .error e
      | .ok fs =>
        let fs := match (s.proc p).cwd with
          | some i => fs.idup i
          | none => fs
        let child : FdProc I :=
          { phase := .live, ofile := fun i => ((s.proc p).ofile i).or ((s.proc np).ofile i),
            cwd := (s.proc p).cwd, put := none }
        .ok (some np, { fs := fs, proc := update s.proc np child })

/-- One turn of `exit`'s loop at descriptor `fd`, up to its `fileclose`'s `begin_op`. -/
def exitClose (s : FdSys P I) (p : Fin NPROC) (fd : Fin NOFILE) : Except String (FdSys P I) :=
  match (s.proc p).ofile fd with
  | none => .ok (s.setPhase p (.exiting (fd.val + 1)))
  | some f => (s.fs.filecloseBegin f).map fun (fs, ip) =>
      { s.setProc p { s.proc p with phase := .closing fd, put := ip } with fs }

/-- `curproc->ofile[fd] = 0` after the `fileclose`, and the loop goes on. -/
def exitClear (s : FdSys P I) (p : Fin NPROC) (fd : Fin NOFILE) : FdSys P I :=
  (s.setOfile p fd none).setPhase p (.exiting (fd.val + 1))

/-- After the loop: `iput(curproc->cwd)` between `begin_op` and `end_op`. -/
def exitIput (s : FdSys P I) (p : Fin NPROC) : FdSys P I :=
  let fs := match (s.proc p).cwd with
    | some i => s.fs.iput i
    | none => s.fs
  { s.setPhase p .dropped with fs }

/-- `curproc->cwd = 0`; the process is then a zombie. -/
def exitDone (s : FdSys P I) (p : Fin NPROC) : FdSys P I :=
  s.setProc p { s.proc p with cwd := none, phase := .zombie }

end FdSys

open FdSys

variable {P I : Type} [DecidableEq P] [DecidableEq I]

/-- The calls of all processes, in any order. A page `kalloc` returns is not a pipe's. -/
inductive FdStep : FdSys P I → FdSys P I → Prop
  | dup {s s' : FdSys P I} (p : Fin NPROC) (fd : Fin NOFILE) (r : Int) :
      (s.proc p).phase = .live → s.sys_dup p fd = .ok (r, s') → FdStep s s'
  | close {s s' : FdSys P I} (p : Fin NPROC) (fd : Fin NOFILE) (r : Int) :
      (s.proc p).phase = .live → s.sys_close p fd = .ok (r, s') → FdStep s s'
  | closePut {s : FdSys P I} (p : Fin NPROC) (i : I) :
      (s.proc p).phase = .putting → (s.proc p).put = some i →
      FdStep s (s.filecloseEnd p i .live)
  | open {s s' : FdSys P I} (p : Fin NPROC) (ip : I) (omode : Nat) (r : Int) :
      (s.proc p).phase = .live → s.sys_open p ip omode = .ok (r, s') → FdStep s s'
  | pipe {s s' : FdSys P I} (p : Fin NPROC) (page : Option P) (r : Int) :
      (s.proc p).phase = .live → (∀ q, page = some q → s.fs.alloc q = false) →
      s.sys_pipe p page = .ok (r, s') → FdStep s s'
  | fork {s s' : FdSys P I} (p : Fin NPROC) (copied : Bool) (r : Option (Fin NPROC)) :
      (s.proc p).phase = .live → s.fork p copied = .ok (r, s') → FdStep s s'
  | exitBegin {s : FdSys P I} (p : Fin NPROC) :
      (s.proc p).phase = .live → FdStep s (s.setPhase p (.exiting 0))
  | exitClose {s s' : FdSys P I} (p : Fin NPROC) (fd : Fin NOFILE) :
      (s.proc p).phase = .exiting fd.val → s.exitClose p fd = .ok s' → FdStep s s'
  | exitPut {s : FdSys P I} (p : Fin NPROC) (fd : Fin NOFILE) (i : I) :
      (s.proc p).phase = .closing fd → (s.proc p).put = some i →
      FdStep s (s.filecloseEnd p i (.closing fd))
  | exitClear {s : FdSys P I} (p : Fin NPROC) (fd : Fin NOFILE) :
      (s.proc p).phase = .closing fd → (s.proc p).put = none → FdStep s (s.exitClear p fd)
  | exitIput {s : FdSys P I} (p : Fin NPROC) :
      (s.proc p).phase = .exiting NOFILE → FdStep s (s.exitIput p)
  | exitDone {s : FdSys P I} (p : Fin NPROC) :
      (s.proc p).phase = .dropped → FdStep s (s.exitDone p)
  | wait {s : FdSys P I} (p : Fin NPROC) :
      (s.proc p).phase = .zombie → FdStep s (s.setPhase p .unused)

def FdSys.cwds (s : FdSys P I) (i : I) : Nat := Count.holders fun p => (s.proc p).cwd = some i

/-- The references to inode `i` a process holds outside `ftable`: its directory until `exit` has
put it, and the inode of a file its `fileclose` has freed and not yet put. -/
def FdProc.irefs (x : FdProc I) (i : I) : Nat :=
  (if x.cwd = some i ∧ x.phase ≠ .dropped then 1 else 0) + if x.put = some i then 1 else 0

def FdSys.irefs (s : FdSys P I) (i : I) : Nat := ∑ p, (s.proc p).irefs i

/-- At boot: no file in use and no pipe; the processes that exist are live, with a current
directory and no descriptor, and the inodes' counts are those directories. -/
def FdInit (s : FdSys P I) : Prop :=
  (∀ f, s.fs.file f = File.zero) ∧ (∀ q, s.fs.alloc q = false) ∧
    (∀ p fd, (s.proc p).ofile fd = none) ∧ (∀ p, (s.proc p).put = none) ∧
    (∀ p, ((s.proc p).phase = .unused ∧ (s.proc p).cwd = none) ∨
      ((s.proc p).phase = .live ∧ (s.proc p).cwd ≠ none)) ∧
    ∀ i, s.fs.iref i = s.cwds i

def FdReachable : FdSys P I → Prop := Run.Reachable FdStep FdInit

end Xv6
