import Xv6.User.ShNul
import Xv6.Syscall.FdWf

set_option autoImplicit false

/-!
# `runcmd`: the descriptors each program is given

`runcmd` runs a command tree through the system calls on descriptors. A redirection closes its
descriptor and opens its file, which `open` puts in the lowest empty descriptor. A pipe makes its
two ends with `pipe`, and each of its two children moves one end to descriptor `1` or `0` with
`close` and `dup`, then closes both originals. A list and a background command fork. The calls
act on the calling process's descriptors only, as `Fds` does (`sysfile.c`'s `fdalloc`, `dup`,
`close` and `pipe` on one process: `fdalloc_ofile` and the lemmas after it), and a child starts
with a copy of its parent's. Whether `fork`, `pipe` and `open` succeed is what the rest of the
system answers (`Env`): one answer for each call at each node of the tree.

`plumb` is what a command means to its user: each program gets its parent's descriptors with
`0` and `1` replaced by the innermost input and output around it. When `0` and `1` are open,
`runcmd` makes a sublist of `plumb`'s `exec` calls (`runcmd_sublist_plumb`), and all of them
when every call succeeds and two descriptors are empty (`runcmd_eq_plumb`). A pipe's ends reach
no program except on `1` in its left side and on `0` in its right side (`plumb_fds`,
`runcmd_pipe_ends`).
-/
namespace Xv6.Sh

open Function (update update_self update_of_ne update_apply update_idem)

abbrev Fds (F : Type) := Fin NOFILE → Option F

namespace Fds

variable {F : Type}

/-- `fdalloc(f)`: the lowest empty descriptor, now holding `f`. -/
def fdalloc (t : Fds F) (f : F) : Option (Fin NOFILE × Fds F) :=
  match Fin.find? fun fd => (t fd).isNone with
  | none => none
  | some fd => some (fd, update t fd (some f))

def close (t : Fds F) (fd : Nat) : Fds F :=
  if h : fd < NOFILE then update t ⟨fd, h⟩ none else t

def dup (t : Fds F) (fd : Nat) : Option (Fin NOFILE × Fds F) :=
  if h : fd < NOFILE then
    match t ⟨fd, h⟩ with
    | none => none
    | some f => t.fdalloc f
  else none

def pipe (t : Fds F) (r w : F) : Option ((Fin NOFILE × Fin NOFILE) × Fds F) :=
  match t.fdalloc r with
  | none => none
  | some (fd0, t0) =>
    match t0.fdalloc w with
    | none => none
    | some (fd1, t1) => some ((fd0, fd1), t1)

def after (t : Fds F) : Option (Fin NOFILE × Fds F) → Fds F
  | none => t
  | some (_, t) => t

def set (t : Fds F) (fd : Nat) (o : F) : Fds F :=
  if h : fd < NOFILE then update t ⟨fd, h⟩ (some o) else t

end Fds

/-- A file a descriptor of the shell refers to: one its process had when it started, the file a
redirection opened, or an end of the pipe of a pipe command, each named by the node of the tree
whose command made it. -/
inductive Obj where
  | given (n : Nat)
  | file (node : List Nat)
  | pipeRead (node : List Nat)
  | pipeWrite (node : List Nat)
  deriving DecidableEq

/-- The answers of the calls that can fail, by node and by the call's place in the node's code:
`fork1`, the first or the second of a pipe; `pipe`'s `pipealloc`; and `open`'s `namei`, `create`
and `filealloc`. -/
structure Env where
  fork : List Nat → Nat → Bool
  pipe : List Nat → Bool
  opens : List Nat → Bool

def Env.ok : Env := ⟨fun _ _ => true, fun _ => true, fun _ => true⟩

@[simp] theorem Env.ok_fork (π : List Nat) (k : Nat) : Env.ok.fork π k = true := rfl
@[simp] theorem Env.ok_pipe (π : List Nat) : Env.ok.pipe π = true := rfl
@[simp] theorem Env.ok_opens (π : List Nat) : Env.ok.opens π = true := rfl

/-- An `exec` call: the node of the exec command, its words, and the caller's descriptors. -/
structure Exec where
  node : List Nat
  argv : List (List Char × List Char)
  fds : Fds Obj

/-- `runcmd(cmd)` at node `π` with descriptors `t`: the `exec` calls made by it and by the
processes it forks, in the order of the tree. A `panic` or an `exit` makes no more calls. -/
def runcmd (env : Env) : Cmd → List Nat → Fds Obj → List Exec
  | .exec argv, π, t => if argv = [] then [] else [⟨π, argv, t⟩]
  | .redir cmd _ _ _ fd, π, t =>
    let t := t.close fd
    if env.opens π then
      match t.fdalloc (.file π) with
      | none => []
      | some (_, t) => runcmd env cmd (π ++ [0]) t
    else []
  | .list left right, π, t =>
    if env.fork π 0 then runcmd env left (π ++ [0]) t ++ runcmd env right (π ++ [1]) t else []
  | .pipe left right, π, t =>
    if env.pipe π then
      match t.pipe (.pipeRead π) (.pipeWrite π) with
      | none => []
      | some ((p0, p1), t) =>
        if env.fork π 0 then
          -- the left child: `close(1); dup(p[1]); close(p[0]); close(p[1]);`
          let tl := t.close 1
          let tl := ((tl.after (tl.dup p1)).close p0).close p1
          runcmd env left (π ++ [0]) tl ++
            if env.fork π 1 then
              -- the right child: `close(0); dup(p[0]); close(p[0]); close(p[1]);`
              let tr := t.close 0
              let tr := ((tr.after (tr.dup p0)).close p0).close p1
              runcmd env right (π ++ [1]) tr
            else []
        else []
    else []
  | .back cmd, π, t => if env.fork π 0 then runcmd env cmd (π ++ [0]) t else []

/-! The equations of `runcmd`, one for each kind of command, so that no proof unfolds it. -/

section RuncmdEqs

variable (env : Env) (π : List Nat) (t : Fds Obj)

theorem runcmd_redir (cmd : Cmd) (file efile : List Char) (mode fd : Nat) :
    runcmd env (.redir cmd file efile mode fd) π t =
      if env.opens π then
        match (t.close fd).fdalloc (.file π) with
        | none => []
        | some (_, t) => runcmd env cmd (π ++ [0]) t
      else [] := by
  delta runcmd
  rfl

theorem runcmd_list (left right : Cmd) :
    runcmd env (.list left right) π t =
      if env.fork π 0 then runcmd env left (π ++ [0]) t ++ runcmd env right (π ++ [1]) t
      else [] := rfl

theorem runcmd_pipe (left right : Cmd) :
    runcmd env (.pipe left right) π t =
      if env.pipe π then
        match t.pipe (.pipeRead π) (.pipeWrite π) with
        | none => []
        | some ((p0, p1), t) =>
          if env.fork π 0 then
            runcmd env left (π ++ [0])
                ((((t.close 1).after ((t.close 1).dup p1)).close p0).close p1) ++
              if env.fork π 1 then
                runcmd env right (π ++ [1])
                  ((((t.close 0).after ((t.close 0).dup p0)).close p0).close p1)
              else []
          else []
      else [] := by
  delta runcmd
  rfl

theorem runcmd_back (cmd : Cmd) :
    runcmd env (.back cmd) π t = if env.fork π 0 then runcmd env cmd (π ++ [0]) t else [] := rfl

end RuncmdEqs

/-- The programs a command runs, as its user reads it: a redirection replaces its descriptor, a
pipe's left side writes to it on `1` and its right side reads from it on `0`, and lists and
background commands run their parts with the descriptors they are given. -/
def plumb : Cmd → List Nat → Fds Obj → List Exec
  | .exec argv, π, t => if argv = [] then [] else [⟨π, argv, t⟩]
  | .redir cmd _ _ _ fd, π, t => plumb cmd (π ++ [0]) (t.set fd (.file π))
  | .list left right, π, t => plumb left (π ++ [0]) t ++ plumb right (π ++ [1]) t
  | .pipe left right, π, t =>
    plumb left (π ++ [0]) (t.set 1 (.pipeWrite π)) ++
      plumb right (π ++ [1]) (t.set 0 (.pipeRead π))
  | .back cmd, π, t => plumb cmd (π ++ [0]) t

/-- The redirections of a tree are of descriptor `0` or `1`, as the parser makes them. -/
def Cmd.StdRedirs : Cmd → Prop
  | .exec _ => True
  | .redir cmd _ _ _ fd => fd < 2 ∧ cmd.StdRedirs
  | .pipe left right => left.StdRedirs ∧ right.StdRedirs
  | .list left right => left.StdRedirs ∧ right.StdRedirs
  | .back cmd => cmd.StdRedirs

def Cmd.decStdRedirs : (c : Cmd) → Decidable c.StdRedirs
  | .exec _ => isTrue trivial
  | .redir cmd _ _ _ fd => @instDecidableAnd _ _ (Nat.decLt fd 2) cmd.decStdRedirs
  | .pipe left right => @instDecidableAnd _ _ left.decStdRedirs right.decStdRedirs
  | .list left right => @instDecidableAnd _ _ left.decStdRedirs right.decStdRedirs
  | .back cmd => cmd.decStdRedirs

instance (c : Cmd) : Decidable c.StdRedirs := c.decStdRedirs

/-! ### The calls on one process's descriptors -/

namespace Fds

variable {F : Type} {t t' : Fds F} {f : F}

def StdOpen (t : Fds F) : Prop := t 0 ≠ none ∧ t 1 ≠ none

instance [DecidableEq F] (t : Fds F) : Decidable t.StdOpen :=
  inferInstanceAs (Decidable (t 0 ≠ none ∧ t 1 ≠ none))

theorem close_of_lt {fd : Nat} (h : fd < NOFILE) : t.close fd = update t ⟨fd, h⟩ none := dif_pos h

theorem set_of_lt {fd : Nat} (h : fd < NOFILE) (o : F) : t.set fd o = update t ⟨fd, h⟩ (some o) :=
  dif_pos h

theorem fdalloc_eq_some {fd : Fin NOFILE} (h : t.fdalloc f = some (fd, t')) :
    t fd = none ∧ (∀ j < fd, t j ≠ none) ∧ t' = update t fd (some f) := by
  unfold fdalloc at h
  split at h
  · cases h
  · rename_i fd' hfd
    cases h
    obtain ⟨hfree, hbelow⟩ := Fin.find?_eq_some_iff.mp hfd
    refine ⟨Option.isNone_iff_eq_none.mp hfree, fun j hj he => ?_, rfl⟩
    have hj' := hbelow j hj
    rw [he] at hj'
    cases hj'

theorem fdalloc_of_lowest {fd : Fin NOFILE} (h : t fd = none) (hlow : ∀ j < fd, t j ≠ none) :
    t.fdalloc f = some (fd, update t fd (some f)) := by
  have hfind : (Fin.find? fun fd => (t fd).isNone) = some fd := by
    refine Fin.find?_eq_some_iff.mpr ⟨by rw [h]; rfl, fun j hj => ?_⟩
    cases hj' : t j with
    | none => exact absurd hj' (hlow j hj)
    | some _ => rfl
  unfold fdalloc
  rw [hfind]

theorem fdalloc_isSome {fd : Fin NOFILE} (h : t fd = none) :
    ∃ fd' t', t.fdalloc f = some (fd', t') := by
  have hsome : (Fin.find? fun fd => (t fd).isNone).isSome :=
    Fin.isSome_find?_iff.mpr ⟨fd, by rw [h]; rfl⟩
  obtain ⟨fd', hfd'⟩ := Option.isSome_iff_exists.mp hsome
  unfold fdalloc
  rw [hfd']
  exact ⟨_, _, rfl⟩

theorem close_fdalloc {fd : Nat} (hfd : fd < 2) (h0 : t 0 ≠ none) (o : F) :
    ∃ fd', (t.close fd).fdalloc o = some (fd', t.set fd o) := by
  have hlt : fd < NOFILE := by unfold NOFILE; omega
  refine ⟨⟨fd, hlt⟩, ?_⟩
  rw [close_of_lt hlt, fdalloc_of_lowest (update_self _ _ _), update_idem, set_of_lt hlt]
  intro j hj
  have hj' : j.val < fd := hj
  have hj0 : j = 0 := Fin.ext (show j.val = 0 by omega)
  have hne : (0 : Fin NOFILE) ≠ ⟨fd, hlt⟩ := by
    rw [hj0] at hj
    exact Fin.ne_of_lt hj
  rw [hj0, update_of_ne hne]
  exact h0

theorem StdOpen.set (h : t.StdOpen) (fd : Nat) (o : F) : (t.set fd o).StdOpen := by
  unfold Fds.set
  split
  · refine ⟨?_, ?_⟩ <;> rw [update_apply] <;> split
    · exact Option.some_ne_none o
    · exact h.1
    · exact Option.some_ne_none o
    · exact h.2
  · exact h

theorem StdOpen.two_le {fd : Fin NOFILE} (h : t.StdOpen) (hfd : t fd = none) : 2 ≤ fd.val := by
  by_contra hlt
  rcases (show fd.val = 0 ∨ fd.val = 1 by omega) with hv | hv
  · have h0 : fd = 0 := Fin.ext hv
    rw [h0] at hfd
    exact h.1 hfd
  · have h1 : fd = 1 := Fin.ext hv
    rw [h1] at hfd
    exact h.2 hfd

theorem set_of_two_le {fd : Nat} (hfd : fd < 2) (o : F) {j : Fin NOFILE} (hj : 2 ≤ j.val) :
    t.set fd o j = t j := by
  unfold Fds.set
  split
  · exact update_of_ne (fun he => by rw [he] at hj; simp only at hj; omega) _ _
  · rfl

theorem pipe_eq_some {r w : F} {p0 p1 : Fin NOFILE} (h : t.pipe r w = some ((p0, p1), t')) :
    t p0 = none ∧ t p1 = none ∧ p0 ≠ p1 ∧ t' = update (update t p0 (some r)) p1 (some w) := by
  unfold pipe at h
  cases h0 : t.fdalloc r with
  | none =>
    rw [h0] at h
    cases h
  | some a =>
  rcases a with ⟨fd0, t0⟩
  rw [h0] at h
  dsimp only at h
  cases h1 : t0.fdalloc w with
  | none =>
    rw [h1] at h
    cases h
  | some b =>
  rcases b with ⟨fd1, t1⟩
  rw [h1] at h
  cases h
  obtain ⟨hfree0, -, rfl⟩ := fdalloc_eq_some h0
  obtain ⟨hfree1, -, rfl⟩ := fdalloc_eq_some h1
  have hne : p0 ≠ p1 := fun he => by
    rw [← he, update_self] at hfree1
    cases hfree1
  rw [update_of_ne hne.symm] at hfree1
  exact ⟨hfree0, hfree1, hne, rfl⟩

theorem pipe_isSome {a b : Fin NOFILE} (hab : a ≠ b) (ha : t a = none) (hb : t b = none)
    (r w : F) : ∃ p0 p1 t', t.pipe r w = some ((p0, p1), t') := by
  obtain ⟨fd0, t0, h0⟩ := fdalloc_isSome (f := r) ha
  obtain ⟨-, -, rfl⟩ := fdalloc_eq_some h0
  have hfree : ∃ c, update t fd0 (some r) c = none := by
    by_cases hfa : a = fd0
    · exact ⟨b, by rw [update_of_ne (fun he => hab (hfa.trans he.symm)), hb]⟩
    · exact ⟨a, by rw [update_of_ne hfa, ha]⟩
  obtain ⟨c, hc⟩ := hfree
  obtain ⟨fd1, t1, h1⟩ := fdalloc_isSome (f := w) hc
  refine ⟨fd0, fd1, t1, ?_⟩
  unfold pipe
  rw [h0]
  dsimp only
  rw [h1]

theorem close_fin (fd : Fin NOFILE) : t.close fd.val = update t fd none := close_of_lt fd.isLt

theorem close_one : t.close 1 = update t 1 none := close_of_lt (by decide)

theorem close_zero : t.close 0 = update t 0 none := close_of_lt (by decide)

theorem set_one (o : F) : t.set 1 o = update t 1 (some o) := set_of_lt (by decide) o

theorem set_zero (o : F) : t.set 0 o = update t 0 (some o) := set_of_lt (by decide) o

theorem dup_of_lowest {src d : Fin NOFILE} (hsrc : t src = some f) (hfd : t d = none)
    (hlow : ∀ j < d, t j ≠ none) : t.dup src.val = some (d, update t d (some f)) := by
  unfold dup
  rw [dif_pos src.isLt]
  have hsrc' : t ⟨src.val, src.isLt⟩ = some f := hsrc
  rw [hsrc']
  exact fdalloc_of_lowest hfd hlow

theorem pipe_left {r w : F} {p0 p1 : Fin NOFILE} (h : t.StdOpen)
    (hp : t.pipe r w = some ((p0, p1), t')) :
    (((t'.close 1).after ((t'.close 1).dup p1)).close p0).close p1 = t.set 1 w := by
  obtain ⟨hf0, hf1, hne, rfl⟩ := pipe_eq_some hp
  have h0p0 : p0 ≠ 0 := fun he => h.1 (he ▸ hf0)
  have h1p0 : p0 ≠ 1 := fun he => h.2 (he ▸ hf0)
  have h0p1 : p1 ≠ 0 := fun he => h.1 (he ▸ hf1)
  have h1p1 : p1 ≠ 1 := fun he => h.2 (he ▸ hf1)
  have hdup := dup_of_lowest (f := w) (d := 1)
    (t := update (update (update t p0 (some r)) p1 (some w)) 1 none)
    (by rw [update_of_ne h1p1, update_self]) (update_self _ _ _) (fun j hj => by
      have hj0 : j = 0 := Fin.ext (show j.val = 0 by have : j.val < 1 := hj; omega)
      rw [hj0, update_of_ne (by decide), update_of_ne h0p1.symm, update_of_ne h0p0.symm]
      exact h.1)
  rw [close_one, hdup, after, update_idem, close_fin, close_fin, set_one]
  funext j
  by_cases hj1 : j = p1
  · subst hj1
    simp [h1p1, hf1]
  by_cases hj0 : j = p0
  · subst hj0
    simp [h1p0, hne, hf0]
  · simp [update_apply, hj0, hj1]

theorem pipe_right {r w : F} {p0 p1 : Fin NOFILE} (h : t.StdOpen)
    (hp : t.pipe r w = some ((p0, p1), t')) :
    (((t'.close 0).after ((t'.close 0).dup p0)).close p0).close p1 = t.set 0 r := by
  obtain ⟨hf0, hf1, hne, rfl⟩ := pipe_eq_some hp
  have h0p0 : p0 ≠ 0 := fun he => h.1 (he ▸ hf0)
  have h0p1 : p1 ≠ 0 := fun he => h.1 (he ▸ hf1)
  have hdup := dup_of_lowest (f := r) (d := 0)
    (t := update (update (update t p0 (some r)) p1 (some w)) 0 none)
    (by rw [update_of_ne h0p0, update_of_ne hne, update_self]) (update_self _ _ _)
    (fun j hj => absurd hj (Fin.not_lt_zero j))
  rw [close_zero, hdup, after, update_idem, close_fin, close_fin, set_zero]
  funext j
  by_cases hj1 : j = p1
  · subst hj1
    simp [h0p1, hf1]
  by_cases hj0 : j = p0
  · subst hj0
    simp [update_apply, h0p0, hf0]
  · simp [update_apply, hj0, hj1]

def TwoFree (t : Fds F) : Prop := ∃ a b : Fin NOFILE, a ≠ b ∧ t a = none ∧ t b = none

theorem TwoFree.set (h : t.StdOpen) (ht : t.TwoFree) {fd : Nat} (hfd : fd < 2) (o : F) :
    (t.set fd o).TwoFree := by
  obtain ⟨a, b, hab, ha, hb⟩ := ht
  exact ⟨a, b, hab, by rw [set_of_two_le hfd o (h.two_le ha), ha],
    by rw [set_of_two_le hfd o (h.two_le hb), hb]⟩

theorem of_set_eq_some {fd : Nat} {o x : F} {j : Fin NOFILE} (h : t.set fd o j = some x)
    (hx : x ≠ o) : t j = some x := by
  unfold Fds.set at h
  split at h
  · rw [update_apply] at h
    split at h
    · cases h
      exact absurd rfl hx
    · exact h
  · exact h

end Fds

/-! ### The kernel's calls on the caller's descriptors

`sysfile.c`'s calls change the calling process's `ofile` as `Fds` does, and no other process's;
`fork` gives its child, in a slot that held no descriptor, the parent's `ofile`. -/

section Kernel

variable {P I : Type} [DecidableEq P] [DecidableEq I] {s s' : FdSys P I} {p : Fin NPROC}

theorem setOfile_ofile_self (fd : Fin NOFILE) (v : Option (Fin NFILE)) :
    ((s.setOfile p fd v).proc p).ofile = update (s.proc p).ofile fd v := by
  rw [FdSys.proc_setOfile, if_pos rfl]

theorem fdalloc_ofile (f : Fin NFILE) :
    (s.fdalloc p f).map (fun r => (r.1, (r.2.proc p).ofile)) = Fds.fdalloc (s.proc p).ofile f := by
  unfold FdSys.fdalloc Fds.fdalloc
  cases Fin.find? fun fd => ((s.proc p).ofile fd).isNone with
  | none => rfl
  | some fd => simp only [Option.map_some, setOfile_ofile_self]

set_option maxRecDepth 20000 in

/-- `fork`: the child's slot was unused, so it held no descriptor, and the child starts with
its parent's `ofile`; no other slot changes. -/
theorem fork_ofile (hw : s.FdWf) {copied : Bool} {np : Fin NPROC}
    (h : s.fork p copied = .ok (some np, s')) :
    (s.proc np).phase = .unused ∧ (s'.proc np).ofile = (s.proc p).ofile ∧
      ∀ q, q ≠ np → s'.proc q = s.proc q := by
  unfold FdSys.fork at h
  split at h
  · cases h
  rename_i np' hfind
  have hnp : (s.proc np').phase = .unused := of_decide_eq_true (Fin.find?_eq_some_iff.1 hfind).1
  split_ifs at h with hc
  · cases h
  cases hf : FdSys.forkFiles s.fs (s.proc p).ofile (List.finRange NOFILE) with
  | error e =>
    rw [hf] at h
    cases h
  | ok fs =>
    rw [hf] at h
    dsimp only at h
    cases h
    obtain ⟨hnofile, -⟩ := (hw.shaped np).idle (Or.inl hnp)
    refine ⟨hnp, ?_, fun q hq => update_of_ne hq _ _⟩
    simp only [update_self]
    funext i
    rw [hnofile i, Option.or_none]

set_option maxRecDepth 20000 in
theorem fork_ofile_twoShells : ∃ (np : Fin NPROC) (s' : FdSys Nat Nat),
    twoShells.fork 0 true = .ok (some np, s') ∧
    ((twoShells.proc np).phase = .unused ∧ (s'.proc np).ofile = (twoShells.proc 0).ofile ∧
      ∀ q, q ≠ np → s'.proc q = twoShells.proc q) := by
  obtain ⟨np, s', h⟩ : ∃ (np : Fin NPROC) (s' : FdSys Nat Nat),
      twoShells.fork 0 true = .ok (some np, s') := ⟨_, _, rfl⟩
  exact ⟨np, s', h, fork_ofile (reachable_fdWf twoShells_reachable) h⟩

end Kernel

open Fds

/-! ### `runcmd` refines `plumb` -/

/-- With `0` and `1` open, whatever the calls answer, `runcmd` makes some of `plumb`'s `exec`
calls, in order. -/
theorem runcmd_sublist_plumb (env : Env) : ∀ (c : Cmd) (π : List Nat) (t : Fds Obj),
    c.StdRedirs → t.StdOpen → (runcmd env c π t).Sublist (plumb c π t) := by
  intro c
  induction c with
  | exec argv =>
    intro π t _ _
    exact List.Sublist.refl _
  | redir cmd file efile mode fd ih =>
    intro π t hc ht
    simp only [Cmd.StdRedirs] at hc
    rw [runcmd_redir, plumb]
    by_cases ho : env.opens π = true
    · obtain ⟨fd', hal⟩ := close_fdalloc hc.1 ht.1 (Obj.file π)
      rw [if_pos ho, hal]
      exact ih _ _ hc.2 (ht.set fd _)
    · rw [if_neg ho]
      exact List.nil_sublist _
  | list left right ihl ihr =>
    intro π t hc ht
    simp only [Cmd.StdRedirs] at hc
    rw [runcmd_list, plumb]
    by_cases hf : env.fork π 0 = true
    · rw [if_pos hf]
      exact (ihl _ _ hc.1 ht).append (ihr _ _ hc.2 ht)
    · rw [if_neg hf]
      exact List.nil_sublist _
  | pipe left right ihl ihr =>
    intro π t hc ht
    simp only [Cmd.StdRedirs] at hc
    rw [runcmd_pipe, plumb]
    by_cases hp : env.pipe π = true
    · rw [if_pos hp]
      cases hpipe : t.pipe (.pipeRead π) (.pipeWrite π) with
      | none => exact List.nil_sublist _
      | some a =>
        rcases a with ⟨⟨p0, p1⟩, t'⟩
        dsimp only
        by_cases hf0 : env.fork π 0 = true
        · rw [if_pos hf0, pipe_left ht hpipe, pipe_right ht hpipe]
          refine (ihl _ _ hc.1 (ht.set 1 _)).append ?_
          by_cases hf1 : env.fork π 1 = true
          · rw [if_pos hf1]
            exact ihr _ _ hc.2 (ht.set 0 _)
          · rw [if_neg hf1]
            exact List.nil_sublist _
        · rw [if_neg hf0]
          exact List.nil_sublist _
    · rw [if_neg hp]
      exact List.nil_sublist _
  | back cmd ih =>
    intro π t hc ht
    simp only [Cmd.StdRedirs] at hc
    rw [runcmd_back, plumb]
    by_cases hf : env.fork π 0 = true
    · rw [if_pos hf]
      exact ih _ _ hc ht
    · rw [if_neg hf]
      exact List.nil_sublist _

theorem runcmd_sublist_plumb_pipe :
    (Cmd.pipe (.exec [("ls".toList, [])]) (.exec [("wc".toList, [])])).StdRedirs ∧ Fds.StdOpen (fun fd : Fin NOFILE => if fd.val < 3 then some (Obj.given fd.val) else none) ∧
    (runcmd ⟨fun _ i => i == 0, fun _ => true, fun _ => true⟩ (Cmd.pipe (.exec [("ls".toList, [])]) (.exec [("wc".toList, [])])) [] (fun fd : Fin NOFILE => if fd.val < 3 then some (Obj.given fd.val) else none)).Sublist
      (plumb (Cmd.pipe (.exec [("ls".toList, [])]) (.exec [("wc".toList, [])])) [] (fun fd : Fin NOFILE => if fd.val < 3 then some (Obj.given fd.val) else none)) :=
  ⟨by decide, by decide, runcmd_sublist_plumb _ _ _ _ (by decide) (by decide)⟩

/-- With `0` and `1` open and two descriptors empty, when every call succeeds `runcmd` makes
exactly `plumb`'s `exec` calls. -/
theorem runcmd_eq_plumb : ∀ (c : Cmd) (π : List Nat) (t : Fds Obj),
    c.StdRedirs → t.StdOpen → t.TwoFree → runcmd Env.ok c π t = plumb c π t := by
  intro c
  induction c with
  | exec argv =>
    intro π t _ _ _
    rfl
  | redir cmd file efile mode fd ih =>
    intro π t hc ht hfree
    simp only [Cmd.StdRedirs] at hc
    obtain ⟨fd', hal⟩ := close_fdalloc hc.1 ht.1 (Obj.file π)
    rw [runcmd_redir, plumb, Env.ok_opens, if_pos rfl, hal]
    exact ih _ _ hc.2 (ht.set fd _) (hfree.set ht hc.1 _)
  | list left right ihl ihr =>
    intro π t hc ht hfree
    simp only [Cmd.StdRedirs] at hc
    rw [runcmd_list, plumb, Env.ok_fork, if_pos rfl, ihl _ _ hc.1 ht hfree, ihr _ _ hc.2 ht hfree]
  | pipe left right ihl ihr =>
    intro π t hc ht hfree
    simp only [Cmd.StdRedirs] at hc
    obtain ⟨a, b, hab, ha, hb⟩ := hfree
    obtain ⟨p0, p1, t', hpipe⟩ := pipe_isSome hab ha hb (Obj.pipeRead π) (Obj.pipeWrite π)
    rw [runcmd_pipe, plumb, Env.ok_pipe, if_pos rfl, hpipe]
    dsimp only
    rw [Env.ok_fork, if_pos rfl, Env.ok_fork, if_pos rfl, pipe_left ht hpipe, pipe_right ht hpipe,
      ihl _ _ hc.1 (ht.set 1 _) (TwoFree.set ht ⟨a, b, hab, ha, hb⟩ (by decide) _),
      ihr _ _ hc.2 (ht.set 0 _) (TwoFree.set ht ⟨a, b, hab, ha, hb⟩ (by decide) _)]
  | back cmd ih =>
    intro π t hc ht hfree
    simp only [Cmd.StdRedirs] at hc
    rw [runcmd_back, plumb, Env.ok_fork, if_pos rfl, ih _ _ hc ht hfree]

theorem runcmd_eq_plumb_pipe :
    (Cmd.pipe (.exec [("ls".toList, [])]) (.exec [("wc".toList, [])])).StdRedirs ∧ Fds.StdOpen (fun fd : Fin NOFILE => if fd.val < 3 then some (Obj.given fd.val) else none) ∧ Fds.TwoFree (fun fd : Fin NOFILE => if fd.val < 3 then some (Obj.given fd.val) else none) ∧
    runcmd Env.ok (Cmd.pipe (.exec [("ls".toList, [])]) (.exec [("wc".toList, [])])) [] (fun fd : Fin NOFILE => if fd.val < 3 then some (Obj.given fd.val) else none) = plumb (Cmd.pipe (.exec [("ls".toList, [])]) (.exec [("wc".toList, [])])) [] (fun fd : Fin NOFILE => if fd.val < 3 then some (Obj.given fd.val) else none) :=
  ⟨by decide, by decide, ⟨3, 4, by decide, rfl, rfl⟩,
    runcmd_eq_plumb _ _ _ (by decide) (by decide) ⟨3, 4, by decide, rfl, rfl⟩⟩

/-! ### Where the pipe ends go -/

theorem plumb_fds : ∀ (c : Cmd) (π : List Nat) (t : Fds Obj), c.StdRedirs → ∀ e ∈ plumb c π t,
    π <+: e.node ∧ (∀ fd : Fin NOFILE, 2 ≤ fd.val → e.fds fd = t fd) ∧
    (∀ fd ν, e.fds fd = some (.pipeWrite ν) →
      t fd = some (.pipeWrite ν) ∨ (fd = 1 ∧ ν ++ [0] <+: e.node)) ∧
    (∀ fd ν, e.fds fd = some (.pipeRead ν) →
      t fd = some (.pipeRead ν) ∨ (fd = 0 ∧ ν ++ [1] <+: e.node)) := by
  intro c
  induction c with
  | exec argv =>
    intro π t _ e he
    rw [plumb] at he
    split at he
    · cases he
    · rw [List.mem_singleton] at he
      subst he
      exact ⟨List.prefix_refl _, fun _ _ => rfl, fun _ _ h => .inl h, fun _ _ h => .inl h⟩
  | redir cmd file efile mode fd ih =>
    intro π t hc e he
    simp only [Cmd.StdRedirs] at hc
    rw [plumb] at he
    obtain ⟨hpre, hhigh, hw, hr⟩ := ih _ _ hc.2 e he
    refine ⟨(List.prefix_append π [0]).trans hpre,
      fun j hj => (hhigh j hj).trans (set_of_two_le hc.1 _ hj), fun j ν h => ?_, fun j ν h => ?_⟩
    · rcases hw j ν h with h' | h'
      · exact .inl (of_set_eq_some h' (by simp))
      · exact .inr h'
    · rcases hr j ν h with h' | h'
      · exact .inl (of_set_eq_some h' (by simp))
      · exact .inr h'
  | list left right ihl ihr =>
    intro π t hc e he
    simp only [Cmd.StdRedirs] at hc
    rw [plumb, List.mem_append] at he
    rcases he with he | he
    · obtain ⟨hpre, rest⟩ := ihl _ _ hc.1 e he
      exact ⟨(List.prefix_append π [0]).trans hpre, rest⟩
    · obtain ⟨hpre, rest⟩ := ihr _ _ hc.2 e he
      exact ⟨(List.prefix_append π [1]).trans hpre, rest⟩
  | pipe left right ihl ihr =>
    intro π t hc e he
    simp only [Cmd.StdRedirs] at hc
    rw [plumb, List.mem_append] at he
    rcases he with he | he
    · obtain ⟨hpre, hhigh, hw, hr⟩ := ihl _ _ hc.1 e he
      refine ⟨(List.prefix_append π [0]).trans hpre,
        fun j hj => (hhigh j hj).trans (set_of_two_le (by decide) _ hj), fun j ν h => ?_,
        fun j ν h => ?_⟩
      · rcases hw j ν h with h' | h'
        · by_cases hj : j = 1
          · subst hj
            rw [set_one, update_self, Option.some.injEq, Obj.pipeWrite.injEq] at h'
            subst h'
            exact .inr ⟨rfl, hpre⟩
          · rw [set_one, update_of_ne hj] at h'
            exact .inl h'
        · exact .inr h'
      · rcases hr j ν h with h' | h'
        · exact .inl (of_set_eq_some h' (by simp))
        · exact .inr h'
    · obtain ⟨hpre, hhigh, hw, hr⟩ := ihr _ _ hc.2 e he
      refine ⟨(List.prefix_append π [1]).trans hpre,
        fun j hj => (hhigh j hj).trans (set_of_two_le (by decide) _ hj), fun j ν h => ?_,
        fun j ν h => ?_⟩
      · rcases hw j ν h with h' | h'
        · exact .inl (of_set_eq_some h' (by simp))
        · exact .inr h'
      · rcases hr j ν h with h' | h'
        · by_cases hj : j = 0
          · subst hj
            rw [set_zero, update_self, Option.some.injEq, Obj.pipeRead.injEq] at h'
            subst h'
            exact .inr ⟨rfl, hpre⟩
          · rw [set_zero, update_of_ne hj] at h'
            exact .inl h'
        · exact .inr h'
  | back cmd ih =>
    intro π t hc e he
    simp only [Cmd.StdRedirs] at hc
    rw [plumb] at he
    obtain ⟨hpre, rest⟩ := ih _ _ hc e he
    exact ⟨(List.prefix_append π [0]).trans hpre, rest⟩

/-- Started with `0` and `1` open and no pipe end, whatever the calls answer, every program
`runcmd` runs keeps the shell's descriptors from `2` on, and holds a pipe's write end only as its
standard output in the pipe's left side and a read end only as its standard input in the right
side: no descriptor of a pipe leaks into any other program, so a reader's `read` ends when the
writers of its left side exit. -/
theorem runcmd_pipe_ends (env : Env) {c : Cmd} (hc : c.StdRedirs) {t : Fds Obj} (ht : t.StdOpen)
    (hnone : ∀ fd ν, t fd ≠ some (.pipeRead ν) ∧ t fd ≠ some (.pipeWrite ν)) :
    ∀ e ∈ runcmd env c [] t, (∀ fd : Fin NOFILE, 2 ≤ fd.val → e.fds fd = t fd) ∧
      (∀ fd ν, e.fds fd = some (.pipeWrite ν) → fd = 1 ∧ ν ++ [0] <+: e.node) ∧
      (∀ fd ν, e.fds fd = some (.pipeRead ν) → fd = 0 ∧ ν ++ [1] <+: e.node) := by
  intro e he
  obtain ⟨-, hhigh, hw, hr⟩ := plumb_fds c [] t hc e ((runcmd_sublist_plumb env c [] t hc ht).subset he)
  refine ⟨hhigh, fun fd ν h => ?_, fun fd ν h => ?_⟩
  · rcases hw fd ν h with h' | h'
    · exact absurd h' (hnone fd ν).2
    · exact h'
  · rcases hr fd ν h with h' | h'
    · exact absurd h' (hnone fd ν).1
    · exact h'

theorem runcmd_pipe_ends_pipe :
    (Cmd.pipe (.exec [("ls".toList, [])]) (.exec [("wc".toList, [])])).StdRedirs ∧ Fds.StdOpen (fun fd : Fin NOFILE => if fd.val < 3 then some (Obj.given fd.val) else none) ∧
    (∀ fd ν, (fun fd : Fin NOFILE => if fd.val < 3 then some (Obj.given fd.val) else none) fd ≠ some (.pipeRead ν) ∧ (fun fd : Fin NOFILE => if fd.val < 3 then some (Obj.given fd.val) else none) fd ≠ some (.pipeWrite ν)) ∧
    ∀ e ∈ runcmd ⟨fun _ i => i == 0, fun _ => true, fun _ => true⟩ (Cmd.pipe (.exec [("ls".toList, [])]) (.exec [("wc".toList, [])])) [] (fun fd : Fin NOFILE => if fd.val < 3 then some (Obj.given fd.val) else none), (∀ fd : Fin NOFILE, 2 ≤ fd.val → e.fds fd = (fun fd : Fin NOFILE => if fd.val < 3 then some (Obj.given fd.val) else none) fd) ∧
      (∀ fd ν, e.fds fd = some (.pipeWrite ν) → fd = 1 ∧ ν ++ [0] <+: e.node) ∧
      (∀ fd ν, e.fds fd = some (.pipeRead ν) → fd = 0 ∧ ν ++ [1] <+: e.node) := by
  have hnone : ∀ fd ν, (fun fd : Fin NOFILE => if fd.val < 3 then some (Obj.given fd.val) else none) fd ≠ some (.pipeRead ν) ∧ (fun fd : Fin NOFILE => if fd.val < 3 then some (Obj.given fd.val) else none) fd ≠ some (.pipeWrite ν) := by
    intro fd ν
    by_cases h : fd.val < 3 <;> simp [h]
  exact ⟨by decide, by decide, hnone, runcmd_pipe_ends _ (by decide) (by decide) hnone⟩

/-! ### What the parser builds -/

theorem stdRedirs_redirect {c : Cmd} (hc : c.StdRedirs) (tok : Char) (w : Tok) :
    (redirect c tok w).StdRedirs := by
  unfold redirect
  split_ifs <;> simp [Cmd.StdRedirs, hc]

theorem stdRedirs_wrap : ∀ (rs : List (Char × Tok)) {c : Cmd}, c.StdRedirs → (wrap c rs).StdRedirs
  | [], _, hc => hc
  | r :: rs, _, hc => stdRedirs_wrap rs (stdRedirs_redirect hc r.1 r.2)

theorem stdRedirs_back_iterate (k : Nat) {c : Cmd} (hc : c.StdRedirs) :
    (Cmd.back^[k] c).StdRedirs := by
  induction k with
  | zero => exact hc
  | succ k ih =>
    rw [Function.iterate_succ_apply']
    simp only [Cmd.StdRedirs]
    exact ih

theorem Gram.stdRedirs {X : Sym} {ts : List Tok} {c : Cmd} (h : Gram X ts c) : c.StdRedirs := by
  induction h with
  | line _ _ ih => exact stdRedirs_back_iterate _ ih
  | list _ _ _ _ ih ih' =>
    simp only [Cmd.StdRedirs]
    exact ⟨stdRedirs_back_iterate _ ih, ih'⟩
  | pipe _ ih => exact ih
  | pipeline _ _ _ ih ih' =>
    simp only [Cmd.StdRedirs]
    exact ⟨ih, ih'⟩
  | block _ _ _ _ ih => exact stdRedirs_wrap _ ih
  | exec _ _ _ => exact stdRedirs_wrap _ trivial

theorem parsecmd_stdRedirs {s : List Char} (hn : NulFree s) {c : Cmd} {buf : List Char}
    (h : parsecmd s = .ok (c, buf)) : c.StdRedirs :=
  (parsecmd_sound hn h).1.stdRedirs

/-! ### `main`: three descriptors open -/

section Main

variable {F : Type}

/-- The first loop of `main`: `open("console", O_RDWR)` until the descriptor it returns is `3`
or more, which it closes. The `i`th `open` succeeds when `ok i`, in the lowest empty descriptor,
with the console `o`; at most `fuel` passes. -/
def consoleLoop (ok : Nat → Bool) (o : F) : Nat → Nat → Fds F → Fds F
  | 0, _, t => t
  | fuel + 1, i, t =>
    if ok i then
      match t.fdalloc o with
      | none => t
      | some (fd, t') => if 3 ≤ fd.val then t'.close fd.val else consoleLoop ok o fuel (i + 1) t'
    else t

/-- How many of `0`, `1` and `2` are empty: each pass of the loop below `3` fills one. -/
def lowEmpty (t : Fds F) : Nat := ([0, 1, 2] : List (Fin NOFILE)).countP fun j => (t j).isNone

theorem lowEmpty_update {t : Fds F} {fd : Fin NOFILE} (hfd : t fd = none) (h3 : fd.val < 3)
    (o : F) : lowEmpty (update t fd (some o)) + 1 = lowEmpty t := by
  have hcases : fd = 0 ∨ fd = 1 ∨ fd = 2 := by
    rcases (by omega : fd.val = 0 ∨ fd.val = 1 ∨ fd.val = 2) with h | h | h
    · exact .inl (Fin.ext h)
    · exact .inr (.inl (Fin.ext h))
    · exact .inr (.inr (Fin.ext h))
  have h01 : (0 : Fin NOFILE) ≠ 1 := by decide
  have h02 : (0 : Fin NOFILE) ≠ 2 := by decide
  have h12 : (1 : Fin NOFILE) ≠ 2 := by decide
  rcases hcases with rfl | rfl | rfl <;>
    simp [lowEmpty, List.countP_cons, update_apply, hfd, h01, h02, h12, h01.symm, h02.symm,
      h12.symm] <;> split_ifs <;> omega

/-- The loop only fills empty descriptors among `0`, `1` and `2`, with the console: whatever
the `open`s answer, every descriptor that was open, and every one from `3` on, is as it was. -/
-- by delta: the equation lemmas Lean would generate for the nested match time out
theorem consoleLoop_succ (ok : Nat → Bool) (o : F) (fuel i : Nat) (t : Fds F) :
    consoleLoop ok o (fuel + 1) i t = if ok i then
      match t.fdalloc o with
      | none => t
      | some (fd, t') => if 3 ≤ fd.val then t'.close fd.val else consoleLoop ok o fuel (i + 1) t'
    else t := by
  delta consoleLoop
  rfl

theorem consoleLoop_frame (ok : Nat → Bool) (o : F) : ∀ (fuel i : Nat) (t : Fds F) (j : Fin NOFILE),
    consoleLoop ok o fuel i t j = t j ∨ (t j = none ∧ j.val < 3 ∧ consoleLoop ok o fuel i t j = some o)
  | 0, _, _, _ => .inl rfl
  | fuel + 1, i, t, j => by
    rw [consoleLoop_succ]
    split_ifs with hok
    · rcases hal : t.fdalloc o with _ | ⟨fd, t'⟩
      · exact .inl rfl
      obtain ⟨hfd, hlow, rfl⟩ := fdalloc_eq_some hal
      dsimp only
      split_ifs with h3
      · left
        rw [close_fin, update_idem, Function.update_eq_self_iff.2 hfd.symm]
      · rcases consoleLoop_frame ok o fuel (i + 1) (update t fd (some o)) j with h | ⟨hj, hj3, h⟩
        · by_cases hj : j = fd
          · subst hj
            rw [update_self] at h
            exact .inr ⟨hfd, by omega, h⟩
          · rw [update_of_ne hj] at h
            exact .inl h
        · by_cases hjfd : j = fd
          · subst hjfd
            rw [update_self] at hj
            cases hj
          · rw [update_of_ne hjfd] at hj
            exact .inr ⟨hj, hj3, h⟩
    · exact .inl rfl

theorem consoleLoop_open (o : F) : ∀ (fuel i : Nat) (t : Fds F), lowEmpty t < fuel →
    ∀ j : Fin NOFILE, j.val < 3 → consoleLoop (fun _ => true) o fuel i t j ≠ none
  | 0, _, _, h, _, _ => absurd h (Nat.not_lt_zero _)
  | fuel + 1, i, t, hfuel, j, hj => by
    rw [consoleLoop_succ, if_pos rfl]
    rcases hal : t.fdalloc o with _ | ⟨fd, t'⟩
    · intro hnone
      obtain ⟨_, _, h'⟩ := fdalloc_isSome (f := o) hnone
      rw [hal] at h'
      cases h'
    obtain ⟨hfd, hlow, rfl⟩ := fdalloc_eq_some hal
    dsimp only
    split_ifs with h3
    · rw [close_fin, update_idem, Function.update_eq_self_iff.2 hfd.symm]
      exact hlow j (by rw [Fin.lt_def]; omega)
    · have hle := lowEmpty_update hfd (by omega) o
      exact consoleLoop_open o fuel (i + 1) _ (by omega) j hj

theorem lowEmpty_lt_four (t : Fds F) : lowEmpty t < 4 :=
  Nat.lt_succ_of_le (List.countP_le_length)

theorem consoleLoop_four (o : F) (t : Fds F) :
    (∀ j : Fin NOFILE, j.val < 3 → consoleLoop (fun _ => true) o 4 0 t j ≠ none) ∧
      ∀ j : Fin NOFILE, 3 ≤ j.val → consoleLoop (fun _ => true) o 4 0 t j = t j := by
  refine ⟨consoleLoop_open o 4 0 t (lowEmpty_lt_four t), fun j hj => ?_⟩
  rcases consoleLoop_frame (fun _ => true) o 4 0 t j with h | ⟨-, hj3, -⟩
  · exact h
  · omega

end Main

/-! ### A line from `main` -/

/-- A line `main` reads and `parsecmd` accepts, run by `runcmd` in a child of the shell once the
console loop has opened `0`, `1` and `2` (every `open` of that loop succeeding), whatever `fork`,
`pipe` and `open` answer then: every program has `2` open and the shell's descriptors from `3`
on, and holds a pipe's write end only as `1` in the pipe's left side and its read end only as `0`
in its right side. When every call succeeds and two descriptors from `3` on are empty, the
programs are exactly `plumb`'s. -/
theorem sh_line_fds (env : Env) {s buf : List Char} (hn : NulFree s) {c : Cmd}
    (hp : parsecmd s = .ok (c, buf)) {o : Obj} (ho : ∀ ν, o ≠ .pipeRead ν ∧ o ≠ .pipeWrite ν)
    {t : Fds Obj} (ht : ∀ fd ν, t fd ≠ some (.pipeRead ν) ∧ t fd ≠ some (.pipeWrite ν)) :
    (∀ e ∈ runcmd env c [] (consoleLoop (fun _ => true) o 4 0 t),
      e.fds 2 ≠ none ∧ (∀ fd : Fin NOFILE, 3 ≤ fd.val → e.fds fd = t fd) ∧
      (∀ fd ν, e.fds fd = some (.pipeWrite ν) → fd = 1 ∧ ν ++ [0] <+: e.node) ∧
      (∀ fd ν, e.fds fd = some (.pipeRead ν) → fd = 0 ∧ ν ++ [1] <+: e.node)) ∧
    ((∃ a b : Fin NOFILE, a ≠ b ∧ 3 ≤ a.val ∧ 3 ≤ b.val ∧ t a = none ∧ t b = none) →
      runcmd Env.ok c [] (consoleLoop (fun _ => true) o 4 0 t) =
        plumb c [] (consoleLoop (fun _ => true) o 4 0 t)) := by
  have hc := parsecmd_stdRedirs hn hp
  obtain ⟨hlow, hhigh⟩ := consoleLoop_four o t
  have hstd : (consoleLoop (fun _ => true) o 4 0 t).StdOpen :=
    ⟨hlow 0 (by decide), hlow 1 (by decide)⟩
  have hnone : ∀ fd ν, consoleLoop (fun _ => true) o 4 0 t fd ≠ some (.pipeRead ν) ∧
      consoleLoop (fun _ => true) o 4 0 t fd ≠ some (.pipeWrite ν) := fun fd ν => by
    rcases consoleLoop_frame (fun _ => true) o 4 0 t fd with h | ⟨-, -, h⟩
    · rw [h]
      exact ht fd ν
    · rw [h, Ne, Option.some.injEq, Ne, Option.some.injEq]
      exact ho ν
  refine ⟨fun e he => ?_, fun ⟨a, b, hab, ha3, hb3, ha, hb⟩ => ?_⟩
  · obtain ⟨hfds, hw, hr⟩ := runcmd_pipe_ends env hc hstd hnone e he
    refine ⟨?_, fun fd hfd => (hfds fd (by omega)).trans (hhigh fd hfd), hw, hr⟩
    rw [hfds 2 (by decide)]
    exact hlow 2 (by decide)
  · exact runcmd_eq_plumb c [] _ hc hstd
      ⟨a, b, hab, (hhigh a ha3).trans ha, (hhigh b hb3).trans hb⟩

theorem sh_line_fds_pipe :
    NulFree "ls|wc".toList ∧
    parsecmd "ls|wc".toList =
      .ok (.pipe (.exec [("ls|wc".toList, "|wc".toList)]) (.exec [("wc".toList, [])]),
        "ls\x00wc".toList) ∧
    (∀ ν, Obj.given 0 ≠ .pipeRead ν ∧ Obj.given 0 ≠ .pipeWrite ν) ∧
    ((∀ e ∈ runcmd Env.ok (.pipe (.exec [("ls|wc".toList, "|wc".toList)]) (.exec [("wc".toList, [])]))
        [] (consoleLoop (fun _ => true) (Obj.given 0) 4 0 fun _ => none),
      e.fds 2 ≠ none ∧ (∀ fd : Fin NOFILE, 3 ≤ fd.val → e.fds fd = none) ∧
      (∀ fd ν, e.fds fd = some (.pipeWrite ν) → fd = 1 ∧ ν ++ [0] <+: e.node) ∧
      (∀ fd ν, e.fds fd = some (.pipeRead ν) → fd = 0 ∧ ν ++ [1] <+: e.node)) ∧
    ((∃ a b : Fin NOFILE, a ≠ b ∧ 3 ≤ a.val ∧ 3 ≤ b.val ∧ (none : Option Obj) = none ∧
        (none : Option Obj) = none) →
      runcmd Env.ok (.pipe (.exec [("ls|wc".toList, "|wc".toList)]) (.exec [("wc".toList, [])]))
          [] (consoleLoop (fun _ => true) (Obj.given 0) 4 0 fun _ => none) =
        plumb (.pipe (.exec [("ls|wc".toList, "|wc".toList)]) (.exec [("wc".toList, [])]))
          [] (consoleLoop (fun _ => true) (Obj.given 0) 4 0 fun _ => none))) :=
  ⟨by decide, by decide, fun _ => ⟨by simp, by simp⟩,
    sh_line_fds Env.ok (by decide)
      (by decide : parsecmd "ls|wc".toList =
        .ok (.pipe (.exec [("ls|wc".toList, "|wc".toList)]) (.exec [("wc".toList, [])]),
          "ls\x00wc".toList))
      (fun _ => ⟨by simp, by simp⟩) (fun _ _ => ⟨by simp, by simp⟩)⟩

end Xv6.Sh
