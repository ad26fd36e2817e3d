import Xv6.Proc.Defs

set_option autoImplicit false

/-!
# The process table: `proc.c`

`ptable` as a value and the functions of `proc.c` that change it. The kernel stack that
`allocproc` gets from `kalloc`, and the page directories that `userinit` and `fork` get from
`setupkvm` and `copyuvm`, are arguments, `none` where the call returns `0`: what those calls do
to memory is modelled in `Xv6.Vm`, and the table records only their results.

Each function is one step, as it runs under `ptable.lock`. `fork` drops the lock between
`allocproc` and setting the child `RUNNABLE`, but meanwhile only `kill` can touch the `EMBRYO`
slot, and setting `killed` has the same effect before as after.
-/
namespace Xv6

@[ext]
structure Ptable where
  proc : Fin NPROC → Proc
  nextpid : Int32
  initproc : Option (Fin NPROC)

namespace Ptable

def set (t : Ptable) (i : Fin NPROC) (p : Proc) : Ptable :=
  { t with proc := Function.update t.proc i p }

variable (t : Ptable) (i : Fin NPROC) (p : Proc)

theorem set_proc (j : Fin NPROC) : (t.set i p).proc j = if j = i then p else t.proc j :=
  Function.update_apply t.proc i p j

@[simp] theorem set_proc_self : (t.set i p).proc i = p := by
  simp only [set, Function.update_self]

@[simp] theorem set_proc_ne {j : Fin NPROC} (h : j ≠ i) : (t.set i p).proc j = t.proc j := by
  simp only [set, Function.update_of_ne h]

@[simp] theorem set_nextpid : (t.set i p).nextpid = t.nextpid := rfl

@[simp] theorem set_initproc : (t.set i p).initproc = t.initproc := rfl

@[simp] theorem set_set (q : Proc) : (t.set i p).set i q = t.set i q := by
  unfold set
  rw [Function.update_idem]

def firstSlot (P : Proc → Prop) [DecidablePred P] : Option (Fin NPROC) :=
  Fin.find? fun i => decide (P (t.proc i))

variable {t i} {P : Proc → Prop} [DecidablePred P]

theorem firstSlot_eq_some :
    t.firstSlot P = some i ↔ P (t.proc i) ∧ ∀ j < i, ¬ P (t.proc j) := by
  unfold firstSlot
  simp only [Fin.find?_eq_some_iff, decide_eq_true_eq, decide_eq_false_iff_not]

theorem firstSlot_eq_none : t.firstSlot P = none ↔ ∀ i, ¬ P (t.proc i) := by
  unfold firstSlot
  simp only [Fin.find?_eq_none_iff, decide_eq_false_iff_not]

end Ptable

def Proc.zero : Proc where
  vbase := 0
  vlimit := 0
  pgdir := 0
  kstack := 0
  state := .UNUSED
  pid := 0
  parent := none
  tf := ⟨0, 0, 0⟩
  chan := .addr 0
  killed := false

def bootTable : Ptable where
  proc _ := Proc.zero
  nextpid := 1
  initproc := none

/-- `allocproc()`, given what its `kalloc()` of the kernel stack returns. The slot keeps its new
`pid` and its `killed` flag when the kernel stack cannot be had. -/
def allocproc (t : Ptable) (kstack : Option Nat) : Option (Fin NPROC) × Ptable :=
  match t.firstSlot (·.state = .UNUSED) with
  | none => (none, t)
  | some i =>
    let p := { t.proc i with state := .EMBRYO, pid := t.nextpid }
    let t := { t.set i p with nextpid := t.nextpid + 1 }
    match kstack with
    | none => (none, t.set i { p with kstack := 0, state := .UNUSED })
    | some k => (some i, t.set i { p with kstack := k })

/-- `userinit()`, given the results of `kalloc()` in `allocproc` and of `setupkvm()`. With no
slot, the C code writes through a null `p`, which faults. -/
def userinit (t : Ptable) (kstack pgdir : Option Nat) : Except String Ptable :=
  match allocproc t kstack with
  | (none, _) => .error "trap"
  | (some i, t) =>
    match pgdir with
    | none => .error "userinit: out of memory?"
    | some pg =>
      let p := { t.proc i with
        pgdir := pg, vbase := PGSIZE, vlimit := 2 * PGSIZE, tf := ⟨0, 2 * PGSIZE, PGSIZE⟩,
        state := .RUNNABLE }
      .ok { t.set i p with initproc := some i }

/-- `fork()` by the process in slot `c`, given the results of `kalloc()` in `allocproc` and of
`copyuvm()`. -/
def fork (t : Ptable) (c : Fin NPROC) (kstack pgdir : Option Nat) : Int32 × Ptable :=
  match allocproc t kstack with
  | (none, t) => (-1, t)
  | (some i, t) =>
    match pgdir with
    | none => (-1, t.set i { t.proc i with pgdir := 0, kstack := 0, state := .UNUSED })
    | some pg =>
      let cur := t.proc c
      let np := { t.proc i with
        pgdir := pg, vbase := cur.vbase, vlimit := cur.vlimit, parent := some c,
        tf := { cur.tf with eax := 0 }, state := .RUNNABLE }
      (np.pid, t.set i np)

/-- `wakeup1(chan)`: its loop changes each slot on its own. -/
def wakeup1 (t : Ptable) (chan : Chan) : Ptable :=
  { t with proc := fun i =>
      let p := t.proc i
      if p.state = .SLEEPING ∧ p.chan = chan then { p with state := .RUNNABLE } else p }

def wakeup (t : Ptable) (chan : Chan) : Ptable := wakeup1 t chan

def reparent (t : Ptable) (c : Fin NPROC) : Ptable :=
  let t' := { t with proc := fun i =>
    let p := t.proc i
    if p.parent = some c then { p with parent := t.initproc } else p }
  if ∃ i, (t.proc i).parent = some c ∧ (t.proc i).state = .ZOMBIE then
    wakeup1 t' (Chan.ofProc t.initproc)
  else t'

/-- `exit()` by the process in slot `c`, up to its switch to the scheduler. Closing the files and
putting `cwd` are left out. -/
def exit (t : Ptable) (c : Fin NPROC) : Except String Ptable :=
  if t.initproc = some c then .error "init exiting"
  else
    let t := reparent (wakeup1 t (Chan.ofProc (t.proc c).parent)) c
    .ok (t.set c { t.proc c with state := .ZOMBIE })

/-- `sleep(chan, lk)` by the process in slot `c`, up to its switch to the scheduler. The C code
clears `chan` once the process runs again; nothing reads the channel of a process that is not
`SLEEPING`, so that is left out. -/
def sleep (t : Ptable) (c : Fin NPROC) (chan : Chan) : Ptable :=
  t.set c { t.proc c with chan, state := .SLEEPING }

/-- One pass of the loop of `wait()` by the process in slot `c`: the `pid` of the first `ZOMBIE`
child, reaped; `-1`; or `none` when the caller goes to sleep on itself, to run the loop again
once woken. -/
def wait (t : Ptable) (c : Fin NPROC) : Option Int32 × Ptable :=
  match t.firstSlot fun p => p.parent = some c ∧ p.state = .ZOMBIE with
  | some i =>
    let p := t.proc i
    (some p.pid, t.set i { p with
      kstack := 0, pid := 0, parent := none, killed := false, state := .UNUSED })
  | none =>
    if (∀ i, (t.proc i).parent ≠ some c) ∨ (t.proc c).killed = true then (some (-1), t)
    else (none, sleep t c (.proc c))

/-- `kill(pid)`: it marks the first slot with that `pid`, whatever its state. -/
def kill (t : Ptable) (pid : Int32) : Int32 × Ptable :=
  match t.firstSlot (·.pid = pid) with
  | none => (-1, t)
  | some i =>
    let p := t.proc i
    (0, t.set i { p with
      killed := true, state := if p.state = .SLEEPING then .RUNNABLE else p.state })

/-- The body of the loop of `scheduler()` at slot `i`. -/
def scheduler (t : Ptable) (i : Fin NPROC) : Ptable :=
  if (t.proc i).state = .RUNNABLE then t.set i { t.proc i with state := .RUNNING } else t

def yield (t : Ptable) (c : Fin NPROC) : Ptable :=
  t.set c { t.proc c with state := .RUNNABLE }

/-! ### What each function does to the table -/

section Spec

variable {t : Ptable} {i c : Fin NPROC}

theorem allocproc_full (h : t.firstSlot (·.state = .UNUSED) = none) (kstack : Option Nat) :
    allocproc t kstack = (none, t) := by
  unfold allocproc
  rw [h]

theorem allocproc_fail (h : t.firstSlot (·.state = .UNUSED) = some i) :
    allocproc t none =
      (none, { t.set i { t.proc i with state := .UNUSED, pid := t.nextpid, kstack := 0 } with
        nextpid := t.nextpid + 1 }) := by
  unfold allocproc
  rw [h]
  simp only [Ptable.set, Function.update_idem]

theorem allocproc_ok (h : t.firstSlot (·.state = .UNUSED) = some i) (k : Nat) :
    allocproc t (some k) =
      (some i, { t.set i { t.proc i with state := .EMBRYO, pid := t.nextpid, kstack := k } with
        nextpid := t.nextpid + 1 }) := by
  unfold allocproc
  rw [h]
  simp only [Ptable.set, Function.update_idem]

theorem fork_ok (h : t.firstSlot (·.state = .UNUSED) = some i)
    (hc : (t.proc c).state = .RUNNING) (k pg : Nat) :
    fork t c (some k) (some pg) =
      (t.nextpid, { t.set i { t.proc i with
        state := .RUNNABLE, pid := t.nextpid, kstack := k, pgdir := pg,
        vbase := (t.proc c).vbase, vlimit := (t.proc c).vlimit, parent := some c,
        tf := { (t.proc c).tf with eax := 0 } } with nextpid := t.nextpid + 1 }) := by
  have hci : c ≠ i := by
    rintro rfl
    rw [(Ptable.firstSlot_eq_some.1 h).1] at hc
    cases hc
  unfold fork
  rw [allocproc_ok h]
  simp only [Ptable.set_proc_self, Ptable.set_proc_ne _ _ _ hci]
  simp only [Ptable.set, Function.update_idem]

theorem fork_full (h : t.firstSlot (·.state = .UNUSED) = none) (kstack pgdir : Option Nat) :
    fork t c kstack pgdir = (-1, t) := by
  unfold fork
  rw [allocproc_full h]

theorem fork_fail (h : t.firstSlot (·.state = .UNUSED) = some i) {kstack pgdir : Option Nat}
    (hfail : kstack = none ∨ pgdir = none) :
    ∃ p, fork t c kstack pgdir = (-1, { t.set i p with nextpid := t.nextpid + 1 }) ∧
      p.state = .UNUSED ∧ p.pid = t.nextpid ∧ p.parent = (t.proc i).parent ∧
      p.killed = (t.proc i).killed := by
  rcases hfail with rfl | rfl
  · refine ⟨{ t.proc i with state := .UNUSED, pid := t.nextpid, kstack := 0 }, ?_, rfl, rfl,
      rfl, rfl⟩
    unfold fork
    rw [allocproc_fail h]
  · cases kstack with
    | none =>
      refine ⟨{ t.proc i with state := .UNUSED, pid := t.nextpid, kstack := 0 }, ?_, rfl, rfl,
        rfl, rfl⟩
      unfold fork
      rw [allocproc_fail h]
    | some k =>
      refine ⟨{ t.proc i with state := .UNUSED, pid := t.nextpid, kstack := 0, pgdir := 0 }, ?_,
        rfl, rfl, rfl, rfl⟩
      unfold fork
      rw [allocproc_ok h]
      simp only [Ptable.set_proc_self]
      simp only [Ptable.set, Function.update_idem]

theorem kill_found {pid : Int32} (h : t.firstSlot (·.pid = pid) = some i) :
    kill t pid = (0, t.set i { t.proc i with
      killed := true,
      state := if (t.proc i).state = .SLEEPING then .RUNNABLE else (t.proc i).state }) := by
  unfold kill
  rw [h]

theorem kill_none {pid : Int32} (h : t.firstSlot (·.pid = pid) = none) : kill t pid = (-1, t) := by
  unfold kill
  rw [h]

theorem wait_reap (h : t.firstSlot (fun p => p.parent = some c ∧ p.state = .ZOMBIE) = some i) :
    wait t c = (some (t.proc i).pid, t.set i { t.proc i with
      kstack := 0, pid := 0, parent := none, killed := false, state := .UNUSED }) := by
  unfold wait
  rw [h]

theorem wait_no_zombie (h : t.firstSlot (fun p => p.parent = some c ∧ p.state = .ZOMBIE) = none) :
    wait t c = if (∀ i, (t.proc i).parent ≠ some c) ∨ (t.proc c).killed = true then (some (-1), t)
      else (none, sleep t c (.proc c)) := by
  unfold wait
  rw [h]

theorem exit_init (h : t.initproc = some c) : exit t c = .error "init exiting" := by
  unfold exit
  rw [if_pos h]

theorem exit_ok (h : t.initproc ≠ some c) :
    exit t c = .ok ((reparent (wakeup1 t (Chan.ofProc (t.proc c).parent)) c).set c
      { (reparent (wakeup1 t (Chan.ofProc (t.proc c).parent)) c).proc c with
        state := .ZOMBIE }) := by
  unfold exit
  rw [if_neg h]

end Spec

end Xv6
