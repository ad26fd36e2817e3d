import Xv6.Proc.Step

set_option autoImplicit false

/-!
# The scheduler on several CPUs: `scheduler`, `sched` and the hand-off of `ptable.lock`

Each CPU runs `scheduler()`. It takes `ptable.lock`, walks the table for a `RUNNABLE` process,
records it in `c->proc`, marks it `RUNNING` and switches to its kernel thread with `swtch`. The
lock goes with the switch: the process's thread releases it on the way out of `sched` or in
`forkret`, and takes it again before it changes its own state and calls `sched`, whose `swtch`
goes back to the CPU's scheduler with the lock still held. The scheduler clears `c->proc` and
goes on from the next slot.

A state is the table, each CPU's `c->proc` with the place of the thread that runs on it
(`CpuPhase`), and the CPU that holds `ptable.lock`. A step is one action of one CPU. What a
process does to the table under the lock is a `LockedOp`; what it does to its own state before
`sched` is a `BlockOp`. The one change of the table made without the lock is the
`p->state = UNUSED` of a slot left `EMBRYO` when `allocproc` gets no kernel stack or `fork` no
copy of the memory. What one thread does between two lock operations is one step, as no other
CPU can look at the table meanwhile.

`SchedWf` holds in every reachable state. Where the lock is free it says that a process is
`RUNNING` exactly when it is the `c->proc` of one CPU (`scheduler_one_cpu_per_process`).
-/
namespace Xv6

open Function (update)

/-- Where the thread that runs on a CPU is. -/
inductive CpuPhase where
  /-- In `scheduler`'s loop, before its `acquire(&ptable.lock)`. -/
  | idle
  /-- In `scheduler`'s loop over the table, at slot `i`, holding the lock. -/
  | scan (i : Nat)
  /-- The kernel thread of `c->proc`, without the lock. -/
  | run
  /-- The kernel thread of `c->proc`, holding the lock. -/
  | locked
  /-- The kernel thread of `c->proc` in `sched`, its state changed, before its `swtch`. -/
  | sched
  deriving DecidableEq

namespace CpuPhase

def holds : CpuPhase → Bool
  | .scan _ | .locked | .sched => true
  | .idle | .run => false

def onProc : CpuPhase → Bool
  | .run | .locked | .sched => true
  | .idle | .scan _ => false

end CpuPhase

/-- `struct cpu` as the scheduler uses it: `c->proc`, and where the thread running on it is. -/
structure Cpu where
  proc : Option (Fin NPROC)
  phase : CpuPhase

structure SchedSys where
  table : Ptable
  cpu : Fin NCPU → Cpu
  /-- The CPU that holds `ptable.lock` (its `cpu` field), `none` while it is free. -/
  lock : Option (Fin NCPU)

namespace SchedSys

def setCpu (s : SchedSys) (c : Fin NCPU) (x : Cpu) : SchedSys := { s with cpu := update s.cpu c x }

def setPhase (s : SchedSys) (c : Fin NCPU) (ph : CpuPhase) : SchedSys :=
  s.setCpu c { s.cpu c with phase := ph }

variable (s : SchedSys) (c : Fin NCPU)

@[simp] theorem setCpu_table (x : Cpu) : (s.setCpu c x).table = s.table := rfl
@[simp] theorem setCpu_lock (x : Cpu) : (s.setCpu c x).lock = s.lock := rfl
@[simp] theorem setCpu_cpu_self (x : Cpu) : (s.setCpu c x).cpu c = x := Function.update_self _ _ _
@[simp] theorem setCpu_cpu_of_ne (x : Cpu) {d : Fin NCPU} (h : d ≠ c) :
    (s.setCpu c x).cpu d = s.cpu d := Function.update_of_ne h _ _

@[simp] theorem setPhase_table (ph : CpuPhase) : (s.setPhase c ph).table = s.table := rfl
@[simp] theorem setPhase_lock (ph : CpuPhase) : (s.setPhase c ph).lock = s.lock := rfl
@[simp] theorem setPhase_proc (ph : CpuPhase) (d : Fin NCPU) :
    ((s.setPhase c ph).cpu d).proc = (s.cpu d).proc := by
  by_cases hd : d = c
  · subst hd
    simp [setPhase]
  · simp [setPhase, hd]

/-- CPU `c` runs process `i`: `c->proc` is `i`, and its thread has not yet given it up in
`sched`. -/
def Runs (i : Fin NPROC) : Prop := (s.cpu c).proc = some i ∧ (s.cpu c).phase ≠ .sched

theorem runs_setCpu (x : Cpu) (d : Fin NCPU) (i : Fin NPROC) :
    (s.setCpu c x).Runs d i ↔ if d = c then x.proc = some i ∧ x.phase ≠ .sched else s.Runs d i := by
  by_cases hd : d = c
  · subst hd
    simp [Runs]
  · simp [Runs, hd]

end SchedSys

/-! ### What the actions do to the table -/

def allocSlot (t : Ptable) : Ptable :=
  match t.firstSlot (·.state = .UNUSED) with
  | none => t
  | some i =>
    { t.set i { t.proc i with state := .EMBRYO, pid := t.nextpid } with nextpid := t.nextpid + 1 }

/-- What the thread of process `p` does to the table while it holds `ptable.lock` and keeps its
CPU. -/
inductive LockedOp (p : Fin NPROC) : Ptable → Ptable → Prop
  | wakeup {t : Ptable} (chan : Chan) : LockedOp p t (wakeup t chan)
  | kill {t : Ptable} (pid : Int32) : LockedOp p t (kill t pid).2
  | allocproc {t : Ptable} : LockedOp p t (allocSlot t)
  /-- `np->state = RUNNABLE` at the end of `fork`. -/
  | fork {t : Ptable} {i : Fin NPROC} : (t.proc i).state = .EMBRYO →
      LockedOp p t (t.set i { t.proc i with state := .RUNNABLE })
  /-- A pass of `wait`'s loop that returns. -/
  | wait {t t' : Ptable} {r : Int32} : wait t p = (some r, t') → LockedOp p t t'

/-- What process `p` does to the table before it calls `sched`. -/
inductive BlockOp (p : Fin NPROC) : Ptable → Ptable → Prop
  | yield {t : Ptable} : BlockOp p t (yield t p)
  | sleep {t : Ptable} (chan : Chan) : BlockOp p t (sleep t p chan)
  | exit {t t' : Ptable} : exit t p = .ok t' → BlockOp p t t'
  /-- A pass of `wait`'s loop that goes to `sleep`. -/
  | wait {t t' : Ptable} : wait t p = (none, t') → BlockOp p t t'

/-- A change of the table that starts and stops no process. -/
def KeepsRunning (t t' : Ptable) : Prop :=
  ∀ i, (t'.proc i).state = .RUNNING ↔ (t.proc i).state = .RUNNING

/-- A change of the table that stops process `p` and starts and stops no other. -/
def Stops (p : Fin NPROC) (t t' : Ptable) : Prop :=
  (t'.proc p).state ≠ .RUNNING ∧ ∀ i ≠ p, ((t'.proc i).state = .RUNNING ↔ (t.proc i).state = .RUNNING)

section Ops

variable {t t₁ t₂ : Ptable}

theorem KeepsRunning.refl (t : Ptable) : KeepsRunning t t := fun _ => Iff.rfl

theorem KeepsRunning.trans (h₁ : KeepsRunning t t₁) (h₂ : KeepsRunning t₁ t₂) :
    KeepsRunning t t₂ := fun i => (h₂ i).trans (h₁ i)

theorem keepsRunning_set {i : Fin NPROC} {q : Proc} (hi : (t.proc i).state ≠ .RUNNING)
    (hq : q.state ≠ .RUNNING) : KeepsRunning t (t.set i q) := by
  intro j
  rw [Ptable.set_proc]
  split_ifs with hj
  · subst hj
    exact iff_of_false hq hi
  · exact Iff.rfl

theorem stops_set {p : Fin NPROC} {q : Proc} (hk : KeepsRunning t t₁) (hq : q.state ≠ .RUNNING) :
    Stops p t (t₁.set p q) := by
  refine ⟨by rw [Ptable.set_proc_self]; exact hq, fun i hi => ?_⟩
  rw [Ptable.set_proc_ne _ _ _ hi]
  exact hk i

theorem wakeup1_keepsRunning (t : Ptable) (chan : Chan) : KeepsRunning t (wakeup1 t chan) := by
  intro i
  rw [wakeup1_proc]
  split_ifs with h
  · exact iff_of_false (by simp) (by rw [h.1]; simp)
  · exact Iff.rfl

theorem reparent_keepsRunning (t : Ptable) (c : Fin NPROC) : KeepsRunning t (reparent t c) := by
  have hsame : ∀ t' : Ptable, (∀ i, (t'.proc i).state = (t.proc i).state) → KeepsRunning t t' := by
    intro t' h i
    rw [h i]
  unfold reparent
  dsimp only
  split_ifs
  · exact (hsame _ fun i => by dsimp only; split_ifs <;> rfl).trans (wakeup1_keepsRunning _ _)
  · exact hsame _ fun i => by dsimp only; split_ifs <;> rfl

theorem kill_keepsRunning (t : Ptable) (pid : Int32) : KeepsRunning t (kill t pid).2 := by
  rcases h : t.firstSlot (·.pid = pid) with _ | i
  · rw [kill_none h]
    exact KeepsRunning.refl t
  · rw [kill_found h]
    intro j
    rw [Ptable.set_proc]
    split_ifs with hj hs
    · subst hj
      exact iff_of_false (by simp) (by rw [hs]; simp)
    · subst hj
      exact Iff.rfl
    · exact Iff.rfl

theorem allocSlot_keepsRunning (t : Ptable) : KeepsRunning t (allocSlot t) := by
  unfold allocSlot
  split
  · exact KeepsRunning.refl t
  · rename_i i hi
    have hu : (t.proc i).state = .UNUSED := (Ptable.firstSlot_eq_some.1 hi).1
    exact keepsRunning_set (by rw [hu]; simp) (by simp)

theorem wait_keepsRunning {c : Fin NPROC} {r : Int32} (h : wait t c = (some r, t₁)) :
    KeepsRunning t t₁ := by
  rcases hz : t.firstSlot (fun p => p.parent = some c ∧ p.state = .ZOMBIE) with _ | i
  · rw [wait_no_zombie hz] at h
    split_ifs at h
    · cases h
      exact KeepsRunning.refl t
    · cases h
  · rw [wait_reap hz] at h
    cases h
    have hzombie : (t.proc i).state = .ZOMBIE := (Ptable.firstSlot_eq_some.1 hz).1.2
    exact keepsRunning_set (by rw [hzombie]; simp) (by simp)

theorem wait_sleeps {c : Fin NPROC} (h : wait t c = (none, t₁)) : t₁ = sleep t c (.proc c) := by
  rcases hz : t.firstSlot (fun p => p.parent = some c ∧ p.state = .ZOMBIE) with _ | i
  · rw [wait_no_zombie hz] at h
    split_ifs at h
    · cases h
    · cases h
      rfl
  · rw [wait_reap hz] at h
    cases h

theorem LockedOp.keepsRunning {p : Fin NPROC} (h : LockedOp p t t₁) : KeepsRunning t t₁ := by
  cases h with
  | wakeup chan => exact wakeup1_keepsRunning t chan
  | kill pid => exact kill_keepsRunning t pid
  | allocproc => exact allocSlot_keepsRunning t
  | fork he => exact keepsRunning_set (by rw [he]; simp) (by simp)
  | wait hw => exact wait_keepsRunning hw

theorem BlockOp.stops {p : Fin NPROC} (h : BlockOp p t t₁) : Stops p t t₁ := by
  cases h with
  | yield => exact stops_set (KeepsRunning.refl t) (by simp)
  | sleep chan => exact stops_set (KeepsRunning.refl t) (by simp)
  | exit he =>
    by_cases hinit : t.initproc = some p
    · rw [exit_init hinit] at he
      cases he
    · rw [exit_ok hinit] at he
      cases he
      exact stops_set ((wakeup1_keepsRunning _ _).trans (reparent_keepsRunning _ _)) (by simp)
  | wait hw =>
    rw [wait_sleeps hw]
    exact stops_set (KeepsRunning.refl t) (by simp)

theorem scheduler_running {i : Fin NPROC} (h : (t.proc i).state = .RUNNABLE) (j : Fin NPROC) :
    ((scheduler t i).proc j).state = .RUNNING ↔ j = i ∨ (t.proc j).state = .RUNNING := by
  unfold scheduler
  rw [if_pos h, Ptable.set_proc]
  split_ifs with hj
  · exact iff_of_true rfl (Or.inl hj)
  · exact (or_iff_right hj).symm

end Ops

/-! ### The system -/

/-- One action of CPU `c`. -/
inductive SchedStep : SchedSys → SchedSys → Prop
  /-- `scheduler`'s `acquire(&ptable.lock)` at the top of its loop. -/
  | enter {s : SchedSys} {c : Fin NCPU} : (s.cpu c).phase = .idle → s.lock = none →
      SchedStep s { s.setPhase c (.scan 0) with lock := some c }
  /-- `if(p->state != RUNNABLE) continue;` -/
  | skip {s : SchedSys} {c : Fin NCPU} {i : Nat} (h : i < NPROC) : (s.cpu c).phase = .scan i →
      (s.table.proc ⟨i, h⟩).state ≠ .RUNNABLE → SchedStep s (s.setPhase c (.scan (i + 1)))
  /-- `c->proc = p; switchuvm(p); p->state = RUNNING; swtch(...)`: the process's thread goes on
  from its `sched` or from `forkret`, holding the lock. -/
  | pick {s : SchedSys} {c : Fin NCPU} {i : Nat} (h : i < NPROC) : (s.cpu c).phase = .scan i →
      (s.table.proc ⟨i, h⟩).state = .RUNNABLE →
      SchedStep s { s.setCpu c ⟨some ⟨i, h⟩, .locked⟩ with table := scheduler s.table ⟨i, h⟩ }
  /-- The `release(&ptable.lock)` after the loop over the table. -/
  | leave {s : SchedSys} {c : Fin NCPU} {i : Nat} : (s.cpu c).phase = .scan i → NPROC ≤ i →
      SchedStep s { s.setPhase c .idle with lock := none }
  | acquire {s : SchedSys} {c : Fin NCPU} : (s.cpu c).phase = .run → s.lock = none →
      SchedStep s { s.setPhase c .locked with lock := some c }
  | release {s : SchedSys} {c : Fin NCPU} : (s.cpu c).phase = .locked →
      SchedStep s { s.setPhase c .run with lock := none }
  | locked {s : SchedSys} {c : Fin NCPU} {p : Fin NPROC} {t : Ptable} :
      (s.cpu c).phase = .locked → (s.cpu c).proc = some p → LockedOp p s.table t →
      SchedStep s { s with table := t }
  | block {s : SchedSys} {c : Fin NCPU} {p : Fin NPROC} {t : Ptable} :
      (s.cpu c).phase = .locked → (s.cpu c).proc = some p → BlockOp p s.table t →
      SchedStep s { s.setPhase c .sched with table := t }
  /-- `sched`'s `swtch` to the CPU's scheduler, which goes on holding the lock:
  `switchkvm(); c->proc = 0;` and the slot after the process's. -/
  | swtch {s : SchedSys} {c : Fin NCPU} {p : Fin NPROC} : (s.cpu c).phase = .sched →
      (s.cpu c).proc = some p → SchedStep s (s.setCpu c ⟨none, .scan (p.val + 1)⟩)
  /-- `p->state = UNUSED` without the lock, where `allocproc` or `fork` gives its slot back. -/
  | abandon {s : SchedSys} {c : Fin NCPU} {i : Fin NPROC} : (s.cpu c).phase = .run →
      (s.table.proc i).state = .EMBRYO →
      SchedStep s { s with table := s.table.set i { s.table.proc i with kstack := 0, state := .UNUSED } }

/-- Before the schedulers start: every CPU at the top of `scheduler` with `c->proc = 0`, the
lock free, and no process `RUNNING`. -/
def SchedInit (s : SchedSys) : Prop :=
  s.lock = none ∧ (∀ c, s.cpu c = ⟨none, .idle⟩) ∧ ∀ i, (s.table.proc i).state ≠ .RUNNING

def SchedReachable : SchedSys → Prop := Run.Reachable SchedStep SchedInit

/-- What holds between any two actions: the lock is held by the CPU whose thread is at a place
that holds it, `c->proc` is set exactly at the places of a process's thread, no two CPUs have
the same `c->proc`, and the `RUNNING` processes are those some CPU runs. -/
structure SchedWf (s : SchedSys) : Prop where
  holds : ∀ c, (s.cpu c).phase.holds = true ↔ s.lock = some c
  onProc : ∀ c, (s.cpu c).phase.onProc = (s.cpu c).proc.isSome
  distinct : ∀ c d i, (s.cpu c).proc = some i → (s.cpu d).proc = some i → c = d
  running : ∀ i, (s.table.proc i).state = .RUNNING ↔ ∃ c, s.Runs c i

namespace SchedWf

variable {s : SchedSys}

theorem init (h : SchedInit s) : SchedWf s := by
  obtain ⟨hlock, hcpu, hnone⟩ := h
  refine ⟨fun c => ?_, fun c => ?_, fun c d i hc _ => ?_, fun i => ?_⟩
  · rw [hcpu c, hlock]
    simp [CpuPhase.holds]
  · rw [hcpu c]
    rfl
  · rw [hcpu c] at hc
    cases hc
  · refine iff_of_false (hnone i) ?_
    rintro ⟨c, hc, -⟩
    rw [hcpu c] at hc
    cases hc

theorem others_free (hw : SchedWf s) {c : Fin NCPU} (hl : s.lock = none ∨ s.lock = some c) :
    ∀ d ≠ c, (s.cpu d).phase.holds = false := by
  intro d hd
  cases hh : (s.cpu d).phase.holds
  · rfl
  · have hd' := (hw.holds d).1 hh
    rcases hl with hl | hl <;> rw [hl] at hd'
    · cases hd'
    · exact absurd (Option.some.inj hd').symm hd

theorem running_of (hw : SchedWf s) {s' : SchedSys} (hk : KeepsRunning s.table s'.table)
    (hr : ∀ c i, s'.Runs c i ↔ s.Runs c i) :
    ∀ i, (s'.table.proc i).state = .RUNNING ↔ ∃ c, s'.Runs c i := by
  intro i
  rw [hk i, hw.running i]
  exact exists_congr fun c => (hr c i).symm

theorem of_table (hw : SchedWf s) {t : Ptable} (hk : KeepsRunning s.table t) :
    SchedWf { s with table := t } :=
  ⟨hw.holds, hw.onProc, hw.distinct, hw.running_of hk fun _ _ => Iff.rfl⟩

theorem move (hw : SchedWf s) {c : Fin NCPU} {ph : CpuPhase} {l : Option (Fin NCPU)}
    (hon : ph.onProc = (s.cpu c).phase.onProc) (hph : ph ≠ .sched)
    (hold : (s.cpu c).phase ≠ .sched) (hl : l = if ph.holds then some c else none)
    (hothers : ∀ d ≠ c, (s.cpu d).phase.holds = false) :
    SchedWf { s.setPhase c ph with lock := l } := by
  have hruns : ∀ d i, SchedSys.Runs { s.setPhase c ph with lock := l } d i ↔ s.Runs d i := by
    intro d i
    by_cases hd : d = c
    · subst hd
      simp [SchedSys.Runs, SchedSys.setPhase, hph, hold]
    · simp [SchedSys.Runs, SchedSys.setPhase, hd]
  refine ⟨fun d => ?_, fun d => ?_, fun d e i hd he => ?_,
    hw.running_of (KeepsRunning.refl _) hruns⟩
  · by_cases hd : d = c
    · subst hd
      cases h : ph.holds <;> simp [SchedSys.setPhase, hl, h]
    · have hne : l ≠ some d := by
        rw [hl]
        split_ifs
        · exact fun h => hd (Option.some.inj h).symm
        · exact fun h => by cases h
      simp only [SchedSys.setPhase, SchedSys.setCpu_cpu_of_ne _ _ _ hd, hothers d hd]
      exact iff_of_false Bool.false_ne_true hne
  · by_cases hd : d = c
    · subst hd
      simp only [SchedSys.setPhase, SchedSys.setCpu_cpu_self]
      rw [hon, hw.onProc]
    · simp only [SchedSys.setPhase, SchedSys.setCpu_cpu_of_ne _ _ _ hd]
      exact hw.onProc d
  · rw [SchedSys.setPhase_proc] at hd he
    exact hw.distinct d e i hd he

theorem pick (hw : SchedWf s) {c : Fin NCPU} {i : Fin NPROC} {k : Nat}
    (hph : (s.cpu c).phase = .scan k) (hrun : (s.table.proc i).state = .RUNNABLE) :
    SchedWf { s.setCpu c ⟨some i, .locked⟩ with table := scheduler s.table i } := by
  have hnone : (s.cpu c).proc = none := by
    have h := hw.onProc c
    rw [hph] at h
    exact Option.not_isSome_iff_eq_none.1 (by rw [← h]; simp [CpuPhase.onProc])
  have hlock : s.lock = some c := (hw.holds c).1 (by rw [hph]; rfl)
  have hfree : ∀ d, (s.cpu d).proc ≠ some i := by
    intro d hd
    by_cases hs : (s.cpu d).phase = .sched
    · have hdl := (hw.holds d).1 (by rw [hs]; rfl)
      rw [hlock] at hdl
      cases hdl
      rw [hnone] at hd
      cases hd
    · have hi := (hw.running i).2 ⟨d, hd, hs⟩
      rw [hrun] at hi
      cases hi
  refine ⟨fun d => ?_, fun d => ?_, fun d e j hd he => ?_, fun j => ?_⟩
  · by_cases hd : d = c
    · subst hd
      simp [CpuPhase.holds, hlock]
    · simpa [hd] using hw.holds d
  · by_cases hd : d = c
    · subst hd
      simp [CpuPhase.onProc]
    · simpa [hd] using hw.onProc d
  · have hproc : ∀ x, ({ s.setCpu c ⟨some i, .locked⟩ with table := scheduler s.table i }.cpu x).proc =
        if x = c then some i else (s.cpu x).proc := by
      intro x
      by_cases hx : x = c
      · subst hx
        simp
      · simp [hx]
    rw [hproc] at hd he
    split_ifs at hd he with hdc hec hec
    · rw [hdc, hec]
    · cases hd
      exact absurd he (hfree e)
    · cases he
      exact absurd hd (hfree d)
    · exact hw.distinct d e j hd he
  · change _ ↔ ∃ d, (s.setCpu c ⟨some i, .locked⟩).Runs d j
    simp only [SchedSys.runs_setCpu]
    rw [scheduler_running hrun j, hw.running j]
    constructor
    · rintro (rfl | ⟨d, hd⟩)
      · exact ⟨c, by simp⟩
      · have hdc : d ≠ c := by
          rintro rfl
          have hsome := hnone.symm.trans hd.1
          cases hsome
        exact ⟨d, by rw [if_neg hdc]; exact hd⟩
    · rintro ⟨d, hd⟩
      split_ifs at hd with hdc
      · exact Or.inl (Option.some.inj hd.1).symm
      · exact Or.inr ⟨d, hd⟩

theorem block (hw : SchedWf s) {c : Fin NCPU} {p : Fin NPROC} {t : Ptable}
    (hph : (s.cpu c).phase = .locked) (hp : (s.cpu c).proc = some p) (hst : Stops p s.table t) :
    SchedWf { s.setPhase c .sched with table := t } := by
  have hlock : s.lock = some c := (hw.holds c).1 (by rw [hph]; rfl)
  refine ⟨fun d => ?_, fun d => ?_, fun d e j hd he => ?_, fun j => ?_⟩
  · by_cases hd : d = c
    · subst hd
      simp [SchedSys.setPhase, CpuPhase.holds, hlock]
    · simpa [SchedSys.setPhase, hd] using hw.holds d
  · by_cases hd : d = c
    · subst hd
      simp [SchedSys.setPhase, CpuPhase.onProc, hp]
    · simpa [SchedSys.setPhase, hd] using hw.onProc d
  · change ((s.setPhase c .sched).cpu d).proc = _ at hd
    change ((s.setPhase c .sched).cpu e).proc = _ at he
    rw [SchedSys.setPhase_proc] at hd he
    exact hw.distinct d e j hd he
  · change _ ↔ ∃ d, (s.setCpu c { s.cpu c with phase := .sched }).Runs d j
    simp only [SchedSys.runs_setCpu]
    constructor
    · intro hj
      -- `p` stopped, so `j` is another process, run by a CPU other than `c`
      have hjp : j ≠ p := fun h => hst.1 (h ▸ hj)
      obtain ⟨d, hd⟩ := (hw.running j).1 ((hst.2 j hjp).1 hj)
      have hdc : d ≠ c := by
        rintro rfl
        exact hjp (Option.some.inj (hp.symm.trans hd.1)).symm
      exact ⟨d, by rw [if_neg hdc]; exact hd⟩
    · rintro ⟨d, hd⟩
      split_ifs at hd with hdc
      · exact absurd rfl hd.2
      · have hjp : j ≠ p := by
          rintro rfl
          exact hdc (hw.distinct d c j hd.1 hp)
        exact (hst.2 j hjp).2 ((hw.running j).2 ⟨d, hd⟩)

theorem swtch (hw : SchedWf s) {c : Fin NCPU} {p : Fin NPROC} (hph : (s.cpu c).phase = .sched)
    (hp : (s.cpu c).proc = some p) : SchedWf (s.setCpu c ⟨none, .scan (p.val + 1)⟩) := by
  have hlock : s.lock = some c := (hw.holds c).1 (by rw [hph]; rfl)
  refine ⟨fun d => ?_, fun d => ?_, fun d e j hd he => ?_,
    hw.running_of (KeepsRunning.refl _) fun d j => ?_⟩
  · by_cases hd : d = c
    · subst hd
      simp [CpuPhase.holds, hlock]
    · simpa [hd] using hw.holds d
  · by_cases hd : d = c
    · subst hd
      simp [CpuPhase.onProc]
    · simpa [hd] using hw.onProc d
  · by_cases hdc : d = c
    · subst hdc
      simp at hd
    · by_cases hec : e = c
      · subst hec
        simp at he
      · simp only [SchedSys.setCpu_cpu_of_ne _ _ _ hdc, SchedSys.setCpu_cpu_of_ne _ _ _ hec] at hd he
        exact hw.distinct d e j hd he
  · rw [SchedSys.runs_setCpu]
    split_ifs with hdc
    · subst hdc
      exact iff_of_false (by simp) fun h => h.2 hph
    · exact Iff.rfl

theorem step (hw : SchedWf s) {s' : SchedSys} (h : SchedStep s s') : SchedWf s' := by
  cases h with
  | enter hph hl =>
    exact hw.move (by rw [hph]; rfl) (by simp) (by rw [hph]; simp) (by simp [CpuPhase.holds])
      (hw.others_free (Or.inl hl))
  | @skip c i hi hph _ =>
    have hlock : s.lock = some c := (hw.holds c).1 (by rw [hph]; rfl)
    exact hw.move (l := s.lock) (by rw [hph]; rfl) (by simp) (by rw [hph]; simp)
      (by simp [CpuPhase.holds, hlock]) (hw.others_free (Or.inr hlock))
  | pick _ hph hrun => exact hw.pick hph hrun
  | @leave c i hph _ =>
    have hlock : s.lock = some c := (hw.holds c).1 (by rw [hph]; rfl)
    exact hw.move (by rw [hph]; rfl) (by simp) (by rw [hph]; simp) (by simp [CpuPhase.holds])
      (hw.others_free (Or.inr hlock))
  | acquire hph hl =>
    exact hw.move (by rw [hph]; rfl) (by simp) (by rw [hph]; simp) (by simp [CpuPhase.holds])
      (hw.others_free (Or.inl hl))
  | @release c hph =>
    have hlock : s.lock = some c := (hw.holds c).1 (by rw [hph]; rfl)
    exact hw.move (by rw [hph]; rfl) (by simp) (by rw [hph]; simp) (by simp [CpuPhase.holds])
      (hw.others_free (Or.inr hlock))
  | locked _ _ hop => exact hw.of_table hop.keepsRunning
  | block hph hp hop => exact hw.block hph hp hop.stops
  | swtch hph hp => exact hw.swtch hph hp
  | abandon _ he => exact hw.of_table (keepsRunning_set (by rw [he]; simp) (by simp))

theorem lock_free (hw : SchedWf s) (hl : s.lock = none) :
    (∀ i, (s.table.proc i).state = .RUNNING ↔ ∃! c, (s.cpu c).proc = some i) ∧
      ∀ c i, (s.cpu c).proc = some i → (s.table.proc i).state = .RUNNING := by
  have hruns : ∀ c i, s.Runs c i ↔ (s.cpu c).proc = some i := by
    intro c i
    refine ⟨And.left, fun hc => ⟨hc, fun hs => ?_⟩⟩
    have hc := (hw.holds c).1 (by rw [hs]; rfl)
    rw [hl] at hc
    cases hc
  refine ⟨fun i => ?_, fun c i hc => (hw.running i).2 ⟨c, (hruns c i).2 hc⟩⟩
  rw [hw.running i]
  constructor
  · rintro ⟨c, hc⟩
    exact ⟨c, (hruns c i).1 hc, fun d hd => hw.distinct d c i hd ((hruns c i).1 hc)⟩
  · rintro ⟨c, hc, -⟩
    exact ⟨c, (hruns c i).2 hc⟩

end SchedWf

theorem reachable_schedWf {s : SchedSys} (hs : SchedReachable s) : SchedWf s :=
  @Run.reachable_invariant SchedSys SchedStep SchedInit SchedWf (fun _ h => SchedWf.init h)
    (fun _ _ hw h => hw.step h) s hs

theorem SchedStep.starts_runnable {s s' : SchedSys} (h : SchedStep s s') {c : Fin NCPU}
    {i : Fin NPROC} (hbefore : (s.cpu c).proc ≠ some i) (hafter : (s'.cpu c).proc = some i) :
    (s.table.proc i).state = .RUNNABLE := by
  cases h with
  | @pick d k hk _ hrun =>
    by_cases hcd : c = d
    · subst hcd
      simp only [SchedSys.setCpu_cpu_self, Option.some.injEq] at hafter
      rw [← hafter]
      exact hrun
    · simp [hcd] at hafter
      exact absurd hafter hbefore
  | @swtch d p _ _ =>
    by_cases hcd : c = d
    · subst hcd
      simp at hafter
    · simp [hcd] at hafter
      exact absurd hafter hbefore
  | locked => exact absurd hafter hbefore
  | abandon => exact absurd hafter hbefore
  | block => simp at hafter; exact absurd hafter hbefore
  | enter => simp at hafter; exact absurd hafter hbefore
  | skip => simp at hafter; exact absurd hafter hbefore
  | leave => simp at hafter; exact absurd hafter hbefore
  | acquire => simp at hafter; exact absurd hafter hbefore
  | release => simp at hafter; exact absurd hafter hbefore

/-- One CPU per process. In every reachable state no two CPUs have the same `c->proc`; where
`ptable.lock` is free, a process is `RUNNING` exactly when it is the `c->proc` of exactly one
CPU, and every CPU's `c->proc` is `RUNNING`; and a CPU starts running a process only when the
scheduler picks it `RUNNABLE`, so never one that is `ZOMBIE` or `UNUSED`. -/
theorem scheduler_one_cpu_per_process {s : SchedSys} (hs : SchedReachable s) :
    (∀ c d i, (s.cpu c).proc = some i → (s.cpu d).proc = some i → c = d) ∧
      (s.lock = none →
        (∀ i, (s.table.proc i).state = .RUNNING ↔ ∃! c, (s.cpu c).proc = some i) ∧
          ∀ c i, (s.cpu c).proc = some i → (s.table.proc i).state = .RUNNING) ∧
      ∀ s', SchedStep s s' → ∀ c i, (s.cpu c).proc ≠ some i → (s'.cpu c).proc = some i →
        (s.table.proc i).state = .RUNNABLE := by
  have hw := reachable_schedWf hs
  exact ⟨hw.distinct, hw.lock_free, fun _ h _ _ => h.starts_runnable⟩

def bootSched (t : Ptable) : SchedSys := ⟨t, fun _ => ⟨none, .idle⟩, none⟩

theorem bootSched_init {t : Ptable} (h : Booted t) : SchedInit (bootSched t) := by
  obtain ⟨k, g, rfl⟩ := booted_iff.1 h
  refine ⟨rfl, fun _ => rfl, fun i => ?_⟩
  change ((bootTable.set 0 (initcode k g)).proc i).state ≠ .RUNNING
  rw [Ptable.set_proc]
  split_ifs <;> simp [initcode, bootTable, Proc.zero]

theorem scheduler_one_cpu_per_process_boot :
    SchedReachable (bootSched (bootedTable 0x8dfff000 0x8dffe000)) ∧
      ((∀ c d i, ((bootSched (bootedTable 0x8dfff000 0x8dffe000)).cpu c).proc = some i →
          ((bootSched (bootedTable 0x8dfff000 0x8dffe000)).cpu d).proc = some i → c = d) ∧
        ((bootSched (bootedTable 0x8dfff000 0x8dffe000)).lock = none →
          (∀ i, ((bootSched (bootedTable 0x8dfff000 0x8dffe000)).table.proc i).state = .RUNNING ↔
            ∃! c, ((bootSched (bootedTable 0x8dfff000 0x8dffe000)).cpu c).proc = some i) ∧
          ∀ c i, ((bootSched (bootedTable 0x8dfff000 0x8dffe000)).cpu c).proc = some i →
            ((bootSched (bootedTable 0x8dfff000 0x8dffe000)).table.proc i).state = .RUNNING) ∧
        ∀ s', SchedStep (bootSched (bootedTable 0x8dfff000 0x8dffe000)) s' → ∀ c i,
          ((bootSched (bootedTable 0x8dfff000 0x8dffe000)).cpu c).proc ≠ some i →
          (s'.cpu c).proc = some i →
          ((bootSched (bootedTable 0x8dfff000 0x8dffe000)).table.proc i).state = .RUNNABLE) :=
  have hs : SchedReachable (bootSched (bootedTable 0x8dfff000 0x8dffe000)) :=
    Run.Reachable.of_init (bootSched_init (booted_iff.2 ⟨_, _, rfl⟩))
  ⟨hs, scheduler_one_cpu_per_process hs⟩

end Xv6
