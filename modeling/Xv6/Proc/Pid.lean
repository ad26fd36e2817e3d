import Xv6.Proc.Step

set_option autoImplicit false

/-!
# Pids: `kill` and `nextpid`

`kill(pid)` marks the first slot whose `pid` matches, free slots included. Reaped and never used
slots have `pid` 0, so `kill(0)` succeeds on a free slot; `allocproc` leaves `killed` alone, and
the next process that `fork` puts in that slot starts out killed.

`nextpid` is an `int` that nothing checks. A process that forks a child, lets it exit and reaps
it, over and over, takes `nextpid` once round all 2^32 values, and the next `fork` gives its
child the `pid` 1 of `init`, which is still alive.
-/
namespace Xv6

/-! ### A process that forks and reaps a child, over and over -/

section ForkLoop

theorem eq_zero_of_lt_one {j : Fin NPROC} (h : j < 1) : j = 0 := by
  change j.val < 1 at h
  exact Fin.ext (by change j.val = 0; omega)

variable (k g : Nat)

def twoProcs (p : Proc) (n : Int32) : Ptable where
  proc j := if j = 0 then { initcode k g with state := .RUNNING } else if j = 1 then p
    else Proc.zero
  nextpid := n
  initproc := some 0

variable {k g}

theorem twoProcs_set (p p' : Proc) (n : Int32) :
    (twoProcs k g p n).set 1 p' = twoProcs k g p' n := by
  ext1
  · funext j
    rw [Ptable.set_proc]
    by_cases hj : j = 1
    · rw [if_pos hj]
      simp only [twoProcs, hj]
      rfl
    · rw [if_neg hj]
      simp only [twoProcs, hj, if_false]
  · rfl
  · rfl

theorem twoProcs_proc_one (p : Proc) (n : Int32) : (twoProcs k g p n).proc 1 = p := rfl

theorem twoProcs_initproc (p : Proc) (n : Int32) : (twoProcs k g p n).initproc ≠ some 1 := by
  change some (0 : Fin NPROC) ≠ some 1
  decide

theorem twoProcs_proc_zero (p : Proc) (n : Int32) :
    (twoProcs k g p n).proc 0 = { initcode k g with state := .RUNNING } := rfl

theorem twoProcs_proc_of_ne (p : Proc) (n : Int32) {j : Fin NPROC} (hj : j ≠ 1) :
    (twoProcs k g p n).proc j = { initcode k g with state := .RUNNING } ∨
      (twoProcs k g p n).proc j = Proc.zero := by
  unfold twoProcs
  dsimp only
  rw [if_neg hj]
  split_ifs
  · exact Or.inl rfl
  · exact Or.inr rfl

theorem initRunning_eq : scheduler (bootedTable k g) 0 = twoProcs k g Proc.zero 2 := by
  have hrun : ((bootedTable k g).proc 0).state = .RUNNABLE := rfl
  unfold scheduler
  rw [if_pos hrun]
  ext1
  · funext j
    rw [Ptable.set_proc]
    change _ = if j = 0 then _ else if j = 1 then Proc.zero else Proc.zero
    rw [ite_self]
    split_ifs with hj
    · rfl
    · exact Ptable.set_proc_ne bootTable 0 _ hj
  · rfl
  · rfl

theorem twoProcs_reachable : Reachable (twoProcs k g Proc.zero 2) := by
  have hbooted : Reachable (bootedTable k g) :=
    Run.Reachable.of_init (booted_iff.2 ⟨k, g, rfl⟩)
  rw [← initRunning_eq]
  exact hbooted.step (.scheduler 0)

theorem twoProcs_firstFree (p : Proc) (n : Int32) (hp : p.state = .UNUSED) :
    (twoProcs k g p n).firstSlot (·.state = .UNUSED) = some 1 := by
  refine Ptable.firstSlot_eq_some.2 ⟨hp, fun j hj => ?_⟩
  rw [eq_zero_of_lt_one hj, twoProcs_proc_zero]
  exact nofun

theorem twoProcs_awake (p : Proc) (n : Int32) (hp : p.state ≠ .SLEEPING) (chan : Chan) :
    wakeup1 (twoProcs k g p n) chan = twoProcs k g p n := by
  refine wakeup1_of_awake _ _ (fun j => ?_)
  by_cases hj : j = 1
  · rw [hj]
    exact hp
  · rcases twoProcs_proc_of_ne p n hj with h | h <;> rw [h] <;> exact nofun

theorem twoProcs_childless (p : Proc) (n : Int32) (hp : p.parent = some 0) :
    reparent (twoProcs k g p n) 1 = twoProcs k g p n := by
  refine reparent_of_childless _ _ (fun j => ?_)
  by_cases hj : j = 1
  · rw [hj, twoProcs_proc_one, hp]
    decide
  · rcases twoProcs_proc_of_ne p n hj with h | h <;> rw [h] <;> exact nofun

def loopChild (k' g' : Nat) (q : Proc) (n : Int32) : Proc :=
  { q with
    state := .RUNNABLE, pid := n, kstack := k', pgdir := g', vbase := PGSIZE,
    vlimit := 2 * PGSIZE, parent := some 0, tf := ⟨0, 2 * PGSIZE, PGSIZE⟩ }

def reaped (k' g' : Nat) (q : Proc) (n : Int32) : Proc :=
  { loopChild k' g' q n with
    kstack := 0, pid := 0, parent := none, killed := false, state := .UNUSED }

theorem twoProcs_fork (q : Proc) (n : Int32) (hq : q.state = .UNUSED) (k' g' : Nat) :
    fork (twoProcs k g q n) 0 (some k') (some g') =
      (n, twoProcs k g (loopChild k' g' q n) (n + 1)) := by
  rw [fork_ok (twoProcs_firstFree q n hq) rfl, twoProcs_proc_one, twoProcs_set]
  rfl

theorem fork_exit_wait_round (q : Proc) (n : Int32) (hq : q.state = .UNUSED) (k' g' : Nat) :
    Relation.ReflTransGen Step (twoProcs k g q n)
      (twoProcs k g (reaped k' g' q n) (n + 1)) := by
  have h₁ : Step (twoProcs k g q n) (twoProcs k g (loopChild k' g' q n) (n + 1)) := by
    have h := Step.fork (t := twoProcs k g q n) (c := 0) (some k') (some g') rfl
    rwa [twoProcs_fork q n hq] at h
  have h₂ : Step (twoProcs k g (loopChild k' g' q n) (n + 1))
      (twoProcs k g { loopChild k' g' q n with state := .RUNNING } (n + 1)) := by
    have h := Step.scheduler (t := twoProcs k g (loopChild k' g' q n) (n + 1)) 1
    have hrun : (loopChild k' g' q n).state = .RUNNABLE := rfl
    unfold scheduler at h
    rwa [twoProcs_proc_one, if_pos hrun, twoProcs_set] at h
  have h₃ : Step (twoProcs k g { loopChild k' g' q n with state := .RUNNING } (n + 1))
      (twoProcs k g { loopChild k' g' q n with state := .ZOMBIE } (n + 1)) := by
    have hrun : ({ loopChild k' g' q n with state := .RUNNING } : Proc).state = .RUNNING := rfl
    refine Step.exit (c := 1) rfl ?_
    rw [exit_ok (twoProcs_initproc _ _), twoProcs_proc_one,
      twoProcs_awake _ _ (by rw [hrun]; decide), twoProcs_childless _ _ rfl, twoProcs_proc_one,
      twoProcs_set]
  have h₄ : Step (twoProcs k g { loopChild k' g' q n with state := .ZOMBIE } (n + 1))
      (twoProcs k g (reaped k' g' q n) (n + 1)) := by
    have hslot : (twoProcs k g { loopChild k' g' q n with state := .ZOMBIE } (n + 1)).firstSlot
        (fun p => p.parent = some 0 ∧ p.state = .ZOMBIE) = some 1 := by
      refine Ptable.firstSlot_eq_some.2 ⟨⟨rfl, rfl⟩, fun j hj => ?_⟩
      rw [eq_zero_of_lt_one hj, twoProcs_proc_zero]
      exact fun h => nomatch h.1
    have h := Step.wait (c := 0)
      (t := twoProcs k g { loopChild k' g' q n with state := .ZOMBIE } (n + 1)) rfl
    rwa [wait_reap hslot, twoProcs_proc_one, twoProcs_set] at h
  exact .tail (.tail (.tail (.single h₁) h₂) h₃) h₄

theorem fork_exit_wait_rounds (k' g' m : Nat) :
    Relation.ReflTransGen Step (twoProcs k g Proc.zero 2)
      (twoProcs k g (if m = 0 then Proc.zero else reaped k' g' Proc.zero 0)
        (Int32.ofNat (2 + m))) := by
  refine Run.chain (fun m => twoProcs k g (if m = 0 then Proc.zero else
    reaped k' g' Proc.zero 0) (Int32.ofNat (2 + m))) (fun m => ?_) m
  have hq : (if m = 0 then Proc.zero else reaped k' g' Proc.zero 0).state = .UNUSED := by
    split_ifs <;> rfl
  have hround := fork_exit_wait_round (k := k) (g := g) _ (Int32.ofNat (2 + m)) hq k' g'
  have hnext : Int32.ofNat (2 + m) + 1 = Int32.ofNat (2 + (m + 1)) := by
    rw [← Nat.add_assoc, Int32.ofNat_add (2 + m) 1]
    rfl
  rw [hnext] at hround
  convert hround using 2
  rw [if_neg (Nat.succ_ne_zero m)]
  split_ifs <;> rfl

theorem twoProcs_live (p : Proc) (n : Int32) (hp : p.state = .UNUSED) (j : Fin NPROC)
    (hj : ((twoProcs k g p n).proc j).state ≠ .UNUSED) : ((twoProcs k g p n).proc j).pid ≠ 0 := by
  by_cases hj1 : j = 1
  · rw [hj1, twoProcs_proc_one] at hj
    exact absurd hp hj
  · rcases twoProcs_proc_of_ne p n hj1 with h | h <;> rw [h] at hj ⊢
    · change (1 : Int32) ≠ 0
      decide
    · exact absurd rfl hj

end ForkLoop

/-- `kill(0)` at a table whose live processes all have nonzero pids, and whose first free slot
`i` has pid 0, returns `0`, and the child that the next `fork` puts in slot `i` is killed. -/
theorem kill_zero_marks_next_child {t : Ptable} {c i : Fin NPROC}
    (hc : (t.proc c).state = .RUNNING) (hi : (t.proc i).state = .UNUSED)
    (hpid : (t.proc i).pid = 0) (hbefore : ∀ j < i, (t.proc j).state ≠ .UNUSED)
    (hlive : ∀ j, (t.proc j).state ≠ .UNUSED → (t.proc j).pid ≠ 0) (k g : Nat) :
    (kill t 0).1 = 0 ∧
      ((fork (kill t 0).2 c (some k) (some g)).2.proc i).state = .RUNNABLE ∧
      ((fork (kill t 0).2 c (some k) (some g)).2.proc i).parent = some c ∧
      ((fork (kill t 0).2 c (some k) (some g)).2.proc i).killed = true := by
  have hkill : t.firstSlot (·.pid = 0) = some i :=
    Ptable.firstSlot_eq_some.2 ⟨hpid, fun j hj => hlive j (hbefore j hj)⟩
  have hci : c ≠ i := by
    rintro rfl
    rw [hi] at hc
    cases hc
  rw [kill_found hkill]
  set t' := t.set i { t.proc i with
    killed := true,
    state := if (t.proc i).state = .SLEEPING then .RUNNABLE else (t.proc i).state }
  have hfree : t'.firstSlot (·.state = .UNUSED) = some i := by
    refine Ptable.firstSlot_eq_some.2 ⟨?_, fun j hj => ?_⟩
    · simp only [t', Ptable.set_proc_self, hi]
      rfl
    · simp only [t', Ptable.set_proc_ne _ _ _ (ne_of_lt hj)]
      exact hbefore j hj
  have hc' : (t'.proc c).state = .RUNNING := by
    simp only [t', Ptable.set_proc_ne _ _ _ hci]
    exact hc
  rw [fork_ok hfree hc']
  refine ⟨rfl, ?_⟩
  simp only [t', Ptable.set_proc_self, and_self]

theorem kill_zero_marks_next_child_init :
    Reachable (twoProcs 0 0 Proc.zero 2) ∧
      (kill (twoProcs 0 0 Proc.zero 2) 0).1 = 0 ∧
      ((fork (kill (twoProcs 0 0 Proc.zero 2) 0).2 0 (some 0) (some 0)).2.proc 1).state =
        .RUNNABLE ∧
      ((fork (kill (twoProcs 0 0 Proc.zero 2) 0).2 0 (some 0) (some 0)).2.proc 1).parent =
        some 0 ∧
      ((fork (kill (twoProcs 0 0 Proc.zero 2) 0).2 0 (some 0) (some 0)).2.proc 1).killed =
        true :=
  ⟨twoProcs_reachable, kill_zero_marks_next_child rfl rfl rfl
    (fun j hj => by rw [eq_zero_of_lt_one hj, twoProcs_proc_zero]; exact nofun)
    (twoProcs_live _ _ rfl) 0 0⟩

/-- After `2^32 - 1` rounds of `fork`, `exit` and `wait` by `init`, its next `fork` gives the
child `pid` 1, the `pid` of `init`: two live processes share a `pid`. -/
theorem nextpid_wrap_duplicates_pid :
    ∃ t, Reachable t ∧ ∃ i j : Fin NPROC, i ≠ j ∧ (t.proc i).state ≠ .UNUSED ∧
      (t.proc j).state ≠ .UNUSED ∧ (t.proc i).pid = (t.proc j).pid := by
  have hrounds := Run.Reachable.tail twoProcs_reachable
    (fork_exit_wait_rounds (k := 0) (g := 0) 0 0 (2 ^ 32 - 1))
  rw [if_neg (by decide)] at hrounds
  have hwrap : Int32.ofNat (2 + (2 ^ 32 - 1)) = 1 := by decide
  rw [hwrap] at hrounds
  have hfork := Reachable.step hrounds (Step.fork (c := 0) (some 0) (some 0) rfl)
  rw [twoProcs_fork _ _ rfl] at hfork
  exact ⟨_, hfork, 0, 1, by decide, nofun, nofun, rfl⟩

end Xv6
