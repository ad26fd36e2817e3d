import Xv6.Proc.Table
import Xv6.Lib.Run

set_option autoImplicit false

/-!
# Runs of the process table

A step is one call of a `proc.c` function by a `RUNNING` process (`fork`, `exit`, one pass of
`wait`, `kill`, `sleep` on any channel, `yield`), a `wakeup` on any channel by anyone, or one
choice of the scheduler. Any number of processes may be `RUNNING`, one a CPU, and the kernel
stacks and page directories that `kalloc` and `copyuvm` hand over are arbitrary, `none`
included: every interleaving of the CPUs is a run.

`TreeWf` is the process-tree invariant: `initproc` is alive, and every process that holds its
slot, apart from `initproc`, has a parent that is alive (neither `UNUSED`, `EMBRYO` nor
`ZOMBIE`). It holds in every reachable table (`reachable_treeWf`).
-/
namespace Xv6

/-- A process that holds its slot and has not exited. -/
def ProcState.Active (s : ProcState) : Prop := s = .SLEEPING ∨ s = .RUNNABLE ∨ s = .RUNNING

instance (s : ProcState) : Decidable s.Active := inferInstanceAs (Decidable (_ ∨ _ ∨ _))

theorem ProcState.not_active_unused : ¬ ProcState.UNUSED.Active := by decide

/-- A state change that keeps a process inside or outside the active states. -/
def ProcState.Moves (s s' : ProcState) : Prop := s' = s ∨ s.Active ∧ s'.Active

namespace ProcState.Moves

variable {s s' : ProcState}

theorem active_iff (h : s.Moves s') : s'.Active ↔ s.Active := by
  rcases h with rfl | ⟨hs, hs'⟩
  · rfl
  · exact iff_of_true hs' hs

theorem eq_of_not_active (h : s.Moves s') (hs : ¬ s.Active) : s' = s := by
  rcases h with h | ⟨h, -⟩
  · exact h
  · exact absurd h hs

theorem eq_of_not_active' (h : s.Moves s') (hs' : ¬ s'.Active) : s' = s :=
  h.eq_of_not_active (fun hs => hs' (h.active_iff.2 hs))

theorem of_wake {b : Prop} [Decidable b] :
    s.Moves (if s = .SLEEPING ∧ b then .RUNNABLE else s) := by
  by_cases h : s = .SLEEPING ∧ b
  · rw [if_pos h, h.1]
    exact Or.inr ⟨Or.inl rfl, Or.inr (Or.inl rfl)⟩
  · rw [if_neg h]
    exact Or.inl rfl

end ProcState.Moves

inductive Step : Ptable → Ptable → Prop
  | fork {t : Ptable} {c : Fin NPROC} (kstack pgdir : Option Nat) :
      (t.proc c).state = .RUNNING → Step t (fork t c kstack pgdir).2
  | exit {t t' : Ptable} {c : Fin NPROC} :
      (t.proc c).state = .RUNNING → exit t c = .ok t' → Step t t'
  | wait {t : Ptable} {c : Fin NPROC} : (t.proc c).state = .RUNNING → Step t (wait t c).2
  | kill {t : Ptable} {c : Fin NPROC} (pid : Int32) :
      (t.proc c).state = .RUNNING → Step t (kill t pid).2
  | sleep {t : Ptable} {c : Fin NPROC} (chan : Chan) :
      (t.proc c).state = .RUNNING → Step t (sleep t c chan)
  | yield {t : Ptable} {c : Fin NPROC} : (t.proc c).state = .RUNNING → Step t (yield t c)
  | wakeup {t : Ptable} (chan : Chan) : Step t (wakeup t chan)
  | scheduler {t : Ptable} (i : Fin NPROC) : Step t (scheduler t i)

/-- The tables that `userinit` can leave, from the zeroed table. -/
def Booted (t : Ptable) : Prop := ∃ kstack pgdir, userinit bootTable kstack pgdir = .ok t

def Reachable : Ptable → Prop := Run.Reachable Step Booted

def initcode (kstack pgdir : Nat) : Proc :=
  { Proc.zero with
    state := .RUNNABLE, pid := 1, kstack, pgdir, vbase := PGSIZE, vlimit := 2 * PGSIZE,
    tf := ⟨0, 2 * PGSIZE, PGSIZE⟩ }

def bootedTable (kstack pgdir : Nat) : Ptable :=
  { bootTable.set 0 (initcode kstack pgdir) with nextpid := 2, initproc := some 0 }

theorem bootTable_firstSlot : bootTable.firstSlot (·.state = .UNUSED) = some 0 :=
  Ptable.firstSlot_eq_some.2 ⟨rfl, fun j hj => absurd hj (Fin.not_lt_zero j)⟩

theorem userinit_boot (kstack pgdir : Nat) :
    userinit bootTable (some kstack) (some pgdir) = .ok (bootedTable kstack pgdir) := by
  unfold userinit
  rw [allocproc_ok bootTable_firstSlot]
  simp only [Ptable.set, Function.update_idem]
  rfl

theorem booted_iff {t : Ptable} : Booted t ↔ ∃ kstack pgdir, t = bootedTable kstack pgdir := by
  constructor
  · rintro ⟨kstack, pgdir, h⟩
    cases kstack with
    | none =>
      unfold userinit at h
      rw [allocproc_fail bootTable_firstSlot] at h
      cases h
    | some k =>
      cases pgdir with
      | none =>
        unfold userinit at h
        rw [allocproc_ok bootTable_firstSlot] at h
        cases h
      | some g =>
        rw [userinit_boot] at h
        exact ⟨k, g, (Except.ok.inj h).symm⟩
  · rintro ⟨k, g, rfl⟩
    exact ⟨some k, some g, userinit_boot k g⟩

theorem Reachable.step {t t' : Ptable} (h : Reachable t) (hs : Step t t') : Reachable t' :=
  Run.Reachable.tail h (.single hs)

/-! ### Frame lemmas -/

section Frame

variable (t : Ptable) (chan : Chan) (c i : Fin NPROC)

theorem wakeup1_proc : (wakeup1 t chan).proc i =
    if (t.proc i).state = .SLEEPING ∧ (t.proc i).chan = chan then
      { t.proc i with state := .RUNNABLE }
    else t.proc i := rfl

@[simp] theorem wakeup1_initproc : (wakeup1 t chan).initproc = t.initproc := rfl

@[simp] theorem wakeup1_parent : ((wakeup1 t chan).proc i).parent = (t.proc i).parent := by
  rw [wakeup1_proc]
  split_ifs <;> rfl

theorem wakeup1_moves : (t.proc i).state.Moves ((wakeup1 t chan).proc i).state := by
  rw [wakeup1_proc, apply_ite Proc.state]
  exact ProcState.Moves.of_wake

theorem wakeup1_of_awake (h : ∀ j, (t.proc j).state ≠ .SLEEPING) : wakeup1 t chan = t := by
  ext1
  · funext j
    rw [wakeup1_proc, if_neg (fun hs => h j hs.1)]
  · rfl
  · rfl

@[simp] theorem reparent_initproc : (reparent t c).initproc = t.initproc := by
  unfold reparent
  split_ifs <;> rfl

theorem reparent_parent : ((reparent t c).proc i).parent =
    if (t.proc i).parent = some c then t.initproc else (t.proc i).parent := by
  unfold reparent
  split_ifs <;> simp only [wakeup1_parent] <;> split_ifs <;> rfl

theorem reparent_moves : (t.proc i).state.Moves ((reparent t c).proc i).state := by
  have hre : ∀ t' : Ptable, (t'.proc i).state = (t.proc i).state →
      (t.proc i).state.Moves ((wakeup1 t' (Chan.ofProc t.initproc)).proc i).state := by
    intro t' h
    rw [← h]
    exact wakeup1_moves _ _ _
  unfold reparent
  split_ifs
  · exact hre _ (by dsimp only; split_ifs <;> rfl)
  · dsimp only
    split_ifs <;> exact Or.inl rfl

theorem reparent_of_childless (h : ∀ j, (t.proc j).parent ≠ some c) : reparent t c = t := by
  unfold reparent
  rw [if_neg (fun ⟨j, hj, _⟩ => h j hj)]
  ext1
  · funext j
    dsimp only
    rw [if_neg (h j)]
  · rfl
  · rfl

end Frame

/-! ### The process-tree invariant -/

structure TreeWf (t : Ptable) : Prop where
  init_active : ∃ r, t.initproc = some r ∧ (t.proc r).state.Active
  no_embryo : ∀ i, (t.proc i).state ≠ .EMBRYO
  unused_orphan : ∀ i, (t.proc i).state = .UNUSED → (t.proc i).parent = none
  parent_active : ∀ i, (t.proc i).state ≠ .UNUSED → t.initproc ≠ some i →
    ∃ q, (t.proc i).parent = some q ∧ (t.proc q).state.Active

namespace TreeWf

variable {t t' : Ptable}

theorem with_nextpid (h : TreeWf t) (n : Int32) : TreeWf { t with nextpid := n } :=
  ⟨h.init_active, h.no_embryo, h.unused_orphan, h.parent_active⟩

theorem of_moves (h : TreeWf t) (hinit : t'.initproc = t.initproc)
    (hpar : ∀ i, (t'.proc i).parent = (t.proc i).parent)
    (hst : ∀ i, (t.proc i).state.Moves (t'.proc i).state) : TreeWf t' := by
  constructor
  · obtain ⟨r, hr, hact⟩ := h.init_active
    exact ⟨r, hinit ▸ hr, (hst r).active_iff.2 hact⟩
  · intro i he
    have hback := (hst i).eq_of_not_active' (by rw [he]; decide)
    exact h.no_embryo i (hback ▸ he)
  · intro i hi
    have hback := (hst i).eq_of_not_active' (by rw [hi]; decide)
    rw [hpar i]
    exact h.unused_orphan i (hback ▸ hi)
  · intro i hi hni
    have hi₀ : (t.proc i).state ≠ .UNUSED := fun hu =>
      hi (by rw [(hst i).eq_of_not_active (by rw [hu]; decide), hu])
    obtain ⟨q, hq, hact⟩ := h.parent_active i hi₀ (hinit ▸ hni)
    exact ⟨q, (hpar i).trans hq, (hst q).active_iff.2 hact⟩

theorem set_moves (h : TreeWf t) (i : Fin NPROC) (p : Proc)
    (hpar : p.parent = (t.proc i).parent) (hst : (t.proc i).state.Moves p.state) :
    TreeWf (t.set i p) := by
  refine h.of_moves rfl (fun j => ?_) (fun j => ?_)
  · by_cases hj : j = i
    · subst hj
      rw [Ptable.set_proc_self, hpar]
    · rw [Ptable.set_proc_ne _ _ _ hj]
  · by_cases hj : j = i
    · subst hj
      rw [Ptable.set_proc_self]
      exact hst
    · rw [Ptable.set_proc_ne _ _ _ hj]
      exact Or.inl rfl

theorem ne_of_active {i q : Fin NPROC} (hq : (t.proc q).state.Active)
    (hi : ¬ (t.proc i).state.Active) : q ≠ i := by
  rintro rfl
  exact hi hq

theorem set_inactive (h : TreeWf t) {i : Fin NPROC} (hi : ¬ (t.proc i).state.Active)
    (p : Proc) (hne : p.state ≠ .EMBRYO) (horph : p.state = .UNUSED → p.parent = none)
    (hpar : p.state ≠ .UNUSED → ∃ q, p.parent = some q ∧ (t.proc q).state.Active) :
    TreeWf (t.set i p) := by
  constructor
  · obtain ⟨r, hr, hact⟩ := h.init_active
    refine ⟨r, hr, ?_⟩
    rw [Ptable.set_proc_ne _ _ _ (ne_of_active hact hi)]
    exact hact
  · intro j
    by_cases hj : j = i
    · rw [hj, Ptable.set_proc_self]
      exact hne
    · rw [Ptable.set_proc_ne _ _ _ hj]
      exact h.no_embryo j
  · intro j hj
    by_cases hji : j = i
    · rw [hji, Ptable.set_proc_self] at hj ⊢
      exact horph hj
    · rw [Ptable.set_proc_ne _ _ _ hji] at hj ⊢
      exact h.unused_orphan j hj
  · intro j hj hinit
    have hkeep : ∀ q, (t.proc q).state.Active → ((t.set i p).proc q).state.Active := by
      intro q hq
      rw [Ptable.set_proc_ne _ _ _ (ne_of_active hq hi)]
      exact hq
    by_cases hji : j = i
    · rw [hji, Ptable.set_proc_self] at hj ⊢
      obtain ⟨q, hq, hact⟩ := hpar hj
      exact ⟨q, hq, hkeep q hact⟩
    · rw [Ptable.set_proc_ne _ _ _ hji] at hj ⊢
      obtain ⟨q, hq, hact⟩ := h.parent_active j hj hinit
      exact ⟨q, hq, hkeep q hact⟩

theorem wakeup1 (h : TreeWf t) (chan : Chan) : TreeWf (wakeup1 t chan) :=
  h.of_moves rfl (wakeup1_parent t chan) (wakeup1_moves t chan)

theorem fork (h : TreeWf t) {c : Fin NPROC} (hc : (t.proc c).state = .RUNNING)
    (kstack pgdir : Option Nat) : TreeWf (Xv6.fork t c kstack pgdir).2 := by
  cases hslot : t.firstSlot (·.state = .UNUSED) with
  | none =>
    rw [fork_full hslot]
    exact h
  | some i =>
    have hi : (t.proc i).state = .UNUSED := (Ptable.firstSlot_eq_some.1 hslot).1
    have hni : ¬ (t.proc i).state.Active := by rw [hi]; decide
    by_cases hok : kstack.isSome ∧ pgdir.isSome
    · obtain ⟨⟨k, rfl⟩, ⟨g, rfl⟩⟩ := And.imp Option.isSome_iff_exists.1
        Option.isSome_iff_exists.1 hok
      rw [fork_ok hslot hc]
      refine (h.set_inactive hni _ (by simp) (by simp) ?_).with_nextpid _
      exact fun _ => ⟨c, rfl, Or.inr (Or.inr hc)⟩
    · have hfail : kstack = none ∨ pgdir = none := by
        rw [not_and_or, Option.not_isSome_iff_eq_none, Option.not_isSome_iff_eq_none] at hok
        exact hok
      obtain ⟨p, hp, hpu, -, hpar, -⟩ := fork_fail (c := c) hslot hfail
      rw [hp]
      refine (h.set_inactive hni p (by rw [hpu]; decide) ?_ ?_).with_nextpid _
      · exact fun _ => hpar.trans (h.unused_orphan i hi)
      · exact fun hu => absurd hpu hu

theorem reparent_zombie (h : TreeWf t) {c : Fin NPROC} (hc : (t.proc c).state.Active)
    (hinit : t.initproc ≠ some c) :
    TreeWf ((reparent t c).set c { (reparent t c).proc c with state := .ZOMBIE }) := by
  set t₂ := reparent t c
  have hmv : ∀ j, (t.proc j).state.Moves (t₂.proc j).state := reparent_moves t c
  have hpar : ∀ j, ((t₂.set c { t₂.proc c with state := .ZOMBIE }).proc j).parent =
      if (t.proc j).parent = some c then t.initproc else (t.proc j).parent := by
    intro j
    rw [← reparent_parent t c j, Ptable.set_proc]
    split_ifs with hj
    · rw [hj]
    · rfl
  obtain ⟨r, hr, hact⟩ := h.init_active
  have hrc : r ≠ c := fun e => hinit (e ▸ hr)
  have hract : ((t₂.set c { t₂.proc c with state := .ZOMBIE }).proc r).state.Active := by
    rw [Ptable.set_proc_ne _ _ _ hrc]
    exact (hmv r).active_iff.2 hact
  have hunused : ∀ j, ((t₂.set c { t₂.proc c with state := .ZOMBIE }).proc j).state = .UNUSED →
      (t.proc j).state = .UNUSED := by
    intro j hj
    by_cases hjc : j = c
    · rw [hjc, Ptable.set_proc_self] at hj
      cases hj
    · rw [Ptable.set_proc_ne _ _ _ hjc] at hj
      exact (hmv j).eq_of_not_active' (by rw [hj]; decide) ▸ hj
  constructor
  · exact ⟨r, (reparent_initproc t c).trans hr, hract⟩
  · intro j he
    by_cases hjc : j = c
    · rw [hjc, Ptable.set_proc_self] at he
      cases he
    · rw [Ptable.set_proc_ne _ _ _ hjc] at he
      exact h.no_embryo j ((hmv j).eq_of_not_active' (by rw [he]; decide) ▸ he)
  · intro j hj
    rw [hpar j, h.unused_orphan j (hunused j hj)]
    rfl
  · intro j hj hnj
    have hj₀ : (t.proc j).state ≠ .UNUSED := by
      by_cases hjc : j = c
      · rw [hjc]
        intro hu
        rw [hu] at hc
        exact ProcState.not_active_unused hc
      · intro hu
        rw [Ptable.set_proc_ne _ _ _ hjc,
          (hmv j).eq_of_not_active (by rw [hu]; decide), hu] at hj
        exact hj rfl
    obtain ⟨q, hq, hqa⟩ := h.parent_active j hj₀ (by rwa [Ptable.set_initproc, reparent_initproc] at hnj)
    rw [hpar j, hq]
    by_cases hqc : q = c
    · rw [if_pos (congrArg some hqc), hr]
      exact ⟨r, rfl, hract⟩
    · rw [if_neg (fun e => hqc (Option.some_inj.1 e))]
      refine ⟨q, rfl, ?_⟩
      rw [Ptable.set_proc_ne _ _ _ hqc]
      exact (hmv q).active_iff.2 hqa

theorem exit (h : TreeWf t) {c : Fin NPROC} (hc : (t.proc c).state = .RUNNING)
    (he : Xv6.exit t c = .ok t') : TreeWf t' := by
  have hinit : t.initproc ≠ some c := fun hi => by
    rw [exit_init hi] at he
    cases he
  rw [exit_ok hinit] at he
  cases he
  have hc₁ := (wakeup1_moves t (Chan.ofProc (t.proc c).parent) c).active_iff.2
    (Or.inr (Or.inr hc))
  exact (h.wakeup1 _).reparent_zombie hc₁ hinit

theorem wait (h : TreeWf t) {c : Fin NPROC} (hc : (t.proc c).state = .RUNNING) :
    TreeWf (Xv6.wait t c).2 := by
  cases hslot : t.firstSlot (fun p => p.parent = some c ∧ p.state = .ZOMBIE) with
  | some i =>
    have hz : (t.proc i).state = .ZOMBIE := (Ptable.firstSlot_eq_some.1 hslot).1.2
    rw [wait_reap hslot]
    exact h.set_inactive (by rw [hz]; decide) _ (by simp) (fun _ => rfl) (fun hu => absurd rfl hu)
  | none =>
    rw [wait_no_zombie hslot]
    split_ifs
    · exact h
    · exact h.set_moves c _ rfl (Or.inr ⟨Or.inr (Or.inr hc), Or.inl rfl⟩)

theorem kill (h : TreeWf t) (pid : Int32) : TreeWf (Xv6.kill t pid).2 := by
  cases hslot : t.firstSlot (·.pid = pid) with
  | none =>
    rw [kill_none hslot]
    exact h
  | some i =>
    rw [kill_found hslot]
    refine h.set_moves i _ rfl ?_
    have hwake := ProcState.Moves.of_wake (s := (t.proc i).state) (b := True)
    simp only [and_true] at hwake
    exact hwake

theorem step (h : TreeWf t) (hs : Step t t') : TreeWf t' := by
  cases hs with
  | fork kstack pgdir hc => exact h.fork hc kstack pgdir
  | exit hc he => exact h.exit hc he
  | wait hc => exact h.wait hc
  | kill pid _ => exact h.kill pid
  | sleep chan hc => exact h.set_moves _ _ rfl (Or.inr ⟨Or.inr (Or.inr hc), Or.inl rfl⟩)
  | yield hc => exact h.set_moves _ _ rfl (Or.inr ⟨Or.inr (Or.inr hc), Or.inr (Or.inl rfl)⟩)
  | wakeup chan => exact h.wakeup1 chan
  | scheduler i =>
    unfold scheduler
    split_ifs with hr
    · exact h.set_moves i _ rfl (Or.inr ⟨Or.inr (Or.inl hr), Or.inr (Or.inr rfl)⟩)
    · exact h

theorem bootedTable (k g : Nat) : TreeWf (bootedTable k g) := by
  have hslot : ∀ j, (Xv6.bootedTable k g).proc j = if j = 0 then initcode k g else Proc.zero :=
    fun j => Ptable.set_proc bootTable 0 _ j
  constructor
  · exact ⟨0, rfl, Or.inr (Or.inl rfl)⟩
  · intro j
    rw [hslot]
    split_ifs <;> simp [initcode, Proc.zero]
  · intro j hj
    rw [hslot] at hj ⊢
    split_ifs at hj ⊢ <;> rfl
  · intro j hj hnj
    have hj0 : j ≠ 0 := fun e => hnj (by rw [e]; rfl)
    rw [hslot, if_neg hj0] at hj
    exact absurd rfl hj

end TreeWf

theorem reachable_treeWf {t : Ptable} (h : Reachable t) : TreeWf t := by
  refine Run.reachable_invariant (fun t₀ hb => ?_) (fun _ _ hx hs => hx.step hs) h
  obtain ⟨k, g, rfl⟩ := booted_iff.1 hb
  exact TreeWf.bootedTable k g

end Xv6
