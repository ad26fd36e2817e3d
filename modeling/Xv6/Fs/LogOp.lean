import Xv6.Param
import Xv6.Lib.Run

set_option autoImplicit false

/-!
# Group commit: `begin_op`, `log_write` and `end_op`

The in-memory `struct log` and the three functions that file-system operations call on it. An
operation is `outside` a bracket, `inside` one (between `begin_op` and `end_op`), or is the
`committer`: the `end_op` that brought `outstanding` to `0` and runs `commit()`. Sleeping on
`&log` is a `begin_op` that does not get in and is tried again later, so any scheduling is a run.

The state also records, for the proofs only, the blocks each operation has logged in its
bracket, the brackets ended since the last commit, and every commit with its brackets.
`reachable_logWf` shows the protocol's invariant in every reachable state; from it, every
commit holds every block of each bracket it closes, no `log_write` happens while a commit runs,
and `outstanding` counts the operations inside a bracket.

`LogStep K` lets each operation log at most `K` distinct blocks, the bound that `MAXOPBLOCKS`
stands for.
-/
namespace Xv6

/-- The fields of `struct log` that `begin_op`, `end_op` and `log_write` use. -/
structure Log where
  size : Int
  outstanding : Int
  committing : Bool
  lh : List Nat

/-- One pass of the loop of `begin_op()`: `none` when the caller has to sleep on `&log`. -/
def begin_op (l : Log) : Option Log :=
  if l.committing then none
  else if (l.lh.length : Int) + (l.outstanding + 1) * MAXOPBLOCKS > LOGSIZE then none
  else some { l with outstanding := l.outstanding + 1 }

/-- `end_op()` up to its call of `commit()`: whether this caller commits. -/
def end_op (l : Log) : Except String (Bool × Log) :=
  let l := { l with outstanding := l.outstanding - 1 }
  if l.committing then .error "log.committing"
  else if l.outstanding = 0 then .ok (true, { l with committing := true })
  else .ok (false, l)

/-- `log_write(b)` of the buffer of block `b`: the block joins the transaction unless it is in it
already (absorption). -/
def log_write (l : Log) (b : Nat) : Except String Log :=
  if (l.lh.length : Int) ≥ LOGSIZE ∨ (l.lh.length : Int) ≥ l.size - 1 then
    .error "too big a transaction"
  else if l.outstanding < 1 then .error "log_write outside of trans"
  else .ok { l with lh := if b ∈ l.lh then l.lh else l.lh ++ [b] }

def finishCommit (l : Log) : Log := { l with lh := [], committing := false }

/-- The log as `initlog` leaves it, with `log.size = sb.nlog = LOGSIZE` as `mkfs` writes it. -/
def initLog : Log := ⟨LOGSIZE, 0, false, []⟩

inductive OpPhase where
  | outside | inside | committer
  deriving DecidableEq

structure LogSys (ι : Type) where
  log : Log
  phase : ι → OpPhase
  /-- The blocks each operation has logged in its current bracket. -/
  logged : ι → List Nat
  /-- The blocks of each bracket ended since the last commit. -/
  ended : List (List Nat)
  /-- Each commit so far: the transaction it wrote, and the brackets it closed. -/
  commits : List (List Nat × List (List Nat))

variable {ι : Type} [DecidableEq ι]

inductive LogStep (K : Nat) : LogSys ι → LogSys ι → Prop
  | begin {s : LogSys ι} {l : Log} (i : ι) : s.phase i = .outside → begin_op s.log = some l →
      LogStep K s { s with
        log := l, phase := Function.update s.phase i .inside,
        logged := Function.update s.logged i [] }
  | write {s : LogSys ι} {l : Log} (i : ι) (b : Nat) : s.phase i = .inside →
      (b ∈ s.logged i ∨ (s.logged i).toFinset.card < K) → log_write s.log b = .ok l →
      LogStep K s { s with log := l, logged := Function.update s.logged i (s.logged i ++ [b]) }
  | end_ {s : LogSys ι} {c : Bool} {l : Log} (i : ι) : s.phase i = .inside →
      end_op s.log = .ok (c, l) →
      LogStep K s { s with
        log := l, phase := Function.update s.phase i (if c then .committer else .outside),
        ended := s.logged i :: s.ended }
  | commit {s : LogSys ι} (i : ι) : s.phase i = .committer →
      LogStep K s { s with
        log := finishCommit s.log, phase := Function.update s.phase i .outside, ended := [],
        commits := (s.log.lh, s.ended) :: s.commits }

def initLogSys : LogSys ι := ⟨initLog, fun _ => .outside, fun _ => [], [], []⟩

def LogReachable (K : Nat) : LogSys ι → Prop :=
  Run.Reachable (LogStep K) (· = initLogSys)

section Count

variable [Fintype ι]

def LogSys.insideCount (s : LogSys ι) : Nat :=
  (Finset.univ.filter fun i => s.phase i = .inside).card

theorem filter_update_into {β : Type} [DecidableEq β] (f : ι → β) (i : ι) (p : β) :
    (Finset.univ.filter fun j => Function.update f i p j = p) =
      insert i (Finset.univ.filter fun j => f j = p) := by
  ext j
  by_cases hj : j = i
  · subst hj
    simp
  · simp [hj]

theorem filter_update_from {β : Type} [DecidableEq β] (f : ι → β) (i : ι) (p v : β)
    (hv : v ≠ p) :
    (Finset.univ.filter fun j => Function.update f i v j = p) =
      (Finset.univ.filter fun j => f j = p).erase i := by
  ext j
  by_cases hj : j = i
  · subst hj
    simp [hv]
  · simp [hj]

theorem card_update_into {β : Type} [DecidableEq β] (f : ι → β) (i : ι) (p v : β)
    (hi : f i ≠ p) (hv : v = p) :
    (Finset.univ.filter fun j => Function.update f i v j = p).card =
      (Finset.univ.filter fun j => f j = p).card + 1 := by
  subst hv
  rw [filter_update_into, Finset.card_insert_of_notMem (by simp [hi])]

theorem card_update_outside {β : Type} [DecidableEq β] (f : ι → β) (i : ι) (p v : β)
    (hi : f i ≠ p) (hv : v ≠ p) :
    (Finset.univ.filter fun j => Function.update f i v j = p).card =
      (Finset.univ.filter fun j => f j = p).card := by
  congr 1
  ext j
  by_cases hj : j = i
  · subst hj
    simp [hv, hi]
  · simp [hj]

theorem card_update_from {β : Type} [DecidableEq β] (f : ι → β) (i : ι) (p v : β)
    (hi : f i = p) (hv : v ≠ p) :
    (Finset.univ.filter fun j => Function.update f i v j = p).card + 1 =
      (Finset.univ.filter fun j => f j = p).card := by
  rw [filter_update_from f i p v hv, Finset.card_erase_add_one (by simp [hi])]

omit [DecidableEq ι] in
theorem insideCount_eq_zero {s : LogSys ι} (h : s.insideCount = 0) (i : ι) :
    s.phase i ≠ .inside := by
  intro hi
  have : i ∈ Finset.univ.filter fun j => s.phase j = .inside := by simp [hi]
  rw [LogSys.insideCount, Finset.card_eq_zero] at h
  rw [h] at this
  exact absurd this (Finset.notMem_empty i)

end Count

/-! ### What each function does -/

section Spec

variable {l l' : Log}

theorem begin_op_eq_some (h : begin_op l = some l') :
    l.committing = false ∧ (l.lh.length : Int) + (l.outstanding + 1) * MAXOPBLOCKS ≤ LOGSIZE ∧
      l' = { l with outstanding := l.outstanding + 1 } := by
  unfold begin_op at h
  split_ifs at h with hc hroom
  cases h
  exact ⟨by simpa using hc, not_lt.1 hroom, rfl⟩

theorem begin_op_committing (h : l.committing = true) : begin_op l = none := by
  unfold begin_op
  rw [if_pos h]

theorem end_op_eq_ok {c : Bool} (h : end_op l = .ok (c, l')) :
    l.committing = false ∧ c = decide (l.outstanding - 1 = 0) ∧
      l' = { l with outstanding := l.outstanding - 1, committing := c } := by
  unfold end_op at h
  dsimp only at h
  split_ifs at h with hc hz
  · cases h
    exact ⟨by simpa using hc, by simp [hz], rfl⟩
  · cases h
    simp only [Bool.not_eq_true] at hc
    exact ⟨hc, by simp [hz], by rw [← hc]⟩

theorem log_write_eq_ok {b : Nat} (h : log_write l b = .ok l') :
    (l.lh.length : Int) < LOGSIZE ∧ (l.lh.length : Int) < l.size - 1 ∧ 1 ≤ l.outstanding ∧
      l' = { l with lh := if b ∈ l.lh then l.lh else l.lh ++ [b] } := by
  unfold log_write at h
  by_cases hbig : (l.lh.length : Int) ≥ LOGSIZE ∨ (l.lh.length : Int) ≥ l.size - 1
  · rw [if_pos hbig] at h
    cases h
  by_cases hout : l.outstanding < 1
  · rw [if_neg hbig, if_pos hout] at h
    cases h
  rw [if_neg hbig, if_neg hout] at h
  cases h
  rw [not_or] at hbig
  exact ⟨not_le.1 hbig.1, not_le.1 hbig.2, not_lt.1 hout, rfl⟩

theorem log_write_ok {b : Nat} (hlen : l.lh.length + 1 < LOGSIZE) (hsize : l.size = LOGSIZE)
    (hout : 1 ≤ l.outstanding) :
    log_write l b = .ok { l with lh := if b ∈ l.lh then l.lh else l.lh ++ [b] } := by
  have hbig : ¬ ((l.lh.length : Int) ≥ LOGSIZE ∨ (l.lh.length : Int) ≥ l.size - 1) := by
    rw [hsize]
    omega
  unfold log_write
  rw [if_neg hbig, if_neg (not_lt.2 hout)]

theorem mem_log_write {b x : Nat} (h : log_write l b = .ok l') (hx : x ∈ l.lh) : x ∈ l'.lh := by
  rw [(log_write_eq_ok h).2.2.2]
  dsimp only
  split_ifs
  · exact hx
  · exact List.mem_append_left _ hx

end Spec

/-- The invariant of the group-commit protocol. -/
structure LogWf [Fintype ι] (s : LogSys ι) : Prop where
  outstanding_eq : s.log.outstanding = s.insideCount
  size_eq : s.log.size = LOGSIZE
  committing_iff : s.log.committing = true ↔ ∃ i, s.phase i = .committer
  committer_unique : ∀ i j, s.phase i = .committer → s.phase j = .committer → i = j
  committing_alone : s.log.committing = true → ∀ i, s.phase i ≠ .inside
  idle_empty : s.log.outstanding = 0 → s.log.committing = false → s.log.lh = []
  inside_logged : ∀ i, s.phase i = .inside → ∀ b ∈ s.logged i, b ∈ s.log.lh
  ended_logged : ∀ S ∈ s.ended, ∀ b ∈ S, b ∈ s.log.lh
  commits_whole : ∀ c ∈ s.commits, ∀ S ∈ c.2, ∀ b ∈ S, b ∈ c.1
  lh_nodup : s.log.lh.Nodup

namespace LogWf

variable [Fintype ι] {s : LogSys ι}

omit [DecidableEq ι] in
theorem init : LogWf (initLogSys : LogSys ι) where
  outstanding_eq := by simp [initLogSys, initLog, LogSys.insideCount]
  size_eq := rfl
  committing_iff := by simp [initLogSys, initLog]
  committer_unique := by simp [initLogSys]
  committing_alone := by simp [initLogSys, initLog]
  idle_empty := fun _ _ => rfl
  inside_logged := by simp [initLogSys]
  ended_logged := by simp [initLogSys]
  commits_whole := by simp [initLogSys]
  lh_nodup := List.nodup_nil

omit [DecidableEq ι] in
theorem outstanding_nonneg (h : LogWf s) : 0 ≤ s.log.outstanding := by
  rw [h.outstanding_eq]
  exact Int.natCast_nonneg _

omit [DecidableEq ι] in
theorem outstanding_zero (h : LogWf s) (hc : s.log.committing = true) : s.log.outstanding = 0 := by
  rw [h.outstanding_eq, LogSys.insideCount, Finset.card_eq_zero.2]
  · rfl
  · exact Finset.filter_eq_empty_iff.2 fun i _ => h.committing_alone hc i

theorem begin (h : LogWf s) {l : Log} {i : ι} (hp : s.phase i = .outside)
    (hb : begin_op s.log = some l) :
    LogWf { s with
      log := l, phase := Function.update s.phase i .inside,
      logged := Function.update s.logged i [] } := by
  obtain ⟨hnc, -, rfl⟩ := begin_op_eq_some hb
  have hnot : ∀ j, s.phase j ≠ .committer := fun j hj =>
    absurd (h.committing_iff.2 ⟨j, hj⟩) (by rw [hnc]; decide)
  have hphase : ∀ j, Function.update s.phase i .inside j = .committer → False := by
    intro j hj
    by_cases hji : j = i
    · rw [hji, Function.update_self] at hj
      cases hj
    · rw [Function.update_of_ne hji] at hj
      exact hnot j hj
  constructor
  · change s.log.outstanding + 1 = ((Finset.univ.filter fun j =>
      Function.update s.phase i .inside j = .inside).card : Int)
    rw [card_update_into _ _ _ _ (by rw [hp]; decide) rfl, h.outstanding_eq]
    push_cast
    rfl
  · exact h.size_eq
  · exact ⟨fun hc => absurd hc (by rw [hnc]; decide), fun ⟨j, hj⟩ => (hphase j hj).elim⟩
  · exact fun j _ hj _ => (hphase j hj).elim
  · exact fun hc => absurd hc (by change ¬ s.log.committing = true; rw [hnc]; decide)
  · intro hz _
    have := h.outstanding_nonneg
    change s.log.outstanding + 1 = 0 at hz
    omega
  · intro j hj b hb
    dsimp only at hj hb
    by_cases hji : j = i
    · rw [hji, Function.update_self] at hb
      cases hb
    · rw [Function.update_of_ne hji] at hj hb
      exact h.inside_logged j hj b hb
  · exact h.ended_logged
  · exact h.commits_whole
  · exact h.lh_nodup

theorem write (h : LogWf s) {l : Log} {i : ι} {b : Nat} (hp : s.phase i = .inside)
    (hw : log_write s.log b = .ok l) :
    LogWf { s with log := l, logged := Function.update s.logged i (s.logged i ++ [b]) } := by
  obtain ⟨-, -, hout, rfl⟩ := log_write_eq_ok hw
  have hb : b ∈ (if b ∈ s.log.lh then s.log.lh else s.log.lh ++ [b]) := by
    split_ifs with hin
    · exact hin
    · exact List.mem_append_right _ (List.mem_singleton_self b)
  constructor
  · exact h.outstanding_eq
  · exact h.size_eq
  · exact h.committing_iff
  · exact h.committer_unique
  · exact h.committing_alone
  · intro hz
    change s.log.outstanding = 0 at hz
    omega
  · intro j hj x hx
    dsimp only at hj hx
    by_cases hji : j = i
    · subst hji
      rw [Function.update_self, List.mem_append, List.mem_singleton] at hx
      rcases hx with hx | rfl
      · exact mem_log_write hw (h.inside_logged j hj x hx)
      · exact hb
    · rw [Function.update_of_ne hji] at hx
      exact mem_log_write hw (h.inside_logged j hj x hx)
  · exact fun S hS x hx => mem_log_write hw (h.ended_logged S hS x hx)
  · exact h.commits_whole
  · change (if b ∈ s.log.lh then s.log.lh else s.log.lh ++ [b]).Nodup
    split_ifs with hin
    · exact h.lh_nodup
    · exact h.lh_nodup.append (List.nodup_singleton b) (by simpa using hin)

theorem end_ (h : LogWf s) {c : Bool} {l : Log} {i : ι} (hp : s.phase i = .inside)
    (he : end_op s.log = .ok (c, l)) :
    LogWf { s with
      log := l, phase := Function.update s.phase i (if c then .committer else .outside),
      ended := s.logged i :: s.ended } := by
  obtain ⟨hnc, hcdef, rfl⟩ := end_op_eq_ok he
  have hne : (if c then OpPhase.committer else .outside) ≠ .inside := by
    cases c <;> decide
  have hcount := card_update_from s.phase i .inside _ hp hne
  have hold : ∀ j, s.phase j ≠ .committer := fun j hj =>
    absurd (h.committing_iff.2 ⟨j, hj⟩) (by rw [hnc]; decide)
  have hcomm : ∀ j, Function.update s.phase i (if c then .committer else .outside) j =
      .committer → j = i ∧ c = true := by
    intro j hj
    by_cases hji : j = i
    · rw [hji, Function.update_self] at hj
      cases c
      · cases hj
      · exact ⟨hji, rfl⟩
    · rw [Function.update_of_ne hji] at hj
      exact (hold j hj).elim
  have hout : s.log.outstanding - 1 = ((Finset.univ.filter fun j =>
      Function.update s.phase i (if c then .committer else .outside) j = .inside).card : Int) := by
    rw [h.outstanding_eq, LogSys.insideCount, ← hcount]
    push_cast
    ring
  constructor
  · exact hout
  · exact h.size_eq
  · constructor
    · intro hc
      refine ⟨i, ?_⟩
      change Function.update s.phase i (if c then .committer else .outside) i = .committer
      rw [Function.update_self]
      change c = true at hc
      rw [if_pos hc]
    · rintro ⟨j, hj⟩
      exact (hcomm j hj).2
  · intro j k hj hk
    rw [(hcomm j hj).1, (hcomm k hk).1]
  · intro hc j
    change c = true at hc
    have hzero : s.log.outstanding - 1 = 0 := by
      rw [hcdef] at hc
      exact of_decide_eq_true hc
    have hcard : (Finset.univ.filter fun j =>
        Function.update s.phase i (if c then .committer else .outside) j = .inside).card = 0 := by
      omega
    exact insideCount_eq_zero (s := { s with
      phase := Function.update s.phase i (if c then .committer else .outside) }) hcard j
  · intro hz hc
    change s.log.outstanding - 1 = 0 at hz
    change c = false at hc
    rw [hcdef, decide_eq_false_iff_not] at hc
    exact absurd hz hc
  · intro j hj
    change Function.update s.phase i (if c then .committer else .outside) j = .inside at hj
    have hji : j ≠ i := by
      rintro rfl
      rw [Function.update_self] at hj
      exact hne hj
    rw [Function.update_of_ne hji] at hj
    exact h.inside_logged j hj
  · intro S hS b hb
    rcases List.mem_cons.1 hS with rfl | hS
    · exact h.inside_logged i hp b hb
    · exact h.ended_logged S hS b hb
  · exact h.commits_whole
  · exact h.lh_nodup

theorem commit (h : LogWf s) {i : ι} (hp : s.phase i = .committer) :
    LogWf { s with
      log := finishCommit s.log, phase := Function.update s.phase i .outside, ended := [],
      commits := (s.log.lh, s.ended) :: s.commits } := by
  have hc : s.log.committing = true := h.committing_iff.2 ⟨i, hp⟩
  have hphase : ∀ j, Function.update s.phase i .outside j ≠ .committer ∧
      Function.update s.phase i .outside j ≠ .inside := by
    intro j
    by_cases hji : j = i
    · rw [hji, Function.update_self]
      exact ⟨by decide, by decide⟩
    · rw [Function.update_of_ne hji]
      exact ⟨fun hj => hji (h.committer_unique j i hj hp), h.committing_alone hc j⟩
  constructor
  · change s.log.outstanding = ((Finset.univ.filter fun j =>
      Function.update s.phase i .outside j = .inside).card : Int)
    rw [card_update_outside _ _ _ _ (by rw [hp]; decide) (by decide)]
    exact h.outstanding_eq
  · exact h.size_eq
  · exact ⟨fun hc' => (Bool.false_ne_true hc').elim, fun ⟨j, hj⟩ => absurd hj (hphase j).1⟩
  · exact fun j _ hj _ => absurd hj (hphase j).1
  · exact fun hc' => (Bool.false_ne_true hc').elim
  · exact fun _ _ => rfl
  · exact fun j hj => absurd hj (hphase j).2
  · exact fun S hS => absurd hS List.not_mem_nil
  · intro c hc' S hS b hb
    rcases List.mem_cons.1 hc' with rfl | hc'
    · exact h.ended_logged S hS b hb
    · exact h.commits_whole c hc' S hS b hb
  · exact List.nodup_nil

theorem step {K : Nat} {s' : LogSys ι} (h : LogWf s) (hs : LogStep K s s') : LogWf s' := by
  cases hs with
  | begin i hp hb => exact h.begin hp hb
  | write i b hp _ hw => exact h.write hp hw
  | end_ i hp he => exact h.end_ hp he
  | commit i hp => exact h.commit hp

end LogWf

theorem reachable_logWf [Fintype ι] {K : Nat} {s : LogSys ι} (h : LogReachable K s) : LogWf s :=
  Run.reachable_invariant (fun _ h₀ => h₀ ▸ LogWf.init) (fun _ _ hx hs => hx.step hs) h

/-- Group commit: `outstanding` counts the operations inside a bracket; `committing` is set
exactly while some `end_op` runs `commit()`, and then no operation is inside a bracket (so no
`log_write` runs) and no `begin_op` gets in; and every commit holds every block logged in each
bracket that it closes. -/
theorem group_commit_brackets [Fintype ι] {K : Nat} {s : LogSys ι} (h : LogReachable K s) :
    s.log.outstanding = s.insideCount ∧
      (s.log.committing = true ↔ ∃ i, s.phase i = .committer) ∧
      (s.log.committing = true →
        s.log.outstanding = 0 ∧ (∀ i, s.phase i ≠ .inside) ∧ begin_op s.log = none) ∧
      ∀ c ∈ s.commits, ∀ S ∈ c.2, ∀ b ∈ S, b ∈ c.1 := by
  have hw := reachable_logWf h
  refine ⟨hw.outstanding_eq, hw.committing_iff, fun hc => ?_, hw.commits_whole⟩
  exact ⟨hw.outstanding_zero hc, hw.committing_alone hc, begin_op_committing hc⟩

theorem group_commit_brackets_init :
    LogReachable MAXOPBLOCKS (initLogSys : LogSys (Fin 2)) ∧
      (initLogSys : LogSys (Fin 2)).log.outstanding = (initLogSys : LogSys (Fin 2)).insideCount ∧
      ((initLogSys : LogSys (Fin 2)).log.committing = true ↔
        ∃ i, (initLogSys : LogSys (Fin 2)).phase i = .committer) ∧
      ((initLogSys : LogSys (Fin 2)).log.committing = true →
        (initLogSys : LogSys (Fin 2)).log.outstanding = 0 ∧
          (∀ i, (initLogSys : LogSys (Fin 2)).phase i ≠ .inside) ∧
          begin_op (initLogSys : LogSys (Fin 2)).log = none) ∧
      ∀ c ∈ (initLogSys : LogSys (Fin 2)).commits, ∀ S ∈ c.2, ∀ b ∈ S, b ∈ c.1 := by
  have h : LogReachable MAXOPBLOCKS (initLogSys : LogSys (Fin 2)) := Run.Reachable.of_init rfl
  exact ⟨h, group_commit_brackets h⟩

end Xv6
