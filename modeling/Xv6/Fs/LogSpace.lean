import Xv6.Fs.LogOp

set_option autoImplicit false

/-!
# Room in the log: when `log_write` can panic

`begin_op` admits an operation while `lh.n + (outstanding + 1) * MAXOPBLOCKS ≤ LOGSIZE`, so
each operation inside a bracket has `MAXOPBLOCKS` blocks reserved. `log_write` panics once
`lh.n ≥ log.size - 1 = LOGSIZE - 1`, a test it makes before it looks for the block in the
transaction. The reservation is therefore one block short: operations that log at most
`MAXOPBLOCKS - 1` distinct blocks each never make `log_write` panic (`log_write_never_panics`),
while three that log `MAXOPBLOCKS` distinct blocks each make the thirtieth `log_write` panic
(`log_write_panics_at_maxopblocks`).

The invariant `LogRoom` bounds `lh.n`, plus what the operations inside still have reserved,
plus `outstanding`, by `LOGSIZE`; with a single operation inside, the bound has one more block
to spare.
-/
namespace Xv6

variable {ι : Type} [DecidableEq ι] [Fintype ι]

/-- The blocks that the operations inside a bracket may still add to the transaction, each
having `K` in all. -/
def reserveOf (K : Nat) (phase : ι → OpPhase) (logged : ι → List Nat) : Nat :=
  ∑ i ∈ Finset.univ.filter (fun i => phase i = .inside), (K - (logged i).toFinset.card)

structure LogRoom (K : Nat) (s : LogSys ι) : Prop where
  wf : LogWf s
  within : ∀ i, s.phase i = .inside → (s.logged i).toFinset.card ≤ K
  room : s.log.lh.length + reserveOf K s.phase s.logged + s.insideCount ≤ LOGSIZE
  room_one : s.insideCount = 1 → s.log.lh.length + reserveOf K s.phase s.logged + 2 ≤ LOGSIZE

/-! ### How the reserve changes -/

section Reserve

variable (K : Nat) (phase : ι → OpPhase) (logged : ι → List Nat) (i : ι)

theorem toFinset_card_snoc (l : List Nat) (b : Nat) :
    (l ++ [b]).toFinset.card = if b ∈ l then l.toFinset.card else l.toFinset.card + 1 := by
  rw [List.toFinset_append, List.toFinset_cons, List.toFinset_nil, insert_empty_eq,
    Finset.union_singleton]
  split_ifs with hb
  · rw [Finset.insert_eq_of_mem (List.mem_toFinset.2 hb)]
  · exact Finset.card_insert_of_notMem (fun h => hb (List.mem_toFinset.1 h))

omit [DecidableEq ι] in
theorem reserve_le :
    reserveOf K phase logged ≤ (Finset.univ.filter fun j => phase j = .inside).card * K := by
  unfold reserveOf
  rw [← smul_eq_mul]
  exact Finset.sum_le_card_nsmul _ _ _ fun j _ => Nat.sub_le _ _

omit [DecidableEq ι] in
theorem reserve_eq_zero (h : ∀ j, phase j ≠ .inside) : reserveOf K phase logged = 0 := by
  unfold reserveOf
  rw [Finset.sum_eq_zero_iff]
  exact fun j hj => absurd (Finset.mem_filter.1 hj).2 (h j)

theorem reserve_begin (hp : phase i = .outside) :
    reserveOf K (Function.update phase i .inside) (Function.update logged i []) =
      reserveOf K phase logged + K := by
  unfold reserveOf
  rw [filter_update_into, Finset.sum_insert (by simp [hp]), Function.update_self, add_comm]
  congr 1
  refine Finset.sum_congr rfl fun j hj => ?_
  have hji : j ≠ i := fun e => by rw [e] at hj; simp [hp] at hj
  rw [Function.update_of_ne hji]

theorem reserve_write (hp : phase i = .inside) (l : List Nat)
    (hl : l.toFinset.card ≤ K) (hold : (logged i).toFinset.card ≤ l.toFinset.card) :
    reserveOf K phase (Function.update logged i l) + l.toFinset.card =
      reserveOf K phase logged + (logged i).toFinset.card := by
  have hmem : i ∈ Finset.univ.filter fun j => phase j = .inside := by simp [hp]
  unfold reserveOf
  rw [← Finset.add_sum_erase _ _ hmem, ← Finset.add_sum_erase _ _ hmem, Function.update_self]
  have hrest : ∑ j ∈ (Finset.univ.filter fun j => phase j = .inside).erase i,
      (K - (Function.update logged i l j).toFinset.card) =
      ∑ j ∈ (Finset.univ.filter fun j => phase j = .inside).erase i,
        (K - (logged j).toFinset.card) :=
    Finset.sum_congr rfl fun j hj => by rw [Function.update_of_ne (Finset.ne_of_mem_erase hj)]
  rw [hrest]
  omega

theorem reserve_end (hp : phase i = .inside) (v : OpPhase) (hv : v ≠ .inside) :
    reserveOf K (Function.update phase i v) logged + (K - (logged i).toFinset.card) =
      reserveOf K phase logged := by
  have hmem : i ∈ Finset.univ.filter fun j => phase j = .inside := by simp [hp]
  unfold reserveOf
  rw [filter_update_from phase i _ v hv, Finset.sum_erase_add _ _ hmem]

end Reserve

namespace LogRoom

variable {K : Nat} {s : LogSys ι}

omit [DecidableEq ι] in
theorem init : LogRoom K (initLogSys : LogSys ι) where
  wf := LogWf.init
  within := by simp [initLogSys]
  room := by
    rw [reserve_eq_zero K _ _ (by simp [initLogSys])]
    simp [initLogSys, initLog, LogSys.insideCount, LOGSIZE, MAXOPBLOCKS]
  room_one := by
    intro h
    simp [initLogSys, LogSys.insideCount] at h

omit [DecidableEq ι] in
theorem lh_lt (h : LogRoom K s) {i : ι} (hi : s.phase i = .inside) :
    s.log.lh.length + 1 < LOGSIZE := by
  have hpos : 0 < s.insideCount := Finset.card_pos.2 ⟨i, by simp [hi]⟩
  have hroom := h.room
  by_cases h1 : s.insideCount = 1
  · have := h.room_one h1
    omega
  · omega

theorem begin (hK : K + 1 ≤ MAXOPBLOCKS) (h : LogRoom K s) {l : Log} {i : ι}
    (hp : s.phase i = .outside) (hb : begin_op s.log = some l) :
    LogRoom K { s with
      log := l, phase := Function.update s.phase i .inside,
      logged := Function.update s.logged i [] } := by
  have hwf := h.wf.begin hp hb
  obtain ⟨hnc, hadmit, rfl⟩ := begin_op_eq_some hb
  have hcount : (Finset.univ.filter fun j => Function.update s.phase i .inside j = .inside).card =
      s.insideCount + 1 :=
    card_update_into _ _ _ _ (by rw [hp]; decide) rfl
  have hres := reserve_begin K s.phase s.logged i hp
  have hle := reserve_le K s.phase s.logged
  -- `begin_op` admitted the operation: `lh.n + (outstanding + 1) * MAXOPBLOCKS ≤ LOGSIZE`
  have hadmit' : s.log.lh.length + (s.insideCount + 1) * MAXOPBLOCKS ≤ LOGSIZE := by
    rw [h.wf.outstanding_eq] at hadmit
    exact_mod_cast hadmit
  refine ⟨hwf, ?_, ?_, ?_⟩
  · intro j hj
    by_cases hji : j = i
    · subst hji
      simp
    · simp only [Function.update_of_ne hji] at hj ⊢
      exact h.within j hj
  · simp only [LogSys.insideCount]
    rw [hres, hcount]
    have hmul := Nat.mul_le_mul_left (s.insideCount + 1) hK
    have hsplit : (s.insideCount + 1) * (K + 1) = s.insideCount * K + K + (s.insideCount + 1) := by
      ring
    change reserveOf K s.phase s.logged ≤ s.insideCount * K at hle
    omega
  · simp only [LogSys.insideCount]
    rw [hres, hcount]
    intro h1
    have hz : s.insideCount = 0 := by omega
    have hlh : s.log.lh = [] :=
      h.wf.idle_empty (by rw [h.wf.outstanding_eq, hz]; rfl) hnc
    rw [hlh, reserve_eq_zero K _ _ (insideCount_eq_zero hz)]
    simp only [List.length_nil, LOGSIZE, MAXOPBLOCKS] at hK ⊢
    omega

theorem write (h : LogRoom K s) {l : Log} {i : ι} {b : Nat} (hp : s.phase i = .inside)
    (hK : b ∈ s.logged i ∨ (s.logged i).toFinset.card < K) (hw : log_write s.log b = .ok l) :
    LogRoom K { s with log := l, logged := Function.update s.logged i (s.logged i ++ [b]) } := by
  have hwf := h.wf.write hp hw
  obtain ⟨-, -, -, rfl⟩ := log_write_eq_ok hw
  have hcard := toFinset_card_snoc (s.logged i) b
  have hnew : (s.logged i ++ [b]).toFinset.card ≤ K := by
    rw [hcard]
    split_ifs with hb
    · exact h.within i hp
    · exact hK.resolve_left hb
  have hres := reserve_write K s.phase s.logged i hp (s.logged i ++ [b]) hnew
    (by rw [hcard]; split_ifs <;> omega)
  have hgrow : (if b ∈ s.log.lh then s.log.lh else s.log.lh ++ [b]).length +
      (s.logged i).toFinset.card ≤ s.log.lh.length + (s.logged i ++ [b]).toFinset.card := by
    rw [hcard]
    by_cases hb : b ∈ s.logged i
    · rw [if_pos (h.wf.inside_logged i hp b hb), if_pos hb]
    · rw [if_neg hb]
      split_ifs
      · omega
      · rw [List.length_append, List.length_singleton]
        omega
  have hroom := h.room
  have hroom_one := h.room_one
  refine ⟨hwf, ?_, ?_, ?_⟩
  · intro j hj
    by_cases hji : j = i
    · subst hji
      simpa using hnew
    · simp only [Function.update_of_ne hji]
      exact h.within j hj
  · change _ + _ + s.insideCount ≤ LOGSIZE
    dsimp only
    omega
  · change s.insideCount = 1 → _
    dsimp only
    omega

theorem end_ (h : LogRoom K s) {c : Bool} {l : Log} {i : ι} (hp : s.phase i = .inside)
    (he : end_op s.log = .ok (c, l)) :
    LogRoom K { s with
      log := l, phase := Function.update s.phase i (if c then .committer else .outside),
      ended := s.logged i :: s.ended } := by
  have hwf := h.wf.end_ hp he
  obtain ⟨-, -, rfl⟩ := end_op_eq_ok he
  have hne : (if c then OpPhase.committer else .outside) ≠ .inside := by
    cases c <;> decide
  have hcount := card_update_from s.phase i .inside _ hp hne
  have hres := reserve_end K s.phase s.logged i hp _ hne
  have hroom := h.room
  have hroom_one := h.room_one
  refine ⟨hwf, ?_, ?_, ?_⟩
  · intro j hj
    have hji : j ≠ i := by
      rintro rfl
      simp only [Function.update_self] at hj
      exact hne hj
    simp only [Function.update_of_ne hji] at hj
    exact h.within j hj
  · simp only [LogSys.insideCount] at hroom ⊢
    omega
  · simp only [LogSys.insideCount] at hroom hroom_one ⊢
    omega

theorem commit (h : LogRoom K s) {i : ι} (hp : s.phase i = .committer) :
    LogRoom K { s with
      log := finishCommit s.log, phase := Function.update s.phase i .outside, ended := [],
      commits := (s.log.lh, s.ended) :: s.commits } := by
  have hwf := h.wf.commit hp
  have hnone : ∀ j, Function.update s.phase i .outside j ≠ .inside := by
    have hc : s.log.committing = true := h.wf.committing_iff.2 ⟨i, hp⟩
    intro j
    by_cases hji : j = i
    · rw [hji, Function.update_self]
      decide
    · rw [Function.update_of_ne hji]
      exact h.wf.committing_alone hc j
  have hzero : (Finset.univ.filter fun j => Function.update s.phase i .outside j = .inside).card
      = 0 :=
    Finset.card_eq_zero.2 (Finset.filter_eq_empty_iff.2 fun j _ => hnone j)
  refine ⟨hwf, fun j hj => absurd hj (hnone j), ?_, ?_⟩
  · simp only [LogSys.insideCount]
    rw [hzero, reserve_eq_zero K _ _ hnone]
    simp [finishCommit, LOGSIZE, MAXOPBLOCKS]
  · simp only [LogSys.insideCount]
    rw [hzero]
    intro h1
    cases h1

theorem step (hK : K + 1 ≤ MAXOPBLOCKS) {s' : LogSys ι} (h : LogRoom K s)
    (hs : LogStep K s s') : LogRoom K s' := by
  cases hs with
  | begin i hp hb => exact h.begin hK hp hb
  | write i b hp hK' hw => exact h.write hp hK' hw
  | end_ i hp he => exact h.end_ hp he
  | commit i hp => exact h.commit hp

end LogRoom

theorem reachable_logRoom {K : Nat} (hK : K + 1 ≤ MAXOPBLOCKS) {s : LogSys ι}
    (h : LogReachable K s) : LogRoom K s :=
  Run.reachable_invariant (fun _ h₀ => h₀ ▸ LogRoom.init) (fun _ _ hx hs => hx.step hK hs) h

theorem log_write_never_panics {K : Nat} (hK : K + 1 ≤ MAXOPBLOCKS) {s : LogSys ι}
    (h : LogReachable K s) {i : ι} (hi : s.phase i = .inside) (b : Nat) :
    log_write s.log b = .ok { s.log with lh := if b ∈ s.log.lh then s.log.lh else s.log.lh ++ [b] }
      ∧ s.log.lh.Nodup := by
  have hr := reachable_logRoom hK h
  have hout : 1 ≤ s.log.outstanding := by
    rw [hr.wf.outstanding_eq]
    exact_mod_cast Finset.card_pos.2 ⟨i, by simp [hi]⟩
  exact ⟨log_write_ok (hr.lh_lt hi) hr.wf.size_eq hout, hr.wf.lh_nodup⟩

/-! ### Operations of `MAXOPBLOCKS` distinct blocks -/

omit [Fintype ι] in
theorem log_writes_run {K : Nat} {i : ι} :
    ∀ (bs : List Nat) (s : LogSys ι), s.phase i = .inside → s.log.size = LOGSIZE →
      1 ≤ s.log.outstanding → (s.log.lh ++ bs).Nodup → (s.logged i ++ bs).Nodup →
      s.log.lh.length + bs.length + 1 ≤ LOGSIZE → (s.logged i).length + bs.length ≤ K →
      Relation.ReflTransGen (LogStep K) s { s with
        log := ⟨s.log.size, s.log.outstanding, s.log.committing, s.log.lh ++ bs⟩,
        logged := Function.update s.logged i (s.logged i ++ bs) }
  | [], s, _, _, _, _, _, _, _ => by
    simp only [List.append_nil, Function.update_eq_self]
    exact .refl
  | b :: bs, s, hp, hsize, hout, hlh, hlogged, hlen, hK => by
    have hb : b ∉ s.log.lh := fun hb => (List.nodup_append.1 hlh).2.2 b hb b
      List.mem_cons_self rfl
    have hcard : (s.logged i).toFinset.card = (s.logged i).length :=
      List.toFinset_card_of_nodup (List.nodup_append.1 hlogged).1
    have hw := log_write_ok (b := b) (by simp only [List.length_cons] at hlen; omega) hsize hout
    rw [if_neg hb] at hw
    have hstep := LogStep.write (K := K) i b hp
      (Or.inr (by simp only [List.length_cons] at hK; omega)) hw
    have hrest := log_writes_run (K := K) bs { s with
        log := ⟨s.log.size, s.log.outstanding, s.log.committing, s.log.lh ++ [b]⟩,
        logged := Function.update s.logged i (s.logged i ++ [b]) } hp hsize hout
      (by simpa only [List.append_assoc, List.singleton_append] using hlh)
      (by simpa only [Function.update_self, List.append_assoc, List.singleton_append]
        using hlogged)
      (by dsimp only
          rw [List.length_append, List.length_singleton]
          rw [List.length_cons] at hlen
          omega)
      (by dsimp only
          rw [Function.update_self, List.length_append, List.length_singleton]
          rw [List.length_cons] at hK
          omega)
    refine .head hstep ?_
    simpa only [Function.update_self, Function.update_idem, List.append_assoc,
      List.singleton_append] using hrest

theorem log_write_panics_at_maxopblocks :
    ∃ s : LogSys (Fin 3), LogReachable MAXOPBLOCKS s ∧ ∃ i b, s.phase i = .inside ∧
      (s.logged i).toFinset.card < MAXOPBLOCKS ∧
      log_write s.log b = .error "too big a transaction" := by
  have h1 := LogStep.begin (K := MAXOPBLOCKS) (s := (initLogSys : LogSys (Fin 3))) 0 rfl rfl
  have hopen := ((Relation.ReflTransGen.single h1).tail (LogStep.begin 1 rfl rfl)).tail
    (LogStep.begin 2 rfl rfl)
  refine ⟨_, ⟨_, rfl, (hopen.trans
      (log_writes_run (i := 0) (List.range 10) _ ?_ rfl ?_ ?_ ?_ ?_ ?_)).trans
    ((log_writes_run (i := 1) (List.range' 10 10) _ ?_ rfl ?_ ?_ ?_ ?_ ?_).trans
      (log_writes_run (i := 2) (List.range' 20 9) _ ?_ rfl ?_ ?_ ?_ ?_ ?_))⟩,
    2, 29, ?_, ?_, by unfold log_write; rw [if_pos (by decide)]⟩
  all_goals decide

end Xv6
