import Xv6.Param
import Xv6.Lib.Crash

set_option autoImplicit false

/-!
# Crash atomicity of the log: `log.c`

Each `bwrite` ends in one `iderw` of a dirty buffer, which is one atomic write to the disk, and
a crash stops the kernel between two of them. `commit` and `recover_from_log` are therefore
programs of disk writes (`Xv6.Lib.Crash`). The buffer cache dies with the kernel, so
`recover_from_log` reads the disk; `commit` reads the transaction's blocks from the cache, where
`B_DIRTY` keeps them, as `cache`.

`commit_crash_atomic`: a crash anywhere in `commit`, any number of crashes in
`recover_from_log`, then one whole `recover_from_log`, leave every block outside the log either
as it was before the commit or as the transaction wrote it, the same choice for all of them,
and a header with `n = 0`.
-/
namespace Xv6

variable {α : Type*}

/-- A disk of blocks of type `α`. The header block at `log.start` is kept apart, as the list
that `write_head` stores there and `read_head` reads back: `n` and `block[0..n-1]`. -/
structure Disk (α : Type*) where
  head : List Nat
  data : Nat → α

inductive DiskWrite (α : Type*) where
  | head (lh : List Nat)
  | block (b : Nat) (v : α)

def Disk.write (d : Disk α) : DiskWrite α → Disk α
  | .head lh => { d with head := lh }
  | .block b v => { d with data := Function.update d.data b v }

/-- `write_log()` from slot `tail` on: block `b` of the transaction, as the cache holds it, goes
to the log block `log.start + tail + 1`. -/
def write_log (start : Nat) (cache : Nat → α) : Nat → List Nat → List (Disk α → DiskWrite α)
  | _, [] => []
  | tail, b :: bs =>
    (fun _ => .block (start + tail + 1) (cache b)) :: write_log start cache (tail + 1) bs

def write_head (lh : List Nat) : Disk α → DiskWrite α := fun _ => .head lh

/-- `install_trans()` from slot `tail` on: the log block `log.start + tail + 1`, as the disk
holds it when the loop gets there, goes to its home block. -/
def install_trans (start : Nat) : Nat → List Nat → List (Disk α → DiskWrite α)
  | _, [] => []
  | tail, b :: bs =>
    (fun d => .block b (d.data (start + tail + 1))) :: install_trans start (tail + 1) bs

/-- The disk writes of `commit()` with the in-memory header `lh`. -/
def commit (start : Nat) (lh : List Nat) (cache : Nat → α) : List (Disk α → DiskWrite α) :=
  if lh.length > 0 then
    write_log start cache 0 lh ++ [write_head lh] ++ install_trans start 0 lh ++ [write_head []]
  else []

/-- The disk writes of `recover_from_log()` on the disk `d`, whose header `read_head` reads. -/
def recover_from_log (start : Nat) (d : Disk α) : List (Disk α → DiskWrite α) :=
  install_trans start 0 d.head ++ [write_head []]

/-- Recoveries that crash after `k` of their writes, one for each `k` of `ks`. -/
def recoverCrashing (start : Nat) : Disk α → List Nat → Disk α
  | d, [] => d
  | d, k :: ks => recoverCrashing start (Crash.crash Disk.write d (recover_from_log start d) k) ks

/-- A crash `k` writes into `commit`, crashed recoveries, and one whole recovery. -/
def afterCrash (start : Nat) (lh : List Nat) (cache : Nat → α) (d₀ : Disk α) (k : Nat)
    (ks : List Nat) : Disk α :=
  let d := recoverCrashing start (Crash.crash Disk.write d₀ (commit start lh cache) k) ks
  Crash.run Disk.write d (recover_from_log start d)

@[simp] theorem Disk.write_head_head (d : Disk α) (lh : List Nat) :
    (d.write (.head lh)).head = lh := rfl

@[simp] theorem Disk.write_head_data (d : Disk α) (lh : List Nat) :
    (d.write (.head lh)).data = d.data := rfl

@[simp] theorem Disk.write_block_head (d : Disk α) (b : Nat) (v : α) :
    (d.write (.block b v)).head = d.head := rfl

theorem Disk.write_block_data (d : Disk α) (b : Nat) (v : α) (x : Nat) :
    (d.write (.block b v)).data x = if x = b then v else d.data x :=
  Function.update_apply d.data b v x

theorem write_log_length (start : Nat) (cache : Nat → α) (tail : Nat) (bs : List Nat) :
    (write_log start cache tail bs).length = bs.length := by
  induction bs generalizing tail with
  | nil => rfl
  | cons b bs ih => exact congrArg (· + 1) (ih (tail + 1))

theorem install_trans_length (start tail : Nat) (bs : List Nat) :
    (install_trans (α := α) start tail bs).length = bs.length := by
  induction bs generalizing tail with
  | nil => rfl
  | cons b bs ih => exact congrArg (· + 1) (ih (tail + 1))

theorem write_log_frame (start : Nat) (cache : Nat → α) (bs : List Nat) :
    ∀ (tail : Nat) (d : Disk α) (k : Nat),
      (Crash.crash Disk.write d (write_log start cache tail bs) k).head = d.head ∧
      ∀ x, x ≤ start + tail ∨ start + tail + bs.length < x →
        (Crash.crash Disk.write d (write_log start cache tail bs) k).data x = d.data x := by
  induction bs with
  | nil => intro tail d k; simp [write_log]
  | cons b bs ih =>
    intro tail d k
    cases k with
    | zero => simp
    | succ k =>
      obtain ⟨hhead, hdata⟩ := ih (tail + 1) (d.write (.block (start + tail + 1) (cache b))) k
      refine ⟨hhead, fun x hx => ?_⟩
      simp only [List.length_cons] at hx
      rw [write_log, Crash.crash_cons_succ, hdata x (by omega), Disk.write_block_data,
        if_neg (by omega)]

/-- The log blocks from slot `tail` on hold the cached copies of `bs`. -/
def LogHolds (start : Nat) (cache : Nat → α) (d : Disk α) : Nat → List Nat → Prop
  | _, [] => True
  | tail, b :: bs => d.data (start + tail + 1) = cache b ∧ LogHolds start cache d (tail + 1) bs

theorem write_log_holds (start : Nat) (cache : Nat → α) (bs : List Nat) :
    ∀ (tail : Nat) (d : Disk α),
      LogHolds start cache (Crash.run Disk.write d (write_log start cache tail bs)) tail bs := by
  induction bs with
  | nil => intro tail d; trivial
  | cons b bs ih =>
    intro tail d
    refine ⟨?_, ih (tail + 1) _⟩
    have hrest := (write_log_frame start cache bs (tail + 1)
      (d.write (.block (start + tail + 1) (cache b))) bs.length).2 (start + tail + 1) (by omega)
    rw [Crash.crash_of_length_le (le_of_eq (write_log_length start cache _ bs))] at hrest
    rw [write_log, Crash.run_cons, hrest, Disk.write_block_data, if_pos rfl]

theorem LogHolds.get {start : Nat} {cache : Nat → α} {d : Disk α} :
    ∀ {bs : List Nat} {tail j b : Nat} {rest : List Nat},
      LogHolds start cache d tail bs → bs.drop j = b :: rest →
        d.data (start + (tail + j) + 1) = cache b
  | [], _, j, _, _, _, h => by rw [List.drop_nil] at h; cases h
  | _ :: _, _, 0, _, _, hl, h => by
    rw [List.drop_zero, List.cons.injEq] at h
    rw [Nat.add_zero, ← h.1]
    exact hl.1
  | _ :: _, tail, j + 1, _, _, hl, h => by
    rw [List.drop_succ_cons] at h
    have := LogHolds.get hl.2 h
    rwa [show tail + 1 + j = tail + (j + 1) by omega] at this

theorem LogHolds.congr {start : Nat} {cache : Nat → α} {d d' : Disk α} :
    ∀ {bs : List Nat} {tail : Nat}, LogHolds start cache d tail bs →
      (∀ x, start + tail < x → x ≤ start + tail + bs.length → d'.data x = d.data x) →
        LogHolds start cache d' tail bs
  | [], _, _, _ => trivial
  | _ :: bs, tail, hl, hx => by
    refine ⟨by rw [hx _ (by omega) (by simp only [List.length_cons]; omega)]; exact hl.1, ?_⟩
    exact LogHolds.congr hl.2 (fun x h₁ h₂ => hx x (by omega) (by simp only [List.length_cons]; omega))

section Atomic

variable (start size : Nat) (lh : List Nat) (cache : Nat → α) (d₀ : Disk α)

/-- A block outside the log: below its header, or past its `size - 1` blocks. -/
def OutsideLog (b : Nat) : Prop := b < start ∨ start + size ≤ b

instance (b : Nat) : Decidable (OutsideLog start size b) := inferInstanceAs (Decidable (_ ∨ _))

/-- The disk between the two `write_head`s of the commit: the header names the transaction,
the log holds it, and each block outside the log is as it was or as the transaction wrote it. -/
structure Committed (d : Disk α) : Prop where
  head_eq : d.head = lh
  log : LogHolds start cache d 0 lh
  home : ∀ b, OutsideLog start size b → d.data b = d₀.data b ∨ (b ∈ lh ∧ d.data b = cache b)

/-- What a crash can leave: the disk before the commit point, between it and the end, or
after the transaction is installed and the log cleared. -/
inductive Phase (d : Disk α) : Prop where
  | old : d.head = [] → (∀ b, OutsideLog start size b → d.data b = d₀.data b) → Phase d
  | committed : Committed start size lh cache d₀ d → Phase d
  | new : d.head = [] →
      (∀ b, OutsideLog start size b → d.data b = if b ∈ lh then cache b else d₀.data b) →
      Phase d

variable {start size lh cache d₀}

theorem Committed.install_one {d : Disk α} (hc : Committed start size lh cache d₀ d)
    (hout : ∀ b ∈ lh, OutsideLog start size b) (hfit : lh.length < size) {tail b : Nat}
    {bs : List Nat} (hdrop : lh.drop tail = b :: bs) :
    d.data (start + tail + 1) = cache b ∧
      Committed start size lh cache d₀ (d.write (.block b (d.data (start + tail + 1)))) := by
  have hb : b ∈ lh := List.mem_of_mem_drop (hdrop ▸ List.mem_cons_self)
  have hlog : d.data (start + tail + 1) = cache b := by
    have := hc.log.get hdrop
    rwa [Nat.zero_add] at this
  refine ⟨hlog, ⟨hc.head_eq, hc.log.congr fun x h₁ h₂ => ?_, fun x hx => ?_⟩⟩
  · rw [Disk.write_block_data, if_neg]
    rintro rfl
    rcases hout x hb with h | h <;> omega
  · rw [Disk.write_block_data]
    split_ifs with hxb
    · exact Or.inr ⟨hxb ▸ hb, hxb ▸ hlog⟩
    · exact hc.home x hx

theorem Committed.install_crash (hout : ∀ b ∈ lh, OutsideLog start size b)
    (hfit : lh.length < size) (bs : List Nat) :
    ∀ (tail : Nat) (d : Disk α) (k : Nat), Committed start size lh cache d₀ d →
      lh.drop tail = bs →
        Committed start size lh cache d₀ (Crash.crash Disk.write d (install_trans start tail bs) k) := by
  induction bs with
  | nil => intro tail d k hc _; rwa [install_trans, Crash.crash_nil]
  | cons b bs ih =>
    intro tail d k hc hdrop
    cases k with
    | zero => rwa [Crash.crash_zero]
    | succ k =>
      rw [install_trans, Crash.crash_cons_succ]
      refine ih (tail + 1) _ k (hc.install_one hout hfit hdrop).2 ?_
      rw [← List.drop_drop, hdrop, List.drop_one, List.tail_cons]

theorem Committed.install_run (hout : ∀ b ∈ lh, OutsideLog start size b)
    (hfit : lh.length < size) (bs : List Nat) :
    ∀ (tail : Nat) (d : Disk α), Committed start size lh cache d₀ d → lh.drop tail = bs →
      ∀ x, d.data x = cache x ∨ x ∈ bs →
        (Crash.run Disk.write d (install_trans start tail bs)).data x = cache x := by
  induction bs with
  | nil =>
    intro tail d _ _ x hx
    rcases hx with hx | hx
    · exact hx
    · cases hx
  | cons b bs ih =>
    intro tail d hc hdrop x hx
    obtain ⟨hlog, hc'⟩ := hc.install_one hout hfit hdrop
    rw [install_trans, Crash.run_cons]
    refine ih (tail + 1) _ hc' (by rw [← List.drop_drop, hdrop, List.drop_one, List.tail_cons])
      x ?_
    rw [Disk.write_block_data]
    by_cases hxb : x = b
    · rw [if_pos hxb, hlog, hxb]
      exact Or.inl rfl
    · rw [if_neg hxb]
      rcases hx with hx | hx
      · exact Or.inl hx
      · exact Or.inr (List.mem_of_ne_of_mem hxb hx)

theorem Committed.new_of_install {d : Disk α} (hc : Committed start size lh cache d₀ d)
    (hout : ∀ b ∈ lh, OutsideLog start size b) (hfit : lh.length < size) :
    Phase start size lh cache d₀
      ((Crash.run Disk.write d (install_trans start 0 lh)).write (.head [])) := by
  refine Phase.new rfl fun b hb => ?_
  rw [Disk.write_head_data]
  by_cases hbl : b ∈ lh
  · rw [if_pos hbl]
    exact hc.install_run hout hfit lh 0 d (List.drop_zero) b (Or.inr hbl)
  · rw [if_neg hbl]
    have hrun := hc.install_crash hout hfit lh 0 d lh.length (List.drop_zero)
    rw [Crash.crash_of_length_le (le_of_eq (install_trans_length _ _ _))] at hrun
    rcases hrun.home b hb with h | h
    · exact h
    · exact absurd h.1 hbl

theorem commit_crash_phase (hd : d₀.head = []) (hout : ∀ b ∈ lh, OutsideLog start size b)
    (hfit : lh.length < size) (k : Nat) :
    Phase start size lh cache d₀ (Crash.crash Disk.write d₀ (commit start lh cache) k) := by
  unfold commit
  split_ifs with hpos
  swap
  · rw [Crash.crash_nil]
    exact Phase.old hd fun _ _ => rfl
  rw [Crash.crash_append, Crash.crash_append, Crash.crash_append]
  simp only [List.length_append, write_log_length, List.length_singleton, install_trans_length]
  obtain ⟨hhead₁, hdata₁⟩ := write_log_frame start cache lh 0 d₀ k
  have hold₁ : ∀ b, OutsideLog start size b →
      (Crash.crash Disk.write d₀ (write_log start cache 0 lh) k).data b = d₀.data b :=
    fun b hb => hdata₁ b (by unfold OutsideLog at hb; omega)
  by_cases hk₁ : k ≤ lh.length
  · -- Before the commit point: nothing outside the log has changed.
    rw [Nat.sub_eq_zero_of_le hk₁, Nat.sub_eq_zero_of_le (by omega : k ≤ lh.length + 1),
      Nat.sub_eq_zero_of_le (by omega : k ≤ lh.length + 1 + lh.length), Crash.crash_zero,
      Crash.crash_zero, Crash.crash_zero]
    exact Phase.old (hhead₁.trans hd) hold₁
  rw [Crash.crash_of_length_le (p := write_log start cache 0 lh)
    (by rw [write_log_length]; omega)] at hhead₁ hold₁ ⊢
  rw [Crash.crash_singleton _ (write_head lh) (by omega), write_head]
  set d₁ := Crash.run Disk.write d₀ (write_log start cache 0 lh)
  have hc₂ : Committed start size lh cache d₀ (d₁.write (.head lh)) :=
    ⟨rfl, (write_log_holds start cache lh 0 d₀).congr fun _ _ _ => rfl,
      fun b hb => Or.inl (hold₁ b hb)⟩
  by_cases hk₂ : k ≤ lh.length + 1 + lh.length
  · -- Between the commit point and the end of `install_trans`.
    rw [Nat.sub_eq_zero_of_le hk₂, Crash.crash_zero]
    exact Phase.committed (hc₂.install_crash hout hfit lh 0 _ _ List.drop_zero)
  · -- After the header is cleared.
    rw [Crash.crash_of_length_le (p := install_trans start 0 lh)
      (by rw [install_trans_length]; omega), Crash.crash_singleton _ _ (by omega)]
    exact hc₂.new_of_install hout hfit

theorem Phase.clear_head {d : Disk α} (hp : Phase start size lh cache d₀ d) (hh : d.head = [])
    (k : Nat) : Phase start size lh cache d₀ (Crash.crash Disk.write d [write_head []] k) := by
  cases k with
  | zero => rwa [Crash.crash_zero]
  | succ k =>
    rw [Crash.crash_cons_succ, Crash.crash_nil, write_head]
    cases hp with
    | old _ hdata => exact Phase.old rfl hdata
    | committed hc =>
      exact Phase.committed ⟨by rw [Disk.write_head_head, ← hc.head_eq, hh],
        hc.log.congr fun _ _ _ => rfl, hc.home⟩
    | new _ hdata => exact Phase.new rfl hdata

theorem Phase.recover_crash (hout : ∀ b ∈ lh, OutsideLog start size b) (hfit : lh.length < size)
    {d : Disk α} (hp : Phase start size lh cache d₀ d) (k : Nat) :
    Phase start size lh cache d₀ (Crash.crash Disk.write d (recover_from_log start d) k) := by
  unfold recover_from_log
  rw [Crash.crash_append]
  cases hp with
  | old hh hdata =>
    rw [hh, install_trans, Crash.crash_nil]
    exact (Phase.old hh hdata).clear_head hh _
  | new hh hdata =>
    rw [hh, install_trans, Crash.crash_nil]
    exact (Phase.new hh hdata).clear_head hh _
  | committed hc =>
    rw [hc.head_eq, install_trans_length]
    by_cases hk : k ≤ lh.length
    · rw [Nat.sub_eq_zero_of_le hk, Crash.crash_zero]
      exact Phase.committed (hc.install_crash hout hfit lh 0 d k List.drop_zero)
    · rw [Crash.crash_of_length_le (p := install_trans start 0 lh)
        (by rw [install_trans_length]; omega), Crash.crash_singleton _ _ (by omega)]
      exact hc.new_of_install hout hfit

theorem Phase.recoverCrashing (hout : ∀ b ∈ lh, OutsideLog start size b)
    (hfit : lh.length < size) (ks : List Nat) :
    ∀ {d : Disk α}, Phase start size lh cache d₀ d →
      Phase start size lh cache d₀ (Xv6.recoverCrashing start d ks) := by
  induction ks with
  | nil => intro d hp; exact hp
  | cons k ks ih => intro d hp; exact ih (hp.recover_crash hout hfit k)

theorem recover_from_log_head (start : Nat) (d : Disk α) :
    (Crash.run Disk.write d (recover_from_log start d)).head = [] := by
  rw [recover_from_log, Crash.run_append]
  rfl

theorem Phase.recover (hout : ∀ b ∈ lh, OutsideLog start size b) (hfit : lh.length < size)
    {d : Disk α} (hp : Phase start size lh cache d₀ d) :
    let d' := Crash.run Disk.write d (recover_from_log start d)
    d'.head = [] ∧ ((∀ b, OutsideLog start size b → d'.data b = d₀.data b) ∨
      ∀ b, OutsideLog start size b → d'.data b = if b ∈ lh then cache b else d₀.data b) := by
  intro d'
  have hhead : d'.head = [] := recover_from_log_head start d
  have hphase : Phase start size lh cache d₀ d' := by
    have := hp.recover_crash hout hfit (recover_from_log start d).length
    rwa [Crash.crash_of_length_le le_rfl] at this
  refine ⟨hhead, ?_⟩
  cases hphase with
  | old _ hdata => exact Or.inl hdata
  | new _ hdata => exact Or.inr hdata
  | committed hc =>
    have hnil : lh = [] := hc.head_eq.symm.trans hhead
    refine Or.inl fun b hb => ?_
    rcases hc.home b hb with h | h
    · exact h
    · rw [hnil] at h
      exact absurd h.1 List.not_mem_nil

end Atomic

/-- Crash atomicity of a transaction: from a disk whose header has `n = 0`, a crash after any
number `k` of the writes of `commit`, crashed recoveries after `ks` writes each, and one whole
`recover_from_log` leave the header with `n = 0` and every block outside the log as it was or
as the transaction wrote it, the same for all blocks. -/
theorem commit_crash_atomic {start size : Nat} {lh : List Nat} {cache : Nat → α} {d₀ : Disk α}
    (hd : d₀.head = []) (hout : ∀ b ∈ lh, OutsideLog start size b) (hfit : lh.length < size)
    (k : Nat) (ks : List Nat) :
    (afterCrash start lh cache d₀ k ks).head = [] ∧
      ((∀ b, OutsideLog start size b → (afterCrash start lh cache d₀ k ks).data b = d₀.data b) ∨
        ∀ b, OutsideLog start size b →
          (afterCrash start lh cache d₀ k ks).data b = if b ∈ lh then cache b else d₀.data b) :=
  ((commit_crash_phase hd hout hfit k).recoverCrashing hout hfit ks).recover hout hfit

theorem commit_crash_atomic_two_blocks :
    (⟨[], fun _ => 0⟩ : Disk Nat).head = [] ∧ (∀ b ∈ [40, 41], OutsideLog 2 30 b) ∧
      [40, 41].length < 30 ∧
      (afterCrash 2 [40, 41] (· + 100) ⟨[], fun _ => 0⟩ 3 [1]).head = [] ∧
      ((∀ b, OutsideLog 2 30 b →
          (afterCrash 2 [40, 41] (· + 100) ⟨[], fun _ => 0⟩ 3 [1]).data b = 0) ∨
        ∀ b, OutsideLog 2 30 b → (afterCrash 2 [40, 41] (· + 100) ⟨[], fun _ => 0⟩ 3 [1]).data b =
          if b ∈ [40, 41] then b + 100 else 0) :=
  ⟨rfl, by decide, by decide, commit_crash_atomic rfl (by decide) (by decide) 3 [1]⟩

end Xv6
