import Xv6.Lib.Ring
import Xv6.Lib.Run

set_option autoImplicit false

/-!
# Pipes: `pipe.c`

A pipe is a ring of `PIPESIZE` bytes between two free-running `uint` counters, `nread` and
`nwrite`. Any number of processes read and write one pipe. Each call is a sequence of steps, each
taken under `p->lock`: in `pipewrite`, one byte deposited, a sleep on `&p->nwrite` or a return;
in `piperead`, a sleep on `&p->nread`, a return, or the whole copy loop, which never sleeps. A
`wakeup` on a channel makes each process asleep on it test its loop condition again, as `kill`
does for the process it kills.

Beside the pipe the system keeps its history: every byte a `pipewrite` deposited, every byte a
`piperead` returned, and for each writer the bytes its current call has deposited.
-/
namespace Xv6

def PIPESIZE : Nat := 512

instance : NeZero PIPESIZE := ⟨by decide⟩

structure Pipe where
  data : Fin PIPESIZE → UInt8
  nread : UInt32
  nwrite : UInt32
  readopen : Bool
  writeopen : Bool

namespace Pipe

def slot (i : UInt32) : Fin PIPESIZE := Ring.slot PIPESIZE i.toNat

def full (p : Pipe) : Bool := p.nwrite == p.nread + 512

def empty (p : Pipe) : Bool := p.nread == p.nwrite

def put (p : Pipe) (b : UInt8) : Pipe :=
  { p with data := Function.update p.data (slot p.nwrite) b, nwrite := p.nwrite + 1 }

/-- The copy loop of `piperead`: up to `n` bytes, stopping at an empty pipe. -/
def copyOut : Nat → Pipe → List UInt8 × Pipe
  | 0, p => ([], p)
  | n + 1, p =>
    if p.empty then ([], p)
    else
      let b := p.data (slot p.nread)
      let r := copyOut n { p with nread := p.nread + 1 }
      (b :: r.1, r.2)

/-- `pipeclose(p, writable)`, but for the `kfree` of a pipe both of whose ends are closed. -/
def pipeclose (p : Pipe) (writable : Bool) : Pipe :=
  if writable then { p with writeopen := false } else { p with readopen := false }

def count (p : Pipe) : Nat := (p.nwrite - p.nread).toNat

def contents (p : Pipe) : List UInt8 := Ring.window p.data p.nread.toNat p.count

/-! ### The ring under the counters -/

theorem PIPESIZE_dvd : PIPESIZE ∣ 2 ^ 32 := ⟨2 ^ 23, by decide⟩

variable {p : Pipe}

theorem full_iff : p.full = true ↔ p.count = PIPESIZE := by
  unfold full count
  rw [beq_iff_eq]
  exact Ring.eq_add_iff_gap

theorem empty_iff : p.empty = true ↔ p.count = 0 := by
  unfold empty count
  rw [beq_iff_eq]
  exact Ring.eq_iff_gap_zero

theorem slot_nwrite : slot p.nwrite = Ring.slot PIPESIZE (p.nread.toNat + p.count) :=
  Fin.ext (Ring.toNat_mod_of_gap PIPESIZE_dvd p.nread p.nwrite)

theorem put_count (b : UInt8) (h : p.count < PIPESIZE) : (p.put b).count = p.count + 1 := by
  change (p.nwrite + 1 - p.nread).toNat = (p.nwrite - p.nread).toNat + 1
  exact Ring.gap_succ_left (by unfold count PIPESIZE at h; omega)

theorem put_contents (b : UInt8) (h : p.count < PIPESIZE) :
    (p.put b).contents = p.contents ++ [b] := by
  unfold contents
  rw [put_count b h]
  change Ring.window (Function.update p.data (slot p.nwrite) b) p.nread.toNat (p.count + 1) = _
  rw [slot_nwrite]
  exact Ring.window_push b h

theorem pop_contents (h : 0 < p.count) :
    p.contents = p.data (slot p.nread) :: { p with nread := p.nread + 1 }.contents ∧
      { p with nread := p.nread + 1 }.count = p.count - 1 := by
  have hcount : { p with nread := p.nread + 1 }.count = p.count - 1 := Ring.gap_succ_right h
  refine ⟨?_, hcount⟩
  unfold contents
  rw [hcount]
  obtain ⟨m, hm⟩ : ∃ m, p.count = m + 1 := ⟨p.count - 1, by omega⟩
  rw [hm, Ring.window_pop, Nat.add_sub_cancel]
  congr 1
  apply Ring.window_mod
  change (p.nread.toNat + 1) % PIPESIZE = (p.nread + 1).toNat % PIPESIZE
  rw [UInt32.toNat_add, UInt32.toNat_one, Nat.mod_mod_of_dvd _ PIPESIZE_dvd]

theorem copyOut_spec (n : Nat) (p : Pipe) :
    (copyOut n p).1 = p.contents.take n ∧ (copyOut n p).2.contents = p.contents.drop n ∧
      (copyOut n p).2.count = p.count - n ∧
      (copyOut n p).2 = { p with nread := (copyOut n p).2.nread } := by
  induction n generalizing p with
  | zero => exact ⟨rfl, rfl, rfl, rfl⟩
  | succ n ih =>
    by_cases he : p.empty = true
    · have hc0 : p.count = 0 := empty_iff.mp he
      have hnil : p.contents = [] := List.eq_nil_of_length_eq_zero (by
        rw [contents, Ring.length_window, hc0])
      simp only [copyOut, he, if_true]
      refine ⟨by rw [hnil, List.take_nil], by rw [hnil, List.drop_nil], by rw [hc0, Nat.zero_sub],
        trivial⟩
    · have hpos : 0 < p.count := by
        rw [empty_iff] at he
        omega
      obtain ⟨hpop, hcount⟩ := pop_contents hpos
      obtain ⟨h1, h2, h3, h4⟩ := ih { p with nread := p.nread + 1 }
      simp only [copyOut, he, Bool.false_eq_true, if_false]
      refine ⟨?_, ?_, ?_, ?_⟩
      · rw [h1, hpop, List.take_succ_cons]
      · rw [h2, hpop, List.drop_succ_cons]
      · rw [h3, hcount]
        omega
      · exact h4

end Pipe

/-- Where a process is in its call on the pipe. -/
inductive PipeCall where
  | idle
  /-- In `pipewrite(p, src, len(src))` with `i` bytes deposited, about to test for a full pipe. -/
  | write (src : List UInt8) (i : Nat)
  /-- In `pipewrite`, asleep on `&p->nwrite`. -/
  | writeSleep (src : List UInt8) (i : Nat)
  /-- In `piperead(p, addr, n)`, about to test for an empty pipe. -/
  | read (n : Nat)
  /-- In `piperead`, asleep on `&p->nread`. -/
  | readSleep (n : Nat)
  /-- The call returns `r`. -/
  | ret (r : Int)
  deriving DecidableEq

namespace PipeCall

def wakeWriter : PipeCall → PipeCall
  | .writeSleep src i => .write src i
  | c => c

def wakeReader : PipeCall → PipeCall
  | .readSleep n => .read n
  | c => c

end PipeCall

structure PipeSys (ι : Type) where
  pipe : Pipe
  call : ι → PipeCall
  killed : ι → Bool
  /-- Every byte deposited by `pipewrite`, in order. -/
  deposited : List UInt8
  /-- Every byte returned by `piperead`, in order. -/
  returned : List UInt8
  /-- The bytes each process's current `pipewrite` has deposited. -/
  sent : ι → List UInt8

variable {ι : Type} [DecidableEq ι]

open Function (update)

inductive PipeStep : PipeSys ι → PipeSys ι → Prop
  | writeBegin {s : PipeSys ι} (i : ι) (src : List UInt8) : s.call i = .idle →
      PipeStep s { s with call := update s.call i (.write src 0), sent := update s.sent i [] }
  | deposit {s : PipeSys ι} (i : ι) {src : List UInt8} {k : Nat} (hk : k < src.length) :
      s.call i = .write src k → s.pipe.full = false →
      PipeStep s { s with
        pipe := s.pipe.put src[k], call := update s.call i (.write src (k + 1)),
        deposited := s.deposited ++ [src[k]], sent := update s.sent i (s.sent i ++ [src[k]]) }
  | writeFail {s : PipeSys ι} (i : ι) {src : List UInt8} {k : Nat} : s.call i = .write src k →
      k < src.length → s.pipe.full = true → (s.pipe.readopen = false ∨ s.killed i = true) →
      PipeStep s { s with call := update s.call i (.ret (-1)) }
  | writeSleep {s : PipeSys ι} (i : ι) {src : List UInt8} {k : Nat} : s.call i = .write src k →
      k < src.length → s.pipe.full = true → s.pipe.readopen = true → s.killed i = false →
      PipeStep s { s with call := update (fun j => (s.call j).wakeReader) i (.writeSleep src k) }
  | writeEnd {s : PipeSys ι} (i : ι) {src : List UInt8} {k : Nat} : s.call i = .write src k →
      src.length ≤ k →
      PipeStep s { s with call := update (fun j => (s.call j).wakeReader) i (.ret src.length) }
  | readBegin {s : PipeSys ι} (i : ι) (n : Nat) : s.call i = .idle →
      PipeStep s { s with call := update s.call i (.read n) }
  | readFail {s : PipeSys ι} (i : ι) {n : Nat} : s.call i = .read n → s.pipe.empty = true →
      s.pipe.writeopen = true → s.killed i = true →
      PipeStep s { s with call := update s.call i (.ret (-1)) }
  | readSleep {s : PipeSys ι} (i : ι) {n : Nat} : s.call i = .read n → s.pipe.empty = true →
      s.pipe.writeopen = true → s.killed i = false →
      PipeStep s { s with call := update s.call i (.readSleep n) }
  | readCopy {s : PipeSys ι} (i : ι) {n : Nat} : s.call i = .read n →
      (s.pipe.empty = false ∨ s.pipe.writeopen = false) →
      PipeStep s { s with
        pipe := (s.pipe.copyOut n).2,
        call := update (fun j => (s.call j).wakeWriter) i (.ret (s.pipe.copyOut n).1.length),
        returned := s.returned ++ (s.pipe.copyOut n).1 }
  /-- `pipeclose` of one end, from the `fileclose` of its last reference. -/
  | close {s : PipeSys ι} (writable : Bool) :
      PipeStep s { s with
        pipe := s.pipe.pipeclose writable,
        call := fun j => if writable then (s.call j).wakeReader else (s.call j).wakeWriter }
  | kill {s : PipeSys ι} (i : ι) :
      PipeStep s { s with
        killed := update s.killed i true, call := update s.call i (s.call i).wakeWriter.wakeReader }
  | finish {s : PipeSys ι} (i : ι) {r : Int} : s.call i = .ret r →
      PipeStep s { s with call := update s.call i .idle }

/-- The pipe as `pipealloc` leaves it, both ends open, with no call under way. -/
def PipeInit (s : PipeSys ι) : Prop :=
  s.pipe.nread = 0 ∧ s.pipe.nwrite = 0 ∧ s.pipe.readopen = true ∧ s.pipe.writeopen = true ∧
    (∀ i, s.call i = .idle) ∧ s.deposited = [] ∧ s.returned = []

def PipeReachable : PipeSys ι → Prop := Run.Reachable PipeStep PipeInit

/-! ### The invariant -/

/-- What the pipe's counters and history satisfy between any two steps. -/
structure PipeInv (s : PipeSys ι) : Prop where
  count_le : s.pipe.count ≤ PIPESIZE
  fifo : s.deposited = s.returned ++ s.pipe.contents
  sent : ∀ i src k, (s.call i = .write src k ∨ s.call i = .writeSleep src k) →
    s.sent i = src.take k ∧ k ≤ src.length

namespace PipeInv

variable {s : PipeSys ι}

omit [DecidableEq ι] in
theorem init (h : PipeInit s) : PipeInv s := by
  obtain ⟨hr, hw, -, -, hidle, hdep, hret⟩ := h
  have hcount : s.pipe.count = 0 := by
    unfold Pipe.count
    rw [hr, hw]
    rfl
  refine ⟨by rw [hcount]; decide, ?_, ?_⟩
  · rw [hdep, hret, Pipe.contents, hcount]
    rfl
  · intro i src k hcall
    rw [hidle i] at hcall
    simp at hcall

theorem sent_wake (h : PipeInv s) (f : PipeCall → PipeCall)
    (hf : ∀ c src k, (f c = .write src k ∨ f c = .writeSleep src k) →
      (c = .write src k ∨ c = .writeSleep src k)) (i : ι) (c : PipeCall)
    (hc : ∀ src k, c ≠ .write src k ∧ c ≠ .writeSleep src k) :
    ∀ j src k, (update (fun j => f (s.call j)) i c j = .write src k ∨
        update (fun j => f (s.call j)) i c j = .writeSleep src k) →
      s.sent j = src.take k ∧ k ≤ src.length := by
  intro j src k hj
  by_cases hji : j = i
  · subst hji
    rw [Function.update_self] at hj
    exact absurd hj (by simp only [hc src k, or_self, not_false_eq_true])
  · rw [Function.update_of_ne hji] at hj
    exact h.sent j src k (hf _ src k hj)

theorem wakeReader_write {c : PipeCall} {src : List UInt8} {k : Nat} :
    (c.wakeReader = .write src k ∨ c.wakeReader = .writeSleep src k) →
      (c = .write src k ∨ c = .writeSleep src k) := by
  cases c <;> simp [PipeCall.wakeReader]

theorem wakeWriter_write {c : PipeCall} {src : List UInt8} {k : Nat} :
    (c.wakeWriter = .write src k ∨ c.wakeWriter = .writeSleep src k) →
      (c = .write src k ∨ c = .writeSleep src k) := by
  cases c <;> simp [PipeCall.wakeWriter]

theorem deposit (h : PipeInv s) (i : ι) {src : List UInt8} {k : Nat} (hk : k < src.length)
    (hcall : s.call i = .write src k) (hfull : s.pipe.full = false) :
    PipeInv { s with
      pipe := s.pipe.put src[k], call := update s.call i (.write src (k + 1)),
      deposited := s.deposited ++ [src[k]], sent := update s.sent i (s.sent i ++ [src[k]]) } := by
  have hlt : s.pipe.count < PIPESIZE := by
    have hne : s.pipe.count ≠ PIPESIZE := fun he => by
      rw [← Pipe.full_iff] at he
      rw [he] at hfull
      exact Bool.noConfusion hfull
    exact lt_of_le_of_ne h.count_le hne
  refine ⟨?_, ?_, ?_⟩
  · rw [Pipe.put_count _ hlt]
    exact hlt
  · change s.deposited ++ [src[k]] = s.returned ++ (s.pipe.put src[k]).contents
    rw [Pipe.put_contents _ hlt, h.fifo, List.append_assoc]
  · intro j src' k' hj
    by_cases hji : j = i
    · subst hji
      simp only [Function.update_self, PipeCall.write.injEq, reduceCtorEq, or_false] at hj ⊢
      obtain ⟨hsrc, hk'⟩ := hj
      subst hsrc hk'
      obtain ⟨hsent, -⟩ := h.sent j src k (.inl hcall)
      rw [hsent, List.take_add_one, List.getElem?_eq_getElem hk, Option.toList_some]
      exact ⟨rfl, hk⟩
    · simp only [Function.update_of_ne hji] at hj ⊢
      exact h.sent j src' k' hj

theorem readCopy (h : PipeInv s) (i : ι) (n : Nat) :
    PipeInv { s with
      pipe := (s.pipe.copyOut n).2,
      call := update (fun j => (s.call j).wakeWriter) i (.ret (s.pipe.copyOut n).1.length),
      returned := s.returned ++ (s.pipe.copyOut n).1 } := by
  obtain ⟨h1, h2, h3, -⟩ := Pipe.copyOut_spec n s.pipe
  refine ⟨?_, ?_, ?_⟩
  · change (s.pipe.copyOut n).2.count ≤ PIPESIZE
    rw [h3]
    exact le_trans (Nat.sub_le _ _) h.count_le
  · change s.deposited = (s.returned ++ (s.pipe.copyOut n).1) ++ (s.pipe.copyOut n).2.contents
    rw [h1, h2, List.append_assoc, List.take_append_drop, h.fifo]
  · exact sent_wake h _ (fun _ _ _ => wakeWriter_write) i _ (fun _ _ => ⟨by simp, by simp⟩)

theorem step {s' : PipeSys ι} (h : PipeInv s) (hs : PipeStep s s') : PipeInv s' := by
  cases hs with
  | writeBegin i src hidle =>
    refine ⟨h.count_le, h.fifo, ?_⟩
    intro j src' k' hj
    by_cases hji : j = i
    · subst hji
      simp only [Function.update_self, PipeCall.write.injEq, reduceCtorEq, or_false] at hj ⊢
      obtain ⟨rfl, rfl⟩ := hj
      exact ⟨rfl, Nat.zero_le _⟩
    · simp only [Function.update_of_ne hji] at hj ⊢
      exact h.sent j src' k' hj
  | deposit i hk hcall hfull => exact h.deposit i hk hcall hfull
  | writeFail i _ _ _ _ =>
    exact ⟨h.count_le, h.fifo,
      sent_wake h id (fun _ _ _ hc => hc) i _ (fun _ _ => ⟨by simp, by simp⟩)⟩
  | writeSleep i hcall hk _ _ _ =>
    refine ⟨h.count_le, h.fifo, ?_⟩
    intro j src' k' hj
    dsimp only at hj
    by_cases hji : j = i
    · subst hji
      simp only [Function.update_self, PipeCall.writeSleep.injEq, reduceCtorEq, false_or] at hj
      obtain ⟨hsrc, hk'⟩ := hj
      subst hsrc hk'
      exact h.sent j _ _ (.inl hcall)
    · rw [Function.update_of_ne hji] at hj
      exact h.sent j src' k' (wakeReader_write hj)
  | writeEnd i _ _ =>
    exact ⟨h.count_le, h.fifo,
      sent_wake h _ (fun _ _ _ => wakeReader_write) i _ (fun _ _ => ⟨by simp, by simp⟩)⟩
  | readBegin i n _ =>
    exact ⟨h.count_le, h.fifo,
      sent_wake h id (fun _ _ _ hc => hc) i _ (fun _ _ => ⟨by simp, by simp⟩)⟩
  | readFail i _ _ _ _ =>
    exact ⟨h.count_le, h.fifo,
      sent_wake h id (fun _ _ _ hc => hc) i _ (fun _ _ => ⟨by simp, by simp⟩)⟩
  | readSleep i _ _ _ _ =>
    exact ⟨h.count_le, h.fifo,
      sent_wake h id (fun _ _ _ hc => hc) i _ (fun _ _ => ⟨by simp, by simp⟩)⟩
  | @readCopy i n _ _ => exact h.readCopy i n
  | close writable =>
    have hpipe : (s.pipe.pipeclose writable).count = s.pipe.count ∧
        (s.pipe.pipeclose writable).contents = s.pipe.contents := by
      unfold Pipe.pipeclose
      split <;> exact ⟨rfl, rfl⟩
    refine ⟨hpipe.1 ▸ h.count_le, hpipe.2 ▸ h.fifo, ?_⟩
    intro j src k hj
    cases writable with
    | true => exact h.sent j src k (wakeReader_write hj)
    | false => exact h.sent j src k (wakeWriter_write hj)
  | kill i =>
    refine ⟨h.count_le, h.fifo, ?_⟩
    intro j src k hj
    dsimp only at hj
    by_cases hji : j = i
    · subst hji
      rw [Function.update_self] at hj
      exact h.sent j src k (wakeWriter_write (wakeReader_write hj))
    · rw [Function.update_of_ne hji] at hj
      exact h.sent j src k hj
  | finish i _ =>
    exact ⟨h.count_le, h.fifo,
      sent_wake h id (fun _ _ _ hc => hc) i _ (fun _ _ => ⟨by simp, by simp⟩)⟩

end PipeInv

theorem reachable_pipeInv {s : PipeSys ι} (h : PipeReachable s) : PipeInv s := by
  refine Run.reachable_invariant ?_ ?_ h
  · intro s₀ h₀
    exact PipeInv.init h₀
  · intro x y hx hs
    exact hx.step hs

/-! ### What one step does -/

namespace PipeStep

variable {s s' : PipeSys ι}

theorem history_prefix (hs : PipeStep s s') :
    s.deposited <+: s'.deposited ∧ s.returned <+: s'.returned := by
  cases hs with
  | deposit => exact ⟨List.prefix_append _ _, List.prefix_refl _⟩
  | readCopy => exact ⟨List.prefix_refl _, List.prefix_append _ _⟩
  | _ => exact ⟨List.prefix_refl _, List.prefix_refl _⟩

theorem write_ret {i : ι} {src : List UInt8} {k : Nat} {r : Int} (hs : PipeStep s s')
    (hc : s.call i = .write src k) (hr : s'.call i = .ret r) :
    (r = src.length ∧ src.length ≤ k ∧ s'.sent i = s.sent i) ∨
      (r = -1 ∧ (s.pipe.readopen = false ∨ s.killed i = true)) := by
  cases hs
  case writeFail j src' k' hcj _ _ hopen =>
    by_cases hji : i = j
    · subst hji
      simp only [Function.update_self, PipeCall.ret.injEq] at hr
      exact .inr ⟨hr.symm, hopen⟩
    · simp [Function.update_of_ne hji, hc] at hr
  case writeEnd j src' k' hcj hlen =>
    by_cases hji : i = j
    · subst hji
      rw [hc, PipeCall.write.injEq] at hcj
      obtain ⟨rfl, rfl⟩ := hcj
      simp only [Function.update_self, PipeCall.ret.injEq] at hr
      exact .inl ⟨hr.symm, hlen, rfl⟩
    · simp [Function.update_of_ne hji, hc, PipeCall.wakeReader] at hr
  all_goals
    simp only [Function.update_apply] at hr
    split_ifs at hr with hji
    all_goals simp_all [PipeCall.wakeReader, PipeCall.wakeWriter]

theorem read_ret {i : ι} {n : Nat} {r : Int} (hs : PipeStep s s') (hc : s.call i = .read n)
    (hr : s'.call i = .ret r) :
    r = -1 ∨ (r = (s.pipe.copyOut n).1.length ∧ (s.pipe.empty = false ∨ s.pipe.writeopen = false)) := by
  cases hs
  case readFail j n' hcj _ _ _ =>
    by_cases hji : i = j
    · subst hji
      simp only [Function.update_self, PipeCall.ret.injEq] at hr
      exact .inl hr.symm
    · simp [Function.update_of_ne hji, hc] at hr
  case readCopy j n' hcj hready =>
    by_cases hji : i = j
    · subst hji
      rw [hc, PipeCall.read.injEq] at hcj
      subst hcj
      simp only [Function.update_self, PipeCall.ret.injEq] at hr
      exact .inr ⟨hr.symm, hready⟩
    · simp [Function.update_of_ne hji, hc, PipeCall.wakeWriter] at hr
  all_goals
    simp only [Function.update_apply] at hr
    split_ifs at hr with hji
    all_goals simp_all [PipeCall.wakeReader, PipeCall.wakeWriter]

end PipeStep

def PipeSys.alloc (data : Fin PIPESIZE → UInt8) : PipeSys ι :=
  ⟨⟨data, 0, 0, true, true⟩, fun _ => .idle, fun _ => false, [], [], fun _ => []⟩

omit [DecidableEq ι] in
theorem PipeSys.alloc_init (data : Fin PIPESIZE → UInt8) : PipeInit (PipeSys.alloc data : PipeSys ι) :=
  ⟨rfl, rfl, rfl, rfl, fun _ => rfl, rfl, rfl⟩

/-- Pipes deliver bytes in order. In every state of every run, with any number of readers and
writers interleaved step by step and the counters wrapping around: at most `PIPESIZE` bytes are
unread; the bytes returned by all `piperead`s, followed by the unread bytes, are exactly the
bytes deposited, in deposit order; and no step loses or changes a byte that is unread or
returned. A `pipewrite` returns its length only once it deposited all its bytes, and `-1` only
when the read end is closed or the writer is killed; a `piperead` of `n > 0` bytes returns `0`
only on an empty pipe whose write end is closed. -/
theorem pipe_fifo_delivery {s : PipeSys ι} (hs : PipeReachable s) :
    s.pipe.count ≤ PIPESIZE ∧ s.deposited = s.returned ++ s.pipe.contents ∧
      ∀ s', PipeStep s s' →
        s.returned ++ s.pipe.contents <+: s'.returned ++ s'.pipe.contents ∧
        (∀ i src k r, s.call i = .write src k → s'.call i = .ret r →
          (r = src.length ∧ s'.sent i = src) ∨
            (r = -1 ∧ (s.pipe.readopen = false ∨ s.killed i = true))) ∧
        (∀ i n r, s.call i = .read n → s'.call i = .ret r → 0 < n → r = 0 →
          s.pipe.count = 0 ∧ s.pipe.writeopen = false) := by
  have inv := reachable_pipeInv hs
  refine ⟨inv.count_le, inv.fifo, fun s' hst => ⟨?_, ?_, ?_⟩⟩
  · rw [← inv.fifo, ← (inv.step hst).fifo]
    exact (hst.history_prefix).1
  · intro i src k r hc hr
    rcases hst.write_ret hc hr with ⟨hlen, hk, hsent⟩ | hfail
    · obtain ⟨htaken, hk'⟩ := inv.sent i src k (.inl hc)
      have hkeq : k = src.length := le_antisymm hk' hk
      refine .inl ⟨hlen, ?_⟩
      rw [hsent, htaken, hkeq, List.take_length]
    · exact .inr hfail
  · intro i n r hc hr hn hr0
    rcases hst.read_ret hc hr with hfail | ⟨hlen, hready⟩
    · rw [hr0] at hfail
      exact absurd hfail (by decide)
    · have hcount : s.pipe.count = 0 := by
        rw [(Pipe.copyOut_spec n s.pipe).1, List.length_take, Pipe.contents,
          Ring.length_window] at hlen
        omega
      have hempty : s.pipe.empty = true := Pipe.empty_iff.mpr hcount
      refine ⟨hcount, ?_⟩
      rw [hempty] at hready
      simpa using hready

theorem pipe_fifo_delivery_alloc :
    PipeReachable (PipeSys.alloc (fun _ => 1) : PipeSys (Fin 2)) ∧
      (PipeSys.alloc (fun _ => 1) : PipeSys (Fin 2)).pipe.count ≤ PIPESIZE :=
  ⟨Run.Reachable.of_init (PipeSys.alloc_init _),
    (pipe_fifo_delivery (Run.Reachable.of_init (PipeSys.alloc_init _))).1⟩

end Xv6
