import Xv6.Lib.Chain
import Xv6.Lib.Run
import Xv6.Param

set_option autoImplicit false

/-!
# The IDE request queue: `ide.c`

`idequeue` and the `qnext` fields of the buffers link the requests the disk has been given, the
first being the one it works on. `iderw` appends its buffer by walking `qnext` to the end, starts
the disk if the queue was empty, and waits until the buffer's flags read `B_VALID` without
`B_DIRTY`, asleep on the buffer while they do not. The disk's interrupt runs `ideintr`, which pops
the head, marks it valid and clean, wakes its sleepers and starts the disk on the next request.

Any number of processes call `iderw`. Each step is one critical section of `idelock`: the entry of
`iderw` up to its first test of the flags, one test with the return or the sleep after it, or one
`ideintr`. `sleep` releases the lock only once its caller is asleep, so no interrupt falls between
a test and its sleep. A caller of `iderw` holds the buffer's sleeplock, so two processes are never
in `iderw` on one buffer. Between its calls the holder of a buffer changes its flags: `bwrite` and
`log_write` set `B_DIRTY`, and `bget` clears them when it recycles the buffer, so a buffer is
submitted again. The device is `disk`, the request it was last started on and has not yet
finished; the data moved and the block numbers are not part of this model.

Beside the driver the system keeps its history, the buffers in the order `iderw` appended them
and in the order `ideintr` completed them. In every reachable state the links are a list whose
requests are the appended ones not yet completed, in order, with the disk on the first
(`ide_queue_fifo`).
-/
namespace Xv6

open Function (update update_self update_of_ne)

/-- Where a process is in `iderw`: `n` is its request's place among all the appends. -/
inductive IdePc where
  | idle
  | wait (b : Fin NBUF) (n : Nat)
  | sleep (b : Fin NBUF) (n : Nat)
  deriving DecidableEq

namespace IdePc

def req : IdePc → Option (Fin NBUF × Nat)
  | idle => none
  | wait b n => some (b, n)
  | sleep b n => some (b, n)

def wake (b : Fin NBUF) : IdePc → IdePc
  | sleep b' n => if b' = b then wait b' n else sleep b' n
  | c => c

@[simp] theorem req_idle : idle.req = none := rfl

@[simp] theorem req_wait (b : Fin NBUF) (n : Nat) : (wait b n).req = some (b, n) := rfl

@[simp] theorem req_sleep (b : Fin NBUF) (n : Nat) : (sleep b n).req = some (b, n) := rfl

@[simp] theorem req_wake (b : Fin NBUF) (c : IdePc) : (c.wake b).req = c.req := by
  cases c with
  | sleep b' n => by_cases h : b' = b <;> simp [wake, h]
  | _ => rfl

theorem wake_eq_sleep {b b' : Fin NBUF} {n : Nat} {c : IdePc} (h : c.wake b = sleep b' n) :
    c = sleep b' n ∧ b' ≠ b := by
  cases c with
  | sleep b'' k =>
    by_cases hb : b'' = b
    · rw [wake, if_pos hb] at h
      cases h
    · rw [wake, if_neg hb] at h
      cases h
      exact ⟨rfl, hb⟩
  | _ => cases h

end IdePc

structure IdeSys (ι : Type) where
  idequeue : Option (Fin NBUF)
  qnext : Fin NBUF → Option (Fin NBUF)
  /-- `B_VALID` and `B_DIRTY` of each buffer. -/
  valid : Fin NBUF → Bool
  dirty : Fin NBUF → Bool
  /-- The request the disk was last started on and has not finished. -/
  disk : Option (Fin NBUF)
  pc : ι → IdePc
  /-- Every buffer `iderw` appended, in order. -/
  appended : List (Fin NBUF)
  /-- Every buffer `ideintr` completed, in order. -/
  completed : List (Fin NBUF)

namespace IdeSys

variable {ι : Type}

/-- The requests read from `idequeue` along `qnext`. -/
def queue (s : IdeSys ι) : List (Fin NBUF) := Chain.toList s.qnext s.idequeue NBUF

/-- `(b->flags & (B_VALID|B_DIRTY)) == B_VALID`: the request on `b` is done. -/
def finished (s : IdeSys ι) (b : Fin NBUF) : Bool := s.valid b && !s.dirty b

theorem queue_eq {s : IdeSys ι} {l : List (Fin NBUF)} (hr : Chain.Reads s.qnext s.idequeue l) :
    s.queue = l :=
  hr.toList_eq (by simpa using hr.length_le_card)

end IdeSys

variable {ι : Type} [DecidableEq ι]

/-- `idestart(b)`: the disk is given the request on `b`. -/
def idestart (s : IdeSys ι) (b : Fin NBUF) : IdeSys ι := { s with disk := some b }

/-- `iderw(b)` called by `p`, up to its first test of the flags: `b->qnext = 0`, the walk to the
end of `idequeue`, `*pp = b`, and `idestart(b)` if `b` is now the head. The C walk does not stop
on a cycle; here it makes at most `NBUF + 1` tests. -/
def iderwAppend (s : IdeSys ι) (p : ι) (b : Fin NBUF) : Except String (IdeSys ι) :=
  if s.finished b then .error "iderw: nothing to do"
  else
    let qnext := update s.qnext b none
    match Chain.walkEnd s.idequeue qnext none (NBUF + 1) with
    | none => .error "loop does not end"
    | some pp =>
      let r := Chain.set s.idequeue qnext pp (some b)
      let s := { s with
        idequeue := r.1, qnext := r.2, pc := update s.pc p (.wait b s.appended.length),
        appended := s.appended ++ [b] }
      .ok (if s.idequeue = some b then idestart s b else s)

/-- `ideintr()`: pop the head, set its `B_VALID`, clear its `B_DIRTY`, `wakeup(b)`, and start the
disk on the next request if there is one. -/
def ideintr (s : IdeSys ι) : IdeSys ι :=
  match s.idequeue with
  | none => s
  | some b =>
    let s := { s with
      idequeue := s.qnext b, valid := update s.valid b true, dirty := update s.dirty b false,
      disk := none, pc := fun q => (s.pc q).wake b, completed := s.completed ++ [b] }
    match s.idequeue with
    | some b' => idestart s b'
    | none => s

inductive IdeStep : IdeSys ι → IdeSys ι → Prop
  /-- `iderw(b)` called by `p`, which holds `b`'s sleeplock. -/
  | append {s s' : IdeSys ι} (p : ι) (b : Fin NBUF) : s.pc p = .idle →
      (∀ q n, (s.pc q).req ≠ some (b, n)) → iderwAppend s p b = .ok s' → IdeStep s s'
  /-- The wait loop finds the request done: `release(&idelock)` and return. -/
  | ret {s : IdeSys ι} (p : ι) {b : Fin NBUF} {n : Nat} : s.pc p = .wait b n →
      s.finished b = true → IdeStep s { s with pc := update s.pc p .idle }
  /-- The wait loop finds it not done: `sleep(b, &idelock)`. -/
  | sleep {s : IdeSys ι} (p : ι) {b : Fin NBUF} {n : Nat} : s.pc p = .wait b n →
      s.finished b = false → IdeStep s { s with pc := update s.pc p (.sleep b n) }
  /-- The disk finishes its request and interrupts. -/
  | intr {s : IdeSys ι} {d : Fin NBUF} : s.disk = some d → IdeStep s (ideintr s)
  /-- `b->flags |= B_DIRTY` by the holder of `b`, outside `iderw`: `bwrite` before its `iderw`,
  or `log_write`. -/
  | dirty {s : IdeSys ι} (b : Fin NBUF) : (∀ q n, (s.pc q).req ≠ some (b, n)) →
      IdeStep s { s with dirty := update s.dirty b true }
  /-- `b->flags = 0` as `bget` recycles a buffer nobody holds for another block. -/
  | recycle {s : IdeSys ι} (b : Fin NBUF) : (∀ q n, (s.pc q).req ≠ some (b, n)) →
      IdeStep s { s with valid := update s.valid b false, dirty := update s.dirty b false }

/-- The driver at boot: an empty queue, an idle disk, no process in `iderw`. -/
def IdeInit (s : IdeSys ι) : Prop :=
  s.idequeue = none ∧ s.disk = none ∧ (∀ p, s.pc p = .idle) ∧ s.appended = [] ∧ s.completed = []

def IdeSys.boot (ι : Type) : IdeSys ι :=
  ⟨none, fun _ => none, fun _ => false, fun _ => false, none, fun _ => .idle, [], []⟩

section Spec

variable {s s' : IdeSys ι} {p : ι} {b : Fin NBUF} {l : List (Fin NBUF)}

omit [DecidableEq ι] in
theorem walkEnd_cleared (hr : Chain.Reads s.qnext s.idequeue l) (hb : b ∉ l) :
    Chain.Reads (update s.qnext b none) s.idequeue l ∧
      Chain.walkEnd s.idequeue (update s.qnext b none) none (NBUF + 1) = some l.getLast? := by
  have hr0 : Chain.Reads (update s.qnext b none) s.idequeue l :=
    hr.frame fun x hx => update_of_ne (fun he : x = b => hb (he ▸ hx)) _ _
  have hlen : l.length < NBUF + 1 := by
    have := hr.length_le_card
    rw [Fintype.card_fin] at this
    omega
  exact ⟨hr0, Chain.walkEnd_none hr0 hlen⟩

theorem iderwAppend_spec (hr : Chain.Reads s.qnext s.idequeue l) (hb : b ∉ l)
    (hs : iderwAppend s p b = .ok s') :
    s.finished b = false ∧ Chain.Reads s'.qnext s'.idequeue (l ++ [b]) ∧
      s'.disk = (if l = [] then some b else s.disk) ∧ s'.valid = s.valid ∧ s'.dirty = s.dirty ∧
      s'.pc = update s.pc p (.wait b s.appended.length) ∧ s'.appended = s.appended ++ [b] ∧
      s'.completed = s.completed := by
  unfold iderwAppend at hs
  by_cases hf : s.finished b = true
  · rw [if_pos hf] at hs
    cases hs
  rw [if_neg hf] at hs
  dsimp only at hs
  obtain ⟨hr0, hwalk⟩ := walkEnd_cleared hr hb
  rw [hwalk] at hs
  have hsnoc := hr0.snoc hb (update_self b none s.qnext)
  have hhead := Chain.set_getLast?_fst s.idequeue (update s.qnext b none) l (some b)
  have hstart : ((Chain.set s.idequeue (update s.qnext b none) l.getLast? (some b)).1 = some b) ↔
      l = [] := by
    rw [hhead]
    by_cases hl : l = []
    · rw [if_pos hl]
      exact ⟨fun _ => hl, fun _ => rfl⟩
    · rw [if_neg hl, hr.head?]
      refine ⟨fun he => absurd (List.mem_of_mem_head? he) hb, fun h => absurd h hl⟩
  have hs' := (Except.ok.inj hs).symm
  by_cases hl : l = []
  · rw [if_pos (hstart.mpr hl)] at hs'
    subst hs'
    exact ⟨Bool.of_not_eq_true hf, hsnoc, by rw [if_pos hl]; rfl, rfl, rfl, rfl, rfl, rfl⟩
  · rw [if_neg (fun he => hl (hstart.mp he))] at hs'
    subst hs'
    exact ⟨Bool.of_not_eq_true hf, hsnoc, by rw [if_neg hl], rfl, rfl, rfl, rfl, rfl⟩

omit [DecidableEq ι] in
theorem ideintr_spec (hq : s.idequeue = some b) :
    (ideintr s).idequeue = s.qnext b ∧ (ideintr s).qnext = s.qnext ∧
      (ideintr s).valid = update s.valid b true ∧ (ideintr s).dirty = update s.dirty b false ∧
      (ideintr s).disk = s.qnext b ∧ (ideintr s).pc = (fun q => (s.pc q).wake b) ∧
      (ideintr s).appended = s.appended ∧ (ideintr s).completed = s.completed ++ [b] := by
  unfold ideintr
  rw [hq]
  dsimp only
  cases hn : s.qnext b with
  | none => exact ⟨rfl, rfl, rfl, rfl, rfl, rfl, rfl, rfl⟩
  | some b' => exact ⟨rfl, rfl, rfl, rfl, rfl, rfl, rfl, rfl⟩

end Spec

theorem req_update {pc : ι → IdePc} {p q : ι} {c : IdePc} {r : Fin NBUF × Nat}
    (h : (update pc p c q).req = some r) :
    (q = p ∧ c.req = some r) ∨ (q ≠ p ∧ (pc q).req = some r) := by
  by_cases hq : q = p
  · subst hq
    rw [update_self] at h
    exact .inl ⟨rfl, h⟩
  · rw [update_of_ne hq] at h
    exact .inr ⟨hq, h⟩

/-! ### The invariant -/

/-- What the driver's state and its history satisfy between any two steps. -/
structure IdeInv (s : IdeSys ι) : Prop where
  reads : Chain.Reads s.qnext s.idequeue s.queue
  fifo : s.appended = s.completed ++ s.queue
  disk : s.disk = s.queue.head?
  pending : ∀ b ∈ s.queue, s.finished b = false
  queued : ∀ i b, s.queue[i]? = some b → ∃ p, (s.pc p).req = some (b, s.completed.length + i)
  req : ∀ p b n, (s.pc p).req = some (b, n) →
    s.appended[n]? = some b ∧ (s.finished b = true ↔ n < s.completed.length)
  asleep : ∀ p b n, s.pc p = .sleep b n → s.finished b = false
  excl : ∀ p q b n k, (s.pc p).req = some (b, n) → (s.pc q).req = some (b, k) → p = q

namespace IdeInv

variable {s s' : IdeSys ι} {p : ι} {b : Fin NBUF} {n : Nat}

omit [DecidableEq ι] in
theorem init (h : IdeInit s) : IdeInv s := by
  obtain ⟨hq, hd, hidle, happ, hcomp⟩ := h
  have hr : Chain.Reads s.qnext s.idequeue [] := by
    rw [hq]
    exact .nil
  have hq0 : s.queue = [] := IdeSys.queue_eq hr
  refine ⟨hq0 ▸ hr, by rw [happ, hcomp, hq0]; rfl, by rw [hd, hq0]; rfl, ?_, ?_, ?_, ?_, ?_⟩
  · intro b hb
    rw [hq0] at hb
    exact absurd hb List.not_mem_nil
  · intro i b hi
    rw [hq0] at hi
    cases hi
  · intro p b n hp
    rw [hidle p] at hp
    cases hp
  · intro p b n hp
    rw [hidle p] at hp
    cases hp
  · intro p q b n k hp
    rw [hidle p] at hp
    cases hp

omit [DecidableEq ι] in
theorem not_mem_queue (h : IdeInv s) (hlock : ∀ q n, (s.pc q).req ≠ some (b, n)) :
    b ∉ s.queue := by
  intro hb
  obtain ⟨i, hi⟩ := List.getElem?_of_mem hb
  obtain ⟨q, hq⟩ := h.queued i b hi
  exact hlock q _ hq

omit [DecidableEq ι] in
theorem appended_length (h : IdeInv s) :
    s.appended.length = s.completed.length + s.queue.length := by
  rw [h.fifo, List.length_append]

theorem append (h : IdeInv s) (hp : s.pc p = .idle) (hlock : ∀ q n, (s.pc q).req ≠ some (b, n))
    (hs : iderwAppend s p b = .ok s') : IdeInv s' := by
  have hb := h.not_mem_queue hlock
  obtain ⟨hf, hr', hdisk', hv', hd', hpc', happ', hcomp'⟩ := iderwAppend_spec h.reads hb hs
  have hq' : s'.queue = s.queue ++ [b] := IdeSys.queue_eq hr'
  have hfin : s'.finished = s.finished := by
    funext x
    unfold IdeSys.finished
    rw [hv', hd']
  have hlen := h.appended_length
  refine ⟨hq' ▸ hr', ?_, ?_, ?_, ?_, ?_, ?_, ?_⟩
  · rw [happ', hcomp', hq', h.fifo, List.append_assoc]
  · rw [hdisk', h.disk, hq']
    cases s.queue <;> simp
  · intro x hx
    rw [hq', List.mem_append, List.mem_singleton] at hx
    rw [hfin]
    rcases hx with hx | rfl
    · exact h.pending x hx
    · exact hf
  · intro i x hi
    rw [hq'] at hi
    rw [hcomp', hpc']
    by_cases hil : i < s.queue.length
    · rw [List.getElem?_append_left hil] at hi
      obtain ⟨q, hq⟩ := h.queued i x hi
      have hqp : q ≠ p := fun he => by
        rw [he, hp] at hq
        cases hq
      exact ⟨q, by rw [update_of_ne hqp]; exact hq⟩
    · have hi' := (List.getElem?_eq_some_iff.mp hi).1
      rw [List.length_append, List.length_singleton] at hi'
      have hieq : i = s.queue.length := by omega
      subst hieq
      rw [List.getElem?_concat_length] at hi
      cases hi
      exact ⟨p, by rw [update_self, IdePc.req_wait, hlen]⟩
  · intro q x k hq
    rw [hpc'] at hq
    rw [happ', hcomp', hfin]
    rcases req_update hq with ⟨rfl, hc⟩ | ⟨-, hq⟩
    · rw [IdePc.req_wait] at hc
      cases hc
      rw [List.getElem?_concat_length, hf]
      exact ⟨rfl, by simp only [Bool.false_eq_true, false_iff]; omega⟩
    · obtain ⟨h1, h2⟩ := h.req q x k hq
      exact ⟨by rw [List.getElem?_append_left (List.getElem?_eq_some_iff.mp h1).1]; exact h1, h2⟩
  · intro q x k hq
    rw [hpc'] at hq
    rw [hfin]
    by_cases hqp : q = p
    · rw [hqp, update_self] at hq
      cases hq
    · rw [update_of_ne hqp] at hq
      exact h.asleep q x k hq
  · intro q r x k k' hq hr
    rw [hpc'] at hq hr
    rcases req_update hq with ⟨rfl, hc⟩ | ⟨-, hq₀⟩ <;>
      rcases req_update hr with ⟨rfl, hc'⟩ | ⟨-, hr₀⟩
    · rfl
    · rw [IdePc.req_wait] at hc
      cases hc
      exact absurd hr₀ (hlock r k')
    · rw [IdePc.req_wait] at hc'
      cases hc'
      exact absurd hq₀ (hlock q k)
    · exact h.excl q r x k k' hq₀ hr₀

theorem ret (h : IdeInv s) (hp : s.pc p = .wait b n) (hf : s.finished b = true) :
    IdeInv { s with pc := update s.pc p .idle } := by
  have hoff : ∀ q x k, (s.pc q).req = some (x, k) → s.finished x = false → q ≠ p := by
    intro q x k hq hx he
    rw [he, hp, IdePc.req_wait] at hq
    cases hq
    rw [hf] at hx
    cases hx
  refine ⟨h.reads, h.fifo, h.disk, h.pending, ?_, ?_, ?_, ?_⟩
  · intro i x hi
    obtain ⟨q, hq⟩ := h.queued i x hi
    have hx := h.pending x (List.mem_of_getElem? hi)
    refine ⟨q, ?_⟩
    dsimp only
    rw [update_of_ne (hoff q x _ hq hx)]
    exact hq
  · intro q x k hq
    rcases req_update hq with ⟨-, hq⟩ | ⟨-, hq⟩
    · cases hq
    · exact h.req q x k hq
  · intro q x k hq
    by_cases hqp : q = p
    · rw [hqp] at hq
      dsimp only at hq
      rw [update_self] at hq
      cases hq
    · dsimp only at hq
      rw [update_of_ne hqp] at hq
      exact h.asleep q x k hq
  · intro q r x k k' hq hr
    rcases req_update hq with ⟨-, hq⟩ | ⟨-, hq⟩
    · cases hq
    rcases req_update hr with ⟨-, hr⟩ | ⟨-, hr⟩
    · cases hr
    exact h.excl q r x k k' hq hr

theorem sleep (h : IdeInv s) (hp : s.pc p = .wait b n) (hf : s.finished b = false) :
    IdeInv { s with pc := update s.pc p (.sleep b n) } := by
  have hreq : ∀ q, (update s.pc p (.sleep b n) q).req = (s.pc q).req := by
    intro q
    by_cases hqp : q = p
    · rw [hqp, update_self, hp, IdePc.req_sleep, IdePc.req_wait]
    · rw [update_of_ne hqp]
  refine ⟨h.reads, h.fifo, h.disk, h.pending, ?_, ?_, ?_, ?_⟩
  · intro i x hi
    obtain ⟨q, hq⟩ := h.queued i x hi
    exact ⟨q, by dsimp only; rw [hreq]; exact hq⟩
  · intro q x k hq
    dsimp only at hq
    rw [hreq] at hq
    exact h.req q x k hq
  · intro q x k hq
    dsimp only at hq
    by_cases hqp : q = p
    · rw [hqp, update_self] at hq
      cases hq
      exact hf
    · rw [update_of_ne hqp] at hq
      exact h.asleep q x k hq
  · intro q r x k k' hq hr
    dsimp only at hq hr
    rw [hreq] at hq hr
    exact h.excl q r x k k' hq hr

omit [DecidableEq ι] in
theorem head_req (h : IdeInv s) {l : List (Fin NBUF)} (hbl : s.queue = b :: l) {q : ι} {k : Nat}
    (hq : (s.pc q).req = some (b, k)) : k = s.completed.length := by
  obtain ⟨p₀, hp₀⟩ := h.queued 0 b (by rw [hbl]; rfl)
  have he := h.excl q p₀ b k _ hq hp₀
  rw [he, hp₀, Nat.add_zero] at hq
  exact (Prod.mk.inj (Option.some.inj hq)).2.symm

omit [DecidableEq ι] in
theorem ideintr_cons (h : IdeInv s) {l : List (Fin NBUF)} (hbl : s.queue = b :: l) :
    s.idequeue = some b ∧ Chain.Reads s.qnext (s.qnext b) l ∧ (ideintr s).queue = l := by
  have hr := h.reads
  rw [hbl] at hr
  have hidq : s.idequeue = some b := hr.head?
  rw [hidq] at hr
  have hl : Chain.Reads s.qnext (s.qnext b) l := hr.of_cons.2
  obtain ⟨hidq', hqn', -⟩ := ideintr_spec hidq
  exact ⟨hidq, hl, IdeSys.queue_eq (by rw [hidq', hqn']; exact hl)⟩

omit [DecidableEq ι] in
theorem intr (h : IdeInv s) {d : Fin NBUF} (hd : s.disk = some d) : IdeInv (ideintr s) := by
  obtain ⟨b, l, hbl⟩ : ∃ b l, s.queue = b :: l := by
    cases hq : s.queue with
    | nil =>
      rw [h.disk, hq] at hd
      cases hd
    | cons b l => exact ⟨b, l, rfl⟩
  have hnd : (b :: l).Nodup := hbl ▸ h.reads.nodup
  obtain ⟨hidq, hl, hq'⟩ := h.ideintr_cons hbl
  obtain ⟨hidq', hqn', hv', hd', hdisk', hpc', happ', hcomp'⟩ := ideintr_spec hidq
  have hfin_b : (ideintr s).finished b = true := by
    unfold IdeSys.finished
    rw [hv', hd', update_self, update_self]
    rfl
  have hfin : ∀ x, x ≠ b → (ideintr s).finished x = s.finished x := by
    intro x hx
    unfold IdeSys.finished
    rw [hv', hd', update_of_ne hx, update_of_ne hx]
  have hfifo : s.appended = (s.completed ++ [b]) ++ l := by
    rw [h.fifo, hbl, List.append_assoc, List.singleton_append]
  refine ⟨by rw [hq', hidq', hqn']; exact hl, by rw [happ', hcomp', hq']; exact hfifo,
    by rw [hdisk', hq']; exact hl.head?, ?_, ?_, ?_, ?_, ?_⟩
  · intro x hx
    rw [hq'] at hx
    have hxb : x ≠ b := fun he => (List.nodup_cons.mp hnd).1 (he ▸ hx)
    rw [hfin x hxb]
    exact h.pending x (by rw [hbl]; exact List.mem_cons_of_mem b hx)
  · intro i x hi
    rw [hq'] at hi
    obtain ⟨q, hq⟩ := h.queued (i + 1) x (by rw [hbl]; exact hi)
    refine ⟨q, ?_⟩
    rw [hpc', IdePc.req_wake, hcomp', List.length_append, List.length_singleton]
    rw [hq]
    congr 2
    omega
  · intro q x k hq
    rw [hpc', IdePc.req_wake] at hq
    obtain ⟨h1, h2⟩ := h.req q x k hq
    rw [happ', hcomp', List.length_append, List.length_singleton]
    refine ⟨h1, ?_⟩
    by_cases hxb : x = b
    · subst hxb
      rw [hfin_b, h.head_req hbl hq]
      simp
    · rw [hfin x hxb, h2]
      have hne : k ≠ s.completed.length := by
        intro hk
        rw [hk, hfifo, List.getElem?_append_left (by simp), List.getElem?_concat_length] at h1
        exact hxb (Option.some.inj h1).symm
      omega
  · intro q x k hq
    rw [hpc'] at hq
    obtain ⟨hq, hxb⟩ := IdePc.wake_eq_sleep hq
    rw [hfin x hxb]
    exact h.asleep q x k hq
  · intro q r x k k' hq hr
    rw [hpc', IdePc.req_wake] at hq hr
    exact h.excl q r x k k' hq hr

omit [DecidableEq ι] in
theorem flags (h : IdeInv s) (hlock : ∀ q n, (s.pc q).req ≠ some (b, n)) {v d : Fin NBUF → Bool}
    (hv : ∀ x, x ≠ b → v x = s.valid x) (hd : ∀ x, x ≠ b → d x = s.dirty x) :
    IdeInv { s with valid := v, dirty := d } := by
  have hb := h.not_mem_queue hlock
  have hfin : ∀ x, x ≠ b → IdeSys.finished { s with valid := v, dirty := d } x = s.finished x := by
    intro x hx
    unfold IdeSys.finished
    dsimp only
    rw [hv x hx, hd x hx]
  have hne : ∀ p x n, (s.pc p).req = some (x, n) → x ≠ b := by
    rintro p x n hp rfl
    exact hlock p n hp
  refine ⟨h.reads, h.fifo, h.disk, fun x hx => ?_, h.queued, fun p x n hp => ?_,
    fun p x n hp => ?_, h.excl⟩
  · rw [hfin x (fun he => hb (he ▸ hx))]
    exact h.pending x hx
  · rw [hfin x (hne p x n hp)]
    exact h.req p x n hp
  · rw [hfin x (hne p x n (by rw [hp, IdePc.req_sleep]))]
    exact h.asleep p x n hp

theorem step (h : IdeInv s) (hs : IdeStep s s') : IdeInv s' := by
  cases hs with
  | append p b hp hlock hs => exact h.append hp hlock hs
  | ret p hp hf => exact h.ret hp hf
  | sleep p hp hf => exact h.sleep hp hf
  | intr hd => exact h.intr hd
  | dirty b hlock => exact h.flags hlock (fun _ _ => rfl) (fun x hx => update_of_ne hx _ _)
  | recycle b hlock =>
    exact h.flags hlock (fun x hx => update_of_ne hx _ _) (fun x hx => update_of_ne hx _ _)

end IdeInv

end Xv6
