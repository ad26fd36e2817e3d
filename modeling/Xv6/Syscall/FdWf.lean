import Mathlib.Algebra.BigOperators.Fin
import Xv6.Syscall.Fd

set_option autoImplicit false
set_option linter.unusedSectionVars false

/-!
# Reference counts of open files

The invariant of the descriptor system: each file's `ref` is the number of descriptors that hold
it, and the pipes' ends are open exactly while their files are. Each file of an inode is one of
the inode's references; the others are the processes' (`FdSys.irefs`): the current directories,
but for a process in `exit` past `iput(cwd)`, and the inodes of freed files whose `fileclose` is
asleep before its `iput`. A descriptor that `exit` has closed and not yet cleared holds no
reference: between its `fileclose` and `curproc->ofile[fd] = 0`, the file it names may be free,
or another process's.

Inside a call a reference may be held by the call itself, between `filealloc` or `filedup` and
the descriptor that takes it over, or between clearing a descriptor and its `fileclose`; the
counts are compared with such references in a list `held`.
-/
namespace Xv6

open Function (update)

/-- What a process's phase says of its descriptors: an unused slot or a zombie holds no
descriptor and no directory, and `exit`'s loop has cleared every descriptor below the one it is
at. -/
def FdProc.Shaped {I : Type} (x : FdProc I) : Prop :=
  match x.phase with
  | .unused | .zombie => (∀ fd, x.ofile fd = none) ∧ x.cwd = none ∧ x.put = none
  | .live => x.put = none
  | .putting => True
  | .exiting k => (∀ fd : Fin NOFILE, fd.val < k → x.ofile fd = none) ∧ x.put = none
  | .closing fd => ∀ fd' : Fin NOFILE, fd'.val < fd.val → x.ofile fd' = none
  | .dropped => (∀ fd, x.ofile fd = none) ∧ x.put = none

namespace FdProc.Shaped

variable {I : Type} {x : FdProc I}

theorem of_live (h : x.phase = .live) (hput : x.put = none) : x.Shaped := by
  unfold FdProc.Shaped
  rw [h]
  exact hput

theorem live (hs : x.Shaped) (h : x.phase = .live) : x.put = none := by
  unfold FdProc.Shaped at hs
  rw [h] at hs
  exact hs

theorem idle (hs : x.Shaped) (h : x.phase = .unused ∨ x.phase = .zombie) :
    (∀ fd, x.ofile fd = none) ∧ x.cwd = none ∧ x.put = none := by
  unfold FdProc.Shaped at hs
  rcases h with h | h <;> rw [h] at hs <;> exact hs

theorem exiting (hs : x.Shaped) {k : Nat} (h : x.phase = .exiting k) :
    (∀ fd : Fin NOFILE, fd.val < k → x.ofile fd = none) ∧ x.put = none := by
  unfold FdProc.Shaped at hs
  rw [h] at hs
  exact hs

theorem closing (hs : x.Shaped) {fd : Fin NOFILE} (h : x.phase = .closing fd) :
    ∀ fd' : Fin NOFILE, fd'.val < fd.val → x.ofile fd' = none := by
  unfold FdProc.Shaped at hs
  rw [h] at hs
  exact hs

theorem dropped (hs : x.Shaped) (h : x.phase = .dropped) :
    (∀ fd, x.ofile fd = none) ∧ x.put = none := by
  unfold FdProc.Shaped at hs
  rw [h] at hs
  exact hs

end FdProc.Shaped

theorem FdProc.irefs_of_ne_dropped {I : Type} [DecidableEq I] {x : FdProc I}
    (h : x.phase ≠ .dropped) (i : I) :
    x.irefs i = (if x.cwd = some i then 1 else 0) + if x.put = some i then 1 else 0 := by
  unfold FdProc.irefs
  simp only [h, ne_eq, not_false_eq_true, and_true]

theorem ne_closing_of_live {I : Type} {x : FdProc I} (h : x.phase = .live) (fd : Fin NOFILE) :
    x.phase ≠ .closing fd := by
  rw [h]
  exact fun h' => by cases h'

variable {P I : Type} [DecidableEq P] [DecidableEq I]

namespace FdSys

/-- Descriptor `x.2` of process `x.1` holds a reference to `f`: it names `f`, and `exit` has not
closed it. -/
def Counted (s : FdSys P I) (f : Fin NFILE) (x : Fin NPROC × Fin NOFILE) : Prop :=
  (s.proc x.1).ofile x.2 = some f ∧ (s.proc x.1).phase ≠ .closing x.2

instance (s : FdSys P I) (f : Fin NFILE) : DecidablePred (s.Counted f) :=
  fun _ => inferInstanceAs (Decidable (_ ∧ _))

def refs (s : FdSys P I) (f : Fin NFILE) : Nat := Count.holders (s.Counted f)

/-- Each file's count is the descriptors that hold it and the references `held` of the call
under way. -/
def RefsAgree (s : FdSys P I) (held : List (Fin NFILE)) : Prop :=
  ∀ f, (s.fs.file f).ref = s.refs f + held.count f

variable {s : FdSys P I} {held : List (Fin NFILE)}

theorem refs_slot {s' : FdSys P I} (x : Fin NPROC × Fin NOFILE)
    (h : ∀ y, y ≠ x → ∀ f, (s.Counted f y ↔ s'.Counted f y)) (f : Fin NFILE) :
    s.refs f + (if s'.Counted f x then 1 else 0) = s'.refs f + (if s.Counted f x then 1 else 0) :=
  Count.holders_add_of_iff_off _ _ x fun y hy => h y hy f

theorem proc_setOfile (p q : Fin NPROC) (fd : Fin NOFILE) (v : Option (Fin NFILE)) :
    (s.setOfile p fd v).proc q =
      if q = p then { s.proc p with ofile := update (s.proc p).ofile fd v } else s.proc q :=
  setProc_proc _ _ _ _

theorem proc_setPhase (p q : Fin NPROC) (ph : FdPhase) :
    (s.setPhase p ph).proc q = if q = p then { s.proc p with phase := ph } else s.proc q :=
  setProc_proc _ _ _ _

theorem ofile_setOfile_self (p : Fin NPROC) (fd : Fin NOFILE) (v : Option (Fin NFILE)) :
    ((s.setOfile p fd v).proc p).ofile fd = v := by
  rw [proc_setOfile, if_pos rfl]
  exact Function.update_self _ _ _

theorem phase_setOfile (p q : Fin NPROC) (fd : Fin NOFILE) (v : Option (Fin NFILE)) :
    ((s.setOfile p fd v).proc q).phase = (s.proc q).phase := by
  rw [proc_setOfile]
  split_ifs with hq
  · rw [hq]
  · rfl

theorem counted_setOfile {p : Fin NPROC} {fd : Fin NOFILE} (v : Option (Fin NFILE))
    (y : Fin NPROC × Fin NOFILE) (hy : y ≠ (p, fd)) (f : Fin NFILE) :
    s.Counted f y ↔ (s.setOfile p fd v).Counted f y := by
  obtain ⟨q, fd'⟩ := y
  unfold Counted
  dsimp only
  rw [proc_setOfile]
  split_ifs with hq
  · subst hq
    have hfd : fd' ≠ fd := fun h => hy (by rw [h])
    dsimp only
    rw [Function.update_of_ne hfd]
  · rfl

theorem counted_setOfile_self (p : Fin NPROC) (fd : Fin NOFILE) (v : Option (Fin NFILE))
    (f : Fin NFILE) :
    (s.setOfile p fd v).Counted f (p, fd) ↔ v = some f ∧ (s.proc p).phase ≠ .closing fd := by
  unfold Counted
  rw [proc_setOfile, if_pos rfl]
  dsimp only
  rw [Function.update_self]

theorem counted_setProc {p : Fin NPROC} {x : FdProc I} (q : Fin NPROC) (fd : Fin NOFILE)
    (hy : q = p → x.ofile fd = (s.proc p).ofile fd ∧
      ((s.proc p).phase = .closing fd ↔ x.phase = .closing fd))
    (f : Fin NFILE) : s.Counted f (q, fd) ↔ (s.setProc p x).Counted f (q, fd) := by
  unfold Counted
  dsimp only
  rw [setProc_proc]
  split_ifs with hq
  · subst hq
    obtain ⟨ho, hph⟩ := hy rfl
    rw [ho, ne_eq, ne_eq, hph]
  · rfl

theorem counted_setPhase {p : Fin NPROC} {ph : FdPhase} (q : Fin NPROC) (fd : Fin NOFILE)
    (hy : q = p → ((s.proc p).phase = .closing fd ↔ ph = .closing fd))
    (f : Fin NFILE) : s.Counted f (q, fd) ↔ (s.setPhase p ph).Counted f (q, fd) :=
  counted_setProc (x := { s.proc p with phase := ph }) q fd (fun hq => ⟨rfl, hy hq⟩) f

theorem RefsAgree.of_counted (h : s.RefsAgree held) {s' : FdSys P I}
    (hc : ∀ y g, (s.Counted g y ↔ s'.Counted g y))
    (hf : ∀ g, (s'.fs.file g).ref = (s.fs.file g).ref) : s'.RefsAgree held := by
  intro g
  have hrefs : s.refs g = s'.refs g := Count.holders_congr fun y => hc y g
  rw [hf g, h g, hrefs]

theorem RefsAgree.setProc (h : s.RefsAgree held) {p : Fin NPROC} {x : FdProc I}
    (hx : x.ofile = (s.proc p).ofile)
    (hph : ∀ fd, (s.proc p).phase = .closing fd ↔ x.phase = .closing fd) :
    (s.setProc p x).RefsAgree held :=
  h.of_counted (fun ⟨q, fd⟩ g => counted_setProc q fd (fun _ => ⟨by rw [hx], hph fd⟩) g)
    fun _ => rfl

/-! ### What each part of a call does to the counts -/

theorem RefsAgree.of_ref (h : s.RefsAgree held) {s' : FdSys P I} (hproc : s'.proc = s.proc)
    {held' : List (Fin NFILE)}
    (hf : ∀ g, (s'.fs.file g).ref + held.count g = (s.fs.file g).ref + held'.count g) :
    s'.RefsAgree held' := by
  obtain ⟨fs', proc'⟩ := s'
  dsimp only at hproc
  subst hproc
  intro g
  have hg := hf g
  rw [h g] at hg
  change (fs'.file g).ref = s.refs g + _
  dsimp only at hg
  omega

theorem count_cons_ite (f g : Fin NFILE) (held : List (Fin NFILE)) :
    (f :: held).count g = held.count g + if g = f then 1 else 0 := by
  rw [List.count_cons]
  by_cases hg : g = f
  · subst hg
    simp
  · simp [Ne.symm hg, hg]

theorem RefsAgree.take (h : s.RefsAgree held) {fs : FileState P I} {f : Fin NFILE}
    (hf : ∀ g, (fs.file g).ref = (s.fs.file g).ref + if g = f then 1 else 0) :
    ({ s with fs } : FdSys P I).RefsAgree (f :: held) :=
  h.of_ref (by rfl) fun g => by
    change (fs.file g).ref + _ = _
    rw [hf g, count_cons_ite]
    omega

theorem RefsAgree.drop {f : Fin NFILE} (h : s.RefsAgree (f :: held)) {fs : FileState P I}
    (hf : ∀ g, (fs.file g).ref + (if g = f then 1 else 0) = (s.fs.file g).ref) :
    ({ s with fs } : FdSys P I).RefsAgree held :=
  h.of_ref (by rfl) fun g => by
    change (fs.file g).ref + _ = _
    rw [← hf g, count_cons_ite]
    omega

theorem RefsAgree.of_fs (h : s.RefsAgree held) {fs : FileState P I}
    (hf : ∀ g, (fs.file g).ref = (s.fs.file g).ref) : ({ s with fs } : FdSys P I).RefsAgree held :=
  h.of_ref (by rfl) fun g => by
    change (fs.file g).ref + _ = _
    rw [hf g]

theorem RefsAgree.move (h : s.RefsAgree held) {s' : FdSys P I} (x : Fin NPROC × Fin NOFILE)
    (hoff : ∀ y, y ≠ x → ∀ g, (s.Counted g y ↔ s'.Counted g y))
    (hfs : ∀ g, (s'.fs.file g).ref = (s.fs.file g).ref) {held' : List (Fin NFILE)}
    (hheld : ∀ g, held'.count g + (if s'.Counted g x then 1 else 0) =
      held.count g + (if s.Counted g x then 1 else 0)) : s'.RefsAgree held' := by
  intro g
  have hslot := refs_slot x hoff g
  have hh := hheld g
  rw [hfs, h g]
  omega

theorem RefsAgree.install {f : Fin NFILE} (h : s.RefsAgree (f :: held)) {p : Fin NPROC}
    {fd : Fin NOFILE} (hfd : (s.proc p).ofile fd = none) (hph : (s.proc p).phase ≠ .closing fd) :
    (s.setOfile p fd (some f)).RefsAgree held := by
  refine h.move (p, fd) (fun y hy g => counted_setOfile _ y hy g) (fun _ => rfl) fun g => ?_
  have hold : ¬ s.Counted g (p, fd) := fun hc => by
    have := hc.1
    rw [hfd] at this
    cases this
  rw [if_neg hold, count_cons_ite]
  by_cases hg : g = f
  · subst hg
    rw [if_pos ((counted_setOfile_self p fd _ g).2 ⟨rfl, hph⟩), if_pos rfl]
  · have hnew : ¬ (s.setOfile p fd (some f)).Counted g (p, fd) := fun hc =>
      hg (Option.some_inj.1 ((counted_setOfile_self p fd _ g).1 hc).1).symm
    rw [if_neg hnew, if_neg hg]

theorem RefsAgree.uninstall (h : s.RefsAgree held) {p : Fin NPROC} {fd : Fin NOFILE}
    {f : Fin NFILE} (hfd : (s.proc p).ofile fd = some f) (hph : (s.proc p).phase ≠ .closing fd) :
    (s.setOfile p fd none).RefsAgree (f :: held) := by
  refine h.move (p, fd) (fun y hy g => counted_setOfile _ y hy g) (fun _ => rfl) fun g => ?_
  have hnew : ¬ (s.setOfile p fd none).Counted g (p, fd) := fun hc => by
    have := ((counted_setOfile_self p fd _ g).1 hc).1
    cases this
  rw [if_neg hnew, count_cons_ite]
  by_cases hg : g = f
  · subst hg
    rw [if_pos (show s.Counted g (p, fd) from ⟨hfd, hph⟩), if_pos rfl]
  · have hc : ¬ s.Counted g (p, fd) := fun hc => hg (Option.some_inj.1 (hfd ▸ hc.1)).symm
    rw [if_neg hc, if_neg hg]

theorem RefsAgree.closing (h : s.RefsAgree held) {p : Fin NPROC} {fd : Fin NOFILE}
    {f : Fin NFILE} (hfd : (s.proc p).ofile fd = some f) (hph : (s.proc p).phase = .exiting fd.val)
    {x : FdProc I} (hx : x.ofile = (s.proc p).ofile) (hxph : x.phase = .closing fd) :
    (s.setProc p x).RefsAgree (f :: held) := by
  have hoff : ∀ y, y ≠ (p, fd) → ∀ g, (s.Counted g y ↔ (s.setProc p x).Counted g y) := by
    rintro ⟨q, fd'⟩ hy g
    refine counted_setProc q fd' (fun hq => ⟨by rw [hx], ?_⟩) g
    subst hq
    rw [hph, hxph]
    have hne : fd' ≠ fd := fun h' => hy (by rw [h'])
    exact ⟨fun h' => (by cases h'), fun h' => absurd (FdPhase.closing.inj h').symm hne⟩
  refine h.move (p, fd) hoff (fun _ => rfl) fun g => ?_
  have hnew : ¬ (s.setProc p x).Counted g (p, fd) := fun hc => by
    have := hc.2
    rw [setProc_proc, if_pos rfl, hxph] at this
    exact this rfl
  rw [if_neg hnew, count_cons_ite]
  by_cases hg : g = f
  · subst hg
    have hc : s.Counted g (p, fd) := ⟨hfd, by rw [hph]; exact fun h' => by cases h'⟩
    rw [if_pos hc, if_pos rfl]
  · have hc : ¬ s.Counted g (p, fd) := fun hc => hg (Option.some_inj.1 (hfd ▸ hc.1)).symm
    rw [if_neg hc, if_neg hg]

theorem exitClear_ofile_self (p : Fin NPROC) (fd : Fin NOFILE) :
    ((s.exitClear p fd).proc p).ofile fd = none := by
  unfold exitClear
  rw [proc_setPhase, if_pos rfl]
  dsimp only
  rw [proc_setOfile, if_pos rfl]
  exact Function.update_self _ _ _

theorem counted_exitClear {p : Fin NPROC} {fd : Fin NOFILE} (hph : (s.proc p).phase = .closing fd)
    (y : Fin NPROC × Fin NOFILE) (g : Fin NFILE) :
    s.Counted g y ↔ (s.exitClear p fd).Counted g y := by
  obtain ⟨q, fd'⟩ := y
  by_cases hy : (q, fd') = (p, fd)
  · simp only [Prod.mk.injEq] at hy
    obtain ⟨rfl, rfl⟩ := hy
    have hnew : ¬ (s.exitClear q fd').Counted g (q, fd') := fun hc => by
      have := hc.1
      rw [exitClear_ofile_self] at this
      cases this
    exact iff_of_false (fun hc => hc.2 hph) hnew
  · refine (counted_setOfile none (q, fd') hy g).trans (counted_setPhase q fd' (fun hq => ?_) g)
    subst hq
    rw [proc_setOfile, if_pos rfl]
    dsimp only
    rw [hph]
    have hne : fd ≠ fd' := fun h' => hy (by rw [h'])
    exact ⟨fun h' => absurd (FdPhase.closing.inj h') hne, fun h' => by cases h'⟩

theorem RefsAgree.clear (h : s.RefsAgree held) {p : Fin NPROC} {fd : Fin NOFILE}
    (hph : (s.proc p).phase = .closing fd) : (s.exitClear p fd).RefsAgree held := by
  intro g
  have hcount : (s.exitClear p fd).refs g = s.refs g :=
    (Count.holders_congr fun y => counted_exitClear hph y g).symm
  rw [hcount]
  exact h g

theorem RefsAgree.setPhase (h : s.RefsAgree held) {p : Fin NPROC} {ph : FdPhase}
    (hold : ∀ fd, (s.proc p).phase ≠ .closing fd) (hnew : ∀ fd, ph ≠ .closing fd) :
    (s.setPhase p ph).RefsAgree held :=
  h.setProc rfl fun fd => iff_of_false (hold fd) (hnew fd)

/-! ### Whole rows, directories and files in use -/

theorem counted_setProc_self (p : Fin NPROC) (x : FdProc I) (fd : Fin NOFILE) (g : Fin NFILE) :
    (s.setProc p x).Counted g (p, fd) ↔ x.ofile fd = some g ∧ x.phase ≠ .closing fd := by
  unfold Counted
  dsimp only
  rw [setProc_proc, if_pos rfl]

theorem refs_row {s' : FdSys P I} (q : Fin NPROC)
    (hoff : ∀ q', q' ≠ q → ∀ fd g, (s.Counted g (q', fd) ↔ s'.Counted g (q', fd)))
    (g : Fin NFILE) :
    s.refs g + Count.holders (fun fd => s'.Counted g (q, fd)) =
      s'.refs g + Count.holders (fun fd => s.Counted g (q, fd)) := by
  unfold refs Count.holders
  rw [Fintype.sum_prod_type, Fintype.sum_prod_type]
  exact Count.sum_add_of_eq_off (f := fun q' => ∑ fd, if s.Counted g (q', fd) then 1 else 0)
    (g := fun q' => ∑ fd, if s'.Counted g (q', fd) then 1 else 0) q fun q' hq' =>
      Finset.sum_congr rfl fun fd _ => if_congr (hoff q' hq' fd g) rfl rfl

theorem RefsAgree.pos (h : s.RefsAgree held) {f : Fin NFILE} (hf : f ∈ held) :
    0 < (s.fs.file f).ref := by
  have := List.count_pos_iff.2 hf
  rw [h f]
  omega

theorem counted_congr {s₁ s₂ : FdSys P I} (h : s₁.proc = s₂.proc) (g : Fin NFILE)
    (y : Fin NPROC × Fin NOFILE) : s₁.Counted g y ↔ s₂.Counted g y := by
  unfold Counted
  rw [h]

theorem irefs_congr {s₁ s₂ : FdSys P I} (h : s₁.proc = s₂.proc) : s₁.irefs = s₂.irefs := by
  unfold irefs
  rw [h]

theorem irefs_add_of_setProc (p : Fin NPROC) (x : FdProc I) (i : I) :
    s.irefs i + x.irefs i = (s.setProc p x).irefs i + (s.proc p).irefs i := by
  have h := Count.sum_add_of_eq_off (f := fun q => (s.proc q).irefs i)
    (g := fun q => ((s.setProc p x).proc q).irefs i) p fun q hq => by rw [setProc_proc, if_neg hq]
  rw [setProc_proc, if_pos rfl] at h
  exact h

theorem irefs_setProc {p : Fin NPROC} {x : FdProc I} (hx : x.irefs = (s.proc p).irefs) :
    (s.setProc p x).irefs = s.irefs :=
  funext fun i => by
    have h := irefs_add_of_setProc (s := s) p x i
    rw [hx] at h
    omega

@[simp] theorem irefs_with (t : FdSys P I) (fs : FileState P I) :
    ({ t with fs } : FdSys P I).irefs = t.irefs := rfl

@[simp] theorem irefs_setOfile (p : Fin NPROC) (fd : Fin NOFILE) (v : Option (Fin NFILE)) :
    (s.setOfile p fd v).irefs = s.irefs :=
  irefs_setProc rfl

theorem irefs_setPhase {p : Fin NPROC} {ph : FdPhase} (hold : (s.proc p).phase ≠ .dropped)
    (hnew : ph ≠ .dropped) : (s.setPhase p ph).irefs = s.irefs :=
  irefs_setProc <| funext fun i => by
    rw [FdProc.irefs_of_ne_dropped hnew, FdProc.irefs_of_ne_dropped hold]

/-- A new row with the same directory, in a phase other than `dropped`, moves each inode's count
by what the old and the new `put` hold. -/
theorem irefs_add_of_put {p : Fin NPROC} {x : FdProc I} (hcwd : x.cwd = (s.proc p).cwd)
    (hold : (s.proc p).phase ≠ .dropped) (hnew : x.phase ≠ .dropped) (i : I) :
    (s.setProc p x).irefs i + (if (s.proc p).put = some i then 1 else 0) =
      s.irefs i + if x.put = some i then 1 else 0 := by
  have h := irefs_add_of_setProc (s := s) p x i
  rw [FdProc.irefs_of_ne_dropped hnew, FdProc.irefs_of_ne_dropped hold, hcwd] at h
  omega

theorem irefs_eq_holders (i : I) : s.irefs i =
    Count.holders (fun p => (s.proc p).cwd = some i ∧ (s.proc p).phase ≠ .dropped) +
      Count.holders (fun p => (s.proc p).put = some i) := by
  unfold irefs FdProc.irefs Count.holders
  exact Finset.sum_add_distrib

theorem shaped_setProc (hs : ∀ q, (s.proc q).Shaped) {p : Fin NPROC} {x : FdProc I}
    (hx : x.Shaped) : ∀ q, ((s.setProc p x).proc q).Shaped := by
  intro q
  rw [setProc_proc]
  split_ifs
  · exact hx
  · exact hs q

theorem shaped_setOfile (hs : ∀ q, (s.proc q).Shaped) {p : Fin NPROC}
    (hp : (s.proc p).phase = .live) (fd : Fin NOFILE) (v : Option (Fin NFILE)) :
    ∀ q, ((s.setOfile p fd v).proc q).Shaped :=
  shaped_setProc hs (FdProc.Shaped.of_live
    (x := { s.proc p with ofile := update (s.proc p).ofile fd v }) hp ((hs p).live hp))

/-! ### The invariant inside a call -/

/-- Inside a call that holds the file references `held`, with `ic` the holders of each inode
outside the table. -/
structure CallWf (s : FdSys P I) (ic : I → Nat) (held : List (Fin NFILE)) : Prop where
  files : s.fs.Wf ic
  refs : s.RefsAgree held

namespace CallWf

variable {ic : I → Nat} {f : Fin NFILE}

theorem take_alloc (hw : s.CallWf ic held) {fs : FileState P I}
    (h : s.fs.filealloc = some (f, fs)) : ({ s with fs } : FdSys P I).CallWf ic (f :: held) :=
  ⟨(hw.files.filealloc h).1, hw.refs.take (FileState.filealloc_ref h)⟩

theorem take_dup (hw : s.CallWf ic held) {fs : FileState P I}
    (h : s.fs.filedup f = .ok fs) : ({ s with fs } : FdSys P I).CallWf ic (f :: held) :=
  ⟨hw.files.filedup h, hw.refs.take (FileState.filedup_ref h)⟩

theorem close (hw : s.CallWf ic (f :: held)) {fs : FileState P I}
    (h : s.fs.fileclose f = .ok fs) : ({ s with fs } : FdSys P I).CallWf ic held :=
  have hpos := hw.refs.pos List.mem_cons_self
  ⟨hw.files.fileclose hpos h, hw.refs.drop (FileState.fileclose_ref hpos h)⟩

theorem closeBegin (hw : s.CallWf ic (f :: held)) {fs : FileState P I} {ip : Option I}
    (h : s.fs.filecloseBegin f = .ok (fs, ip)) :
    ({ s with fs } : FdSys P I).CallWf (fun i => ic i + if ip = some i then 1 else 0) held :=
  have hpos := hw.refs.pos List.mem_cons_self
  ⟨hw.files.filecloseBegin hpos h, hw.refs.drop (FileState.filecloseBegin_ref hpos h)⟩

theorem install (hw : s.CallWf ic (f :: held)) {p : Fin NPROC} {fd : Fin NOFILE}
    (hfd : (s.proc p).ofile fd = none) (hph : (s.proc p).phase ≠ .closing fd) :
    (s.setOfile p fd (some f)).CallWf ic held :=
  ⟨hw.files, hw.refs.install hfd hph⟩

theorem uninstall (hw : s.CallWf ic held) {p : Fin NPROC} {fd : Fin NOFILE}
    (hfd : (s.proc p).ofile fd = some f) (hph : (s.proc p).phase ≠ .closing fd) :
    (s.setOfile p fd none).CallWf ic (f :: held) :=
  ⟨hw.files, hw.refs.uninstall hfd hph⟩

end CallWf

end FdSys

/-- The invariant of the descriptor system, between calls. -/
structure FdSys.FdWf (s : FdSys P I) : Prop extends s.CallWf s.irefs [] where
  shaped : ∀ p, (s.proc p).Shaped

namespace FdSys.FdWf

variable {s s' : FdSys P I}

theorem of_call {ic : I → Nat} (hw : s.CallWf ic []) (hic : s.irefs = ic)
    (hs : ∀ p, (s.proc p).Shaped) : s.FdWf :=
  ⟨⟨by rw [hic]; exact hw.files, hw.refs⟩, hs⟩

theorem exitBegin (hw : s.FdWf) {p : Fin NPROC} (hp : (s.proc p).phase = .live) :
    (s.setPhase p (.exiting 0)).FdWf :=
  of_call ⟨hw.files, hw.refs.setPhase (ne_closing_of_live hp) fun _ h => by cases h⟩
    (irefs_setPhase (by rw [hp]; nofun) nofun)
    (shaped_setProc hw.shaped ⟨fun _ h => absurd h (Nat.not_lt_zero _), (hw.shaped p).live hp⟩)

theorem exitClose (hw : s.FdWf) {p : Fin NPROC} {fd : Fin NOFILE}
    (hp : (s.proc p).phase = .exiting fd.val) (h : s.exitClose p fd = .ok s') : s'.FdWf := by
  obtain ⟨hbelow, hput⟩ := (hw.shaped p).exiting hp
  have hnot : ∀ fd', (s.proc p).phase ≠ .closing fd' := fun fd' => by
    rw [hp]
    exact fun h' => by cases h'
  have hnd : (s.proc p).phase ≠ .dropped := by rw [hp]; nofun
  unfold FdSys.exitClose at h
  rcases hfd : (s.proc p).ofile fd with _ | f
  · rw [hfd] at h
    cases h
    refine of_call ⟨hw.files, hw.refs.setPhase hnot fun _ h => by cases h⟩ (irefs_setPhase hnd nofun)
      (shaped_setProc hw.shaped ⟨fun fd' hlt => ?_, hput⟩)
    rcases Nat.lt_succ_iff_lt_or_eq.1 hlt with hlt | heq
    · exact hbelow fd' hlt
    · rw [Fin.ext heq]
      exact hfd
  · -- `fileclose` of `ofile[fd]` up to its `begin_op`; the slot is cleared later
    rw [hfd] at h
    dsimp only at h
    cases hcl : s.fs.filecloseBegin f with
    | error e =>
      rw [hcl] at h
      cases h
    | ok r =>
      obtain ⟨fs, ip⟩ := r
      rw [hcl] at h
      simp only [Except.map, Except.ok.injEq] at h
      subst h
      have hc : (s.setProc p { s.proc p with phase := .closing fd, put := ip }).CallWf s.irefs [f] :=
        ⟨hw.files, hw.refs.closing hfd hp rfl rfl⟩
      refine of_call (hc.closeBegin hcl) (funext fun i => ?_) (shaped_setProc hw.shaped hbelow)
      have h' := irefs_add_of_put (x := { s.proc p with phase := .closing fd, put := ip }) rfl hnd
        (fun h => by cases h) i
      simp only [hput, reduceCtorEq, if_false, add_zero] at h'
      rw [irefs_with (s.setProc p _)]
      exact h'

theorem filecloseEnd (hw : s.FdWf) {p : Fin NPROC} {i : I} {ph : FdPhase}
    (hput : (s.proc p).put = some i) (hnd : (s.proc p).phase ≠ .dropped) (hph : ph ≠ .dropped)
    (hcl : ∀ fd, (s.proc p).phase = .closing fd ↔ ph = .closing fd)
    (hsh : FdProc.Shaped { s.proc p with phase := ph, put := none }) :
    (s.filecloseEnd p i ph).FdWf := by
  unfold FdSys.filecloseEnd
  dsimp only
  have hrefs := hw.refs.setProc (p := p) (x := { s.proc p with phase := ph, put := none }) rfl hcl
  refine ⟨⟨hw.files.iput i fun j => ?_, hrefs.of_fs fun _ => rfl⟩, shaped_setProc hw.shaped hsh⟩
  have h' := irefs_add_of_put (x := { s.proc p with phase := ph, put := none }) rfl hnd hph j
  simp only [hput, Option.some.injEq, reduceCtorEq, if_false, add_zero] at h'
  rw [irefs_with (s.setProc p _)]
  omega

theorem exitClear (hw : s.FdWf) {p : Fin NPROC} {fd : Fin NOFILE}
    (hp : (s.proc p).phase = .closing fd) (hput : (s.proc p).put = none) :
    (s.exitClear p fd).FdWf := by
  refine of_call ⟨hw.files, hw.refs.clear hp⟩ ?_ fun q => ?_
  · unfold FdSys.exitClear
    have hnew : FdPhase.exiting (fd.val + 1) ≠ .dropped := nofun
    rw [irefs_setPhase (by rw [phase_setOfile, hp]; nofun) hnew, irefs_setOfile]
  · unfold FdSys.exitClear
    rw [proc_setPhase]
    split_ifs with hq
    · subst hq
      refine ⟨fun fd' hlt => ?_, by rw [proc_setOfile, if_pos rfl]; exact hput⟩
      show ((s.setOfile q fd none).proc q).ofile fd' = none
      rw [proc_setOfile, if_pos rfl]
      dsimp only
      rw [Function.update_apply]
      split_ifs with he
      · rfl
      · exact (hw.shaped q).closing hp fd'
          (lt_of_le_of_ne (Nat.lt_succ_iff.1 hlt) fun h' => he (Fin.ext h'))
    · rw [proc_setOfile, if_neg hq]
      exact hw.shaped q

theorem wait (hw : s.FdWf) {p : Fin NPROC} (hp : (s.proc p).phase = .zombie) :
    (s.setPhase p .unused).FdWf :=
  have hnot : ∀ fd, (s.proc p).phase ≠ .closing fd := fun _ => by
    rw [hp]
    exact fun h' => by cases h'
  of_call ⟨hw.files, hw.refs.setPhase hnot fun _ h => by cases h⟩
    (irefs_setPhase (by rw [hp]; nofun) nofun)
    (shaped_setProc hw.shaped ((hw.shaped p).idle (Or.inr hp)))

theorem exitIput (hw : s.FdWf) {p : Fin NPROC} (hp : (s.proc p).phase = .exiting NOFILE) :
    (s.exitIput p).FdWf := by
  obtain ⟨hbelow, hput⟩ := (hw.shaped p).exiting hp
  have hrefs : (s.setPhase p .dropped).RefsAgree [] :=
    hw.refs.setPhase (fun _ => by rw [hp]; nofun) fun _ => nofun
  have hsh := shaped_setProc hw.shaped (p := p) (x := { s.proc p with phase := .dropped })
    ⟨fun fd => hbelow fd fd.isLt, hput⟩
  have hcw : ∀ i, s.irefs i =
      (s.setPhase p .dropped).irefs i + if (s.proc p).cwd = some i then 1 else 0 := fun i => by
    have h' := irefs_add_of_setProc (s := s) p { s.proc p with phase := .dropped } i
    have hold : (s.proc p).irefs i = if (s.proc p).cwd = some i then 1 else 0 := by
      rw [FdProc.irefs_of_ne_dropped (by rw [hp]; nofun), hput]
      simp
    have hnew : FdProc.irefs { s.proc p with phase := .dropped } i = 0 := by
      simp [FdProc.irefs, hput]
    rw [hold, hnew, add_zero] at h'
    exact h'
  unfold FdSys.exitIput
  cases hcwd : (s.proc p).cwd with
  | none =>
    dsimp only
    have hirefs : (s.setPhase p .dropped).irefs = s.irefs := funext fun i => by
      rw [hcw i]
      simp [hcwd]
    refine ⟨⟨?_, hrefs.of_fs fun _ => rfl⟩, hsh⟩
    show s.fs.Wf (s.setPhase p .dropped).irefs
    rw [hirefs]
    exact hw.files
  | some i =>
    dsimp only
    refine ⟨⟨hw.files.iput i fun j => ?_, hrefs.of_fs fun _ => rfl⟩, hsh⟩
    rw [hcw j]
    simp only [hcwd, Option.some.injEq]
    rfl

theorem exitDone (hw : s.FdWf) {p : Fin NPROC} (hp : (s.proc p).phase = .dropped) :
    (s.exitDone p).FdWf := by
  obtain ⟨hclear, hput⟩ := (hw.shaped p).dropped hp
  have hirefs : (s.exitDone p).irefs = s.irefs := irefs_setProc <| funext fun i => by
    simp [FdProc.irefs, hp, hput]
  refine ⟨⟨?_, hw.refs.setProc rfl fun _ => iff_of_false (by rw [hp]; nofun) nofun⟩,
    shaped_setProc hw.shaped ⟨hclear, rfl, hput⟩⟩
  rw [hirefs]
  exact hw.files

theorem sys_close (hw : s.FdWf) {p : Fin NPROC} {fd : Fin NOFILE} {r : Int}
    (hp : (s.proc p).phase = .live) (h : s.sys_close p fd = .ok (r, s')) : s'.FdWf := by
  unfold FdSys.sys_close at h
  rcases hfd : (s.proc p).ofile fd with _ | f
  · rw [hfd] at h
    cases h
    exact hw
  rw [hfd] at h
  dsimp only at h
  have hc := hw.toCallWf.uninstall hfd (ne_closing_of_live hp fd)
  have hsh := shaped_setOfile hw.shaped hp fd none
  cases hcl : s.fs.filecloseBegin f with
  | error e =>
    rw [setOfile_fs, hcl] at h
    cases h
  | ok r =>
    obtain ⟨fs, ip⟩ := r
    rw [setOfile_fs, hcl] at h
    have hc' := hc.closeBegin hcl
    cases ip with
    | none =>
      simp only [Except.map, Except.ok.injEq, Prod.mk.injEq] at h
      obtain ⟨-, rfl⟩ := h
      exact of_call hc' (funext fun i => by simp) hsh
    | some i =>
      simp only [Except.map, Except.ok.injEq, Prod.mk.injEq] at h
      obtain ⟨-, rfl⟩ := h
      have hp₁ : ((s.setOfile p fd none).proc p).phase = .live := (phase_setOfile p p fd none).trans hp
      have hput₁ : ((s.setOfile p fd none).proc p).put = none := by
        rw [proc_setOfile, if_pos rfl]
        exact (hw.shaped p).live hp
      refine of_call ⟨hc'.files, hc'.refs.setProc rfl fun _ =>
        iff_of_false (ne_closing_of_live hp₁ _) nofun⟩ (funext fun j => ?_) (shaped_setProc hsh trivial)
      have h' := irefs_add_of_put (s := s.setOfile p fd none)
        (x := { (s.setOfile p fd none).proc p with phase := .putting, put := some i }) rfl
        (by rw [hp₁]; nofun) nofun j
      simp only [hput₁, irefs_setOfile, reduceCtorEq, if_false, add_zero] at h'
      rw [irefs_with ((s.setOfile p fd none).setProc p _)]
      exact h'

theorem sys_dup (hw : s.FdWf) {p : Fin NPROC} {fd : Fin NOFILE} {r : Int}
    (hp : (s.proc p).phase = .live) (h : s.sys_dup p fd = .ok (r, s')) : s'.FdWf := by
  unfold FdSys.sys_dup at h
  rcases hfd : (s.proc p).ofile fd with _ | f
  · rw [hfd] at h
    cases h
    exact hw
  rw [hfd] at h
  dsimp only at h
  rcases ha : s.fdalloc p f with _ | ⟨fd', s₁⟩
  · rw [ha] at h
    cases h
    exact hw
  rw [ha] at h
  dsimp only at h
  obtain ⟨hempty, rfl⟩ := fdalloc_eq_some ha
  cases hd : s.fs.filedup f with
  | error e =>
    rw [setOfile_fs, hd] at h
    cases h
  | ok fs =>
    rw [setOfile_fs, hd] at h
    simp only [Except.map, Except.ok.injEq, Prod.mk.injEq] at h
    obtain ⟨-, rfl⟩ := h
    have hc := (hw.toCallWf.take_dup hd).install (p := p) hempty (ne_closing_of_live hp fd')
    exact of_call hc (irefs_setOfile (s := s) p fd' _) (shaped_setOfile hw.shaped hp fd' _)

theorem sys_open (hw : s.FdWf) {p : Fin NPROC} {ip : I} {omode : Nat} {r : Int}
    (hp : (s.proc p).phase = .live) (h : s.sys_open p ip omode = .ok (r, s')) : s'.FdWf := by
  have hw₀ : (s.fs.idup ip).Wf (update s.irefs ip (s.irefs ip + 1)) :=
    hw.files.idup ip (Function.update_self _ _ _) fun j hj => Function.update_of_ne hj _ _
  have hput : ∀ {fs : FileState P I}, fs.Wf (update s.irefs ip (s.irefs ip + 1)) →
      (fs.iput ip).Wf s.irefs := fun hfs =>
    hfs.iput ip fun j => by
      by_cases hj : j = ip
      · subst hj
        simp
      · rw [Function.update_of_ne hj, if_neg (Ne.symm hj), add_zero]
  have hc₀ : ({ s with fs := s.fs.idup ip } : FdSys P I).CallWf
      (update s.irefs ip (s.irefs ip + 1)) [] := ⟨hw₀, hw.refs.of_fs fun _ => rfl⟩
  unfold FdSys.sys_open at h
  dsimp only at h
  rcases ha : (s.fs.idup ip).filealloc with _ | ⟨f, fs⟩
  · rw [ha] at h
    cases h
    exact ⟨⟨hput hw₀, hw.refs.of_fs fun _ => rfl⟩, hw.shaped⟩
  rw [ha] at h
  dsimp only at h
  have hc₁ := hc₀.take_alloc ha
  have hnone : (fs.file f).type = .FD_NONE := by
    obtain ⟨-, rfl⟩ := FileState.filealloc_eq_some ha
    rw [FileState.setFile_file_self]
    exact (hw₀.filealloc ha).2
  have hone : 0 < (fs.file f).ref := by
    rw [FileState.filealloc_ref ha, if_pos rfl]
    omega
  split at h
  · cases hcl : fs.fileclose f with
    | error e =>
      rw [hcl] at h
      cases h
    | ok fs₁ =>
      rw [hcl] at h
      simp only [Except.map, Except.ok.injEq, Prod.mk.injEq] at h
      obtain ⟨-, rfl⟩ := h
      have hc₂ := hc₁.close hcl
      exact ⟨⟨hput hc₂.files, hc₂.refs.of_fs fun _ => rfl⟩, hw.shaped⟩
  · rename_i fd s₂ hd
    obtain ⟨hempty, rfl⟩ := fdalloc_eq_some hd
    cases h
    have hc₂ := hc₁.install hempty (ne_closing_of_live hp fd)
    refine ⟨⟨?_, hc₂.refs.of_fs fun g => ?_⟩, shaped_setOfile hw.shaped hp fd _⟩
    · refine hc₂.files.setInode hnone rfl ?_ (by simp) (by simp) fun j hj => ?_
      · exact hone
      · simp only [irefs_with, irefs_setOfile]
        rw [Function.update_of_ne hj]
    · rw [FileState.setFile_file]
      split_ifs with hg
      · rw [hg]
      · rfl

theorem sys_pipe (hw : s.FdWf) {p : Fin NPROC} {page : Option P} {r : Int}
    (hp : (s.proc p).phase = .live) (hpage : ∀ q, page = some q → s.fs.alloc q = false)
    (h : s.sys_pipe p page = .ok (r, s')) : s'.FdWf := by
  unfold FdSys.sys_pipe at h
  rcases hpa : s.fs.pipealloc page with e | ⟨_ | ⟨rf, wf⟩, fs⟩
  · rw [hpa] at h
    cases h
  · rw [hpa] at h
    cases h
    have hfs := hw.files.pipealloc hpage hpa
    exact ⟨⟨hfs.1, hw.refs.of_fs fun g => (hfs.2 g).trans (Nat.add_zero _)⟩, hw.shaped⟩
  rw [hpa] at h
  dsimp only at h
  have hfs := hw.files.pipealloc hpage hpa
  have hc : ({ s with fs } : FdSys P I).CallWf s.irefs [rf, wf] := by
    refine ⟨hfs.1, hw.refs.of_ref (by rfl) fun g => ?_⟩
    have hg := hfs.2 g
    dsimp only at hg
    change (fs.file g).ref + _ = _
    rw [hg, count_cons_ite, count_cons_ite, List.count_nil]
    omega
  split at h
  · rename_i fd0 s₁ hd₀
    obtain ⟨hempty₀, rfl⟩ := fdalloc_eq_some hd₀
    have hc₁ := hc.install hempty₀ (ne_closing_of_live hp fd0)
    split at h
    · rename_i fd1 s₂ hd₁
      obtain ⟨hempty₁, rfl⟩ := fdalloc_eq_some hd₁
      cases h
      have hp₁ : ((({ s with fs } : FdSys P I).setOfile p fd0 (some rf)).proc p).phase = .live :=
        (phase_setOfile p p fd0 _).trans hp
      exact of_call (hc₁.install hempty₁ (ne_closing_of_live hp₁ fd1))
        (by simp only [irefs_with, irefs_setOfile])
        (shaped_setOfile (shaped_setOfile hw.shaped hp fd0 _) hp₁ fd1 _)
    · have hp₁ : ((({ s with fs } : FdSys P I).setOfile p fd0 (some rf)).proc p).phase = .live :=
        (phase_setOfile p p fd0 _).trans hp
      have hc₂ := hc₁.uninstall (ofile_setOfile_self p fd0 _) (ne_closing_of_live hp₁ fd0)
      cases hcl : fs.fileclose rf with
      | error e =>
        rw [setOfile_fs, setOfile_fs] at h
        dsimp only at h
        rw [hcl] at h
        cases h
      | ok fs₁ =>
        rw [setOfile_fs, setOfile_fs] at h
        dsimp only at h
        rw [hcl] at h
        dsimp only at h
        have hc₃ := hc₂.close hcl
        cases hcl' : fs₁.fileclose wf with
        | error e =>
          rw [hcl'] at h
          cases h
        | ok fs₂ =>
          rw [hcl'] at h
          simp only [Except.map, Except.ok.injEq, Prod.mk.injEq] at h
          obtain ⟨-, rfl⟩ := h
          exact of_call (hc₃.close hcl') (by simp only [irefs_with, irefs_setOfile])
            (shaped_setOfile (shaped_setOfile hw.shaped hp fd0 _) hp₁ fd0 _)
  · cases hcl : fs.fileclose rf with
    | error e =>
      rw [hcl] at h
      cases h
    | ok fs₁ =>
      rw [hcl] at h
      dsimp only at h
      have hc₃ := hc.close hcl
      cases hcl' : fs₁.fileclose wf with
      | error e =>
        rw [hcl'] at h
        cases h
      | ok fs₂ =>
        rw [hcl'] at h
        simp only [Except.map, Except.ok.injEq, Prod.mk.injEq] at h
        obtain ⟨-, rfl⟩ := h
        exact ⟨hc₃.close hcl', hw.shaped⟩

theorem forkFiles_spec {fs fs' : FileState P I} {ic : I → Nat} (hw : fs.Wf ic)
    (ofile : Fin NOFILE → Option (Fin NFILE)) (l : List (Fin NOFILE))
    (h : forkFiles fs ofile l = .ok fs') :
    fs'.Wf ic ∧ ∀ g, (fs'.file g).ref =
      (fs.file g).ref + (l.map fun i => if ofile i = some g then 1 else 0).sum := by
  induction l generalizing fs with
  | nil =>
    cases h
    exact ⟨hw, fun g => rfl⟩
  | cons i is ih =>
    rw [forkFiles] at h
    cases hi : ofile i with
    | none =>
      rw [hi] at h
      obtain ⟨hw', href⟩ := ih hw h
      refine ⟨hw', fun g => ?_⟩
      rw [href g, List.map_cons, List.sum_cons, hi, if_neg (fun h' => by cases h'), Nat.zero_add]
    | some f =>
      rw [hi] at h
      dsimp only at h
      cases hd : fs.filedup f with
      | error e =>
        rw [hd] at h
        cases h
      | ok fs₁ =>
        rw [hd] at h
        obtain ⟨hw', href⟩ := ih (hw.filedup hd) h
        refine ⟨hw', fun g => ?_⟩
        rw [href g, FileState.filedup_ref hd g, List.map_cons, List.sum_cons, hi]
        by_cases hg : g = f
        · subst hg
          rw [if_pos rfl, if_pos rfl]
          omega
        · rw [if_neg hg, if_neg (fun h' => hg (Option.some_inj.1 h').symm)]
          omega

theorem fork_child (hw : s.FdWf) {p np : Fin NPROC} (hnp : (s.proc np).phase = .unused) {fs : FileState P I}
    (hf : forkFiles s.fs (s.proc p).ofile (List.finRange NOFILE) = .ok fs)
    (hproc : s'.proc = update s.proc np
      ⟨.live, fun i => ((s.proc p).ofile i).or ((s.proc np).ofile i), (s.proc p).cwd, none⟩)
    (hfs : s'.fs = match (s.proc p).cwd with
      | some i => fs.idup i
      | none => fs) : s'.FdWf := by
  obtain ⟨hnofile, hnocwd, hnoput⟩ := (hw.shaped np).idle (Or.inl hnp)
  obtain ⟨hwfs, hrefs⟩ := forkFiles_spec hw.files _ _ hf
  have hproc' : s'.proc = (s.setProc np
      ⟨.live, fun i => ((s.proc p).ofile i).or ((s.proc np).ofile i), (s.proc p).cwd, none⟩).proc :=
    hproc
  have hrow : ∀ q, q ≠ np → ∀ fd g, (s.Counted g (q, fd) ↔ s'.Counted g (q, fd)) :=
    fun q hq fd g => by
      rw [counted_congr hproc' g]
      exact counted_setProc q fd (fun h => absurd h hq) g
  have hchild : ∀ g, Count.holders (fun fd => s'.Counted g (np, fd)) =
      ((List.finRange NOFILE).map fun i => if (s.proc p).ofile i = some g then 1 else 0).sum :=
    fun g => by
      rw [← Fin.sum_univ_def]
      refine Count.holders_congr fun fd => ?_
      rw [counted_congr hproc' g, counted_setProc_self]
      dsimp only
      rw [hnofile fd, Option.or_none]
      exact ⟨fun h' => h'.1, fun h' => ⟨h', fun h'' => by cases h''⟩⟩
  have hold : ∀ g, Count.holders (fun fd => s.Counted g (np, fd)) = 0 :=
    fun g => Count.holders_eq_zero fun fd hc => by
      have h' := hc.1
      rw [hnofile] at h'
      cases h'
  have hfile : s'.fs.file = fs.file := by
    rw [hfs]
    cases (s.proc p).cwd <;> rfl
  have href : s'.RefsAgree [] := fun g => by
    have hr := refs_row np hrow g
    rw [hchild, hold] at hr
    rw [hfile, hrefs g, hw.refs g]
    simp only [List.count_nil, add_zero] at hr ⊢
    exact hr
  have hcw : ∀ i, s'.irefs i = s.irefs i + if (s.proc p).cwd = some i then 1 else 0 := fun i => by
    have h' := irefs_add_of_setProc (s := s) np
      ⟨.live, fun i => ((s.proc p).ofile i).or ((s.proc np).ofile i), (s.proc p).cwd, none⟩ i
    rw [← irefs_congr hproc'] at h'
    simp [FdProc.irefs, hnocwd, hnoput] at h'
    exact h'.symm
  have hshaped : ∀ q, (s'.proc q).Shaped := by
    rw [hproc']
    exact shaped_setProc hw.shaped (FdProc.Shaped.of_live rfl rfl)
  refine ⟨⟨?_, href⟩, hshaped⟩
  rw [hfs]
  cases hcwd : (s.proc p).cwd with
  | none =>
    rw [hcwd] at hcw
    dsimp only
    rw [funext fun i => (hcw i).trans (by rw [if_neg (fun h' => by cases h'), add_zero])]
    exact hwfs
  | some i =>
    rw [hcwd] at hcw
    dsimp only
    refine hwfs.idup i (by rw [hcw, if_pos rfl]) fun j hj => ?_
    rw [hcw, if_neg (fun h' => hj (Option.some_inj.1 h').symm), add_zero]

theorem fork (hw : s.FdWf) {p : Fin NPROC} {copied : Bool} {r : Option (Fin NPROC)}
    (h : s.fork p copied = .ok (r, s')) : s'.FdWf := by
  unfold FdSys.fork at h
  split at h
  · cases h
    exact hw
  rename_i np hfind
  have hnp : (s.proc np).phase = .unused := of_decide_eq_true (Fin.find?_eq_some_iff.1 hfind).1
  split_ifs at h with hc
  · cases h
    exact hw
  cases hf : forkFiles s.fs (s.proc p).ofile (List.finRange NOFILE) with
  | error e =>
    rw [hf] at h
    cases h
  | ok fs =>
    rw [hf] at h
    dsimp only at h
    cases h
    exact hw.fork_child hnp hf rfl rfl

theorem step (hw : s.FdWf) (h : FdStep s s') : s'.FdWf := by
  cases h with
  | dup p fd r hp h => exact hw.sys_dup hp h
  | close p fd r hp h => exact hw.sys_close hp h
  | closePut p i hp hput =>
    exact hw.filecloseEnd hput (by rw [hp]; nofun) nofun
      (fun _ => iff_of_false (by rw [hp]; nofun) nofun) rfl
  | «open» p ip omode r hp h => exact hw.sys_open hp h
  | pipe p page r hp hpage h => exact hw.sys_pipe hp hpage h
  | fork p copied r _ h => exact hw.fork h
  | exitBegin p hp => exact hw.exitBegin hp
  | exitClose p fd hp h => exact hw.exitClose hp h
  | exitPut p fd i hp hput =>
    exact hw.filecloseEnd hput (by rw [hp]; nofun) nofun (fun _ => by rw [hp])
      ((hw.shaped p).closing hp)
  | exitClear p fd hp hput => exact hw.exitClear hp hput
  | exitIput p hp => exact hw.exitIput hp
  | exitDone p hp => exact hw.exitDone hp
  | wait p hp => exact hw.wait hp

theorem init (h : FdInit s) : s.FdWf := by
  obtain ⟨hfile, halloc, hofile, hput, hproc, hiref⟩ := h
  have hnone : ∀ f, (s.fs.file f).type = .FD_NONE := fun f => by rw [hfile]; rfl
  have hirefs : ∀ i, s.irefs i = s.cwds i := fun i => by
    have hputs : Count.holders (fun p => (s.proc p).put = some i) = 0 :=
      Count.holders_eq_zero fun p hp => by rw [hput] at hp; cases hp
    rw [irefs_eq_holders, hputs, add_zero]
    unfold cwds
    refine Count.holders_congr fun p => and_iff_left ?_
    rcases hproc p with ⟨hu, -⟩ | ⟨hl, -⟩
    · rw [hu]; nofun
    · rw [hl]; nofun
  refine ⟨⟨⟨fun f _ => hnone f, fun i => ?_, ?_⟩, fun f => ?_⟩, fun p => ?_⟩
  · rw [hiref i, hirefs i, Count.holders_eq_zero (fun f hf => by rw [hnone] at hf; cases hf),
      Nat.zero_add]
  · refine ⟨fun f q hf => ?_, fun q hq => ?_, fun f _ q hf => ?_, fun q _ hq => ?_⟩ <;>
      first
      | (rw [hnone] at hf; cases hf)
      | (rw [halloc] at hq; cases hq)
  · have h0 : s.refs f = 0 := Count.holders_eq_zero fun x hx => by
      have h' := hx.1
      rw [hofile] at h'
      cases h'
    rw [hfile, h0]
    rfl
  · rcases hproc p with ⟨hu, hc⟩ | ⟨hl, -⟩
    · unfold FdProc.Shaped
      rw [hu]
      exact ⟨hofile p, hc, hput p⟩
    · exact FdProc.Shaped.of_live hl (hput p)

end FdSys.FdWf

open FdSys

theorem reachable_fdWf {s : FdSys P I} (hs : FdReachable s) : s.FdWf :=
  @Run.reachable_invariant (FdSys P I) FdStep FdInit FdWf (fun _ h => FdWf.init h)
    (fun _ _ hw h => hw.step h) s hs

def twoShellsProc (p : Fin NPROC) : FdProc Nat :=
  if p.val < 2 then ⟨.live, fun _ => none, some 1, none⟩ else ⟨.unused, fun _ => none, none, none⟩

def twoShells : FdSys Nat Nat :=
  ⟨⟨fun _ => File.zero, fun _ => ⟨fun _ => 0, 0, 0, false, false⟩, fun _ => false,
    fun i => Count.holders fun p => (twoShellsProc p).cwd = some i⟩, twoShellsProc⟩

theorem twoShells_reachable : FdReachable twoShells := by
  refine Run.Reachable.of_init
    ⟨fun _ => rfl, fun _ => rfl, fun p fd => ?_, fun p => ?_, fun p => ?_, fun _ => rfl⟩
  · change (twoShellsProc p).ofile fd = none
    unfold twoShellsProc
    split_ifs <;> rfl
  · change (twoShellsProc p).put = none
    unfold twoShellsProc
    split_ifs <;> rfl
  change ((twoShellsProc p).phase = .unused ∧ (twoShellsProc p).cwd = none) ∨
    ((twoShellsProc p).phase = .live ∧ (twoShellsProc p).cwd ≠ none)
  unfold twoShellsProc
  split_ifs
  · exact Or.inr ⟨rfl, nofun⟩
  · exact Or.inl ⟨rfl, rfl⟩

end Xv6