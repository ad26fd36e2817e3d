import Xv6.Param
import Xv6.Pipe
import Xv6.Lib.Count

set_option autoImplicit false
set_option linter.unusedSectionVars false

/-!
# Open files: `file.c` and `pipealloc`

`ftable` holds `NFILE` open files. `filealloc` takes the first file with no reference, `filedup`
adds one, and `fileclose` drops one; the last `fileclose` of a pipe end closes that end with
`pipeclose`, which frees the pipe's page once both ends are closed, and the last `fileclose` of
an inode file releases the inode with `iput`. `pipealloc` takes two files and a page from
`kalloc`.

A pipe is named by its page, of a type `P`, and an inode by its entry in the inode cache, of a
type `I`. Of an inode only the `ref` of its entry is kept: `iget` and `idup` raise it and `iput`
lowers it. The type of a file carries its pipe or its inode, the field that goes with it.
-/
namespace Xv6

def NFILE : Nat := 100

instance : NeZero NFILE := ⟨by decide⟩

inductive FileType (P I : Type) where
  | FD_NONE
  | FD_PIPE (pipe : P)
  | FD_INODE (ip : I)
  deriving DecidableEq

/-- `struct file`. -/
structure File (P I : Type) where
  type : FileType P I
  ref : Nat
  readable : Bool
  writable : Bool
  off : Nat

def File.zero {P I : Type} : File P I := ⟨.FD_NONE, 0, false, false, 0⟩

/-- `ftable`, the pipes on their pages, and the counts of the inode cache. -/
structure FileState (P I : Type) where
  file : Fin NFILE → File P I
  pipe : P → Pipe
  /-- The pages that hold a pipe: `kalloc` gave them to `pipealloc` and no `kfree` has taken
  them back. -/
  alloc : P → Bool
  /-- The `ref` of each inode's cache entry. -/
  iref : I → Nat

def Pipe.opened (pp : Pipe) (writable : Bool) : Bool :=
  if writable then pp.writeopen else pp.readopen

theorem Pipe.opened_pipeclose (pp : Pipe) (w w' : Bool) :
    (pp.pipeclose w).opened w' = if w' = w then false else pp.opened w' := by
  unfold Pipe.pipeclose Pipe.opened
  cases w <;> cases w' <;> rfl

theorem Pipe.closed_iff (pp : Pipe) :
    (pp.readopen = false ∧ pp.writeopen = false) ↔ ∀ w, pp.opened w = false := by
  unfold Pipe.opened
  constructor
  · rintro ⟨hr, hw⟩ w
    cases w
    · exact hr
    · exact hw
  · intro h
    exact ⟨h false, h true⟩

namespace FileState

open Function (update)

variable {P I : Type} [DecidableEq P] [DecidableEq I]

def setFile (s : FileState P I) (f : Fin NFILE) (x : File P I) : FileState P I :=
  { s with file := update s.file f x }

/-- `idup` (or the `iget` of `namei`): one more reference to the inode. -/
def idup (s : FileState P I) (ip : I) : FileState P I :=
  { s with iref := update s.iref ip (s.iref ip + 1) }

/-- `iput`: one reference to the inode dropped. -/
def iput (s : FileState P I) (ip : I) : FileState P I :=
  { s with iref := update s.iref ip (s.iref ip - 1) }

@[simp] theorem setFile_pipe (s : FileState P I) (f : Fin NFILE) (x : File P I) :
    (s.setFile f x).pipe = s.pipe := rfl
@[simp] theorem setFile_alloc (s : FileState P I) (f : Fin NFILE) (x : File P I) :
    (s.setFile f x).alloc = s.alloc := rfl
@[simp] theorem setFile_iref (s : FileState P I) (f : Fin NFILE) (x : File P I) :
    (s.setFile f x).iref = s.iref := rfl
theorem setFile_file (s : FileState P I) (f f' : Fin NFILE) (x : File P I) :
    (s.setFile f x).file f' = if f' = f then x else s.file f' := Function.update_apply _ _ _ _
@[simp] theorem setFile_file_self (s : FileState P I) (f : Fin NFILE) (x : File P I) :
    (s.setFile f x).file f = x := Function.update_self _ _ _
theorem setFile_file_of_ne (s : FileState P I) {f f' : Fin NFILE} (x : File P I) (h : f' ≠ f) :
    (s.setFile f x).file f' = s.file f' := Function.update_of_ne h _ _
@[simp] theorem setFile_setFile (s : FileState P I) (f : Fin NFILE) (x y : File P I) :
    (s.setFile f x).setFile f y = s.setFile f y := by
  unfold setFile
  simp only [Function.update_idem]
theorem setFile_same (s : FileState P I) (f : Fin NFILE) : s.setFile f (s.file f) = s := by
  unfold setFile
  simp only [Function.update_eq_self]
/-- An `iput` after an `idup` of the same inode gives the count back. -/
@[simp] theorem iput_idup (s : FileState P I) (ip : I) : (s.idup ip).iput ip = s := by
  unfold idup iput
  simp only [Function.update_self, Nat.add_sub_cancel, Function.update_idem, Function.update_eq_self]
@[simp] theorem idup_file (s : FileState P I) (ip : I) : (s.idup ip).file = s.file := rfl
@[simp] theorem idup_pipe (s : FileState P I) (ip : I) : (s.idup ip).pipe = s.pipe := rfl
@[simp] theorem idup_alloc (s : FileState P I) (ip : I) : (s.idup ip).alloc = s.alloc := rfl
theorem idup_iref (s : FileState P I) (ip : I) :
    (s.idup ip).iref = update s.iref ip (s.iref ip + 1) := rfl
theorem iput_iref (s : FileState P I) (ip : I) :
    (s.iput ip).iref = update s.iref ip (s.iref ip - 1) := rfl
@[simp] theorem iput_file (s : FileState P I) (ip : I) : (s.iput ip).file = s.file := rfl
@[simp] theorem iput_pipe (s : FileState P I) (ip : I) : (s.iput ip).pipe = s.pipe := rfl
@[simp] theorem iput_alloc (s : FileState P I) (ip : I) : (s.iput ip).alloc = s.alloc := rfl

/-- `filealloc`: the first file with no reference, now with one; `none` for the `0` of a full
table. -/
def filealloc (s : FileState P I) : Option (Fin NFILE × FileState P I) :=
  match Fin.find? fun f => decide ((s.file f).ref = 0) with
  | none => none
  | some f => some (f, s.setFile f { s.file f with ref := 1 })

def filedup (s : FileState P I) (f : Fin NFILE) : Except String (FileState P I) :=
  if (s.file f).ref < 1 then .error "filedup"
  else .ok (s.setFile f { s.file f with ref := (s.file f).ref + 1 })

/-- `pipeclose(p, writable)`: the end closed, and the page freed once both ends are. -/
def pipeclose (s : FileState P I) (p : P) (writable : Bool) : FileState P I :=
  let pp := (s.pipe p).pipeclose writable
  let s := { s with pipe := update s.pipe p pp }
  if pp.readopen = false ∧ pp.writeopen = false then { s with alloc := update s.alloc p false }
  else s

@[simp] theorem pipeclose_file (s : FileState P I) (p : P) (w : Bool) :
    (s.pipeclose p w).file = s.file := by
  unfold pipeclose
  dsimp only
  split_ifs <;> rfl

@[simp] theorem pipeclose_iref (s : FileState P I) (p : P) (w : Bool) :
    (s.pipeclose p w).iref = s.iref := by
  unfold pipeclose
  dsimp only
  split_ifs <;> rfl

theorem pipeclose_pipe (s : FileState P I) (p : P) (w : Bool) :
    (s.pipeclose p w).pipe = update s.pipe p ((s.pipe p).pipeclose w) := by
  unfold pipeclose
  dsimp only
  split_ifs <;> rfl

theorem pipeclose_alloc_of_ne (s : FileState P I) {p p' : P} (w : Bool) (h : p' ≠ p) :
    (s.pipeclose p w).alloc p' = s.alloc p' := by
  unfold pipeclose
  dsimp only
  split_ifs
  · exact Function.update_of_ne h _ _
  · rfl

theorem pipeclose_alloc_self (s : FileState P I) (p : P) (w : Bool) :
    (s.pipeclose p w).alloc p = true ↔ s.alloc p = true ∧ (s.pipe p).opened (!w) = true := by
  have hother : ((s.pipe p).pipeclose w).opened (!w) = (s.pipe p).opened (!w) := by
    rw [Pipe.opened_pipeclose, if_neg (by cases w <;> decide)]
  have hsame : ((s.pipe p).pipeclose w).opened w = false := by
    rw [Pipe.opened_pipeclose, if_pos rfl]
  unfold pipeclose
  dsimp only
  split_ifs with h
  · have := ((Pipe.closed_iff _).1 h) (!w)
    rw [hother] at this
    simp only [Function.update_self, Bool.false_eq_true, false_iff, not_and, this]
    exact fun _ => not_false
  · have hopen : ((s.pipe p).pipeclose w).opened (!w) = true := by
      by_contra hc
      refine h ((Pipe.closed_iff _).2 fun w' => ?_)
      cases w' <;> cases w <;> simp_all
    rw [hother] at hopen
    simp [hopen]

/-- `fileclose`: one reference dropped; the last one frees the file and then closes its pipe
end, or puts its inode inside `begin_op`/`end_op`. -/
def fileclose (s : FileState P I) (f : Fin NFILE) : Except String (FileState P I) :=
  if (s.file f).ref < 1 then .error "fileclose"
  else if (s.file f).ref - 1 > 0 then
    .ok (s.setFile f { s.file f with ref := (s.file f).ref - 1 })
  else
    let ff := s.file f
    let s := s.setFile f { ff with ref := 0, type := .FD_NONE }
    match ff.type with
    | .FD_PIPE p => .ok (s.pipeclose p ff.writable)
    | .FD_INODE ip => .ok (s.iput ip)
    | .FD_NONE => .ok s

/-- `fileclose` up to `release(&ftable.lock)`: one reference dropped, or the last, which frees
the file and closes its pipe end. A freed inode file's inode is returned: its `iput` comes after
`begin_op`, where the caller may sleep. -/
def filecloseBegin (s : FileState P I) (f : Fin NFILE) : Except String (FileState P I × Option I) :=
  if (s.file f).ref < 1 then .error "fileclose"
  else if (s.file f).ref - 1 > 0 then
    .ok (s.setFile f { s.file f with ref := (s.file f).ref - 1 }, none)
  else
    let ff := s.file f
    let s := s.setFile f { ff with ref := 0, type := .FD_NONE }
    match ff.type with
    | .FD_PIPE p => .ok (s.pipeclose p ff.writable, none)
    | .FD_INODE ip => .ok (s, some ip)
    | .FD_NONE => .ok (s, none)

def pipeInit (s : FileState P I) (f0 f1 : Fin NFILE) (p : P) : FileState P I :=
  let s := { s with
    pipe := update s.pipe p
      { s.pipe p with readopen := true, writeopen := true, nwrite := 0, nread := 0 },
    alloc := update s.alloc p true }
  let s := s.setFile f0 { s.file f0 with type := .FD_PIPE p, readable := true, writable := false }
  s.setFile f1 { s.file f1 with type := .FD_PIPE p, readable := false, writable := true }

/-- `pipealloc(&f0, &f1)` with `page` the result of its `kalloc`: the read end and the write
end, or `none` for `-1` after the files taken are closed again. -/
def pipealloc (s : FileState P I) (page : Option P) :
    Except String (Option (Fin NFILE × Fin NFILE) × FileState P I) :=
  match filealloc s with
  | none => .ok (none, s)
  | some (f0, s) =>
    match filealloc s with
    | none => (s.fileclose f0).map fun s => (none, s)
    | some (f1, s) =>
      match page with
      | none =>
        match s.fileclose f0 with
        | .error e => .error e
        | .ok s => (s.fileclose f1).map fun s => (none, s)
      | some p => .ok (some (f0, f1), s.pipeInit f0 f1 p)

/-! ### What each function does -/

theorem filealloc_eq_some {s s' : FileState P I} {f : Fin NFILE}
    (h : s.filealloc = some (f, s')) :
    (s.file f).ref = 0 ∧ s' = s.setFile f { s.file f with ref := 1 } := by
  unfold filealloc at h
  split at h
  · cases h
  · rename_i f' hf
    cases h
    have := (Fin.find?_eq_some_iff.1 hf).1
    exact ⟨of_decide_eq_true this, rfl⟩

theorem filealloc_eq_none {s : FileState P I} (h : s.filealloc = none) :
    ∀ f, (s.file f).ref ≠ 0 := by
  unfold filealloc at h
  split at h
  · rename_i hf
    intro f
    exact of_decide_eq_false (Fin.find?_eq_none_iff.1 hf f)
  · cases h

theorem fileclose_eq {s : FileState P I} {f : Fin NFILE} (h : 0 < (s.file f).ref) :
    s.fileclose f = .ok (if 1 < (s.file f).ref then
      s.setFile f { s.file f with ref := (s.file f).ref - 1 }
    else
      let s₀ := s.setFile f { s.file f with ref := 0, type := .FD_NONE }
      match (s.file f).type with
      | .FD_PIPE p => s₀.pipeclose p (s.file f).writable
      | .FD_INODE ip => s₀.iput ip
      | .FD_NONE => s₀) := by
  unfold fileclose
  rw [if_neg (by omega)]
  by_cases h1 : 1 < (s.file f).ref
  · rw [if_pos (by omega), if_pos h1]
  · rw [if_neg (by omega), if_neg h1]
    dsimp only
    cases (s.file f).type <;> rfl

theorem fileclose_eq_begin (s : FileState P I) (f : Fin NFILE) :
    s.fileclose f = (s.filecloseBegin f).map fun r => r.2.elim r.1 r.1.iput := by
  unfold fileclose filecloseBegin
  split_ifs
  · rfl
  · rfl
  · dsimp only
    cases (s.file f).type <;> rfl

theorem fileclose_of_begin {s s' : FileState P I} {f : Fin NFILE} {ip : Option I}
    (h : s.filecloseBegin f = .ok (s', ip)) :
    s.fileclose f = .ok (ip.elim s' s'.iput) := by
  rw [fileclose_eq_begin, h]
  rfl

theorem filedup_ok {s s' : FileState P I} {f : Fin NFILE} (h : s.filedup f = .ok s') :
    0 < (s.file f).ref ∧ s' = s.setFile f { s.file f with ref := (s.file f).ref + 1 } := by
  unfold filedup at h
  split_ifs at h with h1
  cases h
  exact ⟨by omega, rfl⟩

theorem filedup_ref {s s' : FileState P I} {f : Fin NFILE} (h : s.filedup f = .ok s')
    (g : Fin NFILE) : (s'.file g).ref = (s.file g).ref + if g = f then 1 else 0 := by
  obtain ⟨-, rfl⟩ := filedup_ok h
  rw [setFile_file]
  split_ifs with hg
  · subst hg
    rfl
  · rfl

theorem filealloc_ref {s s' : FileState P I} {f : Fin NFILE} (h : s.filealloc = some (f, s'))
    (g : Fin NFILE) : (s'.file g).ref = (s.file g).ref + if g = f then 1 else 0 := by
  obtain ⟨h0, rfl⟩ := filealloc_eq_some h
  rw [setFile_file]
  split_ifs with hg
  · subst hg
    rw [h0]
  · rfl

theorem fileclose_file {s s' : FileState P I} {f : Fin NFILE} (hf : 0 < (s.file f).ref)
    (h : s.fileclose f = .ok s') :
    s'.file = (s.setFile f (if 1 < (s.file f).ref then { s.file f with ref := (s.file f).ref - 1 }
      else { s.file f with ref := 0, type := .FD_NONE })).file := by
  rw [fileclose_eq hf] at h
  cases h
  split_ifs with h1
  · rfl
  · cases (s.file f).type <;> simp

theorem fileclose_ref {s s' : FileState P I} {f : Fin NFILE} (hf : 0 < (s.file f).ref)
    (h : s.fileclose f = .ok s') (g : Fin NFILE) :
    (s'.file g).ref + (if g = f then 1 else 0) = (s.file g).ref := by
  rw [fileclose_file hf h, setFile_file]
  split_ifs with hg h1
  · subst hg
    dsimp only
    omega
  · subst hg
    dsimp only
    omega
  · rfl

theorem filecloseBegin_ref {s s' : FileState P I} {f : Fin NFILE} {ip : Option I}
    (hf : 0 < (s.file f).ref) (h : s.filecloseBegin f = .ok (s', ip)) (g : Fin NFILE) :
    (s'.file g).ref + (if g = f then 1 else 0) = (s.file g).ref := by
  have hc := fileclose_ref hf (fileclose_of_begin h) g
  cases ip <;> exact hc

theorem pipeInit_type (s : FileState P I) (f0 f1 : Fin NFILE) (p : P) (g : Fin NFILE) :
    ((s.pipeInit f0 f1 p).file g).type =
      if g = f1 then .FD_PIPE p else if g = f0 then .FD_PIPE p else (s.file g).type := by
  simp only [pipeInit, setFile_file]
  split_ifs <;> rfl

theorem pipeInit_writable (s : FileState P I) (f0 f1 : Fin NFILE) (p : P) (g : Fin NFILE) :
    ((s.pipeInit f0 f1 p).file g).writable =
      if g = f1 then true else if g = f0 then false else (s.file g).writable := by
  simp only [pipeInit, setFile_file]
  split_ifs <;> rfl

theorem pipeInit_ref (s : FileState P I) (f0 f1 : Fin NFILE) (p : P) (g : Fin NFILE) :
    ((s.pipeInit f0 f1 p).file g).ref = (s.file g).ref := by
  simp only [pipeInit, setFile_file]
  split_ifs <;> subst_vars <;> rfl

@[simp] theorem pipeInit_iref (s : FileState P I) (f0 f1 : Fin NFILE) (p : P) :
    (s.pipeInit f0 f1 p).iref = s.iref := rfl

theorem pipealloc_of_none {s : FileState P I} (page : Option P) (h : s.filealloc = none) :
    s.pipealloc page = .ok (none, s) := by
  unfold pipealloc
  rw [h]

theorem pipealloc_of_one {s s₁ : FileState P I} {f0 : Fin NFILE} (page : Option P)
    (h1 : s.filealloc = some (f0, s₁)) (h2 : s₁.filealloc = none) :
    s.pipealloc page = (s₁.fileclose f0).map fun s => (none, s) := by
  unfold pipealloc
  rw [h1]
  dsimp only
  rw [h2]

theorem pipealloc_of_two {s s₁ s₂ : FileState P I} {f0 f1 : Fin NFILE} (page : Option P)
    (h1 : s.filealloc = some (f0, s₁)) (h2 : s₁.filealloc = some (f1, s₂)) :
    s.pipealloc page = match page with
      | none =>
        match s₂.fileclose f0 with
        | .error e => .error e
        | .ok s => (s.fileclose f1).map fun s => (none, s)
      | some p => .ok (some (f0, f1), s₂.pipeInit f0 f1 p) := by
  unfold pipealloc
  rw [h1]
  dsimp only
  rw [h2]

/-! ### The invariant of the table -/

/-- What the pipes satisfy: a page holds a pipe exactly while a file is one of its ends, each
end is one file, and an end is open exactly while its file is. -/
structure PipesWf (s : FileState P I) : Prop where
  pipe_alloc : ∀ f q, (s.file f).type = .FD_PIPE q → s.alloc q = true
  alloc_end : ∀ q, s.alloc q = true → ∃ f, (s.file f).type = .FD_PIPE q
  end_unique : ∀ f f' q, (s.file f).type = .FD_PIPE q → (s.file f').type = .FD_PIPE q →
    (s.file f).writable = (s.file f').writable → f = f'
  opened_iff : ∀ q w, s.alloc q = true →
    ((s.pipe q).opened w = true ↔ ∃ f, (s.file f).type = .FD_PIPE q ∧ (s.file f).writable = w)

/-- What the table satisfies between calls, with `ic` the references to each inode held
outside `ftable`: a free file has no type, and the count of an inode is its files and its other
holders. -/
structure Wf (s : FileState P I) (ic : I → Nat) : Prop where
  free_none : ∀ f, (s.file f).ref = 0 → (s.file f).type = .FD_NONE
  iref_eq : ∀ i, s.iref i = Count.holders (fun f => (s.file f).type = .FD_INODE i) + ic i
  pipes : s.PipesWf

namespace PipesWf

variable {s s' : FileState P I}

theorem of_types (hw : s.PipesWf) (htype : ∀ g, (s'.file g).type = (s.file g).type)
    (hwr : ∀ g, (s'.file g).writable = (s.file g).writable) (hpipe : s'.pipe = s.pipe)
    (halloc : s'.alloc = s.alloc) : s'.PipesWf where
  pipe_alloc g q hg := by
    rw [htype] at hg
    rw [halloc]
    exact hw.pipe_alloc g q hg
  alloc_end q hq := by
    rw [halloc] at hq
    obtain ⟨g, hg⟩ := hw.alloc_end q hq
    exact ⟨g, by rw [htype]; exact hg⟩
  end_unique g g' q hg hg' heq := by
    rw [htype] at hg hg'
    rw [hwr, hwr] at heq
    exact hw.end_unique g g' q hg hg' heq
  opened_iff q w hq := by
    rw [halloc] at hq
    rw [hpipe, hw.opened_iff q w hq]
    simp only [htype, hwr]

theorem setFile_of_not_pipe (hw : s.PipesWf) {f : Fin NFILE} {x : File P I}
    (hold : ∀ q, (s.file f).type ≠ .FD_PIPE q) (hnew : ∀ q, x.type ≠ .FD_PIPE q) :
    (s.setFile f x).PipesWf := by
  have hend : ∀ g q, ((s.setFile f x).file g).type = .FD_PIPE q ↔
      g ≠ f ∧ (s.file g).type = .FD_PIPE q := by
    intro g q
    by_cases hg : g = f
    · subst hg
      simp only [setFile_file_self, ne_eq, not_true_eq_false, false_and, iff_false]
      exact hnew q
    · rw [setFile_file_of_ne _ _ hg]
      exact ⟨fun h => ⟨hg, h⟩, fun h => h.2⟩
  have hne : ∀ g q, (s.file g).type = .FD_PIPE q → g ≠ f := fun g q hg hgf =>
    hold q (hgf ▸ hg)
  refine ⟨fun g q hg => ?_, fun q hq => ?_, fun g g' q hg hg' heq => ?_, fun q w hq => ?_⟩
  · exact hw.pipe_alloc g q ((hend g q).1 hg).2
  · obtain ⟨g, hg⟩ := hw.alloc_end q hq
    exact ⟨g, (hend g q).2 ⟨hne g q hg, hg⟩⟩
  · obtain ⟨hgf, hg⟩ := (hend g q).1 hg
    obtain ⟨hgf', hg'⟩ := (hend g' q).1 hg'
    rw [setFile_file_of_ne _ _ hgf, setFile_file_of_ne _ _ hgf'] at heq
    exact hw.end_unique g g' q hg hg' heq
  · rw [setFile_pipe, hw.opened_iff q w hq]
    constructor
    · rintro ⟨g, hg, hgw⟩
      have hgf := hne g q hg
      exact ⟨g, (hend g q).2 ⟨hgf, hg⟩, by rw [setFile_file_of_ne _ _ hgf]; exact hgw⟩
    · rintro ⟨g, hg, hgw⟩
      obtain ⟨hgf, hg⟩ := (hend g q).1 hg
      exact ⟨g, hg, by rw [setFile_file_of_ne _ _ hgf] at hgw; exact hgw⟩

theorem release (hw : s.PipesWf) {f : Fin NFILE} {q : P} (ht : (s.file f).type = .FD_PIPE q) :
    ((s.setFile f { s.file f with ref := 0, type := .FD_NONE }).pipeclose q
      (s.file f).writable).PipesWf := by
  have halloc : s.alloc q = true := hw.pipe_alloc f q ht
  have hfile : ∀ g, ((((s.setFile f { s.file f with ref := 0, type := .FD_NONE }).pipeclose q
      (s.file f).writable)).file g) = if g = f then { s.file f with ref := 0, type := .FD_NONE }
        else s.file g := fun g => by rw [pipeclose_file, setFile_file]
  have hend : ∀ g q', ((((s.setFile f { s.file f with ref := 0, type := .FD_NONE }).pipeclose q
      (s.file f).writable)).file g).type = .FD_PIPE q' ↔ g ≠ f ∧ (s.file g).type = .FD_PIPE q' := by
    intro g q'
    rw [hfile]
    split_ifs with hg
    · exact ⟨fun h => (by cases h), fun h => absurd hg h.1⟩
    · exact ⟨fun h => ⟨hg, h⟩, fun h => h.2⟩
  have hwr : ∀ g, g ≠ f → ((((s.setFile f { s.file f with ref := 0, type := .FD_NONE }).pipeclose q
      (s.file f).writable)).file g).writable = (s.file g).writable := fun g hg => by
    rw [hfile, if_neg hg]
  have hother : ∀ g, g ≠ f → (s.file g).type = .FD_PIPE q →
      (s.file g).writable = !(s.file f).writable := by
    intro g hg hgq
    have hne : (s.file g).writable ≠ (s.file f).writable := fun heq =>
      hg (hw.end_unique g f q hgq ht heq)
    revert hne
    cases (s.file g).writable <;> cases (s.file f).writable <;> decide
  have hnot_f : ∀ g q', (s.file g).type = .FD_PIPE q' → q' ≠ q → g ≠ f := fun g q' hg hq hgf => by
    rw [hgf, ht] at hg
    exact hq (FileType.FD_PIPE.inj hg).symm
  have hallocq := pipeclose_alloc_self (s.setFile f { s.file f with ref := 0, type := .FD_NONE })
    q (s.file f).writable
  rw [setFile_alloc, setFile_pipe, hw.opened_iff q _ halloc] at hallocq
  refine ⟨fun g q' hg => ?_, fun q' hq' => ?_, fun g g' q' hg hg' heq => ?_, fun q' w' hq' => ?_⟩
  · obtain ⟨hgf, hg₀⟩ := (hend g q').1 hg
    by_cases hq : q' = q
    · subst hq
      exact hallocq.2 ⟨halloc, g, hg₀, hother g hgf hg₀⟩
    · rw [pipeclose_alloc_of_ne _ _ hq, setFile_alloc]
      exact hw.pipe_alloc g q' hg₀
  · by_cases hq : q' = q
    · subst hq
      obtain ⟨-, g, hg, hgw⟩ := hallocq.1 hq'
      have hgf : g ≠ f := fun h => by
        rw [h] at hgw
        revert hgw
        cases (s.file f).writable <;> decide
      exact ⟨g, (hend g q').2 ⟨hgf, hg⟩⟩
    · rw [pipeclose_alloc_of_ne _ _ hq, setFile_alloc] at hq'
      obtain ⟨g, hg⟩ := hw.alloc_end q' hq'
      exact ⟨g, (hend g q').2 ⟨hnot_f g q' hg hq, hg⟩⟩
  · obtain ⟨hgf, hg⟩ := (hend g q').1 hg
    obtain ⟨hgf', hg'⟩ := (hend g' q').1 hg'
    rw [hwr g hgf, hwr g' hgf'] at heq
    exact hw.end_unique g g' q' hg hg' heq
  · rw [pipeclose_pipe, setFile_pipe]
    by_cases hq : q' = q
    · subst hq
      rw [Function.update_self, Pipe.opened_pipeclose]
      split_ifs with hw'
      · refine ⟨fun h => (by cases h), fun ⟨g, hg, hgw⟩ => ?_⟩
        obtain ⟨hgf, hg₀⟩ := (hend g q').1 hg
        rw [hwr g hgf, hw', ← Bool.not_not (s.file f).writable, ← hother g hgf hg₀] at hgw
        revert hgw
        cases (s.file g).writable <;> decide
      · rw [hw.opened_iff q' w' halloc]
        constructor
        · rintro ⟨g, hg, hgw⟩
          have hgf : g ≠ f := fun h => hw' (h ▸ hgw).symm
          exact ⟨g, (hend g q').2 ⟨hgf, hg⟩, by rw [hwr g hgf]; exact hgw⟩
        · rintro ⟨g, hg, hgw⟩
          obtain ⟨hgf, hg⟩ := (hend g q').1 hg
          exact ⟨g, hg, by rw [hwr g hgf] at hgw; exact hgw⟩
    · rw [Function.update_of_ne hq]
      rw [pipeclose_alloc_of_ne _ _ hq, setFile_alloc] at hq'
      rw [hw.opened_iff q' w' hq']
      constructor
      · rintro ⟨g, hg, hgw⟩
        have hgf := hnot_f g q' hg hq
        exact ⟨g, (hend g q').2 ⟨hgf, hg⟩, by rw [hwr g hgf]; exact hgw⟩
      · rintro ⟨g, hg, hgw⟩
        obtain ⟨hgf, hg⟩ := (hend g q').1 hg
        exact ⟨g, hg, by rw [hwr g hgf] at hgw; exact hgw⟩

theorem install (hw : s.PipesWf) {f0 f1 : Fin NFILE} {q : P} (hne : f1 ≠ f0)
    (h0 : (s.file f0).type = .FD_NONE) (h1 : (s.file f1).type = .FD_NONE)
    (hq : s.alloc q = false) : (s.pipeInit f0 f1 q).PipesWf := by
  have htype := pipeInit_type s f0 f1 q
  have hwr := pipeInit_writable s f0 f1 q
  have hnoq : ∀ g, (s.file g).type ≠ .FD_PIPE q := fun g hg => by
    rw [hw.pipe_alloc g q hg] at hq
    cases hq
  have hold : ∀ g q', (s.file g).type = .FD_PIPE q' → g ≠ f0 ∧ g ≠ f1 ∧ q' ≠ q :=
    fun g q' hg => ⟨fun h => (by rw [h, h0] at hg; cases hg),
      fun h => (by rw [h, h1] at hg; cases hg), fun h => hnoq g (h ▸ hg)⟩
  have hend : ∀ g q', ((s.pipeInit f0 f1 q).file g).type = .FD_PIPE q' → (g = f1 ∧ q' = q) ∨ (g = f0 ∧ q' = q) ∨
      (g ≠ f0 ∧ g ≠ f1 ∧ (s.file g).type = .FD_PIPE q' ∧
        ((s.pipeInit f0 f1 q).file g).writable = (s.file g).writable) := by
    intro g q' hg
    rw [htype] at hg
    split_ifs at hg with hg1 hg0
    · exact .inl ⟨hg1, (FileType.FD_PIPE.inj hg).symm⟩
    · exact .inr (.inl ⟨hg0, (FileType.FD_PIPE.inj hg).symm⟩)
    · exact .inr (.inr ⟨hg0, hg1, hg, by rw [hwr, if_neg hg1, if_neg hg0]⟩)
  have hw1 : ((s.pipeInit f0 f1 q).file f1).writable = true := by rw [hwr, if_pos rfl]
  have hw0 : ((s.pipeInit f0 f1 q).file f0).writable = false := by rw [hwr, if_neg (Ne.symm hne), if_pos rfl]
  refine ⟨fun g q' hg => ?_, fun q' hq' => ?_, fun g g' q' hg hg' heq => ?_, fun q' w hq' => ?_⟩
  · change update s.alloc q true q' = true
    rw [htype] at hg
    split_ifs at hg with hg1 hg0
    · rw [← FileType.FD_PIPE.inj hg, Function.update_self]
    · rw [← FileType.FD_PIPE.inj hg, Function.update_self]
    · rw [Function.update_of_ne (hold g q' hg).2.2]
      exact hw.pipe_alloc g q' hg
  · change update s.alloc q true q' = true at hq'
    by_cases hqq : q' = q
    · refine ⟨f0, ?_⟩
      rw [htype, if_neg (Ne.symm hne), if_pos rfl, hqq]
    · rw [Function.update_of_ne hqq] at hq'
      obtain ⟨g, hg⟩ := hw.alloc_end q' hq'
      obtain ⟨hg0, hg1, -⟩ := hold g q' hg
      exact ⟨g, by rw [htype, if_neg hg1, if_neg hg0]; exact hg⟩
  · rcases hend g q' hg with ⟨rfl, rfl⟩ | ⟨rfl, rfl⟩ | ⟨-, -, hgo, hgw⟩ <;>
      rcases hend g' q' hg' with ⟨rfl, hq'⟩ | ⟨rfl, hq'⟩ | ⟨-, -, hgo', hgw'⟩
    · rfl
    · rw [hw1, hw0] at heq
      cases heq
    · exact absurd hgo' (hnoq g')
    · rw [hw1, hw0] at heq
      cases heq
    · rfl
    · exact absurd hgo' (hnoq g')
    · exact absurd (hq' ▸ hgo) (hnoq g)
    · exact absurd (hq' ▸ hgo) (hnoq g)
    · rw [hgw, hgw'] at heq
      exact hw.end_unique g g' q' hgo hgo' heq
  · change (update s.pipe q _ q').opened w = true ↔ _
    change update s.alloc q true q' = true at hq'
    by_cases hqq : q' = q
    · subst hqq
      rw [Function.update_self]
      refine ⟨fun _ => ?_, fun _ => by cases w <;> rfl⟩
      cases w
      · exact ⟨f0, by rw [htype, if_neg (Ne.symm hne), if_pos rfl],
          by rw [hwr, if_neg (Ne.symm hne), if_pos rfl]⟩
      · exact ⟨f1, by rw [htype, if_pos rfl], by rw [hwr, if_pos rfl]⟩
    · rw [Function.update_of_ne hqq] at hq' ⊢
      rw [hw.opened_iff q' w hq']
      constructor
      · rintro ⟨g, hg, hgw⟩
        obtain ⟨hg0, hg1, -⟩ := hold g q' hg
        exact ⟨g, by rw [htype, if_neg hg1, if_neg hg0]; exact hg,
          by rw [hwr, if_neg hg1, if_neg hg0]; exact hgw⟩
      · rintro ⟨g, hg, hgw⟩
        rw [htype] at hg
        rw [hwr] at hgw
        split_ifs at hg hgw with hg1 hg0
        · exact absurd (FileType.FD_PIPE.inj hg) (Ne.symm hqq)
        · exact absurd (FileType.FD_PIPE.inj hg) (Ne.symm hqq)
        · exact ⟨g, hg, hgw⟩

end PipesWf

namespace Wf

variable {s s' : FileState P I} {ic : I → Nat}

theorem of_types (hw : s.Wf ic) (htype : ∀ g, (s'.file g).type = (s.file g).type)
    (hwr : ∀ g, (s'.file g).writable = (s.file g).writable) (hpipe : s'.pipe = s.pipe)
    (halloc : s'.alloc = s.alloc) (hiref : s'.iref = s.iref)
    (hfree : ∀ g, (s'.file g).ref = 0 → (s'.file g).type = .FD_NONE) : s'.Wf ic where
  free_none := hfree
  iref_eq i := by
    rw [hiref, hw.iref_eq i, Count.holders_congr (Q := fun g => (s'.file g).type = .FD_INODE i)
      fun g => by rw [htype g]]
  pipes := hw.pipes.of_types htype hwr hpipe halloc

theorem setRef (hw : s.Wf ic) (f : Fin NFILE) (n : Nat)
    (hn : n = 0 → (s.file f).type = .FD_NONE) : (s.setFile f { s.file f with ref := n }).Wf ic := by
  refine hw.of_types (fun g => ?_) (fun g => ?_) rfl rfl rfl (fun g hg => ?_)
  · rw [setFile_file]
    split_ifs with h
    · rw [h]
    · rfl
  · rw [setFile_file]
    split_ifs with h
    · rw [h]
    · rfl
  · rw [setFile_file] at hg ⊢
    split_ifs at hg ⊢ with h
    · exact hn hg
    · exact hw.free_none g hg

theorem idup (hw : s.Wf ic) (i : I) {ic' : I → Nat} (hi : ic' i = ic i + 1)
    (hj : ∀ j, j ≠ i → ic' j = ic j) : (s.idup i).Wf ic' where
  free_none := hw.free_none
  iref_eq j := by
    rw [idup_iref, idup_file]
    by_cases h : j = i
    · subst h
      rw [Function.update_self, hw.iref_eq j, hi]
      omega
    · rw [Function.update_of_ne h, hw.iref_eq j, hj j h]
  pipes := hw.pipes.of_types (fun _ => rfl) (fun _ => rfl) rfl rfl

theorem iput (hw : s.Wf ic) (i : I) {ic' : I → Nat}
    (hic : ∀ j, ic j = ic' j + if i = j then 1 else 0) : (s.iput i).Wf ic' where
  free_none := hw.free_none
  iref_eq j := by
    have hi := hic i
    rw [if_pos rfl] at hi
    rw [iput_iref, iput_file, Function.update_apply]
    split_ifs with h
    · subst h
      rw [hw.iref_eq j, hi]
      omega
    · rw [hw.iref_eq j, hic j, if_neg (Ne.symm h), add_zero]
  pipes := hw.pipes.of_types (fun _ => rfl) (fun _ => rfl) rfl rfl

theorem holders_setFile (s : FileState P I) (f : Fin NFILE) (x : File P I) (i : I) :
    Count.holders (fun g => ((s.setFile f x).file g).type = .FD_INODE i) +
        (if (s.file f).type = .FD_INODE i then 1 else 0) =
      Count.holders (fun g => (s.file g).type = .FD_INODE i) +
        (if x.type = .FD_INODE i then 1 else 0) := by
  have h := Count.holders_add_of_iff_off (fun g => ((s.setFile f x).file g).type = .FD_INODE i)
    (fun g => (s.file g).type = .FD_INODE i) f (fun g hg => by rw [setFile_file_of_ne _ _ hg])
  rw [setFile_file_self] at h
  exact h

theorem setInode (hw : s.Wf ic) {f : Fin NFILE} {x : File P I} {i : I}
    (hnone : (s.file f).type = .FD_NONE) (hx : x.type = .FD_INODE i) (hxref : 0 < x.ref)
    (hpos : 0 < ic i) {ic' : I → Nat} (hi : ic' i = ic i - 1) (hj : ∀ j, j ≠ i → ic' j = ic j) :
    (s.setFile f x).Wf ic' where
  free_none g hg := by
    by_cases hgf : g = f
    · subst hgf
      rw [setFile_file_self] at hg
      omega
    · rw [setFile_file_of_ne _ _ hgf] at hg ⊢
      exact hw.free_none g hg
  iref_eq j := by
    have hcount := holders_setFile s f x j
    rw [hnone, hx] at hcount
    rw [setFile_iref, hw.iref_eq j]
    by_cases h : j = i
    · subst h
      simp only [reduceCtorEq, if_false, if_true, add_zero] at hcount
      rw [hi]
      omega
    · have hne : FileType.FD_INODE i ≠ (FileType.FD_INODE j : FileType P I) := fun h' =>
        h (FileType.FD_INODE.inj h').symm
      simp only [reduceCtorEq, if_false, if_neg hne, add_zero] at hcount
      rw [hj j h, hcount]
  pipes := hw.pipes.setFile_of_not_pipe (fun q h => by rw [hnone] at h; cases h)
    (fun q h => by rw [hx] at h; cases h)

theorem free (hw : s.Wf ic) {f : Fin NFILE} (hnp : ∀ q, (s.file f).type ≠ .FD_PIPE q)
    {ic' : I → Nat} (hic : ∀ i, ic' i = ic i + if (s.file f).type = .FD_INODE i then 1 else 0) :
    (s.setFile f { s.file f with ref := 0, type := .FD_NONE }).Wf ic' where
  free_none g hg := by
    by_cases hgf : g = f
    · subst hgf
      rw [setFile_file_self]
    · rw [setFile_file_of_ne _ _ hgf] at hg ⊢
      exact hw.free_none g hg
  iref_eq j := by
    have hcount := holders_setFile s f { s.file f with ref := 0, type := .FD_NONE } j
    simp only [reduceCtorEq, if_false, add_zero] at hcount
    rw [setFile_iref, hw.iref_eq j, hic j]
    dsimp only at hcount ⊢
    omega
  pipes := hw.pipes.setFile_of_not_pipe hnp (fun q h => by cases h)

theorem filecloseBegin (hw : s.Wf ic) {f : Fin NFILE} (hf : 0 < (s.file f).ref) {ip : Option I}
    (h : s.filecloseBegin f = .ok (s', ip)) :
    s'.Wf (fun i => ic i + if ip = some i then 1 else 0) := by
  unfold FileState.filecloseBegin at h
  rw [if_neg (by omega)] at h
  split_ifs at h with h1
  · cases h
    simpa using hw.setRef f _ (by omega)
  · -- the last reference: the file is freed and its pipe end closed or its inode returned
    dsimp only at h
    cases ht : (s.file f).type with
    | FD_NONE =>
      rw [ht] at h
      cases h
      simpa using hw.free (fun q => by rw [ht]; exact fun h => by cases h) (fun i => by rw [ht]; simp)
    | FD_INODE i =>
      rw [ht] at h
      cases h
      exact hw.free (fun q => by rw [ht]; exact fun h => by cases h) (fun j => by rw [ht]; simp)
    | FD_PIPE q =>
      rw [ht] at h
      cases h
      refine ⟨fun g hg => ?_, fun i => ?_, hw.pipes.release ht⟩
      · rw [pipeclose_file] at hg ⊢
        by_cases hgf : g = f
        · subst hgf
          rw [setFile_file_self]
        · rw [setFile_file_of_ne _ _ hgf] at hg ⊢
          exact hw.free_none g hg
      · have hcount := holders_setFile s f { s.file f with ref := 0, type := .FD_NONE } i
        rw [ht] at hcount
        simp only [reduceCtorEq, if_false, add_zero] at hcount
        rw [pipeclose_iref, setFile_iref, pipeclose_file, hw.iref_eq i, hcount]
        simp

theorem fileclose (hw : s.Wf ic) {f : Fin NFILE} (hf : 0 < (s.file f).ref)
    (h : s.fileclose f = .ok s') : s'.Wf ic := by
  rw [fileclose_eq_begin] at h
  cases hb : s.filecloseBegin f with
  | error e =>
    rw [hb] at h
    cases h
  | ok r =>
    obtain ⟨s₁, ip⟩ := r
    rw [hb] at h
    have hw₁ := hw.filecloseBegin hf hb
    simp only [Except.map, Except.ok.injEq] at h
    subst h
    cases ip with
    | none => simpa using hw₁
    | some i => exact hw₁.iput i fun j => by simp

theorem filedup (hw : s.Wf ic) {f : Fin NFILE} (h : s.filedup f = .ok s') : s'.Wf ic := by
  obtain ⟨-, rfl⟩ := filedup_ok h
  exact hw.setRef f _ (fun h => absurd h (Nat.succ_ne_zero _))

theorem filealloc (hw : s.Wf ic) {f : Fin NFILE} (h : s.filealloc = some (f, s')) :
    s'.Wf ic ∧ (s.file f).type = .FD_NONE := by
  obtain ⟨h0, rfl⟩ := filealloc_eq_some h
  exact ⟨hw.setRef f 1 (fun h => absurd h one_ne_zero), hw.free_none f h0⟩

theorem install (hw : s.Wf ic) {f0 f1 : Fin NFILE} {q : P} (hne : f1 ≠ f0)
    (h0 : (s.file f0).type = .FD_NONE) (h1 : (s.file f1).type = .FD_NONE)
    (hr0 : 0 < (s.file f0).ref) (hr1 : 0 < (s.file f1).ref) (hq : s.alloc q = false) :
    (s.pipeInit f0 f1 q).Wf ic := by
  have htype := pipeInit_type s f0 f1 q
  have href := pipeInit_ref s f0 f1 q
  refine ⟨fun g hg => ?_, fun i => ?_, hw.pipes.install hne h0 h1 hq⟩
  · rw [href] at hg
    rw [htype]
    split_ifs with hg1 hg0
    · rw [hg1] at hg
      omega
    · rw [hg0] at hg
      omega
    · exact hw.free_none g hg
  · change s.iref i = _
    have hinode : ∀ g, ((s.file g).type = .FD_INODE i ↔
        ((s.pipeInit f0 f1 q).file g).type = .FD_INODE i) := by
      intro g
      rw [htype]
      split_ifs with hg1 hg0
      · rw [hg1, h1]
        simp
      · rw [hg0, h0]
        simp
      · rfl
    rw [hw.iref_eq i, Count.holders_congr hinode]

theorem pipealloc (hw : s.Wf ic) {page : Option P} (hpage : ∀ q, page = some q → s.alloc q = false)
    {r : Option (Fin NFILE × Fin NFILE)} (h : s.pipealloc page = .ok (r, s')) :
    s'.Wf ic ∧ ∀ g, (s'.file g).ref = (s.file g).ref +
      match r with
      | none => 0
      | some (f0, f1) => (if g = f0 then 1 else 0) + (if g = f1 then 1 else 0) := by
  rcases h1 : s.filealloc with _ | ⟨f0, s₁⟩
  · rw [pipealloc_of_none page h1] at h
    cases h
    exact ⟨hw, fun g => (Nat.add_zero _).symm⟩
  have hw₁ := (hw.filealloc h1).1
  have hnone0 := (hw.filealloc h1).2
  have href₁ := filealloc_ref h1
  have hpos0 : 0 < (s₁.file f0).ref := by rw [href₁, if_pos rfl]; omega
  rcases h2 : s₁.filealloc with _ | ⟨f1, s₂⟩
  · rw [pipealloc_of_one page h1 h2] at h
    cases hc : s₁.fileclose f0 with
    | error e =>
      rw [hc] at h
      cases h
    | ok s₂ =>
      rw [hc] at h
      simp only [Except.map, Except.ok.injEq, Prod.mk.injEq] at h
      obtain ⟨rfl, rfl⟩ := h
      refine ⟨hw₁.fileclose hpos0 hc, fun g => ?_⟩
      have := fileclose_ref hpos0 hc g
      rw [href₁] at this
      dsimp only
      omega
  rw [pipealloc_of_two page h1 h2] at h
  have hw₂ := (hw₁.filealloc h2).1
  have hnone1 := (hw₁.filealloc h2).2
  have href₂ := filealloc_ref h2
  have hne : f1 ≠ f0 := fun he => by
    have := (filealloc_eq_some h2).1
    rw [he] at this
    omega
  have hpos0' : 0 < (s₂.file f0).ref := by rw [href₂, if_neg (Ne.symm hne)]; exact hpos0
  rcases page with _ | q
  · dsimp only at h
    cases hc : s₂.fileclose f0 with
    | error e =>
      rw [hc] at h
      cases h
    | ok s₃ =>
      rw [hc] at h
      dsimp only at h
      have hpos1 : 0 < (s₃.file f1).ref := by
        have := fileclose_ref hpos0' hc f1
        rw [if_neg hne, href₂, if_pos rfl] at this
        omega
      cases hc' : s₃.fileclose f1 with
      | error e =>
        rw [hc'] at h
        cases h
      | ok s₄ =>
        rw [hc'] at h
        simp only [Except.map, Except.ok.injEq, Prod.mk.injEq] at h
        obtain ⟨rfl, rfl⟩ := h
        refine ⟨(hw₂.fileclose hpos0' hc).fileclose hpos1 hc', fun g => ?_⟩
        have e₁ := fileclose_ref hpos1 hc' g
        have e₂ := fileclose_ref hpos0' hc g
        rw [href₂, href₁] at e₂
        dsimp only
        split_ifs at e₁ e₂ <;> omega
  · dsimp only at h
    cases h
    have hnone0' : (s₂.file f0).type = .FD_NONE := by
      obtain ⟨-, rfl⟩ := filealloc_eq_some h2
      rw [setFile_file_of_ne _ _ (Ne.symm hne)]
      obtain ⟨-, rfl⟩ := filealloc_eq_some h1
      rw [setFile_file_self]
      exact hnone0
    have hq : s₂.alloc q = false := by
      obtain ⟨-, rfl⟩ := filealloc_eq_some h2
      obtain ⟨-, rfl⟩ := filealloc_eq_some h1
      exact hpage q rfl
    have hnone1' : (s₂.file f1).type = .FD_NONE := by
      obtain ⟨-, rfl⟩ := filealloc_eq_some h2
      rw [setFile_file_self]
      exact hnone1
    refine ⟨hw₂.install hne hnone0' hnone1' hpos0' (by rw [href₂, if_pos rfl]; omega) hq,
      fun g => ?_⟩
    dsimp only
    rw [pipeInit_ref, href₂, href₁]
    omega

end Wf

end FileState

end Xv6
