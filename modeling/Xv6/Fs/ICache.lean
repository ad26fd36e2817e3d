import Xv6.Fs.Inode
import Xv6.Lib.Run

set_option autoImplicit false

/-!
# The inode cache: `iget`, `idup`, `ilock`, `iput`

Each reference to a cache entry belongs to a holder: an open file, a process's `cwd`, or a
lookup in progress. The system below lets holders call the cache's functions in any order, each
call atomic under `icache.lock` or the entry's sleep lock; `held` lists the references handed
out, one element per reference.

In every reachable state each entry's `ref` is the number of references held to it, and no two
entries in use cache the same inode (`icache_refs_match_holders`). The functions that read and
write inode content never change an entry's inode number or count (`FsState.SameRefs`).
-/
namespace Xv6

namespace FsState

/-- `s'` has the inode numbers and reference counts of `s` in every cache entry. -/
def SameRefs (s s' : FsState) : Prop :=
  ∀ c, (s'.icache c).inum = (s.icache c).inum ∧ (s'.icache c).ref = (s.icache c).ref

theorem SameRefs.refl (s : FsState) : SameRefs s s := fun _ => ⟨rfl, rfl⟩

theorem SameRefs.trans {s₁ s₂ s₃ : FsState} (h₁ : SameRefs s₁ s₂) (h₂ : SameRefs s₂ s₃) :
    SameRefs s₁ s₃ := fun c => ⟨(h₂ c).1.trans (h₁ c).1, (h₂ c).2.trans (h₁ c).2⟩

variable {s s' : FsState}

theorem sameRefs_setInode {c : Fin NINODE} {ip : CInode} (hi : ip.inum = (s.icache c).inum)
    (hr : ip.ref = (s.icache c).ref) : SameRefs s (s.setInode c ip) := by
  intro c'
  by_cases hc : c' = c
  · subst hc
    simp only [setInode_icache, Function.update_self]
    exact ⟨hi, hr⟩
  · rw [setInode_icache, Function.update_of_ne hc]
    exact ⟨rfl, rfl⟩

theorem sameRefs_setAddr (c : Fin NINODE) (i : Fin (NDIRECT + 1)) (a : Nat) :
    SameRefs s (s.setAddr c i a) := sameRefs_setInode rfl rfl

theorem sameRefs_setSize (c : Fin NINODE) (n : Nat) : SameRefs s (s.setSize c n) :=
  sameRefs_setInode rfl rfl

theorem sameRefs_write {b : Nat} {f : Image → Image} (h : s.write b f = .ok s') :
    SameRefs s s' := by
  unfold FsState.write at h
  split at h
  · cases h
  · cases h
    exact SameRefs.refl s

end FsState

open FsState

section Frame

variable {s s' : FsState}

theorem sameRefs_balloc {b : Nat} (h : balloc s = .ok (b, s')) : SameRefs s s' := by
  unfold balloc bzero at h
  split at h
  · cases h
  split at h
  · cases h
  rename_i s₁ h₁
  split at h
  · cases h
  rename_i s₂ h₂
  cases h
  exact (sameRefs_write h₁).trans (sameRefs_write h₂)

theorem sameRefs_bfree {b : Nat} (h : bfree s b = .ok s') : SameRefs s s' := by
  unfold bfree at h
  split_ifs at h
  exact sameRefs_write h

theorem sameRefs_iupdate {c : Fin NINODE} (h : iupdate s c = .ok s') : SameRefs s s' := by
  unfold iupdate at h
  exact sameRefs_write h

theorem sameRefs_balloc_setAddr {c : Fin NINODE} {i : Fin (NDIRECT + 1)} {a : Nat}
    (h : (match balloc s with
      | .error e => .error e
      | .ok (a, s) => .ok (a, s.setAddr c i a)) = Except.ok (a, s')) :
    SameRefs s s' := by
  split at h
  · cases h
  · rename_i b s₁ h₁
    cases h
    exact (sameRefs_balloc h₁).trans (sameRefs_setAddr c i _)

theorem sameRefs_bmapEntry {ia : Nat} {j : Fin NINDIRECT} {a : Nat}
    (h : (if s.disk.ind ia j = 0 then
      match balloc s with
      | .error e => .error e
      | .ok (addr, s) =>
        match s.write ia (·.setInd ia j addr) with
        | .error e => .error e
        | .ok s => .ok (addr, s)
      else Except.ok (s.disk.ind ia j, s)) = Except.ok (a, s')) : SameRefs s s' := by
  split_ifs at h
  · split at h
    · cases h
    rename_i b s₁ h₁
    split at h
    · cases h
    rename_i s₂ h₂
    cases h
    exact (sameRefs_balloc h₁).trans (sameRefs_write h₂)
  · cases h
    exact SameRefs.refl s

theorem sameRefs_bmap {c : Fin NINODE} {bn a : Nat} (h : bmap s c bn = .ok (a, s')) :
    SameRefs s s' := by
  unfold bmap at h
  split_ifs at h with hd hind hia
  · dsimp only at h
    split_ifs at h
    · exact sameRefs_balloc_setAddr h
    · cases h
      exact SameRefs.refl s
  · dsimp only at h
    split at h
    · cases h
    rename_i ia s₁ hload
    exact (sameRefs_balloc_setAddr hload).trans (sameRefs_bmapEntry h)
  · dsimp only at h
    exact sameRefs_bmapEntry h

theorem sameRefs_readiLoop {c : Fin NINODE} {n : Nat} :
    ∀ {fuel tot off : Nat} {dst bs : List UInt8} {s s' : FsState},
      readiLoop c n fuel tot off dst s = .ok (bs, s') → SameRefs s s'
  | 0, tot, off, dst, bs, s, s', h => by
    unfold readiLoop at h
    split_ifs at h
    cases h
    exact SameRefs.refl s
  | fuel + 1, tot, off, dst, bs, s, s', h => by
    unfold readiLoop at h
    split_ifs at h
    · dsimp only at h
      split at h
      · cases h
      rename_i a s₁ h₁
      exact (sameRefs_bmap h₁).trans (sameRefs_readiLoop h)
    · cases h
      exact SameRefs.refl s

theorem sameRefs_readi {c : Fin NINODE} {off n : Nat} {r : Int} {bs : List UInt8}
    (h : readi s c off n = .ok (r, bs, s')) : SameRefs s s' := by
  unfold readi at h
  dsimp only at h
  by_cases hdev : (s.icache c).type = T_DEV
  · rw [if_pos hdev] at h
    split at h <;> cases h <;> exact SameRefs.refl s
  rw [if_neg hdev] at h
  by_cases hchk : off > (s.icache c).size ∨ (off + n) % WORD < off
  · rw [if_pos hchk] at h
    cases h
    exact SameRefs.refl s
  rw [if_neg hchk] at h
  generalize (if off + n > (s.icache c).size then (s.icache c).size - off else n) = m at h
  split at h
  · cases h
  rename_i bs' s₁ h₁
  cases h
  exact sameRefs_readiLoop h₁

theorem sameRefs_writeiLoop {c : Fin NINODE} {src : List UInt8} {n : Nat} :
    ∀ {fuel tot off : Nat} {s s' : FsState},
      writeiLoop c src n fuel tot off s = .ok s' → SameRefs s s'
  | 0, tot, off, s, s', h => by
    unfold writeiLoop at h
    split_ifs at h
    cases h
    exact SameRefs.refl s
  | fuel + 1, tot, off, s, s', h => by
    unfold writeiLoop at h
    split_ifs at h
    · dsimp only at h
      split at h
      · cases h
      rename_i a s₁ h₁
      split at h
      · cases h
      rename_i s₂ h₂
      exact (sameRefs_bmap h₁).trans ((sameRefs_write h₂).trans (sameRefs_writeiLoop h))
    · cases h
      exact SameRefs.refl s

theorem sameRefs_writei {c : Fin NINODE} {src : List UInt8} {off n : Nat} {r : Int}
    (h : writei s c src off n = .ok (r, s')) : SameRefs s s' := by
  unfold writei at h
  dsimp only at h
  split_ifs at h
  · split at h <;> cases h <;> exact SameRefs.refl s
  · cases h
    exact SameRefs.refl s
  · cases h
    exact SameRefs.refl s
  · split at h
    · cases h
    rename_i s₁ h₁
    have hloop := sameRefs_writeiLoop h₁
    split_ifs at h
    · split at h
      · cases h
      rename_i s₂ h₂
      cases h
      exact hloop.trans ((sameRefs_setSize c _).trans (sameRefs_iupdate h₂))
    · cases h
      exact hloop

theorem sameRefs_itruncDirect {c : Fin NINODE} :
    ∀ {is : List (Fin NDIRECT)} {s s' : FsState}, itruncDirect c is s = .ok s' → SameRefs s s'
  | [], s, s', h => by
    cases h
    exact SameRefs.refl s
  | i :: is, s, s', h => by
    unfold itruncDirect at h
    dsimp only at h
    split_ifs at h
    · split at h
      · cases h
      rename_i s₁ h₁
      exact (sameRefs_bfree h₁).trans ((sameRefs_setAddr c _ 0).trans (sameRefs_itruncDirect h))
    · exact sameRefs_itruncDirect h

theorem sameRefs_bfreeEntries :
    ∀ {as : List Nat} {s s' : FsState}, bfreeEntries as s = .ok s' → SameRefs s s'
  | [], s, s', h => by
    cases h
    exact SameRefs.refl s
  | a :: as, s, s', h => by
    unfold bfreeEntries at h
    split_ifs at h
    · split at h
      · cases h
      rename_i s₁ h₁
      exact (sameRefs_bfree h₁).trans (sameRefs_bfreeEntries h)
    · exact sameRefs_bfreeEntries h

theorem sameRefs_itrunc {c : Fin NINODE} (h : itrunc s c = .ok s') : SameRefs s s' := by
  unfold itrunc at h
  split at h
  · cases h
  rename_i s₁ h₁
  dsimp only at h
  split at h
  · cases h
  rename_i s₂ h₂
  have hfreed : SameRefs s₁ s₂ := by
    split_ifs at h₂
    · split at h₂
      · cases h₂
      rename_i s₃ h₃
      split at h₂
      · cases h₂
      rename_i s₄ h₄
      cases h₂
      exact (sameRefs_bfreeEntries h₃).trans ((sameRefs_bfree h₄).trans (sameRefs_setAddr c _ 0))
    · cases h₂
      exact SameRefs.refl s₁
  exact (sameRefs_itruncDirect h₁).trans
    (hfreed.trans ((sameRefs_setSize c 0).trans (sameRefs_iupdate h)))

theorem sameRefs_ilock {c : Fin NINODE} (h : ilock s c = .ok s') : SameRefs s s' := by
  unfold ilock at h
  dsimp only at h
  split_ifs at h
  · cases h
    exact SameRefs.refl s
  · cases h
    exact sameRefs_setInode rfl rfl

end Frame

/-! ### What `iget` and `iput` do to the counts -/

section Counts

variable {s s' : FsState} {c : Fin NINODE}

theorem iget_eq_ok {inum : Nat} (h : iget s inum = .ok (c, s')) :
    (0 < (s.icache c).ref ∧ (s.icache c).inum = inum ∧ s' = idup s c) ∨
    ((∀ c', 0 < (s.icache c').ref → (s.icache c').inum ≠ inum) ∧ (s.icache c).ref = 0 ∧
      s' = s.setInode c { s.icache c with inum, ref := 1, valid := false }) := by
  unfold iget at h
  split at h
  · rename_i c₁ hfound
    cases h
    have hc := Fin.eq_true_of_find?_eq_some hfound
    rw [decide_eq_true_iff] at hc
    exact .inl ⟨hc.1, hc.2, rfl⟩
  · rename_i hnone
    split at h
    · cases h
    · rename_i c₁ hfree
      cases h
      have hc := Fin.eq_true_of_find?_eq_some hfree
      rw [decide_eq_true_iff] at hc
      refine .inr ⟨fun c' hpos heq => ?_, hc, rfl⟩
      have hno := Fin.eq_false_of_find?_eq_none hnone c'
      rw [decide_eq_false_iff_not] at hno
      exact hno ⟨hpos, heq⟩

theorem iput_eq_ok (h : iput s c = .ok s') :
    ∃ s₁, SameRefs s s₁ ∧ s' = s₁.setInode c { s₁.icache c with ref := (s₁.icache c).ref - 1 } := by
  unfold iput at h
  dsimp only at h
  split at h
  · cases h
  rename_i s₁ h₁
  cases h
  refine ⟨s₁, ?_, rfl⟩
  split_ifs at h₁
  · split at h₁
    · cases h₁
    rename_i s₂ h₂
    split at h₁
    · cases h₁
    rename_i s₃ h₃
    cases h₁
    have htype : SameRefs s₂ (s₂.setInode c { s₂.icache c with type := 0 }) :=
      sameRefs_setInode rfl rfl
    have hvalid : SameRefs s₃ (s₃.setInode c { s₃.icache c with valid := false }) :=
      sameRefs_setInode rfl rfl
    exact (sameRefs_itrunc h₂).trans (htype.trans ((sameRefs_iupdate h₃).trans hvalid))
  · cases h₁
    exact SameRefs.refl s

theorem iput_refs (h : iput s c = .ok s') (c' : Fin NINODE) :
    (s'.icache c').inum = (s.icache c').inum ∧
      (s'.icache c').ref = if c' = c then (s.icache c').ref - 1 else (s.icache c').ref := by
  obtain ⟨s₁, h₁, rfl⟩ := iput_eq_ok h
  by_cases hc : c' = c
  · subst hc
    simp only [setInode_icache, Function.update_self, if_true]
    exact ⟨(h₁ c').1, by rw [(h₁ c').2]⟩
  · simp only [setInode_icache, Function.update_of_ne hc, if_neg hc]
    exact h₁ c'

theorem ialloc_eq_ok {type : Nat} (h : ialloc s type = .ok (c, s')) :
    ∃ s₁ inum, SameRefs s s₁ ∧ iget s₁ inum = .ok (c, s') := by
  unfold ialloc at h
  split at h
  · cases h
  rename_i inum _
  split at h
  · cases h
  rename_i s₁ h₁
  exact ⟨s₁, inum, sameRefs_write h₁, h⟩

end Counts

/-! ### The system -/

/-- The inode cache and the references held to its entries. -/
structure ICacheSys where
  fs : FsState
  held : List (Fin NINODE)

/-- The calls on the inode cache, by any holder, in any order. `idup`, `ilock`, `iput` and the
content functions are called on an entry the caller holds; `edit` is `create`, `sys_link` and
`sys_unlink` setting a locked entry's `nlink`, `major` and `minor`. `iunlock` changes nothing the
model keeps. -/
inductive ICacheStep : ICacheSys → ICacheSys → Prop
  | iget (s : ICacheSys) (inum : Nat) (c : Fin NINODE) (fs : FsState)
      (h : iget s.fs inum = .ok (c, fs)) : ICacheStep s ⟨fs, c :: s.held⟩
  | ialloc (s : ICacheSys) (type : Nat) (c : Fin NINODE) (fs : FsState)
      (h : ialloc s.fs type = .ok (c, fs)) : ICacheStep s ⟨fs, c :: s.held⟩
  | idup (s : ICacheSys) (c : Fin NINODE) (hc : c ∈ s.held) :
      ICacheStep s ⟨idup s.fs c, c :: s.held⟩
  | ilock (s : ICacheSys) (c : Fin NINODE) (fs : FsState) (hc : c ∈ s.held)
      (h : ilock s.fs c = .ok fs) : ICacheStep s ⟨fs, s.held⟩
  | iput (s : ICacheSys) (c : Fin NINODE) (fs : FsState) (hc : c ∈ s.held)
      (h : iput s.fs c = .ok fs) : ICacheStep s ⟨fs, s.held.erase c⟩
  | readi (s : ICacheSys) (c : Fin NINODE) (off n : Nat) (r : Int) (bs : List UInt8)
      (fs : FsState) (hc : c ∈ s.held) (h : readi s.fs c off n = .ok (r, bs, fs)) :
      ICacheStep s ⟨fs, s.held⟩
  | writei (s : ICacheSys) (c : Fin NINODE) (src : List UInt8) (off n : Nat) (r : Int)
      (fs : FsState) (hc : c ∈ s.held) (h : writei s.fs c src off n = .ok (r, fs)) :
      ICacheStep s ⟨fs, s.held⟩
  | iupdate (s : ICacheSys) (c : Fin NINODE) (fs : FsState) (hc : c ∈ s.held)
      (h : iupdate s.fs c = .ok fs) : ICacheStep s ⟨fs, s.held⟩
  | edit (s : ICacheSys) (c : Fin NINODE) (nlink major minor : Nat) (hc : c ∈ s.held) :
      ICacheStep s ⟨s.fs.setInode c { s.fs.icache c with nlink, major, minor }, s.held⟩

/-- At boot no entry is in use and no reference is held. -/
def ICacheInit (s : ICacheSys) : Prop := (∀ c, (s.fs.icache c).ref = 0) ∧ s.held = []

def ICacheReachable : ICacheSys → Prop := Run.Reachable ICacheStep ICacheInit

/-- Each entry's count is the number of references held to it, and the entries in use cache
pairwise different inodes. -/
structure ICacheWf (s : ICacheSys) : Prop where
  ref_count : ∀ c, (s.fs.icache c).ref = s.held.count c
  unique : ∀ c c', 0 < (s.fs.icache c).ref → 0 < (s.fs.icache c').ref →
    (s.fs.icache c).inum = (s.fs.icache c').inum → c = c'

namespace ICacheWf

variable {s : ICacheSys}

theorem init (h : ICacheInit s) : ICacheWf s := by
  obtain ⟨hzero, hheld⟩ := h
  refine ⟨fun c => by rw [hzero c, hheld, List.count_nil], fun c _ hc => ?_⟩
  rw [hzero c] at hc
  exact absurd hc (Nat.lt_irrefl 0)

theorem same {fs : FsState} (hw : ICacheWf s) (h : SameRefs s.fs fs) : ICacheWf ⟨fs, s.held⟩ where
  ref_count c := (h c).2.trans (hw.ref_count c)
  unique c c' hc hc' heq := by
    rw [(h c).2] at hc
    rw [(h c').2] at hc'
    rw [(h c).1, (h c').1] at heq
    exact hw.unique c c' hc hc' heq

theorem dup {c : Fin NINODE} (hw : ICacheWf s) (hc : 0 < (s.fs.icache c).ref) :
    ICacheWf ⟨idup s.fs c, c :: s.held⟩ where
  ref_count c' := by
    by_cases hcc : c' = c
    · subst hcc
      simp only [idup, setInode_icache, Function.update_self]
      rw [List.count_cons_self, hw.ref_count c']
    · simp only [idup, setInode_icache, Function.update_of_ne hcc]
      rw [List.count_cons_of_ne (Ne.symm hcc), hw.ref_count c']
  unique c₁ c₂ h₁ h₂ heq := by
    have hpos : ∀ c', 0 < ((idup s.fs c).icache c').ref → 0 < (s.fs.icache c').ref := by
      intro c' hc'
      by_cases hcc : c' = c
      · subst hcc
        exact hc
      · simpa only [idup, setInode_icache, Function.update_of_ne hcc] using hc'
    have hinum : ∀ c', ((idup s.fs c).icache c').inum = (s.fs.icache c').inum := by
      intro c'
      by_cases hcc : c' = c
      · subst hcc
        simp only [idup, setInode_icache, Function.update_self]
      · simp only [idup, setInode_icache, Function.update_of_ne hcc]
    rw [hinum, hinum] at heq
    exact hw.unique c₁ c₂ (hpos c₁ h₁) (hpos c₂ h₂) heq

theorem fresh {c : Fin NINODE} {inum : Nat} (hw : ICacheWf s)
    (hnew : ∀ c', 0 < (s.fs.icache c').ref → (s.fs.icache c').inum ≠ inum)
    (hfree : (s.fs.icache c).ref = 0) :
    ICacheWf ⟨s.fs.setInode c { s.fs.icache c with inum, ref := 1, valid := false }, c :: s.held⟩ where
  ref_count c' := by
    by_cases hcc : c' = c
    · subst hcc
      simp only [setInode_icache, Function.update_self]
      rw [List.count_cons_self, ← hw.ref_count c', hfree]
    · simp only [setInode_icache, Function.update_of_ne hcc]
      rw [List.count_cons_of_ne (Ne.symm hcc), hw.ref_count c']
  unique c₁ c₂ h₁ h₂ heq := by
    by_cases hc₁ : c₁ = c
    · by_cases hc₂ : c₂ = c
      · rw [hc₁, hc₂]
      · subst hc₁
        simp only [setInode_icache, Function.update_self, Function.update_of_ne hc₂] at h₂ heq
        exact absurd heq.symm (hnew c₂ h₂)
    · by_cases hc₂ : c₂ = c
      · subst hc₂
        simp only [setInode_icache, Function.update_self, Function.update_of_ne hc₁] at h₁ heq
        exact absurd heq (hnew c₁ h₁)
      · simp only [setInode_icache, Function.update_of_ne hc₁, Function.update_of_ne hc₂]
          at h₁ h₂ heq
        exact hw.unique c₁ c₂ h₁ h₂ heq

theorem get {c : Fin NINODE} {inum : Nat} {fs : FsState} (hw : ICacheWf s)
    (h : iget s.fs inum = .ok (c, fs)) : ICacheWf ⟨fs, c :: s.held⟩ := by
  rcases iget_eq_ok h with ⟨hc, -, rfl⟩ | ⟨hnew, hfree, rfl⟩
  · exact hw.dup hc
  · exact hw.fresh hnew hfree

theorem put {c : Fin NINODE} {fs : FsState} (hw : ICacheWf s) (hc : c ∈ s.held)
    (h : iput s.fs c = .ok fs) : ICacheWf ⟨fs, s.held.erase c⟩ where
  ref_count c' := by
    rw [(iput_refs h c').2]
    by_cases hcc : c' = c
    · subst hcc
      rw [if_pos rfl, List.count_erase_self, hw.ref_count c']
    · rw [if_neg hcc, List.count_erase_of_ne hcc, hw.ref_count c']
  unique c₁ c₂ h₁ h₂ heq := by
    have hpos : ∀ c', 0 < (fs.icache c').ref → 0 < (s.fs.icache c').ref := by
      intro c' hc'
      rw [(iput_refs h c').2] at hc'
      split_ifs at hc' <;> omega
    rw [(iput_refs h c₁).1, (iput_refs h c₂).1] at heq
    exact hw.unique c₁ c₂ (hpos c₁ h₁) (hpos c₂ h₂) heq

theorem step {s' : ICacheSys} (hw : ICacheWf s) (h : ICacheStep s s') : ICacheWf s' := by
  cases h with
  | iget inum c fs h => exact hw.get h
  | ialloc type c fs h =>
    obtain ⟨s₁, inum, h₁, hget⟩ := ialloc_eq_ok h
    exact (hw.same h₁).get hget
  | idup c hc =>
    have hpos : 0 < (s.fs.icache c).ref := by
      rw [hw.ref_count c]
      exact List.count_pos_iff.2 hc
    exact hw.dup hpos
  | ilock c fs _ h => exact hw.same (sameRefs_ilock h)
  | iput c fs hc h => exact hw.put hc h
  | readi c off n r bs fs _ h => exact hw.same (sameRefs_readi h)
  | writei c src off n r fs _ h => exact hw.same (sameRefs_writei h)
  | iupdate c fs _ h => exact hw.same (sameRefs_iupdate h)
  | edit c nlink major minor _ => exact hw.same (sameRefs_setInode rfl rfl)

end ICacheWf

theorem reachable_icacheWf {s : ICacheSys} (hs : ICacheReachable s) : ICacheWf s :=
  @Run.reachable_invariant _ ICacheStep ICacheInit ICacheWf (fun _ h => ICacheWf.init h)
    (fun _ _ hw h => hw.step h) s hs

theorem icache_refs_match_holders {s : ICacheSys} (hs : ICacheReachable s) :
    (∀ c, (s.fs.icache c).ref = s.held.count c) ∧
    (∀ c c', 0 < (s.fs.icache c).ref → 0 < (s.fs.icache c').ref →
      (s.fs.icache c).inum = (s.fs.icache c').inum → c = c') ∧
    (∀ c fs, c ∈ s.held → iput s.fs c = .ok fs → (s.fs.icache c).ref = 1 →
      ∀ c', 0 < (fs.icache c').ref → (fs.icache c').inum ≠ (s.fs.icache c).inum) := by
  have hw := reachable_icacheWf hs
  refine ⟨hw.ref_count, hw.unique, fun c fs hc h hlast c' hc' heq => ?_⟩
  have hfree : (fs.icache c).ref = 0 := by
    rw [(iput_refs h c).2, if_pos rfl, hlast]
  have hne : c' ≠ c := fun hcc => by
    rw [hcc, hfree] at hc'
    exact absurd hc' (Nat.lt_irrefl 0)
  have hpos : 0 < (s.fs.icache c').ref := by
    rw [(iput_refs h c').2, if_neg hne] at hc'
    exact hc'
  rw [(iput_refs h c').1] at heq
  exact hne (hw.unique c' c hpos (by rw [hlast]; exact Nat.one_pos) heq)

end Xv6
