import Xv6.Fs.Dir
import Xv6.Fs.Space

set_option autoImplicit false

/-!
# Directories read through their content

A directory whose blocks cover its size is read by `readi` without allocating, so each
`struct dirent` that `dirlookup` and `dirlink` read is the entry `entryOf` finds in the content.
`dirlookup` goes past the entries that are free or have another name, and `dirlink`'s scan past
the entries in use. A directory of `MAXFILE` blocks whose entries are all in use, none of them
`name`, has no slot for `name` and no room to grow: `writei` refuses the entry and `dirlink`
panics (`dirlink_full_dir_panics`).
-/
namespace Xv6

def entryOf (s : FsState) (c : Fin NINODE) (k : Nat) : Dirent :=
  Dirent.decode (fileBytes s c (DIRENTSIZE * k) DIRENTSIZE)

section Scan

variable {s : FsState} {c : Fin NINODE}

theorem readi_entry (hdev : (s.icache c).type ≠ T_DEV) (hcov : Covered s c) {off : Nat}
    (hoff : off + DIRENTSIZE ≤ (s.icache c).size) (hword : (s.icache c).size < WORD) :
    readi s c off DIRENTSIZE = .ok (DIRENTSIZE, fileBytes s c off DIRENTSIZE, s) := by
  have hmin : min DIRENTSIZE ((s.icache c).size - off) = DIRENTSIZE := by omega
  rw [readi_covered hdev hcov, if_neg (by rw [Nat.mod_eq_of_lt (by omega)]; omega), hmin,
    ← fileBytes_eq_content hoff]

theorem fileBytes_entry {off : Nat} (hal : off % DIRENTSIZE = 0) :
    Dirent.decode (fileBytes s c off DIRENTSIZE) = entryOf s c (off / DIRENTSIZE) := by
  unfold entryOf
  rw [Nat.mul_div_cancel' (Nat.dvd_of_mod_eq_zero hal)]

theorem dirlookupLoop_absent (hdev : (s.icache c).type ≠ T_DEV) (hcov : Covered s c)
    (hsz : (s.icache c).size % DIRENTSIZE = 0) (hword : (s.icache c).size < WORD)
    (name : List UInt8) (fuel : Nat) :
    ∀ off, off % DIRENTSIZE = 0 → (s.icache c).size ≤ off + DIRENTSIZE * fuel →
      (∀ k, off ≤ DIRENTSIZE * k → DIRENTSIZE * k < (s.icache c).size →
        (entryOf s c k).inum = 0 ∨ namecmp name (entryOf s c k).name ≠ 0) →
      dirlookupLoop c name fuel off s = .ok (none, s) := by
  induction fuel with
  | zero =>
    intro off _ hend _
    exact dirlookupLoop_done (by omega)
  | succ fuel ih =>
    intro off hal hend hskip
    by_cases hlt : off < (s.icache c).size
    · have hnext : off + DIRENTSIZE ≤ (s.icache c).size := by
        unfold DIRENTSIZE DIRSIZ at *
        omega
      have hk : off ≤ DIRENTSIZE * (off / DIRENTSIZE) := by
        rw [Nat.mul_div_cancel' (Nat.dvd_of_mod_eq_zero hal)]
      have hentry := hskip (off / DIRENTSIZE) hk (by
        rw [Nat.mul_div_cancel' (Nat.dvd_of_mod_eq_zero hal)]
        exact hlt)
      rw [← fileBytes_entry hal] at hentry
      rw [dirlookupLoop_next hlt (readi_entry hdev hcov hnext hword) hentry,
        Nat.mod_eq_of_lt (by omega)]
      exact ih (off + DIRENTSIZE) (by rw [Nat.add_mod_right]; exact hal) (by
        rw [Nat.mul_succ] at hend
        omega) fun k h₁ h₂ => hskip k (by omega) h₂
    · exact dirlookupLoop_done hlt

theorem dirlinkLoop_full (hdev : (s.icache c).type ≠ T_DEV) (hcov : Covered s c)
    (hsz : (s.icache c).size % DIRENTSIZE = 0) (hword : (s.icache c).size < WORD)
    (fuel : Nat) :
    ∀ off, off % DIRENTSIZE = 0 → off ≤ (s.icache c).size →
      (s.icache c).size ≤ off + DIRENTSIZE * fuel →
      (∀ k, off ≤ DIRENTSIZE * k → DIRENTSIZE * k < (s.icache c).size → (entryOf s c k).inum ≠ 0) →
      dirlinkLoop c fuel off s = .ok ((s.icache c).size, s) := by
  induction fuel with
  | zero =>
    intro off _ hle hend _
    unfold dirlinkLoop
    rw [if_neg (by omega), show off = (s.icache c).size by omega]
  | succ fuel ih =>
    intro off hal hle hend hlive
    unfold dirlinkLoop
    by_cases hlt : off < (s.icache c).size
    · have hnext : off + DIRENTSIZE ≤ (s.icache c).size := by
        unfold DIRENTSIZE DIRSIZ at *
        omega
      have hentry := hlive (off / DIRENTSIZE)
        (by rw [Nat.mul_div_cancel' (Nat.dvd_of_mod_eq_zero hal)])
        (by rw [Nat.mul_div_cancel' (Nat.dvd_of_mod_eq_zero hal)]; exact hlt)
      rw [← fileBytes_entry hal] at hentry
      rw [if_pos hlt]
      dsimp only
      rw [readi_entry hdev hcov hnext hword]
      dsimp only
      rw [if_neg (fun h => h rfl), if_neg hentry, Nat.mod_eq_of_lt (by omega)]
      exact ih (off + DIRENTSIZE) (by rw [Nat.add_mod_right]; exact hal) hnext (by
        rw [Nat.mul_succ] at hend
        omega) fun k h₁ h₂ => hlive k (by omega) h₂
    · rw [if_neg hlt, show off = (s.icache c).size by omega]

end Scan

/-- A directory of `MAXFILE` blocks, covered by its blocks, whose entries are all in use and none
of them `name` under `namecmp`: `dirlookup` finds no `name`, the scan finds no free slot, and
`writei` refuses an entry at the size, which would end past `MAXFILE * BSIZE`. `dirlink` then
panics, where it would have to return `-1`. -/
theorem dirlink_full_dir_panics {s : FsState} {c : Fin NINODE} {name : List UInt8}
    (hdir : (s.icache c).type = T_DIR) (hcov : Covered s c)
    (hsize : (s.icache c).size = MAXFILE * BSIZE)
    (hlive : ∀ k < MAXFILE * BSIZE / DIRENTSIZE,
      (entryOf s c k).inum ≠ 0 ∧ namecmp name (entryOf s c k).name ≠ 0)
    (inum : Nat) : dirlink s c name inum = .error "dirlink" := by
  have hdev : (s.icache c).type ≠ T_DEV := by
    rw [hdir]
    decide
  have hsz : (s.icache c).size % DIRENTSIZE = 0 := by
    rw [hsize]
    decide
  have hword : (s.icache c).size < WORD := by
    rw [hsize]
    decide
  have hfuel : (s.icache c).size ≤ 0 + DIRENTSIZE * DIRFUEL := by
    rw [hsize]
    decide
  have hk : ∀ k, DIRENTSIZE * k < (s.icache c).size → k < MAXFILE * BSIZE / DIRENTSIZE := by
    intro k hk
    rw [hsize] at hk
    unfold MAXFILE NDIRECT NINDIRECT BSIZE DIRENTSIZE DIRSIZ at *
    omega
  have hlook : dirlookup s c name = .ok (none, s) := by
    unfold dirlookup
    rw [if_neg (fun h => h hdir)]
    exact dirlookupLoop_absent hdev hcov hsz hword name DIRFUEL 0 rfl hfuel
      fun k _ h => Or.inr (hlive k (hk k h)).2
  have hscan : dirlinkLoop c DIRFUEL 0 s = .ok ((s.icache c).size, s) :=
    dirlinkLoop_full hdev hcov hsz hword DIRFUEL 0 rfl (Nat.zero_le _) hfuel
      fun k _ h => (hlive k (hk k h)).1
  have hwrite : writei s c (Dirent.encode ⟨inum, name⟩) (s.icache c).size DIRENTSIZE =
      .ok (-1, s) := by
    unfold writei
    dsimp only
    rw [if_neg hdev, if_neg (by rw [Nat.mod_eq_of_lt (by rw [hsize]; decide)]; omega),
      if_pos (by rw [hsize]; decide)]
  unfold dirlink
  rw [hlook]
  dsimp only
  rw [hscan]
  dsimp only
  rw [hwrite]
  rfl

def fullDirByte (k j : Nat) : UInt8 :=
  if j = 0 then 1
  else if j = 2 then (65 + k % 26).toUInt8
  else if j = 3 then (65 + k / 26 % 26).toUInt8
  else if j = 4 then (65 + k / 676 % 26).toUInt8
  else 0

def fullDirBlock (b : Nat) : Nat := if b ≤ NDIRECT then b - 1 else b - 2

def fullDirImage : Image :=
  ⟨⟨0, 0, 0, 0, 0, 0, 0⟩, fun _ => true, fun _ => DInode.zero, fun _ j => 14 + j.val,
    fun b o => fullDirByte (fullDirBlock b * (BSIZE / DIRENTSIZE) + o / DIRENTSIZE) (o % DIRENTSIZE)⟩

def fullDir : FsState :=
  ⟨fullDirImage, initLog, fun c => if c = 0 then
    ⟨⟨T_DIR, 0, 0, 1, MAXFILE * BSIZE, fun i => if i = indirect then 13 else i.val + 1⟩, 1, 1, true⟩
    else ⟨DInode.zero, 0, 0, false⟩, consoleDevsw⟩

theorem fullDir_blockAddr {k : Nat} (hk : k < MAXFILE) :
    blockAddr fullDir 0 k = if k < NDIRECT then k + 1 else k + 2 := by
  unfold blockAddr
  by_cases h₁ : k < NDIRECT
  · rw [dif_pos h₁, if_pos h₁]
    show (if direct ⟨k, h₁⟩ = indirect then 13 else (direct ⟨k, h₁⟩).val + 1) = k + 1
    rw [if_neg (direct_ne_indirect _)]
    rfl
  · have h₂ : k - NDIRECT < NINDIRECT := by
      unfold MAXFILE at hk
      omega
    rw [dif_neg h₁, dif_pos h₂, if_neg h₁]
    show (if (13 : Nat) = 0 then 0 else 14 + (k - NDIRECT)) = k + 2
    unfold NDIRECT at *
    simp only [OfNat.ofNat_ne_zero, if_false]
    omega

theorem fullDir_covered : Covered fullDir 0 := by
  intro x hx
  have hk : x / BSIZE < MAXFILE := by
    change x < MAXFILE * BSIZE at hx
    unfold MAXFILE NDIRECT NINDIRECT BSIZE at *
    omega
  rw [fullDir_blockAddr hk]
  split_ifs <;> exact Nat.succ_ne_zero _

theorem fullDir_fileByte {x : Nat} (hx : x < MAXFILE * BSIZE) :
    fileByte fullDir 0 x = some (fullDirByte (x / DIRENTSIZE) (x % DIRENTSIZE)) := by
  have hk : x / BSIZE < MAXFILE := by
    unfold MAXFILE NDIRECT NINDIRECT BSIZE at *
    omega
  unfold fileByte
  rw [if_neg (fullDir_covered x hx)]
  have hblk : fullDirBlock (blockAddr fullDir 0 (x / BSIZE)) = x / BSIZE := by
    rw [fullDir_blockAddr hk]
    generalize x / BSIZE = k
    unfold fullDirBlock NDIRECT
    split_ifs <;> omega
  show some (fullDirByte (fullDirBlock (blockAddr fullDir 0 (x / BSIZE)) * (BSIZE / DIRENTSIZE) +
    x % BSIZE / DIRENTSIZE) (x % BSIZE % DIRENTSIZE)) = _
  rw [hblk]
  congr 2
  · unfold BSIZE DIRENTSIZE DIRSIZ
    omega
  · unfold BSIZE DIRENTSIZE DIRSIZ
    omega

theorem fullDir_entry {k : Nat} (hk : k < MAXFILE * BSIZE / DIRENTSIZE) :
    entryOf fullDir 0 k = Dirent.decode ((List.range DIRENTSIZE).map (fullDirByte k)) := by
  unfold entryOf fileBytes
  congr 1
  apply List.map_congr_left
  intro j hj
  rw [List.mem_range] at hj
  rw [fullDir_fileByte (by unfold MAXFILE NDIRECT NINDIRECT BSIZE DIRENTSIZE DIRSIZ at *; omega)]
  show fullDirByte _ _ = _
  congr 1
  · unfold DIRENTSIZE DIRSIZ at *
    omega
  · unfold DIRENTSIZE DIRSIZ at *
    omega

theorem namecmp_ne_of_headD {p q : List UInt8} (hne : p.headD 0 ≠ q.headD 0) : namecmp p q ≠ 0 := by
  unfold namecmp DIRSIZ strncmp
  rw [if_neg (fun h => hne h.2)]
  intro h
  exact hne (UInt8.toNat_inj.1 (by omega))

theorem fullDir_live {k : Nat} (hk : k < MAXFILE * BSIZE / DIRENTSIZE) :
    (entryOf fullDir 0 k).inum ≠ 0 ∧ namecmp [98] (entryOf fullDir 0 k).name ≠ 0 := by
  rw [fullDir_entry hk]
  refine ⟨by simp [Dirent.decode, fullDirByte, DIRENTSIZE, DIRSIZ], namecmp_ne_of_headD ?_⟩
  show (98 : UInt8) ≠ (65 + k % 26).toUInt8
  intro h
  have := congrArg UInt8.toNat h
  simp at this
  omega

theorem dirlink_full_dir_panics_fullDir :
    (fullDir.icache 0).type = T_DIR ∧ Covered fullDir 0 ∧
      (fullDir.icache 0).size = MAXFILE * BSIZE ∧
      (∀ k < MAXFILE * BSIZE / DIRENTSIZE,
        (entryOf fullDir 0 k).inum ≠ 0 ∧ namecmp [98] (entryOf fullDir 0 k).name ≠ 0) ∧
      dirlink fullDir 0 [98] 2 = .error "dirlink" :=
  ⟨rfl, fullDir_covered, rfl, fun _ hk => fullDir_live hk,
    dirlink_full_dir_panics rfl fullDir_covered rfl (fun _ hk => fullDir_live hk) 2⟩

end Xv6
