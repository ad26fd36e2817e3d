import Xv6.Fs.Inode

set_option autoImplicit false

/-!
# The content of an inode: where `writei` puts its bytes

`blockAddr` is the disk block that holds a block of a cached inode, found as `bmap` finds it
but without allocating (`0` for none), and `fileByte` is a byte of the content where its block
is allocated. `writei` sets the bytes of its range and keeps every allocated byte outside it,
as long as the inode's blocks are distinct from each other and from its indirect block, are
marked in use in the free map so that `balloc` returns none of them, and block `0` is marked
too, so that a block `balloc` returns is never read as none.
-/
namespace Xv6

open FsState

/-- The block of the content that holds block `k` of inode `c`, or `0`. -/
def blockAddr (s : FsState) (c : Fin NINODE) (k : Nat) : Nat :=
  if h : k < NDIRECT then (s.icache c).addrs (direct ⟨k, h⟩)
  else if h' : k - NDIRECT < NINDIRECT then
    if (s.icache c).addrs indirect = 0 then 0
    else s.disk.ind ((s.icache c).addrs indirect) ⟨k - NDIRECT, h'⟩
  else 0

/-- Byte `x` of the content of inode `c`, where its block is allocated. -/
def fileByte (s : FsState) (c : Fin NINODE) (x : Nat) : Option UInt8 :=
  if blockAddr s c (x / BSIZE) = 0 then none
  else some (s.disk.data (blockAddr s c (x / BSIZE)) (x % BSIZE))

/-- What `writei` needs of the blocks of inode `c`: its blocks and its indirect block are data
blocks, at or above `nmeta`, distinct and in use in the free map, which marks every block below
`nmeta` in use, so `balloc` never hands out a block of the log, the inodes or the free map; and
the inode's own block `IBLOCK(inum)` is below `nmeta`, so `iupdate` writes none of its data. -/
structure BlocksWf (s : FsState) (c : Fin NINODE) : Prop where
  zero_used : s.disk.bitmap 0 = true
  used : ∀ k, blockAddr s c k ≠ 0 → s.disk.bitmap (blockAddr s c k) = true
  ind_used : (s.icache c).addrs indirect ≠ 0 →
    s.disk.bitmap ((s.icache c).addrs indirect) = true
  inj : ∀ k k', blockAddr s c k ≠ 0 → blockAddr s c k = blockAddr s c k' → k = k'
  ne_ind : ∀ k, blockAddr s c k ≠ 0 → blockAddr s c k ≠ (s.icache c).addrs indirect
  meta_used : ∀ b < s.disk.sb.nmeta, s.disk.bitmap b = true
  above_meta : ∀ k, blockAddr s c k ≠ 0 → s.disk.sb.nmeta ≤ blockAddr s c k
  ind_above_meta : (s.icache c).addrs indirect ≠ 0 → s.disk.sb.nmeta ≤ (s.icache c).addrs indirect
  iblock_meta : IBLOCK (s.icache c).inum s.disk.sb < s.disk.sb.nmeta

/-- The fields of the cache entry of `c` that only `writei`'s own update of the size changes. -/
def SameEntry (s s' : FsState) (c : Fin NINODE) : Prop :=
  (s'.icache c).type = (s.icache c).type ∧ (s'.icache c).size = (s.icache c).size ∧
    (s'.icache c).valid = (s.icache c).valid ∧ (s'.icache c).ref = (s.icache c).ref ∧
    (s'.icache c).inum = (s.icache c).inum

theorem SameEntry.refl (s : FsState) (c : Fin NINODE) : SameEntry s s c :=
  ⟨rfl, rfl, rfl, rfl, rfl⟩

theorem SameEntry.trans {s₁ s₂ s₃ : FsState} {c : Fin NINODE} (h₁ : SameEntry s₁ s₂ c)
    (h₂ : SameEntry s₂ s₃ c) : SameEntry s₁ s₃ c :=
  ⟨h₂.1.trans h₁.1, h₂.2.1.trans h₁.2.1, h₂.2.2.1.trans h₁.2.2.1, h₂.2.2.2.1.trans h₁.2.2.2.1,
    h₂.2.2.2.2.trans h₁.2.2.2.2⟩

theorem SameEntry.of_icache {s s' : FsState} {c : Fin NINODE} (h : s'.icache = s.icache) :
    SameEntry s s' c := by
  unfold SameEntry
  rw [h]
  exact SameEntry.refl s c

/-- `s'` keeps what `s` holds of inode `c`: its allocated blocks with their bytes, and the
fields of its cache entry. -/
structure Keeps (s s' : FsState) (c : Fin NINODE) : Prop where
  addr : ∀ k, blockAddr s c k ≠ 0 → blockAddr s' c k = blockAddr s c k
  data : ∀ k, blockAddr s c k ≠ 0 →
    s'.disk.data (blockAddr s c k) = s.disk.data (blockAddr s c k)
  entry : SameEntry s s' c

namespace Keeps

variable {s₁ s₂ s₃ : FsState} {c : Fin NINODE}

theorem refl (s : FsState) (c : Fin NINODE) : Keeps s s c :=
  ⟨fun _ _ => rfl, fun _ _ => rfl, SameEntry.refl s c⟩

theorem trans (h₁ : Keeps s₁ s₂ c) (h₂ : Keeps s₂ s₃ c) : Keeps s₁ s₃ c where
  addr k hk := by
    rw [h₂.addr k (by rw [h₁.addr k hk]; exact hk), h₁.addr k hk]
  data k hk := by
    have h₂k := h₂.data k (by rw [h₁.addr k hk]; exact hk)
    rw [h₁.addr k hk] at h₂k
    rw [h₂k, h₁.data k hk]
  entry := h₁.entry.trans h₂.entry

theorem fileByte (h : Keeps s₁ s₂ c) {x : Nat} {v : UInt8} (hx : fileByte s₁ c x = some v) :
    fileByte s₂ c x = some v := by
  unfold Xv6.fileByte at hx ⊢
  split_ifs at hx with h0
  rw [h.addr _ h0, if_neg h0, h.data _ h0]
  exact hx

end Keeps

/-! ### The calls under `writei` -/

section Calls

variable {s s' : FsState} {c : Fin NINODE}

theorem write_eq {b : Nat} {f : Image → Image} (h : s.write b f = .ok s') :
    ∃ l, s' = { s with disk := f s.disk, log := l } := by
  unfold FsState.write at h
  split at h
  · cases h
  · rename_i l _
    cases h
    exact ⟨l, rfl⟩

theorem balloc_eq {b : Nat} (h : balloc s = .ok (b, s')) :
    s.disk.bitmap b = false ∧
      ∃ l, s' = { s with disk := (s.disk.setBit b true).zero b, log := l } := by
  unfold balloc bzero at h
  split at h
  · cases h
  rename_i b' hfind
  split at h
  · cases h
  rename_i s₁ h₁
  split at h
  · cases h
  rename_i s₂ h₂
  cases h
  obtain ⟨l₁, rfl⟩ := write_eq h₁
  obtain ⟨l₂, rfl⟩ := write_eq h₂
  have hb := List.find?_some hfind
  exact ⟨by simpa using hb, l₂, rfl⟩

theorem blockAddr_congr
    (haddrs : (s'.icache c).addrs = (s.icache c).addrs)
    (hind : (s.icache c).addrs indirect ≠ 0 →
      s'.disk.ind ((s.icache c).addrs indirect) = s.disk.ind ((s.icache c).addrs indirect)) :
    blockAddr s' c = blockAddr s c := by
  funext k
  unfold blockAddr
  rw [haddrs]
  split_ifs with h₁ h₂ h₃
  · rfl
  · rfl
  · rw [hind h₃]
  · rfl

theorem BlocksWf.balloc (hw : BlocksWf s c) {b : Nat} (h : balloc s = .ok (b, s')) :
    BlocksWf s' c ∧ Keeps s s' c ∧ blockAddr s' c = blockAddr s c ∧ b ≠ 0 ∧
      (∀ k, blockAddr s c k ≠ b) ∧ (s.icache c).addrs indirect ≠ b ∧
      s'.icache = s.icache ∧ s'.disk.bitmap b = true ∧ (∀ j, s'.disk.ind b j = 0) ∧
      s.disk.sb.nmeta ≤ b ∧ s'.disk.sb = s.disk.sb := by
  obtain ⟨hfree, l, rfl⟩ := balloc_eq h
  have hb0 : b ≠ 0 := fun h0 => by
    rw [h0, hw.zero_used] at hfree
    cases hfree
  -- the free map marks every block below `nmeta` in use, so a free block is a data block
  have hbm : s.disk.sb.nmeta ≤ b := by
    by_contra hlt
    rw [hw.meta_used b (by omega)] at hfree
    cases hfree
  have hnk : ∀ k, blockAddr s c k ≠ b := fun k hk => by
    have hu := hw.used k (by rw [hk]; exact hb0)
    rw [hk, hfree] at hu
    cases hu
  have hnind : (s.icache c).addrs indirect ≠ b := fun hi => by
    have hu := hw.ind_used (by rw [hi]; exact hb0)
    rw [hi, hfree] at hu
    cases hu
  have hbit : ∀ a, a ≠ b → ((s.disk.setBit b true).zero b).bitmap a = s.disk.bitmap a :=
    fun a ha => Function.update_of_ne ha _ _
  have haddr : blockAddr { s with disk := (s.disk.setBit b true).zero b, log := l } c =
      blockAddr s c :=
    blockAddr_congr rfl fun _ => Function.update_of_ne hnind _ _
  refine ⟨⟨?_, fun k hk => ?_, fun hia => ?_, ?_, ?_, fun x hx => ?_, fun k hk => ?_,
    fun hia => ?_, hw.iblock_meta⟩, ⟨fun k _ => ?_, fun k hk => ?_, SameEntry.of_icache rfl⟩, haddr, hb0, hnk,
    hnind, rfl, Function.update_self _ _ _, fun _ => ?_, hbm, rfl⟩
  · exact (hbit 0 (Ne.symm hb0)).trans hw.zero_used
  · rw [haddr] at hk ⊢
    exact (hbit _ (hnk k)).trans (hw.used k hk)
  · exact (hbit _ hnind).trans (hw.ind_used hia)
  · rw [haddr]
    exact hw.inj
  · rw [haddr]
    exact hw.ne_ind
  · have hx' : x < s.disk.sb.nmeta := hx
    exact (hbit x (by omega)).trans (hw.meta_used x hx')
  · rw [haddr] at hk ⊢
    exact hw.above_meta k hk
  · exact hw.ind_above_meta hia
  · rw [haddr]
  · exact Function.update_of_ne (hnk k) _ _
  · show (Function.update (s.disk.setBit b true).ind b (fun _ => 0) b) _ = 0
    rw [Function.update_self]

theorem blockAddr_setAddr_direct (i : Fin NDIRECT) (a k : Nat) :
    blockAddr (s.setAddr c (direct i) a) c k = if k = i.val then a else blockAddr s c k := by
  unfold blockAddr FsState.setAddr
  simp only [setInode_icache, Function.update_self, setInode_disk]
  by_cases hk : k < NDIRECT
  · rw [dif_pos hk, dif_pos hk, Function.update_apply]
    exact if_congr (by rw [direct, direct, Fin.castSucc_inj, Fin.ext_iff]) rfl rfl
  · have hne : k ≠ i.val := by omega
    rw [dif_neg hk, dif_neg hk, if_neg hne, Function.update_of_ne (direct_ne_indirect i).symm]

theorem blockAddr_setAddr_indirect {a : Nat} (h0 : (s.icache c).addrs indirect = 0)
    (hz : ∀ j, s.disk.ind a j = 0) : blockAddr (s.setAddr c indirect a) c = blockAddr s c := by
  funext k
  unfold blockAddr FsState.setAddr
  simp only [setInode_icache, Function.update_self, setInode_disk]
  by_cases hk : k < NDIRECT
  · rw [dif_pos hk, dif_pos hk, Function.update_of_ne (direct_ne_indirect _)]
  · rw [dif_neg hk, dif_neg hk, h0]
    simp [hz]

theorem blockAddr_indirect {ia : Nat} (hia : (s.icache c).addrs indirect = ia) (hia0 : ia ≠ 0)
    (j : Fin NINDIRECT) : blockAddr s c (NDIRECT + j.val) = s.disk.ind ia j := by
  unfold blockAddr
  rw [dif_neg (by omega), dif_pos (by omega), hia, if_neg hia0]
  congr 1
  exact Fin.ext (by rw [Fin.val_mk]; omega)

theorem blockAddr_setInd {l : Log} {ia : Nat} (hia : (s.icache c).addrs indirect = ia)
    (hia0 : ia ≠ 0) (j : Fin NINDIRECT) (a k : Nat) :
    blockAddr { s with disk := s.disk.setInd ia j a, log := l } c k =
      if k = NDIRECT + j.val then a else blockAddr s c k := by
  unfold blockAddr
  by_cases hk : k < NDIRECT
  · rw [dif_pos hk, dif_pos hk, if_neg (by omega)]
  · by_cases hk' : k - NDIRECT < NINDIRECT
    · rw [dif_neg hk, dif_neg hk, dif_pos hk', dif_pos hk']
      dsimp only
      rw [hia, if_neg hia0, if_neg hia0]
      simp only [Image.setInd, Function.update_self]
      rw [Function.update_apply]
      exact if_congr (by rw [Fin.ext_iff, Fin.val_mk]; omega) rfl rfl
    · rw [dif_neg hk, dif_neg hk, dif_neg hk', dif_neg hk', if_neg (by omega)]

theorem BlocksWf.fill (hw : BlocksWf s c) {m a : Nat} (hm : blockAddr s c m = 0)
    (hused : s.disk.bitmap a = true) (hmeta : s.disk.sb.nmeta ≤ a) (hfresh : ∀ k, blockAddr s c k ≠ a)
    (hnind : (s.icache c).addrs indirect ≠ a)
    (haddr : ∀ k, blockAddr s' c k = if k = m then a else blockAddr s c k)
    (hbitmap : s'.disk.bitmap = s.disk.bitmap)
    (hind : (s'.icache c).addrs indirect = (s.icache c).addrs indirect)
    (hdata : s'.disk.data = s.disk.data) (hsb : s'.disk.sb = s.disk.sb)
    (hentry : SameEntry s s' c) :
    BlocksWf s' c ∧ Keeps s s' c ∧ blockAddr s' c m = a := by
  have hself : blockAddr s' c m = a := by rw [haddr, if_pos rfl]
  have hother : ∀ k, k ≠ m → blockAddr s' c k = blockAddr s c k := fun k hk => by
    rw [haddr, if_neg hk]
  refine ⟨⟨?_, fun k hk => ?_, fun hia => ?_, fun k k' hk he => ?_, fun k hk => ?_,
    fun x hx => ?_, fun k hk => ?_, fun hia => ?_, ?_⟩,
    ⟨fun k hk => hother k fun h => hk (h ▸ hm), fun k _ => by rw [hdata], hentry⟩, hself⟩
  · rw [hbitmap]
    exact hw.zero_used
  · rw [hbitmap]
    by_cases hkk : k = m
    · rw [hkk, hself]
      exact hused
    · rw [hother k hkk] at hk ⊢
      exact hw.used k hk
  · rw [hbitmap, hind]
    rw [hind] at hia
    exact hw.ind_used hia
  · by_cases hkk : k = m
    · by_cases hkk' : k' = m
      · rw [hkk, hkk']
      · rw [hkk, hself, hother k' hkk'] at he
        exact absurd he.symm (hfresh k')
    · rw [hother k hkk] at hk he
      by_cases hkk' : k' = m
      · rw [hkk', hself] at he
        exact absurd he (hfresh k)
      · rw [hother k' hkk'] at he
        exact hw.inj k k' hk he
  · rw [hind]
    by_cases hkk : k = m
    · rw [hkk, hself]
      exact hnind.symm
    · rw [hother k hkk] at hk ⊢
      exact hw.ne_ind k hk
  · rw [hbitmap]
    rw [hsb] at hx
    exact hw.meta_used x hx
  · rw [hsb]
    by_cases hkk : k = m
    · rw [hkk, hself]
      exact hmeta
    · rw [hother k hkk] at hk ⊢
      exact hw.above_meta k hk
  · rw [hsb, hind]
    rw [hind] at hia
    exact hw.ind_above_meta hia
  · rw [hsb, hentry.2.2.2.2]
    exact hw.iblock_meta

theorem setAddr_icache_self (i : Fin (NDIRECT + 1)) (a : Nat) :
    (s.setAddr c i a).icache c = { s.icache c with addrs := Function.update (s.icache c).addrs i a } := by
  unfold FsState.setAddr
  rw [setInode_icache, Function.update_self]

theorem setAddr_addrs (i j : Fin (NDIRECT + 1)) (a : Nat) :
    ((s.setAddr c i a).icache c).addrs j = Function.update (s.icache c).addrs i a j := by
  rw [setAddr_icache_self]

theorem SameEntry.setAddr (i : Fin (NDIRECT + 1)) (a : Nat) : SameEntry s (s.setAddr c i a) c := by
  unfold SameEntry
  rw [setAddr_icache_self]
  exact SameEntry.refl s c

theorem BlocksWf.setIndirect (hw : BlocksWf s c) {a : Nat}
    (h0 : (s.icache c).addrs indirect = 0) (hz : ∀ j, s.disk.ind a j = 0)
    (hused : s.disk.bitmap a = true) (hmeta : s.disk.sb.nmeta ≤ a)
    (hfresh : ∀ k, blockAddr s c k ≠ a) :
    BlocksWf (s.setAddr c indirect a) c ∧ Keeps s (s.setAddr c indirect a) c := by
  have haddr := blockAddr_setAddr_indirect h0 hz
  have hia : ((s.setAddr c indirect a).icache c).addrs indirect = a := by
    rw [setAddr_addrs, Function.update_self]
  refine ⟨⟨hw.zero_used, fun k hk => ?_, fun _ => by rw [hia]; exact hused, fun k k' hk he => ?_,
    fun k hk => ?_, hw.meta_used, fun k hk => ?_, fun _ => by rw [hia]; exact hmeta,
    by rw [setAddr_icache_self]; exact hw.iblock_meta⟩,
    ⟨fun k _ => by rw [haddr], fun _ _ => rfl, ?_⟩⟩
  · rw [haddr] at hk ⊢
    exact hw.used k hk
  · rw [haddr] at hk he
    exact hw.inj k k' hk he
  · rw [haddr] at hk ⊢
    rw [hia]
    exact hfresh k
  · rw [haddr] at hk ⊢
    exact hw.above_meta k hk
  · exact SameEntry.setAddr indirect a

theorem BlocksWf.bmapEntry (hw : BlocksWf s c) {ia : Nat} {j : Fin NINDIRECT} {b : Nat}
    (hia : (s.icache c).addrs indirect = ia) (hia0 : ia ≠ 0)
    (h : (if s.disk.ind ia j = 0 then
      match Xv6.balloc s with
      | .error e => .error e
      | .ok (addr, s) =>
        match s.write ia (·.setInd ia j addr) with
        | .error e => .error e
        | .ok s => .ok (addr, s)
      else Except.ok (s.disk.ind ia j, s)) = Except.ok (b, s')) :
    BlocksWf s' c ∧ Keeps s s' c ∧ blockAddr s' c (NDIRECT + j.val) = b ∧ b ≠ 0 := by
  have hentry := blockAddr_indirect hia hia0 j
  split_ifs at h with h0
  · split at h
    · cases h
    rename_i a s₁ h₁
    split at h
    · cases h
    rename_i s₂ h₂
    cases h
    obtain ⟨l, rfl⟩ := write_eq h₂
    obtain ⟨hw₁, hk₁, haddr₁, ha0, hfresh, hnind, hic₁, hused, -, hbm, hsb₁⟩ := hw.balloc h₁
    have hia₁ : (s₁.icache c).addrs indirect = ia := by rw [hic₁]; exact hia
    have hfill := hw₁.fill (m := NDIRECT + j.val) (a := b)
      (by rw [haddr₁, hentry, h0]) hused (by rw [hsb₁]; exact hbm) (by rw [haddr₁]; exact hfresh)
      (by rw [hia₁]; rw [hia] at hnind; exact hnind)
      (fun k => blockAddr_setInd (l := l) hia₁ hia0 j b k) rfl rfl rfl rfl (SameEntry.of_icache rfl)
    exact ⟨hfill.1, hk₁.trans hfill.2.1, hfill.2.2, ha0⟩
  · cases h
    exact ⟨hw, Keeps.refl s c, hentry, h0⟩

theorem BlocksWf.bmap (hw : BlocksWf s c) {k b : Nat} (h : bmap s c k = .ok (b, s')) :
    BlocksWf s' c ∧ Keeps s s' c ∧ blockAddr s' c k = b ∧ b ≠ 0 := by
  unfold Xv6.bmap at h
  split_ifs at h with hd hind hia
  · dsimp only at h
    have hka : blockAddr s c k = (s.icache c).addrs (direct ⟨k, hd⟩) := by
      unfold blockAddr
      rw [dif_pos hd]
    split_ifs at h with h0
    · split at h
      · cases h
      rename_i a s₁ h₁
      cases h
      obtain ⟨hw₁, hk₁, haddr₁, ha0, hfresh, hnind, hic₁, hused, -, hbm, hsb₁⟩ := hw.balloc h₁
      have hfill := hw₁.fill (m := k) (a := b) (by rw [haddr₁, hka, h0]) hused
        (by rw [hsb₁]; exact hbm) (by rw [haddr₁]; exact hfresh) (by rw [hic₁]; exact hnind)
        (fun k' => blockAddr_setAddr_direct ⟨k, hd⟩ b k') rfl
        (by rw [setAddr_addrs, Function.update_of_ne (direct_ne_indirect _).symm])
        rfl rfl (SameEntry.setAddr _ b)
      exact ⟨hfill.1, hk₁.trans hfill.2.1, hfill.2.2, ha0⟩
    · cases h
      exact ⟨hw, Keeps.refl s c, hka, h0⟩
  · dsimp only at h
    split at h
    · cases h
    rename_i ia s₁ hload
    split at hload
    · cases hload
    rename_i ia' s₀ h₀
    cases hload
    obtain ⟨hw₁, hk₁, haddr₁, ha0, hfresh, -, hic₁, hused, hz, hbm, hsb₁⟩ := hw.balloc h₀
    have hset := hw₁.setIndirect (by rw [hic₁]; exact hia) hz hused (by rw [hsb₁]; exact hbm)
      (by rw [haddr₁]; exact hfresh)
    have hia₂ : ((s₀.setAddr c indirect ia).icache c).addrs indirect = ia := by
      rw [setAddr_addrs, Function.update_self]
    obtain ⟨hw₃, hk₃, haddr₃, hb0⟩ := hset.1.bmapEntry hia₂ ha0 h
    rw [Fin.val_mk, show NDIRECT + (k - NDIRECT) = k by omega] at haddr₃
    exact ⟨hw₃, (hk₁.trans hset.2).trans hk₃, haddr₃, hb0⟩
  · dsimp only at h
    obtain ⟨hw₃, hk₃, haddr₃, hb0⟩ := hw.bmapEntry rfl hia h
    rw [Fin.val_mk, show NDIRECT + (k - NDIRECT) = k by omega] at haddr₃
    exact ⟨hw₃, hk₃, haddr₃, hb0⟩

end Calls

/-! ### `writei` -/

section Writes

variable {s s' : FsState} {c : Fin NINODE}

theorem BlocksWf.of_eq (hw : BlocksWf s c) (hbitmap : s'.disk.bitmap = s.disk.bitmap)
    (hind : s'.disk.ind = s.disk.ind) (haddrs : (s'.icache c).addrs = (s.icache c).addrs)
    (hsb : s'.disk.sb = s.disk.sb) (hinum : (s'.icache c).inum = (s.icache c).inum) :
    BlocksWf s' c := by
  have haddr : blockAddr s' c = blockAddr s c := blockAddr_congr haddrs fun _ => by rw [hind]
  refine ⟨?_, fun k hk => ?_, fun hia => ?_, ?_, ?_, ?_, ?_, ?_, ?_⟩
  · rw [hbitmap]
    exact hw.zero_used
  · rw [haddr] at hk ⊢
    rw [hbitmap]
    exact hw.used k hk
  · rw [haddrs] at hia ⊢
    rw [hbitmap]
    exact hw.ind_used hia
  · rw [haddr]
    exact hw.inj
  · rw [haddr, haddrs]
    exact hw.ne_ind
  · rw [hsb, hbitmap]
    exact hw.meta_used
  · rw [haddr, hsb]
    exact hw.above_meta
  · rw [haddrs, hsb]
    exact hw.ind_above_meta
  · rw [hsb, hinum]
    exact hw.iblock_meta

theorem fileByte_congr (haddr : blockAddr s' c = blockAddr s c)
    (hdata : s'.disk.data = s.disk.data) : fileByte s' c = fileByte s c := by
  funext x
  unfold fileByte
  rw [haddr, hdata]

theorem fileByte_writeData (hw : BlocksWf s c) {k₀ o : Nat} {bs : List UInt8} {l : Log}
    (hk₀ : blockAddr s c k₀ ≠ 0) (x : Nat) :
    fileByte { s with disk := s.disk.writeData (blockAddr s c k₀) o bs, log := l } c x =
      if x / BSIZE = k₀ ∧ o ≤ x % BSIZE ∧ x % BSIZE < o + bs.length then
        some (bs.getD (x % BSIZE - o) 0)
      else fileByte s c x := by
  have haddr : blockAddr { s with disk := s.disk.writeData (blockAddr s c k₀) o bs, log := l } c =
      blockAddr s c := blockAddr_congr rfl fun _ => rfl
  unfold fileByte
  rw [haddr]
  simp only [Image.writeData]
  by_cases hx : x / BSIZE = k₀
  · subst hx
    simp only [if_neg hk₀, Function.update_self, true_and]
    split_ifs <;> rfl
  · have hcond : ¬ (x / BSIZE = k₀ ∧ o ≤ x % BSIZE ∧ x % BSIZE < o + bs.length) := fun h => hx h.1
    rw [if_neg hcond]
    by_cases h0 : blockAddr s c (x / BSIZE) = 0
    · simp only [if_pos h0]
    · have hne : blockAddr s c (x / BSIZE) ≠ blockAddr s c k₀ := fun he => hx (hw.inj _ _ h0 he)
      simp only [if_neg h0, Function.update_of_ne hne]

theorem inPass_iff {off m x : Nat} (hm : m ≤ BSIZE - off % BSIZE) :
    (x / BSIZE = off / BSIZE ∧ off % BSIZE ≤ x % BSIZE ∧ x % BSIZE < off % BSIZE + m) ↔
      (off ≤ x ∧ x < off + m) := by
  unfold BSIZE at *
  omega

theorem getD_take_drop (src : List UInt8) {tot m i : Nat} (hi : i < m) :
    ((src.drop tot).take m).getD i 0 = src.getD (tot + i) 0 := by
  rw [List.getD_eq_getElem?_getD, List.getD_eq_getElem?_getD, List.getElem?_take_of_lt hi,
    List.getElem?_drop]

theorem BlocksWf.writeiLoop {src : List UInt8} {n : Nat} (hn : n ≤ src.length) (fuel : Nat) :
    ∀ (tot off : Nat) (s : FsState), BlocksWf s c → tot ≤ n →
      Xv6.writeiLoop c src n fuel tot off s = .ok s' →
      BlocksWf s' c ∧ SameEntry s s' c ∧
        (∀ x, off ≤ x → x < off + (n - tot) →
          fileByte s' c x = some (src.getD (tot + (x - off)) 0)) ∧
        (∀ x v, (x < off ∨ off + (n - tot) ≤ x) → fileByte s c x = some v →
          fileByte s' c x = some v) := by
  induction fuel with
  | zero =>
    intro tot off s hw _ h
    unfold Xv6.writeiLoop at h
    -- out of fuel the loop fails, so it has ended
    split_ifs at h with hlt
    cases h
    exact ⟨hw, SameEntry.refl _ c, fun x h₁ h₂ => by omega, fun _ _ _ hx => hx⟩
  | succ fuel ih =>
    intro tot off s hw htot h
    unfold Xv6.writeiLoop at h
    split_ifs at h with hlt
    · dsimp only at h
      split at h
      · cases h
      rename_i b s₁ hb
      split at h
      · cases h
      rename_i s₂ hwr
      obtain ⟨hw₁, hk₁, hb₁, hb0⟩ := hw.bmap hb
      obtain ⟨l, rfl⟩ := write_eq hwr
      obtain ⟨m, hm⟩ : ∃ m, m = min (n - tot) (BSIZE - off % BSIZE) := ⟨_, rfl⟩
      rw [← hm] at h
      have hmle : m ≤ BSIZE - off % BSIZE := hm ▸ min_le_right _ _
      have hlen : ((src.drop tot).take m).length = m := by
        rw [List.length_take, List.length_drop]
        omega
      have hw₂ : BlocksWf { s₁ with
        disk := s₁.disk.writeData b (off % BSIZE) ((src.drop tot).take m), log := l } c :=
        hw₁.of_eq rfl rfl rfl rfl rfl
      have hbyte : ∀ x, fileByte { s₁ with
          disk := s₁.disk.writeData b (off % BSIZE) ((src.drop tot).take m), log := l } c x =
          if off ≤ x ∧ x < off + m then some (src.getD (tot + (x - off)) 0)
          else fileByte s₁ c x := by
        intro x
        rw [← hb₁, fileByte_writeData hw₁ (hb₁ ▸ hb0), hlen]
        by_cases hx : off ≤ x ∧ x < off + m
        · have hin := (inPass_iff hmle).2 hx
          rw [if_pos hin, if_pos hx, getD_take_drop src (by unfold BSIZE at *; omega)]
          congr 3
          unfold BSIZE at *
          omega
        · rw [if_neg (fun h => hx ((inPass_iff hmle).1 h)), if_neg hx]
      obtain ⟨hw', he', hrange', hframe'⟩ := ih (tot + m) (off + m) _ hw₂ (by omega) h
      refine ⟨hw', hk₁.entry.trans ((SameEntry.of_icache rfl).trans he'), ?_, ?_⟩
      · intro x h₁ h₂
        by_cases hx : x < off + m
        · apply hframe' x _ (Or.inl hx)
          rw [hbyte, if_pos ⟨h₁, hx⟩]
        · rw [hrange' x (by omega) (by omega)]
          congr 2
          omega
      · intro x v hx hv
        apply hframe' x v (by omega)
        rw [hbyte, if_neg (by omega)]
        exact hk₁.fileByte hv
    · cases h
      exact ⟨hw, SameEntry.refl _ c, fun x h₁ h₂ => by omega, fun _ _ _ hx => hx⟩

theorem BlocksWf.resize (hw : BlocksWf s c) {m : Nat} (h : iupdate (s.setSize c m) c = .ok s') :
    BlocksWf s' c ∧ fileByte s' c = fileByte s c ∧ s'.icache c = { s.icache c with size := m } := by
  unfold iupdate at h
  obtain ⟨l, rfl⟩ := write_eq h
  have hic : ((s.setSize c m).icache c) = { s.icache c with size := m } := by
    unfold FsState.setSize
    rw [setInode_icache, Function.update_self]
  have haddrs : ((s.setSize c m).icache c).addrs = (s.icache c).addrs := by rw [hic]
  exact ⟨hw.of_eq rfl rfl haddrs rfl (congrArg (·.inum) hic),
    fileByte_congr (blockAddr_congr haddrs fun _ => rfl) rfl, hic⟩

/-- What a `writei` of `n` bytes of `src` at `off` that returns `n` leaves of inode `c`. -/
structure Written (s s' : FsState) (c : Fin NINODE) (src : List UInt8) (off n : Nat) : Prop where
  wf : BlocksWf s' c
  type : (s'.icache c).type = (s.icache c).type
  valid : (s'.icache c).valid = (s.icache c).valid
  ref : (s'.icache c).ref = (s.icache c).ref
  size : (s'.icache c).size = max (s.icache c).size (off + n)
  range : ∀ x, off ≤ x → x < off + n → fileByte s' c x = some (src.getD (x - off) 0)
  frame : ∀ x v, (x < off ∨ off + n ≤ x) → fileByte s c x = some v → fileByte s' c x = some v

theorem BlocksWf.writei (hw : BlocksWf s c) (hdev : (s.icache c).type ≠ T_DEV)
    {src : List UInt8} {off n : Nat} {r : Int} (hn : n ≤ src.length)
    (h : Xv6.writei s c src off n = .ok (r, s')) :
    (r = -1 ∧ s' = s ∧
        (off > (s.icache c).size ∨ (off + n) % WORD < off ∨ off + n > MAXFILE * BSIZE)) ∨
      (r = n ∧ off ≤ (s.icache c).size ∧ Written s s' c src off n) := by
  unfold Xv6.writei at h
  dsimp only at h
  rw [if_neg hdev] at h
  split_ifs at h with h₁ h₂
  · cases h
    exact Or.inl ⟨rfl, rfl, or_assoc.1 (Or.inl h₁)⟩
  · cases h
    exact Or.inl ⟨rfl, rfl, Or.inr (Or.inr h₂)⟩
  · have hoff : off ≤ (s.icache c).size := by omega
    split at h
    · cases h
    rename_i s₁ hloop
    obtain ⟨hw₁, he₁, hrange, hframe⟩ := hw.writeiLoop hn n 0 off s (Nat.zero_le n) hloop
    have hrange' : ∀ x, off ≤ x → x < off + n → fileByte s₁ c x = some (src.getD (x - off) 0) :=
      fun x h₁ h₂ => by
        rw [hrange x h₁ (by omega), Nat.zero_add]
    split_ifs at h with hgrow
    · split at h
      · cases h
      rename_i s₂ hup
      cases h
      obtain ⟨hw₂, hbytes, hic⟩ := hw₁.resize hup
      refine Or.inr ⟨rfl, hoff, ⟨hw₂, ?_, ?_, ?_, ?_, ?_, ?_⟩⟩
      · rw [hic]
        exact he₁.1
      · rw [hic]
        exact he₁.2.2.1
      · rw [hic]
        exact he₁.2.2.2.1
      · rw [hic]
        dsimp only
        rw [he₁.2.1] at hgrow
        omega
      · intro x h₁ h₂
        rw [hbytes]
        exact hrange' x h₁ h₂
      · intro x v hx hv
        rw [hbytes]
        exact hframe x v (by omega) hv
    · cases h
      refine Or.inr ⟨rfl, hoff, ⟨hw₁, he₁.1, he₁.2.2.1, he₁.2.2.2.1, ?_, hrange',
        fun x v hx hv => hframe x v (by omega) hv⟩⟩
      rw [he₁.2.1] at hgrow ⊢
      omega

end Writes

/-! ### The content as a byte array -/

def fileBytes (s : FsState) (c : Fin NINODE) (off m : Nat) : List UInt8 :=
  (List.range m).map fun j => (fileByte s c (off + j)).getD 0

/-- The content of `c`: the `size` bytes from `0`. -/
def content (s : FsState) (c : Fin NINODE) : List UInt8 := fileBytes s c 0 (s.icache c).size

/-- The blocks of `c` cover `[0, size)`: every byte of the content has its block. -/
def Covered (s : FsState) (c : Fin NINODE) : Prop :=
  ∀ x < (s.icache c).size, blockAddr s c (x / BSIZE) ≠ 0

section Reads

variable {s s' : FsState} {c : Fin NINODE}

@[simp] theorem fileBytes_length (s : FsState) (c : Fin NINODE) (off m : Nat) :
    (fileBytes s c off m).length = m := by
  simp [fileBytes]

theorem fileBytes_add (s : FsState) (c : Fin NINODE) (off a b : Nat) :
    fileBytes s c off (a + b) = fileBytes s c off a ++ fileBytes s c (off + a) b := by
  unfold fileBytes
  rw [List.range_add, List.map_append, List.map_map]
  congr 2
  funext j
  simp only [Function.comp_apply, Nat.add_assoc]

theorem fileBytes_getD (s : FsState) (c : Fin NINODE) (off m x : Nat) :
    (fileBytes s c off m).getD x 0 = if x < m then (fileByte s c (off + x)).getD 0 else 0 := by
  unfold fileBytes
  rw [List.getD_eq_getElem?_getD, List.getElem?_map]
  by_cases hx : x < m
  · rw [List.getElem?_range hx, if_pos hx]
    rfl
  · rw [List.getElem?_eq_none (by rw [List.length_range]; omega), if_neg hx]
    rfl

theorem content_getD (s : FsState) (c : Fin NINODE) (x : Nat) :
    (content s c).getD x 0 = if x < (s.icache c).size then (fileByte s c x).getD 0 else 0 := by
  rw [content, fileBytes_getD, Nat.zero_add]

theorem fileBytes_eq_content {off m : Nat} (h : off + m ≤ (s.icache c).size) :
    fileBytes s c off m = ((content s c).drop off).take m := by
  have hsplit := fileBytes_add s c 0 off (m + ((s.icache c).size - off - m))
  rw [fileBytes_add s c (0 + off) m, Nat.zero_add,
    show off + (m + ((s.icache c).size - off - m)) = (s.icache c).size by omega] at hsplit
  rw [content, hsplit, List.drop_left' (fileBytes_length s c 0 off),
    List.take_left' (fileBytes_length s c off m)]

theorem fileByte_ne_none {x : Nat} (h : blockAddr s c (x / BSIZE) ≠ 0) :
    ∃ v, fileByte s c x = some v := by
  unfold fileByte
  rw [if_neg h]
  exact ⟨_, rfl⟩

theorem blockAddr_ne_zero {x : Nat} {v : UInt8} (h : fileByte s c x = some v) :
    blockAddr s c (x / BSIZE) ≠ 0 := by
  unfold fileByte at h
  split_ifs at h with h0
  exact h0

theorem bmap_of_blockAddr {k : Nat} (h : blockAddr s c k ≠ 0) :
    bmap s c k = .ok (blockAddr s c k, s) := by
  unfold bmap
  by_cases h₁ : k < NDIRECT
  · have hk : blockAddr s c k = (s.icache c).addrs (direct ⟨k, h₁⟩) := by
      unfold blockAddr
      rw [dif_pos h₁]
    rw [hk] at h ⊢
    rw [dif_pos h₁]
    exact if_neg h
  · by_cases h₂ : k - NDIRECT < NINDIRECT
    · have hia : (s.icache c).addrs indirect ≠ 0 := fun h0 => h (by
        unfold blockAddr
        rw [dif_neg h₁, dif_pos h₂, if_pos h0])
      have hk : blockAddr s c k = s.disk.ind ((s.icache c).addrs indirect) ⟨k - NDIRECT, h₂⟩ := by
        unfold blockAddr
        rw [dif_neg h₁, dif_pos h₂, if_neg hia]
      rw [hk] at h ⊢
      rw [dif_neg h₁, dif_pos h₂]
      dsimp only
      rw [if_neg hia]
      dsimp only
      rw [if_neg h]
    · exact absurd (by unfold blockAddr; rw [dif_neg h₁, dif_neg h₂]) h

theorem readData_eq_fileBytes {off m : Nat} (hm : m ≤ BSIZE - off % BSIZE)
    (h0 : blockAddr s c (off / BSIZE) ≠ 0) :
    s.disk.readData (blockAddr s c (off / BSIZE)) (off % BSIZE) m = fileBytes s c off m := by
  unfold Image.readData fileBytes
  apply List.map_congr_left
  intro j hj
  rw [List.mem_range] at hj
  have hblk : (off + j) / BSIZE = off / BSIZE := by
    unfold BSIZE at *
    omega
  have hmod : (off + j) % BSIZE = off % BSIZE + j := by
    unfold BSIZE at *
    omega
  unfold fileByte
  rw [hblk, hmod, if_neg h0]
  rfl

theorem readiLoop_covered {n : Nat} (fuel : Nat) :
    ∀ (tot off : Nat) (dst : List UInt8), n - tot ≤ fuel →
      (∀ x, off ≤ x → x < off + (n - tot) → blockAddr s c (x / BSIZE) ≠ 0) →
      readiLoop c n fuel tot off dst s = .ok (dst ++ fileBytes s c off (n - tot), s) := by
  induction fuel with
  | zero =>
    intro tot off dst hfuel _
    unfold readiLoop
    rw [if_neg (by omega), show n - tot = 0 by omega]
    simp [fileBytes]
  | succ fuel ih =>
    intro tot off dst hfuel hcov
    unfold readiLoop
    by_cases hlt : tot < n
    · have h0 := hcov off le_rfl (by omega)
      rw [if_pos hlt]
      dsimp only
      rw [bmap_of_blockAddr h0]
      dsimp only
      obtain ⟨m, hm⟩ : ∃ m, m = min (n - tot) (BSIZE - off % BSIZE) := ⟨_, rfl⟩
      rw [← hm]
      have hmle : m ≤ BSIZE - off % BSIZE := hm ▸ min_le_right _ _
      have hpos : 0 < m := by
        unfold BSIZE at hm
        omega
      rw [readData_eq_fileBytes hmle h0,
        ih (tot + m) (off + m) _ (by omega) (fun x h₁ h₂ => hcov x (by omega) (by omega)),
        List.append_assoc, ← fileBytes_add, show m + (n - (tot + m)) = n - tot by omega]
    · rw [if_neg hlt, show n - tot = 0 by omega]
      simp [fileBytes]

theorem readi_covered (hdev : (s.icache c).type ≠ T_DEV) (hcov : Covered s c) (off n : Nat) :
    readi s c off n =
      if off > (s.icache c).size ∨ (off + n) % WORD < off then .ok (-1, [], s)
      else .ok (((min n ((s.icache c).size - off) : Nat) : Int),
        ((content s c).drop off).take (min n ((s.icache c).size - off)), s) := by
  unfold readi
  dsimp only
  rw [if_neg hdev]
  by_cases h₁ : off > (s.icache c).size ∨ (off + n) % WORD < off
  · rw [if_pos h₁, if_pos h₁]
  · rw [if_neg h₁, if_neg h₁]
    have hm : (if off + n > (s.icache c).size then (s.icache c).size - off else n) =
        min n ((s.icache c).size - off) := by
      split_ifs <;> omega
    rw [hm, readiLoop_covered _ 0 off [] (by omega) (fun x h₁ h₂ => hcov x (by omega)),
      List.nil_append, Nat.sub_zero, fileBytes_eq_content (by omega)]

theorem Written.content {src : List UInt8} {off n : Nat} (h : Written s s' c src off n)
    (hcov : Covered s c) (hoff : off ≤ (s.icache c).size) :
    Covered s' c ∧ (Xv6.content s' c).length = max (s.icache c).size (off + n) ∧
      ∀ x, (Xv6.content s' c).getD x 0 =
        if off ≤ x ∧ x < off + n then src.getD (x - off) 0 else (Xv6.content s c).getD x 0 := by
  have hkept : ∀ x, ¬ (off ≤ x ∧ x < off + n) → x < (s.icache c).size →
      fileByte s' c x = fileByte s c x := by
    intro x hx hlt
    obtain ⟨v, hv⟩ := fileByte_ne_none (hcov x hlt)
    rw [hv, h.frame x v (by omega) hv]
  refine ⟨fun x hx => ?_, by rw [Xv6.content, fileBytes_length, h.size], fun x => ?_⟩
  · rw [h.size] at hx
    by_cases hin : off ≤ x ∧ x < off + n
    · exact blockAddr_ne_zero (h.range x hin.1 hin.2)
    · have hlt : x < (s.icache c).size := by omega
      obtain ⟨v, hv⟩ := fileByte_ne_none (hcov x hlt)
      exact blockAddr_ne_zero (h.frame x v (by omega) hv)
  · rw [content_getD, content_getD, h.size]
    by_cases hin : off ≤ x ∧ x < off + n
    · rw [if_pos (by omega), if_pos hin, h.range x hin.1 hin.2]
      rfl
    · rw [if_neg hin]
      by_cases hlt : x < (s.icache c).size
      · rw [if_pos (by omega), if_pos hlt, hkept x hin hlt]
      · rw [if_neg (by omega), if_neg hlt]

end Reads

end Xv6
