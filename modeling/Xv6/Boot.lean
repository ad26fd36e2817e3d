import Mathlib

set_option autoImplicit false

/-!
# The boot loader: `bootmain.c`

`bootmain` reads the first 4096 bytes of the kernel image, which starts at sector 1 of the
disk, to the scratch page at `0x10000`, checks the ELF magic, and loads each program segment:
`readseg` copies the segment's file bytes to its physical address and `stosb` zeroes the rest
of its memory size. `readseg` works in whole sectors, so it also writes the bytes between the
sector boundary below the segment and its start, and those after its end up to the next
boundary, each with the image byte at the same distance from the segment (`readseg_eq`).

When the headers lie in the first page and no segment's writes reach the scratch page or a
segment loaded before it, every segment holds its file bytes and zeros, and nothing else has
changed (`bootmain_loads`). Addresses are 32-bit: the statements keep them below `2^32`.
-/
namespace Xv6

namespace Boot

def SECTSIZE : Nat := 512

def ELF : Nat := 0x10000

def ELF_MAGIC : Nat := 0x464C457F

def image (disk : Nat → UInt8) (b : Nat) : UInt8 := disk (SECTSIZE + b)

def word (mem : Nat → UInt8) (a : Nat) : Nat :=
  (mem a).toNat + (mem (a + 1)).toNat * 2 ^ 8 + (mem (a + 2)).toNat * 2 ^ 16 +
    (mem (a + 3)).toNat * 2 ^ 24

def half (mem : Nat → UInt8) (a : Nat) : Nat := (mem a).toNat + (mem (a + 1)).toNat * 2 ^ 8

/-- `readsect(dst, offset)`: sector `offset` of the disk at `dst`, by `insl` of `SECTSIZE/4`
words. `offset` stays below `2^28`, the sectors the drive's 28-bit address reaches. -/
def readsect (disk mem : Nat → UInt8) (dst offset : Nat) : Nat → UInt8 :=
  fun a => if dst ≤ a ∧ a < dst + SECTSIZE then disk (offset * SECTSIZE + (a - dst)) else mem a

/-- `for(; pa < epa; pa += SECTSIZE, offset++) readsect(pa, offset);`, with at most `fuel`
passes, `pa` a 32-bit pointer. -/
def readsegLoop (disk : Nat → UInt8) : Nat → (Nat → UInt8) → Nat → Nat → Nat → (Nat → UInt8)
  | 0, mem, _, _, _ => mem
  | fuel + 1, mem, pa, epa, offset =>
    if pa < epa then
      readsegLoop disk fuel (readsect disk mem pa offset) ((pa + SECTSIZE) % 2 ^ 32) epa (offset + 1)
    else mem

/-- `readseg(pa, count, offset)`: from the sector boundary below `pa` at `offset % SECTSIZE`,
whole sectors up to `pa + count`. A loop that needs a pass more than `count / SECTSIZE + 1`
has wrapped `pa`. -/
def readseg (disk mem : Nat → UInt8) (pa count offset : Nat) : Nat → UInt8 :=
  readsegLoop disk (count / SECTSIZE + 2) mem ((pa + 2 ^ 32 - offset % SECTSIZE) % 2 ^ 32)
    ((pa + count) % 2 ^ 32) (offset / SECTSIZE + 1)

/-- `stosb(addr, c, n)`: `rep stosb`, the byte `c` in the `n` bytes from `addr`. -/
def stosb (mem : Nat → UInt8) (addr : Nat) (c : UInt8) (n : Nat) : Nat → UInt8 :=
  fun a => if addr ≤ a ∧ a < addr + n then c else mem a

/-- The fields of `struct proghdr` that `bootmain` reads. -/
structure Proghdr where
  off : Nat
  paddr : Nat
  filesz : Nat
  memsz : Nat
  deriving DecidableEq

def Proghdr.read (mem : Nat → UInt8) (ph : Nat) : Proghdr :=
  ⟨word mem (ph + 4), word mem (ph + 12), word mem (ph + 16), word mem (ph + 20)⟩

def loadSeg (disk mem : Nat → UInt8) (ph : Nat) : Nat → UInt8 :=
  let pa := (Proghdr.read mem ph).paddr
  let mem := readseg disk mem pa (Proghdr.read mem ph).filesz (Proghdr.read mem ph).off
  let p := Proghdr.read mem ph
  if p.filesz < p.memsz then stosb mem ((pa + p.filesz) % 2 ^ 32) 0 (p.memsz - p.filesz) else mem

def loadLoop (disk : Nat → UInt8) : Nat → (Nat → UInt8) → Nat → Nat → (Nat → UInt8)
  | 0, mem, _, _ => mem
  | fuel + 1, mem, ph, eph =>
    if ph < eph then loadLoop disk fuel (loadSeg disk mem ph) ((ph + 32) % 2 ^ 32) eph else mem

/-- `bootmain()`: the entry point it jumps to and the memory then, or `none` where it returns
to `bootasm.S` on a bad magic number. The loop takes one turn a header. -/
def bootmain (disk mem : Nat → UInt8) : Option (Nat × (Nat → UInt8)) :=
  let mem := readseg disk mem ELF 4096 0
  if word mem ELF ≠ ELF_MAGIC then none
  else
    let ph := (ELF + word mem (ELF + 28)) % 2 ^ 32
    let eph := (ph + 32 * half mem (ELF + 44)) % 2 ^ 32
    let mem := loadLoop disk (half mem (ELF + 44) + 1) mem ph eph
    some (word mem (ELF + 24), mem)

/-! ### `readseg` -/

def passes (pa epa : Nat) : Nat := (epa - pa + SECTSIZE - 1) / SECTSIZE

theorem readsegLoop_eq (disk : Nat → UInt8) : ∀ (fuel : Nat) (mem : Nat → UInt8) (pa epa s : Nat),
    passes pa epa ≤ fuel → pa + SECTSIZE * passes pa epa < 2 ^ 32 →
      readsegLoop disk fuel mem pa epa s = fun a =>
        if pa ≤ a ∧ a < pa + SECTSIZE * passes pa epa then disk (s * SECTSIZE + (a - pa)) else mem a
  | 0, mem, pa, epa, s, hfuel, _ => by
    funext a
    rw [readsegLoop, Nat.le_zero.mp hfuel, Nat.mul_zero, Nat.add_zero,
      if_neg (fun h => Nat.lt_irrefl pa (Nat.lt_of_le_of_lt h.1 h.2))]
  | fuel + 1, mem, pa, epa, s, hfuel, hwrap => by
    rw [readsegLoop]
    unfold passes SECTSIZE at *
    split_ifs with hlt
    · have hnext : (pa + 512) % 2 ^ 32 = pa + 512 := Nat.mod_eq_of_lt (by omega)
      rw [hnext, readsegLoop_eq disk fuel _ (pa + 512) epa (s + 1) (by unfold passes SECTSIZE; omega)
        (by unfold passes SECTSIZE; omega)]
      funext a
      unfold passes readsect SECTSIZE
      by_cases hlater : pa + 512 ≤ a ∧ a < pa + 512 + 512 * ((epa - (pa + 512) + 512 - 1) / 512)
      · rw [if_pos hlater, if_pos (by omega)]
        exact congrArg disk (by omega)
      · rw [if_neg hlater]
        by_cases hfirst : pa ≤ a ∧ a < pa + 512
        · rw [if_pos hfirst, if_pos (by omega)]
        · rw [if_neg hfirst, if_neg (by omega)]
    · funext a
      rw [if_neg (by omega)]

def sectors (count offset : Nat) : Nat := (count + offset % SECTSIZE + SECTSIZE - 1) / SECTSIZE

theorem readseg_eq (disk mem : Nat → UInt8) {pa count offset : Nat}
    (hlow : offset % SECTSIZE ≤ pa) (hhigh : pa + count + SECTSIZE ≤ 2 ^ 32) :
    readseg disk mem pa count offset = fun a =>
      if pa - offset % SECTSIZE ≤ a ∧ a < pa - offset % SECTSIZE + SECTSIZE * sectors count offset
      then image disk (offset + a - pa) else mem a := by
  unfold SECTSIZE at hlow hhigh
  have hbase : (pa + 2 ^ 32 - offset % 512) % 2 ^ 32 = pa - offset % 512 := by
    rw [show pa + 2 ^ 32 - offset % 512 = pa - offset % 512 + 2 ^ 32 by omega, Nat.add_mod_right,
      Nat.mod_eq_of_lt (by omega)]
  have hend : (pa + count) % 2 ^ 32 = pa + count := Nat.mod_eq_of_lt (by omega)
  have hpasses : passes (pa - offset % 512) (pa + count) = sectors count offset := by
    unfold passes sectors SECTSIZE
    congr 1
    omega
  unfold readseg SECTSIZE
  rw [hbase, hend, readsegLoop_eq disk _ _ _ _ _ (by rw [hpasses]; unfold sectors SECTSIZE; omega)
    (by rw [hpasses]; unfold sectors SECTSIZE; omega), hpasses]
  funext a
  unfold image SECTSIZE
  split_ifs
  · exact congrArg disk (by omega)
  · rfl

/-! ### The image and its segments -/

def phoff (disk : Nat → UInt8) : Nat := word (image disk) 28

def phnum (disk : Nat → UInt8) : Nat := half (image disk) 44

def entry (disk : Nat → UInt8) : Nat := word (image disk) 24

def hdr (disk : Nat → UInt8) (i : Nat) : Proghdr := Proghdr.read (image disk) (phoff disk + 32 * i)

def Proghdr.base (p : Proghdr) : Nat := p.paddr - p.off % SECTSIZE

def Proghdr.Writes (p : Proghdr) (a : Nat) : Prop :=
  (p.base ≤ a ∧ a < p.base + SECTSIZE * sectors p.filesz p.off) ∨
    (p.filesz < p.memsz ∧ p.paddr + p.filesz ≤ a ∧ a < p.paddr + p.memsz)

def Proghdr.Holds (p : Proghdr) (a : Nat) : Prop := p.paddr ≤ a ∧ a < p.paddr + p.memsz

def Proghdr.byte (disk : Nat → UInt8) (p : Proghdr) (a : Nat) : UInt8 :=
  if a < p.paddr + p.filesz then image disk (p.off + a - p.paddr) else 0

def Proghdr.Fits (p : Proghdr) : Prop :=
  p.off % SECTSIZE ≤ p.paddr ∧ p.paddr + p.filesz + SECTSIZE ≤ 2 ^ 32 ∧ p.paddr + p.memsz ≤ 2 ^ 32

/-- An image `bootmain` loads as its headers say: the magic number, the program headers in the
first page, and no segment writing into the scratch page or into a segment loaded before it. -/
structure Loadable (disk : Nat → UInt8) : Prop where
  magic : word (image disk) 0 = ELF_MAGIC
  headers : phoff disk + 32 * phnum disk ≤ 4096
  fits : ∀ i < phnum disk, (hdr disk i).Fits
  scratch : ∀ i < phnum disk, ∀ a, (hdr disk i).Writes a → a < ELF ∨ ELF + 4096 ≤ a
  order : ∀ i j, i < j → j < phnum disk → ∀ a, (hdr disk j).Writes a → ¬ (hdr disk i).Holds a

/-- The scratch page holds the first page of the image. -/
def PageHolds (disk mem : Nat → UInt8) : Prop :=
  ∀ a, ELF ≤ a → a < ELF + 4096 → mem a = image disk (a - ELF)

theorem PageHolds.of_outside {disk mem mem' : Nat → UInt8} (h : PageHolds disk mem)
    (h' : ∀ a, ELF ≤ a → a < ELF + 4096 → mem' a = mem a) : PageHolds disk mem' :=
  fun a ha ha' => (h' a ha ha').trans (h a ha ha')

theorem PageHolds.byte {disk mem : Nat → UInt8} (h : PageHolds disk mem) {k : Nat}
    (hk : k < 4096) : mem (ELF + k) = image disk k := by
  rw [h (ELF + k) (Nat.le_add_right _ _) (Nat.add_lt_add_left hk _), Nat.add_sub_cancel_left]

theorem PageHolds.word {disk mem : Nat → UInt8} (h : PageHolds disk mem) {k : Nat}
    (hk : k + 4 ≤ 4096) : word mem (ELF + k) = word (image disk) k := by
  unfold Boot.word
  simp only [Nat.add_assoc]
  rw [h.byte (by omega), h.byte (by omega), h.byte (by omega), h.byte (by omega)]

theorem PageHolds.half {disk mem : Nat → UInt8} (h : PageHolds disk mem) {k : Nat}
    (hk : k + 2 ≤ 4096) : half mem (ELF + k) = half (image disk) k := by
  unfold Boot.half
  simp only [Nat.add_assoc]
  rw [h.byte (by omega), h.byte (by omega)]

/-- After `i` turns of the loop from the memory `mem0`: the scratch page holds the image's first
page, the first `i` segments hold their bytes, and every byte outside the page and what those
segments write is as in `mem0`. -/
structure Loaded (disk mem0 : Nat → UInt8) (i : Nat) (mem : Nat → UInt8) : Prop where
  page : PageHolds disk mem
  holds : ∀ j < i, ∀ a, (hdr disk j).Holds a → mem a = (hdr disk j).byte disk a
  frame : ∀ a, (a < ELF ∨ ELF + 4096 ≤ a) → (∀ j < i, ¬ (hdr disk j).Writes a) → mem a = mem0 a

section Loadable

variable {disk : Nat → UInt8} (hl : Loadable disk)
include hl

theorem PageHolds.read {mem : Nat → UInt8} (h : PageHolds disk mem) {i : Nat} (hi : i < phnum disk) :
    Proghdr.read mem (ELF + phoff disk + 32 * i) = hdr disk i := by
  have hlt : phoff disk + 32 * i + 24 ≤ 4096 := by
    have := hl.headers
    have : 32 * i + 32 ≤ 32 * phnum disk := by omega
    omega
  unfold Proghdr.read hdr Proghdr.read
  simp only [Nat.add_assoc]
  rw [h.word (by omega), h.word (by omega), h.word (by omega), h.word (by omega)]

theorem loadSeg_eq {mem : Nat → UInt8} (h : PageHolds disk mem) {i : Nat} (hi : i < phnum disk) :
    loadSeg disk mem (ELF + phoff disk + 32 * i) = fun a =>
      if (hdr disk i).filesz < (hdr disk i).memsz ∧ (hdr disk i).paddr + (hdr disk i).filesz ≤ a ∧
        a < (hdr disk i).paddr + (hdr disk i).memsz then 0
      else if (hdr disk i).base ≤ a ∧ a < (hdr disk i).base + SECTSIZE * sectors (hdr disk i).filesz (hdr disk i).off
      then image disk ((hdr disk i).off + a - (hdr disk i).paddr) else mem a := by
  obtain ⟨hlow, hhigh, hmem⟩ := hl.fits i hi
  have hread := readseg_eq disk mem hlow hhigh
  have hpage : PageHolds disk (readseg disk mem (hdr disk i).paddr (hdr disk i).filesz (hdr disk i).off) :=
    h.of_outside fun a ha ha' => by
      rw [hread]
      dsimp only
      rw [if_neg]
      intro hr
      rcases hl.scratch i hi a (.inl hr) with h' | h' <;> omega
  unfold loadSeg
  dsimp only
  rw [h.read hl hi, hpage.read hl hi]
  have hend : ((hdr disk i).paddr + (hdr disk i).filesz) % 2 ^ 32 =
      (hdr disk i).paddr + (hdr disk i).filesz := Nat.mod_eq_of_lt (by unfold SECTSIZE at hhigh; omega)
  funext a
  by_cases hz : (hdr disk i).filesz < (hdr disk i).memsz
  · have hsz : (hdr disk i).paddr + (hdr disk i).filesz + ((hdr disk i).memsz - (hdr disk i).filesz) =
        (hdr disk i).paddr + (hdr disk i).memsz := by omega
    rw [if_pos hz, hend]
    simp only [stosb, hread, hsz, hz, true_and]
    rfl
  · rw [if_neg hz, hread]
    simp only [hz, false_and, if_false]
    rfl

theorem Loaded.step {mem0 mem : Nat → UInt8} {i : Nat} (h : Loaded disk mem0 i mem) (hi : i < phnum disk) :
    Loaded disk mem0 (i + 1) (loadSeg disk mem (ELF + phoff disk + 32 * i)) := by
  have heq := loadSeg_eq hl h.page hi
  have hfits := hl.fits i hi
  have hkeep : ∀ a, ¬ (hdr disk i).Writes a → loadSeg disk mem (ELF + phoff disk + 32 * i) a = mem a :=
    fun a ha => by
      rw [heq]
      dsimp only
      rw [if_neg (fun h' => ha (.inr h')), if_neg (fun h' => ha (.inl h'))]
  refine ⟨h.page.of_outside fun a ha ha' => hkeep a fun hw => ?_, fun j hj a ha => ?_,
    fun a ha hw => (hkeep a (hw i (Nat.lt_succ_self i))).trans (h.frame a ha fun j hj => hw j (by omega))⟩
  · rcases hl.scratch i hi a hw with h' | h' <;> omega
  rcases Nat.lt_succ_iff_lt_or_eq.mp hj with hj | rfl
  · rw [hkeep a (hl.order j i hj hi a · ha)]
    exact h.holds j hj a ha
  · obtain ⟨hlow, hhigh, -⟩ := hfits
    have hcover : (hdr disk j).paddr + (hdr disk j).filesz ≤ (hdr disk j).paddr -
        (hdr disk j).off % SECTSIZE + SECTSIZE * sectors (hdr disk j).filesz (hdr disk j).off := by
      unfold sectors SECTSIZE at *
      omega
    unfold Proghdr.Holds at ha
    rw [heq, Proghdr.byte]
    dsimp only
    unfold Proghdr.base
    by_cases hf : a < (hdr disk j).paddr + (hdr disk j).filesz
    · rw [if_neg (by omega), if_pos (by omega), if_pos hf]
    · rw [if_pos (by omega), if_neg hf]

theorem Loaded.run {mem0 : Nat → UInt8} : ∀ (k i fuel : Nat) (mem : Nat → UInt8) (ph : Nat),
    ph = ELF + phoff disk + 32 * i → i + k = phnum disk → k < fuel → Loaded disk mem0 i mem →
      Loaded disk mem0 (phnum disk) (loadLoop disk fuel mem ph (ELF + phoff disk + 32 * phnum disk))
  | _, _, 0, _, _, _, _, hfuel, _ => absurd hfuel (Nat.not_lt_zero _)
  | 0, i, fuel + 1, mem, ph, hph, hk, _, h => by
    rw [loadLoop, if_neg (by omega)]
    rw [Nat.add_zero] at hk
    exact hk ▸ h
  | k + 1, i, fuel + 1, mem, ph, hph, hk, hfuel, h => by
    have hnext : (ph + 32) % 2 ^ 32 = ELF + phoff disk + 32 * (i + 1) := by
      have := hl.headers
      unfold ELF at *
      rw [Nat.mod_eq_of_lt (by omega)]
      omega
    rw [loadLoop, if_pos (by omega), hnext]
    exact Loaded.run k (i + 1) fuel _ _ rfl (by omega) (by omega) (hph ▸ h.step hl (by omega))

end Loadable

theorem readseg_page (disk mem : Nat → UInt8) :
    readseg disk mem ELF 4096 0 = fun a => if ELF ≤ a ∧ a < ELF + 4096 then image disk (a - ELF) else mem a := by
  rw [readseg_eq disk mem (by decide) (by decide)]
  funext a
  have hsect : sectors 4096 0 = 8 := by decide
  unfold SECTSIZE
  rw [hsect]
  by_cases ha : ELF ≤ a ∧ a < ELF + 4096
  · rw [if_pos (by unfold ELF at *; omega), if_pos ha, Nat.zero_add]
  · rw [if_neg (by unfold ELF at *; omega), if_neg ha]

/-- The boot loader on a loadable image: it jumps to the image's entry point, every segment
holds its file bytes and zeros past them, the scratch page the image's first page, and every
other byte no segment writes is as it was. -/
theorem bootmain_loads {disk : Nat → UInt8} (hl : Loadable disk) (mem : Nat → UInt8) :
    ∃ mem', bootmain disk mem = some (entry disk, mem') ∧
      (∀ i < phnum disk, ∀ a, (hdr disk i).Holds a → mem' a = (hdr disk i).byte disk a) ∧
      PageHolds disk mem' ∧
      ∀ a, (a < ELF ∨ ELF + 4096 ≤ a) → (∀ i < phnum disk, ¬ (hdr disk i).Writes a) → mem' a = mem a := by
  have hpage : PageHolds disk (readseg disk mem ELF 4096 0) := fun a ha ha' => by
    rw [readseg_page]
    dsimp only
    rw [if_pos ⟨ha, ha'⟩]
  have h0 : Loaded disk mem 0 (readseg disk mem ELF 4096 0) :=
    ⟨hpage, fun _ hj => absurd hj (Nat.not_lt_zero _), fun a ha _ => by
      rw [readseg_page]
      dsimp only
      rw [if_neg (by omega)]⟩
  have hmagic : word (readseg disk mem ELF 4096 0) ELF = ELF_MAGIC := by
    have h0 := hpage.word (k := 0) (by decide)
    rw [Nat.add_zero] at h0
    rw [h0, hl.magic]
  have hph : (ELF + word (readseg disk mem ELF 4096 0) (ELF + 28)) % 2 ^ 32 = ELF + phoff disk := by
    rw [hpage.word (by decide), Nat.mod_eq_of_lt (by have := hl.headers; unfold phoff ELF at *; omega)]
    rfl
  have hnum : half (readseg disk mem ELF 4096 0) (ELF + 44) = phnum disk := hpage.half (by decide)
  have heph : (ELF + phoff disk + 32 * phnum disk) % 2 ^ 32 = ELF + phoff disk + 32 * phnum disk :=
    Nat.mod_eq_of_lt (by have := hl.headers; unfold ELF; omega)
  have hrun := Loaded.run hl (phnum disk) 0 (phnum disk + 1) _ (ELF + phoff disk) (by omega)
    (Nat.zero_add _) (Nat.lt_succ_self _) h0
  refine ⟨_, ?_, hrun.holds, hrun.page, hrun.frame⟩
  unfold bootmain
  dsimp only
  rw [if_neg (not_not.mpr hmagic), hph, hnum, heph, hrun.page.word (by decide)]
  rfl

def sampleDisk : Nat → UInt8 := fun b =>
  (([(0, 0x7F), (1, 0x45), (2, 0x4C), (3, 0x46), (26, 0x10), (28, 52), (44, 2),
    (57, 0x10), (66, 0x10), (68, 4), (72, 8),
    (89, 0x12), (97, 0x10), (98, 0x10), (100, 4), (104, 4),
    (4096, 1), (4097, 2), (4098, 3), (4099, 4), (4608, 5), (4609, 6), (4610, 7), (4611, 8)] :
      List (Nat × UInt8)).find? (·.1 = b - SECTSIZE)).elim 0 (·.2)

theorem sampleDisk_hdr_zero : hdr sampleDisk 0 = ⟨4096, 0x100000, 4, 8⟩ := by decide

theorem sampleDisk_hdr_one : hdr sampleDisk 1 = ⟨0x1200, 0x101000, 4, 4⟩ := by decide

theorem sampleDisk_loadable : Loadable sampleDisk := by
  have hnum : phnum sampleDisk = 2 := by decide
  have hcases : ∀ i < phnum sampleDisk,
      hdr sampleDisk i = ⟨4096, 0x100000, 4, 8⟩ ∨ hdr sampleDisk i = ⟨0x1200, 0x101000, 4, 4⟩ := by
    intro i hi
    rw [hnum] at hi
    rcases (show i = 0 ∨ i = 1 by omega) with rfl | rfl
    · exact .inl sampleDisk_hdr_zero
    · exact .inr sampleDisk_hdr_one
  refine ⟨by decide, by decide, fun i hi => ?_, fun i hi a ha => ?_, fun i j hij hj a hw => ?_⟩
  · rcases hcases i hi with h | h <;> rw [h] <;> unfold Proghdr.Fits SECTSIZE <;> decide
  · unfold ELF
    rcases hcases i hi with h | h <;> rw [h] at ha <;>
      unfold Proghdr.Writes Proghdr.base sectors SECTSIZE at ha <;> dsimp only at ha <;> omega
  · rw [hnum] at hj
    obtain ⟨rfl, rfl⟩ : i = 0 ∧ j = 1 := by omega
    rw [sampleDisk_hdr_one] at hw
    rw [sampleDisk_hdr_zero]
    unfold Proghdr.Writes Proghdr.base sectors SECTSIZE at hw
    unfold Proghdr.Holds
    dsimp only at hw ⊢
    omega

theorem bootmain_loads_sample :
    Loadable sampleDisk ∧ ∃ mem', bootmain sampleDisk (fun _ => 0) = some (entry sampleDisk, mem') ∧
      (∀ i < phnum sampleDisk, ∀ a, (hdr sampleDisk i).Holds a →
        mem' a = (hdr sampleDisk i).byte sampleDisk a) ∧
      PageHolds sampleDisk mem' ∧
      ∀ a, (a < ELF ∨ ELF + 4096 ≤ a) → (∀ i < phnum sampleDisk, ¬ (hdr sampleDisk i).Writes a) →
        mem' a = 0 :=
  ⟨sampleDisk_loadable, bootmain_loads sampleDisk_loadable _⟩

end Boot

end Xv6
