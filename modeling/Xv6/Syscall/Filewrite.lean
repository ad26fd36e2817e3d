import Xv6.Fs.Space
import Xv6.Syscall.Sysfile
import Xv6.Lib.Run

set_option autoImplicit false
set_option linter.unusedSectionVars false

/-!
# Writers sharing one file: `filewrite`

`filewrite` on an inode writes its buffer in chunks of at most `maxChunk` bytes, each in its own
transaction: `begin_op`, then under the inode's lock a `writei` at `f->off` and the move of
`f->off` past what it wrote, then `end_op`. Processes that share the `struct file` (through `fork`
or `dup`) share `f->off`, and their chunks interleave. A pass of the loop runs as one step, since
the inode's lock makes the `writei` and the offset update of one pass atomic, and the other
processes only touch the log meanwhile.

The chunks are recorded as they are written. On an inode that is not a device they tile the
range from the first offset to the current one, and each holds in the file the bytes it wrote. A
device inode is written through `devsw`, which stores nothing, while `f->off` still moves: the
console's offset passes its size (`console_offset_past_size`).
-/
namespace Xv6

open Function (update)

def maxChunk : Nat := (MAXOPBLOCKS - 1 - 1 - 2) / 2 * 512

/-- One pass of `filewrite`'s loop at `i` of the `n` bytes of `src`, on the inode `ip` of the
file, with `f->off = off`: the state, the new offset, and the `i` of the next pass, or `none` for
the `break` after a failed `writei`. `none` as a whole while `begin_op` would sleep. -/
def filewritePass (s : FsState) (ip : Fin NINODE) (off : Nat) (src : List UInt8) (n i : Nat) :
    Option (Except String (FsState × Nat × Option Nat)) :=
  let n1 := min (n - i) maxChunk
  (beginOp s).map fun s =>
    match ilock s ip with
    | .error e => .error e
    | .ok s =>
      match writei s ip (src.drop i) off n1 with
      | .error e => .error e
      | .ok (r, s) =>
        let off := if r > 0 then off + r.toNat else off
        match endOp s with
        | .error e => .error e
        | .ok s =>
          if r < 0 then .ok (s, off, none)
          else if r ≠ n1 then .error "short filewrite"
          else .ok (s, off, some (i + r.toNat))

/-- A chunk a pass wrote: the call it belongs to, its offset in the file, its bytes. -/
structure Chunk where
  call : Nat
  off : Nat
  bytes : List UInt8

/-- Where a process is in `filewrite` on the shared file. -/
inductive Writer where
  | idle
  /-- In the loop of the call numbered `call`, for the `n` bytes of `src`, `i` of them written. -/
  | writing (call : Nat) (src : List UInt8) (n i : Nat)

/-- The processes `ι` sharing one `struct file` on the inode `ip`. -/
structure WriteSys (ι : Type) where
  fs : FsState
  ip : Fin NINODE
  writable : Bool
  /-- `f->off`. -/
  off : Nat
  writer : ι → Writer
  /-- The chunks written, oldest first. -/
  chunks : List Chunk
  /-- The calls begun so far; the next call takes this number. -/
  calls : Nat

def recordChunk (cs : List Chunk) (k : Nat) (src : List UInt8) (i off off' : Nat) : List Chunk :=
  if off' = off then cs else cs ++ [⟨k, off, (src.drop i).take (off' - off)⟩]

def Writer.afterPass (k : Nat) (src : List UInt8) (n : Nat) : Option Nat → Writer
  | none => .idle
  | some i => .writing k src n i

inductive WriteStep {ι : Type} [DecidableEq ι] : WriteSys ι → WriteSys ι → Prop
  /-- `write(fd, src, n)` enters `filewrite` on a file opened for writing; `n ≤ src.length`
  since `argptr` checked that the buffer holds `n` bytes. -/
  | call (s : WriteSys ι) (w : ι) (src : List UInt8) (n : Nat) (hidle : s.writer w = .idle)
      (hwr : s.writable = true) (hn : n ≤ src.length) :
      WriteStep s { s with
        writer := update s.writer w (.writing s.calls src n 0)
        calls := s.calls + 1 }
  /-- One pass of the loop. -/
  | pass (s : WriteSys ι) (w : ι) {k : Nat} {src : List UInt8} {n i : Nat} {fs : FsState}
      {off : Nat} {next : Option Nat} (hw : s.writer w = .writing k src n i) (hlt : i < n)
      (h : filewritePass s.fs s.ip s.off src n i = some (.ok (fs, off, next))) :
      WriteStep s { s with
        fs := fs
        off := off
        writer := update s.writer w (Writer.afterPass k src n next)
        chunks := recordChunk s.chunks k src i s.off off }
  /-- The loop is over: `return i == n ? n : -1`. -/
  | done (s : WriteSys ι) (w : ι) {k : Nat} {src : List UInt8} {n i : Nat}
      (hw : s.writer w = .writing k src n i) (hge : ¬ i < n) :
      WriteStep s { s with writer := update s.writer w .idle }

/-- No write under way, none recorded, and the file at offset `off₀` on an inode that is not a
device, valid in the cache, with well-formed blocks and `off₀` within its size. -/
structure FileWriteInit {ι : Type} (off₀ : Nat) (s : WriteSys ι) : Prop where
  idle : ∀ w, s.writer w = .idle
  chunks : s.chunks = []
  calls : s.calls = 0
  off : s.off = off₀
  wf : BlocksWf s.fs s.ip
  notDev : (s.fs.icache s.ip).type ≠ T_DEV
  valid : (s.fs.icache s.ip).valid = true
  size : off₀ ≤ (s.fs.icache s.ip).size

/-! ### Tilings -/

/-- The chunks `cs` tile `[lo, hi)`: each starts where the one before it ends. -/
def Tiles : Nat → List Chunk → Nat → Prop
  | lo, [], hi => lo = hi
  | lo, ch :: cs, hi => ch.off = lo ∧ Tiles (lo + ch.bytes.length) cs hi

theorem Tiles.append_chunk {e : Chunk} {cs : List Chunk} :
    ∀ {lo hi : Nat}, Tiles lo cs hi → e.off = hi → Tiles lo (cs ++ [e]) (hi + e.bytes.length) := by
  induction cs with
  | nil =>
    intro lo hi h hch
    exact ⟨hch.trans h.symm, h ▸ rfl⟩
  | cons c cs ih =>
    intro lo hi h hch
    exact ⟨h.1, ih h.2 hch⟩

theorem Tiles.le {cs : List Chunk} : ∀ {lo hi : Nat}, Tiles lo cs hi → lo ≤ hi := by
  induction cs with
  | nil =>
    intro lo hi h
    exact Nat.le_of_eq h
  | cons c cs ih =>
    intro lo hi h
    have := ih h.2
    omega

theorem Tiles.mem {cs : List Chunk} : ∀ {lo hi : Nat}, Tiles lo cs hi → ∀ ch ∈ cs,
    lo ≤ ch.off ∧ ch.off + ch.bytes.length ≤ hi := by
  induction cs with
  | nil =>
    intro lo hi _ ch hch
    exact absurd hch List.not_mem_nil
  | cons c cs ih =>
    intro lo hi h ch hch
    rcases List.mem_cons.1 hch with rfl | hmem
    · have := Tiles.le h.2
      have := h.1
      omega
    · have := ih h.2 ch hmem
      have := h.1
      omega

/-- The bytes that the chunks of call `k` wrote, in order. -/
def callBytes (cs : List Chunk) (k : Nat) : List UInt8 :=
  ((cs.filter fun ch => ch.call = k).map Chunk.bytes).flatten

theorem callBytes_append_chunk (cs : List Chunk) (ch : Chunk) (k : Nat) :
    callBytes (cs ++ [ch]) k = callBytes cs k ++ if ch.call = k then ch.bytes else [] := by
  unfold callBytes
  by_cases h : ch.call = k <;> simp [List.filter_append, h]

theorem callBytes_of_fresh {cs : List Chunk} {k : Nat} (h : ∀ ch ∈ cs, ch.call < k) :
    callBytes cs k = [] := by
  unfold callBytes
  rw [List.filter_eq_nil_iff.2 fun ch hch => by simpa using (h ch hch).ne]
  rfl

/-! ### One pass -/

section Pass

variable {s s' : FsState} {ip : Fin NINODE}

theorem beginOp_eq (h : beginOp s = some s') : ∃ l, s' = { s with log := l } := by
  unfold beginOp at h
  obtain ⟨l, -, rfl⟩ := Option.map_eq_some_iff.1 h
  exact ⟨l, rfl⟩

theorem endOp_eq (h : endOp s = .ok s') : ∃ l, s' = { s with log := l } := by
  unfold endOp at h
  split at h
  · cases h
  · cases h
    exact ⟨_, rfl⟩
  · cases h
    exact ⟨_, rfl⟩

theorem ilock_valid (hv : (s.icache ip).valid = true) (h : ilock s ip = .ok s') : s' = s := by
  unfold ilock at h
  dsimp only at h
  split_ifs at h
  cases h
  rfl

theorem maxChunk_pos : 0 < maxChunk := by decide

theorem Written.of_log {src : List UInt8} {off n : Nat} {l : Log}
    (h : Written { s with log := l } s' ip src off n) (l' : Log) :
    Written s { s' with log := l' } ip src off n where
  wf := h.wf.of_eq rfl rfl rfl rfl rfl
  type := h.type
  valid := h.valid
  ref := h.ref
  size := h.size
  range := h.range
  frame := h.frame

theorem filewritePass_spec {off off' : Nat} {src : List UInt8} {n i : Nat} {next : Option Nat}
    (hw : BlocksWf s ip) (hdev : (s.icache ip).type ≠ T_DEV)
    (hvalid : (s.icache ip).valid = true) (hi : i < n) (hn : n ≤ src.length)
    (h : filewritePass s ip off src n i = some (.ok (s', off', next))) :
    (next = none ∧ off' = off ∧ s'.disk = s.disk ∧ s'.icache = s.icache) ∨
      (next = some (i + min (n - i) maxChunk) ∧ off' = off + min (n - i) maxChunk ∧
        Written s s' ip (src.drop i) off (min (n - i) maxChunk)) := by
  unfold filewritePass at h
  obtain ⟨s₁, hb, h⟩ := Option.map_eq_some_iff.1 h
  obtain ⟨l₁, rfl⟩ := beginOp_eq hb
  split at h
  · cases h
  rename_i s₂ hlock
  obtain rfl := ilock_valid (s := { s with log := l₁ }) hvalid hlock
  split at h
  · cases h
  rename_i r s₃ hwr
  have hn1 : min (n - i) maxChunk ≤ (src.drop i).length := by
    rw [List.length_drop]
    omega
  rcases (hw.of_eq rfl rfl rfl rfl rfl : BlocksWf { s with log := l₁ } ip).writei hdev hn1 hwr with
    ⟨rfl, rfl, -⟩ | ⟨rfl, -, hwritten⟩
  · -- `writei` refused the chunk: no move of the offset, and the `break`
    have hneg : (-1 : Int) < 0 := by decide
    have hnpos : ¬ (-1 : Int) > 0 := by decide
    simp only [hneg, hnpos, if_true, if_false] at h
    split at h
    · cases h
    rename_i s₄ hend
    obtain ⟨l₄, rfl⟩ := endOp_eq hend
    cases h
    exact Or.inl ⟨rfl, rfl, rfl, rfl⟩
  · -- `writei` wrote all `n1` bytes
    have hpos : ((min (n - i) maxChunk : Nat) : Int) > 0 := by
      have := maxChunk_pos
      omega
    have hnneg : ¬ ((min (n - i) maxChunk : Nat) : Int) < 0 := by omega
    simp only [hpos, hnneg, ne_eq, not_true_eq_false, if_true, if_false, Int.toNat_natCast] at h
    split at h
    · cases h
    rename_i s₄ hend
    obtain ⟨l₄, rfl⟩ := endOp_eq hend
    cases h
    exact Or.inr ⟨rfl, rfl, hwritten.of_log l₄⟩

end Pass

/-! ### Runs -/

/-- What holds of the writers of one file at every point of a run from `FileWriteInit off₀`: the
inode stays fit for `writei`, the chunks tile `[off₀, f->off)` and each holds its bytes in the
file, the size reaches `f->off`, and each call under way has written the prefix of its buffer. -/
structure WriteWf {ι : Type} (off₀ : Nat) (s : WriteSys ι) : Prop where
  wf : BlocksWf s.fs s.ip
  notDev : (s.fs.icache s.ip).type ≠ T_DEV
  valid : (s.fs.icache s.ip).valid = true
  size : s.off ≤ (s.fs.icache s.ip).size
  tiles : Tiles off₀ s.chunks s.off
  bytes : ∀ ch ∈ s.chunks, ∀ j < ch.bytes.length,
    fileByte s.fs s.ip (ch.off + j) = some (ch.bytes.getD j 0)
  fresh : ∀ ch ∈ s.chunks, ch.call < s.calls
  writing : ∀ w k src n i, s.writer w = .writing k src n i →
    k < s.calls ∧ i ≤ n ∧ n ≤ src.length ∧ callBytes s.chunks k = src.take i
  distinct : ∀ w w' k src src' n n' i i', s.writer w = .writing k src n i →
    s.writer w' = .writing k src' n' i' → w = w'

theorem fileByte_of_eq {s s' : FsState} {c : Fin NINODE} (hd : s'.disk = s.disk)
    (hi : s'.icache = s.icache) : fileByte s' c = fileByte s c :=
  fileByte_congr (blockAddr_congr (by rw [hi]) fun _ => by rw [hd]) (by rw [hd])

theorem getD_take_of_lt (l : List UInt8) {m j : Nat} (hj : j < m) :
    (l.take m).getD j 0 = l.getD j 0 := by
  rw [List.getD_eq_getElem?_getD, List.getD_eq_getElem?_getD, List.getElem?_take_of_lt hj]

namespace WriteWf

variable {ι : Type} [DecidableEq ι] {off₀ : Nat} {s : WriteSys ι}

theorem init (h : FileWriteInit off₀ s) : WriteWf off₀ s where
  wf := h.wf
  notDev := h.notDev
  valid := h.valid
  size := h.off ▸ h.size
  tiles := by
    rw [h.chunks, h.off]
    rfl
  bytes := by
    rw [h.chunks]
    intro ch hch
    exact absurd hch List.not_mem_nil
  fresh := by
    rw [h.chunks]
    intro ch hch
    exact absurd hch List.not_mem_nil
  writing w _ _ _ _ hw := by
    rw [h.idle w] at hw
    cases hw
  distinct w _ _ _ _ _ _ _ _ hw := by
    rw [h.idle w] at hw
    cases hw

theorem call (hw : WriteWf off₀ s) {w : ι} {src : List UInt8} {n : Nat}
    (hn : n ≤ src.length) :
    WriteWf off₀ { s with
      writer := update s.writer w (.writing s.calls src n 0)
      calls := s.calls + 1 } where
  wf := hw.wf
  notDev := hw.notDev
  valid := hw.valid
  size := hw.size
  tiles := hw.tiles
  bytes := hw.bytes
  fresh ch hch := Nat.lt_succ_of_lt (hw.fresh ch hch)
  writing w' k src' n' i hw' := by
    dsimp only at hw' ⊢
    rw [Function.update_apply] at hw'
    split_ifs at hw' with hww
    · cases hw'
      exact ⟨Nat.lt_succ_self _, Nat.zero_le _, hn, callBytes_of_fresh hw.fresh⟩
    · obtain ⟨hk, hrest⟩ := hw.writing w' k src' n' i hw'
      exact ⟨Nat.lt_succ_of_lt hk, hrest⟩
  distinct w₁ w₂ k src₁ src₂ n₁ n₂ i₁ i₂ h₁ h₂ := by
    dsimp only at h₁ h₂
    rw [Function.update_apply] at h₁ h₂
    split_ifs at h₁ h₂ with hw₁ hw₂ hw₂
    · rw [hw₁, hw₂]
    · cases h₁
      exact absurd (hw.writing w₂ _ _ _ _ h₂).1 (lt_irrefl _)
    · cases h₂
      exact absurd (hw.writing w₁ _ _ _ _ h₁).1 (lt_irrefl _)
    · exact hw.distinct w₁ w₂ k src₁ src₂ n₁ n₂ i₁ i₂ h₁ h₂

theorem leave (hw : WriteWf off₀ s) (w : ι) :
    WriteWf off₀ { s with writer := update s.writer w .idle } where
  wf := hw.wf
  notDev := hw.notDev
  valid := hw.valid
  size := hw.size
  tiles := hw.tiles
  bytes := hw.bytes
  fresh := hw.fresh
  writing w' k src n i hw' := by
    dsimp only at hw' ⊢
    rw [Function.update_apply] at hw'
    split_ifs at hw'
    exact hw.writing w' k src n i hw'
  distinct w₁ w₂ k src₁ src₂ n₁ n₂ i₁ i₂ h₁ h₂ := by
    dsimp only at h₁ h₂
    rw [Function.update_apply] at h₁ h₂
    split_ifs at h₁ h₂
    exact hw.distinct w₁ w₂ k src₁ src₂ n₁ n₂ i₁ i₂ h₁ h₂

theorem pass_break (hw : WriteWf off₀ s) {w : ι} {k : Nat} {src : List UInt8} {n : Nat}
    {fs : FsState} (hdisk : fs.disk = s.fs.disk) (hic : fs.icache = s.fs.icache) :
    WriteWf off₀ { s with
      fs := fs
      off := s.off
      writer := update s.writer w (Writer.afterPass k src n none)
      chunks := s.chunks } := by
  have hbytes : fileByte fs s.ip = fileByte s.fs s.ip := fileByte_of_eq hdisk hic
  have hl := hw.leave w
  exact { hl with
    wf := hw.wf.of_eq (by rw [hdisk]) (by rw [hdisk]) (by rw [hic]) (by rw [hdisk]) (by rw [hic])
    notDev := by
      dsimp only
      rw [hic]
      exact hw.notDev
    valid := by
      dsimp only
      rw [hic]
      exact hw.valid
    size := by
      dsimp only
      rw [hic]
      exact hw.size
    bytes := by
      dsimp only
      rw [hbytes]
      exact hw.bytes }

theorem pass_write (hw : WriteWf off₀ s) {w : ι} {k : Nat} {src : List UInt8} {n i : Nat}
    {fs : FsState} (hwr : s.writer w = .writing k src n i) (hlt : i < n)
    (hW : Written s.fs fs s.ip (src.drop i) s.off (min (n - i) maxChunk)) :
    WriteWf off₀ { s with
      fs := fs
      off := s.off + min (n - i) maxChunk
      writer := update s.writer w (Writer.afterPass k src n (some (i + min (n - i) maxChunk)))
      chunks := s.chunks ++ [⟨k, s.off, (src.drop i).take (min (n - i) maxChunk)⟩] } := by
  obtain ⟨hk, hi, hn, hcb⟩ := hw.writing w k src n i hwr
  obtain ⟨n1, hn1⟩ : ∃ n1, n1 = min (n - i) maxChunk := ⟨_, rfl⟩
  rw [← hn1] at hW ⊢
  have hlen : ((src.drop i).take n1).length = n1 := by
    rw [List.length_take, List.length_drop]
    omega
  refine ⟨hW.wf, by rw [hW.type]; exact hw.notDev, by rw [hW.valid]; exact hw.valid, ?_, ?_, ?_,
    ?_, ?_, ?_⟩
  · dsimp only
    rw [hW.size]
    exact le_max_right _ _
  · have := hw.tiles.append_chunk (e := ⟨k, s.off, (src.drop i).take n1⟩) rfl
    rwa [hlen] at this
  · intro ch hch j hj
    rcases List.mem_append.1 hch with hold | hnew
    · have hin := hw.tiles.mem ch hold
      exact hW.frame _ _ (Or.inl (by omega)) (hw.bytes ch hold j hj)
    · rw [List.mem_singleton] at hnew
      subst hnew
      dsimp only at hj ⊢
      rw [hlen] at hj
      rw [hW.range (s.off + j) (by omega) (by omega), getD_take_of_lt _ hj]
      congr 2
      omega
  · intro ch hch
    rcases List.mem_append.1 hch with hold | hnew
    · exact hw.fresh ch hold
    · rw [List.mem_singleton] at hnew
      rw [hnew]
      exact hk
  · intro w' k' src' n' i' hw'
    dsimp only at hw' ⊢
    rw [Function.update_apply] at hw'
    split_ifs at hw' with hww
    · cases hw'
      refine ⟨hk, by omega, hn, ?_⟩
      rw [callBytes_append_chunk, hcb, if_pos rfl, List.take_add]
    · obtain ⟨hk', hi', hn', hcb'⟩ := hw.writing w' k' src' n' i' hw'
      have hkk : k ≠ k' := fun he => hww (hw.distinct w' w k' src' src n' n i' i hw' (he ▸ hwr))
      refine ⟨hk', hi', hn', ?_⟩
      rw [callBytes_append_chunk, hcb', if_neg hkk, List.append_nil]
  · intro w₁ w₂ k' src₁ src₂ n₁ n₂ i₁ i₂ h₁ h₂
    dsimp only at h₁ h₂
    rw [Function.update_apply] at h₁ h₂
    split_ifs at h₁ h₂ with hw₁ hw₂ hw₂
    · rw [hw₁, hw₂]
    · cases h₁
      exact absurd (hw.distinct w w₂ k src src₂ n n₂ i i₂ hwr h₂).symm hw₂
    · cases h₂
      exact absurd (hw.distinct w₁ w k src₁ src n₁ n i₁ i h₁ hwr) hw₁
    · exact hw.distinct w₁ w₂ k' src₁ src₂ n₁ n₂ i₁ i₂ h₁ h₂

theorem step (hw : WriteWf off₀ s) {s' : WriteSys ι} (h : WriteStep s s') : WriteWf off₀ s' := by
  cases h with
  | call w src n _ _ hn => exact hw.call hn
  | pass w hwr hlt hpass =>
    rename_i k src n i fs off next
    obtain ⟨-, -, hn, -⟩ := hw.writing w k src n i hwr
    rcases filewritePass_spec hw.wf hw.notDev hw.valid hlt hn hpass with
      ⟨rfl, rfl, hdisk, hic⟩ | ⟨rfl, rfl, hW⟩
    · have hrec : recordChunk s.chunks k src i s.off s.off = s.chunks := if_pos rfl
      rw [hrec]
      exact hw.pass_break hdisk hic
    · have hrec : recordChunk s.chunks k src i s.off (s.off + min (n - i) maxChunk) =
          s.chunks ++ [⟨k, s.off, (src.drop i).take (min (n - i) maxChunk)⟩] := by
        have := maxChunk_pos
        unfold recordChunk
        rw [if_neg (by omega), Nat.add_sub_cancel_left]
      rw [hrec]
      exact hw.pass_write hwr hlt hW
  | done w _ _ => exact hw.leave w

end WriteWf

end Xv6
