import Xv6.Param
import Xv6.Lib.DList
import Xv6.Lib.Run

set_option autoImplicit false

/-!
# The buffer cache: `bio.c`

`bcache` holds `NBUF` buffers on a circular doubly linked list through `bcache.head`, most
recently released first. `bget` looks a block up from the head along `next`, and otherwise
recycles, from the tail along `prev`, the first buffer that no one holds and that is not dirty:
`log_write` sets `B_DIRTY` to pin a buffer until its block is written home. `brelse` of the last
reference moves the buffer to the front.

Buffer contents are not modelled; a buffer is named by its `(dev, blockno)`. Every caller in the
kernel reads blocks of `ROOTDEV`, and the system below does the same. Each call runs as one step,
under `bcache.lock` or the buffer's sleep lock; a holder calls `bwrite`, `brelse` and `log_write`
only on a buffer it holds.
-/
namespace Xv6

def ROOTDEV : Nat := 1

/-- The fields of `struct buf` the cache uses: `B_VALID` and `B_DIRTY`, the block, and the
count of references. -/
structure Buf where
  valid : Bool
  dirty : Bool
  dev : Nat
  blockno : Nat
  refcnt : Nat
  deriving DecidableEq

def Buf.zero : Buf := ⟨false, false, 0, 0, 0⟩

/-- `bcache`: the buffers, and the links of the list; node `none` is `bcache.head`. -/
structure BCache where
  buf : Fin NBUF → Buf
  links : DList.Links (Fin NBUF)

namespace BCache

def setBuf (c : BCache) (b : Fin NBUF) (x : Buf) : BCache :=
  { c with buf := Function.update c.buf b x }

@[simp] theorem setBuf_links (c : BCache) (b : Fin NBUF) (x : Buf) :
    (c.setBuf b x).links = c.links := rfl

theorem setBuf_buf (c : BCache) (b b' : Fin NBUF) (x : Buf) :
    (c.setBuf b x).buf b' = if b' = b then x else c.buf b' := Function.update_apply _ _ _ _

@[simp] theorem setBuf_buf_self (c : BCache) (b : Fin NBUF) (x : Buf) : (c.setBuf b x).buf b = x :=
  Function.update_self _ _ _

theorem setBuf_buf_of_ne (c : BCache) {b b' : Fin NBUF} (x : Buf) (h : b' ≠ b) :
    (c.setBuf b x).buf b' = c.buf b' := Function.update_of_ne h _ _

@[simp] theorem setBuf_setBuf (c : BCache) (b : Fin NBUF) (x y : Buf) :
    (c.setBuf b x).setBuf b y = c.setBuf b y := by
  unfold setBuf
  rw [Function.update_idem]

end BCache

/-- `binit`: each buffer linked in at the front in array order, so that the list runs from
`buf[NBUF-1]` to `buf[0]`. Only the head's links are set before the loop. -/
def binit : BCache :=
  ⟨fun _ => Buf.zero,
    (List.finRange NBUF).foldl DList.Links.pushFront ⟨fun _ => none, fun _ => none⟩⟩

/-- `bget`: the buffer of block `blockno` of `dev`, with one more reference, or else the
unused clean buffer nearest the tail, relabelled. The loops walk at most `NBUF` buffers before
they are back at the head; running out of steps stands for a walk that does not end. -/
def bget (c : BCache) (dev blockno : Nat) : Except String (Fin NBUF × BCache) :=
  match DList.scan c.links (fun b => (c.buf b).dev = dev ∧ (c.buf b).blockno = blockno) NBUF
      (c.links.next none) with
  | none => .error "loop does not end"
  | some (some b) => .ok (b, c.setBuf b { c.buf b with refcnt := (c.buf b).refcnt + 1 })
  | some none =>
    -- not cached: a dirty buffer with no references still belongs to the log
    match DList.scan c.links.swap (fun b => (c.buf b).refcnt = 0 ∧ (c.buf b).dirty = false)
        NBUF (c.links.prev none) with
    | none => .error "loop does not end"
    | some (some b) => .ok (b, c.setBuf b ⟨false, false, dev, blockno, 1⟩)
    | some none => .error "bget: no buffers"

/-- `iderw`, once the disk is done with the buffer: a dirty buffer is written, a buffer that is
not valid is read, and either way it ends valid and clean. -/
def iderw (c : BCache) (b : Fin NBUF) : Except String BCache :=
  if (c.buf b).valid = true ∧ (c.buf b).dirty = false then .error "iderw: nothing to do"
  else .ok (c.setBuf b { c.buf b with valid := true, dirty := false })

def bread (c : BCache) (dev blockno : Nat) : Except String (Fin NBUF × BCache) :=
  match bget c dev blockno with
  | .error e => .error e
  | .ok (b, c) =>
    if (c.buf b).valid then .ok (b, c)
    else (iderw c b).map fun c => (b, c)

def bwrite (c : BCache) (b : Fin NBUF) : Except String BCache :=
  iderw (c.setBuf b { c.buf b with dirty := true }) b

/-- `brelse`: one reference dropped; the last one moves the buffer to the front. -/
def brelse (c : BCache) (b : Fin NBUF) : BCache :=
  let c := c.setBuf b { c.buf b with refcnt := (c.buf b).refcnt - 1 }
  if (c.buf b).refcnt = 0 then { c with links := (c.links.unlink b).pushFront b } else c

def markDirty (c : BCache) (b : Fin NBUF) : BCache :=
  c.setBuf b { c.buf b with dirty := true }

theorem bwrite_eq (c : BCache) (b : Fin NBUF) :
    bwrite c b = .ok (c.setBuf b { c.buf b with valid := true, dirty := false }) := by
  unfold bwrite iderw
  rw [BCache.setBuf_buf_self, if_neg (by simp), BCache.setBuf_setBuf]

theorem brelse_buf (c : BCache) (b : Fin NBUF) :
    (brelse c b).buf = (c.setBuf b { c.buf b with refcnt := (c.buf b).refcnt - 1 }).buf := by
  unfold brelse
  dsimp only
  split_ifs <;> rfl

theorem brelse_links (c : BCache) (b : Fin NBUF) :
    (brelse c b).links =
      if (c.buf b).refcnt - 1 = 0 then (c.links.unlink b).pushFront b else c.links := by
  unfold brelse
  dsimp only
  rw [BCache.setBuf_buf_self]
  split_ifs <;> rfl

/-! ### What `bget` and `bread` do -/

section Spec

variable {c : BCache} {l : List (Fin NBUF)}

def BCache.names (c : BCache) (dev blockno : Nat) (b : Fin NBUF) : Bool :=
  (c.buf b).dev = dev ∧ (c.buf b).blockno = blockno

/-- Whether buffer `b` may be recycled: the test of `bget`'s second loop. -/
def BCache.free (c : BCache) (b : Fin NBUF) : Bool :=
  (c.buf b).refcnt = 0 ∧ (c.buf b).dirty = false

theorem length_le_NBUF (hnd : l.Nodup) : l.length ≤ NBUF := by
  simpa using hnd.length_le_card

theorem bget_eq_ok (hl : DList.Represents c.links l) (hnd : l.Nodup) {dev blockno : Nat}
    {b : Fin NBUF} {c' : BCache} (h : bget c dev blockno = .ok (b, c')) :
    (l.find? (c.names dev blockno) = some b ∧
      c' = c.setBuf b { c.buf b with refcnt := (c.buf b).refcnt + 1 }) ∨
    (l.find? (c.names dev blockno) = none ∧ l.reverse.find? c.free = some b ∧
      c' = c.setBuf b ⟨false, false, dev, blockno, 1⟩) := by
  unfold bget at h
  rw [hl.scan_eq hnd _ (length_le_NBUF hnd)] at h
  cases hf : l.find? (c.names dev blockno) with
  | some b₁ =>
    rw [show (fun b => decide ((c.buf b).dev = dev ∧ (c.buf b).blockno = blockno)) =
      c.names dev blockno from rfl, hf] at h
    cases h
    exact .inl ⟨rfl, rfl⟩
  | none =>
    rw [show (fun b => decide ((c.buf b).dev = dev ∧ (c.buf b).blockno = blockno)) =
      c.names dev blockno from rfl, hf] at h
    dsimp only at h
    rw [hl.scan_back hnd _ (length_le_NBUF hnd)] at h
    cases hr : l.reverse.find? c.free with
    | some b₂ =>
      rw [show (fun b => decide ((c.buf b).refcnt = 0 ∧ (c.buf b).dirty = false)) =
        c.free from rfl, hr] at h
      cases h
      exact .inr ⟨rfl, rfl, rfl⟩
    | none =>
      rw [show (fun b => decide ((c.buf b).refcnt = 0 ∧ (c.buf b).dirty = false)) =
        c.free from rfl, hr] at h
      cases h

theorem bread_eq_ok (hl : DList.Represents c.links l) (hnd : l.Nodup)
    (hvalid : ∀ b, (c.buf b).dev = ROOTDEV → (c.buf b).valid = true) {blockno : Nat}
    {b : Fin NBUF} {c' : BCache} (h : bread c ROOTDEV blockno = .ok (b, c')) :
    (l.find? (c.names ROOTDEV blockno) = some b ∧
      c' = c.setBuf b { c.buf b with refcnt := (c.buf b).refcnt + 1 }) ∨
    (l.find? (c.names ROOTDEV blockno) = none ∧ l.reverse.find? c.free = some b ∧
      c' = c.setBuf b ⟨true, false, ROOTDEV, blockno, 1⟩) := by
  unfold bread at h
  split at h
  · cases h
  rename_i b₁ c₁ hget
  rcases bget_eq_ok hl hnd hget with ⟨hf, rfl⟩ | ⟨hf, hr, rfl⟩
  · -- cached: the buffer is valid, so the disk is not read
    have hdev : (c.buf b₁).dev = ROOTDEV := by
      have := List.find?_some hf
      simp only [BCache.names, decide_eq_true_eq] at this
      exact this.1
    rw [BCache.setBuf_buf_self] at h
    dsimp only at h
    rw [if_pos (hvalid b₁ hdev)] at h
    cases h
    exact .inl ⟨hf, rfl⟩
  · -- recycled: not valid, so `iderw` reads it
    rw [BCache.setBuf_buf_self] at h
    dsimp only at h
    rw [if_neg Bool.false_ne_true] at h
    unfold iderw at h
    rw [BCache.setBuf_buf_self, if_neg (by simp)] at h
    cases h
    refine .inr ⟨hf, hr, ?_⟩
    rw [BCache.setBuf_setBuf]

theorem bread_found (hl : DList.Represents c.links l) (hnd : l.Nodup) {blockno : Nat}
    {b : Fin NBUF} (hf : l.find? (c.names ROOTDEV blockno) = some b)
    (hvalid : (c.buf b).valid = true) :
    bread c ROOTDEV blockno =
      .ok (b, c.setBuf b { c.buf b with refcnt := (c.buf b).refcnt + 1 }) := by
  unfold bread bget
  rw [hl.scan_eq hnd _ (length_le_NBUF hnd)]
  rw [show (fun b => decide ((c.buf b).dev = ROOTDEV ∧ (c.buf b).blockno = blockno)) =
    c.names ROOTDEV blockno from rfl, hf]
  dsimp only
  rw [BCache.setBuf_buf_self]
  dsimp only
  rw [if_pos hvalid]

end Spec

/-! ### The system -/

/-- The cache, the references `bget` handed out and not yet released, the blocks of the log
header that have not been written home, and the order of the list from the head. -/
structure BioSys where
  cache : BCache
  held : List (Fin NBUF)
  pending : List Nat
  order : List (Fin NBUF)

/-- The calls of the file system and the log on the cache, in any order. `bwrite` of a block
writes it home, or to the log, and it is no longer only in the cache; `log_write` records the
block in the log header. -/
inductive BioStep : BioSys → BioSys → Prop
  | bread (s : BioSys) (blockno : Nat) (b : Fin NBUF) (c : BCache)
      (h : bread s.cache ROOTDEV blockno = .ok (b, c)) :
      BioStep s ⟨c, b :: s.held, s.pending, s.order⟩
  | bwrite (s : BioSys) (b : Fin NBUF) (c : BCache) (hb : b ∈ s.held)
      (h : bwrite s.cache b = .ok c) :
      BioStep s ⟨c, s.held, s.pending.erase (s.cache.buf b).blockno, s.order⟩
  | brelse (s : BioSys) (b : Fin NBUF) (hb : b ∈ s.held) :
      BioStep s ⟨brelse s.cache b, s.held.erase b, s.pending,
        if (s.cache.buf b).refcnt = 1 then b :: s.order.erase b else s.order⟩
  | logWrite (s : BioSys) (b : Fin NBUF) (hb : b ∈ s.held) :
      BioStep s ⟨markDirty s.cache b, s.held,
        if (s.cache.buf b).blockno ∈ s.pending then s.pending
        else s.pending ++ [(s.cache.buf b).blockno], s.order⟩

/-- After `binit`: `binit` links the buffers from `buf[NBUF-1]` down to `buf[0]`. -/
def BioInit (s : BioSys) : Prop :=
  s.cache = binit ∧ s.held = [] ∧ s.pending = [] ∧ s.order = (List.finRange NBUF).reverse

def BioReachable : BioSys → Prop := Run.Reachable BioStep BioInit

/-- The invariant of the cache. The list is a permutation of the buffers that the links
represent; counts are references held; a buffer of `ROOTDEV` is valid and the only one with its
block, and any other buffer is untouched since `binit`; each pending block has a dirty buffer. -/
structure BioWf (s : BioSys) : Prop where
  nodup : s.order.Nodup
  complete : ∀ b, b ∈ s.order
  links : DList.Represents s.cache.links s.order
  ref_count : ∀ b, (s.cache.buf b).refcnt = s.held.count b
  untouched : ∀ b, (s.cache.buf b).dev ≠ ROOTDEV → s.cache.buf b = Buf.zero
  valid : ∀ b, (s.cache.buf b).dev = ROOTDEV → (s.cache.buf b).valid = true
  unique : ∀ b b', (s.cache.buf b).dev = ROOTDEV → (s.cache.buf b').dev = ROOTDEV →
    (s.cache.buf b).blockno = (s.cache.buf b').blockno → b = b'
  pending_nodup : s.pending.Nodup
  pinned : ∀ n ∈ s.pending, ∃ b, (s.cache.buf b).dev = ROOTDEV ∧ (s.cache.buf b).blockno = n ∧
    (s.cache.buf b).dirty = true

namespace BioWf

variable {s : BioSys}

theorem init (h : BioInit s) : BioWf s := by
  obtain ⟨hc, hheld, hpend, horder⟩ := h
  have hlinks : DList.Represents binit.links (List.finRange NBUF).reverse := by
    have hnil : DList.Represents (⟨fun _ => none, fun _ => none⟩ : DList.Links (Fin NBUF)) [] :=
      DList.represents_nil rfl rfl
    have h₀ := hnil.foldl_pushFront List.nodup_nil (List.finRange NBUF) (by rw [List.append_nil]; exact List.nodup_finRange NBUF)
    rwa [List.append_nil] at h₀
  refine ⟨?_, ?_, ?_, ?_, ?_, ?_, ?_, ?_, ?_⟩
  · rw [horder]
    exact List.nodup_reverse.2 (List.nodup_finRange NBUF)
  · intro b
    rw [horder, List.mem_reverse]
    exact List.mem_finRange b
  · rw [hc, horder]
    exact hlinks
  · intro b
    rw [hc, hheld]
    rfl
  · intro b _
    rw [hc]
    rfl
  · intro b hb
    rw [hc] at hb
    exact absurd hb Nat.zero_ne_one
  · intro b _ hb
    rw [hc] at hb
    exact absurd hb Nat.zero_ne_one
  · rw [hpend]
    exact List.nodup_nil
  · intro n hn
    rw [hpend] at hn
    exact absurd hn List.not_mem_nil

theorem dev_of_held (hw : BioWf s) {b : Fin NBUF} (hb : b ∈ s.held) :
    (s.cache.buf b).dev = ROOTDEV := by
  by_contra hdev
  have hzero := congrArg Buf.refcnt (hw.untouched b hdev)
  rw [hw.ref_count b] at hzero
  exact absurd hzero (Nat.pos_iff_ne_zero.1 (List.count_pos_iff.2 hb))

theorem dirty_of_pending (hw : BioWf s) {b : Fin NBUF} (hdev : (s.cache.buf b).dev = ROOTDEV)
    (hn : (s.cache.buf b).blockno ∈ s.pending) : (s.cache.buf b).dirty = true := by
  obtain ⟨b', hd, hbn, hdirty⟩ := hw.pinned _ hn
  rw [hw.unique b b' hdev hd hbn.symm]
  exact hdirty

theorem of_setBuf (hw : BioWf s) {b : Fin NBUF} {x : Buf} (hdev : (s.cache.buf b).dev = ROOTDEV)
    (hxdev : x.dev = ROOTDEV) (hxblock : x.blockno = (s.cache.buf b).blockno)
    (hxvalid : x.valid = true) {s' : BioSys} (hbuf : s'.cache.buf = (s.cache.setBuf b x).buf)
    (hnodup : s'.order.Nodup) (hcomplete : ∀ b, b ∈ s'.order)
    (hlinks : DList.Represents s'.cache.links s'.order)
    (hrefb : x.refcnt = s'.held.count b)
    (hrefo : ∀ b', b' ≠ b → s'.held.count b' = s.held.count b')
    (hpend : s'.pending.Nodup)
    (hpinned : ∀ n ∈ s'.pending,
      if n = (s.cache.buf b).blockno then x.dirty = true else n ∈ s.pending) :
    BioWf s' := by
  have hb : ∀ b', s'.cache.buf b' = if b' = b then x else s.cache.buf b' := fun b' => by
    rw [hbuf]
    exact BCache.setBuf_buf _ _ _ _
  have hlabel : ∀ b', (s'.cache.buf b').dev = (s.cache.buf b').dev ∧
      (s'.cache.buf b').blockno = (s.cache.buf b').blockno := by
    intro b'
    rw [hb]
    split_ifs with h
    · subst h
      exact ⟨hxdev.trans hdev.symm, hxblock⟩
    · exact ⟨rfl, rfl⟩
  refine ⟨hnodup, hcomplete, hlinks, fun b' => ?_, fun b' hb' => ?_, fun b' hb' => ?_,
    fun b₁ b₂ h₁ h₂ h₁₂ => ?_, hpend, fun n hn => ?_⟩
  · rw [hb]
    split_ifs with h
    · subst h
      exact hrefb
    · rw [hrefo b' h, hw.ref_count]
  · rw [(hlabel b').1] at hb'
    have h : b' ≠ b := fun h => hb' (h ▸ hdev)
    rw [hb, if_neg h]
    exact hw.untouched b' hb'
  · rw [(hlabel b').1] at hb'
    rw [hb]
    split_ifs with h
    · exact hxvalid
    · exact hw.valid b' hb'
  · rw [(hlabel b₁).1] at h₁
    rw [(hlabel b₂).1] at h₂
    rw [(hlabel b₁).2, (hlabel b₂).2] at h₁₂
    exact hw.unique b₁ b₂ h₁ h₂ h₁₂
  · have hn' := hpinned n hn
    split_ifs at hn' with h
    · refine ⟨b, ?_⟩
      rw [hb, if_pos rfl]
      exact ⟨hxdev, hxblock.trans h.symm, hn'⟩
    · obtain ⟨b', hd, hbn, hdirty⟩ := hw.pinned n hn'
      have hne : b' ≠ b := fun h' => h (h' ▸ hbn.symm)
      refine ⟨b', ?_⟩
      rw [hb, if_neg hne]
      exact ⟨hd, hbn, hdirty⟩

theorem find_names (hw : BioWf s) {b : Fin NBUF} (hdev : (s.cache.buf b).dev = ROOTDEV) :
    s.order.find? (s.cache.names ROOTDEV (s.cache.buf b).blockno) = some b := by
  cases hf : s.order.find? (s.cache.names ROOTDEV (s.cache.buf b).blockno) with
  | none =>
    have := List.find?_eq_none.1 hf b (hw.complete b)
    simp [BCache.names, hdev] at this
  | some b' =>
    have h' := List.find?_some hf
    simp only [BCache.names, decide_eq_true_eq] at h'
    rw [hw.unique b' b h'.1 hdev h'.2]

theorem found (hw : BioWf s) {n : Nat} {b : Fin NBUF}
    (hf : s.order.find? (s.cache.names ROOTDEV n) = some b) :
    BioWf ⟨s.cache.setBuf b { s.cache.buf b with refcnt := (s.cache.buf b).refcnt + 1 },
      b :: s.held, s.pending, s.order⟩ := by
  have hdev : (s.cache.buf b).dev = ROOTDEV := by
    have := List.find?_some hf
    simp only [BCache.names, decide_eq_true_eq] at this
    exact this.1
  refine hw.of_setBuf (x := { s.cache.buf b with refcnt := (s.cache.buf b).refcnt + 1 }) hdev hdev
    rfl (hw.valid b hdev) rfl hw.nodup hw.complete hw.links ?_
    (fun b' hb' => List.count_cons_of_ne (Ne.symm hb')) hw.pending_nodup (fun m hm => ?_)
  · rw [List.count_cons_self, hw.ref_count]
  · split_ifs with h
    · rw [h] at hm
      exact hw.dirty_of_pending hdev hm
    · exact hm

theorem recycled (hw : BioWf s) {n : Nat} {b : Fin NBUF}
    (hf : s.order.find? (s.cache.names ROOTDEV n) = none)
    (hr : s.order.reverse.find? s.cache.free = some b) :
    BioWf ⟨s.cache.setBuf b ⟨true, false, ROOTDEV, n, 1⟩, b :: s.held, s.pending, s.order⟩ := by
  have hfree := List.find?_some hr
  simp only [BCache.free, decide_eq_true_eq] at hfree
  have hnone : ∀ b', (s.cache.buf b').dev = ROOTDEV → (s.cache.buf b').blockno ≠ n := by
    intro b' hdev hbn
    have := List.find?_eq_none.1 hf b' (hw.complete b')
    simp [BCache.names, hdev, hbn] at this
  have hbuf : ∀ b', (s.cache.setBuf b ⟨true, false, ROOTDEV, n, 1⟩).buf b' =
      if b' = b then ⟨true, false, ROOTDEV, n, 1⟩ else s.cache.buf b' :=
    fun b' => BCache.setBuf_buf _ _ _ _
  refine ⟨hw.nodup, hw.complete, hw.links, fun b' => ?_, fun b' hb' => ?_, fun b' hb' => ?_,
    fun b₁ b₂ h₁ h₂ h₁₂ => ?_, hw.pending_nodup, fun m hm => ?_⟩
  · by_cases hb : b' = b
    · subst hb
      rw [BCache.setBuf_buf_self, List.count_cons_self, ← hw.ref_count, hfree.1]
    · rw [BCache.setBuf_buf_of_ne _ _ hb, List.count_cons_of_ne (Ne.symm hb), hw.ref_count]
  · by_cases hb : b' = b
    · subst hb
      rw [BCache.setBuf_buf_self] at hb'
      exact absurd rfl hb'
    · rw [BCache.setBuf_buf_of_ne _ _ hb] at hb' ⊢
      exact hw.untouched b' hb'
  · by_cases hb : b' = b
    · subst hb
      rw [BCache.setBuf_buf_self]
    · rw [BCache.setBuf_buf_of_ne _ _ hb] at hb' ⊢
      exact hw.valid b' hb'
  · rw [hbuf, hbuf] at h₁₂
    rw [hbuf] at h₁
    rw [hbuf] at h₂
    by_cases hb₁ : b₁ = b <;> by_cases hb₂ : b₂ = b
    · rw [hb₁, hb₂]
    · rw [if_pos hb₁, if_neg hb₂] at h₁₂
      rw [if_neg hb₂] at h₂
      exact absurd h₁₂.symm (hnone b₂ h₂)
    · rw [if_neg hb₁, if_pos hb₂] at h₁₂
      rw [if_neg hb₁] at h₁
      exact absurd h₁₂ (hnone b₁ h₁)
    · rw [if_neg hb₁, if_neg hb₂] at h₁₂
      rw [if_neg hb₁] at h₁
      rw [if_neg hb₂] at h₂
      exact hw.unique b₁ b₂ h₁ h₂ h₁₂
  · obtain ⟨b', hdev, hbn, hd⟩ := hw.pinned m hm
    have hb : b' ≠ b := fun h => by
      rw [h, hfree.2] at hd
      exact Bool.false_ne_true hd
    refine ⟨b', ?_⟩
    dsimp only
    rw [BCache.setBuf_buf_of_ne _ _ hb]
    exact ⟨hdev, hbn, hd⟩

theorem written (hw : BioWf s) {b : Fin NBUF} (hb : b ∈ s.held) :
    BioWf ⟨s.cache.setBuf b { s.cache.buf b with valid := true, dirty := false }, s.held,
      s.pending.erase (s.cache.buf b).blockno, s.order⟩ := by
  have hdev := hw.dev_of_held hb
  refine hw.of_setBuf (x := { s.cache.buf b with valid := true, dirty := false }) hdev hdev rfl
    rfl rfl hw.nodup hw.complete hw.links (hw.ref_count b) (fun _ _ => rfl) (hw.pending_nodup.erase _) (fun m hm => ?_)
  have hm' := hw.pending_nodup.mem_erase_iff.1 hm
  rw [if_neg hm'.1]
  exact hm'.2

theorem logged (hw : BioWf s) {b : Fin NBUF} (hb : b ∈ s.held) :
    BioWf ⟨markDirty s.cache b, s.held,
      if (s.cache.buf b).blockno ∈ s.pending then s.pending
      else s.pending ++ [(s.cache.buf b).blockno], s.order⟩ := by
  have hdev := hw.dev_of_held hb
  refine hw.of_setBuf (x := { s.cache.buf b with dirty := true }) hdev hdev rfl (hw.valid b hdev)
    rfl hw.nodup hw.complete hw.links (hw.ref_count b) (fun _ _ => rfl) ?_ (fun m hm => ?_)
  · split_ifs with h
    · exact hw.pending_nodup
    · exact hw.pending_nodup.append (List.nodup_singleton _)
        (List.disjoint_singleton.2 h)
  · by_cases h : m = (s.cache.buf b).blockno
    · rw [if_pos h]
    · rw [if_neg h]
      dsimp only at hm
      split_ifs at hm
      · exact hm
      · rw [List.mem_append, List.mem_singleton] at hm
        exact hm.resolve_right h

theorem released (hw : BioWf s) {b : Fin NBUF} (hb : b ∈ s.held) :
    BioWf ⟨brelse s.cache b, s.held.erase b, s.pending,
      if (s.cache.buf b).refcnt = 1 then b :: s.order.erase b else s.order⟩ := by
  have hdev := hw.dev_of_held hb
  have hpos : 0 < (s.cache.buf b).refcnt := by
    rw [hw.ref_count]
    exact List.count_pos_iff.2 hb
  have hlist : (if (s.cache.buf b).refcnt = 1 then b :: s.order.erase b else s.order).Nodup ∧
      (∀ b', b' ∈ if (s.cache.buf b).refcnt = 1 then b :: s.order.erase b else s.order) ∧
      DList.Represents (brelse s.cache b).links
        (if (s.cache.buf b).refcnt = 1 then b :: s.order.erase b else s.order) := by
    rw [brelse_links]
    by_cases h1 : (s.cache.buf b).refcnt = 1
    · rw [if_pos h1, if_pos (by omega)]
      refine ⟨List.nodup_cons.2 ⟨hw.nodup.not_mem_erase, hw.nodup.erase b⟩, fun b' => ?_,
        hw.links.moveFront hw.nodup (hw.complete b)⟩
      by_cases hb' : b' = b
      · rw [hb']
        exact List.mem_cons_self
      · exact List.mem_cons_of_mem _ ((List.mem_erase_of_ne hb').2 (hw.complete b'))
    · rw [if_neg h1, if_neg (by omega)]
      exact ⟨hw.nodup, hw.complete, hw.links⟩
  obtain ⟨hnodup, hcomplete, hlinks⟩ := hlist
  refine hw.of_setBuf (x := { s.cache.buf b with refcnt := (s.cache.buf b).refcnt - 1 }) hdev hdev
    rfl (hw.valid b hdev) (brelse_buf _ _) hnodup hcomplete hlinks
    ?_ (fun b' hb' => List.count_erase_of_ne hb') hw.pending_nodup (fun m hm => ?_)
  · rw [List.count_erase_self, hw.ref_count]
  · split_ifs with h
    · rw [h] at hm
      exact hw.dirty_of_pending hdev hm
    · exact hm

theorem step (hw : BioWf s) {s' : BioSys} (h : BioStep s s') : BioWf s' := by
  cases h with
  | bread blockno b c h =>
    rcases bread_eq_ok hw.links hw.nodup hw.valid h with ⟨hf, rfl⟩ | ⟨hf, hr, rfl⟩
    · exact hw.found hf
    · exact hw.recycled hf hr
  | bwrite b c hb h =>
    rw [bwrite_eq] at h
    cases h
    exact hw.written hb
  | brelse b hb => exact hw.released hb
  | logWrite b hb => exact hw.logged hb

end BioWf

theorem reachable_bioWf {s : BioSys} (hs : BioReachable s) : BioWf s :=
  @Run.reachable_invariant _ BioStep BioInit BioWf (fun _ h => BioWf.init h)
    (fun _ _ hw h => hw.step h) s hs

/-- The buffer cache in every state the calls reach. The list from `bcache.head` along `next`
holds each of the `NBUF` buffers once, and `prev` undoes `next`; the buffers of `ROOTDEV` carry
pairwise different blocks, and every other buffer is still the zeroed one of the static
`bcache`; counts are the references not yet released. A block the log holds has a dirty buffer,
which `bread` returns without reading the disk; a miss takes the first free buffer from the
tail. -/
theorem bcache_invariant_rootdev {s : BioSys} (hs : BioReachable s) :
    (s.order.Nodup ∧ (∀ b, b ∈ s.order) ∧
      (∀ y, s.cache.links.next y = DList.after s.order y ∧
        s.cache.links.prev y = DList.before s.order y) ∧
      ∀ y, s.cache.links.prev (s.cache.links.next y) = y) ∧
    (∀ b b', (s.cache.buf b).dev = ROOTDEV → (s.cache.buf b').dev = ROOTDEV →
      (s.cache.buf b).blockno = (s.cache.buf b').blockno → b = b') ∧
    (∀ b, (s.cache.buf b).dev ≠ ROOTDEV → s.cache.buf b = Buf.zero) ∧
    (∀ b, (s.cache.buf b).refcnt = s.held.count b) ∧
    (∀ n ∈ s.pending, ∃ b, (s.cache.buf b).dirty = true ∧
      bread s.cache ROOTDEV n =
        .ok (b, s.cache.setBuf b { s.cache.buf b with refcnt := (s.cache.buf b).refcnt + 1 })) ∧
    (∀ n b c, (∀ b', (s.cache.buf b').dev = ROOTDEV → (s.cache.buf b').blockno ≠ n) →
      bread s.cache ROOTDEV n = .ok (b, c) →
        s.order.reverse.find? s.cache.free = some b ∧
          c = s.cache.setBuf b ⟨true, false, ROOTDEV, n, 1⟩) := by
  have hw := reachable_bioWf hs
  have hon : ∀ y, DList.OnCircle s.order y := fun y => by
    cases y with
    | none => trivial
    | some b => exact hw.complete b
  refine ⟨⟨hw.nodup, hw.complete, fun y => hw.links y (hon y),
    fun y => hw.links.prev_next hw.nodup (hon y)⟩, hw.unique, hw.untouched, hw.ref_count,
    fun n hn => ?_, fun n b c hnone h => ?_⟩
  · obtain ⟨b, hdev, hbn, hdirty⟩ := hw.pinned n hn
    have hf := hw.find_names hdev
    rw [hbn] at hf
    exact ⟨b, hdirty, bread_found hw.links hw.nodup hf (hw.valid b hdev)⟩
  · rcases bread_eq_ok hw.links hw.nodup hw.valid h with ⟨hf, _⟩ | ⟨_, hr, hc⟩
    · have hb := List.find?_some hf
      simp only [BCache.names, decide_eq_true_eq] at hb
      exact absurd hb.2 (hnone b hb.1)
    · exact ⟨hr, hc⟩

theorem bcache_invariant_rootdev_binit :
    BioReachable ⟨binit, [], [], (List.finRange NBUF).reverse⟩ ∧
      ∀ b, (binit.buf b).refcnt = ([] : List (Fin NBUF)).count b :=
  have h : BioReachable ⟨binit, [], [], (List.finRange NBUF).reverse⟩ :=
    Run.Reachable.of_init ⟨rfl, rfl, rfl, rfl⟩
  ⟨h, (bcache_invariant_rootdev h).2.2.2.1⟩

/-- At boot no two buffers differ in their block: the static `bcache` is zeroed and `binit`
never sets `dev` or `blockno`, so all `NBUF` buffers carry block `0` of device `0`. -/
theorem binit_shares_label :
    BioReachable ⟨binit, [], [], (List.finRange NBUF).reverse⟩ ∧
      ∃ b b' : Fin NBUF, b ≠ b' ∧ (binit.buf b).dev = (binit.buf b').dev ∧
        (binit.buf b).blockno = (binit.buf b').blockno :=
  ⟨Run.Reachable.of_init ⟨rfl, rfl, rfl, rfl⟩, ⟨0, by decide⟩, ⟨1, by decide⟩, by decide, rfl, rfl⟩

end Xv6
