import Xv6.User.Grep
import Xv6.Proc.Defs

set_option autoImplicit false

/-!
# The line loop of `grep.c`

`grep(pattern, fd)` reads into the 1024-byte `buf` behind the `m` bytes it keeps, terminates
the buffer, and writes each complete line that matches; it then moves the partial line after
the last newline to the front with the user `memmove`, which copies forward and so copies here
(`copyForward_eq_moved`, the destination below the source). When a read leaves no newline in
the buffer, `if(p == buf) m = 0;` drops the whole buffer.

The input is the list of chunks successive `read`s return; a `read` asked for fewer bytes than
the next chunk has returns its first bytes and leaves the rest (so a file is one chunk). The
loop is modelled on the buffer as the C code runs it, and it refines `absLoop`, the same loop
on lists where the buffer is the pending partial line (`grepLoop_refines`). Against the ideal,
`grepSpec`, which writes every complete line of the input that matches, the drop is a bug: a
line whose first bytes arrive alone loses them (`grep_split_line_loses_head`).
-/
namespace Xv6

namespace Grep

open Function (update)

def NL : UInt8 := 10

def BUFSIZE : Nat := 1024

def cstring (b : Nat → UInt8) (s : Nat) : Nat → List UInt8
  | 0 => []
  | fuel + 1 => if b s = 0 then [] else b s :: cstring b (s + 1) fuel

def bytesAt (b : Nat → UInt8) (a n : Nat) : List UInt8 := (List.range n).map fun i => b (a + i)

def fill (b : Nat → UInt8) (a : Nat) (c : List UInt8) : Nat → UInt8 :=
  fun i => if a ≤ i ∧ i < a + c.length then c.getD (i - a) 0 else b i

def readChunk : List (List UInt8) → Nat → List UInt8 × List (List UInt8)
  | [], _ => ([], [])
  | c :: cs, n => if c.length ≤ n then (c, cs) else (c.take n, c.drop n :: cs)

def lineLoop (re : List UInt8) :
    Nat → (Nat → UInt8) → Nat → List UInt8 → (Nat → UInt8) × Nat × List UInt8
  | 0, b, p, out => (b, p, out)
  | fuel + 1, b, p, out =>
    match Ulib.strchr b p NL BUFSIZE with
    | none => (b, p, out)
    | some q =>
      let b := update b q 0
      if «match» re (cstring b p BUFSIZE) then
        let b := update b q NL
        lineLoop re fuel b (q + 1) (out ++ bytesAt b p (q + 1 - p))
      else lineLoop re fuel b (q + 1) out

/-- The variables of `grep` kept across reads: `buf`, `m`, and what was written to fd 1. -/
structure GrepState where
  buf : Nat → UInt8
  m : Nat
  out : List UInt8

/-- The outer loop of `grep`, with at most `fuel` reads:
`while((n = read(fd, buf+m, sizeof(buf)-m-1)) > 0){ m += n; buf[m] = '\0'; p = buf; ...
if(p == buf) m = 0; if(m > 0){ m -= p - buf; memmove(buf, p, m); } }` -/
def grepLoop (re : List UInt8) : Nat → GrepState → List (List UInt8) → GrepState
  | 0, st, _ => st
  | fuel + 1, st, input =>
    let r := readChunk input (BUFSIZE - st.m - 1)
    if 0 < r.1.length then
      let m := st.m + r.1.length
      let b := update (fill st.buf st.m r.1) m 0
      let l := lineLoop re BUFSIZE b 0 st.out
      let m := if l.2.1 = 0 then 0 else m
      if 0 < m then
        grepLoop re fuel ⟨Ulib.memmove l.1 0 l.2.1 (Int32.ofNat (m - l.2.1)), m - l.2.1, l.2.2⟩ r.2
      else grepLoop re fuel ⟨l.1, m, l.2.2⟩ r.2
    else st

/-- `grep(pattern, fd)` on the chunks of `fd`, from the zeroed global `buf`: what it writes.
Each read takes at least one byte, so one more read than there are bytes ends the loop. -/
def grep (re : List UInt8) (input : List (List UInt8)) : List UInt8 :=
  (grepLoop re ((input.map List.length).sum + 1) ⟨fun _ => 0, 0, []⟩ input).out

/-! ## Lines, and the loop on lists -/

/-- The complete lines of `s`, without their newlines, and the bytes after the last newline. -/
def splitLines : List UInt8 → List (List UInt8) × List UInt8
  | [] => ([], [])
  | x :: xs =>
    if x = NL then ([] :: (splitLines xs).1, (splitLines xs).2)
    else match (splitLines xs).1 with
      | [] => ([], x :: (splitLines xs).2)
      | l :: ls => ((x :: l) :: ls, (splitLines xs).2)

/-- The lines written for the complete lines `ls`: those that match, each with its newline. -/
def emit (re : List UInt8) (ls : List (List UInt8)) : List UInt8 :=
  (ls.filter fun l => «match» re l).flatMap (· ++ [NL])

/-- What `grep` is for: every complete line of the input that matches, in order. -/
def grepSpec (re : List UInt8) (input : List (List UInt8)) : List UInt8 :=
  emit re (splitLines input.flatten).1

/-- The loop of `grep` on lists: the buffer holds the partial line `tail`, and a read that
brings no newline drops it. -/
def absLoop (re : List UInt8) :
    Nat → List UInt8 × List UInt8 → List (List UInt8) → List UInt8 × List UInt8
  | 0, st, _ => st
  | fuel + 1, st, input =>
    let r := readChunk input (BUFSIZE - st.1.length - 1)
    if 0 < r.1.length then
      let sl := splitLines (st.1 ++ r.1)
      if sl.1 = [] then absLoop re fuel ([], st.2) r.2
      else absLoop re fuel (sl.2, st.2 ++ emit re sl.1) r.2
    else st

theorem emit_nil (re : List UInt8) : emit re [] = [] := rfl

theorem emit_cons (re l : List UInt8) (ls : List (List UInt8)) :
    emit re (l :: ls) = (if «match» re l then l ++ [NL] else []) ++ emit re ls := by
  unfold emit
  rw [List.filter_cons]
  split <;> simp

theorem splitLines_of_not_mem {s : List UInt8} (h : NL ∉ s) : splitLines s = ([], s) := by
  induction s with
  | nil => rfl
  | cons x xs ih =>
    have hx : x ≠ NL := fun hx => h (hx ▸ List.mem_cons_self)
    rw [splitLines, if_neg hx, ih (fun hm => h (List.mem_cons_of_mem x hm))]

theorem splitLines_append_nl {l : List UInt8} (hl : NL ∉ l) (r : List UInt8) :
    splitLines (l ++ NL :: r) = (l :: (splitLines r).1, (splitLines r).2) := by
  induction l with
  | nil => rw [List.nil_append, splitLines, if_pos rfl]
  | cons x xs ih =>
    have hx : x ≠ NL := fun hx => hl (hx ▸ List.mem_cons_self)
    rw [List.cons_append, splitLines, if_neg hx, ih (fun hm => hl (List.mem_cons_of_mem x hm))]

theorem splitLines_spec (s : List UInt8) :
    s = ((splitLines s).1.map (· ++ [NL])).flatten ++ (splitLines s).2 ∧
      NL ∉ (splitLines s).2 ∧ ∀ l ∈ (splitLines s).1, NL ∉ l := by
  induction s with
  | nil => exact ⟨rfl, List.not_mem_nil, fun _ h => absurd h List.not_mem_nil⟩
  | cons x xs ih =>
    obtain ⟨heq, ht, hls⟩ := ih
    by_cases hx : x = NL
    · subst hx
      rw [splitLines, if_pos rfl]
      refine ⟨?_, ht, ?_⟩
      · simp only [List.map_cons, List.flatten_cons, List.nil_append, List.cons_append]
        rw [← heq]
      · intro l hl
        rcases List.mem_cons.mp hl with rfl | hl
        · exact List.not_mem_nil
        · exact hls l hl
    · rw [splitLines, if_neg hx]
      cases hsl : (splitLines xs).1 with
      | nil =>
        rw [hsl] at heq
        refine ⟨?_, ?_, fun _ h => absurd h List.not_mem_nil⟩
        · simp only [List.map_nil, List.flatten_nil, List.nil_append] at heq ⊢
          rw [← heq]
        · rw [List.mem_cons, not_or]
          exact ⟨Ne.symm hx, ht⟩
      | cons l ls =>
        rw [hsl] at heq hls
        refine ⟨?_, ht, ?_⟩
        · simp only [List.map_cons, List.flatten_cons, List.cons_append] at heq ⊢
          rw [← heq]
        · intro l' hl'
          rcases List.mem_cons.mp hl' with rfl | hl'
          · rw [List.mem_cons, not_or]
            exact ⟨Ne.symm hx, hls l List.mem_cons_self⟩
          · exact hls l' (List.mem_cons_of_mem l hl')

/-! ## The buffer -/

/-- The bytes `b` hold `xs` from `p` on. -/
def StoresAt (b : Nat → UInt8) : Nat → List UInt8 → Prop
  | _, [] => True
  | p, x :: xs => b p = x ∧ StoresAt b (p + 1) xs

section Buffer

variable {b b' : Nat → UInt8}

theorem storesAt_cons {p : Nat} {x : UInt8} {xs : List UInt8} :
    StoresAt b p (x :: xs) ↔ b p = x ∧ StoresAt b (p + 1) xs := Iff.rfl

theorem storesAt_singleton {p : Nat} {x : UInt8} : StoresAt b p [x] ↔ b p = x := by
  rw [storesAt_cons]
  exact and_iff_left trivial

theorem storesAt_append {p : Nat} {xs ys : List UInt8} :
    StoresAt b p (xs ++ ys) ↔ StoresAt b p xs ∧ StoresAt b (p + xs.length) ys := by
  induction xs generalizing p with
  | nil => simp [StoresAt]
  | cons x xs ih =>
    rw [List.cons_append, StoresAt, StoresAt, ih, List.length_cons, Nat.add_assoc,
      Nat.add_comm 1, and_assoc]

theorem StoresAt.shift {p q : Nat} {xs : List UInt8} (h : StoresAt b p xs)
    (hb : ∀ i < xs.length, b' (q + i) = b (p + i)) : StoresAt b' q xs := by
  induction xs generalizing p q with
  | nil => trivial
  | cons x xs ih =>
    refine ⟨(hb 0 (Nat.zero_lt_succ _)).trans h.1, ih h.2 fun i hi => ?_⟩
    have := hb (i + 1) (by rw [List.length_cons]; omega)
    rw [Nat.add_assoc q, Nat.add_assoc p, Nat.add_comm 1 i]
    exact this

theorem StoresAt.congr {p : Nat} {xs : List UInt8} (h : StoresAt b p xs)
    (hb : ∀ i, p ≤ i → i < p + xs.length → b' i = b i) : StoresAt b' p xs :=
  h.shift fun i hi => hb (p + i) (Nat.le_add_right p i) (by omega)

theorem storesAt_fill (b : Nat → UInt8) (a : Nat) (c : List UInt8) : StoresAt (fill b a c) a c := by
  have hself : StoresAt (fun i => c.getD i 0) 0 c := by
    induction c with
    | nil => trivial
    | cons x xs ih => exact ⟨rfl, ih.shift fun i _ => by simp [Nat.add_comm]⟩
  refine hself.shift fun i hi => ?_
  unfold fill
  rw [if_pos (by omega), Nat.add_sub_cancel_left, Nat.zero_add]

theorem StoresAt.update_ne {p q : Nat} {xs : List UInt8} {v : UInt8} (h : StoresAt b p xs)
    (hq : q < p ∨ p + xs.length ≤ q) : StoresAt (update b q v) p xs :=
  h.congr fun i hi hi' => Function.update_of_ne (by omega) v b

theorem strchr_of_storesAt_nl {p fuel : Nat} {l r : List UInt8} (h : StoresAt b p (l ++ NL :: r))
    (hl : ∀ x ∈ l, x ≠ 0 ∧ x ≠ NL) (hfuel : l.length < fuel) :
    Ulib.strchr b p NL fuel = some (p + l.length) := by
  induction l generalizing p fuel with
  | nil =>
    obtain ⟨f, rfl⟩ : ∃ f, fuel = f + 1 := ⟨fuel - 1, by omega⟩
    rw [Ulib.strchr, h.1, if_neg (by decide), if_pos rfl, List.length_nil, Nat.add_zero]
  | cons x xs ih =>
    obtain ⟨f, rfl⟩ : ∃ f, fuel = f + 1 := ⟨fuel - 1, by omega⟩
    obtain ⟨hx0, hxnl⟩ := hl x List.mem_cons_self
    rw [Ulib.strchr, h.1, if_neg hx0, if_neg hxnl,
      ih h.2 (fun y hy => hl y (List.mem_cons_of_mem x hy)) (by rw [List.length_cons] at hfuel; omega),
      List.length_cons, Nat.add_right_comm, Nat.add_assoc]

theorem strchr_of_storesAt_zero {p fuel : Nat} {l : List UInt8} (h : StoresAt b p (l ++ [0]))
    (hl : NL ∉ l) (hfuel : l.length < fuel) : Ulib.strchr b p NL fuel = none := by
  induction l generalizing p fuel with
  | nil =>
    obtain ⟨f, rfl⟩ : ∃ f, fuel = f + 1 := ⟨fuel - 1, by omega⟩
    rw [Ulib.strchr, h.1, if_pos rfl]
  | cons x xs ih =>
    obtain ⟨f, rfl⟩ : ∃ f, fuel = f + 1 := ⟨fuel - 1, by omega⟩
    have hxnl : x ≠ NL := fun hx => hl (hx ▸ List.mem_cons_self)
    rw [Ulib.strchr, h.1]
    by_cases hx0 : x = 0
    · rw [if_pos hx0]
    · rw [if_neg hx0, if_neg hxnl, ih h.2 (fun hm => hl (List.mem_cons_of_mem x hm))
        (by rw [List.length_cons] at hfuel; omega)]

theorem cstring_of_storesAt {p fuel : Nat} {l : List UInt8} (h : StoresAt b p (l ++ [0]))
    (hl : 0 ∉ l) (hfuel : l.length < fuel) : cstring b p fuel = l := by
  induction l generalizing p fuel with
  | nil =>
    obtain ⟨f, rfl⟩ : ∃ f, fuel = f + 1 := ⟨fuel - 1, by omega⟩
    rw [cstring, h.1, if_pos rfl]
  | cons x xs ih =>
    obtain ⟨f, rfl⟩ : ∃ f, fuel = f + 1 := ⟨fuel - 1, by omega⟩
    have hx0 : x ≠ 0 := fun hx => hl (hx ▸ List.mem_cons_self)
    rw [cstring, h.1, if_neg hx0, ih h.2 (fun hm => hl (List.mem_cons_of_mem x hm))
      (by rw [List.length_cons] at hfuel; omega)]

theorem bytesAt_succ (b : Nat → UInt8) (p n : Nat) :
    bytesAt b p (n + 1) = b p :: bytesAt b (p + 1) n := by
  unfold bytesAt
  rw [List.range_succ_eq_map, List.map_cons, List.map_map, Nat.add_zero]
  congr 1
  apply List.map_congr_left
  intro i _
  simp only [Function.comp, Nat.add_assoc, Nat.add_comm 1 i]

theorem bytesAt_of_storesAt {p : Nat} {l : List UInt8} (h : StoresAt b p l) :
    bytesAt b p l.length = l := by
  induction l generalizing p with
  | nil => rfl
  | cons x xs ih => rw [List.length_cons, bytesAt_succ, h.1, ih h.2]

end Buffer

/-! ## The inner loop -/

theorem lineLoop_spec (re : List UInt8) (t : List UInt8) (ht : NL ∉ t) :
    ∀ (ls : List (List UInt8)), (∀ l ∈ ls, NL ∉ l ∧ 0 ∉ l) →
      ((ls.map (· ++ [NL])).flatten ++ t).length < BUFSIZE →
      ∀ fuel b p out, ls.length < fuel →
        StoresAt b p ((ls.map (· ++ [NL])).flatten ++ t ++ [0]) →
        (lineLoop re fuel b p out).2.1 = p + ((ls.map (· ++ [NL])).flatten).length ∧
        (lineLoop re fuel b p out).2.2 = out ++ emit re ls ∧
        StoresAt (lineLoop re fuel b p out).1 (lineLoop re fuel b p out).2.1 t := by
  intro ls
  induction ls with
  | nil =>
    intro _ hlen fuel b p out hfuel h
    obtain ⟨f, rfl⟩ : ∃ f, fuel = f + 1 := ⟨fuel - 1, by omega⟩
    simp only [List.map_nil, List.flatten_nil, List.nil_append] at h hlen ⊢
    rw [lineLoop, strchr_of_storesAt_zero h ht hlen]
    exact ⟨rfl, by rw [emit_nil, List.append_nil], (storesAt_append.mp h).1⟩
  | cons l ls ih =>
    intro hls hlen fuel b p out hfuel h
    obtain ⟨f, rfl⟩ : ∃ f, fuel = f + 1 := ⟨fuel - 1, by rw [List.length_cons] at hfuel; omega⟩
    obtain ⟨hlnl, hl0⟩ := hls l List.mem_cons_self
    have hrest : ∀ l' ∈ ls, NL ∉ l' ∧ 0 ∉ l' := fun l' hl' => hls l' (List.mem_cons_of_mem l hl')
    simp only [List.map_cons, List.flatten_cons, List.append_assoc, List.length_append,
      List.length_cons, List.length_nil, Nat.zero_add] at hlen h ⊢
    have hsplit := storesAt_append.mp h
    have hq : b (p + l.length) = NL := hsplit.2.1
    have hrestAt := hsplit.2.2
    have hlAt := hsplit.1
    have hl : ∀ x ∈ l, x ≠ 0 ∧ x ≠ NL := fun x hx =>
      ⟨fun h0 => hl0 (h0 ▸ hx), fun h1 => hlnl (h1 ▸ hx)⟩
    have hfind : Ulib.strchr b p NL BUFSIZE = some (p + l.length) :=
      strchr_of_storesAt_nl (by rw [List.singleton_append] at h; exact h) hl (by omega)
    have hcut : StoresAt (update b (p + l.length) 0) p (l ++ [0]) := by
      refine storesAt_append.mpr ⟨hlAt.update_ne (Or.inr (Nat.le_refl _)), ?_⟩
      exact storesAt_singleton.mpr (Function.update_self (p + l.length) 0 b)
    have htext : cstring (update b (p + l.length) 0) p BUFSIZE = l :=
      cstring_of_storesAt hcut hl0 (by omega)
    have hrest' : StoresAt (update b (p + l.length) 0) (p + l.length + 1)
        ((ls.map (· ++ [NL])).flatten ++ (t ++ [0])) :=
      hrestAt.update_ne (Or.inl (Nat.lt_succ_self _))
    rw [lineLoop, hfind]
    dsimp only
    rw [htext, emit_cons]
    by_cases hm : «match» re l = true
    · have hback : update (update b (p + l.length) 0) (p + l.length) NL = b := by
        rw [Function.update_idem, ← hq, Function.update_eq_self]
      have hwrite : bytesAt b p (p + l.length + 1 - p) = l ++ [NL] := by
        have := bytesAt_of_storesAt (storesAt_append.mpr ⟨hlAt, storesAt_singleton.mpr hq⟩)
        rw [show p + l.length + 1 - p = (l ++ [NL]).length by
          rw [List.length_append, List.length_singleton]; omega]
        exact this
      rw [if_pos hm, if_pos hm, hback, hwrite]
      obtain ⟨h1, h2, h3⟩ := ih hrest (by rw [List.length_append]; omega) f b
        (p + l.length + 1) (out ++ (l ++ [NL])) (by rw [List.length_cons] at hfuel; omega)
        (by rw [List.append_assoc]; exact hrestAt)
      exact ⟨by rw [h1]; omega, by rw [h2, List.append_assoc], h3⟩
    · rw [if_neg hm, if_neg hm, List.nil_append]
      obtain ⟨h1, h2, h3⟩ := ih hrest (by rw [List.length_append]; omega) f _
        (p + l.length + 1) out (by rw [List.length_cons] at hfuel; omega)
        (by rw [List.append_assoc]; exact hrest')
      exact ⟨by rw [h1]; omega, h2, h3⟩

/-! ## Lines of a text -/

theorem mem_of_mem_line {s l : List UInt8} {x : UInt8} (hl : l ∈ (splitLines s).1) (hx : x ∈ l) :
    x ∈ s := by
  rw [(splitLines_spec s).1]
  exact List.mem_append_left _ (List.mem_flatten.mpr ⟨l ++ [NL], List.mem_map_of_mem hl,
    List.mem_append_left _ hx⟩)

theorem mem_of_mem_rest {s : List UInt8} {x : UInt8} (hx : x ∈ (splitLines s).2) : x ∈ s := by
  rw [(splitLines_spec s).1]
  exact List.mem_append_right _ hx

theorem length_le_length_lines (ls : List (List UInt8)) :
    ls.length ≤ ((ls.map (· ++ [NL])).flatten).length := by
  induction ls with
  | nil => exact Nat.le_refl 0
  | cons l ls ih =>
    rw [List.map_cons, List.flatten_cons, List.length_append, List.length_append,
      List.length_singleton, List.length_cons]
    omega

/-! ## The loop refines the loop on lists -/

/-- The buffer of `grep` between reads holds the partial line `tail`, and nothing else is kept. -/
structure Pending (st : GrepState) (tail : List UInt8) : Prop where
  m_eq : st.m = tail.length
  stores : StoresAt st.buf 0 tail
  no_nl : NL ∉ tail
  no_nul : 0 ∉ tail
  fits : tail.length + 1 < BUFSIZE

theorem readChunk_length_le (input : List (List UInt8)) (n : Nat) :
    (readChunk input n).1.length ≤ n := by
  cases input with
  | nil => exact Nat.zero_le n
  | cons c cs =>
    rw [readChunk]
    by_cases hle : c.length ≤ n
    · rw [if_pos hle]
      exact hle
    · rw [if_neg hle, List.length_take]
      exact Nat.min_le_left n c.length

theorem readChunk_no_nul {input : List (List UInt8)} (h : ∀ c ∈ input, 0 ∉ c) (n : Nat) :
    0 ∉ (readChunk input n).1 ∧ ∀ c ∈ (readChunk input n).2, 0 ∉ c := by
  cases input with
  | nil => exact ⟨List.not_mem_nil, fun _ hc => absurd hc List.not_mem_nil⟩
  | cons c cs =>
    have hc := h c List.mem_cons_self
    have hcs : ∀ c' ∈ cs, 0 ∉ c' := fun c' hc' => h c' (List.mem_cons_of_mem c hc')
    rw [readChunk]
    by_cases hle : c.length ≤ n
    · rw [if_pos hle]
      exact ⟨hc, hcs⟩
    · rw [if_neg hle]
      refine ⟨fun hm => hc (List.mem_of_mem_take hm), fun c' hc' => ?_⟩
      rcases List.mem_cons.mp hc' with rfl | hc'
      · exact fun hm => hc (List.mem_of_mem_drop hm)
      · exact hcs c' hc'

theorem storesAt_after_read {st : GrepState} {tail : List UInt8} (hp : Pending st tail)
    (c : List UInt8) :
    StoresAt (update (fill st.buf tail.length c) (tail.length + c.length) 0) 0 (tail ++ c ++ [0]) := by
  refine storesAt_append.mpr ⟨storesAt_append.mpr ⟨?_, ?_⟩, ?_⟩
  · refine (hp.stores.congr fun i _ hi => ?_).update_ne (Or.inr (by omega))
    unfold fill
    rw [if_neg (by omega)]
  · rw [Nat.zero_add]
    exact (storesAt_fill st.buf tail.length c).update_ne (Or.inr (Nat.le_refl _))
  · rw [List.length_append, Nat.zero_add]
    exact storesAt_singleton.mpr (Function.update_self _ 0 _)

theorem storesAt_memmove {b : Nat → UInt8} {p : Nat} {t : List UInt8} (h : StoresAt b p t)
    (ht : t.length < 2 ^ 31) : StoresAt (Ulib.memmove b 0 p (Int32.ofNat t.length)) 0 t := by
  have hu : uint (Int32.ofNat t.length) = t.length := uint_ofNat (by unfold WORD; omega)
  have hn : (Int32.ofNat t.length).toInt.toNat = t.length := by
    rw [int_toInt_eq, hu, if_pos (by omega)]
    rfl
  unfold Ulib.memmove
  rw [hn, copyForward_eq_moved b (Or.inl (Nat.zero_le p))]
  refine h.shift fun i hi => ?_
  unfold moved
  rw [if_pos ⟨Nat.zero_le _, by omega⟩]
  congr 1
  omega

theorem grepLoop_refines (re : List UInt8) (fuel : Nat) :
    ∀ (st : GrepState) (tail : List UInt8) (input : List (List UInt8)), Pending st tail →
      (∀ c ∈ input, 0 ∉ c) →
      (grepLoop re fuel st input).out = (absLoop re fuel (tail, st.out) input).2 := by
  induction fuel with
  | zero => intro st tail input _ _; rfl
  | succ f ih =>
    intro st tail input hp hin
    rw [grepLoop, absLoop, hp.m_eq]
    dsimp only
    by_cases hc : 0 < (readChunk input (BUFSIZE - tail.length - 1)).1.length
    · rw [if_pos hc, if_pos hc]
      have hclen := readChunk_length_le input (BUFSIZE - tail.length - 1)
      obtain ⟨hc0, hrest0⟩ := readChunk_no_nul hin (BUFSIZE - tail.length - 1)
      generalize (readChunk input (BUFSIZE - tail.length - 1)).1 = c at hc hclen hc0 ⊢
      generalize (readChunk input (BUFSIZE - tail.length - 1)).2 = rest at hrest0 ⊢
      have hfits := hp.fits
      have hs0 : 0 ∉ tail ++ c := by
        rw [List.mem_append, not_or]
        exact ⟨hp.no_nul, hc0⟩
      obtain ⟨hs, ht, hls⟩ := splitLines_spec (tail ++ c)
      generalize hsl : splitLines (tail ++ c) = sl at hs ht hls ⊢
      obtain ⟨ls, t⟩ := sl
      dsimp only at hs ht hls ⊢
      have hlines : ∀ l ∈ ls, NL ∉ l ∧ 0 ∉ l := fun l hl =>
        ⟨hls l hl, fun h0 => hs0 (mem_of_mem_line (by rw [hsl]; exact hl) h0)⟩
      have ht0 : 0 ∉ t := fun h0 => hs0 (mem_of_mem_rest (by rw [hsl]; exact h0))
      have hslen := congrArg List.length hs
      rw [List.length_append, List.length_append] at hslen
      have hlsle := length_le_length_lines ls
      have hbuf := storesAt_after_read hp c
      rw [hs] at hbuf
      obtain ⟨h1, h2, h3⟩ := lineLoop_spec re t ht ls hlines (by rw [List.length_append]; omega)
        BUFSIZE _ 0 st.out (by omega) hbuf
      rw [Nat.zero_add] at h1
      by_cases hnil : ls = []
      · -- no newline came: the buffer is dropped
        subst hnil
        rw [if_pos rfl]
        rw [List.map_nil, List.flatten_nil, List.length_nil] at h1
        rw [emit_nil, List.append_nil] at h2
        rw [if_pos h1, if_neg (Nat.lt_irrefl 0)]
        rw [ih _ [] rest ⟨rfl, trivial, List.not_mem_nil, List.not_mem_nil, by decide⟩ hrest0, h2]
      · -- the partial line after the last newline moves to the front
        have hpos : 0 < ((ls.map (· ++ [NL])).flatten).length := by
          have : 0 < ls.length := List.length_pos_iff.mpr hnil
          omega
        have hm : tail.length + c.length - ((ls.map (· ++ [NL])).flatten).length = t.length := by
          omega
        rw [if_neg hnil, h1, if_neg (Nat.pos_iff_ne_zero.mp hpos), if_pos (by omega), hm]
        refine (ih _ t rest ⟨rfl, ?_, ht, ht0, by omega⟩ hrest0).trans ?_
        · exact storesAt_memmove (h1 ▸ h3) (by unfold BUFSIZE at hfits hclen; omega)
        · rw [h2]
    · rw [if_neg hc, if_neg hc]

theorem grep_eq_absLoop (re : List UInt8) {input : List (List UInt8)} (hin : ∀ c ∈ input, 0 ∉ c) :
    grep re input = (absLoop re ((input.map List.length).sum + 1) ([], []) input).2 :=
  grepLoop_refines re _ ⟨fun _ => 0, 0, []⟩ [] input
    ⟨rfl, trivial, List.not_mem_nil, List.not_mem_nil, by decide⟩ hin

/-! ## What `grep` writes -/

theorem emit_append (re : List UInt8) (ls ls' : List (List UInt8)) :
    emit re (ls ++ ls') = emit re ls ++ emit re ls' := by
  unfold emit
  rw [List.filter_append, List.flatMap_append]

theorem splitLines_lines_append {ls : List (List UInt8)} (hls : ∀ l ∈ ls, NL ∉ l)
    (y : List UInt8) :
    splitLines ((ls.map (· ++ [NL])).flatten ++ y) = (ls ++ (splitLines y).1, (splitLines y).2) := by
  induction ls with
  | nil => rfl
  | cons l ls ih =>
    rw [List.map_cons, List.flatten_cons, List.append_assoc, List.append_assoc,
      List.singleton_append, splitLines_append_nl (hls l List.mem_cons_self),
      ih fun l' hl' => hls l' (List.mem_cons_of_mem l hl')]
    rfl

theorem splitLines_append_nl_end (x : List UInt8) :
    splitLines (x ++ [NL]) = ((splitLines x).1 ++ [(splitLines x).2], []) := by
  obtain ⟨hx, ht, hls⟩ := splitLines_spec x
  have hlines : ∀ l ∈ (splitLines x).1 ++ [(splitLines x).2], NL ∉ l := by
    intro l hl
    rcases List.mem_append.mp hl with hl | hl
    · exact hls l hl
    · rw [List.mem_singleton.mp hl]
      exact ht
  have hsplit := splitLines_lines_append hlines []
  rw [List.append_nil, List.map_append, List.flatten_append, List.map_singleton,
    List.flatten_singleton, ← List.append_assoc, ← hx] at hsplit
  have hnil : splitLines [] = ([], []) := rfl
  rw [hsplit, hnil, List.append_nil]

theorem absLoop_eof (re : List UInt8) (f : Nat) (st : List UInt8 × List UInt8) :
    absLoop re (f + 1) st [] = st := rfl

theorem absLoop_read (re : List UInt8) (f : Nat) (st : List UInt8 × List UInt8)
    {c : List UInt8} (cs : List (List UInt8)) (hc : c ≠ [])
    (hlen : c.length ≤ BUFSIZE - st.1.length - 1) :
    absLoop re (f + 1) st (c :: cs) =
      if (splitLines (st.1 ++ c)).1 = [] then absLoop re f ([], st.2) cs
      else absLoop re f ((splitLines (st.1 ++ c)).2, st.2 ++ emit re (splitLines (st.1 ++ c)).1) cs := by
  rw [absLoop]
  dsimp only
  rw [readChunk, if_pos hlen]
  dsimp only
  rw [if_pos (List.length_pos_iff.mpr hc)]

/-- `grep` on reads that each return whole lines, at most a buffer's worth: it writes exactly
the lines that match. By induction on the reads; the buffer is empty after each. -/
theorem grep_whole_line_reads (re : List UInt8) (input : List (List UInt8))
    (hlines : ∀ c ∈ input, ∃ x, c = x ++ [NL]) (hlen : ∀ c ∈ input, c.length < BUFSIZE)
    (hnul : ∀ c ∈ input, 0 ∉ c) :
    grep re input = grepSpec re input := by
  have hrun : ∀ (cs : List (List UInt8)), (∀ c ∈ cs, ∃ x, c = x ++ [NL]) →
      (∀ c ∈ cs, c.length < BUFSIZE) → ∀ f out, cs.length < f →
      (absLoop re f ([], out) cs).2 = out ++ emit re (splitLines cs.flatten).1 := by
    intro cs
    induction cs with
    | nil =>
      intro _ _ f out hf
      obtain ⟨g, rfl⟩ : ∃ g, f = g + 1 := ⟨f - 1, by rw [List.length_nil] at hf; omega⟩
      rw [absLoop_eof, List.flatten_nil]
      exact (List.append_nil out).symm
    | cons c cs ih =>
      intro hl hb f out hf
      obtain ⟨g, rfl⟩ : ∃ g, f = g + 1 := ⟨f - 1, by rw [List.length_cons] at hf; omega⟩
      obtain ⟨x, rfl⟩ := hl _ List.mem_cons_self
      have hxlen := hb _ List.mem_cons_self
      have hne : (splitLines x).1 ++ [(splitLines x).2] ≠ [] := by simp
      rw [absLoop_read re g _ cs (by simp) (by rw [List.length_nil]; omega), List.nil_append,
        splitLines_append_nl_end, if_neg hne,
        ih (fun c hc => hl c (List.mem_cons_of_mem _ hc)) (fun c hc => hb c (List.mem_cons_of_mem _ hc))
          g _ (by rw [List.length_cons] at hf; omega),
        List.flatten_cons]
      obtain ⟨hx, ht, hls⟩ := splitLines_spec x
      have hfirst : x ++ [NL] =
          (((splitLines x).1 ++ [(splitLines x).2]).map (· ++ [NL])).flatten := by
        rw [List.map_append, List.flatten_append, List.map_singleton, List.flatten_singleton,
          ← List.append_assoc, ← hx]
      have hall : ∀ l ∈ (splitLines x).1 ++ [(splitLines x).2], NL ∉ l := by
        intro l hl
        rcases List.mem_append.mp hl with hl | hl
        · exact hls l hl
        · rw [List.mem_singleton.mp hl]
          exact ht
      rw [hfirst, splitLines_lines_append hall]
      dsimp only
      rw [emit_append re ((splitLines x).1 ++ [(splitLines x).2]), List.append_assoc]
  have hsum : input.length < (input.map List.length).sum + 1 := by
    have hpos : ∀ c ∈ input, 1 ≤ c.length := by
      intro c hc
      obtain ⟨x, rfl⟩ := hlines c hc
      simp
    have := List.length_le_sum_of_one_le (input.map List.length) fun i hi => by
      obtain ⟨c, hc, rfl⟩ := List.mem_map.mp hi
      exact hpos c hc
    rw [List.length_map] at this
    omega
  rw [grep_eq_absLoop re hnul, hrun input hlines hlen _ [] hsum, List.nil_append]
  rfl

theorem grep_whole_line_reads_two :
    (∀ c ∈ [[104, 105, NL], [104, 111, NL]], ∃ x, c = x ++ [NL]) ∧
      (∀ c ∈ [[104, 105, NL], [104, 111, NL]], c.length < BUFSIZE) ∧
      (∀ c ∈ [[104, 105, NL], [104, 111, NL]], (0 : UInt8) ∉ c) ∧
      grep [104] [[104, 105, NL], [104, 111, NL]] = grepSpec [104] [[104, 105, NL], [104, 111, NL]] := by
  have hlines : ∀ c ∈ [[104, 105, NL], [104, 111, NL]], ∃ x, c = x ++ [NL] := by
    intro c hc
    rcases List.mem_pair.mp hc with rfl | rfl
    · exact ⟨[104, 105], rfl⟩
    · exact ⟨[104, 111], rfl⟩
  have hlen : ∀ c ∈ [[104, 105, NL], [104, 111, NL]], c.length < BUFSIZE := by decide
  have hnul : ∀ c ∈ [[104, 105, NL], [104, 111, NL]], (0 : UInt8) ∉ c := by decide
  exact ⟨hlines, hlen, hnul, grep_whole_line_reads [104] _ hlines hlen hnul⟩

/-- A line whose first bytes `a` arrive alone, the rest `b` and its newline in the next read:
the first read brings no newline, `if(p == buf) m = 0;` drops `a`, and `grep` matches and writes
`b` as if it were the line. Read at once, the same bytes give the whole line, as `grepSpec`
does. So what `grep` writes depends on how reads split its input. -/
theorem grep_split_line_loses_head (re a b : List UInt8) (ha : a ≠ []) (hna : NL ∉ a)
    (hnb : NL ∉ b) (h0a : 0 ∉ a) (h0b : 0 ∉ b) (hlen : a.length + b.length + 1 < BUFSIZE) :
    grep re [a, b ++ [NL]] = (if «match» re b then b ++ [NL] else []) ∧
      grep re [a ++ b ++ [NL]] = (if «match» re (a ++ b) then a ++ b ++ [NL] else []) ∧
      grepSpec re [a, b ++ [NL]] = (if «match» re (a ++ b) then a ++ b ++ [NL] else []) := by
  have hnl0 : (NL : UInt8) ≠ 0 := by decide
  have hab : NL ∉ a ++ b := by
    rw [List.mem_append, not_or]
    exact ⟨hna, hnb⟩
  have hlines : ∀ x : List UInt8, NL ∉ x → splitLines (x ++ [NL]) = ([x], []) := fun x hx => by
    rw [splitLines_append_nl hx]
    rfl
  have hemit : ∀ x : List UInt8, emit re [x] = if «match» re x then x ++ [NL] else [] := fun x => by
    rw [emit_cons, emit_nil, List.append_nil]
  have hal : 0 < a.length := List.length_pos_iff.mpr ha
  have hBUF : BUFSIZE = 1024 := rfl
  have hfa : a.length ≤ BUFSIZE - ([] : List UInt8).length - 1 := by
    rw [List.length_nil]
    omega
  have hfb : (b ++ [NL]).length ≤ BUFSIZE - ([] : List UInt8).length - 1 := by
    rw [List.length_nil, List.length_append, List.length_singleton]
    omega
  have hfab : (a ++ b ++ [NL]).length ≤ BUFSIZE - ([] : List UInt8).length - 1 := by
    rw [List.length_nil, List.length_append, List.length_append, List.length_singleton]
    omega
  refine ⟨?_, ?_, ?_⟩
  · have hin : ∀ c ∈ [a, b ++ [NL]], 0 ∉ c := by
      intro c hc
      simp only [List.mem_cons, List.not_mem_nil, or_false] at hc
      rcases hc with rfl | rfl
      · exact h0a
      · rw [List.mem_append, List.mem_singleton, not_or]
        exact ⟨h0b, hnl0.symm⟩
    obtain ⟨k, hk⟩ : ∃ k, ([a, b ++ [NL]].map List.length).sum + 1 = k + 3 := by
      refine ⟨a.length - 1 + b.length, ?_⟩
      simp only [List.map_cons, List.map_nil, List.sum_cons, List.sum_nil, List.length_append,
        List.length_singleton]
      omega
    rw [grep_eq_absLoop re hin, hk, absLoop_read re _ _ _ ha hfa, List.nil_append,
      splitLines_of_not_mem hna, if_pos rfl, absLoop_read re _ _ _ (by simp) hfb,
      List.nil_append, hlines b hnb, if_neg (List.cons_ne_nil _ _), absLoop_eof,
      List.nil_append, hemit]
  · have hin : ∀ c ∈ [a ++ b ++ [NL]], 0 ∉ c := by
      intro c hc
      rw [List.mem_singleton.mp hc, List.mem_append, List.mem_append, List.mem_singleton,
        not_or, not_or]
      exact ⟨⟨h0a, h0b⟩, hnl0.symm⟩
    obtain ⟨k, hk⟩ : ∃ k, ([a ++ b ++ [NL]].map List.length).sum + 1 = k + 2 := by
      refine ⟨a.length + b.length, ?_⟩
      simp only [List.map_cons, List.map_nil, List.sum_cons, List.sum_nil, List.length_append,
        List.length_singleton]
      omega
    rw [grep_eq_absLoop re hin, hk, absLoop_read re _ _ _ (by simp) hfab, List.nil_append,
      hlines (a ++ b) hab, if_neg (List.cons_ne_nil _ _), absLoop_eof, List.nil_append, hemit]
  · unfold grepSpec
    rw [List.flatten_cons, List.flatten_cons, List.flatten_nil, List.append_nil,
      ← List.append_assoc, hlines (a ++ b) hab, hemit]

theorem grep_split_line_loses_head_ab :
    ([97] : List UInt8) ≠ [] ∧ NL ∉ ([97] : List UInt8) ∧ NL ∉ ([98] : List UInt8) ∧
      (0 : UInt8) ∉ ([97] : List UInt8) ∧ (0 : UInt8) ∉ ([98] : List UInt8) ∧
      ([97] : List UInt8).length + ([98] : List UInt8).length + 1 < BUFSIZE ∧
      grep [98] [[97], [98] ++ [NL]] = [98, 10] ∧ grepSpec [98] [[97], [98] ++ [NL]] = [97, 98, 10] := by
  have h := grep_split_line_loses_head [98] [97] [98] (by decide) (by decide) (by decide)
    (by decide) (by decide) (by decide)
  refine ⟨by decide, by decide, by decide, by decide, by decide, by decide, ?_, ?_⟩
  · rw [h.1]
    decide
  · rw [h.2.2]
    decide

end Grep

end Xv6
