import Xv6.User.GrepLoop
import Xv6.User.Printf

set_option autoImplicit false

/-!
# `wc.c`

`wc(fd, name)` reads `fd` in chunks of at most 512 bytes into `buf` and runs its counters over
each byte: `c` counts bytes, `l` newlines, and `w` the bytes that start a word, a byte outside
`" \r\t\n\v"` after one inside it or at the start. A NUL byte is never found by `strchr`, whose
loop stops at the string's own NUL before comparing, so it is part of a word (`isSpace_iff`).
The counters and the flag carry over from one chunk to the next, so the counts are those of the
stream, however `read` cuts it (`wc_counts`): the input is the list of chunks successive `read`s
return, as for `grep`, a `read` returning `0` at an empty chunk or once the chunks run out, or
`-1` then when `fails`.
-/
namespace Xv6

namespace Wc

def spaces : Nat → UInt8 := fun i => [32, 13, 9, 10, 11].getD i 0

def isSpace (b : UInt8) : Bool := (Ulib.strchr spaces 0 b 6).isSome

/-- The white space of the stream, as a set of bytes. -/
def Space (b : UInt8) : Prop := b = 32 ∨ b = 13 ∨ b = 9 ∨ b = 10 ∨ b = 11

instance (b : UInt8) : Decidable (Space b) := inferInstanceAs (Decidable (_ ∨ _))

theorem isSpace_iff (b : UInt8) : isSpace b = true ↔ Space b := by
  simp only [isSpace, Ulib.strchr, spaces]
  split_ifs <;> simp_all [Space]
  grind

/-- The counters of `wc`. -/
@[ext] structure Counts where
  l : Int32
  w : Int32
  c : Int32
  inword : Bool

def Counts.init : Counts := ⟨0, 0, 0, false⟩

def step (s : Counts) (b : UInt8) : Counts :=
  let s := { s with c := s.c + 1 }
  let s := if b = 10 then { s with l := s.l + 1 } else s
  if isSpace b then { s with inword := false }
  else if !s.inword then { s with w := s.w + 1, inword := true }
  else s

def read (fails : Bool) (input : List (List UInt8)) (n : Nat) :
    Int × List UInt8 × List (List UInt8) :=
  match input with
  | [] => (if fails then -1 else 0, [], [])
  | _ :: _ => ((Grep.readChunk input n).1.length, Grep.readChunk input n)

/-- `while((n = read(fd, buf, sizeof(buf))) > 0) for(i=0; i<n; i++) ...`, with at most `fuel`
reads: the counters, and the `n` that ended the loop. -/
def wcLoop (fails : Bool) : Nat → Counts → List (List UInt8) → Counts × Int
  | 0, s, _ => (s, 0)
  | fuel + 1, s, input =>
    let r := read fails input 512
    if 0 < r.1 then wcLoop fails fuel (r.2.1.foldl step s) r.2.2 else (s, r.1)

def size (input : List (List UInt8)) : Nat := (input.map fun c => c.length + 1).sum

/-- `wc(fd, name)`: what it writes to fd `1`. The string `name` is no null pointer. -/
def wc (fails : Bool) (input : List (List UInt8)) (name : List Char) : List Char :=
  let r := wcLoop fails (size input + 1) Counts.init input
  if r.2 < 0 then "wc: read error\n".toList
  else Printf.printf "%d %d %d %s\n".toList
    [⟨r.1.l.toUInt32, []⟩, ⟨r.1.w.toUInt32, []⟩, ⟨r.1.c.toUInt32, []⟩, ⟨1, name⟩]

/-- The files of `main`: each argument with what `open` gives, its chunks and whether its reads
fail, or `none` when it does not open. `wc` stops the program by `exit` on a read error. -/
def mainLoop : List (List Char × Option (List (List UInt8) × Bool)) → List Char
  | [] => []
  | (name, none) :: _ => Printf.printf "wc: cannot open %s\n".toList [⟨1, name⟩]
  | (name, some (input, fails)) :: files =>
    wc fails input name ++
      if (wcLoop fails (size input + 1) Counts.init input).2 < 0 then [] else mainLoop files

/-- `main(argc, argv)`: `wc(0, "")` on the standard input with no argument, else the files. -/
def main (stdin : List (List UInt8) × Bool) :
    List (List Char × Option (List (List UInt8) × Bool)) → List Char
  | [] => wc stdin.2 stdin.1 []
  | file :: files => mainLoop (file :: files)

/-! ### The stream and its counts -/

/-- The bytes `read` returns before it returns `0` or `-1`. -/
def stream : List (List UInt8) → List UInt8
  | [] => []
  | c :: cs => if c = [] then [] else c ++ stream cs

/-- Whether a `read` returns `0` at an empty chunk before the chunks run out. -/
def Eof (input : List (List UInt8)) : Prop := [] ∈ input

instance (input : List (List UInt8)) : Decidable (Eof input) :=
  inferInstanceAs (Decidable ([] ∈ input))

/-- A word starts at `b` after `a`. -/
def Starts (p : UInt8 × UInt8) : Bool := decide (Space p.1) && !decide (Space p.2)

/-- What `wc` is for: the newlines, the word starts (a byte outside the white space after one
inside it, the stream starting after white space) and the bytes of the stream. -/
def counts (s : List UInt8) : Nat × Nat × Nat := (s.count 10, ((32 :: s).zip s).countP Starts, s.length)

theorem step_l (s : Counts) (b : UInt8) : (step s b).l = s.l + if b = 10 then 1 else 0 := by
  unfold step
  dsimp only
  split_ifs <;> simp_all

theorem step_w (s : Counts) (b : UInt8) :
    (step s b).w = s.w + if isSpace b = false ∧ s.inword = false then 1 else 0 := by
  unfold step
  dsimp only
  split_ifs <;> simp_all

theorem step_c (s : Counts) (b : UInt8) : (step s b).c = s.c + 1 := by
  unfold step
  dsimp only
  split_ifs <;> rfl

theorem step_inword (s : Counts) (b : UInt8) : (step s b).inword = !isSpace b := by
  unfold step
  dsimp only
  split_ifs <;> simp_all

theorem ofNat_ite (p : Prop) [Decidable p] :
    Int32.ofNat (if p then 1 else 0) = if p then 1 else 0 := by
  split_ifs <;> rfl

theorem foldl_step (s : List UInt8) : ∀ (st : Counts) (a : UInt8), st.inword = !isSpace a →
    s.foldl step st =
      ⟨st.l + Int32.ofNat (s.count 10), st.w + Int32.ofNat (((a :: s).zip s).countP Starts),
        st.c + Int32.ofNat s.length, !isSpace ((a :: s).getLast (List.cons_ne_nil _ _))⟩ := by
  induction s with
  | nil =>
    intro st a ha
    ext <;> simp [ha]
  | cons b s ih =>
    intro st a ha
    rw [List.foldl_cons, ih (step st b) b (step_inword st b)]
    have hstart : Starts (a, b) = (isSpace b = false ∧ st.inword = false) := by
      have hsa := isSpace_iff a
      have hsb := isSpace_iff b
      cases hia : isSpace a <;> cases hib : isSpace b <;> simp_all [Starts]
    ext
    · simp only [step_l, List.count_cons, Int32.ofNat_add, ofNat_ite, beq_iff_eq]
      grind
    · simp only [step_w, List.zip_cons_cons, List.countP_cons, Int32.ofNat_add, ofNat_ite, hstart]
      grind
    · simp only [step_c, List.length_cons, Int32.ofNat_add]
      grind
    · rw [List.getLast_cons (List.cons_ne_nil b s)]

theorem printf_line (l w c : Int32) (name : List Char) :
    Printf.printf "%d %d %d %s\n".toList
        [⟨l.toUInt32, []⟩, ⟨w.toUInt32, []⟩, ⟨c.toUInt32, []⟩, ⟨1, name⟩] =
      Printf.printint l 10 true ++ ' ' :: Printf.printint w 10 true ++ ' ' ::
        Printf.printint c 10 true ++ ' ' :: name ++ ['\n'] := by
  simp [Printf.printf, Printf.printfLoop, Printf.takes, Printf.conv, Printf.arg]

/-! ### The read loop -/

theorem read_nil (fails : Bool) (n : Nat) :
    read fails [] n = (if fails then -1 else 0, [], []) := rfl

theorem read_cons {c : List UInt8} (hc : c ≠ []) (fails : Bool) (cs : List (List UInt8)) :
    0 < (read fails (c :: cs) 512).1 ∧
      (read fails (c :: cs) 512).2.1 ++ stream (read fails (c :: cs) 512).2.2 = stream (c :: cs) ∧
      (Eof (read fails (c :: cs) 512).2.2 ↔ Eof (c :: cs)) ∧
      size (read fails (c :: cs) 512).2.2 < size (c :: cs) := by
  have hlen : 0 < c.length := List.length_pos_of_ne_nil hc
  have heof : Eof (c :: cs) ↔ Eof cs := by
    simp only [Eof, List.mem_cons]
    exact ⟨fun h => h.resolve_left (Ne.symm hc), Or.inr⟩
  simp only [read, Grep.readChunk, heof]
  split_ifs with hle
  · refine ⟨by exact_mod_cast hlen, by rw [stream, if_neg hc], Iff.rfl, ?_⟩
    simp only [size, List.map_cons, List.sum_cons]
    omega
  · have hdrop : c.drop 512 ≠ [] := by
      intro h
      have := List.length_drop (l := c) (i := 512)
      rw [h] at this
      simp at this
      omega
    refine ⟨by simp; omega, ?_, ?_, ?_⟩
    · rw [stream, if_neg hdrop, ← List.append_assoc, List.take_append_drop, stream, if_neg hc]
    · simp only [Eof, List.mem_cons]
      exact ⟨fun h => h.resolve_left (Ne.symm hdrop), Or.inr⟩
    · simp only [size, List.map_cons, List.sum_cons, List.length_drop]
      omega

theorem wcLoop_eq (fails : Bool) : ∀ (fuel : Nat) (st : Counts) (input : List (List UInt8)),
    size input < fuel →
      wcLoop fails fuel st input =
        ((stream input).foldl step st, if ¬ Eof input ∧ fails = true then -1 else 0)
  | 0, _, _, h => absurd h (Nat.not_lt_zero _)
  | fuel + 1, st, [], _ => by
    cases fails <;> simp [wcLoop, read_nil, stream, Eof]
  | fuel + 1, st, c :: cs, hsize => by
    by_cases hc : c = []
    · subst hc
      have heof : Eof ([] :: cs) := List.mem_cons_self
      simp [wcLoop, read, Grep.readChunk, stream, heof]
    obtain ⟨hpos, hstream, heof, hlt⟩ := read_cons hc fails cs
    rw [wcLoop, if_pos hpos, wcLoop_eq fails fuel _ _ (by omega), ← List.foldl_append, hstream]
    simp only [heof]

/-- What `wc` writes, however `read` cuts the stream: the newlines, words and bytes of the
stream in decimal and the name, or the read error when the chunks run out and `read` fails. The
stream is below `2^31` bytes, so no `int` counter wraps. -/
theorem wc_counts (fails : Bool) (input : List (List UInt8)) (name : List Char)
    (hlen : (stream input).length < 2 ^ 31) :
    wc fails input name =
      if ¬ Eof input ∧ fails = true then "wc: read error\n".toList
      else Nat.toDigits 10 (counts (stream input)).1 ++ ' ' ::
        Nat.toDigits 10 (counts (stream input)).2.1 ++ ' ' ::
        Nat.toDigits 10 (counts (stream input)).2.2 ++ ' ' :: name ++ ['\n'] := by
  have hloop := wcLoop_eq fails (size input + 1) Counts.init input (Nat.lt_succ_self _)
  have hfold := foldl_step (stream input) Counts.init 32 rfl
  have hw : ((32 :: stream input).zip (stream input)).countP Starts < 2 ^ 31 := by
    have := List.countP_le_length (p := Starts) (l := (32 :: stream input).zip (stream input))
    simp only [List.length_zip, List.length_cons] at this
    omega
  have hl : (stream input).count 10 < 2 ^ 31 := by
    have := List.count_le_length (a := (10 : UInt8)) (l := stream input)
    omega
  unfold wc
  rw [hloop]
  dsimp only
  by_cases herr : ¬ Eof input ∧ fails = true
  · rw [if_pos herr, if_pos herr, if_pos (by decide)]
  · rw [if_neg herr, if_neg herr, if_neg (by decide), hfold]
    simp only [Counts.init, Int32.zero_add]
    rw [printf_line, Printf.printint_ofNat hl, Printf.printint_ofNat hw, Printf.printint_ofNat hlen]
    rfl

theorem wc_counts_two_reads :
    (stream [[104, 105, 32], [10]]).length < 2 ^ 31 ∧
    wc false [[104, 105, 32], [10]] "f".toList =
      if ¬ Eof [[104, 105, 32], [10]] ∧ false = true then "wc: read error\n".toList
      else Nat.toDigits 10 (counts (stream [[104, 105, 32], [10]])).1 ++ ' ' ::
        Nat.toDigits 10 (counts (stream [[104, 105, 32], [10]])).2.1 ++ ' ' ::
        Nat.toDigits 10 (counts (stream [[104, 105, 32], [10]])).2.2 ++ ' ' :: "f".toList ++ ['\n'] :=
  ⟨by decide, wc_counts false _ _ (by decide)⟩

example : wc false [[104, 105, 32], [10]] "f".toList = "1 1 4 f\n".toList := by decide

end Wc

end Xv6
