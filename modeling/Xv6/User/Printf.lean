import Xv6.Print

set_option autoImplicit false

/-!
# `printf` of `printf.c`, and `atoi` of `ulib.c`

`printf(fd, fmt, ...)` runs over the characters of `fmt` with a `state` that is `'%'` right
after a `%`, taking the next word of its argument list `ap` for each `%d`, `%x`, `%p`, `%s` and
`%c`. A format is cut anywhere its loop is outside a `%`: the output over the two parts is the
output over the first, then over the second from the arguments the first left
(`printf_append`). `atoi` reads back what `%d` writes of a non-negative `int`
(`atoi_printf_d`).
-/
namespace Xv6

namespace Printf

/-- A word of `ap` and, for a `%s` that takes it, the characters of the string it points to
(up to its NUL). -/
structure Arg where
  word : UInt32
  str : List Char

def arg (args : List Arg) (i : Nat) : Arg := args.getD i ⟨0, []⟩

def takes (c : Char) : Bool := c = 'd' || c = 'x' || c = 'p' || c = 's' || c = 'c'

def conv (c : Char) (a : Arg) : List Char :=
  if c = 'd' then printint a.word.toInt32 10 true
  else if c = 'x' ∨ c = 'p' then printint a.word.toInt32 16 false
  else if c = 's' then if a.word = 0 then "(null)".toList else a.str
  else if c = 'c' then [Char.ofNat (a.word.toNat % 256)]
  else if c = '%' then ['%']
  -- an unknown `%` sequence is printed to draw attention
  else ['%', c]

/-- The loop `for(i = 0; fmt[i]; i++)` of `printf` from `state` (`true` for `'%'`) and the
`ap`th word: the characters it writes by `putc`. The characters of `fmt` are bytes, so
`c = fmt[i] & 0xff` is the character itself. -/
def printfLoop (args : List Arg) : List Char → Bool → Nat → List Char
  | [], _, _ => []
  | c :: fmt, false, ap =>
    if c = '%' then printfLoop args fmt true ap else c :: printfLoop args fmt false ap
  | c :: fmt, true, ap =>
    if takes c then conv c (arg args ap) ++ printfLoop args fmt false (ap + 1)
    else conv c (arg args ap) ++ printfLoop args fmt false ap

/-- `printf(fd, fmt, args...)`: what it writes to `fd`. -/
def printf (fmt : List Char) (args : List Arg) : List Char := printfLoop args fmt false 0

/-- The `state` after `fmt` from `state`. -/
def pending : List Char → Bool → Bool
  | [], st => st
  | c :: fmt, false => pending fmt (c = '%')
  | _ :: fmt, true => pending fmt false

def taken : List Char → Bool → Nat
  | [], _ => 0
  | c :: fmt, false => taken fmt (c = '%')
  | c :: fmt, true => (if takes c then 1 else 0) + taken fmt false

theorem arg_drop (args : List Arg) (k i : Nat) : arg (args.drop k) i = arg args (k + i) := by
  simp only [arg, List.getD_eq_getElem?_getD, List.getElem?_drop]

theorem printfLoop_drop (args : List Arg) (k : Nat) :
    ∀ (fmt : List Char) (st : Bool) (ap : Nat),
      printfLoop (args.drop k) fmt st ap = printfLoop args fmt st (k + ap)
  | [], _, _ => rfl
  | c :: fmt, false, ap => by
    simp only [printfLoop, printfLoop_drop args k fmt]
  | c :: fmt, true, ap => by
    simp only [printfLoop, printfLoop_drop args k fmt, arg_drop, Nat.add_assoc]

theorem printfLoop_append (args : List Arg) :
    ∀ (f g : List Char) (st : Bool) (ap : Nat),
      printfLoop args (f ++ g) st ap =
        printfLoop args f st ap ++ printfLoop args g (pending f st) (ap + taken f st)
  | [], g, st, ap => rfl
  | c :: f, g, false, ap => by
    by_cases hc : c = '%'
    · simp only [List.cons_append, printfLoop, pending, taken, if_pos hc, decide_eq_true hc,
        printfLoop_append args f g true ap]
    · simp only [List.cons_append, printfLoop, pending, taken, if_neg hc, decide_eq_false hc,
        printfLoop_append args f g false ap, List.cons_append]
  | c :: f, g, true, ap => by
    cases ht : takes c
    · simp only [List.cons_append, printfLoop, pending, taken, ht, Bool.false_eq_true, if_false,
        Nat.zero_add, printfLoop_append args f g false ap, List.append_assoc]
    · simp only [List.cons_append, printfLoop, pending, taken, ht, if_true,
        printfLoop_append args f g false (ap + 1), List.append_assoc, Nat.add_assoc,
        Nat.add_comm 1]

/-- A format cut where its loop is outside a `%`: `printf` of the whole writes what it writes of
the first part, then of the second with the arguments the first did not take. -/
theorem printf_append (f g : List Char) (args : List Arg) (hf : pending f false = false) :
    printf (f ++ g) args = printf f args ++ printf g (args.drop (taken f false)) := by
  rw [printf, printfLoop_append, hf, printf, printf, printfLoop_drop, Nat.zero_add, Nat.add_zero]

theorem printf_append_d :
    pending "%d".toList false = false ∧
    printf ("%d".toList ++ ": %s".toList) [⟨5, []⟩, ⟨1, "ok".toList⟩] =
      printf "%d".toList [⟨5, []⟩, ⟨1, "ok".toList⟩] ++
        printf ": %s".toList ([⟨5, []⟩, ⟨1, "ok".toList⟩].drop (taken "%d".toList false)) :=
  ⟨rfl, printf_append _ _ _ rfl⟩

example : printf "%d%%%q %x%".toList [⟨(-7 : Int32).toUInt32, []⟩, ⟨255, []⟩] =
    "-7%%q FF".toList := by decide

end Printf

namespace Ulib

def atoiLoop (n : Int32) : List Char → Int32
  | [] => n
  | c :: s => if '0' ≤ c ∧ c ≤ '9' then atoiLoop (n * 10 + Int32.ofNat c.toNat - 48) s else n

def atoi (s : List Char) : Int32 := atoiLoop 0 s

theorem atoiLoop_append {ds : List Char} (hds : ∀ c ∈ ds, '0' ≤ c ∧ c ≤ '9') (n : Int32)
    (rest : List Char) : atoiLoop n (ds ++ rest) = atoiLoop (atoiLoop n ds) rest := by
  induction ds generalizing n with
  | nil => rfl
  | cons c ds ih =>
    have hc : '0' ≤ c ∧ c ≤ '9' := hds c List.mem_cons_self
    rw [List.cons_append, atoiLoop, atoiLoop, if_pos hc, if_pos hc]
    exact ih (fun d hd => hds d (List.mem_cons_of_mem _ hd)) _

theorem atoiLoop_stop {rest : List Char} (hr : ∀ c ∈ rest.head?, ¬ ('0' ≤ c ∧ c ≤ '9')) (n : Int32) :
    atoiLoop n rest = n := by
  cases rest with
  | nil => rfl
  | cons c rest =>
    have hc : ¬ ('0' ≤ c ∧ c ≤ '9') := hr c rfl
    rw [atoiLoop, if_neg hc]

theorem digitChar_isDigit : ∀ d < 10, '0' ≤ Nat.digitChar d ∧ Nat.digitChar d ≤ '9' := by
  decide

theorem digitChar_toNat : ∀ d < 10, (Nat.digitChar d).toNat = 48 + d := by decide

theorem digitChar_toUpper : ∀ d < 10, (Nat.digitChar d).toUpper = Nat.digitChar d := by decide

theorem toDigits_ten (k : Nat) (hk : 10 ≤ k) :
    Nat.toDigits 10 k = Nat.toDigits 10 (k / 10) ++ [Nat.digitChar (k % 10)] := by
  rw [← Nat.toDigits_of_lt_base (Nat.mod_lt k (by decide)),
    Nat.toDigits_append_toDigits (by decide) (Nat.div_pos hk (by decide))
      (Nat.mod_lt k (by decide)), Nat.div_add_mod]

theorem atoiLoop_toDigits (k : Nat) :
    (∀ c ∈ Nat.toDigits 10 k, ('0' ≤ c ∧ c ≤ '9') ∧ c.toUpper = c) ∧
      atoiLoop 0 (Nat.toDigits 10 k) = Int32.ofNat k := by
  induction k using Nat.strong_induction_on with
  | _ k ih =>
    by_cases hk : k < 10
    · rw [Nat.toDigits_of_lt_base hk]
      refine ⟨fun c hc => ?_, ?_⟩
      · rw [List.mem_singleton.mp hc]
        exact ⟨digitChar_isDigit k hk, digitChar_toUpper k hk⟩
      · have hc := digitChar_isDigit k hk
        rw [atoiLoop, if_pos hc, atoiLoop, digitChar_toNat k hk, Int32.ofNat_add]
        grind
    · have hd := Nat.mod_lt k (show 0 < 10 by decide)
      obtain ⟨hdigits, hval⟩ := ih (k / 10) (Nat.div_lt_self (by omega) (by decide))
      rw [toDigits_ten k (by omega)]
      refine ⟨fun c hc => ?_, ?_⟩
      · rcases List.mem_append.mp hc with hc | hc
        · exact hdigits c hc
        · rw [List.mem_singleton.mp hc]
          exact ⟨digitChar_isDigit _ hd, digitChar_toUpper _ hd⟩
      · have hc := digitChar_isDigit _ hd
        rw [atoiLoop_append (fun c hc => (hdigits c hc).1), hval, atoiLoop, if_pos hc, atoiLoop,
          digitChar_toNat _ hd]
        have hk' : Int32.ofNat k = Int32.ofNat (k / 10) * Int32.ofNat 10 + Int32.ofNat (k % 10) := by
          rw [← Int32.ofNat_mul, ← Int32.ofNat_add, Nat.div_add_mod']
        rw [hk', Int32.ofNat_add 48]
        grind

theorem ofNat_uint (v : Int32) : Int32.ofNat (uint v) = v := by
  apply uint_inj
  unfold uint
  simp

/-- `atoi` reads back what `%d` writes of a non-negative `int`, whatever follows the numeral if
it starts with no digit; of a negative one it reads `0`, stopping at the `'-'`. -/
theorem atoi_printf_d (v : Int32) {rest : List Char} (hr : ∀ c ∈ rest.head?, ¬ ('0' ≤ c ∧ c ≤ '9')) :
    atoi (Printf.printf "%d".toList [⟨v.toUInt32, []⟩] ++ rest) = if 0 ≤ v then v else 0 := by
  have hout : Printf.printf "%d".toList [⟨v.toUInt32, []⟩] = Printf.printint v 10 true := by
    simp [Printf.printf, Printf.printfLoop, Printf.takes, Printf.conv, Printf.arg]
  rw [hout, Printf.printint, printDigits_eq Char.toUpper printf_digits_getD (by decide) (by decide)]
  by_cases hv : 0 ≤ v
  · have hneg : ¬ (true = true ∧ v < 0) := fun h => absurd h.2 (Int32.not_lt.mpr hv)
    obtain ⟨hdigits, hval⟩ := atoiLoop_toDigits (uint v)
    have hmap : (Nat.toDigits 10 (uint v)).map Char.toUpper = Nat.toDigits 10 (uint v) :=
      (List.map_congr_left (g := id) fun c hc => (hdigits c hc).2).trans (List.map_id _)
    rw [if_pos hv, if_neg hneg, hmap, atoi, atoiLoop_append (fun c hc => (hdigits c hc).1), hval,
      atoiLoop_stop hr, ofNat_uint]
  · have hneg : true = true ∧ v < 0 := ⟨rfl, Int32.not_le.mp hv⟩
    have hdash : ¬ ('0' ≤ '-' ∧ '-' ≤ '9') := by decide
    rw [if_neg hv, if_pos hneg, List.cons_append, atoi, atoiLoop, if_neg hdash]

theorem atoi_printf_d_newline :
    (∀ c ∈ ['\n'].head?, ¬ ('0' ≤ c ∧ c ≤ '9')) ∧
      atoi (Printf.printf "%d".toList [⟨(42 : Int32).toUInt32, []⟩] ++ ['\n']) =
        if 0 ≤ (42 : Int32) then 42 else 0 :=
  have hnl : ∀ c ∈ ['\n'].head?, ¬ ('0' ≤ c ∧ c ≤ '9') := fun c hc => by
    rw [List.head?_cons, Option.mem_some_iff] at hc
    subst hc
    decide
  ⟨hnl, atoi_printf_d 42 hnl⟩

end Ulib

namespace Printf

theorem uint_ofNat_of_lt {k : Nat} (hk : k < 2 ^ 32) : uint (Int32.ofNat k) = k := by
  unfold uint
  simp
  omega

theorem printint_ofNat {k : Nat} (hk : k < 2 ^ 31) :
    printint (Int32.ofNat k) 10 true = Nat.toDigits 10 k := by
  have hu := uint_ofNat_of_lt (show k < 2 ^ 32 by omega)
  have hpos : ¬ (true = true ∧ Int32.ofNat k < 0) := fun h => by
    have := (int_neg_iff _).mp h.2
    omega
  rw [printint, printDigits_eq Char.toUpper printf_digits_getD (by decide) (by decide), if_neg hpos,
    hu]
  exact (List.map_congr_left (g := id) fun c hc => ((Ulib.atoiLoop_toDigits k).1 c hc).2).trans
    (List.map_id _)

end Printf

end Xv6
