import Xv6.Proc.Defs

set_option autoImplicit false

/-!
# `printint` in `console.c` and `printf.c`

Both `printint`s fill `buf` with the digits of an unsigned copy `x` of their argument, least
significant first, add a `'-'` for a negative argument printed as signed, and emit the buffer
backwards. The two differ only in their digit table, lowercase in the kernel and uppercase in
the user library, so both are `printDigits` at their own table.

What is emitted is the standard library's numeral `Nat.toDigits`, through the table: of `xx`
as a signed integer, after a `'-'`, when the sign flag is set and `xx` is negative, and of `xx`
read as unsigned otherwise (`printDigits_eq`). The negation `-xx` wraps only at `INT_MIN`,
whose unsigned copy is `2^31`, its absolute value (`uint_neg_eq_natAbs`). In bases 10 and 16
at most 16 characters are buffered (`printDigits_length_le`).
-/
namespace Xv6

def digitLoop (digits : List Char) (base : Nat) : Nat → Nat → List Char → List Char
  | 0, _, buf => buf
  | fuel + 1, x, buf =>
    let buf := buf ++ [digits.getD (x % base) ' ']
    if x / base ≠ 0 then digitLoop digits base fuel (x / base) buf else buf

def printDigits (digits : List Char) (xx : Int32) (base : Nat) (sign : Bool) : List Char :=
  let neg := sign && decide (xx < 0)
  let x := if neg then uint (-xx) else uint xx
  let buf := digitLoop digits base 32 x []
  (if neg then buf ++ ['-'] else buf).reverse

/-- static char digits[] = "0123456789abcdef"; of console.c -/
def consoleDigits : List Char := "0123456789abcdef".toList

/-- printint(xx, base, sign) of console.c: the characters it passes to consputc. -/
def printint (xx : Int32) (base : Nat) (sign : Bool) : List Char :=
  printDigits consoleDigits xx base sign

namespace Printf

/-- static char digits[] = "0123456789ABCDEF"; of printf.c -/
def digits : List Char := "0123456789ABCDEF".toList

/-- printint(fd, xx, base, sgn) of printf.c: the characters it writes to fd by putc. -/
def printint (xx : Int32) (base : Nat) (sgn : Bool) : List Char :=
  printDigits digits xx base sgn

end Printf

theorem consoleDigits_getD : ∀ d < 16, consoleDigits.getD d ' ' = id (Nat.digitChar d) := by
  decide

theorem printf_digits_getD : ∀ d < 16, Printf.digits.getD d ' ' = (Nat.digitChar d).toUpper := by
  decide

theorem uint_neg_eq_natAbs {xx : Int32} (h : xx < 0) : uint (-xx) = xx.toInt.natAbs := by
  have hneg := (int_neg_iff xx).mp h
  have hlt := uint_lt xx
  unfold WORD at hlt
  have hint : xx.toInt = (uint xx : Int) - (2 ^ 32 : Nat) := by
    rw [int_toInt_eq, if_neg (by omega)]
  rw [uint_neg, hint]
  unfold WORD
  omega

section Digits

variable {digits : List Char} {base : Nat} (f : Char → Char)

theorem digitLoop_of_lt (fuel : Nat) {x : Nat} (buf : List Char) (hx : x < base) :
    digitLoop digits base (fuel + 1) x buf = buf ++ [digits.getD x ' '] := by
  rw [digitLoop, Nat.mod_eq_of_lt hx, if_neg (by rw [Nat.div_eq_of_lt hx]; exact not_not.mpr rfl)]

theorem digitLoop_eq (hd : ∀ d < base, digits.getD d ' ' = f (Nat.digitChar d)) (hb : 1 < base)
    (fuel : Nat) : ∀ x buf, x < base ^ (fuel + 1) →
      digitLoop digits base (fuel + 1) x buf = buf ++ ((Nat.toDigits base x).map f).reverse := by
  induction fuel with
  | zero =>
    intro x buf hx
    rw [Nat.pow_one] at hx
    rw [digitLoop_of_lt 0 buf hx, Nat.toDigits_of_lt_base hx, hd x hx]
    rfl
  | succ fuel ih =>
    intro x buf hx
    by_cases hlt : x < base
    · rw [digitLoop_of_lt _ buf hlt, Nat.toDigits_of_lt_base hlt, hd x hlt]
      rfl
    · have hdiv : x / base < base ^ (fuel + 1) := by
        rw [Nat.div_lt_iff_lt_mul (by omega), ← Nat.pow_succ]
        exact hx
      have hne : x / base ≠ 0 := Nat.pos_iff_ne_zero.mp (Nat.div_pos (by omega) (by omega))
      rw [digitLoop, if_pos hne, ih (x / base) _ hdiv, Nat.toDigits_of_base_le (n := x) hb (by omega),
        hd (x % base) (Nat.mod_lt x (by omega))]
      simp only [List.map_append, List.map_cons, List.map_nil, List.reverse_append,
        List.reverse_cons, List.reverse_nil, List.nil_append, List.append_assoc,
        List.singleton_append]

theorem printDigits_eq (hd : ∀ d < 16, digits.getD d ' ' = f (Nat.digitChar d)) (hb : 1 < base)
    (hb16 : base ≤ 16) (xx : Int32) (sign : Bool) :
    printDigits digits xx base sign =
      if sign = true ∧ xx < 0 then '-' :: (Nat.toDigits base xx.toInt.natAbs).map f
      else (Nat.toDigits base (uint xx)).map f := by
  have hd' : ∀ d < base, digits.getD d ' ' = f (Nat.digitChar d) := fun d h => hd d (by omega)
  have hfuel : ∀ {x : Nat}, x < WORD → x < base ^ (31 + 1) := fun {x} hx =>
    Nat.lt_of_lt_of_le hx (Nat.pow_le_pow_left hb 32)
  unfold printDigits
  by_cases hneg : sign = true ∧ xx < 0
  · have hx : uint (-xx) = xx.toInt.natAbs := uint_neg_eq_natAbs hneg.2
    have hflag : (sign && decide (xx < 0)) = true := by simp [hneg.1, hneg.2]
    rw [if_pos hneg]
    simp only [hflag, if_true]
    rw [digitLoop_eq f hd' hb 31 _ _ (hfuel (hx ▸ uint_lt (-xx))), hx]
    simp
  · have hflag : (sign && decide (xx < 0)) = false := by
      cases sign <;> simp_all
    rw [if_neg hneg]
    simp only [hflag, Bool.false_eq_true, if_false]
    rw [digitLoop_eq f hd' hb 31 _ _ (hfuel (uint_lt xx))]
    simp

theorem printDigits_length_le (hd : ∀ d < 16, digits.getD d ' ' = f (Nat.digitChar d))
    (hb : 10 ≤ base) (hb16 : base ≤ 16) (xx : Int32) (sign : Bool) :
    (printDigits digits xx base sign).length ≤ 16 := by
  have hdigits : ∀ {x : Nat}, x < WORD → (Nat.toDigits base x).length ≤ 15 := fun {x} hx => by
    rw [Nat.length_toDigits_le_iff (by omega) (by omega)]
    have hpow : WORD ≤ base ^ 15 :=
      Nat.le_trans (by decide) (Nat.pow_le_pow_left hb 15)
    omega
  rw [printDigits_eq f hd (by omega) hb16]
  split
  · rename_i hneg
    rw [List.length_cons, List.length_map]
    have := hdigits (uint_neg_eq_natAbs hneg.2 ▸ uint_lt (-xx))
    omega
  · rw [List.length_map]
    have := hdigits (uint_lt xx)
    omega

end Digits

/-- The kernel's `printint` emits the lowercase numeral and the user library's the uppercase
one, of `xx` as signed after a `'-'` when the sign flag is set and `xx < 0`, and as unsigned
otherwise; in bases 10 and 16 neither buffers more than 16 characters. -/
theorem printint_numeral (xx : Int32) (base : Nat) (sign : Bool) (hb : base = 10 ∨ base = 16) :
    printint xx base sign =
        (if sign = true ∧ xx < 0 then '-' :: Nat.toDigits base xx.toInt.natAbs
        else Nat.toDigits base (uint xx)) ∧
      Printf.printint xx base sign =
        (if sign = true ∧ xx < 0 then '-' :: (Nat.toDigits base xx.toInt.natAbs).map Char.toUpper
        else (Nat.toDigits base (uint xx)).map Char.toUpper) ∧
      (printint xx base sign).length ≤ 16 ∧ (Printf.printint xx base sign).length ≤ 16 := by
  have h2 : 1 < base := by omega
  have h16 : base ≤ 16 := by omega
  have h10 : 10 ≤ base := by omega
  refine ⟨?_, printDigits_eq _ printf_digits_getD h2 h16 xx sign,
    printDigits_length_le _ consoleDigits_getD h10 h16 xx sign,
    printDigits_length_le _ printf_digits_getD h10 h16 xx sign⟩
  unfold printint
  rw [printDigits_eq id consoleDigits_getD h2 h16, List.map_id, List.map_id]

theorem printint_numeral_intMin :
    ((10 : Nat) = 10 ∨ (10 : Nat) = 16) ∧
      printint (-2147483648) 10 true = "-2147483648".toList ∧
      Printf.printint 255 16 false = "FF".toList := by
  refine ⟨Or.inl rfl, ?_, ?_⟩
  · rw [(printint_numeral (-2147483648) 10 true (Or.inl rfl)).1]
    decide
  · rw [(printint_numeral 255 16 false (Or.inr rfl)).2.1]
    decide

end Xv6
