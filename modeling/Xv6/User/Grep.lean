import Mathlib.Computability.Language
import Xv6.User.Ulib

set_option autoImplicit false

/-!
# The matcher of `grep.c`

A C string is the list of its bytes before the terminating `0`: `re[1] == '\0'` is a pattern
of one byte, `*text == '\0'` an empty text. `matchhere` recurses on the pattern, and
`matchstar` runs its loop on the text with `matchhere` at the rest of the pattern, so all three
functions are structural recursions and terminate on every input.

What the matcher is for is a language. `parse` reads a pattern into atoms the way `matchhere`
reads it: `x*` for a byte followed by `*` (including `$*` and `.*`), a `$` that ends the pattern,
and any other byte standing for itself, `.` for any byte. The atoms denote a product of Mathlib
`Language`s, `x*` the Kleene star of the one-byte language of `x`. `matchhere re t` holds exactly
when a prefix of `t` is in that language, all of `t` when `re` ends in `$`
(`matchhere_iff_mem_hereLang`), and `match` tries `matchhere` at every suffix of the text, or
at the text alone after a leading `^` (`matchhere_match_lang`).
-/
namespace Xv6

namespace Grep

open Computability

def starLoop (mh : List UInt8 → Bool) (c : UInt8) : List UInt8 → Bool
  | [] => mh []
  | t :: ts => mh (t :: ts) || ((t = c || c = '.'.toUInt8) && starLoop mh c ts)

/-- `matchhere(re, text)`: search for `re` at the beginning of `text`. A pattern of one byte
has no `*` after it (`re[1]` is the terminator); a longer one has no `$` test, which needs
`re[1] == '\0'`. -/
def matchhere : List UInt8 → List UInt8 → Bool
  | [], _ => true
  | [c], text =>
    if c = '$'.toUInt8 then text.isEmpty
    else match text with
      | t :: ts => (c = '.'.toUInt8 || c = t) && matchhere [] ts
      | [] => false
  | c :: s :: re, text =>
    if s = '*'.toUInt8 then starLoop (fun t => matchhere re t) c text
    else match text with
      | t :: ts => (c = '.'.toUInt8 || c = t) && matchhere (s :: re) ts
      | [] => false

/-- `matchstar(c, re, text)`: search for `c*re` at the beginning of `text`. -/
def matchstar (c : UInt8) (re text : List UInt8) : Bool :=
  starLoop (matchhere re) c text

def matchLoop (re : List UInt8) : List UInt8 → Bool
  | [] => matchhere re []
  | t :: ts => matchhere re (t :: ts) || matchLoop re ts

/-- `match(re, text)`: search for `re` anywhere in `text`. -/
def «match» (re text : List UInt8) : Bool :=
  if re.head? = some '^'.toUInt8 then matchhere re.tail text else matchLoop re text

theorem matchhere_star (c : UInt8) (re text : List UInt8) :
    matchhere (c :: '*'.toUInt8 :: re) text = matchstar c re text := by
  rw [matchhere.eq_def]
  rfl

example : matchhere [97, 42, 98] [97, 97, 98, 99] = true := by decide
example : «match» [94, 98] [97, 98] = false := by decide

/-! ## The language of a pattern -/

/-- The texts of one byte that a pattern byte `c` stands for: `.` stands for any byte. -/
def charLang (c : UInt8) : Language UInt8 := {w | ∃ y, w = [y] ∧ (c = '.'.toUInt8 ∨ y = c)}

/-- An atom of a pattern: a byte standing for itself (or `.` for any byte), or a starred one. -/
inductive Atom where
  | one (c : UInt8)
  | star (c : UInt8)
  deriving DecidableEq, Repr

def Atom.lang : Atom → Language UInt8
  | .one c => charLang c
  | .star c => (charLang c)∗

def parse : List UInt8 → List Atom × Bool
  | [] => ([], false)
  | [c] => if c = '$'.toUInt8 then ([], true) else ([.one c], false)
  | c :: s :: re =>
    if s = '*'.toUInt8 then (.star c :: (parse re).1, (parse re).2)
    else (.one c :: (parse (s :: re)).1, (parse (s :: re)).2)

/-- The language of the atoms of a pattern: their concatenation. -/
def atomsLang (re : List UInt8) : Language UInt8 := ((parse re).1.map Atom.lang).prod

/-- The texts `matchhere` accepts for a pattern: a word of the atoms' language, followed by any
text unless the pattern ends in `$`. -/
def hereLang (re : List UInt8) : Language UInt8 :=
  if (parse re).2 then atomsLang re else atomsLang re * ⊤

theorem mem_hereLang_iff (re t : List UInt8) : t ∈ hereLang re ↔
    ∃ u v, t = u ++ v ∧ u ∈ atomsLang re ∧ ((parse re).2 = true → v = []) := by
  unfold hereLang
  by_cases he : (parse re).2 = true
  · rw [if_pos he]
    constructor
    · intro h
      exact ⟨t, [], (List.append_nil t).symm, h, fun _ => rfl⟩
    · rintro ⟨u, v, rfl, hu, hv⟩
      rw [hv he, List.append_nil]
      exact hu
  · rw [if_neg he, Language.mem_mul]
    constructor
    · rintro ⟨u, hu, v, _, rfl⟩
      exact ⟨u, v, rfl, hu, fun h => absurd h he⟩
    · rintro ⟨u, v, rfl, hu, _⟩
      exact ⟨u, hu, v, trivial, rfl⟩

theorem hereLang_cons {re : List UInt8} (re' : List UInt8) (a : Atom)
    (hp : parse re = (a :: (parse re').1, (parse re').2)) :
    hereLang re = a.lang * hereLang re' := by
  unfold hereLang atomsLang
  rw [hp]
  simp only [List.map_cons, List.prod_cons]
  split
  · rfl
  · rw [mul_assoc]

theorem hereLang_nil : hereLang [] = ⊤ := by
  unfold hereLang atomsLang parse
  simp only [Bool.false_eq_true, if_false, List.map_nil, List.prod_nil, one_mul]

theorem hereLang_dollar : hereLang ['$'.toUInt8] = 1 := by
  unfold hereLang atomsLang parse
  simp only [if_true, List.map_nil, List.prod_nil]

theorem hereLang_single {c : UInt8} (hc : c ≠ '$'.toUInt8) : hereLang [c] = charLang c * ⊤ := by
  rw [hereLang_cons [] (.one c) (by simp [parse, hc]), hereLang_nil]
  rfl

theorem hereLang_star (c : UInt8) (re : List UInt8) :
    hereLang (c :: '*'.toUInt8 :: re) = (charLang c)∗ * hereLang re :=
  hereLang_cons re (.star c) (by simp [parse])

theorem hereLang_one (c : UInt8) {s : UInt8} (hs : s ≠ '*'.toUInt8) (re : List UInt8) :
    hereLang (c :: s :: re) = charLang c * hereLang (s :: re) :=
  hereLang_cons (s :: re) (.one c) (by simp [parse, hs])

/-! Membership, one lemma per way a text can start. -/

theorem mem_charLang_mul (c : UInt8) (L : Language UInt8) (t : List UInt8) :
    t ∈ charLang c * L ↔ ∃ y ys, t = y :: ys ∧ (c = '.'.toUInt8 ∨ y = c) ∧ ys ∈ L := by
  rw [Language.mem_mul]
  constructor
  · rintro ⟨u, ⟨y, rfl, hy⟩, ys, hys, rfl⟩
    exact ⟨y, ys, rfl, hy, hys⟩
  · rintro ⟨y, ys, rfl, hy, hys⟩
    exact ⟨[y], ⟨y, rfl, hy⟩, ys, hys, rfl⟩

theorem mem_charLang_mul_nil (c : UInt8) (L : Language UInt8) : [] ∉ charLang c * L := by
  rw [mem_charLang_mul]
  rintro ⟨y, ys, h, _⟩
  cases h

theorem mem_charLang_mul_cons (c y : UInt8) (L : Language UInt8) (ys : List UInt8) :
    y :: ys ∈ charLang c * L ↔ (c = '.'.toUInt8 ∨ c = y) ∧ ys ∈ L := by
  rw [mem_charLang_mul]
  constructor
  · rintro ⟨y', ys', h, hy, hys⟩
    obtain ⟨rfl, rfl⟩ := List.cons_eq_cons.mp h
    exact ⟨hy.imp_right Eq.symm, hys⟩
  · rintro ⟨hy, hys⟩
    exact ⟨y, ys, rfl, hy.imp_right Eq.symm, hys⟩

theorem mem_kstar_mul (c : UInt8) (L : Language UInt8) (t : List UInt8) :
    t ∈ (charLang c)∗ * L ↔
      t ∈ L ∨ ∃ y ys, t = y :: ys ∧ (c = '.'.toUInt8 ∨ y = c) ∧ ys ∈ (charLang c)∗ * L := by
  have hunroll : (charLang c)∗ * L = L + charLang c * ((charLang c)∗ * L) := by
    conv_lhs => rw [← Language.one_add_self_mul_kstar_eq_kstar]
    rw [add_mul, one_mul, mul_assoc]
  calc t ∈ (charLang c)∗ * L ↔ t ∈ L + charLang c * ((charLang c)∗ * L) := by rw [← hunroll]
    _ ↔ _ := by rw [Language.mem_add, mem_charLang_mul]

/-! ## The matcher accepts the language -/

theorem starLoop_iff {mh : List UInt8 → Bool} {L : Language UInt8}
    (hmh : ∀ w, mh w = true ↔ w ∈ L) (c : UInt8) (t : List UInt8) :
    starLoop mh c t = true ↔ t ∈ (charLang c)∗ * L := by
  induction t with
  | nil =>
    rw [starLoop, hmh, mem_kstar_mul]
    constructor
    · exact Or.inl
    · rintro (h | ⟨y, ys, h, _⟩)
      · exact h
      · cases h
  | cons y ys ih =>
    rw [starLoop, Bool.or_eq_true, hmh, Bool.and_eq_true, mem_kstar_mul c L (y :: ys), ih]
    constructor
    · rintro (h | ⟨hy, hys⟩)
      · exact Or.inl h
      · refine Or.inr ⟨y, ys, rfl, ?_, hys⟩
        rw [Bool.or_eq_true, decide_eq_true_iff, decide_eq_true_iff] at hy
        exact hy.symm
    · rintro (h | ⟨y', ys', h, hy, hys⟩)
      · exact Or.inl h
      · obtain ⟨rfl, rfl⟩ := List.cons_eq_cons.mp h
        refine Or.inr ⟨?_, hys⟩
        rw [Bool.or_eq_true, decide_eq_true_iff, decide_eq_true_iff]
        exact hy.symm

theorem matchhere_iff_mem_hereLang (re t : List UInt8) : matchhere re t = true ↔ t ∈ hereLang re := by
  induction re, t using matchhere.induct with
  | case1 t =>
    rw [matchhere, hereLang_nil]
    exact iff_of_true rfl trivial
  | case2 t =>
    rw [matchhere.eq_def]
    dsimp only
    rw [if_pos rfl, hereLang_dollar, Language.mem_one, List.isEmpty_iff]
  | case3 c hc y ys ih =>
    rw [matchhere, if_neg hc, hereLang_single hc, mem_charLang_mul_cons, Bool.and_eq_true,
      Bool.or_eq_true, decide_eq_true_iff, decide_eq_true_iff, ih, hereLang_nil]
  | case4 c hc =>
    rw [matchhere, if_neg hc, hereLang_single hc]
    exact iff_of_false Bool.false_ne_true (mem_charLang_mul_nil c ⊤)
  | case5 c re t ih =>
    rw [matchhere_star, hereLang_star]
    exact starLoop_iff ih c t
  | case6 c s re hs y ys ih =>
    rw [matchhere.eq_def]
    dsimp only
    rw [if_neg hs, hereLang_one c hs, mem_charLang_mul_cons, Bool.and_eq_true, Bool.or_eq_true,
      decide_eq_true_iff, decide_eq_true_iff, ih]
  | case7 c s re hs =>
    rw [matchhere.eq_def]
    dsimp only
    rw [if_neg hs, hereLang_one c hs]
    exact iff_of_false Bool.false_ne_true (mem_charLang_mul_nil c _)

theorem matchLoop_iff (re t : List UInt8) :
    matchLoop re t = true ↔ ∃ i ≤ t.length, matchhere re (t.drop i) = true := by
  induction t with
  | nil =>
    rw [matchLoop]
    constructor
    · intro h
      exact ⟨0, Nat.le_refl 0, h⟩
    · rintro ⟨i, _, h⟩
      rwa [List.drop_nil] at h
  | cons y ys ih =>
    rw [matchLoop, Bool.or_eq_true, ih]
    constructor
    · rintro (h | ⟨i, hi, h⟩)
      · exact ⟨0, Nat.zero_le _, h⟩
      · exact ⟨i + 1, by rw [List.length_cons]; omega, h⟩
    · rintro ⟨i, hi, h⟩
      cases i with
      | zero => exact Or.inl h
      | succ i => exact Or.inr ⟨i, by rw [List.length_cons] at hi; omega, h⟩

/-- `grep`'s matcher implements its language: `matchhere re t` holds exactly when a prefix of
`t`, all of `t` if `re` ends in `$`, is in the language of the atoms of `re`; `match re t` when
such a prefix starts at position `0` after a leading `^`, and at some position `0..|t|`
otherwise. -/
theorem matchhere_match_lang (re t : List UInt8) :
    (matchhere re t = true ↔
      ∃ u v, t = u ++ v ∧ u ∈ atomsLang re ∧ ((parse re).2 = true → v = [])) ∧
    («match» re t = true ↔
      if re.head? = some '^'.toUInt8 then
        ∃ u v, t = u ++ v ∧ u ∈ atomsLang re.tail ∧ ((parse re.tail).2 = true → v = [])
      else ∃ i ≤ t.length, ∃ u v, t.drop i = u ++ v ∧ u ∈ atomsLang re ∧
        ((parse re).2 = true → v = [])) := by
  have hhere : ∀ re t, matchhere re t = true ↔
      ∃ u v, t = u ++ v ∧ u ∈ atomsLang re ∧ ((parse re).2 = true → v = []) := fun re t =>
    (matchhere_iff_mem_hereLang re t).trans (mem_hereLang_iff re t)
  refine ⟨hhere re t, ?_⟩
  unfold «match»
  split
  · exact hhere re.tail t
  · rw [matchLoop_iff]
    simp only [hhere]

end Grep

end Xv6
