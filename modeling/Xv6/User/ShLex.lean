import Mathlib.Data.List.Infix
import Mathlib.Tactic.Tauto

set_option autoImplicit false

/-!
# The shell's tokenizer: `gettoken` and `peek` in `sh.c`

A pointer into the command line is the rest of the line from it, so `*s` is its head, the
terminator `0` past the end, and `s < es` says that it is not empty. `gettoken` skips whitespace,
reads one token and skips the whitespace after it. The token's code is the symbol itself, `'+'`
for `>>`, `'a'` for a word and `0` at the end of the line, and `q` and `eq` point at its first
character and just past its last.

`tokens` runs `gettoken` to the end of the line: it is the token sequence the shell's grammar is
over. On a line without `NUL` bytes, `peek` answers from the first of these tokens
(`peek_eq`), `gettoken` takes it off (`gettoken_of_tokens_cons`), and a word token is a run of
characters that are neither whitespace nor symbols, followed by whitespace, a symbol or the end
(`word_spec`).
-/
namespace Xv6.Sh

def whitespace : List Char := [' ', '\t', '\r', '\n', '\x0b']

def symbols : List Char := ['<', '|', '>', '&', ';', '(', ')']

/-- `strchr(str, c) != 0`: `c` is a character of `str`, or the terminator, which `strchr` also
finds. -/
def strchr (str : List Char) (c : Char) : Bool := decide (c = '\x00' ∨ c ∈ str)

def deref (s : List Char) : Char := s.headD '\x00'

def skipWs : List Char → List Char
  | [] => []
  | c :: s => if strchr whitespace c then skipWs s else c :: s

def skipWord : List Char → List Char
  | [] => []
  | c :: s => if !strchr whitespace c && !strchr symbols c then skipWord s else c :: s

/-- A token: its code `ret`, and `*q` and `*eq`. -/
structure Tok where
  ret : Char
  q : List Char
  eq : List Char
  deriving DecidableEq

def scan (s : List Char) : Char × List Char :=
  let c := deref s
  if c = '\x00' then (c, s)
  else if c = '|' ∨ c = '(' ∨ c = ')' ∨ c = ';' ∨ c = '&' ∨ c = '<' then (c, s.tail)
  else if c = '>' then
    if deref s.tail = '>' then ('+', s.tail.tail) else (c, s.tail)
  else ('a', skipWord s)

/-- `gettoken(ps, es, &q, &eq)`: the token and the new `*ps`. -/
def gettoken (ps : List Char) : Tok × List Char :=
  let s := skipWs ps
  (⟨(scan s).1, s, (scan s).2⟩, skipWs (scan s).2)

/-- `peek(ps, es, toks)`: the new `*ps`, and whether the next character is one of `toks`. -/
def peek (ps : List Char) (toks : List Char) : List Char × Bool :=
  let s := skipWs ps
  (s, decide (deref s ≠ '\x00') && strchr toks (deref s))

def NulFree (s : List Char) : Prop := '\x00' ∉ s

instance (s : List Char) : Decidable (NulFree s) := inferInstanceAs (Decidable (_ ∉ _))

def leadOf (r : Char) : Char := if r = '+' then '>' else r

/-! ### Skipping -/

theorem skipWs_suffix : ∀ s : List Char, skipWs s <:+ s
  | [] => List.suffix_refl _
  | c :: s => by
    rw [skipWs]
    split
    · exact (skipWs_suffix s).trans (List.suffix_cons c s)
    · exact List.suffix_refl _

theorem skipWord_suffix : ∀ s : List Char, skipWord s <:+ s
  | [] => List.suffix_refl _
  | c :: s => by
    rw [skipWord]
    split
    · exact (skipWord_suffix s).trans (List.suffix_cons c s)
    · exact List.suffix_refl _

theorem skipWs_cons {s t : List Char} {c : Char} (h : skipWs s = c :: t) :
    strchr whitespace c = false := by
  induction s with
  | nil => cases h
  | cons d s ih =>
    rw [skipWs] at h
    split at h
    · exact ih h
    · rename_i hd
      cases h
      simpa using hd

theorem skipWs_skipWs (s : List Char) : skipWs (skipWs s) = skipWs s := by
  cases h : skipWs s with
  | nil => rfl
  | cons c t => rw [skipWs, if_neg (by rw [skipWs_cons h]; decide)]

theorem NulFree.of_suffix {s t : List Char} (hn : NulFree s) (h : t <:+ s) : NulFree t :=
  fun ht => hn (h.subset ht)

theorem NulFree.skipWs {s : List Char} (hn : NulFree s) : NulFree (skipWs s) :=
  hn.of_suffix (skipWs_suffix s)

theorem skipWord_length_lt {c : Char} {s : List Char} (hw : strchr whitespace c = false)
    (hs : strchr symbols c = false) : (skipWord (c :: s)).length < (c :: s).length := by
  rw [skipWord, if_pos (by simp [hw, hs])]
  exact Nat.lt_of_le_of_lt (skipWord_suffix s).length_le (Nat.lt_succ_self _)

/-! ### One token -/

theorem scan_suffix (s : List Char) : (scan s).2 <:+ s := by
  unfold scan
  dsimp only
  split
  · exact List.suffix_refl _
  split
  · exact List.tail_suffix s
  split
  · split
    · exact (List.tail_suffix _).trans (List.tail_suffix s)
    · exact List.tail_suffix s
  · exact skipWord_suffix s

theorem scan_length_lt {s : List Char} (hc : deref s ≠ '\x00')
    (hw : strchr whitespace (deref s) = false) : (scan s).2.length < s.length := by
  cases s with
  | nil => exact absurd rfl hc
  | cons c t =>
    have hd : deref (c :: t) = c := rfl
    rw [hd] at hc hw
    unfold scan
    dsimp only
    rw [hd, if_neg hc]
    split
    · simp
    split
    · split
      · exact Nat.lt_of_le_of_lt (List.tail_suffix t).length_le (by simp)
      · simp
    · rename_i hsym hgt
      have hs : strchr symbols c = false := by
        rw [strchr, decide_eq_false_iff_not]
        simp only [symbols, List.mem_cons, List.not_mem_nil, or_false]
        tauto
      exact skipWord_length_lt hw hs

theorem scan_lead {c : Char} {t : List Char} (hc : c ≠ '\x00') :
    ((scan (c :: t)).1 ≠ 'a' ∧ leadOf (scan (c :: t)).1 = c) ∨
      ((scan (c :: t)).1 = 'a' ∧ strchr symbols c = false) := by
  have hd : deref (c :: t) = c := rfl
  unfold scan
  dsimp only
  rw [hd, if_neg hc]
  split
  · rename_i hsym
    refine .inl ⟨?_, ?_⟩ <;> rcases hsym with rfl | rfl | rfl | rfl | rfl | rfl <;>
      (dsimp only; decide)
  split
  · rename_i hgt
    subst hgt
    split <;> exact .inl ⟨by dsimp only; decide, by dsimp only; decide⟩
  · rename_i hsym hgt
    refine .inr ⟨rfl, ?_⟩
    rw [strchr, decide_eq_false_iff_not]
    simp only [symbols, List.mem_cons, List.not_mem_nil, or_false]
    tauto

theorem scan_fst_eq_zero {s : List Char} : (scan s).1 = '\x00' ↔ deref s = '\x00' := by
  cases s with
  | nil => exact ⟨fun _ => rfl, fun _ => rfl⟩
  | cons c t =>
    have hd : deref (c :: t) = c := rfl
    rw [hd]
    by_cases hc : c = '\x00'
    · subst hc
      exact ⟨fun _ => rfl, fun _ => rfl⟩
    · refine ⟨fun h => ?_, fun h => absurd h hc⟩
      rcases scan_lead (t := t) hc with ⟨-, hl⟩ | ⟨ha, -⟩
      · rw [h] at hl
        exact absurd hl.symm hc
      · rw [h] at ha
        cases ha

theorem gettoken_suffix (ps : List Char) : (gettoken ps).2 <:+ ps :=
  ((skipWs_suffix _).trans (scan_suffix _)).trans (skipWs_suffix ps)

theorem gettoken_skipWs (ps : List Char) : gettoken (skipWs ps) = gettoken ps := by
  unfold gettoken
  rw [skipWs_skipWs]

theorem gettoken_length_lt {ps : List Char} (h : (gettoken ps).1.ret ≠ '\x00') :
    (gettoken ps).2.length < ps.length := by
  have hc : deref (skipWs ps) ≠ '\x00' := fun he => h (scan_fst_eq_zero.mpr he)
  have hw : strchr whitespace (deref (skipWs ps)) = false := by
    cases hs : skipWs ps with
    | nil => rw [hs] at hc; exact absurd rfl hc
    | cons c t => exact skipWs_cons hs
  calc (gettoken ps).2.length ≤ (scan (skipWs ps)).2.length := (skipWs_suffix _).length_le
    _ < (skipWs ps).length := scan_length_lt hc hw
    _ ≤ ps.length := (skipWs_suffix ps).length_le

theorem gettoken_ret_eq_zero {ps : List Char} (hn : NulFree ps) :
    (gettoken ps).1.ret = '\x00' ↔ skipWs ps = [] := by
  show (scan (skipWs ps)).1 = '\x00' ↔ _
  rw [scan_fst_eq_zero]
  cases hs : skipWs ps with
  | nil => exact ⟨fun _ => rfl, fun _ => rfl⟩
  | cons c t =>
    have hc : c ≠ '\x00' := fun he => hn.skipWs (by rw [hs, he]; exact List.mem_cons_self)
    exact ⟨fun h => absurd h hc, fun h => by cases h⟩

/-! ### The token sequence -/

/-- The tokens of the line from `ps` on, as `gettoken` reads them up to the end. -/
def tokens (ps : List Char) : List Tok :=
  if _h : (gettoken ps).1.ret = '\x00' then []
  else (gettoken ps).1 :: tokens (gettoken ps).2
termination_by ps.length
decreasing_by exact gettoken_length_lt _h

theorem tokens_eq (ps : List Char) :
    tokens ps = if (gettoken ps).1.ret = '\x00' then [] else (gettoken ps).1 :: tokens (gettoken ps).2 := by
  rw [tokens]
  exact dite_eq_ite

@[simp] theorem tokens_nil : tokens [] = [] := by
  have h : (gettoken []).1.ret = '\x00' := rfl
  rw [tokens_eq, if_pos h]

theorem tokens_skipWs (ps : List Char) : tokens (skipWs ps) = tokens ps := by
  rw [tokens_eq, tokens_eq ps, gettoken_skipWs]

theorem gettoken_of_tokens_cons {ps : List Char} {t : Tok} {rest : List Tok}
    (h : tokens ps = t :: rest) : (gettoken ps).1 = t ∧ tokens (gettoken ps).2 = rest := by
  rw [tokens_eq] at h
  split at h
  · cases h
  · cases h
    exact ⟨rfl, rfl⟩

theorem tokens_eq_nil_iff {ps : List Char} (hn : NulFree ps) : tokens ps = [] ↔ skipWs ps = [] := by
  rw [tokens_eq, ← gettoken_ret_eq_zero hn]
  by_cases h : (gettoken ps).1.ret = '\x00'
  · rw [if_pos h]
    exact ⟨fun _ => h, fun _ => rfl⟩
  · rw [if_neg h]
    exact ⟨fun he => (by cases he), fun he => absurd he h⟩

theorem gettoken_of_tokens_nil {ps : List Char} (hn : NulFree ps) (h : tokens ps = []) :
    (gettoken ps).1.ret = '\x00' ∧ (gettoken ps).2 = [] := by
  have hs := (tokens_eq_nil_iff hn).mp h
  refine ⟨(gettoken_ret_eq_zero hn).mpr hs, ?_⟩
  show skipWs (scan (skipWs ps)).2 = []
  rw [hs]
  rfl

def headIn (toks : List Char) : List Tok → Bool
  | [] => false
  | t :: _ => decide (t.ret ≠ 'a') && decide (leadOf t.ret ∈ toks)

theorem peek_eq {ps : List Char} (hn : NulFree ps) {toks : List Char}
    (hs : ∀ c ∈ toks, c ∈ symbols) : (peek ps toks).2 = headIn toks (tokens ps) := by
  show (decide (deref (skipWs ps) ≠ '\x00') && strchr toks (deref (skipWs ps))) = _
  cases h : skipWs ps with
  | nil =>
    rw [(tokens_eq_nil_iff hn).mpr h]
    rfl
  | cons c t =>
    have hc : c ≠ '\x00' := fun he => hn.skipWs (by rw [h, he]; exact List.mem_cons_self)
    have hret : (gettoken ps).1.ret ≠ '\x00' := fun he => by
      rw [gettoken_ret_eq_zero hn, h] at he
      cases he
    have htok : tokens ps = (gettoken ps).1 :: tokens (gettoken ps).2 := by
      rw [tokens_eq, if_neg hret]
    have hr : (gettoken ps).1.ret = (scan (c :: t)).1 := by
      show (scan (skipWs ps)).1 = _
      rw [h]
    have hd : deref (c :: t) = c := rfl
    rw [htok, headIn, hr, hd]
    simp only [strchr, hc, false_or, ne_eq, not_false_eq_true, decide_true, Bool.true_and]
    rcases scan_lead (t := t) hc with ⟨ha, hl⟩ | ⟨ha, hsym⟩
    · rw [hl]
      simp [ha]
    · have hnot : c ∉ toks := fun hm => by
        have := hs c hm
        simp [strchr, this] at hsym
      simp [ha, hnot]

/-! ### Words -/

theorem skipWord_spec : ∀ s : List Char, ∃ w, s = w ++ skipWord s ∧
    (∀ c ∈ w, strchr whitespace c = false ∧ strchr symbols c = false) ∧
    (skipWord s = [] ∨ strchr whitespace (deref (skipWord s)) = true ∨
      strchr symbols (deref (skipWord s)) = true)
  | [] => ⟨[], rfl, fun _ h => absurd h List.not_mem_nil, .inl rfl⟩
  | c :: s => by
    by_cases h : (!strchr whitespace c && !strchr symbols c) = true
    · obtain ⟨w, hw, hall, hend⟩ := skipWord_spec s
      have hsk : skipWord (c :: s) = skipWord s := by rw [skipWord, if_pos h]
      refine ⟨c :: w, by rw [hsk, List.cons_append, ← hw], ?_, by rwa [hsk]⟩
      intro d hd
      rcases List.mem_cons.mp hd with rfl | hd
      · simpa using h
      · exact hall d hd
    · have hsk : skipWord (c :: s) = c :: s := by rw [skipWord, if_neg h]
      refine ⟨[], by rw [hsk]; rfl, fun _ h => absurd h List.not_mem_nil, .inr ?_⟩
      rw [hsk]
      show strchr whitespace c = true ∨ strchr symbols c = true
      revert h
      cases strchr whitespace c <;> cases strchr symbols c <;> simp

theorem scan_word {s : List Char} (h : (scan s).1 = 'a') : (scan s).2 = skipWord s := by
  unfold scan at h ⊢
  dsimp only at h ⊢
  split at h
  · rename_i hc
    rw [hc] at h
    cases h
  rw [if_neg ‹_›]
  split at h
  · rename_i hsym
    rcases hsym with h' | h' | h' | h' | h' | h' <;> (rw [h'] at h; cases h)
  rw [if_neg ‹_›]
  split at h
  · split at h <;> [cases h; (rename_i hgt _; rw [hgt] at h; cases h)]
  rw [if_neg ‹_›]

theorem mem_tokens {ps : List Char} {t : Tok} (ht : t ∈ tokens ps) :
    ∃ s, s <:+ ps ∧ (gettoken s).1 = t ∧ t.ret ≠ '\x00' := by
  induction ps using tokens.induct with
  | case1 ps h =>
    rw [tokens_eq, if_pos h] at ht
    exact absurd ht List.not_mem_nil
  | case2 ps h ih =>
    rw [tokens_eq, if_neg h] at ht
    rcases List.mem_cons.mp ht with rfl | ht
    · exact ⟨ps, List.suffix_refl _, rfl, h⟩
    · obtain ⟨s, hs, hg, hr⟩ := ih ht
      exact ⟨s, hs.trans (gettoken_suffix ps), hg, hr⟩

theorem word_spec {ps : List Char} {t : Tok} (ht : t ∈ tokens ps) (ha : t.ret = 'a') :
    t.q <:+ ps ∧ ∃ w, w ≠ [] ∧ t.q = w ++ t.eq ∧
      (∀ c ∈ w, strchr whitespace c = false ∧ strchr symbols c = false) ∧
      (t.eq = [] ∨ strchr whitespace (deref t.eq) = true ∨ strchr symbols (deref t.eq) = true) := by
  obtain ⟨s, hs, rfl, hr⟩ := mem_tokens ht
  have hword : (scan (skipWs s)).2 = skipWord (skipWs s) := scan_word ha
  refine ⟨(skipWs_suffix s).trans hs, ?_⟩
  obtain ⟨w, hw, hall, hend⟩ := skipWord_spec (skipWs s)
  have hlt : (scan (skipWs s)).2.length < (skipWs s).length := by
    have hc : deref (skipWs s) ≠ '\x00' := fun he => hr (scan_fst_eq_zero.mpr he)
    refine scan_length_lt hc ?_
    cases hsk : skipWs s with
    | nil => rw [hsk] at hc; exact absurd rfl hc
    | cons c t => exact skipWs_cons hsk
  have heq : (gettoken s).1.eq = skipWord (skipWs s) := hword
  refine ⟨w, ?_, ?_, hall, by rw [heq]; exact hend⟩
  · rintro rfl
    rw [hword] at hlt
    rw [List.nil_append] at hw
    rw [← hw] at hlt
    exact Nat.lt_irrefl _ hlt
  · show skipWs s = w ++ (gettoken s).1.eq
    rw [heq]
    exact hw

end Xv6.Sh
