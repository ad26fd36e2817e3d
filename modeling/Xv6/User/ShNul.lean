import Xv6.User.ShParse

set_option autoImplicit false

/-!
# `nulterminate`, and the parser as a whole

A tree's words are pointer pairs into the line (`Cmd.words`), and `nulterminate` stores a `NUL`
at each word's end pointer. Every word is a word token of the line, so an end pointer stands at
whitespace, at a symbol or at the end of the line, never inside a word: after all the stores,
each word's first pointer reads, as a C string, exactly the word's characters
(`cstring_storeNul`). With the parser's soundness, completeness and failures this is
`parsecmd_grammar`.
-/
namespace Xv6.Sh

/-- The words a tree points to, the arguments of its execs and the files of its redirections,
in the order `nulterminate` visits them. -/
def Cmd.words : Cmd → List (List Char × List Char)
  | .exec argv => argv
  | .redir cmd file efile _ _ => cmd.words ++ [(file, efile)]
  | .pipe left right => left.words ++ right.words
  | .list left right => left.words ++ right.words
  | .back cmd => cmd.words

def cstring (buf : List Char) (i : Nat) : List Char := (buf.drop i).takeWhile (· != '\x00')

def storeNul (buf : List Char) (P : List Nat) : List Char :=
  P.foldl (fun buf i => buf.set i '\x00') buf

/-- A word given by its token: `q` and `eq` of a word token of `ts`. -/
def WordOf (ts : List Tok) (w : List Char × List Char) : Prop :=
  ∃ t ∈ ts, t.ret = 'a' ∧ w = (t.q, t.eq)

/-! ### Stores of `NUL` -/

theorem nulterminate_eq (L : Nat) (c : Cmd) (buf : List Char) :
    nulterminate L c buf = storeNul buf (c.words.map (fun w => L - w.2.length)) := by
  induction c generalizing buf with
  | exec argv => rw [nulterminate, Cmd.words, storeNul, List.foldl_map]
  | redir cmd file efile mode fd ih =>
    rw [nulterminate, ih, Cmd.words, List.map_append, storeNul, storeNul, List.foldl_append]
    rfl
  | pipe left right ihl ihr =>
    rw [nulterminate, ihl, ihr, Cmd.words, List.map_append, storeNul, storeNul, storeNul,
      List.foldl_append]
  | list left right ihl ihr =>
    rw [nulterminate, ihl, ihr, Cmd.words, List.map_append, storeNul, storeNul, storeNul,
      List.foldl_append]
  | back cmd ih => rw [nulterminate, ih, Cmd.words]

section Store

variable {buf : List Char} {P : List Nat}

@[simp]
theorem storeNul_length : (storeNul buf P).length = buf.length := by
  induction P generalizing buf with
  | nil => rfl
  | cons i P ih =>
    rw [storeNul, List.foldl_cons, ← storeNul, ih, List.length_set]

theorem storeNul_of_not_mem {i : Nat} (h : i ∉ P) : (storeNul buf P)[i]? = buf[i]? := by
  induction P generalizing buf with
  | nil => rfl
  | cons k P ih =>
    rw [storeNul, List.foldl_cons, ← storeNul, ih (List.not_mem_of_not_mem_cons h),
      List.getElem?_set_ne (fun he : k = i => h (by rw [← he]; exact List.mem_cons_self))]

theorem storeNul_of_mem {i : Nat} (h : i ∈ P) (hi : i < buf.length) :
    (storeNul buf P)[i]? = some '\x00' := by
  induction P generalizing buf with
  | nil => cases h
  | cons k P ih =>
    rw [storeNul, List.foldl_cons, ← storeNul]
    by_cases hk : i ∈ P
    · exact ih hk (by rw [List.length_set]; exact hi)
    · have hki : k = i := by
        rcases List.mem_cons.mp h with he | he
        · exact he.symm
        · exact absurd he hk
      rw [storeNul_of_not_mem hk, hki, List.getElem?_set_self hi]

end Store

theorem cstring_eq {buf : List Char} : ∀ {word : List Char} {a : Nat},
    (∀ j (h : j < word.length), buf[a + j]? = some word[j]) → '\x00' ∉ word →
    (buf[a + word.length]? = none ∨ buf[a + word.length]? = some '\x00') → cstring buf a = word
  | [], a, _, _, hend => by
    unfold cstring
    rw [List.length_nil, Nat.add_zero] at hend
    rcases hend with h | h
    · rw [List.getElem?_eq_none_iff] at h
      rw [List.drop_eq_nil_of_le h]
      rfl
    · obtain ⟨ha, he⟩ := List.getElem?_eq_some_iff.mp h
      rw [List.drop_eq_getElem_cons ha, he, List.takeWhile_cons_of_neg (by decide)]
  | c :: word, a, hchars, hnul, hend => by
    have hc : buf[a]? = some c := hchars 0 (Nat.succ_pos _)
    obtain ⟨ha, hca⟩ := List.getElem?_eq_some_iff.mp hc
    have hc0 : c ≠ '\x00' := fun h => hnul (h ▸ List.mem_cons_self)
    have hrest : cstring buf (a + 1) = word := by
      refine cstring_eq (fun j hj => ?_) (fun h => hnul (List.mem_cons_of_mem _ h)) ?_
      · rw [Nat.add_assoc, Nat.add_comm 1 j]
        exact hchars (j + 1) (Nat.succ_lt_succ hj)
      · rw [Nat.add_assoc, Nat.add_comm 1]
        exact hend
    unfold cstring at hrest ⊢
    rw [List.drop_eq_getElem_cons ha, hca, List.takeWhile_cons_of_pos (by simp [hc0]), hrest]

/-! ### Words -/

theorem getElem?_of_suffix {x s : List Char} (h : x <:+ s) (j : Nat) :
    s[s.length - x.length + j]? = x[j]? := by
  obtain ⟨pre, rfl⟩ := h
  rw [List.length_append, Nat.add_sub_cancel,
    List.getElem?_append_right (Nat.le_add_right _ _), Nat.add_sub_cancel_left]

theorem ne_nul_of_strchr {c : Char} (h : strchr whitespace c = false) : c ≠ '\x00' := by
  rintro rfl
  cases h

theorem end_not_inside {s : List Char} {t t' : Tok} (ht : t ∈ tokens s)
    (ha : t.ret = 'a') (ht' : t' ∈ tokens s) (ha' : t'.ret = 'a') {w : List Char}
    (hq : t.q = w ++ t.eq) (hw : ∀ c ∈ w, strchr whitespace c = false ∧ strchr symbols c = false)
    {j : Nat} (hj : j < w.length) : s.length - t'.eq.length ≠ s.length - t.q.length + j := by
  intro he
  obtain ⟨hsuf, -⟩ := word_spec ht ha
  obtain ⟨hsuf', w', -, hq', -, hend'⟩ := word_spec ht' ha'
  have hlen : t.q.length = w.length + t.eq.length := by rw [hq, List.length_append]
  have hle := hsuf.length_le
  cases heq : t'.eq with
  | nil =>
    rw [heq] at he
    simp only [List.length_nil, Nat.sub_zero] at he
    omega
  | cons c r =>
    have hsufe : t'.eq <:+ s := (List.suffix_append w' t'.eq).trans (hq' ▸ hsuf')
    have hcs : s[s.length - t'.eq.length]? = some c := by
      rw [← Nat.add_zero (s.length - _), getElem?_of_suffix hsufe, heq]
      rfl
    have hcw : s[s.length - t.q.length + j]? = some w[j] := by
      rw [getElem?_of_suffix hsuf, hq, List.getElem?_append_left hj, List.getElem?_eq_getElem hj]
    rw [he, hcw] at hcs
    obtain ⟨hws, hsym⟩ := hw w[j] (List.getElem_mem hj)
    rw [Option.some.injEq] at hcs
    rw [heq] at hend'
    simp only [deref, List.headD_cons, List.cons_ne_nil, false_or] at hend'
    rw [← hcs, hws, hsym] at hend'
    simp at hend'

theorem cstring_storeNul {s : List Char} {W : List (List Char × List Char)}
    (hW : ∀ w ∈ W, WordOf (tokens s) w) :
    ∀ w ∈ W, w.1 <:+ s ∧ ∃ word, word ≠ [] ∧ w.1 = word ++ w.2 ∧
      cstring (storeNul s (W.map (fun w => s.length - w.2.length))) (s.length - w.1.length) = word := by
  intro w hw
  obtain ⟨t, ht, ha, rfl⟩ := hW w hw
  obtain ⟨hsuf, wd, hne, hq, hwd, -⟩ := word_spec ht ha
  refine ⟨hsuf, wd, hne, hq, cstring_eq (fun j hj => ?_) (fun h => ?_) ?_⟩
  · rw [storeNul_of_not_mem, getElem?_of_suffix hsuf, hq, List.getElem?_append_left hj,
      List.getElem?_eq_getElem hj]
    rw [List.mem_map]
    rintro ⟨w', hw', he⟩
    obtain ⟨t', ht', ha', rfl⟩ := hW w' hw'
    exact end_not_inside ht ha ht' ha' hq hwd hj he
  · exact ne_nul_of_strchr (hwd _ h).1 rfl
  · have hlen : t.q.length = wd.length + t.eq.length := by rw [hq, List.length_append]
    have hle := hsuf.length_le
    have hb : s.length - t.q.length + wd.length = s.length - t.eq.length := by omega
    rw [hb]
    by_cases hlt : s.length - t.eq.length < s.length
    · exact Or.inr (storeNul_of_mem (List.mem_map.mpr ⟨_, hw, rfl⟩) hlt)
    · exact Or.inl (List.getElem?_eq_none_iff.mpr (by rw [storeNul_length]; omega))

/-! ### The words of a derivation -/

theorem WordOf.mono {ts us : List Tok} (h : ∀ t ∈ ts, t ∈ us) {w : List Char × List Char}
    (hw : WordOf ts w) : WordOf us w := by
  obtain ⟨t, ht, ha, rfl⟩ := hw
  exact ⟨t, h t ht, ha, rfl⟩

@[simp]
theorem words_back_iterate (k : Nat) (c : Cmd) : (Cmd.back^[k] c).words = c.words := by
  induction k with
  | zero => rfl
  | succ k ih => rw [Function.iterate_succ_apply', Cmd.words, ih]

theorem words_redirect (c : Cmd) (tok : Char) (t : Tok) :
    ∀ w ∈ (redirect c tok t).words, w ∈ c.words ∨ w = (t.q, t.eq) := by
  intro w hw
  unfold redirect at hw
  split_ifs at hw <;> simp_all [Cmd.words]

theorem words_wrap : ∀ (rs : List (Char × Tok)) (c : Cmd),
    ∀ w ∈ (wrap c rs).words, w ∈ c.words ∨ ∃ r ∈ rs, w = (r.2.q, r.2.eq)
  | [], c, w, hw => .inl hw
  | r :: rs, c, w, hw => by
    rcases words_wrap rs (redirect c r.1 r.2) w hw with h | ⟨r', hr', he⟩
    · rcases words_redirect c r.1 r.2 w h with h | h
      · exact .inl h
      · exact .inr ⟨r, List.mem_cons_self, h⟩
    · exact .inr ⟨r', List.mem_cons_of_mem _ hr', he⟩

theorem Redirs.words {ts : List Tok} {rs : List (Char × Tok)} (h : Redirs ts rs) :
    ∀ r ∈ rs, WordOf ts (r.2.q, r.2.eq) := by
  induction h with
  | nil => intro r hr; cases hr
  | cons _ hw _ ih =>
    intro r hr
    rcases List.mem_cons.mp hr with rfl | hr
    · exact ⟨_, List.mem_cons_of_mem _ List.mem_cons_self, hw, rfl⟩
    · exact (ih r hr).mono (fun t ht => List.mem_cons_of_mem _ (List.mem_cons_of_mem _ ht))

theorem WordRedirs.words {ts : List Tok} {ws : List (List Char × List Char)}
    {rs : List (Char × Tok)} (h : WordRedirs ts ws rs) :
    (∀ w ∈ ws, WordOf ts w) ∧ ∀ r ∈ rs, WordOf ts (r.2.q, r.2.eq) := by
  induction h with
  | nil => exact ⟨fun w hw => (by cases hw), fun r hr => (by cases hr)⟩
  | @cons t us vs ws rs rs' ha hus _ ih =>
    have hsub : ∀ u ∈ vs, u ∈ t :: us ++ vs := fun u hu => List.mem_append_right _ hu
    refine ⟨fun w hw => ?_, fun r hr => ?_⟩
    · rcases List.mem_cons.mp hw with rfl | hw
      · exact ⟨t, List.mem_append_left _ List.mem_cons_self, ha, rfl⟩
      · exact (ih.1 w hw).mono hsub
    · rcases List.mem_append.mp hr with hr | hr
      · exact (hus.words r hr).mono
          (fun u hu => List.mem_append_left _ (List.mem_cons_of_mem _ hu))
      · exact (ih.2 r hr).mono hsub

theorem Gram.words {X : Sym} {ts : List Tok} {c : Cmd} (h : Gram X ts c) :
    ∀ w ∈ c.words, WordOf ts w := by
  induction h with
  | line _ _ ih =>
    intro w hw
    rw [words_back_iterate] at hw
    exact (ih w hw).mono (fun t ht => List.mem_append_left _ ht)
  | list _ _ _ _ ih ih' =>
    intro w hw
    rw [Cmd.words, words_back_iterate] at hw
    rcases List.mem_append.mp hw with hw | hw
    · exact (ih w hw).mono (fun t ht => List.mem_append_left _ (List.mem_append_left _ ht))
    · exact (ih' w hw).mono (fun t ht => List.mem_append_right _ (List.mem_cons_of_mem _ ht))
  | pipe _ ih => exact ih
  | pipeline _ _ _ ih ih' =>
    intro w hw
    rw [Cmd.words] at hw
    rcases List.mem_append.mp hw with hw | hw
    · exact (ih w hw).mono (fun t ht => List.mem_append_left _ ht)
    · exact (ih' w hw).mono (fun t ht => List.mem_append_right _ (List.mem_cons_of_mem _ ht))
  | @block ts vs t u c rs _ _ _ hrs ih =>
    intro w hw
    rcases words_wrap rs c w hw with hw | ⟨r, hr, rfl⟩
    · exact (ih w hw).mono (fun v hv => List.mem_append_left _ (List.mem_cons_of_mem _ hv))
    · exact (hrs.words r hr).mono
        (fun v hv => List.mem_append_right _ (List.mem_cons_of_mem _ hv))
  | @exec us vs ws rs rs' hrs hwr _ =>
    intro w hw
    have hvs : ∀ v ∈ vs, v ∈ us ++ vs := fun v hv => List.mem_append_right _ hv
    rcases words_wrap (rs ++ rs') (.exec ws) w hw with hw | ⟨r, hr, rfl⟩
    · exact (hwr.words.1 w hw).mono hvs
    · rcases List.mem_append.mp hr with hr | hr
      · exact (hrs.words r hr).mono (fun v hv => List.mem_append_left _ hv)
      · exact (hwr.words.2 r hr).mono hvs

/-! ### `parsecmd` -/

theorem peek_nil_eq_nil {ps : List Char} (hn : NulFree ps) :
    (peek ps []).1 = [] ↔ tokens ps = [] := by
  rw [tokens_eq_nil_iff hn]
  rfl

theorem parsecmd_error {s : List Char} (hn : NulFree s) {e : String}
    (h : parsecmd s = .error e) : Panic e := by
  unfold parsecmd at h
  cases h1 : parseline (4 * s.length + 4) s with
  | error e' =>
    rw [h1] at h
    cases h
    exact (parse_panics _).1 hn (by omega) h1
  | ok r =>
    rcases r with ⟨c, ps⟩
    rw [h1] at h
    dsimp only at h
    by_cases hl : (peek ps []).1 ≠ []
    · rw [if_pos hl] at h
      cases h
      exact Or.inl rfl
    · rw [if_neg hl] at h
      cases h

theorem parsecmd_sound {s : List Char} (hn : NulFree s) {c : Cmd} {buf : List Char}
    (h : parsecmd s = .ok (c, buf)) :
    Gram .line (tokens s) c ∧ buf = nulterminate s.length c s := by
  unfold parsecmd at h
  cases h1 : parseline (4 * s.length + 4) s with
  | error e =>
    rw [h1] at h
    cases h
  | ok r =>
    rcases r with ⟨c', ps⟩
    rw [h1] at h
    dsimp only at h
    by_cases hl : (peek ps []).1 ≠ []
    · rw [if_pos hl] at h
      cases h
    · rw [if_neg hl] at h
      cases h
      obtain ⟨hs, ts, ht, hg⟩ := (parse_sound _).1 hn h1
      have hnil : tokens ps = [] := (peek_nil_eq_nil (hn.of_suffix hs)).mp (not_not.mp hl)
      rw [hnil, List.append_nil] at ht
      exact ⟨ht ▸ hg, rfl⟩

theorem parsecmd_complete {s : List Char} (hn : NulFree s) {c : Cmd}
    (h : Gram .line (tokens s) c) : parsecmd s = .ok (c, nulterminate s.length c s) := by
  obtain ⟨ps, h1, hs, ht⟩ :=
    @parse_complete _ _ _ h s [] (4 * s.length + 4) hn (List.append_nil _).symm trivial
      (by simp only [Sym.rank]; omega)
  have hl : ¬ (peek ps []).1 ≠ [] := not_not.mpr ((peek_nil_eq_nil (hn.of_suffix hs)).mpr ht)
  dsimp only [parseSym] at h1
  unfold parsecmd
  rw [h1]
  dsimp only
  rw [if_neg hl]

/-- On a line without `NUL`, `parsecmd` fails only by a `panic`; it returns a tree exactly when
the line's tokens derive it from `line`; and after `nulterminate` each word of the tree, an
argument or a redirection's file, reads as a C string exactly its characters in the line. -/
theorem parsecmd_grammar {s : List Char} (hn : NulFree s) :
    (∀ e, parsecmd s = .error e → Panic e) ∧
    (∀ c, (∃ buf, parsecmd s = .ok (c, buf)) ↔ Gram .line (tokens s) c) ∧
    ∀ c buf, parsecmd s = .ok (c, buf) → ∀ w ∈ c.words, w.1 <:+ s ∧
      ∃ word, word ≠ [] ∧ w.1 = word ++ w.2 ∧ cstring buf (s.length - w.1.length) = word := by
  refine ⟨fun e h => parsecmd_error hn h, fun c => ⟨fun ⟨buf, h⟩ => (parsecmd_sound hn h).1,
    fun h => ⟨_, parsecmd_complete hn h⟩⟩, fun c buf h => ?_⟩
  obtain ⟨hg, rfl⟩ := parsecmd_sound hn h
  rw [nulterminate_eq]
  exact cstring_storeNul hg.words

theorem parsecmd_grammar_pipe : NulFree "ls >f|wc&".toList ∧
    Gram .line (tokens "ls >f|wc&".toList)
      (.back (.pipe
        (.redir (.exec [("ls >f|wc&".toList, " >f|wc&".toList)]) "f|wc&".toList "|wc&".toList
          (O_WRONLY ||| O_CREATE) 1)
        (.exec [("wc&".toList, "&".toList)]))) :=
  ⟨by decide, ((parsecmd_grammar (by decide)).2.1 _).mp ⟨"ls\x00>f\x00wc\x00".toList, by decide⟩⟩

end Xv6.Sh
