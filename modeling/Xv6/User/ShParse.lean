import Xv6.User.Sh

set_option autoImplicit false

/-!
# The shell's parser accepts exactly its grammar

Each function of the parser is proved sound, its result derived from the tokens it consumed
(`parse_sound`), and complete, a derivation followed by a token that may follow it parsed into
its tree (`parse_complete`); with the calls `parsecmd` allows, it fails only by a `panic`
(`parse_panics`). The loops have the same three lemmas each. All of it rests on the first token:
`peek` asks about it and `gettoken` takes it off (`ShLex`).
-/
namespace Xv6.Sh

/-! ### The first token -/

theorem lead_mem_iff {r : Char} {toks : List Char} (ha : 'a' ∉ toks) (hp : '+' ∉ toks) :
    (r ≠ 'a' ∧ leadOf r ∈ toks) ↔ (r ∈ toks ∨ (r = '+' ∧ '>' ∈ toks)) := by
  by_cases hr : r = '+'
  · subst hr
    have hl : leadOf '+' = '>' := rfl
    rw [hl]
    exact ⟨fun h => .inr ⟨rfl, h.2⟩, fun h => ⟨by decide, h.elim (fun h' => absurd h' hp) And.right⟩⟩
  · have hl : leadOf r = r := if_neg hr
    rw [hl]
    refine ⟨fun h => .inl h.2, fun h => ?_⟩
    rcases h with h | ⟨h, -⟩
    · exact ⟨fun he => ha (he ▸ h), h⟩
    · exact absurd h hr

theorem peek_iff {ps : List Char} (hn : NulFree ps) {toks : List Char}
    (hs : ∀ c ∈ toks, c ∈ symbols) (ha : 'a' ∉ toks) (hp : '+' ∉ toks) :
    (peek ps toks).2 = true ↔
      ∃ t rest, tokens ps = t :: rest ∧ (t.ret ∈ toks ∨ (t.ret = '+' ∧ '>' ∈ toks)) := by
  rw [peek_eq hn hs]
  cases h : tokens ps with
  | nil =>
    refine ⟨fun he => (by cases he), ?_⟩
    rintro ⟨_, _, he, _⟩
    cases he
  | cons t rest =>
    rw [headIn, Bool.and_eq_true, decide_eq_true_iff, decide_eq_true_iff, lead_mem_iff ha hp]
    refine ⟨fun h' => ⟨t, rest, rfl, h'⟩, ?_⟩
    rintro ⟨t', rest', he, h'⟩
    cases he
    exact h'

theorem peek_iff_of_not_gt {ps : List Char} (hn : NulFree ps) {toks : List Char}
    (hs : ∀ c ∈ toks, c ∈ symbols) (ha : 'a' ∉ toks) (hp : '+' ∉ toks) (hgt : '>' ∉ toks) :
    (peek ps toks).2 = true ↔ ∃ t rest, tokens ps = t :: rest ∧ t.ret ∈ toks := by
  rw [peek_iff hn hs ha hp]
  exact ⟨fun ⟨t, rest, h, hm⟩ => ⟨t, rest, h, hm.elim id (fun h' => absurd h'.2 hgt)⟩,
    fun ⟨t, rest, h, hm⟩ => ⟨t, rest, h, .inl hm⟩⟩

theorem peek_redir_iff {ps : List Char} (hn : NulFree ps) :
    (peek ps ['<', '>']).2 = true ↔ ∃ t rest, tokens ps = t :: rest ∧ IsRedir t := by
  -- by simp, not decide: with Batteries loaded, decide would range over every Char
  rw [peek_iff hn (by simp [symbols]) (by decide) (by decide)]
  have hcodes : ∀ t : Tok, (t.ret ∈ ['<', '>'] ∨ (t.ret = '+' ∧ '>' ∈ ['<', '>'])) ↔ IsRedir t := by
    intro t
    simp only [IsRedir, List.mem_cons, List.not_mem_nil, or_false]
    tauto
  simp only [hcodes]

theorem gettoken_peek (ps toks : List Char) : gettoken (peek ps toks).1 = gettoken ps :=
  gettoken_skipWs ps

theorem tokens_peek (ps toks : List Char) : tokens (peek ps toks).1 = tokens ps :=
  tokens_skipWs ps

theorem peek_suffix (ps toks : List Char) : (peek ps toks).1 <:+ ps := skipWs_suffix ps

theorem peek_peek (ps toks toks' : List Char) : peek (peek ps toks).1 toks' = peek ps toks' := by
  show peek (skipWs ps) toks' = peek ps toks'
  unfold peek
  rw [skipWs_skipWs]

theorem tokens_of_ret {ps : List Char} (h : (gettoken ps).1.ret ≠ '\x00') :
    tokens ps = (gettoken ps).1 :: tokens (gettoken ps).2 := by
  rw [tokens_eq, if_neg h]

theorem length_lt_of_tokens {ps ps' : List Char} {ts : List Tok} (hs : ps' <:+ ps)
    (ht : tokens ps = ts ++ tokens ps') (hne : ts ≠ []) : ps'.length < ps.length := by
  rcases Nat.lt_or_eq_of_le hs.length_le with hlt | heq
  · exact hlt
  · have hps : ps' = ps := hs.eq_of_length heq
    rw [hps] at ht
    have := congrArg List.length ht
    rw [List.length_append] at this
    exact absurd (List.length_eq_zero_iff.mp (by omega)) hne

theorem gettoken_of_cons {ps : List Char} {t : Tok} {rest : List Tok} (ht : tokens ps = t :: rest) :
    (gettoken ps).1 = t ∧ tokens (gettoken ps).2 = rest ∧ (gettoken ps).2.length < ps.length := by
  obtain ⟨h1, h2⟩ := gettoken_of_tokens_cons ht
  exact ⟨h1, h2,
    @length_lt_of_tokens _ _ [t] (gettoken_suffix ps) (by rw [ht, h2]; rfl) (List.cons_ne_nil _ _)⟩

/-! ### The loops -/

/-- What may come after a derivation of each symbol: the end of the line, or `)` after a line,
also `&` or `;` after a pipe, also `|` after an exec. -/
def Follows : Sym → List Tok → Prop
  | _, [] => True
  | .line, t :: _ => t.ret = ')'
  | .pipe, t :: _ => t.ret = ')' ∨ t.ret = '&' ∨ t.ret = ';'
  | .exec, t :: _ => t.ret = ')' ∨ t.ret = '&' ∨ t.ret = ';' ∨ t.ret = '|'

instance : ∀ (X : Sym) (ts : List Tok), Decidable (Follows X ts)
  | .line, [] | .pipe, [] | .exec, [] => isTrue trivial
  | .line, t :: _ => inferInstanceAs (Decidable (t.ret = ')'))
  | .pipe, t :: _ => inferInstanceAs (Decidable (t.ret = ')' ∨ t.ret = '&' ∨ t.ret = ';'))
  | .exec, t :: _ =>
    inferInstanceAs (Decidable (t.ret = ')' ∨ t.ret = '&' ∨ t.ret = ';' ∨ t.ret = '|'))

theorem Follows.ret_ne {X : Sym} {rest : List Tok} (hf : Follows X rest) {c : Char}
    (hc : ¬ Follows X [⟨c, [], []⟩]) : ∀ t r, rest = t :: r → t.ret ≠ c := by
  rintro t r rfl hr
  apply hc
  cases X <;> simp only [Follows] at hf ⊢ <;> rw [← hr] <;> exact hf

theorem Follows.pipe_of_line {rest : List Tok} (h : Follows .line rest) : Follows .pipe rest := by
  cases rest with
  | nil => trivial
  | cons t _ => exact Or.inl h

theorem Follows.exec_of_pipe {rest : List Tok} (h : Follows .pipe rest) : Follows .exec rest := by
  cases rest with
  | nil => trivial
  | cons t _ =>
    rcases h with h | h | h
    exacts [Or.inl h, Or.inr (Or.inl h), Or.inr (Or.inr (Or.inl h))]

theorem Follows.amps {us rest : List Tok} {k : Nat} (h : Amps us k) (hf : Follows .pipe rest) :
    Follows .pipe (us ++ rest) := by
  cases h with
  | nil => exact hf
  | cons ht _ => exact Or.inr (Or.inl ht)

section Loops

theorem redirLoop_sound : ∀ (fuel : Nat) {ps ps' : List Char} {rs : List (Char × Tok)},
    NulFree ps → redirLoop fuel ps = .ok (rs, ps') →
      ps' <:+ ps ∧ ∃ ts, tokens ps = ts ++ tokens ps' ∧ Redirs ts rs
  | 0, _, _, _, _, h => by cases h
  | fuel + 1, ps, ps', rs, hn, h => by
    rw [redirLoop] at h
    dsimp only at h
    rw [gettoken_peek] at h
    by_cases hp : (peek ps ['<', '>']).2 = true
    · rw [if_pos hp] at h
      obtain ⟨t, rest, ht, hredir⟩ := (peek_redir_iff hn).mp hp
      obtain ⟨ht1, hrest⟩ := gettoken_of_tokens_cons ht
      have hn1 : NulFree (gettoken ps).2 := hn.of_suffix (gettoken_suffix ps)
      by_cases hw : (gettoken (gettoken ps).2).1.ret = 'a'
      · rw [if_neg (not_not.mpr hw)] at h
        have hn2 : NulFree (gettoken (gettoken ps).2).2 := hn1.of_suffix (gettoken_suffix _)
        cases hr : redirLoop fuel (gettoken (gettoken ps).2).2 with
        | error e =>
          rw [hr] at h
          cases h
        | ok r =>
          rw [hr] at h
          cases h
          obtain ⟨hsuf, ts, hts, hrs⟩ := redirLoop_sound fuel hn2 hr
          have hw0 : (gettoken (gettoken ps).2).1.ret ≠ '\x00' := by rw [hw]; decide
          refine ⟨(hsuf.trans (gettoken_suffix _)).trans (gettoken_suffix ps),
            t :: (gettoken (gettoken ps).2).1 :: ts, ?_, ?_⟩
          · rw [ht, ← hrest, tokens_of_ret hw0, hts]
            rfl
          · rw [← ht1] at hredir ⊢
            exact .cons hredir hw hrs
      · rw [if_pos hw] at h
        cases h
    · rw [if_neg hp] at h
      cases h
      exact ⟨peek_suffix ps _, [], by rw [tokens_peek]; rfl, .nil⟩

theorem redirLoop_complete {ts : List Tok} {rs : List (Char × Tok)} (h : Redirs ts rs) :
    ∀ {ps : List Char} {rest : List Tok} {fuel : Nat}, NulFree ps → tokens ps = ts ++ rest →
      (∀ t rest', rest = t :: rest' → ¬ IsRedir t) → ps.length < fuel →
      ∃ ps', redirLoop fuel ps = .ok (rs, ps') ∧ ps' <:+ ps ∧ tokens ps' = rest := by
  induction h with
  | nil =>
    intro ps rest fuel hn ht hstop hf
    obtain ⟨fuel, rfl⟩ : ∃ k, fuel = k + 1 := ⟨fuel - 1, by omega⟩
    have hp : ¬ (peek ps ['<', '>']).2 = true := fun hpk => by
      obtain ⟨t, r, ht', hr⟩ := (peek_redir_iff hn).mp hpk
      rw [ht, List.nil_append] at ht'
      exact hstop t r ht' hr
    refine ⟨(peek ps ['<', '>']).1, ?_, peek_suffix ps _, by rw [tokens_peek, ht]; rfl⟩
    rw [redirLoop]
    dsimp only
    rw [if_neg hp]
  | @cons t w ts rs hredir hw _ ih =>
    intro ps rest fuel hn ht hstop hf
    obtain ⟨fuel, rfl⟩ : ∃ k, fuel = k + 1 := ⟨fuel - 1, by omega⟩
    have hp : (peek ps ['<', '>']).2 = true := (peek_redir_iff hn).mpr ⟨t, _, ht, hredir⟩
    obtain ⟨ht1, hrest⟩ := gettoken_of_tokens_cons ht
    obtain ⟨hw1, hrest2⟩ := gettoken_of_tokens_cons hrest
    have hsuf2 : (gettoken (gettoken ps).2).2 <:+ ps :=
      (gettoken_suffix _).trans (gettoken_suffix ps)
    have hlen : (gettoken (gettoken ps).2).2.length < ps.length :=
      @length_lt_of_tokens _ _ [t, w] hsuf2 (by rw [ht, hrest2]; rfl) (List.cons_ne_nil _ _)
    obtain ⟨ps', hloop, hsuf, hrest'⟩ :=
      @ih (gettoken (gettoken ps).2).2 rest fuel (hn.of_suffix hsuf2) hrest2 hstop (by omega)
    refine ⟨ps', ?_, hsuf.trans hsuf2, hrest'⟩
    rw [redirLoop]
    dsimp only
    rw [gettoken_peek, if_pos hp, hw1, if_neg (not_not.mpr hw), hloop, ht1]

theorem redirLoop_error : ∀ (fuel : Nat) {ps : List Char} {e : String}, NulFree ps →
    ps.length < fuel → redirLoop fuel ps = .error e → e = "missing file for redirection"
  | 0, _, _, _, hf, _ => absurd hf (Nat.not_lt_zero _)
  | fuel + 1, ps, e, hn, hf, h => by
    rw [redirLoop] at h
    dsimp only at h
    rw [gettoken_peek] at h
    by_cases hp : (peek ps ['<', '>']).2 = true
    · rw [if_pos hp] at h
      obtain ⟨t, rest, ht, hredir⟩ := (peek_redir_iff hn).mp hp
      obtain ⟨ht1, -⟩ := gettoken_of_tokens_cons ht
      by_cases hw : (gettoken (gettoken ps).2).1.ret = 'a'
      · rw [if_neg (not_not.mpr hw)] at h
        cases hr : redirLoop fuel (gettoken (gettoken ps).2).2 with
        | error e' =>
          rw [hr] at h
          cases h
          have h0 : (gettoken ps).1.ret ≠ '\x00' := by
            rw [ht1]
            rcases hredir with h' | h' | h' <;> rw [h'] <;> decide
          have hlen := gettoken_length_lt h0
          have hlen2 := (gettoken_suffix (gettoken ps).2).length_le
          have hn2 : NulFree (gettoken (gettoken ps).2).2 :=
            hn.of_suffix ((gettoken_suffix _).trans (gettoken_suffix ps))
          exact redirLoop_error fuel hn2 (by omega) hr
        | ok r =>
          rw [hr] at h
          cases h
      · rw [if_pos hw] at h
        cases h
        rfl
    · rw [if_neg hp] at h
      cases h

theorem peek_single_iff {ps : List Char} (hn : NulFree ps) {c : Char}
    (hc : c ∈ ['|', '(', ')', ';', '&']) :
    (peek ps [c]).2 = true ↔ ∃ t rest, tokens ps = t :: rest ∧ t.ret = c := by
  have hsym : c ∈ symbols ∧ c ≠ 'a' ∧ c ≠ '+' ∧ c ≠ '>' := by
    simp only [List.mem_cons, List.not_mem_nil, or_false] at hc
    rcases hc with rfl | rfl | rfl | rfl | rfl <;> decide
  obtain ⟨hs, hca, hcp, hcg⟩ := hsym
  rw [peek_iff_of_not_gt hn (fun d hd => List.mem_singleton.mp hd ▸ hs)
    (fun h => hca (List.mem_singleton.mp h).symm) (fun h => hcp (List.mem_singleton.mp h).symm)
    (fun h => hcg (List.mem_singleton.mp h).symm)]
  simp only [List.mem_singleton]

theorem peek_single_not {ps : List Char} (hn : NulFree ps) {c : Char}
    (hc : c ∈ ['|', '(', ')', ';', '&']) (h : ∀ t rest, tokens ps = t :: rest → t.ret ≠ c) :
    ¬ (peek ps [c]).2 = true := fun hp => by
  obtain ⟨t, rest, ht, hr⟩ := (peek_single_iff hn hc).mp hp
  exact h t rest ht hr

theorem backLoop_sound : ∀ (fuel : Nat) {c c' : Cmd} {ps ps' : List Char}, NulFree ps →
    backLoop fuel c ps = .ok (c', ps') →
      ps' <:+ ps ∧ ∃ ts k, tokens ps = ts ++ tokens ps' ∧ Amps ts k ∧ c' = Cmd.back^[k] c
  | 0, _, _, _, _, _, h => by cases h
  | fuel + 1, c, c', ps, ps', hn, h => by
    rw [backLoop] at h
    rw [gettoken_peek] at h
    by_cases hp : (peek ps ['&']).2 = true
    · rw [if_pos hp] at h
      obtain ⟨t, rest, ht, hamp⟩ := (peek_single_iff hn (by decide)).mp hp
      obtain ⟨ht1, hrest⟩ := gettoken_of_tokens_cons ht
      obtain ⟨hsuf, ts, k, hts, hamps, rfl⟩ :=
        backLoop_sound fuel (hn.of_suffix (gettoken_suffix ps)) h
      refine ⟨hsuf.trans (gettoken_suffix ps), t :: ts, k + 1, ?_, .cons hamp hamps, ?_⟩
      · rw [ht, ← hrest, hts]
        rfl
      · rw [Function.iterate_succ_apply]
    · rw [if_neg hp] at h
      cases h
      exact ⟨peek_suffix ps _, [], 0, by rw [tokens_peek]; rfl, .nil, rfl⟩

theorem backLoop_complete {us : List Tok} {k : Nat} (h : Amps us k) :
    ∀ {c : Cmd} {ps : List Char} {rest : List Tok} {fuel : Nat}, NulFree ps →
      tokens ps = us ++ rest → (∀ t rest', rest = t :: rest' → t.ret ≠ '&') → ps.length < fuel →
      ∃ ps', backLoop fuel c ps = .ok (Cmd.back^[k] c, ps') ∧ ps' <:+ ps ∧ tokens ps' = rest := by
  induction h with
  | nil =>
    intro c ps rest fuel hn ht hstop hf
    obtain ⟨fuel, rfl⟩ : ∃ k, fuel = k + 1 := ⟨fuel - 1, by omega⟩
    have hp : ¬ (peek ps ['&']).2 = true := fun hpk => by
      obtain ⟨t, r, ht', hr⟩ := (peek_single_iff hn (by decide)).mp hpk
      rw [ht, List.nil_append] at ht'
      exact hstop t r ht' hr
    refine ⟨(peek ps ['&']).1, ?_, peek_suffix ps _, by rw [tokens_peek, ht]; rfl⟩
    rw [backLoop]
    rw [if_neg hp]
    rfl
  | @cons t ts k hamp _ ih =>
    intro c ps rest fuel hn ht hstop hf
    obtain ⟨fuel, rfl⟩ : ∃ k, fuel = k + 1 := ⟨fuel - 1, by omega⟩
    have hp : (peek ps ['&']).2 = true := (peek_single_iff hn (by decide)).mpr ⟨t, _, ht, hamp⟩
    obtain ⟨-, hrest, hlen⟩ := gettoken_of_cons ht
    obtain ⟨ps', hloop, hsuf, hrest'⟩ :=
      @ih (.back c) (gettoken ps).2 rest fuel (hn.of_suffix (gettoken_suffix ps)) hrest hstop
        (by omega)
    refine ⟨ps', ?_, hsuf.trans (gettoken_suffix ps), hrest'⟩
    rw [backLoop]
    rw [gettoken_peek, if_pos hp, hloop, Function.iterate_succ_apply]

theorem backLoop_ne_error : ∀ (fuel : Nat) {c : Cmd} {ps : List Char} (e : String), NulFree ps →
    ps.length < fuel → backLoop fuel c ps ≠ .error e
  | 0, _, _, _, _, hf => absurd hf (Nat.not_lt_zero _)
  | fuel + 1, c, ps, e, hn, hf => by
    rw [backLoop]
    rw [gettoken_peek]
    by_cases hp : (peek ps ['&']).2 = true
    · rw [if_pos hp]
      obtain ⟨t, rest, ht, -⟩ := (peek_single_iff hn (by decide)).mp hp
      obtain ⟨-, -, hlen⟩ := gettoken_of_cons ht
      exact backLoop_ne_error fuel e (hn.of_suffix (gettoken_suffix ps)) (by omega)
    · rw [if_neg hp]
      exact fun h => by cases h

theorem peek_stop_iff {ps : List Char} (hn : NulFree ps) :
    (peek ps ['|', ')', '&', ';']).2 = true ↔
      ∃ t rest, tokens ps = t :: rest ∧ (t.ret = '|' ∨ t.ret = ')' ∨ t.ret = '&' ∨ t.ret = ';') := by
  rw [peek_iff_of_not_gt hn (by simp [symbols]) (by decide) (by decide) (by decide)]
  simp only [List.mem_cons, List.not_mem_nil, or_false]

theorem execLoop_sound : ∀ (fuel : Nat) {argv argv' : List (List Char × List Char)}
    {rs rs' : List (Char × Tok)} {ps ps' : List Char}, NulFree ps → argv.length < MAXARGS →
    execLoop fuel argv rs ps = .ok (argv', rs', ps') →
      ps' <:+ ps ∧ argv'.length < MAXARGS ∧ ∃ ts ws rs'', tokens ps = ts ++ tokens ps' ∧
        WordRedirs ts ws rs'' ∧ argv' = argv ++ ws ∧ rs' = rs ++ rs''
  | 0, _, _, _, _, _, _, _, _, h => by cases h
  | fuel + 1, argv, argv', rs, rs', ps, ps', hn, hargc, h => by
    rw [execLoop] at h
    dsimp only at h
    rw [gettoken_peek] at h
    by_cases hp : (peek ps ['|', ')', '&', ';']).2 = true
    · rw [if_pos hp] at h
      cases h
      exact ⟨peek_suffix ps _, hargc, [], [], [], by rw [tokens_peek]; rfl, .nil,
        (List.append_nil _).symm, (List.append_nil _).symm⟩
    rw [if_neg hp] at h
    by_cases h0 : (gettoken ps).1.ret = '\x00'
    · rw [if_pos h0] at h
      cases h
      have hnil : tokens ps = [] := by rw [tokens_eq, if_pos h0]
      refine ⟨gettoken_suffix ps, hargc, [], [], [], ?_, .nil, (List.append_nil _).symm,
        (List.append_nil _).symm⟩
      rw [hnil, (gettoken_of_tokens_nil hn hnil).2, tokens_nil]
      rfl
    rw [if_neg h0] at h
    by_cases ha : (gettoken ps).1.ret = 'a'
    · rw [if_neg (not_not.mpr ha)] at h
      by_cases hmax : MAXARGS ≤ argv.length + 1
      · rw [if_pos hmax] at h
        cases h
      rw [if_neg hmax] at h
      have hn1 : NulFree (gettoken ps).2 := hn.of_suffix (gettoken_suffix ps)
      cases hr : readRedirs (gettoken ps).2 with
      | error e =>
        rw [hr] at h
        cases h
      | ok r =>
        rcases r with ⟨rs0, ps1⟩
        rw [hr] at h
        dsimp only at h
        obtain ⟨hsuf1, us, hus, hrs⟩ := redirLoop_sound _ hn1 hr
        obtain ⟨hsuf, hlen, vs, ws, rs'', hvs, hwr, rfl, rfl⟩ :=
          execLoop_sound fuel (hn1.of_suffix hsuf1)
            (by rw [List.length_append, List.length_singleton]; omega) h
        refine ⟨hsuf.trans (hsuf1.trans (gettoken_suffix ps)), hlen, (gettoken ps).1 :: us ++ vs,
          ((gettoken ps).1.q, (gettoken ps).1.eq) :: ws, rs0 ++ rs'', ?_, .cons ha hrs hwr,
          by rw [List.append_assoc, List.singleton_append], by rw [List.append_assoc]⟩
        rw [tokens_of_ret h0, hus, hvs]
        simp only [List.cons_append, List.append_assoc]
    · rw [if_pos ha] at h
      cases h

theorem not_redir_of_wordRedirs {vs rest : List Tok} {ws : List (List Char × List Char)}
    {rs : List (Char × Tok)} (h : WordRedirs vs ws rs) (hf : Follows .exec rest) :
    ∀ t r, vs ++ rest = t :: r → ¬ IsRedir t := by
  intro t r he hredir
  cases h with
  | nil =>
    rw [List.nil_append] at he
    subst he
    simp only [Follows] at hf
    simp only [IsRedir] at hredir
    rcases hf with h | h | h | h <;> rcases hredir with h' | h' | h' <;> rw [h'] at h <;> cases h
  | cons ha _ _ =>
    simp only [List.cons_append, List.append_assoc, List.cons.injEq] at he
    obtain ⟨rfl, -⟩ := he
    simp only [IsRedir] at hredir
    rcases hredir with h' | h' | h' <;> rw [h'] at ha <;> cases ha

theorem execLoop_complete {vs : List Tok} {ws : List (List Char × List Char)}
    {rs' : List (Char × Tok)} (h : WordRedirs vs ws rs') :
    ∀ {argv : List (List Char × List Char)} {rs : List (Char × Tok)} {ps : List Char}
      {rest : List Tok} {fuel : Nat}, NulFree ps → tokens ps = vs ++ rest → Follows .exec rest →
      (argv ++ ws).length < MAXARGS → ps.length < fuel →
      ∃ ps', execLoop fuel argv rs ps = .ok (argv ++ ws, rs ++ rs', ps') ∧ ps' <:+ ps ∧
        tokens ps' = rest := by
  induction h with
  | nil =>
    intro argv rs ps rest fuel hn ht hf _ hlt
    obtain ⟨fuel, rfl⟩ : ∃ k, fuel = k + 1 := ⟨fuel - 1, by omega⟩
    rw [List.nil_append] at ht
    rw [List.append_nil, List.append_nil, execLoop]
    dsimp only
    rw [gettoken_peek]
    cases rest with
    | nil =>
      have hp : ¬ (peek ps ['|', ')', '&', ';']).2 = true := fun hpk => by
        obtain ⟨t, r, ht', -⟩ := (peek_stop_iff hn).mp hpk
        rw [ht] at ht'
        cases ht'
      obtain ⟨h0, hend⟩ := gettoken_of_tokens_nil hn ht
      rw [if_neg hp, if_pos h0]
      exact ⟨_, rfl, gettoken_suffix ps, by rw [hend, tokens_nil]⟩
    | cons t r =>
      have hp : (peek ps ['|', ')', '&', ';']).2 = true := by
        refine (peek_stop_iff hn).mpr ⟨t, r, ht, ?_⟩
        simp only [Follows] at hf
        tauto
      rw [if_pos hp]
      exact ⟨_, rfl, peek_suffix ps _, by rw [tokens_peek]; exact ht⟩
  | @cons t us vs ws rs0 rs'' ha hus hvs ih =>
    intro argv rs ps rest fuel hn ht hf hmax hlt
    obtain ⟨fuel, rfl⟩ : ∃ k, fuel = k + 1 := ⟨fuel - 1, by omega⟩
    simp only [List.cons_append, List.append_assoc] at ht
    have hp : ¬ (peek ps ['|', ')', '&', ';']).2 = true := fun hpk => by
      obtain ⟨t', r, ht', hstop⟩ := (peek_stop_iff hn).mp hpk
      rw [ht] at ht'
      cases ht'
      rcases hstop with h' | h' | h' | h' <;> rw [h'] at ha <;> cases ha
    obtain ⟨ht1, hrest⟩ := gettoken_of_tokens_cons ht
    have ha1 : (gettoken ps).1.ret = 'a' := by rw [ht1, ha]
    have h0 : (gettoken ps).1.ret ≠ '\x00' := by rw [ha1]; decide
    have hargs : ¬ MAXARGS ≤ argv.length + 1 := by
      rw [List.length_append, List.length_cons] at hmax
      omega
    have hn1 : NulFree (gettoken ps).2 := hn.of_suffix (gettoken_suffix ps)
    obtain ⟨ps1, hr, hsuf1, hrest1⟩ := redirLoop_complete hus hn1 hrest
      (not_redir_of_wordRedirs hvs hf) (Nat.lt_succ_self _)
    have hsuf : ps1 <:+ ps := hsuf1.trans (gettoken_suffix ps)
    have hlen : ps1.length < ps.length :=
      @length_lt_of_tokens _ _ (t :: us) hsuf (by rw [ht, hrest1]; rfl) (List.cons_ne_nil _ _)
    obtain ⟨ps', hloop, hsuf', hrest'⟩ :=
      @ih (argv ++ [(t.q, t.eq)]) (rs ++ rs0) ps1 rest fuel (hn.of_suffix hsuf) hrest1 hf
        (by rw [List.append_assoc, List.singleton_append]; exact hmax) (by omega)
    refine ⟨ps', ?_, hsuf'.trans hsuf, hrest'⟩
    rw [execLoop]
    dsimp only
    rw [gettoken_peek, if_neg hp, if_neg h0, if_neg (not_not.mpr ha1), if_neg hargs, readRedirs, hr]
    dsimp only
    rw [ht1, hloop]
    simp only [List.append_assoc, List.singleton_append]

theorem execLoop_error : ∀ (fuel : Nat) {argv : List (List Char × List Char)}
    {rs : List (Char × Tok)} {ps : List Char} {e : String}, NulFree ps → ps.length < fuel →
    execLoop fuel argv rs ps = .error e → Panic e
  | 0, _, _, _, _, _, hf, _ => absurd hf (Nat.not_lt_zero _)
  | fuel + 1, argv, rs, ps, e, hn, hf, h => by
    rw [execLoop] at h
    dsimp only at h
    rw [gettoken_peek] at h
    by_cases hp : (peek ps ['|', ')', '&', ';']).2 = true
    · rw [if_pos hp] at h
      cases h
    rw [if_neg hp] at h
    by_cases h0 : (gettoken ps).1.ret = '\x00'
    · rw [if_pos h0] at h
      cases h
    rw [if_neg h0] at h
    by_cases ha : (gettoken ps).1.ret = 'a'
    · rw [if_neg (not_not.mpr ha)] at h
      by_cases hmax : MAXARGS ≤ argv.length + 1
      · rw [if_pos hmax] at h
        cases h
        exact .inr (.inr (.inl rfl))
      rw [if_neg hmax] at h
      have hn1 : NulFree (gettoken ps).2 := hn.of_suffix (gettoken_suffix ps)
      have hlen := gettoken_length_lt h0
      cases hr : readRedirs (gettoken ps).2 with
      | error e' =>
        rw [hr] at h
        cases h
        exact .inr (.inl (redirLoop_error _ hn1 (Nat.lt_succ_self _) hr))
      | ok r =>
        rcases r with ⟨rs0, ps1⟩
        rw [hr] at h
        dsimp only at h
        obtain ⟨hsuf1, -⟩ := redirLoop_sound _ hn1 hr
        exact execLoop_error fuel (hn1.of_suffix hsuf1)
          (Nat.lt_of_le_of_lt hsuf1.length_le (by omega)) h
    · rw [if_pos ha] at h
      cases h
      exact .inl rfl

end Loops

/-! ### Soundness -/

/-- What the parser `f` returns with `n` calls left is derived from `X` by the tokens it took. -/
def Sound (X : Sym) (f : Nat → List Char → Except String (Cmd × List Char)) (n : Nat) : Prop :=
  ∀ {ps ps' : List Char} {c : Cmd}, NulFree ps → f n ps = .ok (c, ps') →
    ps' <:+ ps ∧ ∃ ts, tokens ps = ts ++ tokens ps' ∧ Gram X ts c

section Sound

variable {n : Nat}

theorem parseline_sound_succ (hp : Sound .pipe parsepipe n) (hl : Sound .line parseline n) :
    Sound .line parseline (n + 1) := by
  intro ps ps' c hn h
  rw [parseline] at h
  cases h1 : parsepipe n ps with
  | error e =>
    rw [h1] at h
    cases h
  | ok r =>
  rcases r with ⟨c1, ps1⟩
  rw [h1] at h
  dsimp only at h
  obtain ⟨hs1, ts, ht1, hg1⟩ := hp hn h1
  have hn1 := hn.of_suffix hs1
  cases h2 : backLoop (ps1.length + 1) c1 ps1 with
  | error e =>
    rw [h2] at h
    cases h
  | ok r =>
  rcases r with ⟨c2, ps2⟩
  rw [h2] at h
  dsimp only at h
  obtain ⟨hs2, us, k, ht2, hamps, rfl⟩ := backLoop_sound _ hn1 h2
  have hn2 := hn1.of_suffix hs2
  by_cases hsemi : (peek ps2 [';']).2 = true
  · rw [if_pos hsemi, gettoken_peek] at h
    obtain ⟨t, rest, ht, hts⟩ :=
      (peek_single_iff hn2 (by decide)).mp hsemi
    obtain ⟨-, hrest⟩ := gettoken_of_tokens_cons ht
    have hn3 : NulFree (gettoken ps2).2 := hn2.of_suffix (gettoken_suffix ps2)
    cases h3 : parseline n (gettoken ps2).2 with
    | error e =>
      rw [h3] at h
      cases h
    | ok r =>
    rcases r with ⟨d, ps3⟩
    rw [h3] at h
    cases h
    obtain ⟨hs3, vs, ht3, hg3⟩ := hl hn3 h3
    refine ⟨((hs3.trans (gettoken_suffix ps2)).trans hs2).trans hs1, ts ++ us ++ t :: vs, ?_,
      .list hg1 hamps hts hg3⟩
    rw [ht1, ht2, ht, ← hrest, ht3]
    simp only [List.append_assoc, List.cons_append]
  · rw [if_neg hsemi] at h
    cases h
    refine ⟨((peek_suffix ps2 _).trans hs2).trans hs1, ts ++ us, ?_, .line hg1 hamps⟩
    rw [tokens_peek, ht1, ht2, List.append_assoc]

theorem parsepipe_sound_succ (he : Sound .exec parseexec n) (hp : Sound .pipe parsepipe n) :
    Sound .pipe parsepipe (n + 1) := by
  intro ps ps' c hn h
  rw [parsepipe] at h
  cases h1 : parseexec n ps with
  | error e =>
    rw [h1] at h
    cases h
  | ok r =>
  rcases r with ⟨c1, ps1⟩
  rw [h1] at h
  dsimp only at h
  obtain ⟨hs1, ts, ht1, hg1⟩ := he hn h1
  have hn1 := hn.of_suffix hs1
  by_cases hbar : (peek ps1 ['|']).2 = true
  · rw [if_pos hbar, gettoken_peek] at h
    obtain ⟨t, rest, ht, hts⟩ :=
      (peek_single_iff hn1 (by decide)).mp hbar
    obtain ⟨-, hrest⟩ := gettoken_of_tokens_cons ht
    have hn2 : NulFree (gettoken ps1).2 := hn1.of_suffix (gettoken_suffix ps1)
    cases h2 : parsepipe n (gettoken ps1).2 with
    | error e =>
      rw [h2] at h
      cases h
    | ok r =>
    rcases r with ⟨d, ps2⟩
    rw [h2] at h
    cases h
    obtain ⟨hs2, us, ht2, hg2⟩ := hp hn2 h2
    refine ⟨(hs2.trans (gettoken_suffix ps1)).trans hs1, ts ++ t :: us, ?_, .pipeline hg1 hts hg2⟩
    rw [ht1, ht, ← hrest, ht2]
    simp only [List.append_assoc, List.cons_append]
  · rw [if_neg hbar] at h
    cases h
    exact ⟨(peek_suffix ps1 _).trans hs1, ts, by rw [tokens_peek, ht1], .pipe hg1⟩

theorem parseblock_sound_succ (hl : Sound .line parseline n) : Sound .exec parseblock (n + 1) := by
  intro ps ps' c hn h
  rw [parseblock] at h
  dsimp only at h
  by_cases hopen : (peek ps ['(']).2 = true
  · rw [if_neg (by rw [hopen]; decide), gettoken_peek] at h
    obtain ⟨t, rest, ht, hts⟩ :=
      (peek_single_iff hn (by decide)).mp hopen
    obtain ⟨-, hrest⟩ := gettoken_of_tokens_cons ht
    have hn1 : NulFree (gettoken ps).2 := hn.of_suffix (gettoken_suffix ps)
    cases h1 : parseline n (gettoken ps).2 with
    | error e =>
      rw [h1] at h
      cases h
    | ok r =>
    rcases r with ⟨c1, ps1⟩
    rw [h1] at h
    dsimp only at h
    obtain ⟨hs1, ts, ht1, hg1⟩ := hl hn1 h1
    have hn2 := hn1.of_suffix hs1
    by_cases hclose : (peek ps1 [')']).2 = true
    · rw [if_neg (by rw [hclose]; decide), gettoken_peek] at h
      obtain ⟨u, rest', hu, hus⟩ :=
        (peek_single_iff hn2 (by decide)).mp hclose
      obtain ⟨-, hrest'⟩ := gettoken_of_tokens_cons hu
      have hn3 : NulFree (gettoken ps1).2 := hn2.of_suffix (gettoken_suffix ps1)
      unfold parseredirs at h
      cases h2 : readRedirs (gettoken ps1).2 with
      | error e =>
        rw [h2] at h
        cases h
      | ok r =>
      rcases r with ⟨rs, ps2⟩
      rw [h2] at h
      cases h
      obtain ⟨hs2, vs, ht2, hrs⟩ := redirLoop_sound _ hn3 h2
      refine ⟨((hs2.trans (gettoken_suffix ps1)).trans hs1).trans (gettoken_suffix ps),
        t :: ts ++ u :: vs, ?_, .block hts hg1 hus hrs⟩
      rw [ht, ← hrest, ht1, hu, ← hrest', ht2]
      simp only [List.append_assoc, List.cons_append]
    · rw [if_pos (by rw [Bool.not_eq_true'] ; exact Bool.eq_false_iff.mpr hclose)] at h
      cases h
  · rw [if_pos (by rw [Bool.not_eq_true']; exact Bool.eq_false_iff.mpr hopen)] at h
    cases h

theorem parseexec_sound_succ (hb : Sound .exec parseblock n) : Sound .exec parseexec (n + 1) := by
  intro ps ps' c hn h
  rw [parseexec] at h
  have hn0 : NulFree (peek ps ['(']).1 := hn.of_suffix (peek_suffix ps _)
  by_cases hopen : (peek ps ['(']).2 = true
  · rw [if_pos hopen] at h
    obtain ⟨hs, ts, ht, hg⟩ := hb hn0 h
    exact ⟨hs.trans (peek_suffix ps _), ts, by rw [← tokens_peek ps ['('], ht], hg⟩
  · rw [if_neg hopen] at h
    cases h1 : readRedirs (peek ps ['(']).1 with
    | error e =>
      rw [h1] at h
      cases h
    | ok r =>
    rcases r with ⟨rs, ps1⟩
    rw [h1] at h
    dsimp only at h
    obtain ⟨hs1, us, ht1, hrs⟩ := redirLoop_sound _ hn0 h1
    have hn1 := hn0.of_suffix hs1
    cases h2 : execLoop (ps1.length + 1) [] rs ps1 with
    | error e =>
      rw [h2] at h
      cases h
    | ok r =>
    rcases r with ⟨argv, rs', ps2⟩
    rw [h2] at h
    cases h
    obtain ⟨hs2, hlen, vs, ws, rs'', ht2, hwr, hargv, hrs'⟩ :=
      execLoop_sound _ hn1 (by decide) h2
    rw [List.nil_append] at hargv
    subst hargv hrs'
    refine ⟨(hs2.trans hs1).trans (peek_suffix ps _), us ++ vs, ?_, .exec hrs hwr hlen⟩
    rw [← tokens_peek ps ['('], ht1, ht2, List.append_assoc]

end Sound

theorem parse_sound (n : Nat) : Sound .line parseline n ∧ Sound .pipe parsepipe n ∧
    Sound .exec parseexec n ∧ Sound .exec parseblock n := by
  induction n with
  | zero =>
    refine ⟨fun _ h => ?_, fun _ h => ?_, fun _ h => ?_, fun _ h => ?_⟩ <;> cases h
  | succ n ih =>
    obtain ⟨hl, hp, he, hb⟩ := ih
    exact ⟨parseline_sound_succ hp hl, parsepipe_sound_succ he hp, parseexec_sound_succ hb,
      parseblock_sound_succ hl⟩

/-! ### Completeness -/

def parseSym : Sym → Nat → List Char → Except String (Cmd × List Char)
  | .line => parseline
  | .pipe => parsepipe
  | .exec => parseexec

def Sym.rank : Sym → Nat
  | .line => 3
  | .pipe => 2
  | .exec => 1

/-- With more than four calls a character, the parser of `X` reads the tokens `ts` of a
derivation of `c` from `X`, into `c`, and stops before any token that may follow `X`. -/
def Complete (X : Sym) (ts : List Tok) (c : Cmd) : Prop :=
  ∀ {ps : List Char} {rest : List Tok} {n : Nat}, NulFree ps → tokens ps = ts ++ rest →
    Follows X rest → 4 * ps.length + X.rank < n →
    ∃ ps', parseSym X n ps = .ok (c, ps') ∧ ps' <:+ ps ∧ tokens ps' = rest

theorem not_open_of_exec {us vs rest : List Tok} {ws : List (List Char × List Char)}
    {rs rs' : List (Char × Tok)} (hrs : Redirs us rs) (hwr : WordRedirs vs ws rs')
    (hf : Follows .exec rest) : ∀ t r, us ++ vs ++ rest = t :: r → t.ret ≠ '(' := by
  cases hrs with
  | cons hredir _ _ =>
    rintro t r ⟨⟩ ho
    simp only [IsRedir, ho] at hredir
    rcases hredir with h | h | h <;> cases h
  | nil =>
    cases hwr with
    | cons ha _ _ =>
      rintro t r he ho
      simp only [List.nil_append, List.cons_append, List.append_assoc, List.cons.injEq] at he
      rw [he.1, ho] at ha
      cases ha
    | nil => exact hf.ret_ne (by decide)

section Complete

theorem complete_line {ts us : List Tok} {c : Cmd} {k : Nat} (ih : Complete .pipe ts c)
    (hamps : Amps us k) : Complete .line (ts ++ us) (Cmd.back^[k] c) := by
  intro ps rest n hn ht hf hfuel
  simp only [Sym.rank] at hfuel
  obtain ⟨m, rfl⟩ : ∃ m, n = m + 1 := ⟨n - 1, by omega⟩
  obtain ⟨ps1, h1, hs1, ht1⟩ := @ih ps (us ++ rest) m hn (by rw [ht, List.append_assoc])
    (hf.pipe_of_line.amps hamps) (by simp only [Sym.rank]; omega)
  have hn1 := hn.of_suffix hs1
  obtain ⟨ps2, h2, hs2, ht2⟩ := backLoop_complete hamps (c := c) hn1 ht1 (hf.ret_ne (by decide))
    (Nat.lt_succ_self _)
  have hsemi : ¬ (peek ps2 [';']).2 = true :=
    peek_single_not (hn1.of_suffix hs2) (by decide) (by rw [ht2]; exact hf.ret_ne (by decide))
  refine ⟨(peek ps2 [';']).1, ?_, ((peek_suffix ps2 _).trans hs2).trans hs1,
    by rw [tokens_peek, ht2]⟩
  dsimp only [parseSym] at h1 ⊢
  rw [parseline, h1]
  dsimp only
  rw [h2]
  dsimp only
  rw [if_neg hsemi]

theorem complete_list {ts us vs : List Tok} {t : Tok} {c d : Cmd} {k : Nat}
    (ih : Complete .pipe ts c) (hamps : Amps us k) (hts : t.ret = ';') (ih' : Complete .line vs d) :
    Complete .line (ts ++ us ++ t :: vs) (.list (Cmd.back^[k] c) d) := by
  intro ps rest n hn ht hf hfuel
  simp only [Sym.rank] at hfuel
  obtain ⟨m, rfl⟩ : ∃ m, n = m + 1 := ⟨n - 1, by omega⟩
  obtain ⟨ps1, h1, hs1, ht1⟩ := @ih ps (us ++ t :: (vs ++ rest)) m hn
    (by rw [ht]; simp only [List.append_assoc, List.cons_append])
    ((show Follows .pipe (t :: (vs ++ rest)) from Or.inr (Or.inr hts)).amps hamps)
    (by simp only [Sym.rank]; omega)
  have hn1 := hn.of_suffix hs1
  obtain ⟨ps2, h2, hs2, ht2⟩ := backLoop_complete hamps (c := c) hn1 ht1
    (by rintro t' r ⟨⟩; rw [hts]; decide) (Nat.lt_succ_self _)
  have hn2 := hn1.of_suffix hs2
  have hsemi : (peek ps2 [';']).2 = true := (peek_single_iff hn2 (by decide)).mpr ⟨t, _, ht2, hts⟩
  obtain ⟨-, ht3, hlt3⟩ := gettoken_of_cons ht2
  obtain ⟨ps4, h4, hs4, ht4⟩ := @ih' (gettoken ps2).2 rest m (hn2.of_suffix (gettoken_suffix ps2))
    ht3 hf (by have := hs1.length_le; have := hs2.length_le; simp only [Sym.rank]; omega)
  refine ⟨ps4, ?_, ((hs4.trans (gettoken_suffix ps2)).trans hs2).trans hs1, ht4⟩
  dsimp only [parseSym] at h1 h4 ⊢
  rw [parseline, h1]
  dsimp only
  rw [h2]
  dsimp only
  rw [if_pos hsemi, gettoken_peek, h4]

theorem complete_pipe {ts : List Tok} {c : Cmd} (ih : Complete .exec ts c) :
    Complete .pipe ts c := by
  intro ps rest n hn ht hf hfuel
  simp only [Sym.rank] at hfuel
  obtain ⟨m, rfl⟩ : ∃ m, n = m + 1 := ⟨n - 1, by omega⟩
  obtain ⟨ps1, h1, hs1, ht1⟩ := @ih ps rest m hn ht hf.exec_of_pipe
    (by simp only [Sym.rank]; omega)
  have hbar : ¬ (peek ps1 ['|']).2 = true :=
    peek_single_not (hn.of_suffix hs1) (by decide) (by rw [ht1]; exact hf.ret_ne (by decide))
  refine ⟨(peek ps1 ['|']).1, ?_, (peek_suffix ps1 _).trans hs1, by rw [tokens_peek, ht1]⟩
  dsimp only [parseSym] at h1 ⊢
  rw [parsepipe, h1]
  dsimp only
  rw [if_neg hbar]

theorem complete_pipeline {ts us : List Tok} {t : Tok} {c d : Cmd} (ih : Complete .exec ts c)
    (hts : t.ret = '|') (ih' : Complete .pipe us d) :
    Complete .pipe (ts ++ t :: us) (.pipe c d) := by
  intro ps rest n hn ht hf hfuel
  simp only [Sym.rank] at hfuel
  obtain ⟨m, rfl⟩ : ∃ m, n = m + 1 := ⟨n - 1, by omega⟩
  obtain ⟨ps1, h1, hs1, ht1⟩ := @ih ps (t :: (us ++ rest)) m hn
    (by rw [ht]; simp only [List.append_assoc, List.cons_append])
    (Or.inr (Or.inr (Or.inr hts))) (by simp only [Sym.rank]; omega)
  have hn1 := hn.of_suffix hs1
  have hbar : (peek ps1 ['|']).2 = true := (peek_single_iff hn1 (by decide)).mpr ⟨t, _, ht1, hts⟩
  obtain ⟨-, ht2, hlt2⟩ := gettoken_of_cons ht1
  obtain ⟨ps3, h3, hs3, ht3⟩ := @ih' (gettoken ps1).2 rest m (hn1.of_suffix (gettoken_suffix ps1))
    ht2 hf (by have := hs1.length_le; simp only [Sym.rank]; omega)
  refine ⟨ps3, ?_, (hs3.trans (gettoken_suffix ps1)).trans hs1, ht3⟩
  dsimp only [parseSym] at h1 h3 ⊢
  rw [parsepipe, h1]
  dsimp only
  rw [if_pos hbar, gettoken_peek, h3]

theorem complete_block {ts vs : List Tok} {t u : Tok} {c : Cmd} {rs : List (Char × Tok)}
    (hts : t.ret = '(') (ih : Complete .line ts c) (hus : u.ret = ')') (hrs : Redirs vs rs) :
    Complete .exec (t :: ts ++ u :: vs) (wrap c rs) := by
  intro ps rest n hn ht hf hfuel
  simp only [Sym.rank] at hfuel
  simp only [List.cons_append, List.append_assoc] at ht
  obtain ⟨-, ht1, hlt1⟩ := gettoken_of_cons ht
  obtain ⟨m, rfl⟩ : ∃ m, n = m + 2 := ⟨n - 2, by omega⟩
  have hopen : (peek ps ['(']).2 = true := (peek_single_iff hn (by decide)).mpr ⟨t, _, ht, hts⟩
  have hn1 : NulFree (gettoken ps).2 := hn.of_suffix (gettoken_suffix ps)
  obtain ⟨ps2, h2, hs2, ht2⟩ := @ih (gettoken ps).2 (u :: (vs ++ rest)) m hn1 ht1
    (show Follows .line (u :: (vs ++ rest)) from hus) (by simp only [Sym.rank]; omega)
  have hn2 := hn1.of_suffix hs2
  have hclose : (peek ps2 [')']).2 = true := (peek_single_iff hn2 (by decide)).mpr ⟨u, _, ht2, hus⟩
  obtain ⟨-, ht3, -⟩ := gettoken_of_cons ht2
  obtain ⟨ps4, h4, hs4, ht4⟩ := redirLoop_complete hrs (hn2.of_suffix (gettoken_suffix ps2)) ht3
    (not_redir_of_wordRedirs .nil hf) (Nat.lt_succ_self _)
  refine ⟨ps4, ?_, ((hs4.trans (gettoken_suffix ps2)).trans hs2).trans (gettoken_suffix ps), ht4⟩
  dsimp only [parseSym] at h2 ⊢
  rw [parseexec, if_pos hopen, parseblock]
  dsimp only
  rw [peek_peek, if_neg (by rw [hopen]; decide), gettoken_peek, h2]
  dsimp only
  rw [if_neg (by rw [hclose]; decide), gettoken_peek]
  unfold parseredirs readRedirs
  rw [h4]

theorem complete_exec {us vs : List Tok} {ws : List (List Char × List Char)}
    {rs rs' : List (Char × Tok)} (hrs : Redirs us rs) (hwr : WordRedirs vs ws rs')
    (hlen : ws.length < MAXARGS) : Complete .exec (us ++ vs) (wrap (.exec ws) (rs ++ rs')) := by
  intro ps rest n hn ht hf hfuel
  simp only [Sym.rank] at hfuel
  obtain ⟨m, rfl⟩ : ∃ m, n = m + 1 := ⟨n - 1, by omega⟩
  have hopen : ¬ (peek ps ['(']).2 = true :=
    peek_single_not hn (by decide) (by rw [ht]; exact not_open_of_exec hrs hwr hf)
  have hn0 : NulFree (peek ps ['(']).1 := hn.of_suffix (peek_suffix ps _)
  obtain ⟨ps1, h1, hs1, ht1⟩ := redirLoop_complete hrs hn0
    (by rw [tokens_peek, ht, List.append_assoc]) (not_redir_of_wordRedirs hwr hf) (Nat.lt_succ_self _)
  obtain ⟨ps2, h2, hs2, ht2⟩ := @execLoop_complete vs ws rs' hwr [] rs ps1 rest (ps1.length + 1)
    (hn0.of_suffix hs1) ht1 hf (by rw [List.nil_append]; exact hlen) (Nat.lt_succ_self _)
  refine ⟨ps2, ?_, (hs2.trans hs1).trans (peek_suffix ps _), ht2⟩
  dsimp only [parseSym]
  rw [parseexec, if_neg hopen, readRedirs, h1]
  dsimp only
  rw [h2, List.nil_append]

end Complete

theorem parse_complete {X : Sym} {ts : List Tok} {c : Cmd} (h : Gram X ts c) : Complete X ts c := by
  induction h with
  | line _ hamps ih => exact complete_line ih hamps
  | list _ hamps hts _ ih ih' => exact complete_list ih hamps hts ih'
  | pipe _ ih => exact complete_pipe ih
  | pipeline _ hts _ ih ih' => exact complete_pipeline ih hts ih'
  | block hts _ hus hrs ih => exact complete_block hts ih hus hrs
  | exec hrs hwr hlen => exact complete_exec hrs hwr hlen

/-! ### Failures -/

/-- With more than four calls a character, and `r` more, the parser `f` fails only by a
`panic`. -/
def Fails (f : Nat → List Char → Except String (Cmd × List Char)) (r n : Nat) : Prop :=
  ∀ {ps : List Char} {e : String}, NulFree ps → 4 * ps.length + r < n → f n ps = .error e →
    Panic e

section Fails

variable {n : Nat}

theorem parseline_fails_succ (hp : Fails parsepipe 2 n) (hl : Fails parseline 3 n) :
    Fails parseline 3 (n + 1) := by
  intro ps e hn hfuel h
  rw [parseline] at h
  cases h1 : parsepipe n ps with
  | error e' =>
    rw [h1] at h
    cases h
    exact hp hn (by omega) h1
  | ok r =>
  rcases r with ⟨c1, ps1⟩
  rw [h1] at h
  dsimp only at h
  obtain ⟨hs1, -⟩ := (parse_sound n).2.1 hn h1
  have hn1 := hn.of_suffix hs1
  cases h2 : backLoop (ps1.length + 1) c1 ps1 with
  | error e' => exact absurd h2 (backLoop_ne_error _ e' hn1 (Nat.lt_succ_self _))
  | ok r =>
  rcases r with ⟨c2, ps2⟩
  rw [h2] at h
  dsimp only at h
  obtain ⟨hs2, -⟩ := backLoop_sound _ hn1 h2
  have hn2 := hn1.of_suffix hs2
  by_cases hsemi : (peek ps2 [';']).2 = true
  · rw [if_pos hsemi, gettoken_peek] at h
    obtain ⟨t, rest, ht, -⟩ := (peek_single_iff hn2 (by decide)).mp hsemi
    obtain ⟨-, -, hlt⟩ := gettoken_of_cons ht
    cases h3 : parseline n (gettoken ps2).2 with
    | error e' =>
      rw [h3] at h
      cases h
      exact hl (hn2.of_suffix (gettoken_suffix ps2))
        (by have := hs1.length_le; have := hs2.length_le; omega) h3
    | ok r =>
      rw [h3] at h
      cases h
  · rw [if_neg hsemi] at h
    cases h

theorem parsepipe_fails_succ (he : Fails parseexec 1 n) (hp : Fails parsepipe 2 n) :
    Fails parsepipe 2 (n + 1) := by
  intro ps e hn hfuel h
  rw [parsepipe] at h
  cases h1 : parseexec n ps with
  | error e' =>
    rw [h1] at h
    cases h
    exact he hn (by omega) h1
  | ok r =>
  rcases r with ⟨c1, ps1⟩
  rw [h1] at h
  dsimp only at h
  obtain ⟨hs1, -⟩ := (parse_sound n).2.2.1 hn h1
  have hn1 := hn.of_suffix hs1
  by_cases hbar : (peek ps1 ['|']).2 = true
  · rw [if_pos hbar, gettoken_peek] at h
    obtain ⟨t, rest, ht, -⟩ := (peek_single_iff hn1 (by decide)).mp hbar
    obtain ⟨-, -, hlt⟩ := gettoken_of_cons ht
    cases h2 : parsepipe n (gettoken ps1).2 with
    | error e' =>
      rw [h2] at h
      cases h
      exact hp (hn1.of_suffix (gettoken_suffix ps1)) (by have := hs1.length_le; omega) h2
    | ok r =>
      rw [h2] at h
      cases h
  · rw [if_neg hbar] at h
    cases h

theorem parseblock_fails_succ (hl : Fails parseline 3 n) : Fails parseblock 0 (n + 1) := by
  intro ps e hn hfuel h
  rw [parseblock] at h
  dsimp only at h
  by_cases hopen : (peek ps ['(']).2 = true
  · rw [if_neg (by rw [hopen]; decide), gettoken_peek] at h
    obtain ⟨t, rest, ht, -⟩ := (peek_single_iff hn (by decide)).mp hopen
    obtain ⟨-, -, hlt⟩ := gettoken_of_cons ht
    have hn1 : NulFree (gettoken ps).2 := hn.of_suffix (gettoken_suffix ps)
    cases h1 : parseline n (gettoken ps).2 with
    | error e' =>
      rw [h1] at h
      cases h
      exact hl hn1 (by omega) h1
    | ok r =>
    rcases r with ⟨c1, ps1⟩
    rw [h1] at h
    dsimp only at h
    obtain ⟨hs1, -⟩ := (parse_sound n).1 hn1 h1
    have hn2 := hn1.of_suffix hs1
    by_cases hclose : (peek ps1 [')']).2 = true
    · rw [if_neg (by rw [hclose]; decide), gettoken_peek] at h
      unfold parseredirs at h
      cases h2 : readRedirs (gettoken ps1).2 with
      | error e' =>
        rw [h2] at h
        cases h
        exact Or.inr (Or.inl
          (redirLoop_error _ (hn2.of_suffix (gettoken_suffix ps1)) (Nat.lt_succ_self _) h2))
      | ok r =>
        rw [h2] at h
        cases h
    · rw [if_pos (by rw [Bool.not_eq_true']; exact Bool.eq_false_iff.mpr hclose)] at h
      cases h
      exact Or.inr (Or.inr (Or.inr (Or.inl rfl)))
  · rw [if_pos (by rw [Bool.not_eq_true']; exact Bool.eq_false_iff.mpr hopen)] at h
    cases h
    exact Or.inr (Or.inr (Or.inr (Or.inr rfl)))

theorem parseexec_fails_succ (hb : Fails parseblock 0 n) : Fails parseexec 1 (n + 1) := by
  intro ps e hn hfuel h
  rw [parseexec] at h
  have hn0 : NulFree (peek ps ['(']).1 := hn.of_suffix (peek_suffix ps _)
  by_cases hopen : (peek ps ['(']).2 = true
  · rw [if_pos hopen] at h
    exact hb hn0 (by have := (peek_suffix ps ['(']).length_le; omega) h
  · rw [if_neg hopen] at h
    cases h1 : readRedirs (peek ps ['(']).1 with
    | error e' =>
      rw [h1] at h
      cases h
      exact Or.inr (Or.inl (redirLoop_error _ hn0 (Nat.lt_succ_self _) h1))
    | ok r =>
    rcases r with ⟨rs, ps1⟩
    rw [h1] at h
    dsimp only at h
    obtain ⟨hs1, -⟩ := redirLoop_sound _ hn0 h1
    cases h2 : execLoop (ps1.length + 1) [] rs ps1 with
    | error e' =>
      rw [h2] at h
      cases h
      exact execLoop_error _ (hn0.of_suffix hs1) (Nat.lt_succ_self _) h2
    | ok r =>
      rw [h2] at h
      cases h

end Fails

theorem parse_panics (n : Nat) : Fails parseline 3 n ∧ Fails parsepipe 2 n ∧
    Fails parseexec 1 n ∧ Fails parseblock 0 n := by
  induction n with
  | zero =>
    refine ⟨fun _ h _ => ?_, fun _ h _ => ?_, fun _ h _ => ?_, fun _ h _ => ?_⟩ <;> omega
  | succ n ih =>
    obtain ⟨hl, hp, he, hb⟩ := ih
    exact ⟨parseline_fails_succ hp hl, parsepipe_fails_succ he hp, parseexec_fails_succ hb,
      parseblock_fails_succ hl⟩

end Xv6.Sh
