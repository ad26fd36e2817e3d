import Xv6.Lib.Ring
import Xv6.Lib.Run
import Xv6.Param

set_option autoImplicit false

/-!
# The console's input line discipline: `console.c`

`consoleintr` edits the text typed at the console in a ring of `INPUT_BUF` bytes with three
free-running `uint` indices: the bytes from `r` to `w` are committed and not yet read, those from
`w` to `e` are the line being edited. `consoleread` takes committed bytes from `r`. Each
character through `consoleintr`, and each pass of `consoleread`'s loop, is one step under
`cons.lock`; a reader asleep on `&input.r` tests again once a line is committed or it is killed.

The reference is a line editor on two lists, the committed text and the line being edited,
whose readers take committed bytes from the front. One system of readers is defined over any
representation of the input; `Input.abs` reads the two lists off the ring, and every step of the
console is a step of the line editor under it.
-/
namespace Xv6

def INPUT_BUF : Nat := 128

instance : NeZero INPUT_BUF := ⟨by decide⟩

def C (x : Char) : UInt8 := (x.toNat - '@'.toNat).toUInt8

/-- Where a process is in a `consoleread`. -/
inductive ReadCall where
  | idle
  /-- In `consoleread` of `target` bytes with `got` copied to `dst`, at `while(n > 0)`. -/
  | reading (target : Nat) (got : List UInt8)
  /-- Asleep on `&input.r`. -/
  | asleep (target : Nat) (got : List UInt8)
  /-- Returning `r`, with `got` copied to `dst`. -/
  | ret (r : Int) (got : List UInt8)
  deriving DecidableEq

def ReadCall.wake : ReadCall → ReadCall
  | .asleep target got => .reading target got
  | c => c

structure Input where
  buf : Fin INPUT_BUF → UInt8
  r : UInt32
  w : UInt32
  e : UInt32

namespace Input

def zero : Input := ⟨fun _ => 0, 0, 0, 0⟩

def slot (i : UInt32) : Fin INPUT_BUF := Ring.slot INPUT_BUF i.toNat

/-- The loop of `^U`: back `e` up to `w`, or to a newline. Fuel `WORD` is more passes than a loop
that moves a `uint` toward `w` can take. -/
def killLine : Nat → Input → Input
  | 0, inp => inp
  | fuel + 1, inp =>
    if inp.e ≠ inp.w ∧ inp.buf (slot (inp.e - 1)) ≠ 10 then
      killLine fuel { inp with e := inp.e - 1 }
    else inp

/-- One character through the `switch` of `consoleintr`, and whether it committed the line, which
is when `consoleintr` calls `wakeup(&input.r)`. `^P` only asks for a `procdump`. -/
def intr (inp : Input) (c : UInt8) : Input × Bool :=
  if c = C 'P' then (inp, false)
  else if c = C 'U' then (killLine WORD inp, false)
  else if c = C 'H' ∨ c = 0x7f then
    (if inp.e ≠ inp.w then { inp with e := inp.e - 1 } else inp, false)
  else if c ≠ 0 ∧ (inp.e - inp.r).toNat < INPUT_BUF then
    let c := if c = 13 then 10 else c
    let inp := { inp with buf := Function.update inp.buf (slot inp.e) c, e := inp.e + 1 }
    if c = 10 ∨ c = C 'D' ∨ inp.e = inp.r + 128 then ({ inp with w := inp.e }, true)
    else (inp, false)
  else (inp, false)

/-- One pass of the loop of `consoleread` by a reader that has copied `got` of `target` bytes. -/
def readPass (inp : Input) (killed : Bool) (target : Nat) (got : List UInt8) :
    Input × ReadCall :=
  if target - got.length > 0 then
    if inp.r = inp.w then (inp, if killed then .ret (-1) got else .asleep target got)
    else
      let c := inp.buf (slot inp.r)
      let inp := { inp with r := inp.r + 1 }
      if c = C 'D' then
        -- save `^D` for next time, so that the caller gets a 0-byte result
        (if target - got.length < target then { inp with r := inp.r - 1 } else inp,
          .ret got.length got)
      else if c = 10 then (inp, .ret (got.length + 1) (got ++ [c]))
      else (inp, .reading target (got ++ [c]))
  else (inp, .ret got.length got)

def committed (inp : Input) : List UInt8 :=
  Ring.window inp.buf inp.r.toNat (inp.w - inp.r).toNat

def pending (inp : Input) : List UInt8 :=
  Ring.window inp.buf inp.w.toNat (inp.e - inp.w).toNat

/-- `r ≤ w ≤ e ≤ r + INPUT_BUF` as unsigned differences, and the line being edited has no
newline. -/
structure Wf (inp : Input) : Prop where
  room : (inp.w - inp.r).toNat + (inp.e - inp.w).toNat ≤ INPUT_BUF
  no_newline : 10 ∉ inp.pending

end Input

/-! ### The reference line editor -/

structure Editor where
  committed : List UInt8
  pending : List UInt8

namespace Editor

/-- A character that goes into the line, `'\r'` as `'\n'`, unless `INPUT_BUF` bytes are
buffered; the line is committed at `'\n'`, at `^D`, or once `INPUT_BUF` bytes are buffered. -/
def store (E : Editor) (c : UInt8) : Editor × Bool :=
  if E.committed.length + E.pending.length < INPUT_BUF then
    let c := if c = 13 then 10 else c
    let line := E.pending ++ [c]
    if c = 10 ∨ c = C 'D' ∨ E.committed.length + line.length = INPUT_BUF then
      (⟨E.committed ++ line, []⟩, true)
    else (⟨E.committed, line⟩, false)
  else (E, false)

/-- One typed character: `NUL` and `^P` are ignored, `^U` erases the line, backspace and delete
erase its last character. -/
def key (E : Editor) (c : UInt8) : Editor × Bool :=
  if c = C 'P' ∨ c = 0 then (E, false)
  else if c = C 'U' then (⟨E.committed, []⟩, false)
  else if c = C 'H' ∨ c = 0x7f then (⟨E.committed, E.pending.dropLast⟩, false)
  else E.store c

/-- One step of a reader: committed bytes are taken from the front, up to `target` of them and
up to a newline; a `^D` ends the read, and is consumed only by a read that it starts. -/
def readPass (E : Editor) (killed : Bool) (target : Nat) (got : List UInt8) :
    Editor × ReadCall :=
  if got.length < target then
    match E.committed with
    | [] => (E, if killed then .ret (-1) got else .asleep target got)
    | c :: rest =>
      if c = C 'D' then (if got = [] then ⟨rest, E.pending⟩ else E, .ret got.length got)
      else if c = 10 then (⟨rest, E.pending⟩, .ret (got.length + 1) (got ++ [c]))
      else (⟨rest, E.pending⟩, .reading target (got ++ [c]))
  else (E, .ret got.length got)

def keyStoringCtrlP (E : Editor) (c : UInt8) : Editor × Bool :=
  if c = C 'P' then E.store c else E.key c

end Editor

/-- What the ring holds, as the line editor's two lists. -/
def Input.abs (inp : Input) : Editor := ⟨inp.committed, inp.pending⟩

/-! ### The ring under the three indices -/

namespace Input

theorem INPUT_BUF_dvd : INPUT_BUF ∣ 2 ^ 32 := ⟨2 ^ 25, by decide⟩

variable {inp : Input}

theorem committed_length : inp.committed.length = (inp.w - inp.r).toNat := Ring.length_window

theorem pending_length : inp.pending.length = (inp.e - inp.w).toNat := Ring.length_window

theorem committed_eq_nil_iff : inp.committed = [] ↔ inp.r = inp.w := by
  rw [← List.length_eq_zero_iff, committed_length, Ring.eq_iff_gap_zero]

theorem committed_pop (h : inp.r ≠ inp.w) :
    inp.committed = inp.buf (slot inp.r) :: { inp with r := inp.r + 1 }.committed := by
  have hpos : 0 < (inp.w - inp.r).toNat := by
    have := mt Ring.eq_iff_gap_zero.mpr h
    omega
  have hgap : (inp.w - (inp.r + 1)).toNat = (inp.w - inp.r).toNat - 1 := Ring.gap_succ_right hpos
  unfold committed
  change _ = _ :: Ring.window inp.buf (inp.r + 1).toNat (inp.w - (inp.r + 1)).toNat
  obtain ⟨m, hm⟩ : ∃ m, (inp.w - inp.r).toNat = m + 1 := ⟨_, (Nat.succ_pred_eq_of_pos hpos).symm⟩
  rw [hgap, hm, Ring.window_pop, Nat.add_sub_cancel]
  congr 1
  apply Ring.window_mod
  rw [UInt32.toNat_add, UInt32.toNat_one, Nat.mod_mod_of_dvd _ INPUT_BUF_dvd]

theorem pending_back (h : inp.e ≠ inp.w) :
    inp.pending = { inp with e := inp.e - 1 }.pending ++ [inp.buf (slot (inp.e - 1))] := by
  have hpos : 0 < (inp.e - inp.w).toNat := by
    have := mt Ring.eq_iff_gap_zero.mpr (Ne.symm h)
    omega
  have hgap : (inp.e - 1 - inp.w).toNat = (inp.e - inp.w).toNat - 1 := Ring.gap_pred_left hpos
  have hslot : slot (inp.e - 1) = Ring.slot INPUT_BUF (inp.w.toNat + ((inp.e - inp.w).toNat - 1)) := by
    rw [slot, Ring.slot_of_gap INPUT_BUF_dvd inp.w, hgap]
  unfold pending
  change _ = Ring.window inp.buf inp.w.toNat (inp.e - 1 - inp.w).toNat ++ _
  rw [hgap, hslot, ← Ring.window_succ, Nat.sub_add_cancel hpos]

theorem killLine_spec : ∀ (fuel : Nat) (inp : Input), (inp.e - inp.w).toNat < fuel →
    10 ∉ inp.pending → killLine fuel inp = { inp with e := inp.w }
  | 0, _, hfuel, _ => absurd hfuel (Nat.not_lt_zero _)
  | fuel + 1, inp, hfuel, hnl => by
    by_cases he : inp.e = inp.w
    · have hstop : ¬ (inp.e ≠ inp.w ∧ inp.buf (slot (inp.e - 1)) ≠ 10) := fun h => h.1 he
      rw [killLine, if_neg hstop]
      cases inp
      simp only at he
      rw [he]
    · have hback := pending_back he
      have hlast : inp.buf (slot (inp.e - 1)) ≠ 10 := fun h10 =>
        hnl (by rw [hback, h10]; exact List.mem_append_right _ (List.mem_singleton_self _))
      have hpos : 0 < (inp.e - inp.w).toNat := by
        have := mt Ring.eq_iff_gap_zero.mpr (Ne.symm he)
        omega
      rw [killLine, if_pos ⟨he, hlast⟩,
        killLine_spec fuel { inp with e := inp.e - 1 }
          (by change (inp.e - 1 - inp.w).toNat < fuel; rw [Ring.gap_pred_left hpos]; omega)
          (fun h => hnl (by rw [hback]; exact List.mem_append_left _ h))]

theorem commit_line (h : (inp.w - inp.r).toNat + (inp.e - inp.w).toNat < 2 ^ 32) :
    { inp with w := inp.e }.committed = inp.committed ++ inp.pending ∧
      { inp with w := inp.e }.pending = [] := by
  refine ⟨?_, ?_⟩
  · unfold committed pending
    change Ring.window inp.buf inp.r.toNat (inp.e - inp.r).toNat = _
    rw [Ring.gap_add h, Ring.window_append]
    congr 1
    exact Ring.window_mod (Ring.toNat_mod_of_gap INPUT_BUF_dvd inp.r inp.w).symm
  · unfold pending
    change Ring.window inp.buf inp.e.toNat (inp.e - inp.e).toNat = []
    rw [UInt32.sub_self]
    rfl

theorem store_byte (hw : inp.Wf) (hroom : (inp.e - inp.r).toNat < INPUT_BUF) (b : UInt8) :
    let inp' : Input := { inp with buf := Function.update inp.buf (slot inp.e) b, e := inp.e + 1 }
    inp'.committed = inp.committed ∧ inp'.pending = inp.pending ++ [b] ∧
      (inp'.w - inp'.r).toNat + (inp'.e - inp'.w).toNat =
        (inp.w - inp.r).toNat + (inp.e - inp.w).toNat + 1 := by
  intro inp'
  have hsum : (inp.e - inp.r).toNat = (inp.w - inp.r).toNat + (inp.e - inp.w).toNat :=
    Ring.gap_add (by have := hw.room; unfold INPUT_BUF at this; omega)
  have hlt : (inp.e - inp.w).toNat < INPUT_BUF := by omega
  have hnext : (inp.e + 1 - inp.w).toNat = (inp.e - inp.w).toNat + 1 :=
    Ring.gap_succ_left (by unfold INPUT_BUF at hlt; omega)
  refine ⟨?_, ?_, ?_⟩
  · apply Ring.window_update_outside
    intro k hk
    change k < (inp.w - inp.r).toNat at hk
    rw [slot, Ring.slot_of_gap INPUT_BUF_dvd inp.r, hsum]
    exact (Ring.slot_ne (by omega) (by omega) _).symm
  · change Ring.window (Function.update inp.buf (slot inp.e) b) inp.w.toNat
      (inp.e + 1 - inp.w).toNat = _
    rw [hnext, slot, Ring.slot_of_gap INPUT_BUF_dvd inp.w]
    exact Ring.window_push b hlt
  · change (inp.w - inp.r).toNat + (inp.e + 1 - inp.w).toNat = _
    rw [hnext, Nat.add_assoc]

theorem back_refines (hw : inp.Wf) :
    let inp' := if inp.e ≠ inp.w then { inp with e := inp.e - 1 } else inp
    inp'.Wf ∧ inp'.abs = ⟨inp.committed, inp.pending.dropLast⟩ := by
  intro inp'
  by_cases he : inp.e = inp.w
  · have hnil : inp.pending = [] := List.eq_nil_of_length_eq_zero (by
      rw [pending_length, he, UInt32.sub_self]
      rfl)
    have hinp' : inp' = inp := if_neg (not_not.mpr he)
    rw [hinp', hnil, List.dropLast_nil]
    exact ⟨hw, by rw [Input.abs, hnil]⟩
  · have hinp' : inp' = { inp with e := inp.e - 1 } := if_pos he
    have hback := pending_back he
    have hpos : 0 < (inp.e - inp.w).toNat := by
      have := mt Ring.eq_iff_gap_zero.mpr (Ne.symm he)
      omega
    rw [hinp']
    refine ⟨⟨?_, ?_⟩, ?_⟩
    · change (inp.w - inp.r).toNat + (inp.e - 1 - inp.w).toNat ≤ INPUT_BUF
      rw [Ring.gap_pred_left hpos]
      have := hw.room
      omega
    · exact fun h => hw.no_newline (by rw [hback]; exact List.mem_append_left _ h)
    · rw [hback, List.dropLast_concat]
      rfl

theorem killLine_refines (hw : inp.Wf) :
    (killLine WORD inp).Wf ∧ (killLine WORD inp).abs = ⟨inp.committed, []⟩ := by
  have hlt : (inp.e - inp.w).toNat < WORD := by
    have := hw.room
    unfold INPUT_BUF at this
    unfold WORD
    omega
  rw [killLine_spec WORD inp hlt hw.no_newline]
  have hnil : ({ inp with e := inp.w } : Input).pending = [] := by
    unfold pending
    change Ring.window inp.buf inp.w.toNat (inp.w - inp.w).toNat = []
    rw [UInt32.sub_self]
    rfl
  refine ⟨⟨?_, by rw [hnil]; exact List.not_mem_nil⟩, by rw [Input.abs, hnil]; rfl⟩
  change (inp.w - inp.r).toNat + (inp.w - inp.w).toNat ≤ INPUT_BUF
  rw [UInt32.sub_self]
  exact le_trans (Nat.le_add_right _ _) hw.room

theorem store_refines (hw : inp.Wf) {c : UInt8} (h0 : c ≠ 0) :
    let out := if c ≠ 0 ∧ (inp.e - inp.r).toNat < INPUT_BUF then
        let c := if c = 13 then 10 else c
        let inp := { inp with buf := Function.update inp.buf (slot inp.e) c, e := inp.e + 1 }
        if c = 10 ∨ c = C 'D' ∨ inp.e = inp.r + 128 then ({ inp with w := inp.e }, true)
        else (inp, false)
      else (inp, false)
    out.1.Wf ∧ (out.1.abs, out.2) = inp.abs.store c := by
  intro out
  have hsum : (inp.e - inp.r).toNat = (inp.w - inp.r).toNat + (inp.e - inp.w).toNat :=
    Ring.gap_add (by have := hw.room; unfold INPUT_BUF at this; omega)
  have hlen : inp.abs.committed.length + inp.abs.pending.length = (inp.e - inp.r).toNat := by
    rw [hsum]
    exact congrArg₂ (· + ·) committed_length pending_length
  by_cases hroom : (inp.e - inp.r).toNat < INPUT_BUF
  · obtain ⟨hc₁, hp₁, hs₁⟩ := store_byte hw hroom (if c = 13 then 10 else c)
    set b : UInt8 := if c = 13 then 10 else c with hb
    set inp₁ : Input := { inp with buf := Function.update inp.buf (slot inp.e) b, e := inp.e + 1 }
    have hout : out = if b = 10 ∨ b = C 'D' ∨ inp₁.e = inp₁.r + 128 then
        ({ inp₁ with w := inp₁.e }, true) else (inp₁, false) := if_pos ⟨h0, hroom⟩
    have hsum₁ : (inp₁.e - inp₁.r).toNat = (inp.w - inp.r).toNat + (inp.e - inp.w).toNat + 1 := by
      rw [← hs₁]
      exact Ring.gap_add (by rw [hs₁]; unfold INPUT_BUF at hroom; omega)
    have hfull : inp₁.e = inp₁.r + 128 ↔
        inp.abs.committed.length + (inp.abs.pending ++ [b]).length = INPUT_BUF := by
      rw [Ring.eq_add_iff_gap, List.length_append, List.length_singleton, ← Nat.add_assoc, hlen,
        hsum₁, hsum]
      rfl
    rw [Editor.store, if_pos (by rw [hlen]; exact hroom)]
    dsimp only
    rw [← hb]
    by_cases hcommit : b = 10 ∨ b = C 'D' ∨ inp.abs.committed.length +
        (inp.abs.pending ++ [b]).length = INPUT_BUF
    · have hcommit₁ : b = 10 ∨ b = C 'D' ∨ inp₁.e = inp₁.r + 128 := by rwa [hfull]
      rw [hout, if_pos hcommit₁, if_pos hcommit]
      obtain ⟨hc₂, hp₂⟩ := @commit_line inp₁
        (by rw [hs₁]; have := hw.room; unfold INPUT_BUF at this; omega)
      refine ⟨⟨?_, by rw [hp₂]; exact List.not_mem_nil⟩, ?_⟩
      · change (inp₁.e - inp₁.r).toNat + (inp₁.e - inp₁.e).toNat ≤ INPUT_BUF
        rw [UInt32.sub_self, hsum₁]
        change _ + 0 ≤ INPUT_BUF
        omega
      · rw [Input.abs, hc₂, hp₂, hc₁, hp₁]
        rfl
    · have hcommit₁ : ¬ (b = 10 ∨ b = C 'D' ∨ inp₁.e = inp₁.r + 128) := by rwa [hfull]
      rw [hout, if_neg hcommit₁, if_neg hcommit]
      refine ⟨⟨by rw [hs₁]; omega, ?_⟩, by rw [Input.abs, hc₁, hp₁]; rfl⟩
      rw [hp₁]
      intro hmem
      rcases List.mem_append.mp hmem with hmem | hmem
      · exact hw.no_newline hmem
      · exact hcommit (.inl (List.mem_singleton.mp hmem).symm)
  · have hout : out = (inp, false) := if_neg (fun h => hroom h.2)
    rw [hout, Editor.store, if_neg (by rw [hlen]; exact hroom)]
    exact ⟨hw, rfl⟩

theorem intr_refines (hw : inp.Wf) (c : UInt8) :
    (inp.intr c).1.Wf ∧ ((inp.intr c).1.abs, (inp.intr c).2) = inp.abs.key c := by
  by_cases hP : c = C 'P'
  · rw [intr, if_pos hP, Editor.key, if_pos (.inl hP)]
    exact ⟨hw, rfl⟩
  by_cases h0 : c = 0
  · subst h0
    have hP0 : ¬ (0 : UInt8) = C 'P' := by decide
    have hU0 : ¬ (0 : UInt8) = C 'U' := by decide
    have hH0 : ¬ ((0 : UInt8) = C 'H' ∨ (0 : UInt8) = 0x7f) := by decide
    rw [intr, if_neg hP0, if_neg hU0, if_neg hH0, if_neg (fun h => h.1 rfl), Editor.key,
      if_pos (Or.inr rfl)]
    exact ⟨hw, rfl⟩
  have hkey : ¬ (c = C 'P' ∨ c = 0) := fun h => h.elim hP h0
  by_cases hU : c = C 'U'
  · rw [intr, if_neg hP, if_pos hU, Editor.key, if_neg hkey, if_pos hU]
    obtain ⟨hwf, habs⟩ := killLine_refines hw
    exact ⟨hwf, by rw [habs]; rfl⟩
  by_cases hH : c = C 'H' ∨ c = 0x7f
  · rw [intr, if_neg hP, if_neg hU, if_pos hH, Editor.key, if_neg hkey, if_neg hU, if_pos hH]
    obtain ⟨hwf, habs⟩ := back_refines hw
    exact ⟨hwf, by rw [habs]; rfl⟩
  rw [intr, if_neg hP, if_neg hU, if_neg hH, Editor.key, if_neg hkey, if_neg hU, if_neg hH]
  exact store_refines hw h0

theorem readPass_refines (hw : inp.Wf) (killed : Bool) (target : Nat) (got : List UInt8) :
    (inp.readPass killed target got).1.Wf ∧
      ((inp.readPass killed target got).1.abs, (inp.readPass killed target got).2) =
        inp.abs.readPass killed target got := by
  by_cases hn : got.length < target
  · have hn' : target - got.length > 0 := by omega
    by_cases hrw : inp.r = inp.w
    · have hnil : inp.abs.committed = [] := committed_eq_nil_iff.mpr hrw
      rw [readPass, if_pos hn', if_pos hrw, Editor.readPass, if_pos hn, hnil]
      exact ⟨hw, rfl⟩
    · set inp₁ : Input := { inp with r := inp.r + 1 }
      have hpos : 0 < (inp.w - inp.r).toNat := by
        have := mt Ring.eq_iff_gap_zero.mpr hrw
        omega
      have hwf₁ : inp₁.Wf := by
        refine ⟨?_, hw.no_newline⟩
        change (inp.w - (inp.r + 1)).toNat + (inp.e - inp.w).toNat ≤ INPUT_BUF
        rw [Ring.gap_succ_right hpos]
        have := hw.room
        omega
      rw [readPass, if_pos hn', if_neg hrw, Editor.readPass, if_pos hn]
      have hcons : inp.abs.committed = inp.buf (slot inp.r) :: inp₁.committed := committed_pop hrw
      rw [hcons]
      dsimp only
      by_cases hD : inp.buf (slot inp.r) = C 'D'
      · rw [if_pos hD, if_pos hD]
        by_cases hg : got = []
        · -- a `^D` that starts the read is consumed
          subst hg
          rw [if_neg (by simp), if_pos rfl]
          exact ⟨hwf₁, rfl⟩
        · -- a `^D` that ends a read is left for the next one
          have hback : ({ inp₁ with r := inp₁.r - 1 } : Input) = inp := by
            change ({ inp with r := inp.r + 1 - 1 } : Input) = inp
            rw [add_sub_cancel_right]
          rw [if_pos (by have := List.length_pos_of_ne_nil hg; omega), if_neg hg, hback]
          exact ⟨hw, rfl⟩
      · rw [if_neg hD, if_neg hD]
        by_cases h10 : inp.buf (slot inp.r) = 10
        · rw [if_pos h10, if_pos h10]
          exact ⟨hwf₁, rfl⟩
        · rw [if_neg h10, if_neg h10]
          exact ⟨hwf₁, rfl⟩
  · rw [readPass, if_neg (by omega), Editor.readPass, if_neg hn]
    exact ⟨hw, rfl⟩

end Input

/-! ### Readers and typists -/

/-- The console with its input kept as `β`: the processes' reads, and who is killed. -/
structure ConsSys (β ι : Type) where
  input : β
  call : ι → ReadCall
  killed : ι → Bool

def ConsSys.map {β β' ι : Type} (f : β → β') (s : ConsSys β ι) : ConsSys β' ι :=
  ⟨f s.input, s.call, s.killed⟩

/-- A console before any character or read. -/
def ConsSys.Init {β ι : Type} (b₀ : β) (s : ConsSys β ι) : Prop :=
  s.input = b₀ ∧ ∀ i, s.call i = .idle

variable {ι : Type} [DecidableEq ι]

open Function (update)

def wakeIf (b : Bool) (call : ι → ReadCall) : ι → ReadCall :=
  if b then fun j => (call j).wake else call

/-- One step of a console whose input `key` edits and `pass` reads: a character typed, a read
begun, one pass of a reader's loop, a kill, or a read returned to its caller. -/
inductive ConsStep {β : Type} (key : β → UInt8 → β × Bool)
    (pass : β → Bool → Nat → List UInt8 → β × ReadCall) : ConsSys β ι → ConsSys β ι → Prop
  | intr (s : ConsSys β ι) (c : UInt8) :
      ConsStep key pass s ⟨(key s.input c).1, wakeIf (key s.input c).2 s.call, s.killed⟩
  | readBegin (s : ConsSys β ι) (i : ι) (target : Nat) : s.call i = .idle →
      ConsStep key pass s ⟨s.input, update s.call i (.reading target []), s.killed⟩
  | read (s : ConsSys β ι) (i : ι) {target : Nat} {got : List UInt8} :
      s.call i = .reading target got →
      ConsStep key pass s ⟨(pass s.input (s.killed i) target got).1,
        update s.call i (pass s.input (s.killed i) target got).2, s.killed⟩
  | kill (s : ConsSys β ι) (i : ι) :
      ConsStep key pass s ⟨s.input, update s.call i (s.call i).wake, update s.killed i true⟩
  | finish (s : ConsSys β ι) (i : ι) {r : Int} {got : List UInt8} : s.call i = .ret r got →
      ConsStep key pass s ⟨s.input, update s.call i .idle, s.killed⟩

theorem ConsStep.map {β β' : Type} {key : β → UInt8 → β × Bool}
    {pass : β → Bool → Nat → List UInt8 → β × ReadCall} {key' : β' → UInt8 → β' × Bool}
    {pass' : β' → Bool → Nat → List UInt8 → β' × ReadCall} (f : β → β') {P : β → Prop}
    (hkey : ∀ x c, P x → key' (f x) c = (f (key x c).1, (key x c).2))
    (hpass : ∀ x k t g, P x → pass' (f x) k t g = (f (pass x k t g).1, (pass x k t g).2))
    {s s' : ConsSys β ι} (hs : ConsStep key pass s s') (hP : P s.input) :
    ConsStep key' pass' (s.map f) (s'.map f) := by
  cases hs with
  | intr c =>
    have hc : ConsStep key' pass' (s.map f) _ := ConsStep.intr (s.map f) c
    rwa [ConsSys.map, hkey s.input c hP] at hc
  | readBegin i target hi => exact ConsStep.readBegin (s.map f) i target hi
  | read i hi =>
    have hc : ConsStep key' pass' (s.map f) _ := ConsStep.read (s.map f) i hi
    rwa [ConsSys.map, hpass _ _ _ _ hP] at hc
  | kill i => exact ConsStep.kill (s.map f) i
  | finish i hi => exact ConsStep.finish (s.map f) i hi

def ConsoleReachable : ConsSys Input ι → Prop :=
  Run.Reachable (ConsStep Input.intr Input.readPass) (ConsSys.Init Input.zero)

def LineEditorReachable : ConsSys Editor ι → Prop :=
  Run.Reachable (ConsStep Editor.key Editor.readPass) (ConsSys.Init ⟨[], []⟩)

theorem Input.zero_wf : Input.zero.Wf := ⟨by decide, by decide⟩

theorem ConsStep.wf {s s' : ConsSys Input ι} (hs : ConsStep Input.intr Input.readPass s s')
    (hw : s.input.Wf) : s'.input.Wf := by
  cases hs with
  | intr c => exact (Input.intr_refines hw c).1
  | read i _ => exact (Input.readPass_refines hw _ _ _).1
  | readBegin => exact hw
  | kill => exact hw
  | finish => exact hw

theorem reachable_wf {s : ConsSys Input ι} (h : ConsoleReachable s) : s.input.Wf := by
  refine @Run.reachable_invariant _ (ConsStep Input.intr Input.readPass) (ConsSys.Init Input.zero)
    (fun x => x.input.Wf) ?_ ?_ s h
  · rintro s₀ ⟨hinput, -⟩
    rw [hinput]
    exact Input.zero_wf
  · intro x y hx hxy
    exact hxy.wf hx

/-- The console is the line editor. In every run of the console, with typed characters and the
passes of any number of readers interleaved and the indices wrapping around: `r ≤ w ≤ e` and
`e - r ≤ INPUT_BUF` as unsigned differences; the ring, read as committed text and the line being
edited, is a state the line editor reaches with the same reads under way; `consoleintr` of any
character and any pass of `consoleread` give, read the same way, exactly what the editor gives
for that character or that pass; and so every further step of the console is a step of the
line editor. -/
theorem console_refines_line_editor {s : ConsSys Input ι} (h : ConsoleReachable s) :
    (s.input.e - s.input.r).toNat =
        (s.input.w - s.input.r).toNat + (s.input.e - s.input.w).toNat ∧
      (s.input.e - s.input.r).toNat ≤ INPUT_BUF ∧
      LineEditorReachable (s.map Input.abs) ∧
      (∀ c, ((s.input.intr c).1.abs, (s.input.intr c).2) = s.input.abs.key c) ∧
      (∀ killed target got,
        ((s.input.readPass killed target got).1.abs, (s.input.readPass killed target got).2) =
          s.input.abs.readPass killed target got) ∧
      ∀ s', ConsStep Input.intr Input.readPass s s' →
        ConsStep Editor.key Editor.readPass (s.map Input.abs) (s'.map Input.abs) := by
  have hw := reachable_wf h
  have hsum : (s.input.e - s.input.r).toNat =
      (s.input.w - s.input.r).toNat + (s.input.e - s.input.w).toNat :=
    Ring.gap_add (by have := hw.room; unfold INPUT_BUF at this; omega)
  -- every console step is an editor step, from any state where the ring is well formed
  have hstep : ∀ x y : ConsSys Input ι, x.input.Wf → ConsStep Input.intr Input.readPass x y →
      ConsStep Editor.key Editor.readPass (x.map Input.abs) (y.map Input.abs) :=
    fun x y hx hxy => ConsStep.map Input.abs
      (fun z c hz => (Input.intr_refines hz c).2.symm)
      (fun z k t g hz => (Input.readPass_refines hz k t g).2.symm) hxy hx
  refine ⟨hsum, hsum ▸ hw.room, ?_, fun c => (Input.intr_refines hw c).2,
    fun k t g => (Input.readPass_refines hw k t g).2, fun s' hs' => hstep s s' hw hs'⟩
  refine Run.Reachable.map (ConsSys.map Input.abs) ?_ hstep (fun _ hx => reachable_wf hx) h
  rintro s₀ ⟨hinput, hidle⟩
  exact ⟨by rw [ConsSys.map, hinput]; rfl, hidle⟩

theorem console_refines_line_editor_boot :
    ConsoleReachable (⟨Input.zero, fun _ => .idle, fun _ => false⟩ : ConsSys Input (Fin 1)) ∧
      LineEditorReachable
        ((⟨Input.zero, fun _ => .idle, fun _ => false⟩ : ConsSys Input (Fin 1)).map Input.abs) :=
  have h : ConsoleReachable (⟨Input.zero, fun _ => .idle, fun _ => false⟩ : ConsSys Input (Fin 1)) :=
    Run.Reachable.of_init ⟨rfl, fun _ => rfl⟩
  ⟨h, (console_refines_line_editor h).2.2.1⟩

/-- `^P` is not stored. Typed before a newline, it never reaches a reader: a read of two bytes
returns the newline alone, where an editor that stored `^P` as an ordinary character would have
committed both. -/
theorem consoleread_drops_ctrlP :
    ∃ s : ConsSys Input (Fin 1), ConsoleReachable s ∧ s.call 0 = .ret 1 [10] ∧
      (((⟨[], []⟩ : Editor).keyStoringCtrlP (C 'P')).1.keyStoringCtrlP 10).1.committed =
        [C 'P', 10] := by
  let s₀ : ConsSys Input (Fin 1) := ⟨Input.zero, fun _ => .idle, fun _ => false⟩
  have h₀ : ConsoleReachable s₀ := Run.Reachable.of_init ⟨rfl, fun _ => rfl⟩
  have h₁ : ConsStep Input.intr Input.readPass s₀ _ := ConsStep.intr s₀ (C 'P')
  have hrun := ((Relation.ReflTransGen.single h₁).tail (ConsStep.intr _ 10)).tail
    (ConsStep.readBegin _ 0 2 (by decide))
  refine ⟨_, Run.Reachable.tail h₀
    (hrun.tail (ConsStep.read _ 0 (show _ = ReadCall.reading 2 [] by decide))), ?_, ?_⟩
  all_goals decide

end Xv6
