import Mathlib.Data.List.Nodup
import Mathlib.Logic.Function.Basic

set_option autoImplicit false

/-!
# Circular doubly linked lists through a sentinel

The nodes are `Option ι`: `none` is the sentinel (the list head) and `some x` an element. The
links are two functions `next` and `prev`. A list `l` of distinct elements stands for the circle
`none, l₀, …, lₙ₋₁, none`; `after l` and `before l` are its successor and predecessor, and
`Represents lk l` says the links `lk` are those of the circle on each of its nodes.

The pointer updates that insert a node at the front and that unlink a node, written in the order
a C program does them, move the circle to `b :: l` and to `l.erase b`. A walk along `next` from
the sentinel meets the elements in the order of `l`, so it finds what `List.find?` finds; a walk
along `prev` is a walk along `next` of the reversed circle.
-/
namespace DList

variable {ι : Type*} [DecidableEq ι]

def after : List ι → Option ι → Option ι
  | [], _ => none
  | a :: _, none => some a
  | a :: l, some x => if x = a then l.head? else after l (some x)

def before (l : List ι) (y : Option ι) : Option ι := after l.reverse y

/-- The nodes of the circle of `l`: the sentinel and the elements. -/
def OnCircle (l : List ι) : Option ι → Prop
  | none => True
  | some x => x ∈ l

/-! ### The circle of a list -/

section Circle

variable {l pre suf l₁ l₂ : List ι} {x : ι}

omit [DecidableEq ι] in
theorem not_mem_of_nodup_middle (h : (pre ++ x :: suf).Nodup) : x ∉ pre ∧ x ∉ suf := by
  have h' := List.nodup_cons.1 (List.nodup_middle.1 h)
  exact ⟨fun hp => h'.1 (List.mem_append_left _ hp), fun hs => h'.1 (List.mem_append_right _ hs)⟩

theorem after_none (l : List ι) : after l none = l.head? := by cases l <;> rfl

theorem after_cons_some (a : ι) (l : List ι) (x : ι) :
    after (a :: l) (some x) = if x = a then l.head? else after l (some x) := rfl

theorem before_none (l : List ι) : before l none = l.getLast? := by
  rw [before, after_none, List.head?_reverse]

omit [DecidableEq ι] in
theorem onCircle_reverse {y : Option ι} : OnCircle l.reverse y ↔ OnCircle l y := by
  cases y with
  | none => exact Iff.rfl
  | some y => exact List.mem_reverse

theorem before_reverse (y : Option ι) : before l.reverse y = after l y := by
  rw [before, List.reverse_reverse]

omit [DecidableEq ι] in
theorem onCircle_head? (l : List ι) : OnCircle l l.head? := by
  cases l with
  | nil => trivial
  | cons a l => exact List.mem_cons_self

omit [DecidableEq ι] in
theorem OnCircle.cons {a : ι} {y : Option ι} (h : OnCircle l y) : OnCircle (a :: l) y := by
  cases y with
  | none => trivial
  | some y => exact List.mem_cons_of_mem a h

theorem onCircle_after (l : List ι) (y : Option ι) : OnCircle l (after l y) := by
  induction l with
  | nil => trivial
  | cons a l ih =>
    cases y with
    | none => exact List.mem_cons_self
    | some x =>
      rw [after_cons_some]
      split_ifs
      · exact (onCircle_head? l).cons
      · exact ih.cons

theorem after_append_cons (h : x ∉ pre) : after (pre ++ x :: suf) (some x) = suf.head? := by
  induction pre with
  | nil => rw [List.nil_append, after_cons_some, if_pos rfl]
  | cons a pre ih =>
    rw [List.mem_cons, not_or] at h
    rw [List.cons_append, after_cons_some, if_neg h.1, ih h.2]

theorem before_append_cons (h : x ∉ suf) : before (pre ++ x :: suf) (some x) = pre.getLast? := by
  rw [before, List.reverse_append, List.reverse_cons, List.append_assoc, List.singleton_append,
    after_append_cons (mt List.mem_reverse.1 h), List.head?_reverse]

theorem after_append_none (l₁ l₂ : List ι) :
    after (l₁ ++ l₂) none = if l₁ = [] then l₂.head? else l₁.head? := by
  cases l₁ with
  | nil => rw [List.nil_append, after_none, if_pos rfl]
  | cons a l₁ => rw [List.cons_append, after_none, if_neg (List.cons_ne_nil a l₁)]; rfl

theorem after_append_of_not_mem (h : x ∉ l₁) :
    after (l₁ ++ l₂) (some x) = after l₂ (some x) := by
  induction l₁ with
  | nil => rfl
  | cons a l₁ ih =>
    rw [List.mem_cons, not_or] at h
    rw [List.cons_append, after_cons_some, if_neg h.1, ih h.2]

theorem after_append_of_mem (hx : x ∈ l₁) (hnd : (l₁ ++ l₂).Nodup) :
    after (l₁ ++ l₂) (some x) = if l₁.getLast? = some x then l₂.head? else after l₁ (some x) := by
  obtain ⟨p, q, rfl⟩ := List.append_of_mem hx
  have hnd' : (p ++ x :: (q ++ l₂)).Nodup := by rwa [List.append_assoc, List.cons_append] at hnd
  have hn := not_mem_of_nodup_middle hnd'
  have hxq : x ∉ q := fun hq => hn.2 (List.mem_append_left _ hq)
  rw [List.append_assoc, List.cons_append, after_append_cons hn.1, after_append_cons hn.1]
  cases q with
  | nil =>
    rw [List.getLast?_append, List.getLast?_singleton, Option.some_or, if_pos rfl,
      List.nil_append]
  | cons z q =>
    have hlast : (p ++ x :: z :: q).getLast? ≠ some x := by
      intro h
      rw [List.append_cons, List.getLast?_append] at h
      cases hz : (z :: q).getLast? with
      | none => exact absurd hz (by simp)
      | some y =>
        rw [hz] at h
        cases h
        exact hxq (List.mem_of_getLast? hz)
    rw [if_neg hlast]
    rfl

theorem before_after (hnd : l.Nodup) {y : Option ι} (hy : OnCircle l y) :
    before l (after l y) = y := by
  cases y with
  | none =>
    cases l with
    | nil => rfl
    | cons a t =>
      rw [after_none, List.head?_cons, ← List.nil_append (a :: t),
        before_append_cons (List.nodup_cons.1 hnd).1]
      rfl
  | some y =>
    obtain ⟨p, q, rfl⟩ := List.append_of_mem (hy : y ∈ l)
    rw [after_append_cons (not_mem_of_nodup_middle hnd).1]
    cases q with
    | nil => rw [List.head?_nil, before_none, List.getLast?_append, List.getLast?_singleton]; rfl
    | cons z q =>
      rw [List.append_cons] at hnd ⊢
      rw [List.head?_cons, before_append_cons (not_mem_of_nodup_middle hnd).2,
        List.getLast?_append, List.getLast?_singleton]
      rfl

theorem after_erase_middle {b : ι} (hnd : (pre ++ b :: suf).Nodup) {y : Option ι}
    (hy : OnCircle (pre ++ suf) y) :
    after (pre ++ suf) y =
      if y = pre.getLast? then suf.head? else after (pre ++ b :: suf) y := by
  have hb := not_mem_of_nodup_middle hnd
  have hnd' : (pre ++ suf).Nodup := List.nodup_middle.1 hnd |> List.nodup_cons.1 |>.2
  cases y with
  | none =>
    rw [after_append_none, after_append_none]
    by_cases hp : pre = []
    · rw [if_pos hp, if_pos hp, if_pos (by rw [hp]; rfl)]
    · rw [if_neg hp, if_neg hp, if_neg (fun h => hp (List.getLast?_eq_none_iff.1 h.symm))]
  | some y =>
    rcases List.mem_append.1 (hy : y ∈ pre ++ suf) with hpre | hsuf
    · rw [after_append_of_mem hpre hnd', after_append_of_mem hpre hnd]
      by_cases hlast : pre.getLast? = some y
      · rw [if_pos hlast, if_pos hlast.symm]
      · rw [if_neg hlast, if_neg (Ne.symm hlast), if_neg hlast]
    · have hyp : y ∉ pre := fun h => (List.nodup_append.1 hnd').2.2 y h y hsuf rfl
      have hyb : y ≠ b := fun h => hb.2 (h ▸ hsuf)
      have hlast : some y ≠ pre.getLast? := fun h => hyp (List.mem_of_getLast? h.symm)
      rw [after_append_of_not_mem hyp, after_append_of_not_mem hyp, if_neg hlast,
        after_cons_some, if_neg hyb]

end Circle

/-! ### Links -/

/-- The two link fields of every node, the sentinel's included. -/
structure Links (ι : Type*) where
  next : Option ι → Option ι
  prev : Option ι → Option ι

/-- `lk` links the circle of `l` on each of its nodes. -/
def Represents (lk : Links ι) (l : List ι) : Prop :=
  ∀ y, OnCircle l y → lk.next y = after l y ∧ lk.prev y = before l y

namespace Links

def pushFront (lk : Links ι) (b : ι) : Links ι :=
  let next := Function.update lk.next (some b) (lk.next none)
  let prev := Function.update lk.prev (some b) none
  let prev := Function.update prev (next none) (some b)
  ⟨Function.update next none (some b), prev⟩

def unlink (lk : Links ι) (b : ι) : Links ι :=
  let prev := Function.update lk.prev (lk.next (some b)) (lk.prev (some b))
  ⟨Function.update lk.next (prev (some b)) (lk.next (some b)), prev⟩

def swap (lk : Links ι) : Links ι := ⟨lk.prev, lk.next⟩

end Links

def scan (lk : Links ι) (p : ι → Bool) : Nat → Option ι → Option (Option ι)
  | _, none => some none
  | 0, some _ => none
  | n + 1, some b => if p b then some (some b) else scan lk p n (lk.next (some b))

/-! ### What the pointer updates do to the circle -/

section Represents

variable {lk : Links ι} {l : List ι}

theorem represents_nil (hn : lk.next none = none) (hp : lk.prev none = none) :
    Represents lk [] := by
  intro y hy
  cases y with
  | none => exact ⟨hn, hp⟩
  | some y => exact absurd hy List.not_mem_nil

theorem Represents.prev_next (h : Represents lk l) (hnd : l.Nodup) {y : Option ι}
    (hy : OnCircle l y) : lk.prev (lk.next y) = y := by
  rw [(h y hy).1, (h _ (onCircle_after l y)).2]
  exact before_after hnd hy

theorem Represents.swap (h : Represents lk l) : Represents lk.swap l.reverse := by
  intro y hy
  have hy' := onCircle_reverse.1 hy
  refine ⟨(h y hy').2, ?_⟩
  rw [before_reverse]
  exact (h y hy').1

theorem Represents.pushFront {b : ι} (h : Represents lk l) (hnd : l.Nodup) (hb : b ∉ l) :
    Represents (lk.pushFront b) (b :: l) := by
  have hhead : lk.next none = l.head? := (h none trivial).1.trans (after_none l)
  intro y hy
  constructor
  · change Function.update (Function.update lk.next (some b) (lk.next none)) none (some b) y =
      after (b :: l) y
    cases y with
    | none => rw [Function.update_self]; rfl
    | some y =>
      rw [Function.update_of_ne (Option.some_ne_none y), after_cons_some]
      by_cases hyb : y = b
      · rw [hyb, Function.update_self, if_pos rfl, hhead]
      · rw [Function.update_of_ne (fun h => hyb (Option.some_inj.1 h)), if_neg hyb]
        exact (h (some y) ((List.mem_cons.1 hy).resolve_left hyb)).1
  · change Function.update (Function.update lk.prev (some b) none)
      (Function.update lk.next (some b) (lk.next none) none) (some b) y = before (b :: l) y
    have hnd' : (l.reverse ++ [b]).Nodup := by
      rw [← List.reverse_cons]
      exact List.nodup_reverse.2 (List.nodup_cons.2 ⟨hb, hnd⟩)
    rw [Function.update_of_ne (Option.some_ne_none b).symm, hhead, Function.update_apply, before,
      List.reverse_cons]
    cases y with
    | none =>
      cases l with
      | nil => rfl
      | cons a t =>
        rw [List.head?_cons, if_neg (Option.some_ne_none a).symm,
          Function.update_of_ne (Option.some_ne_none b).symm, (h none trivial).2, before_none,
          after_append_none, if_neg (List.reverse_ne_nil_iff.2 (List.cons_ne_nil a t)),
          List.head?_reverse]
    | some y =>
      by_cases hyb : y = b
      · subst hyb
        have hne : some y ≠ l.head? := fun h => hb (List.mem_of_mem_head? h.symm)
        rw [if_neg hne, Function.update_self, after_append_cons (mt List.mem_reverse.1 hb)]
        rfl
      · have hyl : y ∈ l := (List.mem_cons.1 hy).resolve_left hyb
        rw [Function.update_of_ne (fun h => hyb (Option.some_inj.1 h)),
          after_append_of_mem (List.mem_reverse.2 hyl) hnd', List.getLast?_reverse, (h (some y) hyl).2]
        by_cases hh : some y = l.head?
        · rw [if_pos hh, if_pos hh.symm]
          rfl
        · rw [if_neg hh, if_neg (Ne.symm hh)]
          rfl

theorem Represents.foldl_pushFront (h : Represents lk l) (hnd : l.Nodup) (bs : List ι)
    (hbs : (bs ++ l).Nodup) : Represents (bs.foldl Links.pushFront lk) (bs.reverse ++ l) := by
  induction bs generalizing lk l with
  | nil => exact h
  | cons b bs ih =>
    have hbl : b ∉ l := fun hl => (List.nodup_cons.1 hbs).1 (List.mem_append_right _ hl)
    rw [List.foldl_cons, List.reverse_cons, List.append_assoc, List.singleton_append]
    exact ih (h.pushFront hnd hbl) (List.nodup_cons.2 ⟨hbl, hnd⟩) (List.nodup_middle.2 hbs)

theorem Represents.unlink {b : ι} (h : Represents lk l) (hnd : l.Nodup) (hb : b ∈ l) :
    Represents (lk.unlink b) (l.erase b) := by
  obtain ⟨pre, suf, rfl⟩ := List.append_of_mem hb
  have hbn := not_mem_of_nodup_middle hnd
  rw [List.erase_append_right _ hbn.1, List.erase_cons_head]
  have hnext : lk.next (some b) = suf.head? :=
    (h (some b) hb).1.trans (after_append_cons hbn.1)
  have hprev : lk.prev (some b) = pre.getLast? :=
    (h (some b) hb).2.trans (before_append_cons hbn.2)
  have hpb : Function.update lk.prev (lk.next (some b)) (lk.prev (some b)) (some b) =
      pre.getLast? := by
    rw [Function.update_apply]
    split_ifs <;> exact hprev
  intro y hy
  have hy' : OnCircle (pre ++ b :: suf) y := by
    cases y with
    | none => trivial
    | some x =>
      rcases List.mem_append.1 (hy : x ∈ pre ++ suf) with hx | hx
      · exact List.mem_append_left _ hx
      · exact List.mem_append_right _ (List.mem_cons_of_mem b hx)
  constructor
  · change Function.update lk.next
      (Function.update lk.prev (lk.next (some b)) (lk.prev (some b)) (some b))
      (lk.next (some b)) y = after (pre ++ suf) y
    rw [hpb, hnext, Function.update_apply, after_erase_middle hnd hy, (h y hy').1]
  · change Function.update lk.prev (lk.next (some b)) (lk.prev (some b)) y =
      before (pre ++ suf) y
    have hrev : (pre ++ b :: suf).reverse = suf.reverse ++ b :: pre.reverse := by simp
    have hrnd : (suf.reverse ++ b :: pre.reverse).Nodup := by
      rw [← hrev]
      exact List.nodup_reverse.2 hnd
    have hry : OnCircle (suf.reverse ++ pre.reverse) y := by
      rw [← List.reverse_append]
      exact onCircle_reverse.2 hy
    rw [hnext, hprev, Function.update_apply, before, List.reverse_append,
      after_erase_middle hrnd hry, List.getLast?_reverse, List.head?_reverse, ← hrev,
      (h y hy').2]
    rfl

theorem Represents.moveFront {b : ι} (h : Represents lk l) (hnd : l.Nodup) (hb : b ∈ l) :
    Represents ((lk.unlink b).pushFront b) (b :: l.erase b) :=
  (h.unlink hnd hb).pushFront (hnd.erase b) (List.Nodup.not_mem_erase hnd)

theorem Represents.scan_suffix (h : Represents lk l) (hnd : l.Nodup) (p : ι → Bool)
    {pre suf : List ι} (hl : l = pre ++ suf) {fuel : Nat} (hf : suf.length ≤ fuel) :
    scan lk p fuel suf.head? = some (suf.find? p) := by
  induction suf generalizing pre fuel with
  | nil => cases fuel <;> rfl
  | cons a suf ih =>
    obtain ⟨n, rfl⟩ : ∃ n, fuel = n + 1 := ⟨fuel - 1, by rw [List.length_cons] at hf; omega⟩
    have ha : lk.next (some a) = suf.head? := by
      rw [hl] at h hnd
      exact (h (some a) (List.mem_append_right _ List.mem_cons_self)).1.trans
        (after_append_cons (not_mem_of_nodup_middle hnd).1)
    change (if p a then some (some a) else scan lk p n (lk.next (some a))) =
      some (List.find? p (a :: suf))
    rw [List.find?_cons]
    cases hp : p a with
    | true => rfl
    | false =>
      change scan lk p n (lk.next (some a)) = some (List.find? p suf)
      rw [ha]
      exact ih (show l = (pre ++ [a]) ++ suf by rw [hl, List.append_assoc, List.singleton_append])
        (by rw [List.length_cons] at hf; omega)

theorem Represents.scan_eq (h : Represents lk l) (hnd : l.Nodup) (p : ι → Bool) {fuel : Nat}
    (hf : l.length ≤ fuel) : scan lk p fuel (lk.next none) = some (l.find? p) := by
  rw [(h none trivial).1, after_none]
  exact h.scan_suffix hnd p (List.nil_append l).symm hf

theorem Represents.scan_back (h : Represents lk l) (hnd : l.Nodup) (p : ι → Bool) {fuel : Nat}
    (hf : l.length ≤ fuel) : scan lk.swap p fuel (lk.prev none) = some (l.reverse.find? p) :=
  h.swap.scan_eq (List.nodup_reverse.2 hnd) p (by rwa [List.length_reverse])

end Represents

end DList
